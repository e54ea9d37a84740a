import Procore.Process.Family

/-! # The family links over whole runs

The children of each process form a `Linked` chain. `set_links` pushes onto such a chain,
`remove_links` takes an element out, and the loop of `do_exit` moves one chain over to the chain
of `initproc`, element by element.
-/

namespace Procore.Process.Family

open Procore.Lib Family
open Function (update update_apply update_of_ne update_self)

/-! ## Fields after an update -/

theorem modify_apply (nodes : Nat → Node) (a q : Nat) (f : Node → Node) :
    modify nodes a f q = if q = a then f (nodes q) else nodes q := by
  rw [modify, update_apply]
  split_ifs with same
  · rw [same]
  · rfl

section Push

variable (nodes : Nat → Node) (p x q : Nat)

theorem pushChild_optr : (pushChild nodes p x q).optr =
    if q = x then (nodes p).cptr else (nodes q).optr := by
  unfold pushChild
  cases (nodes p).cptr <;> grind [modify_apply]

theorem pushChild_yptr : (pushChild nodes p x q).yptr =
    if (nodes p).cptr = some q then some x else if q = x then none else (nodes q).yptr := by
  unfold pushChild
  cases (nodes p).cptr <;> grind [modify_apply]

theorem pushChild_cptr : (pushChild nodes p x q).cptr =
    if q = p then some x else (nodes q).cptr := by
  unfold pushChild
  cases (nodes p).cptr <;> grind [modify_apply]

theorem pushChild_rest : (pushChild nodes p x q).parent = (nodes q).parent ∧
    (pushChild nodes p x q).zombie = (nodes q).zombie ∧
    (pushChild nodes p x q).creator = (nodes q).creator := by
  unfold pushChild
  cases (nodes p).cptr <;> grind [modify_apply]

theorem removeChild_optr : (removeChild nodes x q).optr =
    if (nodes x).yptr = some q then (nodes x).optr else (nodes q).optr := by
  unfold removeChild
  cases (nodes x).optr <;> cases (nodes x).yptr <;> grind [modify_apply]

theorem removeChild_yptr : (removeChild nodes x q).yptr =
    if (nodes x).optr = some q then (nodes x).yptr else (nodes q).yptr := by
  unfold removeChild
  cases (nodes x).optr <;> cases (nodes x).yptr <;> grind [modify_apply]

theorem removeChild_cptr : (removeChild nodes x q).cptr =
    if (nodes x).yptr = none ∧ q = (nodes x).parent then (nodes x).optr else (nodes q).cptr := by
  unfold removeChild
  cases (nodes x).optr <;> cases (nodes x).yptr <;> grind [modify_apply]

theorem removeChild_rest : (removeChild nodes x q).parent = (nodes q).parent ∧
    (removeChild nodes x q).zombie = (nodes q).zombie ∧
    (removeChild nodes x q).creator = (nodes q).creator := by
  unfold removeChild
  cases (nodes x).optr <;> cases (nodes x).yptr <;> grind [modify_apply]

end Push

/-! ## The forest -/

/-- `kids p` are the processes of `on` whose parent is `p`, in the order of their chain. -/
structure Forest (nodes : Nat → Node) (on : Nat → Prop) (kids : Nat → List Nat)
    (before : Nat → Option Nat) : Prop where
  linked : ∀ p, Linked (fun q => (nodes q).optr) (fun q => (nodes q).yptr) (before p) (nodes p).cptr (kids p)
  nodup : ∀ p, (kids p).Nodup
  mem : ∀ p q, q ∈ kids p ↔ on q ∧ (nodes q).parent = p

namespace Forest

variable {nodes nodes' : Nat → Node} {on on' : Nat → Prop} {kids : Nat → List Nat}
  {before : Nat → Option Nat}

/-- Only the links and the parents count. -/
theorem congr (h : Forest nodes on kids before) (same : ∀ q, (nodes' q).optr = (nodes q).optr ∧
    (nodes' q).yptr = (nodes q).yptr ∧ (nodes' q).cptr = (nodes q).cptr ∧
    (nodes' q).parent = (nodes q).parent) (iff : ∀ q, on' q ↔ on q) :
    Forest nodes' on' kids before where
  linked p := by
    rw [(same p).2.2.1]
    exact (h.linked p).frame (fun q _ => (same q).1) fun q _ => (same q).2.1
  nodup := h.nodup
  mem p q := by rw [h.mem, iff, (same q).2.2.2]

variable {x : Nat}

theorem push (h : Forest nodes on kids before) {p : Nat} (fresh : ¬ on x)
    (parent : (nodes x).parent = p) (start : before p = none) :
    Forest (pushChild nodes p x) (fun q => q = x ∨ on q) (update kids p (x :: kids p))
      before where
  linked q := by
    have apart : ∀ {r y}, y ∈ kids r → y ≠ x := by
      rintro r y mem rfl
      exact fresh ((h.mem r y).mp mem).1
    have first : ∀ {y}, (nodes p).cptr = some y → y ∈ kids p := fun here =>
      Linked.mem_of_first (here ▸ h.linked p)
    rw [pushChild_cptr]
    rcases eq_or_ne q p with rfl | other
    · rw [if_pos rfl, update_self, start]
      have chain := h.linked q
      rw [start] at chain
      refine chain.push (h.nodup q) ?_ ?_ ?_ ?_ ?_
      · simp [pushChild_optr]
      · have ne : (nodes q).cptr ≠ some x := fun here => apart (first here) rfl
        simp [pushChild_yptr, ne]
      · exact fun y mem => by simp [pushChild_optr, apart mem]
      · exact fun y here => by simp [pushChild_yptr, here]
      · exact fun y mem ne => by simp [pushChild_yptr, ne, apart mem]
    · rw [if_neg other, update_of_ne other]
      refine (h.linked q).frame (fun y mem => by simp [pushChild_optr, apart mem]) fun y mem => ?_
      have ne : (nodes p).cptr ≠ some y := by
        intro here
        have same := ((h.mem p y).mp (first here)).2
        exact other (((h.mem q y).mp mem).2.symm.trans same)
      simp [pushChild_yptr, ne, apart mem]
  nodup q := by
    rcases eq_or_ne q p with rfl | other
    · rw [update_self]
      exact List.nodup_cons.mpr ⟨fun mem => fresh ((h.mem q x).mp mem).1, h.nodup q⟩
    · rw [update_of_ne other]
      exact h.nodup q
  mem q y := by
    rw [(pushChild_rest nodes p x y).1]
    rcases eq_or_ne q p with rfl | other
    · rw [update_self, List.mem_cons, h.mem]
      grind
    · rw [update_of_ne other, h.mem]
      grind

section

variable (h : Forest nodes on kids fun _ => none) (mem : on x)
include h mem

theorem sibling {y : Nat} (step : (nodes x).optr = some y ∨ (nodes x).yptr = some y) :
    on y ∧ (nodes y).parent = (nodes x).parent := by
  have here : x ∈ kids (nodes x).parent := (h.mem _ _).mpr ⟨mem, rfl⟩
  apply (h.mem _ _).mp
  rcases step with older | younger
  · exact List.mem_of_mem_tail ((h.linked _).next_mem here older).1
  · rcases (h.linked _).prev_mem here younger with ⟨none, _⟩ | ⟨mem, _⟩
    · cases none
    · exact mem

theorem youngest : (nodes (nodes x).parent).cptr = some x ↔ (nodes x).yptr = none := by
  have here : x ∈ kids (nodes x).parent := (h.mem _ _).mpr ⟨mem, rfl⟩
  have chain := h.linked (nodes x).parent
  constructor
  · intro first
    cases all : kids (nodes x).parent with
    | nil => simp [all] at here
    | cons y ys =>
      rw [all, first] at chain
      obtain ⟨⟨⟩, back, _⟩ := chain
      exact back
  · intro alone
    rcases chain.prev_cases here with ⟨first, _⟩ | ⟨y, back, _⟩
    · exact first
    · simp [alone] at back

theorem remove : Forest (removeChild nodes x) (fun q => q ≠ x ∧ on q)
      (update kids (nodes x).parent ((kids (nodes x).parent).erase x)) fun _ => none where
  linked q := by
    have here : x ∈ kids (nodes x).parent := (h.mem _ _).mpr ⟨mem, rfl⟩
    rcases eq_or_ne q (nodes x).parent with rfl | other
    · have gone : Linked (fun q => (removeChild nodes x q).optr) (fun q => (removeChild nodes x q).yptr)
          none (if (nodes (nodes x).parent).cptr = some x then (nodes x).optr
            else (nodes (nodes x).parent).cptr) ((kids (nodes x).parent).erase x) :=
        (h.linked (nodes x).parent).remove (h.nodup _) nofun here
          (fun y _ ne => by simp [removeChild_optr, ne]) (fun y back => by simp [removeChild_optr, back])
          (fun y _ ne => by simp [removeChild_yptr, ne]) (fun y step => by simp [removeChild_yptr, step])
      simpa [removeChild_cptr, h.youngest mem] using gone
    · have apart : ∀ y ∈ kids q, (nodes x).optr ≠ some y ∧ (nodes x).yptr ≠ some y := by
        intro y child
        have parent := ((h.mem q y).mp child).2
        refine ⟨fun step => other ?_, fun step => other ?_⟩
        · exact parent.symm.trans (h.sibling mem (.inl step)).2
        · exact parent.symm.trans (h.sibling mem (.inr step)).2
      rw [update_of_ne other, removeChild_cptr, if_neg fun both => other both.2]
      exact (h.linked q).frame (fun y child => by simp [removeChild_optr, (apart y child).2])
        fun y child => by simp [removeChild_yptr, (apart y child).1]
  nodup q := by
    rcases eq_or_ne q (nodes x).parent with rfl | other
    · rw [update_self]
      exact (h.nodup _).erase x
    · rw [update_of_ne other]
      exact h.nodup q
  mem q y := by
    rw [(removeChild_rest nodes x y).1]
    rcases eq_or_ne q (nodes x).parent with rfl | other
    · rw [update_self, (h.nodup _).mem_erase_iff, h.mem]
      grind
    · rw [update_of_ne other, h.mem]
      grind

end

variable {current : Nat}

/-- The youngest child of `current` is taken off its chain. The next one keeps its `yptr`. -/
theorem take (h : Forest nodes on kids before) (ne : current ≠ initproc)
    (first : (nodes current).cptr = some x) : ∃ rest, kids current = x :: rest ∧
      Forest (modify (modify nodes current fun node => { node with cptr := (nodes x).optr }) x
          fun node => { node with parent := initproc })
        (fun q => q ≠ x ∧ on q) (update kids current rest)
        (update before current (some x)) := by
  have chain := h.linked current
  rw [first] at chain
  obtain ⟨rest, all⟩ : ∃ rest, kids current = x :: rest := by
    cases all : kids current with
    | nil =>
      rw [all] at chain
      cases chain
    | cons y ys =>
      rw [all] at chain
      obtain ⟨⟨⟩, _⟩ := chain
      exact ⟨ys, rfl⟩
  have child := (h.mem current x).mp (by simp [all])
  have unique := h.nodup current
  rw [all] at chain unique
  obtain ⟨_, _, onward⟩ := chain
  refine ⟨rest, all, fun p => ?_, fun p => ?_, fun p q => ?_⟩
  · rcases eq_or_ne p current with rfl | other
    · rw [update_self, update_self]
      have cptr : (modify (modify nodes p fun node => { node with cptr := (nodes x).optr }) x
          (fun node => { node with parent := initproc }) p).cptr = (nodes x).optr := by
        grind [modify_apply]
      rw [cptr]
      exact onward.frame (fun q _ => by grind [modify_apply]) fun q _ => by grind [modify_apply]
    · rw [update_of_ne other, update_of_ne other]
      have cptr : (modify (modify nodes current fun node => { node with cptr := (nodes x).optr }) x
          (fun node => { node with parent := initproc }) p).cptr = (nodes p).cptr := by
        grind [modify_apply]
      rw [cptr]
      exact (h.linked p).frame (fun q _ => by grind [modify_apply]) fun q _ => by grind [modify_apply]
  · rcases eq_or_ne p current with rfl | other
    · rw [update_self]
      exact (List.nodup_cons.mp unique).2
    · rw [update_of_ne other]
      exact h.nodup p
  · have parent : (modify (modify nodes current fun node => { node with cptr := (nodes x).optr }) x
        (fun node => { node with parent := initproc }) q).parent =
          if q = x then initproc else (nodes q).parent := by
      grind [modify_apply]
    have before := h.mem p q
    rcases eq_or_ne p current with rfl | other
    · grind
    · grind

/-- What the loop of `do_exit` does to the other fields. -/
structure Moved (nodes nodes' : Nat → Node) (on : Nat → Prop) (current : Nat) : Prop where
  parent : ∀ q, (on q ∧ (nodes q).parent = current → (nodes' q).parent = initproc) ∧
    (¬ (on q ∧ (nodes q).parent = current) → (nodes' q).parent = (nodes q).parent)
  zombie : ∀ q, (nodes' q).zombie = (nodes q).zombie
  creator : ∀ q, (nodes' q).creator = (nodes q).creator

theorem adopt (h : Forest nodes on kids before) (ne : current ≠ initproc)
    (start : before initproc = none) (first : (nodes current).cptr = some x) :
    ∃ rest kids', kids current = x :: rest ∧ kids' current = rest ∧
      Forest (Family.adopt nodes current) on kids' (update before current (some x)) ∧
      (Family.adopt nodes current x).parent = initproc ∧ (nodes x).parent = current ∧
      (∀ q, q ≠ x → (Family.adopt nodes current q).parent = (nodes q).parent) ∧
      ∀ q, (Family.adopt nodes current q).zombie = (nodes q).zombie ∧
        (Family.adopt nodes current q).creator = (nodes q).creator := by
  obtain ⟨rest, all, taken⟩ := h.take ne first
  have child := (h.mem current x).mp (by simp [all])
  have pushed := taken.push (p := initproc) (x := x) (by simp) (by simp [modify_apply])
    (by rwa [update_of_ne ne.symm])
  have unfolded : Family.adopt nodes current = pushChild (modify (modify nodes current fun node =>
      { node with cptr := (nodes x).optr }) x fun node => { node with parent := initproc }) initproc x := by
    simp [Family.adopt, first]
  have forest : Forest (Family.adopt nodes current) on (update (update kids current rest)
      initproc (x :: update kids current rest initproc)) (update before current (some x)) := by
    rw [unfolded]
    exact pushed.congr (fun _ => ⟨rfl, rfl, rfl, rfl⟩) fun q => by grind
  refine ⟨rest, _, all, by simp [ne], forest, ?_, child.2, ?_, ?_⟩
  · rw [unfolded, (pushChild_rest ..).1]
    simp [modify_apply]
  · intro q other
    rw [unfolded, (pushChild_rest ..).1]
    grind [modify_apply]
  · intro q
    rw [unfolded, (pushChild_rest ..).2.1, (pushChild_rest ..).2.2]
    grind [modify_apply]

theorem adoptAll {fuel : Nat} (h : Forest nodes on kids before) (ne : current ≠ initproc)
    (start : ∀ p, p ≠ current → before p = none) (enough : (kids current).length ≤ fuel) :
    (∃ kids', Forest (adoptAll current fuel nodes) on kids' fun _ => none) ∧
      (adoptAll current fuel nodes current).cptr = none ∧
      Moved nodes (adoptAll current fuel nodes) on current := by
  -- Without children the element before the chain does not matter.
  have finish : ∀ {nodes : Nat → Node} {kids : Nat → List Nat} {before : Nat → Option Nat},
      Forest nodes on kids before → (∀ p, p ≠ current → before p = none) → (nodes current).cptr = none →
      Forest nodes on kids fun _ => none := by
    intro nodes kids before h start last
    refine ⟨fun p => ?_, h.nodup, h.mem⟩
    have chain := h.linked p
    rcases eq_or_ne p current with rfl | other
    · rw [last] at chain
      rw [last, Linked.of_empty chain]
      rfl
    · rwa [start p other] at chain
  have none_moved : ∀ {nodes : Nat → Node} {kids : Nat → List Nat} {before : Nat → Option Nat},
      Forest nodes on kids before → (nodes current).cptr = none → Moved nodes nodes on current := by
    intro nodes kids before h last
    have chain := h.linked current
    rw [last] at chain
    refine ⟨fun q => ⟨fun child => ?_, fun _ => rfl⟩, fun _ => rfl, fun _ => rfl⟩
    have mem := (h.mem current q).mpr child
    rw [Linked.of_empty chain] at mem
    cases mem
  induction fuel generalizing nodes kids before with
  | zero =>
    have none : (nodes current).cptr = none := by
      have chain := h.linked current
      rw [List.length_eq_zero_iff.mp (Nat.le_zero.mp enough)] at chain
      exact chain
    exact ⟨⟨kids, finish h start none⟩, none, none_moved h none⟩
  | succ fuel ih =>
    cases first : (nodes current).cptr with
    | none =>
      have stop : adoptAll current (fuel + 1) nodes = nodes := by simp [adoptAll, first]
      rw [stop]
      exact ⟨⟨kids, finish h start first⟩, first, none_moved h first⟩
    | some x =>
      have round : adoptAll current (fuel + 1) nodes =
          Family.adoptAll current fuel (Family.adopt nodes current) := by
        simp [adoptAll, first]
      rw [round]
      obtain ⟨rest, kids', all, less, next, adopted, child, parents, fields⟩ :=
        h.adopt ne (start initproc ne.symm) first
      have shorter : (kids' current).length ≤ fuel := by
        rw [less]
        rw [all, List.length_cons] at enough
        omega
      obtain ⟨done, last, moved⟩ := ih next
        (fun p other => by rw [update_of_ne other]; exact start p other) shorter
      have mem := (h.mem current x).mp (by simp [all])
      refine ⟨done, last, fun q => ?_, fun q => ?_, fun q => ?_⟩
      · have later := moved.parent q
        rcases eq_or_ne q x with rfl | other
        · grind
        · rw [parents q other] at later
          exact later
      · rw [moved.zombie, (fields q).1]
      · rw [moved.creator, (fields q).2]

end Forest

end Procore.Process.Family
