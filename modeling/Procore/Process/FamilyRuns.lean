import Procore.Process.FamilyLinks

/-! # Fork, exit and wait over whole runs

The links, the structures that only one caller knows, and the counts, each kept by every step.
-/

namespace Procore.Process.Family

open Procore.Lib List Option
open Function (update update_of_ne update_self)

namespace State

/-- The processes on the list and their links. -/
structure Shape (s : State) : Prop where
  forest : ∃ kids, Forest s.nodes (· ∈ s.list) kids fun _ => none
  nodup : s.list.Nodup
  hash : s.hash = s.list
  idle : idleproc ∉ s.list
  init : initproc ∈ s.list ∧ (s.nodes initproc).zombie = false
  creator : ∀ q ∈ s.list, (s.nodes q).parent = (s.nodes q).creator ∨ (s.nodes q).parent = initproc
  parentRuns : ∀ q ∈ s.list, (s.nodes q).parent = idleproc ∨
    ((s.nodes q).parent ∈ s.list ∧ (s.nodes (s.nodes q).parent).zombie = false)
  exited : ∀ q ∈ s.list, (s.nodes q).zombie = true → s.pcs q = .exited

/-- The structures that are allocated, and those that only one process knows. -/
structure Memory (s : State) : Prop where
  live : ∀ q ∈ s.list, s.live q = true
  idle : s.live idleproc = true
  held : ∀ p ∈ s.list, ∀ a, (s.pcs p).holds = some a →
    s.live a = true ∧ a ∉ s.list ∧ a ≠ idleproc
  unique : ∀ p ∈ s.list, ∀ q ∈ s.list, ∀ a, (s.pcs p).holds = some a → (s.pcs q).holds = some a → p = q
  forking : ∀ p ∈ s.list, ∀ a, s.pcs p = .forking a → (s.nodes a).parent = p ∧
    (s.nodes a).creator = p ∧ (s.nodes a).zombie = false ∧ s.pcs a = .run

structure Books (s : State) : Prop where
  count : s.nrProcess = s.list.length + 1 + s.forks
  unlinked : ∀ a, s.exits a =
    s.unlinks a + if a ∈ s.list ∧ (s.nodes a).zombie = true then 1 else 0
  freed : ∀ a, (s.unlinks a = s.frees a ∧ ∀ p ∈ s.list, s.pcs p ≠ .reaping a) ∨
    (s.unlinks a = s.frees a + 1 ∧ ∃ p ∈ s.list, s.pcs p = .reaping a)

structure Inv (s : State) : Prop where
  shape : s.Shape
  memory : s.Memory
  books : s.Books
  running : s.halted = false

variable {s : State}

theorem Inv.consistent (inv : s.Inv) : s.Consistent := by
  obtain ⟨kids, forest⟩ := inv.shape.forest
  refine ⟨fun p => ⟨kids p, forest.linked p, forest.nodup p, forest.mem p⟩, fun q on r also => ?_,
    inv.shape.creator, inv.shape.parentRuns, inv.books.count, inv.books.unlinked, inv.books.freed⟩
  have chain := forest.linked
  constructor
  · intro step
    exact ((chain _).next_mem ((forest.mem _ q).mpr ⟨on, rfl⟩) step).2
  · intro back
    rcases (chain _).prev_mem ((forest.mem _ r).mpr ⟨also, rfl⟩) back with ⟨none, _⟩ | ⟨_, step⟩
    · cases none
    · exact step

/-! ## Counting forks -/

variable {p : Nat}

theorem countP_update (pcs : Nat → Pc) {list : List Nat} (pc : Pc) (nodup : list.Nodup)
    (mem : p ∈ list) : list.countP (fun q => (update pcs p pc q).inFork) + (pcs p).inFork.toNat =
      list.countP (fun q => (pcs q).inFork) + pc.inFork.toNat := by
  induction list with
  | nil => cases mem
  | cons q list ih =>
    obtain ⟨fresh, unique⟩ := nodup_cons.mp nodup
    rcases mem_cons.mp mem with rfl | later
    · have same : list.countP (fun q => (update pcs p pc q).inFork) =
          list.countP (fun q => (pcs q).inFork) :=
        countP_congr fun q mem => by rw [update_of_ne (by grind)]
      rw [countP_cons, countP_cons, same, update_self]
      cases pc.inFork <;> cases (pcs p).inFork <;> simp
    · have other : q ≠ p := by grind
      rw [countP_cons, countP_cons, update_of_ne other]
      have rest := ih unique later
      omega

/-! ## What a step leaves to the others -/

/-- One process takes a step: the others keep what they hold, and what it takes nobody held. -/
structure Turn (s s' : State) (p : Nat) : Prop where
  pcs : ∀ q ≠ p, s.live q = true → s'.pcs q = s.pcs q
  list : ∀ q ∈ s'.list, q ∈ s.list ∨ s.pcs p = .forking q ∧ s'.live q = true
  stays : ∀ q ∈ s.list, q ∈ s'.list ∨ (s.pcs q).holds = none
  live : ∀ a, s.live a = true → (s.pcs p).holds ≠ some a → s'.live a = true
  own : ∀ a, (s'.pcs p).holds = some a →
    s'.live a = true ∧ a ∉ s'.list ∧ a ≠ idleproc ∧ (a ∈ s.list ∨ s.live a = false)
  forking : ∀ a, s'.pcs p = .forking a → (s'.nodes a).parent = p ∧ (s'.nodes a).creator = p ∧
    (s'.nodes a).zombie = false ∧ s'.pcs a = .run
  nodes : ∀ a ∉ s.list, s.live a = true → (s.pcs p).holds ≠ some a →
    (s'.nodes a).parent = (s.nodes a).parent ∧ (s'.nodes a).creator = (s.nodes a).creator ∧
      (s'.nodes a).zombie = (s.nodes a).zombie

section

variable {s' : State} {a : Nat} (inv : s.Inv) (mem : p ∈ s.list) (turn : Turn s s' p)
include inv turn

theorem Turn.fresh (taken : (s'.pcs p).holds = some a) {q : Nat} (on : q ∈ s.list) :
    (s.pcs q).holds ≠ some a := by
  intro holding
  obtain ⟨alive, out, -⟩ := inv.memory.held q on a holding
  rcases (turn.own a taken).2.2.2 with listed | unused
  · exact out listed
  · simp [unused] at alive

include mem

theorem Turn.older {q : Nat} (on : q ∈ s'.list) (other : q ≠ p) (holding : (s'.pcs q).holds = some a) :
    q ∈ s.list ∧ s'.pcs q = s.pcs q ∧ (s.pcs q).holds = some a ∧ (s.pcs p).holds ≠ some a := by
  rcases turn.list q on with old | ⟨forking, -⟩
  · have same := turn.pcs q other (inv.memory.live q old)
    rw [same] at holding
    exact ⟨old, same, holding, fun both => other (inv.memory.unique q old p mem a holding both)⟩
  · have held := inv.memory.held p mem q (by rw [forking]; rfl)
    rw [turn.pcs q other held.1, (inv.memory.forking p mem q forking).2.2.2] at holding
    cases holding

theorem Turn.memory : s'.Memory := by
  have memory := inv.memory
  constructor
  · intro q on
    rcases turn.list q on with old | ⟨-, alive⟩
    · exact turn.live q (memory.live q old) fun same => (memory.held p mem q same).2.1 old
    · exact alive
  · exact turn.live _ memory.idle fun same => (memory.held p mem _ same).2.2 rfl
  · intro q on a holding
    rcases eq_or_ne q p with rfl | other
    · obtain ⟨alive, out, notIdle, -⟩ := turn.own a holding
      exact ⟨alive, out, notIdle⟩
    · obtain ⟨old, -, held, apart⟩ := turn.older inv mem on other holding
      obtain ⟨alive, out, notIdle⟩ := memory.held q old a held
      refine ⟨turn.live a alive apart, fun on => ?_, notIdle⟩
      rcases turn.list a on with there | ⟨forking, -⟩
      · exact out there
      · exact apart (by rw [forking]; rfl)
  · intro q on r also a first second
    by_cases mine : q = p <;> by_cases yours : r = p
    · rw [mine, yours]
    · obtain ⟨old, -, held, -⟩ := turn.older inv mem also yours second
      exact absurd held (turn.fresh inv (mine ▸ first) old)
    · obtain ⟨old, -, held, -⟩ := turn.older inv mem on mine first
      exact absurd held (turn.fresh inv (yours ▸ second) old)
    · obtain ⟨old, -, held, -⟩ := turn.older inv mem on mine first
      obtain ⟨old', -, held', -⟩ := turn.older inv mem also yours second
      exact memory.unique q old r old' a held held'
  · intro q on a forking
    rcases eq_or_ne q p with rfl | other
    · exact turn.forking a forking
    · obtain ⟨old, same, held, apart⟩ := turn.older inv mem on other (by rw [forking]; rfl)
      obtain ⟨alive, out, -⟩ := memory.held q old a held
      obtain ⟨parent, creator, zombie⟩ := turn.nodes a out alive apart
      rw [parent, creator, zombie, turn.pcs a (by rintro rfl; exact out mem) alive]
      exact memory.forking q old a (same ▸ forking)

/-- The structures that are unlinked and not freed are those that a process reaps. -/
theorem Turn.freed (on : p ∈ s'.list)
    (counts : s'.unlinks a + s.frees a + (if s.pcs p = .reaping a then 1 else 0) =
      s.unlinks a + s'.frees a + if s'.pcs p = .reaping a then 1 else 0) :
    (s'.unlinks a = s'.frees a ∧ ∀ p ∈ s'.list, s'.pcs p ≠ .reaping a) ∨
      (s'.unlinks a = s'.frees a + 1 ∧ ∃ p ∈ s'.list, s'.pcs p = .reaping a) := by
  by_cases now : s'.pcs p = .reaping a
  · refine .inr ⟨?_, p, on, now⟩
    rcases inv.books.freed a with ⟨even, nobody⟩ | ⟨-, q, old, reaping⟩
    · rw [if_pos now, if_neg (nobody p mem)] at counts
      omega
    · exact absurd (by rw [reaping]; rfl) (turn.fresh inv (by rw [now]; rfl) old)
  · rw [if_neg now] at counts
    have before (q : Nat) (there : q ∈ s'.list) (reaping : s'.pcs q = .reaping a) :
        q ∈ s.list ∧ s.pcs q = .reaping a ∧ s.pcs p ≠ .reaping a := by
      obtain ⟨old, same, -, apart⟩ :=
        turn.older inv mem there (by rintro rfl; exact now reaping) (by rw [reaping]; rfl)
      exact ⟨old, same ▸ reaping, fun both => apart (by rw [both]; rfl)⟩
    rcases inv.books.freed a with ⟨even, nobody⟩ | ⟨owed, q, old, reaping⟩
    · rw [if_neg (nobody p mem)] at counts
      exact .inl ⟨by omega, fun q there reaping => nobody q (before q there reaping).1 (before q there reaping).2.1⟩
    by_cases done : s.pcs p = .reaping a
    · rw [if_pos done] at counts
      exact .inl ⟨by omega, fun r there also => (before r there also).2.2 done⟩
    · rw [if_neg done] at counts
      have same := turn.pcs q (by rintro rfl; exact done reaping) (inv.memory.live q old)
      rcases turn.stays q old with there | none
      · exact .inr ⟨by omega, q, there, same.trans reaping⟩
      · rw [reaping] at none
        cases none

end

/-! ## Steps that leave the links alone -/

theorem Inv.quiet {s' : State} (inv : s.Inv) {pc : Pc} (mem : p ∈ s.list)
    (awake : s.pcs p ≠ .exited) (nodes : s'.nodes = s.nodes) (list : s'.list = s.list)
    (hash : s'.hash = s.hash) (exits : s'.exits = s.exits) (unlinks : s'.unlinks = s.unlinks)
    (halted : s'.halted = s.halted) (pcs : s'.pcs = update s.pcs p pc) (holds : pc.holds = none)
    (live : ∀ a, s.live a = true → (s.pcs p).holds ≠ some a → s'.live a = true)
    (count : s'.nrProcess + (s.pcs p).inFork.toNat = s.nrProcess + pc.inFork.toNat)
    (frees : ∀ a, s'.frees a = s.frees a + if s.pcs p = .reaping a then 1 else 0) : s'.Inv := by
  have others : ∀ {q}, q ≠ p → s'.pcs q = s.pcs q := fun other => by
    rw [pcs, update_of_ne other]
  have own : s'.pcs p = pc := by rw [pcs, update_self]
  have turn : Turn s s' p := by
    refine ⟨fun q other _ => others other, fun q on => .inl (list ▸ on), fun q on => .inl (list ▸ on), live,
      fun a holding => ?_, fun a forking => ?_, fun a _ _ _ => by simp [nodes]⟩
    · rw [own, holds] at holding
      cases holding
    · rw [own] at forking
      simp [forking, Pc.holds] at holds
  refine ⟨?_, ?_, ?_, halted.trans inv.running⟩
  · have shape := inv.shape
    refine ⟨nodes ▸ list ▸ shape.forest, list ▸ shape.nodup, hash ▸ list ▸ shape.hash,
      list ▸ shape.idle, nodes ▸ list ▸ shape.init, nodes ▸ list ▸ shape.creator,
      nodes ▸ list ▸ shape.parentRuns, ?_⟩
    rw [nodes, list]
    intro q on zombie
    have exited := shape.exited q on zombie
    rw [others (by rintro rfl; exact awake exited), exited]
  · exact turn.memory inv mem
  · have books := inv.books
    constructor
    · have changed := countP_update s.pcs pc inv.shape.nodup mem
      have before := books.count
      rw [forks, pcs, list]
      rw [forks] at before
      omega
    · rw [exits, unlinks, list, nodes]
      exact books.unlinked
    · refine fun a => turn.freed inv mem (list ▸ mem) ?_
      have idle : s'.pcs p ≠ .reaping a := by
        intro reaping
        rw [own] at reaping
        simp [reaping, Pc.holds] at holds
      rw [unlinks, frees, if_neg idle]
      omega

/-- `on_cpu` and `pid` concern nobody here. -/
theorem Inv.modify (inv : s.Inv) {f : Node → Node}
    (same : ∀ node, (f node).optr = node.optr ∧ (f node).yptr = node.yptr ∧
      (f node).cptr = node.cptr ∧ (f node).parent = node.parent ∧ (f node).zombie = node.zombie ∧
      (f node).creator = node.creator) : Inv { s with nodes := Family.modify s.nodes p f } := by
  have fields : ∀ q, (Family.modify s.nodes p f q).optr = (s.nodes q).optr ∧
      (Family.modify s.nodes p f q).yptr = (s.nodes q).yptr ∧
      (Family.modify s.nodes p f q).cptr = (s.nodes q).cptr ∧
      (Family.modify s.nodes p f q).parent = (s.nodes q).parent ∧
      (Family.modify s.nodes p f q).zombie = (s.nodes q).zombie ∧
      (Family.modify s.nodes p f q).creator = (s.nodes q).creator := by
    intro q
    rw [modify_apply]
    split_ifs
    · exact same _
    · simp
  obtain ⟨kids, forest⟩ := inv.shape.forest
  have linked : Forest (Family.modify s.nodes p f) (· ∈ s.list) kids fun _ => none :=
    forest.congr (fun q => ⟨(fields q).1, (fields q).2.1, (fields q).2.2.1, (fields q).2.2.2.1⟩)
      fun _ => .rfl
  have parent := fun q => (fields q).2.2.2.1
  have zombie := fun q => (fields q).2.2.2.2.1
  have creator := fun q => (fields q).2.2.2.2.2
  refine ⟨⟨⟨kids, linked⟩, inv.shape.nodup, inv.shape.hash, inv.shape.idle, ?_, ?_, ?_, ?_⟩,
    ⟨inv.memory.live, inv.memory.idle, inv.memory.held, inv.memory.unique, ?_⟩,
    ⟨inv.books.count, ?_, inv.books.freed⟩, inv.running⟩
  all_goals simp only [parent, zombie, creator]
  · exact inv.shape.init
  · exact inv.shape.creator
  · exact inv.shape.parentRuns
  · exact inv.shape.exited
  · exact inv.memory.forking
  · exact inv.books.unlinked

/-! ## Fork -/

theorem Inv.alive (inv : s.Inv) (mem : p ∈ s.list) (awake : s.pcs p ≠ .exited) :
    (s.nodes p).zombie = false :=
  Bool.eq_false_iff.mpr fun zombie => awake (inv.shape.exited p mem zombie)

variable {a : Nat}

theorem Inv.childless (inv : s.Inv) {q : Nat} (out : a ∉ s.list) (notIdle : a ≠ idleproc)
    (mem : q ∈ s.list) : (s.nodes q).parent ≠ a := by
  rintro rfl
  rcases inv.shape.parentRuns q mem with idle | ⟨on, _⟩
  · exact notIdle idle
  · exact out on

theorem Inv.alloc (inv : s.Inv) (mem : p ∈ s.list)
    (reserved : s.pcs p = .reserved) (unused : s.live a = false) :
    Inv { (s.setPc a .run).setPc p (.forking a) with
      live := update s.live a true
      nodes := update s.nodes a { parent := p, creator := p } } := by
  have used : ∀ {b}, s.live b = true → b ≠ a := by
    rintro b alive rfl
    simp [unused] at alive
  have onList : ∀ {q}, q ∈ s.list → q ≠ a := fun on => used (inv.memory.live _ on)
  have out : a ∉ s.list := fun on => onList on rfl
  have notIdle : a ≠ idleproc := (used inv.memory.idle).symm
  have pcs : ∀ {q}, q ≠ a → q ≠ p →
      update (update s.pcs a .run) p (.forking a) q = s.pcs q := by
    intro q other different
    rw [update_of_ne different, update_of_ne other]
  have node : ∀ {q}, q ≠ a → update s.nodes a { parent := p, creator := p } q = s.nodes q :=
    fun other => update_of_ne other ..
  have parentUsed : ∀ {q}, q ∈ s.list → (s.nodes q).parent ≠ a := inv.childless out notIdle
  obtain ⟨kids, forest⟩ := inv.shape.forest
  have turn : Turn s { (s.setPc a .run).setPc p (.forking a) with
      live := update s.live a true
      nodes := update s.nodes a { parent := p, creator := p } } p := by
    refine ⟨fun q other alive => pcs (used alive) other, fun q on => .inl on, fun q on => .inl on,
      fun b alive _ => (update_of_ne (used alive) ..).trans alive, fun b holding => ?_, fun b forking => ?_,
      fun b _ alive _ => by simp [node (used alive)]⟩
    · simp only [setPc, update_self] at holding
      obtain rfl := some_inj.mp holding
      exact ⟨update_self .., out, notIdle, .inr unused⟩
    · simp only [setPc, update_self] at forking
      cases forking
      simp [setPc, (onList mem).symm]
  refine ⟨⟨⟨kids, ?_⟩, inv.shape.nodup, inv.shape.hash, inv.shape.idle, ?_, ?_, ?_, ?_⟩, turn.memory inv mem,
    ⟨?_, ?_, fun b => turn.freed inv mem mem (by simp [setPc, reserved])⟩, inv.running⟩
  all_goals simp only [setPc]
  · refine ⟨fun q => ?_, forest.nodup, fun q r => ?_⟩
    · rcases eq_or_ne q a with rfl | other
      · have none : kids q = [] := by
          refine eq_nil_iff_forall_not_mem.mpr fun r child => ?_
          obtain ⟨on, parent⟩ := (forest.mem q r).mp child
          exact parentUsed on parent
        rw [none, update_self]
        rfl
      · rw [node other]
        refine (forest.linked q).frame (fun y child => ?_) fun y child => ?_
        all_goals rw [node (onList ((forest.mem q y).mp child).1)]
    · rw [forest.mem]
      rcases eq_or_ne r a with rfl | other
      · simp [out]
      · rw [node other]
  · rw [node (onList inv.shape.init.1)]
    exact inv.shape.init
  · intro q on
    rw [node (onList on)]
    exact inv.shape.creator q on
  · intro q on
    rw [node (onList on), node (parentUsed on)]
    exact inv.shape.parentRuns q on
  · intro q on zombie
    rw [node (onList on)] at zombie
    have exited := inv.shape.exited q on zombie
    rw [pcs (onList on) (by rintro rfl; simp [reserved] at exited), exited]
  · have changed := countP_update s.pcs (.forking a) inv.shape.nodup mem
    have same : s.list.countP (fun q => (update (update s.pcs a .run) p
        (.forking a) q).inFork) = s.list.countP (fun q => (update s.pcs p (.forking a) q).inFork) := by
      refine countP_congr fun q on => ?_
      rcases eq_or_ne q p with rfl | other
      · simp
      · rw [pcs (onList on) other, update_of_ne other]
    have before := inv.books.count
    rw [forks] at before ⊢
    rw [reserved] at changed
    rw [same, Nat.add_right_cancel changed, before]
  · intro b
    rw [inv.books.unlinked]
    rcases eq_or_ne b a with rfl | other
    · simp [out]
    · simp [node other]

theorem Inv.link (inv : s.Inv) (mem : p ∈ s.list)
    (forking : s.pcs p = .forking a) : ((s.setPc p .run).setLinks a).Inv := by
  obtain ⟨alive, out, notIdle⟩ := inv.memory.held p mem a (by rw [forking]; rfl)
  obtain ⟨parent, creator, zombie, run⟩ := inv.memory.forking p mem a forking
  have apart : a ≠ p := by
    rintro rfl
    exact out mem
  have pcs : ∀ {q}, q ≠ p → update s.pcs p .run q = s.pcs q := fun other =>
    update_of_ne other ..
  have idle : update s.pcs p .run a = .run := by rw [pcs apart, run]
  have rest := pushChild_rest s.nodes p a
  obtain ⟨kids, forest⟩ := inv.shape.forest
  have pushed : ∃ kids, Forest (pushChild s.nodes p a) (· ∈ a :: s.list) kids fun _ => none :=
    ⟨_, (forest.push out parent rfl).congr (fun _ => ⟨rfl, rfl, rfl, rfl⟩) fun q => by simp⟩
  have turn : Turn s ((s.setPc p .run).setLinks a) p := by
    refine ⟨fun q other _ => pcs other, fun q on => ?_, fun q on => .inl (.tail _ on),
      fun b alive _ => alive, fun b holding => ?_, fun b busy => ?_,
      fun b _ _ _ => by simp [setPc, setLinks, parent, rest]⟩
    · exact (mem_cons.mp on).elim (fun same => .inr ⟨same ▸ forking, same ▸ alive⟩) .inl
    all_goals simp [setPc, setLinks, Pc.holds] at *
  refine ⟨⟨?_, ?_, ?_, ?_, ?_, ?_, ?_, ?_⟩, turn.memory inv mem,
    ⟨?_, ?_, fun b => turn.freed inv mem (.tail _ mem) (by simp [setPc, setLinks, forking])⟩, inv.running⟩
  all_goals simp only [setPc, setLinks, parent, rest]
  · exact pushed
  · exact nodup_cons.mpr ⟨out, inv.shape.nodup⟩
  · rw [inv.shape.hash]
  · exact fun on => (mem_cons.mp on).elim (fun same => notIdle same.symm) inv.shape.idle
  · exact ⟨.tail _ inv.shape.init.1, inv.shape.init.2⟩
  · intro q on
    rcases mem_cons.mp on with rfl | older
    · exact .inl (parent.trans creator.symm)
    · exact inv.shape.creator q older
  · intro q on
    rcases mem_cons.mp on with rfl | older
    · rw [parent]
      exact .inr ⟨.tail _ mem, inv.alive mem (by rw [forking]; nofun)⟩
    · rcases inv.shape.parentRuns q older with idle | ⟨there, running⟩
      · exact .inl idle
      · exact .inr ⟨.tail _ there, running⟩
  · intro q on dead
    rcases mem_cons.mp on with rfl | older
    · simp [zombie] at dead
    · have exited := inv.shape.exited q older dead
      rw [pcs (by rintro rfl; simp [forking] at exited), exited]
  · have changed := countP_update s.pcs .run inv.shape.nodup mem
    rw [forking] at changed
    change _ + 1 = _ + 0 at changed
    have same : (a :: s.list).countP (fun q => (update s.pcs p .run q).inFork) =
        s.list.countP fun q => (update s.pcs p .run q).inFork := by
      rw [countP_cons, idle]
      rfl
    have before := inv.books.count
    rw [forks] at before ⊢
    rw [same, length_cons, before]
    omega
  · intro b
    rw [inv.books.unlinked]
    rcases eq_or_ne b a with rfl | other
    · simp [zombie]
    · simp [other]

/-! ## Exit -/

variable {nodes : Nat → Node}

theorem Forest.length_le {list : List Nat} {kids : Nat → List Nat}
    {before : Nat → Option Nat} (forest : Forest nodes (· ∈ list) kids before) (p : Nat) :
    (kids p).length ≤ list.length :=
  (subperm_of_subset (forest.nodup p) fun q child => ((forest.mem p q).mp child).1).length_le

theorem Inv.adopted (inv : s.Inv) (ne : p ≠ initproc) :
    let marked := Family.modify s.nodes p fun node => { node with zombie := true }
    (∃ kids, Forest (Family.adoptAll p s.list.length marked) (· ∈ s.list) kids fun _ => none) ∧
      Forest.Moved marked (Family.adoptAll p s.list.length marked) (· ∈ s.list) p := by
  obtain ⟨kids, forest⟩ := inv.shape.forest
  have start : Forest (Family.modify s.nodes p fun node => { node with zombie := true }) (· ∈ s.list) kids
      fun _ => none := by
    refine forest.congr (fun q => ?_) fun _ => .rfl
    rw [modify_apply]
    split_ifs <;> simp
  obtain ⟨adopted, -, moved⟩ := start.adoptAll ne (fun _ _ => rfl) (Forest.length_le forest p)
  exact ⟨adopted, moved⟩

theorem Inv.exit (inv : s.Inv) (acts : s.Acts p) (ne : p ≠ initproc) :
    (s.exit p).Inv := by
  obtain ⟨mem, run⟩ := acts
  have alive := inv.alive mem (by rw [run]; nofun)
  have marked : ∀ q, (Family.modify s.nodes p (fun node => { node with zombie := true }) q).parent =
      (s.nodes q).parent ∧ (Family.modify s.nodes p (fun node => { node with zombie := true }) q).creator =
      (s.nodes q).creator ∧ (q ≠ p →
        (Family.modify s.nodes p (fun node => { node with zombie := true }) q).zombie = (s.nodes q).zombie) := by
    intro q
    rw [modify_apply]
    split_ifs with same
    · exact ⟨rfl, rfl, absurd same⟩
    · simp
  obtain ⟨adopted, moved⟩ := inv.adopted ne
  have pcs : ∀ {q}, q ≠ p → update s.pcs p .exited q = s.pcs q := fun other =>
    update_of_ne other ..
  -- The fields that other processes see.
  have parent := moved.parent
  have creator : ∀ q, _ = _ := fun q => (moved.creator q).trans (marked q).2.1
  have zombie : ∀ {q}, q ≠ p → _ = _ := fun {q} other => (moved.zombie q).trans ((marked q).2.2 other)
  simp only [(marked _).1] at parent
  have turn : Turn s (s.exit p) p := by
    refine ⟨fun q other _ => pcs other, fun q on => .inl on, fun q on => .inl on, fun b used _ => used,
      fun b holding => ?_, fun b forking => ?_, fun b out _ _ => ?_⟩
    · simp [State.exit, Pc.holds] at holding
    · simp [State.exit] at forking
    · have apart : b ≠ p := by
        rintro rfl
        exact out mem
      exact ⟨(parent b).2 fun both => out both.1, creator b, zombie apart⟩
  refine ⟨⟨adopted, inv.shape.nodup, inv.shape.hash, inv.shape.idle, ?_, ?_, ?_, ?_⟩, turn.memory inv mem,
    ⟨?_, ?_, fun b => turn.freed inv mem mem (by simp [State.exit, run])⟩, inv.running⟩
  all_goals simp only [State.exit]
  · exact ⟨inv.shape.init.1, (zombie ne.symm).trans inv.shape.init.2⟩
  · intro q on
    rw [creator]
    rcases Classical.em (q ∈ s.list ∧ (s.nodes q).parent = p) with child | other
    · exact .inr ((parent q).1 child)
    · rw [(parent q).2 other]
      exact inv.shape.creator q on
  · intro q on
    rcases Classical.em (q ∈ s.list ∧ (s.nodes q).parent = p) with child | other
    · rw [(parent q).1 child, zombie ne.symm]
      exact .inr inv.shape.init
    · have different : (s.nodes q).parent ≠ p := fun same => other ⟨on, same⟩
      rw [(parent q).2 other, zombie different]
      exact inv.shape.parentRuns q on
  · intro q on dead
    rcases eq_or_ne q p with rfl | other
    · exact update_self ..
    · rw [pcs other]
      exact inv.shape.exited q on ((zombie other).symm.trans dead)
  · have changed := countP_update s.pcs .exited inv.shape.nodup mem
    rw [run] at changed
    have before := inv.books.count
    rw [forks] at before ⊢
    rw [before, ← Nat.add_right_cancel changed]
  · intro b
    have before := inv.books.unlinked b
    rcases eq_or_ne b p with rfl | other
    · have dead : (Family.adoptAll b s.list.length (Family.modify s.nodes b fun node =>
          { node with zombie := true }) b).zombie = true := by
        rw [moved.zombie, modify_apply]
        simp
      simp [alive, dead, mem] at before ⊢
      exact before
    · simp only [update_of_ne other, zombie other]
      exact before

/-! ## Wait -/

variable {x : Nat}

theorem firstZombie_mem {fuel : Nat} {before first : Option Nat} {kids : List Nat}
    (chain : Linked (fun q => (nodes q).optr) (fun q => (nodes q).yptr) before first kids)
    (found : firstZombie nodes fuel first = some x) : x ∈ kids ∧ (nodes x).reapable = true := by
  induction kids generalizing fuel before first with
  | nil =>
    obtain rfl : first = none := chain
    cases fuel <;> simp [firstZombie] at found
  | cons y kids ih =>
    obtain ⟨rfl, _, rest⟩ := chain
    cases fuel with
    | zero => simp [firstZombie] at found
    | succ fuel =>
      rw [firstZombie] at found
      split_ifs at found with here
      · obtain rfl := some_inj.mp found
        exact ⟨by simp, here⟩
      · obtain ⟨mem, reapable⟩ := ih rest found
        exact ⟨by simp [mem], reapable⟩

theorem Inv.zombieChild (inv : s.Inv) {pid : Nat} (found : s.zombieChild p pid = some x) :
    x ∈ s.list ∧ (s.nodes x).zombie = true := by
  have dead : (s.nodes x).reapable = true → (s.nodes x).zombie = true := by
    simp only [Node.reapable, Bool.and_eq_true]
    exact fun both => both.1
  unfold State.zombieChild at found
  split_ifs at found
  · obtain ⟨kids, forest⟩ := inv.shape.forest
    obtain ⟨mem, reapable⟩ := firstZombie_mem (forest.linked p) found
    exact ⟨((forest.mem p x).mp mem).1, dead reapable⟩
  split at found
  · next q hit =>
    split_ifs at found with child
    cases found
    exact ⟨inv.shape.hash ▸ mem_of_find?_eq_some hit, dead child.2⟩
  · cases found

theorem Inv.reap (inv : s.Inv) (acts : s.Acts p) (mem : x ∈ s.list)
    (zombie : (s.nodes x).zombie = true) : ((s.removeLinks x).setPc p (.reaping x)).Inv := by
  obtain ⟨on, run⟩ := acts
  have exited := inv.shape.exited x mem zombie
  have apart : p ≠ x := by
    rintro rfl
    simp [run] at exited
  have notIdle : x ≠ idleproc := by
    rintro rfl
    exact inv.shape.idle mem
  have notInit : initproc ≠ x := by
    rintro rfl
    simp [inv.shape.init.2] at zombie
  have pcs : ∀ {q}, q ≠ p → update s.pcs p (.reaping x) q = s.pcs q := fun other =>
    update_of_ne other ..
  have left : ∀ {q}, q ∈ s.list.erase x ↔ q ≠ x ∧ q ∈ s.list := inv.shape.nodup.mem_erase_iff
  have rest := removeChild_rest s.nodes x
  obtain ⟨kids, forest⟩ := inv.shape.forest
  have removed : ∃ kids, Forest (removeChild s.nodes x) (· ∈ s.list.erase x) kids fun _ => none :=
    ⟨_, (forest.remove mem).congr (fun _ => ⟨rfl, rfl, rfl, rfl⟩) fun _ => left⟩
  have turn : Turn s ((s.removeLinks x).setPc p (.reaping x)) p := by
    refine ⟨fun q other _ => pcs other, fun q there => .inl (left.mp there).2, fun q there => ?_,
      fun b used _ => used, fun b holding => ?_, fun b forking => ?_,
      fun b _ _ _ => by simp [setPc, removeLinks, rest]⟩
    · rcases eq_or_ne q x with rfl | other
      · simp [exited, Pc.holds]
      · exact .inl (left.mpr ⟨other, there⟩)
    · simp only [setPc, update_self] at holding
      obtain rfl := some_inj.mp holding
      exact ⟨inv.memory.live x mem, fun there => (left.mp there).1 rfl, notIdle, .inl mem⟩
    · simp [setPc] at forking
  refine ⟨⟨removed, ?_, ?_, ?_, ?_, ?_, ?_, ?_⟩, turn.memory inv on,
    ⟨?_, ?_, fun b => turn.freed inv on (left.mpr ⟨apart, on⟩) ?_⟩, inv.running⟩
  all_goals simp only [setPc, removeLinks, rest, left]
  · exact inv.shape.nodup.erase x
  · rw [inv.shape.hash]
  · exact fun both => inv.shape.idle both.2
  · exact ⟨⟨notInit, inv.shape.init.1⟩, inv.shape.init.2⟩
  · exact fun q both => inv.shape.creator q both.2
  · intro q both
    rcases inv.shape.parentRuns q both.2 with idle | ⟨there, running⟩
    · exact .inl idle
    · refine .inr ⟨⟨?_, there⟩, running⟩
      intro same
      simp [same, zombie] at running
  · intro q both dead
    have gone := inv.shape.exited q both.2 dead
    rw [pcs (by rintro rfl; simp [run] at gone), gone]
  · have changed := countP_update s.pcs (.reaping x) inv.shape.nodup on
    rw [run] at changed
    have before := inv.books.count
    rw [forks] at before ⊢
    have same : (s.list.erase x).countP (fun q => (update s.pcs p (.reaping x) q).inFork) =
        s.list.countP fun q => (s.pcs q).inFork := by
      rw [← Nat.add_right_cancel changed, countP_erase]
      simp [pcs apart.symm, exited, Pc.inFork]
    have shorter := length_erase_of_mem mem
    have some := length_pos_of_mem mem
    rw [same]
    omega
  · intro b
    have before := inv.books.unlinked b
    rcases eq_or_ne b x with rfl | other
    · simp [mem, zombie] at before ⊢
      exact before
    · simp [other, before]
  · rcases eq_or_ne b x with rfl | other
    · simp [run]
      omega
    · simp [run, other, other.symm]

/-! ## Runs -/

theorem Inv.step {s' : State} {l : Label} (inv : s.Inv) (go : s.step l = some s') : s'.Inv := by
  simp only [State.step, inv.running, Bool.false_eq_true, if_false] at go
  cases l with try simp only at go
  | reserve p =>
    split_ifs at go with acts room
    all_goals cases go
    · exact inv.quiet acts.1 (by rw [acts.2]; nofun) rfl rfl rfl rfl rfl rfl rfl rfl (fun _ h _ => h)
        (by rw [acts.2]; simp [Pc.inFork]) fun a => by simp [acts.2, setPc]
    · exact inv
  | allocProc p a =>
    cases a with simp only at go
    | none =>
      split_ifs at go with here
      cases go
      exact inv.quiet here.1 (by rw [here.2]; nofun) rfl rfl rfl rfl rfl rfl rfl rfl (fun _ h _ => h)
        (by rw [here.2]; rfl) fun a => by simp [here.2, setPc]
    | some a =>
      split_ifs at go with here
      cases go
      exact inv.alloc here.1 here.2.1 here.2.2
  | forkFails p =>
    split at go
    case h_2 => cases go
    next a forking =>
      split_ifs at go with mem
      cases go
      refine inv.quiet mem (by rw [forking]; nofun) rfl rfl rfl rfl rfl rfl rfl rfl ?_
        (by rw [forking]; rfl) fun a => by simp [forking, setPc]
      intro b alive other
      rw [forking] at other
      have different : b ≠ a := by
        rintro rfl
        exact other rfl
      simpa [different] using alive
  | unreserve p =>
    split_ifs at go with here
    cases go
    exact inv.quiet here.1 (by rw [here.2]; nofun) rfl rfl rfl rfl rfl rfl rfl rfl (fun _ h _ => h)
      (by rw [here.2]; simp [Pc.inFork]) fun a => by simp [here.2, setPc]
  | link p pid =>
    split at go
    case h_2 => cases go
    next a forking =>
      split_ifs at go with mem
      cases go
      have named := inv.modify (p := a) (f := fun node => { node with pid := pid }) (by simp)
      exact named.link mem forking
  | exit p =>
    split_ifs at go with here
    cases go
    exact inv.exit here.1 here.2.2
  | waitOptions p pid =>
    split_ifs at go with acts
    split at go
    · next x found =>
      obtain ⟨mem, zombie⟩ := inv.zombieChild found
      split_ifs at go with special
      all_goals cases go
      · rcases special with rfl | rfl
        · exact absurd mem inv.shape.idle
        · simp [inv.shape.init.2] at zombie
      · exact inv.reap acts mem zombie
    · cases go
      exact inv
  | waitid p pid reap =>
    obtain ⟨acts, done⟩ := ite_none_right_eq_some.mp go
    split at done
    · next x found =>
      obtain ⟨mem, zombie⟩ := inv.zombieChild found
      split_ifs at done
      all_goals cases done
      · exact inv.reap acts mem zombie
      · exact inv
    · cases done
      exact inv
  | free p =>
    split at go
    case h_2 => cases go
    next a reaping =>
      split_ifs at go with mem
      cases go
      refine inv.quiet mem (by rw [reaping]; nofun) rfl rfl rfl rfl rfl rfl rfl rfl ?_
        (by rw [reaping]; rfl) fun b => ?_
      · intro b alive other
        rw [reaping] at other
        have different : b ≠ a := by
          rintro rfl
          exact other rfl
        simpa [different] using alive
      · rcases eq_or_ne b a with rfl | other
        · simp [reaping]
        · simp [reaping, other, other.symm]
  | dispatch p =>
    split_ifs at go
    cases go
    have kept := inv.modify (p := p) (f := fun node => { node with onCpu := true }) (by simp)
    simpa [inv.running] using kept
  | switchComplete p =>
    cases go
    have kept := inv.modify (p := p) (f := fun node => { node with onCpu := false }) (by simp)
    simpa [inv.running] using kept

theorem inv_boot : boot.Inv := by
  have forest : Forest (fun a => { pid := if a = initproc then 1 else 0 }) (fun _ => False)
      (fun _ => []) fun _ => none := ⟨fun _ => rfl, fun _ => nodup_nil, by simp⟩
  have linked := forest.push (x := initproc) id rfl rfl
  have rest := pushChild_rest (fun a => { pid := if a = initproc then 1 else 0 }) idleproc initproc
  refine ⟨⟨⟨_, linked.congr (fun _ => ⟨rfl, rfl, rfl, rfl⟩) (by simp [boot])⟩, ?_, rfl, ?_, ?_, ?_, ?_, ?_⟩,
    ⟨?_, rfl, ?_, ?_, ?_⟩, ⟨rfl, ?_, ?_⟩, rfl⟩
  all_goals simp [boot, rest, Pc.holds]
  · decide

/-- The family is consistent in every state of every run of forks, exits and waits, and no wait
    finds `idleproc` or `initproc`. -/
theorem family_consistent {ls : List Label} {s : State} (run : runFrom State.step boot ls = some s) :
    s.Consistent ∧ s.halted = false := by
  have inv := runFrom_always (fun _ _ _ => Inv.step) inv_boot run
  exact ⟨inv.consistent, inv.running⟩

/-- `initproc` forks a child that forks two; the child exits and is reaped, its children are
    adopted, one fork fails. -/
theorem family_consistent_orphans : ∃ s,
    runFrom State.step boot [.reserve 1, .allocProc 1 (some 2), .link 1 2, .reserve 2,
      .allocProc 2 (some 3), .link 2 3, .reserve 2, .allocProc 2 (some 4), .link 2 4, .reserve 4,
      .allocProc 4 (some 5), .forkFails 4, .exit 2, .waitOptions 1 0, .free 1, .unreserve 4] = some s ∧
    s.list = [4, 3, 1] ∧ (s.nodes 1).cptr = some 3 ∧ s.Consistent ∧ s.halted = false := by
  refine exists_run_test (fun s => s.list = [4, 3, 1] ∧ (s.nodes 1).cptr = some 3)
    (by decide +kernel) ?_
  intro s run ⟨list, youngest⟩
  exact ⟨list, youngest, family_consistent run⟩

end State

end Procore.Process.Family
