import Procore.Lib.Run
import Procore.Lib.Runs

/-! # The first-fit page allocator

The free list holds every free page, in ascending order. The first page of a
free block carries the length of the block in its `property`, the others carry
zero. An allocated page keeps the `property` it had; when it is freed behind
the first page of a range, that old value stands in the middle of a block.
-/

namespace Procore.Mm

open Procore.Lib
open Function

/-- What the allocator keeps in a `struct Page`. -/
structure Page where
  property : Nat := 0
  ref : Int := 0
  /-- `PG_reserved`. -/
  reserved : Bool := true
  /-- `PG_property`. -/
  hasProperty : Bool := false
  deriving DecidableEq, Repr

/-- `free_area` and the descriptors of the pages, which are named by their numbers. -/
structure Pmm where
  page : Nat → Page
  freeList : List Nat
  nrFree : Nat

namespace Pmm

def setPage (s : Pmm) (p : Nat) (page : Page) : Pmm := { s with page := update s.page p page }

def setProperty (s : Pmm) (p property : Nat) : Pmm :=
  s.setPage p { s.page p with property := property }

/-- Before `default_init_memmap`: all pages are reserved. -/
def defaultInit : Pmm where
  page _ := {}
  freeList := []
  nrFree := 0

/-- The loop of `default_init_memmap`. -/
def initPages (s : Pmm) (p : Nat) : Nat → Option Pmm
  | 0 => some s
  | n + 1 =>
    if (s.page p).reserved then
      let s := s.setPage p { property := 0, ref := 0, reserved := false, hasProperty := true }
      initPages { s with freeList := s.freeList ++ [p] } (p + 1) n
    else none

/-- An assertion that fails gives `none`. -/
def defaultInitMemmap (s : Pmm) (range : Nat × Nat) : Option Pmm :=
  if range.2 = 0 then none
  else do
    let s ← s.initPages range.1 range.2
    some { s.setProperty range.1 range.2 with nrFree := s.nrFree + range.2 }

/-- Take these pages out of the free list. -/
def takePages (s : Pmm) (pages rest : List Nat) : Pmm :=
  { s with
    freeList := rest
    page := fun p =>
      if p ∈ pages then { s.page p with reserved := true, hasProperty := false } else s.page p }

/-- Cut `n` pages off the list from the first entry that is large enough on. `none` if
    that runs over the end of the list. -/
def cutPages (s : Pmm) (n : Nat) (before : List Nat) : List Nat → Option (Option Nat × Pmm)
  | [] => some (none, s)
  | p :: post =>
    if (p :: post).length < n then none
    else
      let rest := (p :: post).drop n
      let t := { s.takePages ((p :: post).take n) (before ++ rest) with nrFree := s.nrFree - n }
      if n < (s.page p).property then
        match rest with
        | [] => none
        | q :: _ => some (some p, t.setProperty q ((s.page p).property - n))
      else some (some p, t)

/-- The outer `none` is a failed assertion or a write outside the pages. -/
def defaultAllocPages (s : Pmm) (n : Nat) : Option (Option Nat × Pmm) :=
  if n = 0 then none
  else if s.nrFree < n then some (none, s)
  else
    s.cutPages n (s.freeList.takeWhile fun p => (s.page p).property < n)
      (s.freeList.dropWhile fun p => (s.page p).property < n)

/-- Merge the block at `base` with the one that begins right behind it. -/
def mergeNext (s : Pmm) (base n : Nat) : List Nat → Pmm
  | [] => s
  | p :: _ =>
    if base + n = p then
      (s.setProperty base ((s.page base).property + (s.page p).property)).setProperty p 0
    else s

/-- Merge the block at `base` with the one that ends right before it. `before` is the
    list before `base`, backwards. -/
def mergePrev (s : Pmm) (base : Nat) (before : List Nat) : Pmm :=
  match before with
  | [] => s
  | q :: _ =>
    if q + 1 = base then
      match before.find? fun p => (s.page p).property ≠ 0 with
      | none => s
      | some p =>
        (s.setProperty p ((s.page p).property + (s.page base).property)).setProperty base 0
    else s

def defaultFreePages (s : Pmm) (base n : Nat) : Option Pmm :=
  if n = 0 ∨ (s.page base).reserved = false then none
  else
    let before := s.freeList.takeWhile (· ≤ base)
    let after := s.freeList.dropWhile (· ≤ base)
    let s := { s with freeList := before ++ (List.range' base n ++ after) }
    let s := s.setPage base { property := n, ref := 0, reserved := false, hasProperty := true }
    let s := (s.mergeNext base n after).mergePrev base before.reverse
    some { s with nrFree := s.nrFree + n }

end Pmm

inductive PmmOp where
  | alloc (n : Nat)
  | free (base n : Nat)
  deriving DecidableEq, Repr

/-- One call. Only pages that are not free are freed. -/
def Pmm.step (s : Pmm) : PmmOp → Option Pmm
  | .alloc n => (s.defaultAllocPages n).map Prod.snd
  | .free base n => if ∀ p ∈ List.range' base n, p ∉ s.freeList then s.defaultFreePages base n else none

/-- The freed range carries no old block length behind its first page. -/
def Pmm.NoStale (s : Pmm) : PmmOp → Prop
  | .alloc _ => True
  | .free base n => ∀ p ∈ List.range' base n, p ≠ base → (s.page p).property = 0

instance (s : Pmm) : (op : PmmOp) → Decidable (s.NoStale op)
  | .alloc _ => isTrue trivial
  | .free _ _ => inferInstanceAs (Decidable (∀ _ ∈ _, _))

/-- The ranges given to `default_init_memmap`, in ascending order with gaps between them. -/
def Apart : List (Nat × Nat) → Prop
  | [] => True
  | (base, n) :: ranges => 0 < n ∧ (∀ r ∈ ranges, base + n < r.1) ∧ Apart ranges

/-- Initialise the allocator with these ranges. -/
def Pmm.init (ranges : List (Nat × Nat)) : Option Pmm := ranges.foldlM Pmm.defaultInitMemmap .defaultInit

/-- The free pages form maximal blocks in ascending order. The first page of a block
    carries its length and the others zero, and `nr_free` is the number of all. -/
structure Pmm.Coalesced (s : Pmm) : Prop where
  ascending : s.freeList.Pairwise (· < ·)
  head : ∀ p ∈ s.freeList, (∀ q ∈ s.freeList, q + 1 ≠ p) →
    0 < (s.page p).property ∧ HasRun s.freeList p (s.page p).property ∧
      p + (s.page p).property ∉ s.freeList
  inner : ∀ p ∈ s.freeList, p + 1 ∈ s.freeList → (s.page (p + 1)).property = 0
  count : s.nrFree = s.freeList.length

namespace Pmm

variable {s t : Pmm} {p q base n : Nat}

def len (s : Pmm) (p : Nat) : Nat := (s.page p).property

/-- What the calls keep: the free list is divided into maximal blocks, and every other
    page is reserved. -/
structure Inv (s : Pmm) : Prop where
  ascending : s.freeList.Pairwise (· < ·)
  blocks : Blocks (· ∈ s.freeList) s.len
  maximal : Maximal (· ∈ s.freeList) s.len
  count : s.nrFree = s.freeList.length
  reserved : ∀ p, p ∉ s.freeList → (s.page p).reserved = true

theorem Inv.coalesced (h : s.Inv) : s.Coalesced where
  ascending := h.ascending
  head p mem alone := by
    have some := h.blocks.starts mem alone
    exact ⟨Nat.pos_of_ne_zero some, fun k inside => h.blocks.run p k mem inside, h.maximal p mem some⟩
  inner p mem next := by
    by_contra some
    obtain ⟨a, first, positive, low, high⟩ := h.blocks.cover p mem
    by_cases last : a + s.len a = p + 1
    · exact h.maximal a first positive (last ▸ next)
    · exact some (h.blocks.inside first (by omega) (by omega))
  count := h.count

@[simp] theorem len_setProperty (s : Pmm) (p property q : Nat) :
    (s.setProperty p property).len q = if q = p then property else s.len q := by
  by_cases same : q = p
  · subst same
    simp [setProperty, setPage, len]
  · simp [setProperty, setPage, len, same]

@[simp] theorem reserved_setProperty (s : Pmm) (p property q : Nat) :
    ((s.setProperty p property).page q).reserved = (s.page q).reserved := by
  by_cases same : q = p
  · subst same
    simp [setProperty, setPage]
  · simp [setProperty, setPage, same]

@[simp] theorem len_takePages (s : Pmm) (pages rest : List Nat) (q : Nat) :
    (s.takePages pages rest).len q = s.len q := by
  rw [takePages, len]
  dsimp only
  split <;> rfl

@[simp] theorem reserved_takePages (s : Pmm) (pages rest : List Nat) (q : Nat) :
    ((s.takePages pages rest).page q).reserved = if q ∈ pages then true else (s.page q).reserved := by
  rw [takePages]
  dsimp only
  split <;> rfl

variable {pre post : List Nat}

theorem Inv.first (h : s.Inv) (split : s.freeList = pre ++ p :: post) (enough : n ≤ s.len p) :
    (p :: post).take n = List.range' p n := by
  have ascending := h.ascending
  rw [split] at ascending
  have parts := List.pairwise_append.mp ascending
  apply take_eq_range parts.2.1
  intro k small
  have member := h.blocks.run p k (by simp [split]) (by omega)
  rw [split] at member
  cases List.mem_append.mp member with
  | inl before =>
    have := parts.2.2 _ before p (.head _)
    omega
  | inr here => exact here

theorem Inv.next (h : s.Inv) (split : s.freeList = pre ++ p :: post)
    (more : n < s.len p) : (p :: post).drop n = (p + n) :: (p :: post).drop (n + 1) := by
  have taken := congrArg (fun l => l[n]?) (h.first split more)
  simp only [List.getElem?_take, Nat.lt_succ_self, if_true, List.getElem?_range', Nat.one_mul] at taken
  rw [List.drop_eq_getElem?_toList_append, taken]
  rfl

section

variable (h : s.Inv) (positive : 0 < n)
include h positive

/-- The pages that are cut off the list, and what is left. -/
theorem Inv.cut (split : s.freeList = pre ++ p :: post) (enough : n ≤ s.len p) :
    (pre ++ (p :: post).drop n).Pairwise (· < ·) ∧
      (∀ q, q ∈ pre ++ (p :: post).drop n ↔ q ∈ s.freeList ∧ ¬ (p ≤ q ∧ q < p + n)) ∧
      (pre ++ (p :: post).drop n).length + n = s.freeList.length := by
  have whole : s.freeList = pre ++ (List.range' p n ++ (p :: post).drop n) := by
    rw [← h.first split enough, List.take_append_drop, split]
  have ascending := h.ascending
  rw [whole] at ascending ⊢
  generalize (p :: post).drop n = rest at *
  simp only [List.pairwise_append, List.mem_append, List.mem_range'_1] at ascending
  have high (q : Nat) (mem : q ∈ rest) : p + n ≤ q := by
    have := ascending.2.1.2.2 (p + n - 1) (by omega) q mem
    omega
  have low (q : Nat) (mem : q ∈ pre) : q < p := ascending.2.2 q mem p (.inl (by omega))
  refine ⟨?_, fun q => ?_, ?_⟩
  · rw [List.pairwise_append]
    exact ⟨ascending.1, ascending.2.1.2.1, fun a left b right => ascending.2.2 a left b (.inr right)⟩
  · simp only [List.mem_append, List.mem_range'_1]
    grind
  · simp only [List.length_append, List.length_range']
    omega

/-- The state after `n` pages are cut off the block at `p`. -/
theorem Inv.carved (split : s.freeList = pre ++ p :: post) (enough : n ≤ s.len p)
    (list : t.freeList = pre ++ (p :: post).drop n) (count : t.nrFree = s.nrFree - n)
    (lens : ∀ q, t.len q = if q = p + n ∧ n < s.len p then s.len p - n else s.len q)
    (reserved : ∀ q, (t.page q).reserved = if q ∈ (p :: post).take n then true else (s.page q).reserved) :
    t.Inv := by
  have mem : p ∈ s.freeList := by simp [split]
  obtain ⟨ascending, members, length⟩ := h.cut positive split enough
  rw [← list] at ascending members length
  refine ⟨ascending, (h.blocks.carve mem positive enough).congr members fun q _ => lens q, ?_, ?_, ?_⟩
  · intro q here some reached
    rw [lens] at some reached
    rw [members] at here reached
    split_ifs at some reached with cut
    · rw [show q + (s.len p - n) = p + s.len p by omega] at reached
      exact h.maximal p mem (by omega) reached.1
    · exact h.maximal q here.1 some reached.1
  · rw [count, h.count]
    omega
  · intro q outside
    have kept := h.reserved q
    rw [h.first split enough] at reserved
    grind

/-- The first page large enough, if there is one. -/
theorem Inv.scan {after : List Nat}
    (pre_eq : s.freeList.takeWhile (fun p => (s.page p).property < n) = pre)
    (after_eq : s.freeList.dropWhile (fun p => (s.page p).property < n) = after) :
    s.freeList = pre ++ after ∧ (after = [] → ∀ p, ¬ HasRun s.freeList p n) ∧
      ∀ p post, after = p :: post → n ≤ s.len p := by
  refine ⟨?_, ?_, ?_⟩
  · rw [← pre_eq, ← after_eq, List.takeWhile_append_dropWhile]
  · intro none p run
    obtain ⟨q, mem, enough⟩ := h.blocks.longest h.maximal positive run
    rw [none, List.dropWhile_eq_nil_iff] at after_eq
    have short := after_eq q mem
    rw [decide_eq_true_eq] at short
    exact absurd enough (Nat.not_le.mpr short)
  · intro p post found
    have some : s.freeList.dropWhile (fun p => (s.page p).property < n) ≠ [] := by
      rw [after_eq, found]
      exact List.cons_ne_nil _ _
    have head := List.head_dropWhile_not (fun p => decide ((s.page p).property < n)) some
    simp only [after_eq, found, decide_eq_false_iff_not, Nat.not_lt] at head
    exact head

theorem Inv.cutPages (split : s.freeList = pre ++ p :: post) (enough : n ≤ s.len p) :
    ∃ t, s.cutPages n pre (p :: post) = some (some p, t) ∧ t.Inv := by
  have long : ¬ (p :: post).length < n := by
    have := congrArg List.length (h.first split enough)
    rw [List.length_take, List.length_range'] at this
    omega
  rw [Pmm.cutPages, if_neg long]
  by_cases more : n < (s.page p).property
  · rw [if_pos more]
    simp only [h.next split more]
    refine ⟨_, rfl, h.carved positive split enough ?_ rfl (fun q => ?_) fun q => ?_⟩
    · exact congrArg (pre ++ ·) (h.next split more).symm
    · have kept := len_takePages s ((p :: post).take n) [] q
      have longer : n < s.len p := more
      rw [len_setProperty, ← kept]
      simp only [longer, and_true]
      rfl
    · rw [reserved_setProperty]
      exact reserved_takePages s _ [] q
  · rw [if_neg more]
    refine ⟨_, rfl, h.carved positive split enough rfl rfl (fun q => ?_) (reserved_takePages s _ [])⟩
    rw [if_neg fun both => more both.2]
    exact len_takePages s _ [] q

theorem Inv.alloc : ∃ r t, s.defaultAllocPages n = some (r, t) ∧ t.Inv ∧
    (r = none → ∀ p, ¬ HasRun s.freeList p n) ∧ ∀ p, r = some p → HasRun s.freeList p n := by
  unfold defaultAllocPages
  rw [if_neg (Nat.pos_iff_ne_zero.mp positive)]
  by_cases few : s.nrFree < n
  · refine ⟨none, s, if_pos few, h, fun _ p run => ?_, nofun⟩
    have := length_le_of_run run
    have := h.count
    omega
  rw [if_neg few]
  generalize pre_eq : s.freeList.takeWhile (fun p => (s.page p).property < n) = pre
  generalize after_eq : s.freeList.dropWhile (fun p => (s.page p).property < n) = after
  obtain ⟨split, missing, found⟩ := h.scan positive pre_eq after_eq
  cases after with
  | nil => exact ⟨none, s, rfl, h, fun _ => missing rfl, nofun⟩
  | cons p post =>
    have enough := found p post rfl
    obtain ⟨t, ran, inv⟩ := h.cutPages positive split enough
    refine ⟨some p, t, ran, inv, nofun, ?_⟩
    rintro q ⟨⟩ k small
    exact h.blocks.run p k (by simp [split]) (by omega)

end

/-- The free list with the freed pages in it. -/
theorem Inv.inserted (h : s.Inv) (positive : 0 < n) (fresh : ∀ q ∈ s.freeList, ¬ (base ≤ q ∧ q < base + n))
    {before after : List Nat} (before_eq : s.freeList.takeWhile (· ≤ base) = before)
    (after_eq : s.freeList.dropWhile (· ≤ base) = after) :
    (∀ q ∈ before, q < base) ∧ (∀ q ∈ after, base + n ≤ q) ∧
      (before ++ (List.range' base n ++ after)).Pairwise (· < ·) ∧
      (∀ q, q ∈ before ++ (List.range' base n ++ after) ↔
        q ∈ s.freeList ∨ base ≤ q ∧ q < base + n) ∧
      (before ++ (List.range' base n ++ after)).length = s.freeList.length + n := by
  have whole : s.freeList = before ++ after := by
    rw [← before_eq, ← after_eq, List.takeWhile_append_dropWhile]
  have ascending := h.ascending
  have low (q : Nat) (mem : q ∈ before) : q ≤ base := le_of_mem_takeWhile (before_eq ▸ mem)
  have high (q : Nat) (mem : q ∈ after) : base < q := lt_of_mem_dropWhile ascending (after_eq ▸ mem)
  rw [whole] at ascending fresh ⊢
  simp only [List.mem_append, List.pairwise_append, List.mem_range'_1, List.length_append,
    List.length_range'] at *
  refine ⟨by grind, by grind, ⟨ascending.1, ⟨List.pairwise_lt_range', ascending.2.1, by grind⟩, by grind⟩,
    by grind, by omega⟩

/-- Between the merges: only the block before `base` may touch another one. -/
structure Freed (s : Pmm) (base : Nat) : Prop where
  blocks : Blocks (· ∈ s.freeList) s.len
  mem : base ∈ s.freeList
  some : s.len base ≠ 0
  touch : ∀ p ∈ s.freeList, s.len p ≠ 0 → p + s.len p ∈ s.freeList → p + s.len p = base

/-- Merging with the block behind. -/
theorem freed_mergeNext (after : List Nat) (blocks : Blocks (· ∈ s.freeList) s.len)
    (mem : base ∈ s.freeList) (length : s.len base = n) (positive : 0 < n)
    (sorted : after.Pairwise (· < ·)) (high : ∀ q ∈ after, base + n ≤ q)
    (members : ∀ q, base + n ≤ q → (q ∈ s.freeList ↔ q ∈ after))
    (starts : base + n ∈ s.freeList → s.len (base + n) ≠ 0)
    (touch : ∀ p ∈ s.freeList, s.len p ≠ 0 → p + s.len p ∈ s.freeList →
      p + s.len p = base ∨ p = base) :
    (s.mergeNext base n after).Freed base ∧
      (s.mergeNext base n after).freeList = s.freeList ∧
      (∀ q, ((s.mergeNext base n after).page q).reserved = (s.page q).reserved) ∧
      (s.mergeNext base n after).nrFree = s.nrFree := by
  have stay (away : base + n ∉ s.freeList) : s.Freed base :=
    ⟨blocks, mem, by omega, fun p first some reached => by grind⟩
  cases after with
  | nil => exact ⟨stay (by grind), rfl, fun _ => rfl, rfl⟩
  | cons p rest =>
    rw [mergeNext]
    by_cases adjacent : base + n = p
    · subst adjacent
      rw [if_pos rfl]
      have next : base + n ∈ s.freeList := (members _ (le_refl _)).mpr (.head _)
      have some := starts next
      have lens (q : Nat) : ((s.setProperty base ((s.page base).property +
          (s.page (base + n)).property)).setProperty (base + n) 0).len q =
            if q = base + n then 0 else if q = base then n + s.len (base + n) else s.len q := by
        rw [len_setProperty, len_setProperty, ← length]
        rfl
      refine ⟨⟨?_, mem, by grind, fun p first positive reached => ?_⟩, rfl, fun q => ?_, rfl⟩
      · have merged := blocks.merge mem (by omega) (by rwa [length]) (by rwa [length])
        apply merged.congr (fun _ => .rfl)
        intro q _
        rw [lens, length]
      · rw [lens] at positive reached ⊢
        split_ifs at positive reached ⊢ with gone here
        · exact absurd rfl positive
        · -- The block behind ended at a gap.
          rw [here, ← Nat.add_assoc] at reached
          have := touch _ next some reached
          omega
        · exact (touch p first positive reached).resolve_right here
      · rw [reserved_setProperty, reserved_setProperty]
    · rw [if_neg adjacent]
      have above := (List.pairwise_cons.mp sorted).1
      have low := high p (.head _)
      exact ⟨stay (by grind), rfl, fun _ => rfl, rfl⟩

/-- Merging with the block before. -/
theorem Freed.mergePrev (h : s.Freed base) (before : List Nat) (sorted : before.Pairwise (· < ·))
    (low : ∀ q ∈ before, q < base) (members : ∀ q < base, (q ∈ s.freeList ↔ q ∈ before)) :
    Blocks (· ∈ s.freeList) (s.mergePrev base before.reverse).len ∧
      Maximal (· ∈ s.freeList) (s.mergePrev base before.reverse).len ∧
      (s.mergePrev base before.reverse).freeList = s.freeList ∧
      (s.mergePrev base before.reverse).nrFree = s.nrFree ∧
      ∀ q, ((s.mergePrev base before.reverse).page q).reserved = (s.page q).reserved := by
  have stay (away : ∀ q ∈ before, q + 1 ≠ base) : Maximal (· ∈ s.freeList) s.len := by
    intro p first some reached
    have ends := h.touch p first some reached
    have last := h.blocks.run p (s.len p - 1) first (by omega)
    exact away _ ((members _ (by omega)).mp last) (by omega)
  cases reversed : before.reverse with
  | nil =>
    have none : before = [] := by simpa using reversed
    exact ⟨h.blocks, stay (by simp [none]), rfl, rfl, fun _ => rfl⟩
  | cons last rest =>
    have greatest (q : Nat) (mem : q ∈ before) : q ≤ last :=
      le_of_reverse_eq_cons sorted reversed mem
    have here : last ∈ before := by
      rw [← List.mem_reverse, reversed]
      exact .head _
    rw [Pmm.mergePrev]
    by_cases adjacent : last + 1 = base
    · rw [if_pos adjacent]
      have lastFree := (members last (by omega)).mpr here
      obtain ⟨a, first, some, below, above⟩ := h.blocks.cover last lastFree
      have aLow : a < base := by omega
      -- The block ends at `base`, where another one begins.
      have ends : a + s.len a = base := by
        by_contra longer
        exact h.some (h.blocks.inside first aLow (by omega))
      have found : (last :: rest).find? (fun p => decide ((s.page p).property ≠ 0)) = .some a := by
        rw [← reversed]
        apply find_reverse sorted ((members a aLow).mp first)
        · exact decide_eq_true some
        · intro q mem between
          have qLow := low q mem
          exact decide_eq_false (not_not.mpr (h.blocks.inside first between (by omega)))
      rw [found]
      have lens (q : Nat) : ((s.setProperty a ((s.page a).property +
          (s.page base).property)).setProperty base 0).len q =
            if q = base then 0 else if q = a then s.len a + s.len base else s.len q := by
        rw [len_setProperty, len_setProperty]
        rfl
      refine ⟨?_, fun p start positive reached => ?_, rfl, rfl, fun q => ?_⟩
      · have merged := h.blocks.merge first some (by rw [ends]; exact h.mem) (by rw [ends]; exact h.some)
        apply merged.congr (fun _ => .rfl)
        intro q _
        rw [lens, ends]
      · have behind := h.touch base h.mem h.some
        have own := h.touch p start
        have only := h.blocks.unique (x := last) start first
        have some' := h.some
        rw [lens] at positive reached
        grind
      · rw [reserved_setProperty, reserved_setProperty]
    · rw [if_neg adjacent]
      refine ⟨h.blocks, stay fun q mem => ?_, rfl, rfl, fun _ => rfl⟩
      have := greatest q mem
      have := low last here
      omega

section

variable (h : s.Inv) (positive : 0 < n) (fresh : ∀ q ∈ s.freeList, ¬ (base ≤ q ∧ q < base + n))
  (clean : ∀ q, base < q → q < base + n → s.len q = 0)
include h positive fresh clean

/-- The freed pages are a block of their own, before the merges. -/
theorem Inv.insert (members : ∀ q, q ∈ t.freeList ↔ q ∈ s.freeList ∨ base ≤ q ∧ q < base + n)
    (lens : ∀ q, t.len q = if q = base then n else s.len q) :
    Blocks (· ∈ t.freeList) t.len ∧ (base + n ∈ t.freeList → t.len (base + n) ≠ 0) ∧
      ∀ p ∈ t.freeList, t.len p ≠ 0 → p + t.len p ∈ t.freeList → p + t.len p = base ∨ p = base := by
  refine ⟨(h.blocks.add positive fresh).congr members (by grind), fun next => ?_,
    fun p first some reached => ?_⟩
  · rw [lens, if_neg (by omega)]
    rw [members] at next
    apply h.blocks.starts (next.resolve_right (by omega))
    intro p mem adjacent
    exact fresh p mem (by omega)
  · have ends : p ∈ s.freeList → s.len p ≠ 0 → p + s.len p ∉ s.freeList := h.maximal p
    -- A block that ends inside the range would hold its first page.
    have holds := h.blocks.within (p := p) (q := base)
    rw [members] at first reached
    rw [lens] at some reached ⊢
    grind

theorem Inv.free : ∃ t, s.defaultFreePages base n = some t ∧ t.Inv := by
  have reserved : (s.page base).reserved = true := h.reserved base fun mem => fresh base mem (by omega)
  unfold defaultFreePages
  rw [if_neg (by rw [reserved]; simp; omega)]
  generalize before_eq : s.freeList.takeWhile (· ≤ base) = before
  generalize after_eq : s.freeList.dropWhile (· ≤ base) = after
  obtain ⟨low, high, ascending, members, length⟩ := h.inserted positive fresh before_eq after_eq
  let s₁ : Pmm := Pmm.setPage { s with freeList := before ++ (List.range' base n ++ after) } base
    { property := n, ref := 0, reserved := false, hasProperty := true }
  have list₁ : s₁.freeList = before ++ (List.range' base n ++ after) := rfl
  have page₁ (q : Nat) (other : q ≠ base) : s₁.page q = s.page q := update_of_ne other _ _
  have lens₁ (q : Nat) : s₁.len q = if q = base then n else s.len q := by
    by_cases same : q = base
    · subst same
      simp [s₁, setPage, len]
    · rw [len, page₁ q same, if_neg same, len]
  obtain ⟨blocks₁, starts, touch⟩ := h.insert positive fresh clean members lens₁
  have sorted := List.pairwise_append.mp ascending
  obtain ⟨freed, list₂, reserved₂, count₂⟩ := freed_mergeNext after blocks₁ (by grind)
    (by rw [lens₁, if_pos rfl]) positive (List.pairwise_append.mp sorted.2.1).2.1 high
    (by grind) starts touch
  obtain ⟨blocks, maximal, list₃, count₃, reserved₃⟩ := freed.mergePrev before sorted.1 low (by grind)
  have list := list₃.trans (list₂.trans list₁)
  rw [← list₃] at blocks maximal
  refine ⟨_, rfl, ?_, blocks, maximal, ?_, fun q outside => ?_⟩
  · rwa [list]
  · rw [list, length, count₃, count₂, ← h.count]
    rfl
  · rw [list, members, not_or] at outside
    rw [reserved₃, reserved₂, page₁ q (by omega)]
    exact h.reserved q outside.1

end

theorem initPages_spec (done : s.initPages p n = some t) :
    t.freeList = s.freeList ++ List.range' p n ∧ t.nrFree = s.nrFree ∧
      ∀ q, t.page q = if p ≤ q ∧ q < p + n then
        { property := 0, ref := 0, reserved := false, hasProperty := true } else s.page q := by
  induction n generalizing s p with
  | zero =>
    cases done
    exact ⟨by simp, rfl, fun q => by rw [if_neg (by omega)]⟩
  | succ n ih =>
    rw [initPages] at done
    split at done
    · obtain ⟨list, count, page⟩ := ih done
      refine ⟨?_, count, fun q => ?_⟩
      · rw [list, List.range'_succ, List.append_assoc]
        rfl
      · rw [page]
        by_cases here : q = p
        · rw [if_neg (by omega), if_pos (by omega), here]
          exact update_self p _ _
        · by_cases later : p + 1 ≤ q ∧ q < p + 1 + n
          · rw [if_pos later, if_pos (by omega)]
          · rw [if_neg later, if_neg (by omega)]
            exact update_of_ne here _ _
    · cases done

theorem Inv.initMemmap (h : s.Inv) (gap : ∀ q ∈ s.freeList, q + 1 < base)
    (done : s.defaultInitMemmap (base, n) = some t) :
    t.Inv ∧ ∀ q ∈ t.freeList, q < base + n := by
  rw [defaultInitMemmap] at done
  split at done
  · cases done
  obtain ⟨s₁, loop, done⟩ := Option.bind_eq_some_iff.mp done
  cases done
  obtain ⟨list, count, page⟩ := initPages_spec loop
  have members (q : Nat) : q ∈ s₁.freeList ↔ q ∈ s.freeList ∨ base ≤ q ∧ q < base + n := by
    rw [list, List.mem_append, List.mem_range'_1]
  have lens (q : Nat) : (s₁.setProperty base n).len q =
      if q = base then n else if base < q ∧ q < base + n then 0 else s.len q := by
    rw [len_setProperty, len, page]
    grind [len]
  refine ⟨⟨?_, ?_, ?_, ?_, ?_⟩, ?_⟩
  · change s₁.freeList.Pairwise _
    rw [list, List.pairwise_append]
    exact ⟨h.ascending, List.pairwise_lt_range', by grind⟩
  · exact (h.blocks.add (by omega) (by grind)).congr members (fun q _ => lens q)
  · intro p mem some reached
    change p ∈ s₁.freeList at mem
    change (s₁.setProperty base n).len p ≠ 0 at some
    change p + (s₁.setProperty base n).len p ∈ s₁.freeList at reached
    have ends : p ∈ s.freeList → s.len p ≠ 0 → p + s.len p ∉ s.freeList := h.maximal p
    have last := h.blocks.run p (s.len p - 1)
    rw [members] at mem reached
    rw [lens] at some reached
    grind
  · change s₁.nrFree + n = s₁.freeList.length
    rw [list, List.length_append, List.length_range', count, h.count]
  · intro q outside
    change q ∉ s₁.freeList at outside
    rw [members, not_or] at outside
    rw [reserved_setProperty, page, if_neg outside.2]
    exact h.reserved q outside.1
  · intro q mem
    change q ∈ s₁.freeList at mem
    grind

theorem inv_defaultInit : defaultInit.Inv where
  ascending := List.Pairwise.nil
  blocks := ⟨fun _ mem => (by cases mem), fun _ _ mem => (by cases mem), fun _ _ mem => (by cases mem)⟩
  maximal _ mem := by cases mem
  count := rfl
  reserved _ _ := rfl

/-- Ascending ranges with gaps between them make a well-formed allocator. -/
theorem Inv.ranges {ranges : List (Nat × Nat)} (h : s.Inv) (apart : Apart ranges)
    (gap : ∀ q ∈ s.freeList, ∀ r ∈ ranges, q + 1 < r.1)
    (done : ranges.foldlM defaultInitMemmap s = some t) : t.Inv := by
  induction ranges generalizing s with
  | nil =>
    cases done
    exact h
  | cons range ranges ih =>
    obtain ⟨-, above, rest⟩ := apart
    obtain ⟨s₁, first, later⟩ := Option.bind_eq_some_iff.mp done
    obtain ⟨inv₁, below⟩ := h.initMemmap (fun q mem => gap q mem _ (.head _)) first
    apply ih inv₁ rest _ later
    intro q mem r here
    have := below q mem
    have := above r here
    omega

theorem Inv.step {op : PmmOp} (h : s.Inv) (clean : s.NoStale op) (taken : s.step op = some t) :
    t.Inv := by
  cases op with
  | alloc n =>
    rw [Pmm.step, Option.map_eq_some_iff] at taken
    obtain ⟨result, ran, rfl⟩ := taken
    have positive : 0 < n := by
      rw [defaultAllocPages] at ran
      split at ran
      · cases ran
      · omega
    obtain ⟨r, t, ran', inv, -⟩ := h.alloc positive
    rw [ran] at ran'
    cases ran'
    exact inv
  | free base n =>
    rw [Pmm.step] at taken
    split at taken
    · rename_i fresh
      have positive : 0 < n := by
        rw [defaultFreePages] at taken
        split at taken
        · cases taken
        · omega
      obtain ⟨t', ran, inv⟩ := h.free positive
        (fun q mem within => fresh q (List.mem_range'_1.mpr within) mem)
        (fun q low high => clean q (List.mem_range'_1.mpr (by omega)) (by omega))
      rw [taken] at ran
      cases ran
      exact inv
    · cases taken

end Pmm

/-- In a run that frees no old block lengths, the free pages form maximal blocks, a request
    is served by pages that were all free, and it is refused only if there are none. -/
theorem first_fit_exact {ranges : List (Nat × Nat)} {s t : Pmm} {ops : List PmmOp}
    (apart : Apart ranges) (start : Pmm.init ranges = some s)
    (clean : Along Pmm.step Pmm.NoStale s ops) (run : runFrom Pmm.step s ops = some t) :
    t.Coalesced ∧ ∀ n, 0 < n → ∃ r t', t.defaultAllocPages n = some (r, t') ∧
      (r = none ↔ ¬ ∃ p, HasRun t.freeList p n) ∧ ∀ p, r = some p → HasRun t.freeList p n := by
  have initial : s.Inv := Pmm.Inv.ranges Pmm.inv_defaultInit apart (fun _ mem => by cases mem) start
  have inv : t.Inv :=
    runFrom_invariant (fun _ _ _ h cond taken => h.step cond taken) initial clean run
  refine ⟨inv.coalesced, fun n positive => ?_⟩
  obtain ⟨r, t', ran, -, missing, found⟩ := inv.alloc positive
  refine ⟨r, t', ran, ⟨fun none => not_exists.mpr (missing none), fun no => ?_⟩, found⟩
  cases r with
  | none => rfl
  | some p => exact absurd ⟨p, found p rfl⟩ no

/-- The allocator with two ranges of pages. -/
def twoRanges : Pmm := (Pmm.init [(0, 4), (6, 3)]).getD .defaultInit

/-- Take pages of both ranges, give them back in parts and take some again. -/
def splitAndMerge : List PmmOp := [.alloc 3, .alloc 2, .free 0 2, .free 2 1, .alloc 2, .free 6 2]

theorem first_fit_exact_splitAndMerge : Along Pmm.step Pmm.NoStale twoRanges splitAndMerge ∧
    ∃ t, runFrom Pmm.step twoRanges splitAndMerge = some t ∧ t.Coalesced ∧
      ∃ r t', t.defaultAllocPages 3 = some (r, t') ∧
        (r = none ↔ ¬ ∃ p, HasRun t.freeList p 3) := by
  have apart : Apart [(0, 4), (6, 3)] := by simp [Apart]
  have start : Pmm.init [(0, 4), (6, 3)] = some twoRanges := rfl
  have clean : Along Pmm.step Pmm.NoStale twoRanges splitAndMerge := by decide
  have ends : (runFrom Pmm.step twoRanges splitAndMerge).isSome = true := by decide
  obtain ⟨t, run⟩ := Option.isSome_iff_exists.mp ends
  obtain ⟨coalesced, served⟩ := first_fit_exact apart start clean run
  obtain ⟨r, t', ran, exact, -⟩ := served 3 (by decide)
  exact ⟨clean, t, run, coalesced, r, t', ran, exact⟩

/-- Four single pages are taken from ten and two are given back together. Then a request for
    three pages gets two that are still in use. -/
theorem stale_length_is_served : ∃ s t t', Pmm.init [(0, 10)] = some s ∧
    runFrom Pmm.step s [.alloc 1, .alloc 1, .alloc 1, .alloc 1, .free 0 2] = some t ∧
      t.defaultAllocPages 3 = some (some 1, t') ∧ 2 ∉ t.freeList ∧ 3 ∉ t.freeList :=
  ⟨_, _, _, rfl, rfl, rfl, by decide, by decide⟩

end Procore.Mm
