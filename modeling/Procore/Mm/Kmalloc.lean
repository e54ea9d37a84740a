import Mathlib.Algebra.Group.Nat.Defs
import Procore.Mm.SlobRuns

/-! # The sizes that `kmalloc` serves

Small requests go to the SLOB allocator with a header of eight bytes, larger
ones to the page allocator in a power of two of pages. The border between the
two, the halving of the size and its conversion to `int` decide whether the
region that is returned is as large as what was asked for.
-/

namespace Procore.Mm.Slob

open Procore.Lib State

inductive Answer where
  /-- The assertion of `slob_alloc` fails. -/
  | panic
  | null
  | region (bytes : Nat)
  deriving DecidableEq

def findOrder (size : Int) : Nat :=
  if 4096 < size then findOrder (size / 2) + 1 else 0
termination_by size.toNat
decreasing_by omega

def bigblockSize : Nat := 12

namespace State

/-- `slob_alloc` for a size in bytes, with its assertion. -/
def slobAllocBytes (s : State) (size : Nat) (pages : List Nat) : Answer :=
  if size + slobUnit < pageSize then
    match s.slobAlloc (slobUnits size) pages with
    | none => .panic
    | some (_, none) => .null
    | some (t, some m) => .region (slobUnit * (t.mem m).units)
  else .panic

/-- `__kmalloc`; `pages` are the answers of the page allocator to `slob_alloc`, and `found` says
    that it has the pages of a large block. -/
def kmallocAnswer (s : State) (size : BitVec 32) (pages : List Nat) (found : Bool) : Answer :=
  if size.toNat < pageSize - slobUnit then
    match s.slobAllocBytes (size.toNat + slobUnit) pages with
    | .region bytes => .region (bytes - slobUnit)
    | other => other
  else
    match s.slobAllocBytes bigblockSize pages with
    -- `find_order` takes the size as an `int`.
    | .region _ => if found then .region (pageSize * 2 ^ findOrder size.toInt) else .null
    | other => other

end State

/-- The answer is no failed assertion, and a region is large enough. -/
def Answer.Enough (size : Nat) : Answer → Prop
  | .panic => False
  | .null => True
  | .region bytes => size ≤ bytes

/-- Whatever has happened before and whatever pages there are, `kmalloc` of this size is right. -/
def KmallocEnough (size : BitVec 32) : Prop :=
  ∀ (mem : Memory) (labels : List Label) (s : State) (pages : List Nat) (found : Bool),
    runFrom step (boot mem) labels = some s → pages.Nodup →
    (∀ page ∈ pages, 1 ≤ page ∧ page ∉ s.owned) →
    (s.kmallocAnswer size pages found).Enough size.toNat

/-- The sizes that are served: not the eight below `PAGE_SIZE - SLOB_UNIT`, not those that are
    negative as an `int`, and not those that lose bits in the last halving to 4096. -/
def SizeServed (size : Nat) : Prop :=
  size < 4080 ∨
    4088 ≤ size ∧ size < 2 ^ 31 ∧ ∀ k, ¬ (4096 * 2 ^ k < size ∧ size < 4097 * 2 ^ k)

theorem findOrder_natCast (size : Nat) :
    findOrder size = if 4096 < size then findOrder (size / 2 : Nat) + 1 else 0 := by
  have half : (size : Int) / 2 = (size / 2 : Nat) := by omega
  have test : (4096 : Int) < size ↔ 4096 < size := by omega
  rw [findOrder, half]
  exact if_congr test rfl rfl

theorem findOrder_spec (size : Nat) :
    size < 4097 * 2 ^ findOrder size ∧
      (findOrder size ≠ 0 → 4097 * 2 ^ (findOrder size - 1) ≤ size) := by
  induction size using Nat.strongRecOn with
  | ind size ih =>
    rw [findOrder_natCast]
    split
    · next large =>
        obtain ⟨upper, lower⟩ := ih (size / 2) (by omega)
        refine ⟨by rw [Nat.pow_succ]; omega, fun _ => ?_⟩
        rw [Nat.add_sub_cancel]
        cases order : findOrder (size / 2 : Nat) with
        | zero => omega
        | succ k =>
          have below := lower (order ▸ Nat.succ_ne_zero k)
          rw [order, Nat.add_sub_cancel] at below
          omega
    · exact ⟨by omega, absurd rfl⟩

theorem findOrder_covers_iff (size : Nat) :
    size ≤ 4096 * 2 ^ findOrder size ↔ ∀ k, ¬ (4096 * 2 ^ k < size ∧ size < 4097 * 2 ^ k) := by
  obtain ⟨upper, lower⟩ := findOrder_spec size
  constructor
  · intro covers k lost
    have less : k < findOrder size :=
      (Nat.pow_lt_pow_iff_right (by decide : 1 < 2)).mp (by omega)
    have powers : 2 ^ k ≤ 2 ^ (findOrder size - 1) := Nat.pow_le_pow_right (by decide) (by omega)
    omega
  · intro none
    by_contra short
    exact none (findOrder size) ⟨by omega, upper⟩

theorem findOrder_of_neg {size : Int} (negative : size < 0) : findOrder size = 0 := by
  rw [findOrder, if_neg (by omega)]

namespace State

variable {s : State} {ring pages : List Nat}

/-- In every state, `slob_alloc` returns nothing or a block of the size in units. -/
theorem slobAllocBytes_spec {size : Nat} (inv : s.Inv ring)
    (two : 2 ≤ slobUnits size) (fits : size + slobUnit < pageSize) (nodup : pages.Nodup)
    (fresh : ∀ page ∈ pages, 1 ≤ page ∧ page ∉ s.owned) :
    s.slobAllocBytes size pages = .null ∨
      s.slobAllocBytes size pages = .region (slobUnit * slobUnits size) := by
  obtain ⟨t, ring', result, done, served⟩ := inv.base.slobAlloc two nodup fresh
  rw [slobAllocBytes, if_pos fits, done]
  cases result with
  | none => exact .inl rfl
  | some m =>
    have length := (served.block m rfl).1
    exact .inr (congrArg (fun units => Answer.region (slobUnit * units)) length)

theorem kmallocAnswer_small {size : BitVec 32} (inv : s.Inv ring)
    (positive : 0 < size.toNat) (small : size.toNat < 4080) (nodup : pages.Nodup)
    (fresh : ∀ page ∈ pages, 1 ≤ page ∧ page ∉ s.owned) (found : Bool) :
    (s.kmallocAnswer size pages found).Enough size.toNat := by
  obtain ⟨two, header⟩ := slobUnits_header positive
  have fits : size.toNat + slobUnit + slobUnit < pageSize := by
    simp only [slobUnit, pageSize]
    omega
  rw [kmallocAnswer, if_pos (by simp [slobUnit, pageSize]; omega)]
  rcases slobAllocBytes_spec inv two fits nodup fresh with answer | answer
  · rw [answer]
    trivial
  · rw [answer]
    simp only [Answer.Enough, slobUnit] at header ⊢
    omega

theorem kmallocAnswer_large {size : BitVec 32} (inv : s.Inv ring)
    (large : 4088 ≤ size.toNat) (covers : size.toNat ≤ 4096 * 2 ^ findOrder size.toInt)
    (nodup : pages.Nodup) (fresh : ∀ page ∈ pages, 1 ≤ page ∧ page ∉ s.owned) (found : Bool) :
    (s.kmallocAnswer size pages found).Enough size.toNat := by
  rw [kmallocAnswer, if_neg (by simp [slobUnit, pageSize]; omega)]
  have two : 2 ≤ slobUnits bigblockSize := by decide
  rcases slobAllocBytes_spec inv two (by decide) nodup fresh with answer | answer
  · rw [answer]
    trivial
  · rw [answer]
    cases found
    · trivial
    · exact covers

end State

/-- `kmalloc` returns nothing or enough, and never fails the assertion, exactly for the sizes that
    are served. -/
theorem kmallocEnough_iff {size : BitVec 32} (positive : 0 < size.toNat) :
    KmallocEnough size ↔ SizeServed size.toNat := by
  constructor
  · intro enough
    by_cases small : size.toNat < 4080
    · exact .inl small
    have large : 4088 ≤ size.toNat := by
      by_contra between
      have answer := enough (fun _ => ⟨0, 0⟩) [] _ [] true rfl List.nodup_nil (by simp)
      rw [kmallocAnswer, if_pos (by simp [slobUnit, pageSize]; omega),
        slobAllocBytes, if_neg (by simp [slobUnit, pageSize]; omega)] at answer
      exact answer
    have covers : size.toNat ≤ 4096 * 2 ^ findOrder size.toInt := by
      have answer := enough (fun _ => ⟨0, 0⟩) [] _ [1] true rfl (by simp) (by simp [boot])
      have block : (boot fun _ => ⟨0, 0⟩).slobAllocBytes bigblockSize [1] = .region 16 := by
        decide +kernel
      rw [kmallocAnswer, if_neg (by simp [slobUnit, pageSize]; omega), block] at answer
      exact answer
    have positive : size.toNat < 2 ^ 31 := by
      by_contra negative
      have order := findOrder_of_neg (show size.toInt < 0 by rw [BitVec.toInt]; omega)
      rw [order] at covers
      omega
    have signed : size.toInt = size.toNat := BitVec.toInt_eq_toNat_of_lt (by omega)
    exact .inr ⟨large, positive, (findOrder_covers_iff size.toNat).mp (signed ▸ covers)⟩
  · intro served mem labels s pages found run nodup fresh
    obtain ⟨ring, inv⟩ := inv_of_run run
    rcases served with small | ⟨large, half, exact⟩
    · exact kmallocAnswer_small inv positive small nodup fresh found
    · have signed : size.toInt = size.toNat := BitVec.toInt_eq_toNat_of_lt (by omega)
      have covers := (findOrder_covers_iff size.toNat).mpr exact
      exact kmallocAnswer_large inv large (signed ▸ covers) nodup fresh found

theorem kmallocEnough_4079 : SizeServed 4079 ∧ KmallocEnough 4079 :=
  have served : SizeServed 4079 := .inl (by decide)
  ⟨served, (kmallocEnough_iff (by decide)).mpr served⟩

/-- With memory to spare, 4080 bytes fail the assertion, and 8193 bytes and two gigabytes get two
    pages and one. -/
theorem kmalloc_not_enough :
    (boot fun _ => ⟨0, 0⟩).kmallocAnswer 4080 [1] true = .panic ∧
      (boot fun _ => ⟨0, 0⟩).kmallocAnswer 8193 [1] true = .region 8192 ∧
      (boot fun _ => ⟨0, 0⟩).kmallocAnswer 0x80000000 [1] true = .region 4096 := by
  have block : (boot fun _ => ⟨0, 0⟩).slobAllocBytes bigblockSize [1] = .region 16 := by
    decide +kernel
  have odd : findOrder (8193 : BitVec 32).toInt = 1 := by
    rw [findOrder, findOrder]
    decide
  have negative : findOrder (0x80000000 : BitVec 32).toInt = 0 := findOrder_of_neg (by decide)
  refine ⟨rfl, ?_, ?_⟩
  · rw [kmallocAnswer, if_neg (by decide), block, odd]
    rfl
  · rw [kmallocAnswer, if_neg (by decide), block, negative]
    rfl

end Procore.Mm.Slob
