import Mathlib.Data.List.Perm.Subperm
import Mathlib.Data.List.TakeWhile

/-! # Runs of consecutive numbers

A list of natural numbers in ascending order falls into maximal runs of
consecutive numbers. A run that begins at an element of the list stands there
in one piece. A set of numbers is divided into blocks by a length at the first
number of each block; blocks that touch can be merged, and the front of a block
can be cut off.
-/

namespace Procore.Lib

open List

/-- The numbers `p, …, p + n - 1` are all in the list. -/
def HasRun (l : List Nat) (p n : Nat) : Prop := ∀ k < n, p + k ∈ l

variable {l m : List Nat} {p q b n : Nat}

theorem HasRun.mem (h : HasRun l p n) (low : p ≤ q) (high : q < p + n) : q ∈ l := by
  have := h (q - p) (by omega)
  rwa [Nat.add_sub_cancel' low] at this

theorem take_eq_range {post : List Nat} (ascending : (p :: post).Pairwise (· < ·))
    (run : HasRun (p :: post) p n) : (p :: post).take n = range' p n := by
  induction n generalizing p post with
  | zero => rfl
  | succ n ih =>
    rw [take_succ_cons, range'_succ]
    cases n with
    | zero => rfl
    | succ n =>
      obtain ⟨above, rest⟩ := pairwise_cons.mp ascending
      have next : p + 1 ∈ post := by
        cases mem_cons.mp (run 1 (by omega)) with
        | inl same => omega
        | inr later => exact later
      cases post with
      | nil => cases next
      | cons q post' =>
        have low := above q ((.head _) ..)
        have high : q ≤ p + 1 := by
          cases mem_cons.mp next with
          | inl same => omega
          | inr later =>
            have := (pairwise_cons.mp rest).1 _ later
            omega
        obtain rfl : q = p + 1 := by omega
        rw [ih rest]
        intro k small
        have mem := run (k + 1) (by omega)
        rw [← Nat.add_assoc, Nat.add_right_comm] at mem
        cases mem_cons.mp mem with
        | inl same => omega
        | inr later => exact later

theorem lt_of_mem_dropWhile (ascending : l.Pairwise (· < ·)) (mem : q ∈ l.dropWhile (· ≤ b)) :
    b < q := by
  induction l with
  | nil => cases mem
  | cons p post ih =>
    obtain ⟨above, rest⟩ := pairwise_cons.mp ascending
    rw [dropWhile_cons] at mem
    split_ifs at mem with high
    · exact ih rest mem
    simp only [decide_eq_true_eq] at high
    cases mem_cons.mp mem with
    | inl same => omega
    | inr later =>
      have := above q later
      omega

theorem le_of_mem_takeWhile (mem : q ∈ l.takeWhile (· ≤ b)) : q ≤ b := by
  simpa using mem_takeWhile_imp mem

theorem length_le_of_run (run : HasRun l p n) : n ≤ l.length := by
  have sub : range' p n ⊆ l := by
    intro q mem
    rw [mem_range'_1] at mem
    exact run.mem mem.1 mem.2
  have := ((nodup_range' : (range' p n).Nodup).subperm sub).length_le
  rwa [length_range'] at this

theorem find_reverse {test : Nat → Bool} (ascending : l.Pairwise (· < ·)) (mem : p ∈ l)
    (passes : test p = true) (above : ∀ q ∈ l, p < q → test q = false) :
    l.reverse.find? test = some p := by
  obtain ⟨before, after, rfl⟩ := append_of_mem mem
  have later : ∀ q ∈ after.reverse, ¬ test q = true := by
    intro q mem
    rw [mem_reverse] at mem
    have lt := (pairwise_cons.mp (pairwise_append.mp ascending).2.1).1 q mem
    rw [above q (mem_append_right _ (.tail _ mem)) lt]
    exact Bool.false_ne_true
  rw [reverse_append, reverse_cons, append_assoc, find?_append,
    find?_eq_none.mpr later, Option.none_or]
  simp [passes]

theorem le_of_reverse_eq_cons {rest : List Nat} (ascending : l.Pairwise (· < ·))
    (last : l.reverse = q :: rest) (mem : p ∈ l) : p ≤ q := by
  have descending := pairwise_reverse.mpr ascending
  rw [last] at descending
  rw [← mem_reverse, last] at mem
  cases mem_cons.mp mem with
  | inl same => omega
  | inr later => exact Nat.le_of_lt ((pairwise_cons.mp descending).1 p later)

/-- The set `F` is divided into blocks: the first number of a block has its length, the
    others have zero. -/
structure Blocks (F : Nat → Prop) (len : Nat → Nat) : Prop where
  cover : ∀ q, F q → ∃ p, F p ∧ len p ≠ 0 ∧ p ≤ q ∧ q < p + len p
  run : ∀ p k, F p → k < len p → F (p + k)
  inner : ∀ p k, F p → k < len p → k ≠ 0 → len (p + k) = 0

/-- No two blocks touch. -/
def Maximal (F : Nat → Prop) (len : Nat → Nat) : Prop := ∀ p, F p → len p ≠ 0 → ¬ F (p + len p)

namespace Blocks

variable {F : Nat → Prop} {len : Nat → Nat} {a x : Nat}

/-- The fields with the numbers of a block in place of their distances. -/
theorem of (cover : ∀ q, F q → ∃ p, F p ∧ len p ≠ 0 ∧ p ≤ q ∧ q < p + len p)
    (run : ∀ p q, F p → p ≤ q → q < p + len p → F q)
    (inner : ∀ p q, F p → p < q → q < p + len p → len q = 0) : Blocks F len where
  cover := cover
  run p k mem inside := run p (p + k) mem (by omega) (by omega)
  inner p k mem inside positive := inner p (p + k) mem (by omega) (by omega)

section

variable (h : Blocks F len)
include h

theorem within (first : F p) (low : p ≤ q) (high : q < p + len p) : F q := by
  have := h.run p (q - p) first (by omega)
  rwa [Nat.add_sub_cancel' low] at this

theorem inside (first : F p) (low : p < q) (high : q < p + len p) : len q = 0 := by
  have := h.inner p (q - p) first (by omega) (by omega)
  rwa [Nat.add_sub_cancel' (by omega)] at this

theorem congr {F' : Nat → Prop} {len' : Nat → Nat} (same : ∀ q, F' q ↔ F q)
    (lens : ∀ q, F q → len' q = len q) : Blocks F' len' := by
  have run := @h.within
  have inner := @h.inside
  refine .of (fun q mem => ?_) (fun p q mem low high => ?_) fun p q mem low high => ?_
  · obtain ⟨p, first, positive, low, high⟩ := h.cover q ((same q).mp mem)
    exact ⟨p, (same p).mpr first, by rwa [lens p first], low, by rwa [lens p first]⟩
  · grind
  · grind

theorem unique (first : F p) (first' : F q) (positive : len p ≠ 0)
    (positive' : len q ≠ 0) (here : p ≤ x ∧ x < p + len p) (here' : q ≤ x ∧ x < q + len q) :
    p = q := by
  by_contra apart
  cases Nat.lt_or_gt_of_ne apart with
  | inl below => exact positive' (h.inside first below (by omega))
  | inr above => exact positive (h.inside first' above (by omega))

theorem starts (mem : F q) (alone : ∀ p, F p → p + 1 ≠ q) : len q ≠ 0 := by
  obtain ⟨p, first, positive, low, high⟩ := h.cover q mem
  by_cases same : p = q
  · rwa [← same]
  · exact absurd (by omega) (alone (q - 1) (h.within first (by omega) (by omega)))

theorem longest (maximal : Maximal F len) (positive : 0 < n)
    (run : ∀ k < n, F (p + k)) : ∃ q, F q ∧ n ≤ len q := by
  obtain ⟨q, first, some, low, high⟩ := h.cover p (run 0 positive)
  refine ⟨q, first, ?_⟩
  by_contra short
  have reached := run (q + len q - p) (by omega)
  rw [Nat.add_sub_cancel' (by omega)] at reached
  exact maximal q first some reached

/-- Add a block of numbers that were not in the set. -/
theorem add (positive : 0 < n) (fresh : ∀ q, F q → ¬ (b ≤ q ∧ q < b + n)) :
    Blocks (fun q => F q ∨ b ≤ q ∧ q < b + n)
      (fun q => if q = b then n else if b < q ∧ q < b + n then 0 else len q) := by
  have run := @h.within
  have inner := @h.inside
  refine .of (fun q mem => ?_) (fun p q mem low high => ?_) fun p q mem low high => ?_
  · by_cases old : F q
    · obtain ⟨p, first, some, low, high⟩ := h.cover q old
      exact ⟨p, .inl first, by grind, low, by grind⟩
    · exact ⟨b, by grind⟩
  · grind
  · grind

/-- Merge a block with the one that begins at its end. -/
theorem merge (first : F a) (some : len a ≠ 0) (next : F (a + len a))
    (some' : len (a + len a) ≠ 0) :
    Blocks F (fun q => if q = a + len a then 0 else if q = a then len a + len (a + len a)
      else len q) := by
  refine .of (fun q mem => ?_) (fun p q mem low high => ?_) fun p q mem low high => ?_
  · obtain ⟨p, start, positive, low, high⟩ := h.cover q mem
    by_cases joined : p = a ∨ p = a + len a
    · exact ⟨a, by grind⟩
    · exact ⟨p, by grind⟩
  · have left := h.within (q := q) mem low
    have right := h.within (q := q) next
    grind
  · have left := h.inside (q := q) mem low
    have right := h.inside (q := q) next
    grind

/-- Cut the first `n` numbers off a block. -/
theorem carve (first : F p) (positive : 0 < n) (enough : n ≤ len p) :
    Blocks (fun q => F q ∧ ¬ (p ≤ q ∧ q < p + n))
      (fun q => if q = p + n ∧ n < len p then len p - n else len q) := by
  refine .of (fun q mem => ?_) (fun a q mem low high => ?_) fun a q mem low high => ?_
  · obtain ⟨a, start, some, low, high⟩ := h.cover q mem.1
    have other := h.inside (q := a) first
    have rest := h.within (q := p + n) first
    by_cases here : a = p
    · exact ⟨p + n, by grind⟩
    · exact ⟨a, by grind⟩
  · have before := h.inside (q := p) mem.1
    have own := h.within (q := q) mem.1 low
    have cut := h.within (q := q) first
    grind
  · have before := h.inside (q := p) mem.1
    have own := h.inside (q := q) mem.1 low
    have cut := h.inside (q := q) first
    grind

end

end Blocks

end Procore.Lib
