import Mathlib.Data.List.Basic

/-! # Rings of pointers

`Path next p xs q` says that following `next` from `p` visits the elements of `xs` and arrives
at `q`. A path that arrives where it starts is a ring, and a ring can be entered anywhere. `walk`
follows the pointers until a test succeeds.
-/

namespace Procore.Lib

open List

variable {α : Type*}

def Path (next : α → α) : α → List α → α → Prop
  | p, [], q => p = q
  | p, x :: xs, q => p = x ∧ Path next (next x) xs q

/-- Follow the pointers to the first element that passes the test, `fuel` elements at most. -/
def walk (next : α → α) (stop : α → Bool) : Nat → α → Option α
  | 0, _ => none
  | fuel + 1, p => if stop p then some p else walk next stop fuel (next p)

namespace Path

variable {next next' : α → α} {p q x y : α} {xs ys pre post : List α}

theorem append_iff : Path next p (xs ++ ys) q ↔ ∃ m, Path next p xs m ∧ Path next m ys q := by
  induction xs generalizing p with
  | nil => simp [Path]
  | cons x xs ih =>
    simp only [cons_append, Path, ih]
    constructor
    · rintro ⟨here, m, front, back⟩
      exact ⟨m, ⟨here, front⟩, back⟩
    · rintro ⟨m, ⟨here, front⟩, back⟩
      exact ⟨here, m, front, back⟩

theorem frame (h : Path next p xs q) (same : ∀ x ∈ xs, next' x = next x) : Path next' p xs q := by
  induction xs generalizing p with
  | nil => exact h
  | cons x xs ih =>
    obtain ⟨here, rest⟩ := h
    refine ⟨here, ?_⟩
    rw [same x (by simp)]
    exact ih rest fun y mem => same y (by simp [mem])

theorem split (h : Path next p (pre ++ x :: post) q) : Path next p pre x ∧ Path next (next x) post q := by
  obtain ⟨m, front, here, back⟩ := append_iff.mp h
  exact ⟨here ▸ front, back⟩

theorem join (front : Path next p pre x) (back : Path next (next x) post q) :
    Path next p (pre ++ x :: post) q :=
  append_iff.mpr ⟨x, front, rfl, back⟩

theorem next_eq (h : Path next p (pre ++ x :: y :: post) q) : next x = y := (split h).2.1

theorem next_last (h : Path next p (pre ++ [x]) q) : next x = q := (split h).2

theorem rotate (h : Path next p (pre ++ x :: post) p) : Path next x (x :: post ++ pre) x := by
  obtain ⟨front, back⟩ := h.split
  refine ⟨rfl, append_iff.mpr ⟨p, back, front⟩⟩

theorem pred (h : Path next p xs p) (mem : x ∈ xs) : ∃ y ∈ xs, next y = x := by
  obtain ⟨pre, post, rfl⟩ := append_of_mem mem
  rcases eq_nil_or_concat (x :: post ++ pre) with none | ⟨front, last, all⟩
  · simp at none
  · have ring := h.rotate
    rw [all, concat_eq_append] at ring
    have end' : last ∈ x :: post ++ pre := by simp [all]
    exact ⟨last, by simpa [or_comm, or_left_comm] using end', ring.next_last⟩

variable {stop : α → Bool}

theorem walk_found {fuel : Nat} (h : Path next p xs q)
    (exit : ∃ x ∈ xs, stop x = true) (enough : xs.length ≤ fuel) :
    ∃ x ∈ xs, walk next stop fuel p = some x ∧ stop x = true := by
  induction xs generalizing p fuel with
  | nil => simp at exit
  | cons x xs ih =>
    obtain ⟨rfl, rest⟩ := h
    cases fuel with
    | zero => simp at enough
    | succ fuel =>
      rw [walk]
      split_ifs with here
      · exact ⟨p, by simp, rfl, here⟩
      obtain ⟨y, mem, passes⟩ := exit
      have later : y ∈ xs := by
        rcases mem_cons.mp mem with rfl | later
        · exact absurd passes here
        · exact later
      obtain ⟨z, found, result⟩ := ih rest ⟨y, later, passes⟩ (by simpa using enough)
      exact ⟨z, by simp [found], result⟩

/-- A walk around a ring from any of its elements. -/
theorem walk_ring {fuel : Nat} (h : Path next p xs p) (mem : y ∈ xs)
    (exit : ∃ x ∈ xs, stop x = true) (enough : xs.length ≤ fuel) :
    ∃ x ∈ xs, walk next stop fuel y = some x ∧ stop x = true := by
  obtain ⟨pre, post, rfl⟩ := append_of_mem mem
  have same : ∀ {z}, z ∈ y :: post ++ pre ↔ z ∈ pre ++ y :: post := by
    simp [or_comm, or_left_comm]
  obtain ⟨x, passes, test⟩ := exit
  have length : (y :: post ++ pre).length ≤ fuel := by
    simp only [length_append] at enough ⊢
    omega
  obtain ⟨z, found, result⟩ := h.rotate.walk_found ⟨x, same.mpr passes, test⟩ length
  exact ⟨z, same.mp found, result⟩

end Path

end Procore.Lib
