import Mathlib.Tactic.Common

/-! # Flat arrays

An array that is read and written by ranges and that grows with a default
value. The lemmas say what each operation does to the length and to the value
at a position, where a position past the end has the default value.
-/

namespace Procore.Lib.Flat

open List

variable {α : Type} (zero : α)

def resize (xs : List α) (len : Nat) : List α := xs.take len ++ replicate (len - xs.length) zero

/-- Overwrite from an offset on; a gap before it is filled up. -/
def write (xs : List α) (off : Nat) (data : List α) : List α :=
  (resize zero xs off).take off ++ data ++ xs.drop (off + data.length)

def read (xs : List α) (off len : Nat) : List α := (xs.drop off).take len

@[simp] theorem length_resize (xs : List α) (len : Nat) : (resize zero xs len).length = len := by
  simp only [resize, length_append, length_take, length_replicate]
  omega

theorem getD_resize (xs : List α) (len x : Nat) :
    (resize zero xs len).getD x zero = if x < len then xs.getD x zero else zero := by
  simp only [getD_eq_getElem?_getD]
  split
  · rename_i inside
    rw [resize, getElem?_append]
    split_ifs with outside
    · rw [getElem?_take_of_lt inside]
    · rw [length_take] at outside
      rw [getElem?_eq_none (l := xs) (by omega), getElem?_replicate]
      split <;> rfl
  · rw [getElem?_eq_none (by rw [length_resize]; omega)]
    rfl

theorem length_write (xs : List α) (off : Nat) (data : List α) :
    (write zero xs off data).length = max xs.length (off + data.length) := by
  simp only [write, length_append, length_take, length_resize, length_drop]
  omega

theorem getD_write (xs : List α) (off : Nat) (data : List α) (x : Nat) :
    (write zero xs off data).getD x zero =
      if off ≤ x ∧ x < off + data.length then data.getD (x - off) zero else xs.getD x zero := by
  have front : ((resize zero xs off).take off).length = off := by simp
  by_cases before : x < off
  · rw [if_neg (by omega), write, append_assoc, getD_eq_getElem?_getD,
      getElem?_append_left (by omega), getElem?_take_of_lt before,
      ← getD_eq_getElem?_getD, getD_resize, if_pos before]
  rw [write, append_assoc, getD_eq_getElem?_getD,
    getElem?_append_right (by omega), front]
  by_cases inside : x < off + data.length
  · rw [if_pos (by omega), getElem?_append_left (by omega), ← getD_eq_getElem?_getD]
  · rw [if_neg (by omega), getElem?_append_right (by omega), getElem?_drop,
      show off + data.length + (x - off - data.length) = x by omega, ← getD_eq_getElem?_getD]

theorem read_eq_map (xs : List α) (off len : Nat) :
    read xs off len =
      (range (min len (xs.length - off))).map fun j => xs.getD (off + j) zero := by
  apply ext_getElem
  · simp [read]
  · intro j bound _
    simp only [read, length_take, length_drop] at bound
    have inside : off + j < xs.length := by omega
    simp [read, getElem?_eq_getElem inside]

end Procore.Lib.Flat
