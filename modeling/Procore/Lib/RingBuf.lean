import Mathlib.Data.List.Basic

/-! # Ring buffers with block copies

A ring of `cap` cells with the indices of its first element and of the first free
cell. Elements enter and leave in blocks. A block that reaches the end of the
cells is copied in two parts, the second of which starts at cell zero.
-/

namespace Procore.Lib

open List Nat

variable {α : Type*}

structure RingBuf (α : Type*) where
  cells : Nat → α
  head : Nat
  tail : Nat
  count : Nat

/-- Copy `n` elements to the cells from `start` on. -/
def copyTo (cells : Nat → α) (start : Nat) (src : Nat → α) (n : Nat) : Nat → α := fun i =>
  if start ≤ i ∧ i < start + n then src (i - start) else cells i

/-- The elements of `n` cells from `start` on. -/
def copyFrom (cells : Nat → α) (start n : Nat) : List α := (range n).map fun i => cells (start + i)

namespace RingBuf

def take (cap : Nat) (r : RingBuf α) (n : Nat) : List α × RingBuf α :=
  let first := min n (cap - r.head)
  (copyFrom r.cells r.head first ++ copyFrom r.cells 0 (n - first),
    { r with head := (r.head + n) % cap, count := r.count - n })

def put (cap : Nat) (r : RingBuf α) (src : Nat → α) (n : Nat) : RingBuf α :=
  let first := min n (cap - r.tail)
  { r with
    cells := copyTo (copyTo r.cells r.tail src first) 0 (fun i => src (first + i)) (n - first)
    tail := (r.tail + n) % cap
    count := r.count + n }

structure Holds (cap : Nat) (r : RingBuf α) (queue : List α) : Prop where
  head : r.head < cap
  tail : r.tail = (r.head + r.count) % cap
  count : r.count = queue.length
  room : r.count ≤ cap
  cells : ∀ i (inside : i < queue.length), r.cells ((r.head + i) % cap) = queue[i]

variable {cap n : Nat} {r : RingBuf α} {queue : List α} {src : Nat → α}

theorem mod_wrap {a b : Nat} (low : a < cap) (short : b ≤ cap) :
    (a + b) % cap = if a + b < cap then a + b else a + b - cap := by
  split
  · exact mod_eq_of_lt (by assumption)
  · rw [mod_eq_sub_mod (by omega), mod_eq_of_lt (by omega)]

theorem Holds.tail_lt (h : Holds cap r queue) : r.tail < cap := by
  rw [h.tail]
  exact mod_lt _ (by have := h.head; omega)

theorem Holds.empty {cells : Nat → α} (pos : 0 < cap) : Holds cap ⟨cells, 0, 0, 0⟩ [] where
  head := pos
  tail := by simp
  count := rfl
  room := zero_le _
  cells := by simp

theorem Holds.take_fst (h : Holds cap r queue) (few : n ≤ r.count) :
    (take cap r n).1 = queue.take n := by
  have head := h.head
  have room := h.room
  have count := h.count
  apply ext_getElem
  · simp [take, copyFrom]
    omega
  · intro i inside within
    have cell := h.cells i (by simp at within; omega)
    rw [mod_wrap head (by simp at within; omega)] at cell
    rw [getElem_take, ← cell]
    simp only [take, copyFrom, getElem_append, length_map, length_range,
      getElem_map, getElem_range]
    simp only [length_take] at within
    split
    · rw [if_pos (by omega)]
    · rw [if_neg (by omega)]
      congr 1
      omega

theorem Holds.take_snd (h : Holds cap r queue) (few : n ≤ r.count) :
    Holds cap (take cap r n).2 (queue.drop n) where
  head := mod_lt _ (by have := h.head; omega)
  tail := by
    have whole : r.head + n + (r.count - n) = r.head + r.count := by omega
    change r.tail = ((r.head + n) % cap + (r.count - n)) % cap
    rw [h.tail, mod_add_mod, whole]
  count := by simp [take, h.count]
  room := by
    have := h.room
    change r.count - n ≤ cap
    omega
  cells i inside := by
    have index : ((r.head + n) % cap + i) % cap = (r.head + (n + i)) % cap := by
      rw [Nat.mod_add_mod, Nat.add_assoc]
    change r.cells (((r.head + n) % cap + i) % cap) = _
    rw [index, getElem_drop]
    exact h.cells (n + i) (by simp at inside; omega)

theorem Holds.put (h : Holds cap r queue) (fits : n ≤ cap - r.count) :
    Holds cap (put cap r src n) (queue ++ copyFrom src 0 n) := by
  have head := h.head
  have room := h.room
  have count := h.count
  have tail := h.tail
  rw [mod_wrap head room] at tail
  constructor
  · exact head
  · change (r.tail + n) % cap = (r.head + (r.count + n)) % cap
    rw [h.tail, Nat.mod_add_mod, Nat.add_assoc]
  · simp [RingBuf.put, copyFrom, count]
  · change r.count + n ≤ cap
    omega
  · intro i inside
    have within : i < r.count + n := by simp [copyFrom] at inside; omega
    change copyTo (copyTo r.cells r.tail src (min n (cap - r.tail))) 0
      (fun i => src (min n (cap - r.tail) + i)) (n - min n (cap - r.tail)) ((r.head + i) % cap) = _
    rw [getElem_append]
    split
    · -- An old element: its cell is in neither part of the copy.
      rename_i old
      rw [← h.cells i old]
      rw [mod_wrap head (by omega)]
      simp only [copyTo]
      split at tail <;> split <;> rw [if_neg (by omega), if_neg (by omega)]
    · simp only [copyTo, copyFrom, getElem_map, getElem_range]
      rw [mod_wrap head (by omega)]
      split at tail <;> split <;> split <;> first
        | (congr 1; omega)
        | (rw [if_pos (by omega)]; congr 1; omega)

end RingBuf

end Procore.Lib
