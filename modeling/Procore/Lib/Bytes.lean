import Mathlib.Data.List.Basic
import Mathlib.Tactic.Ring

/-! # Bytes

Little-endian numbers, blocks of bytes, and C strings.
-/

namespace Procore.Lib

open List

/-- The low `width` bytes of a number, least significant first. -/
def le : Nat → Nat → List UInt8
  | 0, _ => []
  | width + 1, value => UInt8.ofNat value :: le width (value / 256)

def ofLe : List UInt8 → Nat
  | [] => 0
  | byte :: bytes => byte.toNat + 256 * ofLe bytes

@[simp] theorem length_le (width value : Nat) : (le width value).length = width := by
  induction width generalizing value with
  | zero => rfl
  | succ width ih => simp [le, ih]

theorem ofLe_le (width value : Nat) : ofLe (le width value) = value % 256 ^ width := by
  induction width generalizing value with
  | zero => simp [le, ofLe, Nat.mod_one]
  | succ width ih =>
    have byte : (UInt8.ofNat value).toNat = value % 256 := UInt8.toNat_ofNat'
    rw [le, ofLe, ih, byte, Nat.pow_succ', Nat.mod_mul]

theorem ofLe_le_of_lt {width value : Nat} (bound : value < 256 ^ width) :
    ofLe (le width value) = value := by
  rw [ofLe_le, Nat.mod_eq_of_lt bound]

theorem ofLe_lt (bytes : List UInt8) : ofLe bytes < 256 ^ bytes.length := by
  induction bytes with
  | nil => simp [ofLe]
  | cons byte bytes ih =>
    have small : byte.toNat < 256 := byte.toNat_lt
    simp only [ofLe, length_cons]
    omega

theorem ofLe_replicate_zero (n : Nat) : ofLe (replicate n 0) = 0 := by
  induction n with
  | zero => rfl
  | succ n ih => simp [replicate_succ, ofLe, ih]

/-- The number stored in `width` bytes at an offset. -/
def field (bytes : List UInt8) (offset width : Nat) : Nat := ofLe ((bytes.drop offset).take width)

theorem field_lt (bytes : List UInt8) (offset width : Nat) :
    field bytes offset width < 256 ^ width :=
  lt_of_lt_of_le (ofLe_lt _) (Nat.pow_le_pow_right (by decide) (length_take_le _ _))

/-- A field lies right after what precedes it. -/
theorem field_append (front back : List UInt8) (offset width value : Nat)
    (position : front.length = offset) (bound : value < 256 ^ width) :
    field (front ++ (le width value ++ back)) offset width = value := by
  rw [field, ← position, drop_left, take_left' (length_le width value),
    ofLe_le_of_lt bound]

variable {offset : Nat}

/-- The fields of an array of 32-bit numbers. -/
theorem field_flatMap (front back : List UInt8) {values : List Nat} {k : Nat}
    (position : front.length = offset) (bound : ∀ value ∈ values, value < 256 ^ 4)
    (inside : k < values.length) :
    field (front ++ (values.flatMap (le 4) ++ back)) (offset + 4 * k) 4 = values[k] := by
  induction values generalizing front offset k with
  | nil => cases inside
  | cons value values ih =>
    simp only [flatMap_cons, append_assoc]
    cases k with
    | zero => exact field_append front _ offset 4 value position (bound value (.head _))
    | succ k =>
      have longer : (front ++ le 4 value).length = offset + 4 := by simp [position]
      have rest := ih (front ++ le 4 value) longer (fun v mem => bound v (.tail _ mem))
        (Nat.lt_of_succ_lt_succ inside)
      simp only [append_assoc] at rest
      rw [show offset + 4 * (k + 1) = offset + 4 + 4 * k by ring, rest]
      rfl

/-- The contents of a block, by byte offset. -/
abbrev Block := Nat → UInt8

def zeroBlock : Block := fun _ => 0

def slice (block : Block) (offset length : Nat) : List UInt8 :=
  (range length).map fun j => block (offset + j)

def splice (block : Block) (offset : Nat) (bytes : List UInt8) : Block := fun j =>
  if offset ≤ j then (bytes[j - offset]?).getD (block j) else block j

@[simp] theorem length_slice (block : Block) (offset length : Nat) :
    (slice block offset length).length = length := by
  simp [slice]

theorem slice_zeroBlock (offset length : Nat) :
    slice zeroBlock offset length = replicate length 0 := by
  simp [slice, zeroBlock]

variable {block : Block} {bytes : List UInt8}

theorem splice_of_lt {j : Nat} (before : j < offset) :
    splice block offset bytes j = block j := by
  simp [splice, if_neg (Nat.not_le.mpr before)]

theorem splice_of_ge {j : Nat}
    (after : offset + bytes.length ≤ j) : splice block offset bytes j = block j := by
  have outside : bytes[j - offset]? = none := getElem?_eq_none (by omega)
  simp [splice, outside]

theorem slice_splice_self (block : Block) (offset : Nat) (bytes : List UInt8) :
    slice (splice block offset bytes) offset bytes.length = bytes := by
  apply ext_getElem
  · simp
  · intro j _ inside
    simp [slice, splice, getElem?_eq_getElem inside]

theorem slice_splice_of_disjoint {start length : Nat}
    (apart : start + length ≤ offset ∨ offset + bytes.length ≤ start) :
    slice (splice block offset bytes) start length = slice block start length := by
  apply map_congr_left
  intro j inside
  have bound := mem_range.mp inside
  obtain before | after := apart
  · exact splice_of_lt (by omega)
  · exact splice_of_ge (by omega)

/-- A C string: its bytes up to the terminator. -/
structure CStr where
  bytes : List UInt8
  terminated : 0 ∉ bytes
  deriving DecidableEq, Repr

namespace CStr

def length (s : CStr) : Nat := s.bytes.length

def padded (s : CStr) (size : Nat) : List UInt8 :=
  s.bytes ++ replicate (size - s.length) 0

end CStr

end Procore.Lib
