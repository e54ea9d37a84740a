import Mathlib.Algebra.Group.Nat.Defs
import Mathlib.Data.Nat.Bitwise
import Mathlib.Tactic.Ring

/-! # Clock arithmetic

The kernel has no 64-bit division: a tick count becomes seconds and nanoseconds
in two shift-and-subtract loops that share the remainder.
-/

namespace Procore.Driver.Clock

def clockTickHz : Nat := 100

def clockNsecPerTick : Nat := 1000000000 / clockTickHz

structure Timespec where
  tvSec : Nat
  tvNsec : Nat

def Timespec.notAfter (t u : Timespec) : Prop := t.tvSec < u.tvSec ∨ t.tvSec = u.tvSec ∧ t.tvNsec ≤ u.tvNsec

/-- One loop `for (i = 32; i-- > 0;)` over the bits of a word, with the remainder
    and the seconds so far. -/
def divideWord (word : Nat) : Nat → Nat → Nat → Nat × Nat
  | 0, remainder, seconds => (remainder, seconds)
  | i + 1, remainder, seconds =>
    let shifted := remainder <<< 1 ||| (word >>> i &&& 1)
    if clockTickHz ≤ shifted then
      divideWord word i ((shifted - clockTickHz) % 2 ^ 32) (seconds ||| 1 <<< i)
    else divideWord word i (shifted % 2 ^ 32) seconds

def sysClockTicksToTimespec (value : BitVec 64) : Timespec :=
  let (remainder, secondsHigh) := divideWord (value.toNat >>> 32) 32 0 0
  let (remainder, secondsLow) := divideWord (value.toNat % 2 ^ 32) 32 remainder 0
  if secondsHigh ≠ 0 ∨ 0x7FFFFFFF < secondsLow then ⟨0x7FFFFFFF, 999999999⟩
  else ⟨secondsLow, remainder * clockNsecPerTick % 2 ^ 32⟩

/-- The bits that are left, below the remainder, are divided exactly. -/
theorem divideWord_eq (word i : Nat) {remainder : Nat} (small : remainder < clockTickHz) (seconds : Nat) :
    divideWord word i remainder (seconds <<< i) =
      ((remainder * 2 ^ i + word % 2 ^ i) % clockTickHz,
        seconds <<< i + (remainder * 2 ^ i + word % 2 ^ i) / clockTickHz) := by
  induction i generalizing remainder seconds with
  | zero =>
    have whole := Nat.mod_eq_of_lt small
    simp [divideWord, Nat.mod_one, whole, Nat.div_eq_of_lt small]
  | succ i ih =>
    have bit : word >>> i &&& 1 = word / 2 ^ i % 2 := by rw [Nat.and_one_is_mod, Nat.shiftRight_eq_div_pow]
    have shifted : remainder <<< 1 ||| word / 2 ^ i % 2 = 2 * remainder + word / 2 ^ i % 2 := by
      rw [← Nat.shiftLeft_add_eq_or_of_lt (by omega), Nat.shiftLeft_eq]
      omega
    have rest : remainder * 2 ^ (i + 1) + word % 2 ^ (i + 1) =
        (2 * remainder + word / 2 ^ i % 2) * 2 ^ i + word % 2 ^ i := by
      rw [Nat.mod_pow_succ]
      ring
    rw [divideWord, bit, shifted, rest]
    have small' : 2 * remainder + word / 2 ^ i % 2 < 2 * clockTickHz := by omega
    generalize 2 * remainder + word / 2 ^ i % 2 = n at small'
    have hz : clockTickHz = 100 := rfl
    split
    case isTrue enough =>
      have carry : seconds <<< (i + 1) ||| 1 <<< i = (2 * seconds + 1) <<< i := by
        rw [← Nat.shiftLeft_add_eq_or_of_lt (by simp [Nat.shiftLeft_eq, Nat.pow_succ])]
        simp only [Nat.shiftLeft_eq]
        ring
      have less : n * 2 ^ i + word % 2 ^ i = (n - 100) * 2 ^ i + word % 2 ^ i + 100 * 2 ^ i := by
        rw [Nat.add_right_comm, ← Nat.add_mul, Nat.sub_add_cancel (hz ▸ enough)]
      rw [Nat.mod_eq_of_lt (by omega), carry, ih (by omega), hz, less, Nat.add_mul_mod_self_left,
        Nat.add_mul_div_left _ _ (by decide), Nat.shiftLeft_eq, Nat.shiftLeft_eq]
      congr 1
      ring
    case isFalse less =>
      have double : seconds <<< (i + 1) = (2 * seconds) <<< i := by
        simp only [Nat.shiftLeft_eq]
        ring
      rw [Nat.mod_eq_of_lt (by omega), double, ih (by omega)]

/-- The two loops together divide the whole count. -/
theorem sysClockTicksToTimespec_eq (value : BitVec 64) : sysClockTicksToTimespec value =
    if value.toNat / clockTickHz < 2 ^ 31 then
      ⟨value.toNat / clockTickHz, value.toNat % clockTickHz * clockNsecPerTick⟩
    else ⟨0x7FFFFFFF, 999999999⟩ := by
  have high := divideWord_eq (value.toNat >>> 32) 32 (by decide : 0 < clockTickHz) 0
  have low := divideWord_eq (value.toNat % 2 ^ 32) 32 (Nat.mod_lt (value.toNat >>> 32) (by decide : 0 < clockTickHz)) 0
  have word : value.toNat >>> 32 < 2 ^ 32 := by
    have := value.isLt
    omega
  simp only [Nat.zero_shiftLeft, Nat.zero_mul, Nat.zero_add, Nat.mod_mod, Nat.mod_eq_of_lt word] at high low
  have hz : clockTickHz = 100 := rfl
  have nsec : clockNsecPerTick = 10000000 := rfl
  simp only [sysClockTicksToTimespec, high, low]
  simp only [hz, nsec, Nat.shiftRight_eq_div_pow] at word ⊢
  rw [Nat.mod_eq_of_lt (by omega : _ % 100 * 10000000 < 2 ^ 32)]
  split <;> split <;> simp only [Timespec.mk.injEq] <;> omega

/-- The seconds and nanoseconds are the quotient and the remainder, cut off at the
    largest `int32_t`, and later ticks never give an earlier time. -/
theorem ticks_divided_monotone (value : BitVec 64) :
    (if value.toNat / clockTickHz < 2 ^ 31 then
      (sysClockTicksToTimespec value).tvSec = value.toNat / clockTickHz ∧
      (sysClockTicksToTimespec value).tvNsec = value.toNat % clockTickHz * clockNsecPerTick ∧
      (sysClockTicksToTimespec value).tvNsec < 10 ^ 9
    else sysClockTicksToTimespec value = ⟨0x7FFFFFFF, 999999999⟩) ∧
    ∀ later, value ≤ later → (sysClockTicksToTimespec value).notAfter (sysClockTicksToTimespec later) := by
  have hz : clockTickHz = 100 := rfl
  have nsec : clockNsecPerTick = 10000000 := rfl
  simp only [sysClockTicksToTimespec_eq, hz, nsec]
  constructor
  · split
    · refine ⟨rfl, rfl, ?_⟩
      dsimp only
      omega
    · rfl
  · intro later order
    rw [BitVec.le_def] at order
    rw [Timespec.notAfter]
    split <;> split <;> dsimp only <;> omega

end Procore.Driver.Clock
