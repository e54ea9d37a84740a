import Mathlib.Algebra.BigOperators.Group.Finset.Basic
import Mathlib.Data.Finset.Card

/-! # Counting after a change at one point -/

namespace Procore.Lib

open Finset

variable {α : Type*} [DecidableEq α] {D : Finset α} {s : α} {P P' : α → Prop} [DecidablePred P]
  [DecidablePred P']

theorem card_filter_point (mem : s ∈ D) (same : ∀ x ∈ D, x ≠ s → (P' x ↔ P x)) :
    (D.filter P').card + (if P s then 1 else 0) = (D.filter P).card + (if P' s then 1 else 0) := by
  have rest : (D.erase s).filter P' = (D.erase s).filter P := by
    apply filter_congr
    intro x inside
    exact same x (mem_of_mem_erase inside) (ne_of_mem_erase inside)
  have outside : ∀ Q : α → Prop, [DecidablePred Q] → s ∉ (D.erase s).filter Q := by
    intro Q _ inside
    exact notMem_erase s D (mem_filter.mp inside).1
  have split : ∀ Q : α → Prop, [DecidablePred Q] →
      (D.filter Q).card = ((D.erase s).filter Q).card + if Q s then 1 else 0 := by
    intro Q _
    nth_rewrite 1 [← insert_erase mem]
    rw [filter_insert]
    split
    · exact card_insert_of_notMem (outside Q)
    · rfl
  rw [split P, split P', rest]
  omega

theorem sum_point {M : Type*} [Fintype α] [AddCommMonoid M] {f g : α → M} (s : α)
    (same : ∀ x, x ≠ s → g x = f x) : ∑ x, g x + f s = ∑ x, f x + g s := by
  have rest : ∑ x ∈ univ.erase s, g x = ∑ x ∈ univ.erase s, f x := by
    apply sum_congr rfl
    intro x mem
    exact same x (ne_of_mem_erase mem)
  rw [← sum_erase_add _ g (mem_univ s), ← sum_erase_add _ f (mem_univ s),
    rest, add_right_comm]

end Procore.Lib
