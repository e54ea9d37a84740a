import Mathlib.Data.List.Nodup

/-! # Doubly linked chains

`Linked next prev before first xs` says that the elements of `xs` follow each other along `next`
from `first` on, that the chain ends there, and that `prev` leads back, to `before` from the first
element.
-/

namespace Procore.Lib

open List

variable {α : Type*}

def Linked (next prev : α → Option α) : Option α → Option α → List α → Prop
  | _, first, [] => first = none
  | before, first, x :: xs =>
    first = some x ∧ prev x = before ∧ Linked next prev (some x) (next x) xs

namespace Linked

variable {next prev next' prev' : α → Option α} {before first : Option α} {xs : List α}

theorem frame (h : Linked next prev before first xs) (nexts : ∀ x ∈ xs, next' x = next x)
    (prevs : ∀ x ∈ xs, prev' x = prev x) : Linked next' prev' before first xs := by
  induction xs generalizing before first with
  | nil => exact h
  | cons x xs ih =>
    obtain ⟨here, back, rest⟩ := h
    refine ⟨here, (prevs x (by simp)).trans back, ?_⟩
    rw [nexts x (by simp)]
    exact ih rest (fun y mem => nexts y (by simp [mem])) fun y mem => prevs y (by simp [mem])

theorem of_empty (h : Linked next prev before none xs) : xs = [] := by
  cases xs with
  | nil => rfl
  | cons x xs => cases h.1

variable {x : α}

theorem mem_of_first (h : Linked next prev before (some x) xs) : x ∈ xs := by
  cases xs with
  | nil => cases h
  | cons y ys =>
    obtain ⟨⟨⟩, _⟩ := h
    simp

theorem next_mem {y : α} (h : Linked next prev before first xs) (mem : x ∈ xs)
    (step : next x = some y) : y ∈ xs.tail ∧ prev y = some x := by
  induction xs generalizing before first with
  | nil => cases mem
  | cons z zs ih =>
    obtain ⟨_, _, rest⟩ := h
    rcases mem_cons.mp mem with rfl | later
    · rw [step] at rest
      cases zs with
      | nil => cases rest
      | cons w ws =>
        obtain ⟨⟨⟩, back, _⟩ := rest
        exact ⟨by simp, back⟩
    · obtain ⟨tail, back⟩ := ih rest later
      exact ⟨mem_of_mem_tail tail, back⟩

theorem prev_mem {y : α} (h : Linked next prev before first xs) (mem : y ∈ xs)
    (back : prev y = some x) : (before = some x ∧ first = some y) ∨ (x ∈ xs ∧ next x = some y) := by
  induction xs generalizing before first with
  | nil => cases mem
  | cons z zs ih =>
    obtain ⟨here, start, rest⟩ := h
    rcases mem_cons.mp mem with rfl | later
    · exact .inl ⟨start.symm.trans back, here⟩
    · rcases ih rest later with ⟨same, step⟩ | ⟨earlier, step⟩
      · obtain rfl := Option.some_inj.mp same
        exact .inr ⟨by simp, step⟩
      · exact .inr ⟨by simp [earlier], step⟩

theorem prev_cases (h : Linked next prev before first xs) (mem : x ∈ xs) :
    (first = some x ∧ prev x = before) ∨ ∃ y, prev x = some y ∧ next y = some x := by
  induction xs generalizing before first with
  | nil => cases mem
  | cons z zs ih =>
    obtain ⟨here, start, rest⟩ := h
    rcases mem_cons.mp mem with rfl | later
    · exact .inl ⟨here, start⟩
    · rcases ih rest later with ⟨step, back⟩ | found
      · exact .inr ⟨z, back, step⟩
      · exact .inr found

/-- A new element in front. -/
theorem push (h : Linked next prev none first xs) (nodup : xs.Nodup)
    (onward : next' x = first) (start : prev' x = none) (nexts : ∀ y ∈ xs, next' y = next y)
    (head : ∀ y, first = some y → prev' y = some x)
    (prevs : ∀ y ∈ xs, first ≠ some y → prev' y = prev y) :
    Linked next' prev' none (some x) (x :: xs) := by
  refine ⟨rfl, start, ?_⟩
  rw [onward]
  cases xs with
  | nil => exact h
  | cons y ys =>
    obtain ⟨rfl, _, rest⟩ := h
    refine ⟨rfl, head y rfl, ?_⟩
    rw [nexts y (by simp)]
    refine rest.frame (fun z mem => nexts z (by simp [mem])) fun z mem => prevs z (by simp [mem]) ?_
    rintro ⟨⟩
    exact (nodup_cons.mp nodup).1 mem

/-- An element taken out: its neighbours are joined. -/
theorem remove [DecidableEq α] (h : Linked next prev before first xs) (nodup : xs.Nodup)
    (outside : ∀ y ∈ xs, before ≠ some y) (mem : x ∈ xs)
    (nexts : ∀ y ∈ xs, prev x ≠ some y → next' y = next y)
    (join : ∀ y, prev x = some y → next' y = next x)
    (prevs : ∀ y ∈ xs, next x ≠ some y → prev' y = prev y)
    (joinBack : ∀ y, next x = some y → prev' y = prev x) :
    Linked next' prev' before (if first = some x then next x else first) (xs.erase x) := by
  induction xs generalizing before first with
  | nil => cases mem
  | cons y ys ih =>
    have whole := h
    obtain ⟨rfl, back, rest⟩ := h
    obtain ⟨fresh, unique⟩ := nodup_cons.mp nodup
    rcases eq_or_ne y x with rfl | other
    · -- The first element goes; its successor gets `before`.
      rw [if_pos rfl, erase_cons_head]
      have apart : ∀ z ∈ ys, prev y ≠ some z := fun z mem => back ▸ outside z (by simp [mem])
      cases ys with
      | nil => exact rest
      | cons z zs =>
        obtain ⟨step, _, last⟩ := rest
        refine ⟨step, (joinBack z step).trans back, ?_⟩
        rw [nexts z (by simp) (apart z (by simp))]
        refine last.frame (fun w mem => nexts w (by simp [mem]) (apart w (by simp [mem])))
          fun w mem => prevs w (by simp [mem]) ?_
        rw [step]
        rintro ⟨⟩
        exact (nodup_cons.mp unique).1 mem
    · have later : x ∈ ys := (mem_cons.mp mem).resolve_left other.symm
      rw [if_neg (by simpa using other), erase_cons_tail (by simpa using other)]
      have onward : next x ≠ some y := fun step => fresh (whole.next_mem mem step).1
      refine ⟨rfl, (prevs y (by simp) onward).trans back, ?_⟩
      have joined := ih rest unique (fun z mem => by rintro ⟨⟩; exact fresh mem) later
        (fun z mem => nexts z (by simp [mem])) fun z mem => prevs z (by simp [mem])
      rcases Classical.em (prev x = some y) with behind | apart
      · have step : next y = some x := by
          rcases whole.prev_mem mem behind with ⟨_, first⟩ | ⟨_, step⟩
          · exact absurd (Option.some_inj.mp first) other
          · exact step
        rwa [if_pos step, ← join y behind] at joined
      · have step : next y ≠ some x := fun step => apart (whole.next_mem (by simp) step).2
        rwa [if_neg step, ← nexts y (by simp) apart] at joined

end Linked

end Procore.Lib
