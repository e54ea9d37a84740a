import Mathlib.Data.Set.Card

/-! # How often a value stands in a table

A table gives some of its places a value. When finitely many places have one,
the number of places with a given value changes by one place at a time.
-/

namespace Procore.Lib

open Function

variable {ι κ : Type*} {f g : ι → Option κ} {x y : ι} {k : κ}

/-- The number of places with the value `k`. -/
noncomputable def tally (f : ι → Option κ) (k : κ) : Nat := {x | f x = some k}.ncard

/-- Only finitely many places have a value. -/
def Sparse (f : ι → Option κ) : Prop := {x | f x ≠ none}.Finite

theorem Sparse.places (h : Sparse f) (k : κ) : {x | f x = some k}.Finite := by
  apply h.subset
  simp_all

theorem Sparse.update [DecidableEq ι] (h : Sparse f) (x : ι) (v : Option κ) :
    Sparse (update f x v) := by
  apply (h.insert x).subset
  intro y here
  by_cases same : y = x
  · exact .inl same
  · simpa [same] using here

theorem tally_pos (h : Sparse f) : 0 < tally f k ↔ ∃ x, f x = some k :=
  Set.ncard_pos (h.places k)

theorem tally_eq_zero (h : Sparse f) : tally f k = 0 ↔ ∀ x, f x ≠ some k := by
  rw [tally, Set.ncard_eq_zero (h.places k), Set.eq_empty_iff_forall_notMem]
  rfl

theorem eq_of_tally_one (one : tally f k = 1) (here : f x = some k) (there : f y = some k) : x = y := by
  obtain ⟨a, only⟩ := Set.ncard_eq_one.mp one
  have left : x ∈ ({a} : Set ι) := only ▸ here
  have right : y ∈ ({a} : Set ι) := only ▸ there
  exact left.trans right.symm

theorem tally_congr (same : ∀ x, f x = some k ↔ g x = some k) : tally f k = tally g k := by
  simp [tally, same]

theorem tally_eq_countP [DecidableEq ι] [DecidableEq κ] {places : List ι} (nodup : places.Nodup)
    (all : ∀ x, f x ≠ none → x ∈ places) (k : κ) :
    tally f k = places.countP fun x => f x = some k := by
  have same : {x | f x = some k} = ((places.filter fun x => f x = some k).toFinset : Set ι) := by
    ext x
    simp only [Set.mem_ofPred_eq, List.coe_toFinset, List.mem_filter, decide_eq_true_eq]
    exact ⟨fun here => ⟨all x (by simp [here]), here⟩, And.right⟩
  rw [tally, same, Set.ncard_coe_finset, List.toFinset_card_of_nodup (nodup.filter _),
    List.countP_eq_length_filter]

/-- The two counts differ by what stands at the place. -/
theorem tally_update [DecidableEq ι] [DecidableEq κ] (h : Sparse f) (x : ι) (v : Option κ) (k : κ) :
    tally (update f x v) k + (if f x = some k then 1 else 0) =
      tally f k + if v = some k then 1 else 0 := by
  have split (g : ι → Option κ) (h : Sparse g) :
      tally g k = ({y | g y = some k} \ {x}).ncard + if g x = some k then 1 else 0 := by
    by_cases here : g x = some k
    · have mem : x ∈ {y | g y = some k} := here
      rw [if_pos here, tally, Set.ncard_sdiff_singleton_add_one mem (h.places k)]
    · have mem : x ∉ {y | g y = some k} := here
      rw [if_neg here, tally, Set.sdiff_singleton_eq_self mem, Nat.add_zero]
  have rest : {y | update f x v y = some k} \ {x} = {y | f y = some k} \ {x} := by
    ext y
    by_cases same : y = x <;> simp [same]
  rw [split f h, split _ (h.update x v), rest, update_self]
  omega

end Procore.Lib
