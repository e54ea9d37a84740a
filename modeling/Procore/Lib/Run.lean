import Mathlib.Data.List.Basic

/-! # Runs of a labelled machine

A machine is a partial step function: a label that is not enabled, or that
halts the machine, has no successor. A run is a list of labels. Statements of
the form "in every run whose steps all meet a condition" are phrased with
`Along`, which reads the condition in the state each step is taken from.
-/

namespace Procore.Lib

variable {σ ℓ : Type*}

/-- Execute the labels in order; `none` as soon as one of them is not enabled. -/
def runFrom (step : σ → ℓ → Option σ) : σ → List ℓ → Option σ
  | s, [] => some s
  | s, l :: ls => (step s l).bind fun s' => runFrom step s' ls

/-- Every step of the run meets `cond` in the state it is taken from. -/
def Along (step : σ → ℓ → Option σ) (cond : σ → ℓ → Prop) : σ → List ℓ → Prop
  | _, [] => True
  | s, l :: ls => cond s l ∧ ∀ s', step s l = some s' → Along step cond s' ls

instance decidableAlong {step : σ → ℓ → Option σ} {cond : σ → ℓ → Prop}
    [∀ s l, Decidable (cond s l)] : ∀ s ls, Decidable (Along step cond s ls)
  | _, [] => isTrue trivial
  | s, l :: ls =>
    match taken : step s l with
    | none => decidable_of_iff (cond s l) (by simp [Along, taken])
    | some mid =>
      have : Decidable (Along step cond mid ls) := decidableAlong mid ls
      decidable_of_iff (cond s l ∧ Along step cond mid ls) (by simp [Along, taken])

@[simp] theorem runFrom_nil (step : σ → ℓ → Option σ) (s : σ) :
    runFrom step s [] = some s := rfl

variable {step : σ → ℓ → Option σ} {ls : List ℓ} {s t : σ}

theorem runFrom_cons {l : ℓ} : runFrom step s (l :: ls) = some t ↔
      ∃ mid, step s l = some mid ∧ runFrom step mid ls = some t := by
  simp [runFrom, Option.bind_eq_some_iff]

variable {good : σ → Prop}

theorem exists_run {o : Option σ} (ends : o.isSome = true)
    (holds : ∀ s, o = some s → good s) : ∃ s, o = some s ∧ good s := by
  obtain ⟨s, run⟩ := Option.isSome_iff_exists.mp ends
  exact ⟨s, run, holds s run⟩

/-- A run whose end passes a test. -/
theorem exists_run_test {o : Option σ} (test : σ → Prop) [DecidablePred test]
    (ends : o.any (test) = true) (holds : ∀ s, o = some s → test s → good s) :
    ∃ s, o = some s ∧ good s := by
  obtain ⟨s, run, passed⟩ := (Option.any_eq_true _ _).mp ends
  exact ⟨s, run, holds s run (of_decide_eq_true passed)⟩

variable {cond : σ → ℓ → Prop}

theorem along_append {ms : List ℓ} (h : Along step cond s (ls ++ ms))
    (run : runFrom step s ls = some t) :
    Along step cond s ls ∧ Along step cond t ms := by
  induction ls generalizing s with
  | nil =>
    obtain rfl : s = t := by simpa using run
    exact ⟨trivial, h⟩
  | cons l ls ih =>
    obtain ⟨mid, hs, hr⟩ := runFrom_cons.mp run
    obtain ⟨hc, hrest⟩ := h
    refine ⟨⟨hc, fun s' hs' => ?_⟩, (ih (hrest mid hs) hr).2⟩
    obtain rfl : mid = s' := Option.some.inj (hs.symm.trans hs')
    exact (ih (hrest mid hs) hr).1

theorem Along.mono {cond' : σ → ℓ → Prop} (h : Along step cond s ls)
    (weaker : ∀ s l, cond s l → cond' s l) : Along step cond' s ls := by
  induction ls generalizing s with
  | nil => trivial
  | cons l ls ih => exact ⟨weaker s l h.1, fun s' taken => ih (h.2 s' taken)⟩

/-- The invariant rule: what one step preserves under its condition, a run
    preserves under the condition at each of its steps. -/
theorem runFrom_invariant {Inv : σ → Prop}
    (preserved : ∀ s l s', Inv s → cond s l → step s l = some s' → Inv s')
    {s t : σ} {ls : List ℓ} (start : Inv s) (along : Along step cond s ls)
    (run : runFrom step s ls = some t) : Inv t := by
  induction ls generalizing s with
  | nil =>
    obtain rfl : s = t := by simpa using run
    exact start
  | cons l ls ih =>
    obtain ⟨mid, hs, hr⟩ := runFrom_cons.mp run
    exact ih (preserved s l mid start along.1 hs) (along.2 mid hs) hr

theorem along_true (s : σ) (ls : List ℓ) : Along step (fun _ _ => True) s ls := by
  induction ls generalizing s with
  | nil => trivial
  | cons l ls ih => exact ⟨trivial, fun s' _ => ih s'⟩

/-- The invariant rule for a machine whose every step preserves the invariant. -/
theorem runFrom_always {Inv : σ → Prop} (preserved : ∀ s l s', Inv s → step s l = some s' → Inv s')
    {s t : σ} {ls : List ℓ} (start : Inv s) (run : runFrom step s ls = some t) : Inv t :=
  runFrom_invariant (fun s l s' inv _ => preserved s l s' inv) start (along_true s ls) run

end Procore.Lib
