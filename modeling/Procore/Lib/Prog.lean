import Mathlib.Tactic.Common

/-! # Programs that return an error or halt the machine

A program acts on a state. It returns a value, returns an error code with the
state as the failing call left it, or halts the machine. `wp` says what a
program ensures from a state: one condition for each way to return, and one
for the reasons it may halt with.
-/

namespace Procore.Lib

inductive Outcome (σ ε η α : Type) where
  | done (value : α) (state : σ)
  | failed (error : ε) (state : σ)
  | halted (reason : η)

/-- The reason the machine was halted with, if it was. -/
def Outcome.haltReason {σ ε η α : Type} : Outcome σ ε η α → Option η
  | .done _ _ => none
  | .failed _ _ => none
  | .halted reason => some reason

/-- The call returns, with a value and in a state that pass the test. -/
def Outcome.ends {σ ε η α : Type} (test : α → σ → Bool) : Outcome σ ε η α → Bool
  | .done value s => test value s
  | .failed _ _ => false
  | .halted _ => false

theorem Outcome.ends_iff {σ ε η α : Type} {test : α → σ → Bool} {result : Outcome σ ε η α} :
    result.ends test = true ↔ ∃ value s, result = .done value s ∧ test value s = true := by
  cases result <;> simp [ends]

def Prog (σ ε η α : Type) : Type := σ → Outcome σ ε η α

namespace Prog

variable {σ ε η α β : Type}

instance : Monad (Prog σ ε η) where
  pure value := .done value
  bind p f := fun s =>
    match p s with
    | .done value s' => f value s'
    | .failed error s' => .failed error s'
    | .halted reason => .halted reason

def get : Prog σ ε η σ := fun s => .done s s

def modify (f : σ → σ) : Prog σ ε η Unit := fun s => .done () (f s)

def fail (error : ε) : Prog σ ε η α := .failed error

def halt (reason : η) : Prog σ ε η α := fun _ => .halted reason

def assert (test : Bool) (reason : η) : Prog σ ε η Unit :=
  if test then pure () else halt reason

/-- Turn the error return of a call into a value. -/
def attempt (p : Prog σ ε η α) : Prog σ ε η (Except ε α) := fun s =>
  match p s with
  | .done value s' => .done (.ok value) s'
  | .failed error s' => .done (.error error) s'
  | .halted reason => .halted reason

/-- Return what an earlier call returned. -/
def rethrow : Except ε α → Prog σ ε η α
  | .ok value => pure value
  | .error error => fail error

variable {k : α → Prog σ ε η β} {p : Prog σ ε η α}

theorem bind_done {value : α} {s s' : σ} (ran : p s = .done value s') :
    (p >>= k) s = k value s' := by
  simp [Bind.bind, ran]

theorem done_of_bind {value : β} {s s' : σ}
    (ran : (p >>= k) s = .done value s') : ∃ a m, p s = .done a m ∧ k a m = .done value s' := by
  simp only [Bind.bind] at ran
  split at ran
  · exact ⟨_, _, ‹_›, ran⟩
  · cases ran
  · cases ran

/-- What the program ensures from a state: `Q` on return, `E` on an error return,
    `H` of the reason it halts with. -/
def wp (p : Prog σ ε η α) (H : η → Prop) (Q : α → σ → Prop) (E : ε → σ → Prop) (s : σ) : Prop :=
  match p s with
  | .done value s' => Q value s'
  | .failed error s' => E error s'
  | .halted reason => H reason

section Rules

variable {H : η → Prop} {Q Q' : α → σ → Prop} {E E' : ε → σ → Prop} {s : σ}

@[simp] theorem wp_pure (value : α) : (pure value : Prog σ ε η α).wp H Q E s ↔ Q value s := .rfl

@[simp] theorem wp_get {Q : σ → σ → Prop} : (get : Prog σ ε η σ).wp H Q E s ↔ Q s s := .rfl

@[simp] theorem wp_modify {f : σ → σ} {Q : Unit → σ → Prop} :
    (modify f : Prog σ ε η Unit).wp H Q E s ↔ Q () (f s) := .rfl

@[simp] theorem wp_fail (error : ε) : (fail error : Prog σ ε η α).wp H Q E s ↔ E error s := .rfl

@[simp] theorem wp_halt (reason : η) : (halt reason : Prog σ ε η α).wp H Q E s ↔ H reason := .rfl

variable {p : Prog σ ε η α}

@[simp] theorem wp_bind {f : α → Prog σ ε η β} {Q : β → σ → Prop} :
    (p >>= f).wp H Q E s ↔ p.wp H (fun value s' => (f value).wp H Q E s') E s := by
  simp only [wp, bind]
  cases p s <;> rfl

@[simp] theorem wp_attempt {Q : Except ε α → σ → Prop} :
    p.attempt.wp H Q E s ↔
      p.wp H (fun value => Q (.ok value)) (fun error => Q (.error error)) s := by
  simp only [wp, attempt]
  cases p s <;> rfl

variable {reason : η}

@[simp] theorem wp_assert {test : Bool} {Q : Unit → σ → Prop} :
    (assert test reason : Prog σ ε η Unit).wp H Q E s ↔
      (test = true → Q () s) ∧ (test = false → H reason) := by
  cases test <;> simp [assert]

theorem wp_assert_pos {c : Prop} [Decidable c] {Q : Unit → σ → Prop} (holds : c) :
    (assert (decide c) reason : Prog σ ε η Unit).wp H Q E s ↔ Q () s := by
  simp [holds]

@[simp] theorem wp_ite {c : Prop} [Decidable c] {q : Prog σ ε η α} :
    (if c then p else q).wp H Q E s ↔ (c → p.wp H Q E s) ∧ (¬ c → q.wp H Q E s) := by
  split <;> simp [*]

section

variable (h : p.wp H Q E s)
include h

theorem wp.mono (done : ∀ value s', Q value s' → Q' value s')
    (failed : ∀ error s', E error s' → E' error s') : p.wp H Q' E' s := by
  unfold wp at *
  cases result : p s with
  | done value s' =>
    rw [result] at h
    exact done value s' h
  | failed error s' =>
    rw [result] at h
    exact failed error s' h
  | halted reason =>
    rw [result] at h
    exact h

theorem wp.mono_done (done : ∀ value s', Q value s' → Q' value s') : p.wp H Q' E s :=
  h.mono done fun _ _ failed => failed

theorem wp.bind {f : α → Prog σ ε η β} {R : β → σ → Prop} (done : ∀ value s', Q value s' → (f value).wp H R E' s')
    (failed : ∀ error s', E error s' → E' error s') : (p >>= f).wp H R E' s :=
  wp_bind.mpr (h.mono done failed)

theorem wp.bind_done {f : α → Prog σ ε η β} {R : β → σ → Prop} (done : ∀ value s', Q value s' → (f value).wp H R E s') :
    (p >>= f).wp H R E s := h.bind done fun _ _ failed => failed

theorem wp.bind_attempt {f : Except ε α → Prog σ ε η β} {R : β → σ → Prop}
    (done : ∀ value s', Q value s' → (f (.ok value)).wp H R E' s')
    (failed : ∀ error s', E error s' → (f (.error error)).wp H R E' s') :
    (p.attempt >>= f).wp H R E' s :=
  wp_bind.mpr (wp_attempt.mpr (h.mono done failed))

omit h in
/-- The same is known of both returns. -/
theorem wp.same {P P' : σ → Prop} (h : p.wp H (fun _ => P) (fun _ => P) s) (known : ∀ s', P s' → P' s') :
    p.wp H (fun _ => P') (fun _ => P') s := wp.mono h (fun _ => known) fun _ => known

theorem wp.weaken {H' : η → Prop} (halts : ∀ reason, H reason → H' reason) : p.wp H' Q E s := by
  unfold wp at *
  cases result : p s with
  | done value s' | failed error s' =>
    rw [result] at h
    exact h
  | halted reason =>
    rw [result] at h
    exact halts reason h

theorem wp.and (h' : p.wp (fun _ => True) Q' E' s) :
    p.wp H (fun value s' => Q value s' ∧ Q' value s') (fun error s' => E error s' ∧ E' error s') s := by
  unfold wp at *
  cases result : p s with
  | done value s' | failed error s' =>
    rw [result] at h h'
    exact ⟨h, h'⟩
  | halted reason =>
    rw [result] at h
    exact h

theorem wp.done {value : α} {s' : σ} (run : p s = .done value s') : Q value s' := by
  unfold wp at h
  rwa [run] at h

theorem wp.halts (halted : (p s).haltReason = some reason) : H reason := by
  unfold wp at h
  cases result : p s with
  | done value s' | failed error s' =>
    rw [result] at halted
    cases halted
  | halted other =>
    rw [result] at h halted
    cases halted
    exact h

end

end Rules

end Prog

end Procore.Lib
