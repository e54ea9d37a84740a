import Procore.Lib.Prog

/-! # Programs that agree along a map of states

One program follows another along a map when, from the image of any state, it ends as the
other one does, in the image of its state.
-/

namespace Procore.Lib

variable {σ τ ε η α β : Type}

def Outcome.mapState (f : σ → τ) : Outcome σ ε η α → Outcome τ ε η α
  | .done value s => .done value (f s)
  | .failed error s => .failed error (f s)
  | .halted reason => .halted reason

namespace Prog

def Follows (f : σ → τ) (p : Prog σ ε η α) (q : Prog τ ε η α) : Prop :=
  ∀ s, q (f s) = (p s).mapState f

variable {f : σ → τ}

theorem follows_pure (value : α) :
    Follows f (pure value : Prog σ ε η α) (pure value : Prog τ ε η α) := fun _ => rfl

theorem follows_fail (error : ε) :
    Follows f (fail error : Prog σ ε η α) (fail error : Prog τ ε η α) := fun _ => rfl

theorem follows_halt (reason : η) :
    Follows f (halt reason : Prog σ ε η α) (halt reason : Prog τ ε η α) := fun _ => rfl

theorem follows_assert (test : Bool) (reason : η) :
    Follows f (assert test reason : Prog σ ε η Unit) (assert test reason : Prog τ ε η Unit) := by
  cases test
  · exact follows_halt reason
  · exact follows_pure ()

theorem follows_modify {g : σ → σ} {g' : τ → τ} (h : ∀ s, g' (f s) = f (g s)) :
    Follows f (modify g : Prog σ ε η Unit) (modify g' : Prog τ ε η Unit) := by
  intro s
  rw [modify, modify, Outcome.mapState, h]

variable {p : Prog σ ε η α} {q : Prog τ ε η α}

theorem Follows.bind {k : α → Prog σ ε η β}
    {l : α → Prog τ ε η β} (h : Follows f p q) (rest : ∀ value, Follows f (k value) (l value)) :
    Follows f (p >>= k) (q >>= l) := by
  intro s
  simp only [Bind.bind, h s]
  cases p s with
  | done value s' => exact rest value s'
  | failed error s' => rfl
  | halted reason => rfl

theorem follows_get {k : σ → Prog σ ε η β} {l : τ → Prog τ ε η β}
    (rest : ∀ s, Follows f (k s) (l (f s))) : Follows f (get >>= k) (get >>= l) :=
  fun s => rest s s

theorem Follows.attempt (h : Follows f p q) :
    Follows f p.attempt q.attempt := by
  intro s
  simp only [Prog.attempt, h s]
  cases p s <;> rfl

theorem follows_ite {c : Prop} [Decidable c] {p' : Prog σ ε η α} {q' : Prog τ ε η α}
    (pos : c → Follows f p q) (neg : ¬ c → Follows f p' q') :
    Follows f (if c then p else p') (if c then q else q') := by
  by_cases h : c
  · rw [if_pos h, if_pos h]
    exact pos h
  · rw [if_neg h, if_neg h]
    exact neg h

end Prog

end Procore.Lib
