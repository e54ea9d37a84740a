import Procore.Fs.Pipe

/-! # Calls on one endpoint

The tasks that share a socket pair. A description has one `operation_sem` for both
of its directions, and a read keeps it while it sleeps.
-/

namespace Procore.Fs.PairCalls

open Procore.Lib
open Function (update)

inductive Call where
  | read (len : Nat)
  | write (len : Nat)
  | poll
  | setfl (nonblock : Bool)
  deriving DecidableEq

/-- Where a task stands in a call on the endpoint `e`. -/
inductive Pc where
  | idle
  /-- At `down(&description->operation_sem)`, which `file_poll` does not call. -/
  | enter (e : Bool) (c : Call)
  | inside (e : Bool) (c : Call)
  /-- In `down_interruptible` of `pipe_read` or `pipe_write`. -/
  | asleep (e : Bool) (c : Call)

/-- The task stands at `operation_sem` of the endpoint in a write or `F_SETFL`. -/
def Pc.queues (e : Bool) : Pc → Bool
  | .enter e' (.write _) | .enter e' (.setfl _) => e' = e
  | _ => false

/-- The task sleeps in a read of the endpoint. -/
def Pc.sleeps (e : Bool) : Pc → Bool
  | .asleep e' (.read _) => e' = e
  | _ => false

/-- The task is about to read so many bytes from the endpoint. -/
def Pc.reading : Pc → Option (Bool × Nat)
  | .inside e (.read len) => some (e, len)
  | _ => none

structure Pipe where
  count : Nat := 0
  readers : Nat := 1
  writers : Nat := 1

/-- `pipe e` is read by the endpoint `e` and written by the other one. -/
structure State (τ : Type) where
  pipe : Bool → Pipe := fun _ => {}
  /-- The task that has the `operation_sem` of an endpoint. -/
  holder : Bool → Option τ := fun _ => none
  nonblock : Bool → Bool := fun _ => false
  pc : τ → Pc := fun _ => .idle

inductive Label (τ : Type) where
  | call (t : τ) (e : Bool) (c : Call)
  /-- The next section of a call; one that waits for `operation_sem` gets it when it is free. -/
  | go (t : τ)
  /-- A sleeper is woken, by its event or by a signal. -/
  | wake (t : τ) (interrupted : Bool)
  /-- The last descriptor of an endpoint is closed. -/
  | close (e : Bool)

namespace State

variable {τ : Type} [DecidableEq τ]

def setPc (s : State τ) (t : τ) (pc : Pc) : State τ := { s with pc := update s.pc t pc }

/-- `up(&description->operation_sem)` and the return. -/
def leave (s : State τ) (t : τ) (e : Bool) : State τ :=
  { s.setPc t .idle with holder := update s.holder e none }

/-- A section of a call that has `operation_sem`. -/
def operate (s : State τ) (t : τ) (e : Bool) : Call → State τ
  | .read len =>
    let p := s.pipe e
    if len = 0 then s.leave t e
    else if p.count ≠ 0 then
      leave { s with pipe := update s.pipe e { p with count := p.count - min len p.count } } t e
    else if p.writers = 0 ∨ s.nonblock e then s.leave t e
    else s.setPc t (.asleep e (.read len))
  | .write len =>
    let p := s.pipe !e
    if len = 0 ∨ p.readers = 0 then s.leave t e
    else if p.count < fsPipeCapacity then
      let copied := min len (fsPipeCapacity - p.count)
      let s := { s with pipe := update s.pipe (!e) { p with count := p.count + copied } }
      if copied = len then s.leave t e else s.setPc t (.inside e (.write (len - copied)))
    else if s.nonblock e then s.leave t e
    else s.setPc t (.asleep e (.write len))
  | .poll => s.leave t e
  | .setfl nonblock => leave { s with nonblock := update s.nonblock e nonblock } t e

def step (s : State τ) : Label τ → Option (State τ)
  | .call t e c => match s.pc t with
    | .idle => some (s.setPc t (.enter e c))
    | _ => none
  | .go t => match s.pc t with
    | .enter e c =>
      if c = .poll then some (s.setPc t .idle)
      else if s.holder e = none then
        some { s.setPc t (.inside e c) with holder := update s.holder e (some t) }
      else none
    | .inside e c => some (s.operate t e c)
    | _ => none
  | .wake t interrupted => match s.pc t with
    | .asleep e c => some (if interrupted then s.leave t e else s.setPc t (.inside e c))
    | _ => none
  | .close e =>
    let reading := { s.pipe e with readers := 0 }
    let writing := { s.pipe (!e) with writers := 0 }
    some { s with pipe := update (update s.pipe e reading) (!e) writing }

/-- The call does not wait for room. -/
def Room (s : State τ) (e : Bool) : Call → Prop
  | .read _ => False
  | .write len => (s.pipe !e).readers = 0 ∨ (s.pipe !e).count + len ≤ fsPipeCapacity
  | _ => True

/-- The read finds nothing and waits. -/
def Waits (s : State τ) (e : Bool) (len : Nat) : Prop :=
  len ≠ 0 ∧ (s.pipe e).count = 0 ∧ (s.pipe e).writers ≠ 0 ∧ s.nonblock e = false

/-- A write or `F_SETFL` is not called while a read of the endpoint sleeps, and no read goes to sleep
    while one of them stands at `operation_sem`. -/
def Clear (s : State τ) : Label τ → Prop
  | .call _ e c => (Pc.enter e c).queues e → ∀ u, (s.pc u).sleeps e = false
  | .go t => ∀ x ∈ (s.pc t).reading, s.Waits x.1 x.2 → ∀ u, (s.pc u).queues x.1 = false
  | _ => True

instance (s : State τ) (e : Bool) (len : Nat) : Decidable (s.Waits e len) :=
  inferInstanceAs (Decidable (_ ∧ _ ∧ _ ∧ _))

instance [Fintype τ] (s : State τ) : DecidablePred s.Clear
  | .call _ e c => inferInstanceAs (Decidable ((Pc.enter e c).queues e → ∀ u, (s.pc u).sleeps e = false))
  | .go t => inferInstanceAs (Decidable
      (∀ x ∈ (s.pc t).reading, s.Waits x.1 x.2 → ∀ u, (s.pc u).queues x.1 = false))
  | .wake .. | .close _ => isTrue trivial

variable {s s' : State τ} {t : τ} {e : Bool} {c : Call} {pc : Pc}

/-- No write or `F_SETFL` stands at the `operation_sem` that a sleeping read has. -/
def Apart (s : State τ) : Prop := ∀ t u e, (s.pc t).queues e → (s.pc u).sleeps e = false

theorem Pc.queues_enter {e' : Bool} (queues : (Pc.enter e c).queues e' = true) : e = e' := by
  cases c <;> simp_all [Pc.queues]

/-- One task moves. -/
theorem Apart.move (h : s.Apart) (moved : s'.pc = update s.pc t pc)
    (queues : ∀ e, pc.queues e → ∀ u, (s.pc u).sleeps e = false)
    (sleeps : ∀ e, pc.sleeps e → ∀ u, (s.pc u).queues e = false) : s'.Apart := by
  intro v u e
  have never : pc.queues e → pc.sleeps e = false := by
    cases pc <;> simp [Pc.queues, Pc.sleeps]
  rw [moved]
  by_cases v = t <;> by_cases u = t <;> grind [Apart]

/-- A section leaves its task in a read that sleeps only if the read waits. -/
theorem Apart.operate (h : s.Apart) (inside : s.pc t = .inside e c) (clear : s.Clear (.go t)) :
    (s.operate t e c).Apart := by
  cases c with
  | read len =>
    have none := clear (e, len) (by simp [inside, Pc.reading])
    simp only [State.operate]
    split_ifs with zero some closed
    case neg => exact h.move rfl (by simp [Pc.queues]) (by simp_all [Pc.sleeps, Waits])
    all_goals exact h.move rfl (by simp [Pc.queues]) (by simp [Pc.sleeps])
  | write len =>
    simp only [State.operate]
    split_ifs <;> exact h.move rfl (by simp [Pc.queues]) (by simp [Pc.sleeps])
  | poll | setfl => exact h.move rfl (by simp [Pc.queues]) (by simp [Pc.sleeps])

theorem Apart.step {l : Label τ} (h : s.Apart) (clear : s.Clear l) (taken : s.step l = some s') : s'.Apart := by
  cases l with
  | call t e c =>
    simp only [State.step] at taken
    split at taken <;> cases taken
    refine h.move rfl (fun e' queues => ?_) (by simp [Pc.sleeps])
    obtain rfl := Pc.queues_enter queues
    exact clear queues
  | go t =>
    simp only [State.step] at taken
    split at taken
    case h_1 =>
      split_ifs at taken <;> cases taken <;> exact h.move rfl (by simp [Pc.queues]) (by simp [Pc.sleeps])
    case h_2 here => exact Option.some.inj taken ▸ h.operate here clear
    case h_3 => cases taken
  | wake t interrupted =>
    simp only [State.step] at taken
    split at taken <;> cases taken
    split_ifs <;> exact h.move rfl (by simp [Pc.queues]) (by simp [Pc.sleeps])
  | close e =>
    cases taken
    exact h

end State

end Procore.Fs.PairCalls
