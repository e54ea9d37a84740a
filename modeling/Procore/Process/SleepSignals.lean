import Procore.Lib.Run
import Procore.Process.Proc

/-! # Signals sent to a process that is going to sleep

A process looks for signals before it publishes its sleeping state. `__down` and
`futex_wait` look once more after that; `do_sleep`, `do_wait_options` and `do_waitid` do not.
-/

namespace Procore.Process.Sleep

open Procore.Lib

def wtFutex : UInt32 := 0x00000008 ||| wtInterrupted

/-- The calls a process sleeps in. `pipe_read` sleeps in `down_interruptible`. -/
inductive Kind where
  | doSleep
  | doWaitOptions
  | doWaitid
  | downInterruptible
  | futexWait
  deriving DecidableEq, Repr

def Kind.waitState : Kind → UInt32
  | .doSleep => wtTimer
  | .doWaitOptions | .doWaitid => wtChild
  | .downInterruptible => wtKsem ||| wtInterrupted
  | .futexWait => wtFutex

/-- Signals are looked for before the sleeping state is published. -/
def Kind.checksBefore : Kind → Bool
  | .downInterruptible => false
  | _ => true

/-- Signals are looked for after the sleeping state is published. -/
def Kind.checksAfter : Kind → Bool
  | .downInterruptible | .futexWait => true
  | _ => false

/-- Where a process stands in such a call. -/
inductive Pc where
  | out
  /-- The sleeping state is published next. -/
  | entered (kind : Kind)
  /-- The sleeping state is published; the second check comes next. -/
  | published (kind : Kind)
  /-- The second check has found a signal; `wakeup_proc(current)` comes next. -/
  | interrupted (kind : Kind)
  /-- In `schedule`. -/
  | asleep (kind : Kind)
  deriving DecidableEq, Repr

structure Task where
  proc : Proc := {}
  pc : Pc := .out

structure State where
  tasks : Nat → Task
  /-- The targets that senders are still to wake. -/
  wakes : List Nat := []

inductive Label where
  /-- The call up to the section that publishes the sleeping state. -/
  | enter (p : Nat) (kind : Kind)
  | publish (p : Nat)
  /-- The call returns without a sleep: a token, no child, another value. -/
  | leave (p : Nat)
  | recheck (p : Nat)
  | selfWake (p : Nat)
  | resume (p : Nat)
  /-- `do_kill_signal` under `proc_lock`. -/
  | send (p : Nat) (signo : Nat)
  /-- The `wakeup_proc` of a sender. -/
  | wake (p : Nat)
  /-- A `wakeup_proc` from elsewhere in the kernel. -/
  | stray (p : Nat)
  /-- Whatever a process does outside these calls, to its signals and to its state. -/
  | act (p : Nat) (proc : Proc)

namespace State

def setTask (s : State) (p : Nat) (task : Task) : State :=
  { s with tasks := Function.update s.tasks p task }

def setPc (s : State) (p : Nat) (pc : Pc) : State := s.setTask p { s.tasks p with pc := pc }

def interrupts (s : State) (p : Nat) : Bool := signalShouldInterrupt (s.tasks p).proc.signal

def step (s : State) : Label → Option State
  | .enter p kind =>
    if (s.tasks p).pc = .out then
      if kind.checksBefore ∧ s.interrupts p then some s else some (s.setPc p (.entered kind))
    else none
  | .publish p =>
    match (s.tasks p).pc with
    | .entered kind =>
      some (s.setTask p {
        proc := { (s.tasks p).proc with state := .sleeping, waitState := kind.waitState }
        pc := if kind.checksAfter then .published kind else .asleep kind })
    | _ => none
  | .leave p =>
    match (s.tasks p).pc with
    | .entered _ => some (s.setPc p .out)
    | _ => none
  | .recheck p =>
    match (s.tasks p).pc with
    | .published kind => some (s.setPc p (if s.interrupts p then .interrupted kind else .asleep kind))
    | _ => none
  | .selfWake p =>
    match (s.tasks p).pc with
    | .interrupted _ => some (s.setTask p { proc := (s.tasks p).proc.wakeup, pc := .out })
    | _ => none
  | .resume p =>
    match (s.tasks p).pc with
    | .asleep _ => if (s.tasks p).proc.state = .runnable then some (s.setPc p .out) else none
    | _ => none
  | .send p signo =>
    if signalNumberValid signo then
      let result := (s.tasks p).proc.doKillSignal signo
      some { s.setTask p { s.tasks p with proc := result.1 } with
        wakes := if result.2 then p :: s.wakes else s.wakes }
    else none
  | .wake p =>
    if p ∈ s.wakes then
      some { s.setTask p { s.tasks p with proc := (s.tasks p).proc.wakeup } with
        wakes := s.wakes.erase p }
    else none
  | .stray p => some (s.setTask p { s.tasks p with proc := (s.tasks p).proc.wakeup })
  | .act p proc => if (s.tasks p).pc = .out then some (s.setTask p { proc := proc, pc := .out }) else none

/-- No process sleeps through a signal. -/
def Heard (s : State) : Prop :=
  ∀ p kind, (s.tasks p).pc = .asleep kind → (s.tasks p).proc.state = .sleeping →
    (s.tasks p).proc.waitState &&& wtInterrupted ≠ 0 → s.interrupts p = false

/-- A signal that interrupts its target is not sent between the only check of the target and the
    section that publishes its sleep. -/
def Calm (s : State) : Label → Prop
  | .send p signo =>
    match (s.tasks p).pc with
    | .entered kind => kind.checksAfter = true ∨
        signalShouldInterrupt (signalQueue (s.tasks p).proc.signal signo) = false
    | _ => True
  | _ => True

instance (s : State) (l : Label) : Decidable (s.Calm l) := by
  unfold Calm
  split
  · split <;> infer_instance
  · infer_instance

end State

/-- What a process that stands there knows about its signals. -/
def Task.Fits (task : Task) : Prop :=
  match task.pc with
  | .entered kind => kind.checksAfter = true ∨ signalShouldInterrupt task.proc.signal = false
  | .asleep _ => task.proc.state = .sleeping → task.proc.waitState &&& wtInterrupted ≠ 0 →
      signalShouldInterrupt task.proc.signal = false
  | _ => True

variable {task : Task}

theorem Task.Fits.wakeup (h : task.Fits) : Task.Fits { task with proc := task.proc.wakeup } := by
  have signal : task.proc.wakeup.signal = task.proc.signal := by
    unfold Proc.wakeup
    split_ifs <;> rfl
  unfold Fits at *
  cases here : task.pc with
  | entered kind =>
    rw [here] at h
    rwa [← signal] at h
  | asleep kind => exact fun asleep => absurd asleep task.proc.wakeup_state
  | out | published | interrupted => trivial

/-- A sender wakes a process that sleeps and that the signal interrupts. -/
theorem Task.Fits.kill {signo : Nat} (h : task.Fits)
    (calm : ∀ kind, task.pc = .entered kind → kind.checksAfter = true ∨
      signalShouldInterrupt (signalQueue task.proc.signal signo) = false) :
    Task.Fits { task with proc := (task.proc.doKillSignal signo).1 } := by
  unfold Fits at *
  cases here : task.pc with
  | entered kind =>
    rw [here] at h
    have signal : (task.proc.doKillSignal signo).1.signal = task.proc.signal ∨
        (task.proc.doKillSignal signo).1.signal = signalQueue task.proc.signal signo := by
      simp only [Proc.doKillSignal]
      split_ifs <;> simp
    rcases signal with same | queued
    · exact same ▸ h
    · exact queued ▸ calm kind here
  | asleep kind =>
    rw [here] at h
    simp only [Proc.doKillSignal]
    split_ifs with zombie woken
    · exact h
    · intro awake
      cases awake
    intro _ interruptible
    simp only [Bool.or_eq_true, Bool.and_eq_true, bne_iff_ne, not_or, not_and] at woken
    by_contra interrupts
    exact woken.1 (by simpa using interrupts) interruptible
  | out | published | interrupted => trivial

namespace State

def Fits (s : State) : Prop := ∀ p, (s.tasks p).Fits

variable {s : State} {p : Nat}

theorem Fits.setTask (h : s.Fits) (fits : task.Fits) : (s.setTask p task).Fits := by
  intro q
  rcases eq_or_ne q p with rfl | other
  · simpa [State.setTask] using fits
  · simpa [State.setTask, other] using h q

theorem Fits.heard (h : s.Fits) : s.Heard := by
  intro p kind asleep sleeping interruptible
  have fits := h p
  rw [Task.Fits, asleep] at fits
  exact fits sleeping interruptible

theorem Kind.once {kind : Kind} (once : kind.checksAfter = false) : kind.checksBefore = true := by
  cases kind <;> trivial

variable {t : State}

theorem enter_fits {kind : Kind} (go : s.step (.enter p kind) = some t) (h : s.Fits) : t.Fits := by
  simp only [step] at go
  split_ifs at go with out stop
  · exact Option.some_inj.mp go ▸ h
  cases go
  apply h.setTask
  change kind.checksAfter = true ∨ s.interrupts p = false
  rcases checks : kind.checksAfter with _ | _
  · simpa [Kind.once checks] using stop
  · exact .inl rfl

theorem publish_fits (go : s.step (.publish p) = some t) (h : s.Fits) : t.Fits := by
  simp only [step] at go
  split at go
  case h_2 => cases go
  next kind here =>
    cases go
    have fits := h p
    rw [Task.Fits, here] at fits
    apply h.setTask
    rcases checks : kind.checksAfter with _ | _
    · intro _ _
      simpa [checks] using fits
    · trivial

theorem recheck_fits (go : s.step (.recheck p) = some t) (h : s.Fits) : t.Fits := by
  simp only [step] at go
  split at go
  case h_2 => cases go
  next kind here =>
    cases go
    apply h.setTask
    rcases signal : s.interrupts p with _ | _
    · exact fun _ _ => signal
    · trivial

theorem step_fits {l : Label} (calm : s.Calm l) (go : s.step l = some t) (h : s.Fits) : t.Fits := by
  cases l with
  | enter p kind => exact enter_fits go h
  | publish p => exact publish_fits go h
  | recheck p => exact recheck_fits go h
  | leave p | selfWake p =>
    simp only [step] at go
    split at go
    · cases go
      exact h.setTask trivial
    · cases go
  | resume p =>
    simp only [step] at go
    split at go
    · split_ifs at go
      cases go
      exact h.setTask trivial
    · cases go
  | send p signo =>
    simp only [step] at go
    split_ifs at go
    all_goals
      cases go
      refine h.setTask ((h p).kill fun kind here => ?_)
      rw [Calm, here] at calm
      exact calm
  | wake p =>
    simp only [step] at go
    split_ifs at go
    cases go
    exact h.setTask (h p).wakeup
  | stray p =>
    cases go
    exact h.setTask (h p).wakeup
  | act p proc =>
    simp only [step] at go
    split_ifs at go
    cases go
    exact h.setTask trivial

def boot (proc : Nat → Proc) : State := { tasks := fun p => { proc := proc p } }

/-- No sleeping process misses a signal, in a run that sends none to a process between its only
    check and its sleep. -/
theorem signal_not_missed {proc : Nat → Proc} {ls : List Label} {t : State}
    (calm : Along step Calm (boot proc) ls) (run : runFrom step (boot proc) ls = some t) :
    t.Heard := by
  have start : (boot proc).Fits := fun _ => trivial
  exact (runFrom_invariant (fun _ _ _ h calm go => step_fits calm go h) start calm run).heard

/-- `SIGTERM`, whose default action ends the process. -/
def sigterm : Nat := 15

/-- A signal finds one process in its sleep and another before its second check. -/
theorem signal_not_missed_timerAndFutex : ∃ t,
    runFrom step (boot fun _ => { state := .runnable }) [.enter 0 .doSleep, .publish 0,
      .enter 1 .futexWait, .send 0 sigterm, .send 1 sigterm, .publish 1, .wake 0, .recheck 1,
      .selfWake 1, .resume 0] = some t ∧ t.Heard := by
  exact exists_run (by decide +kernel) fun t run => signal_not_missed (by decide +kernel) run

/-- In the three calls with one check a signal sent after it is slept through: the sender finds
    no interruptible wait and wakes nobody. -/
theorem signal_missed : ([Kind.doSleep, .doWaitOptions, .doWaitid].all fun kind =>
    (runFrom step (boot fun _ => { state := .runnable })
      [.enter 0 kind, .send 0 sigterm, .publish 0]).any
      fun t => t.wakes = [] ∧ (t.tasks 0).pc = .asleep kind ∧ (t.tasks 0).proc.state = .sleeping ∧
        (t.tasks 0).proc.waitState &&& wtInterrupted ≠ 0 ∧ t.interrupts 0 = true) = true := by
  decide +kernel

end State

end Procore.Process.Sleep
