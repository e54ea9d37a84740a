import Procore.Lib.Run
import Procore.Process.Proc

/-! # Stopping and continuing a process

A stop is taken from the pending signals under the signal lock and carried out later under
`proc_lock`. `SIGCONT` cancels a pending `SIGSTOP`, but neither a pending `SIGTSTP` nor a
stop that has been taken and not been carried out.
-/

namespace Procore.Process.Stop

open Procore.Lib

def sigtstp : Nat := 20

inductive Sig where
  | stop
  | tstp
  | cont
  deriving DecidableEq, Repr

def Sig.number : Sig → Nat
  | .stop => sigstop
  | .tstp => sigtstp
  | .cont => sigcont

def signalNext (state : SignalState) : Option Nat :=
  let ready := (state.pending &&& ~~~ state.blocked) |||
    (state.pending &&& (signalBit sigkill ||| signalBit sigstop))
  (List.range ucoreNsig).find? fun signo => 0 < signo && ready &&& signalBit signo != 0

def signalDefaultStops (signo : Nat) : Bool := signo == sigstop || signo == sigtstp

inductive Pc where
  /-- Running. It may call `signal_deliver`, or be in its loop. -/
  | user
  /-- A stop has been taken; the section under `proc_lock` comes next. -/
  | stopping
  /-- With `PF_EXITING`. -/
  | exiting
  /-- In `schedule`. -/
  | off
  deriving DecidableEq, Repr

structure State where
  proc : Proc
  pc : Pc := .user
  /-- The senders that are still to call `wakeup_proc`. -/
  owing : Nat := 0
  /-- The last signal that was sent. -/
  last : Option Sig := none

inductive Label where
  /-- `do_kill_signal` under `proc_lock`. -/
  | send (sig : Sig)
  /-- The `wakeup_proc` of a sender. -/
  | wake
  /-- A `wakeup_proc` from elsewhere in the kernel. -/
  | stray
  /-- One round of `signal_deliver` under the signal lock. -/
  | deliver
  /-- `sched_stop_locked`. -/
  | stop
  | sleep (waitState : UInt32)
  | resume
  /-- `signal_set_mask`. -/
  | setMask (mask : UInt32)
  | exit
  deriving DecidableEq, Repr

namespace State

/-- `signal_deliver` for a signal that has no handler of the user's. -/
def deliver (s : State) : Option State :=
  match signalNext s.proc.signal with
  | none => some s
  | some signo =>
    let handler := s.proc.signal.handler signo
    let taken := { s with proc := { s.proc with signal := { s.proc.signal with
      pending := s.proc.signal.pending &&& ~~~ signalBit signo } } }
    if handler = sigIgn ∨ handler = sigDfl ∧ signalDefaultIgnored signo then some taken
    else if signalDefaultStops signo ∧ handler = sigDfl then some { taken with pc := .stopping }
    else if handler = sigDfl then some { taken with pc := .exiting }
    else none

def step (s : State) : Label → Option State
  | .send sig =>
    if s.proc.state = .zombie then some s
    else
      let result := s.proc.doKillSignal sig.number
      some { s with
        proc := result.1
        owing := if result.2 then s.owing + 1 else s.owing
        last := some sig }
  | .wake => if 0 < s.owing then some { s with proc := s.proc.wakeup, owing := s.owing - 1 } else none
  | .stray => some { s with proc := s.proc.wakeup }
  | .deliver => if s.pc = .user then s.deliver else none
  | .stop =>
    if s.pc = .stopping then
      if s.proc.state = .zombie then some { s with pc := .off }
      else some { s with proc := { s.proc with state := .stopped, waitState := 0 }, pc := .off }
    else none
  | .sleep waitState =>
    if s.pc = .user ∧ s.proc.state = .runnable then
      some { s with proc := { s.proc with state := .sleeping, waitState := waitState }, pc := .off }
    else none
  | .resume => if s.pc = .off ∧ s.proc.state = .runnable then some { s with pc := .user } else none
  | .setMask mask =>
    if s.pc = .user then
      some { s with proc := { s.proc with signal := { s.proc.signal with
        blocked := mask &&& ~~~ signalBit sigkill &&& ~~~ signalBit sigstop } } }
    else none
  | .exit =>
    if s.pc = .user ∨ s.pc = .exiting then
      some { s with proc := { s.proc with state := .zombie }, pc := .off }
    else none

/-- `SIGCONT` is not sent while a `SIGTSTP` is pending, nor after a stop has been taken and
    before it is carried out. -/
def Calm (s : State) : Label → Prop
  | .send .cont => s.proc.signal.pending &&& signalBit sigtstp = 0 ∧ s.pc ≠ .stopping
  | _ => True

instance (s : State) : (l : Label) → Decidable (s.Calm l)
  | .send .cont => inferInstanceAs (Decidable (_ ∧ _))
  | .send .stop | .send .tstp | .wake | .stray | .deliver | .stop | .sleep _ | .resume | .setMask _
  | .exit => .isTrue trivial

/-- No stop is left of those sent before. -/
structure Going (s : State) : Prop where
  running : s.proc.state ≠ .stopped
  notTaken : s.pc ≠ .stopping
  noStop : s.proc.signal.pending &&& signalBit sigstop = 0
  noTstp : s.proc.signal.pending &&& signalBit sigtstp = 0

variable {s t : State}

theorem and_zero {a c : UInt32} (b : UInt32) (zero : a &&& c = 0) : a &&& b &&& c = 0 := by
  rw [UInt32.and_assoc, UInt32.and_comm b, ← UInt32.and_assoc, zero, UInt32.zero_and]

theorem or_zero {a b c : UInt32} (left : a &&& c = 0) (right : b &&& c = 0) : (a ||| b) &&& c = 0 := by
  have split : (a ||| b) &&& c = (a &&& c) ||| (b &&& c) := by
    apply UInt32.toBitVec_inj.mp
    simp [BitVec.and_or_distrib_right]
  rw [split, left, right, UInt32.or_self]

theorem signalNext_pending {state : SignalState} {signo : Nat} (next : signalNext state = some signo) :
    state.pending &&& signalBit signo ≠ 0 := by
  intro zero
  have ready := List.find?_some next
  simp [or_zero (and_zero _ zero) (and_zero _ zero)] at ready

theorem Going.cont (calm : s.Calm (.send .cont)) (alive : s.proc.state ≠ .zombie)
    (taken : s.step (.send .cont) = some t) : t.Going := by
  rw [step, if_neg alive] at taken
  cases taken
  have queued : (signalQueue s.proc.signal sigcont).pending =
      (s.proc.signal.pending &&& ~~~ signalBit sigstop) ||| signalBit sigcont := rfl
  have signal : (s.proc.doKillSignal sigcont).1.signal = signalQueue s.proc.signal sigcont := by
    rw [Proc.doKillSignal, if_neg alive]
    dsimp only
    split <;> rfl
  refine ⟨?_, calm.2, ?_, ?_⟩
  · change (s.proc.doKillSignal sigcont).1.state ≠ .stopped
    rw [Proc.doKillSignal, if_neg alive]
    dsimp only
    split_ifs with quiet
    · exact ProcState.noConfusion
    · have notStopped : s.proc.state ≠ .stopped := fun stopped => quiet (by simp [stopped])
      exact notStopped
  · simp only [Sig.number, signal, queued]
    refine or_zero ?_ (by decide)
    rw [UInt32.and_assoc, UInt32.not_and_self, UInt32.and_zero]
  · simp only [Sig.number, signal]
    exact or_zero (and_zero _ calm.1) (by decide)

theorem Going.wakeup (h : s.Going) {owing : Nat} :
    Going { s with proc := s.proc.wakeup, owing := owing } := by
  have wake : s.proc.wakeup.signal = s.proc.signal ∧ s.proc.wakeup.state ≠ .stopped := by
    rw [Proc.wakeup, if_neg h.running]
    split
    · exact ⟨rfl, nofun⟩
    · exact ⟨rfl, h.running⟩
  exact ⟨wake.2, h.notTaken, wake.1 ▸ h.noStop, wake.1 ▸ h.noTstp⟩

theorem Going.deliver (h : s.Going) (taken : s.deliver = some t) : t.Going := by
  rw [State.deliver] at taken
  split at taken
  · cases taken
    exact h
  rename_i signo next
  have pending := signalNext_pending next
  have notStop : signo ≠ sigstop := fun same => pending (same ▸ h.noStop)
  have notTstp : signo ≠ sigtstp := fun same => pending (same ▸ h.noTstp)
  have noStop := and_zero (~~~ signalBit signo) h.noStop
  have noTstp := and_zero (~~~ signalBit signo) h.noTstp
  dsimp only at taken
  split at taken
  · cases taken
    exact ⟨h.running, h.notTaken, noStop, noTstp⟩
  split at taken
  · rename_i stops
    simp [signalDefaultStops, notStop, notTstp] at stops
  · split at taken
    · cases taken
      exact ⟨h.running, nofun, noStop, noTstp⟩
    · cases taken

theorem deliver_last (taken : s.deliver = some t) : t.last = s.last := by
  rw [State.deliver] at taken
  split at taken
  · cases taken
    rfl
  · dsimp only at taken
    split_ifs at taken <;> cases taken <;> rfl

theorem step_going {l : Label} (h : s.last = some .cont → s.Going) (calm : s.Calm l)
    (taken : s.step l = some t) : t.last = some .cont → t.Going := by
  intro last
  cases l with
  | send sig =>
    by_cases dead : s.proc.state = .zombie
    · rw [step, if_pos dead] at taken
      cases taken
      exact h last
    cases sig with
    | cont => exact Going.cont calm dead taken
    | stop | tstp =>
      rw [step, if_neg dead] at taken
      cases taken
      cases last
  | wake =>
    rw [step] at taken
    split at taken <;> cases taken
    exact (h last).wakeup
  | stray =>
    cases taken
    exact (h last).wakeup
  | deliver =>
    rw [step] at taken
    split at taken
    · exact (h (deliver_last taken ▸ last)).deliver taken
    · cases taken
  | stop =>
    rw [step] at taken
    split at taken
    · rename_i here
      have same : t.last = s.last := by
        split at taken <;> cases taken <;> rfl
      exact absurd here (h (same ▸ last)).notTaken
    · cases taken
  | sleep waitState | exit =>
    rw [step] at taken
    split at taken <;> cases taken
    have going := h last
    exact ⟨nofun, nofun, going.noStop, going.noTstp⟩
  | resume =>
    rw [step] at taken
    split at taken <;> cases taken
    have going := h last
    exact ⟨going.running, nofun, going.noStop, going.noTstp⟩
  | setMask mask =>
    rw [step] at taken
    split at taken <;> cases taken
    have going := h last
    exact ⟨going.running, going.notTaken, going.noStop, going.noTstp⟩

theorem step_last {l : Label} (other : l ≠ .send .stop ∧ l ≠ .send .tstp) (last : s.last = some .cont)
    (taken : s.step l = some t) : t.last = some .cont := by
  cases l with
  | send sig =>
    cases sig with
    | stop => exact absurd rfl other.1
    | tstp => exact absurd rfl other.2
    | cont =>
      rw [step] at taken
      split at taken <;> cases taken
      · exact last
      · rfl
  | deliver =>
    rw [step] at taken
    split at taken
    · exact (deliver_last taken).trans last
    · cases taken
  | stop =>
    rw [step] at taken
    split_ifs at taken <;> cases taken <;> exact last
  | wake | stray | sleep | resume | setMask | exit =>
    rw [step] at taken
    try split at taken
    all_goals cases taken
    all_goals exact last

/-- In a run in which every `SIGCONT` finds no pending `SIGTSTP` and no stop that has been taken,
    a process is not stopped after a `SIGCONT` until another stop signal is sent. -/
theorem cont_not_lost {s t u : State} {ls ms : List Label} (start : s.last = none)
    (calm : Along step Calm s (ls ++ ms)) (run : runFrom step s ls = some t)
    (sent : t.last = some .cont) (noStop : ∀ l ∈ ms, l ≠ .send .stop ∧ l ≠ .send .tstp)
    (further : runFrom step t ms = some u) : u.proc.state ≠ .stopped := by
  obtain ⟨before, after⟩ := along_append calm run
  have going : t.last = some .cont → t.Going :=
    runFrom_invariant (fun _ _ _ h calm taken => step_going h calm taken) (by simp [start]) before run
  have kept : ∀ {ms : List Label} {t : State}, (∀ l ∈ ms, l ≠ .send .stop ∧ l ≠ .send .tstp) →
      t.last = some .cont → runFrom step t ms = some u → u.last = some .cont := by
    intro ms
    induction ms with
    | nil =>
      intro t _ sent further
      obtain rfl : t = u := by simpa using further
      exact sent
    | cons l ms ih =>
      intro t noStop sent further
      obtain ⟨mid, taken, rest⟩ := runFrom_cons.mp further
      exact ih (fun l mem => noStop l (by simp [mem])) (step_last (noStop l (by simp)) sent taken) rest
  have last : u.last = some .cont → u.Going :=
    runFrom_invariant (fun _ _ _ h calm taken => step_going h calm taken) going after further
  exact (last (kept noStop sent further)).running

/-- A process that runs, with no signal pending. -/
def running : State := ⟨{ state := .runnable }, .user, 0, none⟩

/-- Stopped by `SIGSTOP`, continued, and put to sleep and woken after that. -/
theorem cont_not_lost_stopThenCont : ∃ t u,
    runFrom step running [.send .stop, .deliver, .stop, .send .cont, .wake] = some t ∧
    t.last = some .cont ∧ runFrom step t [.resume, .deliver, .sleep wtTimer, .stray] = some u ∧
    u.proc.state ≠ .stopped := by
  have ends : (runFrom step running [.send .stop, .deliver, .stop, .send .cont, .wake]).any
      (fun t => t.last = some .cont ∧
        (runFrom step t [.resume, .deliver, .sleep wtTimer, .stray]).isSome) = true := by decide +kernel
  obtain ⟨t, run, facts⟩ := (Option.any_eq_true _ _).mp ends
  obtain ⟨sent, more⟩ := of_decide_eq_true facts
  obtain ⟨u, further⟩ := Option.isSome_iff_exists.mp more
  exact ⟨t, u, run, sent, further, cont_not_lost rfl (by decide +kernel) run sent (by decide) further⟩

/-- A `SIGTSTP` stays pending beside the `SIGCONT`, and a stop that has been taken is carried
    out after it. -/
theorem cont_lost :
    (runFrom step running [.send .tstp, .send .cont, .deliver, .deliver, .stop]).any
      (fun t => t.last = some .cont ∧ t.owing = 0 ∧ t.proc.state = .stopped) = true ∧
    (runFrom step running [.send .stop, .deliver, .send .cont, .stop]).any
      (fun t => t.last = some .cont ∧ t.owing = 0 ∧ t.proc.state = .stopped) = true := by
  constructor
  · decide +kernel
  · decide +kernel

end State

end Procore.Process.Stop
