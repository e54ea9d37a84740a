import Mathlib.Data.UInt

/-! # Process states, wait states and pending signals

The part of `struct proc_struct` that sleeping, waking and signalling read and
write. The scheduler's own fields (run queue, CPU, affinity) extend it where
the run queues are modelled.
-/

namespace Procore.Process

inductive ProcState where
  | uninit
  | sleeping
  | runnable
  | stopped
  | zombie
  deriving DecidableEq, Repr

/-- `WT_INTERRUPTED`: the wait can be ended by a signal. -/
def wtInterrupted : UInt32 := 0x80000000

/-- `WT_CHILD`: waiting for a child process. -/
def wtChild : UInt32 := 0x00000001 ||| wtInterrupted

/-- `WT_KSEM`: waiting for a kernel semaphore. -/
def wtKsem : UInt32 := 0x00000100

def wtTimer : UInt32 := 0x00000002 ||| wtInterrupted

def sigkill : Nat := 9
def sigchld : Nat := 17
def sigcont : Nat := 18
def sigstop : Nat := 19

/-- `UCORE_NSIG`: signal numbers are the positive numbers below it. -/
def ucoreNsig : Nat := 32

def sigDfl : UInt32 := 0
def sigIgn : UInt32 := 1

/-- The fields of `struct signal_state` that decide whether a signal interrupts
    a wait: the pending and blocked sets and the handler of each signal. -/
structure SignalState where
  pending : UInt32 := 0
  blocked : UInt32 := 0
  handler : Nat → UInt32 := fun _ => sigDfl

def signalBit (signo : Nat) : UInt32 := 1 <<< UInt32.ofNat signo

def signalNumberValid (signo : Nat) : Bool := 0 < signo && signo < ucoreNsig

def signalUncatchable (signo : Nat) : Bool := signo == sigkill || signo == sigstop

def signalDefaultIgnored (signo : Nat) : Bool := signo == sigchld || signo == sigcont

/-- `signal_queue`: mark `signo` pending; `SIGCONT` and `SIGSTOP` cancel each other. -/
def signalQueue (state : SignalState) (signo : Nat) : SignalState :=
  let pending :=
    if signo = sigcont then state.pending &&& ~~~ signalBit sigstop
    else if signo = sigstop then state.pending &&& ~~~ signalBit sigcont
    else state.pending
  { state with pending := pending ||| signalBit signo }

/-- `signal_should_interrupt`: some deliverable signal is neither ignored nor
    ignored by default. -/
def signalShouldInterrupt (state : SignalState) : Bool :=
  let ready := (state.pending &&& ~~~ state.blocked) |||
    (state.pending &&& (signalBit sigkill ||| signalBit sigstop))
  (List.range ucoreNsig).any fun signo =>
    0 < signo && ready &&& signalBit signo != 0 &&
      (signalUncatchable signo ||
        (state.handler signo != sigIgn &&
          !(state.handler signo == sigDfl && signalDefaultIgnored signo)))

/-- The fields of `struct proc_struct` used by sleeping and waking. -/
structure Proc where
  state : ProcState := .uninit
  waitState : UInt32 := 0
  signal : SignalState := {}

namespace Proc

/-- The state change `wakeup_proc` makes under `proc_lock`. A stopped process is
    resumed only by `SIGCONT` or `SIGKILL`, so it is left alone here. -/
def wakeup (proc : Proc) : Proc :=
  if proc.state = .stopped then proc
  else if proc.state ≠ .runnable ∧ proc.state ≠ .zombie then
    { proc with state := .runnable, waitState := 0 }
  else proc

/-- The section of `do_kill_signal` under `proc_lock`: queue the signal and, when
    it ends an interruptible wait or resumes a stopped process, publish the
    runnable state. The flag says that the sender still has to call
    `wakeup_proc`. -/
def doKillSignal (proc : Proc) (signo : Nat) : Proc × Bool :=
  if proc.state = .zombie then (proc, false)
  else
    let signal := signalQueue proc.signal signo
    let wake := signalShouldInterrupt signal && (proc.waitState &&& wtInterrupted) != 0
    let resume := proc.state == .stopped && (signo == sigcont || signo == sigkill)
    if wake || resume then
      ({ proc with signal := signal, state := .runnable, waitState := 0 }, true)
    else ({ proc with signal := signal }, false)

theorem wakeup_state (proc : Proc) : proc.wakeup.state ≠ .sleeping := by
  unfold wakeup
  split_ifs with stopped asleep
  · rw [stopped]
    nofun
  · nofun
  · intro sleeping
    exact asleep ⟨by rw [sleeping]; nofun, by rw [sleeping]; nofun⟩

theorem doKillSignal_runnable {proc : Proc} {signo : Nat}
    (runnable : (proc.doKillSignal signo).1.state = .runnable) :
    (proc.doKillSignal signo).2 = true ∨ proc.state = .runnable := by
  revert runnable
  simp only [doKillSignal]
  split_ifs with zombie woken
  · exact .inr
  · exact fun _ => .inl rfl
  · exact .inr

theorem doKillSignal_sleeping {proc : Proc} {signo : Nat}
    (sleeping : (proc.doKillSignal signo).1.state = .sleeping) : proc.state = .sleeping ∧
      (proc.doKillSignal signo).1.waitState = proc.waitState := by
  revert sleeping
  simp only [doKillSignal]
  split_ifs with zombie woken
  · exact fun sleeping => ⟨sleeping, rfl⟩
  · nofun
  · exact fun sleeping => ⟨sleeping, rfl⟩

end Proc

end Procore.Process
