import Procore.Lib.RingBuf
import Procore.Sync.Sem

/-! # Pipes

Any number of tasks read and write one pipe and close its ends while signals
arrive. Each section under `pipe->lock`, under the lock of a semaphore or under
`proc_lock` is one step. The log records which bytes each call moved and what it
returned, in the order of the sections.
-/

namespace Procore.Fs

open Procore.Lib Procore.Process List Nat
open Function

def fsPipeCapacity : Nat := 4096

def eInval : Int := 3
def eBusy : Int := 15
def ePipe : Int := 25
def eIntr : Int := 26

def sigpipe : Nat := 13

/-- The conversion of a `size_t` to `int`. -/
def toInt (n : Nat) : Int := (n : Int).bmod (2 ^ 32)

theorem toInt_of_lt {n : Nat} (small : n < 2 ^ 31) : toInt n = n := by
  apply Int.bmod_eq_of_le
  · omega
  · omega

/-- The fields of `struct pipe` under its lock. -/
structure Pipe where
  ring : RingBuf UInt8
  readers : Nat
  writers : Nat

/-- The two ends, each with its semaphore: `read_sem` and `write_sem`. -/
inductive Side where
  | read
  | write
  deriving DecidableEq, Repr

/-- A call of `pipe_read` or `pipe_write` and its local variables. -/
inductive Call where
  | read (id len : Nat) (nonblock : Bool)
  | write (id : Nat) (base : Nat → UInt8) (len written : Nat) (nonblock : Bool)

def Call.id : Call → Nat
  | .read id .. => id
  | .write id .. => id

def Call.side : Call → Side
  | .read .. => .read
  | .write .. => .write

/-- What a call returns when its wait is interrupted. -/
def Call.interrupted : Call → Int
  | .read .. => -eIntr
  | .write _ _ _ written _ => if written ≠ 0 then toInt written else -eIntr

/-- A call of `sem_wake_event` or `sem_wake_all`, with the variable of the latter. -/
structure Wake where
  side : Side
  all : Bool
  woke : Bool := false
  deriving DecidableEq, Repr

/-- What a task does after its wake calls. -/
inductive After where
  /-- The loop of a call goes on. -/
  | again (call : Call)
  /-- A read returns. -/
  | ret (id len : Nat) (nonblock : Bool) (value : Int)
  | closed

/-- The call that goes on or returns. -/
def After.call : After → Option Call
  | .again c => some c
  | .ret id len nonblock _ => some (.read id len nonblock)
  | .closed => none

inductive Pc where
  | idle
  /-- At the head of the loop of a call. -/
  | loop (call : Call)
  | wakes (pending : List Wake) (next : After)
  /-- A wake call has taken a waiter; `wakeup_proc` comes next. -/
  | wakeProc (target : Nat) (pending : List Wake) (next : After)
  /-- Before `down_interruptible`. -/
  | down (call : Call)
  /-- After `wait_current_set`, before the signals are checked again. -/
  | published (call : Call)
  | interrupted (call : Call)
  | withdrawing (call : Call)
  /-- In `schedule`. -/
  | scheduling (call : Call)
  | resumed (call : Call)
  | returning (call : Call)

def Pc.call : Pc → Option Call
  | .idle => none
  | .loop c | .down c | .published c | .interrupted c | .withdrawing c | .scheduling c | .resumed c
  | .returning c => some c
  | .wakes _ next | .wakeProc _ _ next => next.call

/-- A task and `wakeup_flags` of the wait node on its stack. -/
structure Task where
  proc : Proc := {}
  pc : Pc := .idle
  wakeupFlags : UInt32 := wtInterrupted

structure Sem where
  value : Nat := 0
  queue : List Nat := []
  deriving DecidableEq, Repr

inductive Event where
  /-- Bytes of a write entered the buffer. -/
  | accept (id : Nat) (bytes : List UInt8)
  /-- Bytes left the buffer for a read. -/
  | deliver (id : Nat) (bytes : List UInt8)
  | readDone (id : Nat) (value : Int)
  /-- With the length that the write was asked for. -/
  | writeDone (id len : Nat) (value : Int)
  deriving DecidableEq, Repr

structure PipeState where
  pipe : Pipe
  sem : Side → Sem
  tasks : Nat → Task
  /-- The tasks in `pipe_read` and in `pipe_write`. -/
  inside : Side → List Nat
  /-- The number of calls so far, which are numbered. -/
  calls : Nat
  log : List Event

inductive PipeOp where
  | startRead (t len : Nat) (nonblock : Bool)
  | startWrite (t : Nat) (base : Nat → UInt8) (len : Nat) (nonblock : Bool)
  /-- One pass through the loop of a call, up to the end of its section. -/
  | pass (t : Nat)
  /-- A section of a wake call. -/
  | wake (t : Nat)
  | wakeup (t : Nat)
  | down (t : Nat)
  | recheck (t : Nat)
  | selfWake (t : Nat)
  | withdraw (t : Nat)
  | resume (t : Nat)
  | waitCurrentDel (t : Nat)
  | finish (t : Nat)
  /-- `pipe_endpoint_close`. -/
  | close (t : Nat) (readable writable : Bool)
  /-- A `wakeup_proc` from elsewhere in the kernel. -/
  | stray (t : Nat)
  | kill (t : Nat) (signo : Nat)
  /-- Whatever a task does outside this pipe. -/
  | other (t : Nat) (proc : Proc)

/-- The `wait_state` of `down_interruptible`. -/
def eventWait : UInt32 := wtKsem ||| wtInterrupted

namespace PipeState

def setTask (s : PipeState) (t : Nat) (task : Task) : PipeState :=
  { s with tasks := update s.tasks t task }

def setPc (s : PipeState) (t : Nat) (pc : Pc) : PipeState := s.setTask t { s.tasks t with pc := pc }

def setSem (s : PipeState) (side : Side) (sem : Sem) : PipeState :=
  { s with sem := update s.sem side sem }

def endCall (s : PipeState) (t : Nat) (c : Call) (value : Int) : PipeState :=
  let done := match c with
    | .read id _ _ => .readDone id value
    | .write id _ len _ _ => .writeDone id len value
  { s.setPc t .idle with
    inside := update s.inside c.side ((s.inside c.side).erase t)
    log := s.log ++ [done] }

/-- Continue after the wake calls that are left. -/
def afterWakes (s : PipeState) (t : Nat) (pending : List Wake) (next : After) : PipeState :=
  match pending, next with
  | [], .again c => s.setPc t (.loop c)
  | [], .ret id len nonblock value => s.endCall t (.read id len nonblock) value
  | [], .closed => s.setPc t .idle
  | w :: ws, next => s.setPc t (.wakes (w :: ws) next)

/-- Bytes have entered or left the buffer. -/
def moved (s : PipeState) (ring : RingBuf UInt8) (event : Event) : PipeState :=
  { s with
    pipe := { s.pipe with ring := ring }
    log := s.log ++ [event] }

def readPass (s : PipeState) (t id len : Nat) (nonblock : Bool) : PipeState :=
  let c := Call.read id len nonblock
  let ring := s.pipe.ring
  if len = 0 then s.endCall t c 0
  else if ring.count ≠ 0 then
    let copied := if len < ring.count then len else ring.count
    let taken := ring.take fsPipeCapacity copied
    (s.moved taken.2 (.deliver id taken.1)).afterWakes t [⟨.write, false, false⟩]
      (.ret id len nonblock copied)
  else if s.pipe.writers = 0 then s.endCall t c 0
  else if nonblock then s.endCall t c (-eBusy)
  else s.setPc t (.down c)

def writePass (s : PipeState) (t id : Nat) (base : Nat → UInt8) (len written : Nat)
    (nonblock : Bool) : PipeState :=
  let c := Call.write id base len written nonblock
  let ring := s.pipe.ring
  if written < len then
    if s.pipe.readers = 0 then
      if written = 0 then
        let proc := (s.tasks t).proc
        let proc := { proc with signal := signalQueue proc.signal sigpipe }
        (s.setTask t { s.tasks t with proc := proc }).endCall t c (-ePipe)
      else s.endCall t c (toInt written)
    else if ring.count < fsPipeCapacity then
      let copied := min (len - written) (fsPipeCapacity - ring.count)
      let src := fun i => base (written + i)
      (s.moved (ring.put fsPipeCapacity src copied) (.accept id (copyFrom src 0 copied))).afterWakes t
        [⟨.read, false, false⟩] (.again (.write id base len (written + copied) nonblock))
    else if nonblock then s.endCall t c (if written ≠ 0 then toInt written else -eBusy)
    else s.setPc t (.down c)
  else s.endCall t c (toInt written)

/-- The loop of a wake call that looks for a waiter. -/
def popWaiter (s : PipeState) (side : Side) : Option Nat × List Nat :=
  Sync.popWaiter (fun u => { proc := (s.tasks u).proc }) wtKsem (s.sem side).queue

/-- A section of `sem_wake_event` or `sem_wake_all`. -/
def wakeSection (s : PipeState) (t : Nat) (w : Wake) (ws : List Wake) (next : After) : PipeState :=
  let sem := s.sem w.side
  match s.popWaiter w.side with
  | (none, queue) =>
    let value := if sem.value = 0 ∧ ¬ (w.all ∧ w.woke) then 1 else sem.value
    (s.setSem w.side ⟨value, queue⟩).afterWakes t ws next
  | (some v, queue) =>
    let s := s.setSem w.side { sem with queue := queue }
    let s := s.setTask v { s.tasks v with wakeupFlags := (s.tasks v).proc.waitState }
    s.setPc t (.wakeProc v (if w.all then { w with woke := true } :: ws else ws) next)

def downSection (s : PipeState) (t : Nat) (c : Call) : PipeState :=
  let sem := s.sem c.side
  if 0 < sem.value then (s.setSem c.side { sem with value := sem.value - 1 }).setPc t (.loop c)
  else
    (s.setSem c.side { sem with queue := sem.queue ++ [t] }).setTask t
      { proc := { (s.tasks t).proc with
          state := .sleeping
          waitState := eventWait }
        pc := .published c
        wakeupFlags := wtInterrupted }

def waitCurrentDel (s : PipeState) (t : Nat) (c : Call) : PipeState :=
  s.setSem c.side { s.sem c.side with queue := (s.sem c.side).queue.erase t }

/-- `pipe_endpoint_close`. -/
def closeEnd (s : PipeState) (t : Nat) (readable writable : Bool) : PipeState :=
  let p := s.pipe
  let lastReader := readable && p.readers == 1
  let lastWriter := writable && p.writers == 1
  let pending := (if lastWriter then [⟨.read, true, false⟩] else []) ++
    (if lastReader then [⟨.write, true, false⟩] else [])
  { s with pipe := { p with
      readers := if readable then p.readers - 1 else p.readers
      writers := if writable then p.writers - 1 else p.writers } }.afterWakes t pending .closed

def step (s : PipeState) : PipeOp → Option PipeState
  | .startRead t len nonblock =>
    match (s.tasks t).pc with
    | .idle =>
      if len < 2 ^ 32 then
        some { s.setPc t (.loop (.read s.calls len nonblock)) with
          inside := update s.inside .read (t :: s.inside .read)
          calls := s.calls + 1 }
      else none
    | _ => none
  | .startWrite t base len nonblock =>
    match (s.tasks t).pc with
    | .idle =>
      if len < 2 ^ 32 then
        some { s.setPc t (.loop (.write s.calls base len 0 nonblock)) with
          inside := update s.inside .write (t :: s.inside .write)
          calls := s.calls + 1 }
      else none
    | _ => none
  | .pass t =>
    match (s.tasks t).pc with
    | .loop (.read id len nonblock) => some (s.readPass t id len nonblock)
    | .loop (.write id base len written nonblock) =>
      some (s.writePass t id base len written nonblock)
    | _ => none
  | .wake t =>
    match (s.tasks t).pc with
    | .wakes (w :: ws) next => some (s.wakeSection t w ws next)
    | _ => none
  | .wakeup t =>
    match (s.tasks t).pc with
    | .wakeProc v ws next =>
      some ((s.setTask v { s.tasks v with proc := (s.tasks v).proc.wakeup }).afterWakes t ws next)
    | _ => none
  | .down t =>
    match (s.tasks t).pc with
    | .down c => some (s.downSection t c)
    | _ => none
  | .recheck t =>
    match (s.tasks t).pc with
    | .published c =>
      some (s.setPc t (if signalShouldInterrupt (s.tasks t).proc.signal then .interrupted c
        else .scheduling c))
    | _ => none
  | .selfWake t =>
    match (s.tasks t).pc with
    | .interrupted c =>
      some (s.setTask t { s.tasks t with
        proc := (s.tasks t).proc.wakeup
        pc := .withdrawing c })
    | _ => none
  | .withdraw t =>
    match (s.tasks t).pc with
    | .withdrawing c => some ((s.waitCurrentDel t c).endCall t c c.interrupted)
    | _ => none
  | .resume t =>
    match (s.tasks t).pc with
    | .scheduling c =>
      if (s.tasks t).proc.state = .runnable then some (s.setPc t (.resumed c)) else none
    | _ => none
  | .waitCurrentDel t =>
    match (s.tasks t).pc with
    | .resumed c => some ((s.waitCurrentDel t c).setPc t (.returning c))
    | _ => none
  | .finish t =>
    match (s.tasks t).pc with
    | .returning c =>
      if (s.tasks t).wakeupFlags = eventWait then some (s.setPc t (.loop c))
      else some (s.endCall t c c.interrupted)
    | _ => none
  | .close t readable writable =>
    match (s.tasks t).pc with
    | .idle => some (s.closeEnd t readable writable)
    | _ => none
  | .stray t => some (s.setTask t { s.tasks t with proc := (s.tasks t).proc.wakeup })
  | .kill t signo =>
    if signalNumberValid signo then
      some (s.setTask t { s.tasks t with proc := ((s.tasks t).proc.doKillSignal signo).1 })
    else none
  | .other t proc =>
    match (s.tasks t).pc with
    | .idle => some (s.setTask t { s.tasks t with proc := proc })
    | _ => none

/-- `pipe_create`, with the ends that are open then. -/
def create (readers writers : Nat) (cells : Nat → UInt8) (procs : Nat → Proc) : PipeState where
  pipe := ⟨⟨cells, 0, 0, 0⟩, readers, writers⟩
  sem _ := {}
  tasks t := { proc := procs t }
  inside _ := []
  calls := 0
  log := []

def call (s : PipeState) (t : Nat) : Option Call := (s.tasks t).pc.call

end PipeState

/-! ## What a step does to the buffer and to the calls -/

/-- What a write may return: the number of bytes it has written, or an error if there are none. -/
def Call.Result : Call → Int → Prop
  | .read .., _ => True
  | .write _ _ _ written _, value => value = toInt written ∨ (value < 0 ∧ written = 0)

/-- A call that has not begun. -/
def Call.Fresh : Call → Prop
  | .read .. => True
  | .write _ _ len written _ => written = 0 ∧ len < 2 ^ 32

def Call.done : Call → Int → Event
  | .read id .., value => .readDone id value
  | .write id _ len _ _, value => .writeDone id len value

/-- What a step does to the buffer, to the log and to the calls. -/
inductive Effect (s t : PipeState) : Prop
  | quiet (ring : t.pipe.ring = s.pipe.ring) (log : t.log = s.log) (calls : t.calls = s.calls)
      (call : ∀ u, t.call u = s.call u)
  | start (u : Nat) (c : Call) (idle : s.call u = none) (id : c.id = s.calls) (fresh : c.Fresh)
      (ring : t.pipe.ring = s.pipe.ring) (log : t.log = s.log) (calls : t.calls = s.calls + 1)
      (call : ∀ v, t.call v = if v = u then some c else s.call v)
  | deliver (u id len n : Nat) (nonblock : Bool) (current : s.call u = some (.read id len nonblock))
      (few : n ≤ s.pipe.ring.count)
      (ring : t.pipe.ring = (s.pipe.ring.take fsPipeCapacity n).2)
      (log : t.log = s.log ++ [.deliver id (s.pipe.ring.take fsPipeCapacity n).1])
      (calls : t.calls = s.calls) (call : ∀ v, t.call v = s.call v)
  | accept (u id : Nat) (base : Nat → UInt8) (len written n : Nat) (nonblock : Bool)
      (current : s.call u = some (.write id base len written nonblock))
      (fits : n ≤ fsPipeCapacity - s.pipe.ring.count) (left : n ≤ len - written)
      (ring : t.pipe.ring = s.pipe.ring.put fsPipeCapacity (fun i => base (written + i)) n)
      (log : t.log = s.log ++ [.accept id (copyFrom (fun i => base (written + i)) 0 n)])
      (calls : t.calls = s.calls)
      (call : ∀ v, t.call v = if v = u then some (.write id base len (written + n) nonblock)
        else s.call v)
  | done (u : Nat) (c : Call) (value : Int) (current : s.call u = some c) (result : c.Result value)
      (ring : t.pipe.ring = s.pipe.ring) (log : t.log = s.log ++ [c.done value])
      (calls : t.calls = s.calls) (call : ∀ v, t.call v = if v = u then none else s.call v)

namespace PipeState

variable {s t : PipeState}

theorem call_setTask (u v : Nat) (task : Task) :
    (s.setTask u task).call v = if v = u then task.pc.call else s.call v := by
  by_cases here : v = u <;> simp [call, setTask, here]

theorem call_setPc (u v : Nat) (pc : Pc) :
    (s.setPc u pc).call v = if v = u then pc.call else s.call v := call_setTask u v _

theorem call_setTask_same {task : Task} (u : Nat) (same : task.pc = (s.tasks u).pc) (v : Nat) :
    (s.setTask u task).call v = s.call v := by
  rw [call_setTask]
  split_ifs with here
  · rw [here, same]
    rfl
  · rfl

theorem setPc_quiet (u : Nat) (pc : Pc) (same : pc.call = s.call u) : Effect s (s.setPc u pc) := by
  refine .quiet rfl rfl rfl fun v => ?_
  rw [call_setPc]
  split_ifs with here
  · rw [here, same]
  · rfl

theorem endCall_done (u : Nat) (c : Call) (value : Int) (current : s.call u = some c)
    (result : c.Result value) : Effect s (s.endCall u c value) := by
  refine .done u c value current result rfl ?_ rfl fun v => ?_
  · cases c <;> rfl
  · exact call_setPc u v .idle

theorem afterWakes_effect (u : Nat) (ws : List Wake) (next : After)
    (current : s.call u = next.call) : Effect s (s.afterWakes u ws next) := by
  cases ws with
  | cons w ws => exact setPc_quiet u _ current.symm
  | nil =>
    cases next with
    | again c | closed => exact setPc_quiet u _ current.symm
    | ret id len nonblock value => exact endCall_done u _ value current trivial

end PipeState

/-- A step is judged by the buffer, the log and the calls that it finds. -/
theorem Effect.of_same {s s₀ t : PipeState} (effect : Effect s₀ t)
    (ring : s₀.pipe.ring = s.pipe.ring) (log : s₀.log = s.log) (calls : s₀.calls = s.calls)
    (call : ∀ u, s₀.call u = s.call u) : Effect s t := by
  cases effect with
  | quiet ring' log' calls' call' =>
    exact .quiet (ring'.trans ring) (log'.trans log) (calls'.trans calls)
      fun u => (call' u).trans (call u)
  | start u c idle id fresh ring' log' calls' call' =>
    refine .start u c (by rw [← call, idle]) (by rw [id, calls]) fresh (ring'.trans ring)
      (log'.trans log) (by rw [calls', calls]) fun v => ?_
    rw [call', call]
  | deliver u id len n nonblock current few ring' log' calls' call' =>
    rw [ring] at few ring' log'
    rw [log] at log'
    exact .deliver u id len n nonblock (by rw [← call, current]) few ring' log'
      (calls'.trans calls) fun v => (call' v).trans (call v)
  | accept u id base len written n nonblock current fits left ring' log' calls' call' =>
    rw [ring] at fits ring'
    rw [log] at log'
    refine .accept u id base len written n nonblock (by rw [← call, current]) fits left ring' log'
      (calls'.trans calls) fun v => ?_
    rw [call', call]
  | done u c value current result ring' log' calls' call' =>
    rw [log] at log'
    refine .done u c value (by rw [← call, current]) result (ring'.trans ring) log'
      (calls'.trans calls) fun v => ?_
    rw [call', call]

namespace PipeState

variable {s t : PipeState} {u : Nat} {c : Call}

theorem interrupted_result (c : Call) : c.Result c.interrupted := by
  cases c with
  | read id len nonblock => trivial
  | write id base len written nonblock =>
    rw [Call.Result, Call.interrupted]
    split_ifs with none
    · exact .inl rfl
    · exact .inr ⟨by decide, by simpa using none⟩

theorem readPass_effect {id len : Nat} {nonblock : Bool}
    (current : s.call u = some (.read id len nonblock)) :
    Effect s (s.readPass u id len nonblock) := by
  rw [readPass]
  split
  · exact endCall_done u _ 0 current trivial
  split
  · refine .deliver u id len _ nonblock current ?_ rfl rfl rfl fun v => ?_
    · split <;> omega
    · refine (call_setPc u v _).trans ?_
      split
      · rename_i here
        rw [here, current]
        rfl
      · rfl
  · split
    · exact endCall_done u _ 0 current trivial
    · split
      · exact endCall_done u _ _ current trivial
      · exact setPc_quiet u _ current.symm

theorem writePass_effect {id len written : Nat} {base : Nat → UInt8} {nonblock : Bool}
    (current : s.call u = some (.write id base len written nonblock)) :
    Effect s (s.writePass u id base len written nonblock) := by
  rw [writePass]
  split
  · split
    · split_ifs with nothing
      · refine Effect.of_same (endCall_done u _ (-ePipe) ?_ (.inr ⟨by decide, nothing⟩)) rfl rfl rfl
          (call_setTask_same u rfl)
        rw [call_setTask, if_pos rfl]
        exact current
      · exact endCall_done u _ _ current (.inl rfl)
    · split
      · refine .accept u id base len written _ nonblock current ?_ ?_ rfl rfl rfl fun v => ?_
        · exact min_le_right ..
        · exact min_le_left ..
        · exact call_setPc u v _
      split
      · refine endCall_done u _ _ current ?_
        split_ifs with nothing
        · exact .inl rfl
        · exact .inr ⟨by decide, by simpa using nothing⟩
      · exact setPc_quiet u _ current.symm
  · exact endCall_done u _ _ current (.inl rfl)

theorem wakeSection_effect {w : Wake} {ws : List Wake} {next : After}
    (current : s.call u = next.call) : Effect s (s.wakeSection u w ws next) := by
  rw [wakeSection]
  split
  · exact Effect.of_same (afterWakes_effect u ws next current) rfl rfl rfl fun _ => rfl
  rename_i v queue popped
  have woken (x : Nat) : ((s.setSem w.side { s.sem w.side with queue := queue }).setTask v
      { s.tasks v with wakeupFlags := (s.tasks v).proc.waitState }).call x = s.call x := by
    exact (call_setTask_same v (by rfl) x).trans rfl
  refine Effect.of_same (setPc_quiet u _ ?_) rfl rfl rfl woken
  exact current.symm.trans (woken u).symm

theorem downSection_effect (current : s.call u = some c) : Effect s (s.downSection u c) := by
  rw [downSection]
  split
  · exact Effect.of_same (setPc_quiet u _ current.symm) rfl rfl rfl fun _ => rfl
  refine .quiet rfl rfl rfl fun v => ?_
  refine (call_setTask u v _).trans ?_
  split_ifs with here
  · rw [here, current]
    rfl
  · rfl

theorem start_effect {pc : Pc} {inside : Side → List Nat} (idle : s.call u = none)
    (is : pc.call = some c) (id : c.id = s.calls) (fresh : c.Fresh) :
    Effect s { s.setPc u pc with
      inside := inside
      calls := s.calls + 1 } := by
  refine .start u c idle id fresh rfl rfl rfl fun v => ?_
  rw [← is]
  exact call_setPc u v pc

theorem step_effect {op : PipeOp} (taken : s.step op = some t) : Effect s t := by
  have at_ {u : Nat} {pc : Pc} (here : (s.tasks u).pc = pc) : s.call u = pc.call := by
    rw [call, here]
  cases op with (simp only [step] at taken; try split at taken) <;> try cases taken
  | startRead u len nonblock =>
    rename_i here
    split at taken
    · cases taken
      exact start_effect (at_ here) rfl rfl trivial
    · cases taken
  | startWrite u base len nonblock =>
    rename_i here
    obtain ⟨short, ⟨⟩⟩ := Option.ite_none_right_eq_some.mp taken
    exact start_effect (at_ here) rfl rfl ⟨rfl, short⟩
  | pass u =>
    rename_i here
    first
    | exact readPass_effect (at_ here)
    | exact writePass_effect (at_ here)
  | wake u =>
    rename_i here
    have current := at_ here
    exact wakeSection_effect current
  | wakeup u =>
    rename_i v ws next here
    have woken (x : Nat) : (s.setTask v { s.tasks v with
        proc := (s.tasks v).proc.wakeup }).call x = s.call x := call_setTask_same v (by rfl) x
    have current := (woken u).trans (at_ here)
    exact Effect.of_same (afterWakes_effect u ws next current) rfl rfl rfl woken
  | down u =>
    rename_i here
    exact downSection_effect (at_ here)
  | recheck u =>
    rename_i here
    refine setPc_quiet u _ ?_
    rw [at_ here]
    split <;> rfl
  | selfWake u =>
    rename_i here
    refine .quiet rfl rfl rfl fun v => ?_
    rw [call_setTask]
    split_ifs with same
    · rw [same, at_ here]
      rfl
    · rfl
  | withdraw u =>
    rename_i c here
    exact Effect.of_same (endCall_done u c _ (at_ here) (interrupted_result c)) rfl rfl rfl
      fun _ => rfl
  | resume u =>
    rename_i here
    split at taken
    · cases taken
      exact setPc_quiet u _ (at_ here).symm
    · cases taken
  | waitCurrentDel u =>
    rename_i here
    exact Effect.of_same (setPc_quiet u _ (at_ here).symm) rfl rfl rfl fun _ => rfl
  | finish u =>
    rename_i c here
    split at taken
    · cases taken
      exact setPc_quiet u _ (at_ here).symm
    · cases taken
      exact endCall_done u c _ (at_ here) (interrupted_result c)
  | close u readable writable =>
    rename_i here
    have current := at_ here
    exact Effect.of_same (afterWakes_effect u _ .closed current) rfl rfl rfl fun _ => rfl
  | stray u | kill u signo | other u proc =>
    exact .quiet rfl rfl rfl (call_setTask_same u rfl)

end PipeState

/-! ## The queue -/

/-- The bytes that writes put into the buffer, in order. -/
def accepted (log : List Event) : List UInt8 :=
  log.flatMap fun
    | .accept _ bytes => bytes
    | _ => []

/-- The bytes that reads took from the buffer, in order. -/
def delivered (log : List Event) : List UInt8 :=
  log.flatMap fun
    | .deliver _ bytes => bytes
    | _ => []

/-- How many bytes of a call entered the buffer. -/
def entered (id : Nat) (log : List Event) : Nat :=
  (log.map fun
    | .accept i bytes => if i = id then bytes.length else 0
    | _ => 0).sum

theorem entered_append (id : Nat) (log : List Event) (e : Event) :
    entered id (log ++ [e]) = entered id log + match e with
      | .accept i bytes => if i = id then bytes.length else 0
      | _ => 0 := by
  simp [entered]

theorem entered_done (id : Nat) (log : List Event) (c : Call) (value : Int) :
    entered id (log ++ [c.done value]) = entered id log := by
  rw [entered_append]
  cases c <;> rfl

/-- What a write that has ended returned. -/
def Returned (count : Nat) (value : Int) : Prop := value = toInt count ∨ (value < 0 ∧ count = 0)

/-- The ring holds what was accepted and not delivered, and each write counts its bytes. -/
structure Queued (s : PipeState) (queue : List UInt8) : Prop where
  holds : RingBuf.Holds fsPipeCapacity s.pipe.ring queue
  order : delivered s.log ++ queue = accepted s.log
  ids : ∀ u c, s.call u = some c → c.id < s.calls
  apart : ∀ u v c d, s.call u = some c → s.call v = some d → c.id = d.id → u = v
  unused : ∀ id, s.calls ≤ id → entered id s.log = 0
  counts : ∀ u id base len written nonblock, s.call u = some (.write id base len written nonblock) →
    entered id s.log = written ∧ written ≤ len ∧ len < 2 ^ 32
  finished : ∀ id len value, .writeDone id len value ∈ s.log → id < s.calls ∧
    (∀ u c, s.call u = some c → c.id ≠ id) ∧ Returned (entered id s.log) value ∧
    entered id s.log ≤ len ∧ len < 2 ^ 32

theorem Queued.create (readers writers : Nat) (cells : Nat → UInt8) (procs : Nat → Proc) :
    Queued (.create readers writers cells procs) [] where
  holds := .empty (by decide)
  order := rfl
  ids := nofun
  apart := nofun
  unused _ _ := rfl
  counts := nofun
  finished := nofun

variable {s t : PipeState} {queue : List UInt8}

section

variable (h : Queued s queue)
include h

theorem Queued.quiet (ring : t.pipe.ring = s.pipe.ring) (log : t.log = s.log)
    (calls : t.calls = s.calls) (call : ∀ u, t.call u = s.call u) : Queued t queue where
  holds := by rw [ring]; exact h.holds
  order := by rw [log]; exact h.order
  ids := by simpa [call, calls] using h.ids
  apart := by simpa [call] using h.apart
  unused := by simpa [log, calls] using h.unused
  counts := by simpa [call, log] using h.counts
  finished := by simpa [call, log, calls] using h.finished

theorem Queued.start {u : Nat} {c : Call} (id : c.id = s.calls) (fresh : c.Fresh)
    (ring : t.pipe.ring = s.pipe.ring) (log : t.log = s.log)
    (calls : t.calls = s.calls + 1)
    (call : ∀ v, t.call v = if v = u then some c else s.call v) : Queued t queue where
  holds := by rw [ring]; exact h.holds
  order := by rw [log]; exact h.order
  ids v d current := by
    rw [call] at current
    split at current
    · cases current
      omega
    · have := h.ids v d current
      omega
  apart v w d e first second same := by
    rw [call] at first second
    split at first <;> split at second
    · omega
    · cases first
      have := h.ids w e second
      omega
    · cases second
      have := h.ids v d first
      omega
    · exact h.apart v w d e first second same
  unused i high := by
    rw [log]
    exact h.unused i (by omega)
  counts v i base len written nonblock current := by
    rw [call] at current
    split at current
    · cases current
      obtain ⟨rfl, short⟩ := fresh
      refine ⟨?_, zero_le _, short⟩
      rw [log]
      exact h.unused i (le_of_eq id.symm)
    · rw [log]
      exact h.counts v i base len written nonblock current
  finished i len value mem := by
    rw [log] at mem ⊢
    obtain ⟨low, other, returned⟩ := h.finished i len value mem
    refine ⟨by omega, fun v d current => ?_, returned⟩
    rw [call] at current
    split at current
    · cases current
      omega
    · exact other v d current

theorem Queued.deliver {id n : Nat} (few : n ≤ s.pipe.ring.count)
    (ring : t.pipe.ring = (s.pipe.ring.take fsPipeCapacity n).2)
    (log : t.log = s.log ++ [.deliver id (s.pipe.ring.take fsPipeCapacity n).1])
    (calls : t.calls = s.calls) (call : ∀ v, t.call v = s.call v) : Queued t (queue.drop n) := by
  have same (i : Nat) : entered i t.log = entered i s.log := by rw [log, entered_append, add_zero]
  have events {i len : Nat} {value : Int} (mem : .writeDone i len value ∈ t.log) :
      .writeDone i len value ∈ s.log := by simpa [log] using mem
  constructor
  · rw [ring]
    exact h.holds.take_snd few
  · rw [log]
    simp only [delivered, accepted, flatMap_append, flatMap_cons, flatMap_nil,
      append_nil, append_assoc]
    rw [h.holds.take_fst few, take_append_drop]
    exact h.order
  · simpa [call, calls] using h.ids
  · simpa [call] using h.apart
  · simpa [same, calls] using h.unused
  · simpa [call, same] using h.counts
  · intro i len value mem
    simpa [call, same, calls] using h.finished i len value (events mem)

theorem Queued.accept {u id len written n : Nat} {base : Nat → UInt8} {nonblock : Bool}
    (current : s.call u = some (.write id base len written nonblock))
    (fits : n ≤ fsPipeCapacity - s.pipe.ring.count) (left : n ≤ len - written)
    (ring : t.pipe.ring = s.pipe.ring.put fsPipeCapacity (fun i => base (written + i)) n)
    (log : t.log = s.log ++ [.accept id (copyFrom (fun i => base (written + i)) 0 n)])
    (calls : t.calls = s.calls)
    (call : ∀ v, t.call v = if v = u then some (.write id base len (written + n) nonblock)
      else s.call v) : Queued t (queue ++ copyFrom (fun i => base (written + i)) 0 n) := by
  obtain ⟨count, within, short⟩ := h.counts u id base len written nonblock current
  have here : entered id t.log = written + n := by
    simp [log, entered_append, count, copyFrom]
  have elsewhere {i : Nat} (other : i ≠ id) : entered i t.log = entered i s.log := by
    rw [log, entered_append]
    simp [Ne.symm other]
  have events {i len : Nat} {value : Int} (mem : .writeDone i len value ∈ t.log) :
      .writeDone i len value ∈ s.log := by simpa [log] using mem
  -- The numbers of the calls are as before.
  have ids (v : Nat) (d : Call) (now : t.call v = some d) : ∃ e, s.call v = some e ∧ e.id = d.id := by
    rw [call] at now
    split_ifs at now with same
    · cases now
      exact ⟨.write id base len written nonblock, by rw [same, current], rfl⟩
    · exact ⟨d, now, rfl⟩
  constructor
  · rw [ring]
    exact h.holds.put fits
  · rw [log]
    simp only [delivered, accepted, flatMap_append, flatMap_cons, flatMap_nil,
      append_nil]
    rw [← append_assoc]
    exact congrArg (· ++ _) h.order
  · intro v d now
    obtain ⟨e, before, same⟩ := ids v d now
    rw [← same, calls]
    exact h.ids v e before
  · intro v w d e first second same
    obtain ⟨d', before, first⟩ := ids v d first
    obtain ⟨e', before', second⟩ := ids w e second
    exact h.apart v w d' e' before before' (by omega)
  · intro i high
    have low := h.ids u _ current
    change id < s.calls at low
    rw [elsewhere (by omega)]
    exact h.unused i (by omega)
  · intro v i base' len' written' nonblock' now
    by_cases same : v = u
    · rw [call, if_pos same] at now
      cases now
      exact ⟨here, by omega, short⟩
    · rw [call, if_neg same] at now
      have other : i ≠ id := fun same' => same (h.apart v u _ _ now current same')
      rw [elsewhere other]
      exact h.counts v i base' len' written' nonblock' now
  · intro i len' value mem
    obtain ⟨low, gone, returned⟩ := h.finished i len' value (events mem)
    have other : i ≠ id := fun same => gone u _ current same.symm
    rw [elsewhere other, calls]
    refine ⟨low, fun v d now => ?_, returned⟩
    obtain ⟨e, before, same⟩ := ids v d now
    rw [← same]
    exact gone v e before

theorem Queued.done {u : Nat} {c : Call} {value : Int} (current : s.call u = some c)
    (result : c.Result value)
    (ring : t.pipe.ring = s.pipe.ring) (log : t.log = s.log ++ [c.done value])
    (calls : t.calls = s.calls) (call : ∀ v, t.call v = if v = u then none else s.call v) :
    Queued t queue := by
  have same (i : Nat) : entered i t.log = entered i s.log := by rw [log, entered_done]
  have before {v : Nat} {d : Call} (now : t.call v = some d) : v ≠ u ∧ s.call v = some d := by
    rw [call] at now
    split at now
    · cases now
    · exact ⟨by assumption, now⟩
  constructor
  · rw [ring]
    exact h.holds
  · rw [log]
    have order := h.order
    cases c <;> simpa [delivered, accepted, Call.done] using order
  · intro v d now
    rw [calls]
    exact h.ids v d (before now).2
  · intro v w d e first second
    exact h.apart v w d e (before first).2 (before second).2
  · simpa [same, calls] using h.unused
  · intro v i base len written nonblock now
    rw [same]
    exact h.counts v i base len written nonblock (before now).2
  · intro i len value' mem
    rw [same, calls]
    rw [log, mem_append, mem_singleton] at mem
    rcases mem with old | new
    · obtain ⟨low, gone, returned⟩ := h.finished i len value' old
      exact ⟨low, fun v d now => gone v d (before now).2, returned⟩
    cases c with
    | read => cases new
    | write id base len written nonblock =>
      cases new
      obtain ⟨count, within, short⟩ := h.counts u i base len written nonblock current
      refine ⟨h.ids u _ current, fun v d now => ?_, ?_, by omega, short⟩
      · intro again
        exact (before now).1 (h.apart v u d _ (before now).2 current again)
      · rw [count]
        exact result

end

/-- A step of a queue of bounded capacity, with the bytes that enter or leave. -/
inductive QueueStep (cap : Nat) (queue : List UInt8) : List UInt8 → List Event → Prop
  | none (events : List Event) (nothing : accepted events = [] ∧ delivered events = []) :
      QueueStep cap queue queue events
  | enqueue (id : Nat) (bytes : List UInt8) (fits : queue.length + bytes.length ≤ cap) :
      QueueStep cap queue (queue ++ bytes) [.accept id bytes]
  | dequeue (id : Nat) (bytes rest : List UInt8) (front : queue = bytes ++ rest) :
      QueueStep cap queue rest [.deliver id bytes]

theorem Effect.simulates (effect : Effect s t) (h : Queued s queue) :
    ∃ queue' events, t.log = s.log ++ events ∧ Queued t queue' ∧
      QueueStep fsPipeCapacity queue queue' events := by
  have count := h.holds.count
  have room := h.holds.room
  cases effect with
  | quiet ring log calls call =>
    exact ⟨_, [], by simp [log], h.quiet ring log calls call, .none [] ⟨rfl, rfl⟩⟩
  | start u c idle id fresh ring log calls call =>
    exact ⟨_, [], by simp [log], h.start id fresh ring log calls call, .none [] ⟨rfl, rfl⟩⟩
  | deliver u id len n nonblock current few ring log calls call =>
    refine ⟨_, _, log, h.deliver few ring log calls call, .dequeue id _ _ ?_⟩
    rw [h.holds.take_fst few, take_append_drop]
  | accept u id base len written n nonblock current fits left ring log calls call =>
    refine ⟨_, _, log, h.accept current fits left ring log calls call, .enqueue id _ ?_⟩
    simp [copyFrom]
    omega
  | done u c value current result ring log calls call =>
    refine ⟨_, _, log, h.done current result ring log calls call, .none _ ?_⟩
    cases c <;> exact ⟨rfl, rfl⟩

namespace PipeState

variable {ops : List PipeOp} {readers writers : Nat} {cells : Nat → UInt8} {procs : Nat → Proc}

theorem queued_of_run (run : runFrom step (create readers writers cells procs) ops = some t) :
    ∃ queue, Queued t queue := by
  have keeps (s : PipeState) (op : PipeOp) (s' : PipeState) (inv : ∃ queue, Queued s queue)
      (taken : s.step op = some s') : ∃ queue, Queued s' queue := by
    obtain ⟨queue, h⟩ := inv
    obtain ⟨queue', -, -, h', -⟩ := (step_effect taken).simulates h
    exact ⟨queue', h'⟩
  exact runFrom_always keeps ⟨[], Queued.create readers writers cells procs⟩ run

/-- The buffer is a queue of bytes: what reads have taken is the beginning of what writes have put
    in, and the rest is in the ring. A write of less than two gigabytes returns the number of its
    bytes that entered, or an error if none did. -/
theorem pipe_is_queue (run : runFrom step (create readers writers cells procs) ops = some t) :
    t.pipe.ring.head < fsPipeCapacity ∧ t.pipe.ring.tail < fsPipeCapacity ∧
    t.pipe.ring.tail = (t.pipe.ring.head + t.pipe.ring.count) % fsPipeCapacity ∧
    (∃ queue, RingBuf.Holds fsPipeCapacity t.pipe.ring queue ∧ queue.length ≤ fsPipeCapacity ∧
      delivered t.log ++ queue = accepted t.log) ∧
    delivered t.log <+: accepted t.log ∧
    ∀ (id len : Nat) (value : Int), Event.writeDone id len value ∈ t.log → len < 2 ^ 31 →
      value = entered id t.log ∨ (value < 0 ∧ entered id t.log = 0) := by
  obtain ⟨queue, h⟩ := queued_of_run run
  have room : queue.length ≤ fsPipeCapacity := by
    rw [← h.holds.count]
    exact h.holds.room
  have begins : delivered t.log <+: accepted t.log := ⟨queue, h.order⟩
  refine ⟨h.holds.head, h.holds.tail_lt, h.holds.tail, ⟨queue, h.holds, room, h.order⟩, begins, ?_⟩
  intro id len value mem short
  obtain ⟨-, -, returned, within, -⟩ := h.finished id len value mem
  rcases returned with number | error
  · left
    rw [number]
    exact toInt_of_lt (lt_of_le_of_lt within short)
  · exact .inr error

/-- A write of three bytes, two of which are read. -/
def writeAndRead : List PipeOp :=
  [.startWrite 0 (fun i => UInt8.ofNat (i + 1)) 3 false, .pass 0, .wake 0, .startRead 1 2 false,
    .pass 1, .wake 1, .pass 0]

theorem pipe_is_queue_writeAndRead : ∃ t,
    runFrom step (create 1 1 (fun _ => 0) fun _ => {}) writeAndRead = some t ∧
      t.log = [.accept 0 [1, 2, 3], .deliver 1 [1, 2], .readDone 1 2, .writeDone 0 3 3] ∧
      delivered t.log <+: accepted t.log ∧ (3 : Int) = entered 0 t.log := by
  have ends : (runFrom step (create 1 1 (fun _ => 0) fun _ => {}) writeAndRead).map PipeState.log =
      some [.accept 0 [1, 2, 3], .deliver 1 [1, 2], .readDone 1 2, .writeDone 0 3 3] := by
    decide +kernel
  obtain ⟨t, run, logged⟩ := Option.map_eq_some_iff.mp ends
  obtain ⟨-, -, -, -, begins, returned⟩ := pipe_is_queue run
  refine ⟨t, run, logged, begins, ?_⟩
  rcases returned 0 3 3 (by simp [logged]) (by decide) with number | ⟨negative, -⟩
  · exact number
  · exact absurd negative (by decide)

/-- The only read end is closed; then one byte is written. -/
def writeUnread : List PipeOp :=
  [.close 0 true false, .wake 0, .startWrite 0 (fun _ => 1) 1 false, .pass 0]

/-- A write that nobody can read returns `-E_PIPE`, which is not the number of bytes that entered. -/
theorem unread_write_is_negative : ∃ t,
    runFrom step (create 1 1 (fun _ => 0) fun _ => {}) writeUnread = some t ∧
      t.log = [.writeDone 0 1 (-ePipe)] ∧ entered 0 t.log = 0 := by
  have ends : (runFrom step (create 1 1 (fun _ => 0) fun _ => {}) writeUnread).map PipeState.log =
      some [.writeDone 0 1 (-ePipe)] := by
    decide +kernel
  obtain ⟨t, run, logged⟩ := Option.map_eq_some_iff.mp ends
  exact ⟨t, run, logged, by rw [logged]; rfl⟩

end PipeState

end Procore.Fs
