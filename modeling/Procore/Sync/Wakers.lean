import Procore.Sync.Sem

/-! # Wakeups that arrive late

Every waker of the kernel chooses its target under some lock and calls `wakeup_proc` after it
has dropped the lock. By then the target may have been woken by somebody else and may sleep
again, on another semaphore. `down` takes every return from `schedule` for a grant.
-/

namespace Procore.Sync.Wakers

open Procore.Lib Procore.Process
open Function (update update_of_ne update_self)

/-- Where a task stands in a sleep that is not on a semaphore. -/
inductive Nap where
  | none
  /-- `do_sleep` has published its sleep; `add_timer` comes next. -/
  | timerPublished
  | timerArmed
  /-- `do_sleep` is back from `schedule`; `del_timer` comes next. -/
  | timerResumed
  /-- `do_wait_options` or `do_waitid` in `schedule`. -/
  | child
  deriving DecidableEq, Repr

inductive Halt where
  /-- `assert(flags == 0)` of `down`. -/
  | down
  /-- `assert(proc->wait_state & WT_INTERRUPTED)` of `run_timer_list`. -/
  | timer
  deriving DecidableEq, Repr

/-- Any number of semaphores and the tasks around them. -/
structure State where
  value : Nat → Int
  queue : Nat → List Nat := fun _ => []
  tasks : Nat → Task
  /-- The semaphore of the down that a task is in. -/
  sem : Nat → Nat := fun _ => 0
  nap : Nat → Nap := fun _ => .none
  /-- The timer of the task is in `timer_list`. -/
  timer : Nat → Bool := fun _ => false
  /-- Tasks whose timer `run_timer_list` has taken off; it looks at their wait state next. -/
  expired : List Nat := []
  /-- The targets of the `wakeup_proc` calls that are still to be made. -/
  wakes : List Nat := []
  halted : Option Halt := none

inductive Label where
  | down (t sem : Nat) (kind : DownKind)
  | tryDown (sem : Nat)
  | up (sem : Nat)
  | semWakeEvent (sem : Nat)
  /-- One round of the loop; `woke` says that an earlier round found a waiter. -/
  | semWakeAll (sem : Nat) (woke : Bool)
  | recheck (t : Nat)
  | selfWake (t : Nat)
  | withdraw (t : Nat)
  | resume (t : Nat)
  | waitCurrentDel (t : Nat)
  | finish (t : Nat)
  | doSleep (t : Nat)
  | addTimer (t : Nat)
  | delTimer (t : Nat)
  | waitChild (t : Nat)
  /-- `run_timer_list` under `timer_lock`. -/
  | expire (t : Nat)
  /-- `run_timer_list` after it: the assertion about the wait state. -/
  | checkExpired (t : Nat)
  | doKillSignal (t signo : Nat)
  /-- `do_exit` of a child under `proc_lock`; also for `initproc` and an inherited zombie. -/
  | childExit (t : Nat)
  /-- `proc_switch_complete` for the parent of a zombie. -/
  | switchParent (t : Nat)
  /-- `proc_switch_complete` for a task that was woken on its way off the CPU. -/
  | switchRequeue (t : Nat)
  | wakeupProc (t : Nat)
  /-- Whatever a task does outside these calls. -/
  | other (t : Nat) (proc : Proc)

/-- The section of `do_exit` that signals a parent. -/
def notifyParent (proc : Proc) : Proc × Bool :=
  let signal := signalQueue proc.signal sigchld
  if proc.state ≠ .stopped ∧ (proc.waitState = wtChild ∨
      (proc.waitState &&& wtInterrupted ≠ 0 ∧ signalShouldInterrupt signal)) then
    ({ proc with signal := signal, state := .runnable, waitState := 0 }, true)
  else ({ proc with signal := signal }, false)

namespace State

def setTask (s : State) (t : Nat) (task : Task) : State :=
  { s with tasks := update s.tasks t task }

def setPc (s : State) (t : Nat) (pc : Pc) : State := s.setTask t { s.tasks t with pc := pc }

def setNap (s : State) (t : Nat) (nap : Nap) : State :=
  { s with nap := update s.nap t nap }

def owe (s : State) (t : Nat) : State := { s with wakes := t :: s.wakes }

/-- `current->state = PROC_SLEEPING; current->wait_state = waitState`. -/
def publish (s : State) (t : Nat) (waitState : UInt32) : State :=
  s.setTask t { s.tasks t with
    proc := { (s.tasks t).proc with state := .sleeping, waitState := waitState } }

/-- The section that `up`, `sem_wake_event` and `sem_wake_all` have in common; `noWaiter` is the
    new value when there is nobody to wake. -/
def grant (s : State) (sem : Nat) (noWaiter : Int → Int) : State :=
  match popWaiter s.tasks wtKsem (s.queue sem) with
  | (none, queue) =>
    { s with
      value := update s.value sem (noWaiter (s.value sem))
      queue := update s.queue sem queue }
  | (some w, queue) =>
    { s.setTask w { s.tasks w with wakeupFlags := (s.tasks w).proc.waitState } with
      queue := update s.queue sem queue
      wakes := w :: s.wakes }

def up (s : State) (sem : Nat) : State := s.grant sem valueIncr

def semWakeEvent (s : State) (sem : Nat) : State :=
  s.grant sem fun value => if value = 0 then 1 else value

def semWakeAll (s : State) (sem : Nat) (woke : Bool) : State :=
  s.grant sem fun value => if !woke ∧ value = 0 then 1 else value

def down (s : State) (t sem : Nat) (kind : DownKind) : State :=
  if 0 < s.value sem then
    { s with value := update s.value sem (s.value sem - 1) }
  else
    { s.setTask t {
        proc := { (s.tasks t).proc with state := .sleeping, waitState := kind.waitState }
        pc := .published kind
        wakeupFlags := wtInterrupted } with
      queue := update s.queue sem (s.queue sem ++ [t])
      sem := update s.sem t sem }

/-- `wait_current_del`. -/
def unlink (s : State) (t : Nat) : State :=
  { s with queue := update s.queue (s.sem t) ((s.queue (s.sem t)).erase t) }

/-- The end of `__down` and of its caller. -/
def finish (s : State) (t : Nat) (kind : DownKind) : State :=
  let flags := (s.tasks t).wakeupFlags
  let ret := if flags ≠ kind.waitState then flags else 0
  { s.setPc t .idle with
    halted := if ret ≠ 0 ∧ kind = .down then some .down else s.halted }

def Free (s : State) (t : Nat) : Prop := (s.tasks t).pc = .idle ∧ s.nap t = .none

instance (s : State) (t : Nat) : Decidable (s.Free t) := inferInstanceAs (Decidable (_ ∧ _))

/-- The steps of a task in its own calls. -/
def stepOwn (s : State) : Label → Option State
  | .down t sem kind => if s.Free t then some (s.down t sem kind) else none
  | .tryDown sem =>
    if 0 < s.value sem then
      some { s with value := update s.value sem (s.value sem - 1) }
    else some s
  | .recheck t =>
    match (s.tasks t).pc with
    | .published kind =>
      if kind.waitState &&& wtInterrupted ≠ 0 ∧ signalShouldInterrupt (s.tasks t).proc.signal then
        some (s.setPc t (.interrupted kind))
      else some (s.setPc t (.scheduling kind))
    | _ => none
  | .selfWake t =>
    match (s.tasks t).pc with
    | .interrupted kind =>
      some (s.setTask t
        { s.tasks t with proc := (s.tasks t).proc.wakeup, pc := .withdrawing kind })
    | _ => none
  | .withdraw t =>
    match (s.tasks t).pc with
    | .withdrawing _ => some ((s.unlink t).setPc t .idle)
    | _ => none
  | .resume t =>
    if (s.tasks t).proc.state = .runnable then
      match (s.tasks t).pc, s.nap t with
      | .scheduling kind, _ => some (s.setPc t (.resumed kind))
      | .idle, .timerArmed => some (s.setNap t .timerResumed)
      | .idle, .child => some (s.setNap t .none)
      | _, _ => none
    else none
  | .waitCurrentDel t =>
    match (s.tasks t).pc with
    | .resumed kind => some ((s.unlink t).setPc t (.returning kind))
    | _ => none
  | .finish t =>
    match (s.tasks t).pc with
    | .returning kind => some (s.finish t kind)
    | _ => none
  | .doSleep t => if s.Free t then some ((s.publish t wtTimer).setNap t .timerPublished) else none
  | .addTimer t =>
    if s.nap t = .timerPublished then
      some { s.setNap t .timerArmed with timer := update s.timer t true }
    else none
  | .delTimer t =>
    if s.nap t = .timerResumed then
      some { s.setNap t .none with timer := update s.timer t false }
    else none
  | .waitChild t => if s.Free t then some ((s.publish t wtChild).setNap t .child) else none
  | .other t proc => if s.Free t then some (s.setTask t { s.tasks t with proc := proc }) else none
  | _ => none

/-- The sections in which a waker chooses its target, and the wakeups. -/
def stepWaker (s : State) : Label → Option State
  | .up sem => some (s.up sem)
  | .semWakeEvent sem => some (s.semWakeEvent sem)
  | .semWakeAll sem woke => some (s.semWakeAll sem woke)
  | .expire t =>
    if s.timer t then
      some { s with timer := update s.timer t false, expired := t :: s.expired }
    else none
  | .checkExpired t =>
    if t ∈ s.expired then
      if (s.tasks t).proc.waitState ≠ 0 ∧ (s.tasks t).proc.waitState &&& wtInterrupted = 0 then
        some { s with halted := some .timer }
      else some { s.owe t with expired := s.expired.erase t }
    else none
  | .doKillSignal t signo =>
    if signalNumberValid signo then
      let result := (s.tasks t).proc.doKillSignal signo
      let sent := s.setTask t { s.tasks t with proc := result.1 }
      some (if result.2 then sent.owe t else sent)
    else none
  | .childExit t =>
    let result := notifyParent (s.tasks t).proc
    let sent := s.setTask t { s.tasks t with proc := result.1 }
    some (if result.2 then sent.owe t else sent)
  | .switchParent t => if (s.tasks t).proc.waitState = wtChild then some (s.owe t) else some s
  | .switchRequeue t => if (s.tasks t).proc.state = .runnable then some (s.owe t) else some s
  | .wakeupProc t =>
    if t ∈ s.wakes then
      some { s.setTask t { s.tasks t with proc := (s.tasks t).proc.wakeup } with
        wakes := s.wakes.erase t }
    else none
  | _ => none

def step (s : State) (l : Label) : Option State :=
  if s.halted.isSome then none else (s.stepOwn l).or (s.stepWaker l)

/-- A down that returns from `schedule` has been granted a token. -/
def Granted (s : State) : Prop :=
  ∀ t, (s.tasks t).pc = .resumed .down ∨ (s.tasks t).pc = .returning .down →
    (s.tasks t).wakeupFlags = wtKsem

/-- No waker that has chosen a task is still to wake it when the task starts to wait in a `down`. -/
def Fresh (s : State) : Label → Prop
  | .down t sem .down => 0 < s.value sem ∨ (t ∉ s.wakes ∧ t ∉ s.expired)
  | _ => True

instance (s : State) (l : Label) : Decidable (s.Fresh l) := by
  unfold Fresh
  split <;> infer_instance

/-! ## What holds of one task -/

/-- The invariant of a task. A `down` that has not been granted sleeps, and nobody is about to
    wake it. -/
structure Fits (s : State) (t : Nat) : Prop where
  parked : ∀ kind, (s.tasks t).pc.kind = some kind → Parked (s.tasks t) kind
  flags : ∀ kind, (s.tasks t).pc.kind = some kind →
    (s.tasks t).wakeupFlags = wtInterrupted ∨ (s.tasks t).wakeupFlags = kind.waitState
  linked : ∀ sem, t ∈ s.queue sem → sem = s.sem t ∧ (s.tasks t).wakeupFlags = wtInterrupted ∧
    (s.tasks t).pc.enqueued = true
  steady : (s.tasks t).pc ≠ .interrupted .down ∧ (s.tasks t).pc ≠ .withdrawing .down
  held : (s.tasks t).pc.kind = some .down → (s.tasks t).wakeupFlags = wtInterrupted →
    (s.tasks t).pc.awake = false ∧ (s.tasks t).proc.state = .sleeping ∧ t ∉ s.wakes ∧ t ∉ s.expired
  armed : s.timer t = true → s.nap t = .timerArmed ∨ s.nap t = .timerResumed
  alone : s.nap t ≠ .none → (s.tasks t).pc = .idle

/-- Nothing that concerns the task changes, except that wakeups are made and nodes taken out. -/
structure Frame (s s' : State) (t : Nat) : Prop where
  tasks : s'.tasks t = s.tasks t
  sem : s'.sem t = s.sem t
  nap : s'.nap t = s.nap t
  timer : s'.timer t = s.timer t
  queue : ∀ sem, t ∈ s'.queue sem → t ∈ s.queue sem
  wakes : t ∈ s'.wakes → t ∈ s.wakes
  expired : t ∈ s'.expired → t ∈ s.expired

variable {s s' : State} {t : Nat}

theorem Fits.frame (h : s.Fits t) (f : Frame s s' t) : s'.Fits t where
  parked := f.tasks ▸ h.parked
  flags := f.tasks ▸ h.flags
  linked sem mem := by
    rw [f.tasks, f.sem]
    exact h.linked sem (f.queue sem mem)
  steady := f.tasks ▸ h.steady
  held waits ungranted := by
    rw [f.tasks] at waits ungranted ⊢
    obtain ⟨asleep, state, unchosen, unexpired⟩ := h.held waits ungranted
    exact ⟨asleep, state, fun mem => unchosen (f.wakes mem), fun mem => unexpired (f.expired mem)⟩
  armed := by
    rw [f.timer, f.nap]
    exact h.armed
  alone := by
    rw [f.tasks, f.nap]
    exact h.alone

structure Inv (s : State) : Prop where
  nodup : ∀ sem, (s.queue sem).Nodup
  fits : ∀ t, s.Fits t
  halted : s.halted ≠ some .down

theorem Inv.move (inv : s.Inv) {p : Nat} (others : ∀ t, t ≠ p → Frame s s' t)
    (own : s'.Fits p) (nodup : ∀ sem, (s'.queue sem).Nodup) (halted : s'.halted ≠ some .down) :
    s'.Inv where
  nodup := nodup
  fits t := by
    rcases eq_or_ne t p with rfl | other
    · exact own
    · exact (inv.fits t).frame (others t other)
  halted := halted

theorem Inv.granted (inv : s.Inv) : s.Granted := by
  intro t back
  have kind : (s.tasks t).pc.kind = some .down := by rcases back with back | back <;> rw [back] <;> rfl
  have awake : (s.tasks t).pc.awake = true := by rcases back with back | back <;> rw [back] <;> rfl
  rcases (inv.fits t).flags _ kind with ungranted | granted
  · have asleep := ((inv.fits t).held kind ungranted).1
    rw [awake] at asleep
    cases asleep
  · exact granted

theorem Inv.shrink (inv : s.Inv) (frame : ∀ t, Frame s s' t)
    (queue : s'.queue = s.queue) (halted : s'.halted ≠ some .down) : s'.Inv where
  nodup := queue ▸ inv.nodup
  fits t := (inv.fits t).frame (frame t)
  halted := halted

/-- Whoever is woken, or chosen, does not wait in an ungranted `down`. -/
def Roused (s : State) (t : Nat) : Prop :=
  (s.tasks t).pc.kind = some .down → (s.tasks t).wakeupFlags ≠ wtInterrupted

theorem Inv.roused_of_wakes (inv : s.Inv) (mem : t ∈ s.wakes) : s.Roused t :=
  fun waits ungranted => ((inv.fits t).held waits ungranted).2.2.1 mem

theorem Inv.roused_of_expired (inv : s.Inv) (mem : t ∈ s.expired) : s.Roused t :=
  fun waits ungranted => ((inv.fits t).held waits ungranted).2.2.2 mem

theorem roused_of_idle (idle : (s.tasks t).pc = .idle) : s.Roused t := by
  rw [Roused, idle]
  nofun

/-! ## The parts of a step -/

section Parts

variable {s : State} (inv : s.Inv) {t : Nat}
include inv

theorem Inv.setPc (pc : Pc) (kind : pc.kind = none ∨ pc.kind = (s.tasks t).pc.kind)
    (awake : pc.awake = true → (s.tasks t).proc.state = .runnable)
    (linked : pc.enqueued = true ∨ ∀ sem, t ∉ s.queue sem)
    (steady : pc ≠ .interrupted .down ∧ pc ≠ .withdrawing .down)
    (alone : pc = .idle ∨ s.nap t = .none) : (s.setPc t pc).Inv := by
  have h := inv.fits t
  have task : (s.setPc t pc).tasks t = { s.tasks t with pc := pc } := update_self ..
  have same : ∀ {k}, pc.kind = some k → (s.tasks t).pc.kind = some k := by
    rcases kind with none | same
    · simp [none]
    · simp [same]
  have asleep : (s.tasks t).proc.state = .sleeping → pc.awake = false := by
    intro asleep
    rcases up : pc.awake with _ | _
    · rfl
    · rw [awake up] at asleep
      cases asleep
  refine inv.move (fun q other => ⟨update_of_ne other .., rfl, rfl, rfl, fun _ => id, id, id⟩)
    ⟨?_, ?_, ?_, ?_, ?_, h.armed, ?_⟩ inv.nodup inv.halted
  all_goals rw [task]
  · intro k waits
    rcases h.parked k (same waits) with ⟨sleeping, published, _⟩ | woken
    · exact .inl ⟨sleeping, published, asleep sleeping⟩
    · exact .inr woken
  · exact fun k waits => h.flags k (same waits)
  · intro sem mem
    obtain ⟨here, ungranted, _⟩ := h.linked sem mem
    exact ⟨here, ungranted, linked.resolve_right fun out => out sem mem⟩
  · exact steady
  · intro waits ungranted
    obtain ⟨_, sleeping, rest⟩ := h.held (same waits) ungranted
    exact ⟨asleep sleeping, sleeping, rest⟩
  · exact alone.resolve_right

theorem Inv.setProc (proc : Proc)
    (parked : ∀ kind, (s.tasks t).pc.kind = some kind → Parked { s.tasks t with proc := proc } kind)
    (held : s.Roused t ∨ proc.state = .sleeping) :
    (s.setTask t { s.tasks t with proc := proc }).Inv := by
  have h := inv.fits t
  have task : (s.setTask t { s.tasks t with proc := proc }).tasks t = { s.tasks t with proc := proc } :=
    update_self ..
  refine inv.move (fun q other => ⟨update_of_ne other .., rfl, rfl, rfl, fun _ => id, id, id⟩)
    ⟨?_, ?_, ?_, ?_, ?_, h.armed, ?_⟩ inv.nodup inv.halted
  all_goals rw [task]
  · exact parked
  · exact h.flags
  · exact h.linked
  · exact h.steady
  · intro waits ungranted
    obtain ⟨asleep, _, rest⟩ := h.held waits ungranted
    exact ⟨asleep, held.resolve_left fun roused => roused waits ungranted, rest⟩
  · exact h.alone

theorem Inv.owe (roused : s.Roused t) : (s.owe t).Inv := by
  have h := inv.fits t
  refine inv.move
    (fun q other => ⟨rfl, rfl, rfl, rfl, fun _ => id, List.mem_of_ne_of_mem other, id⟩)
    ⟨h.parked, h.flags, h.linked, h.steady, fun waits ungranted => absurd ungranted (roused waits),
      h.armed, h.alone⟩ inv.nodup inv.halted

theorem Inv.setNap (nap : Nap) (idle : (s.tasks t).pc = .idle)
    (armed : s.timer t = true → nap = .timerArmed ∨ nap = .timerResumed) : (s.setNap t nap).Inv := by
  have h := inv.fits t
  refine inv.move (fun q other => ⟨rfl, rfl, update_of_ne other .., rfl, fun _ => id, id, id⟩)
    ⟨h.parked, h.flags, h.linked, h.steady, h.held, ?_, fun _ => idle⟩ inv.nodup inv.halted
  simpa [State.setNap] using armed

theorem Inv.setTimer (timer : Bool) (armed : timer = true → s.nap t = .timerArmed) :
    Inv { s with timer := update s.timer t timer } := by
  have h := inv.fits t
  refine inv.move (fun q other => ⟨rfl, rfl, rfl, update_of_ne other .., fun _ => id, id, id⟩)
    ⟨h.parked, h.flags, h.linked, h.steady, h.held, ?_, h.alone⟩ inv.nodup inv.halted
  simpa using fun on => .inl (armed on)

theorem Inv.unlink : (s.unlink t).Inv ∧ ∀ sem, t ∉ (s.unlink t).queue sem := by
  have sub : ∀ sem, ((s.unlink t).queue sem).Sublist (s.queue sem) := by
    intro sem
    rcases eq_or_ne sem (s.sem t) with rfl | other
    · simpa [State.unlink] using List.erase_sublist
    · simp [State.unlink, other]
  refine ⟨⟨fun sem => (inv.nodup sem).sublist (sub sem), fun q => (inv.fits q).frame
    ⟨rfl, rfl, rfl, rfl, fun sem mem => (sub sem).subset mem, id, id⟩, inv.halted⟩, fun sem mem => ?_⟩
  obtain rfl := ((inv.fits t).linked sem ((sub sem).subset mem)).1
  simp [State.unlink, (inv.nodup _).mem_erase_iff] at mem

theorem Inv.expire (timer : s.timer t = true) :
    Inv { s with timer := update s.timer t false, expired := t :: s.expired } := by
  have h := inv.fits t
  have idle : (s.tasks t).pc = .idle := by
    rcases h.armed timer with napping | napping <;> exact h.alone (by rw [napping]; nofun)
  refine inv.move
    (fun q other => ⟨rfl, rfl, rfl, update_of_ne other .., fun _ => id, id,
      List.mem_of_ne_of_mem other⟩)
    ⟨h.parked, h.flags, h.linked, h.steady,
      fun waits ungranted => absurd ungranted (roused_of_idle idle waits), by simp, h.alone⟩
    inv.nodup inv.halted

/-- The node that a waker pops belongs to a task that waits there. -/
theorem Inv.popped {sem w : Nat} {rest : List Nat}
    (pop : popWaiter s.tasks wtKsem (s.queue sem) = (some w, rest)) : w ∉ rest ∧ sem = s.sem w ∧
      ∃ kind, (s.tasks w).pc.kind = some kind ∧ (s.tasks w).proc.waitState = kind.waitState := by
  obtain ⟨_, found⟩ := popWaiter_spec pop
  obtain ⟨mem, gone, waiting⟩ := found w rfl
  obtain ⟨here, _, enqueued⟩ := (inv.fits w).linked sem mem
  obtain ⟨kind, waits⟩ : ∃ kind, (s.tasks w).pc.kind = some kind := by
    cases pc : (s.tasks w).pc <;> simp_all [Pc.enqueued, Pc.kind]
  refine ⟨gone (inv.nodup sem), here, kind, waits, ?_⟩
  rcases (inv.fits w).parked kind waits with ⟨_, published, _⟩ | ⟨_, cleared⟩
  · exact published
  · rw [cleared] at waiting
    exact absurd waiting (by decide)

theorem Inv.grant {sem : Nat} {noWaiter : Int → Int} : (s.grant sem noWaiter).Inv := by
  have less : ∀ {rest : List Nat} {woken}, popWaiter s.tasks wtKsem (s.queue sem) = (woken, rest) →
      ∀ j, (update s.queue sem rest j).Sublist (s.queue j) := by
    intro rest woken pop j
    rcases eq_or_ne j sem with rfl | other
    · simpa using (popWaiter_spec pop).1
    · simp [other]
  unfold State.grant
  split
  · next rest pop =>
    exact ⟨fun j => (inv.nodup j).sublist (less pop j), fun q => (inv.fits q).frame
      ⟨rfl, rfl, rfl, rfl, fun j mem => (less pop j).subset mem, id, id⟩, inv.halted⟩
  next w rest pop =>
  obtain ⟨gone, here, kind, waits, waitState⟩ := inv.popped pop
  have h := inv.fits w
  have task : (s.setTask w { s.tasks w with wakeupFlags := (s.tasks w).proc.waitState }).tasks w =
      { s.tasks w with wakeupFlags := (s.tasks w).proc.waitState } := update_self ..
  refine inv.move
    (fun q other => ⟨update_of_ne other .., rfl, rfl, rfl, fun j mem => (less pop j).subset mem,
      List.mem_of_ne_of_mem other, id⟩)
    ⟨?_, ?_, ?_, ?_, ?_, h.armed, ?_⟩ (fun j => (inv.nodup j).sublist (less pop j)) inv.halted
  all_goals simp only [task]
  · exact h.parked
  · intro k same
    obtain rfl : kind = k := Option.some_inj.mp (waits.symm.trans same)
    exact .inr waitState
  · intro j mem
    obtain rfl : j = sem := (h.linked j ((less pop j).subset mem)).1.trans here.symm
    rw [update_self] at mem
    exact absurd mem gone
  · exact h.steady
  · intro _ ungranted
    rw [waitState] at ungranted
    exact absurd ungranted kind.waitState_ne_interrupted
  · exact h.alone

end Parts

/-! ## The steps -/

theorem ksem_uninterruptible : wtKsem &&& wtInterrupted = 0 := by decide

theorem ksem_ne_child : wtKsem ≠ wtChild := by decide

variable {kind : DownKind}

theorem notifyParent_parked {task : Task} (parked : Parked task kind) :
    Parked { task with proc := (notifyParent task.proc).1 } kind := by
  simp only [notifyParent]
  split
  · exact .inr ⟨rfl, rfl⟩
  · exact parked

section

variable (inv : s.Inv)
include inv

theorem Inv.ungranted (waits : ¬ s.Roused t) :
    (s.tasks t).proc.state = .sleeping ∧ (s.tasks t).proc.waitState = wtKsem := by
  simp only [Roused, Classical.not_imp, not_not] at waits
  have asleep := ((inv.fits t).held waits.1 waits.2).2.1
  rcases (inv.fits t).parked _ waits.1 with ⟨_, published, _⟩ | ⟨running, _⟩
  · exact ⟨asleep, published⟩
  · rw [running] at asleep
    cases asleep

theorem Inv.choose {result : Proc × Bool}
    (parked : ∀ kind, (s.tasks t).pc.kind = some kind → Parked { s.tasks t with proc := result.1 } kind)
    (passed : (s.tasks t).proc.state = .sleeping → (s.tasks t).proc.waitState = wtKsem →
      result.1.state = .sleeping ∧ result.2 = false) :
    Inv (if result.2 then (s.setTask t { s.tasks t with proc := result.1 }).owe t
      else s.setTask t { s.tasks t with proc := result.1 }) := by
  rcases Classical.em (s.Roused t) with roused | waits
  · have set := inv.setProc _ parked (.inl roused)
    split
    · apply set.owe
      simpa [Roused, setTask] using roused
    · exact set
  · obtain ⟨asleep, published⟩ := inv.ungranted waits
    obtain ⟨still, unchosen⟩ := passed asleep published
    simpa [unchosen] using inv.setProc _ parked (.inr still)

theorem Inv.down {sem : Nat} (free : s.Free t)
    (fresh : s.Fresh (.down t sem kind)) : (s.down t sem kind).Inv := by
  unfold State.down
  split
  · exact inv.shrink (fun _ => ⟨rfl, rfl, rfl, rfl, fun _ => id, id, id⟩) rfl inv.halted
  next waits =>
  obtain ⟨idle, awake⟩ := free
  have h := inv.fits t
  have out : ∀ j, t ∉ s.queue j := by
    intro j mem
    have enqueued := (h.linked j mem).2.2
    rw [idle] at enqueued
    cases enqueued
  have queues : ∀ q j, q ≠ t → q ∈ update s.queue sem (s.queue sem ++ [t]) j →
      q ∈ s.queue j := by
    intro q j other mem
    rcases eq_or_ne j sem with rfl | elsewhere
    · simpa [other] using mem
    · simpa [elsewhere] using mem
  refine inv.move
    (fun q other => ⟨update_of_ne other .., update_of_ne other .., rfl, rfl,
      fun j => queues q j other, id, id⟩)
    ⟨?_, ?_, ?_, ?_, ?_, h.armed, absurd awake⟩ ?_ inv.halted
  all_goals simp only [setTask, update_self]
  · rintro k ⟨⟩
    exact .inl ⟨rfl, rfl, rfl⟩
  · exact fun _ _ => .inl trivial
  · intro j mem
    rcases eq_or_ne j sem with rfl | elsewhere
    · exact ⟨rfl, trivial, rfl⟩
    · rw [update_of_ne elsewhere] at mem
      exact absurd mem (out j)
  · exact ⟨nofun, nofun⟩
  · rintro ⟨⟩ -
    exact ⟨rfl, trivial, fresh.resolve_left waits⟩
  · intro j
    rcases eq_or_ne j sem with rfl | elsewhere
    · rw [update_self]
      exact List.nodup_append.mpr ⟨inv.nodup j, List.nodup_singleton t,
        fun a mem b last => by grind⟩
    · rw [update_of_ne elsewhere]
      exact inv.nodup j

theorem Inv.running (waits : (s.tasks t).pc.kind = some kind)
    (awake : (s.tasks t).pc.awake = true) :
    (s.tasks t).proc.state = .runnable := by
  rcases (inv.fits t).parked kind waits with ⟨_, _, asleep⟩ | ⟨running, _⟩
  · rw [awake] at asleep
    cases asleep
  · exact running

theorem Inv.awake_of_kind (waits : (s.tasks t).pc.kind = some kind) : s.nap t = .none := by
  by_contra napping
  rw [(inv.fits t).alone napping] at waits
  cases waits

theorem Inv.nap {waitState : UInt32} {nap : Nap} (free : s.Free t) :
    ((s.publish t waitState).setNap t nap).Inv := by
  obtain ⟨idle, awake⟩ := free
  have published : (s.publish t waitState).Inv := inv.setProc _ (by simp [idle, Pc.kind]) (.inr rfl)
  refine published.setNap _ (by simp [publish, setTask, idle]) fun timer => ?_
  have armed := (inv.fits t).armed timer
  simp [awake] at armed

theorem Inv.selfWake (here : (s.tasks t).pc = .interrupted kind) : (s.setTask t
      { s.tasks t with proc := (s.tasks t).proc.wakeup, pc := .withdrawing kind }).Inv := by
  have waits : (s.tasks t).pc.kind = some kind := by rw [here]; rfl
  have interruptible : kind ≠ .down := fun same => (inv.fits t).steady.1 (same ▸ here)
  have roused : s.Roused t := fun down => absurd (Option.some_inj.mp (waits.symm.trans down)) interruptible
  have woken := wakeup_parked ((inv.fits t).parked kind waits)
  have set := inv.setProc (s.tasks t).proc.wakeup
    (fun k same => .inr (wakeup_parked ((inv.fits t).parked k same))) (.inl roused)
  have done := set.setPc (t := t) (.withdrawing kind) (.inr ?_) ?_ (.inl rfl) ?_ (.inr ?_)
  · simpa [State.setPc, setTask] using done
  · simp [setTask, here, Pc.kind]
  · simp [setTask, woken]
  · simp [interruptible]
  · exact inv.awake_of_kind waits

theorem Inv.finish (here : (s.tasks t).pc = .returning kind) : (s.finish t kind).Inv := by
  have out : ∀ sem, t ∉ s.queue sem := by
    intro sem mem
    have enqueued := ((inv.fits t).linked sem mem).2.2
    rw [here] at enqueued
    cases enqueued
  have done := inv.setPc .idle (.inl rfl) nofun (.inr out) ⟨nofun, nofun⟩ (.inl rfl)
  refine done.shrink (fun _ => ⟨rfl, rfl, rfl, rfl, fun _ => id, id, id⟩) rfl ?_
  cases kind with
  | down => simpa [State.finish, inv.granted t (.inr here), DownKind.waitState] using inv.halted
  | downInterruptible => simpa [State.finish] using inv.halted

end

variable {l : Label}

theorem Inv.stepOwn (inv : s.Inv) (fresh : s.Fresh l) (go : s.stepOwn l = some s') : s'.Inv := by
  cases l with (simp only [State.stepOwn] at go; try split at go) <;> try cases go
  | down t sem kind =>
    rename_i free
    exact inv.down free fresh
  | tryDown sem =>
    first
    | exact inv
    | exact inv.shrink (fun _ => ⟨rfl, rfl, rfl, rfl, fun _ => id, id, id⟩) rfl inv.halted
  | recheck t =>
    rename_i kind here
    have waits : (s.tasks t).pc.kind = some kind := by rw [here]; rfl
    split_ifs at go with signal
    all_goals
      cases go
      refine inv.setPc _ (.inr waits.symm) nofun (.inl rfl) ?_ (.inr (inv.awake_of_kind waits))
    · refine ⟨?_, nofun⟩
      rintro ⟨⟩
      exact signal.1 (by decide)
    · exact ⟨nofun, nofun⟩
  | selfWake t =>
    rename_i here
    exact inv.selfWake here
  | withdraw t =>
    obtain ⟨unlinked, out⟩ := inv.unlink
    exact unlinked.setPc _ (.inl rfl) nofun (.inr out) ⟨nofun, nofun⟩ (.inl rfl)
  | resume t =>
    rename_i running
    split at go
    · next kind here =>
      cases go
      have waits : (s.tasks t).pc.kind = some kind := by rw [here]; rfl
      exact inv.setPc _ (.inr waits.symm) (fun _ => running) (.inl rfl) ⟨nofun, nofun⟩
        (.inr (inv.awake_of_kind waits))
    · next idle armed =>
      cases go
      exact inv.setNap _ idle fun _ => .inr rfl
    · next idle child =>
      cases go
      refine inv.setNap _ idle fun timer => ?_
      have armed := (inv.fits t).armed timer
      simp [child] at armed
    · cases go
  | waitCurrentDel t =>
    rename_i kind here
    have waits : (s.tasks t).pc.kind = some kind := by rw [here]; rfl
    obtain ⟨unlinked, out⟩ := inv.unlink
    exact unlinked.setPc _ (.inr waits.symm) (fun _ => inv.running waits (by rw [here]; rfl)) (.inr out)
      ⟨nofun, nofun⟩ (.inr (inv.awake_of_kind waits))
  | finish t =>
    rename_i here
    exact inv.finish here
  | doSleep t | waitChild t =>
    rename_i free
    exact inv.nap free
  | addTimer t =>
    rename_i napping
    have idle := (inv.fits t).alone (by rw [napping]; nofun)
    exact (inv.setNap _ idle fun _ => .inl rfl).setTimer _ fun _ => by simp [State.setNap]
  | delTimer t =>
    rename_i napping
    have idle := (inv.fits t).alone (by rw [napping]; nofun)
    exact (inv.setTimer false nofun).setNap _ idle (by simp)
  | other t proc =>
    rename_i free
    exact inv.setProc _ (by simp [free.1, Pc.kind]) (.inl (roused_of_idle free.1))

theorem Inv.stepWaker (inv : s.Inv) (go : s.stepWaker l = some s') :
    s'.Inv := by
  cases l with try cases go
  | up sem | semWakeEvent sem | semWakeAll sem woke => exact inv.grant
  | expire t =>
    simp only [State.stepWaker] at go
    split_ifs at go with timer
    cases go
    exact inv.expire timer
  | checkExpired t =>
    simp only [State.stepWaker] at go
    split_ifs at go with expired
    all_goals cases go
    · exact inv.shrink (fun _ => ⟨rfl, rfl, rfl, rfl, fun _ => id, id, id⟩) rfl nofun
    · exact (inv.owe (inv.roused_of_expired expired)).shrink
        (fun _ => ⟨rfl, rfl, rfl, rfl, fun _ => id, id, List.mem_of_mem_erase⟩) rfl inv.halted
  | doKillSignal t signo =>
    obtain ⟨_, sent⟩ := Option.ite_none_right_eq_some.mp go
    cases sent
    refine inv.choose (fun kind waits => doKillSignal_parked ((inv.fits t).parked kind waits) signo) ?_
    intro asleep published
    simp [Proc.doKillSignal, asleep, published, ksem_uninterruptible]
  | childExit t =>
    refine inv.choose (fun kind waits => notifyParent_parked ((inv.fits t).parked kind waits)) ?_
    intro asleep published
    simp [notifyParent, asleep, published, ksem_uninterruptible, ksem_ne_child]
  | switchParent t =>
    simp only [State.stepWaker] at go
    split_ifs at go with waiting
    all_goals cases go
    · refine inv.owe (Classical.not_not.mp fun waits => ?_)
      exact ksem_ne_child ((inv.ungranted waits).2.symm.trans waiting)
    · exact inv
  | switchRequeue t =>
    simp only [State.stepWaker] at go
    split_ifs at go with running
    all_goals cases go
    · refine inv.owe (Classical.not_not.mp fun waits => ?_)
      rw [(inv.ungranted waits).1] at running
      cases running
    · exact inv
  | wakeupProc t =>
    simp only [State.stepWaker] at go
    split_ifs at go with owed
    cases go
    have woken := inv.setProc (s.tasks t).proc.wakeup
      (fun kind waits => .inr (wakeup_parked ((inv.fits t).parked kind waits)))
      (.inl (inv.roused_of_wakes owed))
    exact woken.shrink (fun _ => ⟨rfl, rfl, rfl, rfl, fun _ => id, List.mem_of_mem_erase, id⟩) rfl
      inv.halted

theorem Inv.step (inv : s.Inv) (fresh : s.Fresh l) (go : s.step l = some s') : s'.Inv := by
  simp only [State.step] at go
  split_ifs at go
  rcases Option.or_eq_some_iff.mp go with own | ⟨_, waker⟩
  · exact inv.stepOwn fresh own
  · exact inv.stepWaker waker

/-- Semaphores with any values, and tasks outside of every call. -/
def boot (value : Nat → Int) (proc : Nat → Proc) : State :=
  { value := value, tasks := fun t => { proc := proc t } }

theorem inv_boot (value : Nat → Int) (proc : Nat → Proc) : (boot value proc).Inv where
  nodup _ := List.nodup_nil
  fits _ := ⟨nofun, nofun, nofun, ⟨nofun, nofun⟩, nofun, nofun, absurd rfl⟩
  halted := nofun

/-- When every `down` that waits starts with no wakeup of its task outstanding, each one returns
    with a token, and its assertion holds. -/
theorem down_returns_granted {value : Nat → Int} {proc : Nat → Proc} {ls : List Label} {s : State}
    (fresh : Along State.step Fresh (boot value proc) ls)
    (run : runFrom State.step (boot value proc) ls = some s) : s.Granted ∧ s.halted ≠ some .down := by
  have inv := runFrom_invariant (fun _ _ _ inv fresh go => Inv.step inv fresh go)
    (inv_boot value proc) fresh run
  exact ⟨inv.granted, inv.halted⟩

/-- Task 0 is granted the token of an `up` while it sleeps. -/
theorem down_returns_granted_up : ∃ s,
    runFrom State.step (boot (fun _ => 0) fun _ => { state := .runnable })
      [.down 0 1 .down, .recheck 0, .up 1, .doKillSignal 0 9, .wakeupProc 0, .resume 0,
        .waitCurrentDel 0, .finish 0, .doSleep 0, .addTimer 0, .expire 0, .checkExpired 0,
        .wakeupProc 0, .resume 0, .delTimer 0, .down 0 2 .down] = some s ∧
    s.Granted ∧ s.halted ≠ some .down := by
  exact exists_run (by decide +kernel) fun s run => down_returns_granted (by decide +kernel) run

/-- Task 0 waits interruptibly on semaphore 1 and is chosen by an `up`. A signal wakes it before
    the `up` does, and the late wakeup ends its `down` on semaphore 2, whose value is still 0. -/
theorem down_returns_ungranted :
    (runFrom State.step (boot (fun _ => 0) fun _ => { state := .runnable })
      [.down 0 1 .downInterruptible, .recheck 0, .up 1, .doKillSignal 0 9, .resume 0,
        .waitCurrentDel 0, .finish 0, .down 0 2 .down, .recheck 0, .wakeupProc 0, .resume 0,
        .waitCurrentDel 0]).any (fun s => (s.tasks 0).pc = .returning .down ∧
          (s.tasks 0).wakeupFlags = wtInterrupted ∧
          (s.step (.finish 0)).any fun s' => s'.halted = some .down) = true := by
  decide +kernel

end State

end Procore.Sync.Wakers
