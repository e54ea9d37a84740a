import Procore.Lib.Run
import Procore.Process.Proc

/-! # Kernel semaphores and their wait queues

Any number of tasks run `down`, `down_interruptible`, `try_down` and `up` on one
semaphore while signals and other wakeups arrive. Each section under `sem->lock`,
the queue lock or `proc_lock` is one step; the code between two sections is a
program counter of the task.

`up` hands its token to a waiter by writing `wakeup_flags` of the node it pops.
The waiter reads them only on the path through `schedule`. On the path that
finds a signal right after publishing itself it returns `WT_INTERRUPTED`
without looking, and a token granted by then is gone.
-/

namespace Procore.Sync

open Procore.Lib Procore.Process List Option
open Function

inductive DownKind where
  | down
  | downInterruptible
  deriving DecidableEq, Repr

/-- The `wait_state` passed to `__down`. -/
def DownKind.waitState : DownKind → UInt32
  | .down => wtKsem
  | .downInterruptible => wtKsem ||| wtInterrupted

inductive Pc where
  | idle
  /-- After `wait_current_set`, before the signals are checked again. -/
  | published (kind : DownKind)
  /-- The check found a signal; `wakeup_proc(current)` comes next. -/
  | interrupted (kind : DownKind)
  /-- After that wakeup; `wait_current_del` and the return come next. -/
  | withdrawing (kind : DownKind)
  /-- In `schedule`. -/
  | scheduling (kind : DownKind)
  /-- Back from `schedule`; `wait_current_del` comes next. -/
  | resumed (kind : DownKind)
  /-- The node is out of the queue; its flags are read next. -/
  | returning (kind : DownKind)
  deriving DecidableEq, Repr

def Pc.kind : Pc → Option DownKind
  | .idle => none
  | .published k | .interrupted k | .withdrawing k | .scheduling k | .resumed k | .returning k =>
    some k

/-- The task runs again after its wait. -/
def Pc.awake : Pc → Bool
  | .withdrawing _ | .resumed _ | .returning _ => true
  | _ => false

/-- The node may still be in the wait queue. -/
def Pc.enqueued : Pc → Bool
  | .idle | .returning _ => false
  | _ => true

/-- A task and `wakeup_flags` of the wait node on its stack. -/
structure Task where
  proc : Proc := {}
  pc : Pc := .idle
  wakeupFlags : UInt32 := wtInterrupted

/-- A popped node that carries the token of an `up`. -/
def Task.Granted (task : Task) : Prop := task.pc ≠ .idle ∧ task.wakeupFlags ≠ wtInterrupted

/-- A semaphore with every task around it. `wakes` holds the targets of the
    `wakeup_proc` calls that an `up` or a signal sender has still to make; `ups` and
    `taken` count the `up` calls and the successful downs. -/
structure SemState where
  value : Int
  queue : List Nat := []
  tasks : Nat → Task
  wakes : List Nat := []
  ups : Nat := 0
  taken : Nat := 0
  /-- `assert(flags == 0)` of `down` failed. -/
  halted : Bool := false

/-- `sem_init`, with tasks in any state. -/
def semInit (value : Int) (procs : Nat → Proc) : SemState :=
  { value := value, tasks := fun t => { proc := procs t } }

/-- One section, or one local decision, of a task. -/
inductive SemLabel where
  /-- The section of `__down`: take a token or publish a wait node. -/
  | down (t : Nat) (kind : DownKind)
  | tryDown
  | up
  | recheck (t : Nat)
  | selfWake (t : Nat)
  | withdraw (t : Nat)
  | resume (t : Nat)
  | waitCurrentDel (t : Nat)
  | finish (t : Nat)
  /-- A `wakeup_proc` that an `up` or a signal sender owes. -/
  | wake (t : Nat)
  /-- A `wakeup_proc` from elsewhere in the kernel. -/
  | stray (t : Nat)
  | kill (t : Nat) (signo : Nat)
  /-- Whatever a task does outside this semaphore. -/
  | other (t : Nat) (proc : Proc)

/-- The loop of `__up`: drop the nodes of waiters that are no longer waiting. -/
def popWaiter (tasks : Nat → Task) (waitState : UInt32) : List Nat → Option Nat × List Nat
  | [] => (none, [])
  | w :: queue =>
    if (tasks w).proc.waitState = waitState ∨
        (tasks w).proc.waitState = waitState ||| wtInterrupted then (some w, queue)
    else popWaiter tasks waitState queue

/-- `sem->value ++` on an `int`. -/
def valueIncr (value : Int) : Int := (value + 1).bmod (2 ^ 32)

namespace SemState

def setTask (s : SemState) (t : Nat) (task : Task) : SemState :=
  { s with tasks := update s.tasks t task }

/-- `__up` under `sem->lock`, for `WT_KSEM`. -/
def upSection (s : SemState) : SemState :=
  match popWaiter s.tasks wtKsem s.queue with
  | (none, queue) => { s with value := valueIncr s.value, queue := queue, ups := s.ups + 1 }
  | (some w, queue) =>
    { s with
      queue := queue
      tasks := update s.tasks w
        { s.tasks w with wakeupFlags := (s.tasks w).proc.waitState }
      wakes := w :: s.wakes
      ups := s.ups + 1 }

def downSection (s : SemState) (t : Nat) (kind : DownKind) : SemState :=
  if 0 < s.value then { s with value := s.value - 1, taken := s.taken + 1 }
  else
    { s with
      queue := s.queue ++ [t]
      tasks := update s.tasks t
        { proc := { (s.tasks t).proc with state := .sleeping, waitState := kind.waitState }
          pc := .published kind
          wakeupFlags := wtInterrupted } }

/-- The end of `__down` and of its caller: flags other than the wait state are
    returned, and `down` asserts that they are zero. -/
def finishSection (s : SemState) (t : Nat) (kind : DownKind) : SemState :=
  let flags := (s.tasks t).wakeupFlags
  let ret := if flags ≠ kind.waitState then flags else 0
  let done := s.setTask t { s.tasks t with pc := .idle }
  if ret = 0 then { done with taken := s.taken + 1 }
  else match kind with
    | .down => { done with halted := true }
    | .downInterruptible => done

def step (s : SemState) (l : SemLabel) : Option SemState :=
  if s.halted then none
  else match l with
    | .down t kind => if (s.tasks t).pc = .idle then some (s.downSection t kind) else none
    | .tryDown =>
      if 0 < s.value then some { s with value := s.value - 1, taken := s.taken + 1 } else some s
    | .up => some s.upSection
    | .recheck t =>
      match (s.tasks t).pc with
      | .published kind =>
        if kind.waitState &&& wtInterrupted ≠ 0 ∧
            signalShouldInterrupt (s.tasks t).proc.signal then
          some (s.setTask t { s.tasks t with pc := .interrupted kind })
        else some (s.setTask t { s.tasks t with pc := .scheduling kind })
      | _ => none
    | .selfWake t =>
      match (s.tasks t).pc with
      | .interrupted kind =>
        some (s.setTask t
          { s.tasks t with proc := (s.tasks t).proc.wakeup, pc := .withdrawing kind })
      | _ => none
    | .withdraw t =>
      match (s.tasks t).pc with
      | .withdrawing _ =>
        some { s.setTask t { s.tasks t with pc := .idle } with queue := s.queue.erase t }
      | _ => none
    | .resume t =>
      match (s.tasks t).pc with
      | .scheduling kind =>
        if (s.tasks t).proc.state = .runnable then
          some (s.setTask t { s.tasks t with pc := .resumed kind })
        else none
      | _ => none
    | .waitCurrentDel t =>
      match (s.tasks t).pc with
      | .resumed kind =>
        some { s.setTask t { s.tasks t with pc := .returning kind } with
          queue := s.queue.erase t }
      | _ => none
    | .finish t =>
      match (s.tasks t).pc with
      | .returning kind => some (s.finishSection t kind)
      | _ => none
    | .wake t =>
      if t ∈ s.wakes then
        some { s.setTask t { s.tasks t with proc := (s.tasks t).proc.wakeup } with
          wakes := s.wakes.erase t }
      else none
    | .stray t => some (s.setTask t { s.tasks t with proc := (s.tasks t).proc.wakeup })
    | .kill t signo =>
      if signalNumberValid signo then
        let (proc, wake) := (s.tasks t).proc.doKillSignal signo
        some { s.setTask t { s.tasks t with proc := proc } with
          wakes := if wake then t :: s.wakes else s.wakes }
      else none
    | .other t proc =>
      if (s.tasks t).pc = .idle then some (s.setTask t { s.tasks t with proc := proc }) else none

/-- No call is under way except downs that sleep in the wait queue. -/
def Quiescent (s : SemState) : Prop :=
  s.wakes = [] ∧ ∀ t, (s.tasks t).pc = .idle ∨
    ((∃ kind, (s.tasks t).pc = .scheduling kind) ∧ t ∈ s.queue)

/-- The condition on a step: a task that withdraws because of a signal has not
    been granted a token, and an `up` does not overflow the counter. -/
def TokenCond (s : SemState) : SemLabel → Prop
  | .selfWake t => (s.tasks t).wakeupFlags = wtInterrupted
  | .up => s.value + 1 < 2 ^ 31
  | _ => True

instance (s : SemState) : ∀ l, Decidable (s.TokenCond l)
  | .selfWake t => inferInstanceAs (Decidable ((s.tasks t).wakeupFlags = wtInterrupted))
  | .up => inferInstanceAs (Decidable (s.value + 1 < 2 ^ 31))
  | .down _ _ | .tryDown | .recheck _ | .withdraw _ | .resume _ | .waitCurrentDel _ | .finish _
  | .wake _ | .stray _ | .kill _ _ | .other _ _ => isTrue trivial

end SemState

/-! ## What holds of one task -/

/-- A task in a down is asleep with its wait state published, or was woken with
    its wait state cleared. -/
def Parked (task : Task) (kind : DownKind) : Prop :=
  (task.proc.state = .sleeping ∧ task.proc.waitState = kind.waitState ∧ task.pc.awake = false) ∨
    (task.proc.state = .runnable ∧ task.proc.waitState = 0)

/-- The invariant of one task; `linked` says that its node is in the queue. -/
structure TaskOk (task : Task) (linked : Prop) : Prop where
  parked : ∀ kind, task.pc.kind = some kind → Parked task kind
  flags : ∀ kind, task.pc.kind = some kind →
    task.wakeupFlags = wtInterrupted ∨ task.wakeupFlags = kind.waitState
  ungranted : linked → task.wakeupFlags = wtInterrupted ∧ task.pc.enqueued = true
  withdrawn : ∀ kind, task.pc = .withdrawing kind → task.wakeupFlags = wtInterrupted

theorem DownKind.waitState_ne_interrupted (kind : DownKind) : kind.waitState ≠ wtInterrupted := by
  cases kind <;> decide

variable {task : Task} {kind : DownKind}

theorem wakeup_parked (parked : Parked task kind) :
    task.proc.wakeup.state = .runnable ∧ task.proc.wakeup.waitState = 0 := by
  obtain ⟨asleep, -, -⟩ | ⟨running, cleared⟩ := parked
  · simp [Proc.wakeup, asleep]
  · simp [Proc.wakeup, running, cleared]

theorem doKillSignal_parked (parked : Parked task kind) (signo : Nat) :
    Parked { task with proc := (task.proc.doKillSignal signo).1 } kind := by
  obtain ⟨asleep, published, pc⟩ | ⟨running, cleared⟩ := parked
  · simp only [Proc.doKillSignal, asleep, reduceCtorEq, if_false]
    split
    · exact .inr ⟨rfl, rfl⟩
    · exact .inl ⟨rfl, published, pc⟩
  · refine .inr ?_
    simp [Proc.doKillSignal, running, cleared]

theorem TaskOk.withProc {linked : Prop} (ok : TaskOk task linked) {proc : Proc}
    (parked : ∀ kind, task.pc.kind = some kind → Parked { task with proc := proc } kind) :
    TaskOk { task with proc := proc } linked :=
  ⟨parked, ok.flags, ok.ungranted, ok.withdrawn⟩

theorem TaskOk.wakeup {linked : Prop} (ok : TaskOk task linked) :
    TaskOk { task with proc := task.proc.wakeup } linked :=
  ok.withProc fun kind waiting => .inr (wakeup_parked (ok.parked kind waiting))

variable {tasks : Nat → Task} {queue rest : List Nat} {waitState : UInt32} {woken : Option Nat}

theorem popWaiter_spec (popped : popWaiter tasks waitState queue = (woken, rest)) :
    rest.Sublist queue ∧ ∀ w, woken = some w →
      w ∈ queue ∧ (queue.Nodup → w ∉ rest) ∧
        ((tasks w).proc.waitState = waitState ∨
          (tasks w).proc.waitState = waitState ||| wtInterrupted) := by
  induction queue with
  | nil =>
    obtain ⟨rfl, rfl⟩ := Prod.mk.inj popped
    exact ⟨Sublist.refl _, fun w none => by cases none⟩
  | cons head queue ih =>
    rw [popWaiter] at popped
    split_ifs at popped with waiting
    · obtain ⟨rfl, rfl⟩ := Prod.mk.inj popped
      refine ⟨sublist_cons_self _ _, fun w first => ?_⟩
      obtain rfl := some.inj first
      exact ⟨.head _, fun nodup => (nodup_cons.mp nodup).1, waiting⟩
    · obtain ⟨sub, valid⟩ := ih popped
      refine ⟨sub.trans (sublist_cons_self _ _), fun w found => ?_⟩
      obtain ⟨mem, gone, waiting⟩ := valid w found
      exact ⟨.tail _ mem, fun nodup => gone (nodup_cons.mp nodup).2, waiting⟩

/-- Only nodes whose task does not wait are dropped. -/
theorem popWaiter_left {w : Nat} (popped : popWaiter tasks waitState queue = (woken, rest))
    (mem : w ∈ queue) (waiting : (tasks w).proc.waitState = waitState ∨
      (tasks w).proc.waitState = waitState ||| wtInterrupted) : woken = some w ∨ w ∈ rest := by
  induction queue with
  | nil => cases mem
  | cons head queue ih =>
    rw [popWaiter] at popped
    split_ifs at popped with idle
    · obtain ⟨rfl, rfl⟩ := Prod.mk.inj popped
      rcases mem_cons.mp mem with rfl | later
      · exact .inl rfl
      · exact .inr later
    · rcases mem_cons.mp mem with rfl | later
      · exact absurd waiting idle
      · exact ih popped later

theorem popWaiter_none (popped : popWaiter tasks waitState queue = (none, rest)) : rest = [] := by
  induction queue with
  | nil => exact (Prod.mk.inj popped).2.symm
  | cons head queue ih =>
    rw [popWaiter] at popped
    split at popped
    · cases (Prod.mk.inj popped).1
    · exact ih popped

/-! ## Token conservation -/

namespace SemState

/-- Tokens on the way: granted by an `up`, not yet returned by the down. -/
structure TokenInv (v : Int) (s : SemState) : Prop where
  nodup : s.queue.Nodup
  task : ∀ t, TaskOk (s.tasks t) (t ∈ s.queue)
  nonneg : 0 ≤ s.value
  tokens : ∃ inFlight : Finset Nat, (∀ t, t ∈ inFlight ↔ (s.tasks t).Granted) ∧
    s.value + s.taken + inFlight.card = v + s.ups

variable {v : Int}

theorem tokenInv_init (nonneg : 0 ≤ v) (procs : Nat → Proc) :
    TokenInv v (semInit v procs) where
  nodup := nodup_nil
  task _ := { parked := nofun, flags := nofun, ungranted := nofun, withdrawn := nofun }
  nonneg := nonneg
  tokens := ⟨∅, by simp [semInit, Task.Granted], by simp [semInit]⟩

variable {t : Nat} {tasks : Nat → Task}

/-- Changing one task, with no new node of another task in the queue. -/
theorem taskOk_update {queue queue' : List Nat} {task : Task}
    (all : ∀ u, TaskOk (tasks u) (u ∈ queue)) (others : ∀ u, u ≠ t → u ∈ queue' → u ∈ queue)
    (ok : TaskOk task (t ∈ queue')) : ∀ u, TaskOk (update tasks t task u) (u ∈ queue') := by
  intro u
  by_cases same : u = t
  · subst same
    rwa [update_self]
  · rw [update_of_ne same]
    have before := all u
    exact ⟨before.parked, before.flags, fun linked => before.ungranted (others u same linked),
      before.withdrawn⟩

theorem granted_update {inFlight inFlight' : Finset Nat}
    {task : Task} (all : ∀ u, u ∈ inFlight ↔ (tasks u).Granted)
    (others : ∀ u, u ≠ t → (u ∈ inFlight' ↔ u ∈ inFlight)) (ok : t ∈ inFlight' ↔ task.Granted) :
    ∀ u, u ∈ inFlight' ↔ (update tasks t task u).Granted := by
  intro u
  by_cases same : u = t
  · subst same
    rwa [update_self]
  · rw [update_of_ne same, others u same, all u]

variable {s : SemState}

/-- A step that changes one task, removes nodes at most, and moves no token. -/
theorem TokenInv.retask {s' : SemState} (inv : TokenInv v s) (t : Nat) (task : Task)
    (tasks : s'.tasks = update s.tasks t task) (queue : s'.queue.Sublist s.queue)
    (value : s'.value = s.value) (taken : s'.taken = s.taken) (ups : s'.ups = s.ups)
    (ok : TaskOk task (t ∈ s'.queue)) (granted : task.Granted ↔ (s.tasks t).Granted) :
    TokenInv v s' where
  nodup := inv.nodup.sublist queue
  task := tasks ▸ taskOk_update inv.task (fun _ _ linked => queue.subset linked) ok
  nonneg := value ▸ inv.nonneg
  tokens := by
    obtain ⟨inFlight, mem, total⟩ := inv.tokens
    refine ⟨inFlight, ?_, by rw [value, taken, ups, total]⟩
    rw [tasks]
    exact granted_update mem (fun _ _ => .rfl) ((mem t).trans granted.symm)

theorem valueIncr_of_lt {value : Int} (nonneg : 0 ≤ value) (bound : value + 1 < 2 ^ 31) :
    valueIncr value = value + 1 := by
  apply Int.bmod_eq_of_le <;> omega

section

variable (inv : TokenInv v s)
include inv

theorem TokenInv.upSection (bound : s.value + 1 < 2 ^ 31) : TokenInv v s.upSection := by
  obtain ⟨inFlight, mem, total⟩ := inv.tokens
  unfold SemState.upSection
  split
  · rename_i queue popped
    obtain ⟨sub, -⟩ := popWaiter_spec popped
    refine ⟨inv.nodup.sublist sub, fun t => ?_, ?_, inFlight, mem, ?_⟩
    · have before := inv.task t
      exact ⟨before.parked, before.flags, fun linked => before.ungranted (sub.subset linked),
        before.withdrawn⟩
    · simp only [valueIncr_of_lt inv.nonneg bound]
      have nonneg := inv.nonneg
      omega
    · simp only [valueIncr_of_lt inv.nonneg bound]
      omega
  · rename_i w queue popped
    obtain ⟨sub, valid⟩ := popWaiter_spec popped
    obtain ⟨linked, gone, waiting⟩ := valid w rfl
    have before := inv.task w
    obtain ⟨fresh, enqueued⟩ := before.ungranted linked
    obtain ⟨kind, waits⟩ : ∃ kind, (s.tasks w).pc.kind = some kind := by
      cases pc : (s.tasks w).pc <;> simp_all [Pc.kind, Pc.enqueued]
    -- a waiter whose wait state is still published is asleep in its own call
    obtain ⟨asleep, published, notAwake⟩ : (s.tasks w).proc.state = .sleeping ∧
        (s.tasks w).proc.waitState = kind.waitState ∧ (s.tasks w).pc.awake = false := by
      obtain asleep | ⟨-, cleared⟩ := before.parked kind waits
      · exact asleep
      · rw [cleared] at waiting
        exact absurd waiting (by decide)
    refine ⟨inv.nodup.sublist sub,
      taskOk_update inv.task (fun _ _ linked => sub.subset linked) ⟨before.parked, ?_, ?_, ?_⟩,
      inv.nonneg, insert w inFlight, granted_update mem ?_ ?_, ?_⟩
    · intro k is
      obtain rfl := Option.some.inj (waits.symm.trans is)
      exact .inr published
    · exact fun still => absurd still (gone inv.nodup)
    · intro k is
      rw [is] at notAwake
      cases notAwake
    · intro u other
      simp [other]
    · simp only [Finset.mem_insert_self, Task.Granted, published, true_iff]
      exact ⟨fun idle => by simp [idle, Pc.kind] at waits, kind.waitState_ne_interrupted⟩
    · have new : w ∉ inFlight := fun old => ((mem w).mp old).2 fresh
      simp only [Finset.card_insert_of_notMem new]
      omega

theorem TokenInv.downSection (idle : (s.tasks t).pc = .idle) (kind : DownKind) :
    TokenInv v (s.downSection t kind) := by
  obtain ⟨inFlight, mem, total⟩ := inv.tokens
  have unlinked : t ∉ s.queue := fun linked => by
    have enqueued := ((inv.task t).ungranted linked).2
    simp [idle, Pc.enqueued] at enqueued
  unfold SemState.downSection
  split
  · refine ⟨inv.nodup, inv.task, ?_, inFlight, mem, ?_⟩
    · simp only
      omega
    · push_cast
      omega
  · refine ⟨?_, taskOk_update inv.task ?_ ⟨?_, fun _ _ => .inl rfl, fun _ => ⟨rfl, rfl⟩, nofun⟩,
      inv.nonneg, inFlight, granted_update mem (fun _ _ => .rfl) ?_, total⟩
    · exact nodup_append.mpr ⟨inv.nodup, nodup_singleton t, fun u linked w last => by
        rw [mem_singleton.mp last]
        exact fun same => unlinked (same ▸ linked)⟩
    · intro u other linked
      simpa [other] using linked
    · intro k is
      obtain rfl := some.inj is
      exact .inl ⟨rfl, rfl, rfl⟩
    · simp [mem, Task.Granted, idle]

theorem TokenInv.finishSection (returning : (s.tasks t).pc = .returning kind) :
    TokenInv v (s.finishSection t kind) := by
  obtain ⟨inFlight, mem, total⟩ := inv.tokens
  have before := inv.task t
  have unlinked : t ∉ s.queue := fun linked => by
    have enqueued := (before.ungranted linked).2
    simp [returning, Pc.enqueued] at enqueued
  have idleOk : TaskOk { s.tasks t with pc := .idle } (t ∈ s.queue) :=
    ⟨nofun, nofun, fun linked => absurd linked unlinked, nofun⟩
  obtain ungranted | granted := before.flags kind (by rw [returning]; rfl)
  · have failed : ¬ (if (s.tasks t).wakeupFlags ≠ kind.waitState then (s.tasks t).wakeupFlags
        else 0) = 0 := by
      rw [ungranted, if_pos kind.waitState_ne_interrupted.symm]
      decide
    have noToken : ¬ (s.tasks t).Granted := fun granted => granted.2 ungranted
    have noTokenLeft : ¬ Task.Granted { s.tasks t with pc := .idle } := fun granted => granted.1 rfl
    simp only [SemState.finishSection, if_neg failed]
    cases kind <;>
      exact inv.retask t { s.tasks t with pc := .idle } rfl (Sublist.refl _) rfl rfl rfl idleOk
        (iff_of_false noTokenLeft noToken)
  · have inside : t ∈ inFlight := (mem t).mpr
      ⟨by rw [returning]; exact nofun, by rw [granted]; exact kind.waitState_ne_interrupted⟩
    have succeeded : (if (s.tasks t).wakeupFlags ≠ kind.waitState then (s.tasks t).wakeupFlags
        else 0) = 0 := if_neg (not_not.mpr granted)
    simp only [SemState.finishSection, if_pos succeeded, setTask]
    refine ⟨inv.nodup, taskOk_update inv.task (fun _ _ linked => linked) idleOk, inv.nonneg,
      inFlight.erase t, granted_update mem ?_ ?_, ?_⟩
    · intro u other
      simp [other]
    · simp [Task.Granted]
    · have positive : 0 < inFlight.card := Finset.card_pos.mpr ⟨t, inside⟩
      simp only [Finset.card_erase_of_mem inside]
      omega

/-- A task that moves to another program counter of the same call. -/
theorem TokenInv.move {pc : Pc}
    (before : (s.tasks t).pc.kind = some kind) (after : pc.kind = some kind)
    (enqueued : pc.enqueued = true)
    (notAwake : (s.tasks t).proc.state = .sleeping → pc.awake = false)
    (withdrawn : ∀ k, pc = .withdrawing k → (s.tasks t).wakeupFlags = wtInterrupted) :
    TokenInv v (s.setTask t { s.tasks t with pc := pc }) := by
  have ok := inv.task t
  refine inv.retask t { s.tasks t with pc := pc } rfl (List.Sublist.refl _) rfl rfl rfl
    ⟨fun k is => ?_, fun k is => ?_, fun linked => ⟨(ok.ungranted linked).1, enqueued⟩, withdrawn⟩ ?_
  · obtain rfl := Option.some.inj (after.symm.trans is)
    obtain ⟨asleep, published, -⟩ | woken := ok.parked kind before
    · exact .inl ⟨asleep, published, notAwake asleep⟩
    · exact .inr woken
  · obtain rfl := Option.some.inj (after.symm.trans is)
    exact ok.flags kind before
  · have idle : ∀ {p : Pc}, p.kind = some kind → p ≠ .idle := by
      rintro p is rfl
      cases is
    simp [Task.Granted, idle before, idle after]

theorem step_tokenInv {s' : SemState} {l : SemLabel} (cond : s.TokenCond l)
    (taken : s.step l = some s') : TokenInv v s' := by
  unfold step at taken
  split at taken
  · cases taken
  cases l with (simp only at taken; try split at taken) <;> try cases taken
  | down t kind =>
    rename_i idle
    exact inv.downSection idle kind
  | tryDown =>
    first
    | exact inv
    | obtain ⟨inFlight, mem, total⟩ := inv.tokens
      refine ⟨inv.nodup, inv.task, ?_, inFlight, mem, ?_⟩
      · simp only
        omega
      · push_cast
        omega
  | up => exact inv.upSection cond
  | recheck t =>
    rename_i kind pc
    have before : (s.tasks t).pc.kind = some kind := by rw [pc]; rfl
    split at taken <;> obtain rfl := some.inj taken <;>
      exact inv.move before rfl rfl (fun _ => rfl) nofun
  | selfWake t =>
    rename_i kind pc
    have ok := inv.task t
    have before : (s.tasks t).pc.kind = some kind := by rw [pc]; rfl
    refine inv.retask t _ rfl (Sublist.refl _) rfl rfl rfl
      ⟨fun k is => ?_, fun _ _ => .inl cond, fun _ => ⟨cond, rfl⟩, fun _ _ => cond⟩ ?_
    · exact .inr (wakeup_parked (ok.parked kind before))
    · exact iff_of_false (fun granted => granted.2 cond) (fun granted => granted.2 cond)
  | withdraw t =>
    rename_i kind pc
    have ungranted := (inv.task t).withdrawn kind pc
    refine inv.retask t { s.tasks t with pc := .idle } rfl erase_sublist rfl rfl rfl
      ⟨nofun, nofun, fun linked => ?_, nofun⟩ ?_
    · exact absurd linked inv.nodup.not_mem_erase
    · exact iff_of_false (fun granted => granted.1 rfl) (fun granted => granted.2 ungranted)
  | resume t =>
    rename_i kind pc
    obtain ⟨runnable, ⟨⟩⟩ := ite_none_right_eq_some.mp taken
    have before : (s.tasks t).pc.kind = some kind := by rw [pc]; rfl
    refine inv.move before rfl rfl (fun asleep => ?_) nofun
    rw [asleep] at runnable
    cases runnable
  | waitCurrentDel t =>
    rename_i kind pc
    have ok := inv.task t
    have before : (s.tasks t).pc.kind = some kind := by rw [pc]; rfl
    refine inv.retask t { s.tasks t with pc := .returning kind } rfl erase_sublist rfl rfl
      rfl ⟨fun k is => ?_, fun k is => ?_, fun linked => ?_, nofun⟩ ?_
    · obtain ⟨-, -, awake⟩ | woken := ok.parked kind before
      · rw [pc] at awake
        cases awake
      · exact .inr woken
    · obtain rfl := some.inj is
      exact ok.flags kind before
    · exact absurd linked inv.nodup.not_mem_erase
    · simp [Task.Granted, pc]
  | finish t =>
    rename_i kind pc
    exact inv.finishSection pc
  | wake t | stray t =>
    exact inv.retask t _ rfl (Sublist.refl _) rfl rfl rfl (inv.task t).wakeup .rfl
  | kill t signo =>
    have ok := inv.task t
    refine inv.retask t { s.tasks t with proc := ((s.tasks t).proc.doKillSignal signo).1 } rfl
      (Sublist.refl _) rfl rfl rfl (ok.withProc fun kind waits => ?_) .rfl
    exact doKillSignal_parked (ok.parked kind waits) signo
  | other t proc =>
    rename_i idle
    refine inv.retask t { s.tasks t with proc := proc } rfl (Sublist.refl _) rfl rfl rfl
      ((inv.task t).withProc fun kind waits => ?_) .rfl
    rw [idle] at waits
    cases waits

end

/-- In every run in which no task withdraws with a granted token and the counter
    does not overflow, the tokens add up whenever the semaphore is quiescent. -/
theorem tokens_conserved (v : Int) (nonneg : 0 ≤ v) (procs : Nat → Proc) (labels : List SemLabel)
    (s : SemState) (run : runFrom step (semInit v procs) labels = some s)
    (cond : Along step TokenCond (semInit v procs) labels) (quiet : s.Quiescent) :
    s.value + s.taken = v + s.ups := by
  have inv : TokenInv v s :=
    runFrom_invariant (fun _ _ _ inv cond taken => step_tokenInv inv cond taken)
      (tokenInv_init nonneg procs) cond run
  obtain ⟨inFlight, mem, total⟩ := inv.tokens
  have none : inFlight = ∅ := by
    refine Finset.eq_empty_of_forall_notMem fun t inside => ?_
    obtain ⟨waiting, granted⟩ := (mem t).mp inside
    obtain idle | ⟨-, linked⟩ := quiet.2 t
    · exact waiting idle
    · exact granted ((inv.task t).ungranted linked).1
  simpa [none] using total

/-- One waiter is granted a token while another one is interrupted. -/
def grantAndSignal : List SemLabel :=
  [.down 1 .downInterruptible, .down 2 .downInterruptible, .kill 1 15, .recheck 1, .selfWake 1,
    .up, .wake 2, .wake 1, .withdraw 1, .recheck 2, .resume 2, .waitCurrentDel 2, .finish 2]

theorem tokens_conserved_grantAndSignal :
    ∃ s, runFrom step (semInit 0 fun _ => {}) grantAndSignal = some s ∧ s.Quiescent ∧
      s.value + s.taken = 0 + s.ups := by
  have quiet : ∀ s, runFrom step (semInit 0 fun _ => {}) grantAndSignal = some s →
      s.Quiescent := by
    rintro _ ⟨⟩
    refine ⟨rfl, fun t => .inl ?_⟩
    match t with
    | 0 | 1 | 2 => rfl
    | t + 3 => rfl
  exact ⟨_, rfl, quiet _ rfl,
    tokens_conserved 0 le_rfl (fun _ => {}) grantAndSignal _ rfl (by decide) (quiet _ rfl)⟩

/-- An `up` reaches the waiter, and then a signal, before it checks its signals:
    the waiter returns interrupted and the token is lost. -/
theorem granted_token_lost :
    ∃ s, runFrom step (semInit 0 fun _ => {}) [.down 1 .downInterruptible, .up, .kill 1 15,
        .recheck 1, .selfWake 1, .withdraw 1, .wake 1, .wake 1] = some s ∧
      s.Quiescent ∧ s.value = 0 ∧ s.taken = 0 ∧ s.ups = 1 := by
  refine ⟨_, rfl, ⟨rfl, fun t => .inl ?_⟩, rfl, rfl, rfl⟩
  match t with
  | 0 | 1 => rfl
  | t + 2 => rfl

/-- In no interleaving with signals does a task stay in the queue beside a free token. -/
theorem queued_without_token {v : Int} {procs : Nat → Proc} {labels : List SemLabel} {s : SemState}
    (run : runFrom step (semInit v procs) labels = some s) : s.queue = [] ∨ s.value ≤ 0 := by
  have keep (s : SemState) l t (h : s.queue = [] ∨ s.value ≤ 0) (taken : s.step l = some t) :
      t.queue = [] ∨ t.value ≤ 0 := by
    cases l with
    | up => grind [step, upSection, popWaiter, popWaiter_none]
    | finish u =>
      have same kind : (s.finishSection u kind).queue = s.queue ∧
          (s.finishSection u kind).value = s.value := by
        fun_cases finishSection <;> exact ⟨rfl, rfl⟩
      grind [step]
    | _ => grind [step, downSection, setTask]
  exact runFrom_always keep (.inl rfl) run

theorem queued_without_token_waiting : ∃ s, runFrom step (semInit 1 fun _ => {})
    [.down 1 .down, .down 2 .down] = some s ∧ s.queue = [2] ∧ (s.queue = [] ∨ s.value ≤ 0) :=
  exists_run_test _ (by decide +kernel) fun _ run here => ⟨here, queued_without_token run⟩

end SemState

end Procore.Sync
