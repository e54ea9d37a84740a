import Procore.Lib.Run
import Procore.Schedule.Stride

/-! # Context switches on several CPUs

Between the section of `schedule` that chooses `next` and the point in
`switch_to` where the registers of the outgoing process are saved, a CPU still
runs on the outgoing process. That process may already sit on a run queue,
with `on_cpu` still set until `proc_switch_complete`. `schedule` and
`sched_steal` do not look at `on_cpu` when they pick, so another CPU can be
given the process while the first one has not saved it.
-/

namespace Procore.Schedule

open Procore.Lib Procore.Process Sched
open Function (update update_of_ne update_self)

/-- Where a CPU stands in a context switch. -/
inductive Phase where
  | running
  /-- `schedule` chose `next`; `proc_run` has not begun. -/
  | dispatched (next : ProcId)
  /-- `current` is `next` already, the registers of `prev` are not saved. -/
  | switching (prev : ProcId)
  /-- The registers of `prev` are saved; `proc_switch_complete` comes next. -/
  | saved (prev : ProcId)
  deriving DecidableEq, Repr

structure Cpu where
  current : ProcId
  phase : Phase := .running
  deriving DecidableEq, Repr

/-- The process whose registers are live on the CPU. -/
def Cpu.executing (cpu : Cpu) : ProcId :=
  match cpu.phase with
  | .switching prev => prev
  | .running | .dispatched _ | .saved _ => cpu.current

/-- The process last chosen as `next`. -/
def Cpu.chosen (cpu : Cpu) : ProcId :=
  match cpu.phase with
  | .dispatched next => next
  | .running | .switching _ | .saved _ => cpu.current

/-- The scheduler and its CPUs. `wakes` holds the `wakeup_proc` calls that
    `proc_switch_complete` and signal senders have still to make, `enqueues` the
    second sections of `wakeup_proc`. -/
structure Smp where
  sched : Sched
  cpus : Nat → Cpu
  wakes : List ProcId := []
  enqueues : List ProcId := []

/-- Every CPU runs its idle process; the tasks are not started yet. -/
def smpInit (ncpu : Nat) (parent : Nat → Option ProcId) (mask priority stride : Nat → UInt32) :
    Smp :=
  { sched :=
      { ncpu := ncpu
        procs := fun
          | .idle cpu => { state := .runnable, needResched := true, cpu := cpu, onCpu := true }
          | .task pid =>
            { parent := parent pid
              cpuMask := mask pid
              priority := priority pid
              stride := stride pid } }
    cpus := fun cpu => { current := .idle cpu } }

inductive SmpLabel where
  | schedule (cpu : Nat)
  /-- `proc_run` up to the call of `switch_to`. -/
  | procRun (cpu : Nat)
  /-- `switch_to` up to the change of stacks. -/
  | saveContext (cpu : Nat)
  | procSwitchComplete (cpu : Nat)
  | forkret (cpu : Nat)
  /-- The first section of `wakeup_proc`. -/
  | wakeup (p : ProcId)
  /-- The second one, in `sched_enqueue_proc`. -/
  | enqueue (p : ProcId)
  | kill (p : ProcId) (signo : Nat)
  | setaffinity (p : ProcId) (mask : UInt32)
  | balance
  /-- The running process goes to sleep or exits. -/
  | setState (cpu : Nat) (state : ProcState) (waitState : UInt32)
  /-- The running process stops itself. -/
  | stop (cpu : Nat)
  | setPriority (cpu : Nat) (priority : UInt32)
  | tick (cpu : Nat)

namespace Smp

def setCpu (s : Smp) (c : Nat) (cpu : Cpu) : Smp :=
  { s with cpus := update s.cpus c cpu }

def modifyProc (s : Smp) (p : ProcId) (f : SchedProc → SchedProc) : Smp :=
  { s with sched := s.sched.setProc p f }

def scheduleOn (s : Smp) (c : Nat) : Smp :=
  let prev := (s.cpus c).current
  match s.sched.schedule c prev with
  | (next, sched) =>
    let s := { s with sched := sched }
    if next ≠ prev then s.setCpu c { current := prev, phase := .dispatched next } else s

/-- `proc_switch_complete`: give up the outgoing process, and wake it again if a
    wakeup came while `on_cpu` was set. -/
def switchComplete (s : Smp) (c : Nat) (prev : ProcId) : Smp :=
  let proc := s.sched.procs prev
  let requeue := proc.state == .runnable && proc.rq == none && !proc.onRq
  let parent := match proc.parent with
    | some parent =>
      if proc.state == .zombie && (s.sched.procs parent).waitState == wtChild then [parent]
      else []
    | none => []
  { (s.modifyProc prev fun proc => { proc with onCpu := false }).setCpu c
      { current := (s.cpus c).current } with
    wakes := parent ++ (if requeue then [prev] else []) ++ s.wakes }

/-- The first section of `wakeup_proc`. -/
def wakeupSection (s : Smp) (p : ProcId) : Smp :=
  let proc := s.sched.procs p
  let enqueue := proc.state != .stopped &&
    ((proc.state != .runnable && proc.state != .zombie) ||
      (proc.state == .runnable && !proc.onCpu && !proc.onRq && proc.rq == none))
  { s.modifyProc p fun proc => { proc with toProc := proc.toProc.wakeup } with
    wakes := s.wakes.erase p
    enqueues := if enqueue then p :: s.enqueues else s.enqueues }

/-- `do_kill_signal` under `proc_lock`. -/
def killSection (s : Smp) (p : ProcId) (signo : Nat) : Smp :=
  let old := s.sched.procs p
  let killed := old.toProc.doKillSignal signo
  let resched := old.state != .zombie && old.onCpu &&
    (signalShouldInterrupt killed.1.signal ||
      (old.state == .stopped && (signo == sigcont || signo == sigkill)))
  { s.modifyProc p fun old =>
      { old with toProc := killed.1, needResched := old.needResched || resched } with
    wakes := if killed.2 then p :: s.wakes else s.wakes }

/-- `stride_proc_tick`. -/
def procTick (proc : SchedProc) : SchedProc :=
  { proc with
    timeSlice := proc.timeSlice - 1
    needResched := proc.needResched || proc.timeSlice ≤ 1 }

def step (s : Smp) : SmpLabel → Option Smp
  | .schedule c =>
    if c < s.sched.ncpu ∧ (s.cpus c).phase = .running then some (s.scheduleOn c) else none
  | .procRun c =>
    match s.cpus c with
    | ⟨prev, .dispatched next⟩ => some (s.setCpu c { current := next, phase := .switching prev })
    | _ => none
  | .saveContext c =>
    match s.cpus c with
    | ⟨current, .switching prev⟩ =>
      some (s.setCpu c { current := current, phase := .saved prev })
    | _ => none
  | .procSwitchComplete c =>
    match (s.cpus c).phase with
    | .saved prev => some (s.switchComplete c prev)
    | _ => none
  | .forkret c =>
    if (s.cpus c).phase = .running then
      some (s.modifyProc (s.cpus c).current fun proc => { proc with onCpu := true })
    else none
  | .wakeup p => if p.schedIsIdle then none else some (s.wakeupSection p)
  | .enqueue p =>
    if p ∈ s.enqueues then
      some { s with sched := s.sched.schedEnqueueProcLocked p, enqueues := s.enqueues.erase p }
    else none
  | .kill p signo =>
    if signalNumberValid signo && !p.schedIsIdle then some (s.killSection p signo) else none
  | .setaffinity p mask => some { s with sched := s.sched.schedSetaffinityLocked p mask }
  | .balance => some { s with sched := s.sched.schedBalance }
  | .setState c state waitState =>
    if (s.cpus c).phase = .running ∧ !(s.cpus c).current.schedIsIdle then
      some (s.modifyProc (s.cpus c).current fun proc =>
        { proc with state := state, waitState := waitState })
    else none
  | .stop c =>
    if (s.cpus c).phase = .running then
      some { s with sched := s.sched.schedStopLocked (s.cpus c).current }
    else none
  | .setPriority c priority =>
    some (s.modifyProc (s.cpus c).current fun proc =>
      { proc with priority := if priority = 0 then 1 else priority })
  | .tick c => some (s.modifyProc (s.cpus c).current procTick)

/-- No process is chosen while its registers are live on another CPU, and no
    process runs on two CPUs. -/
structure Exclusive (s : Smp) : Prop where
  dispatch : ∀ c d, c ≠ d → (s.cpus c).chosen ≠ (s.cpus d).executing
  execution : ∀ c d, c ≠ d → (s.cpus c).executing ≠ (s.cpus d).executing

/-- The condition on a step: when a CPU enters `schedule`, every queued process
    that may run on it has given up its own CPU. -/
def PickCond (s : Smp) : SmpLabel → Prop
  | .schedule c => ∀ d < s.sched.ncpu, ∀ p ∈ (s.sched.rqs d).pool.toList,
      schedCpuAllowed (s.sched.procs p) c = true → (s.sched.procs p).onCpu = false
  | _ => True

instance (s : Smp) : ∀ l, Decidable (s.PickCond l)
  | .schedule c => inferInstanceAs (Decidable (∀ d < s.sched.ncpu,
      ∀ p ∈ (s.sched.rqs d).pool.toList,
        schedCpuAllowed (s.sched.procs p) c = true → (s.sched.procs p).onCpu = false))
  | .procRun _ | .saveContext _ | .procSwitchComplete _ | .forkret _ | .wakeup _ | .enqueue _
  | .kill _ _ | .setaffinity _ _ | .balance | .setState _ _ _ | .stop _ | .setPriority _ _
  | .tick _ => isTrue trivial

end Smp

/-! ## Who holds a process -/

/-- The process in the other half of a context switch. -/
def Phase.partner : Phase → Option ProcId
  | .running => none
  | .dispatched p | .switching p | .saved p => some p

/-- The CPU runs the process, is about to, or has not given it up yet. -/
def Cpu.Holds (cpu : Cpu) (p : ProcId) : Prop := cpu.current = p ∨ cpu.phase.partner = some p

theorem Cpu.holds_executing (cpu : Cpu) : cpu.Holds cpu.executing := by
  obtain ⟨current, phase⟩ := cpu
  cases phase with
  | switching prev => exact .inr rfl
  | running | dispatched _ | saved _ => exact .inl rfl

theorem Cpu.holds_chosen (cpu : Cpu) : cpu.Holds cpu.chosen := by
  obtain ⟨current, phase⟩ := cpu
  cases phase with
  | dispatched next => exact .inr rfl
  | running | switching _ | saved _ => exact .inl rfl

namespace Smp

/-- A process is held by one CPU at most, with `on_cpu` set, an idle process by its
    own CPU only, and idle processes are never queued. -/
structure HoldInv (s : Smp) : Prop where
  onCpu : ∀ c p, (s.cpus c).Holds p → (s.sched.procs p).onCpu = true
  unique : ∀ c d p, (s.cpus c).Holds p → (s.cpus d).Holds p → c = d
  idle : ∀ c d, (s.cpus c).Holds (.idle d) → c = d
  distinct : ∀ c, (s.cpus c).phase.partner ≠ some (s.cpus c).current
  pools : ∀ d p, p ∈ (s.sched.rqs d).pool.toList → p.schedIsIdle = false

theorem holdInv_init (ncpu : Nat) (parent : Nat → Option ProcId)
    (mask priority stride : Nat → UInt32) : HoldInv (smpInit ncpu parent mask priority stride) where
  onCpu := by
    rintro c p (rfl | partner)
    · rfl
    · cases partner
  unique := by
    rintro c d p (rfl | partner) (same | partner')
    · exact (ProcId.idle.inj same).symm
    · cases partner'
    · cases partner
    · cases partner
  idle := by
    rintro c d (same | partner)
    · exact ProcId.idle.inj same
    · cases partner
  distinct := fun c => nofun
  pools := fun d p => nofun

variable {s : Smp}

theorem HoldInv.exclusive (inv : HoldInv s) : Exclusive s where
  dispatch c d other same :=
    other (inv.unique c d _ (s.cpus c).holds_chosen (same ▸ (s.cpus d).holds_executing))
  execution c d other same :=
    other (inv.unique c d _ (s.cpus c).holds_executing (same ▸ (s.cpus d).holds_executing))

theorem HoldInv.queued (inv : HoldInv s) {sched : Sched} (source : ∀ d x, x ∈ (sched.rqs d).pool.toList →
      (∃ e, x ∈ (s.sched.rqs e).pool.toList) ∨ x.schedIsIdle = false) :
    ∀ d p, p ∈ (sched.rqs d).pool.toList → p.schedIsIdle = false := by
  intro d p mem
  obtain ⟨e, old⟩ | task := source d p mem
  · exact inv.pools e p old
  · exact task

variable {s' : Smp}

section

variable (inv : HoldInv s)
include inv

theorem HoldInv.withSched (cpus : s'.cpus = s.cpus) (moves : s.sched.Moves s'.sched) :
    HoldInv s' where
  onCpu c p holds := (moves.onCpu p).trans (inv.onCpu c p (cpus ▸ holds))
  unique c d p first second := inv.unique c d p (cpus ▸ first) (cpus ▸ second)
  idle c d holds := inv.idle c d (cpus ▸ holds)
  distinct c := by
    rw [cpus]
    exact inv.distinct c
  pools := inv.queued moves.pools

/-- One CPU changes what it holds: each process it holds now it held before, or is
    its own idle process, or is a task that was on no CPU. -/
theorem HoldInv.setCpu (c : Nat) (cpu : Cpu) (cpus : s'.cpus = update s.cpus c cpu)
    (source : ∀ p, cpu.Holds p → (s.cpus c).Holds p ∨ p = .idle c ∨
      ((s.sched.procs p).onCpu = false ∧ p.schedIsIdle = false))
    (on : ∀ p, cpu.Holds p → (s'.sched.procs p).onCpu = true)
    (keeps : ∀ d p, d ≠ c → (s.cpus d).Holds p → (s'.sched.procs p).onCpu = true)
    (distinct : cpu.phase.partner ≠ some cpu.current)
    (pools : ∀ d x, x ∈ (s'.sched.rqs d).pool.toList →
      (∃ e, x ∈ (s.sched.rqs e).pool.toList) ∨ x.schedIsIdle = false) : HoldInv s' := by
  -- nobody else holds what this CPU holds now
  have alone : ∀ d p, d ≠ c → cpu.Holds p → ¬ (s.cpus d).Holds p := by
    intro d p other mine theirs
    obtain old | rfl | ⟨off, -⟩ := source p mine
    · exact other (inv.unique d c p theirs old)
    · exact other (inv.idle d c theirs)
    · exact Bool.false_ne_true (off.symm.trans (inv.onCpu d p theirs))
  refine ⟨fun d p => ?_, fun d e p => ?_, fun d e => ?_, fun d => ?_, inv.queued pools⟩ <;> rw [cpus]
  · by_cases same : d = c
    · subst same
      rw [update_self]
      exact on p
    · rw [update_of_ne same]
      exact keeps d p same
  · by_cases first : d = c <;> by_cases second : e = c
    · exact fun _ _ => first.trans second.symm
    · subst first
      rw [update_self, update_of_ne second]
      exact fun mine theirs => absurd theirs (alone e p second mine)
    · subst second
      rw [update_self, update_of_ne first]
      exact fun theirs mine => absurd theirs (alone d p first mine)
    · rw [update_of_ne first, update_of_ne second]
      exact inv.unique d e p
  · by_cases same : d = c
    · subst same
      rw [update_self]
      intro mine
      obtain old | own | ⟨-, task⟩ := source _ mine
      · exact inv.idle d e old
      · exact (ProcId.idle.inj own).symm
      · cases task
    · rw [update_of_ne same]
      exact inv.idle d e
  · by_cases same : d = c
    · subst same
      rw [update_self]
      exact distinct
    · rw [update_of_ne same]
      exact inv.distinct d

theorem HoldInv.modifyProc (p : ProcId) {f : SchedProc → SchedProc}
    (keeps : ∀ proc, (f proc).onCpu = proc.onCpu) : HoldInv (s.modifyProc p f) :=
  inv.withSched rfl (setProc_moves s.sched p keeps)

theorem HoldInv.scheduleOn {c : Nat} (inRange : c < s.sched.ncpu)
    (cond : s.PickCond (.schedule c)) : HoldInv (s.scheduleOn c) := by
  rcases chosen : s.sched.schedule c (s.cpus c).current with ⟨next, sched⟩
  simp only [Smp.scheduleOn, chosen]
  obtain ⟨source, on, pools⟩ := schedule_spec inRange chosen
  have keeps : ∀ d p, (s.cpus d).Holds p → (sched.procs p).onCpu = true := by
    intro d p holds
    rw [on p, inv.onCpu d p holds, ite_self]
  split_ifs with switched
  · refine inv.setCpu c ⟨(s.cpus c).current, .dispatched next⟩ rfl ?_ ?_ (fun d p _ => keeps d p) ?_
      pools
    · rintro p (rfl | partner)
      · exact .inl (.inl rfl)
      · obtain rfl := Option.some.inj partner
        obtain again | idle | ⟨⟨d, below, mem⟩, allowed⟩ := source
        · exact absurd again switched
        · exact .inr (.inl idle)
        · exact .inr (.inr ⟨cond d below _ mem allowed, inv.pools d _ mem⟩)
    · rintro p (rfl | partner)
      · exact keeps c _ (.inl rfl)
      · obtain rfl := Option.some.inj partner
        exact (on _).trans (if_pos rfl)
    · exact fun same => switched (Option.some.inj same)
  · exact ⟨keeps, inv.unique, inv.idle, inv.distinct, inv.queued pools⟩

theorem HoldInv.switchComplete {c : Nat} {prev : ProcId}
    (saved : (s.cpus c).phase = .saved prev) : HoldInv (s.switchComplete c prev) := by
  have held : (s.cpus c).Holds prev := .inr (by rw [saved]; rfl)
  have keeps : ∀ p, p ≠ prev → ((s.switchComplete c prev).sched.procs p).onCpu =
      (s.sched.procs p).onCpu := by
    intro p other
    simp [Smp.switchComplete, Smp.modifyProc, Smp.setCpu, setProc,
      update_of_ne other]
  refine inv.setCpu c ⟨(s.cpus c).current, .running⟩ rfl ?_ ?_ ?_ (Option.some_ne_none _).symm ?_
  · rintro p (rfl | partner)
    · exact .inl (.inl rfl)
    · cases partner
  · rintro p (rfl | partner)
    · have other : (s.cpus c).current ≠ prev := by
        rintro rfl
        exact inv.distinct c (by rw [saved]; rfl)
      rw [keeps _ other]
      exact inv.onCpu c _ (.inl rfl)
    · cases partner
  · intro d p other holds
    have notPrev : p ≠ prev := by
      rintro rfl
      exact other (inv.unique d c p holds held)
    rw [keeps p notPrev]
    exact inv.onCpu d p holds
  · exact fun d x mem => .inl ⟨d, mem⟩

theorem step_holdInv {l : SmpLabel} (cond : s.PickCond l) (taken : s.step l = some s') :
    HoldInv s' := by
  cases l with (simp only [step] at taken; try split at taken) <;> try cases taken
  | schedule c =>
    rename_i ready
    exact inv.scheduleOn ready.1 cond
  | procRun c =>
    rename_i prev next before
    have holds : ∀ p, Cpu.Holds ⟨next, .switching prev⟩ p → (s.cpus c).Holds p := by
      rw [before]
      rintro p (rfl | partner)
      · exact .inr rfl
      · exact .inl (Option.some.inj partner)
    refine inv.setCpu c ⟨next, .switching prev⟩ rfl (fun p mine => .inl (holds p mine))
      (fun p mine => inv.onCpu c p (holds p mine)) (fun d p _ => inv.onCpu d p) ?_
      fun d x mem => .inl ⟨d, mem⟩
    intro same
    have distinct := inv.distinct c
    rw [before] at distinct
    exact distinct same.symm
  | saveContext c =>
    rename_i current prev before
    have holds : ∀ p, Cpu.Holds ⟨current, .saved prev⟩ p → (s.cpus c).Holds p := by
      rw [before]
      exact fun p mine => mine
    refine inv.setCpu c ⟨current, .saved prev⟩ rfl (fun p mine => .inl (holds p mine))
      (fun p mine => inv.onCpu c p (holds p mine)) (fun d p _ => inv.onCpu d p) ?_
      fun d x mem => .inl ⟨d, mem⟩
    have distinct := inv.distinct c
    rwa [before] at distinct
  | procSwitchComplete c =>
    rename_i prev saved
    exact inv.switchComplete saved
  | forkret c =>
    refine ⟨fun d p holds => ?_, inv.unique, inv.idle, inv.distinct, inv.pools⟩
    by_cases same : p = (s.cpus c).current
    · subst same
      simp [Smp.modifyProc, setProc]
    · simpa [Smp.modifyProc, setProc, update_of_ne same] using inv.onCpu d p holds
  | wakeup p =>
    refine inv.withSched rfl ?_
    simp only [wakeupSection, Smp.modifyProc]
    exact setProc_moves s.sched p (by exact fun _ => rfl)
  | enqueue p =>
    exact inv.withSched rfl (schedEnqueueProcLocked_moves s.sched p)
  | kill p signo =>
    refine inv.withSched rfl ?_
    simp only [killSection, Smp.modifyProc]
    exact setProc_moves s.sched p (by exact fun _ => rfl)
  | setaffinity p mask =>
    exact inv.withSched rfl (schedSetaffinityLocked_moves s.sched p mask)
  | balance =>
    exact inv.withSched rfl (schedBalance_moves s.sched)
  | setState c state waitState | setPriority c priority | tick c =>
    exact inv.modifyProc _ fun _ => rfl
  | stop c =>
    exact inv.withSched rfl (schedStopLocked_moves s.sched _)

end

/-- In every run in which each `schedule` finds no queued process of its CPU still on
    a CPU, no process is chosen before it is saved or runs twice. -/
theorem switch_exclusive (ncpu : Nat) (parent : Nat → Option ProcId)
    (mask priority stride : Nat → UInt32) (labels : List SmpLabel) (s : Smp)
    (run : runFrom step (smpInit ncpu parent mask priority stride) labels = some s)
    (cond : Along step PickCond (smpInit ncpu parent mask priority stride) labels) :
    Exclusive s := by
  have inv : HoldInv s :=
    runFrom_invariant (fun _ _ _ inv cond taken => step_holdInv inv cond taken)
      (holdInv_init ncpu parent mask priority stride) cond run
  exact inv.exclusive

/-- Task 1 may run on both CPUs, task 2 on CPU 0 only. -/
def twoCpus : Smp :=
  smpInit 2 (fun _ => none) (fun pid => if pid = 1 then 3 else 1) (fun _ => 1) (fun _ => 0)

/-- CPU 0 runs task 1, is given task 2, and completes the switch before CPU 1 looks
    for work and steals task 1. -/
def switchThenSteal : List SmpLabel :=
  [.wakeup (.task 1), .enqueue (.task 1), .schedule 0, .procRun 0, .saveContext 0,
    .procSwitchComplete 0, .wakeup (.task 2), .enqueue (.task 2), .schedule 0, .procRun 0,
    .saveContext 0, .procSwitchComplete 0, .schedule 1, .procRun 1, .saveContext 1]

theorem switch_exclusive_switchThenSteal :
    ∃ s, runFrom step twoCpus switchThenSteal = some s ∧ (s.cpus 0).executing = .task 2 ∧
      (s.cpus 1).executing = .task 1 ∧ Exclusive s :=
  ⟨_, rfl, rfl, rfl, switch_exclusive 2 (fun _ => none) (fun pid => if pid = 1 then 3 else 1)
    (fun _ => 1) (fun _ => 0) switchThenSteal _ rfl (by decide)⟩

/-- The same steal between the choice of task 2 and the save of task 1: both CPUs run
    task 1. -/
theorem stolen_before_saved :
    ∃ s, runFrom step twoCpus [.wakeup (.task 1), .enqueue (.task 1), .schedule 0, .procRun 0,
        .saveContext 0, .procSwitchComplete 0, .wakeup (.task 2), .enqueue (.task 2), .schedule 0,
        .schedule 1, .procRun 1, .saveContext 1] = some s ∧
      (s.cpus 0).executing = .task 1 ∧ (s.cpus 1).executing = .task 1 ∧ ¬ Exclusive s :=
  ⟨_, rfl, rfl, rfl, fun exclusive => exclusive.execution 0 1 (by decide) rfl⟩

end Smp

end Procore.Schedule
