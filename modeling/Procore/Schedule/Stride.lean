import Procore.Lib.SkewHeap
import Procore.Process.Proc

/-! # Run queues and the stride scheduling class

One run queue per CPU, each a skew heap of processes ordered by stride, and the
operations of `sched.c` that move a process between them. Every operation here
runs under `proc_lock`, so it is one step of the machine in `Smp`.
-/

namespace Procore.Schedule

open Procore.Lib Procore.Process
open Function

/-- A process: the idle process of a CPU, which has pid 0, or a task. -/
inductive ProcId where
  | idle (cpu : Nat)
  | task (pid : Nat)
  deriving DecidableEq, Repr

def ProcId.schedIsIdle : ProcId → Bool
  | .idle _ => true
  | .task _ => false

/-- The fields of `struct proc_struct` that the scheduler reads and writes. -/
structure SchedProc extends Proc where
  parent : Option ProcId := none
  rq : Option Nat := none
  onRq : Bool := false
  onCpu : Bool := false
  cpu : Nat := 0
  cpuMask : UInt32 := 0
  needResched : Bool := false
  timeSlice : Nat := 0
  runs : Nat := 0
  stride : UInt32 := 0
  priority : UInt32 := 0

/-- `struct run_queue`; its CPU is its index. -/
structure RunQueue where
  pool : SkewHeap ProcId := .nil
  procNum : Nat := 0
  maxTimeSlice : Nat := 5

/-- The state that `proc_lock` protects. -/
structure Sched where
  ncpu : Nat
  procs : ProcId → SchedProc
  rqs : Nat → RunQueue := fun _ => {}

def bigStride : UInt32 := 0x7FFFFFFF

/-- `proc_stride_comp_f`: the sign of the difference as an `int32_t`. -/
def strideComp (p q : UInt32) : Int :=
  let c := p - q
  if c = 0 then 0 else if c < 0x80000000 then 1 else -1

/-- `sched_cpu_allowed`, and `proc_allowed_on_cpu` for the CPUs that exist. -/
def schedCpuAllowed (proc : SchedProc) (cpu : Nat) : Bool :=
  cpu < 32 && (proc.cpuMask &&& (1 <<< UInt32.ofNat cpu)) != 0

namespace Sched

def setProc (s : Sched) (p : ProcId) (f : SchedProc → SchedProc) : Sched :=
  { s with procs := update s.procs p (f (s.procs p)) }

def setRq (s : Sched) (d : Nat) (rq : RunQueue) : Sched :=
  { s with rqs := update s.rqs d rq }

/-- The order in which the heap is kept. -/
def strideLess (s : Sched) (p q : ProcId) : Bool :=
  strideComp (s.procs p).stride (s.procs q).stride == -1

def strideEnqueue (s : Sched) (d : Nat) (p : ProcId) : Sched :=
  let rq := s.rqs d
  (s.setRq d { rq with pool := rq.pool.insert s.strideLess p, procNum := rq.procNum + 1 }).setProc p
    fun proc => { proc with
      timeSlice :=
        if proc.timeSlice = 0 ∨ rq.maxTimeSlice < proc.timeSlice then rq.maxTimeSlice
        else proc.timeSlice
      rq := some d }

def strideDequeue (s : Sched) (d : Nat) (p : ProcId) : Sched :=
  let rq := s.rqs d
  (s.setRq d { rq with pool := rq.pool.remove s.strideLess p, procNum := rq.procNum - 1 }).setProc p
    fun proc => { proc with rq := none, onRq := false }

/-- `stride_pick_next_for_cpu`: the allowed process of least stride, whose stride
    then grows. -/
def stridePickNextForCpu (s : Sched) (d cpu : Nat) : Option ProcId × Sched :=
  match (s.rqs d).pool.best s.strideLess fun p => schedCpuAllowed (s.procs p) cpu with
  | none => (none, s)
  | some p =>
    (some p, s.setProc p fun proc => { proc with
      stride := proc.stride +
        if proc.priority = 0 then bigStride else bigStride / proc.priority })

def schedClassEnqueueLocked (s : Sched) (d : Nat) (p : ProcId) : Sched :=
  if !p.schedIsIdle && (s.procs p).rq == none && !(s.procs p).onRq then
    (s.strideEnqueue d p).setProc p fun proc => { proc with rq := some d, onRq := true, cpu := d }
  else s

def schedClassDequeueLocked (s : Sched) (d : Nat) (p : ProcId) : Sched :=
  (s.strideDequeue d p).setProc p fun proc => { proc with rq := none, onRq := false }

/-- `sched_choose_cpu`: the allowed CPU of least load, the process's own on a tie. -/
def schedChooseCpu (s : Sched) (p : ProcId) : Option Nat :=
  (List.range s.ncpu).foldl (fun best i =>
    if schedCpuAllowed (s.procs p) i then
      match best with
      | none => some i
      | some b =>
        if (s.rqs i).procNum < (s.rqs b).procNum ∨
            ((s.rqs i).procNum = (s.rqs b).procNum ∧ (s.procs p).cpu = i) then some i
        else some b
    else best) none

def schedEnqueueProcLocked (s : Sched) (p : ProcId) : Sched :=
  if p.schedIsIdle then s
  else match s.schedChooseCpu p with
    | none => s
    | some cpu =>
      let proc := s.procs p
      if !proc.onCpu && !proc.onRq && proc.rq == none && proc.state == .runnable then
        s.schedClassEnqueueLocked cpu p
      else s

/-- Pick from one run queue for a CPU and take the process off it. -/
def takeNext (s : Sched) (d cpu : Nat) : Option ProcId × Sched :=
  if (s.rqs d).procNum ≠ 0 then
    match s.stridePickNextForCpu d cpu with
    | (none, s) => (none, s)
    | (some p, s) => (some p, s.schedClassDequeueLocked d p)
  else (none, s)

/-- `sched_steal`, over the queues still to be tried. -/
def schedStealFrom (s : Sched) (cpu : Nat) : List Nat → Option ProcId × Sched
  | [] => (none, s)
  | victim :: victims =>
    match s.takeNext victim cpu with
    | (some p, s) => (some p, s.setProc p fun proc => { proc with cpu := cpu })
    | (none, s) => s.schedStealFrom cpu victims

def schedSteal (s : Sched) (cpu : Nat) : Option ProcId × Sched :=
  s.schedStealFrom cpu ((List.range (s.ncpu - 1)).map fun i => (cpu + (i + 1)) % s.ncpu)

def schedSetaffinityLocked (s : Sched) (p : ProcId) (mask : UInt32) : Sched :=
  let s := s.setProc p fun proc => { proc with cpuMask := mask }
  let s := match (s.procs p).rq with
    | none => s
    | some old =>
      if (s.procs p).onRq && !schedCpuAllowed (s.procs p) old then
        let s := s.schedClassDequeueLocked old p
        if (s.procs p).state == .runnable && !(s.procs p).onCpu then s.schedEnqueueProcLocked p
        else s
      else s
  if (s.procs p).onCpu && !schedCpuAllowed (s.procs p) (s.procs p).cpu then
    s.setProc p fun proc => { proc with needResched := true }
  else s

/-- The queues `sched_balance` compares: the first of greatest and of least load. -/
def balanceEnds (s : Sched) : Option (Nat × Nat) :=
  (List.range s.ncpu).foldl (fun ends i =>
    match ends with
    | none => some (i, i)
    | some (busy, target) =>
      some (if (s.rqs busy).procNum < (s.rqs i).procNum then i else busy,
        if (s.rqs i).procNum < (s.rqs target).procNum then i else target)) none

/-- `sched_balance` under `proc_lock`. -/
def schedBalance (s : Sched) : Sched :=
  if s.ncpu < 2 then s
  else match s.balanceEnds with
    | none => s
    | some (busy, target) =>
      if busy ≠ target ∧ (s.rqs target).procNum + 1 < (s.rqs busy).procNum then
        match s.stridePickNextForCpu busy target with
        | (none, s) => s
        | (some p, s) =>
          ((s.schedClassDequeueLocked busy p).schedClassEnqueueLocked target p).setProc p
            fun proc => { proc with cpu := target }
      else s

def schedStopLocked (s : Sched) (p : ProcId) : Sched :=
  if p.schedIsIdle then s
  else
    let s := match (s.procs p).rq with
      | some d => if (s.procs p).onRq then s.schedClassDequeueLocked d p else s
      | none => s
    s.setProc p fun proc => { proc with state := .stopped, waitState := 0 }

/-- The part of `schedule` that puts the outgoing process back. -/
def requeuePrev (s : Sched) (cpu : Nat) (prev : ProcId) : Sched :=
  let s := s.setProc prev fun proc => { proc with needResched := false }
  let proc := s.procs prev
  if proc.state == .runnable && !prev.schedIsIdle && schedCpuAllowed proc cpu &&
      proc.rq == none && !proc.onRq then
    s.schedClassEnqueueLocked cpu prev
  else s

/-- The part of `schedule` that chooses `next`: the CPU's own queue, then the
    others, then the idle process. -/
def pickNext (s : Sched) (cpu : Nat) : ProcId × Sched :=
  match s.takeNext cpu cpu with
  | (some p, s) => (p, s)
  | (none, s) =>
    match s.schedSteal cpu with
    | (some p, s) => (p, s)
    | (none, s) => (.idle cpu, s)

/-- The section of `schedule` under `proc_lock`. -/
def schedule (s : Sched) (cpu : Nat) (prev : ProcId) : ProcId × Sched :=
  match (s.requeuePrev cpu prev).pickNext cpu with
  | (next, s) =>
    (next, s.setProc next fun proc =>
      { proc with cpu := cpu, runs := proc.runs + 1, onCpu := true })

/-! ## What the operations leave alone -/

/-- What moving processes between run queues does: nobody gets on or off a CPU, and
    whatever is queued was queued before or is a task. -/
structure Moves (s s' : Sched) : Prop where
  onCpu : ∀ p, (s'.procs p).onCpu = (s.procs p).onCpu
  pools : ∀ d x, x ∈ (s'.rqs d).pool.toList →
    (∃ e, x ∈ (s.rqs e).pool.toList) ∨ x.schedIsIdle = false

theorem Moves.refl (s : Sched) : Moves s s := ⟨fun _ => rfl, fun d _ mem => .inl ⟨d, mem⟩⟩

theorem Moves.trans {a b c : Sched} (first : Moves a b) (second : Moves b c) : Moves a c where
  onCpu p := (second.onCpu p).trans (first.onCpu p)
  pools d x mem := by
    obtain ⟨e, earlier⟩ | task := second.pools d x mem
    · exact first.pools e x earlier
    · exact .inr task

theorem setProc_moves (s : Sched) (p : ProcId) {f : SchedProc → SchedProc}
    (keeps : ∀ proc, (f proc).onCpu = proc.onCpu) : Moves s (s.setProc p f) where
  onCpu q := by
    by_cases same : q = p
    · subst same
      simp [setProc, keeps]
    · simp [setProc, update_of_ne same]
  pools d _ mem := .inl ⟨d, mem⟩

theorem setRq_moves (s : Sched) (d : Nat) (rq : RunQueue)
    (source : ∀ x ∈ rq.pool.toList, x ∈ (s.rqs d).pool.toList ∨ x.schedIsIdle = false) :
    Moves s (s.setRq d rq) where
  onCpu _ := rfl
  pools e x mem := by
    by_cases same : e = d
    · subst same
      simp only [setRq, update_self] at mem
      obtain old | task := source x mem
      · exact .inl ⟨e, old⟩
      · exact .inr task
    · simp only [setRq, update_of_ne same] at mem
      exact .inl ⟨e, mem⟩

variable {p : ProcId}

theorem strideEnqueue_moves (s : Sched) (d : Nat) (task : p.schedIsIdle = false) :
    Moves s (s.strideEnqueue d p) := by
  unfold strideEnqueue
  refine (setRq_moves s d _ ?_).trans (setProc_moves _ p (by exact fun _ => rfl))
  intro x mem
  obtain rfl | old := SkewHeap.mem_insert mem
  · exact .inr task
  · exact .inl old

theorem strideDequeue_moves (s : Sched) (d : Nat) (p : ProcId) :
    Moves s (s.strideDequeue d p) := by
  unfold strideDequeue
  refine (setRq_moves s d _ ?_).trans (setProc_moves _ p (by exact fun _ => rfl))
  exact fun x mem => .inl (SkewHeap.mem_remove mem)

theorem schedClassEnqueueLocked_moves (s : Sched) (d : Nat) (p : ProcId) :
    Moves s (s.schedClassEnqueueLocked d p) := by
  unfold schedClassEnqueueLocked
  split_ifs with fresh
  · simp only [Bool.and_eq_true, Bool.not_eq_true'] at fresh
    have task : p.schedIsIdle = false := fresh.1.1
    exact (strideEnqueue_moves s d task).trans (setProc_moves _ p fun _ => rfl)
  · exact Moves.refl s

theorem schedClassDequeueLocked_moves (s : Sched) (d : Nat) (p : ProcId) :
    Moves s (s.schedClassDequeueLocked d p) :=
  (strideDequeue_moves s d p).trans (setProc_moves _ p fun _ => rfl)

theorem schedEnqueueProcLocked_moves (s : Sched) (p : ProcId) :
    Moves s (s.schedEnqueueProcLocked p) := by
  unfold schedEnqueueProcLocked
  split
  · exact Moves.refl s
  split
  · exact Moves.refl s
  · dsimp only
    split
    · exact schedClassEnqueueLocked_moves s _ p
    · exact Moves.refl s

variable {s s' : Sched} {d cpu : Nat}

/-- A pick finds an allowed process of the queue and changes its stride only. -/
theorem stridePickNextForCpu_some (picked : s.stridePickNextForCpu d cpu = (some p, s')) :
    p ∈ (s.rqs d).pool.toList ∧ schedCpuAllowed (s.procs p) cpu = true ∧ Moves s s' := by
  unfold stridePickNextForCpu at picked
  split at picked
  · cases picked
  · rename_i found
    cases picked
    obtain ⟨mem, ok⟩ := SkewHeap.best_mem found
    exact ⟨mem, ok, setProc_moves s _ fun _ => rfl⟩

theorem stridePickNextForCpu_none (picked : s.stridePickNextForCpu d cpu = (none, s')) : s' = s := by
  unfold stridePickNextForCpu at picked
  split at picked
  · exact (Prod.mk.inj picked).2.symm
  · cases picked

theorem takeNext_some (taken : s.takeNext d cpu = (some p, s')) :
    p ∈ (s.rqs d).pool.toList ∧ schedCpuAllowed (s.procs p) cpu = true ∧ Moves s s' := by
  unfold takeNext at taken
  split at taken
  · split at taken
    · cases taken
    · rename_i picked
      cases taken
      obtain ⟨mem, ok, same⟩ := stridePickNextForCpu_some picked
      exact ⟨mem, ok, same.trans (schedClassDequeueLocked_moves _ d _)⟩
  · cases taken

theorem takeNext_none (taken : s.takeNext d cpu = (none, s')) :
    s' = s := by
  unfold takeNext at taken
  split at taken
  · split at taken
    · rename_i picked
      obtain ⟨-, rfl⟩ := Prod.mk.inj taken
      exact stridePickNextForCpu_none picked
    · cases taken
  · exact (Prod.mk.inj taken).2.symm

variable {victims : List Nat}

theorem schedStealFrom_some (stolen : s.schedStealFrom cpu victims = (some p, s')) :
    (∃ d ∈ victims, p ∈ (s.rqs d).pool.toList) ∧ schedCpuAllowed (s.procs p) cpu = true ∧
      Moves s s' := by
  induction victims generalizing s with
  | nil => cases stolen
  | cons victim victims ih =>
    rw [schedStealFrom] at stolen
    split at stolen
    · rename_i taken
      cases stolen
      obtain ⟨mem, ok, same⟩ := takeNext_some taken
      exact ⟨⟨victim, (.head _), mem⟩, ok, same.trans (setProc_moves _ _ fun _ => rfl)⟩
    · rename_i taken
      obtain rfl := takeNext_none taken
      obtain ⟨⟨d, inside, mem⟩, ok, same⟩ := ih stolen
      exact ⟨⟨d, List.mem_cons_of_mem _ inside, mem⟩, ok, same⟩

theorem schedStealFrom_none (stolen : s.schedStealFrom cpu victims = (none, s')) : s' = s := by
  induction victims generalizing s with
  | nil => exact (Prod.mk.inj stolen).2.symm
  | cons victim victims ih =>
    rw [schedStealFrom] at stolen
    split at stolen
    · cases stolen
    · rename_i taken
      obtain rfl := takeNext_none taken
      exact ih stolen

/-- The victims of a steal are CPUs. -/
theorem schedSteal_some (inRange : cpu < s.ncpu) (stolen : s.schedSteal cpu = (some p, s')) :
    (∃ d < s.ncpu, p ∈ (s.rqs d).pool.toList) ∧ schedCpuAllowed (s.procs p) cpu = true ∧
      Moves s s' := by
  obtain ⟨⟨d, inside, mem⟩, ok, same⟩ := schedStealFrom_some stolen
  obtain ⟨i, -, rfl⟩ := List.mem_map.mp inside
  exact ⟨⟨_, Nat.mod_lt _ (by omega), mem⟩, ok, same⟩

/-- `next` is the idle process or an allowed process of some run queue. -/
theorem pickNext_spec {next : ProcId} (inRange : cpu < s.ncpu) (picked : s.pickNext cpu = (next, s')) :
    (next = .idle cpu ∨ ((∃ d < s.ncpu, next ∈ (s.rqs d).pool.toList) ∧
      schedCpuAllowed (s.procs next) cpu = true)) ∧ Moves s s' := by
  unfold pickNext at picked
  split at picked
  · rename_i taken
    obtain ⟨rfl, rfl⟩ := Prod.mk.inj picked
    obtain ⟨mem, ok, same⟩ := takeNext_some taken
    exact ⟨.inr ⟨⟨cpu, inRange, mem⟩, ok⟩, same⟩
  rename_i taken
  obtain rfl := takeNext_none taken
  split at picked
  · rename_i stolen
    obtain ⟨rfl, rfl⟩ := Prod.mk.inj picked
    obtain ⟨mem, ok, same⟩ := schedSteal_some inRange stolen
    exact ⟨.inr ⟨mem, ok⟩, same⟩
  · rename_i stolen
    obtain ⟨rfl, rfl⟩ := Prod.mk.inj picked
    obtain rfl := schedStealFrom_none stolen
    exact ⟨.inl rfl, Moves.refl _⟩

theorem schedClassEnqueueLocked_cpuMask (s : Sched) (d : Nat) (p q : ProcId) :
    ((s.schedClassEnqueueLocked d p).procs q).cpuMask = (s.procs q).cpuMask := by
  unfold schedClassEnqueueLocked
  split
  · by_cases same : q = p
    · subst same
      simp [setProc, strideEnqueue, setRq]
    · simp [setProc, strideEnqueue, setRq, update_of_ne same]
  · rfl

theorem schedClassEnqueueLocked_pool {e : Nat} {x : ProcId}
    (mem : x ∈ ((s.schedClassEnqueueLocked d p).rqs e).pool.toList) :
    x = p ∨ x ∈ (s.rqs e).pool.toList := by
  unfold schedClassEnqueueLocked at mem
  split at mem
  · by_cases same : e = d
    · subst same
      simp only [setProc, strideEnqueue, setRq, update_self] at mem
      exact SkewHeap.mem_insert mem
    · simp only [setProc, strideEnqueue, setRq, update_of_ne same] at mem
      exact .inr mem
  · exact .inr mem

/-- Putting the outgoing process back adds nothing but that process. -/
theorem requeuePrev_spec (s : Sched) (cpu : Nat) (prev : ProcId) :
    (s.requeuePrev cpu prev).ncpu = s.ncpu ∧ Moves s (s.requeuePrev cpu prev) ∧
      (∀ p, ((s.requeuePrev cpu prev).procs p).cpuMask = (s.procs p).cpuMask) ∧
      ∀ d x, x ∈ ((s.requeuePrev cpu prev).rqs d).pool.toList →
        x = prev ∨ x ∈ (s.rqs d).pool.toList := by
  have cleared := setProc_moves s prev (f := fun proc => { proc with needResched := false })
    (fun _ => rfl)
  have masks : ∀ p, ((s.setProc prev fun proc => { proc with needResched := false }).procs
      p).cpuMask = (s.procs p).cpuMask := by
    intro p
    by_cases same : p = prev
    · subst same
      simp [setProc]
    · simp [setProc, update_of_ne same]
  unfold requeuePrev
  dsimp only
  split
  · refine ⟨?_, cleared.trans (schedClassEnqueueLocked_moves _ cpu prev), fun p => ?_,
      fun d x mem => ?_⟩
    · unfold schedClassEnqueueLocked
      split <;> rfl
    · rw [schedClassEnqueueLocked_cpuMask, masks]
    · obtain isPrev | old := schedClassEnqueueLocked_pool mem
      · exact .inl isPrev
      · exact .inr old
  · exact ⟨rfl, cleared, masks, fun d x mem => .inr mem⟩

/-- `schedule` gives the CPU to the outgoing process again, to the idle process, or
    to an allowed process of some run queue. That process alone gets on a CPU. -/
theorem schedule_spec {prev next : ProcId} (inRange : cpu < s.ncpu)
    (chosen : s.schedule cpu prev = (next, s')) :
    (next = prev ∨ next = .idle cpu ∨ ((∃ d < s.ncpu, next ∈ (s.rqs d).pool.toList) ∧
      schedCpuAllowed (s.procs next) cpu = true)) ∧
    (∀ p, (s'.procs p).onCpu = if p = next then true else (s.procs p).onCpu) ∧
    ∀ d x, x ∈ (s'.rqs d).pool.toList →
      (∃ e, x ∈ (s.rqs e).pool.toList) ∨ x.schedIsIdle = false := by
  obtain ⟨ncpu, kept, masks, pools⟩ := requeuePrev_spec s cpu prev
  unfold schedule at chosen
  split at chosen
  rename_i picked
  obtain ⟨rfl, rfl⟩ := Prod.mk.inj chosen
  obtain ⟨source, same⟩ := pickNext_spec (ncpu.symm ▸ inRange) picked
  refine ⟨?_, ?_, (kept.trans same).pools⟩
  · obtain idle | ⟨⟨d, below, mem⟩, ok⟩ := source
    · exact .inr (.inl idle)
    · obtain isPrev | old := pools d _ mem
      · exact .inl isPrev
      · refine .inr (.inr ⟨⟨d, ncpu ▸ below, old⟩, ?_⟩)
        simpa [schedCpuAllowed, masks] using ok
  · intro p
    split
    · rename_i isNext
      subst isNext
      simp [setProc]
    · rename_i other
      simp only [setProc, update_of_ne other]
      rw [same.onCpu p, kept.onCpu p]

theorem schedSetaffinityLocked_moves (s : Sched) (p : ProcId) (mask : UInt32) :
    Moves s (s.schedSetaffinityLocked p mask) := by
  have masked := setProc_moves s p (f := fun proc => { proc with cpuMask := mask })
    (fun _ => rfl)
  have flagged : ∀ t : Sched, Moves s t →
      Moves s (if (t.procs p).onCpu && !schedCpuAllowed (t.procs p) (t.procs p).cpu then
        t.setProc p fun proc => { proc with needResched := true } else t) := by
    intro t kept
    split
    · exact kept.trans (setProc_moves t p fun _ => rfl)
    · exact kept
  unfold schedSetaffinityLocked
  dsimp only
  apply flagged
  split
  · exact masked
  rename_i old _
  split
  · have off := masked.trans (schedClassDequeueLocked_moves _ old p)
    split
    · exact off.trans (schedEnqueueProcLocked_moves _ p)
    · exact off
  · exact masked

theorem schedBalance_moves (s : Sched) : Moves s s.schedBalance := by
  unfold schedBalance
  split
  · exact Moves.refl s
  split
  · exact Moves.refl s
  split
  · split
    · rename_i picked
      rw [stridePickNextForCpu_none picked]
      exact Moves.refl s
    · rename_i picked
      obtain ⟨-, -, same⟩ := stridePickNextForCpu_some picked
      exact same.trans (((schedClassDequeueLocked_moves _ _ _).trans
        (schedClassEnqueueLocked_moves _ _ _)).trans (setProc_moves _ _ fun _ => rfl))
  · exact Moves.refl s

theorem schedStopLocked_moves (s : Sched) (p : ProcId) :
    Moves s (s.schedStopLocked p) := by
  have stopped : ∀ t : Sched, Moves s t → Moves s
      (t.setProc p fun proc => { proc with state := .stopped, waitState := 0 }) :=
    fun t kept => kept.trans (setProc_moves t p fun _ => rfl)
  unfold schedStopLocked
  split
  · exact Moves.refl s
  apply stopped
  split
  · split
    · exact schedClassDequeueLocked_moves s _ p
    · exact Moves.refl s
  · exact Moves.refl s

end Sched

end Procore.Schedule
