import Procore.Schedule.Queues
import Procore.Schedule.Smp

/-! # Where the processes are

A runnable task is in the hands of a CPU, on one run queue, or on its way to one. An enqueue that
finds `on_cpu` set is dropped, and so is a wakeup: `proc_switch_complete` looks again after it has
cleared the flag.
-/

namespace Procore.Schedule

open Procore.Lib Procore.Process Sched Option

/-- The mask allows a CPU that is online. -/
def MaskOnline (ncpu : Nat) (mask : UInt32) : Prop :=
  ∃ cpu < ncpu, cpu < 32 ∧ mask &&& (1 <<< UInt32.ofNat cpu) ≠ 0

instance (ncpu : Nat) (mask : UInt32) : Decidable (MaskOnline ncpu mask) :=
  inferInstanceAs (Decidable (∃ cpu < ncpu, cpu < 32 ∧ mask &&& (1 <<< UInt32.ofNat cpu) ≠ 0))

theorem Cpu.Holds.cases {cpu : Cpu} {p : ProcId} (holds : cpu.Holds p) :
    cpu.executing = p ∨ cpu.chosen = p ∨ cpu.phase = .saved p := by
  obtain ⟨current, phase⟩ := cpu
  cases phase <;> simp_all [Cpu.Holds, Cpu.executing, Cpu.chosen, Phase.partner, or_comm]

namespace Smp

/-- An affinity mask is set only if it allows a CPU that is online. -/
def MaskCond (s : Smp) : SmpLabel → Prop
  | .setaffinity _ mask => MaskOnline s.sched.ncpu mask
  | _ => True

instance (s : Smp) : ∀ l, Decidable (s.MaskCond l)
  | .setaffinity _ mask => inferInstanceAs (Decidable (MaskOnline s.sched.ncpu mask))
  | .schedule _ | .procRun _ | .saveContext _ | .procSwitchComplete _ | .forkret _ | .wakeup _
  | .enqueue _ | .kill _ _ | .balance | .setState _ _ _ | .stop _ | .setPriority _ _
  | .tick _ => isTrue trivial

/-- The process is on its way to a run queue: a CPU has still to complete the switch away from it, or a
    wakeup of it has a section to come. -/
def Enqueueing (s : Smp) (p : ProcId) : Prop :=
  (∃ c, (s.cpus c).phase = .saved p) ∨ p ∈ s.wakes ∨ p ∈ s.enqueues

/-- What holds of the run queues and the processes between two sections. -/
structure Consistent (s : Smp) : Prop where
  /-- A process is in one heap at most, and once. -/
  once : ∀ p d e, p ∈ (s.sched.rqs d).pool.toList → p ∈ (s.sched.rqs e).pool.toList → d = e
  nodup : ∀ d, (s.sched.rqs d).pool.toList.Nodup
  rq : ∀ p d, (s.sched.procs p).rq = some d ↔ p ∈ (s.sched.rqs d).pool.toList
  onRq : ∀ p, (s.sched.procs p).onRq = true ↔ ∃ d, p ∈ (s.sched.rqs d).pool.toList
  procNum : ∀ d, (s.sched.rqs d).procNum = (s.sched.rqs d).pool.toList.length
  allowed : ∀ d, ∀ p ∈ (s.sched.rqs d).pool.toList,
    d < s.sched.ncpu ∧ schedCpuAllowed (s.sched.procs p) d = true
  /-- `schedule` gives a CPU to its idle process or to a process that may run there. -/
  dispatch : ∀ c < s.sched.ncpu, ∀ next, (s.sched.schedule c (s.cpus c).current).1 = next →
    next = .idle c ∨ schedCpuAllowed (s.sched.procs next) c = true
  /-- No runnable task is left behind. -/
  placed : ∀ pid, (s.sched.procs (.task pid)).state = .runnable →
    (∃ c, (s.cpus c).executing = .task pid ∨ (s.cpus c).chosen = .task pid) ∨
    (s.sched.procs (.task pid)).onRq = true ∨ s.Enqueueing (.task pid)

/-! ## The invariant -/

def Held (s : Smp) (p : ProcId) : Prop := ∃ c, (s.cpus c).Holds p

def Placed (s : Smp) (p : ProcId) : Prop :=
  s.Held p ∨ (s.sched.procs p).rq ≠ none ∨ p ∈ s.wakes ∨ p ∈ s.enqueues

/-- What the invariant asks of one task. -/
structure Fits (s : Smp) (p : ProcId) : Prop where
  mask : MaskOnline s.sched.ncpu (s.sched.procs p).cpuMask
  held : (s.sched.procs p).onCpu = true → s.Held p
  placed : (s.sched.procs p).state = .runnable → s.Placed p

structure Inv (s : Smp) : Prop where
  queued : s.sched.Queued
  fits : ∀ pid, s.Fits (.task pid)

theorem maskOnline_iff {ncpu : Nat} {proc : SchedProc} :
    MaskOnline ncpu proc.cpuMask ↔ ∃ cpu < ncpu, schedCpuAllowed proc cpu = true := by
  simp [MaskOnline, schedCpuAllowed]

variable {s t : Smp} {p : ProcId}

/-- Only `p` changes, and nobody else loses a holder or a wakeup. -/
theorem Inv.update (inv : s.Inv) (queued : t.sched.Queued)
    (ncpu : t.sched.ncpu = s.sched.ncpu) (others : ∀ q, q ≠ p → t.sched.procs q = s.sched.procs q)
    (holds : ∀ q, q ≠ p → s.Held q → t.Held q) (wakes : ∀ q, q ≠ p → q ∈ s.wakes → q ∈ t.wakes)
    (enqueues : ∀ q, q ≠ p → q ∈ s.enqueues → q ∈ t.enqueues)
    (fits : ∀ pid, p = .task pid → s.Fits p → t.Fits p) : t.Inv := by
  refine ⟨queued, fun pid => ?_⟩
  rcases eq_or_ne (.task pid) p with same | ne
  · exact same ▸ fits pid same.symm (same ▸ inv.fits pid)
  obtain ⟨mask, held, placed⟩ := inv.fits pid
  refine ⟨by rwa [ncpu, others _ ne], fun on => ?_, fun runnable => ?_⟩
  · exact holds _ ne (held (by rwa [others _ ne] at on))
  · rcases placed (by rwa [others _ ne] at runnable) with old | old | old | old
    · exact .inl (holds _ ne old)
    · exact .inr (.inl (by rwa [others _ ne]))
    · exact .inr (.inr (.inl (wakes _ ne old)))
    · exact .inr (.inr (.inr (enqueues _ ne old)))

variable {c : Nat}

/-- The process that `schedule` chooses, and what it changes. -/
theorem Inv.chosen (inv : s.Inv) {prev next : ProcId} {sched : Sched} (inRange : c < s.sched.ncpu)
    (chosen : s.sched.schedule c prev = (next, sched)) : ∃ mid,
      mid.Queued ∧ Touches s.sched mid prev ∧ sched.Queued ∧ sched.ncpu = mid.ncpu ∧
      (∀ q, q ≠ next → sched.procs q = mid.procs q) ∧
      (sched.procs next).cpuMask = (mid.procs next).cpuMask ∧
      (next = .idle c ∨ schedCpuAllowed (s.sched.procs next) c = true) := by
  obtain ⟨queued, touch⟩ := inv.queued.requeuePrev inRange prev
  refine ⟨_, queued, touch, ?_⟩
  unfold schedule at chosen
  split at chosen
  rename_i t picked
  cases chosen
  rcases queued.pickNext picked with ⟨idle, rfl⟩ | taken
  · refine ⟨queued.setProc next fun _ => ⟨rfl, rfl, rfl⟩, rfl, fun q => setProc_others _ _, ?_, .inl idle⟩
    rw [setProc_procs]
  refine ⟨taken.queued.setProc next fun _ => ⟨rfl, rfl, rfl⟩, taken.touches.ncpu, fun q ne => ?_, ?_, .inr ?_⟩
  · rw [setProc_others _ _ ne, taken.touches.others q ne]
  · rw [setProc_procs]
    exact taken.touches.mask
  · rw [← touch.allowed]
    exact taken.allowed

theorem Inv.consistent (inv : s.Inv) : s.Consistent := by
  refine ⟨fun p d e first second => ?_, inv.queued.nodup, fun p d => (inv.queued.member p d).symm, fun p => ?_,
    inv.queued.count, fun d p on => ?_, fun c inRange next same => ?_, fun pid runnable => ?_⟩
  · rw [inv.queued.member] at first second
    exact some.inj (first.symm.trans second)
  · rw [inv.queued.flag, isSome_iff_exists]
    exact exists_congr fun d => (inv.queued.member p d).symm
  · exact (inv.queued.place p d ((inv.queued.member p d).mp on)).2
  · obtain ⟨_, _, _, _, _, _, _, source⟩ := inv.chosen inRange (Prod.ext same rfl)
    exact source
  · rcases (inv.fits pid).placed runnable with ⟨c, holds⟩ | on | woken | going
    · rcases holds.cases with here | here | here
      · exact .inl ⟨c, .inl here⟩
      · exact .inl ⟨c, .inr here⟩
      · exact .inr (.inr (.inl ⟨c, here⟩))
    · refine .inr (.inl ?_)
      rw [inv.queued.flag]
      exact isSome_iff_ne_none.mpr on
    · exact .inr (.inr (.inr (.inl woken)))
    · exact .inr (.inr (.inr (.inr going)))

/-! ## The steps -/

theorem Held.update {q : ProcId} (held : s.Held q) (c : Nat) (cpu : Cpu)
    (cpus : t.cpus = Function.update s.cpus c cpu) (keeps : (s.cpus c).Holds q → cpu.Holds q) : t.Held q := by
  obtain ⟨d, holds⟩ := held
  refine ⟨d, ?_⟩
  rcases eq_or_ne d c with rfl | ne
  · rw [cpus, Function.update_self]
    exact keeps holds
  · rwa [cpus, Function.update_of_ne ne]

theorem Held.fits (held : s.Held p) (mask : MaskOnline s.sched.ncpu (s.sched.procs p).cpuMask) : s.Fits p :=
  ⟨mask, fun _ => held, fun _ => .inl held⟩

section

variable (inv : s.Inv)
include inv

theorem Inv.setCpu {cpu : Cpu} (keeps : ∀ q, (s.cpus c).Holds q → cpu.Holds q) :
    (s.setCpu c cpu).Inv :=
  inv.update (p := .idle c) inv.queued rfl (fun _ _ => rfl) (fun q _ held => held.update c cpu rfl (keeps q))
    (fun _ _ mem => mem) (fun _ _ mem => mem) nofun

/-- The process that a CPU holds changes, but not its mask. -/
theorem Inv.heldProc {sched : Sched} (held : s.Held p)
    (queued : sched.Queued) (ncpu : sched.ncpu = s.sched.ncpu)
    (others : ∀ q, q ≠ p → sched.procs q = s.sched.procs q)
    (mask : (sched.procs p).cpuMask = (s.sched.procs p).cpuMask) : Inv { s with sched := sched } := by
  refine inv.update queued ncpu others (fun q _ old => old) (fun _ _ mem => mem) (fun _ _ mem => mem) ?_
  intro pid _ fits
  refine Held.fits held ?_
  rw [ncpu, mask]
  exact fits.mask

theorem Inv.scheduleOn (inRange : c < s.sched.ncpu)
    (running : (s.cpus c).phase = .running) : (s.scheduleOn c).Inv := by
  rcases chosen : s.sched.schedule c (s.cpus c).current with ⟨next, sched⟩
  obtain ⟨mid, midQueued, touch, queued, ncpu, others, mask, -⟩ := inv.chosen inRange chosen
  have held : s.Held (s.cpus c).current := ⟨c, .inl rfl⟩
  have half : Inv { s with sched := mid } :=
    inv.heldProc held midQueued touch.ncpu touch.others touch.mask
  simp only [Smp.scheduleOn, chosen]
  split_ifs with again
  · -- The CPU holds both processes until the switch is complete.
    refine half.update queued ncpu others (fun q _ old => ?_) (fun _ _ mem => mem)
      (fun _ _ mem => mem) fun pid _ fits => ?_
    · refine old.update c ⟨(s.cpus c).current, .dispatched next⟩ rfl fun holds => ?_
      rcases holds with here | partner
      · exact .inl here
      · rw [running] at partner
        cases partner
    · refine Held.fits ⟨c, ?_⟩ ?_
      · simp [Smp.setCpu, Cpu.Holds, Phase.partner]
      · have old := fits.mask
        rw [← ncpu, ← mask] at old
        exact old
  · obtain rfl : next = (s.cpus c).current := by simpa using again
    exact half.heldProc held queued ncpu others mask

variable {f : SchedProc → SchedProc}

/-- One process changes, but not its place nor its mask. -/
theorem Inv.modify (sched : t.sched = s.sched.setProc p f)
    (keeps : ∀ proc, (f proc).rq = proc.rq ∧ (f proc).onRq = proc.onRq ∧ (f proc).cpuMask = proc.cpuMask)
    (holds : ∀ q, q ≠ p → s.Held q → t.Held q) (wakes : ∀ q, q ≠ p → q ∈ s.wakes → q ∈ t.wakes)
    (enqueues : ∀ q, q ≠ p → q ∈ s.enqueues → q ∈ t.enqueues)
    (held : s.Fits p → (f (s.sched.procs p)).onCpu = true → t.Held p)
    (placed : s.Fits p → (f (s.sched.procs p)).state = .runnable → t.Placed p) : t.Inv := by
  have here : t.sched.procs p = f (s.sched.procs p) := by rw [sched, setProc_procs]
  refine inv.update ?_ (by rw [sched]; rfl) (fun q ne => ?_) holds wakes enqueues fun pid _ fits => ⟨?_, ?_, ?_⟩
  · rw [sched]
    exact inv.queued.setProc p keeps
  · rw [sched, setProc_others _ _ ne]
  · rw [here, (keeps _).2.2, sched]
    exact fits.mask
  · rw [here]
    exact held fits
  · rw [here]
    exact placed fits

/-- The process a CPU runs changes, but not its place nor its mask. -/
theorem Inv.modifyCurrent (keeps : ∀ proc, (f proc).rq = proc.rq ∧ (f proc).onRq = proc.onRq ∧ (f proc).cpuMask = proc.cpuMask) :
    (s.modifyProc (s.cpus c).current f).Inv :=
  inv.modify rfl keeps (fun _ _ old => old) (fun _ _ mem => mem) (fun _ _ mem => mem)
    (fun _ _ => ⟨c, .inl rfl⟩) fun _ _ => .inl ⟨c, .inl rfl⟩

theorem Inv.switchComplete {prev : ProcId} (saved : (s.cpus c).phase = .saved prev) :
    (s.switchComplete c prev).Inv := by
  have sched : (s.switchComplete c prev).sched =
      s.sched.setProc prev fun proc => { proc with onCpu := false } := rfl
  refine inv.modify sched (fun _ => ⟨rfl, rfl, rfl⟩) (fun q ne old => ?_) (fun q _ mem => ?_) (fun _ _ mem => mem)
    (fun _ => nofun) fun fits runnable => ?_
  · refine old.update c ⟨(s.cpus c).current, .running⟩ rfl fun holds => ?_
    rcases holds with here | partner
    · exact .inl here
    · rw [saved] at partner
      exact absurd (some.inj partner).symm ne
  · simp only [Smp.switchComplete, List.mem_append]
    exact .inr mem
  · -- The flag is clear now: the process is queued, or is woken again.
    have before : (s.sched.procs prev).state = .runnable := runnable
    cases off : (s.sched.procs prev).rq with
    | some d => exact .inr (.inl (by simp [Smp.switchComplete, Smp.modifyProc, Smp.setCpu, off]))
    | none => exact .inr (.inr (.inl (by simp [Smp.switchComplete, before, off, inv.queued.flag])))

theorem Inv.wakeupSection (p : ProcId) : (s.wakeupSection p).Inv := by
  have sched : (s.wakeupSection p).sched =
      s.sched.setProc p fun proc => { proc with toProc := proc.toProc.wakeup } := rfl
  refine inv.modify sched (fun _ => ⟨rfl, rfl, rfl⟩) (fun _ _ old => old)
    (fun q ne mem => (List.mem_erase_of_ne ne).mpr mem) (fun q _ mem => ?_) (fun fits => fits.held) ?_
  · simp only [Smp.wakeupSection]
    split
    · exact .tail _ mem
    · exact mem
  · intro fits runnable
    by_cases on : (s.sched.procs p).onCpu = true
    · exact .inl (fits.held on)
    cases off : (s.sched.procs p).rq with
    | some d => exact .inr (.inl (by simp [Smp.wakeupSection, Smp.modifyProc, off]))
    | none =>
      -- Nobody has the process: the second section is to come.
      refine .inr (.inr (.inr ?_))
      cases state : (s.sched.procs p).state <;>
        simp_all [Smp.wakeupSection, Proc.wakeup, inv.queued.flag]

theorem Inv.killSection (p : ProcId) (signo : Nat) : (s.killSection p signo).Inv := by
  obtain ⟨resched, sched⟩ : ∃ resched, (s.killSection p signo).sched = s.sched.setProc p fun old =>
      { old with
        toProc := ((s.sched.procs p).toProc.doKillSignal signo).1
        needResched := old.needResched || resched } := ⟨_, rfl⟩
  have wakes : ∀ q, q ∈ s.wakes → q ∈ (s.killSection p signo).wakes := by
    intro q mem
    simp only [Smp.killSection]
    split
    · exact .tail _ mem
    · exact mem
  refine inv.modify sched (fun _ => ⟨rfl, rfl, rfl⟩) (fun _ _ old => old) (fun q _ => wakes q) (fun _ _ mem => mem)
    (fun fits => fits.held) fun fits runnable => ?_
  rcases Proc.doKillSignal_runnable runnable with woken | before
  · refine .inr (.inr (.inl ?_))
    simp [Smp.killSection, woken]
  rcases fits.placed before with old | old | old | old
  · exact .inl old
  · refine .inr (.inl ?_)
    rw [sched, setProc_procs]
    exact old
  · exact .inr (.inr (.inl (wakes p old)))
  · exact .inr (.inr (.inr old))

theorem Inv.setaffinity {mask : UInt32} (p : ProcId) (online : MaskOnline s.sched.ncpu mask) :
    Inv { s with sched := s.sched.schedSetaffinityLocked p mask } := by
  obtain ⟨flag, same⟩ := s.sched.schedSetaffinityLocked_eq p mask
  have touch := (reaffine_touches (s.sched.setProc p fun proc => { proc with cpuMask := mask }) p).trans
    (setProc_touches _ p (f := fun proc => { proc with needResched := flag }) fun _ => ⟨rfl, rfl, rfl⟩)
  rw [← same] at touch
  refine inv.update (p := p) ?_ touch.ncpu (fun q ne => ?_) (fun _ _ old => old) (fun _ _ mem => mem)
    (fun _ _ mem => mem) ?_
  · rw [same]
    exact (inv.queued.reaffine p).setProc p (f := fun proc => { proc with needResched := flag })
      fun _ => ⟨rfl, rfl, rfl⟩
  · rw [touch.others q ne, setProc_others _ _ ne]
  rintro pid rfl fits
  have after := touch.mask
  have on := touch.onCpu
  have state := touch.state
  rw [setProc_procs] at after on state
  refine ⟨?_, fun run => fits.held (on ▸ run), fun runnable => ?_⟩
  · rw [after, touch.ncpu]
    exact online
  have before : (s.sched.procs (.task pid)).state = .runnable := state ▸ runnable
  rcases fits.placed before with old | old | old | old
  · exact .inl old
  · by_cases run : (s.sched.procs (.task pid)).onCpu = true
    · exact .inl (fits.held run)
    refine .inr (.inl ?_)
    obtain ⟨d, inRange, ok⟩ : ∃ d < s.sched.ncpu,
        schedCpuAllowed { s.sched.procs (.task pid) with cpuMask := mask } d = true := maskOnline_iff.mp online
    rw [same, setProc_procs]
    exact inv.queued.reaffine_queued inRange ok before (by simpa using run) old
  · exact .inr (.inr (.inl old))
  · exact .inr (.inr (.inr old))

theorem Inv.step {l : SmpLabel} (cond : s.MaskCond l) (taken : s.step l = some t) : t.Inv := by
  cases l with
  | schedule c =>
    obtain ⟨⟨inRange, running⟩, ⟨⟩⟩ := ite_none_right_eq_some.mp taken
    exact inv.scheduleOn inRange running
  | procRun c =>
    simp only [Smp.step] at taken
    split at taken
    · rename_i before
      cases taken
      refine inv.setCpu fun q holds => ?_
      rw [before] at holds
      exact holds.elim (fun here => .inr (congrArg some here)) fun here => .inl (some.inj here)
    · cases taken
  | saveContext c =>
    simp only [Smp.step] at taken
    split at taken
    · rename_i before
      cases taken
      refine inv.setCpu fun q holds => ?_
      rwa [before] at holds
    · cases taken
  | procSwitchComplete c =>
    simp only [Smp.step] at taken
    split at taken
    · rename_i saved
      cases taken
      exact inv.switchComplete saved
    · cases taken
  | forkret c | setState c state waitState =>
    obtain ⟨_, ⟨⟩⟩ := ite_none_right_eq_some.mp taken
    exact inv.modifyCurrent fun _ => ⟨rfl, rfl, rfl⟩
  | wakeup p =>
    obtain ⟨_, ⟨⟩⟩ := ite_none_left_eq_some.mp taken
    exact inv.wakeupSection p
  | enqueue p =>
    obtain ⟨_, ⟨⟩⟩ := ite_none_right_eq_some.mp taken
    have touch := schedEnqueueProcLocked_touches s.sched p
    refine inv.update (inv.queued.enqueueProc p) touch.ncpu touch.others (fun _ _ old => old)
      (fun _ _ mem => mem) (fun q ne mem => (List.mem_erase_of_ne ne).mpr mem) ?_
    rintro pid rfl fits
    refine ⟨?_, fun on => fits.held (touch.onCpu ▸ on), fun runnable => ?_⟩
    · rw [touch.mask, touch.ncpu]
      exact fits.mask
    · by_cases on : (s.sched.procs (.task pid)).onCpu = true
      · exact .inl (fits.held on)
      · obtain ⟨d, inRange, ok⟩ := maskOnline_iff.mp fits.mask
        exact .inr (.inl (inv.queued.enqueueProc_queued inRange ok (touch.state ▸ runnable) (by simpa using on)))
  | kill p signo =>
    obtain ⟨_, ⟨⟩⟩ := ite_none_right_eq_some.mp taken
    exact inv.killSection p signo
  | setaffinity p mask =>
    cases taken
    exact inv.setaffinity p cond
  | balance =>
    cases taken
    obtain ⟨queued, same | ⟨p, touch, on⟩⟩ := inv.queued.balance
    · rwa [same]
    refine inv.update queued touch.ncpu touch.others (fun _ _ old => old) (fun _ _ mem => mem)
      (fun _ _ mem => mem) fun pid _ fits => ⟨?_, fun run => fits.held (touch.onCpu ▸ run), fun _ => .inr (.inl on)⟩
    rw [touch.mask, touch.ncpu]
    exact fits.mask
  | stop c =>
    obtain ⟨_, ⟨⟩⟩ := ite_none_right_eq_some.mp taken
    obtain ⟨ncpu, others, mask⟩ := s.sched.schedStopLocked_spec (s.cpus c).current
    exact inv.heldProc ⟨c, .inl rfl⟩ (inv.queued.stop _) ncpu others mask
  | setPriority c priority | tick c =>
    cases taken
    exact inv.modifyCurrent fun _ => ⟨rfl, rfl, rfl⟩

end

theorem inv_init {ncpu : Nat} {mask : Nat → UInt32} (parent : Nat → Option ProcId)
    (priority stride : Nat → UInt32) (online : ∀ pid, MaskOnline ncpu (mask pid)) :
    (smpInit ncpu parent mask priority stride).Inv := by
  refine ⟨⟨fun d => List.nodup_nil, fun p d => ?_, fun p => ?_, fun d => rfl, fun p d on => ?_⟩, fun pid => ?_⟩
  · cases p <;> simp [smpInit, SkewHeap.toList]
  · cases p <;> rfl
  · cases p <;> cases on
  · exact ⟨online pid, by simp [smpInit], by simp [smpInit]⟩

/-- In every run the run queues agree with the fields of the processes, a CPU is given only what may run
    there, and no runnable task is left behind. -/
theorem sched_consistent (ncpu : Nat) (parent : Nat → Option ProcId) (mask priority stride : Nat → UInt32)
    (online : ∀ pid, MaskOnline ncpu (mask pid)) (labels : List SmpLabel) (s : Smp)
    (run : runFrom step (smpInit ncpu parent mask priority stride) labels = some s)
    (masks : Along step MaskCond (smpInit ncpu parent mask priority stride) labels) : s.Consistent := by
  have inv : s.Inv := runFrom_invariant (fun _ _ _ inv cond taken => inv.step cond taken)
    (inv_init parent priority stride online) masks run
  exact inv.consistent

/-- CPU 1 steals task 1 while CPU 0 switches away from it. CPU 0 then wakes the task again, which is queued
    although CPU 1 runs it; its new mask takes it to the queue of CPU 0. -/
def stealAndMove : List SmpLabel :=
  [.wakeup (.task 1), .enqueue (.task 1), .schedule 0, .procRun 0, .saveContext 0, .procSwitchComplete 0,
    .wakeup (.task 2), .enqueue (.task 2), .schedule 0, .schedule 1, .procRun 1, .procRun 0, .saveContext 1,
    .saveContext 0, .procSwitchComplete 1, .procSwitchComplete 0, .wakeup (.task 1), .enqueue (.task 1),
    .setaffinity (.task 1) 1, .balance]

theorem sched_consistent_stealAndMove : ∃ s, runFrom step twoCpus stealAndMove = some s ∧
    (s.cpus 1).executing = .task 1 ∧ (s.sched.procs (.task 1)).rq = some 0 ∧ s.Consistent := by
  have online : ∀ pid : Nat, MaskOnline 2 (if pid = 1 then 3 else 1) := by
    intro pid
    split <;> decide
  exact ⟨_, rfl, rfl, rfl, sched_consistent 2 (fun _ => none) (fun pid => if pid = 1 then 3 else 1) (fun _ => 1)
    (fun _ => 0) online stealAndMove _ rfl (by decide)⟩

end Smp

end Procore.Schedule
