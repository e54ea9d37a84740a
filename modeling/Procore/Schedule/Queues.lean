import Procore.Schedule.Stride

/-! # Run queues and the fields that name them

A process on a run queue is in the heap of that queue, in its `rq` field and in its `on_rq` flag, and
counts in `proc_num`. Every operation of the scheduler changes these together, for one process.
-/

namespace Procore.Schedule

open Procore.Lib Procore.Process
open Function (update update_of_ne update_self)

namespace Sched

/-- The heaps and the fields agree, and a queued process is a task on a CPU that its mask allows. -/
structure Queued (s : Sched) : Prop where
  nodup : ∀ d, (s.rqs d).pool.toList.Nodup
  member : ∀ p d, p ∈ (s.rqs d).pool.toList ↔ (s.procs p).rq = some d
  flag : ∀ p, (s.procs p).onRq = (s.procs p).rq.isSome
  count : ∀ d, (s.rqs d).procNum = (s.rqs d).pool.toList.length
  place : ∀ p d, (s.procs p).rq = some d →
    p.schedIsIdle = false ∧ d < s.ncpu ∧ schedCpuAllowed (s.procs p) d = true

/-- Only `p` changes, and keeps its state, its CPU flag and its mask. -/
structure Touches (s t : Sched) (p : ProcId) : Prop where
  ncpu : t.ncpu = s.ncpu
  others : ∀ q, q ≠ p → t.procs q = s.procs q
  state : (t.procs p).state = (s.procs p).state
  onCpu : (t.procs p).onCpu = (s.procs p).onCpu
  mask : (t.procs p).cpuMask = (s.procs p).cpuMask

theorem Touches.refl (s : Sched) (p : ProcId) : Touches s s p := ⟨rfl, fun _ _ => rfl, rfl, rfl, rfl⟩

variable {p : ProcId}

theorem Touches.trans {a b c : Sched} (first : Touches a b p) (second : Touches b c p) :
    Touches a c p where
  ncpu := second.ncpu.trans first.ncpu
  others q ne := (second.others q ne).trans (first.others q ne)
  state := second.state.trans first.state
  onCpu := second.onCpu.trans first.onCpu
  mask := second.mask.trans first.mask

theorem Touches.allowed {s t : Sched} (touch : Touches s t p) (q : ProcId) (d : Nat) :
    schedCpuAllowed (t.procs q) d = schedCpuAllowed (s.procs q) d := by
  rcases eq_or_ne q p with rfl | ne
  · simp only [schedCpuAllowed, touch.mask]
  · rw [touch.others q ne]

@[simp] theorem setProc_procs (s : Sched) (p : ProcId) (f : SchedProc → SchedProc) :
    (s.setProc p f).procs p = f (s.procs p) := update_self ..

theorem setProc_others (s : Sched) {q : ProcId} (f : SchedProc → SchedProc) (ne : q ≠ p) :
    (s.setProc p f).procs q = s.procs q := update_of_ne ne ..

variable {f : SchedProc → SchedProc}

theorem setProc_touches (s : Sched) (p : ProcId)
    (keeps : ∀ proc, (f proc).state = proc.state ∧ (f proc).onCpu = proc.onCpu ∧
      (f proc).cpuMask = proc.cpuMask) : Touches s (s.setProc p f) p where
  ncpu := rfl
  others _ ne := s.setProc_others f ne
  state := by rw [setProc_procs, (keeps _).1]
  onCpu := by rw [setProc_procs, (keeps _).2.1]
  mask := by rw [setProc_procs, (keeps _).2.2]

theorem setRq_touches (s : Sched) (d : Nat) (rq : RunQueue) (p : ProcId) : Touches s (s.setRq d rq) p :=
  ⟨rfl, fun _ _ => rfl, rfl, rfl, rfl⟩

section

variable {s t : Sched} {p : ProcId} {d cpu : Nat}

/-- One process and one queue change together. -/
theorem Queued.change {rq : RunQueue} (h : s.Queued) (ncpu : t.ncpu = s.ncpu)
    (rqs : t.rqs = update s.rqs d rq) (others : ∀ q, q ≠ p → t.procs q = s.procs q)
    (nodup : rq.pool.toList.Nodup) (count : rq.procNum = rq.pool.toList.length)
    (member : ∀ q, q ∈ rq.pool.toList ↔ (t.procs q).rq = some d)
    (apart : ∀ e, e ≠ d → ((t.procs p).rq = some e ↔ (s.procs p).rq = some e))
    (flag : (t.procs p).onRq = (t.procs p).rq.isSome) (place : ∀ e, (t.procs p).rq = some e →
      p.schedIsIdle = false ∧ e < s.ncpu ∧ schedCpuAllowed (t.procs p) e = true) : t.Queued := by
  refine ⟨fun e => ?_, fun q e => ?_, fun q => ?_, fun e => ?_, fun q e on => ?_⟩
  · rcases eq_or_ne e d with rfl | ne
    · rwa [rqs, update_self]
    · rw [rqs, update_of_ne ne]
      exact h.nodup e
  · rcases eq_or_ne e d with rfl | ne
    · rw [rqs, update_self, member]
    rw [rqs, update_of_ne ne, h.member]
    rcases eq_or_ne q p with rfl | other
    · exact (apart e ne).symm
    · rw [others q other]
  · rcases eq_or_ne q p with rfl | ne
    · exact flag
    · rw [others q ne]
      exact h.flag q
  · rcases eq_or_ne e d with rfl | ne
    · rw [rqs, update_self, count]
    · rw [rqs, update_of_ne ne]
      exact h.count e
  · rw [ncpu]
    rcases eq_or_ne q p with rfl | ne
    · exact place e on
    · rw [others q ne] at on ⊢
      exact h.place q e on

/-- A change of one process that leaves its place alone. -/
theorem Queued.quiet (h : s.Queued) (ncpu : t.ncpu = s.ncpu) (rqs : t.rqs = s.rqs)
    (others : ∀ q, q ≠ p → t.procs q = s.procs q) (rq : (t.procs p).rq = (s.procs p).rq)
    (onRq : (t.procs p).onRq = (s.procs p).onRq)
    (ok : ∀ d, (s.procs p).rq = some d → schedCpuAllowed (t.procs p) d = true) : t.Queued := by
  have same (q : ProcId) : (t.procs q).rq = (s.procs q).rq := by
    rcases eq_or_ne q p with rfl | ne
    · exact rq
    · rw [others q ne]
  refine h.change ncpu (rqs.trans (Function.update_eq_self 0 s.rqs).symm) others (h.nodup 0) (h.count 0)
    (fun q => ?_) (fun _ _ => by rw [rq]) (by rw [onRq, rq, h.flag]) fun e on => ?_
  · rw [same, h.member]
  · rw [rq] at on
    obtain ⟨task, inRange, -⟩ := h.place p e on
    exact ⟨task, inRange, ok e on⟩

/-- A change of one process that leaves its place and its mask alone. -/
theorem Queued.setProc (h : s.Queued) (p : ProcId)
    (keeps : ∀ proc, (f proc).rq = proc.rq ∧ (f proc).onRq = proc.onRq ∧ (f proc).cpuMask = proc.cpuMask) :
    (s.setProc p f).Queued := by
  refine h.quiet rfl rfl (fun q => s.setProc_others f) (by rw [setProc_procs, (keeps _).1])
    (by rw [setProc_procs, (keeps _).2.1]) fun d on => ?_
  rw [setProc_procs, schedCpuAllowed, (keeps _).2.2]
  exact (h.place p d on).2.2

/-- One process enters a queue. -/
theorem Queued.put {rq : RunQueue} (h : s.Queued) (ncpu : t.ncpu = s.ncpu)
    (rqs : t.rqs = update s.rqs d rq) (pool : rq.pool.toList.Perm (p :: (s.rqs d).pool.toList))
    (count : rq.procNum = (s.rqs d).procNum + 1) (others : ∀ q, q ≠ p → t.procs q = s.procs q)
    (free : (s.procs p).rq = none) (here : (t.procs p).rq = some d) (flag : (t.procs p).onRq = true)
    (task : p.schedIsIdle = false) (inRange : d < s.ncpu)
    (ok : schedCpuAllowed (t.procs p) d = true) : t.Queued := by
  have off : p ∉ (s.rqs d).pool.toList := by
    rw [h.member, free]
    simp
  refine h.change ncpu rqs others ?_ ?_ (fun q => ?_) (fun e ne => ?_) (by rw [flag, here]; rfl) fun e on => ?_
  · exact pool.nodup_iff.mpr (List.nodup_cons.mpr ⟨off, h.nodup d⟩)
  · rw [count, h.count, pool.length_eq]
    rfl
  · rw [pool.mem_iff, List.mem_cons, h.member]
    rcases eq_or_ne q p with rfl | ne
    · simp [here]
    · simp [others q ne, ne]
  · simp [here, free, ne.symm]
  · obtain rfl : d = e := Option.some.inj (here.symm.trans on)
    exact ⟨task, inRange, ok⟩

/-- One process leaves its queue. -/
theorem Queued.drop {rq : RunQueue} (h : s.Queued) (ncpu : t.ncpu = s.ncpu)
    (rqs : t.rqs = update s.rqs d rq) (pool : rq.pool.toList.Perm ((s.rqs d).pool.toList.erase p))
    (count : rq.procNum = (s.rqs d).procNum - 1) (others : ∀ q, q ≠ p → t.procs q = s.procs q)
    (on : (s.procs p).rq = some d) (gone : (t.procs p).rq = none) (flag : (t.procs p).onRq = false) :
    t.Queued := by
  have inside : p ∈ (s.rqs d).pool.toList := (h.member p d).mpr on
  refine h.change ncpu rqs others (pool.nodup_iff.mpr ((h.nodup d).erase p)) ?_ (fun q => ?_) (fun e ne => ?_)
    (by rw [flag, gone]; rfl) fun e now => ?_
  · rw [count, h.count, pool.length_eq, List.length_erase_of_mem inside]
  · rw [pool.mem_iff, (h.nodup d).mem_erase_iff, h.member]
    rcases eq_or_ne q p with rfl | ne
    · simp [gone]
    · simp [others q ne, ne]
  · simp [gone, on, ne.symm]
  · rw [gone] at now
    cases now

/-! ## The operations -/

theorem strideEnqueue_touches (s : Sched) (d : Nat) (p : ProcId) : Touches s (s.strideEnqueue d p) p := by
  unfold strideEnqueue
  exact (setRq_touches s d _ p).trans (setProc_touches _ p (by exact fun _ => ⟨rfl, rfl, rfl⟩))

theorem strideDequeue_touches (s : Sched) (d : Nat) (p : ProcId) : Touches s (s.strideDequeue d p) p := by
  unfold strideDequeue
  exact (setRq_touches s d _ p).trans (setProc_touches _ p (by exact fun _ => ⟨rfl, rfl, rfl⟩))

theorem schedClassEnqueueLocked_touches (s : Sched) (d : Nat) (p : ProcId) :
    Touches s (s.schedClassEnqueueLocked d p) p := by
  unfold schedClassEnqueueLocked
  split
  · exact (strideEnqueue_touches s d p).trans (setProc_touches _ p fun _ => ⟨rfl, rfl, rfl⟩)
  · exact Touches.refl s p

theorem schedClassDequeueLocked_touches (s : Sched) (d : Nat) (p : ProcId) :
    Touches s (s.schedClassDequeueLocked d p) p :=
  (strideDequeue_touches s d p).trans (setProc_touches _ p fun _ => ⟨rfl, rfl, rfl⟩)

theorem Queued.enqueue (h : s.Queued) (task : p.schedIsIdle = false) (free : (s.procs p).rq = none)
    (inRange : d < s.ncpu) (ok : schedCpuAllowed (s.procs p) d = true) :
    (s.schedClassEnqueueLocked d p).Queued ∧ ((s.schedClassEnqueueLocked d p).procs p).rq = some d := by
  have touch := schedClassEnqueueLocked_touches s d p
  have guard : (!p.schedIsIdle && (s.procs p).rq == none && !(s.procs p).onRq) = true := by
    simp [task, free, h.flag]
  rw [← touch.allowed] at ok
  have others := touch.others
  rw [schedClassEnqueueLocked, if_pos guard] at ok others ⊢
  refine ⟨h.put rfl rfl (SkewHeap.insert_perm ..) rfl others free ?_ ?_ task inRange ok, ?_⟩ <;>
    rw [setProc_procs]

theorem Queued.dequeue (h : s.Queued) (on : (s.procs p).rq = some d) :
    (s.schedClassDequeueLocked d p).Queued ∧ ((s.schedClassDequeueLocked d p).procs p).rq = none := by
  have others := (schedClassDequeueLocked_touches s d p).others
  unfold schedClassDequeueLocked at others ⊢
  refine ⟨h.drop rfl rfl (SkewHeap.remove_perm ..) rfl others on ?_ ?_, ?_⟩ <;> rw [setProc_procs]

theorem schedChooseCpu_some (chosen : s.schedChooseCpu p = some cpu) :
    cpu < s.ncpu ∧ schedCpuAllowed (s.procs p) cpu = true := by
  have inv : ∀ c, s.schedChooseCpu p = some c → c < s.ncpu ∧ schedCpuAllowed (s.procs p) c = true := by
    refine List.foldlRecOn (motive := fun best => ∀ c, best = some c →
      c < s.ncpu ∧ schedCpuAllowed (s.procs p) c = true) _ _ nofun ?_
    intro best ih i inside
    by_cases allowed : schedCpuAllowed (s.procs p) i = true
    · cases best with
      | none => grind
      | some b => grind
    · simpa [allowed] using ih
  exact inv cpu chosen

/-- A fold that keeps what it has chosen ends with a choice once it has passed an element it accepts. -/
theorem foldl_isSome {f : Option Nat → Nat → Option Nat} (keeps : ∀ b i, (f (some b) i).isSome = true)
    (takes : ∀ best, (f best d).isSome = true) {cpus : List Nat} (best : Option Nat)
    (found : best.isSome = true ∨ d ∈ cpus) : (cpus.foldl f best).isSome = true := by
  induction cpus generalizing best with
  | nil => simpa using found
  | cons i cpus ih =>
    refine ih _ ?_
    rcases found with chosen | mem
    · obtain ⟨b, rfl⟩ := Option.isSome_iff_exists.mp chosen
      exact .inl (keeps b i)
    · rcases List.mem_cons.mp mem with rfl | later
      · exact .inl (takes best)
      · exact .inr later

theorem schedChooseCpu_isSome (inRange : d < s.ncpu) (ok : schedCpuAllowed (s.procs p) d = true) :
    ∃ cpu, s.schedChooseCpu p = some cpu := by
  refine Option.isSome_iff_exists.mp (foldl_isSome ?_ ?_ none (.inr (List.mem_range.mpr inRange)))
  · intro b i
    dsimp only
    split_ifs <;> rfl
  · intro best
    cases best with
    | none => simp [ok]
    | some b =>
      simp only [ok]
      split_ifs <;> rfl

theorem schedEnqueueProcLocked_touches (s : Sched) (p : ProcId) :
    Touches s (s.schedEnqueueProcLocked p) p := by
  unfold schedEnqueueProcLocked
  split
  · exact Touches.refl s p
  split
  · exact Touches.refl s p
  dsimp only
  split
  · exact schedClassEnqueueLocked_touches s _ p
  · exact Touches.refl s p

theorem Queued.enqueueProc (h : s.Queued) (p : ProcId) : (s.schedEnqueueProcLocked p).Queued := by
  unfold schedEnqueueProcLocked
  split
  · exact h
  rename_i task
  split
  · exact h
  rename_i chosen
  dsimp only
  split_ifs with free
  · simp only [Bool.and_eq_true, beq_iff_eq] at free
    obtain ⟨inRange, ok⟩ := schedChooseCpu_some chosen
    exact (h.enqueue (by simpa using task) free.1.2 inRange ok).1
  · exact h

/-- A runnable task that is on no CPU is on a queue afterwards. -/
theorem Queued.enqueueProc_queued {pid : Nat} (h : s.Queued) (inRange : d < s.ncpu)
    (ok : schedCpuAllowed (s.procs (.task pid)) d = true)
    (runnable : (s.procs (.task pid)).state = .runnable) (off : (s.procs (.task pid)).onCpu = false) :
    ((s.schedEnqueueProcLocked (.task pid)).procs (.task pid)).rq ≠ none := by
  obtain ⟨cpu, chosen⟩ := schedChooseCpu_isSome inRange ok
  obtain ⟨inRange, ok⟩ := schedChooseCpu_some chosen
  unfold schedEnqueueProcLocked
  simp only [ProcId.schedIsIdle, chosen, off, runnable, h.flag]
  cases free : (s.procs (.task pid)).rq with
  | none =>
    simp [(h.enqueue rfl free inRange ok).2]
  | some e => simp [free]

/-- What taking a process off a queue for a CPU does. -/
structure Taken (s t : Sched) (cpu : Nat) (p : ProcId) : Prop where
  queued : t.Queued
  touches : Touches s t p
  task : p.schedIsIdle = false
  allowed : schedCpuAllowed (s.procs p) cpu = true

theorem Queued.pick (h : s.Queued) (picked : s.stridePickNextForCpu d cpu = (some p, t)) :
    t.Queued ∧ Touches s t p ∧ (t.procs p).rq = some d ∧ schedCpuAllowed (s.procs p) cpu = true := by
  obtain ⟨inside, ok, -⟩ := stridePickNextForCpu_some picked
  have on := (h.member p d).mp inside
  unfold stridePickNextForCpu at picked
  split at picked
  · cases picked
  cases picked
  refine ⟨h.setProc p fun _ => ⟨rfl, rfl, rfl⟩, setProc_touches s p fun _ => ⟨rfl, rfl, rfl⟩, ?_, ok⟩
  rw [setProc_procs]
  exact on

theorem Queued.takeNext (h : s.Queued) (taken : s.takeNext d cpu = (some p, t)) : Taken s t cpu p := by
  unfold Sched.takeNext at taken
  split at taken
  · split at taken
    · cases taken
    rename_i picked
    cases taken
    obtain ⟨queued, touch, on, ok⟩ := h.pick picked
    exact ⟨(queued.dequeue on).1, touch.trans (schedClassDequeueLocked_touches ..), (queued.place _ _ on).1, ok⟩
  · cases taken

theorem Queued.stealFrom {victims : List Nat} (h : s.Queued)
    (stolen : s.schedStealFrom cpu victims = (some p, t)) : Taken s t cpu p := by
  induction victims generalizing s with
  | nil => cases stolen
  | cons victim victims ih =>
    rw [schedStealFrom] at stolen
    split at stolen
    · rename_i taken
      cases stolen
      obtain ⟨queued, touch, task, ok⟩ := h.takeNext taken
      exact ⟨queued.setProc p fun _ => ⟨rfl, rfl, rfl⟩,
        touch.trans (setProc_touches _ p fun _ => ⟨rfl, rfl, rfl⟩), task, ok⟩
    · rename_i taken
      obtain rfl := takeNext_none taken
      exact ih h stolen

theorem Queued.pickNext {next : ProcId} (h : s.Queued) (picked : s.pickNext cpu = (next, t)) :
    next = .idle cpu ∧ t = s ∨ Taken s t cpu next := by
  unfold Sched.pickNext at picked
  split at picked
  · rename_i taken
    cases picked
    exact .inr (h.takeNext taken)
  rename_i taken
  obtain rfl := takeNext_none taken
  split at picked
  · rename_i stolen
    cases picked
    exact .inr (h.stealFrom stolen)
  · rename_i stolen
    cases picked
    exact .inl ⟨rfl, schedStealFrom_none stolen⟩

theorem Queued.requeuePrev (h : s.Queued) (inRange : cpu < s.ncpu) (p : ProcId) :
    (s.requeuePrev cpu p).Queued ∧ Touches s (s.requeuePrev cpu p) p := by
  have quiet : (s.setProc p fun proc => { proc with needResched := false }).Queued :=
    h.setProc p fun _ => ⟨rfl, rfl, rfl⟩
  have touch : Touches s (s.setProc p fun proc => { proc with needResched := false }) p :=
    setProc_touches s p fun _ => ⟨rfl, rfl, rfl⟩
  unfold Sched.requeuePrev
  dsimp only
  split_ifs with free
  · simp only [Bool.and_eq_true, beq_iff_eq, Bool.not_eq_true'] at free
    obtain ⟨⟨⟨⟨-, task⟩, ok⟩, off⟩, -⟩ := free
    exact ⟨(quiet.enqueue task off inRange ok).1, touch.trans (schedClassEnqueueLocked_touches ..)⟩
  · exact ⟨quiet, touch⟩

theorem balanceEnds_lt {busy target : Nat} (ends : s.balanceEnds = some (busy, target)) : target < s.ncpu := by
  have inv : ∀ e, s.balanceEnds = some e → e.2 < s.ncpu := by
    refine List.foldlRecOn (motive := fun ends : Option (Nat × Nat) => ∀ e, ends = some e → e.2 < s.ncpu) _ _ nofun ?_
    intro ends ih i inside
    cases ends with
    | none => grind
    | some e => grind
  exact inv _ ends

theorem Queued.balance (h : s.Queued) : s.schedBalance.Queued ∧
    (s.schedBalance = s ∨ ∃ p, Touches s s.schedBalance p ∧ (s.schedBalance.procs p).rq ≠ none) := by
  unfold schedBalance
  split
  · exact ⟨h, .inl rfl⟩
  split
  · exact ⟨h, .inl rfl⟩
  rename_i busy target ends
  split
  · split
    · rename_i picked
      obtain rfl := stridePickNextForCpu_none picked
      exact ⟨h, .inl rfl⟩
    rename_i p t picked
    obtain ⟨queued, touch, on, ok⟩ := h.pick picked
    obtain ⟨off, free⟩ := queued.dequeue on
    have touch := touch.trans (schedClassDequeueLocked_touches t busy p)
    rw [← touch.allowed] at ok
    obtain ⟨moved, here⟩ := off.enqueue (queued.place p busy on).1 free (touch.ncpu ▸ balanceEnds_lt ends) ok
    refine ⟨moved.setProc p fun _ => ⟨rfl, rfl, rfl⟩, .inr ⟨p, ?_, ?_⟩⟩
    · exact (touch.trans (schedClassEnqueueLocked_touches ..)).trans (setProc_touches _ p fun _ => ⟨rfl, rfl, rfl⟩)
    · simp [here]
  · exact ⟨h, .inl rfl⟩

theorem Queued.stop (h : s.Queued) (p : ProcId) : (s.schedStopLocked p).Queued := by
  unfold schedStopLocked
  split
  · exact h
  refine Queued.setProc ?_ p fun _ => ⟨rfl, rfl, rfl⟩
  split
  · rename_i on
    split
    · exact (h.dequeue on).1
    · exact h
  · exact h

/-- A stopped process is the only one that changes, and keeps its mask. -/
theorem schedStopLocked_spec (s : Sched) (p : ProcId) : (s.schedStopLocked p).ncpu = s.ncpu ∧
    (∀ q, q ≠ p → (s.schedStopLocked p).procs q = s.procs q) ∧
    ((s.schedStopLocked p).procs p).cpuMask = (s.procs p).cpuMask := by
  have stopped : ∀ t : Sched, Touches s t p →
      (t.setProc p fun proc => { proc with state := .stopped, waitState := 0 }).ncpu = s.ncpu ∧
      (∀ q, q ≠ p → (t.setProc p fun proc => { proc with state := .stopped, waitState := 0 }).procs q =
        s.procs q) ∧
      ((t.setProc p fun proc => { proc with state := .stopped, waitState := 0 }).procs p).cpuMask =
        (s.procs p).cpuMask := by
    intro t touch
    refine ⟨touch.ncpu, fun q ne => (setProc_others _ _ ne).trans (touch.others q ne), ?_⟩
    rw [setProc_procs]
    exact touch.mask
  unfold schedStopLocked
  split
  · exact ⟨rfl, fun _ _ => rfl, rfl⟩
  apply stopped
  split
  · split
    · exact schedClassDequeueLocked_touches ..
    · exact Touches.refl s p
  · exact Touches.refl s p

/-- The middle part of `sched_setaffinity_locked`, once the mask is set. -/
def reaffine (s : Sched) (p : ProcId) : Sched :=
  match (s.procs p).rq with
  | none => s
  | some old =>
    if (s.procs p).onRq && !schedCpuAllowed (s.procs p) old then
      let s := s.schedClassDequeueLocked old p
      if (s.procs p).state == .runnable && !(s.procs p).onCpu then s.schedEnqueueProcLocked p else s
    else s

theorem reaffine_touches (s : Sched) (p : ProcId) : Touches s (s.reaffine p) p := by
  unfold reaffine
  split
  · exact Touches.refl s p
  rename_i old _
  split
  · have touch := schedClassDequeueLocked_touches s old p
    dsimp only
    split
    · exact touch.trans (schedEnqueueProcLocked_touches ..)
    · exact touch
  · exact Touches.refl s p

theorem Queued.dequeue_masked (h : s.Queued) (mask : UInt32) (on : (s.procs p).rq = some d) :
    ((s.setProc p fun proc => { proc with cpuMask := mask }).schedClassDequeueLocked d p).Queued := by
  have touch := schedClassDequeueLocked_touches (s.setProc p fun proc => { proc with cpuMask := mask }) d p
  have others := fun q ne => (touch.others q ne).trans (s.setProc_others _ ne)
  refine h.drop rfl rfl (SkewHeap.remove_perm ..) rfl others on ?_ ?_ <;>
    rw [schedClassDequeueLocked, setProc_procs]

theorem Queued.reaffine {mask : UInt32} (h : s.Queued) (p : ProcId) :
    ((s.setProc p fun proc => { proc with cpuMask := mask }).reaffine p).Queued := by
  have others : ∀ q, q ≠ p → (s.setProc p fun proc => { proc with cpuMask := mask }).procs q = s.procs q :=
    fun q => s.setProc_others _
  unfold Sched.reaffine
  split
  · rename_i off
    rw [setProc_procs] at off
    refine h.quiet rfl rfl others (by rw [setProc_procs]) (by rw [setProc_procs]) fun d on => ?_
    rw [off] at on
    cases on
  rename_i old on
  rw [setProc_procs] at on
  split_ifs with stays
  · have off := h.dequeue_masked mask on
    dsimp only
    split
    · exact off.enqueueProc p
    · exact off
  · refine h.quiet rfl rfl others (by rw [setProc_procs]) (by rw [setProc_procs]) fun d here => ?_
    obtain rfl : old = d := Option.some.inj (on.symm.trans here)
    have flag : (s.procs p).onRq = true := by
      rw [h.flag, on]
      rfl
    simpa [flag] using stays

theorem Queued.reaffine_queued {mask : UInt32} {pid : Nat} (h : s.Queued) (inRange : d < s.ncpu)
    (ok : schedCpuAllowed { s.procs (.task pid) with cpuMask := mask } d = true)
    (runnable : (s.procs (.task pid)).state = .runnable) (off : (s.procs (.task pid)).onCpu = false)
    (on : (s.procs (.task pid)).rq ≠ none) :
    (((s.setProc (.task pid) fun proc => { proc with cpuMask := mask }).reaffine (.task pid)).procs
      (.task pid)).rq ≠ none := by
  obtain ⟨old, on⟩ := Option.ne_none_iff_exists'.mp on
  unfold Sched.reaffine
  simp only [setProc_procs, on]
  split
  · have touch := schedClassDequeueLocked_touches
      (s.setProc (.task pid) fun proc => { proc with cpuMask := mask }) old (.task pid)
    have runs := touch.state
    have out := touch.onCpu
    rw [setProc_procs] at runs out
    rw [if_pos (by simp [runs, out, runnable, off])]
    refine (h.dequeue_masked mask on).enqueueProc_queued inRange ?_ (runs.trans runnable) (out.trans off)
    rw [touch.allowed, setProc_procs]
    exact ok
  · simp [on]

theorem schedSetaffinityLocked_eq (s : Sched) (p : ProcId) (mask : UInt32) : ∃ flag,
    s.schedSetaffinityLocked p mask =
      ((s.setProc p fun proc => { proc with cpuMask := mask }).reaffine p).setProc p
        fun proc => { proc with needResched := flag } := by
  obtain ⟨u, same⟩ : ∃ u, (s.setProc p fun proc => { proc with cpuMask := mask }).reaffine p = u := ⟨_, rfl⟩
  have unfolded : s.schedSetaffinityLocked p mask =
      if (u.procs p).onCpu && !schedCpuAllowed (u.procs p) (u.procs p).cpu then
        u.setProc p fun proc => { proc with needResched := true }
      else u := by
    rw [← same]
    rfl
  rw [unfolded, same]
  split
  · exact ⟨true, rfl⟩
  · refine ⟨(u.procs p).needResched, ?_⟩
    simp [Sched.setProc]

end

end Sched

end Procore.Schedule
