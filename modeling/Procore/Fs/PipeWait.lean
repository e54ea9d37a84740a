import Procore.Fs.Pipe

/-! # No wakeup is lost on a pipe

A reader that has found the buffer empty sleeps on `read_sem`, a writer that has
found it full on `write_sem`. Whoever changes the buffer or closes an end wakes the
other side afterwards. Between the change and the wake call the sleeper may be
asleep for no reason, but then somebody owes it a wakeup. A wake call that finds
nobody leaves a token, which the next sleeper takes instead of sleeping.
-/

namespace Procore.Fs

open Procore.Lib Procore.Process List Option Pc
open Function

/-- The call of a task whose node may be in the wait queue. -/
def Pc.waiting : Pc → Option Call
  | .published c | .interrupted c | .withdrawing c | .scheduling c | .resumed c => some c
  | _ => none

/-- The call of a task that sleeps, if its state says so. -/
def Pc.sleeping : Pc → Option Call
  | .published c | .scheduling c => some c
  | _ => none

/-- The wake calls that a task has still to make. -/
def Pc.pending : Pc → List Wake
  | .wakes ws _ | .wakeProc _ ws _ => ws
  | _ => []

/-- The task is between a change of the pipe and the end of its wake calls. -/
def Pc.owes : Pc → Bool
  | .wakes .. | .wakeProc .. => true
  | _ => false

/-- The wake call finds the sleeper or leaves a token. -/
def Wake.Covers (w : Wake) (side : Side) : Prop := w.side = side ∧ ¬ (w.all = true ∧ w.woke = true)

variable {pc : Pc} {c : Call}

theorem Pc.call_of_waiting (waiting : pc.waiting = some c) :
    pc.call = some c := by
  cases pc <;> simp_all [Pc.waiting, Pc.call]

theorem Pc.waiting_of_sleeping (sleeping : pc.sleeping = some c) :
    pc.waiting = some c := by
  cases pc <;> simp_all [Pc.waiting, Pc.sleeping]

theorem Pc.not_owes_of_sleeping (sleeping : pc.sleeping = some c) :
    pc.owes = false := by
  cases pc <;> simp_all [Pc.owes, Pc.sleeping]

theorem Pc.owes_of_pending {w : Wake} (mem : w ∈ pc.pending) : pc.owes = true := by
  cases pc <;> simp_all [owes, pending]

namespace PipeState

/-- A task sleeps on the semaphore of a side. -/
def Asleep (s : PipeState) (u : Nat) (side : Side) : Prop :=
  ∃ c, (s.tasks u).pc.sleeping = some c ∧ c.side = side ∧ (s.tasks u).proc.state = .sleeping

/-- A caller on this side has a reason to sleep. -/
def Reason (s : PipeState) : Side → Prop
  | .read => s.pipe.ring.count = 0 ∧ 0 < s.pipe.writers
  | .write => s.pipe.ring.count = fsPipeCapacity ∧ 0 < s.pipe.readers

/-- Somebody will wake this side. -/
def Covered (s : PipeState) (side : Side) : Prop := ∃ v, ∃ w ∈ (s.tasks v).pc.pending, w.Covers side

/-- A wake call has taken the task from its queue. -/
def Waking (s : PipeState) (u : Nat) : Prop := ∃ v ws next, (s.tasks v).pc = .wakeProc u ws next

/-- No task is in `pipe_read` when one enters it, and the same for `pipe_write`. -/
def Single (s : PipeState) : PipeOp → Prop
  | .startRead .. => s.inside .read = []
  | .startWrite .. => s.inside .write = []
  | _ => True

instance (s : PipeState) : (op : PipeOp) → Decidable (s.Single op)
  | .startRead .. => inferInstanceAs (Decidable (s.inside .read = []))
  | .startWrite .. => inferInstanceAs (Decidable (s.inside .write = []))
  | .pass _ | .wake _ | .wakeup _ | .down _ | .recheck _ | .selfWake _ | .withdraw _ | .resume _
  | .waitCurrentDel _ | .finish _ | .close .. | .stray _ | .kill .. | .other .. => isTrue trivial

/-- Every sleeper has a reason to sleep or is going to be woken. -/
structure Watch (s : PipeState) : Prop where
  inside : ∀ u c, s.call u = some c → u ∈ s.inside c.side
  single : ∀ u v c d, s.call u = some c → s.call v = some d → c.side = d.side → u = v
  nodup : ∀ side, (s.sem side).queue.Nodup
  queued : ∀ side, ∀ u ∈ (s.sem side).queue, ∃ c, (s.tasks u).pc.waiting = some c ∧ c.side = side
  parked : ∀ u c, (s.tasks u).pc.sleeping = some c → (s.tasks u).proc.state = .sleeping →
    (s.tasks u).proc.waitState = eventWait
  /-- Before the section of `down_interruptible`. -/
  before : ∀ u c, (s.tasks u).pc = .down c →
    s.Reason c.side ∨ 0 < (s.sem c.side).value ∨ s.Covered c.side
  asleep : ∀ u side, s.Asleep u side →
    s.Waking u ∨ (u ∈ (s.sem side).queue ∧ (s.Reason side ∨ s.Covered side))

theorem Watch.create (readers writers : Nat) (cells : Nat → UInt8) (procs : Nat → Proc) :
    Watch (create readers writers cells procs) where
  inside := nofun
  single := nofun
  nodup _ := nodup_nil
  queued := nofun
  parked := nofun
  before := nofun
  asleep := by
    rintro u side ⟨c, asleep, -⟩
    cases asleep

variable {s t : PipeState} {u : Nat} {side : Side}

theorem Asleep.call (asleep : s.Asleep u side) : ∃ c, s.call u = some c ∧ c.side = side := by
  obtain ⟨c, sleeping, here, -⟩ := asleep
  exact ⟨c, call_of_waiting (waiting_of_sleeping sleeping), here⟩

theorem Asleep.not_owes (asleep : s.Asleep u side) : (s.tasks u).pc.owes = false := by
  obtain ⟨c, sleeping, -, -⟩ := asleep
  exact not_owes_of_sleeping sleeping

theorem Watch.reason (h : Watch s) (asleep : s.Asleep u side)
    (quiet : ∀ v, v ≠ u → (s.tasks v).pc.owes = false) : s.Reason side := by
  have none (v : Nat) : (s.tasks v).pc.owes = false := by
    by_cases same : v = u
    · rw [same]
      exact asleep.not_owes
    · exact quiet v same
  have idle {v : Nat} (owes : (s.tasks v).pc.owes = true) : False := by
    rw [none v] at owes
    cases owes
  rcases h.asleep u side asleep with ⟨v, ws, next, waking⟩ | ⟨-, reason | ⟨v, w, pending, -⟩⟩
  · exact (idle (by rw [waking]; rfl)).elim
  · exact reason
  · exact (idle (owes_of_pending pending)).elim

/-! ## One task moves -/

theorem setTask_self (task : Task) : (s.setTask u task).tasks u = task := update_self ..

variable {v : Nat}

theorem setTask_other (task : Task) (other : v ≠ u) :
    (s.setTask u task).tasks v = s.tasks v := update_of_ne other _ _

theorem setSem_self (sem : Sem) : (s.setSem side sem).sem side = sem := update_self ..

theorem call_of_tasks (same : t.tasks v = s.tasks v) : t.call v = s.call v := by
  rw [call, call, same]

theorem reason_of_pipe (same : t.pipe = s.pipe) : t.Reason side ↔ s.Reason side := by
  cases side <;> rw [Reason, Reason, same]

theorem asleep_of_tasks (same : t.tasks v = s.tasks v) :
    t.Asleep v side ↔ s.Asleep v side := by
  rw [Asleep, Asleep, same]

/-- A wake call that the task has still to make covers the side. -/
def Owes (s : PipeState) (u : Nat) (side : Side) : Prop := ∃ w ∈ (s.tasks u).pc.pending, w.Covers side

/-- What a task may do: it changes the pipe only if it then wakes those who may have lost their
    reason, it makes the wake calls it owes, and goes to sleep only for a reason. -/
structure Turn (s t : PipeState) (u : Nat) : Prop where
  others : ∀ v, v ≠ u → t.tasks v = s.tasks v
  stay : ∀ v c, v ≠ u → s.call v = some c → v ∈ t.inside c.side
  entered : ∀ c, t.call u = some c → u ∈ t.inside c.side
  alone : ∀ c, t.call u = some c → ∀ v d, v ≠ u → s.call v = some d → c.side ≠ d.side
  queue : ∀ side v, v ≠ u → (v ∈ (t.sem side).queue ↔ v ∈ (s.sem side).queue)
  nodup : ∀ side, (t.sem side).queue.Nodup
  queued : ∀ side, u ∈ (t.sem side).queue → ∃ c, (t.tasks u).pc.waiting = some c ∧ c.side = side
  parked : ∀ c, (t.tasks u).pc.sleeping = some c → (t.tasks u).proc.state = .sleeping →
    (t.tasks u).proc.waitState = eventWait
  value : ∀ v c, v ≠ u → s.call v = some c → (t.sem c.side).value = (s.sem c.side).value
  /-- A wake call is still owed, or has left a token or taken the sleeper. -/
  kept : ∀ v c, v ≠ u → s.call v = some c → s.Owes u c.side → t.Owes u c.side ∨
    (0 < (s.sem c.side).value ∧ (s.sem c.side).queue = []) ∨
    (t.Waking v ∧ v ∈ (s.sem c.side).queue)
  woken : ∀ x ws next, (s.tasks u).pc = .wakeProc x ws next → ∀ side, ¬ t.Asleep x side
  reason : ∀ v c, v ≠ u → s.call v = some c → s.Reason c.side → t.Reason c.side ∨ t.Owes u c.side
  before : ∀ c, (t.tasks u).pc = .down c → t.Reason c.side
  asleep : ∀ side, t.Asleep u side →
    t.Waking u ∨ (u ∈ (t.sem side).queue ∧ (t.Reason side ∨ t.Covered side))

variable {x : Nat}

theorem Turn.waking (turn : Turn s t u) (asleep : t.Asleep x side) (waking : s.Waking x) :
    t.Waking x := by
  obtain ⟨v, ws, next, here⟩ := waking
  have other : v ≠ u := fun same => turn.woken x ws next (same ▸ here) side asleep
  exact ⟨v, ws, next, by rwa [turn.others v other]⟩

/-- Those who owed another task a wakeup still do, or have left a token or taken the sleeper. -/
theorem Turn.covered {c : Call} (turn : Turn s t u) (other : v ≠ u) (current : s.call v = some c)
    (covered : s.Covered c.side) : t.Covered c.side ∨
      (0 < (s.sem c.side).value ∧ (s.sem c.side).queue = []) ∨
      (t.Waking v ∧ v ∈ (s.sem c.side).queue) := by
  obtain ⟨x, w, pending, covers⟩ := covered
  have kept := turn.kept v c other current
  have same := turn.others x
  grind [Covered, Owes]

theorem Watch.turn (h : Watch s) (turn : Turn s t u) : Watch t := by
  have calls {v : Nat} (other : v ≠ u) : t.call v = s.call v := call_of_tasks (turn.others v other)
  constructor
  · intro v c current
    grind [turn.entered c, turn.stay v c]
  · intro v w c d first second side
    grind [turn.alone c, turn.alone d, h.single v w c d]
  · exact turn.nodup
  · intro side v mem
    have mine := turn.queued side
    have other := turn.others v
    have before := h.queued side v
    grind [turn.queue side v]
  · intro v c sleeping state
    grind [turn.parked c, turn.others v, h.parked v c]
  · intro v c down
    by_cases same : v = u
    · exact .inl (turn.before c (same ▸ down))
    have other := turn.others v same
    have before := h.before v c
    have queued := h.queued c.side v
    have current : s.call v = some c := by grind [call, Pc.call]
    have reason := turn.reason v c same current
    have covered := turn.covered same current
    rw [turn.value v c same current]
    grind [Covered, Owes, Pc.waiting]
  · intro v side asleep
    by_cases same : v = u
    · exact same ▸ turn.asleep side (same ▸ asleep)
    have was := (asleep_of_tasks (turn.others v same)).mp asleep
    obtain ⟨c, current, rfl⟩ := was.call
    have reason := turn.reason v c same current
    have covered := turn.covered same current
    have queue := turn.queue c.side v same
    have before := h.asleep v c.side was
    have waking := turn.waking asleep
    grind [Covered, Owes]

variable {task : Task}

/-- A change that leaves the control flow alone, after which a task sleeps only if it did, and only
    nodes leave a queue that belong to no sleeper, or to one that is being woken. -/
theorem Watch.less (h : Watch s) (pcs : ∀ v, (t.tasks v).pc = (s.tasks v).pc) (inside : t.inside = s.inside)
    (pipe : t.pipe = s.pipe) (sub : ∀ side, (t.sem side).queue.Sublist (s.sem side).queue)
    (value : ∀ v c, (s.tasks v).pc = .down c → 0 < (s.sem c.side).value → 0 < (t.sem c.side).value)
    (procs : ∀ v c, (s.tasks v).pc.sleeping = some c → (t.tasks v).proc.state = .sleeping →
      (s.tasks v).proc.state = .sleeping ∧ (t.tasks v).proc.waitState = (s.tasks v).proc.waitState)
    (left : ∀ v side, s.Asleep v side → v ∈ (s.sem side).queue → v ∈ (t.sem side).queue ∨ s.Waking v) :
    Watch t := by
  have calls (v : Nat) : t.call v = s.call v := by rw [call, call, pcs]
  have covered (side : Side) : t.Covered side ↔ s.Covered side := by simp [Covered, pcs]
  have waking (v : Nat) : t.Waking v ↔ s.Waking v := by simp [Waking, pcs]
  have reason (side : Side) : t.Reason side ↔ s.Reason side := reason_of_pipe pipe
  constructor
  · intro v c current
    exact inside ▸ h.inside v c (calls v ▸ current)
  · intro v w c d first second
    exact h.single v w c d (calls v ▸ first) (calls w ▸ second)
  · exact fun side => (h.nodup side).sublist (sub side)
  · intro side v mem
    exact pcs v ▸ h.queued side v ((sub side).subset mem)
  · intro v c sleeping state
    grind [procs v c, h.parked v c]
  · intro v c down
    grind [h.before v c, value v c]
  · rintro v side ⟨c, sleeping, here, state⟩
    rw [pcs] at sleeping
    have asleep : s.Asleep v side := ⟨c, sleeping, here, (procs v c sleeping state).1⟩
    have before := h.asleep v side asleep
    have still := left v side asleep
    grind

theorem Watch.withTask (h : Watch s) (pc : task.pc = (s.tasks u).pc)
    (less : ∀ c, task.pc.sleeping = some c → task.proc.state = .sleeping →
      (s.tasks u).proc.state = .sleeping ∧ task.proc.waitState = (s.tasks u).proc.waitState) :
    Watch (s.setTask u task) := by
  have tasks (v : Nat) : (s.setTask u task).tasks v = if v = u then task else s.tasks v := update_apply ..
  refine h.less ?_ rfl rfl (fun _ => Sublist.refl _) (fun _ _ _ => id) ?_ fun _ _ _ => .inl
  · grind
  · grind

theorem Watch.setSem {side : Side} {sem : Sem} (h : Watch s)
    (sub : sem.queue.Sublist (s.sem side).queue)
    (value : ∀ v c, (s.tasks v).pc = .down c → c.side = side → 0 < (s.sem side).value → 0 < sem.value)
    (left : ∀ v, s.Asleep v side → v ∈ (s.sem side).queue → v ∈ sem.queue ∨ s.Waking v) :
    Watch (s.setSem side sem) := by
  have sems (other : Side) : (s.setSem side sem).sem other = if other = side then sem else s.sem other :=
    update_apply ..
  refine h.less (fun _ => rfl) rfl rfl ?_ ?_ (fun _ _ _ state => ⟨state, rfl⟩) ?_
  · intro other
    grind
  · grind
  · grind

/-! ## The steps -/

theorem Watch.unqueued (h : Watch s) (awake : (s.tasks u).pc.waiting = none) (side : Side) :
    u ∉ (s.sem side).queue := by
  intro mem
  obtain ⟨c, waiting, -⟩ := h.queued side u mem
  simp [awake] at waiting

variable {c d : Call}

theorem Watch.apart (h : Watch s) (mine : s.call u = some c) (other : v ≠ u)
    (current : s.call v = some d) : c.side ≠ d.side := fun same =>
  other (h.single v u d c current mine same.symm)

theorem not_owes (free : (s.tasks u).pc.owes = false) : ¬ s.Owes u side := by
  rintro ⟨w, pending, -⟩
  simp [owes_of_pending pending] at free

/-- A task that does not go to sleep and leaves the semaphores alone. -/
theorem Watch.move {pipe : Pipe} {log : List Event} {inside : Side → List Nat} {calls : Nat} (h : Watch s)
    (stay : ∀ v c, v ≠ u → s.call v = some c → v ∈ inside c.side)
    (entered : ∀ c, task.pc.call = some c → u ∈ inside c.side ∧
      ∀ v d, v ≠ u → s.call v = some d → c.side ≠ d.side)
    (waiting : ∀ side c, u ∈ (s.sem side).queue → (s.tasks u).pc.waiting = some c →
      task.pc.waiting = some c)
    (sleeping : ∀ c, task.pc.sleeping = some c →
      (s.tasks u).pc.sleeping = some c ∧ task.proc = (s.tasks u).proc ∧ pipe = s.pipe)
    (kept : ∀ v c, v ≠ u → s.call v = some c → s.Owes u c.side →
      (∃ w ∈ task.pc.pending, w.Covers c.side) ∨
      (0 < (s.sem c.side).value ∧ (s.sem c.side).queue = []) ∨
      ((∃ ws next, task.pc = .wakeProc v ws next) ∧ v ∈ (s.sem c.side).queue))
    (woken : ∀ x ws next, (s.tasks u).pc = .wakeProc x ws next → ∀ side, ¬ s.Asleep x side)
    (reason : ∀ v c, v ≠ u → s.call v = some c → s.Reason c.side →
      Reason { s with pipe := pipe } c.side ∨ ∃ w ∈ task.pc.pending, w.Covers c.side)
    (before : ∀ c, task.pc = .down c → Reason { s with pipe := pipe } c.side) :
    Watch { s.setTask u task with
      pipe := pipe
      log := log
      inside := inside
      calls := calls } := by
  generalize result : { s.setTask u task with
      pipe := pipe
      log := log
      inside := inside
      calls := calls } = t
  have tasks (v : Nat) : t.tasks v = if v = u then task else s.tasks v := by
    rw [← result]
    exact update_apply ..
  have sems : t.sem = s.sem := by rw [← result]; rfl
  have reasons (side : Side) : t.Reason side ↔ Reason { s with pipe := pipe } side := by
    rw [← result]
    exact reason_of_pipe rfl
  have insides : t.inside = inside := by rw [← result]
  have current : t.call u = task.pc.call := by simp [call, tasks]
  have asleep {x : Nat} {side : Side} (now : t.Asleep x side) :
      s.Asleep x side ∧ (x = u → pipe = s.pipe) := by
    obtain ⟨c, isSleeping, here, state⟩ := now
    have was := sleeping c
    grind [Asleep]
  refine h.turn (u := u) ⟨?_, ?_, ?_, ?_, ?_, ?_, ?_, ?_, ?_, ?_, ?_, ?_, ?_, ?_⟩
  · grind
  · grind
  · grind
  · grind
  · grind
  · exact sems ▸ h.nodup
  · intro side mem
    rw [sems] at mem
    obtain ⟨c, was, here⟩ := h.queued side u mem
    exact ⟨c, by simpa [tasks] using waiting side c mem was, here⟩
  · intro c
    grind [h.parked u c, sleeping c]
  · grind
  · intro v c other now owes
    have := kept v c other now owes
    grind [Owes, Waking]
  · grind
  · grind [Owes]
  · grind
  · intro side now
    obtain ⟨was, same⟩ := asleep now
    have unchanged : Reason { s with pipe := pipe } side ↔ s.Reason side := by rw [same rfl]
    have free := was.not_owes
    rcases h.asleep u side was with ⟨v, ws, next, waking⟩ | ⟨mem, why | ⟨v, w, pending, covers⟩⟩
    · refine .inl ⟨v, ws, next, ?_⟩
      grind [Pc.owes]
    · grind
    · refine .inr ⟨sems ▸ mem, .inr ⟨v, w, ?_, covers⟩⟩
      have owes := owes_of_pending pending
      grind

variable {ws : List Wake} {next : After}

theorem not_wakeProc (free : (s.tasks u).pc.owes = false) :
    (s.tasks u).pc ≠ .wakeProc x ws next := by
  intro here
  simp [here, owes] at free

section

variable (h : Watch s)
include h

section

variable (free : (s.tasks u).pc.owes = false) (current : s.call u = some c)
  (waiting : ∀ side d, u ∈ (s.sem side).queue → (s.tasks u).pc.waiting = some d → task.pc.waiting = some d)
include free current waiting

/-- A task goes on with its call. -/
theorem Watch.goOn {pipe : Pipe} {log : List Event} (now : task.pc.call = some d) (same : d.side = c.side)
    (sleeping : ∀ d, task.pc.sleeping = some d →
      (s.tasks u).pc.sleeping = some d ∧ task.proc = (s.tasks u).proc ∧ pipe = s.pipe)
    (reason : ∀ side, side ≠ c.side → s.Reason side →
      Reason { s with pipe := pipe } side ∨ ∃ w ∈ task.pc.pending, w.Covers side)
    (before : ∀ d, task.pc = .down d → Reason { s with pipe := pipe } d.side) :
    Watch { s.setTask u task with
      pipe := pipe
      log := log } := by
  refine h.move (fun v e _ => h.inside v e) ?_ waiting sleeping (fun _ _ _ _ owes => absurd owes (not_owes free))
    (fun _ _ _ here => absurd here (not_wakeProc free)) ?_ before
  · intro e there
    obtain rfl := some.inj (now.symm.trans there)
    exact same ▸ ⟨h.inside u c current, fun _ _ other => h.apart current other⟩
  · exact fun v e other there => reason e.side (h.apart current other there).symm

/-- A task goes on with its call and does not touch the pipe. -/
theorem Watch.goOn_alone (now : task.pc.call = some c) (sleeping : ∀ d, task.pc.sleeping = some d →
      (s.tasks u).pc.sleeping = some d ∧ task.proc = (s.tasks u).proc)
    (before : ∀ d, task.pc = .down d → s.Reason d.side) : Watch (s.setTask u task) :=
  h.goOn free current waiting now rfl (by grind) (fun _ _ => .inl) before

/-- The same for a task that does not go to sleep. -/
theorem Watch.goOn_awake (now : task.pc.call = some c) (awake : task.pc.sleeping = none)
    (up : ∀ d, task.pc ≠ .down d) : Watch (s.setTask u task) :=
  h.goOn_alone free current waiting now (by simp [awake]) fun d down => absurd down (up d)

end

/-- The end of a call, in a state that the wake calls have left. -/
theorem Watch.endCall {value : Int} (current : s.call u = some c)
    (gone : ∀ side, u ∉ (s.sem side).queue)
    (kept : ∀ v d, v ≠ u → s.call v = some d → s.Owes u d.side →
      0 < (s.sem d.side).value ∧ (s.sem d.side).queue = [])
    (woken : ∀ x ws next, (s.tasks u).pc = .wakeProc x ws next → ∀ side, ¬ s.Asleep x side) :
    Watch (s.endCall u c value) := by
  refine h.move (fun v d other there => ?_) nofun (fun side _ mem => absurd mem (gone side)) nofun
    (fun v d other there owes => .inr (.inl (kept v d other there owes))) woken (fun _ _ _ _ => .inl) nofun
  rw [update_of_ne (h.apart current other there).symm]
  exact h.inside v d there

/-- The end of a call that owes nobody. -/
theorem Watch.leave {value : Int} (free : (s.tasks u).pc.owes = false)
    (current : s.call u = some c) (gone : ∀ side, u ∉ (s.sem side).queue) :
    Watch (s.endCall u c value) :=
  h.endCall current gone (fun _ _ _ _ owes => absurd owes (not_owes free))
    fun _ _ _ here => absurd here (not_wakeProc free)

theorem Watch.start (idle : (s.tasks u).pc = .idle) (first : s.inside c.side = []) :
    Watch { s.setPc u (.loop c) with
      inside := update s.inside c.side (u :: s.inside c.side)
      calls := s.calls + 1 } := by
  have free : (s.tasks u).pc.owes = false := by rw [idle]; rfl
  refine h.move ?_ ?_ (by simp [idle, Pc.waiting]) nofun (fun _ _ _ _ owes => absurd owes (not_owes free))
    (by simp [idle]) (fun _ _ _ _ => .inl) nofun
  · intro v d other there
    have mem := h.inside v d there
    grind [update_apply]
  · intro d there
    obtain rfl := some.inj there
    refine ⟨by simp, fun v d other there same => ?_⟩
    have mem := h.inside v d there
    simp [← same, first] at mem

/-- A pass that moves bytes wakes the other side. -/
theorem Watch.movedPass {ring : RingBuf UInt8} {event : Event}
    {other : Side} (here : (s.tasks u).pc = .loop c) (goes : next.call = some d)
    (same : d.side = c.side) (across : ∀ side, side ≠ c.side → side = other) :
    Watch ((s.moved ring event).afterWakes u [⟨other, false, false⟩] next) := by
  refine h.goOn (by rw [here]; rfl) (by rw [call, here]; rfl) (by simp [here, Pc.waiting]) goes same nofun
    (fun side differs _ => .inr ⟨_, mem_singleton_self _, (across side differs).symm, by simp⟩) nofun

theorem Watch.goDown (here : (s.tasks u).pc = .loop c)
    (why : s.Reason c.side) : Watch (s.setPc u (.down c)) := by
  refine h.goOn_alone (by rw [here]; rfl) (by rw [call, here]; rfl) (by simp [here, Pc.waiting]) rfl nofun ?_
  rintro d ⟨⟩
  exact why

theorem Watch.readPass {id len : Nat} {nonblock : Bool}
    (here : (s.tasks u).pc = .loop (.read id len nonblock)) :
    Watch (s.readPass u id len nonblock) := by
  have leave (value : Int) : Watch (s.endCall u (.read id len nonblock) value) := by
    apply h.leave
    · rw [here]; rfl
    · rw [call, here]; rfl
    · exact h.unqueued (by rw [here]; rfl)
  have across (side : Side) (differs : side ≠ (Call.read id len nonblock).side) : side = .write := by
    cases side
    · exact absurd rfl differs
    · rfl
  rw [PipeState.readPass]
  split_ifs with zero bytes short ended refused
  · exact leave 0
  · exact h.movedPass here rfl rfl across
  · exact h.movedPass here rfl rfl across
  · exact leave 0
  · exact leave (-eBusy)
  · exact h.goDown here ⟨not_not.mp bytes, Nat.pos_of_ne_zero ended⟩

theorem Watch.writePass {id len written : Nat} {base : Nat → UInt8} {nonblock : Bool}
    (full : s.pipe.ring.count ≤ fsPipeCapacity)
    (here : (s.tasks u).pc = .loop (.write id base len written nonblock)) :
    Watch (s.writePass u id base len written nonblock) := by
  have leave {s : PipeState} (h : Watch s)
      (here : (s.tasks u).pc = .loop (.write id base len written nonblock)) (value : Int) :
      Watch (s.endCall u (.write id base len written nonblock) value) := by
    apply h.leave
    · rw [here]; rfl
    · rw [call, here]; rfl
    · exact h.unqueued (by rw [here]; rfl)
  rw [PipeState.writePass]
  split_ifs with more broken fresh room refused partly
  · have signalled : Watch (s.setTask u { s.tasks u with proc := { (s.tasks u).proc with
        signal := signalQueue (s.tasks u).proc.signal sigpipe } }) :=
      h.withTask rfl fun _ _ state => ⟨state, rfl⟩
    refine leave signalled ?_ (-ePipe)
    rw [setTask_self]
    exact here
  · exact leave h here _
  · refine h.movedPass here rfl rfl fun side differs => ?_
    cases side
    · rfl
    · exact absurd rfl differs
  · exact leave h here _
  · exact leave h here _
  · exact h.goDown here ⟨by omega, Nat.pos_of_ne_zero broken⟩
  · exact leave h here _

theorem Watch.waitCurrentDel (awake : (s.tasks u).pc.sleeping = none) :
    Watch (s.waitCurrentDel u c) := by
  refine h.setSem erase_sublist (fun _ _ _ _ => id) fun v asleep mem => .inl ?_
  have other : v ≠ u := by
    rintro rfl
    obtain ⟨d, sleeping, -⟩ := asleep
    simp [awake] at sleeping
  exact (mem_erase_of_ne other).mpr mem

theorem Watch.waitCurrentDel_gone (waiting : (s.tasks u).pc.waiting = some c)
    (side : Side) : u ∉ ((s.waitCurrentDel u c).sem side).queue := by
  have nodup := h.nodup c.side
  have queued := h.queued side u
  have sems : (s.waitCurrentDel u c).sem side = if side = c.side then
      ⟨(s.sem c.side).value, (s.sem c.side).queue.erase u⟩ else s.sem side := update_apply ..
  grind [Nodup.not_mem_erase]

/-- What follows the wake calls that are left. -/
theorem Watch.afterWakes (awake : (s.tasks u).pc.waiting = none) (current : s.call u = next.call)
    (kept : ∀ v c, v ≠ u → s.call v = some c → s.Owes u c.side →
      (∃ w ∈ ws, w.Covers c.side) ∨ (0 < (s.sem c.side).value ∧ (s.sem c.side).queue = []))
    (woken : ∀ x ws next, (s.tasks u).pc = .wakeProc x ws next → ∀ side, ¬ s.Asleep x side) :
    Watch (s.afterWakes u ws next) := by
  have goes (pc : Pc) (now : pc.call = next.call) (sleeping : pc.sleeping = none)
      (notDown : ∀ c, pc ≠ .down c) (pending : pc.pending = ws) : Watch (s.setPc u pc) := by
    refine h.move (fun v c _ => h.inside v c) (fun c there => ?_)
      (fun side _ mem => absurd mem (h.unqueued awake side)) (by simp [sleeping]) (by grind) woken
      (fun _ _ _ _ => .inl) fun c down => absurd down (notDown c)
    have mine : s.call u = some c := current.trans (now.symm.trans there)
    exact ⟨h.inside u c mine, fun _ _ other => h.apart mine other⟩
  cases ws with
  | cons w ws => exact goes (.wakes (w :: ws) next) rfl rfl nofun rfl
  | nil =>
    cases next with
    | again c => exact goes (.loop c) rfl rfl nofun rfl
    | closed => exact goes .idle rfl rfl nofun rfl
    | ret id len nonblock value => exact h.endCall current (h.unqueued awake) (by grind) woken

end

variable {rest : List Nat}

/-- A sleeper is a waiter that a wake call finds. -/
theorem Watch.found (h : Watch s) {woken : Option Nat}
    (popped : s.popWaiter side = (woken, rest)) (asleep : s.Asleep v side)
    (mem : v ∈ (s.sem side).queue) : woken = some v ∨ v ∈ rest := by
  obtain ⟨c, sleeping, -, state⟩ := asleep
  exact Sync.popWaiter_left popped mem (.inr (h.parked v c sleeping state))

variable {w : Wake}

section

variable (h : Watch s) (here : (s.tasks u).pc = .wakes (w :: ws) next)
include h here

/-- A wake call that finds nobody leaves a token. -/
theorem Watch.wakeNobody {value : Nat} (popped : s.popWaiter w.side = (none, rest))
    (more : 0 < (s.sem w.side).value → 0 < value)
    (token : ¬ (w.all = true ∧ w.woke = true) → 0 < value) :
    Watch ((s.setSem w.side ⟨value, rest⟩).afterWakes u ws next) := by
  obtain rfl := Sync.popWaiter_none popped
  have left : Watch (s.setSem w.side ⟨value, []⟩) := by
    refine h.setSem (nil_sublist _) (fun _ _ _ _ => more) fun v asleep mem => ?_
    have found := h.found popped asleep mem
    grind
  have same : ((s.setSem w.side ⟨value, []⟩).tasks u).pc = .wakes (w :: ws) next := here
  refine left.afterWakes (by rw [same]; rfl) (by rw [call, same]; rfl) ?_ (by simp [same])
  rintro v c other there ⟨x, pending, covers⟩
  rw [same] at pending
  rcases mem_cons.mp pending with rfl | later
  · rw [← covers.1, setSem_self]
    exact .inr ⟨token covers.2, rfl⟩
  · exact .inl ⟨x, later, covers⟩

/-- A wake call that has found a sleeper is going to wake it. -/
theorem Watch.wakeSomebody {ws' : List Wake} (popped : s.popWaiter w.side = (some x, rest))
    (sub : ws ⊆ ws') (pc : task.pc = (s.tasks x).pc)
    (proc : task.proc = (s.tasks x).proc) :
    Watch (((s.setSem w.side ⟨(s.sem w.side).value, rest⟩).setTask x task).setPc u
      (.wakeProc x ws' next)) := by
  obtain ⟨shorter, valid⟩ := Sync.popWaiter_spec popped
  obtain ⟨mem, -⟩ := valid x rfl
  obtain ⟨c, waiting, side⟩ := h.queued w.side x mem
  have other : x ≠ u := by grind [Pc.waiting]
  have mine : s.call u = next.call := by rw [call, here]; rfl
  -- The sleeper is noted before its node leaves the queue.
  have noted : Watch (s.setPc u (.wakeProc x ws' next)) := by
    refine h.move (fun v d _ => h.inside v d) (fun d there => ?_)
      (fun side _ queued => absurd queued (h.unqueued (by rw [here]; rfl) side)) (by rintro _ ⟨⟩) ?_
      (by simp [here]) (fun _ _ _ _ => .inl) (by simp)
    · have now : s.call u = some d := mine.trans there
      exact ⟨h.inside u d now, fun _ _ differs => h.apart now differs⟩
    · rintro v d differs there ⟨w', pending, covers⟩
      rw [here] at pending
      rcases List.mem_cons.mp pending with rfl | later
      · obtain rfl := h.single v x d c there (Pc.call_of_waiting waiting) (covers.1.symm.trans side.symm)
        rw [← covers.1]
        exact .inr (.inr ⟨⟨ws', next, rfl⟩, mem⟩)
      · exact .inl ⟨w', sub later, covers⟩
  have procs (v : Nat) : ((s.setPc u (.wakeProc x ws' next)).tasks v).proc = (s.tasks v).proc := by
    simp only [setPc, setTask, update_apply]
    grind
  have same : (s.setPc u (.wakeProc x ws' next)).popWaiter w.side = (some x, rest) := by
    rw [PipeState.popWaiter]
    simp only [procs]
    exact popped
  have taken : Watch ((s.setPc u (.wakeProc x ws' next)).setSem w.side ⟨(s.sem w.side).value, rest⟩) := by
    refine noted.setSem shorter (fun _ _ _ _ => id) fun v asleep queued => ?_
    rcases noted.found same asleep queued with found | later
    · obtain rfl := Option.some.inj found
      exact .inr ⟨u, ws', next, by rw [setPc, setTask_self]⟩
    · exact .inl later
  have commute : ((s.setSem w.side ⟨(s.sem w.side).value, rest⟩).setTask x task).setPc u
      (.wakeProc x ws' next) = ((s.setPc u (.wakeProc x ws' next)).setSem w.side
      ⟨(s.sem w.side).value, rest⟩).setTask x task := by
    simp [PipeState.setSem, setPc, setTask, update_of_ne other.symm, update_comm other]
  have there : ((s.setPc u (.wakeProc x ws' next)).setSem w.side
      ⟨(s.sem w.side).value, rest⟩).tasks x = s.tasks x := setTask_other _ other
  rw [commute]
  exact taken.withTask (by rw [there, pc]) (by rw [there, proc]; exact fun _ _ state => ⟨state, rfl⟩)

theorem Watch.wakeSection : Watch (s.wakeSection u w ws next) := by
  rw [PipeState.wakeSection]
  split
  · rename_i rest popped
    refine h.wakeNobody here popped ?_ ?_
    · intro token
      rwa [if_neg fun empty => token.ne' empty.1]
    · intro event
      split_ifs with empty
      · exact Nat.one_pos
      · exact Nat.pos_of_ne_zero fun zero => empty ⟨zero, event⟩
  · rename_i x rest popped
    refine h.wakeSomebody here popped ?_ rfl rfl
    split_ifs
    · exact subset_cons_self _ _
    · exact Subset.refl _

end

theorem Watch.wakeup (h : Watch s) (here : (s.tasks u).pc = .wakeProc x ws next) :
    Watch ((s.setTask x { s.tasks x with proc := (s.tasks x).proc.wakeup }).afterWakes u ws next) := by
  have runs : (s.tasks x).proc.wakeup.state ≠ .sleeping := Proc.wakeup_state _
  have woken : Watch (s.setTask x { s.tasks x with proc := (s.tasks x).proc.wakeup }) :=
    h.withTask rfl fun _ _ state => absurd state runs
  have same : ((s.setTask x { s.tasks x with proc := (s.tasks x).proc.wakeup }).tasks u).pc =
      .wakeProc x ws next := by
    simp only [setTask, update_apply]
    grind
  refine woken.afterWakes (by rw [same]; rfl) (by rw [call, same]; rfl) ?_ ?_
  · rintro v c other there ⟨w, pending, covers⟩
    rw [same] at pending
    exact .inl ⟨w, pending, covers⟩
  · rintro y ws' next' there side ⟨c, -, -, state⟩
    obtain ⟨rfl, -, -⟩ := wakeProc.inj (same.symm.trans there)
    rw [setTask_self] at state
    exact runs state

section

variable (h : Watch s) (here : (s.tasks u).pc = .down c)
include h here

theorem Watch.takeToken {value : Nat} :
    Watch ((s.setSem c.side ⟨value, (s.sem c.side).queue⟩).setPc u (.loop c)) := by
  have moved : Watch (s.setPc u (.loop c)) :=
    h.goOn_awake (by rw [here]; rfl) (by rw [call, here]; rfl) (by simp [here, Pc.waiting]) rfl rfl (by simp)
  refine moved.setSem (Sublist.refl _) (fun v d down same => ?_) fun _ _ mem => .inl mem
  -- Nobody else is at the semaphore of this side.
  have there : (s.setPc u (.loop c)).call v = some d := by rw [call, down]; rfl
  obtain rfl := moved.single v u d c there (by rw [call, setPc, setTask_self]; rfl) same
  rw [setPc, setTask_self] at down
  cases down

/-- `wait_current_set`: without a token the task goes to sleep. -/
theorem Watch.publish (empty : (s.sem c.side).value = 0) (published : task.pc = .published c)
    (state : task.proc.waitState = eventWait) :
    Watch ((s.setSem c.side ⟨0, (s.sem c.side).queue ++ [u]⟩).setTask u task) := by
  have free : (s.tasks u).pc.owes = false := by rw [here]; rfl
  have current : s.call u = some c := by rw [call, here]; rfl
  have unqueued := h.unqueued (u := u) (by rw [here]; rfl)
  generalize result : (s.setSem c.side ⟨0, (s.sem c.side).queue ++ [u]⟩).setTask u task = t
  have tasks (v : Nat) : t.tasks v = if v = u then task else s.tasks v := by
    rw [← result]
    exact update_apply ..
  have sems (side : Side) : t.sem side =
      if side = c.side then ⟨0, (s.sem c.side).queue ++ [u]⟩ else s.sem side := by
    rw [← result]
    exact update_apply ..
  have inside : t.inside = s.inside := by rw [← result]; rfl
  have reasons (side : Side) : t.Reason side ↔ s.Reason side := reason_of_pipe (by rw [← result]; rfl)
  have now : t.call u = some c := by simp [call, tasks, published, Pc.call]
  have apart (v : Nat) (d : Call) (other : v ≠ u) := h.apart (d := d) current other
  have owes (side : Side) : ¬ s.Owes u side := not_owes free
  refine h.turn (u := u) ⟨?_, ?_, ?_, ?_, ?_, ?_, ?_, ?_, ?_, ?_, ?_, ?_, ?_, ?_⟩
  · grind
  · exact fun v d _ there => inside ▸ h.inside v d there
  · grind [h.inside u c]
  · grind
  · grind
  · grind [h.nodup]
  · grind [Pc.waiting]
  · grind
  · grind
  · grind
  · exact fun _ _ _ there => absurd there (not_wakeProc free)
  · grind
  · grind
  · rintro side ⟨d, sleeping, rfl, asleep⟩
    obtain rfl : c = d := by simpa [tasks, published, Pc.sleeping] using sleeping
    refine .inr ⟨by simp [sems], ?_⟩
    rcases h.before u c here with why | token | ⟨v, w, pending, covers⟩
    · exact .inl ((reasons _).mpr why)
    · omega
    · have other : v ≠ u := by
        rintro rfl
        exact owes _ ⟨w, pending, covers⟩
      exact .inr ⟨v, w, by rwa [tasks, if_neg other], covers⟩

theorem Watch.downSection : Watch (s.downSection u c) := by
  rw [PipeState.downSection]
  split_ifs with token
  · exact h.takeToken here
  · have empty : (s.sem c.side).value = 0 := by omega
    rw [empty]
    exact h.publish here empty rfl rfl

end

/-- What a task does after a close. -/
theorem afterWakes_closed (s : PipeState) (u : Nat) (ws : List Wake) : ∃ pc,
    s.afterWakes u ws .closed = s.setPc u pc ∧ pc.pending = ws ∧ pc.call = none ∧
      pc.sleeping = none ∧ ∀ c, pc ≠ .down c := by
  cases ws with
  | nil => exact ⟨.idle, rfl, rfl, rfl, rfl, nofun⟩
  | cons w ws => exact ⟨.wakes (w :: ws) .closed, rfl, rfl, rfl, rfl, nofun⟩

theorem Watch.closeEnd {readable writable : Bool} (h : Watch s) (idle : (s.tasks u).pc = .idle) :
    Watch (s.closeEnd u readable writable) := by
  have free : (s.tasks u).pc.owes = false := by rw [idle]; rfl
  rw [PipeState.closeEnd]
  obtain ⟨pc, after, pending, call, sleeping, notDown⟩ := afterWakes_closed
    { s with pipe := { s.pipe with
      readers := if readable then s.pipe.readers - 1 else s.pipe.readers
      writers := if writable then s.pipe.writers - 1 else s.pipe.writers } } u
    ((if writable && s.pipe.writers == 1 then [⟨.read, true, false⟩] else []) ++
      (if readable && s.pipe.readers == 1 then [⟨.write, true, false⟩] else []))
  rw [after]
  refine h.move (fun v c _ => h.inside v c) (by simp [call]) (by simp [idle, Pc.waiting]) (by simp [sleeping])
    (fun _ _ _ _ owes => absurd owes (not_owes free)) (by simp [idle]) (fun v c _ _ why => ?_)
    fun c down => absurd down (notDown c)
  -- The last end of a side wakes all sleepers of the other one.
  rw [pending]
  generalize c.side = side at why
  cases side with
  | read =>
    obtain ⟨count, some⟩ := why
    by_cases last : writable = true ∧ s.pipe.writers = 1
    · exact .inr ⟨⟨.read, true, false⟩, by simp [last], rfl, nofun⟩
    · refine .inl ⟨count, ?_⟩
      grind
  | write =>
    obtain ⟨count, some⟩ := why
    by_cases last : readable = true ∧ s.pipe.readers = 1
    · exact .inr ⟨⟨.write, true, false⟩, by simp [last], rfl, nofun⟩
    · refine .inl ⟨count, ?_⟩
      grind

theorem Watch.step {op : PipeOp} (h : Watch s) (full : s.pipe.ring.count ≤ fsPipeCapacity)
    (single : s.Single op) (taken : s.step op = some t) : Watch t := by
  have free {v : Nat} {pc : Pc} (here : (s.tasks v).pc = pc) (owes : pc.owes = false) :
      (s.tasks v).pc.owes = false := by rw [here, owes]
  have at_ {v : Nat} {pc : Pc} (here : (s.tasks v).pc = pc) : s.call v = pc.call := by
    rw [call, here]
  cases op with (simp only [PipeState.step] at taken; try split at taken) <;> try cases taken
  | startRead u len nonblock | startWrite u base len nonblock =>
    rename_i here
    split at taken
    · cases taken
      exact h.start here single
    · cases taken
  | pass u =>
    rename_i here
    first
    | exact h.readPass here
    | exact h.writePass full here
  | wake u =>
    rename_i here
    exact h.wakeSection here
  | wakeup u =>
    rename_i here
    exact h.wakeup here
  | down u =>
    rename_i here
    exact h.downSection here
  | recheck u =>
    rename_i c here
    split_ifs with signalled
    · exact h.goOn_awake (free here rfl) (at_ here) (by simp [here, Pc.waiting]) rfl rfl (by simp)
    · exact h.goOn_alone (free here rfl) (at_ here) (by simp [here, Pc.waiting]) rfl
        (by simp [here, Pc.sleeping]) (by simp)
  | selfWake u =>
    rename_i c here
    exact h.goOn_awake (free here rfl) (at_ here) (by simp [here, Pc.waiting]) rfl rfl (by simp)
  | withdraw u =>
    rename_i c here
    have removed : Watch (s.waitCurrentDel u c) := h.waitCurrentDel (by rw [here]; rfl)
    exact removed.leave (free here rfl) (at_ here) (h.waitCurrentDel_gone (by rw [here]; rfl))
  | resume u =>
    rename_i c here
    obtain ⟨-, ⟨⟩⟩ := ite_none_right_eq_some.mp taken
    exact h.goOn_awake (free here rfl) (at_ here) (by simp [here, Pc.waiting]) rfl rfl (by simp)
  | waitCurrentDel u =>
    rename_i c here
    have removed : Watch (s.waitCurrentDel u c) := h.waitCurrentDel (by rw [here]; rfl)
    refine removed.goOn_awake (free here rfl) (at_ here) (fun side _ mem => ?_) rfl rfl (by simp)
    exact absurd mem (h.waitCurrentDel_gone (by rw [here]; rfl) side)
  | finish u =>
    rename_i c here
    split at taken <;> cases taken
    · exact h.goOn_awake (free here rfl) (at_ here) (by simp [here, Pc.waiting]) rfl rfl (by simp)
    · exact h.leave (free here rfl) (at_ here) (h.unqueued (by rw [here]; rfl))
  | close u readable writable =>
    rename_i here
    exact h.closeEnd here
  | stray u =>
    exact h.withTask rfl fun _ _ state => absurd state (Proc.wakeup_state _)
  | kill u signo =>
    exact h.withTask rfl fun _ _ state => Proc.doKillSignal_sleeping state
  | other u proc =>
    rename_i here
    refine h.withTask rfl fun c sleeping => ?_
    rw [here] at sleeping
    cases sleeping

variable {ops : List PipeOp} {readers writers : Nat} {cells : Nat → UInt8} {procs : Nat → Proc}

theorem watch_of_run (single : Along step Single (create readers writers cells procs) ops)
    (run : runFrom step (create readers writers cells procs) ops = some t) : Watch t := by
  have keeps (s : PipeState) (op : PipeOp) (s' : PipeState) (inv : Watch s ∧ ∃ queue, Queued s queue)
      (single : s.Single op) (taken : s.step op = some s') : Watch s' ∧ ∃ queue, Queued s' queue := by
    obtain ⟨h, queue, queued⟩ := inv
    obtain ⟨queue', -, -, queued', -⟩ := (step_effect taken).simulates queued
    exact ⟨h.step queued.holds.room single taken, queue', queued'⟩
  have start := Queued.create readers writers cells procs
  exact (runFrom_invariant keeps ⟨Watch.create readers writers cells procs, [], start⟩ single run).1

/-- With at most one reader and one writer in the pipe, and no other task between a change and its
    wake calls, a reader sleeps only on an empty buffer with a writer left, and a writer only on a
    full one with a reader left. -/
theorem no_lost_wakeup {u : Nat}
    (single : Along step Single (create readers writers cells procs) ops)
    (run : runFrom step (create readers writers cells procs) ops = some t)
    (quiet : ∀ v, v ≠ u → (t.tasks v).pc.owes = false) :
    (t.Asleep u .read → t.pipe.ring.count = 0 ∧ 0 < t.pipe.writers) ∧
    (t.Asleep u .write → t.pipe.ring.count = fsPipeCapacity ∧ 0 < t.pipe.readers) := by
  have h := watch_of_run single run
  exact ⟨fun asleep => h.reason asleep quiet, fun asleep => h.reason asleep quiet⟩

/-- A read of an empty pipe sleeps until a byte is written; the next read sleeps again. -/
def readAgain : List PipeOp :=
  [.startRead 0 1 false, .pass 0, .down 0, .recheck 0, .startWrite 1 (fun _ => 7) 1 false, .pass 1, .wake 1,
    .wakeup 1, .pass 1, .resume 0, .waitCurrentDel 0, .finish 0, .pass 0, .wake 0,
    .startRead 0 1 false, .pass 0, .down 0, .recheck 0]

theorem no_lost_wakeup_readAgain : ∃ t,
    runFrom step (create 1 1 (fun _ => 0) fun _ => {}) readAgain = some t ∧ t.Asleep 0 .read ∧
      t.pipe.ring.count = 0 ∧ 0 < t.pipe.writers := by
  have ends : (runFrom step (create 1 1 (fun _ => 0) fun _ => {}) readAgain).map (fun t =>
      ((t.tasks 0).pc.sleeping.map Call.side, (t.tasks 0).proc.state)) =
        some (some .read, .sleeping) := by
    decide +kernel
  obtain ⟨t, run, facts⟩ := map_eq_some_iff.mp ends
  obtain ⟨sleeping, state⟩ := Prod.mk.inj facts
  obtain ⟨c, here, side⟩ := map_eq_some_iff.mp sleeping
  have quiet (v : Nat) (other : v ≠ 0) : (t.tasks v).pc.owes = false := by
    cases run
    rcases v with _ | _ | v
    · exact absurd rfl other
    · rfl
    · rfl
  have asleep : t.Asleep 0 .read := ⟨c, here, side, state⟩
  exact ⟨t, run, asleep, (no_lost_wakeup (by decide +kernel) run quiet).1 asleep⟩

end PipeState

end Procore.Fs
