import Procore.Lib.Run
import Procore.Process.Proc

/-! # The kernel timer list

`timer_list` is a delta list: each node stores the ticks left after its
predecessor expires. The ticks left of a node are therefore the sum of the
deltas up to it. `add_timer` and `del_timer` keep these sums; the expiry loop of
`run_timer_list` takes one tick off every node it looks at, not only off the
first, so it keeps them only when nothing that is due later is left behind.
-/

namespace Procore.Schedule

open Procore.Process Procore.Lib
open Function

/-- A `timer_t` linked on `timer_list`. `id` stands for its address; `expires` is
    an `unsigned int`. -/
structure Timer where
  id : Nat
  proc : Nat
  expires : Nat
  expires_lt : expires < 2 ^ 32

/-- Take `ticks` off a delta. Every use checks that the delta is at least `ticks`. -/
def Timer.less (timer : Timer) (ticks : Nat) : Timer :=
  { timer with
    expires := timer.expires - ticks
    expires_lt := Nat.lt_of_le_of_lt (Nat.sub_le ..) timer.expires_lt }

@[simp] theorem Timer.less_id (timer : Timer) (ticks : Nat) : (timer.less ticks).id = timer.id := rfl

@[simp] theorem Timer.less_proc (timer : Timer) (ticks : Nat) :
    (timer.less ticks).proc = timer.proc := rfl

@[simp] theorem Timer.less_expires (timer : Timer) (ticks : Nat) :
    (timer.less ticks).expires = timer.expires - ticks := rfl

/-- The loop of `add_timer`, from the node `le` on. -/
def addTimer (timer : Timer) : List Timer → List Timer
  | [] => [timer]
  | next :: rest =>
    if timer.expires < next.expires then timer :: next.less timer.expires :: rest
    else next :: addTimer (timer.less next.expires) rest

/-- Give the delta of a deleted node to its successor, in `unsigned int`
    arithmetic. -/
def passDelta (delta : Nat) : List Timer → List Timer
  | [] => []
  | next :: rest =>
    { next with
      expires := (next.expires + delta) % 2 ^ 32
      expires_lt := Nat.mod_lt _ (by decide) } :: rest

/-- `del_timer`: a timer that is not linked is left alone. -/
def delTimer (id : Nat) : List Timer → List Timer
  | [] => []
  | timer :: rest =>
    if timer.id = id then
      if timer.expires ≠ 0 then passDelta timer.expires rest else rest
    else timer :: delTimer id rest

/-- The processes the expiry loop wakes. -/
abbrev Procs := Nat → Proc

/-- The assertion before an expired timer wakes its process: a process with a
    wait state must be in an interruptible wait. -/
def expiryAllowed (proc : Proc) : Bool :=
  proc.waitState == 0 || (proc.waitState &&& wtInterrupted) != 0

/-- What one round of the expiry loop makes of the head's delta. -/
def Timer.ticked (timer : Timer) : Nat :=
  if timer.expires ≠ 0 then timer.expires - 1 else timer.expires

theorem Timer.ticked_eq (timer : Timer) : timer.ticked = timer.expires - 1 := by
  unfold Timer.ticked
  split <;> omega

/-- `run_timer_list`: the list left, the processes after the wake-ups, and the
    timers that expired. Each round looks at the head, takes a tick off a
    non-zero delta and stops at the first node that is not due. `none` is the
    failed assertion. -/
def runTimerList : List Timer → Procs → Option (List Timer × Procs × List Timer)
  | [], procs => some ([], procs, [])
  | timer :: rest, procs =>
    if timer.ticked = 0 then
      if expiryAllowed (procs timer.proc) then
        (runTimerList rest
          (update procs timer.proc (procs timer.proc).wakeup)).map
            fun (left, procs', expired) => (left, procs', timer :: expired)
      else none
    else
      some (timer.less 1 :: rest, procs, [])

/-- The timer list, the processes, and the timers the latest call expired. -/
structure TimerState where
  timers : List Timer := []
  procs : Procs := fun _ => {}
  expired : List Timer := []

/-- One call, or one change other kernel code makes to a process. -/
inductive TimerLabel where
  | add (timer : Timer)
  | del (id : Nat)
  | tick
  | proc (p : Nat) (value : Proc)

def linked (timers : List Timer) (id : Nat) : Prop := ∃ t ∈ timers, t.id = id

instance (timers : List Timer) (id : Nat) : Decidable (linked timers id) :=
  inferInstanceAs (Decidable (∃ t ∈ timers, t.id = id))

/-- One call as one step. `add_timer` asserts a positive delta and an unlinked
    timer. -/
def timerStep (s : TimerState) : TimerLabel → Option TimerState
  | .add timer =>
    if 0 < timer.expires ∧ ¬ linked s.timers timer.id then
      some { s with timers := addTimer timer s.timers, expired := [] }
    else none
  | .del id => some { s with timers := delTimer id s.timers, expired := [] }
  | .tick =>
    (runTimerList s.timers s.procs).map fun (left, procs, expired) =>
      { timers := left, procs := procs, expired := expired }
  | .proc p value => some { s with procs := update s.procs p value, expired := [] }

/-! ## Ticks left -/

/-- The ticks left of the timer `id`, the deltas up to and including its own,
    and the process it wakes. -/
def remaining (id : Nat) : List Timer → Option (Nat × Nat)
  | [] => none
  | timer :: rest =>
    if timer.id = id then some (timer.expires, timer.proc)
    else (remaining id rest).map fun (ticks, proc) => (timer.expires + ticks, proc)

/-- The ticks left of the last timer. -/
def span (timers : List Timer) : Nat := (timers.map Timer.expires).sum

@[simp] theorem span_nil : span [] = 0 := rfl

@[simp] theorem span_cons (timer : Timer) (rest : List Timer) :
    span (timer :: rest) = timer.expires + span rest := by
  simp [span]

theorem linked_iff_remaining (id : Nat) (timers : List Timer) :
    linked timers id ↔ (remaining id timers).isSome := by
  induction timers with
  | nil => simp [linked, remaining]
  | cons timer rest ih =>
    by_cases same : timer.id = id
    · simp [linked, remaining, same]
    · simpa [linked, remaining, same] using ih

theorem remaining_addTimer_self (timer : Timer) (timers : List Timer)
    (fresh : ¬ linked timers timer.id) :
    remaining timer.id (addTimer timer timers) = some (timer.expires, timer.proc) := by
  induction timers generalizing timer with
  | nil => simp [addTimer, remaining]
  | cons next rest ih =>
    have other : next.id ≠ timer.id := fun same => fresh ⟨next, by simp, same⟩
    have freshRest : ¬ linked rest timer.id := fun ⟨t, ht, same⟩ =>
      fresh ⟨t, List.mem_cons_of_mem _ ht, same⟩
    simp only [addTimer]
    split_ifs with notBefore
    · simp [remaining]
    have tail := ih (timer.less next.expires) freshRest
    simp only [Timer.less_id, Timer.less_expires, Timer.less_proc] at tail
    simp only [remaining, if_neg other, tail, Option.map_some, Option.some.injEq,
      Prod.mk.injEq, and_true]
    omega

variable {id : Nat}

theorem remaining_addTimer_other (timer : Timer) (timers : List Timer)
    (other : timer.id ≠ id) : remaining id (addTimer timer timers) = remaining id timers := by
  induction timers generalizing timer with
  | nil => simp [addTimer, remaining, other]
  | cons next rest ih =>
    simp only [addTimer]
    split_ifs with before
    · have sum : timer.expires + (next.expires - timer.expires) = next.expires := by omega
      simp only [remaining, if_neg other, Timer.less_id, Timer.less_expires, Timer.less_proc]
      by_cases same : next.id = id
      · simp only [same, if_true, Option.map_some, sum]
      · simp only [same, if_false, Option.map_map]
        congr 1
        funext r
        simp [← Nat.add_assoc, sum]
    · simp only [remaining]
      rw [ih (timer.less next.expires) other]

theorem span_addTimer (timer : Timer) (timers : List Timer) :
    span (addTimer timer timers) = max timer.expires (span timers) := by
  induction timers generalizing timer with
  | nil => simp [addTimer]
  | cons next rest ih =>
    simp only [addTimer]
    split
    · simp only [span_cons, Timer.less_expires]
      omega
    · simp only [span_cons, ih, Timer.less_expires]
      omega

theorem remaining_passDelta (delta : Nat) (timers : List Timer)
    (small : delta + span timers < 2 ^ 32) (id : Nat) :
    remaining id (passDelta delta timers) =
      (remaining id timers).map fun (ticks, proc) => (delta + ticks, proc) := by
  cases timers with
  | nil => rfl
  | cons next rest =>
    simp only [span_cons] at small
    have exact : (next.expires + delta) % 2 ^ 32 = delta + next.expires := by
      omega
    simp only [passDelta, remaining, exact]
    split
    · rfl
    · cases remaining id rest with
      | none => rfl
      | some r => simp only [Option.map_some, Nat.add_assoc]

theorem span_passDelta (delta : Nat) (timers : List Timer) :
    span (passDelta delta timers) ≤ delta + span timers := by
  cases timers with
  | nil => simp [passDelta]
  | cons next rest =>
    simp only [passDelta, span_cons]
    omega

theorem remaining_delTimer_other (gone : Nat) (timers : List Timer)
    (small : span timers < 2 ^ 32) (other : gone ≠ id) :
    remaining id (delTimer gone timers) = remaining id timers := by
  induction timers with
  | nil => rfl
  | cons timer rest ih =>
    simp only [span_cons] at small
    simp only [delTimer]
    split
    · rename_i same
      have differs : timer.id ≠ id := fun h => other (same.symm.trans h)
      simp only [remaining]
      split_ifs with zero
      · exact remaining_passDelta _ _ small id
      · have : timer.expires = 0 := by simpa using zero
        simp [this]
    · simp only [remaining]
      rw [ih (by omega)]

theorem span_delTimer (gone : Nat) (timers : List Timer) :
    span (delTimer gone timers) ≤ span timers := by
  induction timers with
  | nil => simp [delTimer]
  | cons timer rest ih =>
    simp only [delTimer, span_cons]
    split
    · split
      · exact span_passDelta _ _
      · omega
    · simp only [span_cons]
      omega

/-! ## One call of `run_timer_list` -/

/-- A pending list never starts with a timer that is already due. -/
def HeadPositive : List Timer → Prop
  | [] => True
  | timer :: _ => 0 < timer.expires

/-- When the head is due in the next call, so is every other timer. -/
def DueTogether : List Timer → Prop
  | [] => True
  | timer :: rest => timer.expires ≤ 1 → ∀ u ∈ rest, u.expires = 0

theorem wakeup_idem (proc : Proc) : proc.wakeup.wakeup = proc.wakeup := by
  unfold Proc.wakeup
  split_ifs <;> simp_all

variable {timers left expired : List Timer} {procs procs' : Procs}

/-- A list of timers that are all due expires as a whole. -/
theorem runTimerList_allDue (due : ∀ u ∈ timers, u.expires = 0)
    (run : runTimerList timers procs = some (left, procs', expired)) :
    left = [] ∧ expired = timers := by
  induction timers generalizing procs left expired with
  | nil =>
    simp only [runTimerList, Option.some.injEq, Prod.mk.injEq] at run
    exact ⟨run.1.symm, run.2.2.symm⟩
  | cons timer rest ih =>
    have zero : timer.expires = 0 := due timer (by simp)
    simp only [runTimerList, timer.ticked_eq, zero, if_true] at run
    split at run
    · obtain ⟨⟨left', p', expired'⟩, hrest, heq⟩ := Option.map_eq_some_iff.mp run
      obtain ⟨rfl, rfl, rfl⟩ := heq
      obtain ⟨hl, he⟩ := ih (fun u hu => due u (.tail _ hu)) hrest
      exact ⟨hl, by rw [he]⟩
    · cases run

/-- The processes of the expired timers are woken, the others keep their state. -/
theorem runTimerList_procs (run : runTimerList timers procs = some (left, procs', expired)) (p : Nat) :
    procs' p = if ∃ u ∈ expired, u.proc = p then (procs p).wakeup else procs p := by
  induction timers generalizing procs left expired with
  | nil =>
    obtain ⟨-, rfl, rfl⟩ := run
    simp
  | cons timer rest ih =>
    simp only [runTimerList] at run
    split at run
    · split at run
      · obtain ⟨⟨left', p', expired'⟩, hrest, heq⟩ := Option.map_eq_some_iff.mp run
        obtain ⟨rfl, rfl, rfl⟩ := heq
        rw [ih hrest]
        by_cases same : timer.proc = p
        · subst same
          simp [wakeup_idem]
        · have differs : p ≠ timer.proc := fun h => same h.symm
          simp [update_of_ne differs, same]
      · cases run
    · obtain ⟨-, rfl, rfl⟩ := run
      simp

theorem remaining_zeroes (due : ∀ u ∈ timers, u.expires = 0)
    {r : Nat × Nat} (h : remaining id timers = some r) :
    r.1 = 0 ∧ ∃ u ∈ timers, u.id = id ∧ u.proc = r.2 := by
  induction timers generalizing r with
  | nil => simp [remaining] at h
  | cons timer rest ih =>
    simp only [remaining] at h
    split_ifs at h with same
    · obtain rfl := Option.some.inj h
      exact ⟨due timer (by simp), timer, by simp, same, rfl⟩
    · obtain ⟨r', hr', rfl⟩ := Option.map_eq_some_iff.mp h
      obtain ⟨zero, u, hu, hid, hproc⟩ :=
        ih (fun u hu => due u (.tail _ hu)) hr'
      exact ⟨by simp [due timer (by simp), zero], u, List.mem_cons_of_mem _ hu, hid, hproc⟩

variable {n proc : Nat}

/-- One call takes one tick off a timer that is not due yet. -/
theorem runTimerList_pending (together : DueTogether timers)
    (run : runTimerList timers procs = some (left, procs', expired))
    (h : remaining id timers = some (n, proc)) (later : 1 < n) :
    remaining id left = some (n - 1, proc) ∧ expired = [] := by
  cases timers with
  | nil => simp [remaining] at h
  | cons timer rest =>
    have headLater : 1 < timer.expires := by
      by_contra due
      simp only [remaining] at h
      split at h
      · simp only [Option.some.injEq, Prod.mk.injEq] at h
        omega
      · obtain ⟨r, hr, heq⟩ := Option.map_eq_some_iff.mp h
        have zero := (remaining_zeroes (together (by omega)) hr).1
        simp only [Prod.mk.injEq] at heq
        omega
    have notDue : timer.expires - 1 ≠ 0 := by omega
    simp only [runTimerList, timer.ticked_eq, notDue] at run
    obtain ⟨rfl, -, rfl⟩ := run
    refine ⟨?_, rfl⟩
    simp only [remaining, Timer.less_id, Timer.less_expires] at h ⊢
    split at h
    · rename_i same
      simp only [Option.some.injEq, Prod.mk.injEq] at h
      simp [if_pos same, h.1, h.2]
    rename_i other
    obtain ⟨r, hr, heq⟩ := Option.map_eq_some_iff.mp h
    simp only [Prod.mk.injEq] at heq
    simp only [if_neg other, hr, Option.map_some, Option.some.injEq, Prod.mk.injEq]
    omega

/-- One call expires a timer whose last tick it is. -/
theorem runTimerList_due (head : HeadPositive timers) (together : DueTogether timers)
    (run : runTimerList timers procs = some (left, procs', expired))
    (h : remaining id timers = some (1, proc)) :
    left = [] ∧ ∃ u ∈ expired, u.id = id ∧ u.proc = proc := by
  cases timers with
  | nil => simp [remaining] at h
  | cons timer rest =>
    have one : timer.expires = 1 := by
      have pos : 0 < timer.expires := head
      simp only [remaining] at h
      split at h
      · simp only [Option.some.injEq, Prod.mk.injEq] at h
        exact h.1
      · obtain ⟨r, -, heq⟩ := Option.map_eq_some_iff.mp h
        simp only [Prod.mk.injEq] at heq
        omega
    have restDue := together (by omega)
    simp only [runTimerList, timer.ticked_eq, one, if_true] at run
    split at run
    · obtain ⟨⟨left', p', expired'⟩, hrest, heq⟩ := Option.map_eq_some_iff.mp run
      obtain ⟨rfl, -, rfl⟩ := heq
      obtain ⟨hl, rfl⟩ := runTimerList_allDue restDue hrest
      refine ⟨hl, ?_⟩
      simp only [remaining] at h
      split_ifs at h with same
      · simp only [Option.some.injEq, Prod.mk.injEq] at h
        exact ⟨timer, by simp, same, h.2⟩
      · obtain ⟨r, hr, heq⟩ := Option.map_eq_some_iff.mp h
        simp only [Prod.mk.injEq] at heq
        obtain ⟨-, u, hu, hid, hproc⟩ := remaining_zeroes restDue hr
        exact ⟨u, List.mem_cons_of_mem _ hu, hid, hproc.trans heq.2⟩
    · cases run

/-! ## Runs -/

/-- What every call keeps, whether or not timers expire together. -/
structure TimerInv (s : TimerState) : Prop where
  head : HeadPositive s.timers
  small : span s.timers < 2 ^ 32

theorem headPositive_addTimer {timer : Timer} (pos : 0 < timer.expires)
    (head : HeadPositive timers) : HeadPositive (addTimer timer timers) := by
  cases timers with
  | nil => exact pos
  | cons next rest =>
    simp only [addTimer]
    split
    · exact pos
    · exact head

theorem headPositive_delTimer (gone : Nat) (head : HeadPositive timers)
    (small : span timers < 2 ^ 32) : HeadPositive (delTimer gone timers) := by
  cases timers with
  | nil => trivial
  | cons timer rest =>
    have pos : 0 < timer.expires := head
    have nonzero : timer.expires ≠ 0 := by omega
    simp only [delTimer, nonzero, ne_eq, not_false_eq_true, if_true]
    split
    · cases rest with
      | nil => trivial
      | cons next rest =>
        simp only [span_cons] at small
        simp only [passDelta, HeadPositive]
        omega
    · exact head

theorem runTimerList_inv (run : runTimerList timers procs = some (left, procs', expired)) :
    HeadPositive left ∧ span left ≤ span timers := by
  induction timers generalizing procs left expired with
  | nil =>
    obtain ⟨rfl, -, -⟩ := run
    exact ⟨trivial, le_rfl⟩
  | cons timer rest ih =>
    simp only [runTimerList] at run
    split at run
    · split at run
      · obtain ⟨⟨left', p', expired'⟩, hrest, heq⟩ := Option.map_eq_some_iff.mp run
        obtain ⟨rfl, rfl, -⟩ := heq
        obtain ⟨hh, hs⟩ := ih hrest
        simp only [span_cons]
        exact ⟨hh, by omega⟩
      · cases run
    · rename_i notDue
      rw [timer.ticked_eq] at notDue
      obtain ⟨rfl, -, -⟩ := run
      simp only [HeadPositive, span_cons, Timer.less_expires]
      omega

theorem timerStep_inv (s : TimerState) (l : TimerLabel) (s' : TimerState) (inv : TimerInv s)
    (step : timerStep s l = some s') : TimerInv s' := by
  cases l with
  | add timer =>
    obtain ⟨ok, ⟨⟩⟩ := Option.ite_none_right_eq_some.mp step
    have := span_addTimer timer s.timers
    have := timer.expires_lt
    have := inv.small
    exact ⟨headPositive_addTimer ok.1 inv.head, by simp only; omega⟩
  | del id =>
    obtain rfl := Option.some.inj step
    have := span_delTimer id s.timers
    have := inv.small
    exact ⟨headPositive_delTimer id inv.head inv.small, by simp only; omega⟩
  | tick =>
    obtain ⟨⟨left, procs, expired⟩, run, rfl⟩ := Option.map_eq_some_iff.mp step
    have := (runTimerList_inv run).2
    have := inv.small
    exact ⟨(runTimerList_inv run).1, by simp only; omega⟩
  | proc p value =>
    obtain rfl := Option.some.inj step
    exact ⟨inv.head, inv.small⟩

/-- The calls of `run_timer_list` in a run. -/
def ticks : List TimerLabel → Nat
  | [] => 0
  | .tick :: ls => ticks ls + 1
  | _ :: ls => ticks ls

theorem ticks_append (ls ms : List TimerLabel) : ticks (ls ++ ms) = ticks ls + ticks ms := by
  induction ls with
  | nil => simp [ticks]
  | cons l ls ih =>
    cases l <;> simp only [List.cons_append, ticks, ih]
    omega

/-- The condition on a step: a call that expires a timer leaves none behind. -/
def TickCond (s : TimerState) (l : TimerLabel) : Prop := l = .tick → DueTogether s.timers

/-- One step takes the ticks it stands for off a timer that stays pending. -/
theorem timerStep_remaining {s s' : TimerState} {l : TimerLabel} (inv : TimerInv s)
    (cond : TickCond s l) (step : timerStep s l = some s')
    (kept : l ≠ .del id) (h : remaining id s.timers = some (n, proc)) (early : ticks [l] < n) :
    remaining id s'.timers = some (n - ticks [l], proc) ∧ s'.expired = [] := by
  cases l with
  | add timer =>
    obtain ⟨ok, ⟨⟩⟩ := Option.ite_none_right_eq_some.mp step
    have other : timer.id ≠ id := by
      rintro rfl
      exact ok.2 ((linked_iff_remaining _ _).mpr (by simp [h]))
    simpa [ticks, remaining_addTimer_other timer s.timers other] using h
  | del gone =>
    obtain rfl := Option.some.inj step
    have other : gone ≠ id := fun same => kept (same ▸ rfl)
    simpa [ticks, remaining_delTimer_other gone s.timers inv.small other] using h
  | tick =>
    obtain ⟨⟨left, procs, expired⟩, run, rfl⟩ := Option.map_eq_some_iff.mp step
    simp only [ticks] at early ⊢
    exact runTimerList_pending (cond rfl) run h (by omega)
  | proc p value =>
    obtain rfl := Option.some.inj step
    simpa [ticks] using h

theorem timerRun_remaining {s s' : TimerState} {ls : List TimerLabel} (inv : TimerInv s)
    (along : Along timerStep TickCond s ls) (run : runFrom timerStep s ls = some s')
    (kept : .del id ∉ ls) (h : remaining id s.timers = some (n, proc))
    (fresh : s.expired = []) (early : ticks ls < n) :
    remaining id s'.timers = some (n - ticks ls, proc) ∧ s'.expired = [] := by
  induction ls generalizing s n with
  | nil =>
    obtain rfl : s = s' := by simpa using run
    exact ⟨by simpa [ticks] using h, fresh⟩
  | cons l ls ih =>
    obtain ⟨mid, hstep, hrun⟩ := runFrom_cons.mp run
    have split : ticks (l :: ls) = ticks [l] + ticks ls := ticks_append [l] ls
    simp only [List.mem_cons, not_or] at kept
    obtain ⟨hmid, empty⟩ :=
      timerStep_remaining inv along.1 hstep (fun e => kept.1 e.symm) h (by omega)
    have := ih (timerStep_inv s l mid inv hstep) (along.2 mid hstep) hrun kept.2 hmid empty
      (by omega)
    rwa [Nat.sub_sub, ← split] at this

/-- What is expected of the run `ls` that follows `add_timer` of `timer`: until
    its last tick the timer stays linked and no call expires it, and the call that
    is its last tick unlinks it and wakes its process. -/
def OnTime (added : TimerState) (timer : Timer) (ls : List TimerLabel) : Prop :=
  (∀ as bs s, ls = as ++ bs → runFrom timerStep added as = some s →
    ticks as < timer.expires →
      linked s.timers timer.id ∧ ∀ u ∈ s.expired, u.id ≠ timer.id) ∧
  (∀ as bs s s', ls = as ++ .tick :: bs → runFrom timerStep added as = some s →
    timerStep s .tick = some s' → ticks as + 1 = timer.expires →
      (∃ u ∈ s'.expired, u.id = timer.id ∧ u.proc = timer.proc) ∧
        ¬ linked s'.timers timer.id ∧
        s'.procs timer.proc = (s.procs timer.proc).wakeup)

theorem timerInv_init : TimerInv {} := ⟨trivial, by simp⟩

/-- In every run, whatever calls came before, a timer that is added and not
    deleted expires in exactly the call its delta asks for, provided no call after
    the add expires a timer while another one is due later. -/
theorem timer_expires_on_time {before : List TimerLabel} {s added : TimerState} {timer : Timer}
    {ls : List TimerLabel} (reached : runFrom timerStep {} before = some s)
    (add : timerStep s (.add timer) = some added) (kept : .del timer.id ∉ ls)
    (along : Along timerStep TickCond added ls) : OnTime added timer ls := by
  have inv : TimerInv s := runFrom_always timerStep_inv timerInv_init reached
  have invAdded : TimerInv added := timerStep_inv s _ added inv add
  have start : remaining timer.id added.timers = some (timer.expires, timer.proc) ∧
      added.expired = [] := by
    obtain ⟨ok, ⟨⟩⟩ := Option.ite_none_right_eq_some.mp add
    exact ⟨remaining_addTimer_self timer s.timers ok.2, rfl⟩
  constructor
  · rintro as bs t rfl run early
    obtain ⟨left, none⟩ := timerRun_remaining invAdded (along_append along run).1 run
      (fun h => kept (List.mem_append_left _ h)) start.1 start.2 early
    exact ⟨(linked_iff_remaining _ _).mpr (by simp [left]), by simp [none]⟩
  · rintro as bs t t' rfl run tick last
    obtain ⟨alongAs, alongTick⟩ := along_append along run
    obtain ⟨left, -⟩ := timerRun_remaining invAdded alongAs run
      (fun h => kept (List.mem_append_left _ h)) start.1 start.2 (by omega)
    have one : timer.expires - ticks as = 1 := by omega
    rw [one] at left
    have invT : TimerInv t := runFrom_always timerStep_inv invAdded run
    obtain ⟨⟨rest, procs, expired⟩, call, rfl⟩ := Option.map_eq_some_iff.mp tick
    obtain ⟨rfl, u, hu, hid, hproc⟩ :=
      runTimerList_due invT.head (alongTick.1 rfl) call left
    refine ⟨⟨u, hu, hid, hproc⟩, by simp [linked], ?_⟩
    have woken := runTimerList_procs call timer.proc
    rwa [if_pos ⟨u, hu, hproc⟩] at woken

/-- Two timers due together after two calls, added around one call. -/
theorem timer_expires_on_time_pair :
    OnTime
      { timers := [⟨1, 7, 1, by decide⟩, ⟨2, 8, 0, by decide⟩], procs := fun _ => {}, expired := [] }
      ⟨2, 8, 1, by decide⟩ [.tick] :=
  @timer_expires_on_time [.add ⟨1, 7, 2, by decide⟩, .tick]
    { timers := [⟨1, 7, 1, by decide⟩], procs := fun _ => {}, expired := [] } _ _ _
    rfl rfl (by simp) ⟨fun _ _ => by simp, fun _ _ => trivial⟩

/-- A timer due after two calls is expired by the first one when another timer is
    due then: the loop goes on to the second node and takes a tick off it too. -/
theorem second_timer_early :
    ∃ s added, runFrom timerStep {} [.add ⟨1, 7, 1, by decide⟩] = some s ∧
      timerStep s (.add ⟨2, 8, 2, by decide⟩) = some added ∧
      ¬ OnTime added ⟨2, 8, 2, by decide⟩ [.tick] := by
  refine ⟨_, _, rfl, rfl, fun onTime => ?_⟩
  have early := onTime.1 [.tick] [] _ rfl rfl (by decide)
  revert early
  decide

end Procore.Schedule
