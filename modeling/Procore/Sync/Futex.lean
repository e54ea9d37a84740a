import Mathlib.Data.Fintype.Basic
import Procore.Lib.Count
import Procore.Lib.Run

/-! # Futexes

Tasks that wait on words of memory and wake each other up. What a task does under a
bucket lock or under `proc_lock` is one step.
-/

namespace Procore.Sync.Futex

open Procore.Lib
open Function (update update_apply)

/-- Where a task stands; `τ` is the type of tasks and `κ` of addresses, each with its `mm`. -/
inductive Pc (τ κ : Type) where
  | idle
  /-- In `futex_wait`, with the waiter published. `read` counts the stores before it read the word. -/
  | waiting (key : κ) (timeout : Option Nat) (read : Nat) (wakeupFlags : Bool)
  /-- In the loop of `futex_wake`. A waiter that was found has still to be woken up. -/
  | waking (key : κ) (count woken : Nat) (found : Option τ)
  deriving DecidableEq

structure State (τ κ : Type) where
  word : κ → UInt32
  stores : Nat := 0
  /-- The buckets. A scan passes over the waiters of other addresses. -/
  queue : List τ := []
  pc : τ → Pc τ κ := fun _ => .idle
  /-- `PROC_SLEEPING`. -/
  asleep : τ → Bool := fun _ => false
  /-- The calls of `futex_wait` that returned 0. -/
  zeros : κ → Nat := fun _ => 0
  /-- The sum of what `futex_wake` returned. -/
  sums : κ → Nat := fun _ => 0

inductive Label (τ κ : Type) where
  | store (k : κ) (value : UInt32)
  /-- `futex_wait` up to the end of its section. -/
  | futexWait (t : τ) (k : κ) (expected : UInt32) (timeout : Option Nat)
  /-- A timer, a signal or a `wakeup_proc` meant for another wait. -/
  | rouse (t : τ)
  /-- `futex_wait` from `schedule` on. -/
  | resume (t : τ) (signal : Bool) (elapsed : Nat)
  | futexWake (w : τ) (k : κ) (count : Nat)
  /-- The condition of the loop and the search in the bucket. -/
  | search (w : τ)
  | wakeupProc (w : τ)

variable {τ κ : Type} [DecidableEq τ] [DecidableEq κ]

namespace Pc

@[grind] def waitsOn (k : κ) : Pc τ κ → Bool
  | waiting key .. => key = k
  | _ => false

/-- `wakeup_flags = WT_FUTEX`. -/
@[grind] def grant : Pc τ κ → Pc τ κ
  | waiting key timeout read _ => waiting key timeout read true
  | pc => pc

@[grind] def linked : Pc τ κ → Bool
  | waiting _ _ _ flags => !flags
  | _ => false

@[grind] def read : Pc τ κ → Nat
  | waiting _ _ read _ => read
  | _ => 0

@[grind] def claims (t : τ) : Pc τ κ → Bool
  | waking _ _ _ found => found = some t
  | _ => false

def inWake : Pc τ κ → Bool
  | waking .. => true
  | _ => false

/-- What `futex_wake` has counted and not yet returned, less the waiters it has counted. -/
@[grind] def due (k : κ) : Pc τ κ → Int
  | waiting key _ _ flags => if key = k ∧ flags then -1 else 0
  | waking key _ woken found => if key = k then woken + found.toList.length else 0
  | idle => 0

omit [DecidableEq τ] [DecidableEq κ] in
theorem eq_of_linked {pc : Pc τ κ} (h : pc.linked) : ∃ key timeout read, pc = waiting key timeout read false := by
  cases pc <;> simp_all [linked]

end Pc

/-- `timeout != NULL && clock_ticks_read() - start_ticks >= timeout_ticks`. -/
def late (timeout : Option Nat) (elapsed : Nat) : Bool := timeout.any (· ≤ elapsed)

namespace State

def setPc (s : State τ κ) (t : τ) (pc : Pc τ κ) : State τ κ := { s with pc := update s.pc t pc }

def step (s : State τ κ) : Label τ κ → Option (State τ κ)
  | .store k value => some { s with word := update s.word k value, stores := s.stores + 1 }
  | .futexWait t k expected timeout =>
    if s.pc t = .idle then
      if s.word k ≠ expected ∨ timeout = some 0 then some s
      else some { s.setPc t (.waiting k timeout s.stores false) with
        queue := s.queue ++ [t], asleep := update s.asleep t true }
    else none
  | .rouse t => some { s with asleep := update s.asleep t false }
  | .resume t signal elapsed => match s.pc t with
    | .waiting k timeout _ flags =>
      if s.asleep t then none
      else
        let s' := { s.setPc t .idle with queue := s.queue.erase t }
        if signal ∨ ¬flags ∧ late timeout elapsed then some s'
        else some { s' with zeros := update s.zeros k (s.zeros k + 1) }
    | _ => none
  | .futexWake w k count => if s.pc w = .idle then some (s.setPc w (.waking k count 0 none)) else none
  | .search w => match s.pc w with
    | .waking k count woken none =>
      match if woken < count then s.queue.find? fun t => (s.pc t).waitsOn k else none with
      | none => some { s.setPc w .idle with sums := update s.sums k (s.sums k + woken) }
      | some t =>
        some { (s.setPc t (s.pc t).grant).setPc w (.waking k count woken (some t)) with queue := s.queue.erase t }
    | _ => none
  | .wakeupProc w => match s.pc w with
    | .waking k count woken (some t) =>
      some { s.setPc w (.waking k count (woken + 1) none) with asleep := update s.asleep t false }
    | _ => none

/-- The bucket holds the waiters that no waker has found, in the order in which they read their words. -/
structure Inv (s : State τ κ) : Prop where
  nodup : s.queue.Nodup
  linked : ∀ t, t ∈ s.queue ↔ (s.pc t).linked
  sorted : s.queue.Pairwise fun a b => (s.pc a).read ≤ (s.pc b).read
  read : ∀ t ∈ s.queue, (s.pc t).read ≤ s.stores
  /-- A waiter that was found sleeps until its waker goes on. -/
  claimed : ∀ t, s.asleep t → t ∈ s.queue ∨ ∃ w, (s.pc w).claims t

variable {s s' u : State τ κ} {l : Label τ κ} {k : κ} {t w : τ} {m : Nat}

omit [DecidableEq κ] in
@[grind =] theorem setPc_pc (s : State τ κ) (t : τ) (pc : Pc τ κ) (x : τ) :
    (s.setPc t pc).pc x = if x = t then pc else s.pc x := update_apply ..

omit [DecidableEq κ] in
theorem Inv.shrink (h : s.Inv) (sub : s'.queue.Sublist s.queue)
    (linked : ∀ t, t ∈ s'.queue ↔ (s'.pc t).linked) (same : ∀ t ∈ s'.queue, s'.pc t = s.pc t)
    (later : s.stores ≤ s'.stores) (asleep : ∀ t, s'.asleep t → s.asleep t)
    (found : ∀ t, s'.asleep t → t ∈ s.queue → t ∈ s'.queue ∨ ∃ w, (s'.pc w).claims t)
    (claimed : ∀ t w, s'.asleep t → (s.pc w).claims t → (s'.pc w).claims t) : s'.Inv where
  nodup := h.nodup.sublist sub
  linked := linked
  sorted := by
    refine (h.sorted.sublist sub).imp_of_mem fun {a b} left right le => ?_
    rwa [same a left, same b right]
  read t mem := by
    rw [same t mem]
    exact (h.read t (sub.subset mem)).trans later
  claimed t sleeps := by
    obtain mem | ⟨w, claims⟩ := h.claimed t (asleep t sleeps)
    · exact found t sleeps mem
    · exact .inr ⟨w, claimed t w sleeps claims⟩

theorem Inv.step (h : s.Inv) (taken : s.step l = some s') : s'.Inv := by
  have queued := h.linked
  have erased (t x : τ) := h.nodup.mem_erase_iff (a := x) (b := t)
  cases l with (simp only [State.step] at taken; try split at taken) <;> try cases taken
  | store k value => exact { h with read := fun t mem => (h.read t mem).trans (Nat.le_succ _) }
  | rouse t => refine h.shrink (.refl _) queued ?_ le_rfl ?_ ?_ ?_ <;> grind
  | futexWait t k expected timeout =>
    have other (x : τ) (mem : x ∈ s.queue) : x ≠ t := by grind
    split_ifs at taken
    · cases taken
      exact h
    cases taken
    refine ⟨?_, fun x => ?_, ?_, fun x mem => ?_, fun x sleeps => ?_⟩
    · exact h.nodup.append (List.nodup_singleton t) (List.disjoint_singleton.mpr fun mem => other t mem rfl)
    · grind
    · refine List.pairwise_append.mpr ⟨?_, List.pairwise_singleton .., ?_⟩
      · refine h.sorted.imp_of_mem fun {a b} left right le => ?_
        simpa [setPc, other a left, other b right] using le
      · intro a left b right
        obtain rfl := List.mem_singleton.mp right
        simpa [setPc, other a left, Pc.read] using h.read a left
    · have := h.read x
      grind [setPc]
    · by_cases same : x = t
      · grind
      · obtain linked | ⟨w, claims⟩ := h.claimed x (by grind)
        · grind
        · exact .inr ⟨w, by grind⟩
  | resume t signal elapsed =>
    have moved (asleep : ¬s.asleep t) : ({ s.setPc t .idle with queue := s.queue.erase t } : State τ κ).Inv := by
      refine h.shrink List.erase_sublist ?_ ?_ le_rfl ?_ ?_ ?_ <;> grind [setPc]
    split_ifs at taken with asleep
    all_goals cases taken
    · exact moved asleep
    · exact { moved asleep with }
  | futexWake w k count | wakeupProc w =>
    refine h.shrink (.refl _) ?_ ?_ le_rfl ?_ ?_ ?_ <;> grind [setPc]
  | search w =>
    split at taken
    · cases taken
      refine h.shrink (.refl _) ?_ ?_ le_rfl ?_ ?_ ?_ <;> grind [setPc]
    rename_i t first
    cases taken
    obtain ⟨_, _, _, waits⟩ := Pc.eq_of_linked ((h.linked t).mp (by grind))
    refine h.shrink List.erase_sublist ?_ ?_ le_rfl ?_ (fun x _ linked => ?found) ?_
    case found =>
      by_cases same : x = t
      · exact .inr ⟨w, by grind⟩
      · grind
    all_goals grind [setPc]

/-- The waiters on `k` that read their word before the store `m`. -/
def old (s : State τ κ) (k : κ) (m : Nat) : Nat :=
  s.queue.countP fun t => (s.pc t).waitsOn k && (s.pc t).read < m

/-- The call that `w` makes has room for the old waiters, or there are none left. -/
structure Covers (w : τ) (k : κ) (m : Nat) (s : State τ κ) : Prop where
  inv : s.Inv
  later : m ≤ s.stores
  room : s.old k m = 0 ∨ ∃ count woken found, s.pc w = .waking k count woken found ∧
    s.old k m + woken + found.toList.length ≤ count

omit [DecidableEq τ] in
theorem old_eq (same : ∀ t ∈ s'.queue, s'.pc t = s.pc t) :
    s'.old k m = s'.queue.countP fun t => (s.pc t).waitsOn k && (s.pc t).read < m := by
  refine List.countP_congr fun t mem => ?_
  rw [same t mem]

omit [DecidableEq τ] in
theorem old_le (sub : s'.queue.Sublist s.queue) (same : ∀ t ∈ s'.queue, s'.pc t = s.pc t) :
    s'.old k m ≤ s.old k m :=
  (old_eq same).trans_le sub.countP_le

theorem Covers.shrink (c : s.Covers w k m) (inv : s'.Inv) (later : s.stores ≤ s'.stores)
    (fewer : s'.old k m ≤ s.old k m)
    (keeps : s.old k m ≠ 0 → ∀ count woken found, s.pc w = .waking k count woken found → ∃ woken' found',
      s'.pc w = .waking k count woken' found' ∧ woken' + found'.toList.length = woken + found.toList.length) :
    s'.Covers w k m := by
  refine ⟨inv, c.later.trans later, ?_⟩
  by_cases none : s.old k m = 0
  · exact .inl (by omega)
  obtain ⟨count, woken, found, here, room⟩ := c.room.resolve_left none
  obtain ⟨woken', found', there, total⟩ := keeps none count woken found here
  exact .inr ⟨count, woken', found', there, by omega⟩

/-- The first waiter on the address is an old one, if there is one. -/
theorem Inv.first_old (h : s.Inv) (first : s.queue.find? (fun t => (s.pc t).waitsOn k) = some t)
    (left : s.old k m ≠ 0) : (s.pc t).read < m := by
  obtain ⟨here, before, after, split, out⟩ := List.find?_eq_some_iff_append.mp first
  obtain ⟨x, mem, isOld⟩ := List.countP_pos_iff.mp (Nat.pos_of_ne_zero left)
  have sorted := h.sorted
  rw [split] at sorted mem
  obtain ⟨-, rest, -⟩ := List.pairwise_append.mp sorted
  have later := (List.pairwise_cons.mp rest).1
  grind

theorem Covers.step (c : s.Covers w k m) (taken : s.step l = some s') : s'.Covers w k m := by
  have h := c.inv
  have inv := h.step taken
  have queued := h.linked
  have erased (t x : τ) := h.nodup.mem_erase_iff (a := x) (b := t)
  cases l with (simp only [State.step] at taken; try split at taken) <;> try cases taken
  | store k' value => exact ⟨inv, c.later.trans (Nat.le_succ _), c.room⟩
  | rouse t => exact { c with inv }
  | futexWait t k' expected timeout =>
    split_ifs at taken
    · cases taken
      exact c
    cases taken
    have new : ¬s.stores < m := Nat.not_lt.mpr c.later
    have same : (s.setPc t (.waiting k' timeout s.stores false)).old k m = s.old k m :=
      old_eq (by grind [setPc])
    refine c.shrink inv le_rfl ?_ (by grind)
    simpa [old, List.countP_append, setPc, Pc.read, new] using same.le
  | resume t signal elapsed =>
    split_ifs at taken <;> cases taken <;> refine c.shrink inv le_rfl (old_le List.erase_sublist ?_) ?_ <;> grind [setPc]
  | futexWake v k' count | wakeupProc v =>
    refine c.shrink inv le_rfl (old_le (.refl _) ?_) ?_ <;> grind [setPc]
  | search v =>
    rename_i k' count woken here
    split at taken
    · cases taken
      refine c.shrink inv le_rfl (old_le (.refl _) ?_) fun left => ?_
      · grind [setPc]
      · obtain ⟨x, mem, isOld⟩ := List.countP_pos_iff.mp (Nat.pos_of_ne_zero left)
        grind [c.room]
    · rename_i t first
      cases taken
      by_cases own : v = w ∧ s.old k m ≠ 0
      · obtain ⟨rfl, left⟩ := own
        obtain ⟨_, _, _, there, room⟩ := c.room.resolve_left left
        obtain ⟨rfl, rfl, rfl, rfl⟩ := Pc.waking.inj (here.symm.trans there)
        have enough : woken < count := by grind
        rw [if_pos enough] at first
        have isOld := h.first_old first left
        refine ⟨inv, c.later, .inr ⟨count, woken, some t, by grind, ?_⟩⟩
        rw [old_eq (s := s) (by grind), List.countP_erase]
        grind [old]
      · refine c.shrink inv le_rfl (old_le List.erase_sublist ?_) ?_ <;> grind [setPc]

def boot (word : κ → UInt32) : State τ κ := { word }

omit [DecidableEq κ] in
theorem inv_boot (word : κ → UInt32) : (boot word : State τ κ).Inv := by
  constructor <;> simp [boot, Pc.linked]

/-- Once `futex_wake` has returned, no task sleeps that read the word before the last store. -/
theorem no_lost_futex_wake {word : κ → UInt32} {ls ms : List (Label τ κ)} {count read : Nat}
    {timeout : Option Nat}
    {flags : Bool} (run : runFrom step (boot word) ls = some s)
    (enough : (s.queue.countP fun t => (s.pc t).waitsOn k) ≤ count)
    (calls : runFrom step s (.futexWake w k count :: ms) = some u) (returned : ∀ v, (u.pc v).inWake = false)
    (waits : u.pc t = .waiting k timeout read flags) (before : read < s.stores) : u.asleep t = false := by
  have inv : s.Inv := runFrom_always (fun _ _ _ => Inv.step) (inv_boot word) run
  obtain ⟨mid, called, rest⟩ := runFrom_cons.mp calls
  have covers : mid.Covers w k s.stores := by
    have next := inv.step called
    simp only [step] at called
    split at called
    · cases called
      refine ⟨next, le_rfl, .inr ⟨count, 0, none, by grind, ?_⟩⟩
      rw [old_eq (s := s) (by grind [setPc, inv.linked])]
      exact (List.countP_mono_left (by simp +contextual)).trans enough
    · cases called
  have after : u.Covers w k s.stores := runFrom_always (fun _ _ _ => Covers.step) covers rest
  by_contra asleep
  obtain mem | ⟨v, claims⟩ := after.inv.claimed t (by simpa using asleep)
  · have left : 0 < u.old k s.stores := List.countP_pos_iff.mpr ⟨t, mem, by simp [waits, Pc.waitsOn, Pc.read, before]⟩
    grind [after.room, Pc.inWake]
  · have := returned v
    cases here : u.pc v <;> simp_all [Pc.claims, Pc.inWake]

local instance twoTasks : @NeZero Nat Zero.ofOfNat0 2 := ⟨by decide⟩

def wakeOne : List (Label (Fin 2) Unit) := [.futexWake 1 () 1, .search 1, .wakeupProc 1, .search 1]

theorem no_lost_futex_wake_one :
    ∃ s, runFrom step (boot fun _ => 0) [.futexWait 0 () 0 none, .store () 1] = some s ∧
    ∃ u, runFrom step s wakeOne = some u ∧ u.pc 0 = .waiting () none 0 true ∧ u.asleep 0 = false :=
  exists_run_test (fun s => (s.stores = 1 ∧ (s.queue.countP fun t => (s.pc t).waitsOn ()) ≤ 1) ∧
    (runFrom step s wakeOne).any fun u => (∀ v, (u.pc v).inWake = false) ∧ u.pc 0 = .waiting () none 0 true)
    (by decide) fun _ run test => exists_run_test _ test.2 fun _ calls ends =>
      ⟨ends.2, no_lost_futex_wake run test.1.2 calls ends.1 ends.2 (test.1.1 ▸ Nat.one_pos)⟩

/-- A call of `futex_wait` that was woken by `futex_wake` has no signal, and any other one
has a signal or is late. -/
def fair (s : State τ κ) : Label τ κ → Bool
  | .resume t signal elapsed => match s.pc t with
    | .waiting _ timeout _ flags => if flags then !signal else signal || late timeout elapsed
    | _ => true
  | _ => true

variable [Fintype τ]

/-- The calls of `futex_wait` that returned 0 beyond those that `futex_wake` has counted. -/
def surplus (s : State τ κ) (k : κ) : Int := s.zeros k - s.sums k - ∑ t, (s.pc t).due k

theorem surplus_setPc {p : Pc τ κ} (moved : s'.pc = (s.setPc t p).pc) :
    s'.surplus k = s.surplus k + (s'.zeros k - s.zeros k) - (s'.sums k - s.sums k) + (s.pc t).due k - p.due k := by
  have sum := sum_point (f := fun x => (s.pc x).due k) (g := fun x => (s'.pc x).due k) t
    fun x other => by rw [moved, setPc_pc, if_neg other]
  simp only [moved, setPc_pc, if_true] at sum
  simp only [surplus, moved, setPc_pc]
  omega

/-- No call has been counted that did not return 0, and no other one did. -/
def Settled (s : State τ κ) : Prop := s.Inv ∧ ∀ k, s.surplus k = 0

theorem surplus_step (h : s.Inv) (fair : s.fair l) (taken : s.step l = some s') : s'.surplus k = s.surplus k := by
  cases l with (simp only [State.step] at taken; try split at taken) <;> try cases taken
  | store k' value => rfl
  | rouse t => rfl
  | futexWait t k' expected timeout =>
    split_ifs at taken <;> cases taken
    · rfl
    · refine Eq.trans (surplus_setPc rfl) ?_
      grind [setPc]
  | resume t signal elapsed =>
    rename_i here
    simp only [State.fair, here] at fair
    split_ifs at taken <;> cases taken <;> refine Eq.trans (surplus_setPc rfl) ?_ <;> grind [setPc]
  | futexWake w k' count | wakeupProc w =>
    refine Eq.trans (surplus_setPc rfl) ?_
    grind [setPc]
  | search w =>
    split at taken
    · cases taken
      refine Eq.trans (surplus_setPc rfl) ?_
      grind [setPc]
    rename_i t first
    cases taken
    obtain ⟨_, _, _, waits⟩ := Pc.eq_of_linked ((h.linked t).mp (by grind))
    refine Eq.trans (surplus_setPc rfl) ?_
    rw [surplus_setPc rfl]
    grind [setPc]

/-- When all calls have returned, those of `futex_wait` that returned 0 are those that were woken. -/
theorem wakes_counted {word : κ → UInt32} {ls : List (Label τ κ)}
    (honest : Along step (fun s l => s.fair l) (boot word) ls)
    (run : runFrom step (boot word) ls = some s) (quiet : ∀ t, s.pc t = .idle) (k : κ) :
    s.sums k = s.zeros k := by
  have start : Settled (boot word : State τ κ) := ⟨inv_boot word, by simp [surplus, boot, Pc.due]⟩
  have settled : s.Settled := runFrom_invariant
    (fun _ _ _ h fair taken => ⟨h.1.step taken, fun k => (surplus_step h.1 fair taken).trans (h.2 k)⟩) start honest run
  have none := settled.2 k
  simp only [surplus, quiet, Pc.due, Finset.sum_const_zero] at none
  omega

theorem wakes_counted_one : ∃ s,
    runFrom step (boot fun _ => 0) (.futexWait 0 () 0 none :: wakeOne ++ [.resume 0 false 0]) = some s ∧
      s.sums () = 1 ∧ s.sums () = s.zeros () :=
  exists_run_test (fun s => s.sums () = 1 ∧ ∀ t, s.pc t = .idle) (by decide) fun _ run ends =>
    ⟨ends.1, wakes_counted (by decide) run ends.2 ()⟩

theorem interrupted_waiter_counted : ∃ s,
    runFrom step (boot fun _ => 0) (.futexWait 0 () 0 none :: wakeOne ++ [.resume 0 true 0]) = some s ∧
      (∀ t, s.pc t = .idle) ∧ s.sums () = 1 ∧ s.zeros () = 0 :=
  exists_run_test _ (by decide) fun _ _ => id

end State

end Procore.Sync.Futex
