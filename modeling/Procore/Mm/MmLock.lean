import Mathlib.Algebra.Group.Nat.Defs
import Mathlib.Data.Fintype.Basic
import Procore.Lib.Run

/-! # The lock of an address space

`lock_mm` may be called again by its holder. The holder is found through `locked_by`
and `lock_depth`, which are written outside `mm_sem`: `unlock_mm` clears them after it has
given the semaphore away. Each operation on the semaphore and each access to one
of the two fields is a step.
-/

namespace Procore.Mm.Lock

open Procore.Lib
open Function

/-- Where a process stands in `lock_mm`, `try_lock_mm` or `unlock_mm`. -/
inductive Pc where
  /-- In none of them. -/
  | out
  /-- A lock call has seen a `lock_depth` other than zero and reads `locked_by` next. -/
  | testOwner (attempt : Bool)
  | nest
  | down
  | tryDown
  /-- In the queue of the semaphore. -/
  | asleep
  /-- The process has the semaphore and writes `locked_by` next. -/
  | claim
  | setDepth
  /-- `unlock_mm` has seen a `lock_depth` above one and reads `locked_by` next. -/
  | unlockOwner
  | unnest
  | up
  | clearDepth
  | clearOwner
  deriving DecidableEq, Repr

/-- The process has the semaphore, whether it has the lock or not. -/
def Pc.holds : Pc → Bool
  | .claim | .setDepth | .unlockOwner | .unnest | .up => true
  | _ => false

/-- The process has given the semaphore away and is still to clear the fields. -/
def Pc.clears : Pc → Bool
  | .clearDepth | .clearOwner => true
  | _ => false

/-- An address space with `n` processes around it. -/
structure State (n : Nat) where
  /-- `mm_sem`: its value and its queue. -/
  value : Nat := 1
  queue : List (Fin n) := []
  lockedBy : Nat := 0
  lockDepth : Nat := 0
  pc : Fin n → Pc := fun _ => .out
  /-- How often a process has the lock: the lock calls that have succeeded, without the calls
      of `unlock_mm` made since. -/
  held : Fin n → Nat := fun _ => 0

variable {n : Nat}

/-- Only the idle processes have pid 0. -/
def pid (p : Fin n) : Nat := p.val + 1

inductive Label (n : Nat) where
  /-- A call of `lock_mm` or `try_lock_mm`. -/
  | lock (p : Fin n) (attempt : Bool)
  | unlock (p : Fin n)
  /-- The next step of a process in a call. -/
  | go (p : Fin n)
  deriving DecidableEq, Repr

namespace State

def setPc (s : State n) (p : Fin n) (pc : Pc) : State n := { s with pc := update s.pc p pc }

def setHeld (s : State n) (p : Fin n) (held : Nat) : State n :=
  { s with held := update s.held p held }

/-- The semaphore operation of the two lock calls. -/
def wait (attempt : Bool) : Pc := if attempt then .tryDown else .down

/-- `up`: the first waiter gets the semaphore, if there is one. -/
def upSem (s : State n) : State n :=
  match s.queue with
  | [] => { s with value := s.value + 1 }
  | q :: queue => { s with queue := queue }.setPc q .claim

/-- The next step of a process in a call. -/
def go (s : State n) (p : Fin n) : Option (State n) :=
  match s.pc p with
  | .out => none
  | .testOwner attempt =>
    some (s.setPc p (if s.lockedBy = pid p then .nest else wait attempt))
  | .nest =>
    some ({ s with lockDepth := (s.lockDepth + 1) % 2 ^ 32 }.setHeld p (s.held p + 1) |>.setPc p .out)
  | .down =>
    if 0 < s.value then some ({ s with value := s.value - 1 }.setPc p .claim)
    else some ({ s with queue := s.queue ++ [p] }.setPc p .asleep)
  | .tryDown =>
    if 0 < s.value then some ({ s with value := s.value - 1 }.setPc p .claim)
    else some (s.setPc p .out)
  | .asleep => none
  | .claim => some ({ s with lockedBy := pid p }.setPc p .setDepth)
  | .setDepth => some ({ s with lockDepth := 1 }.setHeld p (s.held p + 1) |>.setPc p .out)
  | .unlockOwner => some (s.setPc p (if s.lockedBy = pid p then .unnest else .up))
  | .unnest => some ({ s with lockDepth := if s.lockDepth = 0 then 2 ^ 32 - 1 else s.lockDepth - 1 }.setPc p .out)
  | .up => some (s.upSem.setPc p .clearDepth)
  | .clearDepth => some ({ s with lockDepth := 0 }.setPc p .clearOwner)
  | .clearOwner => some ({ s with lockedBy := 0 }.setPc p .out)

/-- A process calls `unlock_mm` only while it has the lock. -/
def step (s : State n) : Label n → Option (State n)
  | .lock p attempt =>
    if s.pc p = .out then
      some (s.setPc p (if s.lockDepth ≠ 0 then .testOwner attempt else wait attempt))
    else none
  | .unlock p =>
    if s.pc p = .out ∧ 0 < s.held p then
      some (s.setHeld p (s.held p - 1) |>.setPc p (if 1 < s.lockDepth then .unlockOwner else .up))
    else none
  | .go p => s.go p

structure Reentrant (s : State n) : Prop where
  /-- A lock call of the holder does not get to the semaphore. -/
  nested : ∀ p, 0 < s.held p → s.pc p ≠ .down ∧ s.pc p ≠ .tryDown ∧ s.pc p ≠ .asleep
  /-- Only the last `unlock_mm` releases the semaphore, -/
  last : ∀ p, s.pc p = .up → s.held p = 0
  /-- and it does so. -/
  notLast : ∀ p, s.pc p = .unnest → 0 < s.held p
  /-- There is one holder, and it has the only token of the semaphore. -/
  single : ∀ p q, 0 < s.held p → 0 < s.held q → p = q
  token : s.value ≤ 1 ∧ ∀ p, 0 < s.held p → s.value = 0

def Clearing (s : State n) (p : Fin n) : Prop := (s.pc p).clears = true

instance (s : State n) (p : Fin n) : Decidable (s.Clearing p) := inferInstanceAs (Decidable (_ = _))

/-- `locked_by` is not written while the last holder is still to clear the fields, and the
    depth does not overflow. -/
def Calm (s : State n) : Label n → Prop
  | .lock _ _ => True
  | .unlock _ => True
  | .go p => (s.pc p = .claim → ∀ q, ¬ s.Clearing q) ∧
      (s.pc p = .nest → s.lockDepth + 1 < 2 ^ 32)

instance (s : State n) : (l : Label n) → Decidable (s.Calm l)
  | .lock _ _ => .isTrue trivial
  | .unlock _ => .isTrue trivial
  | .go _ => inferInstanceAs (Decidable (_ ∧ _))

end State

/-- What a process that stands there has of the lock. -/
def Pc.Fits : Pc → Nat → Prop
  | .down, held | .tryDown, held | .asleep, held | .claim, held | .setDepth, held | .up, held
  | .clearDepth, held | .clearOwner, held => held = 0
  | .nest, held | .unlockOwner, held | .unnest, held => 0 < held
  | .out, _ | .testOwner _, _ => True

/-- The depth that the fields show for the process that has the semaphore. -/
def Pc.depth : Pc → Nat → Nat
  | .unlockOwner, held | .unnest, held | .up, held => held + 1
  | _, held => held

namespace State

def Token (s : State n) (p : Fin n) : Prop := 0 < s.held p ∨ (s.pc p).holds = true

/-- The fields, while `clearer` is still to clear them or else `owner` has the semaphore. -/
def Fields (s : State n) : Option (Fin n) → Option (Fin n) → Prop
  | owner, some c => s.lockedBy = pid c ∧ (s.pc c = .clearOwner → s.lockDepth = 0) ∧
      ∀ p ∈ owner, s.pc p = .claim
  | some p, none =>
    if s.pc p = .claim then s.lockedBy = 0 ∧ s.lockDepth = 0
    else s.lockedBy = pid p ∧ s.lockDepth = (s.pc p).depth (s.held p)
  | none, none => s.lockedBy = 0 ∧ s.lockDepth = 0

/-- `owner` has the semaphore and `clearer` has given it away. -/
structure Shape (s : State n) (owner clearer : Option (Fin n)) : Prop where
  token : ∀ p, s.Token p ↔ owner = some p
  clearing : ∀ p, (s.pc p).clears = true ↔ clearer = some p
  fits : ∀ p, (s.pc p).Fits (s.held p)
  value : s.value = if owner = none then 1 else 0
  queued : ∀ p ∈ s.queue, s.pc p = .asleep
  distinct : s.queue.Nodup
  small : s.lockDepth < 2 ^ 32
  fields : s.Fields owner clearer


/-- `mm_create`: nobody has the lock. -/
def create (n : Nat) : State n := {}

theorem create_shape : (create n).Shape none none where
  token p := by simp [Token, create, Pc.holds]
  clearing p := by simp [create, Pc.clears]
  fits p := trivial
  value := rfl
  queued p := by simp [create]
  distinct := List.nodup_nil
  small := (by decide : 0 < 2 ^ 32)
  fields := ⟨rfl, rfl⟩

variable {s t : State n} {owner clearer owner' clearer' : Option (Fin n)} {p : Fin n} {attempt : Bool}

theorem Shape.reentrant (h : s.Shape owner clearer) : s.Reentrant where
  nested p held := by
    have fits := h.fits p
    refine ⟨?_, ?_, ?_⟩ <;> intro here <;> rw [here] at fits <;> exact absurd fits (Nat.ne_of_gt held)
  last p up := by
    have fits := h.fits p
    rwa [up] at fits
  notLast p unnest := by
    have fits := h.fits p
    rwa [unnest] at fits
  single p q first second := by
    have mine := (h.token p).mp (.inl first)
    have other := (h.token q).mp (.inl second)
    exact Option.some.inj (mine.symm.trans other)
  token := by
    rw [h.value]
    refine ⟨by split <;> simp, fun p held => ?_⟩
    rw [(h.token p).mp (.inl held)]
    rfl

attribute [local grind =] update_apply Pc.holds Pc.clears Pc.Fits Pc.depth pid wait setPc setHeld

/-- A step that moves one process. -/
theorem Shape.move (h : s.Shape owner clearer) (pc : Pc) (held : Nat)
    (moved : t.pc = update s.pc p pc) (holds : t.held = update s.held p held)
    (token : 0 < held ∨ pc.holds = true ↔ owner' = some p) (clears : pc.clears = true ↔ clearer' = some p)
    (others : ∀ q, q ≠ p → (owner = some q ↔ owner' = some q) ∧ (clearer = some q ↔ clearer' = some q))
    (fits : pc.Fits held) (value : t.value = if owner' = none then 1 else 0)
    (queued : ∀ q ∈ t.queue, q ≠ p ∧ q ∈ s.queue ∨ q = p ∧ pc = .asleep) (distinct : t.queue.Nodup)
    (small : t.lockDepth < 2 ^ 32) (fields : t.Fields owner' clearer') : t.Shape owner' clearer' where
  token q := by
    have old := h.token q
    simp only [Token, moved, holds, update_apply] at old ⊢
    grind
  clearing q := by
    have old := h.clearing q
    rw [moved, update_apply]
    grind
  fits q := by
    have old := h.fits q
    rw [moved, holds, update_apply, update_apply]
    grind
  value := value
  queued q mem := by
    have old := h.queued q
    rw [moved, update_apply]
    grind
  distinct := distinct
  small := small
  fields := fields

/-- A step of one process in which the semaphore stays where it is. -/
theorem Shape.stay (h : s.Shape owner clearer) (pc : Pc) (held : Nat) (awake : s.pc p ≠ .asleep)
    (moved : t.pc = update s.pc p pc) (holds : t.held = update s.held p held)
    (value : t.value = s.value) (queue : t.queue = s.queue) (small : t.lockDepth < 2 ^ 32)
    (token : 0 < held ∨ pc.holds = true ↔ 0 < s.held p ∨ (s.pc p).holds = true) (clears : pc.clears = (s.pc p).clears)
    (fits : pc.Fits held) (fields : t.Fields owner clearer) : t.Shape owner clearer := by
  refine h.move pc held moved holds (token.trans (h.token p)) (clears ▸ h.clearing p) (fun _ _ => ⟨.rfl, .rfl⟩)
    fits (value.trans h.value) ?_ (queue ▸ h.distinct) small fields
  intro q mem
  have sleeps := h.queued q (queue ▸ mem)
  grind

theorem Shape.local (h : s.Shape owner clearer) (p : Fin n) :
    (0 < s.held p ∨ (s.pc p).holds = true ↔ owner = some p) ∧
      ((s.pc p).clears = true ↔ clearer = some p) ∧ (s.pc p).Fits (s.held p) :=
  ⟨h.token p, h.clearing p, h.fits p⟩

section

variable (h : s.Shape owner clearer)
include h

theorem Shape.lock (taken : s.step (.lock p attempt) = some t) : t.Shape owner clearer := by
  obtain ⟨out, ⟨⟩⟩ := Option.ite_none_right_eq_some.mp taken
  have mine := h.local p
  have fields := h.fields
  refine h.stay _ (s.held p) (by simp [out]) rfl (update_eq_self p s.held).symm rfl rfl h.small ?_ ?_ ?_ ?_
  · grind
  · grind
  -- The depth is zero, so the process does not have the lock.
  · cases owner <;> cases clearer <;> simp only [Fields] at fields <;> grind
  · cases owner <;> cases clearer <;> simp only [Fields, setPc] at fields ⊢ <;> grind

theorem Shape.unlock (taken : s.step (.unlock p) = some t) : t.Shape owner clearer := by
  obtain ⟨⟨out, held⟩, ⟨⟩⟩ := Option.ite_none_right_eq_some.mp taken
  have mine := h.local p
  have fields := h.fields
  refine h.stay _ (s.held p - 1) (by simp [out]) rfl rfl rfl rfl h.small ?_ ?_ ?_ ?_
  · grind
  · grind
  · cases owner <;> cases clearer <;> simp only [Fields] at fields <;> grind
  · cases owner <;> cases clearer <;> simp only [Fields, setPc, setHeld] at fields ⊢ <;> grind

theorem Shape.testOwner (here : s.pc p = .testOwner attempt) :
    (s.setPc p (if s.lockedBy = pid p then .nest else wait attempt)).Shape owner clearer := by
  have mine := h.local p
  have fields := h.fields
  refine h.stay _ (s.held p) (by simp [here]) rfl (update_eq_self p s.held).symm rfl rfl h.small ?_ ?_ ?_ ?_
  · grind
  · grind
  · cases owner <;> cases clearer <;> simp only [Fields] at fields <;> grind
  · cases owner <;> cases clearer <;> simp only [Fields, setPc] at fields ⊢ <;> grind

theorem Shape.nest (here : s.pc p = .nest) (small : s.lockDepth + 1 < 2 ^ 32) :
    ({ s with lockDepth := (s.lockDepth + 1) % 2 ^ 32 }.setHeld p (s.held p + 1)
      |>.setPc p .out).Shape owner clearer := by
  have mine := h.local p
  have fields := h.fields
  refine h.stay .out _ (by simp [here]) rfl rfl rfl rfl (Nat.mod_lt _ (by decide)) ?_ ?_ trivial ?_
  · grind
  · grind
  · cases owner <;> cases clearer <;> simp only [Fields, setPc, setHeld] at fields ⊢ <;> grind

theorem Shape.claim (here : s.pc p = .claim) (calm : ∀ q, ¬ s.Clearing q) :
    ({ s with lockedBy := pid p }.setPc p .setDepth).Shape owner clearer := by
  have mine := h.local p
  have fields := h.fields
  obtain rfl : clearer = none := Option.eq_none_iff_forall_ne_some.mpr fun c same =>
    calm c ((h.clearing c).mpr same)
  refine h.stay .setDepth (s.held p) (by simp [here]) rfl (update_eq_self p s.held).symm rfl rfl h.small ?_ ?_ ?_ ?_
  · grind
  · grind
  · grind
  · cases owner <;> simp only [Fields, setPc] at fields ⊢ <;> grind

theorem Shape.setDepth (here : s.pc p = .setDepth) :
    ({ s with lockDepth := 1 }.setHeld p (s.held p + 1) |>.setPc p .out).Shape owner clearer := by
  have mine := h.local p
  have fields := h.fields
  refine h.stay .out _ (by simp [here]) rfl rfl rfl rfl (by decide : 1 < 2 ^ 32) ?_ ?_ trivial ?_
  · grind
  · grind
  · cases owner <;> cases clearer <;> simp only [Fields, setPc, setHeld] at fields ⊢ <;> grind

theorem Shape.unlockOwner (here : s.pc p = .unlockOwner) :
    (s.setPc p (if s.lockedBy = pid p then .unnest else .up)).Shape owner clearer := by
  have mine := h.local p
  have fields := h.fields
  refine h.stay _ (s.held p) (by simp [here]) rfl (update_eq_self p s.held).symm rfl rfl h.small ?_ ?_ ?_ ?_
  · grind
  · grind
  · cases owner <;> cases clearer <;> simp only [Fields] at fields <;> grind
  · cases owner <;> cases clearer <;> simp only [Fields, setPc] at fields ⊢ <;> grind

theorem Shape.unnest (here : s.pc p = .unnest) :
    ({ s with lockDepth := if s.lockDepth = 0 then 2 ^ 32 - 1 else s.lockDepth - 1 }.setPc p .out).Shape
      owner clearer := by
  have mine := h.local p
  have fields := h.fields
  have small := h.small
  refine h.stay .out (s.held p) (by simp [here]) rfl (update_eq_self p s.held).symm rfl rfl ?_ ?_ ?_ trivial ?_
  · grind
  · grind
  · grind
  · cases owner <;> cases clearer <;> simp only [Fields, setPc] at fields ⊢ <;> grind

theorem Shape.clearDepth (here : s.pc p = .clearDepth) :
    ({ s with lockDepth := 0 }.setPc p .clearOwner).Shape owner clearer := by
  have mine := h.local p
  have fields := h.fields
  refine h.stay .clearOwner (s.held p) (by simp [here]) rfl (update_eq_self p s.held).symm rfl rfl
    (by decide : 0 < 2 ^ 32) ?_ ?_ ?_ ?_
  · grind
  · grind
  · grind
  · cases owner <;> cases clearer <;> simp only [Fields, setPc] at fields ⊢ <;> grind

theorem Shape.clearOwner (here : s.pc p = .clearOwner) :
    ({ s with lockedBy := 0 }.setPc p .out).Shape owner none := by
  have mine := h.local p
  have fields := h.fields
  have queued := h.queued
  refine h.move .out (s.held p) rfl (update_eq_self p s.held).symm ?_ ?_ ?_ trivial h.value ?_ h.distinct h.small ?_
  · grind
  · grind
  · grind
  · grind
  · cases owner <;> cases clearer <;> simp only [Fields, setPc] at fields ⊢ <;> grind

theorem Shape.get (here : s.pc p = .down ∨ s.pc p = .tryDown) (free : 0 < s.value) :
    ({ s with value := s.value - 1 }.setPc p .claim).Shape (some p) clearer := by
  have mine := h.local p
  have fields := h.fields
  have queued := h.queued
  have value := h.value
  obtain rfl : owner = none := by grind
  refine h.move .claim (s.held p) rfl (update_eq_self p s.held).symm ?_ ?_ ?_ ?_ ?_ ?_ h.distinct h.small ?_
  · grind
  · grind
  · grind
  · grind
  · grind
  · grind
  · cases clearer <;> simp only [Fields, setPc] at fields ⊢ <;> grind

theorem Shape.sleep (here : s.pc p = .down) :
    ({ s with queue := s.queue ++ [p] }.setPc p .asleep).Shape owner clearer := by
  have mine := h.local p
  have fields := h.fields
  have queued := h.queued
  have distinct := h.distinct
  refine h.move .asleep (s.held p) rfl (update_eq_self p s.held).symm ?_ ?_ (fun _ _ => ⟨.rfl, .rfl⟩) ?_ h.value
    ?_ ?_ h.small ?_
  · grind
  · grind
  · grind
  · grind
  · grind
  · cases owner <;> cases clearer <;> simp only [Fields, setPc] at fields ⊢ <;> grind

theorem Shape.release (here : s.pc p = .up) :
    ∃ owner', (s.upSem.setPc p .clearDepth).Shape owner' (some p) := by
  have mine := h.local p
  have fields := h.fields
  have queued := h.queued
  have distinct := h.distinct
  have value := h.value
  obtain ⟨rfl, rfl⟩ : owner = some p ∧ clearer = none := by
    cases owner <;> cases clearer <;> simp only [Fields] at fields <;> grind
  -- As if there were no waiter: the semaphore is free and the fields are to be cleared.
  have given : ({ s with value := 1 }.setPc p .clearDepth).Shape none (some p) := by
    refine h.move .clearDepth (s.held p) rfl (update_eq_self p s.held).symm ?_ ?_ ?_ ?_ rfl ?_ distinct h.small ?_
    · grind
    · grind
    · grind
    · grind
    · grind
    · simp only [Fields, setPc] at fields ⊢
      grind
  rw [upSem]
  split
  · have zero : s.value + 1 = 1 := by grind
    rw [zero]
    exact ⟨none, given⟩
  · next q queue list =>
    have waits := given.local q
    have fields := given.fields
    have apart : q ≠ p := by grind
    refine ⟨some q, given.move .claim (s.held q) (update_comm apart.symm _ _ _).symm
      (update_eq_self q s.held).symm ?_ ?_ ?_ ?_ ?_ ?_ ?_ h.small ?_⟩
    · grind
    · grind
    · grind
    · grind
    · grind
    · grind
    · grind
    · simp only [Fields, setPc] at fields ⊢
      grind

theorem Shape.giveUp (here : s.pc p = .tryDown) : (s.setPc p .out).Shape owner clearer := by
  have mine := h.local p
  have fields := h.fields
  refine h.stay .out (s.held p) (by simp [here]) rfl (update_eq_self p s.held).symm rfl rfl h.small ?_ ?_ trivial ?_
  · grind
  · grind
  · cases owner <;> cases clearer <;> simp only [Fields, setPc] at fields ⊢ <;> grind

theorem go_shape (calm : s.Calm (.go p)) (taken : s.go p = some t) :
    ∃ owner' clearer', t.Shape owner' clearer' := by
  rw [go] at taken
  split at taken
  · cases taken
  · rename_i here
    cases taken
    exact ⟨_, _, h.testOwner here⟩
  · rename_i here
    cases taken
    exact ⟨_, _, h.nest here (calm.2 here)⟩
  · rename_i here
    split_ifs at taken with free
    · cases taken
      exact ⟨_, _, h.get (.inl here) free⟩
    · cases taken
      exact ⟨_, _, h.sleep here⟩
  · rename_i here
    split_ifs at taken with free
    · cases taken
      exact ⟨_, _, h.get (.inr here) free⟩
    · cases taken
      exact ⟨_, _, h.giveUp here⟩
  · cases taken
  · rename_i here
    cases taken
    exact ⟨_, _, h.claim here (calm.1 here)⟩
  · rename_i here
    cases taken
    exact ⟨_, _, h.setDepth here⟩
  · rename_i here
    cases taken
    exact ⟨_, _, h.unlockOwner here⟩
  · rename_i here
    cases taken
    exact ⟨_, _, h.unnest here⟩
  · rename_i here
    cases taken
    obtain ⟨owner', shape⟩ := h.release here
    exact ⟨owner', _, shape⟩
  · rename_i here
    cases taken
    exact ⟨_, _, h.clearDepth here⟩
  · rename_i here
    cases taken
    exact ⟨_, _, h.clearOwner here⟩

end

theorem step_shape {l : Label n} (h : ∃ owner clearer, s.Shape owner clearer) (calm : s.Calm l)
    (taken : s.step l = some t) : ∃ owner clearer, t.Shape owner clearer := by
  obtain ⟨owner, clearer, h⟩ := h
  cases l with
  | lock p attempt => exact ⟨_, _, h.lock taken⟩
  | unlock p => exact ⟨_, _, h.unlock taken⟩
  | go p => exact go_shape h calm taken

/-- In a run in which the fields are cleared before the next holder writes them, the holder
    can always lock again, and the last unlock and no other gives the semaphore up. -/
theorem holder_locks_again {ls : List (Label n)} (calm : Along step Calm (create n) ls)
    (run : runFrom step (create n) ls = some t) : t.Reentrant := by
  obtain ⟨owner, clearer, shape⟩ := runFrom_invariant (fun _ _ _ h calm taken => step_shape h calm taken)
    ⟨none, none, create_shape⟩ calm run
  exact shape.reentrant

local instance twoProcesses : @NeZero Nat Zero.ofOfNat0 2 := ⟨by decide⟩

/-- Two processes take the lock in turn, the second one twice. -/
def lockTwice : List (Label 2) :=
  [.lock 0 false, .go 0, .go 0, .go 0, .lock 1 true, .go 1, .go 1, .lock 1 false, .go 1, .go 1,
    .unlock 0, .go 0, .go 0, .go 0, .go 1, .go 1, .lock 1 true, .go 1, .go 1]

theorem holder_locks_again_lockTwice : ∃ t, runFrom step (create 2) lockTwice = some t ∧
    t.held 1 = 2 ∧ t.Reentrant := by
  refine exists_run_test (fun t => t.held 1 = 2) (by decide +kernel) fun t run held => ?_
  exact ⟨held, holder_locks_again (by decide +kernel) run⟩

/-- The last holder clears the fields of the next one, which then waits for itself. -/
theorem holder_waits_for_itself : ∃ t, runFrom step (create 2)
    [.lock 0 false, .go 0, .go 0, .go 0, .unlock 0, .go 0, .lock 1 false, .go 1, .go 1, .go 1, .go 1,
      .go 0, .go 0, .lock 1 false, .go 1] = some t ∧
    t.held 1 = 1 ∧ t.pc 1 = .asleep ∧ t.held 0 = 0 ∧ t.pc 0 = .out := by
  exact exists_run_test _ (by decide +kernel) fun _ _ facts => facts

end State

end Procore.Mm.Lock
