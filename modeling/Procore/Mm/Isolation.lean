import Procore.Mm.Slots

/-! # Copy-on-write keeps address spaces apart

A page behind a writable entry has one reference, so no other entry names it and
a store through the entry is not seen elsewhere. A fork takes the right to write
from both sides and marks the entries, and a write fault gives it back to a page
that has one name. Only `mm_mprotect` grants writing without looking at the
references: it trusts the mark, which a page that was read-only at the fork does
not have.
-/

namespace Procore.Mm

open Procore.Lib Vm

variable {A : Allow} {s t : Vm} {frames : List Nat} {slotCount : Nat} {ops : List VmOp}
  {i j vpn v p : Nat}

/-- A page behind a writable entry has one reference. -/
def Exclusive (s : Vm) : Prop :=
  ∀ i vpn p, (s.entry i vpn).writable = true → (s.entry i vpn).page = some p → s.ref p = 1

section

variable (h : s.Sound frames)
include h

theorem Vm.Sound.sole {x y : Nat × Nat} (one : s.ref p = 1)
    (here : s.pages x = some p) (there : s.pages y = some p) : x = y := by
  obtain ⟨o, books, -⟩ := h.books
  obtain ⟨refs, -⟩ := books.refs p (books.named x p here)
  exact eq_of_tally_one (by omega) here there

section

variable (only : Exclusive s)
include only

/-- One entry is written. The pages of the other writable entries keep their references, unless
    the old entry named them too. -/
theorem Exclusive.replace (i vpn : Nat)
    (others : ∀ j v, (j, v) ≠ (i, vpn) → t.entry j v = s.entry j v)
    (refs : ∀ j v q, (s.entry j v).writable = true → (s.entry j v).page = some q →
      (s.entry i vpn).page ≠ some q → t.ref q = s.ref q)
    (here : ∀ q, (t.entry i vpn).writable = true → (t.entry i vpn).page = some q → t.ref q = 1) :
    Exclusive t := by
  intro j v q writable page
  by_cases same : (j, v) = (i, vpn)
  · cases same
    exact here q writable page
  rw [others j v same] at writable page
  have one := only j v q writable page
  have alone : (s.entry i vpn).page ≠ some q := fun named =>
    same (h.sole one page named)
  rw [refs j v q writable page alone, one]

/-- An entry gives up what it names. -/
theorem Exclusive.cleared (alive : (s.mm i).isSome)
    {u : Vm} (refs : ∀ j v q, (s.entry j v).page = some q → (s.entry i vpn).page ≠ some q →
      u.ref q = s.ref q) (mm : u.mm = s.mm) {e : Pte}
    (here : ∀ q, e.writable = true → e.page = some q → u.ref q = 1) :
    Exclusive (u.setEntry i vpn e) := by
  have isAlive : (u.mm i).isSome := by rw [mm]; exact alive
  refine only.replace h i vpn (fun j v other => ?_)
    (fun j v q _ page alone => refs j v q page alone) fun q writable page => ?_
  · rw [entry_setEntry, if_neg fun same => other (Prod.ext same.2.1 same.2.2)]
    exact entry_congr (congrFun mm j)
  · rw [entry_setEntry, if_pos ⟨isAlive, rfl, rfl⟩] at writable page
    exact here q writable page

/-- A page gets a second name. Neither of its entries is writable then. -/
theorem Exclusive.shared {dst src : Nat} {mark : Bool} {kept copy : Pte} (alive : (s.mm dst).isSome)
    (old : (s.entry src vpn).page = some p) (same : kept.page = some p)
    (marked : (s.entry src vpn).writable = true → mark = true)
    (less : kept.writable = false) (readOnly : copy.writable = false) :
    Exclusive (((if mark then s.setEntry src vpn kept else s).addRef p 1).setEntry dst vpn copy) := by
  have first : ∃ u, u = (if mark then s.setEntry src vpn kept else s) ∧ u.Sound frames ∧ Exclusive u ∧
      (u.mm dst).isSome ∧ (u.entry src vpn).page = some p ∧ (u.entry src vpn).writable = false := by
    cases mark with
    | false =>
      refine ⟨s, rfl, h, only, alive, old, ?_⟩
      by_contra writable
      exact absurd (marked (by simpa using writable)) (by simp)
    | true =>
      obtain ⟨m, source⟩ := alive_of_page old
      have new : (s.setEntry src vpn kept).entry src vpn = kept := by
        rw [entry_setEntry, if_pos ⟨by simp [source], rfl, rfl⟩]
      have move : Move ⟨False, True, True, True⟩ s (s.setEntry src vpn kept) :=
        .retype src vpn p kept old same (by simp [less])
      refine ⟨s.setEntry src vpn kept, rfl, move.sound h, ?_, ?_, by rw [new, same], by rw [new, less]⟩
      · exact only.cleared h (by simp [source]) (fun _ _ _ _ _ => rfl) rfl (by simp [less])
      · exact (isSome_setEntry src vpn dst kept).trans alive
  obtain ⟨u, rfl, sound, only, alive, named, plain⟩ := first
  refine only.replace sound dst vpn (fun j v other => ?_) ?_ fun q writable _ => ?_
  · rw [entry_setEntry, if_neg fun same => other (Prod.ext same.2.1 same.2.2)]
    rfl
  · intro j v q writable page _
    have other : q ≠ p := by
      rintro rfl
      have one := only j v q writable page
      cases sound.sole (x := (j, v)) (y := (src, vpn)) one page named
      rw [plain] at writable
      cases writable
    exact (ref_addRef 1).trans (by rw [if_neg other, Int.add_zero])
  · rw [entry_setEntry, if_pos ⟨by simpa using alive, rfl, rfl⟩, readOnly] at writable
    cases writable

theorem Change.exclusive (strict : ¬ A.loose) (change : Change A s t) : Exclusive t := by
  obtain ⟨o, books, -⟩ := h.books
  cases change with
  | steady _ same =>
    intro j v q writable page
    rw [same.entry] at writable page
    rw [same.refs (j, v) q page]
    exact only j v q writable page
  | retype i vpn p e alive old new grant =>
    refine only.cleared h alive (fun _ _ _ _ _ => rfl) rfl fun q writable page => ?_
    cases new.symm.trans page
    rcases grant writable with was | one | loose
    · exact only i vpn p was old
    · exact one
    · exact absurd loose strict
  | fill i vpn p write rest alive free =>
    have isFree : o p = .free := (books.free p).mp (by rw [free]; exact (.head _))
    have taken {j v q : Nat} (named : (s.entry j v).page = some q) : q ≠ p := by
      rintro rfl
      rw [books.named (j, v) q named] at isFree
      cases isFree
    refine only.cleared h alive (fun j v q page alone => ?_) (by simp) fun q _ page => ?_
    · rw [ref_dropEntry, if_neg alone, ref_taken (taken page), Int.sub_zero]
    · cases page
      have other : (s.entry i vpn).page ≠ some p := fun named => taken named rfl
      have unused : s.ref p = 0 := books.unused p isFree
      rw [ref_dropEntry, if_neg other, ref_addRef, if_pos rfl]
      change s.ref p + 1 - 0 = 1
      omega
  | evict may i vpn p slot write cow alive old sole found =>
    have entries (j v : Nat) : (s.evictEntry i vpn p slot).entry j v =
        if j = i ∧ v = vpn then .swap slot else s.entry j v := entry_evictEntry alive
    refine only.replace h i vpn (fun j v other => ?_) (fun j v q _ _ alone => ?_)
      fun q writable _ => ?_
    · rw [entries, if_neg fun same => other (Prod.ext same.1 same.2)]
    · rw [old] at alone
      refine ref_putPage.trans ?_
      rw [if_neg (by rintro rfl; exact alone rfl), Int.sub_zero]
      rfl
    · rw [entries, if_pos ⟨rfl, rfl⟩] at writable
      cases writable
  | clear loud i vpn alive =>
    refine only.cleared h alive (fun j v q _ alone => ?_) (by simp) (by simp [Pte.writable])
    rw [ref_dropEntry, if_neg alone, Int.sub_zero]
  | share loud dst src vpn apart alive empty =>
    cases source : s.entry src vpn with
    | none => exact only
    | present p write cow =>
      exact only.shared h alive (by rw [source]; rfl) rfl (by rw [source]; exact id) rfl rfl
    | hidden p write cow =>
      exact only.shared h alive (by rw [source]; rfl) rfl (by rw [source]; simp [Pte.writable])
        rfl rfl
    | swap slot =>
      simp only [shareEntry, swapDuplicateEntry]
      split
      · exact only
      rename_i duplicated
      obtain ⟨-, ⟨⟩⟩ := Option.ite_none_right_eq_some.mp duplicated
      exact only.cleared h alive (fun _ _ _ _ _ => rfl) rfl (by simp [Pte.writable])
  | store loud i vpn p off cow byte mapped => exact only

theorem Moves.exclusive (strict : ¬ A.loose) (moves : Moves A s t) : Exclusive t := by
  induction moves with
  | refl => exact only
  | tail before move ih =>
    have sound := Moves.sound h before
    exact (move.change sound).exclusive sound ih strict

end

end

namespace Vm

/-- A store changes the bytes behind one entry. -/
theorem store_view {addr : Nat} {byte : UInt8} (h : s.Sound frames) (only : Exclusive s)
    (stored : s.store i addr byte = some t) (other : (j, v) ≠ (i, addr / pgsize)) :
    t.view (t.entry j v) = s.view (s.entry j v) := by
  rw [store] at stored
  split at stored
  · rename_i p cow mapped
    cases stored
    have one : s.ref p = 1 := only i (addr / pgsize) p (by rw [mapped]; rfl) (by rw [mapped]; rfl)
    refine view_congr _ (fun q named => ?_) fun _ _ => rfl
    have apart : q ≠ p := by
      rintro rfl
      exact other (h.sole one named (by rw [pages, mapped]; rfl))
    exact Function.update_of_ne apart _ _
  · cases stored

/-- A fork finds free frames, and pages become writable only where no other entry names them. -/
def Guarded (s : Vm) (op : VmOp) : Prop := s.Room op ∧ s.Private op

instance (s : Vm) (op : VmOp) : Decidable (s.Guarded op) := inferInstanceAs (Decidable (_ ∧ _))

/-- What holds of the frames, the slots and the writable pages in every reached state. -/
structure Apart (s : Vm) (frames : List Nat) : Prop where
  sound : s.Sound frames
  slots : SlotBooks s
  only : Exclusive s

theorem Apart.step (s : Vm) (op : VmOp) (t : Vm) (h : s.Apart frames) (guarded : s.Guarded op)
    (taken : s.step op = some t) : t.Apart frames := by
  have moves : Moves ⟨False, True, True, True⟩ s t :=
    step_moves h.sound (.inl trivial) (.inl trivial) (.inl trivial) guarded.1
      (.inr guarded.2) taken
  exact ⟨moves.sound h.sound, moves.slots h.sound h.slots, moves.exclusive h.sound h.only id⟩

theorem boot_apart (nodup : frames.Nodup) : (boot frames slotCount).Apart frames where
  sound := boot_sound nodup slotCount
  slots := (boot_kept nodup).slots
  only := by
    intro i vpn p writable
    cases writable

/-- In every reached state a store, and the fault before it, leaves the bytes of the other
    address spaces alone. -/
theorem stores_stay_private (nodup : frames.Nodup)
    (guarded : Along step Guarded (boot frames slotCount) ops)
    (run : runFrom step (boot frames slotCount) ops = some t) :
    (∀ i addr byte u, t.step (.store i addr byte) = some u → ∀ j, j ≠ i → ∀ vpn,
      u.view (u.entry j vpn) = t.view (t.entry j vpn)) ∧
    ∀ i addr present write disk u, t.step (.fault i addr present write disk) = some u → ∀ j vpn,
      u.view (u.entry j vpn) = t.view (t.entry j vpn) := by
  have h : t.Apart frames := runFrom_invariant Apart.step (boot_apart nodup) guarded run
  constructor
  · intro i addr byte u stored j other vpn
    exact store_view h.sound h.only stored fun same => other (congrArg Prod.fst same)
  · intro i addr present write disk u taken
    have quiet : Quiet (.fault i addr present write disk) := trivial
    exact step_view h.sound h.slots quiet taken

/-- A parent and its child that write the page they share. -/
def forkAndWrite : List VmOp :=
  [.create userBase [], .mmap 0 userBase 0x1000 3 true, .fault 0 userBase false true [],
    .store 0 userBase 7, .fork 0 [] [], .fault 0 userBase true true []]

theorem stores_stay_private_forkAndWrite :
    Along step Guarded (boot [10, 11, 12, 13, 14, 15, 16, 17] 5) forkAndWrite ∧
    ∃ t u, runFrom step (boot [10, 11, 12, 13, 14, 15, 16, 17] 5) forkAndWrite = some t ∧
      t.step (.store 0 userBase 8) = some u ∧ t.view (t.entry 1 (userBase / pgsize)) 0 = 7 ∧
      u.view (u.entry 1 (userBase / pgsize)) 0 = 7 := by
  have guarded : Along step Guarded (boot [10, 11, 12, 13, 14, 15, 16, 17] 5) forkAndWrite := by
    decide +kernel
  have ends : (runFrom step (boot [10, 11, 12, 13, 14, 15, 16, 17] 5) forkAndWrite).map
      (fun t => (t.view (t.entry 1 (userBase / pgsize)) 0, (t.step (.store 0 userBase 8)).isSome)) =
      some (7, true) := by decide +kernel
  obtain ⟨t, run, facts⟩ := Option.map_eq_some_iff.mp ends
  simp only [Prod.mk.injEq] at facts
  obtain ⟨u, stored⟩ := Option.isSome_iff_exists.mp facts.2
  have same := (stores_stay_private (by decide) guarded run).1 0 userBase 8 u stored 1 (by decide)
    (userBase / pgsize)
  exact ⟨guarded, t, u, run, stored, facts.1, by rw [same, facts.1]⟩

/-- A page that is read-only at the fork is shared without a mark. When the parent makes its area
    writable again, its stores go to the page of the child. -/
def protectAndFork : List VmOp :=
  [.create userBase [], .mmap 0 userBase 0x1000 3 true, .fault 0 userBase false true [],
    .store 0 userBase 7, .mprotect 0 userBase 0x1000 1 true true, .fork 0 [] [],
    .mprotect 0 userBase 0x1000 3 true true]

theorem store_reaches_child :
    Along step Room (boot [10, 11, 12, 13, 14, 15, 16, 17] 5) protectAndFork ∧
    ∃ t u, runFrom step (boot [10, 11, 12, 13, 14, 15, 16, 17] 5) protectAndFork = some t ∧
      t.step (.store 0 userBase 8) = some u ∧ t.view (t.entry 1 (userBase / pgsize)) 0 = 7 ∧
      u.view (u.entry 1 (userBase / pgsize)) 0 = 8 := by
  refine ⟨by decide +kernel, ?_⟩
  have ends : (runFrom step (boot [10, 11, 12, 13, 14, 15, 16, 17] 5) protectAndFork).map
      (fun t => (t.view (t.entry 1 (userBase / pgsize)) 0, (t.step (.store 0 userBase 8)).map
        fun u => u.view (u.entry 1 (userBase / pgsize)) 0)) = some (7, some 8) := by decide +kernel
  obtain ⟨t, run, facts⟩ := Option.map_eq_some_iff.mp ends
  simp only [Prod.mk.injEq, Option.map_eq_some_iff] at facts
  obtain ⟨before, u, stored, after⟩ := facts
  exact ⟨t, u, run, stored, before, after⟩

end Vm

end Procore.Mm
