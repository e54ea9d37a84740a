import Procore.Mm.Steps

/-! # Owners and reference counts in every reached state

From a machine without address spaces on, and as long as forks find frames for
their tables and no address space ends as the owner of a page that it cannot
reach, the owner of every page on the replacement list is there and the books of
the frames are right.
-/

namespace Procore.Mm

open Procore.Lib Vm List Option

namespace Vm

variable {A : Allow} {s t : Vm} {frames : List Nat} {slotCount : Nat} {ops : List VmOp}

theorem Owned.mono (h : s.Owned)
    (fifo : ∀ p ∈ t.fifo, p ∈ s.fifo ∧ (t.frame p).praMm = (s.frame p).praMm)
    (alive : ∀ i, (s.mm i).isSome = true → (t.mm i).isSome = true) : t.Owned := by
  intro p queued
  obtain ⟨mem, same⟩ := fifo p queued
  obtain ⟨i, owner, there⟩ := h p mem
  exact ⟨i, same.trans owner, alive i there⟩

end Vm

theorem Move.owned {A : Allow} {s t : Vm} {frames : List Nat} (h : s.Sound frames) (strict : ¬ A.orphan)
    (owned : s.Owned) (move : Move A s t) : t.Owned := by
  obtain ⟨o, books, -⟩ := h.books
  have order := books.order
  cases move with
  | env disk mem => exact owned
  | store loud i vpn p off cow byte mapped => exact owned
  | links fifo frame refs nodup owners =>
    intro p queued
    rcases owners p queued with ⟨mem, same⟩ | ⟨i, vpn, owner, named⟩
    · obtain ⟨i, owner, alive⟩ := owned p mem
      exact ⟨i, same.trans owner, alive⟩
    obtain ⟨m, alive⟩ := alive_of_page named
    exact ⟨i, owner, by simp [alive]⟩
  | vmas i m vmas alive shape =>
    exact owned.mono (fun p mem => ⟨mem, rfl⟩) fun j there => (isSome_setMm _ i j).trans there
  | recycle p rest free =>
    exact owned.mono (fun q mem => frame_of_fifo_freePage order mem)
      fun j there => there
  | table i vpn p m rest alive absent covered free =>
    refine owned.mono (fun q mem => ⟨mem, ?_⟩) fun j there => (isSome_setMm _ i j).trans there
    by_cases here : q = p <;> simp [setTable, setMm, setFrame, here]
  | untable loud i k p m alive there empty =>
    exact owned.mono (fun q mem => frame_of_fifo_freePage order mem)
      fun j there => (isSome_setMm _ i j).trans there
  | create loud p startBrk rest free =>
    refine owned.mono (fun q mem => ⟨mem, rfl⟩) fun j there => ?_
    by_cases here : j = s.next
    · simp [here]
    · simpa [here] using there
  | destroy loud i m alive empty bare unowned =>
    intro q queued
    obtain ⟨mem, same⟩ := frame_of_fifo_freePage order queued
    obtain ⟨j, owner, there⟩ := owned q mem
    refine ⟨j, same.trans owner, ?_⟩
    have other : j ≠ i := by
      rintro rfl
      exact unowned.resolve_left strict q mem owner
    simpa [other] using there
  | retype i vpn p e old new grant =>
    exact owned.mono (fun q mem => ⟨mem, rfl⟩) fun j there => (isSome_setEntry i vpn j e).trans there
  | fill i vpn p write m rest alive there covered valid free =>
    refine owned.mono (fun q mem => ?_) fun j there => ?_
    · obtain ⟨mem, same⟩ := frame_of_fifo_dropEntry
        (s := ({ s with free := s.free.tail }.setData p (s.view (s.entry i vpn))).addRef p 1) order mem
      refine ⟨mem, same.trans ?_⟩
      by_cases here : q = p <;> simp [addRef, setFrame, setData, here]
    · rw [fillEntry, isSome_setEntry]
      simpa using there
  | evict may i vpn p slot write cow old sole found =>
    refine owned.mono (fun q mem => ?_) fun j there => ?_
    · exact frame_of_fifo_putPage (s := setEntry { s.setSlotRefs slot 1 with
        slotData := Function.update s.slotData slot (s.data p) } i vpn (.swap slot)) order mem
    rw [mm_evictEntry, isSome_setEntry]
    exact there
  | clear loud i vpn =>
    rw [unmapPte_eq]
    refine owned.mono (fun q mem => frame_of_fifo_dropEntry order mem) fun j there => ?_
    rw [isSome_setEntry, mm_dropEntry]
    exact there
  | share loud dst src vpn m apart alive there covered empty =>
    obtain ⟨fifo, owners, alive⟩ := shareEntry_frame s dst src vpn (s.entry src vpn)
    exact owned.mono (fun q mem => ⟨fifo ▸ mem, owners q⟩) fun j there => (alive j).trans there

theorem Moves.owned {A : Allow} {s t : Vm} {frames : List Nat} (h : s.Sound frames) (strict : ¬ A.orphan)
    (owned : s.Owned) (moves : Moves A s t) : t.Owned := by
  induction moves with
  | refl => exact owned
  | tail before move ih => exact move.owned (Moves.sound h before) strict ih

namespace Vm

variable {s t : Vm} {frames : List Nat} {slotCount : Nat} {ops : List VmOp}

theorem swapVictim_isSome (owned : s.Owned) : ∃ r, s.swapVictim = some r := by
  rw [swapVictim]
  split
  · exact ⟨_, rfl⟩
  rename_i p last
  obtain ⟨i, owner, alive⟩ := owned p (mem_of_getLast? last)
  obtain ⟨m, alive⟩ := isSome_iff_exists.mp alive
  dsimp only
  rw [owner]
  dsimp only
  split
  · exact ⟨_, rfl⟩
  rw [alive]
  dsimp only
  split
  · split
    · split
      · exact ⟨_, rfl⟩
      · exact ⟨_, rfl⟩
    · exact ⟨_, rfl⟩
  · exact ⟨_, rfl⟩

theorem swapOutLoop_isSome {scans n : Nat} (h : s.Sound frames) (owned : s.Owned) :
    ∃ r, s.swapOutLoop scans n = some r := by
  induction scans generalizing s n with
  | zero => exact ⟨_, rfl⟩
  | succ scans ih =>
    cases n with
    | zero => exact ⟨_, rfl⟩
    | succ n =>
      obtain ⟨⟨result, u⟩, ran⟩ := swapVictim_isSome owned
      have moves := (swapVictim_reclaimed ran).moves ⟨False, False, False, True⟩ trivial
      have sound := moves.sound h
      have owned := moves.owned h id owned
      rw [swapOutLoop, ran]
      cases result with
      | stop => exact ⟨_, rfl⟩
      | skip => exact ih sound owned
      | swapped =>
        obtain ⟨r, last⟩ := ih sound owned
        exact ⟨_, congrArg (Option.map _) last⟩

theorem step_sound {op : VmOp} (h : s.Sound frames) (room : s.Room op) (taken : s.step op = some t) :
    t.Sound frames := by
  have moves : Moves ⟨True, True, True, True⟩ s t :=
    step_moves h (.inl trivial) (.inl trivial) (.inl trivial) room (.inl trivial) taken
  exact moves.sound h

theorem sound_of_run (nodup : frames.Nodup) (room : Along step Room (boot frames slotCount) ops)
    (run : runFrom step (boot frames slotCount) ops = some t) : t.Sound frames :=
  runFrom_invariant (fun _ _ _ h room taken => step_sound h room taken) (boot_sound nodup slotCount) room run

def Safe (s : Vm) (op : VmOp) : Prop := s.Room op ∧ s.Clear op

instance (s : Vm) (op : VmOp) : Decidable (s.Safe op) := inferInstanceAs (Decidable (_ ∧ _))

theorem step_keeps {op : VmOp} (h : s.Sound frames ∧ s.Owned) (safe : s.Safe op)
    (taken : s.step op = some t) : t.Sound frames ∧ t.Owned := by
  have moves : Moves ⟨True, False, True, True⟩ s t :=
    step_moves h.1 (.inl trivial) (.inl trivial) (.inr ⟨h.2, safe.2⟩) safe.1 (.inl trivial) taken
  exact ⟨moves.sound h.1, moves.owned h.1 id h.2⟩

section

variable (nodup : frames.Nodup) (safe : Along step Safe (boot frames slotCount) ops)
  (run : runFrom step (boot frames slotCount) ops = some t)
include nodup safe run

theorem reached : t.Sound frames ∧ t.Owned :=
  runFrom_invariant (fun _ _ _ h safe taken => step_keeps h safe taken)
    ⟨boot_sound nodup slotCount, by intro p mem; cases mem⟩ safe run

/-- In every reached state the owner of each linked page is there, and `swap_out` finds every
    owner it asks for. -/
theorem owners_are_there : (∀ p ∈ t.fifo, ∃ i m, (t.frame p).praMm = some i ∧ t.mm i = some m) ∧
      ∀ n, ∃ r, t.swapOut n = some r := by
  obtain ⟨sound, owned⟩ := reached nodup safe run
  refine ⟨fun p queued => ?_, fun n => swapOutLoop_isSome sound owned⟩
  obtain ⟨i, owner, alive⟩ := owned p queued
  obtain ⟨m, alive⟩ := isSome_iff_exists.mp alive
  exact ⟨i, m, owner, alive⟩

end

/-- A process writes a page, forks, and the child copies the page, hides and unmaps its own and
    exits. -/
def forkAndExit : List VmOp :=
  [.create userBase [], .mmap 0 userBase 0x2000 3 true, .fault 0 userBase false true [],
    .store 0 userBase 7, .fork 0 [] [], .fault 1 userBase true true [], .store 1 userBase 8,
    .mprotect 1 userBase 0x1000 0 true true, .swapOut 1 [], .fault 0 userBase true true [], .exit 1]

theorem owners_are_there_forkAndExit :
    Along step Safe (boot [10, 11, 12, 13, 14, 15, 16, 17] 5) forkAndExit ∧
    ∃ t, runFrom step (boot [10, 11, 12, 13, 14, 15, 16, 17] 5) forkAndExit = some t ∧
      t.fifo = [12] ∧ (∀ p ∈ t.fifo, ∃ i m, (t.frame p).praMm = some i ∧ t.mm i = some m) ∧
      ∃ r, t.swapOut 1 = some r := by
  have safe : Along step Safe (boot [10, 11, 12, 13, 14, 15, 16, 17] 5) forkAndExit := by
    decide +kernel
  have ends : (runFrom step (boot [10, 11, 12, 13, 14, 15, 16, 17] 5) forkAndExit).map fifo =
      some [12] := by decide +kernel
  obtain ⟨t, run, linked⟩ := map_eq_some_iff.mp ends
  obtain ⟨owners, swaps⟩ := owners_are_there (by decide) safe run
  exact ⟨safe, t, run, linked, owners, swaps 1⟩

/-- A parent that copies its page after a fork leaves the old page to the child, but stays its
    owner. When the parent ends, the page keeps an owner that is gone. -/
def copyAndExit : List VmOp :=
  [.create userBase [], .mmap 0 userBase 0x1000 3 true, .fault 0 userBase false true [],
    .store 0 userBase 7, .fork 0 [] [], .fault 0 userBase true true [], .exit 0]

theorem owner_ends_first : ∃ t, runFrom step (boot [10, 11, 12, 13, 14, 15, 16, 17] 5) copyAndExit = some t ∧
    t.fifo = [12] ∧ (t.frame 12).praMm = some 0 ∧ (t.mm 0).isSome = false ∧ (t.swapOut 1).isSome = false := by
  exact exists_run_test _ (by decide +kernel) fun _ _ facts => facts

/-- All page-table entries of all address spaces. -/
def places (s : Vm) : List (Nat × Nat) :=
  (range s.next).flatMap fun i =>
    ((range tableSize).filter fun k => (s.tableAt i (some k)).isSome).flatMap fun k =>
      (range' (k * tableSize) tableSize).map fun vpn => (i, vpn)

theorem mem_places {x : Nat × Nat} : x ∈ s.places ↔ x.1 < s.next ∧
    x.2 / tableSize < tableSize ∧ (s.tableAt x.1 (some (x.2 / tableSize))).isSome = true := by
  obtain ⟨i, vpn⟩ := x
  simp only [places, List.mem_flatMap, List.mem_range, List.mem_filter, List.mem_map, mem_table,
    Prod.mk.injEq]
  constructor
  · rintro ⟨j, alive, k, there, v, within, rfl, rfl⟩
    exact ⟨alive, by rw [within]; exact there⟩
  · rintro ⟨alive, there⟩
    exact ⟨i, alive, vpn / tableSize, there, vpn, rfl, rfl, rfl⟩

theorem places_nodup : s.places.Nodup := by
  rw [places, List.nodup_flatMap]
  refine ⟨fun i _ => ?_, ?_⟩
  · rw [List.nodup_flatMap]
    refine ⟨fun k _ => (List.nodup_range' _).map (fun v w same => (Prod.mk.inj same).2), ?_⟩
    refine (List.nodup_range.filter _).imp fun distinct => ?_
    simp only [List.disjoint_left, List.mem_map, mem_table]
    rintro x ⟨v, rfl, rfl⟩ ⟨w, rfl, same⟩
    exact distinct (by rw [(Prod.mk.inj same).2])
  · refine List.nodup_range.imp fun distinct => ?_
    simp only [List.disjoint_left, List.mem_flatMap, List.mem_map]
    rintro x ⟨k, -, v, -, rfl⟩ ⟨l, -, w, -, same⟩
    exact distinct (Prod.mk.inj same).1.symm

theorem Shape.mem_places (h : s.Shape) {x : Nat × Nat} (named : s.entry x.1 x.2 ≠ .none) :
    x ∈ s.places := by
  obtain ⟨m, alive⟩ := alive_of_entry named
  have shape := h.mm x.1 m alive
  rw [entry_of_mm alive] at named
  refine Vm.mem_places.mpr ⟨h.ids x.1 m alive, ?_, ?_⟩
  · obtain ⟨v, mem, holds⟩ := shape.covered x.2 named
    have top := (shape.linked.fits v mem).1.2.2
    have := holds.2
    simp only [pgsize, userTop, tableSize] at *
    omega
  · rw [tableAt, alive, Option.isSome_iff_ne_none]
    exact shape.tabled x.2 named

/-- The number of the page-table entries that name the frame, present or hidden. -/
def nameCount (s : Vm) (p : Nat) : Nat := s.places.countP fun x => s.pages x = some p

theorem Shape.nameCount (h : s.Shape) (p : Nat) : tally s.pages p = s.nameCount p := by
  refine tally_eq_countP places_nodup (fun x named => h.mem_places ?_) p
  intro none
  exact named (by rw [pages, none]; rfl)

/-- The frame holds a page table or a page directory. -/
def IsTable (s : Vm) (p : Nat) : Prop := ∃ i k, s.tableAt i k = some p

/-- In every reached state a frame is free exactly if it is no table and no entry names it, and
    the reference count of every other frame is the number of the entries that name it. -/
theorem refs_count_entries {p : Nat} (nodup : frames.Nodup)
    (room : Along step Room (boot frames slotCount) ops)
    (run : runFrom step (boot frames slotCount) ops = some t) (given : p ∈ frames)
    (page : ¬ t.IsTable p) :
    t.ref p = t.nameCount p ∧ (p ∈ t.free ↔ t.nameCount p = 0) ∧ t.free.count p ≤ 1 := by
  obtain ⟨shape, o, books, others⟩ := sound_of_run nodup room run
  have once : t.free.count p ≤ 1 := nodup_iff_count_le_one.mp books.nodup p
  cases owner : o p with
  | other => exact absurd given ((others p).mp owner)
  | table i k => exact absurd ⟨i, k, (books.tables i k p).mp owner⟩ page
  | free =>
    have unnamed : t.nameCount p = 0 := by
      rw [← shape.nameCount, tally_eq_zero shape.sparse]
      intro x named
      simp [books.named x p named] at owner
    refine ⟨?_, ⟨fun _ => unnamed, fun _ => (books.free p).mpr owner⟩, once⟩
    rw [books.unused p owner, unnamed]
    rfl
  | user =>
    obtain ⟨counted, positive⟩ := books.refs p owner
    rw [shape.nameCount] at counted positive
    refine ⟨counted, ⟨fun mem => ?_, fun none => absurd none (Nat.ne_of_gt positive)⟩, once⟩
    simp [(books.free p).mp mem] at owner

theorem Sound.not_table {p : Nat} (h : t.Sound frames) (queued : p ∈ t.fifo) : ¬ t.IsTable p := by
  obtain ⟨o, books, -⟩ := h.books
  rintro ⟨i, k, table⟩
  have held := (books.tables i k p).mpr table
  rw [books.queued p queued] at held
  cases held

theorem refs_count_entries_forkAndExit :
    Along step Room (boot [10, 11, 12, 13, 14, 15, 16, 17] 5) forkAndExit ∧
    ∃ t, runFrom step (boot [10, 11, 12, 13, 14, 15, 16, 17] 5) forkAndExit = some t ∧
      ¬ t.IsTable 12 ∧ t.ref 12 = 1 ∧ t.nameCount 12 = 1 ∧ 12 ∉ t.free := by
  have room : Along step Room (boot [10, 11, 12, 13, 14, 15, 16, 17] 5) forkAndExit := by
    decide +kernel
  have ends : (runFrom step (boot [10, 11, 12, 13, 14, 15, 16, 17] 5) forkAndExit).map
      (fun t => (t.fifo, t.ref 12)) = some ([12], 1) := by decide +kernel
  obtain ⟨t, run, facts⟩ := map_eq_some_iff.mp ends
  simp only [Prod.mk.injEq] at facts
  have page : ¬ t.IsTable 12 := (sound_of_run (by decide) room run).not_table (by simp [facts.1])
  obtain ⟨counted, returned, -⟩ := refs_count_entries (by decide) room run (by decide) page
  have one : t.nameCount 12 = 1 := by
    rw [facts.2] at counted
    exact_mod_cast counted.symm
  exact ⟨room, t, run, page, facts.2, one, by rw [returned, one]; decide⟩

/-- The last free frame goes to the directory of the child. For its table the page of the parent
    is reclaimed after its entry has been read, so the frame of the table is also a shared page. -/
def forkWithoutRoom : List VmOp :=
  [.create userBase [], .mmap 0 userBase 0x1000 3 true, .fault 0 userBase false true [],
    .store 0 userBase 7, .fork 0 [] []]

theorem free_frame_is_mapped : ∃ t, runFrom step (boot [10, 11, 12, 13] 5) (forkWithoutRoom ++ [.exit 1]) =
    some t ∧ 12 ∈ t.free ∧ t.entry 0 (userBase / pgsize) = .present 12 false true := by
  exact exists_run_test _ (by decide +kernel) fun _ _ facts => facts

end Vm

end Procore.Mm
