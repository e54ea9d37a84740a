import Procore.Mm.Books

/-! # Reclaiming pages and page faults

`swap_out` evicts pages and puts others back on the replacement list. An
allocation may reclaim, so a fault may move any page of any address space. What
the fault looks at before stays: areas and tables, and every entry whose page is
shared.
-/

namespace Procore.Mm

open Procore.Lib List Move Option
open Function

structure Reclaimed (s t : Vm) : Prop where
  moves : ∀ A : Allow, A.evict → Moves A s t
  next : t.next = s.next
  mm : ∀ i m, s.mm i = some m → ∃ pte, t.mm i = some { m with pte := pte }
  entry : ∀ i vpn, t.entry i vpn = s.entry i vpn ∨
    ∃ p write cow, s.entry i vpn = .present p write cow ∧ s.ref p = 1
  refs : ∀ p, t.ref p = s.ref p ∨ s.ref p = 1

variable {A : Allow} {s t u : Vm} {i vpn p slot : Nat} {m : MmStruct} {frames : List Nat}

theorem Reclaimed.refl : Reclaimed s s where
  moves _ _ := .refl
  next := rfl
  mm _ m alive := ⟨m.pte, alive⟩
  entry _ _ := .inl rfl
  refs _ := .inl rfl

theorem Reclaimed.trans (first : Reclaimed s t) (later : Reclaimed t u) : Reclaimed s u where
  moves A may := (first.moves A may).trans (later.moves A may)
  next := later.next.trans first.next
  mm i m alive := by
    obtain ⟨pte, alive⟩ := first.mm i m alive
    exact later.mm i { m with pte := pte } alive
  entry i vpn := by
    rcases first.entry i vpn with same | evicted
    · rcases later.entry i vpn with same' | ⟨p, write, cow, old, sole⟩
      · exact .inl (same'.trans same)
      · rw [same] at old
        rcases first.refs p with ref | was
        · exact .inr ⟨p, write, cow, old, ref ▸ sole⟩
        · exact .inr ⟨p, write, cow, old, was⟩
    · exact .inr evicted
  refs p := by
    rcases first.refs p with same | was
    · rcases later.refs p with same' | was
      · exact .inl (same'.trans same)
      · exact .inr (same ▸ was)
    · exact .inr was

theorem Reclaimed.quiet (moves : ∀ A, Moves A s t) (mm : t.mm = s.mm) (next : t.next = s.next)
    (refs : ∀ p, t.ref p = s.ref p) : Reclaimed s t where
  moves A _ := moves A
  next := next
  mm i m alive := ⟨m.pte, by rw [mm, alive]⟩
  entry i vpn := .inl (Vm.entry_congr (by rw [mm]))
  refs p := .inl (refs p)

namespace Vm

@[simp] theorem mm_mapSwappable : (s.mapSwappable i vpn p).mm = s.mm := by
  rw [mapSwappable]
  split <;> rfl

@[simp] theorem next_mapSwappable : (s.mapSwappable i vpn p).next = s.next := by
  rw [mapSwappable]
  split <;> rfl

@[simp] theorem ref_mapSwappable (q : Nat) : (s.mapSwappable i vpn p).ref q = s.ref q := by
  rw [mapSwappable]
  split
  · rfl
  · by_cases here : q = p <;> simp [ref, setFrame, here]

variable {v : Nat}

theorem requeue_move (last : s.fifo.getLast? = some p) (owner : (s.frame p).praMm = some i) :
    Move A s ({ s with fifo := s.fifo.dropLast }.mapSwappable i v p) := by
  have mem : p ∈ s.fifo := mem_of_getLast? last
  rw [mapSwappable]
  split
  · refine .links s.fifo.dropLast s.frame (fun _ => rfl) (fun nodup => nodup.sublist s.fifo.dropLast_sublist) ?_
    intro q inside
    exact .inl ⟨s.fifo.dropLast_subset inside, rfl⟩
  rename_i absent
  refine .links (p :: s.fifo.dropLast) _ ?_ ?_ ?_
  · intro q
    by_cases here : q = p <;> simp [setFrame, here]
  · intro nodup
    exact nodup_cons.mpr ⟨absent, nodup.sublist s.fifo.dropLast_sublist⟩
  · intro q inside
    left
    by_cases here : q = p
    · subst here
      exact ⟨mem, by simp [setFrame, owner]⟩
    · exact ⟨s.fifo.dropLast_subset (mem_of_ne_of_mem here inside), by simp [setFrame, here]⟩

theorem unqueue_move : Move A s { s with fifo := s.fifo.dropLast } := by
  refine .links s.fifo.dropLast s.frame (fun _ => rfl) (fun nodup => nodup.sublist s.fifo.dropLast_sublist) ?_
  intro q inside
  exact .inl ⟨s.fifo.dropLast_subset inside, rfl⟩

theorem slot_of_alloc (found : s.swapAllocEntry = some slot) : s.SlotValid slot ∧ s.slotRefs slot = 0 := by
  have free := find?_some found
  have mem := mem_of_find?_eq_some found
  rw [mem_range'_1] at mem
  exact ⟨⟨by omega, by omega⟩, by simpa using free⟩

theorem release_taken (valid : s.SlotValid slot) (unused : s.slotRefs slot = 0) :
    (s.setSlotRefs slot 1).swapReleaseEntry slot = s := by
  have taken : (s.setSlotRefs slot 1).slotRefs slot = 1 := update_self ..
  rw [swapReleaseEntry, if_pos ⟨valid, by rw [taken]; decide⟩, taken, setSlotRefs, setSlotRefs]
  simp [← unused]

theorem evict_eq (found : s.swapAllocEntry = some slot) : s.evict i v p slot =
    if s.disk.headD true then (.swapped, { s with disk := s.disk.tail }.evictEntry i v p slot)
    else (.skip, { s with disk := s.disk.tail }.mapSwappable i v p) := by
  obtain ⟨valid, unused⟩ := slot_of_alloc found
  have back := release_taken (s := { s with disk := s.disk.tail }) valid unused
  change (if s.disk.headD true then (Victim.swapped, { s with disk := s.disk.tail }.evictEntry i v p slot)
    else (.skip, (({ s with disk := s.disk.tail }.setSlotRefs slot 1).swapReleaseEntry slot).mapSwappable
      i v p)) = _
  rw [back]

variable {write : Bool}

theorem evictEntry_reclaimed {cow : Bool} (old : s.entry i v = .present p write cow)
    (sole : s.ref p = 1) (found : s.swapAllocEntry = some slot) :
    Reclaimed s (s.evictEntry i v p slot) where
  moves A may := (Move.evict may i v p slot write cow old sole found).moves
  next := by
    rw [evictEntry, next_putPage]
    rfl
  mm j n there := by
    rw [mm_evictEntry, setEntry, mm_setMm]
    split_ifs with here
    · rw [← here, there]
      exact ⟨_, rfl⟩
    · exact ⟨n.pte, there⟩
  entry j w := by
    rw [entry_congr (congrFun mm_evictEntry j), entry_setEntry]
    split_ifs with here
    · rw [here.2.1, here.2.2]
      exact .inr ⟨p, write, cow, old, sole⟩
    · exact .inl rfl
  refs q := by
    rw [evictEntry, ref_putPage]
    split_ifs with here
    · exact .inr (here ▸ sole)
    · exact .inl (Int.sub_zero _)

theorem swapVictim_reclaimed {result : Victim} (done : s.swapVictim = some (result, t)) :
    Reclaimed s t := by
  have dropped : Reclaimed s { s with fifo := s.fifo.dropLast } :=
    .quiet (fun _ => unqueue_move.moves) rfl rfl (fun _ => rfl)
  rw [swapVictim] at done
  split at done
  · cases done
    exact .refl
  rename_i p last
  dsimp only at done
  split at done
  · cases done
    exact dropped
  rename_i owner owned
  have requeued : Reclaimed s ({ s with fifo := s.fifo.dropLast }.mapSwappable owner
      (s.frame p).praVaddr p) :=
    .quiet (fun _ => (requeue_move last owned).moves) mm_mapSwappable next_mapSwappable
      ref_mapSwappable
  split at done
  · cases done
    exact dropped
  rename_i sole
  have sole : s.ref p = 1 := Decidable.not_not.mp sole
  split at done
  · cases done
  rename_i m alive
  split at done
  · rename_i q write cow old
    split_ifs at done with same
    · subst same
      have old : s.entry owner (s.frame q).praVaddr = .present q write cow := by
        rw [entry_of_mm alive, old]
      split at done
      · cases done
        exact requeued
      rename_i slot found
      rw [evict_eq found] at done
      have asked : Reclaimed s { s with disk := s.disk.tail } :=
        .quiet (fun _ => (env s.disk.tail s.mem).moves) rfl rfl (fun _ => rfl)
      by_cases answer : s.disk.headD true = true
      · rw [if_pos answer] at done
        cases done
        have dropped : Reclaimed { s with disk := s.disk.tail }
            { s with fifo := s.fifo.dropLast, disk := s.disk.tail } :=
          .quiet (fun _ => unqueue_move.moves) rfl rfl (fun _ => rfl)
        exact (asked.trans dropped).trans (evictEntry_reclaimed old sole found)
      · rw [if_neg answer] at done
        cases done
        apply asked.trans
        exact .quiet (fun _ => (requeue_move (s := { s with disk := s.disk.tail }) last owned).moves)
          mm_mapSwappable next_mapSwappable ref_mapSwappable
    · cases done
      exact requeued
  · cases done
    exact requeued

theorem swapOutLoop_reclaimed {scans n count : Nat} (done : s.swapOutLoop scans n = some (count, t)) :
    Reclaimed s t := by
  induction scans generalizing s t n count with
  | zero =>
    cases done
    exact .refl
  | succ scans ih =>
    cases n with
    | zero =>
      cases done
      exact .refl
    | succ n =>
      rw [swapOutLoop] at done
      split at done
      · cases done
      · rename_i stopped
        cases done
        exact swapVictim_reclaimed stopped
      · rename_i skipped
        exact (swapVictim_reclaimed skipped).trans (ih done)
      · rename_i swapped
        obtain ⟨⟨rest, last⟩, ran, same⟩ := map_eq_some_iff.mp done
        cases same
        exact (swapVictim_reclaimed swapped).trans (ih ran)

variable {reclaim : Bool}

/-- A frame comes from the front of the free ones, after some reclaiming. -/
theorem allocLoop_spec {attempts : Nat} {got : Option Nat}
    (done : allocLoop reclaim attempts s = some (got, t)) :
    (got = none → Reclaimed s t) ∧ ∀ p, got = some p →
      ∃ u rest, Reclaimed s u ∧ u.free = p :: rest ∧ t = { u with free := rest } := by
  induction attempts generalizing s with
  | zero =>
    rw [allocLoop] at done
    split at done
    · rename_i p rest free
      cases done
      exact ⟨by simp, by rintro q ⟨⟩; exact ⟨s, rest, .refl, free, rfl⟩⟩
    · split at done
      all_goals
        cases done
        exact ⟨fun _ => .refl, by simp⟩
  | succ attempts ih =>
    rw [allocLoop] at done
    split at done
    · rename_i p rest free
      cases done
      exact ⟨by simp, by rintro q ⟨⟩; exact ⟨s, rest, .refl, free, rfl⟩⟩
    split at done
    · split at done
      · cases done
      · rename_i u ran
        cases done
        exact ⟨fun _ => swapOutLoop_reclaimed ran, by simp⟩
      rename_i u ran
      have first := swapOutLoop_reclaimed ran
      obtain ⟨failed, taken⟩ := ih done
      refine ⟨fun none => first.trans (failed none), ?_⟩
      intro p some
      obtain ⟨v, rest, later, free, same⟩ := taken p some
      exact ⟨v, rest, first.trans later, free, same⟩
    · cases done
      exact ⟨fun _ => .refl, by simp⟩

theorem allocPage_none (done : s.allocPage reclaim = some (none, t)) : Reclaimed s t :=
  (allocLoop_spec done).1 rfl

theorem allocPage_some (done : s.allocPage reclaim = some (some p, t)) :
    ∃ u rest, Reclaimed s u ∧ u.free = p :: rest ∧ t = { u with free := rest } :=
  (allocLoop_spec done).2 p rfl

theorem allocPage_of_free {rest : List Nat} (free : s.free = p :: rest) :
    s.allocPage reclaim = some (some p, { s with free := rest }) := by
  rw [allocPage, swapRetryLimit, allocLoop, free]

theorem allocPage_empty (free : s.free = []) : s.allocPage false = some (none, s) := by
  rw [allocPage, swapRetryLimit, allocLoop, free]
  rfl

/-- An area covers the page, and there is a page table for it. -/
def Ready (s : Vm) (i vpn : Nat) : Prop :=
  ∃ m, s.mm i = some m ∧ m.vmas.Covers (vpn * pgsize) ∧ m.pde (vpn / tableSize) ≠ none

theorem Ready.reclaimed (ready : s.Ready i vpn) (reclaimed : Reclaimed s t) : t.Ready i vpn := by
  obtain ⟨m, alive, covered, there⟩ := ready
  obtain ⟨pte, alive⟩ := reclaimed.mm i m alive
  exact ⟨_, alive, covered, there⟩

theorem Ready.hasTable (ready : s.Ready i vpn) : s.hasTable i vpn = true := by
  obtain ⟨m, alive, -, there⟩ := ready
  rw [Vm.hasTable, alive]
  simpa [isSome_iff_ne_none] using there

/-- The table was there, or it is new and empty. -/
theorem getPte_spec {ok : Bool} (alive : s.mm i = some m) (covered : m.vmas.Covers (vpn * pgsize))
    (done : s.getPte i vpn = some (ok, t)) :
    (t = s ∧ s.Ready i vpn) ∨
      ((∀ A : Allow, A.evict → Moves A s t) ∧ (ok = true → t.entry i vpn = .none ∧ t.Ready i vpn)) := by
  rw [getPte] at done
  split at done
  · rename_i there
    cases done
    rw [Vm.hasTable, alive] at there
    exact .inl ⟨rfl, m, alive, covered, by simpa [isSome_iff_ne_none] using there⟩
  rename_i absent
  right
  split at done
  · cases done
  · rename_i ran
    cases done
    exact ⟨(allocPage_none ran).moves, by simp⟩
  rename_i p u ran
  cases done
  obtain ⟨u, rest, reclaimed, free, rfl⟩ := allocPage_some ran
  obtain ⟨pte, live⟩ := reclaimed.mm i m alive
  have absent : m.pde (vpn / tableSize) = none := by
    rw [Vm.hasTable, alive] at absent
    simpa using absent
  refine ⟨fun A may => (reclaimed.moves A may).trans (table i vpn p _ rest live absent covered free).moves,
    fun _ => ?_⟩
  have now : ((({ u with free := rest }.setFrame p fun f => { f with ref := 1 }).setTable i
      (vpn / tableSize) (some p))).mm i = some { m with
        pde := update m.pde (vpn / tableSize) (some p)
        pte := fun v => if v / tableSize = vpn / tableSize then .none else pte v } := by
    rw [setTable, mm_setMm, if_pos rfl]
    change (u.mm i).map _ = _
    rw [live]
    rfl
  refine ⟨?_, _, now, covered, by simp⟩
  rw [entry_of_mm now]
  exact if_pos rfl

theorem track_moves (named : (s.entry i vpn).page = some p) :
    Moves A s ((s.mapSwappable i vpn p).setVaddr p vpn) := by
  have queued : Moves A s (s.mapSwappable i vpn p) := by
    rw [mapSwappable]
    split_ifs with absent
    · exact .refl
    apply moves
    refine .links (p :: s.fifo) _ ?_ (fun nodup => nodup_cons.mpr ⟨absent, nodup⟩) ?_
    · intro q
      by_cases here : q = p <;> simp [setFrame, here]
    · intro q mem
      by_cases here : q = p
      · subst here
        exact .inr ⟨i, vpn, by simp [setFrame], named⟩
      · exact .inl ⟨mem_of_ne_of_mem here mem, by simp [setFrame, here]⟩
  refine queued.trans (moves (.links _ _ ?_ (fun nodup => nodup) ?_))
  · intro q
    by_cases here : q = p <;> simp [here]
  · intro q mem
    refine .inl ⟨mem, ?_⟩
    by_cases here : q = p <;> simp [here]

/-- A page comes in and enters the replacement list. -/
theorem Ready.fill_moves {rest : List Nat} (ready : s.Ready i vpn) (write : Bool)
    (valid : ∀ k, s.entry i vpn = .swap k → s.SlotValid k) (free : s.free = p :: rest) :
    Moves A s (((s.fillEntry i vpn p write).mapSwappable i vpn p).setVaddr p vpn) := by
  obtain ⟨m, alive, covered, there⟩ := ready
  apply (fill i vpn p write m rest alive there covered valid free).moves.trans
  apply track_moves
  rw [fillEntry, entry_setEntry, if_pos ⟨by simp [alive], rfl, rfl⟩]
  rfl

theorem pageInsert_of_ready {e : Pte} (ready : s.Ready i vpn)
    (there : s.entry i vpn = e) : s.pageInsert i p vpn write =
    some (true, (match e with
      | .present q _ _ => if q = p then (s.addRef p 1).addRef p (-1) else (s.addRef p 1).putPage q
      | _ => s.addRef p 1).setEntry i vpn (.present p write false)) := by
  rw [pageInsert, getPte, if_pos ready.hasTable]
  have here : (s.addRef p 1).entry i vpn = e := there
  cases e <;> simp [here]

theorem mapSwappable_setData {bytes : Nat → UInt8} {q : Nat} :
    (s.mapSwappable i vpn p).setData q bytes = (s.setData q bytes).mapSwappable i vpn p := by
  simp only [mapSwappable]
  split
  · rename_i mem
    exact (if_pos mem).symm
  · rename_i absent
    exact (if_neg absent).symm

theorem swapReleaseEntry_setEntry {e : Pte} :
    (s.setEntry i vpn e).swapReleaseEntry slot = (s.swapReleaseEntry slot).setEntry i vpn e := by
  by_cases valid : s.SlotValid slot ∧ s.slotRefs slot ≠ 0
  · rw [swapReleaseEntry, swapReleaseEntry, if_pos valid]
    exact if_pos valid
  · rw [swapReleaseEntry, swapReleaseEntry, if_neg valid]
    exact if_neg valid

theorem pgdirAllocPage_moves {ok : Bool} (may : A.evict) (ready : s.Ready i vpn) (none : s.entry i vpn = .none)
    (done : s.pgdirAllocPage i vpn write = some (ok, t)) : Moves A s t := by
  rw [pgdirAllocPage] at done
  split at done
  · cases done
  · rename_i ran
    cases done
    exact (allocPage_none ran).moves A may
  rename_i p u ran
  obtain ⟨u, rest, reclaimed, free, rfl⟩ := allocPage_some ran
  have empty : u.entry i vpn = .none := by
    rcases reclaimed.entry i vpn with same | ⟨q, w, cow, old, -⟩
    · rw [same, none]
    · simp [none] at old
  have ready := ready.reclaimed reclaimed
  rw [pageInsert_of_ready (s := { u with free := rest }) ready empty] at done
  obtain ⟨-, ⟨⟩⟩ := ite_none_right_eq_some.mp done
  apply (reclaimed.moves A may).trans
  have filled := ready.fill_moves (A := A) write (by simp [empty]) free
  rw [fillEntry, empty, free] at filled
  rw [show ∀ v : Vm, (v.setVaddr p vpn).setData p (fun _ => 0) =
    (v.setData p fun _ => 0).setVaddr p vpn from fun _ => rfl, mapSwappable_setData]
  exact filled

variable {code : Code}

theorem copyOnWrite_moves {cow perm : Bool} {old : Nat} (h : s.Sound frames)
    (may : A.evict) (ready : s.Ready i vpn) (shared : s.entry i vpn = .present old write cow)
    (done : s.copyOnWrite i vpn old perm = some (code, t)) : Moves A s t := by
  rw [copyOnWrite] at done
  split at done
  · rename_i sole
    cases done
    have retyped := retype (A := A) i vpn old (.present old true false) (by rw [shared]; rfl) rfl
      (fun _ => .inr (.inl sole))
    apply retyped.moves.trans
    apply track_moves
    obtain ⟨m, alive, -⟩ := ready
    rw [entry_setEntry, if_pos ⟨by simp [alive], rfl, rfl⟩]
    rfl
  · rename_i several
    split at done
    · cases done
    · rename_i ran
      cases done
      exact (allocPage_none ran).moves A may
    rename_i p u ran
    obtain ⟨u, rest, reclaimed, free, rfl⟩ := allocPage_some ran
    have kept : u.entry i vpn = .present old write cow := by
      rcases reclaimed.entry i vpn with same | ⟨q, w, c, there, sole⟩
      · rw [same, shared]
      · rw [shared] at there
        cases there
        exact absurd sole several
    have apart : old ≠ p := by
      rintro rfl
      obtain ⟨o, books, -⟩ := ((reclaimed.moves A may).sound h).books
      have user := books.named (i, vpn) old (by rw [pages, kept]; rfl)
      have isFree := (books.free old).mp (by rw [free]; exact (.head _))
      rw [user] at isFree
      cases isFree
    have ready := ready.reclaimed reclaimed
    have table : Ready ({ u with free := rest }.setData p (u.data old)) i vpn := ready
    rw [pageInsert_of_ready table kept] at done
    dsimp only at done
    rw [if_neg apart] at done
    cases done
    apply (reclaimed.moves A may).trans
    have filled := ready.fill_moves (A := A) perm (by simp [kept]) free
    rw [fillEntry, kept, free] at filled
    exact filled

/-- The bytes of the slot are in a new frame, or the frame is free again. -/
theorem swapIn_spec {result : Except Code Nat} (swapped : s.entry i vpn = .swap slot)
    (done : s.swapIn i vpn = some (result, t)) :
    (∃ p u rest, result = .ok p ∧ Reclaimed s u ∧ u.free = p :: rest ∧ u.SlotValid slot ∧
      u.entry i vpn = .swap slot ∧ t = { u with free := rest }.setData p (u.slotData slot)) ∨
    ∃ code, result = .error code ∧ ∀ A : Allow, A.evict → Moves A s t := by
  rw [swapIn] at done
  split at done
  · cases done
  · rename_i ran
    cases done
    exact .inr ⟨_, rfl, (allocPage_none ran).moves⟩
  rename_i p v ran
  obtain ⟨u, rest, reclaimed, free, rfl⟩ := allocPage_some ran
  have kept : u.entry i vpn = .swap slot := by
    rcases reclaimed.entry i vpn with same | ⟨q, w, c, there, -⟩
    · rw [same, swapped]
    · simp [swapped] at there
  split at done
  · rename_i k there
    have same : k = slot := by simpa [show entry { u with free := rest } i vpn = _ from kept] using there.symm
    subst same
    split at done
    · rename_i valid
      by_cases answer : u.disk.headD true = true
      · simp only [askDisk, answer] at done
        cases done
        have asked : Reclaimed u { u with disk := u.disk.tail } :=
          .quiet (fun _ => (env u.disk.tail u.mem).moves) rfl rfl (fun _ => rfl)
        exact .inl ⟨p, { u with disk := u.disk.tail }, rest, rfl, reclaimed.trans asked, free, valid,
          kept, rfl⟩
      · simp only [askDisk, answer] at done
        cases done
        refine .inr ⟨_, rfl, fun A may => (reclaimed.moves A may).trans ?_⟩
        apply (env u.disk.tail u.mem).moves.trans
        exact (recycle (s := { u with disk := u.disk.tail }) p rest free).moves
    · cases done
      refine .inr ⟨_, rfl, fun A may => (reclaimed.moves A may).trans (recycle p rest free).moves⟩
  · rename_i other
    exact absurd kept (other slot)

theorem swapFault_moves (may : A.evict) (ready : s.Ready i vpn)
    (swapped : s.entry i vpn = .swap slot) (done : s.swapFault i vpn slot write = some (code, t)) :
    Moves A s t := by
  rw [swapFault] at done
  split at done
  · cases done
  · rename_i failed
    cases done
    rcases swapIn_spec swapped failed with ⟨p, u, rest, ⟨⟩, -⟩ | ⟨code, -, moves⟩
    exact moves A may
  rename_i p v read
  rcases swapIn_spec swapped read with
    ⟨q, u, rest, ⟨⟩, reclaimed, free, valid, kept, rfl⟩ | ⟨code, ⟨⟩, -⟩
  have ready := ready.reclaimed reclaimed
  have table : Ready ({ u with free := rest }.setData p (u.slotData slot)) i vpn := ready
  rw [pageInsert_of_ready table kept] at done
  dsimp only at done
  rw [swapReleaseEntry_setEntry] at done
  cases done
  apply (reclaimed.moves A may).trans
  have filled := ready.fill_moves (A := A) write (by rw [kept]; rintro k ⟨⟩; exact valid) free
  rw [fillEntry, kept, free] at filled
  exact filled

/-- A fault on a page of an area. A hidden page becomes writable only if no other entry names it. -/
theorem handleFault_moves (h : s.Sound frames) (may : A.evict)
    (alive : s.mm i = some m) (covered : m.vmas.Covers (vpn * pgsize))
    (granted : ∀ p w, s.entry i vpn = .hidden p w false → write = true → s.ref p = 1 ∨ A.loose)
    (done : s.handleFault i vpn write = some (code, t)) : Moves A s t := by
  rw [handleFault] at done
  split at done
  · cases done
  · rename_i ran
    cases done
    rcases getPte_spec alive covered ran with ⟨rfl, -⟩ | ⟨moves, -⟩
    · exact .refl
    · exact moves A may
  · rename_i u ran
    have spec := getPte_spec alive covered ran
    have moves : Moves A s u := by
      rcases spec with ⟨rfl, -⟩ | ⟨moves, -⟩
      · exact .refl
      · exact moves A may
    have ready : u.Ready i vpn := by
      rcases spec with ⟨rfl, ready⟩ | ⟨-, later⟩
      · exact ready
      · exact (later rfl).2
    apply moves.trans
    split at done
    · rename_i none
      obtain ⟨⟨ok, v⟩, placed, same⟩ := map_eq_some_iff.mp done
      cases same
      exact pgdirAllocPage_moves may ready none placed
    · rename_i p w cow hidden
      cases done
      apply Move.moves
      refine .retype i vpn p _ (by rw [hidden]; rfl) rfl ?_
      intro writable
      right
      simp only [Pte.writable, Bool.and_eq_true, Bool.not_eq_true'] at writable
      rw [writable.2] at hidden
      rcases spec with ⟨rfl, -⟩ | ⟨-, later⟩
      · exact granted p w hidden writable.1
      · simp [(later rfl).1] at hidden
    · rename_i p w cow shared
      split at done
      · exact copyOnWrite_moves (moves.sound h) may ready shared done
      · cases done
        exact .refl
    · rename_i slot swapped
      exact swapFault_moves may ready swapped done

end Vm

variable {vmas : Vmas} {addr : Nat}

theorem Vmas.Linked.covers_page {v : Vma} (h : vmas.Linked)
    (mem : v ∈ vmas.mmapList) (holds : v.Holds addr) : vmas.Covers (addr / pgsize * pgsize) := by
  obtain ⟨-, low, -⟩ := h.fits v mem
  refine ⟨v, mem, ?_, Nat.lt_of_le_of_lt (Nat.div_mul_le_self addr pgsize) holds.2⟩
  obtain ⟨n, start⟩ := low
  rw [start, Nat.mul_comm]
  apply Nat.mul_le_mul_right
  rw [Nat.le_div_iff_mul_le (by decide), Nat.mul_comm, ← start]
  exact holds.1

namespace Vm

theorem Shape.vmas_move {C : Prop} (h : s.Shape) (alive : s.mm i = some m)
    (kept : Vmas.Kept C m.vmas vmas []) : Move A s (s.setVmas i vmas) := by
  have old := h.mm i m alive
  have covers {a : Nat} (covered : m.vmas.Covers a) : vmas.Covers a := by
    simpa using kept.covers a covered
  refine .vmas i m vmas alive ⟨kept.linked, ?_, old.tabled, ?_⟩
  · intro vpn named
    exact covers (old.covered vpn named)
  · intro k there
    obtain ⟨a, covered, within⟩ := old.used k there
    exact ⟨a, covers covered, within⟩

theorem mm_setVmas (alive : s.mm i = some m) :
    (s.setVmas i vmas).mm i = some { m with vmas := vmas } := by
  rw [setVmas, mm_setMm, if_pos rfl, alive]
  rfl

theorem doPgfault_moves {present write : Bool} {code : Code} (h : s.Sound frames) (may : A.evict)
    (granted : ∀ m v p w, s.mm i = some m → (m.vmas.findVma addr).1 = some v → v.flags &&& vmWrite ≠ 0 →
      s.entry i (addr / pgsize) = .hidden p w false → s.ref p = 1 ∨ A.loose)
    (done : s.doPgfault i addr present write = some (code, t)) : Moves A s t := by
  rw [doPgfault] at done
  split at done
  · cases done
  rename_i m alive
  have linked := (h.shape.mm i m alive).linked
  have kept : Vmas.Kept True m.vmas (m.vmas.findVma addr).2 [] := Vmas.findVma_kept linked
  have move : Move A s (s.setVmas i (m.vmas.findVma addr).2) := h.shape.vmas_move alive kept
  apply move.moves.trans
  dsimp only at done
  split at done
  · cases done
    exact .refl
  rename_i v found
  generalize (if write = true then decide (v.flags &&& vmWrite ≠ 0)
    else !present && decide (v.flags &&& (vmRead ||| vmExec) ≠ 0)) = allowed at done
  split at done
  · obtain ⟨mem, holds⟩ := Vmas.findVma_holds found
    refine handleFault_moves (move.sound h) may (mm_setVmas alive) ?_ ?_ done
    · simpa using kept.covers _ (linked.covers_page mem holds)
    · intro p w hidden writable
      rw [entry_setVmas] at hidden
      exact granted m v p w alive found (by simpa using writable) hidden
  · cases done
    exact .refl

end Vm

end Procore.Mm
