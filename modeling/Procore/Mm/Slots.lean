import Procore.Mm.Owners

/-! # The books of the swap slots

The references of a slot are the entries that name it. A slot without references
is the only one that `swap_out` writes, so the bytes behind an entry stay the
same while the page goes out, waits and comes back.
-/

namespace Procore.Mm

open Procore.Lib Vm Function

namespace Vm

variable {A : Allow} {s t : Vm} {i j vpn v p q k slot : Nat} {e : Pte} {x : Nat × Nat}

def slots (s : Vm) (x : Nat × Nat) : Option Nat := (s.entry x.1 x.2).slot

theorem slots_of_entry (same : ∀ j v, t.entry j v = s.entry j v) : t.slots = s.slots := by
  funext x
  rw [slots, slots, same]

theorem slots_setEntry (alive : (s.mm i).isSome) :
    (s.setEntry i vpn e).slots = update s.slots (i, vpn) e.slot := by
  funext x
  rw [slots, entry_setEntry, update_apply]
  by_cases here : x = (i, vpn)
  · rw [if_pos here, if_pos ⟨alive, by simp [here], by simp [here]⟩]
  · rw [if_neg here, if_neg (fun same => here (Prod.ext same.2.1 same.2.2)), slots]

theorem Shape.sparse_slots (h : s.Shape) : Sparse s.slots := by
  apply h.places.subset
  intro x named none
  exact named (by rw [slots, none]; rfl)

end Vm

structure SlotBooks (s : Vm) : Prop where
  valid : ∀ x k, s.slots x = some k → s.SlotValid k
  refs : ∀ k, s.slotRefs k = tally s.slots k

variable {A : Allow} {s t : Vm} {i j vpn v p q k slot : Nat} {e : Pte} {x : Nat × Nat}

theorem SlotBooks.same (b : SlotBooks s) (count : t.slotCount = s.slotCount)
    (refs : t.slotRefs = s.slotRefs) (slots : t.slots = s.slots) : SlotBooks t where
  valid x k named := by
    rw [SlotValid, count]
    exact b.valid x k (slots ▸ named)
  refs k := by rw [refs, slots, b.refs]

/-- The references follow the entry at one place. -/
theorem SlotBooks.update {new : Option Nat} (b : SlotBooks s) (sparse : Sparse s.slots)
    (count : t.slotCount = s.slotCount) (slots : t.slots = update s.slots x new)
    (valid : ∀ k, new = some k → s.SlotValid k)
    (refs : ∀ k, t.slotRefs k + (if s.slots x = some k then 1 else 0) =
      s.slotRefs k + if new = some k then 1 else 0) : SlotBooks t where
  valid y k named := by
    rw [SlotValid, count]
    rw [slots, update_apply] at named
    split at named
    · exact valid k named
    · exact b.valid y k named
  refs k := by
    have counted := tally_update sparse x new k
    have step := refs k
    rw [slots]
    rw [b.refs] at step
    omega

namespace Vm

@[simp] theorem slotRefs_putPage : (s.putPage p).slotRefs = s.slotRefs := by
  rw [putPage_eq]
  split <;> rfl

@[simp] theorem slotCount_putPage : (s.putPage p).slotCount = s.slotCount := by
  rw [putPage_eq]
  split <;> rfl

@[simp] theorem slotData_putPage : (s.putPage p).slotData = s.slotData := by
  rw [putPage_eq]
  split <;> rfl

@[simp] theorem data_putPage : (s.putPage p).data = s.data := by
  rw [putPage_eq]
  split <;> rfl

@[simp] theorem slotCount_swapReleaseEntry : (s.swapReleaseEntry k).slotCount = s.slotCount := by
  rw [swapReleaseEntry]
  split <;> rfl

@[simp] theorem slotData_swapReleaseEntry : (s.swapReleaseEntry k).slotData = s.slotData := by
  rw [swapReleaseEntry]
  split <;> rfl

@[simp] theorem data_swapReleaseEntry : (s.swapReleaseEntry k).data = s.data := by
  rw [swapReleaseEntry]
  split <;> rfl

@[simp] theorem slotCount_dropEntry : (s.dropEntry e).slotCount = s.slotCount := by
  cases e <;> simp [dropEntry]

@[simp] theorem slotData_dropEntry : (s.dropEntry e).slotData = s.slotData := by
  cases e <;> simp [dropEntry]

@[simp] theorem data_dropEntry : (s.dropEntry e).data = s.data := by
  cases e <;> simp [dropEntry]

theorem slotRefs_dropEntry (named : ∀ k, e.slot = some k → s.SlotValid k ∧ 0 < s.slotRefs k) (k : Nat) :
    (s.dropEntry e).slotRefs k + (if e.slot = some k then 1 else 0) = s.slotRefs k := by
  cases e with
  | none => rfl
  | present p write cow | hidden p write cow => simp [dropEntry, Pte.slot]
  | swap slot =>
    obtain ⟨valid, positive⟩ := named slot rfl
    rw [dropEntry, swapReleaseEntry, if_pos ⟨valid, Nat.ne_of_gt positive⟩]
    by_cases same : k = slot
    · subst same
      simp [setSlotRefs, Pte.slot]
      omega
    · simp [setSlotRefs, Pte.slot, same, Ne.symm same]

theorem slotRefs_dropEntry_congr (count : t.slotCount = s.slotCount) (refs : t.slotRefs = s.slotRefs) :
    (t.dropEntry e).slotRefs = (s.dropEntry e).slotRefs := by
  cases e with
  | none => exact refs
  | present p write cow | hidden p write cow => simpa [dropEntry] using refs
  | swap slot =>
    have valid : t.SlotValid slot = s.SlotValid slot := by rw [SlotValid, SlotValid, count]
    simp only [dropEntry, swapReleaseEntry, valid, refs]
    split
    · simp [setSlotRefs, refs]
    · exact refs

variable {write : Bool}

theorem entry_fillEntry (alive : (s.mm i).isSome) :
    (s.fillEntry i vpn p write).entry j v =
      if j = i ∧ v = vpn then .present p write false else s.entry j v := by
  rw [fillEntry, entry_setEntry]
  by_cases here : j = i ∧ v = vpn
  · rw [if_pos here, if_pos ⟨by simpa using alive, here⟩]
  · rw [if_neg here, if_neg (fun there => here there.2)]
    exact entry_congr (by simp)

theorem slots_fillEntry (alive : (s.mm i).isSome) :
    (s.fillEntry i vpn p write).slots = update s.slots (i, vpn) none := by
  funext x
  rw [slots, entry_fillEntry alive, update_apply]
  by_cases here : x = (i, vpn)
  · simp [here, Pte.slot]
  · rw [if_neg here, if_neg (fun same => here (Prod.ext same.1 same.2)), slots]

theorem slotRefs_fillEntry :
    (s.fillEntry i vpn p write).slotRefs = (s.dropEntry (s.entry i vpn)).slotRefs :=
  slotRefs_dropEntry_congr rfl rfl

theorem slotCount_fillEntry : (s.fillEntry i vpn p write).slotCount = s.slotCount :=
  slotCount_dropEntry

theorem slotData_fillEntry : (s.fillEntry i vpn p write).slotData = s.slotData :=
  slotData_dropEntry

theorem data_fillEntry : (s.fillEntry i vpn p write).data =
    update s.data p (s.view (s.entry i vpn)) :=
  data_dropEntry

theorem entry_evictEntry (alive : (s.mm i).isSome) : (s.evictEntry i vpn p slot).entry j v =
    if j = i ∧ v = vpn then .swap slot else s.entry j v := by
  rw [entry_congr (congrFun mm_evictEntry j), entry_setEntry]
  by_cases here : j = i ∧ v = vpn
  · rw [if_pos here, if_pos ⟨alive, here⟩]
  · rw [if_neg here, if_neg (fun there => here there.2)]

theorem slotRefs_evictEntry :
    (s.evictEntry i vpn p slot).slotRefs = update s.slotRefs slot 1 :=
  slotRefs_putPage

theorem slotCount_evictEntry : (s.evictEntry i vpn p slot).slotCount = s.slotCount :=
  slotCount_putPage

theorem slotData_evictEntry :
    (s.evictEntry i vpn p slot).slotData = update s.slotData slot (s.data p) :=
  slotData_putPage

theorem data_evictEntry : (s.evictEntry i vpn p slot).data = s.data :=
  data_putPage

end Vm

theorem SlotBooks.named (b : SlotBooks s) (sparse : Sparse s.slots) (i vpn k : Nat)
    (named : (s.entry i vpn).slot = some k) : s.SlotValid k ∧ 0 < s.slotRefs k := by
  refine ⟨b.valid (i, vpn) k named, ?_⟩
  rw [b.refs, tally_pos sparse]
  exact ⟨(i, vpn), named⟩

/-- Nothing that a process can see changes. -/
structure Steady (s t : Vm) : Prop where
  entry : ∀ j v, t.entry j v = s.entry j v
  data : t.data = s.data
  slotCount : t.slotCount = s.slotCount
  slotRefs : t.slotRefs = s.slotRefs
  slotData : t.slotData = s.slotData
  refs : ∀ x p, s.pages x = some p → t.ref p = s.ref p

/-- A move of an entry or of a byte, or one that no process can see. -/
inductive Change (A : Allow) (s : Vm) : Vm → Prop
  | steady (t : Vm) (same : Steady s t) : Change A s t
  | retype (i vpn p : Nat) (e : Pte) (alive : (s.mm i).isSome) (old : (s.entry i vpn).page = some p)
      (new : e.page = some p)
      (grant : e.writable = true → (s.entry i vpn).writable = true ∨ s.ref p = 1 ∨ A.loose) :
      Change A s (s.setEntry i vpn e)
  | fill (i vpn p : Nat) (write : Bool) (rest : List Nat) (alive : (s.mm i).isSome)
      (free : s.free = p :: rest) : Change A s (s.fillEntry i vpn p write)
  | evict (may : A.evict) (i vpn p slot : Nat) (write cow : Bool) (alive : (s.mm i).isSome)
      (old : s.entry i vpn = .present p write cow) (sole : s.ref p = 1)
      (found : s.swapAllocEntry = some slot) : Change A s (s.evictEntry i vpn p slot)
  | clear (loud : A.loud) (i vpn : Nat) (alive : (s.mm i).isSome) :
      Change A s ((s.dropEntry (s.entry i vpn)).setEntry i vpn .none)
  | share (loud : A.loud) (dst src vpn : Nat) (apart : dst ≠ src) (alive : (s.mm dst).isSome)
      (empty : s.entry dst vpn = .none) : Change A s (s.shareEntry dst src vpn (s.entry src vpn)).2
  | store (loud : A.loud) (i vpn p off : Nat) (cow : Bool) (byte : UInt8)
      (mapped : s.entry i vpn = .present p true cow) :
      Change A s (s.setData p (update (s.data p) off byte))

variable {frames : List Nat}

theorem Move.change (h : s.Sound frames) (move : Move A s t) : Change A s t := by
  obtain ⟨o, books, -⟩ := h.books
  have user {x : Nat × Nat} {p : Nat} {w : Owner} (named : s.pages x = some p) (held : o p = w) :
      w = .user := held.symm.trans (books.named x p named)
  cases move with
  | env disk mem => exact .steady _ ⟨fun _ _ => rfl, rfl, rfl, rfl, rfl, fun _ _ _ => rfl⟩
  | links fifo frame refs nodup owners =>
    exact .steady _ ⟨fun _ _ => rfl, rfl, rfl, rfl, rfl, fun _ p _ => refs p⟩
  | vmas i m vmas alive shape =>
    exact .steady _ ⟨entry_setVmas vmas, rfl, rfl, rfl, rfl, fun _ _ _ => rfl⟩
  | recycle p rest free =>
    refine .steady _ ⟨fun _ _ => rfl, rfl, rfl, rfl, rfl, fun x q named => ?_⟩
    rw [ref_freePage, if_neg]
    · rfl
    · rintro rfl
      have isFree := (books.free q).mp (by rw [free]; exact (.head _))
      cases user named isFree
  | table i vpn p m rest alive absent covered free =>
    have empty (v : Nat) (within : v / tableSize = vpn / tableSize) : m.pte v = .none := by
      by_contra named
      exact (h.shape.mm i m alive).tabled v named (by rw [within, absent])
    refine .steady _ ⟨entry_setTable alive empty,
      rfl, rfl, rfl, rfl, fun x q named => ?_⟩
    have other : q ≠ p := by
      rintro rfl
      have isFree := (books.free q).mp (by rw [free]; exact (.head _))
      cases user named isFree
    exact (ref_setFrame (fun f => { f with ref := 1 })).trans (if_neg other)
  | untable loud i k p m alive there empty =>
    refine .steady _ ⟨entry_setTable alive empty, rfl, rfl, rfl, rfl,
      fun x q named => ?_⟩
    have other : q ≠ p := by
      rintro rfl
      have held := (books.tables i (some k) q).mpr (by rw [tableAt, alive]; exact there)
      cases user named held
    exact ref_freePage.trans (if_neg other)
  | create loud p startBrk rest free =>
    have dead (v : Nat) : s.entry s.next v = .none := by
      by_contra named
      obtain ⟨m, alive⟩ := alive_of_entry named
      exact Nat.lt_irrefl _ (h.shape.ids _ m alive)
    refine .steady _ ⟨entry_of_update rfl dead ?_, rfl, rfl, rfl, rfl, fun _ _ _ => rfl⟩
    rintro m new v
    cases new
    rfl
  | destroy loud i m alive empty bare unowned =>
    have entry := entry_of_update
      (t := { s.freePage m.pgdir with mm := update s.mm i none }) rfl
      (fun v => by rw [entry_of_mm alive, empty]) (by simp)
    refine .steady _ ⟨entry, rfl, rfl, rfl, rfl, fun x q named => ?_⟩
    have other : q ≠ m.pgdir := by
      rintro rfl
      have held := (books.tables i none m.pgdir).mpr (by rw [tableAt, alive]; rfl)
      cases user named held
    exact ref_freePage.trans (if_neg other)
  | retype i vpn p e old new grant =>
    obtain ⟨m, alive⟩ := alive_of_page old
    exact .retype i vpn p e (by simp [alive]) old new grant
  | fill i vpn p write m rest alive there covered valid free =>
    exact .fill i vpn p write rest (by simp [alive]) free
  | evict may i vpn p slot write cow old sole found =>
    have there : s.entry i vpn ≠ .none := by simp [old]
    obtain ⟨m, alive⟩ := alive_of_entry there
    exact .evict may i vpn p slot write cow (by simp [alive]) old sole found
  | clear loud i vpn =>
    by_cases there : s.entry i vpn = .none
    · rw [unmapPte, there]
      exact .steady _ ⟨fun _ _ => rfl, rfl, rfl, rfl, rfl, fun _ _ _ => rfl⟩
    · obtain ⟨m, alive⟩ := alive_of_entry there
      rw [unmapPte_eq]
      exact .clear loud i vpn (by simp [alive])
  | share loud dst src vpn m apart alive there covered empty =>
    exact .share loud dst src vpn apart (by simp [alive]) (by rw [entry_of_mm alive, empty])
  | store loud i vpn p off cow byte mapped => exact .store loud i vpn p off cow byte mapped

/-- An entry gives up its slot, if it names one. -/
theorem SlotBooks.dropped (b : SlotBooks s) (sparse : Sparse s.slots)
    (count : t.slotCount = s.slotCount) (refs : t.slotRefs = (s.dropEntry (s.entry i vpn)).slotRefs)
    (slots : t.slots = Function.update s.slots (i, vpn) none) : SlotBooks t := by
  refine b.update sparse count slots (by simp) fun k => ?_
  rw [refs]
  exact Vm.slotRefs_dropEntry (b.named sparse i vpn) k

/-- A second entry for a page names no slot. -/
theorem SlotBooks.shared {dst src : Nat} {mark : Bool} {kept copy : Pte} {p : Nat} (b : SlotBooks s)
    (alive : (s.mm dst).isSome) (empty : s.entry dst vpn = .none) (unnamed : s.slots (src, vpn) = none)
    (same : kept.slot = none) (new : copy.slot = none) :
    SlotBooks (((if mark then s.setEntry src vpn kept else s).addRef p 1).setEntry dst vpn copy) := by
  have free : s.slots (dst, vpn) = none := by
    rw [Vm.slots, empty]
    rfl
  have first : SlotBooks (if mark then s.setEntry src vpn kept else s) ∧
      (if mark then s.setEntry src vpn kept else s).slots = s.slots ∧
      ((if mark then s.setEntry src vpn kept else s).mm dst).isSome := by
    split
    · by_cases there : (s.mm src).isSome
      · have slots : (s.setEntry src vpn kept).slots = s.slots := by
          rw [Vm.slots_setEntry there, Function.update_eq_self_iff, same, unnamed]
        exact ⟨b.same rfl rfl slots, slots, (Vm.isSome_setEntry src vpn dst kept).trans alive⟩
      · have slots : (s.setEntry src vpn kept).slots = s.slots := by
          refine Vm.slots_of_entry fun j v => ?_
          rw [Vm.entry_setEntry, if_neg (fun here => there here.1)]
        exact ⟨b.same rfl rfl slots, slots, (Vm.isSome_setEntry src vpn dst kept).trans alive⟩
    · exact ⟨b, rfl, alive⟩
  obtain ⟨books, slots, alive⟩ := first
  refine books.same rfl rfl ?_
  refine (Vm.slots_setEntry alive).trans ?_
  rw [new, Function.update_eq_self_iff]
  exact ((congrFun slots (dst, vpn)).trans free).symm

theorem Change.slots (h : s.Sound frames) (b : SlotBooks s) (change : Change A s t) :
    SlotBooks t := by
  have sparse := h.shape.sparse_slots
  cases change with
  | steady _ same => exact b.same same.slotCount same.slotRefs (Vm.slots_of_entry same.entry)
  | store loud i vpn p off cow byte mapped => exact b.same rfl rfl rfl
  | retype i vpn p e alive old new grant =>
    have noSlot {e : Pte} (page : e.page = some p) : e.slot = none := by
      cases e <;> simp_all [Pte.page, Pte.slot]
    refine b.same rfl rfl ?_
    rw [Vm.slots_setEntry alive, Function.update_eq_self_iff, noSlot new]
    exact (noSlot old).symm
  | fill i vpn p write rest alive free =>
    exact b.dropped sparse Vm.slotCount_fillEntry Vm.slotRefs_fillEntry (Vm.slots_fillEntry alive)
  | evict may i vpn p slot write cow alive old sole found =>
    obtain ⟨valid, unused⟩ := Vm.slot_of_alloc found
    have slots : (s.evictEntry i vpn p slot).slots = Function.update s.slots (i, vpn) (some slot) := by
      funext x
      rw [Vm.slots, Vm.entry_evictEntry alive, Function.update_apply]
      by_cases here : x = (i, vpn)
      · simp [here, Pte.slot]
      · rw [if_neg here, if_neg (fun same => here (Prod.ext same.1 same.2)), Vm.slots]
    refine b.update sparse Vm.slotCount_evictEntry slots (by rintro k ⟨⟩; exact valid) fun k => ?_
    have before : s.slots (i, vpn) = none := by
      rw [Vm.slots, old]
      rfl
    rw [Vm.slotRefs_evictEntry, before]
    by_cases here : k = slot
    · simp [here, unused]
    · simp [here, Ne.symm here]
  | clear loud i vpn alive =>
    refine b.dropped sparse Vm.slotCount_dropEntry rfl ?_
    rw [Vm.slots_setEntry (by simpa using alive), Vm.slots_of_entry (s := s) fun j v =>
      Vm.entry_congr (by simp)]
    rfl
  | share loud dst src vpn apart alive empty =>
    have free : s.slots (dst, vpn) = none := by
      rw [Vm.slots, empty]
      rfl
    cases source : s.entry src vpn with
    | none => exact b
    | present p write cow | hidden p write cow =>
      exact b.shared alive empty (by rw [Vm.slots, source]; rfl) rfl rfl
    | swap slot =>
      simp only [Vm.shareEntry, Vm.swapDuplicateEntry]
      split
      · exact b
      rename_i duplicated
      obtain ⟨valid, ⟨⟩⟩ := Option.ite_none_right_eq_some.mp duplicated
      refine b.update sparse rfl (Vm.slots_setEntry alive) ?_ fun k => ?_
      · rintro k ⟨⟩
        exact valid.1
      · rw [free]
        change Function.update s.slotRefs slot _ k + _ = _
        by_cases here : k = slot
        · simp [here, Pte.slot]
        · simp [here, Pte.slot, Ne.symm here]

theorem Vm.view_congr (e : Pte) (data : ∀ p, e.page = some p → t.data p = s.data p)
    (slots : ∀ k, e.slot = some k → t.slotData k = s.slotData k) : t.view e = s.view e := by
  cases e with
  | none => rfl
  | present p write cow => exact data p rfl
  | hidden p write cow => exact data p rfl
  | swap k => exact slots k rfl

theorem Change.view (h : s.Sound frames) (b : SlotBooks s) (quiet : ¬ A.loud)
    (change : Change A s t) (j v : Nat) : t.view (t.entry j v) = s.view (s.entry j v) := by
  obtain ⟨o, books, -⟩ := h.books
  cases change with
  | steady _ same =>
    rw [same.entry]
    exact view_congr _ (fun p _ => by rw [same.data]) fun k _ => by rw [same.slotData]
  | retype i vpn p e alive old new grant =>
    rw [entry_setEntry]
    split_ifs with here
    · rw [here.2.1, here.2.2]
      have page {u : Vm} {e : Pte} (named : e.page = some p) : u.view e = u.data p := by
        cases e <;> simp_all [Pte.page, view]
      rw [page new, page old]
      rfl
    · exact view_congr _ (fun _ _ => rfl) fun _ _ => rfl
  | fill i vpn p write rest alive free =>
    have isFree : o p = .free := (books.free p).mp (by rw [free]; exact (.head _))
    rw [entry_fillEntry alive]
    split
    · rename_i here
      rw [here.1, here.2, view, data_fillEntry, update_self]
    apply view_congr
    · intro q named
      have other : q ≠ p := by
        rintro rfl
        rw [books.named (j, v) q named] at isFree
        cases isFree
      rw [data_fillEntry, update_of_ne other]
    · intro k named
      rw [slotData_fillEntry]
  | evict may i vpn p slot write cow alive old sole found =>
    rw [entry_evictEntry alive]
    split
    · rename_i here
      rw [here.1, here.2, old, view, view, slotData_evictEntry, update_self]
    apply view_congr
    · intro q named
      rw [data_evictEntry]
    · intro k named
      have positive := (b.named h.shape.sparse_slots j v k named).2
      have unused := (slot_of_alloc found).2
      rw [slotData_evictEntry, update_of_ne (by rintro rfl; omega)]
  | clear loud i vpn alive | share loud dst src vpn apart alive empty
  | store loud i vpn p off cow byte mapped =>
    exact absurd loud quiet

theorem Change.slotData (keeps : ¬ A.evict) (change : Change A s t) : t.slotData = s.slotData := by
  cases change with
  | steady _ same => exact same.slotData
  | retype i vpn p e alive old new grant => rfl
  | fill i vpn p write rest alive free => exact slotData_fillEntry
  | evict may i vpn p slot write cow alive old sole found => exact absurd may keeps
  | clear loud i vpn alive => exact slotData_dropEntry
  | store loud i vpn p off cow byte mapped => rfl
  | share loud dst src vpn apart alive empty =>
    cases s.entry src vpn with
    | none => rfl
    | present p write cow | hidden p write cow => cases write <;> rfl
    | swap slot =>
      simp only [shareEntry, swapDuplicateEntry]
      split
      · rfl
      rename_i duplicated
      obtain ⟨-, ⟨⟩⟩ := Option.ite_none_right_eq_some.mp duplicated
      rfl

variable {frames : List Nat} {slotCount : Nat} {ops : List VmOp}

theorem Moves.slots (h : s.Sound frames) (b : SlotBooks s) (moves : Moves A s t) : SlotBooks t := by
  induction moves with
  | refl => exact b
  | tail before move ih => exact (move.change (Moves.sound h before)).slots (Moves.sound h before) ih

theorem Moves.view (h : s.Sound frames) (b : SlotBooks s) (quiet : ¬ A.loud) (moves : Moves A s t)
    (j v : Nat) : t.view (t.entry j v) = s.view (s.entry j v) := by
  induction moves with
  | refl => rfl
  | tail before move ih =>
    have sound := Moves.sound h before
    exact ((move.change sound).view sound (Moves.slots h b before) quiet j v).trans ih

theorem Moves.slotData (h : s.Sound frames) (keeps : ¬ A.evict) (moves : Moves A s t) :
    t.slotData = s.slotData := by
  induction moves with
  | refl => rfl
  | tail before move ih => exact ((move.change (Moves.sound h before)).slotData keeps).trans ih

namespace Vm

/-- The number of the page-table entries that name the slot. -/
def slotNameCount (s : Vm) (k : Nat) : Nat := s.places.countP fun x => s.slots x = some k

theorem Shape.slotNameCount (h : s.Shape) (k : Nat) : tally s.slots k = s.slotNameCount k := by
  refine tally_eq_countP places_nodup (fun x named => h.mem_places ?_) k
  intro none
  exact named (by rw [slots, none]; rfl)

/-- What holds of the frames and of the slots in every reached state. -/
structure Kept (s : Vm) (frames : List Nat) : Prop where
  sound : s.Sound frames
  slots : SlotBooks s

variable {op : VmOp}

theorem Kept.step (h : s.Kept frames) (room : s.Room op) (taken : s.step op = some t) :
    t.Kept frames := by
  have moves : Moves ⟨True, True, True, True⟩ s t :=
    step_moves h.sound (.inl trivial) (.inl trivial) (.inl trivial) room (.inl trivial) taken
  exact ⟨moves.sound h.sound, moves.slots h.sound h.slots⟩

theorem boot_kept (nodup : frames.Nodup) : (boot frames slotCount).Kept frames where
  sound := boot_sound nodup slotCount
  slots := by
    have unnamed : (boot frames slotCount).slots = fun _ => none := rfl
    refine ⟨by simp [unnamed], fun k => ?_⟩
    rw [unnamed, (tally_eq_zero (by simp [Sparse])).mpr (by simp)]
    rfl

theorem kept_of_run (nodup : frames.Nodup) (room : Along step Room (boot frames slotCount) ops)
    (run : runFrom step (boot frames slotCount) ops = some t) : t.Kept frames :=
  runFrom_invariant (fun _ _ _ h room taken => Kept.step h room taken) (boot_kept nodup) room run

theorem step_view (h : s.Sound frames) (b : SlotBooks s) (quiet : Quiet op)
    (taken : s.step op = some t) (i vpn : Nat) : t.view (t.entry i vpn) = s.view (s.entry i vpn) := by
  have room : s.Room op := by cases op <;> trivial
  have moves : Moves ⟨True, True, False, True⟩ s t :=
    step_moves h (.inr quiet) (.inl trivial) (.inl trivial) room (.inl trivial) taken
  exact moves.view h b id i vpn

/-- The bytes of a slot stay while an entry names it. -/
theorem Kept.slotData (h : s.Kept frames) (room : s.Room op) (taken : s.step op = some t)
    {i vpn k : Nat} (before : s.entry i vpn = .swap k) (after : t.entry i vpn = .swap k) :
    t.slotData k = s.slotData k := by
  by_cases quiet : Quiet op
  · have same := step_view h.sound h.slots quiet taken i vpn
    rwa [before, after] at same
  · have moves : Moves ⟨True, True, True, False⟩ s t :=
      step_moves h.sound (.inl trivial) (.inr quiet) (.inl trivial) room (.inl trivial) taken
    rw [moves.slotData h.sound id]

/-- A run in which an entry names a slot throughout. -/
theorem Kept.slotData_run (h : s.Kept frames) {i vpn k : Nat}
    (held : Along Vm.step (fun s op => s.Room op ∧ s.entry i vpn = .swap k) s ops)
    (run : runFrom Vm.step s ops = some t) (last : t.entry i vpn = .swap k) :
    t.slotData k = s.slotData k := by
  have keep (u : Vm) (op : VmOp) (v : Vm)
      (before : u.Kept frames ∧ (u.entry i vpn = .swap k → u.slotData k = s.slotData k))
      (both : u.Room op ∧ u.entry i vpn = .swap k) (taken : u.step op = some v) :
      v.Kept frames ∧ (v.entry i vpn = .swap k → v.slotData k = s.slotData k) := by
    refine ⟨before.1.step both.1 taken, fun after => ?_⟩
    exact (before.1.slotData both.1 taken both.2 after).trans (before.2 both.2)
  exact (runFrom_invariant keep ⟨h, fun _ => rfl⟩ held run).2 last

/-- In every reached state the references of a slot are the entries that name it, and a slot that
    is handed out is named by none. What swapping and faults do keeps the bytes behind every
    entry, and between them the bytes of a slot stay as long as an entry names it. -/
theorem slots_hold_their_pages (nodup : frames.Nodup)
    (room : Along Vm.step Vm.Room (boot frames slotCount) ops)
    (run : runFrom Vm.step (boot frames slotCount) ops = some t) :
    (∀ k, t.slotRefs k = t.slotNameCount k) ∧
    (∀ k, t.swapAllocEntry = some k → ∀ i vpn, t.entry i vpn ≠ .swap k) ∧
    (∀ op u, Quiet op → t.step op = some u → ∀ i vpn, u.view (u.entry i vpn) = t.view (t.entry i vpn)) ∧
    ∀ more u i vpn k, Along Vm.step (fun s op => s.Room op ∧ s.entry i vpn = .swap k) t more →
      runFrom Vm.step t more = some u → u.entry i vpn = .swap k → u.slotData k = t.slotData k := by
  have kept := kept_of_run nodup room run
  refine ⟨fun k => ?_, fun k found i vpn named => ?_,
    fun op u quiet taken => step_view kept.sound kept.slots quiet taken,
    fun more u i vpn k held ran last => kept.slotData_run held ran last⟩
  · rw [kept.slots.refs, kept.sound.shape.slotNameCount]
  · have positive := (kept.slots.named kept.sound.shape.sparse_slots i vpn k (by rw [named]; rfl)).2
    have unused := (slot_of_alloc found).2
    omega

/-- A page with a stored byte goes out to the first slot, and the process forks. -/
def swapOutAndFork : List VmOp :=
  [.create userBase [], .mmap 0 userBase 0x1000 3 true, .fault 0 userBase false true [],
    .store 0 userBase 7, .swapOut 1 [], .fork 0 [] []]

theorem slots_hold_their_pages_swapOutAndFork :
    Along step Room (boot [10, 11, 12, 13, 14, 15, 16, 17] 5) swapOutAndFork ∧
    ∃ t, runFrom step (boot [10, 11, 12, 13, 14, 15, 16, 17] 5) swapOutAndFork = some t ∧
      t.entry 0 (userBase / pgsize) = .swap 1 ∧ t.slotNameCount 1 = 2 ∧ t.slotRefs 1 = 2 ∧
      t.swapAllocEntry = some 2 ∧ (∀ i vpn, t.entry i vpn ≠ .swap 2) ∧
      ∃ u, t.step (.fault 0 userBase false false []) = some u ∧
        u.entry 0 (userBase / pgsize) = .present 14 true false ∧ u.data 14 = t.slotData 1 := by
  have room : Along step Room (boot [10, 11, 12, 13, 14, 15, 16, 17] 5) swapOutAndFork := by
    decide +kernel
  have ends : (runFrom step (boot [10, 11, 12, 13, 14, 15, 16, 17] 5) swapOutAndFork).map
      (fun t => (t.entry 0 (userBase / pgsize), t.slotNameCount 1, t.swapAllocEntry,
        (t.step (.fault 0 userBase false false [])).map fun u => u.entry 0 (userBase / pgsize))) =
      some (.swap 1, 2, some 2, some (.present 14 true false)) := by decide +kernel
  obtain ⟨t, run, facts⟩ := Option.map_eq_some_iff.mp ends
  simp only [Prod.mk.injEq, Option.map_eq_some_iff] at facts
  obtain ⟨out, two, next, u, taken, back⟩ := facts
  obtain ⟨refs, fresh, same, -⟩ := slots_hold_their_pages (by decide) room run
  have read := same (.fault 0 userBase false false []) u trivial taken 0 (userBase / pgsize)
  rw [out, back] at read
  exact ⟨room, t, run, out, two, (refs 1).trans two, next, fresh 2 next, u, taken, back, read⟩

/-- The fork that reclaims the page it is copying leaves a slot with a reference that no entry
    holds: the entry that the swap-out wrote is written over. -/
theorem slot_is_lost : ∃ t, runFrom step (boot [10, 11, 12, 13] 5) forkWithoutRoom = some t ∧
    t.slotRefs 1 = 1 ∧ t.slotNameCount 1 = 0 := by
  exact exists_run_test _ (by decide +kernel) fun _ _ facts => facts

/-- When the last address space has ended, the allocator has every frame again, nothing is left to
    swap out and every slot is free. -/
theorem exits_return_all (nodup : frames.Nodup)
    (room : Along step Room (boot frames slotCount) ops)
    (run : runFrom step (boot frames slotCount) ops = some t) (ended : ∀ i < t.next, t.mm i = none) :
    t.free.Perm frames ∧ t.fifo = [] ∧ ∀ k, t.slotRefs k = 0 := by
  have kept := kept_of_run nodup room run
  obtain ⟨o, books, others⟩ := kept.sound.books
  have gone i : t.mm i = none := by
    refine Option.eq_none_iff_forall_ne_some.mpr fun m alive => ?_
    cases (ended i (kept.sound.shape.ids i m alive)).symm.trans alive
  have bare i vpn : t.entry i vpn = .none := by rw [entry, gone]
  have noUser p : o p ≠ .user := fun user => by
    obtain ⟨x, named⟩ := (tally_pos kept.sound.shape.sparse).mp (books.refs p user).2
    cases (congrArg Pte.page (bare _ _)).symm.trans named
  refine ⟨(List.perm_ext_iff_of_nodup books.nodup nodup).mpr fun p => ?_,
    List.eq_nil_iff_forall_not_mem.mpr fun p mem => noUser p (books.queued p mem), fun k => ?_⟩
  · rw [books.free, ← not_iff_not, ← others]
    cases owner : o p with
    | user => exact absurd owner (noUser p)
    | table i k =>
      have table := (books.tables i k p).mp owner
      simp [tableAt, gone] at table
    | _ => simp
  · rw [kept.slots.refs, tally_eq_zero kept.sound.shape.sparse_slots]
    intro x named
    cases (congrArg Pte.slot (bare _ _)).symm.trans named

theorem exits_return_all_swapOutAndFork : ∃ t,
    runFrom step (boot (List.range 8) 5) (swapOutAndFork ++ [.exit 0, .exit 1]) = some t ∧
      t.free.Perm (List.range 8) ∧ t.fifo = [] ∧ ∀ k, t.slotRefs k = 0 :=
  exists_run_test (fun t => ∀ i < t.next, t.mm i = none) (by decide +kernel) fun _ run ended =>
    exits_return_all (by decide) (by decide +kernel) run ended

end Vm

end Procore.Mm
