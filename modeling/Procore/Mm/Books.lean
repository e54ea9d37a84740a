import Procore.Lib.Tally
import Procore.Mm.Moves

/-! # The books of the page frames

Every frame is free, holds a page table or directory, or is named by entries.
The books say which, that the reference count of a named frame is the number of
the entries that name it, and that the replacement list holds named frames only.
Each move keeps them.
-/

namespace Procore.Mm

open Procore.Lib Vm Option List
open Function

/-- The frame of the page directory or of a page table. -/
def MmStruct.table (m : MmStruct) : Option Nat → Option Nat
  | none => some m.pgdir
  | some k => m.pde k

namespace Vm

/-- The frames that the entries name. -/
def pages (s : Vm) (x : Nat × Nat) : Option Nat := (s.entry x.1 x.2).page

def tableAt (s : Vm) (i : Nat) (k : Option Nat) : Option Nat := (s.mm i).bind fun m => m.table k

def ref (s : Vm) (p : Nat) : Int := (s.frame p).ref

end Vm

inductive Owner where
  /-- It is not for the memory manager to give. -/
  | other
  | free
  | user
  | table (mm : Nat) (k : Option Nat)
  deriving DecidableEq

structure Books (s : Vm) (o : Nat → Owner) : Prop where
  free : ∀ p, p ∈ s.free ↔ o p = .free
  nodup : s.free.Nodup
  unused : ∀ p, o p = .free → s.ref p = 0
  tables : ∀ i k p, o p = .table i k ↔ s.tableAt i k = some p
  named : ∀ x p, s.pages x = some p → o p = .user
  refs : ∀ p, o p = .user → s.ref p = tally s.pages p ∧ 0 < tally s.pages p
  order : s.fifo.Nodup
  queued : ∀ p ∈ s.fifo, o p = .user

variable {s t : Vm} {o : Nat → Owner} {p q i k vpn : Nat} {x : Nat × Nat} {e : Pte} {m : MmStruct}

theorem Vm.Shape.places (h : s.Shape) : {x : Nat × Nat | s.entry x.1 x.2 ≠ .none}.Finite := by
  apply ((Set.finite_lt_nat s.next).prod (Set.finite_lt_nat (userTop / pgsize))).subset
  intro x named
  rw [Set.mem_ofPred_eq] at named
  obtain ⟨m, alive⟩ := alive_of_entry named
  refine ⟨h.ids x.1 m alive, ?_⟩
  have shape := h.mm x.1 m alive
  rw [entry_of_mm alive] at named
  obtain ⟨v, mem, holds⟩ := shape.covered x.2 named
  have top := (shape.linked.fits v mem).1.2.2
  have below := holds.2
  have aligned : userTop = userTop / pgsize * pgsize := by decide
  exact Nat.lt_of_mul_lt_mul_right (a := pgsize) (by omega)

theorem Vm.Shape.sparse (h : s.Shape) : Sparse s.pages := by
  apply h.places.subset
  intro x named none
  exact named (by rw [pages, none]; rfl)

theorem giveFrame_perm (p : Nat) (free : List Nat) : (giveFrame p free).Perm (p :: free) := by
  have cut := takeWhile_append_dropWhile (p := (· ≤ p)) (l := free)
  conv => rhs; rw [← cut]
  exact perm_middle

namespace Vm

theorem ref_setFrame (change : Frame → Frame) :
    (s.setFrame p change).ref q = if q = p then (change (s.frame p)).ref else s.ref q := by
  by_cases here : q = p <;> simp [ref, setFrame, here]

theorem ref_addRef (d : Int) : (s.addRef p d).ref q = s.ref q + if q = p then d else 0 := by
  rw [addRef, ref_setFrame]
  by_cases here : q = p
  · simp [ref, here]
  · simp [here]

theorem ref_freePage : (s.freePage p).ref q = if q = p then 0 else s.ref q := by
  by_cases here : q = p
  · simp [ref, freePage, setFrame, here]
  · simp [ref, freePage, untrackPage, setFrame, here]

theorem putPage_eq : s.putPage p =
    if s.ref p = 1 then (s.addRef p (-1)).freePage p else s.addRef p (-1) := by
  have value : ((s.addRef p (-1)).frame p).ref = s.ref p + -1 := by
    rw [← ref, ref_addRef, if_pos rfl]
  rw [putPage, value]
  by_cases last : s.ref p = 1
  · rw [if_pos last, if_pos (by omega)]
  · rw [if_neg last, if_neg (by omega)]

theorem ref_putPage : (s.putPage p).ref q = s.ref q - if q = p then 1 else 0 := by
  rw [putPage_eq]
  split
  · rw [ref_freePage, ref_addRef]
    split <;> simp_all
  · rw [ref_addRef]
    split <;> omega

theorem free_putPage : (s.putPage p).free = if s.ref p = 1 then giveFrame p s.free else s.free := by
  rw [putPage_eq]
  split <;> rfl

theorem ref_swapReleaseEntry : (s.swapReleaseEntry k).ref q = s.ref q := by
  rw [swapReleaseEntry]
  split <;> rfl

theorem fifo_putPage : (s.putPage p).fifo = if s.ref p = 1 then s.fifo.erase p else s.fifo := by
  rw [putPage_eq]
  split <;> rfl

theorem free_swapReleaseEntry : (s.swapReleaseEntry k).free = s.free := by
  rw [swapReleaseEntry]
  split <;> rfl

theorem fifo_swapReleaseEntry : (s.swapReleaseEntry k).fifo = s.fifo := by
  rw [swapReleaseEntry]
  split <;> rfl

theorem ref_dropEntry : (s.dropEntry e).ref q = s.ref q - if e.page = some q then 1 else 0 := by
  cases e <;> simp [dropEntry, Pte.page, ref_putPage, ref_swapReleaseEntry, eq_comm]

theorem free_dropEntry : (s.dropEntry e).free = match e.page with
    | some q => if s.ref q = 1 then giveFrame q s.free else s.free
    | none => s.free := by
  cases e <;> simp [dropEntry, Pte.page, free_putPage, free_swapReleaseEntry]

theorem fifo_dropEntry : (s.dropEntry e).fifo = match e.page with
    | some q => if s.ref q = 1 then s.fifo.erase q else s.fifo
    | none => s.fifo := by
  cases e <;> simp [dropEntry, Pte.page, fifo_putPage, fifo_swapReleaseEntry]

variable {write : Bool}

theorem ref_fillEntry : (s.fillEntry i vpn p write).ref q =
    ((s.dropEntry (s.entry i vpn)).setEntry i vpn .none).ref q + if q = p then 1 else 0 := by
  change (dropEntry _ _).ref q = (dropEntry _ _).ref q + _
  rw [ref_dropEntry, ref_dropEntry, ref_addRef]
  change s.ref q + _ - _ = _
  omega

theorem ref_taken {bytes : Nat → UInt8} {free : List Nat} (other : q ≠ p) :
    (({ s with free := free }.setData p bytes).addRef p 1).ref q = s.ref q := by
  rw [ref_addRef, if_neg other, Int.add_zero]
  rfl

theorem fifo_fillEntry (other : (s.entry i vpn).page ≠ some p) :
    (s.fillEntry i vpn p write).fifo = ((s.dropEntry (s.entry i vpn)).setEntry i vpn .none).fifo := by
  change (dropEntry _ _).fifo = (dropEntry _ _).fifo
  rw [fifo_dropEntry, fifo_dropEntry]
  cases named : (s.entry i vpn).page with
  | none => rfl
  | some q =>
    dsimp only
    rw [ref_taken (by rintro rfl; exact other named)]
    rfl

theorem free_fillEntry {rest : List Nat} (free : s.free = p :: rest) (other : (s.entry i vpn).page ≠ some p) :
    ((s.dropEntry (s.entry i vpn)).setEntry i vpn .none).free.Perm
      (p :: (s.fillEntry i vpn p write).free) := by
  change (dropEntry _ _).free.Perm (p :: (dropEntry _ _).free)
  rw [free_dropEntry, free_dropEntry]
  cases named : (s.entry i vpn).page with
  | none => exact .of_eq (by simp [free, addRef, setFrame, setData])
  | some q =>
    dsimp only
    rw [ref_taken (by rintro rfl; exact other named)]
    rw [free]
    split
    · exact ((giveFrame_perm q _).trans (.swap p q rest)).trans ((giveFrame_perm q rest).symm.cons p)
    · rfl

theorem pages_congr (mm : t.mm = s.mm) : t.pages = s.pages := by
  funext x
  rw [pages, pages, entry_congr (congrFun mm x.1)]

theorem tableAt_congr (mm : t.mm = s.mm) (i : Nat) (k : Option Nat) : t.tableAt i k = s.tableAt i k := by
  rw [tableAt, tableAt, mm]

theorem pages_setEntry (alive : (s.mm i).isSome) :
    (s.setEntry i vpn e).pages = update s.pages (i, vpn) e.page := by
  funext x
  rw [pages, entry_setEntry, update_apply]
  by_cases here : x = (i, vpn)
  · rw [if_pos here, if_pos ⟨alive, by simp [here], by simp [here]⟩]
  · rw [if_neg here, if_neg (fun same => here (Prod.ext same.2.1 same.2.2)), pages]

theorem tableAt_setMm {change : MmStruct → MmStruct} {k : Option Nat}
    (keep : ∀ m, (change m).table k = m.table k) (j : Nat) :
    (s.setMm i change).tableAt j k = s.tableAt j k := by
  rw [tableAt, mm_setMm, tableAt]
  split_ifs with here
  · rw [bind_map, here]
    simp [keep]
  · rfl

theorem tableAt_setEntry (j : Nat) (l : Option Nat) :
    (s.setEntry i vpn e).tableAt j l = s.tableAt j l := by
  apply tableAt_setMm
  intro m
  cases l <;> rfl

variable {n : Option MmStruct}

theorem tableAt_of_mm (mm : t.mm = update s.mm i n) (j : Nat)
    (l : Option Nat) : t.tableAt j l = if j = i then n.bind fun m => m.table l else s.tableAt j l := by
  rw [tableAt, mm, update_apply, tableAt]
  split <;> rfl

theorem pages_of_entry (same : ∀ j v, t.entry j v = s.entry j v) : t.pages = s.pages := by
  funext x
  rw [pages, pages, same]

/-- An address space without entries comes or goes. -/
theorem entry_of_update (mm : t.mm = update s.mm i n)
    (before : ∀ v, s.entry i v = .none) (after : ∀ m ∈ n, ∀ v, m.pte v = .none) (j v : Nat) :
    t.entry j v = s.entry j v := by
  rw [entry, mm, update_apply]
  by_cases here : j = i
  · rw [if_pos here, here, before]
    cases n with
    | none => rfl
    | some m => simp [after m rfl]
  · rw [if_neg here]
    rfl

theorem entry_setVmas (vmas : Vmas) (j v : Nat) : (s.setVmas i vmas).entry j v = s.entry j v := by
  rw [entry, setVmas, mm_setMm, entry]
  split
  · rename_i dead
    split_ifs at dead with here
    · rw [here, map_eq_none_iff.mp dead]
    · rw [dead]
  · rename_i n there
    split_ifs at there with here
    · obtain ⟨m, alive, rfl⟩ := map_eq_some_iff.mp there
      rw [here, alive]
    · rw [there]

theorem tableAt_setTable (alive : (s.mm i).isSome) (table : Option Nat) (j : Nat) (l : Option Nat) :
    (s.setTable i k table).tableAt j l = if j = i ∧ l = some k then table else s.tableAt j l := by
  split
  · rename_i here
    obtain ⟨m, alive⟩ := isSome_iff_exists.mp alive
    rw [here.1, here.2, tableAt, setTable, mm_setMm, if_pos rfl, alive]
    exact update_self ..
  rename_i other
  by_cases same : l = some k
  · rw [tableAt, setTable, mm_setMm, if_neg (fun here => other ⟨here, same⟩), tableAt]
  apply tableAt_setMm
  intro m
  cases l with
  | none => rfl
  | some k' => exact update_of_ne (fun here => same (congrArg some here)) _ _

theorem entry_setTable {table : Option Nat} (alive : s.mm i = some m)
    (empty : ∀ vpn, vpn / tableSize = k → m.pte vpn = .none) (j v : Nat) :
    (s.setTable i k table).entry j v = s.entry j v := by
  rw [entry, setTable, mm_setMm]
  by_cases here : j = i
  · rw [if_pos here, here, alive, entry_of_mm alive]
    dsimp only [map_some]
    split_ifs with within
    · rw [empty v within]
    · rfl
  · rw [if_neg here]
    rfl

end Vm

section

attribute [local grind =] update_apply

variable (b : Books s o)
include b

/-- Nothing that the books look at has changed. -/
theorem Books.same (free : t.free.Perm s.free) (refs : ∀ p, t.ref p = s.ref p)
    (tables : ∀ i k, t.tableAt i k = s.tableAt i k) (pages : t.pages = s.pages)
    (fifo : t.fifo.Sublist s.fifo) : Books t o where
  free := by simpa [free.mem_iff] using b.free
  nodup := free.nodup_iff.mpr b.nodup
  unused := by simpa [refs] using b.unused
  tables := by simpa [tables] using b.tables
  named := by simpa [pages] using b.named
  refs := by simpa [refs, pages] using b.refs
  order := b.order.sublist fifo
  queued p mem := b.queued p (fifo.subset mem)

/-- A frame goes back to the free ones. Nothing names it any more. -/
theorem Books.release (owned : o p ≠ .free) (free : t.free = giveFrame p s.free)
    (refs : ∀ q, t.ref q = if q = p then 0 else s.ref q)
    (tables : ∀ i k q, t.tableAt i k = some q ↔ q ≠ p ∧ s.tableAt i k = some q)
    (pages : ∀ x q, t.pages x = some q ↔ q ≠ p ∧ s.pages x = some q)
    (fifo : t.fifo = s.fifo.erase p) : Books t (update o p .free) := by
  have given := giveFrame_perm p s.free
  have tally (q : Nat) (other : q ≠ p) : tally t.pages q = tally s.pages q :=
    tally_congr fun x => (pages x q).trans (and_iff_right other)
  constructor
  · intro q
    rw [free, given.mem_iff, mem_cons, update_apply, b.free]
    grind
  · rw [free, given.nodup_iff, nodup_cons, b.free]
    exact ⟨owned, b.nodup⟩
  · grind [b.unused]
  · intro i k q
    rw [tables, ← b.tables]
    grind
  · grind [b.named]
  · intro q isUser
    grind [b.refs q]
  · exact fifo ▸ b.order.erase p
  · intro q mem
    rw [fifo, b.order.mem_erase_iff] at mem
    grind [b.queued q]

/-- An entry gives up its frame. -/
theorem Books.drop (sparse : Sparse s.pages) (here : s.pages x = some q)
    (free : t.free = (s.putPage q).free) (refs : ∀ p, t.ref p = (s.putPage q).ref p)
    (tables : ∀ i k, t.tableAt i k = s.tableAt i k)
    (pages : t.pages = update s.pages x none) (fifo : t.fifo = (s.putPage q).fifo) :
    Books t (if s.ref q = 1 then update o q .free else o) := by
  have user := b.named x q here
  obtain ⟨counted, positive⟩ := b.refs q user
  have value (p : Nat) : t.ref p = s.ref p - if p = q then 1 else 0 := by
    rw [refs, ref_putPage]
  by_cases last : s.ref q = 1
  · rw [free_putPage, if_pos last] at free
    rw [if_pos last]
    apply b.release (by simp [user]) free
    · grind
    · intro i k p
      rw [tables, ← b.tables]
      grind
    · intro y p
      rw [pages, update_apply]
      have sole (there : s.pages y = some q) : y = x := eq_of_tally_one (by omega) there here
      grind
    · rw [fifo, fifo_putPage, if_pos last]
  · rw [free_putPage, if_neg last] at free
    rw [if_neg last]
    constructor
    · simpa [free] using b.free
    · simpa [free] using b.nodup
    · grind [b.unused]
    · simpa [tables] using b.tables
    · intro y p named
      rw [pages, update_apply] at named
      grind [b.named y p]
    · intro p isUser
      have count := tally_update sparse x none p
      have before := b.refs p isUser
      grind
    · rw [fifo, fifo_putPage, if_neg last]
      exact b.order
    · rw [fifo, fifo_putPage, if_neg last]
      exact b.queued

/-- An entry names a frame. -/
theorem Books.name (sparse : Sparse s.pages) (usable : o p = .free ∨ o p = .user)
    (free : ∀ q, q ∈ t.free ↔ q ∈ s.free ∧ q ≠ p) (nodup : t.free.Nodup)
    (refs : ∀ q, t.ref q = s.ref q + if q = p then 1 else 0)
    (tables : ∀ i k, t.tableAt i k = s.tableAt i k)
    (here : s.pages x = none) (pages : t.pages = update s.pages x (some p))
    (fifo : t.fifo = s.fifo) : Books t (update o p .user) := by
  constructor
  · intro q
    rw [free, b.free]
    grind
  · exact nodup
  · grind [b.unused]
  · intro i k q
    rw [tables, ← b.tables]
    grind
  · intro y q named
    rw [pages, update_apply] at named
    grind [b.named y q]
  · intro q isUser
    have count := tally_update sparse x (some p) q
    have unnamed (none : tally s.pages q ≠ 0) : o q = .user := by
      obtain ⟨y, named⟩ := (tally_pos sparse).mp (Nat.pos_of_ne_zero none)
      exact b.named y q named
    grind [b.unused q, b.refs q]
  · exact fifo ▸ b.order
  · grind [b.queued]

/-- A frame becomes a page table or a directory. -/
theorem Books.addTable {k : Option Nat} (isFree : o p = .free)
    (free : ∀ q, q ∈ t.free ↔ q ∈ s.free ∧ q ≠ p) (nodup : t.free.Nodup)
    (refs : ∀ q, q ≠ p → t.ref q = s.ref q) (before : s.tableAt i k = none)
    (tables : ∀ j l, t.tableAt j l = if j = i ∧ l = k then some p else s.tableAt j l)
    (pages : t.pages = s.pages) (fifo : t.fifo = s.fifo) : Books t (update o p (.table i k)) := by
  constructor
  · intro q
    rw [free, b.free]
    grind
  · exact nodup
  · grind [b.unused]
  · intro j l q
    have owner := b.tables j l q
    rw [tables]
    grind
  · intro y q named
    rw [pages] at named
    grind [b.named y q]
  · grind [b.refs]
  · exact fifo ▸ b.order
  · grind [b.queued]

theorem Books.dropTable {k : Option Nat} (owner : s.tableAt i k = some p)
    (free : t.free = giveFrame p s.free) (refs : ∀ q, t.ref q = if q = p then 0 else s.ref q)
    (tables : ∀ j l, t.tableAt j l = if j = i ∧ l = k then none else s.tableAt j l)
    (pages : t.pages = s.pages) (fifo : t.fifo = s.fifo.erase p) : Books t (update o p .free) := by
  have held : o p = .table i k := (b.tables i k p).mpr owner
  apply b.release (by simp [held]) free refs
  · intro j l q
    rw [tables]
    split
    · rename_i here
      rw [here.1, here.2, owner]
      simp +contextual [eq_comm]
    rename_i other
    refine (and_iff_right_of_imp ?_).symm
    rintro table rfl
    rw [← b.tables, held] at table
    cases table
    exact other ⟨rfl, rfl⟩
  · intro x q
    rw [pages]
    refine (and_iff_right_of_imp ?_).symm
    rintro named rfl
    simp [b.named x q named] at held
  · exact fifo

theorem Books.taken {free : List Nat} (perm : s.free.Perm (p :: free)) :
    o p = .free ∧ (∀ q, q ∈ free ↔ q ∈ s.free ∧ q ≠ p) ∧ free.Nodup := by
  have nodup := nodup_cons.mp (perm.nodup_iff.mp b.nodup)
  refine ⟨(b.free p).mp (perm.mem_iff.mpr (.head _)), ?_, nodup.2⟩
  intro q
  rw [perm.mem_iff, mem_cons]
  constructor
  · intro mem
    exact ⟨.inr mem, fun same => nodup.1 (same ▸ mem)⟩
  · rintro ⟨same | mem, other⟩
    · exact absurd same other
    · exact mem

end

/-- There are books of the new state, for the same frames. -/
def Booked (o : Nat → Owner) (t : Vm) : Prop := ∃ o', Books t o' ∧ ∀ p, o' p = .other ↔ o p = .other

theorem Books.booked (b : Books s o) : Booked o s := ⟨o, b, fun _ => .rfl⟩

theorem Books.booked_update {w : Owner} (b : Books t (update o p w)) (owned : o p ≠ .other) (given : w ≠ .other) :
    Booked o t := by
  refine ⟨_, b, fun q => ?_⟩
  by_cases same : q = p
  · simp [same, owned, given]
  · simp [same]

theorem Booked.trans {o' : Nat → Owner} (booked : Booked o' t) (same : ∀ p, o' p = .other ↔ o p = .other) :
    Booked o t := by
  obtain ⟨o₁, books, others⟩ := booked
  exact ⟨o₁, books, fun p => (others p).trans (same p)⟩

/-- An entry gives up what it names. -/
theorem Books.dropEntry (b : Books s o) (sparse : Sparse s.pages)
    (free : t.free = (s.dropEntry (s.entry i vpn)).free)
    (refs : ∀ p, t.ref p = (s.dropEntry (s.entry i vpn)).ref p)
    (tables : ∀ i k, t.tableAt i k = s.tableAt i k)
    (pages : t.pages = update s.pages (i, vpn) none)
    (fifo : t.fifo = (s.dropEntry (s.entry i vpn)).fifo) : Booked o t := by
  cases named : (s.entry i vpn).page with
  | none =>
    refine Books.booked (b.same ?_ ?_ tables ?_ ?_)
    · rw [free, free_dropEntry, named]
    · intro p
      rw [refs, ref_dropEntry, named, if_neg (by simp), Int.sub_zero]
    · rw [pages, update_eq_self_iff]
      exact named.symm
    · rw [fifo, fifo_dropEntry, named]
  | some q =>
    have user := b.named (i, vpn) q named
    have books := b.drop (x := (i, vpn)) sparse named (by rw [free, free_dropEntry, named, free_putPage])
      (fun p => by rw [refs, ref_dropEntry, named, ref_putPage]; simp [eq_comm]) tables pages
      (by rw [fifo, fifo_dropEntry, named, fifo_putPage])
    split at books
    · exact books.booked_update (by simp [user]) (by simp)
    · exact books.booked

theorem Books.cleared (b : Books s o) (sparse : Sparse s.pages) (i vpn : Nat) :
    Booked o ((s.dropEntry (s.entry i vpn)).setEntry i vpn .none) := by
  by_cases named : s.entry i vpn = .none
  · rw [named]
    exact ((setEntry_self named).symm ▸ b).booked
  obtain ⟨m, alive⟩ := alive_of_entry named
  refine b.dropEntry sparse rfl (by intro; rfl) ?_ ?_ rfl
  · intro j l
    rw [tableAt_setEntry]
    exact tableAt_congr (by simp) j l
  · rw [pages_setEntry (by simp [alive]), pages_congr (s := s) (by simp)]
    rfl

/-- A second entry for a page whose first one may change its bits. -/
theorem Books.shared {dst src : Nat} {mark : Bool} {kept copy : Pte} (b : Books s o)
    (sparse : Sparse s.pages) (apart : dst ≠ src) (alive : s.mm dst = some m)
    (unnamed : s.pages (dst, vpn) = none) (named : s.pages (src, vpn) = some p)
    (same : kept.page = some p) (new : copy.page = some p) :
    Booked o (((if mark then s.setEntry src vpn kept else s).addRef p 1).setEntry dst vpn copy) := by
  generalize marked : (if mark then s.setEntry src vpn kept else s) = u
  have user := b.named _ _ named
  obtain ⟨n, live⟩ := alive_of_page named
  have facts : u.free = s.free ∧ (∀ q, u.ref q = s.ref q) ∧ (∀ j l, u.tableAt j l = s.tableAt j l) ∧
      u.pages = s.pages ∧ u.mm dst = some m ∧ u.fifo = s.fifo := by
    subst marked
    split
    · refine ⟨rfl, fun _ => rfl, tableAt_setEntry, ?_, ?_, rfl⟩
      · rw [pages_setEntry (by simp [live]), update_eq_self_iff, same, named]
      · rw [setEntry, mm_setMm, if_neg apart, alive]
    · exact ⟨rfl, fun _ => rfl, fun _ _ => rfl, rfl, alive, rfl⟩
  obtain ⟨free, refs, tables, pages, alive, fifo⟩ := facts
  refine Books.booked_update (b.name sparse (.inr user) ?_ ?_ ?_ ?_ unnamed ?_ fifo) (by simp [user]) (by simp)
  · intro q
    change q ∈ u.free ↔ _
    grind [b.free q]
  · change u.free.Nodup
    exact free ▸ b.nodup
  · intro q
    rw [← refs]
    exact ref_addRef 1
  · intro j l
    rw [tableAt_setEntry, ← tables]
    rfl
  · rw [pages_setEntry (by simp [alive]), new, ← pages]
    rfl

/-! ## The moves -/

section

variable (h : s.Shape) (b : Books s o)
include h b

theorem Books.table {rest : List Nat} (alive : s.mm i = some m) (absent : m.pde k = none)
    (free : s.free = p :: rest) :
    Booked o (({ s with free := rest }.setFrame p fun f => { f with ref := 1 }).setTable i k (some p)) := by
  obtain ⟨isFree, members, nodup⟩ := b.taken (.of_eq free)
  refine Books.booked_update (b.addTable isFree members nodup ?_ ?_ (tableAt_setTable (by simp [alive]) _) ?_ rfl)
    (by simp [isFree]) (by simp)
  · intro q other
    exact (ref_setFrame (fun f => { f with ref := 1 })).trans (if_neg other)
  · rw [tableAt, alive]
    exact absent
  · apply pages_of_entry (entry_setTable alive _)
    intro v within
    by_contra named
    exact (h.mm i m alive).tabled v named (by rw [within, absent])

theorem Books.create {startBrk : Nat} {rest : List Nat} (free : s.free = p :: rest) : Booked o { s with
    free := rest
    mm := update s.mm s.next (some ⟨.create startBrk, p, fun _ => none, fun _ => .none⟩)
    next := s.next + 1 } := by
  obtain ⟨isFree, members, nodup⟩ := b.taken (.of_eq free)
  have dead : s.mm s.next = none := by
    by_contra alive
    obtain ⟨m, alive⟩ := ne_none_iff_exists'.mp alive
    exact Nat.lt_irrefl _ (h.ids _ m alive)
  refine Books.booked_update (b.addTable (i := s.next) (k := none) isFree members nodup (fun _ _ => rfl) ?_ ?_ ?_ rfl)
    (by simp [isFree]) (by simp)
  · rw [tableAt, dead]
    rfl
  · intro j l
    rw [tableAt_of_mm rfl]
    by_cases here : j = s.next
    · subst here
      rw [tableAt, dead]
      cases l <;> simp [MmStruct.table]
    · simp [here]
  · apply pages_of_entry (entry_of_update rfl _ _)
    · intro v
      rw [entry, dead]
    · rintro m new v
      cases new
      rfl

theorem Books.fill {write : Bool} {rest : List Nat} (alive : s.mm i = some m) (free : s.free = p :: rest) :
    Booked o (s.fillEntry i vpn p write) := by
  obtain ⟨o₁, books, others⟩ := b.cleared h.sparse i vpn
  have isFree := (b.free p).mp (by rw [free]; exact (.head _))
  have other : (s.entry i vpn).page ≠ some p := by
    intro named
    simp [b.named (i, vpn) p named] at isFree
  obtain ⟨isFree, members, nodup⟩ := books.taken (free_fillEntry free other)
  have sound : Sparse ((s.dropEntry (s.entry i vpn)).setEntry i vpn .none).pages :=
    (h.replaced (by simp) (by simp) (.inr rfl)).sparse
  have cleared : ((s.dropEntry (s.entry i vpn)).setEntry i vpn .none).pages =
      update (s.dropEntry (s.entry i vpn)).pages (i, vpn) none :=
    pages_setEntry (by simp [alive])
  refine Booked.trans (Books.booked_update (books.name (x := (i, vpn)) sound (.inl isFree) members nodup
    (fun q => ref_fillEntry) ?_ ?_ ?_ (fifo_fillEntry other)) (by simp [isFree]) (by simp)) others
  · intro j l
    rw [fillEntry, tableAt_setEntry, tableAt_setEntry]
    exact tableAt_congr (by simp) j l
  · rw [cleared, update_self]
  · rw [cleared, update_idem, fillEntry, pages_setEntry (by simp [alive])]
    rw [pages_congr (s := s) (by simp), pages_congr (t := s.dropEntry _) (s := s) (by simp)]
    rfl

theorem Books.evict {slot : Nat} {write cow : Bool} (old : s.entry i vpn = .present p write cow) :
    Booked o (s.evictEntry i vpn p slot) := by
  obtain ⟨m, alive⟩ := alive_of_entry (by simp [old] : s.entry i vpn ≠ .none)
  refine @Books.dropEntry s _ o i vpn b h.sparse ?_ (fun q => ?_) (fun j l => ?_) ?_ ?_
  · rw [old, free_dropEntry, evictEntry, free_putPage]
    rfl
  · rw [old, ref_dropEntry, evictEntry, ref_putPage]
    simp only [Pte.page, some.injEq, eq_comm]
    rfl
  · rw [tableAt_congr mm_evictEntry, tableAt_setEntry]
  · rw [pages_congr mm_evictEntry, pages_setEntry (by simp [alive])]
    rfl
  · rw [old, fifo_dropEntry, evictEntry, fifo_putPage]
    rfl

theorem Books.share {dst src : Nat} (apart : dst ≠ src) (alive : s.mm dst = some m) (empty : m.pte vpn = .none) :
    Booked o (s.shareEntry dst src vpn (s.entry src vpn)).2 := by
  have unnamed : s.pages (dst, vpn) = none := by
    rw [pages, entry_of_mm alive, empty]
    rfl
  cases source : s.entry src vpn with
  | none => exact b.booked
  | present p write cow | hidden p write cow =>
    exact b.shared h.sparse apart alive unnamed (by rw [pages, source]; rfl) rfl rfl
  | swap slot =>
    simp only [shareEntry, swapDuplicateEntry]
    split
    · exact b.booked
    rename_i duplicated
    obtain ⟨-, ⟨⟩⟩ := ite_none_right_eq_some.mp duplicated
    refine Books.booked (b.same (.refl _) (fun _ => rfl) tableAt_setEntry ?_ (.refl _))
    rw [pages_setEntry (by simp [alive])]
    exact update_eq_self_iff.mpr unnamed.symm

end

theorem Books.destroy (b : Books s o) (alive : s.mm i = some m) (empty : ∀ vpn, m.pte vpn = .none)
    (bare : ∀ k, m.pde k = none) : Booked o { s.freePage m.pgdir with mm := update s.mm i none } := by
  have owner : s.tableAt i none = some m.pgdir := by
    rw [tableAt, alive]
    rfl
  have held := (b.tables i none m.pgdir).mpr owner
  refine Books.booked_update (b.dropTable owner rfl (fun q => ref_freePage) ?_ ?_ rfl) (by simp [held]) (by simp)
  · intro j l
    rw [tableAt_of_mm rfl]
    by_cases here : j = i
    · subst here
      rw [tableAt, alive]
      cases l <;> simp [MmStruct.table, bare]
    · simp [here]
  · apply pages_of_entry (entry_of_update rfl _ _)
    · intro v
      rw [entry_of_mm alive, empty]
    · simp

variable {A : Allow}

theorem Move.books (h : s.Shape) (b : Books s o) (move : Move A s t) : Booked o t := by
  cases move with
  | env disk mem | store loud i vpn p off cow byte mapped =>
    exact Books.booked (b.same (.refl _) (fun _ => rfl) (fun _ _ => rfl) rfl (.refl _))
  | links fifo frame refs nodup owners =>
    refine Books.booked { b with unused := ?_, refs := ?_, order := nodup b.order, queued := ?_ }
    · intro p isFree
      exact (refs p).trans (b.unused p isFree)
    · intro p isUser
      exact ⟨(refs p).trans (b.refs p isUser).1, (b.refs p isUser).2⟩
    · intro p mem
      rcases owners p mem with ⟨old, -⟩ | ⟨owner, vpn, -, named⟩
      · exact b.queued p old
      · exact b.named (owner, vpn) p named
  | vmas i m vmas alive shape =>
    refine Books.booked (b.same (.refl _) (fun _ => rfl) ?_ (pages_of_entry (entry_setVmas vmas)) (.refl _))
    intro j k
    apply tableAt_setMm
    intro n
    cases k <;> rfl
  | recycle p rest free =>
    obtain ⟨isFree, -⟩ := b.taken (.of_eq free)
    refine Books.booked (b.same ?_ ?_ (fun _ _ => rfl) rfl List.erase_sublist)
    · rw [free]
      exact giveFrame_perm p rest
    · intro q
      rw [ref_freePage]
      split_ifs with same
      · rw [same, b.unused p isFree]
      · rfl
  | table i vpn p m rest alive absent covered free => exact b.table h alive absent free
  | untable loud i k p m alive there empty =>
    have owner : s.tableAt i (some k) = some p := by
      rw [tableAt, alive]
      exact there
    have held := (b.tables i (some k) p).mpr owner
    exact Books.booked_update (b.dropTable owner rfl (fun q => ref_freePage) (tableAt_setTable (by simp [alive]) _)
      (pages_of_entry (entry_setTable alive empty)) rfl) (by simp [held]) (by simp)
  | create loud p startBrk rest free => exact b.create h free
  | destroy loud i m alive empty bare unowned => exact b.destroy alive empty bare
  | retype i vpn p e old new grant =>
    obtain ⟨m, alive⟩ := alive_of_page old
    refine Books.booked (b.same (.refl _) (fun _ => rfl) Vm.tableAt_setEntry ?_ (.refl _))
    rw [pages_setEntry (by simp [alive]), update_eq_self_iff, new]
    exact old.symm
  | fill i vpn p write m rest alive there covered valid free => exact b.fill h alive free
  | evict may i vpn p slot write cow old sole found => exact b.evict h old
  | clear loud i vpn =>
    rw [unmapPte_eq]
    exact b.cleared h.sparse i vpn
  | share loud dst src vpn m apart alive there covered empty => exact b.share h apart alive empty

/-- The invariant of the memory manager over the frames that it was given. -/
structure Vm.Sound (s : Vm) (frames : List Nat) : Prop where
  shape : s.Shape
  books : ∃ o, Books s o ∧ ∀ p, o p = .other ↔ p ∉ frames

variable {frames : List Nat}

theorem Move.sound (h : s.Sound frames) (move : Move A s t) :
    t.Sound frames := by
  obtain ⟨o, books, others⟩ := h.books
  obtain ⟨o', books, same⟩ := move.books h.shape books
  exact ⟨move.shape h.shape, o', books, fun p => (same p).trans (others p)⟩

theorem Moves.sound (h : s.Sound frames) (moves : Moves A s t) :
    t.Sound frames := by
  induction moves with
  | refl => exact h
  | tail _ move ih => exact move.sound ih

theorem Vm.boot_sound (nodup : frames.Nodup) (slotCount : Nat) :
    (boot frames slotCount).Sound frames := by
  refine ⟨⟨by simp [boot], by simp [boot]⟩, fun p => if p ∈ frames then .free else .other, ?_, ?_⟩
  · constructor
    · simp [boot]
    · exact nodup
    · simp [boot, ref]
    · intro i k p
      by_cases given : p ∈ frames <;> simp [given, boot, tableAt]
    · simp [boot, pages, entry, Pte.page]
    · intro p isUser
      by_cases given : p ∈ frames <;> simp [given] at isUser
    · exact nodup_nil
    · simp [boot]
  · intro p
    by_cases given : p ∈ frames <;> simp

end Procore.Mm
