import Procore.Mm.Space
import Procore.Mm.VmaList

/-! # What the operations can do

Every operation is a sequence of moves: a page is filled, evicted, shared or
unmapped, a page table comes or goes, areas change, pages enter and leave the
replacement list. A move says what it needs from the state, so that each
invariant is shown once for every move and not for every operation.
-/

namespace Procore.Mm

open Procore.Lib
open Function

def Pte.page : Pte → Option Nat
  | .present p _ _ => some p
  | .hidden p _ _ => some p
  | _ => .none

/-- The swap slot that an entry names. -/
def Pte.slot : Pte → Option Nat
  | .swap k => some k
  | _ => .none

/-- The processor can store through the entry. -/
def Pte.writable : Pte → Bool
  | .present _ write _ => write
  | _ => false

namespace Vm

/-- The bytes behind an entry. A page without an entry reads as zeros. -/
def view (s : Vm) : Pte → Nat → UInt8
  | .none => fun _ => 0
  | .present p _ _ => s.data p
  | .hidden p _ _ => s.data p
  | .swap k => s.slotData k

def dropEntry (s : Vm) : Pte → Vm
  | .none => s
  | .present p _ _ => s.putPage p
  | .hidden p _ _ => s.putPage p
  | .swap k => s.swapReleaseEntry k

/-- Put the frame `p`, the first of the free ones, behind an entry with the bytes it had. -/
def fillEntry (s : Vm) (i vpn p : Nat) (write : Bool) : Vm :=
  let e := s.entry i vpn
  ((({ s with free := s.free.tail }.setData p (s.view e)).addRef p 1).dropEntry e).setEntry i vpn
    (.present p write false)

/-- Write a page to a slot and free it. -/
def evictEntry (s : Vm) (i vpn p slot : Nat) : Vm :=
  let t := s.setSlotRefs slot 1
  (({ t with slotData := update t.slotData slot (t.data p) }).setEntry i vpn
    (.swap slot)).putPage p

end Vm

/-- What an address space keeps: entries lie in areas and in page tables, and every page table
    serves an area. -/
structure MmStruct.Shape (m : MmStruct) : Prop where
  linked : m.vmas.Linked
  covered : ∀ vpn, m.pte vpn ≠ .none → m.vmas.Covers (vpn * pgsize)
  tabled : ∀ vpn, m.pte vpn ≠ .none → m.pde (vpn / tableSize) ≠ none
  used : ∀ k, m.pde k ≠ none → ∃ a, m.vmas.Covers a ∧ a / (pgsize * tableSize) = k

structure Vm.Shape (s : Vm) : Prop where
  ids : ∀ i m, s.mm i = some m → i < s.next
  mm : ∀ i m, s.mm i = some m → m.Shape

/-- What an operation may do that others may not. -/
structure Allow where
  /-- A page that others name becomes writable. -/
  loose : Prop
  /-- An address space ends while pages on the replacement list name it. -/
  orphan : Prop
  /-- The contents of memory change. -/
  loud : Prop
  /-- Pages are swapped out. -/
  evict : Prop

inductive Move (A : Allow) (s : Vm) : Vm → Prop
  /-- Time passes for the disk and for `kmalloc`. -/
  | env (disk mem : List Bool) : Move A s { s with disk := disk, mem := mem }
  /-- Pages enter and leave the replacement list. -/
  | links (fifo : List Nat) (frame : Nat → Frame)
      (refs : ∀ p, (frame p).ref = (s.frame p).ref) (nodup : s.fifo.Nodup → fifo.Nodup)
      (owners : ∀ p ∈ fifo, (p ∈ s.fifo ∧ (frame p).praMm = (s.frame p).praMm) ∨
        ∃ o vpn, (frame p).praMm = some o ∧ (s.entry o vpn).page = some p) :
      Move A s { s with fifo := fifo, frame := frame }
  | vmas (i : Nat) (m : MmStruct) (vmas : Vmas) (alive : s.mm i = some m)
      (shape : MmStruct.Shape { m with vmas := vmas }) : Move A s (s.setVmas i vmas)
  /-- A frame is taken and given back. -/
  | recycle (p : Nat) (rest : List Nat) (free : s.free = p :: rest) :
      Move A s ({ s with free := rest }.freePage p)
  | table (i vpn p : Nat) (m : MmStruct) (rest : List Nat) (alive : s.mm i = some m)
      (absent : m.pde (vpn / tableSize) = none) (covered : m.vmas.Covers (vpn * pgsize))
      (free : s.free = p :: rest) :
      Move A s (({ s with free := rest }.setFrame p fun f => { f with ref := 1 }).setTable i
        (vpn / tableSize) (some p))
  | untable (loud : A.loud) (i k p : Nat) (m : MmStruct) (alive : s.mm i = some m)
      (there : m.pde k = some p) (empty : ∀ vpn, vpn / tableSize = k → m.pte vpn = .none) :
      Move A s ((s.freePage p).setTable i k none)
  | create (loud : A.loud) (p startBrk : Nat) (rest : List Nat) (free : s.free = p :: rest) :
      Move A s { s with
        free := rest
        mm := update s.mm s.next (some ⟨.create startBrk, p, fun _ => none, fun _ => .none⟩)
        next := s.next + 1 }
  | destroy (loud : A.loud) (i : Nat) (m : MmStruct) (alive : s.mm i = some m)
      (empty : ∀ vpn, m.pte vpn = .none) (bare : ∀ k, m.pde k = none)
      (unowned : A.orphan ∨ ∀ p ∈ s.fifo, (s.frame p).praMm ≠ some i) :
      Move A s { s.freePage m.pgdir with mm := update s.mm i none }
  /-- The entry of a page changes its bits. -/
  | retype (i vpn p : Nat) (e : Pte) (old : (s.entry i vpn).page = some p) (new : e.page = some p)
      (grant : e.writable = true →
        (s.entry i vpn).writable = true ∨ (s.frame p).ref = 1 ∨ A.loose) :
      Move A s (s.setEntry i vpn e)
  | fill (i vpn p : Nat) (write : Bool) (m : MmStruct) (rest : List Nat) (alive : s.mm i = some m)
      (there : m.pde (vpn / tableSize) ≠ none) (covered : m.vmas.Covers (vpn * pgsize))
      (valid : ∀ k, s.entry i vpn = .swap k → s.SlotValid k)
      (free : s.free = p :: rest) : Move A s (s.fillEntry i vpn p write)
  | evict (may : A.evict) (i vpn p slot : Nat) (write cow : Bool) (old : s.entry i vpn = .present p write cow)
      (sole : (s.frame p).ref = 1) (found : s.swapAllocEntry = some slot) :
      Move A s (s.evictEntry i vpn p slot)
  | clear (loud : A.loud) (i vpn : Nat) : Move A s (s.unmapPte i vpn)
  | share (loud : A.loud) (dst src vpn : Nat) (m : MmStruct) (apart : dst ≠ src)
      (alive : s.mm dst = some m) (there : m.pde (vpn / tableSize) ≠ none)
      (covered : m.vmas.Covers (vpn * pgsize)) (empty : m.pte vpn = .none) :
      Move A s (s.shareEntry dst src vpn (s.entry src vpn)).2
  | store (loud : A.loud) (i vpn p off : Nat) (cow : Bool) (byte : UInt8)
      (mapped : s.entry i vpn = .present p true cow) :
      Move A s (s.setData p (update (s.data p) off byte))

def Moves (A : Allow) : Vm → Vm → Prop := Relation.ReflTransGen (Move A)

variable {A : Allow} {s : Vm}

theorem Moves.refl : Moves A s s := Relation.ReflTransGen.refl

variable {t : Vm}

theorem Move.moves (move : Move A s t) : Moves A s t := Relation.ReflTransGen.single move

theorem Moves.trans {u : Vm} (first : Moves A s t) (later : Moves A t u) :
    Moves A s u :=
  Relation.ReflTransGen.trans first later

namespace Vm

variable {s t : Vm} {i j vpn v p k : Nat} {e : Pte} {m : MmStruct}

@[simp] theorem mm_setFrame (change : Frame → Frame) : (s.setFrame p change).mm = s.mm := rfl

@[simp] theorem mm_addRef (d : Int) : (s.addRef p d).mm = s.mm := rfl

@[simp] theorem mm_setData (bytes : Nat → UInt8) : (s.setData p bytes).mm = s.mm := rfl

@[simp] theorem mm_setSlotRefs (refs : Nat) : (s.setSlotRefs k refs).mm = s.mm := rfl

@[simp] theorem mm_freePage : (s.freePage p).mm = s.mm := rfl

@[simp] theorem mm_putPage : (s.putPage p).mm = s.mm := by
  simp only [putPage]
  split <;> rfl

@[simp] theorem mm_swapReleaseEntry : (s.swapReleaseEntry k).mm = s.mm := by
  simp only [swapReleaseEntry]
  split <;> rfl

@[simp] theorem mm_dropEntry : (s.dropEntry e).mm = s.mm := by
  cases e <;> simp [dropEntry]

@[simp] theorem next_setFrame (change : Frame → Frame) : (s.setFrame p change).next = s.next := rfl

@[simp] theorem next_putPage : (s.putPage p).next = s.next := by
  simp only [putPage]
  split <;> rfl

@[simp] theorem next_swapReleaseEntry : (s.swapReleaseEntry k).next = s.next := by
  simp only [swapReleaseEntry]
  split <;> rfl

@[simp] theorem next_dropEntry : (s.dropEntry e).next = s.next := by
  cases e <;> simp [dropEntry]

theorem mm_setMm (change : MmStruct → MmStruct) (j : Nat) :
    (s.setMm i change).mm j = if j = i then (s.mm i).map change else s.mm j := by
  exact update_apply s.mm i _ j

theorem entry_of_mm (alive : s.mm i = some m) : s.entry i vpn = m.pte vpn := by
  rw [entry, alive]

theorem entry_congr (same : t.mm i = s.mm i) : t.entry i vpn = s.entry i vpn := by
  rw [entry, entry, same]

theorem alive_of_entry (named : s.entry i vpn ≠ .none) : ∃ m, s.mm i = some m := by
  rw [entry] at named
  split at named
  · exact absurd rfl named
  · exact ⟨_, by assumption⟩

theorem alive_of_page {p : Nat} (named : (s.entry i vpn).page = some p) : ∃ m, s.mm i = some m := by
  refine alive_of_entry fun (none : s.entry i vpn = .none) => ?_
  simp [none, Pte.page] at named

theorem entry_setEntry : (s.setEntry i vpn e).entry j v =
    if (s.mm i).isSome ∧ j = i ∧ v = vpn then e else s.entry j v := by
  rw [entry, setEntry, mm_setMm]
  by_cases here : j = i
  · subst here
    cases alive : s.mm j with
    | none => simp [entry, alive]
    | some m => simp [entry, alive, update_apply]
  · simp [entry, here]

theorem mm_evictEntry {slot : Nat} :
    (s.evictEntry i vpn p slot).mm = (s.setEntry i vpn (.swap slot)).mm := by
  rw [evictEntry, mm_putPage]
  rfl

theorem setEntry_self (there : s.entry i vpn = e) : s.setEntry i vpn e = s := by
  subst there
  have same : (s.mm i).map (fun m => { m with pte := update m.pte vpn (s.entry i vpn) }) =
      s.mm i := by
    cases alive : s.mm i with
    | none => rfl
    | some m => rw [entry_of_mm alive, Option.map_some, update_eq_self]
  rw [setEntry, setMm, same, update_eq_self]

theorem unmapPte_eq : s.unmapPte i vpn = (s.dropEntry (s.entry i vpn)).setEntry i vpn .none := by
  rw [unmapPte]
  split
  · rename_i none
    rw [none]
    exact (setEntry_self none).symm
  · rename_i present
    rw [present]
    rfl
  · rename_i hidden
    rw [hidden]
    rfl
  · rename_i swap
    rw [swap]
    rfl

theorem Shape.of_mm (h : s.Shape) (mm : t.mm = s.mm) (next : t.next = s.next) : t.Shape where
  ids := by simpa [mm, next] using h.ids
  mm := by simpa [mm] using h.mm

theorem Shape.setMm {change : MmStruct → MmStruct} (h : s.Shape)
    (keep : ∀ m, s.mm i = some m → (change m).Shape) : (s.setMm i change).Shape := by
  constructor
  · intro j m alive
    rw [mm_setMm] at alive
    split_ifs at alive with here
    · obtain ⟨old, was, -⟩ := Option.map_eq_some_iff.mp alive
      rw [here]
      exact h.ids i old was
    · exact h.ids j m alive
  · intro j m alive
    rw [mm_setMm] at alive
    split at alive
    · obtain ⟨old, was, rfl⟩ := Option.map_eq_some_iff.mp alive
      exact keep old was
    · exact h.mm j m alive

end Vm

/-- An entry in an area with a page table. -/
theorem MmStruct.Shape.setPte {m : MmStruct} {vpn : Nat} {e : Pte} (h : m.Shape)
    (placed : e ≠ .none → m.vmas.Covers (vpn * pgsize) ∧ m.pde (vpn / tableSize) ≠ none) :
    MmStruct.Shape { m with pte := update m.pte vpn e } where
  linked := h.linked
  covered v named := by
    by_cases here : v = vpn
    · subst here
      exact (placed (by simpa using named)).1
    · exact h.covered v (by simpa [here] using named)
  tabled v named := by
    by_cases here : v = vpn
    · subst here
      exact (placed (by simpa using named)).2
    · exact h.tabled v (by simpa [here] using named)
  used := h.used

variable {table : Option Nat}

/-- A page table comes or goes, and with it its entries. -/
theorem MmStruct.Shape.setTable {m : MmStruct} {k : Nat} (h : m.Shape)
    (serves : table ≠ none → ∃ a, m.vmas.Covers a ∧ a / (pgsize * tableSize) = k) :
    MmStruct.Shape { m with
      pde := update m.pde k table
      pte := fun vpn => if vpn / tableSize = k then .none else m.pte vpn } where
  linked := h.linked
  covered v named := by
    simp only [ne_eq, ite_eq_left_iff, Classical.not_imp] at named
    exact h.covered v named.2
  tabled v named := by
    simp only [ne_eq, ite_eq_left_iff, Classical.not_imp] at named
    simp only [update_of_ne named.1]
    exact h.tabled v named.2
  used k' there := by
    by_cases here : k' = k
    · subst here
      exact serves (by simpa using there)
    · exact h.used k' (by simpa [here] using there)

namespace Vm

variable {s t : Vm} {i j vpn v p k : Nat} {e : Pte} {m : MmStruct}

theorem Shape.replaced (h : s.Shape) (mm : t.mm = s.mm) (next : t.next = s.next)
    (named : s.entry i vpn ≠ .none ∨ e = .none) : (t.setEntry i vpn e).Shape := by
  apply (h.of_mm mm next).setMm
  intro m alive
  rw [mm] at alive
  apply (h.mm i m alive).setPte
  intro real
  have named := named.resolve_right real
  rw [entry_of_mm alive] at named
  exact ⟨(h.mm i m alive).covered vpn named, (h.mm i m alive).tabled vpn named⟩

/-- A new entry. -/
theorem Shape.placed (h : s.Shape) (mm : t.mm = s.mm) (next : t.next = s.next) (alive : s.mm i = some m)
    (covered : m.vmas.Covers (vpn * pgsize)) (there : m.pde (vpn / tableSize) ≠ none) :
    (t.setEntry i vpn e).Shape := by
  apply (h.of_mm mm next).setMm
  intro n same
  rw [mm, alive] at same
  cases same
  exact (h.mm i m alive).setPte fun _ => ⟨covered, there⟩

theorem Shape.tabled (h : s.Shape) (mm : t.mm = s.mm) (next : t.next = s.next)
    (alive : s.mm i = some m)
    (serves : table ≠ none → ∃ a, m.vmas.Covers a ∧ a / (pgsize * tableSize) = k) :
    (t.setTable i k table).Shape := by
  apply (h.of_mm mm next).setMm
  intro n same
  rw [mm, alive] at same
  cases same
  exact (h.mm i m alive).setTable serves

/-- The original keeps its entry or makes it copy-on-write. -/
theorem Shape.shared {dst src : Nat} (h : s.Shape) (apart : dst ≠ src) (alive : s.mm dst = some m)
    (covered : m.vmas.Covers (vpn * pgsize)) (there : m.pde (vpn / tableSize) ≠ none) :
    (s.shareEntry dst src vpn (s.entry src vpn)).2.Shape := by
  have marked {write : Bool} {e : Pte} (named : s.entry src vpn ≠ .none) :
      (if write then s.setEntry src vpn e else s).Shape ∧
        (if write then s.setEntry src vpn e else s).mm dst = some m := by
    split
    · exact ⟨h.replaced rfl rfl (.inl named), by rw [setEntry, mm_setMm, if_neg apart, alive]⟩
    · exact ⟨h, alive⟩
  cases source : s.entry src vpn with
  | none => exact h
  | present p write cow =>
    obtain ⟨shape, same⟩ := marked (by simp [source])
    exact shape.placed rfl rfl same covered there
  | hidden p write cow =>
    obtain ⟨shape, same⟩ := marked (by simp [source])
    exact shape.placed rfl rfl same covered there
  | swap slot =>
    simp only [shareEntry, swapDuplicateEntry]
    split
    · exact h
    rename_i duplicated
    split at duplicated
    · cases duplicated
      exact h.placed rfl rfl alive covered there
    · cases duplicated

end Vm

theorem table_of_page (vpn : Nat) : vpn * pgsize / (pgsize * tableSize) = vpn / tableSize := by
  rw [Nat.mul_comm, Nat.mul_div_mul_left _ _ (by decide)]

theorem Move.shape (h : s.Shape) (move : Move A s t) : t.Shape := by
  cases move with
  | env disk mem | links fifo frame refs nodup owners | recycle p rest free
  | store loud i vpn p off cow byte mapped =>
    exact h.of_mm rfl rfl
  | vmas i m vmas alive shape =>
    apply h.setMm
    intro n same
    rw [alive] at same
    cases same
    exact shape
  | table i vpn p m rest alive absent covered free =>
    exact h.tabled rfl rfl alive fun _ => ⟨vpn * pgsize, covered, table_of_page vpn⟩
  | untable loud i k p m alive there empty => exact h.tabled rfl rfl alive (absurd rfl)
  | create loud p startBrk rest free =>
    constructor
    · intro j n alive
      simp only [update_apply] at alive
      split_ifs at alive with here
      · exact here ▸ Nat.lt_succ_self _
      · exact Nat.lt_succ_of_lt (h.ids j n alive)
    · intro j n alive
      simp only [update_apply] at alive
      split at alive
      · cases alive
        exact ⟨Vmas.create_linked startBrk, by simp, by simp, by simp⟩
      · exact h.mm j n alive
  | destroy loud i m alive empty bare unowned =>
    constructor
    · intro j n alive
      simp only [update_apply] at alive
      split at alive
      · cases alive
      · exact h.ids j n alive
    · intro j n alive
      simp only [update_apply] at alive
      split at alive
      · cases alive
      · exact h.mm j n alive
  | retype i vpn p e old new grant =>
    apply h.replaced rfl rfl
    left
    intro none
    simp [none, Pte.page] at old
  | fill i vpn p write m rest alive there covered valid free =>
    exact h.placed (by simp) (by simp; rfl) alive covered there
  | evict may i vpn p slot write cow old sole found =>
    have placed : (s.setEntry i vpn (.swap slot)).Shape := h.replaced rfl rfl (.inl (by simp [old]))
    exact placed.of_mm Vm.mm_evictEntry (by simp [Vm.evictEntry]; rfl)
  | clear loud i vpn =>
    rw [Vm.unmapPte_eq]
    exact h.replaced (by simp) (by simp) (.inr rfl)
  | share loud dst src vpn m apart alive there covered empty =>
    exact h.shared apart alive covered there

end Procore.Mm
