import Procore.Mm.Fault
import Procore.Mm.Unmap

/-! # Copying an address space

`copy_mm` gives the child the areas of the parent and shares every page and slot
with it. The loop of `copy_range` reads an entry before it asks for a page table
of the child. When there are free frames for all the tables, no page is
reclaimed in between, and the entry is still what it was.
-/

namespace Procore.Mm

open Procore.Lib List Option Vmas
open Function

variable {vs : List Vma}

theorem Ordered.apart {v w : Vma} (h : Ordered vs) (left : v ∈ vs) (right : w ∈ vs)
    (distinct : v ≠ w) : v.stop ≤ w.start ∨ w.stop ≤ v.start := by
  have either : vs.Pairwise fun v w => v.stop ≤ w.start ∨ w.stop ≤ v.start := h.imp .inl
  have : Std.Symm fun v w : Vma => v.stop ≤ w.start ∨ w.stop ≤ v.start := ⟨fun _ _ => Or.symm⟩
  exact either.forall left right distinct

variable {srcBrk : Option Nat}

/-- The child has no area where it gets one. -/
theorem Vmas.dupVma_apart {dst t : Vmas} {v w : Vma} (h : dst.Linked)
    (ordered : Ordered dst.mmapList) (fits : v.Fits) (done : dst.dupVma srcBrk v = some t)
    (mem : w ∈ dst.mmapList) : w.stop ≤ v.start ∨ v.stop ≤ w.start := by
  obtain ⟨t', inserted, -⟩ := map_eq_some_iff.mp done
  obtain ⟨-, -, -, -, new, old⟩ := h.insert fits inserted
  have distinct : w ≠ ⟨dst.next, v.start, v.stop, v.flags⟩ := by
    rintro rfl
    exact Nat.lt_irrefl _ (h.fresh _ mem)
  have disjoint := (insert_ordered ordered inserted).apart (old w mem) new distinct
  exact disjoint

namespace Vm

variable {A : Allow} {s t u : Vm} {i dst src vpn p k : Nat} {m : MmStruct} {frames : List Nat}

def tableCount (m : MmStruct) : Nat :=
  ((range tableSize).filter fun k => (m.pde k).isSome).length

/-- There are free frames for the page directory and for as many tables as the parent has. -/
def ForkRoom (s : Vm) (i : Nat) : Prop := ∀ m ∈ s.mm i, tableCount m < s.free.length

instance (s : Vm) (i : Nat) : Decidable (s.ForkRoom i) :=
  inferInstanceAs (Decidable (∀ m ∈ s.mm i, _))

/-- The tables that the child may still need. -/
def missing (s : Vm) (dst src : Nat) : List Nat :=
  (range tableSize).filter fun k =>
    (s.tableAt src (some k)).isSome && (s.tableAt dst (some k)).isNone

theorem missing_congr (same : ∀ i k, t.tableAt i k = s.tableAt i k) :
    t.missing dst src = s.missing dst src := by
  simp [missing, same]

/-- A new table for the child is one less that it may need. -/
theorem missing_lt (bounded : k < tableSize) (given : (s.tableAt src (some k)).isSome)
    (absent : s.tableAt dst (some k) = none) (now : t.tableAt dst (some k) ≠ none)
    (others : ∀ j, j ≠ k → t.tableAt dst (some j) = s.tableAt dst (some j))
    (parent : ∀ j, t.tableAt src j = s.tableAt src j) :
    (t.missing dst src).length < (s.missing dst src).length := by
  have mem : k ∈ s.missing dst src := by
    simp [missing, bounded, given, absent]
  have sub : t.missing dst src ⊆ (s.missing dst src).erase k := by
    intro j listed
    simp only [missing, mem_filter, mem_range, Bool.and_eq_true, isNone_iff_eq_none] at listed
    have other : j ≠ k := by
      rintro rfl
      exact now listed.2.2
    refine (mem_erase_of_ne other).mpr ?_
    simp only [missing, mem_filter, mem_range, Bool.and_eq_true, isNone_iff_eq_none]
    exact ⟨listed.1, parent (some j) ▸ listed.2.1, others j other ▸ listed.2.2⟩
  have nodup : (t.missing dst src).Nodup := nodup_range.filter _
  have := (nodup.subperm sub).length_le
  rw [length_erase_of_mem mem] at this
  have := length_pos_of_mem mem
  omega

/-- What a step of the copy keeps of the replacement list. -/
structure Copies (s t : Vm) : Prop where
  moves : ∀ A : Allow, A.loud → Moves A s t
  fifo : t.fifo = s.fifo
  owners : ∀ p, (t.frame p).praMm = (s.frame p).praMm

theorem Copies.refl : Copies s s := ⟨fun _ _ => .refl, rfl, fun _ => rfl⟩

theorem Copies.trans (first : Copies s t) (later : Copies t u) : Copies s u where
  moves A loud := (first.moves A loud).trans (later.moves A loud)
  fifo := later.fifo.trans first.fifo
  owners p := (later.owners p).trans (first.owners p)

theorem Copies.sound (h : s.Sound frames) (copies : Copies s t) : t.Sound frames :=
  (copies.moves ⟨False, False, True, False⟩ trivial).sound h

/-- The child between two steps of the copy. `m` is the parent as it was before. -/
structure Layout (dst src : Nat) (m : MmStruct) (child : Vmas) (s : Vm) : Prop where
  parent : ∃ pte, s.mm src = some { m with pte := pte }
  child : ∃ n, s.mm dst = some n ∧ n.vmas = child
  room : (s.missing dst src).length ≤ s.free.length

variable {child : Vmas} {e : Pte}

theorem Layout.congr (h : Layout dst src m child s) (mm : t.mm = s.mm) (free : t.free = s.free) :
    Layout dst src m child t where
  parent := by simpa [mm] using h.parent
  child := by simpa [mm] using h.child
  room := by
    rw [missing_congr (tableAt_congr mm), free]
    exact h.room

theorem Layout.setEntry (h : Layout dst src m child s) : Layout dst src m child (s.setEntry i vpn e) where
  parent := by
    obtain ⟨pte, alive⟩ := h.parent
    rw [Vm.setEntry, mm_setMm]
    split_ifs with here
    · rw [← here, alive]
      exact ⟨_, rfl⟩
    · exact ⟨pte, alive⟩
  child := by
    obtain ⟨n, alive, same⟩ := h.child
    rw [Vm.setEntry, mm_setMm]
    split_ifs with here
    · rw [← here, alive]
      exact ⟨_, rfl, same⟩
    · exact ⟨n, alive, same⟩
  room := by
    rw [missing_congr tableAt_setEntry]
    exact h.room

/-- The child gets a table if it has none, and there is a free frame for it. -/
theorem getPte_copies {ok : Bool} (h : s.Sound frames) (layout : Layout dst src m child s)
    (apart : dst ≠ src) (covered : child.Covers (vpn * pgsize))
    (given : s.entry src vpn ≠ .none) (done : s.getPte dst vpn = some (ok, t)) :
    ok = true ∧ Copies s t ∧ Layout dst src m child t ∧ t.Ready dst vpn ∧
      (∀ v, t.entry dst v = s.entry dst v) ∧ t.mm src = s.mm src := by
  obtain ⟨n, alive, same⟩ := layout.child
  rw [getPte] at done
  split at done
  · rename_i there
    cases done
    rw [hasTable, alive] at there
    exact ⟨rfl, .refl, layout, ⟨n, alive, same ▸ covered, by simpa [isSome_iff_ne_none] using there⟩,
      fun _ => rfl, rfl⟩
  · rename_i absent
    have absent : n.pde (vpn / tableSize) = none := by
      rw [hasTable, alive] at absent
      simpa using absent
    obtain ⟨pte, parent⟩ := layout.parent
    have bounded : vpn / tableSize < tableSize := by
      obtain ⟨v, mem, holds⟩ := covered
      have top := ((h.shape.mm dst n alive).linked.fits v (same ▸ mem)).1.2.2
      have := holds.2
      simp only [pgsize, userTop, tableSize] at *
      omega
    have lacks : s.tableAt dst (some (vpn / tableSize)) = none := by
      rw [tableAt, alive]
      exact absent
    have has : (s.tableAt src (some (vpn / tableSize))).isSome := by
      rw [tableAt, parent, isSome_iff_ne_none]
      apply (h.shape.mm src _ parent).tabled
      rwa [entry_of_mm parent] at given
    cases free : s.free with
    | nil =>
      have mem : vpn / tableSize ∈ s.missing dst src := by simp [missing, bounded, has, lacks]
      have positive := length_pos_of_mem mem
      have room := layout.room
      rw [free, length_nil] at room
      omega
    | cons p rest =>
      rw [allocPage_of_free free] at done
      simp only [some.injEq, Prod.mk.injEq] at done
      obtain ⟨rfl, result⟩ := done
      have move (A : Allow) : Move A s t :=
        result ▸ .table dst vpn p n rest alive absent (same ▸ covered) free
      have tables (j : Nat) (l : Option Nat) : t.tableAt j l =
          if j = dst ∧ l = some (vpn / tableSize) then some p else s.tableAt j l := by
        rw [← result, tableAt_setTable (by simp [alive])]
        rfl
      have now : t.mm dst = some { n with
            pde := update n.pde (vpn / tableSize) (some p)
            pte := fun v => if v / tableSize = vpn / tableSize then .none else n.pte v } := by
        rw [← result, setTable, mm_setMm, if_pos rfl, mm_setFrame, alive]
        rfl
      have kept : t.mm src = s.mm src := by
        rw [← result, setTable, mm_setMm, if_neg (Ne.symm apart), mm_setFrame]
      have owners (q : Nat) : (t.frame q).praMm = (s.frame q).praMm := by
        rw [← result]
        by_cases here : q = p <;> simp [setTable, setMm, setFrame, here]
      have fewer := missing_lt (t := t) bounded has lacks (by simp [tables])
        (fun j other => by rw [tables, if_neg (by simp [other])])
        (fun j => by rw [tables, if_neg (fun here => apart here.1.symm)])
      have room := layout.room
      rw [free, length_cons] at room
      refine ⟨rfl, ⟨fun A _ => (move A).moves, by rw [← result]; rfl, owners⟩,
        ⟨⟨pte, kept.trans parent⟩, ⟨_, now, same⟩, ?_⟩, ⟨_, now, same ▸ covered, by simp⟩, ?_, kept⟩
      · rw [← result] at fewer ⊢
        exact Nat.le_of_lt_succ (Nat.lt_of_lt_of_le fewer room)
      · intro v
        rw [entry_of_mm now, entry_of_mm alive]
        dsimp only
        split_ifs with within
        · by_contra named
          exact (h.shape.mm dst n alive).tabled v (fun none => named none.symm) (by rw [within, absent])
        · rfl

theorem isSome_setMm (change : MmStruct → MmStruct) (i j : Nat) :
    ((s.setMm i change).mm j).isSome = (s.mm j).isSome := by
  rw [mm_setMm]
  split_ifs with here
  · rw [here, isSome_map]
  · rfl

theorem isSome_setEntry (i vpn j : Nat) (e : Pte) :
    ((s.setEntry i vpn e).mm j).isSome = (s.mm j).isSome :=
  isSome_setMm _ i j

theorem shareEntry_frame (s : Vm) (dst src vpn : Nat) (e : Pte) :
    let t := (s.shareEntry dst src vpn e).2
    t.fifo = s.fifo ∧ (∀ q, (t.frame q).praMm = (s.frame q).praMm) ∧
      ∀ j, (t.mm j).isSome = (s.mm j).isSome := by
  have shared {mark : Bool} {kept copy : Pte} {p : Nat} :
      let t := ((if mark then s.setEntry src vpn kept else s).addRef p 1).setEntry dst vpn copy
      t.fifo = s.fifo ∧ (∀ q, (t.frame q).praMm = (s.frame q).praMm) ∧
        ∀ j, (t.mm j).isSome = (s.mm j).isSome := by
    have owner (u : Vm) (q : Nat) : (((u.addRef p 1).setEntry dst vpn copy).frame q).praMm =
        (u.frame q).praMm := by
      by_cases here : q = p <;> simp [Vm.setEntry, setMm, addRef, setFrame, here]
    cases mark with
    | true =>
      refine ⟨rfl, owner _, fun j => ?_⟩
      rw [isSome_setEntry]
      exact isSome_setEntry src vpn j kept
    | false => exact ⟨rfl, owner s, fun j => isSome_setEntry dst vpn j copy⟩
  cases e with
  | none => exact ⟨rfl, fun _ => rfl, fun _ => rfl⟩
  | present p write cow => exact shared
  | hidden p write cow => exact shared
  | swap slot =>
    rw [shareEntry]
    split
    · exact ⟨rfl, fun _ => rfl, fun _ => rfl⟩
    rename_i u duplicated
    obtain ⟨-, ⟨⟩⟩ := ite_none_right_eq_some.mp duplicated
    exact ⟨rfl, fun _ => rfl, fun j => isSome_setEntry dst vpn j _⟩

theorem share_layout {mark : Bool} {kept copy : Pte} (layout : Layout dst src m child s)
    (apart : dst ≠ src) :
    let t := ((if mark then s.setEntry src vpn kept else s).addRef p 1).setEntry dst vpn copy
    Layout dst src m child t ∧ ∀ v, v ≠ vpn → t.entry dst v = s.entry dst v := by
  have marked : Layout dst src m child (if mark then s.setEntry src vpn kept else s) ∧
      ∀ v, (if mark then s.setEntry src vpn kept else s).entry dst v = s.entry dst v := by
    split
    · refine ⟨layout.setEntry, fun v => ?_⟩
      rw [entry_setEntry, if_neg (fun here => apart here.2.1)]
    · exact ⟨layout, fun _ => rfl⟩
  obtain ⟨marked, entries⟩ := marked
  refine ⟨Layout.setEntry (marked.congr rfl rfl), ?_⟩
  intro v other
  rw [entry_setEntry, if_neg (fun here => other here.2.2), ← entries]
  rfl

theorem shareEntry_copies (layout : Layout dst src m child s) (apart : dst ≠ src)
    (ready : s.Ready dst vpn) (empty : s.entry dst vpn = .none) :
    let t := (s.shareEntry dst src vpn (s.entry src vpn)).2
    Copies s t ∧ Layout dst src m child t ∧ ∀ v, v ≠ vpn → t.entry dst v = s.entry dst v := by
  intro t
  obtain ⟨n, alive, covered, there⟩ := ready
  rw [entry_of_mm alive] at empty
  have moves (A : Allow) (loud : A.loud) : Moves A s t :=
    (Move.share loud dst src vpn n apart alive there covered empty).moves
  obtain ⟨fifo, owners, -⟩ := shareEntry_frame s dst src vpn (s.entry src vpn)
  refine ⟨⟨moves, fifo, owners⟩, ?_⟩
  simp only [t]
  cases s.entry src vpn with
  | none => exact ⟨layout, fun _ _ => rfl⟩
  | present p write cow | hidden p write cow => exact share_layout layout apart
  | swap slot =>
    rw [shareEntry]
    split
    · exact ⟨layout, fun _ _ => rfl⟩
    rename_i u duplicated
    obtain ⟨-, ⟨⟩⟩ := ite_none_right_eq_some.mp duplicated
    refine ⟨Layout.setEntry (layout.congr rfl rfl), ?_⟩
    intro v other
    rw [entry_setEntry, if_neg (fun here => other here.2.2)]
    rfl

variable {code : Code}

theorem copyPte_copies (h : s.Sound frames) (layout : Layout dst src m child s)
    (apart : dst ≠ src) (covered : child.Covers (vpn * pgsize)) (empty : s.entry dst vpn = .none)
    (done : s.copyPte dst src vpn = some (code, t)) :
    Copies s t ∧ Layout dst src m child t ∧ ∀ v, v ≠ vpn → t.entry dst v = s.entry dst v := by
  rw [copyPte] at done
  split at done
  · cases done
    exact ⟨.refl, layout, fun _ _ => rfl⟩
  rename_i given
  split at done
  · cases done
  · rename_i ran
    exact absurd (getPte_copies h layout apart covered given ran).1 (by decide)
  rename_i u ran
  obtain ⟨-, copies, layout, ready, entries, parent⟩ :=
    getPte_copies h layout apart covered given ran
  rw [← entry_congr parent] at done
  obtain ⟨later, last, others⟩ := shareEntry_copies layout apart ready ((entries vpn).trans empty)
  have result : t = (u.shareEntry dst src vpn (u.entry src vpn)).2 :=
    (congrArg Prod.snd (some.inj done)).symm
  subst result
  exact ⟨copies.trans later, last, fun v other => (others v other).trans (entries v)⟩

theorem copyLoop_copies {vpns : List Nat} (h : s.Sound frames)
    (layout : Layout dst src m child s) (apart : dst ≠ src) (nodup : vpns.Nodup)
    (covered : ∀ vpn ∈ vpns, child.Covers (vpn * pgsize))
    (empty : ∀ vpn ∈ vpns, s.entry dst vpn = .none)
    (done : s.copyLoop dst src vpns = some (code, t)) : Copies s t ∧ Layout dst src m child t := by
  induction vpns generalizing s with
  | nil =>
    cases done
    exact ⟨.refl, layout⟩
  | cons vpn vpns ih =>
    rw [copyLoop] at done
    obtain ⟨fresh, nodup⟩ := nodup_cons.mp nodup
    have first {code : Code} {u : Vm} (ran : s.copyPte dst src vpn = some (code, u)) :=
      copyPte_copies h layout apart (covered vpn (.head _)) (empty vpn (.head _)) ran
    split at done
    · cases done
    · rename_i u ran
      obtain ⟨copies, layout, others⟩ := first ran
      have left (v : Nat) (mem : v ∈ vpns) : u.entry dst v = .none := by
        rw [others v (fun same => fresh (same ▸ mem))]
        exact empty v (.tail _ mem)
      obtain ⟨later, last⟩ := ih (copies.sound h) layout nodup
        (fun v mem => covered v (.tail _ mem)) left done
      exact ⟨copies.trans later, last⟩
    · rename_i failed _ ran
      cases done
      obtain ⟨copies, layout, -⟩ := first ran
      exact ⟨copies, layout⟩

theorem Layout.setVmas (layout : Layout dst src m child s) (apart : dst ≠ src) (vmas : Vmas) :
    Layout dst src m vmas (s.setVmas dst vmas) where
  parent := by
    obtain ⟨pte, alive⟩ := layout.parent
    exact ⟨pte, by rw [Vm.setVmas, mm_setMm, if_neg (Ne.symm apart), alive]⟩
  child := by
    obtain ⟨n, alive, -⟩ := layout.child
    exact ⟨_, mm_setVmas alive, rfl⟩
  room := by
    have same (j : Nat) (l : Option Nat) : (s.setVmas dst vmas).tableAt j l = s.tableAt j l := by
      apply tableAt_setMm
      intro n
      cases l <;> rfl
    rw [missing_congr same]
    exact layout.room

/-- The areas of the child that come from the parent. -/
structure Inherits (m : MmStruct) (child : Vmas) : Prop where
  ordered : Ordered child.mmapList
  startBrk : child.startBrk = m.vmas.startBrk
  brk : child.brk = m.vmas.brk

theorem pagesOf_nodup (start stop : Nat) : (pagesOf start stop).Nodup := nodup_range' _

theorem dupLoop_cons {v : Vma} : s.dupLoop dst src srcBrk (v :: vs) =
      if s.mem.headD true = false then some (.noMem, { s with mem := s.mem.tail })
      else
        match (s.mm dst).bind fun m => m.vmas.dupVma srcBrk v with
        | none => none
        | some vmas =>
          match ({ s with mem := s.mem.tail }.setVmas dst vmas).copyRange dst src v.start v.stop with
          | none => none
          | some (.ok, s) => dupLoop s dst src srcBrk vs
          | some (_, s) => some (.noMem, s) := rfl

theorem dupLoop_copies (linked : m.vmas.Linked) (h : s.Sound frames)
    (layout : Layout dst src m child s) (apart : dst ≠ src) (inherits : Inherits m child)
    (sub : ∀ v ∈ vs, v ∈ m.vmas.mmapList)
    (done : s.dupLoop dst src m.vmas.brkVma vs = some (code, t)) : Copies s t := by
  induction vs generalizing s child with
  | nil =>
    cases done
    exact .refl
  | cons v vs ih =>
    rw [dupLoop_cons] at done
    have asked : Copies s { s with mem := s.mem.tail } :=
      ⟨fun A _ => (Move.env s.disk s.mem.tail).moves, rfl, fun _ => rfl⟩
    by_cases answer : s.mem.headD true = false
    · rw [if_pos answer] at done
      cases done
      exact asked
    rw [if_neg answer] at done
    have layout : Layout dst src m child { s with mem := s.mem.tail } := layout.congr rfl rfl
    obtain ⟨n, alive, same⟩ := layout.child
    have childLinked := (h.shape.mm dst n alive).linked
    split at done
    · cases done
    rename_i vmas duplicated
    rw [alive, bind_some] at duplicated
    rw [same] at duplicated childLinked
    have mem := sub v (.head _)
    have fits := linked.fits v mem
    obtain ⟨kept, low, high, w, listed, start, stop⟩ := dupVma_spec (C := True) childLinked fits
      (fun named => by rw [inherits.startBrk, inherits.brk]; exact linked.ends mem named) duplicated
    have placed : Copies s ({ s with mem := s.mem.tail }.setVmas dst vmas) :=
      asked.trans ⟨fun A _ => ((asked.sound h).shape.vmas_move alive (same ▸ kept)).moves, rfl,
        fun _ => rfl⟩
    have layout := layout.setVmas apart vmas
    have inside (vpn : Nat) (within : vpn ∈ pagesOf v.start v.stop) :
        v.start ≤ vpn * pgsize ∧ vpn * pgsize < v.stop :=
      (mem_pagesOf (Nat.mod_eq_zero_of_dvd fits.2.1) (Nat.mod_eq_zero_of_dvd fits.2.2)).mp within
    -- the child has no entries where it has no area yet
    have empty (vpn : Nat) (within : vpn ∈ pagesOf v.start v.stop) :
        ({ s with mem := s.mem.tail }.setVmas dst vmas).entry dst vpn = .none := by
      rw [entry_setVmas]
      by_contra named
      rw [entry_of_mm alive] at named
      obtain ⟨old, there, holds⟩ := (h.shape.mm dst n alive).covered vpn named
      have bounds := inside vpn within
      have disjoint := dupVma_apart childLinked inherits.ordered fits duplicated (same ▸ there)
      have := holds.1
      have := holds.2
      omega
    have covered (vpn : Nat) (within : vpn ∈ pagesOf v.start v.stop) :
        vmas.Covers (vpn * pgsize) := by
      refine ⟨w, listed, ?_⟩
      rw [Vma.Holds, start, stop]
      exact inside vpn within
    generalize { s with mem := s.mem.tail }.setVmas dst vmas = u at *
    have copy {code : Code} {t : Vm} (ran : u.copyRange dst src v.start v.stop = some (code, t)) :
        Copies u t ∧ Layout dst src m vmas t := by
      rw [copyRange] at ran
      split at ran
      · exact copyLoop_copies (placed.sound h) layout apart (pagesOf_nodup _ _) covered empty ran
      · cases ran
    split at done
    · cases done
    · rename_i ran
      obtain ⟨copies, layout⟩ := copy ran
      have inherits : Inherits m vmas := ⟨kept.ordered trivial inherits.ordered,
        low.trans inherits.startBrk, high.trans inherits.brk⟩
      exact (placed.trans copies).trans (ih ((placed.trans copies).sound h) layout inherits
        (fun w mem => sub w (.tail _ mem)) done)
    · rename_i ran
      cases done
      exact placed.trans (copy ran).1

variable {startBrk : Nat} {reclaim : Bool}

theorem createMm_eq : s.createMm startBrk reclaim =
    if s.mem.headD true = false then some (none, { s with mem := s.mem.tail })
    else
      match { s with mem := s.mem.tail }.allocPage reclaim with
      | none => none
      | some (none, s) => some (none, s)
      | some (some p, s) =>
        some (some s.next, { s with
          mm := update s.mm s.next (some ⟨.create startBrk, p, fun _ => none, fun _ => .none⟩)
          next := s.next + 1 }) := rfl

/-- A new address space, or none. Nothing is reclaimed for it. -/
theorem createMm_spec {got : Option Nat}
    (settled : reclaim = false ∨ s.free ≠ []) (done : s.createMm startBrk reclaim = some (got, t)) :
    (got = none ∧ t = { s with mem := s.mem.tail }) ∨ ∃ p rest, s.free = p :: rest ∧
      got = some s.next ∧ t = { s with
        free := rest
        mm := update s.mm s.next (some ⟨.create startBrk, p, fun _ => none, fun _ => .none⟩)
        next := s.next + 1
        mem := s.mem.tail } := by
  rw [createMm_eq] at done
  by_cases answer : s.mem.headD true = false
  · rw [if_pos answer] at done
    cases done
    exact .inl ⟨rfl, rfl⟩
  rw [if_neg answer] at done
  by_cases empty : s.free = []
  · cases settled.resolve_right (absurd empty)
    rw [allocPage_empty (s := { s with mem := s.mem.tail }) empty] at done
    cases done
    exact .inl ⟨rfl, rfl⟩
  · obtain ⟨p, rest, free⟩ := exists_cons_of_ne_nil empty
    rw [allocPage_of_free (s := { s with mem := s.mem.tail }) free] at done
    cases done
    exact .inr ⟨p, rest, free, rfl, rfl⟩

theorem createMm_moves {got : Option Nat} (loud : A.loud)
    (settled : reclaim = false ∨ s.free ≠ []) (done : s.createMm startBrk reclaim = some (got, t)) :
    Moves A s t := by
  apply (Move.env s.disk s.mem.tail).moves.trans
  rcases createMm_spec settled done with ⟨-, rfl⟩ | ⟨p, rest, free, -, rfl⟩
  · exact .refl
  · exact (Move.create (s := { s with mem := s.mem.tail }) loud p startBrk rest free).moves

theorem setMm_vmas (alive : s.mm i = some m) (change : Vmas → Vmas) :
    s.setMm i (fun n => { n with vmas := change n.vmas }) = s.setVmas i (change m.vmas) := by
  rw [setVmas, setMm, setMm, alive]
  rfl

/-- The copy into a new address space, which ends again if the copy fails. -/
theorem dupMm_moves (h : s.Sound frames) (loud : A.loud) (linked : m.vmas.Linked)
    (apart : dst ≠ src) (parent : s.mm src = some m)
    (new : s.mm dst = some ⟨.create userBase, p, fun _ => none, fun _ => .none⟩)
    (room : tableCount m ≤ s.free.length)
    (owned : A.orphan ∨ ∀ p ∈ s.fifo, (s.frame p).praMm ≠ some dst)
    (done : (match (s.setMm dst fun n => { n with vmas := n.vmas.dupStart m.vmas }).dupLoop dst src
        m.vmas.brkVma m.vmas.mmapList.reverse with
      | none => none
      | some (.ok, s) => some (.ok, s)
      | some (code, s) => (s.exitMm dst).map fun s => (code, s)) = some (code, t)) : Moves A s t := by
  rw [setMm_vmas new fun vmas => vmas.dupStart m.vmas] at done
  have first : Copies s (s.setVmas dst ((create userBase).dupStart m.vmas)) :=
    ⟨fun A _ => (h.shape.vmas_move new
      (dupStart_kept (C := True) (create_linked userBase))).moves, rfl, fun _ => rfl⟩
  have layout : Layout dst src m (.create userBase) s := by
    refine ⟨⟨m.pte, parent⟩, ⟨_, new, rfl⟩, ?_⟩
    have all : s.missing dst src = (range tableSize).filter fun k => (m.pde k).isSome := by
      simp [missing, tableAt, parent, new, MmStruct.table]
    rw [all]
    exact room
  have layout := layout.setVmas apart ((create userBase).dupStart m.vmas)
  have inherits : Inherits m ((create userBase).dupStart m.vmas) := ⟨ordered_nil, rfl, rfl⟩
  have copy {code : Code} {t : Vm} (ran : (s.setVmas dst ((create userBase).dupStart m.vmas)).dupLoop
      dst src m.vmas.brkVma m.vmas.mmapList.reverse = some (code, t)) : Copies s t :=
    first.trans (dupLoop_copies linked (first.sound h) layout apart inherits
      (fun v mem => mem_reverse.mp mem) ran)
  split at done
  · cases done
  · rename_i ran
    cases done
    exact (copy ran).moves A loud
  rename_i u _ ran
  have copies := copy ran
  obtain ⟨v, ended, same⟩ := map_eq_some_iff.mp done
  cases same
  apply (copies.moves A loud).trans
  apply exitMm_moves (copies.sound h) loud _ ended
  refine owned.imp id fun owned n alive q queued owner => ?_
  rw [copies.fifo] at queued
  rw [copies.owners] at owner
  exact absurd owner (owned q queued)

/-- `copy_mm` with room for the child. `owned` says that no linked page belongs to an address
    space that is not there yet. -/
theorem copyMm_moves (h : s.Sound frames) (loud : A.loud) (room : s.ForkRoom src)
    (owned : A.orphan ∨ ∀ p ∈ s.fifo, (s.frame p).praMm ≠ some s.next)
    (done : s.copyMm src = some (code, t)) : Moves A s t := by
  rw [copyMm] at done
  split at done
  · cases done
  rename_i m alive
  have room := room m alive
  have settled : true = false ∨ s.free ≠ [] := .inr fun empty => by simp [empty] at room
  split at done
  · cases done
  · rename_i ran
    cases done
    exact createMm_moves loud settled ran
  rename_i dst v ran
  have first := createMm_moves loud settled ran
  apply first.trans
  have sound := first.sound h
  rcases createMm_spec settled ran with ⟨⟨⟩, -⟩ | ⟨p, rest, free, ⟨⟩, rfl⟩
  have apart : s.next ≠ src := Nat.ne_of_gt (h.shape.ids src m alive)
  refine dupMm_moves sound loud (h.shape.mm src m alive).linked apart ?_ (update_self ..) ?_ owned
    done
  · exact (update_of_ne apart.symm _ _).trans alive
  · rw [free, length_cons] at room
    exact Nat.le_of_lt_succ room

end Vm

end Procore.Mm
