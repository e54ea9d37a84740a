import Procore.Mm.Books

/-! # Unmapping

`unmap_range` clears the entries of a range and frees the page tables that are
empty then. `munmap`, `madvise` and a smaller heap unmap what their areas give
up; an address space that ends unmaps all its areas, so nothing of it is left.
-/

namespace Procore.Mm

open Procore.Lib List

variable {A : Allow} {s t u : Vm} {i vpn p k : Nat} {m n : MmStruct} {frames : List Nat}

/-- Unmapping touches one address space, and pages only leave the replacement list. -/
structure Shrinks (i : Nat) (s t : Vm) : Prop where
  moves : ∀ A : Allow, A.loud → Moves A s t
  others : ∀ j, j ≠ i → t.mm j = s.mm j
  next : t.next = s.next
  fifo : ∀ p ∈ t.fifo, p ∈ s.fifo ∧ (t.frame p).praMm = (s.frame p).praMm

theorem Shrinks.refl : Shrinks i s s := ⟨fun _ _ => .refl, fun _ _ => rfl, rfl, fun _ mem => ⟨mem, rfl⟩⟩

theorem Shrinks.trans (first : Shrinks i s t) (later : Shrinks i t u) : Shrinks i s u where
  moves A loud := (first.moves A loud).trans (later.moves A loud)
  others j other := (later.others j other).trans (first.others j other)
  next := later.next.trans first.next
  fifo p mem := by
    obtain ⟨mid, owner⟩ := later.fifo p mem
    obtain ⟨old, owner'⟩ := first.fifo p mid
    exact ⟨old, owner.trans owner'⟩

theorem Shrinks.sound (h : s.Sound frames) (shrinks : Shrinks i s t) : t.Sound frames :=
  (shrinks.moves ⟨False, False, True, False⟩ trivial).sound h

/-- The pages `gone` have no entries any more, and of the tables `ks` those with entries are left. -/
structure Trimmed (ks gone : Set Nat) (m n : MmStruct) : Prop where
  within : ∀ vpn ∈ gone, vpn / tableSize ∈ ks
  vmas : n.vmas = m.vmas
  pgdir : n.pgdir = m.pgdir
  cleared : ∀ vpn ∈ gone, n.pte vpn = .none
  kept : ∀ vpn, vpn ∉ gone → n.pte vpn = m.pte vpn
  tables : ∀ k, k ∉ ks → n.pde k = m.pde k
  used : ∀ k ∈ ks, n.pde k = none ∨ ∃ vpn, vpn / tableSize = k ∧ n.pte vpn ≠ .none

theorem Trimmed.refl : Trimmed ∅ ∅ m m := by
  constructor <;> simp

theorem Trimmed.trans {l : MmStruct} {ks gone ks' gone' : Set Nat} (first : Trimmed ks gone m n)
    (later : Trimmed ks' gone' n l) : Trimmed (ks ∪ ks') (gone ∪ gone') m l where
  within vpn := by
    rintro (mem | mem)
    · exact .inl (first.within vpn mem)
    · exact .inr (later.within vpn mem)
  vmas := later.vmas.trans first.vmas
  pgdir := later.pgdir.trans first.pgdir
  cleared vpn mem := by
    by_cases again : vpn ∈ gone'
    · exact later.cleared vpn again
    · rw [later.kept vpn again]
      exact first.cleared vpn (mem.resolve_right again)
  kept vpn out := by
    rw [Set.mem_union, not_or] at out
    rw [later.kept vpn out.2, first.kept vpn out.1]
  tables k out := by
    rw [Set.mem_union, not_or] at out
    rw [later.tables k out.2, first.tables k out.1]
  used k mem := by
    by_cases again : k ∈ ks'
    · exact later.used k again
    rw [later.tables k again]
    rcases first.used k (mem.resolve_right again) with gone | ⟨vpn, within, named⟩
    · exact .inl gone
    · have out : vpn ∉ gone' := fun mem => again (within ▸ later.within vpn mem)
      exact .inr ⟨vpn, within, by rwa [later.kept vpn out]⟩

namespace Vm

variable {q : Nat}

theorem frame_of_fifo_freePage (order : s.fifo.Nodup) (mem : q ∈ (s.freePage p).fifo) :
    q ∈ s.fifo ∧ ((s.freePage p).frame q).praMm = (s.frame q).praMm := by
  obtain ⟨other, mem⟩ := order.mem_erase_iff.mp mem
  exact ⟨mem, by simp [freePage, untrackPage, setFrame, other]⟩

theorem frame_of_fifo_putPage (order : s.fifo.Nodup) (mem : q ∈ (s.putPage p).fifo) :
    q ∈ s.fifo ∧ ((s.putPage p).frame q).praMm = (s.frame q).praMm := by
  have same : ((s.addRef p (-1)).frame q).praMm = (s.frame q).praMm := by
    by_cases here : q = p <;> simp [addRef, setFrame, here]
  rw [putPage_eq] at mem ⊢
  split at mem
  · rename_i last
    rw [if_pos last]
    obtain ⟨mem, owner⟩ := frame_of_fifo_freePage (s := s.addRef p (-1)) order mem
    exact ⟨mem, owner.trans same⟩
  · rename_i several
    rw [if_neg several]
    exact ⟨mem, same⟩

theorem frame_of_fifo_dropEntry {e : Pte} (order : s.fifo.Nodup) (mem : q ∈ (s.dropEntry e).fifo) :
    q ∈ s.fifo ∧ ((s.dropEntry e).frame q).praMm = (s.frame q).praMm := by
  cases e with
  | none => exact ⟨mem, rfl⟩
  | present p write cow | hidden p write cow => exact frame_of_fifo_putPage order mem
  | swap slot =>
    rw [dropEntry, swapReleaseEntry] at mem ⊢
    split at mem
    · rename_i valid
      rw [if_pos valid]
      exact ⟨mem, rfl⟩
    · rename_i invalid
      rw [if_neg invalid]
      exact ⟨mem, rfl⟩

theorem unmapPte_shrinks (h : s.Sound frames) (i vpn : Nat) : Shrinks i s (s.unmapPte i vpn) := by
  obtain ⟨o, books, -⟩ := h.books
  refine ⟨fun A loud => (Move.clear loud i vpn).moves, ?_, ?_, ?_⟩
  · intro j other
    rw [unmapPte_eq, setEntry, mm_setMm, if_neg other, mm_dropEntry]
  · rw [unmapPte_eq]
    exact next_dropEntry
  · intro q mem
    rw [unmapPte_eq] at mem ⊢
    exact frame_of_fifo_dropEntry books.order mem

theorem mm_unmapPte (alive : s.mm i = some m) :
    (s.unmapPte i vpn).mm i = some { m with pte := Function.update m.pte vpn .none } := by
  rw [unmapPte_eq, setEntry, mm_setMm, if_pos rfl, mm_dropEntry, alive]
  rfl

/-- The inner loop clears the entries of the pages. -/
theorem unmapPtes_spec (h : s.Sound frames) (alive : s.mm i = some m) (vpns : List Nat) :
    Shrinks i s (vpns.foldl (fun s vpn => s.unmapPte i vpn) s) ∧
      (vpns.foldl (fun s vpn => s.unmapPte i vpn) s).mm i =
        some { m with pte := fun v => if v ∈ vpns then .none else m.pte v } := by
  induction vpns generalizing s m with
  | nil => exact ⟨.refl, by simpa using alive⟩
  | cons vpn vpns ih =>
    have first := unmapPte_shrinks h i vpn
    obtain ⟨rest, last⟩ := ih (first.sound h) (mm_unmapPte alive)
    refine ⟨first.trans rest, ?_⟩
    rw [foldl_cons, last]
    congr 2
    funext v
    by_cases here : v = vpn <;> simp [here]

theorem mem_table {k vpn : Nat} : vpn ∈ range' (k * tableSize) tableSize ↔ vpn / tableSize = k := by
  rw [mem_range'_1, Nat.div_eq_iff (by decide)]
  have : 0 < tableSize := by decide
  omega

section

variable (h : s.Sound frames) (alive : s.mm i = some m)
include h alive

theorem untable_shrinks {table : Nat} (there : m.pde k = some table)
    (empty : ∀ vpn, vpn / tableSize = k → m.pte vpn = .none) :
    Shrinks i s ((s.freePage table).setTable i k none) := by
  obtain ⟨o, books, -⟩ := h.books
  refine ⟨fun A loud => (Move.untable loud i k table m alive there empty).moves, ?_, rfl, ?_⟩
  · intro j other
    rw [setTable, mm_setMm, if_neg other, mm_freePage]
  · intro q mem
    exact frame_of_fifo_freePage books.order mem

theorem unmapTable_spec (k : Nat) (vpns : List Nat) :
    Shrinks i s (s.unmapTable i k vpns) ∧ ∃ n, (s.unmapTable i k vpns).mm i = some n ∧
      Trimmed {k} {vpn | vpn ∈ vpns ∧ vpn / tableSize = k} m n := by
  rw [unmapTable, alive, Option.bind_some]
  split
  · rename_i absent
    refine ⟨.refl, m, alive, ?_, rfl, rfl, ?_, fun _ _ => rfl, fun _ _ => rfl, ?_⟩
    · intro vpn mem
      exact mem.2
    · intro vpn mem
      by_contra named
      exact (h.shape.mm i m alive).tabled vpn named (by rw [mem.2, absent])
    · rintro j rfl
      exact .inl absent
  · rename_i table there
    obtain ⟨shrinks, now⟩ := unmapPtes_spec h alive (vpns.filter fun vpn => vpn / tableSize = k)
    have gone {vpn : Nat} : vpn ∈ (vpns.filter fun vpn => vpn / tableSize = k) ↔
        vpn ∈ vpns ∧ vpn / tableSize = k := by simp
    simp only [gone] at now
    dsimp only
    split
    · rename_i empty
      have empty (vpn : Nat) (within : vpn / tableSize = k) :
          (if vpn ∈ vpns ∧ vpn / tableSize = k then .none else m.pte vpn) = Pte.none := by
        have := empty vpn (mem_table.mpr within)
        rwa [entry_of_mm now] at this
      have last := untable_shrinks (shrinks.sound h) now there empty
      refine ⟨shrinks.trans last, _, by rw [setTable, mm_setMm, if_pos rfl, mm_freePage, now]; rfl, ?_⟩
      refine ⟨fun vpn mem => mem.2, rfl, rfl, ?_, ?_, ?_, ?_⟩
      · intro vpn mem
        exact if_pos mem.2
      · intro vpn out
        dsimp only
        split
        · rename_i within
          have out : ¬ (vpn ∈ vpns ∧ vpn / tableSize = k) := out
          have none := empty vpn within
          rw [if_neg out] at none
          exact none.symm
        · exact if_neg out
      · intro j other
        exact Function.update_of_ne other _ _
      · rintro j rfl
        exact .inl (Function.update_self ..)
    · rename_i some
      refine ⟨shrinks, _, now, fun vpn mem => mem.2, rfl, rfl, fun vpn mem => if_pos mem,
        fun vpn out => if_neg out, fun _ _ => rfl, ?_⟩
      rintro j rfl
      right
      simp only [not_forall] at some
      obtain ⟨vpn, within, named⟩ := some
      rw [entry_of_mm now] at named
      exact ⟨vpn, mem_table.mp within, named⟩

theorem unmapTables_spec (ks vpns : List Nat) :
    Shrinks i s (ks.foldl (fun s k => s.unmapTable i k vpns) s) ∧
      ∃ n, (ks.foldl (fun s k => s.unmapTable i k vpns) s).mm i = some n ∧
        Trimmed {k | k ∈ ks} {vpn | vpn ∈ vpns ∧ vpn / tableSize ∈ ks} m n := by
  induction ks generalizing s m with
  | nil => exact ⟨.refl, m, alive, by simpa using Trimmed.refl⟩
  | cons k ks ih =>
    obtain ⟨first, n, mid, trimmed⟩ := unmapTable_spec h alive k vpns
    obtain ⟨rest, l, last, later⟩ := ih (first.sound h) mid
    refine ⟨first.trans rest, l, last, ?_⟩
    convert trimmed.trans later using 1
    · ext j
      simp
    · ext vpn
      simp [and_or_left]

end

variable {start stop : Nat}

theorem mem_pagesOf (low : start % pgsize = 0) (high : stop % pgsize = 0) :
    vpn ∈ pagesOf start stop ↔ start ≤ vpn * pgsize ∧ vpn * pgsize < stop := by
  rw [pagesOf, mem_range'_1]
  simp only [pgsize] at *
  omega

theorem mem_tablesOf {a : Nat} (low : start ≤ a) (high : a < stop) :
    a / (pgsize * tableSize) ∈ tablesOf start stop := by
  rw [tablesOf, mem_range'_1]
  simp only [pgsize, tableSize]
  omega

/-- The pages and the tables of the range. -/
theorem unmapRange_spec (h : s.Sound frames) (alive : s.mm i = some m)
    (done : s.unmapRange i start stop = some t) : (start % pgsize = 0 ∧ stop % pgsize = 0) ∧
      Shrinks i s t ∧ ∃ n, t.mm i = some n ∧
        Trimmed {k | k ∈ tablesOf start stop} {vpn | start ≤ vpn * pgsize ∧ vpn * pgsize < stop} m n := by
  obtain ⟨valid, ⟨⟩⟩ := Option.ite_none_right_eq_some.mp done
  obtain ⟨shrinks, n, now, trimmed⟩ := unmapTables_spec h alive (tablesOf start stop)
    (pagesOf start stop)
  refine ⟨⟨valid.1, valid.2.1⟩, shrinks, n, now, ?_⟩
  convert trimmed using 1
  ext vpn
  simp only [mem_pagesOf valid.1 valid.2.1]
  refine (and_iff_left_of_imp ?_).symm
  rintro ⟨low, high⟩
  rw [← table_of_page]
  exact mem_tablesOf low high

theorem setUnswappable_spec (h : s.Sound frames) (i vpn : Nat) :
    Shrinks i s (s.setUnswappable i vpn) ∧ (s.setUnswappable i vpn).mm = s.mm ∧
      ∀ p write cow, s.entry i vpn = .present p write cow → p ∉ (s.setUnswappable i vpn).fifo := by
  obtain ⟨o, books, -⟩ := h.books
  rw [setUnswappable]
  split
  · rename_i p write cow there
    split
    · have owners (q : Nat) (mem : q ∈ (s.untrackPage p).fifo) :
          q ∈ s.fifo ∧ ((s.untrackPage p).frame q).praMm = (s.frame q).praMm := by
        obtain ⟨other, mem⟩ := books.order.mem_erase_iff.mp mem
        exact ⟨mem, by simp [untrackPage, setFrame, other]⟩
      refine ⟨⟨fun A _ => Move.moves ?_, fun _ _ => rfl, rfl, owners⟩, rfl, ?_⟩
      · refine .links (s.fifo.erase p) _ ?_ (fun nodup => nodup.erase p) (fun q mem => .inl (owners q mem))
        intro q
        by_cases here : q = p <;> simp [setFrame, here]
      · rw [there]
        rintro q w c ⟨⟩
        exact books.order.not_mem_erase
    · rename_i absent
      refine ⟨.refl, rfl, ?_⟩
      rw [there]
      rintro q w c ⟨⟩
      exact absent
  · rename_i other
    exact ⟨.refl, rfl, fun p write cow there => absurd there (other p write cow)⟩

theorem setUnswappables_spec (h : s.Sound frames) (i : Nat) (vpns : List Nat) :
    Shrinks i s (vpns.foldl (fun s vpn => s.setUnswappable i vpn) s) ∧
      (vpns.foldl (fun s vpn => s.setUnswappable i vpn) s).mm = s.mm ∧
      ∀ vpn ∈ vpns, ∀ p write cow, s.entry i vpn = .present p write cow →
        p ∉ (vpns.foldl (fun s vpn => s.setUnswappable i vpn) s).fifo := by
  induction vpns generalizing s with
  | nil => exact ⟨.refl, rfl, by simp⟩
  | cons v vpns ih =>
    obtain ⟨first, same, unlinked⟩ := setUnswappable_spec h i v
    obtain ⟨rest, same', unlinked'⟩ := ih (first.sound h)
    refine ⟨first.trans rest, same'.trans same, ?_⟩
    intro vpn mem p write cow there
    rcases mem_cons.mp mem with rfl | mem
    · intro queued
      exact unlinked p write cow there (rest.fifo p queued).1
    · exact unlinked' vpn mem p write cow ((entry_congr (congrFun same i)).trans there)

/-- The tables that serve the ranges. -/
def touched (ranges : List (Nat × Nat)) : Set Nat :=
  {k | ∃ r ∈ ranges, r.1 < r.2 ∧ k ∈ tablesOf r.1 r.2}

def inside (ranges : List (Nat × Nat)) : Set Nat :=
  {vpn | ∃ r ∈ ranges, r.1 ≤ vpn * pgsize ∧ vpn * pgsize < r.2}

structure Unmaps (i : Nat) (ranges : List (Nat × Nat)) (m : MmStruct) (s t : Vm) : Prop where
  shrinks : Shrinks i s t
  trimmed : ∃ n, t.mm i = some n ∧ Trimmed (touched ranges) (inside ranges) m n
  unlinked : ∀ vpn ∈ inside ranges, ∀ p write cow, s.entry i vpn = .present p write cow → p ∉ t.fifo

theorem Unmaps.nil (alive : s.mm i = some m) : Unmaps i [] m s s := by
  refine ⟨.refl, ⟨m, alive, ?_⟩, by simp [inside]⟩
  convert Trimmed.refl using 1
  · simp [touched]
  · simp [inside]

theorem mmUnmapPages_spec {range : Nat × Nat} (h : s.Sound frames) (alive : s.mm i = some m)
    (done : s.mmUnmapPages i range = some t) : Unmaps i [range] m s t := by
  rw [mmUnmapPages] at done
  split at done
  · rename_i proper
    obtain ⟨first, same, unlinked⟩ := setUnswappables_spec h i (pagesOf range.1 range.2)
    obtain ⟨aligned, rest, n, now, trimmed⟩ := unmapRange_spec (first.sound h)
      ((congrFun same i).trans alive) done
    refine ⟨first.trans rest, ⟨n, now, ?_⟩, ?_⟩
    · convert trimmed using 1
      · simp [touched, proper]
      · simp [inside]
    · intro vpn mem p write cow there queued
      have mem : vpn ∈ pagesOf range.1 range.2 := by
        rw [mem_pagesOf aligned.1 aligned.2]
        simpa [inside] using mem
      exact unlinked vpn mem p write cow there (rest.fifo p queued).1
  · rename_i empty
    cases done
    have none := Unmaps.nil alive
    have noTables : touched [range] = touched [] := by
      simp [touched, empty]
    have noPages : inside [range] = inside [] := by
      ext vpn
      simp [inside]
      omega
    exact ⟨none.shrinks, by rw [noTables, noPages]; exact none.trimmed,
      by rw [noPages]; exact none.unlinked⟩

theorem unmapAll_spec {ranges : List (Nat × Nat)} (h : s.Sound frames) (alive : s.mm i = some m)
    (done : s.unmapAll i ranges = some t) : Unmaps i ranges m s t := by
  induction ranges generalizing s m with
  | nil =>
    cases done
    exact .nil alive
  | cons r ranges ih =>
    obtain ⟨u, ran, left⟩ := Option.bind_eq_some_iff.mp done
    obtain ⟨first, ⟨n, mid, trimmed⟩, unlinked⟩ := mmUnmapPages_spec h alive ran
    obtain ⟨rest, ⟨l, last, later⟩, unlinked'⟩ := ih (first.sound h) mid left
    refine ⟨first.trans rest, ⟨l, last, ?_⟩, ?_⟩
    · convert trimmed.trans later using 1
      · ext k
        simp [touched, or_and_right, exists_or]
      · ext vpn
        simp [inside, or_and_right, exists_or]
    · intro vpn mem p write cow there queued
      by_cases early : vpn ∈ inside [r]
      · exact unlinked vpn early p write cow there (rest.fifo p queued).1
      have late : vpn ∈ inside ranges := by
        simp only [inside, mem_cons, not_mem_nil, or_false, exists_eq_left] at mem early ⊢
        obtain ⟨range, rfl | mem, bounds⟩ := mem
        · exact absurd bounds early
        · exact ⟨range, mem, bounds⟩
      refine unlinked' vpn late p write cow ?_ queued
      rw [entry_of_mm mid, trimmed.kept vpn early, ← entry_of_mm alive]
      exact there

end Vm

open Vm

/-- What is left lies outside the ranges. -/
theorem Trimmed.left {ranges : List (Nat × Nat)} (shape : m.Shape)
    (trimmed : Trimmed (touched ranges) (inside ranges) m n) :
    (∀ vpn, n.pte vpn ≠ .none → m.vmas.Covers (vpn * pgsize) ∧
      ∀ r ∈ ranges, ¬ (r.1 ≤ vpn * pgsize ∧ vpn * pgsize < r.2)) ∧
    ∀ k, n.pde k ≠ none → ∃ a, m.vmas.Covers a ∧ a / (pgsize * tableSize) = k ∧
      ∀ r ∈ ranges, ¬ (r.1 ≤ a ∧ a < r.2) := by
  have entries (vpn : Nat) (named : n.pte vpn ≠ .none) : m.vmas.Covers (vpn * pgsize) ∧
      ∀ r ∈ ranges, ¬ (r.1 ≤ vpn * pgsize ∧ vpn * pgsize < r.2) := by
    have out : vpn ∉ inside ranges := fun mem => named (trimmed.cleared vpn mem)
    rw [trimmed.kept vpn out] at named
    exact ⟨shape.covered vpn named, fun r mem bounds => out ⟨r, mem, bounds⟩⟩
  refine ⟨entries, ?_⟩
  intro k there
  by_cases mem : k ∈ touched ranges
  · obtain ⟨vpn, within, named⟩ := (trimmed.used k mem).resolve_left there
    obtain ⟨covered, out⟩ := entries vpn named
    exact ⟨vpn * pgsize, covered, (table_of_page vpn).trans within, out⟩
  rw [trimmed.tables k mem] at there
  obtain ⟨a, covered, within⟩ := shape.used k there
  refine ⟨a, covered, within, fun r listed bounds => mem ⟨r, listed, ?_, ?_⟩⟩
  · exact Nat.lt_of_le_of_lt bounds.1 bounds.2
  · exact within ▸ mem_tablesOf bounds.1 bounds.2

namespace Vm

/-- The areas give up the ranges after their pages. -/
theorem Unmaps.vmas_moves {ranges : List (Nat × Nat)} {vmas : Vmas} {C : Prop} (h : s.Sound frames)
    (loud : A.loud) (alive : s.mm i = some m) (unmaps : Unmaps i ranges m s t)
    (kept : Vmas.Kept C m.vmas vmas ranges) : Moves A s (t.setVmas i vmas) := by
  obtain ⟨shrinks, ⟨n, now, trimmed⟩, -⟩ := unmaps
  obtain ⟨entries, tables⟩ := trimmed.left (h.shape.mm i m alive)
  have shape := (shrinks.sound h).shape.mm i n now
  have covers {a : Nat} (covered : m.vmas.Covers a) (out : ∀ r ∈ ranges, ¬ (r.1 ≤ a ∧ a < r.2)) :
      vmas.Covers a := by
    rcases kept.covers a covered with still | ⟨r, mem, bounds⟩
    · exact still
    · exact absurd bounds (out r mem)
  refine (shrinks.moves A loud).trans (Move.vmas i n vmas now ⟨kept.linked, ?_, shape.tabled, ?_⟩).moves
  · intro vpn named
    obtain ⟨covered, out⟩ := entries vpn named
    exact covers covered out
  · intro k there
    obtain ⟨a, covered, within, out⟩ := tables k there
    exact ⟨a, covers covered out, within⟩

theorem exitRange_of_bare {start stop : Nat} (alive : s.mm i = some m) (bare : ∀ k, m.pde k = none)
    (done : s.exitRange i start stop = some t) : t = s := by
  rw [exitRange] at done
  split at done
  · cases done
    induction tablesOf start stop with
    | nil => rfl
    | cons k ks ih =>
      simpa [alive, bare] using ih
  · cases done

theorem exitRanges_of_bare {vs : List Vma} (alive : s.mm i = some m) (bare : ∀ k, m.pde k = none)
    (done : vs.foldlM (fun s v => s.exitRange i v.start v.stop) s = some t) : t = s := by
  induction vs with
  | nil =>
    cases done
    rfl
  | cons v vs ih =>
    obtain ⟨u, ran, left⟩ := Option.bind_eq_some_iff.mp done
    cases exitRange_of_bare alive bare ran
    exact ih left

/-- The entry keeps the page off the replacement list when its address space ends: `exit_mmap`
    unlinks a page that is present and frees a hidden one that no other entry names. -/
def Unlinks (s : Vm) (p : Nat) : Pte → Prop
  | .present q _ _ => q = p
  | .hidden q _ _ => q = p ∧ s.ref p = 1
  | _ => False

instance (s : Vm) (p : Nat) : (e : Pte) → Decidable (s.Unlinks p e)
  | .present q _ _ => inferInstanceAs (Decidable (q = p))
  | .hidden q _ _ => inferInstanceAs (Decidable (q = p ∧ s.ref p = 1))
  | .none => inferInstanceAs (Decidable False)
  | .swap _ => inferInstanceAs (Decidable False)

/-- Every linked page that the address space owns is one that its end unlinks. -/
def ExitClear (s : Vm) (i : Nat) : Prop :=
  ∀ m ∈ s.mm i, ∀ p ∈ s.fifo, (s.frame p).praMm = some i →
    ∃ v ∈ m.vmas.mmapList, ∃ vpn ∈ pagesOf v.start v.stop, s.Unlinks p (m.pte vpn)

instance (s : Vm) (i : Nat) : Decidable (s.ExitClear i) :=
  inferInstanceAs (Decidable (∀ m ∈ s.mm i, ∀ p ∈ s.fifo, _ → _))

/-- The end of an address space leaves no page that it owns. -/
theorem unowned_of_clear {ranges : List (Nat × Nat)} (h : s.Sound frames) (alive : s.mm i = some m)
    (all : ranges = m.vmas.mmapList.map fun v => (v.start, v.stop)) (unmaps : Unmaps i ranges m s t)
    (empty : ∀ vpn, t.entry i vpn = .none) (clear : s.ExitClear i) :
    ∀ p ∈ t.fifo, (t.frame p).praMm ≠ some i := by
  intro p queued owned
  obtain ⟨mem, same⟩ := unmaps.shrinks.fifo p queued
  obtain ⟨v, listed, vpn, within, unlinks⟩ := clear m alive p mem (same ▸ owned)
  obtain ⟨-, low, high⟩ := (h.shape.mm i m alive).linked.fits v listed
  have inside : vpn ∈ inside ranges := by
    refine ⟨(v.start, v.stop), by rw [all]; exact mem_map_of_mem listed, ?_⟩
    exact (mem_pagesOf (Nat.mod_eq_zero_of_dvd low) (Nat.mod_eq_zero_of_dvd high)).mp within
  rw [← entry_of_mm alive] at unlinks
  cases there : s.entry i vpn with
  | none | swap slot => simp [there, Unlinks] at unlinks
  | present q write cow =>
    rw [there] at unlinks
    exact unmaps.unlinked vpn inside p write cow (unlinks ▸ there) queued
  | hidden q write cow =>
    rw [there] at unlinks
    obtain ⟨rfl, sole⟩ := unlinks
    -- the page is still named, but its only entry was the hidden one
    obtain ⟨o, books, -⟩ := h.books
    obtain ⟨o', books', -⟩ := (unmaps.shrinks.sound h).books
    have named : s.pages (i, vpn) = some q := by
      rw [pages, there]
      rfl
    have one : tally s.pages q = 1 := by
      have := (books.refs q (books.named _ q named)).1
      omega
    obtain ⟨x, still⟩ := (tally_pos (unmaps.shrinks.sound h).shape.sparse).mp
      (books'.refs q (books'.queued q queued)).2
    by_cases here : x.1 = i
    · rw [pages, here, empty] at still
      cases still
    · have before : s.pages x = some q := by
        rw [pages, entry_congr (unmaps.shrinks.others x.1 here).symm]
        exact still
      exact here (congrArg Prod.fst (eq_of_tally_one one before named))

theorem exitMm_moves (h : s.Sound frames) (loud : A.loud) (clear : A.orphan ∨ s.ExitClear i)
    (done : s.exitMm i = some t) : Moves A s t := by
  rw [exitMm] at done
  split at done
  · cases done
  rename_i m alive
  obtain ⟨u, ran, rest⟩ := Option.bind_eq_some_iff.mp done
  obtain ⟨v, freed, last⟩ := Option.bind_eq_some_iff.mp rest
  have unmaps : Unmaps i (m.vmas.mmapList.map fun v => (v.start, v.stop)) m s u := by
    apply unmapAll_spec h alive
    rw [unmapAll, foldlM_map]
    exact ran
  obtain ⟨n, now, trimmed⟩ := unmaps.trimmed
  obtain ⟨entries, tables⟩ := trimmed.left (h.shape.mm i m alive)
  have outside {a : Nat} (covered : m.vmas.Covers a) (out : ∀ r ∈ m.vmas.mmapList.map fun v =>
      (v.start, v.stop), ¬ (r.1 ≤ a ∧ a < r.2)) : False := by
    obtain ⟨v, listed, holds⟩ := covered
    exact out _ (mem_map_of_mem listed) holds
  have empty (vpn : Nat) : n.pte vpn = .none := by
    by_contra named
    exact outside (entries vpn named).1 (entries vpn named).2
  have bare (k : Nat) : n.pde k = none := by
    by_contra there
    obtain ⟨a, covered, -, out⟩ := tables k there
    exact outside covered out
  cases exitRanges_of_bare now bare freed
  cases last
  refine (unmaps.shrinks.moves A loud).trans (Move.moves ?_)
  rw [← trimmed.pgdir]
  refine .destroy loud i n now empty bare (clear.imp id fun clear => ?_)
  exact unowned_of_clear h alive rfl unmaps (fun vpn => by rw [entry_of_mm now, empty]) clear

end Vm

end Procore.Mm
