import Procore.Mm.AreaFlags
import Procore.Mm.Slots

/-! # What `munmap` and `mprotect` leave of an address space

An address has the flags of its area and the byte behind its entry. `mm_mprotect`
changes flags on the range and no byte. `mm_unmap` clears the entries of an area
before it asks for the memory to divide the area, so that a call that fails for
want of memory has taken the pages away.
-/

namespace Procore.Mm

open Procore.Lib Option MmStruct Vmas
open Function

namespace Vm

variable {s t u : Vm} {i j a addr len vpn : Nat} {m n : MmStruct} {flags : VmFlags} {mem : Bool}
  {gone gone' : Set Nat}

def flagsAt (s : Vm) (i a : Nat) : Option VmFlags := (s.mm i).bind fun m => m.vmas.flagsAt a

def byteAt (s : Vm) (i a : Nat) : UInt8 := s.view (s.entry i (a / pgsize)) (a % pgsize)

/-! ## `mm_mprotect` -/

theorem flagsAt_eq_map : s.flagsAt i a = ((s.mm i).map vmas).bind fun v => v.flagsAt a := by
  rw [flagsAt, bind_map]
  rfl

theorem flagsAt_of_mm (alive : s.mm i = some m) : s.flagsAt i a = m.vmas.flagsAt a := by
  rw [flagsAt, alive, bind_some]

/-- An entry changes its bits and keeps its page. -/
theorem protectPte_keeps (s : Vm) (i : Nat) (flags : VmFlags) (vpn : Nat) :
    (∀ j, ((s.protectPte i flags vpn).mm j).map vmas = (s.mm j).map vmas) ∧
      ∀ j v, (s.protectPte i flags vpn).view ((s.protectPte i flags vpn).entry j v) =
        s.view (s.entry j v) := by
  have keeps {e : Pte} (same : s.view e = s.view (s.entry i vpn)) :
      (∀ j, ((s.setEntry i vpn e).mm j).map vmas = (s.mm j).map vmas) ∧
        ∀ j v, (s.setEntry i vpn e).view ((s.setEntry i vpn e).entry j v) = s.view (s.entry j v) := by
    constructor
    · intro j
      rw [setEntry, mm_setMm]
      split_ifs with here
      · rw [here, map_map]
        rfl
      · rfl
    · intro j v
      change s.view _ = _
      rw [entry_setEntry]
      split_ifs with here
      · rw [same, here.2.1, here.2.2]
      · rfl
  rw [protectPte]
  split
  · rename_i there
    split <;> exact keeps (by rw [there]; rfl)
  · rename_i there
    split
    · exact ⟨fun _ => rfl, fun _ _ => rfl⟩
    · exact keeps (by rw [there]; rfl)
  · exact ⟨fun _ => rfl, fun _ _ => rfl⟩

theorem protectPtes_keep (i : Nat) (flags : VmFlags) (vpns : List Nat) :
    (∀ j, ((vpns.foldl (fun s vpn => s.protectPte i flags vpn) s).mm j).map vmas =
      (s.mm j).map vmas) ∧
    ∀ j v, (vpns.foldl (fun s vpn => s.protectPte i flags vpn) s).view
      ((vpns.foldl (fun s vpn => s.protectPte i flags vpn) s).entry j v) = s.view (s.entry j v) := by
  induction vpns generalizing s with
  | nil => exact ⟨fun _ => rfl, fun _ _ => rfl⟩
  | cons vpn vpns ih =>
    obtain ⟨vmas, views⟩ := protectPte_keeps s i flags vpn
    obtain ⟨vmas', views'⟩ := ih
    exact ⟨fun j => (vmas' j).trans (vmas j), fun j v => (views' j v).trans (views j v)⟩

/-- A call that succeeds gives the addresses of the range the new flags, and one that fails
    changes the flags of no address. Memory stays as it is. -/
theorem mprotect_exact {memLeft memRight : Bool} (alive : s.mm i = some m) (linked : m.vmas.Linked)
    (ordered : Ordered m.vmas.mmapList) :
    ∃ t, s.mmMprotect i addr len flags memLeft memRight = some t ∧
      (∀ j a, t.flagsAt j a =
        if j = i ∧ (m.vmas.mmMprotect addr len flags memLeft memRight).1 = .ok ∧ addr ≤ a ∧
          a < roundUp ((addr + len) % word) then some flags else s.flagsAt j a) ∧
      ∀ j a, t.byteAt j a = s.byteAt j a := by
  have areas (a : Nat) := mmMprotect_flagsAt (a := a) linked ordered
    (Prod.mk.eta (p := m.vmas.mmMprotect addr len flags memLeft memRight)).symm
  have changed (j a : Nat) : (s.setVmas i (m.vmas.mmMprotect addr len flags memLeft memRight).2).flagsAt j a =
      if j = i ∧ (m.vmas.mmMprotect addr len flags memLeft memRight).1 = .ok ∧ addr ≤ a ∧
        a < roundUp ((addr + len) % word) then some flags else s.flagsAt j a := by
    by_cases here : j = i
    · subst here
      rw [flagsAt_of_mm (mm_setVmas alive), areas a, flagsAt_of_mm alive]
      simp
    · rw [if_neg fun both => here both.1, flagsAt, setVmas, mm_setMm, if_neg here]
      rfl
  rw [mmMprotect, alive]
  dsimp only
  split
  · obtain ⟨vmas, views⟩ := protectPtes_keep i flags
      (pagesOf addr (roundUp ((addr + len) % word)))
    refine ⟨_, rfl, fun j a => ?_, fun j a => ?_⟩
    · rw [← changed, flagsAt_eq_map, flagsAt_eq_map, vmas]
    · rw [byteAt, views, entry_setVmas]
      rfl
  · refine ⟨_, rfl, changed, fun j a => ?_⟩
    rw [byteAt, entry_setVmas]
    rfl

/-- One area of three pages. The middle page is there. -/
def threePagesMm : MmStruct where
  vmas := { create userBase with
    mmapList := [⟨0, 0x200000, 0x203000, 3⟩]
    mapCount := 1
    next := 1 }
  pgdir := 1
  pde k := if k = 0 then some 2 else none
  pte vpn := if vpn = 513 then .present 3 true false else .none

def threePages : Vm := { Vm.boot [] 0 with mm := fun i => if i = 0 then some threePagesMm else none }

theorem threePages_shape : threePagesMm.Shape ∧ Ordered threePagesMm.vmas.mmapList := by
  refine ⟨⟨⟨?_, by decide, ?_, ?_, ?_, rfl⟩, ?_, ?_, ?_⟩, ordered_single⟩
  all_goals simp [threePagesMm, create, Vma.Fits, Covers, Vma.Holds]
  · decide
  · decide
  · decide
  · exact ⟨0x200000, by decide, .inr (by decide)⟩

theorem mprotect_exact_threePages : ∃ t, threePages.mmMprotect 0 0x201000 0x1000 1 true true = some t ∧
    t.flagsAt 0 0x200fff = some 3 ∧ t.flagsAt 0 0x201fff = some 1 ∧ t.flagsAt 0 0x202000 = some 3 := by
  obtain ⟨t, done, flags, -⟩ := mprotect_exact (s := threePages) (i := 0) rfl threePages_shape.1.linked
    threePages_shape.2
  exact ⟨t, done, by rw [flags]; decide, by rw [flags]; decide, by rw [flags]; decide⟩

/-! ## `mm_unmap` -/

/-- The entries of the pages `gone` are cleared, and memory stays as it is. -/
structure Clears (i : Nat) (gone : Set Nat) (s t : Vm) : Prop where
  others : ∀ j, j ≠ i → t.mm j = s.mm j
  data : t.data = s.data
  slotData : t.slotData = s.slotData
  mm : ∀ m, s.mm i = some m → (∀ vpn, m.pte vpn ≠ .none → m.pde (vpn / tableSize) ≠ none) →
    ∃ n, t.mm i = some n ∧ n.vmas = m.vmas ∧ (∀ vpn, n.pte vpn ≠ .none → n.pde (vpn / tableSize) ≠ none) ∧
      (∀ vpn ∈ gone, n.pte vpn = .none) ∧ ∀ vpn, vpn ∉ gone → n.pte vpn = m.pte vpn

theorem Clears.of_mm (mm : t.mm = s.mm) (data : t.data = s.data) (slotData : t.slotData = s.slotData) :
    Clears i ∅ s t :=
  ⟨fun j _ => by rw [mm], data, slotData, fun m alive tabled => ⟨m, by rw [mm, alive], rfl, tabled, by simp⟩⟩

theorem Clears.trans (first : Clears i gone s t) (later : Clears i gone' t u) :
    Clears i (gone ∪ gone') s u where
  others j other := (later.others j other).trans (first.others j other)
  data := later.data.trans first.data
  slotData := later.slotData.trans first.slotData
  mm m alive tabled := by
    obtain ⟨n, now, vmas, tabled, cleared, kept⟩ := first.mm m alive tabled
    obtain ⟨l, last, vmas', tabled', cleared', kept'⟩ := later.mm n now tabled
    refine ⟨l, last, vmas'.trans vmas, tabled', ?_, ?_⟩
    · intro vpn mem
      by_cases again : vpn ∈ gone'
      · exact cleared' vpn again
      · rw [kept' vpn again, cleared vpn (mem.resolve_right again)]
    · intro vpn out
      rw [Set.mem_union, not_or] at out
      rw [kept' vpn out.2, kept vpn out.1]

theorem clears_foldl {f : Vm → Nat → Vm} {pages : Nat → Set Nat} (step : ∀ s x, Clears i (pages x) s (f s x))
    (xs : List Nat) (s : Vm) : Clears i {vpn | ∃ x ∈ xs, vpn ∈ pages x} s (xs.foldl f s) := by
  induction xs generalizing s with
  | nil => simpa using Clears.of_mm rfl rfl rfl
  | cons x xs ih =>
    rw [List.foldl_cons]
    convert (step s x).trans (ih (f s x)) using 1
    ext vpn
    simp

theorem unmapPte_clears (s : Vm) (i vpn : Nat) : Clears i {vpn} s (s.unmapPte i vpn) := by
  refine ⟨fun j other => ?_, ?_, ?_, fun m alive tabled => ?_⟩
  · rw [unmapPte_eq, setEntry, mm_setMm, if_neg other, mm_dropEntry]
  · rw [unmapPte_eq]
    exact data_dropEntry
  · rw [unmapPte_eq]
    exact slotData_dropEntry
  · refine ⟨_, mm_unmapPte alive, rfl, fun v named => ?_, ?_, fun v out => ?_⟩
    · by_cases here : v = vpn
      · simp [here] at named
      · simp only [update_of_ne here] at named
        exact tabled v named
    · simp
    · exact update_of_ne out _ _

theorem unmapTable_clears (s : Vm) (i k : Nat) (pages : List Nat) :
    Clears i {vpn | vpn ∈ pages ∧ vpn / tableSize = k} s (s.unmapTable i k pages) := by
  rw [unmapTable]
  split
  · rename_i absent
    refine ⟨fun _ _ => rfl, rfl, rfl, fun m alive tabled => ⟨m, alive, rfl, tabled, ?_, fun _ _ => rfl⟩⟩
    rintro vpn ⟨-, rfl⟩
    rw [alive, bind_some] at absent
    by_contra named
    exact tabled vpn named absent
  · rename_i table there
    have loop := clears_foldl (fun s vpn => unmapPte_clears s i vpn)
      (pages.filter fun vpn => vpn / tableSize = k) s
    have same : {vpn | ∃ x ∈ pages.filter fun vpn => vpn / tableSize = k, vpn ∈ ({x} : Set Nat)} =
        {vpn | vpn ∈ pages ∧ vpn / tableSize = k} := by
      simp
    rw [same] at loop
    dsimp only
    split_ifs with empty
    · rw [← Set.union_empty {vpn | _}]
      generalize (pages.filter fun vpn => vpn / tableSize = k).foldl (fun s vpn => s.unmapPte i vpn) s = u at *
      refine loop.trans ⟨fun j other => ?_, rfl, rfl, fun m alive tabled => ?_⟩
      · rw [setTable, mm_setMm, if_neg other, mm_freePage]
      have now : ((u.freePage table).setTable i k none).mm i = some { m with
          pde := update m.pde k none
          pte := fun vpn => if vpn / tableSize = k then .none else m.pte vpn } := by
        rw [setTable, mm_setMm, if_pos rfl, mm_freePage, alive]
        rfl
      refine ⟨_, now, rfl, fun vpn named => ?_, by simp, fun vpn _ => ?_⟩
      · by_cases within : vpn / tableSize = k
        · simp [within] at named
        · simp only [within] at named
          dsimp only
          rw [update_of_ne within]
          exact tabled vpn named
      · dsimp only
        split_ifs with within
        · rw [← entry_of_mm alive, empty vpn (mem_table.mpr within)]
        · rfl
    · exact loop

theorem unmapRange_clears {start stop : Nat} (done : s.unmapRange i start stop = some t) :
    Clears i {vpn | start ≤ vpn * pgsize ∧ vpn * pgsize < stop} s t := by
  obtain ⟨valid, ⟨⟩⟩ := ite_none_right_eq_some.mp done
  convert clears_foldl (fun s k => unmapTable_clears s i k (pagesOf start stop)) (tablesOf start stop) s
    using 1
  ext vpn
  simp only [mem_pagesOf valid.1 valid.2.1]
  constructor
  · intro inside
    exact ⟨_, table_of_page vpn ▸ mem_tablesOf inside.1 inside.2, inside, rfl⟩
  · rintro ⟨k, -, inside, -⟩
    exact inside

variable {ranges : List (Nat × Nat)}

theorem unmapAll_clears (done : s.unmapAll i ranges = some t) : Clears i (inside ranges) s t := by
  induction ranges generalizing s with
  | nil =>
    cases done
    simpa [inside] using Clears.of_mm rfl rfl rfl
  | cons r ranges ih =>
    rw [unmapAll, List.foldlM_cons] at done
    obtain ⟨u, ran, left⟩ := bind_eq_some_iff.mp done
    have rest := ih left
    rw [mmUnmapPages] at ran
    split_ifs at ran with empty
    · have quiet (s : Vm) (vpn : Nat) : Clears i ∅ s (s.setUnswappable i vpn) := by
        rw [setUnswappable]
        split
        · split
          · exact .of_mm rfl rfl rfl
          · exact .of_mm rfl rfl rfl
        · exact .of_mm rfl rfl rfl
      convert ((clears_foldl quiet (pagesOf r.1 r.2) s).trans (unmapRange_clears ran)).trans rest using 1
      ext vpn
      simp [inside]
    · cases ran
      convert rest using 1
      ext vpn
      simp [inside]
      omega

theorem unmapAll_isSome (valid : ∀ r ∈ ranges, r.1 % pgsize = 0 ∧ r.2 % pgsize = 0 ∧ UserAccess r.1 r.2) :
    ∃ t, s.unmapAll i ranges = some t := by
  induction ranges generalizing s with
  | nil => exact ⟨s, rfl⟩
  | cons r ranges ih =>
    obtain ⟨low, high, user⟩ := valid r (.head _)
    rw [unmapAll, List.foldlM_cons, mmUnmapPages, if_pos user.2.1, unmapRange, if_pos ⟨low, high, user⟩]
    exact ih fun r mem => valid r (.tail _ mem)

/-- Flags, entry and byte of the address are the same. -/
def SameAt (s t : Vm) (j a : Nat) : Prop :=
  t.flagsAt j a = s.flagsAt j a ∧ t.entry j (a / pgsize) = s.entry j (a / pgsize) ∧
    t.byteAt j a = s.byteAt j a

/-- The pages are cleared and the areas replaced. -/
theorem Clears.setVmas (clears : Clears i gone s u) (alive : s.mm i = some m) (shape : m.Shape) (v : Vmas) :
    (∀ a, (u.setVmas i v).flagsAt i a = v.flagsAt a) ∧
      (∀ vpn, vpn ∈ gone ∨ m.pte vpn = .none → (u.setVmas i v).entry i vpn = .none) ∧
      ∀ j a, (j = i → v.flagsAt a = m.vmas.flagsAt a) → (j = i → a / pgsize ∉ gone ∨ m.pte (a / pgsize) = .none) →
        SameAt s (u.setVmas i v) j a := by
  obtain ⟨n, now, -, -, cleared, kept⟩ := clears.mm m alive shape.tabled
  have flags (a : Nat) : (u.setVmas i v).flagsAt i a = v.flagsAt a := flagsAt_of_mm (mm_setVmas now)
  refine ⟨flags, ?_, fun j a areas entries => ?_⟩
  · intro vpn clear
    rw [entry_setVmas, entry_of_mm now]
    by_cases mem : vpn ∈ gone
    · exact cleared vpn mem
    · rw [kept vpn mem, clear.resolve_left mem]
  · have entry : (u.setVmas i v).entry j (a / pgsize) = s.entry j (a / pgsize) := by
      rw [entry_setVmas]
      by_cases here : j = i
      · subst here
        rw [entry_of_mm now, entry_of_mm alive]
        by_cases mem : a / pgsize ∈ gone
        · rw [cleared _ mem, (entries rfl).resolve_left fun out => out mem]
        · exact kept _ mem
      · exact entry_congr (clears.others j here)
    refine ⟨?_, entry, ?_⟩
    · by_cases here : j = i
      · subst here
        rw [flags, areas rfl, flagsAt_of_mm alive]
      · rw [flagsAt, Vm.setVmas, mm_setMm, if_neg here, clears.others j here, flagsAt]
    · rw [byteAt, byteAt, entry]
      exact congrFun (view_congr _ (fun p _ => congrFun clears.data p) fun k _ => congrFun clears.slotData k) _

def RangeOk (addr len : Nat) : Prop :=
  len ≠ 0 ∧ addr % pgsize = 0 ∧ addr ≤ (addr + len) % word ∧ UserAccess addr (roundUp ((addr + len) % word))

instance (addr len : Nat) : Decidable (RangeOk addr len) := inferInstanceAs (Decidable (_ ∧ _))

/-- `mm_unmap` takes the range out, or nothing changes. -/
def UnmapsExactly (s : Vm) (i addr len : Nat) (mem : Bool) : Prop :=
  ∃ m t, s.mm i = some m ∧ s.mmUnmap i addr len mem = some t ∧
    if (m.vmas.mmUnmap addr len mem).1 = .ok then
      ∀ j a, if j = i ∧ addr ≤ a ∧ a < roundUp ((addr + len) % word) then
        t.flagsAt j a = none ∧ t.entry j (a / pgsize) = .none else SameAt s t j a
    else ∀ j a, SameAt s t j a

theorem mmUnmap_areas (addr len : Nat) (mem : Bool) (v : Vmas) : v.mmUnmap addr len mem =
    if RangeOk addr len then unmapLoop addr (roundUp ((addr + len) % word)) mem v [] v.mmapList else (.inval, v, []) := by
  rw [Vmas.mmUnmap]
  by_cases ok : RangeOk addr len
  · rw [if_pos ok, if_neg (by have := ok; simp only [RangeOk] at this; omega)]
    exact if_neg fun bad => bad.elim (Nat.not_le.mpr ok.2.2.2.2.1) fun bad => bad ok.2.2.2
  split_ifs with valid
  · rfl
  · refine if_pos (.inr fun user => ok ?_)
    simp only [not_or, Decidable.not_not, Nat.not_lt] at valid
    exact ⟨valid.1, valid.2.1, valid.2.2, user⟩

variable {unmapped : List (Nat × Nat)} {v : Vmas}

theorem mmUnmap_of_areas {code : Code} (alive : s.mm i = some m)
    (areas : m.vmas.mmUnmap addr len mem = (code, v, unmapped)) (ran : s.unmapAll i unmapped = some u) :
    s.mmUnmap i addr len mem = some (u.setVmas i v) := by
  rw [mmUnmap, alive]
  simp [areas, ran]

section Range

variable {stop : Nat}

theorem unmapAll_of_ranges (user : UserAccess addr stop)
    (ranges : ∀ r ∈ unmapped, addr ≤ r.1 ∧ r.1 < r.2 ∧ r.2 ≤ stop ∧ pgsize ∣ r.1 ∧ pgsize ∣ r.2) :
    ∃ u, s.unmapAll i unmapped = some u := by
  refine unmapAll_isSome fun r mem => ?_
  obtain ⟨begins, proper, ends, whole, wholeEnd⟩ := ranges r mem
  have first := user.1
  have last := user.2.2
  exact ⟨Nat.mod_eq_zero_of_dvd whole, Nat.mod_eq_zero_of_dvd wholeEnd, by omega, proper, by omega⟩

/-- The areas and the pages of the range are gone, and nothing else is. -/
theorem gone_exactly (alive : s.mm i = some m) (shape : m.Shape)
    (ordered : Ordered m.vmas.mmapList) (whole : pgsize ∣ addr) (wholeEnd : pgsize ∣ stop)
    (left : Gone addr stop [] m.vmas.mmapList v unmapped) (ran : s.unmapAll i unmapped = some u) (j a : Nat) :
    if j = i ∧ addr ≤ a ∧ a < stop then
      (u.setVmas i v).flagsAt j a = none ∧ (u.setVmas i v).entry j (a / pgsize) = .none
    else SameAt s (u.setVmas i v) j a := by
  obtain ⟨flags, cleared, same⟩ := (unmapAll_clears ran).setVmas alive shape v
  have page (a : Nat) (inRange : addr ≤ a ∧ a < stop) :
      addr ≤ a / pgsize * pgsize ∧ a / pgsize * pgsize < stop := by
    simp only [pgsize] at *
    omega
  split
  · rename_i here
    obtain ⟨rfl, inRange⟩ := here
    constructor
    · rw [flags, eq_none_iff_forall_ne_some]
      intro f found
      rw [flagsAt_eq_some left.ordered, left.stay] at found
      rcases found with none | said
      · exact says_nil none
      · exact said.2 inRange
    · apply cleared
      by_contra mapped
      rw [not_or] at mapped
      exact mapped.1 ((left.covers _).mpr ⟨page a inRange, shape.covered _ mapped.2⟩)
  · refine same j a (fun here => ?_) fun here => .inl ?_
    · refine flagsAt_congr ordered left.ordered fun f => ?_
      rw [left.stay]
      have := says_nil (a := a) (f := f)
      tauto
    · rintro ⟨r, mem, begins, ends⟩
      obtain ⟨low', -, high', -⟩ := left.ranges r mem
      simp only [pgsize] at *
      omega

/-- The pages are gone and the areas are not: nothing changes only if no page was there. -/
theorem cleared_same_iff (alive : s.mm i = some m) (shape : m.Shape)
    (areas : ∀ a, v.flagsAt a = m.vmas.flagsAt a) (ran : s.unmapAll i [(addr, stop)] = some u) :
    (∀ j a, SameAt s (u.setVmas i v) j a) ↔
      ¬ ∃ vpn, addr ≤ vpn * pgsize ∧ vpn * pgsize < stop ∧ m.pte vpn ≠ .none := by
  obtain ⟨-, cleared, same⟩ := (unmapAll_clears ran).setVmas alive shape v
  constructor
  · rintro rest ⟨vpn, begins, ends, named⟩
    have entry := (rest i (vpn * pgsize)).2.1
    rw [Nat.mul_div_cancel _ (by decide : 0 < pgsize), entry_of_mm alive,
      cleared vpn (.inl ⟨_, (.head _), begins, ends⟩)] at entry
    exact named entry.symm
  · intro fine j a
    refine same j a (fun _ => areas a) fun here => ?_
    by_contra mapped
    rw [not_or, not_not] at mapped
    obtain ⟨⟨r, mem, begins, ends⟩, named⟩ := mapped
    cases List.mem_singleton.mp mem
    exact fine ⟨a / pgsize, begins, ends, named⟩

end Range

/-- Only a call that cannot divide an area around pages that are mapped goes wrong. -/
theorem unmaps_exactly_iff (alive : s.mm i = some m) (shape : m.Shape) (ordered : Ordered m.vmas.mmapList) :
    s.UnmapsExactly i addr len mem ↔ ¬ (mem = false ∧ RangeOk addr len ∧
      Spans addr (roundUp ((addr + len) % word)) m.vmas.mmapList ∧
      ∃ vpn, addr ≤ vpn * pgsize ∧ vpn * pgsize < roundUp ((addr + len) % word) ∧ m.pte vpn ≠ .none) := by
  rw [UnmapsExactly]
  have wholeEnd := roundUp_dvd ((addr + len) % word)
  have areas := mmUnmap_areas addr len mem m.vmas
  by_cases ok : RangeOk addr len
  · rw [if_pos ok] at areas
    obtain ⟨-, low, -, user⟩ := id ok
    generalize roundUp ((addr + len) % word) = stop at *
    have whole := Nat.dvd_of_mod_eq_zero low
    have proper (v : Vma) (mem : v ∈ m.vmas.mmapList) : v.Proper :=
      ⟨(shape.linked.fits v mem).1.2.1, (shape.linked.fits v mem).2⟩
    generalize loop : unmapLoop addr stop mem m.vmas [] m.vmas.mmapList = r at areas
    obtain ⟨code, v, unmapped⟩ := r
    have sorted : Ordered ([] ++ m.vmas.mmapList) := ordered
    rcases unmapLoop_cases user.2.1 whole wholeEnd sorted proper loop with
      ⟨fails, spans, rfl, rfl, rfl⟩ | ⟨splits, rfl, left⟩
    · have range : ∀ r ∈ [(addr, stop)], addr ≤ r.1 ∧ r.1 < r.2 ∧ r.2 ≤ stop ∧ pgsize ∣ r.1 ∧
          pgsize ∣ r.2 := by simpa using ⟨user.2.1, whole, wholeEnd⟩
      obtain ⟨u, ran⟩ := unmapAll_of_ranges user range
      have done := mmUnmap_of_areas alive areas ran
      have same := cleared_same_iff alive shape (fun _ => rfl) ran
      constructor
      · rintro ⟨m', t, alive', done', rest⟩ ⟨-, -, -, mapped⟩
        obtain rfl := some.inj (alive.symm.trans alive')
        obtain rfl := some.inj (done.symm.trans done')
        rw [areas, if_neg (by simp)] at rest
        exact same.mp rest mapped
      · intro fine
        refine ⟨m, _, alive, done, ?_⟩
        rw [areas, if_neg (by simp)]
        exact same.mpr fun mapped => fine ⟨fails, ok, spans, mapped⟩
    · obtain ⟨u, ran⟩ := unmapAll_of_ranges user left.ranges
      refine iff_of_true ⟨m, _, alive, mmUnmap_of_areas alive areas ran, ?_⟩ fun bad =>
        splits ⟨bad.1, bad.2.2.1⟩
      rw [areas, if_pos rfl]
      exact gone_exactly alive shape ordered whole wholeEnd left ran
  · rw [if_neg ok] at areas
    refine iff_of_true ⟨m, _, alive, mmUnmap_of_areas alive areas rfl, ?_⟩ fun both => ok both.2.1
    rw [areas, if_neg (by simp)]
    intro j a
    have same := (Clears.of_mm rfl rfl rfl).setVmas alive shape m.vmas
    exact same.2.2 j a (fun _ => rfl) fun _ => .inl id

theorem unmaps_exactly_threePages : threePages.UnmapsExactly 0 0x201000 0x1000 true :=
  (unmaps_exactly_iff rfl threePages_shape.1 threePages_shape.2).mpr
    fun bad => Bool.noConfusion bad.1

/-- A call that cannot divide an area has taken the byte 7 away. -/
theorem failed_unmap_loses_byte : ∃ s t, runFrom Vm.step (boot [10, 11, 12, 13] 5)
    [.create userBase [], .mmap 0 userBase 0x3000 3 true, .fault 0 0x201000 false true [],
      .store 0 0x201000 7] = some s ∧
    (s.mm 0).map (fun m => (m.vmas.mmUnmap 0x201000 0x1000 false).1) = some .noMem ∧
    s.mmUnmap 0 0x201000 0x1000 false = some t ∧ s.byteAt 0 0x201000 = 7 ∧ t.byteAt 0 0x201000 = 0 ∧
    ¬ s.UnmapsExactly 0 0x201000 0x1000 false := by
  have ends : (runFrom Vm.step (boot [10, 11, 12, 13] 5)
      [.create userBase [], .mmap 0 userBase 0x3000 3 true, .fault 0 0x201000 false true [],
        .store 0 0x201000 7]).any (fun s =>
      (s.mm 0).map (fun m => (m.vmas.mmUnmap 0x201000 0x1000 false).1) = some .noMem ∧
      s.byteAt 0 0x201000 = 7 ∧ (s.mmUnmap 0 0x201000 0x1000 false).any fun t =>
        t.byteAt 0 0x201000 = 0) = true := by decide +kernel
  obtain ⟨s, run, facts⟩ := (any_eq_true _ _).mp ends
  obtain ⟨code, before, unmapped⟩ := of_decide_eq_true facts
  obtain ⟨t, done, after⟩ := (any_eq_true _ _).mp unmapped
  have after := of_decide_eq_true after
  refine ⟨s, t, run, code, done, before, after, ?_⟩
  rintro ⟨m, t', alive, done', rest⟩
  obtain rfl := some.inj (done.symm.trans done')
  rw [alive, map_some] at code
  rw [some.inj code, if_neg (by decide)] at rest
  have same := (rest 0 0x201000).2.2
  rw [before, after] at same
  exact absurd same (by decide)

end Vm

end Procore.Mm
