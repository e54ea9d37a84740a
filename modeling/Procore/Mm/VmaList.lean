import Mathlib.Data.List.TakeWhile
import Procore.Mm.Vma

/-! # The areas stay sorted and disjoint

Every call replaces at most one area at a time by smaller ones, puts a new area
into a gap or moves the end of the heap. `Linked` says which areas the pointers
name and `Ordered` how the areas lie; each has one rule for a replacement.
Lowering the program break sets the end of `brk_vma` without looking at the
areas behind it, which may lie below the new end after `mprotect` has divided
the heap.
-/

namespace Procore.Mm

open Procore.Lib List Option Vmas
open Function

theorem roundDown_dvd (a : Nat) : pgsize ∣ roundDown a := Nat.dvd_sub_mod a

theorem roundUp_dvd (a : Nat) : pgsize ∣ roundUp a := roundDown_dvd _

variable {a : Nat}

theorem roundDown_of_dvd (whole : pgsize ∣ a) : roundDown a = a := by
  simp [roundDown, Nat.mod_eq_zero_of_dvd whole]

theorem roundUp_lt (a : Nat) : roundUp a + (pgsize - 1) < word := by
  simp only [roundUp, roundDown, pgsize, word] at *
  omega

theorem roundUp_of_dvd (whole : pgsize ∣ a) (small : a + (pgsize - 1) < word) : roundUp a = a := by
  rw [roundUp, Nat.mod_eq_of_lt small]
  simp only [roundDown, pgsize] at *
  omega

/-- Whole pages, and at least one. -/
def Vma.Proper (v : Vma) : Prop := v.start < v.stop ∧ pgsize ∣ v.start ∧ pgsize ∣ v.stop

/-- The areas are sorted, proper and counted, and the list has the cached one and the heap. -/
structure Vmas.WellFormed (s : Vmas) : Prop where
  sorted : s.mmapList.Pairwise fun v w => v.stop ≤ w.start
  proper : ∀ v ∈ s.mmapList, v.Proper
  count : s.mapCount = s.mmapList.length
  cache : ∀ id ∈ s.mmapCache, ∃ v ∈ s.mmapList, v.id = id
  heap : ∀ id ∈ s.brkVma, ∃ v ∈ s.mmapList, v.id = id

/-- Disjoint areas in ascending order. -/
def Ordered (vs : List Vma) : Prop := vs.Pairwise fun v w => v.stop ≤ w.start

/-- Whole pages of the user's addresses, and at least one. -/
def Vma.Fits (v : Vma) : Prop := UserAccess v.start v.stop ∧ pgsize ∣ v.start ∧ pgsize ∣ v.stop

def Vma.Holds (v : Vma) (a : Nat) : Prop := v.start ≤ a ∧ a < v.stop

/-- The areas have distinct addresses, and `mmap_cache` and `brk_vma` are among them. The
    heap begins at `start_brk` and ends at the program break or before it. -/
structure Vmas.Linked (s : Vmas) : Prop where
  fits : ∀ v ∈ s.mmapList, v.Fits
  distinct : (s.mmapList.map Vma.id).Nodup
  fresh : ∀ v ∈ s.mmapList, v.id < s.next
  cache : ∀ id ∈ s.mmapCache, id ∈ s.mmapList.map Vma.id
  heap : ∀ id ∈ s.brkVma, ∃ v ∈ s.mmapList,
    v.id = id ∧ v.start = roundUp s.startBrk ∧ v.stop ≤ roundUp s.brk
  count : s.mapCount = s.mmapList.length

section

variable {before after old parts vs : List Vma} {v : Vma} {s t : Vmas} {addr : Nat}

/-- Areas between those before and those behind take the place of others. -/
theorem Ordered.replace (h : Ordered (before ++ old ++ after)) (new : Ordered parts)
    (left : ∀ p ∈ parts, ∀ a ∈ before, a.stop ≤ p.start)
    (right : ∀ p ∈ parts, ∀ b ∈ after, p.stop ≤ b.start) : Ordered (before ++ parts ++ after) := by
  simp only [Ordered, pairwise_append, mem_append] at h ⊢
  refine ⟨⟨h.1.1, new, fun a mem p part => left p part a mem⟩, h.2.1, ?_⟩
  rintro a (mem | part) b behind
  · exact h.2.2 a (.inl mem) b behind
  · exact right a part b behind

theorem Ordered.refine (h : Ordered (before ++ v :: after)) (new : Ordered parts)
    (inside : ∀ p ∈ parts, v.start ≤ p.start ∧ p.stop ≤ v.stop) :
    Ordered (before ++ parts ++ after) := by
  have whole : Ordered (before ++ [v] ++ after) := by simpa using h
  simp only [Ordered, pairwise_append, pairwise_cons, mem_cons] at h
  apply whole.replace new
  · intro p part a mem
    have := h.2.2 a mem v (.inl rfl)
    have := inside p part
    omega
  · intro p part b behind
    have := h.2.1.1 b behind
    have := inside p part
    omega

theorem ordered_nil : Ordered [] := Pairwise.nil

theorem ordered_single : Ordered [v] := pairwise_singleton _ _

theorem ordered_pair {w : Vma} (apart : v.stop ≤ w.start) : Ordered [v, w] := by
  simpa [Ordered] using apart

theorem Ordered.below {w : Vma} (h : Ordered (v :: vs)) (mem : w ∈ vs) : v.stop ≤ w.start :=
  (pairwise_cons.mp h).1 w mem

namespace Vmas

/-- Other areas take the place of some. An area that stays at its address keeps the
    pointers to it. -/
theorem Linked.replace (h : s.Linked) (before old parts after : List Vma)
    (list : s.mmapList = before ++ old ++ after) (list' : t.mmapList = before ++ parts ++ after)
    (fits : ∀ p ∈ parts, p.Fits) (distinct : (parts.map Vma.id).Nodup)
    (own : ∀ p ∈ parts, p.id ∈ old.map Vma.id ∨ s.next ≤ p.id) (later : s.next ≤ t.next)
    (fresh : ∀ p ∈ parts, p.id < t.next)
    (count : t.mapCount = s.mapCount + parts.length - old.length)
    (cache : ∀ id ∈ t.mmapCache, id ∈ s.mmapCache ∧ (id ∈ old.map Vma.id → id ∈ parts.map Vma.id))
    (heap : ∀ id ∈ t.brkVma,
      (id ∈ s.brkVma ∧ id ∉ old.map Vma.id ∧ t.startBrk = s.startBrk ∧ t.brk = s.brk) ∨
      ∃ p ∈ parts, p.id = id ∧ p.start = roundUp t.startBrk ∧ p.stop ≤ roundUp t.brk) :
    t.Linked := by
  have whole := h.fits
  have ids := h.distinct
  have lower := h.fresh
  have total := h.count
  rw [list] at whole ids lower total
  simp only [List.map_append, List.nodup_append, List.mem_append] at whole ids lower
  constructor
  · rw [list']
    simp only [List.mem_append]
    rintro w ((mem | part) | behind)
    · exact whole w (.inl (.inl mem))
    · exact fits w part
    · exact whole w (.inr behind)
  · rw [list']
    simp only [List.map_append, List.nodup_append, List.mem_append]
    refine ⟨⟨ids.1.1, distinct, ?_⟩, ids.2.1, ?_⟩
    · intro a mem b part same
      obtain ⟨v, inside, rfl⟩ := List.mem_map.mp mem
      obtain ⟨p, new, rfl⟩ := List.mem_map.mp part
      cases own p new with
      | inl kept => exact ids.1.2.2 _ mem _ kept same
      | inr young =>
        have := lower v (.inl (.inl inside))
        omega
    · rintro a (mem | part) b behind same
      · exact ids.2.2 a (.inl mem) b behind same
      · obtain ⟨p, new, rfl⟩ := List.mem_map.mp part
        obtain ⟨v, inside, rfl⟩ := List.mem_map.mp behind
        cases own p new with
        | inl kept => exact ids.2.2 _ (.inr kept) _ behind same
        | inr young =>
          have := lower v (.inr inside)
          omega
  · rw [list']
    simp only [List.mem_append]
    rintro w ((mem | part) | behind)
    · exact Nat.lt_of_lt_of_le (lower w (.inl (.inl mem))) later
    · exact fresh w part
    · exact Nat.lt_of_lt_of_le (lower w (.inr behind)) later
  · intro id cached
    obtain ⟨was, kept⟩ := cache id cached
    have mem := h.cache id was
    rw [list] at mem
    rw [list']
    simp only [List.map_append, List.mem_append] at mem ⊢
    obtain (mem | gone) | behind := mem
    · exact .inl (.inl mem)
    · exact .inl (.inr (kept gone))
    · exact .inr behind
  · intro id named
    rw [list']
    simp only [List.mem_append]
    obtain ⟨was, stays, low, high⟩ | ⟨p, part, same⟩ := heap id named
    · obtain ⟨v, mem, same, first, last⟩ := h.heap id was
      refine ⟨v, ?_, same, by rw [first, low], by rw [high]; exact last⟩
      rw [list] at mem
      simp only [List.mem_append] at mem
      obtain (mem | gone) | behind := mem
      · exact .inl (.inl mem)
      · exact absurd (List.mem_map.mpr ⟨v, gone, same⟩) stays
      · exact .inr behind
    · exact ⟨p, .inl (.inr part), same⟩
  · rw [count, list', total]
    simp only [List.length_append]
    omega

theorem Linked.ends (h : s.Linked) (mem : v ∈ s.mmapList) (named : s.brkVma = some v.id) :
    v.start = roundUp s.startBrk ∧ v.stop ≤ roundUp s.brk := by
  obtain ⟨w, inside, same, ends⟩ := h.heap v.id named
  have : w = v := inj_on_of_nodup_map h.distinct inside mem same
  exact this ▸ ends

/-- A call that changes neither the list nor the heap. -/
theorem Linked.keep (h : s.Linked) (list : t.mmapList = s.mmapList) (next : t.next = s.next)
    (count : t.mapCount = s.mapCount)
    (cache : ∀ id ∈ t.mmapCache, id ∈ s.mmapList.map Vma.id)
    (heap : ∀ id ∈ t.brkVma, id ∈ s.brkVma ∧ t.startBrk = s.startBrk ∧ roundUp t.brk = roundUp s.brk) :
    t.Linked where
  fits := by simpa [list] using h.fits
  distinct := by simpa [list] using h.distinct
  fresh := by simpa [list, next] using h.fresh
  cache := by simpa [list] using cache
  heap id named := by
    obtain ⟨was, low, high⟩ := heap id named
    simpa [list, low, high] using h.heap id was
  count := by simpa [list, count] using h.count

theorem create_linked (startBrk : Nat) : (create startBrk).Linked where
  fits := by simp [create]
  distinct := nodup_nil
  fresh := by simp [create]
  cache := by simp [create]
  heap := by simp [create]
  count := rfl

theorem Linked.insert {start stop : Nat} {flags : VmFlags} (h : s.Linked)
    (fits : Vma.Fits ⟨s.next, start, stop, flags⟩)
    (done : insertVmaStruct { s with next := s.next + 1 } ⟨s.next, start, stop, flags⟩ = some t) :
    t.Linked ∧ t.startBrk = s.startBrk ∧ t.brk = s.brk ∧ t.brkVma = s.brkVma ∧
      ⟨s.next, start, stop, flags⟩ ∈ t.mmapList ∧ ∀ v ∈ s.mmapList, v ∈ t.mmapList := by
  obtain ⟨-, ⟨⟩⟩ := ite_none_right_eq_some.mp done
  refine ⟨?_, rfl, rfl, rfl, by simp, ?_⟩
  · apply h.replace (s.mmapList.takeWhile (·.start ≤ start)) [] [⟨s.next, start, stop, flags⟩]
      (s.mmapList.dropWhile (·.start ≤ start))
    all_goals simp
    · exact fits
    · exact fun id named => .inl named
  · intro v mem
    rw [← takeWhile_append_dropWhile (l := s.mmapList)] at mem
    simp only [mem_append, mem_cons] at mem ⊢
    exact mem.imp_right .inr

theorem insert_ordered (h : Ordered s.mmapList)
    (done : insertVmaStruct { s with next := addr } v = some t) : Ordered t.mmapList := by
  obtain ⟨fits, ⟨⟩⟩ := ite_none_right_eq_some.mp done
  obtain ⟨some, lastBefore, firstAfter⟩ := fits
  have h' : Ordered (s.mmapList.takeWhile (·.start ≤ v.start) ++ [] ++
      s.mmapList.dropWhile (·.start ≤ v.start)) := by
    simpa using h
  generalize s.mmapList.takeWhile (·.start ≤ v.start) = before at *
  generalize s.mmapList.dropWhile (·.start ≤ v.start) = after at *
  have sorted := h'
  simp only [Ordered, append_nil, pairwise_append] at sorted
  have new := h'.replace (ordered_single (v := v)) ?_ ?_
  · simpa using new
  · intro p part a mem
    obtain rfl := mem_singleton.mp part
    obtain rfl | ⟨front, last, rfl⟩ := eq_nil_or_concat before
    · cases mem
    have below := lastBefore last (by simp)
    simp only [concat_eq_append, pairwise_append, mem_append,
      mem_singleton] at sorted mem
    obtain inside | rfl := mem
    · have := sorted.1.2.2 a inside last rfl
      omega
    · exact below.2
  · intro p part b mem
    obtain rfl := mem_singleton.mp part
    cases after with
    | nil => cases mem
    | cons first rest =>
      have above := firstAfter first rfl
      simp only [pairwise_cons, mem_cons] at sorted mem
      obtain rfl | inside := mem
      · exact above.1
      · have := sorted.2.1.1 b inside
        omega

variable {C : Prop} {code : Code} {stored : Option Nat} {mem : Bool} {start stop cutStart cutEnd newbrk len : Nat}
  {flags : VmFlags} {unmapped : List (Nat × Nat)}

def Covers (s : Vmas) (a : Nat) : Prop := ∃ v ∈ s.mmapList, v.Holds a

theorem findVma_holds {s : Vmas} {v : Vma} {addr : Nat} (found : (s.findVma addr).1 = some v) :
    v ∈ s.mmapList ∧ v.Holds addr := by
  simp only [findVma] at found
  split at found
  · cases found
  rename_i w searched
  cases found
  rcases or_eq_some_iff.mp searched with cached | ⟨-, listed⟩
  · obtain ⟨known, holds⟩ := filter_eq_some_iff.mp cached
    obtain ⟨id, -, listed⟩ := bind_eq_some_iff.mp known
    exact ⟨mem_of_find?_eq_some listed, by simpa [Vma.Holds] using holds⟩
  · exact ⟨mem_of_find?_eq_some listed, by simpa [Vma.Holds] using find?_some listed⟩

/-- An area with these flags holds the address. -/
def Says (vs : List Vma) (a : Nat) (f : VmFlags) : Prop := ∃ v ∈ vs, v.Holds a ∧ v.flags = f

/-- The areas are still linked and, if `C` holds, still in order if they were. What no area
    covers any more has been unmapped. -/
structure Kept (C : Prop) (s t : Vmas) (unmapped : List (Nat × Nat)) : Prop where
  linked : t.Linked
  ordered : C → Ordered s.mmapList → Ordered t.mmapList
  covers : ∀ a, s.Covers a → t.Covers a ∨ ∃ r ∈ unmapped, r.1 ≤ a ∧ a < r.2

theorem Linked.kept (h : s.Linked) : Kept C s s unmapped :=
  ⟨h, fun _ ordered => ordered, fun _ covered => .inl covered⟩

theorem Kept.trans {m : Vmas} (first : Kept C s m []) (later : Kept C m t unmapped) :
    Kept C s t unmapped where
  linked := later.linked
  ordered holds ordered := later.ordered holds (first.ordered holds ordered)
  covers a covered := by
    obtain still | ⟨r, mem, -⟩ := first.covers a covered
    · exact later.covers a still
    · cases mem

theorem covers_of_mem (sub : ∀ v ∈ s.mmapList, v ∈ t.mmapList) (covered : s.Covers a) :
    t.Covers a := by
  obtain ⟨v, mem, holds⟩ := covered
  exact ⟨v, sub v mem, holds⟩

theorem findVma_kept (h : s.Linked) : Kept C s (s.findVma addr).2 [] := by
  simp only [findVma]
  split
  · exact h.kept
  rename_i v found
  refine ⟨h.keep rfl rfl rfl ?_ ?_, fun _ ordered => ordered,
    fun _ covered => .inl covered⟩
  · intro id cached
    cases cached
    apply List.mem_map_of_mem
    obtain hit | scan := or_eq_some_iff.mp found
    · obtain ⟨id, -, here⟩ := bind_eq_some_iff.mp (filter_eq_some_iff.mp hit).1
      exact mem_of_find?_eq_some here
    · exact mem_of_find?_eq_some scan.2
  · exact fun id named => ⟨named, rfl, rfl⟩

theorem mmMap_spec (h : s.Linked) (done : s.mmMap addr len flags mem = some (code, stored, t)) :
    Kept C s t [] ∧ (code ≠ .ok → t = s) ∧ (code = .ok →
      stored = some s.next ∧ t.startBrk = s.startBrk ∧ t.brk = s.brk ∧
      ⟨s.next, roundDown addr, roundUp ((addr + len) % word), flags⟩ ∈ t.mmapList) := by
  rw [mmMap] at done
  split at done
  · cases done
    exact ⟨h.kept, fun _ => rfl, nofun⟩
  simp only at done
  split at done
  · cases done
    exact ⟨h.kept, fun _ => rfl, nofun⟩
  rename_i inside
  split at done
  · cases done
    exact ⟨h.kept, fun _ => rfl, nofun⟩
  split at done
  · cases done
    exact ⟨h.kept, fun _ => rfl, nofun⟩
  obtain ⟨t', inserted, result⟩ := map_eq_some_iff.mp done
  cases result
  have fits : Vma.Fits ⟨s.next, roundDown addr, roundUp ((addr + len) % word), flags⟩ :=
    ⟨by simpa using fun out => inside (.inr out), roundDown_dvd _, roundUp_dvd _⟩
  obtain ⟨linked, low, high, -, mem, old⟩ := h.insert fits inserted
  refine ⟨⟨linked, fun _ ordered => insert_ordered ordered inserted, ?_⟩,
    (absurd rfl), fun _ => ⟨rfl, low, high, mem⟩⟩
  exact fun a covered => .inl (covers_of_mem old covered)

theorem hasRoom_clear {vs : List Vma} (room : hasRoom start stop vs = true) (ordered : Ordered vs)
    (fits : ∀ v ∈ vs, v.Fits) (low : start ≤ a) (high : a < stop) : ∀ v ∈ vs, ¬ v.Holds a := by
  induction vs with
  | nil => nofun
  | cons v vs ih =>
    rw [hasRoom] at room
    have ⟨first, later⟩ := pairwise_cons.mp ordered
    split at room
    · refine forall_mem_cons.mpr ⟨fun holds => ?_, ih room later fun w mem => fits w (by simp [mem])⟩
      have := holds.2
      omega
    have above : stop ≤ v.start := of_decide_eq_true room
    intro w mem holds
    have := (fits v (by simp)).1.2.1
    rcases mem_cons.mp mem with rfl | mem
    · have := holds.1
      omega
    · have := first w mem
      have := holds.1
      omega

/-- A new area lies where there was none. -/
theorem mmMap_fresh (h : s.Linked) (ordered : Ordered s.mmapList)
    (done : s.mmMap addr len flags mem = some (.ok, stored, t)) :
    t.brkVma = s.brkVma ∧
      (∀ a, roundDown addr ≤ a → a < roundUp ((addr + len) % word) → ¬ s.Covers a) ∧
      ∀ v, v ∈ t.mmapList ↔ v ∈ s.mmapList ∨
        v = ⟨s.next, roundDown addr, roundUp ((addr + len) % word), flags⟩ := by
  rw [mmMap] at done
  split at done
  · cases done
  simp only at done
  split at done
  · cases done
  split at done
  · cases done
  rename_i room
  split at done
  · cases done
  obtain ⟨t', inserted, result⟩ := map_eq_some_iff.mp done
  cases result
  have fresh : ∀ a, roundDown addr ≤ a → a < roundUp ((addr + len) % word) → ¬ s.Covers a :=
    fun a low high ⟨v, mem, holds⟩ =>
      hasRoom_clear (by simpa using room) ordered h.fits low high v mem holds
  rw [insertVmaStruct] at inserted
  obtain ⟨-, ⟨⟩⟩ := ite_none_right_eq_some.mp inserted
  refine ⟨rfl, fresh, fun v => ?_⟩
  rw [mem_append, mem_cons, or_left_comm, ← mem_append,
    takeWhile_append_dropWhile, or_comm]

/-- What is left of an area lies in it, and the cut is gone. -/
theorem cutVma_parts (done : s.cutVma v cutStart cutEnd mem = some (parts, t)) (low : v.start ≤ cutStart)
    (nonempty : cutStart < cutEnd) (high : cutEnd ≤ v.stop) :
    Ordered parts ∧ (∀ p ∈ parts, v.start ≤ p.start ∧ p.stop ≤ v.stop) ∧
      ∀ a f, Says parts a f ↔ (v.Holds a ∧ v.flags = f) ∧ ¬ (cutStart ≤ a ∧ a < cutEnd) := by
  simp only [cutVma] at done
  split at done
  · cases done
    refine ⟨ordered_nil, by simp, fun a f => ?_⟩
    simp only [Says, Vma.Holds, not_mem_nil, false_and, exists_false, false_iff]
    omega
  split at done
  · cases done
    refine ⟨ordered_single, by simp; omega, fun a f => ?_⟩
    simp only [Says, Vma.Holds, mem_singleton]
    grind
  split at done
  · cases done
    refine ⟨ordered_single, by simp; omega, fun a f => ?_⟩
    simp only [Says, Vma.Holds, mem_singleton]
    grind
  split at done
  · cases done
    refine ⟨ordered_pair (by simp only; omega), by simp; omega, fun a f => ?_⟩
    simp only [Says, Vma.Holds, mem_cons, exists_eq_or_imp]
    grind
  · cases done

theorem cutVma_linked (h : Linked { s with mmapList := before ++ v :: after })
    (done : s.cutVma v cutStart cutEnd mem = some (parts, t)) (low : v.start ≤ cutStart)
    (nonempty : cutStart < cutEnd) (high : cutEnd ≤ v.stop) (whole : pgsize ∣ cutStart)
    (wholeEnd : pgsize ∣ cutEnd) : Linked { t with mmapList := before ++ parts ++ after } := by
  have own : v.id < s.next := h.fresh v (by simp)
  have heap : s.brkVma = some v.id → v.start = roundUp s.startBrk ∧ v.stop ≤ roundUp s.brk :=
    h.ends (by simp)
  have fits : v.Fits := h.fits v (by simp)
  have inUser := fits.1
  simp only [UserAccess] at inUser
  simp only [cutVma] at done
  split at done
  · cases done
    apply h.replace before [v] [] after
    all_goals simp
    · grind
    · grind
  split at done
  · rename_i notWhole front
    cases done
    have inner : cutEnd < v.stop := Nat.lt_of_le_of_ne high fun same => notWhole ⟨front, same⟩
    apply h.replace before [v] [{ v with start := cutEnd }] after
    all_goals simp
    · exact ⟨⟨by simp only; omega, inner, inUser.2.2⟩, wholeEnd, fits.2.2⟩
    · exact own
    · grind
  split at done
  · cases done
    have below : s.brkVma = some v.id → cutStart ≤ roundUp (
        if s.brkVma = some v.id ∧ cutStart < s.brk then cutStart else s.brk) := by
      intro named
      have last := (heap named).2
      have := roundUp_lt s.brk
      split
      · rw [roundUp_of_dvd whole (by omega)]
      · omega
    apply h.replace before [v] [{ v with stop := cutStart }] after
    all_goals simp
    · exact ⟨⟨inUser.1, by simp only; omega, by simp only; omega⟩, fits.2.1, whole⟩
    · exact own
    · grind
  obtain ⟨-, ⟨⟩⟩ := ite_none_right_eq_some.mp done
  apply h.replace before [v]
    [{ v with stop := cutStart }, ⟨s.next, cutEnd, v.stop, v.flags⟩] after
  all_goals simp
  · exact ⟨⟨⟨inUser.1, by simp only; omega, by simp only; omega⟩, fits.2.1, whole⟩,
      ⟨by simp only; omega, by simp only; omega, inUser.2.2⟩, wholeEnd, fits.2.2⟩
  · omega
  · omega
  · omega
  · grind
  · grind

theorem unmapLoop_kept (whole : pgsize ∣ start) (wholeEnd : pgsize ∣ stop)
    (h : Linked { s with mmapList := before ++ vs })
    (done : unmapLoop start stop mem s before vs = (code, t, unmapped)) :
    Kept C { s with mmapList := before ++ vs } t unmapped := by
  induction vs generalizing s t before code unmapped with
  | nil =>
    cases done
    simpa using h.kept
  | cons v vs ih =>
    have skip (done : unmapLoop start stop mem s (before ++ [v]) vs = (code, t, unmapped)) :
        Kept C { s with mmapList := before ++ v :: vs } t unmapped := by
      simpa using ih (by simpa using h) done
    rw [unmapLoop] at done
    split at done
    · exact skip done
    split at done
    · cases done
      exact h.kept
    simp only at done
    have fits := h.fits v (by simp)
    have low : v.start ≤ if v.start < start then start else v.start := by
      split <;> omega
    have wholeStart : pgsize ∣ if v.start < start then start else v.start := by
      split
      · exact whole
      · exact fits.2.1
    generalize (if v.start < start then start else v.start) = cutStart at *
    have high : (if stop < v.stop then stop else v.stop) ≤ v.stop := by
      split <;> omega
    have wholeCut : pgsize ∣ if stop < v.stop then stop else v.stop := by
      split
      · exact wholeEnd
      · exact fits.2.2
    generalize (if stop < v.stop then stop else v.stop) = cutEnd at *
    split_ifs at done with nonempty
    · split at done
      · cases done
        exact h.kept
      rename_i parts s' cut
      obtain ⟨new, inside, left⟩ := cutVma_parts cut low nonempty high
      have rest := ih (cutVma_linked h cut low nonempty high wholeStart wholeCut) rfl
      cases done
      refine ⟨rest.linked, fun holds ordered => rest.ordered holds (ordered.refine new inside), ?_⟩
      have later {a : Nat} (covered : ∃ w ∈ before ++ parts ++ vs, w.Holds a) :
          _ ∨ ∃ r ∈ (cutStart, cutEnd) :: _, _ :=
        (rest.covers a covered).imp_right fun ⟨r, listed, within⟩ =>
          ⟨r, mem_cons_of_mem _ listed, within⟩
      simp only [mem_append] at later
      rintro a ⟨w, inList, holds⟩
      simp only [mem_append, mem_cons] at inList
      obtain passed | rfl | ahead := inList
      · exact later ⟨w, .inl (.inl passed), holds⟩
      · by_cases cut : cutStart ≤ a ∧ a < cutEnd
        · exact .inr ⟨_, (.head _) .., cut⟩
        · obtain ⟨p, part, holds, -⟩ := (left a w.flags).mpr ⟨⟨holds, rfl⟩, cut⟩
          exact later ⟨p, .inl (.inr part), holds⟩
      · exact later ⟨w, .inr ahead, holds⟩
    · exact skip done

theorem mmUnmap_kept (h : s.Linked) (done : s.mmUnmap addr len mem = (code, t, unmapped)) :
    Kept C s t unmapped := by
  rw [mmUnmap] at done
  split at done
  · cases done
    exact h.kept
  rename_i valid
  simp only at done
  split at done
  · cases done
    exact h.kept
  have whole : pgsize ∣ addr := by
    apply Nat.dvd_of_mod_eq_zero
    simpa using fun bad => valid (.inr (.inl bad))
  have start : Linked { s with mmapList := [] ++ s.mmapList } := h
  exact unmapLoop_kept whole (roundUp_dvd _) start done

theorem says_cons : Says (v :: vs) addr flags ↔ (v.Holds addr ∧ v.flags = flags) ∨ Says vs addr flags := by
  simp [Says]

theorem says_append : Says (before ++ vs) addr flags ↔ Says before addr flags ∨ Says vs addr flags := by
  simp [Says, or_and_right, exists_or]

/-- The two parts of an area say what it said. -/
theorem says_splitVma (list : s.mmapList = before ++ v :: after) (low : v.start < addr)
    (high : addr < v.stop) (a : Nat) (f : VmFlags) :
    Says (s.splitVma before v after addr).mmapList a f ↔ Says s.mmapList a f := by
  rw [list, splitVma, says_append, says_append, says_cons, says_cons, says_cons]
  simp only [Vma.Holds]
  grind

/-- An area is divided. -/
theorem splitVma_kept (h : s.Linked) (list : s.mmapList = before ++ v :: after)
    (high : addr < v.stop) (low : v.start < addr) (whole : pgsize ∣ addr) :
    Kept C s (s.splitVma before v after addr) [] := by
  have own : v.id < s.next := h.fresh v (by simp [list])
  have heap := h.ends (v := v) (by simp [list])
  have fits : v.Fits := h.fits v (by simp [list])
  have inUser := fits.1
  simp only [UserAccess] at inUser
  constructor
  · apply h.replace before [v] [{ v with stop := addr }, ⟨s.next, addr, v.stop, v.flags⟩] after
    all_goals simp [splitVma]
    · simpa using list
    · exact ⟨⟨⟨inUser.1, low, by simp only; omega⟩, fits.2.1, whole⟩,
        ⟨by simp only; omega, high, inUser.2.2⟩, whole, fits.2.2⟩
    · omega
    · omega
    · omega
    · grind
    · grind
  · intro holds ordered
    rw [list] at ordered
    have new := ordered.refine (ordered_pair (v := { v with stop := addr })
      (w := ⟨s.next, addr, v.stop, v.flags⟩) (le_rfl)) ?_
    · simpa [splitVma] using new
    · simp only [List.mem_cons, List.not_mem_nil, or_false]
      rintro p (rfl | rfl)
      · exact ⟨le_rfl, Nat.le_of_lt high⟩
      · exact ⟨Nat.le_of_lt low, le_rfl⟩
  · rintro a ⟨w, mem, holds⟩
    obtain ⟨x, there, holds, -⟩ := (says_splitVma list low high a w.flags).mpr ⟨w, mem, holds, rfl⟩
    exact .inl ⟨x, there, holds⟩

theorem covered_reaches {cursor : Nat} (cov : covered stop cursor vs = true) (some : cursor < stop)
    (found : vs.dropWhile (·.stop < stop) = v :: after) : v.start < stop := by
  induction vs generalizing cursor with
  | nil => cases found
  | cons w vs ih =>
    rw [covered, if_neg (by omega)] at cov
    by_cases reached : w.stop < stop
    · rw [dropWhile_cons_of_pos (by simpa)] at found
      split at cov
      · exact ih cov some found
      · split at cov
        · cases cov
        · exact ih cov reached found
    · rw [dropWhile_cons_of_neg (by simpa using reached)] at found
      cases found
      split at cov
      · omega
      · split at cov
        · cases cov
        · omega

theorem not_of_dropWhile {test : Vma → Bool} (found : vs.dropWhile test = v :: after) :
    test v = false := by
  have := head_dropWhile_not test (l := vs) (by simp [found])
  simpa [found] using this

theorem splitLeft_spec {rest : List Vma} (h : s.Linked) (whole : pgsize ∣ start)
    (done : s.splitLeft start mem = .ok (t, before, rest)) :
    Kept C s t [] ∧ t.mmapList = before ++ rest ∧ (∀ v after, start < stop →
      covered stop start s.mmapList = true → rest.dropWhile (·.stop < stop) = v :: after →
        v.start < stop) ∧
    (∀ a f, Says t.mmapList a f ↔ Says s.mmapList a f) ∧ (∀ w ∈ before, w.stop ≤ start) ∧
    (Ordered s.mmapList → ∀ w ∈ rest, start ≤ w.start) := by
  have cut := takeWhile_append_dropWhile (p := (·.stop ≤ start)) (l := s.mmapList)
  have passed : ∀ w ∈ s.mmapList.takeWhile (·.stop ≤ start), w.stop ≤ start := fun w mem => by
    simpa using mem_takeWhile_imp mem
  rw [splitLeft] at done
  split at done
  · cases done
  rename_i v after found
  have reached := not_of_dropWhile found
  simp only [decide_eq_false_iff_not, Nat.not_le] at reached
  rw [found] at cut
  -- The areas before the edge do not reach the end of the range either.
  have same (some : start < stop) : s.mmapList.dropWhile (·.stop < stop) =
      (v :: after).dropWhile (·.stop < stop) := by
    rw [← cut, dropWhile_append_of_pos]
    intro w mem
    have := passed w mem
    simp only [decide_eq_true_eq]
    omega
  have behind (ordered : Ordered s.mmapList) : ∀ w ∈ after, start ≤ w.start := by
    intro w mem
    rw [← cut] at ordered
    have : v.stop ≤ w.start := Ordered.below (pairwise_append.mp ordered).2.1 mem
    omega
  split at done
  · rename_i inner
    split at done
    · cases done
      refine ⟨splitVma_kept h cut.symm reached inner whole, by simp [splitVma], ?_,
        says_splitVma cut.symm inner reached, ?_, ?_⟩
      · intro w rest some cov found'
        by_cases reaches : v.stop < stop
        · rw [dropWhile_cons_of_pos (by simpa)] at found'
          have located : s.mmapList.dropWhile (·.stop < stop) = w :: rest := by
            rw [same some, dropWhile_cons_of_pos (by simpa), found']
          exact covered_reaches cov some located
        · rw [dropWhile_cons_of_neg (by simpa using reaches)] at found'
          cases found'
          exact some
      · simpa [or_imp, forall_and] using passed
      · simpa using behind
    · cases done
  · cases done
    refine ⟨h.kept, cut.symm, ?_, fun _ _ => .rfl, passed, ?_⟩
    · intro w rest some cov found'
      exact covered_reaches cov some ((same some).trans found')
    · simp only [forall_mem_cons]
      exact fun ordered => ⟨by omega, behind ordered⟩

def Edge (vs : List Vma) (x : Nat) : Prop := ∀ w ∈ vs, w.stop ≤ x ∨ x ≤ w.start

theorem edge_append {x : Nat} : Edge (before ++ after) x ↔ Edge before x ∧ Edge after x := by
  simp [Edge, or_imp, forall_and]

theorem edge_cons {x : Nat} : Edge (v :: vs) x ↔ (v.stop ≤ x ∨ x ≤ v.start) ∧ Edge vs x := by
  simp [Edge]

theorem splitRight_spec {rest : List Vma} (start : Nat) (h : s.Linked) (list : s.mmapList = before ++ rest)
    (whole : pgsize ∣ stop)
    (low : ∀ v after, rest.dropWhile (·.stop < stop) = v :: after → v.start < stop)
    (done : s.splitRight stop mem before rest = (code, t)) : Kept C s t [] ∧
      (∀ a f, Says t.mmapList a f ↔ Says s.mmapList a f) ∧
      (Ordered s.mmapList → (∀ w ∈ before, w.stop ≤ start) → (∀ w ∈ rest, start ≤ w.start) →
        start < stop → code = .ok → Edge t.mmapList start ∧ Edge t.mmapList stop) := by
  rw [splitRight] at done
  split at done
  · cases done
    exact ⟨h.kept, fun _ _ => .rfl, nofun⟩
  rename_i v after found
  have reached := not_of_dropWhile found
  simp only [decide_eq_false_iff_not] at reached
  have cut := takeWhile_append_dropWhile (p := (·.stop < stop)) (l := rest)
  have passed : ∀ w ∈ rest.takeWhile (·.stop < stop), w.stop < stop := fun w mem => by
    simpa using mem_takeWhile_imp mem
  rw [found] at cut
  have split : s.mmapList = before ++ rest.takeWhile (·.stop < stop) ++ v :: after := by
    rw [list, append_assoc, cut]
  generalize rest.takeWhile (·.stop < stop) = front at *
  have edges (ordered : Ordered s.mmapList) (left : ∀ w ∈ before, w.stop ≤ start)
      (right : ∀ w ∈ rest, start ≤ w.start) (some : start < stop) :
      (Edge (before ++ front) start ∧ Edge (before ++ front) stop) ∧
        start ≤ v.start ∧ Edge after start ∧ Edge after stop := by
    rw [split] at ordered
    rw [← cut] at right
    simp only [mem_append, mem_cons, or_imp, forall_and, forall_eq] at right
    have tail : Ordered (v :: after) := (pairwise_append.mp ordered).2.1
    refine ⟨⟨edge_append.mpr ⟨fun w mem => .inl (left w mem), fun w mem => .inr (right.1 w mem)⟩,
      edge_append.mpr ⟨fun w mem => ?_, fun w mem => .inl (Nat.le_of_lt (passed w mem))⟩⟩,
      right.2.1, fun w mem => .inr (right.2.2 w mem), fun w mem => ?_⟩
    · have := left w mem
      omega
    · have := Ordered.below tail mem
      omega
  split at done
  · rename_i inner
    split at done
    · cases done
      refine ⟨splitVma_kept h split inner (low v after found) whole,
        says_splitVma split (low v after found) inner, fun ordered left right some _ => ?_⟩
      obtain ⟨⟨e₁, e₂⟩, at_, e₃, e₄⟩ := edges ordered left right some
      simp only [splitVma, edge_append, edge_cons] at e₁ e₂ ⊢
      exact ⟨⟨e₁, .inr at_, .inr (by omega), e₃⟩, e₂, .inl (le_rfl), .inr (le_rfl), e₄⟩
    · cases done
      exact ⟨h.kept, fun _ _ => .rfl, nofun⟩
  · cases done
    refine ⟨h.kept, fun _ _ => .rfl, fun ordered left right some _ => ?_⟩
    obtain ⟨⟨e₁, e₂⟩, at_, e₃, e₄⟩ := edges ordered left right some
    simp only [split, edge_append, edge_cons] at e₁ e₂ ⊢
    exact ⟨⟨e₁, .inr at_, e₃⟩, e₂, .inl (by omega), e₄⟩

theorem protectVmas_kept (h : Linked { s with mmapList := before ++ vs }) :
    Kept C { s with mmapList := before ++ vs }
      { s with mmapList := before ++ protectVmas start stop flags vs } [] := by
  induction vs generalizing before with
  | nil => exact h.kept
  | cons v vs ih =>
    rw [protectVmas]
    split
    · exact h.kept
    have own : v.id < s.next := h.fresh v (by simp)
    have heap : s.brkVma = some v.id → v.start = roundUp s.startBrk ∧ v.stop ≤ roundUp s.brk :=
      h.ends (by simp)
    have fits := h.fits v (by simp)
    -- The area stays where it is.
    obtain ⟨w, new, same, low, high⟩ : ∃ w, (if start ≤ v.start ∧ v.stop ≤ stop then
        { v with flags := flags } else v) = w ∧ w.id = v.id ∧ w.start = v.start ∧
          w.stop = v.stop := by
      refine ⟨_, rfl, ?_⟩
      split <;> exact ⟨rfl, rfl, rfl⟩
    rw [new]
    have linked : Linked { s with mmapList := before ++ [w] ++ vs } := by
      apply h.replace before [v] [w] vs
      all_goals simp [same, own]
      · simpa [Vma.Fits, low, high] using fits
      · grind
    have rest := ih linked
    refine ⟨by simpa using rest.linked, fun holds ordered => ?_, ?_⟩
    · simpa using rest.ordered holds (ordered.refine ordered_single (by simp [low, high]))
    · rintro a ⟨x, mem, holds⟩
      have later : Covers { s with mmapList := before ++ [w] ++ vs } a := by
        simp only [List.mem_append, List.mem_cons] at mem
        simp only [Covers, List.mem_append, List.mem_singleton]
        obtain passed | rfl | ahead := mem
        · exact ⟨x, .inl (.inl passed), holds⟩
        · exact ⟨w, .inl (.inr rfl), by simpa [Vma.Holds, low, high] using holds⟩
        · exact ⟨x, .inr ahead, holds⟩
      simpa using rest.covers a later

theorem mmMprotect_kept {memLeft memRight : Bool} (h : s.Linked)
    (done : s.mmMprotect addr len flags memLeft memRight = (code, t)) : Kept C s t [] := by
  rw [mmMprotect] at done
  split at done
  · cases done
    exact h.kept
  rename_i valid
  have wholeEnd := roundUp_dvd ((addr + len) % word)
  generalize roundUp ((addr + len) % word) = stop at *
  simp only at done
  split at done
  · cases done
    exact h.kept
  split at done
  · cases done
    exact h.kept
  rename_i cov
  have whole : pgsize ∣ addr := by
    apply Nat.dvd_of_mod_eq_zero
    simpa using fun bad => valid (.inr (.inl bad))
  split at done
  · cases done
    exact h.kept
  rename_i left before rest ran
  obtain ⟨kept₁, list, low, -⟩ := splitLeft_spec (C := C) h whole ran
  have right {code : Code} {t : Vmas}
      (ran : left.splitRight stop memRight before rest = (code, t)) : Kept C left t [] :=
    (splitRight_spec addr kept₁.linked list wholeEnd
      (fun v after found => low v after (by omega) (by simpa using cov) found) ran).1
  split at done
  · rename_i s₂ ran₂
    cases done
    have kept₂ := right ran₂
    have linked₂ : Linked { s₂ with mmapList := [] ++ s₂.mmapList } := kept₂.linked
    exact (kept₁.trans kept₂).trans (protectVmas_kept linked₂)
  · exact kept₁.trans (right done)

/-- No area behind the heap begins below the new end of the heap. -/
def HeapClear (s : Vmas) (newbrk : Nat) : Prop :=
  s.brkVma ≠ none → roundUp newbrk < roundUp s.brk →
    ∀ v ∈ s.mmapList, roundUp s.startBrk < v.start → roundUp newbrk ≤ v.start

instance (s : Vmas) (newbrk : Nat) : Decidable (s.HeapClear newbrk) :=
  inferInstanceAs (Decidable (_ → _ → ∀ _ ∈ _, _))

variable {id : Nat}

/-- The end of the heap moves. -/
theorem setEnd_kept (h : s.Linked) (named : s.brkVma = some id)
    (list : s.mmapList = before ++ v :: after) (same : v.id = id)
    (moved : roundUp s.startBrk < roundUp newbrk) (top : roundUp newbrk ≤ userTop)
    (behind : C → Ordered s.mmapList → ∀ w ∈ after, roundUp newbrk ≤ w.start)
    (gone : v.stop ≤ roundUp newbrk ∨ (roundUp newbrk, roundUp s.brk) ∈ unmapped) :
    Kept C s { s with
      mmapList := before ++ { v with stop := roundUp newbrk } :: after
      brk := newbrk } unmapped := by
  subst same
  have own : v.id < s.next := h.fresh v (by simp [list])
  have ends := h.ends (by simp [list]) named
  have fits := h.fits v (by simp [list])
  constructor
  · apply h.replace before [v] [{ v with stop := roundUp newbrk }] after
    all_goals simp [list, own, named, ends.1]
    have start := fits.1.1
    rw [ends.1] at start
    exact ⟨⟨start, moved, top⟩, roundUp_dvd _, roundUp_dvd _⟩
  · intro holds ordered
    have behind := behind holds ordered
    rw [list] at ordered
    have whole : Ordered (before ++ [v] ++ after) := by simpa using ordered
    simp only [Ordered, List.pairwise_append, List.mem_cons] at ordered
    have new := whole.replace (ordered_single (v := { v with stop := roundUp newbrk }))
      (by simpa using fun a mem => ordered.2.2 a mem v (.inl rfl)) (by simpa using behind)
    simpa using new
  · rintro a ⟨w, mem, holds⟩
    simp only [list, List.mem_append, List.mem_cons] at mem
    simp only [Covers, List.mem_append, List.mem_cons]
    obtain passed | rfl | ahead := mem
    · exact .inl ⟨w, .inl passed, holds⟩
    · by_cases below : a < roundUp newbrk
      · exact .inl ⟨_, .inr (.inl rfl), holds.1, below⟩
      · obtain short | listed := gone
        · have := holds.2
          omega
        · exact .inr ⟨_, listed, Nat.le_of_not_lt below, Nat.lt_of_lt_of_le holds.2 ends.2⟩
    · exact .inl ⟨w, .inr (.inr ahead), holds⟩

theorem roundUp_le_top (low : newbrk ≤ userTop) : roundUp newbrk ≤ userTop := by
  simp only [roundUp, roundDown, pgsize, word, userTop] at *
  omega

theorem split_at_id (found : s.mmapList.dropWhile (·.id ≠ id) = v :: after) :
    s.mmapList = s.mmapList.takeWhile (·.id ≠ id) ++ v :: after ∧ v.id = id := by
  constructor
  · rw [← found, takeWhile_append_dropWhile]
  · simpa using not_of_dropWhile found

theorem shrinkHeap_kept (h : s.Linked) (named : s.brkVma = some id)
    (down : roundUp newbrk < roundUp s.brk) (top : newbrk ≤ userTop)
    (done : s.shrinkHeap id newbrk = some (code, t, unmapped)) : Kept (s.HeapClear newbrk) s t unmapped := by
  rw [shrinkHeap] at done
  split at done
  · cases done
  rename_i v after found
  obtain ⟨list, same⟩ := split_at_id found
  generalize s.mmapList.takeWhile (·.id ≠ id) = before at *
  have ends := h.ends (v := v) (by simp [list]) (by rw [named, same])
  have fits := h.fits v (by simp [list])
  split at done
  · cases done
    constructor
    · apply h.replace before [v] [] after
      all_goals simp
      · simpa using list
      · grind
    · intro _ ordered
      rw [list] at ordered
      simpa using ordered.refine ordered_nil (by simp)
    · rintro a ⟨w, mem, holds⟩
      simp only [list, List.mem_append, List.mem_cons] at mem
      simp only [Covers, List.mem_append]
      obtain passed | rfl | ahead := mem
      · exact .inl ⟨w, .inl passed, holds⟩
      · exact .inr ⟨_, List.mem_singleton_self _, by have := holds.1; omega,
          Nat.lt_of_lt_of_le holds.2 ends.2⟩
      · exact .inl ⟨w, .inr ahead, holds⟩
  · cases done
    apply setEnd_kept h named list same (by omega) (roundUp_le_top top)
    · intro holds ordered w mem
      have sorted := ordered
      rw [list] at sorted
      simp only [Ordered, List.pairwise_append, List.pairwise_cons] at sorted
      have := sorted.2.1.1 w mem
      have := fits.1.2.1
      exact holds (by simp [named]) down w (by simp [list, mem]) (by omega)
    · simp

theorem growHeap_kept (h : s.Linked) (named : s.brkVma = some id)
    (up : roundUp s.brk < roundUp newbrk) (top : newbrk ≤ userTop)
    (done : s.growHeap id newbrk = some (code, t)) : Kept C s t [] := by
  rw [growHeap] at done
  split at done
  · cases done
  rename_i v after found
  obtain ⟨list, same⟩ := split_at_id found
  generalize s.mmapList.takeWhile (·.id ≠ id) = before at *
  split at done
  · cases done
    exact h.kept
  rename_i free
  cases done
  have ends := h.ends (v := v) (by simp [list]) (by rw [named, same])
  have fits := (h.fits v (by simp [list])).1.2.1
  apply setEnd_kept h named list same (by omega) (roundUp_le_top top)
  · intro _ ordered w mem
    rw [list] at ordered
    simp only [Ordered, pairwise_append] at ordered
    cases after with
    | nil => cases mem
    | cons first rest =>
      have free_first : roundUp newbrk ≤ first.start := by
        by_contra low
        exact free (.inr ⟨first, rfl, by omega⟩)
      simp only [mem_cons, pairwise_cons] at mem ordered
      obtain rfl | later := mem
      · exact free_first
      · have := ordered.2.1.2.1 w later
        have := (h.fits first (by simp [list])).1.2.1
        omega
  · exact .inl (by omega)

theorem mapHeap_kept (h : s.Linked) (up : roundUp s.brk < roundUp newbrk)
    (done : s.mapHeap newbrk mem = some (code, t)) : Kept C s t [] := by
  rw [mapHeap] at done
  split at done
  · cases done
    exact h.kept
  split at done
  · cases done
  · rename_i stored s' ran
    cases done
    obtain ⟨kept, -, ok⟩ := mmMap_spec h ran
    obtain ⟨rfl, low, -, mem⟩ := ok rfl
    -- The range is already made of whole pages.
    have top := roundUp_lt newbrk
    have start := roundDown_of_dvd (roundUp_dvd s.startBrk)
    have sum : (roundUp s.startBrk + (roundUp newbrk - roundUp s.startBrk)) % word =
        roundUp newbrk := by
      rw [Nat.add_sub_cancel' (by omega), Nat.mod_eq_of_lt (by omega)]
    rw [start, sum, roundUp_of_dvd (roundUp_dvd _) top] at mem
    have linked := kept.linked
    refine ⟨⟨linked.fits, linked.distinct, linked.fresh, linked.cache, ?_, linked.count⟩,
      kept.ordered, kept.covers⟩
    intro id new
    cases new
    exact ⟨_, mem, rfl, by rw [low], le_rfl⟩
  · rename_i ran
    cases done
    exact (mmMap_spec h ran).1

theorem mmBrk_kept (h : s.Linked)
    (done : s.mmBrk newbrk mem = some (code, t, unmapped)) : Kept (s.HeapClear newbrk) s t unmapped := by
  have moveBrk (same : s.brkVma = none ∨ roundUp newbrk = roundUp s.brk) :
      Kept (s.HeapClear newbrk) s { s with brk := newbrk } [] := by
    refine ⟨h.keep rfl rfl rfl h.cache ?_, fun _ ordered => ordered,
      fun _ covered => .inl covered⟩
    intro id named
    obtain gone | same := same
    · cases gone.symm.trans named
    · exact ⟨named, rfl, same⟩
  rw [mmBrk] at done
  split at done
  · cases done
    exact h.kept
  simp only at done
  split at done
  · rename_i same
    cases done
    exact moveBrk (.inr same)
  split at done
  · rename_i down
    split at done
    · rename_i gone
      cases done
      exact moveBrk (.inl gone)
    · rename_i id named
      exact shrinkHeap_kept h named down (by omega) done
  · split at done
    · cases done
      exact h.kept
    obtain ⟨r, ran, result⟩ := map_eq_some_iff.mp done
    cases result
    split at ran
    · exact mapHeap_kept h (by omega) ran
    · rename_i id named
      exact growHeap_kept h named (by omega) (by omega) ran

variable {dst src : Vmas} {srcBrk : Option Nat}

theorem dupVma_spec (h : dst.Linked) (fits : v.Fits) (heap : srcBrk = some v.id →
      v.start = roundUp dst.startBrk ∧ v.stop ≤ roundUp dst.brk)
    (done : dst.dupVma srcBrk v = some t) :
    Kept C dst t [] ∧ t.startBrk = dst.startBrk ∧ t.brk = dst.brk ∧
      ∃ w ∈ t.mmapList, w.start = v.start ∧ w.stop = v.stop := by
  obtain ⟨t', inserted, result⟩ := map_eq_some_iff.mp done
  obtain ⟨linked, low, high, -, mem, old⟩ := h.insert fits inserted
  have kept : Kept C dst t' [] := ⟨linked, fun _ ordered => insert_ordered ordered inserted,
    fun _ covered => .inl (covers_of_mem old covered)⟩
  split_ifs at result with named
  · cases result
    refine ⟨⟨⟨linked.fits, linked.distinct, linked.fresh, linked.cache, ?_, linked.count⟩,
      kept.ordered, kept.covers⟩, low, high, _, mem, rfl, rfl⟩
    intro id new
    cases new
    have ends := heap named
    exact ⟨_, mem, rfl, by rw [low]; exact ends.1, by rw [high]; exact ends.2⟩
  · cases result
    exact ⟨kept, low, high, _, mem, rfl, rfl⟩

variable {answers : List (Bool × Bool)}

theorem dupLoop_kept (h : dst.Linked) (fits : ∀ v ∈ vs, v.Fits)
    (heap : ∀ v ∈ vs, srcBrk = some v.id → v.start = roundUp dst.startBrk ∧ v.stop ≤ roundUp dst.brk)
    (done : dupLoop srcBrk dst vs answers = some (code, t)) : Kept C dst t [] := by
  induction vs generalizing dst answers with
  | nil =>
    cases done
    exact h.kept
  | cons v vs ih =>
    simp only [dupLoop] at done
    split at done
    · cases done
      exact h.kept
    split at done
    · cases done
    rename_i mid copied
    obtain ⟨kept, low, high, -⟩ :=
      dupVma_spec h (fits v ((.head _) ..)) (heap v ((.head _) ..)) copied
    split at done
    · apply kept.trans
      apply ih kept.linked (fun w mem => fits w (.tail _ mem)) _ done
      intro w mem
      rw [low, high]
      exact heap w (.tail _ mem)
    · cases done
      exact kept

theorem dupStart_kept (h : dst.Linked) : Kept C dst (dst.dupStart src) [] := by
  refine ⟨h.keep rfl rfl rfl h.cache ?_, fun _ ordered => ordered,
    fun _ covered => .inl covered⟩
  intro id named
  cases named

theorem dupMmap_kept (h : dst.Linked) (from_src : src.Linked)
    (done : dst.dupMmap src answers = some (code, t)) : Kept C dst t [] := by
  apply (dupStart_kept h).trans
  apply dupLoop_kept (dupStart_kept (C := C) h).linked _ _ done
  · exact fun v mem => from_src.fits v (mem_reverse.mp mem)
  · exact fun v mem named => from_src.ends (mem_reverse.mp mem) named

theorem Linked.wellFormed (h : s.Linked) (ordered : Ordered s.mmapList) : s.WellFormed where
  sorted := ordered
  proper v mem := ⟨(h.fits v mem).1.2.1, (h.fits v mem).2⟩
  count := h.count
  cache id cached := by simpa using h.cache id cached
  heap id named := by
    obtain ⟨v, mem, same, -⟩ := h.heap id named
    exact ⟨v, mem, same⟩

end Vmas

end

/-- The calls on address spaces, which are named by numbers. The truth values say whether
    `kmalloc` has memory for a new area. -/
inductive VmaCall where
  | find (mm addr : Nat)
  | map (mm addr len : Nat) (flags : VmFlags) (mem : Bool)
  | unmap (mm addr len : Nat) (mem : Bool)
  | mprotect (mm addr len : Nat) (flags : VmFlags) (memLeft memRight : Bool)
  | madvise (mm addr len : Nat) (advice : Option Advice)
  | brk (mm newbrk : Nat) (mem : Bool)
  | dup (dst src : Nat) (answers : List (Bool × Bool))
  deriving DecidableEq, Repr

def vmaStep (s : Nat → Vmas) : VmaCall → Option (Nat → Vmas)
  | .find mm addr => some (update s mm ((s mm).findVma addr).2)
  | .map mm addr len flags mem =>
    ((s mm).mmMap addr len flags mem).map fun r => update s mm r.2.2
  | .unmap mm addr len mem => some (update s mm ((s mm).mmUnmap addr len mem).2.1)
  | .mprotect mm addr len flags memLeft memRight =>
    some (update s mm ((s mm).mmMprotect addr len flags memLeft memRight).2)
  | .madvise _ _ _ _ => some s
  | .brk mm newbrk mem => ((s mm).mmBrk newbrk mem).map fun r => update s mm r.2.1
  | .dup dst src answers => ((s dst).dupMmap (s src) answers).map fun r => update s dst r.2

/-- A call that lowers the program break finds no area in the way of the heap. -/
def BreakClear (s : Nat → Vmas) : VmaCall → Prop
  | .brk mm newbrk _ => (s mm).HeapClear newbrk
  | _ => True

instance (s : Nat → Vmas) : (call : VmaCall) → Decidable (BreakClear s call)
  | .brk _ _ _ => inferInstanceAs (Decidable (HeapClear _ _))
  | .find _ _ | .map _ _ _ _ _ | .unmap _ _ _ _ | .mprotect _ _ _ _ _ _ | .madvise _ _ _ _
  | .dup _ _ _ => isTrue trivial

variable {s : Nat → Vmas}

theorem update_all {P : Vmas → Prop} {mm : Nat} {v : Vmas} (h : ∀ i, P (s i))
    (new : P v) (i : Nat) : P (update s mm v i) := by
  by_cases here : i = mm
  · rw [here, update_self]
    exact new
  · rw [update_of_ne here]
    exact h i

theorem vmaStep_keeps {t : Nat → Vmas} {call : VmaCall}
    (h : ∀ i, (s i).Linked ∧ Ordered (s i).mmapList) (clear : BreakClear s call)
    (taken : vmaStep s call = some t) (i : Nat) : (t i).Linked ∧ Ordered (t i).mmapList := by
  have one {mm : Nat} {v : Vmas} {unmapped : List (Nat × Nat)} {holds : Prop}
      (kept : Kept holds (s mm) v unmapped) (so : holds) :
      ∀ i, (update s mm v i).Linked ∧ Ordered (update s mm v i).mmapList :=
    update_all (P := fun v => v.Linked ∧ Ordered v.mmapList) h
      ⟨kept.linked, kept.ordered so (h mm).2⟩
  cases call with
  | find mm addr =>
    cases taken
    exact one (findVma_kept (h mm).1) trivial i
  | map mm addr len flags mem =>
    obtain ⟨⟨code, stored, v⟩, ran, rfl⟩ := map_eq_some_iff.mp taken
    exact one (mmMap_spec (h mm).1 ran).1 trivial i
  | unmap mm addr len mem =>
    cases taken
    exact one (mmUnmap_kept (h mm).1 rfl) trivial i
  | mprotect mm addr len flags memLeft memRight =>
    cases taken
    exact one (mmMprotect_kept (h mm).1 rfl) trivial i
  | madvise mm addr len advice =>
    cases taken
    exact h i
  | brk mm newbrk mem =>
    obtain ⟨⟨code, v, unmapped⟩, ran, rfl⟩ := map_eq_some_iff.mp taken
    exact one (mmBrk_kept (h mm).1 ran) clear i
  | dup dst src answers =>
    obtain ⟨⟨code, v⟩, ran, rfl⟩ := map_eq_some_iff.mp taken
    exact one (dupMmap_kept (h dst).1 (h src).1 ran) trivial i

/-- From empty address spaces on, the areas stay sorted, disjoint, counted and linked if no
    lowering of the break runs into an area behind the heap. -/
theorem areas_stay_sorted {t : Nat → Vmas} {calls : List VmaCall}
    (empty : ∀ i, ∃ startBrk, s i = .create startBrk) (clear : Along vmaStep BreakClear s calls)
    (run : runFrom vmaStep s calls = some t) (i : Nat) : (t i).WellFormed := by
  have start (i : Nat) : (s i).Linked ∧ Ordered (s i).mmapList := by
    obtain ⟨startBrk, new⟩ := empty i
    rw [new]
    exact ⟨create_linked startBrk, ordered_nil⟩
  have inv : ∀ i, (t i).Linked ∧ Ordered (t i).mmapList :=
    runFrom_invariant (fun _ _ _ h cond taken => vmaStep_keeps h cond taken) start clear run
  exact (inv i).1.wellFormed (inv i).2

/-- Address spaces as `mm_create` makes them. -/
def emptySpaces (_ : Nat) : Vmas := .create userBase

/-- Grow the heap, protect its second page, fork, and lower the break to that page. -/
def protectAndShrink : List VmaCall :=
  [.brk 0 (userBase + 0x4000) true, .find 0 userBase,
    .mprotect 0 (userBase + 0x1000) 0x1000 vmRead true true, .dup 1 0 [],
    .brk 0 (userBase + 0x1000) true, .unmap 1 (userBase + 0x2000) 0x1000 true]

theorem areas_stay_sorted_protectAndShrink : Along vmaStep BreakClear emptySpaces protectAndShrink ∧
    ∃ t, runFrom vmaStep emptySpaces protectAndShrink = some t ∧ (t 0).WellFormed ∧
      (t 1).WellFormed := by
  have clear : Along vmaStep BreakClear emptySpaces protectAndShrink := by decide
  have ends : (runFrom vmaStep emptySpaces protectAndShrink).isSome = true := by decide
  obtain ⟨t, run⟩ := isSome_iff_exists.mp ends
  have sorted := areas_stay_sorted (fun _ => ⟨userBase, rfl⟩) clear run
  exact ⟨clear, t, run, sorted 0, sorted 1⟩

/-- Lowering the break behind the protected page makes the heap overlap two areas. -/
theorem lowered_break_overlaps : ∃ t, runFrom vmaStep emptySpaces
      [.brk 0 (userBase + 0x4000) true, .mprotect 0 (userBase + 0x1000) 0x1000 vmRead true true,
        .brk 0 (userBase + 0x3000) true] = some t ∧
    (t 0).mmapList.map (fun v => (v.start, v.stop)) =
      [(userBase, userBase + 0x3000), (userBase + 0x1000, userBase + 0x2000),
        (userBase + 0x2000, userBase + 0x4000)] ∧ ¬ (t 0).WellFormed := by
  refine ⟨_, rfl, by decide, fun h => ?_⟩
  have sorted := h.sorted
  revert sorted
  decide

end Procore.Mm
