import Procore.Mm.VmaList

/-! # The areas as a function from addresses to flags

`find_vma` sees the areas of an address space as a partial function from addresses
to flags. Dividing an area leaves it alone, so `mm_mprotect` changes it on the range
and nowhere else, and `mm_unmap` takes the range out of its domain. The holes of its
domain are what `get_unmapped_area` looks for.
-/

namespace Procore.Mm

open Vmas List Vma Option Nat

/-- The flags of the area that `find_vma` finds. -/
def Vmas.flagsAt (s : Vmas) (a : Nat) : Option VmFlags := (s.findVma a).1.map flags

section

variable {before after vs parts : List Vma} {v w : Vma} {a start stop : Nat} {f flags : VmFlags}

theorem says_nil : ¬ Says [] a f := by simp [Says]

theorem Ordered.unique (h : Ordered vs) (mem : v ∈ vs) (holds : v.Holds a) (mem' : w ∈ vs)
    (holds' : w.Holds a) : v = w := by
  induction vs with
  | nil => cases mem
  | cons x vs ih =>
    have rest := (pairwise_cons.mp h).2
    simp only [Holds] at holds holds'
    rcases mem_cons.mp mem with rfl | behind
    · rcases mem_cons.mp mem' with rfl | behind'
      · rfl
      · have := h.below behind'
        omega
    · rcases mem_cons.mp mem' with rfl | behind'
      · have := h.below behind
        omega
      · exact ih rest behind behind'

theorem Vmas.flagsAt_eq_some {s : Vmas} (h : Ordered s.mmapList) :
    s.flagsAt a = some f ↔ Says s.mmapList a f := by
  rw [flagsAt, map_eq_some_iff]
  constructor
  · rintro ⟨v, there, flags⟩
    obtain ⟨mem, holds⟩ := findVma_holds there
    exact ⟨v, mem, holds, flags⟩
  · rintro ⟨v, mem, holds, flags⟩
    cases there : (s.findVma a).1 with
    | some w =>
      obtain ⟨mem', holds'⟩ := findVma_holds there
      exact ⟨w, rfl, h.unique mem holds mem' holds' ▸ flags⟩
    | none =>
      simp only [findVma] at there
      split at there
      · rename_i missed
        have scan := find?_eq_none.mp (or_eq_none_iff.mp missed).2 v mem
        simp only [decide_eq_true_eq] at scan
        exact absurd holds scan
      · cases there

theorem Vmas.flagsAt_congr {s t : Vmas} (h : Ordered s.mmapList) (h' : Ordered t.mmapList)
    (same : ∀ f, Says t.mmapList a f ↔ Says s.mmapList a f) : t.flagsAt a = s.flagsAt a := by
  apply ext
  intro f
  rw [flagsAt_eq_some h', flagsAt_eq_some h, same]

end

/-! ## `mm_unmap` -/

section

variable {before vs : List Vma} {v : Vma} {s t : Vmas} {start stop : Nat} {mem : Bool} {code : Code}
  {unmapped : List (Nat × Nat)}

/-- What the loop of `mm_unmap` leaves of the areas `vs`, and which ranges it unmaps. -/
structure Gone (start stop : Nat) (before vs : List Vma) (t : Vmas) (unmapped : List (Nat × Nat)) : Prop where
  ordered : Ordered t.mmapList
  stay : ∀ a f, Says t.mmapList a f ↔ Says before a f ∨ Says vs a f ∧ ¬ (start ≤ a ∧ a < stop)
  ranges : ∀ r ∈ unmapped, start ≤ r.1 ∧ r.1 < r.2 ∧ r.2 ≤ stop ∧ pgsize ∣ r.1 ∧ pgsize ∣ r.2
  covers : ∀ a, (∃ r ∈ unmapped, r.1 ≤ a ∧ a < r.2) ↔ (start ≤ a ∧ a < stop) ∧ ∃ v ∈ vs, v.Holds a

/-- An area reaches over both ends of the range. -/
def Spans (start stop : Nat) (vs : List Vma) : Prop := ∃ v ∈ vs, v.start < start ∧ stop < v.stop

theorem spans_cons : Spans start stop (v :: vs) ↔ (v.start < start ∧ stop < v.stop) ∨ Spans start stop vs := by
  simp [Spans]

theorem cutVma_eq_none {cutStart cutEnd : Nat} : s.cutVma v cutStart cutEnd mem = none ↔
    cutStart ≠ v.start ∧ cutEnd ≠ v.stop ∧ mem = false := by
  simp only [cutVma]
  split_ifs <;> simp_all

theorem Gone.skip (out : v.stop ≤ start) (gone : Gone start stop (before ++ [v]) vs t unmapped) :
    Gone start stop before (v :: vs) t unmapped := by
  have apart {a : Nat} : v.Holds a → ¬ (start ≤ a ∧ a < stop) := by
    simp only [Holds]
    omega
  refine ⟨gone.ordered, ?_, gone.ranges, ?_⟩
  · intro a f
    rw [gone.stay, says_append, says_cons, says_cons]
    have := says_nil (a := a) (f := f)
    tauto
  · intro a
    rw [gone.covers]
    simp only [mem_cons, exists_eq_or_imp]
    tauto

theorem Gone.late (h : Ordered (before ++ v :: vs)) (nonempty : v.start < v.stop)
    (late : stop ≤ v.start) (list : t.mmapList = before ++ v :: vs) : Gone start stop before (v :: vs) t [] := by
  have out {w : Vma} {a : Nat} (mem : w ∈ v :: vs) (holds : w.Holds a) : ¬ (start ≤ a ∧ a < stop) := by
    have ordered : Ordered (v :: vs) := (pairwise_append.mp h).2.1
    simp only [Holds] at holds
    rcases mem_cons.mp mem with rfl | rest
    · omega
    · have := ordered.below rest
      omega
  refine ⟨list ▸ h, ?_, by simp, ?_⟩
  · intro a f
    rw [list, says_append]
    refine or_congr_right (and_iff_left_of_imp ?_).symm
    rintro ⟨w, mem, holds, -⟩
    exact out mem holds
  · intro a
    simp only [not_mem_nil, false_and, exists_false, false_iff, not_and]
    rintro inside ⟨w, mem, holds⟩
    exact out mem holds inside

/-- The part of an area that is in the range is cut out. -/
theorem Gone.cut {parts : List Vma} (meets : start < v.stop ∧ v.start < stop ∧ start < stop)
    (proper : v.Proper) (whole : pgsize ∣ start) (wholeEnd : pgsize ∣ stop)
    (left : ∀ a f, Says parts a f ↔ (v.Holds a ∧ v.flags = f) ∧
      ¬ (max start v.start ≤ a ∧ a < min stop v.stop))
    (gone : Gone start stop (before ++ parts) vs t unmapped) :
    Gone start stop before (v :: vs) t ((max start v.start, min stop v.stop) :: unmapped) := by
  obtain ⟨nonempty, low, high⟩ := proper
  refine ⟨gone.ordered, ?_, ?_, ?_⟩
  · intro a f
    rw [gone.stay, says_append, left, says_cons]
    simp only [Holds]
    grind
  · intro r mem
    rcases mem_cons.mp mem with rfl | mem
    · refine ⟨by omega, by omega, by omega, ?_, ?_⟩
      · rcases max_choice start v.start with same | same <;> rwa [same]
      · rcases min_choice stop v.stop with same | same <;> rwa [same]
    · exact gone.ranges r mem
  · intro a
    have here : (max start v.start ≤ a ∧ a < min stop v.stop) ↔ (start ≤ a ∧ a < stop) ∧ v.Holds a := by
      simp only [Holds]
      omega
    simp only [mem_cons, exists_eq_or_imp]
    rw [gone.covers, here, ← and_or_left]

/-- The loop fails only when it cannot divide an area, and then that is all it has come to. -/
theorem unmapLoop_cases (some : start < stop) (whole : pgsize ∣ start) (wholeEnd : pgsize ∣ stop)
    (h : Ordered (before ++ vs)) (proper : ∀ v ∈ vs, v.Proper)
    (done : unmapLoop start stop mem s before vs = (code, t, unmapped)) :
    (mem = false ∧ Spans start stop vs ∧ code = .noMem ∧ t = { s with mmapList := before ++ vs } ∧
      unmapped = [(start, stop)]) ∨
    (¬ (mem = false ∧ Spans start stop vs) ∧ code = .ok ∧ Gone start stop before vs t unmapped) := by
  induction vs generalizing s t before code unmapped with
  | nil =>
    cases done
    rw [append_nil] at h
    exact .inr ⟨by simp [Spans], rfl, h, by simp [Says], by simp, by simp⟩
  | cons v vs ih =>
    obtain ⟨nonempty, low, high⟩ := proper v (.head _)
    have ordered : Ordered (v :: vs) := (pairwise_append.mp h).2.1
    have later : ∀ w ∈ vs, w.Proper := fun w mem => proper w (.tail _ mem)
    rw [unmapLoop] at done
    rw [spans_cons]
    split at done
    · rename_i early
      have shorter : ¬ (v.start < start ∧ stop < v.stop) := by omega
      rcases ih (by simpa using h) later done with ⟨fails, spans, code, t, ranges⟩ | ⟨fits, code, gone⟩
      · exact .inl ⟨fails, .inr spans, code, by simpa using t, ranges⟩
      · exact .inr ⟨by tauto, code, gone.skip early⟩
    -- Areas behind this one begin behind its end.
    have behind : ¬ Spans start stop vs := by
      rintro ⟨w, mem, begins, -⟩
      have := ordered.below mem
      omega
    split at done
    · rename_i late
      cases done
      refine .inr ⟨?_, rfl, .late h nonempty late rfl⟩
      rintro ⟨-, here | spans⟩
      · omega
      · exact behind spans
    · have cutStart : (if v.start < start then start else v.start) = max start v.start := by
        split <;> omega
      have cutEnd : (if stop < v.stop then stop else v.stop) = min stop v.stop := by
        split <;> omega
      simp only [cutStart, cutEnd] at done
      rw [if_pos (by omega)] at done
      split at done
      · rename_i stuck
        cases done
        obtain ⟨left, right, fails⟩ := cutVma_eq_none.mp stuck
        have ends : max start v.start = start ∧ min stop v.stop = stop := by omega
        exact .inl ⟨fails, .inl (by omega), rfl, rfl, by rw [ends.1, ends.2]⟩
      · rename_i parts s' cut
        obtain ⟨new, inside, left⟩ := cutVma_parts cut (by omega) (by omega) (by omega)
        have cuts : ¬ (mem = false ∧ (v.start < start ∧ stop < v.stop ∨ Spans start stop vs)) := by
          rintro ⟨fails, spans⟩
          have spans := spans.resolve_right behind
          rw [cutVma_eq_none.mpr ⟨by omega, by omega, fails⟩] at cut
          cases cut
        have joined : Ordered (before ++ parts ++ vs) := h.refine new inside
        rcases ih joined later rfl with ⟨-, spans, -⟩ | ⟨-, code, gone⟩
        · exact absurd spans behind
        · cases done
          exact .inr ⟨cuts, code, gone.cut (by omega) ⟨nonempty, low, high⟩ whole wholeEnd left⟩

end

/-! ## `mm_mprotect` -/

section

variable {before after rest vs : List Vma} {v : Vma} {s t u : Vmas} {start stop a : Nat} {f flags : VmFlags}
  {mem : Bool} {code : Code}

theorem covered_holds {cursor : Nat} (cov : covered stop cursor vs = true) (low : cursor ≤ a)
    (high : a < stop) : ∃ v ∈ vs, v.Holds a := by
  induction vs generalizing cursor with
  | nil =>
    simp only [covered, decide_eq_true_eq] at cov
    omega
  | cons v vs ih =>
    rw [covered, if_neg (by omega)] at cov
    simp only [mem_cons, exists_eq_or_imp]
    split at cov
    · exact .inr (ih cov low)
    split at cov
    · cases cov
    by_cases here : a < v.stop
    · exact .inl ⟨by omega, here⟩
    · refine .inr (ih cov ?_)
      split <;> omega

/-- The areas in the range get the flags. -/
theorem protectVmas_says (ordered : Ordered vs) (nonempty : ∀ v ∈ vs, v.start < v.stop)
    (left : Edge vs start) (right : Edge vs stop) : Says (protectVmas start stop flags vs) a f ↔
      if start ≤ a ∧ a < stop then (∃ v ∈ vs, v.Holds a) ∧ flags = f else Says vs a f := by
  induction vs with
  | nil => simp [protectVmas, Says]
  | cons v vs ih =>
    rw [edge_cons] at left right
    have rest := ih (pairwise_cons.mp ordered).2 (fun w mem => nonempty w (.tail _ mem)) left.2 right.2
    have here := nonempty v (.head _)
    rw [protectVmas]
    split
    · have out {w : Vma} (mem : w ∈ v :: vs) (holds : w.Holds a) : ¬ (start ≤ a ∧ a < stop) := by
        simp only [Holds] at holds
        rcases mem_cons.mp mem with rfl | mem
        · omega
        · have := ordered.below mem
          omega
      split_ifs with inside
      · refine iff_of_false ?_ ?_
        · rintro ⟨w, mem, holds, -⟩
          exact out mem holds inside
        · rintro ⟨⟨w, mem, holds⟩, -⟩
          exact out mem holds inside
      · rfl
    · rw [says_cons, rest, says_cons]
      have held : v.Holds a → ((start ≤ v.start ∧ v.stop ≤ stop) ↔ (start ≤ a ∧ a < stop)) := by
        simp only [Holds]
        omega
      have shape : (if start ≤ v.start ∧ v.stop ≤ stop then { v with flags := flags } else v).Holds a ↔
          v.Holds a := by
        split <;> rfl
      rw [shape]
      by_cases holds : v.Holds a
      · simp only [held holds]
        split <;> simp_all
      · simp [holds]

theorem splitLeft_error (failed : s.splitLeft start mem = .error code) : code ≠ .ok := by
  rw [splitLeft] at failed
  split at failed
  · cases failed
    simp
  split at failed
  · split at failed
    · cases failed
    · cases failed
      simp
  · cases failed

/-- What `mm_mprotect` does to the function of the areas. -/
theorem mmMprotect_flagsAt {addr len : Nat} {memLeft memRight : Bool} (h : s.Linked)
    (ordered : Ordered s.mmapList) (done : s.mmMprotect addr len flags memLeft memRight = (code, t)) :
    t.flagsAt a = if code = .ok ∧ addr ≤ a ∧ a < roundUp ((addr + len) % word) then some flags
      else s.flagsAt a := by
  have kept : Kept True s t [] := mmMprotect_kept h done
  rw [mmMprotect] at done
  have wholeEnd := roundUp_dvd ((addr + len) % word)
  generalize roundUp ((addr + len) % word) = stop at *
  split at done
  · cases done
    rfl
  rename_i valid
  simp only at done
  split at done
  · cases done
    rfl
  split at done
  · cases done
    rfl
  rename_i cov
  rw [Bool.not_eq_false] at cov
  have whole : pgsize ∣ addr := by
    apply dvd_of_mod_eq_zero
    simpa using fun bad => valid (.inr (.inl bad))
  split at done
  · rename_i failed
    cases done
    rw [if_neg fun both => splitLeft_error failed both.1]
  rename_i mid before rest ran
  obtain ⟨kept₁, list, low, same₁, left, right⟩ := splitLeft_spec h whole ran
  have ordered₁ := kept₁.ordered trivial ordered
  have second {code : Code} {t : Vmas} (ran : mid.splitRight stop memRight before rest = (code, t)) :=
    splitRight_spec (C := True) addr kept₁.linked list wholeEnd
      (fun v after found => low v after (by omega) cov found) ran
  split at done
  · rename_i last ran'
    obtain ⟨kept₂, same₂, edges⟩ := second ran'
    have edges := edges ordered₁ left (right ordered) (by omega) rfl
    cases done
    have same (f : VmFlags) := (same₂ a f).trans (same₁ a f)
    apply ext
    intro f
    rw [flagsAt_eq_some (kept.ordered trivial ordered), protectVmas_says (kept₂.ordered trivial ordered₁)
      (fun v mem => (kept₂.linked.fits v mem).1.2.1) edges.1 edges.2]
    simp only [true_and]
    split
    · rename_i inside
      obtain ⟨v, mem, holds⟩ := covered_holds cov inside.1 inside.2
      obtain ⟨w, there, holds, -⟩ := (same v.flags).mpr ⟨v, mem, holds, rfl⟩
      have covers : ∃ w ∈ last.mmapList, w.Holds a := ⟨w, there, holds⟩
      simp [covers]
    · rw [same, flagsAt_eq_some ordered]
  · rename_i failed
    have bad : code ≠ .ok := by
      rintro rfl
      exact failed t done
    rw [if_neg fun both => bad both.1]
    exact flagsAt_congr ordered (kept.ordered trivial ordered) fun f =>
      ((second done).2.1 a f).trans (same₁ a f)

end

/-! ## Holes -/

section

variable {vs : List Vma} {v : Vma} {size a c : Nat}

/-- Whole pages below the stack that no area meets. -/
def Hole (vs : List Vma) (size a : Nat) : Prop :=
  pgsize ∣ a ∧ userBase ≤ a ∧ a + size ≤ stackLimit ∧ ∀ v ∈ vs, ∀ x, a ≤ x → x < a + size → ¬ v.Holds x

def wholePages (len : Nat) : Nat := (len + (pgsize - 1)) / pgsize * pgsize

theorem Hole.apart (hole : Hole vs size a) (some : 0 < size) (mem : v ∈ vs) (nonempty : v.start < v.stop) :
    v.stop ≤ a ∨ a + size ≤ v.start := by
  have first := hole.2.2.2 v mem a (le_refl a) (by omega)
  have second := hole.2.2.2 v mem v.start
  simp only [Holds] at first second
  omega

theorem roundUp_least (small : a + (pgsize - 1) < word) :
    a ≤ roundUp a ∧ ∀ b, pgsize ∣ b → a ≤ b → roundUp a ≤ b := by
  rw [roundUp, mod_eq_of_lt small]
  simp only [roundDown, pgsize]
  exact ⟨by omega, fun b whole above => by omega⟩

theorem unmappedLoop_zero (proper : ∀ v ∈ vs, v.start < v.stop ∧ stackLimit < v.start)
    (fits : size ≤ stackLimit) : unmappedLoop size 0 vs = 0 := by
  cases vs with
  | nil => simp [unmappedLoop]
  | cons v vs =>
    have := proper v (.head _)
    have below := mod_le size word
    rw [unmappedLoop, if_neg (by omega), if_pos ⟨by omega, by omega, by rw [zero_add]; omega⟩]

/-- From a candidate on, the loop finds the first hole. -/
theorem unmappedLoop_spec (some : 0 < size) (ordered : Ordered vs)
    (proper : ∀ v ∈ vs, v.start < v.stop ∧ v.stop < word) (whole : pgsize ∣ c) (low : userBase ≤ c)
    (room : c + size ≤ stackLimit) :
    (unmappedLoop size c vs ≠ 0 → c ≤ unmappedLoop size c vs ∧ Hole vs size (unmappedLoop size c vs)) ∧
      ∀ a, c ≤ a → Hole vs size a → unmappedLoop size c vs ≠ 0 ∧ unmappedLoop size c vs ≤ a := by
  have positive : 0 < userBase := by decide
  have limit : stackLimit + pgsize < word := by decide
  induction vs generalizing c with
  | nil =>
    rw [unmappedLoop, if_pos (by omega)]
    exact ⟨fun _ => ⟨le_refl c, whole, low, room, by simp⟩, fun a above _ => ⟨by omega, above⟩⟩
  | cons v vs ih =>
    obtain ⟨nonempty, narrow⟩ := proper v (.head _)
    have ih {c : Nat} := ih (c := c) (pairwise_cons.mp ordered).2 fun w mem => proper w (.tail _ mem)
    have tail {a : Nat} (hole : Hole (v :: vs) size a) : Hole vs size a :=
      ⟨hole.1, hole.2.1, hole.2.2.1, fun w mem => hole.2.2.2 w (.tail _ mem)⟩
    -- Holes behind the first area are holes of all the areas.
    have behind {a c : Nat} (past : v.stop ≤ c) (above : c ≤ a) (hole : Hole vs size a) :
        Hole (v :: vs) size a := by
      refine ⟨hole.1, hole.2.1, hole.2.2.1, forall_mem_cons.mpr ⟨fun x from_ _ => ?_, hole.2.2.2⟩⟩
      simp only [Holds]
      omega
    rw [unmappedLoop]
    split
    · rename_i past
      obtain ⟨found, least⟩ := ih whole low room
      exact ⟨fun nonzero => ⟨(found nonzero).1, behind past (found nonzero).1 (found nonzero).2⟩,
        fun a above hole => least a above (tail hole)⟩
    rw [mod_eq_of_lt (by omega : c + size < word)]
    split
    · refine ⟨fun _ => ⟨le_refl c, whole, low, room, forall_mem_cons.mpr ⟨?_, ?_⟩⟩,
        fun a above _ => ⟨by omega, above⟩⟩
      · simp only [Holds]
        omega
      · intro w mem x from_ upto
        have := ordered.below mem
        simp only [Holds]
        omega
    have past {a : Nat} (above : c ≤ a) (hole : Hole (v :: vs) size a) : v.stop ≤ a := by
      have := hole.apart some (.head _) nonempty
      omega
    by_cases wraps : v.stop + (pgsize - 1) < word
    · obtain ⟨up, least⟩ := roundUp_least wraps
      split
      · refine ⟨absurd rfl, fun a above hole => ?_⟩
        have := least a hole.1 (past above hole)
        have := hole.2.2.1
        omega
      · obtain ⟨found, first⟩ := ih (roundUp_dvd v.stop) (by omega) (by omega)
        refine ⟨fun nonzero => ?_, fun a above hole =>
          first a (least a hole.1 (past above hole)) (tail hole)⟩
        exact ⟨by have := (found nonzero).1; omega, behind up (found nonzero).1 (found nonzero).2⟩
    · -- The area ends in the last page of memory, and the candidate wraps to zero.
      have none {a : Nat} (hole : Hole (v :: vs) size a) (above : c ≤ a) : False := by
        have := past above hole
        have := hole.2.2.1
        omega
      have zero : roundUp v.stop = 0 := by
        simp only [roundUp, roundDown, pgsize, word] at *
        omega
      rw [zero, unmappedLoop_zero, ite_self]
      · exact ⟨absurd rfl, fun a above hole => (none hole above).elim⟩
      · intro w mem
        have := ordered.below mem
        exact ⟨(proper w (.tail _ mem)).1, by omega⟩
      · omega

theorem hasRoom_of_apart {start stop : Nat} (apart : ∀ v ∈ vs, v.stop ≤ start ∨ stop ≤ v.start) :
    hasRoom start stop vs = true := by
  induction vs with
  | nil => rfl
  | cons v vs ih =>
    rw [hasRoom]
    split_ifs with reaches
    · exact ih fun w mem => apart w (.tail _ mem)
    · exact decide_eq_true ((apart v (.head _)).resolve_left reaches)

/-- `get_unmapped_area` returns the lowest hole, where `mm_map` finds nothing in the way. -/
theorem lowest_hole_found {s : Vmas} (len : Nat) (ordered : Ordered s.mmapList)
    (proper : ∀ v ∈ s.mmapList, v.start < v.stop ∧ v.stop < word) :
    (s.getUnmappedArea len = 0 ↔ len = 0 ∨ ¬ ∃ a, Hole s.mmapList (wholePages len) a) ∧
      (s.getUnmappedArea len ≠ 0 → Hole s.mmapList (wholePages len) (s.getUnmappedArea len) ∧
        (∀ a, Hole s.mmapList (wholePages len) a → s.getUnmappedArea len ≤ a) ∧
        hasRoom (roundDown (s.getUnmappedArea len))
          (roundUp ((s.getUnmappedArea len + len) % word)) s.mmapList = true) := by
  rw [getUnmappedArea]
  by_cases zero : len = 0
  · simp [zero]
  -- A length that is too large has no hole.
  have large (out : stackLimit - userBase < wholePages len) : ¬ ∃ a, Hole s.mmapList (wholePages len) a := by
    rintro ⟨a, -, low, high, -⟩
    omega
  split
  · have : stackLimit - userBase < wholePages len := by
      simp only [wholePages, stackLimit, userTop, word, pgsize] at *
      omega
    simp [large this]
  have size : roundUp len = wholePages len ∧ 0 < wholePages len ∧ len ≤ wholePages len := by
    simp only [roundUp, roundDown, wholePages, word, pgsize] at *
    omega
  rw [size.1]
  split
  · simp [large (by omega)]
  obtain ⟨found, least⟩ := unmappedLoop_spec size.2.1 ordered proper (by decide)
    (le_refl _) (by simp only [pgsize] at *; omega)
  generalize unmappedLoop (wholePages len) userBase s.mmapList = r at *
  have first (a : Nat) (hole : Hole s.mmapList (wholePages len) a) := least a hole.2.1 hole
  constructor
  · simp only [zero, false_or]
    constructor
    · rintro rfl ⟨a, hole⟩
      exact (first a hole).1 rfl
    · intro none
      by_contra nonzero
      exact none ⟨r, (found nonzero).2⟩
  · intro nonzero
    obtain ⟨-, hole⟩ := found nonzero
    refine ⟨hole, fun a there => (first a there).2, hasRoom_of_apart fun v mem => ?_⟩
    have apart := hole.apart size.2.1 mem (proper v mem).1
    have whole := hole.1
    have high := hole.2.2.1
    have ends : roundUp ((r + len) % word) = r + wholePages len := by
      simp only [roundUp, roundDown, stackLimit, userTop, word, pgsize] at *
      omega
    rwa [roundDown_of_dvd whole, ends]

/-- Two areas with a gap of one page between them, and a free page behind. -/
def gapOfOne : Vmas :=
  { Vmas.create userBase with mmapList := [⟨0, 0x200000, 0x201000, 1⟩, ⟨1, 0x202000, 0x203000, 1⟩] }

theorem lowest_hole_found_gap : gapOfOne.getUnmappedArea 5000 = 0x203000 ∧
    Hole gapOfOne.mmapList 8192 0x203000 ∧ ∀ a, Hole gapOfOne.mmapList 8192 a → 0x203000 ≤ a := by
  have found : gapOfOne.getUnmappedArea 5000 = 0x203000 := by decide
  have least := (lowest_hole_found (s := gapOfOne) 5000 (by simp [gapOfOne, Ordered])
    (by simp [gapOfOne, word])).2
  exact ⟨found, (least (by decide)).1, (least (by decide)).2.1⟩

/-- No page is needed for no bytes, but none is found. -/
theorem empty_hole_not_found : (Vmas.create userBase).getUnmappedArea 0 = 0 ∧
    Hole (Vmas.create userBase).mmapList (wholePages 0) userBase :=
  ⟨rfl, by decide, by decide, by decide, by simp [Vmas.create]⟩

end

end Procore.Mm
