import Procore.Mm.VmaList
import Procore.Process.LoadFill

/-! # The loops of `load_icode`

A segment is loaded page by page: a page is mapped, bytes are put on it, and nothing else is
touched. What the bytes are is a parameter, since the loops only pass them on.
-/

namespace Procore.Process

open Procore.Lib Procore.Mm Prog Nat List

variable {σ ε η : Type}

/-- A mapped cell that has not been written. -/
def Loader.Hole (s : Loader σ (Option UInt8)) (a : Nat) : Prop :=
  s.mapped (a / pgsize) = true ∧ s.cells a = none

/-- The areas are in order, there is no heap yet, and only pages of areas are mapped. -/
structure Loader.Tidy {β : Type} (s : Loader σ β) : Prop where
  linked : s.vmas.Linked
  ordered : Ordered s.vmas.mmapList
  heap : s.vmas.brkVma = none
  inside : ∀ vpn, s.mapped vpn = true → s.vmas.Covers (vpn * pgsize)

/-- What a program ensures if it succeeds. -/
abbrev Returns {α : Type} (p : LoadM σ (Option UInt8) ε η α)
    (Q : α → Loader σ (Option UInt8) → Prop) (s : Loader σ (Option UInt8)) : Prop :=
  p.wp (fun _ => True) Q (fun _ _ => True) s

theorem Returns.next {α : Type} {p : LoadM σ (Option UInt8) ε η α} {s : Loader σ (Option UInt8)}
    {Q Q' : α → Loader σ (Option UInt8) → Prop} (h : Returns p Q s)
    (later : ∀ value t, Q value t → Q' value t) : Returns p Q' s :=
  h.mono later fun _ _ _ => trivial

section Steps

variable {s t u : Loader σ (Option UInt8)} {a : Nat}

/-- Nothing has changed at the address. -/
structure SameAt (a : Nat) (s t : Loader σ (Option UInt8)) : Prop where
  mapped : t.mapped (a / pgsize) = s.mapped (a / pgsize)
  cells : t.cells a = s.cells a
  perm : t.perm (a / pgsize) = s.perm (a / pgsize)

theorem SameAt.refl (a : Nat) (s : Loader σ (Option UInt8)) : SameAt a s s := ⟨rfl, rfl, rfl⟩

theorem SameAt.trans (first : SameAt a s t) (later : SameAt a t u) : SameAt a s u :=
  ⟨later.mapped.trans first.mapped, later.cells.trans first.cells, later.perm.trans first.perm⟩

theorem SameAt.hole (same : SameAt a s t) : t.Hole a ↔ s.Hole a := by
  rw [Loader.Hole, Loader.Hole, same.mapped, same.cells]

/-- The program has one of the bytes `P` at the address. -/
def HasAt (P : Nat → UInt8 → Prop) (a : Nat) (s : Loader σ (Option UInt8)) : Prop :=
  s.mapped (a / pgsize) = true ∧ ∃ b, P a b ∧ s.cells a = some b

variable {P : Nat → UInt8 → Prop}

theorem HasAt.same (has : HasAt P a s) (same : SameAt a s t) : HasAt P a t := by
  rwa [HasAt, same.mapped, same.cells]

theorem HasAt.not_hole (has : HasAt P a s) : ¬ s.Hole a := by
  rintro ⟨-, none⟩
  obtain ⟨-, b, -, found⟩ := has
  cases none.symm.trans found

structure Paged (perm : Perm) (la : Nat) (s t : Loader σ (Option UInt8)) : Prop where
  vmas : t.vmas = s.vmas
  other : ∀ a, a / pgsize ≠ la / pgsize → SameAt a s t
  here : ∀ a, a / pgsize = la / pgsize → t.Hole a
  perm : t.perm (la / pgsize) = pteP ||| perm

structure Written (addr : Nat) (bytes : List UInt8) (s t : Loader σ (Option UInt8)) : Prop where
  vmas : t.vmas = s.vmas
  mapped : t.mapped = s.mapped
  perm : t.perm = s.perm
  other : ∀ a, ¬ (addr ≤ a ∧ a < addr + bytes.length) → SameAt a s t
  here : ∀ a b, addr ≤ a → bytes[a - addr]? = some b → t.cells a = some b

theorem pgdirAllocPage_returns (perm : Perm) (la : Nat) :
    Returns (pgdirAllocPage (fun _ => none) perm la : LoadM σ _ ε η _)
      (fun _ t => t.files = s.files ∧ Paged perm la s t) s := by
  have paged (m : Loader σ (Option UInt8)) (vmas : m.vmas = s.vmas) (files : m.files = s.files)
      (mapped : m.mapped = s.mapped) (perms : m.perm = s.perm) (cells : m.cells = s.cells) :
      Returns (mapPage (fun _ => none) perm (la / pgsize) : LoadM σ _ ε η _)
        (fun _ t => t.files = s.files ∧ Paged perm la s t) m := by
    refine ⟨files, vmas, fun a other => ?_, fun a here => ?_, Function.update_self ..⟩
    · exact ⟨by simp [other, mapped], by simp [other, cells], by simp [other, perms]⟩
    · exact ⟨by simp [here], by simp [here]⟩
  simp only [pgdirAllocPage, allocPage, freePage, wp_bind, wp_ite,
    wp_fail, wp_modify, implies_true, true_and]
  exact fun _ => ⟨fun _ => paged _ rfl rfl rfl rfl rfl, fun _ _ => paged _ rfl rfl rfl rfl rfl⟩

theorem write_returns (addr : Nat) (bytes : List UInt8) :
    Returns (write some addr bytes : LoadM σ _ ε η _)
      (fun _ t => t.files = s.files ∧ Written addr bytes s t) s := by
  refine ⟨rfl, rfl, rfl, rfl, fun a outside => ⟨rfl, ?_, rfl⟩, fun a b low found => by simp [low, found]⟩
  dsimp only
  split
  · next b found =>
      have inside := (List.getElem?_eq_some_iff.mp found).1
      exact if_neg fun low => outside ⟨low, by omega⟩
  · rfl

theorem Paged.hole {perm : Perm} {la : Nat} (paged : Paged perm la s t) : t.Hole a ↔ s.Hole a ∨ a / pgsize = la / pgsize := by
  by_cases here : a / pgsize = la / pgsize
  · simp [paged.here a here, here]
  · simp [(paged.other a here).hole, here]

theorem Written.hole {addr : Nat} {bytes : List UInt8} (written : Written addr bytes s t) :
    t.Hole a ↔ s.Hole a ∧ ¬ (addr ≤ a ∧ a < addr + bytes.length) := by
  by_cases inside : addr ≤ a ∧ a < addr + bytes.length
  · have found := written.here a _ inside.1
      (getElem?_eq_getElem (show a - addr < bytes.length by omega))
    simp [Loader.Hole, found, inside]
  · simp [(written.other a inside).hole, inside]

/-- A read leaves the memory as it is. -/
theorem loadIcodeRead_returns (rd : Reader σ ε η) (len : Nat) (offset : Int) :
    Returns (loadIcodeRead rd len offset) (fun bytes t => bytes.length = len ∧
      rd.read len offset s.files = .done bytes t.files ∧ t = { s with files := t.files }) s := by
  rw [Returns, wp, loadIcodeRead]
  cases ran : rd.read len offset s.files with
  | done bytes files => exact ⟨rd.full ran, rfl, rfl⟩
  | failed e files => trivial
  | halted reason => trivial

end Steps

section Segment

variable {s s₀ t u : Loader σ (Option UInt8)} {ph : ProgHdr} {start la stop limit : Nat}
  {P : Nat → UInt8 → Prop}

/-- The pages of a segment are mapped below `la` and its bytes are written below `start`. The
    other areas are as they were. -/
structure UpTo (P : Nat → UInt8 → Prop) (ph : ProgHdr) (limit : Nat)
    (s₀ s : Loader σ (Option UInt8)) (start la : Nat) : Prop where
  vmas : s.vmas = s₀.vmas
  has : ∀ a, ph.va ≤ a → a < start → HasAt P a s
  slack : ∀ a, roundDown ph.va ≤ a → a < la → ¬ (ph.va ≤ a ∧ a < start) → s.Hole a
  perm : ∀ a, roundDown ph.va ≤ a → a < la → s.perm (a / pgsize) = pteP ||| ph.perm
  same : ∀ a, a < roundDown ph.va ∨ limit ≤ a → SameAt a s₀ s

theorem pieceSize_eq (low : la ≤ start) (high : start < la + pgsize) (more : start < stop) :
    start + pieceSize start la stop = min stop (la + pgsize) := by
  rw [pieceSize]
  split <;> omega

/-- Where the loops stand: either at the next byte of the next page, or at the end. -/
def Due (ph : ProgHdr) (start la stop : Nat) : Prop :=
  start = max la ph.va ∧ start < la + pgsize ∧ start < stop ∨
    start = stop ∧ stop ≤ la ∧ la < stop + pgsize

theorem Due.next (due : Due ph start la stop) (more : start < stop) :
    Due ph (start + pieceSize start la stop) (la + pgsize) stop := by
  rcases due with ⟨rfl, near, -⟩ | done
  · rw [pieceSize_eq (le_max_left _ _) near more]
    unfold Due
    omega
  · omega

theorem Due.piece_le (due : Due ph start la stop) (more : start < stop) :
    start + pieceSize start la stop ≤ stop ∧ pieceSize start la stop ≤ pgsize := by
  rcases due with ⟨same, near, -⟩ | done
  · rw [pieceSize_eq (same ▸ le_max_left _ _) near more]
    unfold pieceSize
    omega
  · omega

/-- The second loop begins at the end of a page or has nothing to do. -/
theorem due_of_page (whole : pgsize ∣ la) (low : ph.va ≤ start) (above : start ≤ la)
    (below : la < stop + pgsize) (place : start = stop ∨ start = la ∧ la < stop) :
    Due ph start la stop ∧ stop ≤ la + rounds start stop * pgsize := by
  unfold Due
  rw [rounds]
  simp only [pgsize] at *
  omega

structure EndsAt (ph : ProgHdr) (stop la : Nat) : Prop where
  whole : pgsize ∣ la
  low : roundDown ph.va ≤ la
  above : stop ≤ la
  below : la < stop + pgsize

theorem Due.endsAt (due : Due ph start la stop) (ended : ¬ start < stop) (whole : pgsize ∣ la)
    (low : roundDown ph.va ≤ la) (filled : UpTo P ph limit s₀ s start la) :
    start = stop ∧ EndsAt ph stop la ∧ UpTo P ph limit s₀ s stop la := by
  rcases due with more | ⟨rfl, above, below⟩
  · omega
  · exact ⟨rfl, ⟨whole, low, above, below⟩, filled⟩

theorem next_page (whole : pgsize ∣ la) : pgsize ∣ la + pgsize :=
  (Nat.dvd_add_right whole).mpr (Nat.dvd_refl _)

/-- One round of a loop: a page, and the bytes on it. -/
theorem UpTo.round {bytes : List UInt8} (filled : UpTo P ph limit s₀ s start la)
    (due : Due ph start la stop) (more : start < stop) (whole : pgsize ∣ la) (limits : pgsize ∣ limit)
    (low : roundDown ph.va ≤ la) (room : stop ≤ limit) (paged : Paged ph.perm la s t)
    (written : Written start bytes t u) (size : bytes.length = pieceSize start la stop)
    (right : ∀ a b, start ≤ a → bytes[a - start]? = some b → P a b) :
    UpTo P ph limit s₀ u (start + pieceSize start la stop) (la + pgsize) := by
  rcases due with ⟨rfl, near, -⟩ | done
  · have piece := pieceSize_eq (le_max_left _ _) near more
    have below : la + pgsize ≤ limit := by
      simp only [pgsize] at *
      omega
    have page {a : Nat} : a / pgsize = la / pgsize ↔ la ≤ a ∧ a < la + pgsize := by
      obtain ⟨k, rfl⟩ := whole
      simp only [pgsize]
      omega
    have apart {a : Nat} (out : a < la ∨ la + pgsize ≤ a) : SameAt a s u :=
      (paged.other a fun here => by rw [page] at here; omega).trans (written.other a (by omega))
    refine ⟨written.vmas.trans (paged.vmas.trans filled.vmas), fun a first last => ?_,
      fun a first last out => ?_, fun a first last => ?_,
      fun a outside => (filled.same a outside).trans (apart (by omega))⟩
    · by_cases new : la ≤ a
      · have found := getElem?_eq_getElem (show a - max la ph.va < bytes.length by omega)
        refine ⟨?_, _, right a _ (by omega) found, written.here a _ (by omega) found⟩
        rw [written.mapped]
        exact (paged.here a (page.mpr (by omega))).1
      · exact (filled.has a first (by omega)).same (apart (by omega))
    · by_cases new : la ≤ a
      · exact (written.other a (by omega)).hole.mpr (paged.here a (page.mpr (by omega)))
      · exact (apart (by omega)).hole.mpr (filled.slack a first (by omega) (by omega))
    · by_cases new : la ≤ a
      · rw [written.perm, page.mpr ⟨new, last⟩]
        exact paged.perm
      · rw [(apart (by omega)).perm]
        exact filled.perm a first (by omega)
  · omega

/-- What the reader gives for the segment. `Place` are the offsets the loop can come to. -/
structure Gives (rd : Reader σ ε η) (ph : ProgHdr) (Place : Nat → Prop) (P : Nat → UInt8 → Prop) :
    Prop where
  first : Place ph.offset
  read : ∀ start len files bytes files', ph.va ≤ start → start + len ≤ ph.va + ph.filesz →
    len ≤ pgsize → Place (ph.offset + (start - ph.va)) →
    rd.read len (toOff (ph.offset + (start - ph.va))) files = .done bytes files' →
    Place (ph.offset + (start - ph.va) + len) ∧
      ∀ a b, start ≤ a → bytes[a - start]? = some b → P a b
  zero : ∀ a, ph.va + ph.filesz ≤ a → P a 0

section Loops

variable {Place : Nat → Prop} {rd : Reader σ ε η} (gives : Gives rd ph Place P)
  (limits : pgsize ∣ limit) (room : stop ≤ limit)

/-- The reads of the loop over a segment. -/
def scanCopy (rd : Reader σ ε η) (stop : Nat) : Nat → Nat → Nat → Nat → Prog σ ε η Unit
  | 0, _, _, _ => pure ()
  | n + 1, start, la, offset =>
    if start < stop then do
      let _ ← rd.read (pieceSize start la stop) (toOff offset)
      scanCopy rd stop n (start + pieceSize start la stop) (la + pgsize)
        (offset + pieceSize start la stop)
    else pure ()

include gives limits room in
theorem copyLoop_returns (n : Nat) (inFile : stop = ph.va + ph.filesz) (whole : pgsize ∣ la)
    (low : roundDown ph.va ≤ la) (enough : stop ≤ la + n * pgsize) (due : Due ph start la stop)
    (first : ph.va ≤ start) (place : Place (ph.offset + (start - ph.va)))
    (filled : UpTo P ph limit s₀ s start la) :
    Returns (copyLoop rd some (fun _ => none) ph.perm stop n start la (ph.offset + (start - ph.va)))
      (fun r t => (r.1 = stop ∧ EndsAt ph stop r.2 ∧ UpTo P ph limit s₀ t stop r.2) ∧
        scanCopy rd stop n start la (ph.offset + (start - ph.va)) s.files = .done () t.files) s := by
  induction n generalizing s start la with
  | zero =>
    have ended : ¬ start < stop := by
      unfold Due at due
      omega
    exact ⟨due.endsAt ended whole low filled, rfl⟩
  | succ n ih =>
    rw [copyLoop, scanCopy]
    by_cases more : start < stop
    · simp only [if_pos more, wp_bind]
      refine (pgdirAllocPage_returns ph.perm la).next ?_
      rintro _ m ⟨files, paged⟩
      refine (loadIcodeRead_returns rd _ _).next ?_
      rintro bytes m' ⟨length, read, same⟩
      refine (write_returns start bytes).next ?_
      rintro _ t ⟨files', written⟩
      obtain ⟨piece, short⟩ := due.piece_le more
      obtain ⟨place', right⟩ := gives.read start _ _ _ _ first (inFile ▸ piece) short place read
      rw [same] at written
      have next := filled.round due more whole limits low room paged
        ⟨written.vmas, written.mapped, written.perm,
          fun a out => ⟨(written.other a out).1, (written.other a out).2, (written.other a out).3⟩,
          written.here⟩ length right
      have step : ph.offset + (start - ph.va) + pieceSize start la stop =
          ph.offset + (start + pieceSize start la stop - ph.va) := by omega
      rw [step] at place' ⊢
      refine (ih (next_page whole) (by omega) (by grind) (due.next more) (by omega) place' next).next ?_
      rintro r u ⟨reached, later⟩
      refine ⟨reached, ?_⟩
      rw [files'] at later
      rw [files] at read
      rwa [bind_done read]
    · rw [if_neg more, if_neg more]
      exact ⟨due.endsAt more whole low filled, rfl⟩

include limits room in
theorem bssLoop_returns (n : Nat) (zero : ∀ a, start ≤ a → P a 0) (whole : pgsize ∣ la)
    (low : roundDown ph.va ≤ la) (enough : stop ≤ la + n * pgsize) (due : Due ph start la stop)
    (filled : UpTo P ph limit s₀ s start la) :
    Returns (bssLoop some (fun _ => none) ph.perm stop n start la : LoadM σ _ ε η _)
      (fun _ t => t.files = s.files ∧ ∃ la', EndsAt ph stop la' ∧ UpTo P ph limit s₀ t stop la') s := by
  induction n generalizing s start la with
  | zero =>
    have ended : ¬ start < stop := by
      unfold Due at due
      omega
    exact ⟨rfl, la, (due.endsAt ended whole low filled).2⟩
  | succ n ih =>
    rw [bssLoop]
    by_cases more : start < stop
    · simp only [if_pos more, wp_bind]
      refine (pgdirAllocPage_returns ph.perm la).next ?_
      rintro _ m ⟨files, paged⟩
      refine (write_returns start _).next ?_
      rintro _ t ⟨files', written⟩
      have next := filled.round due more whole limits low room paged written length_replicate
        fun a b begins found => by
          rw [getElem?_replicate] at found
          obtain ⟨-, ⟨⟩⟩ := Option.ite_none_right_eq_some.mp found
          exact zero a begins
      refine (ih (fun a begins => zero a (by omega)) (next_page whole) (by omega) (by grind)
        (due.next more) next).next ?_
      rintro _ u ⟨later, reached⟩
      exact ⟨later.trans (files'.trans files), reached⟩
    · rw [if_neg more]
      exact ⟨rfl, la, (due.endsAt more whole low filled).2⟩

/-- Zeros on pages that are there. -/
theorem UpTo.zeros {len : Nat} (filled : UpTo P ph limit s₀ s start la)
    (zero : ∀ a, start ≤ a → P a 0) (low : ph.va ≤ start) (fits : start + len ≤ la) (inside : la ≤ limit)
    (written : Written start (replicate len 0) s t) :
    UpTo P ph limit s₀ t (start + len) la := by
  have round : roundDown ph.va ≤ ph.va := sub_le _ _
  have outside {a : Nat} (out : ¬ (start ≤ a ∧ a < start + len)) : SameAt a s t :=
    written.other a (by rwa [length_replicate])
  refine ⟨written.vmas.trans filled.vmas, fun a first last => ?_, fun a first last out => ?_,
    fun a first last => ?_, fun a out => (filled.same a out).trans (outside (by omega))⟩
  · by_cases new : start ≤ a
    · refine ⟨?_, 0, zero a new, written.here a 0 new ?_⟩
      · rw [written.mapped]
        exact (filled.slack a (by omega) (by omega) (by omega)).1
      · rw [getElem?_replicate, if_pos (by omega)]
    · exact (filled.has a first (by omega)).same (outside (by omega))
  · exact (outside (by omega)).hole.mpr (filled.slack a first last (by omega))
  · rw [written.perm]
    exact filled.perm a first last

include limits room in
/-- From the end of the part in the file to the end of the segment. -/
theorem clearRest_returns (zero : ∀ a, start ≤ a → P a 0) (low : ph.va ≤ start)
    (more : start ≤ stop) (ends : EndsAt ph start la) (filled : UpTo P ph limit s₀ s start la) :
    Returns (clearRest some (fun _ => none) ph.perm start la stop : LoadM σ _ ε η _)
      (fun _ t => t.files = s.files ∧ ∃ la', EndsAt ph stop la' ∧ UpTo P ph limit s₀ t stop la') s := by
  have above := ends.above
  have below := ends.below
  rw [clearRest]
  by_cases rest : start < la
  · rw [if_pos rest]
    by_cases same : start = stop
    · rw [if_pos same]
      subst same
      exact ⟨rfl, la, ends, filled⟩
    simp only [if_neg same, wp_bind, wp_assert]
    -- The page that the part in the file ends in.
    obtain ⟨size, inPage⟩ : start + pieceSize start (la - pgsize) stop = min stop la ∧ la ≤ limit := by
      obtain ⟨k, rfl⟩ := ends.whole
      rw [pieceSize_eq (by simp only [pgsize] at *; omega) (by omega) (by omega)]
      simp only [pgsize] at *
      omega
    refine (write_returns start _).next ?_
    rintro _ m ⟨files, written⟩
    have next := filled.zeros zero low (by omega) inPage written
    rw [size] at next ⊢
    refine ⟨fun _ => ?_, fun _ => trivial⟩
    obtain ⟨due, enough⟩ : Due ph (min stop la) la stop ∧ _ :=
      due_of_page ends.whole (by omega) (by omega) (by omega) (by omega)
    refine (bssLoop_returns limits room _ (fun a begins => zero a (by omega)) ends.whole ends.low enough
      due next).next ?_
    rintro _ t ⟨later, reached⟩
    exact ⟨later.trans files, reached⟩
  · rw [if_neg rest]
    obtain ⟨due, enough⟩ : Due ph start la stop ∧ _ :=
      due_of_page ends.whole low above (by omega) (by omega)
    exact bssLoop_returns limits room _ zero ends.whole ends.low enough due filled

end Loops

variable {a : Nat}

theorem roundUp_eq (small : a ≤ userTop) : roundUp a = (a + (pgsize - 1)) / pgsize * pgsize := by
  rw [roundUp, roundDown]
  simp only [pgsize, word, userTop] at *
  omega

/-- The address is on a page of the segment. -/
def ProgHdr.OnPage (ph : ProgHdr) (a : Nat) : Prop :=
  roundDown ph.va ≤ a ∧ a < roundUp (ph.va + ph.memsz)

/-- The address is in a page of the segment and not in the segment. -/
def ProgHdr.Leaves (ph : ProgHdr) (a : Nat) : Prop :=
  (roundDown ph.va ≤ a ∧ a < roundUp (ph.va + ph.memsz)) ∧ ¬ (ph.va ≤ a ∧ a < ph.va + ph.memsz)

theorem ProgHdr.onPage_of_mem (small : ph.va + ph.memsz ≤ userTop) (first : ph.va ≤ a)
    (last : a < ph.va + ph.memsz) : ph.OnPage a := by
  have low : roundDown ph.va ≤ ph.va := sub_le _ _
  rw [ProgHdr.OnPage, roundUp_eq small]
  simp only [pgsize]
  omega

variable {addr : Nat}

theorem page_in_area {stop : Nat} (low : roundDown addr ≤ a) (high : a < stop) :
    roundDown addr ≤ a / pgsize * pgsize ∧ a / pgsize * pgsize < stop := by
  obtain ⟨k, whole⟩ := roundDown_dvd addr
  simp only [pgsize] at *
  omega

/-- The area that a call of `mm_map` asks for. -/
def Asked (addr len : Nat) (flags : VmFlags) (v : Vma) : Prop :=
  v.start = roundDown addr ∧ v.stop = roundUp (addr + len) ∧ v.flags = flags

theorem Asked.holds {len : Nat} {flags : VmFlags} {v : Vma} (asked : Asked addr len flags v) :
    v.Holds a ↔ roundDown addr ≤ a ∧ a < roundUp (addr + len) := by
  rw [Vma.Holds, asked.1, asked.2.1]

/-- A new area, where there was none. -/
structure Mapped (New : Vma → Prop) (s t : Loader σ (Option UInt8)) : Prop where
  old : ∀ v ∈ s.vmas.mmapList, v ∈ t.vmas.mmapList
  new : ∃ v ∈ t.vmas.mmapList, New v
  only : ∀ v ∈ t.vmas.mmapList, v ∈ s.vmas.mmapList ∨ New v
  fresh : ∀ v, New v → ∀ a, v.Holds a → ¬ s.vmas.Covers a

theorem Mapped.covers {New : Vma → Prop} (mapped : Mapped New s t) (before : s.vmas.Covers a) :
    t.vmas.Covers a := by
  obtain ⟨v, listed, holds⟩ := before
  exact ⟨v, mapped.old v listed, holds⟩

theorem mmMap_returns {len : Nat} {flags : VmFlags} (tidy : s.Tidy) (small : addr + len ≤ userTop) :
    Returns (mmMap addr len flags : LoadM σ _ ε η _) (fun _ t => t.files = s.files ∧ t.Tidy ∧
      (∀ a, SameAt a s t) ∧ Mapped (Asked addr len flags) s t) s := by
  have fits : (addr + len) % word = addr + len := mod_eq_of_lt (by simp only [userTop, word] at *; omega)
  simp only [mmMap, kmalloc, wp_bind, wp_get, wp_modify, wp_pure]
  split
  · trivial
  · rename_i stored vmas done
    obtain ⟨kept, -⟩ := Vmas.mmMap_spec tidy.linked done
    obtain ⟨heap, fresh, mem⟩ := Vmas.mmMap_fresh tidy.linked tidy.ordered done
    rw [fits] at fresh mem
    refine ⟨rfl, ⟨kept.linked, kept.ordered trivial tidy.ordered, heap.trans tidy.heap, ?_⟩,
      fun a => ⟨rfl, rfl, rfl⟩, fun v old => (mem v).mpr (.inl old), ⟨_, (mem _).mpr (.inr rfl), rfl, rfl, rfl⟩,
      fun v found => ((mem v).mp found).imp_right ?_, ?_⟩
    · intro vpn mapped
      simpa using kept.covers _ (tidy.inside vpn mapped)
    · rintro rfl
      exact ⟨rfl, rfl, rfl⟩
    · rintro v ⟨low, high, -⟩ a holds
      exact fresh a (low ▸ holds.1) (high ▸ holds.2)
  · trivial
  · trivial

/-- The segment is loaded, on pages of its own. -/
structure Adds (P : Nat → UInt8 → Prop) (ph : ProgHdr) (s t : Loader σ (Option UInt8)) : Prop where
  tidy : t.Tidy
  area : Mapped (Asked ph.va ph.memsz ph.vmFlags) s t
  other : ∀ a, ¬ ph.OnPage a → SameAt a s t
  has : ∀ a, ph.va ≤ a → a < ph.va + ph.memsz → HasAt P a t
  slack : ∀ a, ph.Leaves a → t.Hole a
  perm : ∀ a, ph.OnPage a → t.perm (a / pgsize) = pteP ||| ph.perm

theorem loadSegment_returns {Place : Nat → Prop} {rd : Reader σ ε η} (gives : Gives rd ph Place P)
    (tidy : s.Tidy) (part : 0 < ph.filesz) (fits : ph.filesz ≤ ph.memsz)
    (small : ph.va + ph.memsz ≤ userTop) :
    Returns (loadSegment rd some (fun _ => none) ph) (fun _ t => Adds P ph s t ∧
      scanCopy rd (ph.va + ph.filesz) (rounds ph.va (ph.va + ph.filesz)) ph.va (roundDown ph.va)
        ph.offset s.files = .done () t.files) s := by
  simp only [loadSegment, wp_bind]
  refine (mmMap_returns tidy small).next ?_
  rintro _ m ⟨files, tidy', same, area⟩
  have room : ph.va + ph.memsz ≤ roundUp (ph.va + ph.memsz) := by
    rw [roundUp_eq small]
    simp only [pgsize]
    omega
  have before : UpTo P ph (roundUp (ph.va + ph.memsz)) m m ph.va (roundDown ph.va) :=
    ⟨rfl, by omega, by omega, by omega, fun a _ => .refl a m⟩
  have ⟨due, enough⟩ : Due ph ph.va (roundDown ph.va) (ph.va + ph.filesz) ∧
      ph.va + ph.filesz ≤ roundDown ph.va + rounds ph.va (ph.va + ph.filesz) * pgsize := by
    unfold Due
    rw [rounds, roundDown]
    simp only [pgsize]
    omega
  have copied := copyLoop_returns gives (roundUp_dvd _) (by omega) _ rfl (roundDown_dvd _)
    (le_rfl) enough due (le_rfl) (by rw [Nat.sub_self]; exact gives.first) before
  rw [Nat.sub_self, Nat.add_zero] at copied
  refine copied.next ?_
  rintro ⟨start, la⟩ u ⟨⟨stop, ends, filled⟩, scanned⟩
  cases stop
  refine (clearRest_returns (roundUp_dvd _) room gives.zero (by omega) (by omega) ends filled).next ?_
  rintro _ t ⟨files', la', ends', filled'⟩
  have top : la' = roundUp (ph.va + ph.memsz) := by
    have above := ends'.above
    have below := ends'.below
    obtain ⟨k, rfl⟩ := ends'.whole
    rw [roundUp_eq small]
    simp only [pgsize] at *
    omega
  have other (a : Nat) (out : ¬ ph.OnPage a) : SameAt a s t :=
    (same a).trans (filled'.same a (by unfold ProgHdr.OnPage at out; omega))
  have area' : Mapped (Asked ph.va ph.memsz ph.vmFlags) s t :=
    ⟨filled'.vmas ▸ area.old, filled'.vmas ▸ area.new, filled'.vmas ▸ area.only, area.fresh⟩
  refine ⟨⟨⟨filled'.vmas ▸ tidy'.linked, filled'.vmas ▸ tidy'.ordered, filled'.vmas ▸ tidy'.heap, ?_⟩,
    area', other, filled'.has, ?_, ?_⟩, ?_⟩
  · intro vpn present
    by_cases page : ph.OnPage (vpn * pgsize)
    · obtain ⟨v, listed, asked⟩ := area'.new
      exact ⟨v, listed, asked.holds.mpr page⟩
    · have kept := (other _ page).mapped
      rw [Nat.mul_div_cancel _ (by decide)] at kept
      exact area'.covers (tidy.inside vpn (kept.symm.trans present))
  · exact fun a leaves => filled'.slack a leaves.1.1 (top ▸ leaves.1.2) leaves.2
  · exact fun a page => filled'.perm a page.1 (top ▸ page.2)
  · rw [← files, scanned, files']

theorem Adds.hole (adds : Adds P ph s t) (tidy : s.Tidy) (a : Nat) :
    t.Hole a ↔ s.Hole a ∨ ph.Leaves a := by
  by_cases page : ph.OnPage a
  · have fresh : ¬ s.Hole a := fun hole => by
      obtain ⟨v, -, asked⟩ := adds.area.new
      exact adds.area.fresh v asked _ (asked.holds.mpr (page_in_area page.1 page.2)) (tidy.inside _ hole.1)
    rw [or_iff_right fresh]
    refine ⟨fun hole => ⟨page, fun own => ?_⟩, adds.slack a⟩
    exact (adds.has a own.1 own.2).not_hole hole
  · rw [(adds.other a page).hole, or_iff_left fun leaves => page leaves.1]

end Segment

end Procore.Process
