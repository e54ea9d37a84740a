import Procore.Process.LoadResidue

/-! # What a loaded program has of its file

The segments that have bytes in the file are loaded as the file says. Those
without are passed over.
-/

namespace Procore.Process

open Procore.Lib Procore.Mm ProgHdr

section Image

variable {σ ε η : Type} {rd : Reader σ ε η} {image : List UInt8}

/-- The file has these contents: a read succeeds at offsets that are not negative as an `off_t`. -/
def Reader.Reads (rd : Reader σ ε η) (image : List UInt8) : Prop :=
  ∀ len offset files bytes files', offset < 2 ^ 32 →
    rd.read len (toOff offset) files = .done bytes files' →
    offset < 2 ^ 31 ∧ bytes = (image.drop offset).take len

/-- What the file says about an address of a segment. -/
def ProgHdr.want (image : List UInt8) (ph : ProgHdr) (a : Nat) : Option UInt8 :=
  if a < ph.va + ph.filesz then image[ph.offset + (a - ph.va)]? else some 0

theorem toOff_of_nonneg {offset : Nat} (small : offset < 2 ^ 32) (nonneg : 0 ≤ toOff offset) :
    offset < 2 ^ 31 ∧ (toOff offset).toNat = offset := by
  unfold toOff at nonneg ⊢
  by_cases half : offset < 2 ^ 31
  · have same : (offset : Int).bmod (2 ^ 32) = offset := Int.bmod_eq_of_le (by omega) (by omega)
    exact ⟨half, by omega⟩
  · have wrapped : ((offset : Int) - (2 ^ 32 : Nat)).bmod (2 ^ 32) = offset - (2 ^ 32 : Nat) :=
      Int.bmod_eq_of_le (by omega) (by omega)
    rw [Int.sub_bmod_right] at wrapped
    omega

theorem Reader.ofImage_reads (image : List UInt8) : (Reader.ofImage image).Reads image := by
  intro len offset files bytes files' small ran
  generalize here : toOff offset = place at ran
  simp only [Reader.ofImage] at ran
  split at ran
  · next fits =>
      cases ran
      obtain ⟨half, same⟩ := toOff_of_nonneg small (here ▸ fits.1)
      exact ⟨half, by rw [← here, same]⟩
  · cases ran

theorem next_offset {offset len : Nat} (half : offset < 2 ^ 31) (short : len ≤ pgsize) :
    offset + len < 2 ^ 32 := by
  have : pgsize < 2 ^ 31 := by decide
  omega

theorem gives_want (reads : rd.Reads image) (bytes : List UInt8) :
    Gives rd (ProgHdr.decode bytes) (· < 2 ^ 32)
      fun a b => (ProgHdr.decode bytes).want image a = some b where
  first := field_lt bytes 4 4
  read start len files found files' low inFile short small ran := by
    obtain ⟨half, read⟩ := reads _ _ _ _ _ small ran
    refine ⟨next_offset half short, fun a b begins here => ?_⟩
    have inside := (List.getElem?_eq_some_iff.mp here).1
    have length : found.length ≤ len := by
      rw [read, List.length_take]
      exact Nat.min_le_left _ _
    have position : (ProgHdr.decode bytes).offset + (start - (ProgHdr.decode bytes).va) + (a - start) =
        (ProgHdr.decode bytes).offset + (a - (ProgHdr.decode bytes).va) := by omega
    rw [ProgHdr.want, if_pos (by omega), ← position, ← List.getElem?_drop,
      ← List.getElem?_take_of_lt (show a - start < len by omega), ← read, here]
  zero a past := if_neg (by omega)

/-- The segments to load among the headers from number `i` on. -/
def headersFrom (image : List UInt8) (phoff : Nat) : Nat → Nat → List ProgHdr
  | 0, _ => []
  | count + 1, i =>
    let ph := decode ((image.drop (phoff + proghdrSize * i)).take proghdrSize)
    if ph.type = ptLoad then ph :: headersFrom image phoff count (i + 1)
    else headersFrom image phoff count (i + 1)

/-- The segments of a file that are to be loaded. -/
def loadable (image : List UInt8) : List ProgHdr :=
  let elf := ElfHdr.decode (image.take elfhdrSize)
  headersFrom image elf.phoff elf.phnum 0

/-- The segments that have bytes in the file. -/
def inFile (phs : List ProgHdr) : List ProgHdr := phs.filter (0 < ·.filesz)

theorem scanHeaders_reads (reads : rd.Reads image) {phoff count i : Nat} {files files' : σ}
    {found : List ProgHdr} (small : phoff + proghdrSize * i < 2 ^ 32)
    (scanned : scanHeaders rd phoff count i files = .done found files') :
    found = inFile (headersFrom image phoff count i) := by
  induction count generalizing i files found with
  | zero =>
    cases scanned
    rfl
  | succ count ih =>
    obtain ⟨bytes, m, ran, rest⟩ := Prog.done_of_bind scanned
    obtain ⟨half, read⟩ := reads _ _ _ _ _ small ran
    have next : phoff + proghdrSize * (i + 1) < 2 ^ 32 := by
      have := next_offset half (show proghdrSize ≤ pgsize by decide)
      rwa [Nat.mul_succ, ← Nat.add_assoc]
    rw [headersFrom, ← read]
    dsimp only at rest ⊢
    split at rest
    · next skipped =>
        rw [ih next rest]
        split
        · next load =>
            rw [inFile, inFile, List.filter_cons_of_neg]
            simp [skipped.resolve_left (not_not.mpr load)]
        · rfl
    · next loaded =>
        obtain ⟨load, full⟩ := not_or.mp loaded
        obtain ⟨-, m', -, rest'⟩ := Prog.done_of_bind rest
        obtain ⟨later, m'', scanned', last⟩ := Prog.done_of_bind rest'
        cases last
        rw [if_pos (not_not.mp load), inFile, List.filter_cons_of_pos (by simpa using Nat.pos_of_ne_zero full),
          ih next scanned', inFile]

theorem segments_of_scan (reads : rd.Reads image) {files files' : σ}
    (scanned : scan rd files = .done (segments rd files) files') :
    segments rd files = inFile (loadable image) := by
  obtain ⟨elf, m, ran, rest⟩ := Prog.done_of_bind scanned
  obtain ⟨-, read⟩ := reads _ 0 _ _ _ (by decide) ran
  rw [List.drop_zero] at read
  rw [loadable, ← read]
  exact scanHeaders_reads reads (field_lt elf 28 4) rest

/-- What the pages of a segment hold: its own bytes, and what was there before around them. -/
def ProgHdr.holds (image : List UInt8) (ph : ProgHdr) (rest : Option UInt8) (a : Nat) : Option UInt8 :=
  if ph.va ≤ a ∧ a < ph.va + ph.memsz then ph.want image a else rest

/-- The segment is in memory, in areas and on pages with its permissions: first its bytes of the
    file, then zeros. -/
def Loaded (image : List UInt8) (t : Loader σ UInt8) (ph : ProgHdr) : Prop :=
  ∀ a, ph.va ≤ a → a < ph.va + ph.memsz →
    (∃ v ∈ t.vmas.mmapList, v.Holds a ∧ v.flags = ph.vmFlags) ∧
      t.perm (a / pgsize) = pteP ||| ph.perm ∧ t.sees a = ph.want image a

/-- All of the segment lies on pages of other segments that have its permissions, at zeros. -/
def ProgHdr.Borrowed (image : List UInt8) (prior : Nat → UInt8) (ph : ProgHdr) : Prop :=
  ∀ a, ph.va ≤ a → a < ph.va + ph.memsz → ∃ q ∈ inFile (loadable image),
    (roundDown q.va ≤ a ∧ a < roundUp (q.va + q.memsz)) ∧ q.vmFlags = ph.vmFlags ∧
      q.holds image (some (prior a)) a = some 0

theorem ProgHdr.vmFlags_ne_stack (ph : ProgHdr) : vmRead ||| vmWrite ||| vmStack ≠ ph.vmFlags := by
  rw [vmFlags]
  split <;> split <;> split <;> decide

/-- What a loaded program has on the pages of a segment. -/
theorem load_holds (reads : rd.Reads image) (args : List KArg) (files : σ) (free : Nat)
    (mem : List Bool) (prior : Nat → UInt8) {tf : Trapframe} {t : Loader σ UInt8}
    (run : load rd args files free mem prior = .done tf t) :
    (∀ v ∈ t.vmas.mmapList, (∃ ph ∈ inFile (loadable image), Asked ph.va ph.memsz ph.vmFlags v) ∨
      v.flags = vmRead ||| vmWrite ||| vmStack) ∧
    ∀ ph ∈ inFile (loadable image), ph.va + ph.memsz ≤ userTop ∧
      (∃ v ∈ t.vmas.mmapList, Asked ph.va ph.memsz ph.vmFlags v) ∧
      ∀ a, ph.OnPage a → t.perm (a / pgsize) = pteP ||| ph.perm ∧
        t.sees a = ph.holds image (some (prior a)) a := by
  have ensured := loadIcode_returns (P := fun ph a b => ph.want image a = some b) (gives_want reads) args
    files free mem
  obtain ⟨u, shadow, rfl⟩ := load_done rd args files free mem run
  obtain ⟨⟨files', scanned⟩, holes, only, cells, -⟩ := ensured.done shadow
  rw [segments_of_scan reads scanned] at holes only cells
  refine ⟨only, fun ph mem => ?_⟩
  obtain ⟨small, area, has, perm⟩ := cells ph mem
  refine ⟨small, area, fun a page => ⟨perm a page, ?_⟩⟩
  have sees {b : UInt8} (mapped : u.mapped (a / pgsize) = true) (cell : (u.cells a).getD (prior a) = b) :
      (u.fill prior).sees a = some b := cell ▸ if_pos mapped
  rw [holds]
  split
  · next own =>
      obtain ⟨mapped, b, wanted, cell⟩ := has a own.1 own.2
      exact wanted ▸ sees mapped (by rw [cell, Option.getD_some])
  · next out =>
      obtain ⟨mapped, cell⟩ := (holes a).mpr (.inl ⟨ph, mem, page, out⟩)
      exact sees mapped (by rw [cell, Option.getD_none])

/-- After a load every segment is in memory, exactly if each of them has bytes in the file or
    finds its zeros on the pages of others: a segment of zeros only is passed over. -/
theorem segments_loaded_iff (reads : rd.Reads image) (args : List KArg) (files : σ) (free : Nat)
    (mem : List Bool) (prior : Nat → UInt8) {tf : Trapframe} {t : Loader σ UInt8}
    (run : load rd args files free mem prior = .done tf t) :
    (∀ ph ∈ loadable image, 0 < ph.memsz → Loaded image t ph) ↔
      ∀ ph ∈ loadable image, 0 < ph.memsz → 0 < ph.filesz ∨ ph.Borrowed image prior := by
  obtain ⟨only, cells⟩ := load_holds reads args files free mem prior run
  refine forall_congr' fun ph => forall_congr' fun listed => forall_congr' fun _ => ?_
  by_cases part : 0 < ph.filesz
  · refine iff_of_true (fun a first last => ?_) (.inl part)
    obtain ⟨small, ⟨v, here, area⟩, holds⟩ := cells ph (by simp [inFile, listed, part])
    have inside := onPage_of_mem small first last
    refine ⟨⟨v, here, (Asked.holds area).mpr inside, area.2.2⟩, (holds a inside).1, ?_⟩
    rw [(holds a inside).2, ProgHdr.holds, if_pos ⟨first, last⟩]
  · rw [or_iff_right part]
    refine forall_congr' fun a => forall_congr' fun first => forall_congr' fun _ => ?_
    have zero : ph.want image a = some 0 := if_neg (by omega)
    rw [zero]
    constructor
    · rintro ⟨⟨v, here, held, flags⟩, -, sees⟩
      rcases only v here with ⟨q, mem, area⟩ | stack
      · have inside := (Asked.holds area).mp held
        exact ⟨q, mem, inside, area.2.2.symm.trans flags, ((cells q mem).2.2 a inside).2 ▸ sees⟩
      · exact absurd (stack.symm.trans flags) ph.vmFlags_ne_stack
    · rintro ⟨q, mem, inside, flags, byte⟩
      obtain ⟨-, ⟨v, here, area⟩, holds⟩ := cells q mem
      obtain ⟨perm, sees⟩ := holds a inside
      refine ⟨⟨v, here, (Asked.holds area).mpr inside, area.2.2.trans flags⟩, ?_, sees.trans byte⟩
      rw [perm, ProgHdr.perm, ProgHdr.perm, flags]

end Image

theorem segments_loaded_smallImage : ∃ t,
    load (.ofImage smallImage) oneArg () 10 [] (fun _ => 0) = .done ⟨0x800020, ustackTop - 12⟩ t ∧
    (loadable smallImage).length = 1 ∧
    ∀ ph ∈ loadable smallImage, 0 < ph.memsz → Loaded smallImage t ph := by
  have ends : (load (.ofImage smallImage) oneArg () 10 [] fun _ => 0).ends
      (fun tf _ => tf = ⟨0x800020, ustackTop - 12⟩) = true := by decide +kernel
  obtain ⟨tf, t, run, same⟩ := Outcome.ends_iff.mp ends
  obtain rfl := of_decide_eq_true same
  have part : ∀ ph ∈ loadable smallImage, 0 < ph.filesz := by decide +kernel
  have iff := segments_loaded_iff (Reader.ofImage_reads _) _ _ _ _ _ run
  exact ⟨t, run, by decide +kernel, iff.mpr fun ph mem _ => .inl (part ph mem)⟩

/-- An executable with one segment of four zeros, at 0x800020. -/
def zerosImage : List UInt8 :=
  le 4 elfMagic ++ le 20 0 ++ le 4 0x800020 ++ le 4 52 ++ le 12 0 ++ le 2 1 ++ le 6 0 ++
    le 4 ptLoad ++ le 4 84 ++ le 4 0x800020 ++ le 4 0 ++ le 4 0 ++ le 4 4 ++ le 4 6 ++ le 4 0

/-- The program runs without the segment. -/
theorem zeros_not_loaded : ∃ t,
    load (.ofImage zerosImage) oneArg () 10 [] (fun _ => 0) = .done ⟨0x800020, ustackTop - 12⟩ t ∧
    ∃ ph ∈ loadable zerosImage, 0 < ph.memsz ∧ ¬ Loaded zerosImage t ph := by
  have ends : (load (.ofImage zerosImage) oneArg () 10 [] fun _ => 0).ends
      (fun tf t => tf = ⟨0x800020, ustackTop - 12⟩ ∧ t.sees 0x800020 = none) = true := by decide +kernel
  obtain ⟨tf, t, run, facts⟩ := Outcome.ends_iff.mp ends
  obtain ⟨rfl, absent⟩ := of_decide_eq_true facts
  have segment : loadable zerosImage = [⟨ptLoad, 84, 0x800020, 0, 4, 6⟩] := by decide +kernel
  refine ⟨t, run, ⟨ptLoad, 84, 0x800020, 0, 4, 6⟩, segment ▸ .head _, by decide, fun loaded => ?_⟩
  obtain ⟨-, -, sees⟩ := loaded 0x800020 (by decide) (by decide)
  rw [absent] at sees
  cases sees

end Procore.Process
