import Procore.Lib.Flat
import Procore.Sfs.Image
import Procore.Sfs.ResizeSpec

/-! # A regular file as a flat byte array

One file is read, written, resized and sought in through the vnode operations,
and compared with a plain list of bytes. The file keeps the bytes past its end
in its last block when it is shortened, so a file that is shortened inside a
block and grown again shows them.
-/

namespace Procore.Sfs

open Procore.Lib

/-- The operations on an open file. Lengths are of type `size_t`. -/
inductive FileOp where
  | write (offset : Int) (data : { bytes : List UInt8 // bytes.length < 2 ^ 32 })
  | read (offset : Int) (length : UInt32)
  | seek (pos : Int)
  | truncate (len : Int)

/-- The call, and the bytes it returns. -/
def FileOp.call (i : Nat) : FileOp → SfsM (List UInt8)
  | .write offset data => do
    let done ← sfsWrite i offset data.val
    match done.ret with
    | some e => Prog.fail e
    | none => pure []
  | .read offset length => do
    let done ← sfsRead i offset length.toNat
    match done.ret with
    | some e => Prog.fail e
    | none => pure done.data
  | .seek pos => do
    sfsTryseek i pos
    pure []
  | .truncate len => do
    sfsTruncfile i len
    pure []

/-- The bytes of a file, and the bytes an operation on them returns. -/
def FileOp.flat : FileOp → List UInt8 → List UInt8 × List UInt8
  | .write offset data, bytes =>
    (if data.val = [] then bytes else Flat.write 0 bytes offset.toNat data.val, [])
  | .read offset length, bytes => (bytes, Flat.read bytes offset.toNat length.toNat)
  | .seek pos, bytes => (if bytes.length < pos.toNat then Flat.resize 0 bytes pos.toNat else bytes, [])
  | .truncate len, bytes => (Flat.resize 0 bytes len.toNat, [])

/-- The volume, and the bytes returned so far. -/
structure FileState where
  fs : Fs
  returned : List (List UInt8) := []

/-- One successful operation. No request fails. -/
def FileState.step (i : Nat) (s : FileState) (op : FileOp) : Option FileState :=
  match op.call i { fs := s.fs } with
  | .done bytes w => some { fs := w.fs, returned := s.returned ++ [bytes] }
  | .failed _ _ => none
  | .halted _ => none

def flatRun : List UInt8 × List (List UInt8) → List FileOp → List UInt8 × List (List UInt8)
  | s, [] => s
  | (bytes, returned), op :: ops => flatRun ((op.flat bytes).1, returned ++ [(op.flat bytes).2]) ops

/-- A byte of a file, in memory or on disk. -/
def Fs.byte (fs : Fs) (i x : Nat) : UInt8 :=
  match fs.content i (x / blksize) with
  | none => 0
  | some block => block (x % blksize)

/-- An operation shortens the file at the end of a block, or where the rest of the
    block is zero. -/
def FileState.CutsClean (i : Nat) (s : FileState) : FileOp → Prop
  | .truncate len => len.toNat < (s.fs.dinode i).size →
      len.toNat % blksize = 0 ∨
        ∀ x < blocksFor len.toNat * blksize, len.toNat ≤ x → s.fs.byte i x = 0
  | _ => True

instance (i : Nat) (s : FileState) : (op : FileOp) → Decidable (s.CutsClean i op)
  | .truncate _ => inferInstanceAs (Decidable (_ → _))
  | .write _ _ => isTrue trivial
  | .read _ _ => isTrue trivial
  | .seek _ => isTrue trivial

/-- File `i` holds these bytes, and zeros in the rest of its last block. -/
structure FlatRep (A : AFs) (i : Nat) (bytes : List UInt8) : Prop where
  regular : (A.info i).type ≠ .dir
  dense : A.Dense i
  tail : A.Tail i
  size : (A.info i).size = bytes.length
  blocks : (A.info i).blocks = blocksFor bytes.length
  byte : ∀ x, A.byte i x = bytes.getD x 0

/-- The volume is consistent, and its file `i`, which is in memory, holds these bytes. -/
def HoldsBytes (fs : Fs) (i : Nat) (bytes : List UInt8) : Prop :=
  ∃ A r, Rep False ∅ A fs ∧ A.refs i = some r ∧ FlatRep A i bytes

section Step

variable {fs : Fs} {i : Nat} {bytes : List UInt8}

theorem blocksFor_max (m n : Nat) : blocksFor (max m n) = max (blocksFor m) (blocksFor n) := by
  unfold blocksFor blksize
  omega

variable {A A' : AFs}

/-- A completed write is a write to the list. -/
theorem FlatRep.write {off : Nat} {data : List UInt8} {done : Transfer}
    (h : FlatRep A i bytes) (bounded : (A'.info i).blocks ≤ maxBlocks)
    (io : A.Io i off (min (off + data.length) maxFileSize) (some data)
      (fun x => data.getD (x - off) 0) done A') (success : done.ret = none) :
    FlatRep A' i (Flat.write 0 bytes off data) := by
  obtain ⟨alen, reaches⟩ := io.complete success
  have limit : maxBlocks * blksize < maxFileSize := by decide
  have short : min (off + data.length) maxFileSize = off + data.length := by
    unfold blocksFor blksize at reaches
    unfold blksize at limit
    omega
  have upper := io.upper
  rw [short] at alen reaches upper
  have all : done.alen = data.length := by omega
  have size := io.size
  constructor
  · rw [io.type]
    exact h.regular
  · exact io.dense h.dense
  · exact io.tail h.tail
  · rw [Flat.length_write, size, h.size, all]
  · have lower := io.blocks
    rw [h.blocks] at lower upper
    rw [Flat.length_write, blocksFor_max]
    omega
  · intro x
    rw [io.byte x, Flat.getD_write, all, h.byte x]
    rfl

/-- A completed read returns a part of the list. -/
theorem FlatRep.read {off length : Nat} {f : Nat → UInt8} {done : Transfer}
    (h : FlatRep A i bytes) (bounded : (A.info i).blocks ≤ maxBlocks)
    (io : A.Io i off (ioEnd (A.info i).size off length none) none f done A')
    (inside : off < (A.info i).size) (success : done.ret = none) :
    done.data = Flat.read bytes off length ∧ FlatRep A' i bytes := by
  obtain ⟨alen, reaches⟩ := io.complete success
  have limit : maxBlocks * blksize < maxFileSize := by decide
  have endpos : ioEnd (A.info i).size off length none = min (off + length) bytes.length := by
    have blocks := h.blocks
    rw [ioEnd, if_pos rfl, h.size]
    unfold blocksFor blksize at blocks
    unfold blksize at limit
    omega
  have size := io.size
  have upper := io.upper
  have lower := io.blocks
  rw [endpos] at alen upper
  rw [h.size] at inside
  have mono : blocksFor (min (off + length) bytes.length) ≤ blocksFor bytes.length := by
    exact Nat.div_le_div_right (by omega)
  refine ⟨?_, ?_, io.dense h.dense, io.tail h.tail, ?_, ?_, ?_⟩
  · rw [io.data rfl, Flat.read_eq_map 0, alen, AFs.bytes]
    rw [show min (off + length) bytes.length - off = min length (bytes.length - off) by omega]
    apply List.map_congr_left
    intro j _
    rw [h.byte]
  · rw [io.type]
    exact h.regular
  · rw [size, h.size]
    omega
  · rw [h.blocks] at lower upper
    omega
  · intro x
    rw [io.byte x, if_neg (by simp only [written, Option.isSome_none, Bool.false_eq_true, if_false]; omega),
      h.byte]

/-- A completed change of the length is one of the list, if what it cuts from the last
    block is zero. -/
theorem FlatRep.resize {len : Nat} (h : FlatRep A i bytes) (resized : A.Resized i len A')
    (clean : len < bytes.length → len % blksize = 0 ∨
      ∀ x < blocksFor len * blksize, len ≤ x → A.byte i x = 0) :
    FlatRep A' i (Flat.resize 0 bytes len) := by
  constructor
  · rw [resized.type]
    exact h.regular
  · exact resized.dense h.dense
  · exact resized.tail h.tail
  · rw [resized.size, Flat.length_resize]
  · rw [resized.blocks, Flat.length_resize]
  · intro x
    rw [resized.byte h.tail x, Flat.getD_resize, ← h.byte x]
    by_cases inside : x < len
    · rw [if_pos inside, if_pos]
      unfold blocksFor blksize
      omega
    split_ifs with kept
    · -- The byte lies past the new end in the last block that is kept.
      by_cases shorter : len < bytes.length
      · cases clean shorter with
        | inl aligned =>
          unfold blocksFor blksize at kept
          unfold blksize at aligned
          omega
        | inr zero =>
          apply zero x _ (by omega)
          unfold blksize at *
          omega
      · rw [h.byte x, List.getD_eq_getElem?_getD, List.getElem?_eq_none (by omega)]
        rfl
    · rfl

def CallEnsures (i : Nat) (fs : Fs) (call : SfsM (List UInt8)) (after : List UInt8 × List UInt8) :
    Prop :=
  call.wp (fun _ => True) (fun out w => out = after.2 ∧ HoldsBytes w.fs i after.1) (fun _ _ => True)
    { fs := fs }

section

variable (h : HoldsBytes fs i bytes)
include h

theorem write_flat (offset : Int) (data : { bytes : List UInt8 // bytes.length < 2 ^ 32 }) :
    CallEnsures i fs (FileOp.call i (.write offset data)) (FileOp.flat (.write offset data) bytes) := by
  obtain ⟨A, r, rep, refs, flat⟩ := h
  have ok : Ok False ∅ A { fs := fs } := ⟨rep, False.elim⟩
  have supply : Supplies (fun x => data.val.getD (x - offset.toNat) 0) (some data.val) offset.toNat
      data.val.length := by
    intro given eq
    cases eq
    exact ⟨le_refl _, fun j _ => by simp⟩
  simp only [CallEnsures, FileOp.call, Prog.wp_bind]
  apply (sfsIo_spec ok refs flat.dense data.property supply (.inr trivial)
    (fun _ _ _ => .inr trivial) (.inr trivial) (fun _ => trivial)).mono
  · intro done w moved
    obtain ⟨-, A', ok', result⟩ := moved
    cases success : done.ret with
    | some e => trivial
    | none =>
      refine ⟨rfl, ?_⟩
      cases result with
      | inl idle =>
        obtain ⟨same, -, -, empty⟩ := idle
        subst same
        have nothing : data.val = [] := by
          cases empty success with
          | inl zero => exact List.eq_nil_of_length_eq_zero zero
          | inr isRead => cases isRead.1
        rw [FileOp.flat, if_pos nothing]
        exact ⟨A', r, ok'.rep, refs, flat⟩
      | inr io =>
        obtain ⟨-, io, -⟩ := io
        have refs' : A'.refs i = some r := by rw [io.refs_self, refs]
        obtain ⟨-, -, -, live, -⟩ := ok'.cached refs'
        rw [ioEnd, if_neg (Option.some_ne_none _)] at io
        have nonempty : data.val ≠ [] := by
          intro nothing
          have := io.nonempty
          rw [nothing, List.length_nil] at this
          omega
        rw [FileOp.flat, if_neg nonempty]
        exact ⟨A', r, ok'.rep, refs', flat.write (ok'.rep.node i live).bounded io success⟩
  · exact fun _ _ _ => trivial

theorem read_flat (offset : Int) (length : UInt32) :
    CallEnsures i fs (FileOp.call i (.read offset length)) (FileOp.flat (.read offset length) bytes) := by
  obtain ⟨A, r, rep, refs, flat⟩ := h
  have ok : Ok False ∅ A { fs := fs } := ⟨rep, False.elim⟩
  have supply : Supplies (fun _ => 0) none offset.toNat length.toNat := by
    intro given eq
    cases eq
  simp only [CallEnsures, FileOp.call, Prog.wp_bind]
  apply (sfsIo_spec ok refs flat.dense length.toNat_lt supply (.inr trivial)
    (fun _ _ _ => .inr trivial) (.inr trivial) (fun _ => trivial)).mono
  · intro done w moved
    obtain ⟨-, A', ok', result⟩ := moved
    cases success : done.ret with
    | some e => trivial
    | none =>
      cases result with
      | inl idle =>
        obtain ⟨same, -, data, empty⟩ := idle
        subst same
        refine ⟨?_, A', r, ok'.rep, refs, flat⟩
        rw [data, FileOp.flat, Flat.read]
        cases empty success with
        | inl zero => rw [zero, List.take_zero]
        | inr past =>
          have past := past.2
          rw [flat.size] at past
          rw [List.drop_eq_nil_of_le past, List.take_nil]
      | inr io =>
        obtain ⟨-, io, -⟩ := io
        obtain ⟨-, -, -, live, -⟩ := ok.cached refs
        have inside : offset.toNat < (A.info i).size := by
          have := io.nonempty
          rw [ioEnd, if_pos rfl] at this
          omega
        obtain ⟨data, flat'⟩ := flat.read (rep.node i live).bounded io inside success
        exact ⟨data, A', r, ok'.rep, by rw [io.refs_self, refs], flat'⟩
  · exact fun _ _ _ => trivial

/-- A change of the length, by `truncate` or by `seek`. -/
theorem resize_flat {len : Int} (clean : len.toNat < bytes.length → len.toNat % blksize = 0 ∨
      ∀ x < blocksFor len.toNat * blksize, len.toNat ≤ x → fs.byte i x = 0) :
    (sfsTruncfile i len).wp (fun _ => True)
      (fun _ w => HoldsBytes w.fs i (Flat.resize 0 bytes len.toNat)) (fun _ _ => True) { fs := fs } := by
  obtain ⟨A, r, rep, refs, flat⟩ := h
  have ok : Ok False ∅ A { fs := fs } := ⟨rep, False.elim⟩
  obtain ⟨-, -, -, live, -⟩ := ok.cached refs
  have byte (x : Nat) : fs.byte i x = A.byte i x := by
    have content := (rep.node i live).content (x / blksize)
    cases here : A.content i (x / blksize) <;> simp [Fs.byte, AFs.byte, content, here]
  simp only [byte] at clean
  apply (sfsTruncfile_spec ok refs flat.dense flat.regular (.inr trivial) (fun _ => .inr trivial)
    (fun _ => trivial)).mono
  · intro _ w resized
    obtain ⟨-, -, A', done, ok'⟩ := resized
    exact ⟨A', r, ok'.rep, by rw [done.refs_self, refs], flat.resize done clean⟩
  · exact fun _ _ _ => trivial

theorem HoldsBytes.size : (fs.dinode i).size = bytes.length := by
  obtain ⟨A, r, rep, refs, flat⟩ := h
  obtain ⟨-, -, -, live, -⟩ := Ok.cached (w := { fs := fs }) ⟨rep, False.elim⟩ refs
  rw [← flat.size, ← (rep.node i live).info]
  rfl

theorem seek_flat (pos : Int) :
    CallEnsures i fs (FileOp.call i (.seek pos)) (FileOp.flat (.seek pos) bytes) := by
  have size := h.size
  simp only [CallEnsures, FileOp.call, sfsTryseek, Prog.wp_bind]
  split
  · trivial
  have held := h
  obtain ⟨A, r, rep, refs, flat⟩ := held
  obtain ⟨sin, cache, -, -, -⟩ := Ok.cached (w := { fs := fs }) ⟨rep, False.elim⟩ refs
  rw [fs.dinode_of_cached cache] at size
  rw [Prog.wp_bind, wp_getSin cache, size]
  by_cases past : bytes.length < pos.toNat
  · rw [if_pos past]
    apply (resize_flat h (fun shorter => by omega)).mono
    · intro _ w after
      rw [FileOp.flat, if_pos past]
      exact ⟨rfl, after⟩
    · exact fun _ _ _ => trivial
  · rw [if_neg past, FileOp.flat, if_neg past]
    exact ⟨rfl, h⟩

theorem truncate_flat (len : Int) {returned : List (List UInt8)}
    (clean : FileState.CutsClean i ⟨fs, returned⟩ (.truncate len)) :
    CallEnsures i fs (FileOp.call i (.truncate len)) (FileOp.flat (.truncate len) bytes) := by
  simp only [CallEnsures, FileOp.call, Prog.wp_bind]
  rw [FileState.CutsClean, h.size] at clean
  apply (resize_flat h clean).mono
  · intro _ w after
    exact ⟨rfl, after⟩
  · exact fun _ _ _ => trivial

end

/-- One step of the file is one step of the list. -/
theorem step_flat {s t : FileState} {op : FileOp} (h : HoldsBytes s.fs i bytes)
    (clean : s.CutsClean i op) (taken : s.step i op = some t) :
    HoldsBytes t.fs i (op.flat bytes).1 ∧ t.returned = s.returned ++ [(op.flat bytes).2] := by
  have ensures : CallEnsures i s.fs (op.call i) (op.flat bytes) := by
    cases op with
    | write offset data => exact write_flat h offset data
    | read offset length => exact read_flat h offset length
    | seek pos => exact seek_flat h pos
    | truncate len => exact truncate_flat h len clean
  rw [FileState.step] at taken
  split at taken
  · rename_i out w ran
    cases taken
    obtain ⟨same, after⟩ := ensures.done ran
    exact ⟨after, by rw [same]⟩
  · cases taken
  · cases taken

end Step

/-- A file behaves as a flat byte array in every run that cuts it clean. -/
theorem file_is_flat {i : Nat} {s t : FileState} {bytes : List UInt8} {ops : List FileOp}
    (start : HoldsBytes s.fs i bytes) (clean : Along (FileState.step i) (FileState.CutsClean i) s ops)
    (run : runFrom (FileState.step i) s ops = some t) :
    t.returned = (flatRun (bytes, s.returned) ops).2 ∧
      HoldsBytes t.fs i (flatRun (bytes, s.returned) ops).1 := by
  induction ops generalizing s bytes with
  | nil =>
    cases run
    exact ⟨rfl, start⟩
  | cons op ops ih =>
    obtain ⟨mid, taken, rest⟩ := runFrom_cons.mp run
    obtain ⟨after, returned⟩ := step_flat start clean.1 taken
    have := ih after (clean.2 mid taken) rest
    rwa [returned] at this

/-- A volume whose root directory holds one empty file, which is open. -/
def emptyFileImage : Image where
  blocks := 16
  inodes := [(1, dirInode 2 [3, 4, 5]), (6, { type := .file, nlinks := 1 })]
  entries := [(3, ⟨1, dotName⟩), (4, ⟨1, dotdotName⟩), (5, ⟨6, ⟨[102], by decide⟩⟩)]
  memory := [1, 6]

theorem emptyFileImage_holds : HoldsBytes emptyFileImage.fs 6 [] := by
  have unmapped (k : Nat) : emptyFileImage.abs.content 6 k = none := by
    by_cases direct : k < ndirect
    · exact (dif_pos direct).trans (if_pos rfl)
    · exact dif_neg direct
  refine ⟨emptyFileImage.abs, {}, Image.rep (by decide) _, rfl, ?_⟩
  constructor
  · decide
  · intro k inside
    exact absurd inside (Nat.not_lt_zero k)
  · intro k _
    exact unmapped k
  · rfl
  · rfl
  · intro x
    rw [AFs.byte, unmapped]
    rfl

/-- Write three bytes, move the end of the file and read past them. -/
def writeAndGrow : List FileOp :=
  [.write 0 ⟨[7, 8, 9], by decide⟩, .truncate 4096, .seek 5000, .truncate 4096, .read 1 4]

theorem file_is_flat_writeAndGrow : ∃ t,
    runFrom (FileState.step 6) ⟨emptyFileImage.fs, []⟩ writeAndGrow = some t ∧
      t.returned = [[], [], [], [], [8, 9, 0, 0]] := by
  refine exists_run (by decide +kernel) fun t run => ?_
  have flat := file_is_flat emptyFileImage_holds (by decide +kernel) run
  exact flat.1.trans (by decide +kernel)

/-- Shorten a file inside its block, let it grow again and read. -/
def cutAndRegrow : List FileOp :=
  [.write 0 ⟨List.replicate 100 1, by decide⟩, .truncate 50, .truncate 100, .read 60 2]

theorem cut_bytes_reappear : HoldsBytes emptyFileImage.fs 6 [] ∧
    (flatRun ([], []) cutAndRegrow).2 = [[], [], [], [0, 0]] ∧
    (runFrom (FileState.step 6) ⟨emptyFileImage.fs, []⟩ cutAndRegrow).map FileState.returned =
      some [[], [], [], [1, 1]] := by
  refine ⟨emptyFileImage_holds, ?_, ?_⟩
  · decide +kernel
  · decide +kernel

end Procore.Sfs
