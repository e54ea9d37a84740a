import Procore.Sfs.Room

/-! # Files as bytes

A position that is not mapped reads as zero, so that appending a block does not
change any byte. A transfer goes over the blocks of its range one by one; what
it has done when it stops, early or not, is a range of bytes written.
-/

namespace Procore.Sfs

open Procore.Lib List Nat AFs
open Prog (wp_assert wp_attempt wp_bind)

variable {strict : Prop} {inflight : Finset Nat} {A A' A'' : AFs} {w w' : World} {H : Halt → Prop}
  {i k : Nat} {r : InodeRefs} {f : Nat → UInt8}

/-- A byte of a file, counted from its beginning. -/
def AFs.byte (A : AFs) (i x : Nat) : UInt8 :=
  match A.content i (x / blksize) with
  | none => 0
  | some block => block (x % blksize)

/-- Every position before the end of the file is mapped. -/
def AFs.Dense (A : AFs) (i : Nat) : Prop := ∀ k < (A.info i).blocks, A.content i k ≠ none

/-- No position past the end of the file is mapped. -/
def AFs.Tail (A : AFs) (i : Nat) : Prop := ∀ k, (A.info i).blocks ≤ k → A.content i k = none

/-- The direct positions that are mapped are counted, also in the disk copy. -/
def AFs.Head (A : AFs) (i : Nat) : Prop :=
  ∀ k < ndirect, A.content i k ≠ none →
    k < (A.info i).blocks ∧ ∀ n, (A.info i).stored = some n → k < n

/-- The bytes `[lo, hi)` of file `i` have become those of `f`; the file may have grown. -/
structure AFs.Wrote (A : AFs) (i lo hi : Nat) (f : Nat → UInt8) (A' : AFs) : Prop
    extends A.Off A' i where
  refs_self : A'.refs i = A.refs i
  type : (A'.info i).type = (A.info i).type
  nlinks : (A'.info i).nlinks = (A.info i).nlinks
  size : (A'.info i).size = (A.info i).size
  blocks : (A.info i).blocks ≤ (A'.info i).blocks
  stored : A.Unwritten A' i
  byte : ∀ x, A'.byte i x = if lo ≤ x ∧ x < hi then f x else A.byte i x
  dense : A.Dense i → A'.Dense i
  tail : A.Tail i → A'.Tail i
  head : A.Head i → A'.Head i

theorem AFs.Off.trans (h : A.Off A' i) (h' : A'.Off A'' i) : A.Off A'' i where
  live := h'.live.trans h.live
  info j other := (h'.info j other).trans (h.info j other)
  refs j other := (h'.refs j other).trans (h.refs j other)
  content j other := (h'.content j other).trans (h.content j other)

namespace AFs.Wrote

variable {lo mid hi : Nat}

theorem refl (A : AFs) (i lo : Nat) (f : Nat → UInt8) : A.Wrote i lo lo f A := by
  refine ⟨.refl A i, rfl, rfl, rfl, rfl, le_refl _, .inr rfl, ?_, id, id, id⟩
  intro x
  rw [if_neg (by omega)]

theorem trans (h : A.Wrote i lo mid f A') (h' : A'.Wrote i mid hi f A'') (lower : lo ≤ mid)
    (upper : mid ≤ hi) : A.Wrote i lo hi f A'' where
  toOff := h.toOff.trans h'.toOff
  refs_self := h'.refs_self.trans h.refs_self
  type := h'.type.trans h.type
  nlinks := h'.nlinks.trans h.nlinks
  size := h'.size.trans h.size
  blocks := le_trans h.blocks h'.blocks
  stored := h.stored.trans h'.stored
  byte x := by
    rw [h'.byte x, h.byte x]
    by_cases first : x < mid
    · rw [if_neg (by omega)]
      by_cases inside : lo ≤ x
      · rw [if_pos ⟨inside, first⟩, if_pos ⟨inside, by omega⟩]
      · rw [if_neg (by omega), if_neg (by omega)]
    · by_cases second : x < hi
      · rw [if_pos ⟨by omega, second⟩, if_pos ⟨by omega, second⟩]
      · rw [if_neg (by omega), if_neg (by omega), if_neg (by omega)]
  dense := h'.dense ∘ h.dense
  tail := h'.tail ∘ h.tail
  head := h'.head ∘ h.head

theorem shift (h : A.Wrote i lo lo f A') (pos : Nat) (g : Nat → UInt8) : A.Wrote i pos pos g A' := by
  refine { h with byte := fun x => ?_ }
  have same := h.byte x
  rw [if_neg (by omega)] at same
  rw [if_neg (by omega), same]

end AFs.Wrote

theorem AFs.Grows.wrote (h : A.Grows i A') (pos : Nat) (f : Nat → UInt8) :
    A.Wrote i pos pos f A' := by
  refine ⟨h.toOff, h.refs_self, h.type, h.nlinks, h.size, ?_, h.stored, ?_, ?_, ?_, ?_⟩
  · rw [h.blocks]
    omega
  · intro x
    rw [if_neg (by omega)]
    simp only [byte, h.content_self]
    by_cases last : x / blksize = (A.info i).blocks
    · rw [if_pos last]
      cases A.content i (x / blksize) <;> rfl
    · rw [if_neg last]
  · intro dense k inside
    rw [h.blocks] at inside
    rw [h.content_self]
    split
    · exact Option.some_ne_none _
    · exact dense k (by omega)
  · intro tail k outside
    rw [h.blocks] at outside
    rw [h.content_self, if_neg (by omega)]
    exact tail k (by omega)
  · intro head k direct mapped
    rw [h.blocks]
    by_cases last : k = (A.info i).blocks
    · refine ⟨by omega, fun n some => ?_⟩
      have empty : A.content i k = none := by
        by_contra held
        have := (head k direct held).1
        omega
      rw [h.direct (by omega) (by rwa [← last])] at some
      cases some
    · rw [h.content_self, if_neg last] at mapped
      have before := head k direct mapped
      refine ⟨by omega, fun n some => ?_⟩
      cases h.stored with
      | inl dirty =>
        rw [dirty] at some
        cases some
      | inr same => exact before.2 n (same ▸ some)

/-- Find the block at a position, appending it if it is the next one. -/
theorem sfsBmapLoadNolock_spec (ok : Ok strict inflight A w) (refs : A.refs i = some r)
    (dense : A.Dense i) (bound : k ≤ (A.info i).blocks)
    (room : k < maxBlocks ∨ H .indexOutOfRange) (pos : Nat) (f : Nat → UInt8) :
    (sfsBmapLoadNolock i k).wp H
      (fun b w' => b ≠ 0 ∧ w'.fs.ptr i k = b ∧ w.Later w' ∧ ∃ A', A.Wrote i pos pos f A' ∧
        (A'.info i).blocks = max (A.info i).blocks (k + 1) ∧ Ok strict inflight A' w')
      (fun _ w' => k < maxBlocks ∧ Ok strict inflight A w' ∧ w.Later w') w := by
  obtain ⟨-, -, -, live, -⟩ := ok.cached refs
  by_cases last : k = (A.info i).blocks
  · apply (sfsBmapLoadNolock_grow ok refs last room).mono_done
    intro b w' h
    obtain ⟨real, ptr, later, A', grows, ok'⟩ := h
    refine ⟨real, ptr, later, A', grows.wrote pos f, ?_, ok'⟩
    rw [grows.blocks, last]
    omega
  · have inside : k < (A.info i).blocks := by omega
    apply (sfsBmapLoadNolock_read ok refs inside (dense k inside)).mono
    · intro b w' h
      obtain ⟨real, ptr, same, later⟩ := h
      refine ⟨real, by rw [same]; exact ptr, later, A, .refl A i pos f, by omega, ?_⟩
      exact ok.sameFs same later
    · intro e w' h
      exact ⟨lt_of_lt_of_le inside (ok.rep.node i live).bounded, ok.sameFs h.2.1 h.2.2.1, h.2.2.1⟩

/-- The chunk begins at a byte position and stays in its block. -/
structure Chunk.At (chunk : Chunk) (pos : Nat) : Prop where
  offset : chunk.offset = pos % blksize
  nonempty : 0 < chunk.length
  inside : chunk.offset + chunk.length ≤ blksize
  whole : chunk.whole = true → chunk.offset = 0 ∧ chunk.length = blksize

variable {pos : Nat}

theorem Chunk.At.request {chunk : Chunk} (h : chunk.At pos) :
    chunk.offset < blksize ∧ chunk.offset + chunk.length ≤ blksize := by
  have := h.nonempty
  have := h.inside
  omega

theorem readChunk_spec {b : Nat} {chunk : Chunk} (valid : b ≠ 0 ∧ b < w.fs.blocks)
    (h : chunk.At pos) : (readChunk b chunk).wp H
      (fun bytes w' => bytes = slice (w.fs.disk b) chunk.offset chunk.length ∧ w'.fs = w.fs ∧
        w.Later w')
      w.IoFails w := by
  unfold readChunk
  split_ifs with whole
  · rw [(h.whole whole).1, (h.whole whole).2]
    exact sfsRblock_spec valid
  · exact sfsRbuf_spec valid h.request

/-- The block after a chunk of it is overwritten. -/
def Chunk.Over (chunk : Chunk) (bytes : List UInt8) (old new : Block) : Prop :=
  ∀ j < blksize, new j = if chunk.offset ≤ j ∧ j < chunk.offset + chunk.length then
    bytes.getD (j - chunk.offset) 0 else old j

theorem Chunk.over_splice {chunk : Chunk} {bytes : List UInt8} (length : bytes.length = chunk.length)
    (old : Block) : chunk.Over bytes old (splice old chunk.offset bytes) := by
  intro j _
  by_cases inside : chunk.offset ≤ j ∧ j < chunk.offset + chunk.length
  · have bound : j - chunk.offset < bytes.length := by omega
    rw [if_pos inside, splice, if_pos inside.1, getD_eq_getElem?_getD,
      getElem?_eq_getElem bound, Option.getD_some, Option.getD_some]
  · rw [if_neg inside]
    by_cases before : j < chunk.offset
    · exact splice_of_lt before
    · exact splice_of_ge (by omega)

theorem writeChunk_spec {b : Nat} {chunk : Chunk} {bytes : List UInt8}
    (valid : b ≠ 0 ∧ b < w.fs.blocks) (h : chunk.At pos) (length : bytes.length = chunk.length) :
    (writeChunk bytes b chunk).wp H
      (fun _ w' => w.Later w' ∧ ∃ new, w'.fs = w.fs.setBlock b new ∧
        chunk.Over bytes (w.fs.disk b) new)
      w.IoFails w := by
  unfold writeChunk
  split_ifs with whole
  · obtain ⟨start, full⟩ := h.whole whole
    apply (writeBlock_spec valid).mono_done
    intro _ w' written
    refine ⟨written.2, _, written.1, ?_⟩
    intro j bound
    have covers := Chunk.over_splice length zeroBlock j bound
    rw [start] at covers
    rw [covers, start, if_pos (by omega), if_pos (by omega)]
  · have request := h.request
    rw [← length] at request
    apply (sfsWbuf_spec valid request).mono_done
    intro _ w' written
    exact ⟨written.2, _, written.1, Chunk.over_splice length _⟩

/-- One block of a file is overwritten at a chunk. -/
theorem AFs.Wrote.chunk {chunk : Chunk} {bytes : List UInt8} {old new : Block}
    (h : chunk.At pos) (held : A.content i (pos / blksize) = some old)
    (inside : pos / blksize < (A.info i).blocks) (covers : chunk.Over bytes old new)
    (data : ∀ j < chunk.length, bytes.getD j 0 = f (pos + j)) :
    A.Wrote i pos (pos + chunk.length) f (A.setContent i (pos / blksize) (some new)) := by
  have offset := h.offset
  have stays := h.inside
  refine ⟨(Off.refl A i).setContent _ _, rfl, rfl, rfl, rfl, le_refl _, .inr rfl, ?_, ?_, ?_, ?_⟩
  · intro x
    simp only [AFs.byte, AFs.content_setContent, true_and]
    unfold blksize at *
    by_cases block : x / 4096 = pos / 4096
    · rw [if_pos block, block, held]
      simp only
      rw [covers (x % 4096) (mod_lt x (by decide))]
      by_cases range : pos ≤ x ∧ x < pos + chunk.length
      · rw [if_pos (by omega), if_pos range, show x % 4096 - chunk.offset = x - pos by omega,
          data (x - pos) (by omega), show pos + (x - pos) = x by omega]
      · rw [if_neg (by omega), if_neg range]
    · rw [if_neg block, if_neg (by omega)]
  · intro dense k bound
    simp only [content_setContent]
    split
    · exact Option.some_ne_none _
    · exact dense k bound
  · intro tail k outside
    simp only [info_setContent] at outside
    simp only [content_setContent]
    rw [if_neg (by omega)]
    exact tail k outside
  · intro head k direct mapped
    simp only [content_setContent, true_and] at mapped
    split_ifs at mapped with same
    · exact head k direct (by rw [same, held]; exact Option.some_ne_none _)
    · exact head k direct mapped

/-- The bytes `[pos, pos + n)` of a file. -/
def AFs.bytes (A : AFs) (i pos n : Nat) : List UInt8 := (range n).map fun j => A.byte i (pos + j)

theorem AFs.bytes_append (A : AFs) (i pos m n : Nat) :
    A.bytes i pos (m + n) = A.bytes i pos m ++ A.bytes i (pos + m) n := by
  simp only [bytes, range_add, map_append, map_map]
  congr 1
  apply map_congr_left
  intro j _
  simp only [Function.comp, add_assoc]

variable {n : Nat}

theorem AFs.Wrote.bytes_eq {lo : Nat} (h : A.Wrote i lo lo f A') :
    A'.bytes i pos n = A.bytes i pos n := by
  apply map_congr_left
  intro j _
  rw [h.byte, if_neg (by omega)]

theorem slice_bytes {chunk : Chunk} {block : Block} (h : chunk.At pos)
    (held : A.content i (pos / blksize) = some block) :
    slice block chunk.offset chunk.length = A.bytes i pos chunk.length := by
  have offset := h.offset
  have stays := h.inside
  apply map_congr_left
  intro j mem
  have bound := mem_range.mp mem
  unfold blksize at *
  have same : (pos + j) / 4096 = pos / 4096 := by omega
  simp only [byte, blksize, same, held]
  rw [show chunk.offset + j = (pos + j) % 4096 by omega]

/-- How many of `n` transferred bytes are written. -/
def written (buf : Option (List UInt8)) (n : Nat) : Nat := if buf.isSome then n else 0

/-- The bytes to be written are those of `f` from a position on. -/
def Supplies (f : Nat → UInt8) (buf : Option (List UInt8)) (pos n : Nat) : Prop :=
  ∀ bytes, buf = some bytes → n ≤ bytes.length ∧ ∀ j < n, bytes.getD j 0 = f (pos + j)

variable {buf : Option (List UInt8)}

/-- A block is read or written, or the file may have grown by it. -/
theorem ioChunk_spec {chunk : Chunk}
    (ok : Ok strict inflight A w) (refs : A.refs i = some r) (dense : A.Dense i)
    (bound : pos / blksize ≤ (A.info i).blocks)
    (room : pos / blksize < maxBlocks ∨ H .indexOutOfRange) (h : chunk.At pos)
    (supply : Supplies f buf pos chunk.length) : (ioChunk i (pos / blksize) chunk buf).wp H
      (fun data w' => data = (if buf.isSome then [] else A.bytes i pos chunk.length) ∧ w.Later w' ∧
        ∃ A', A.Wrote i pos (pos + written buf chunk.length) f A' ∧
          (A'.info i).blocks = max (A.info i).blocks (pos / blksize + 1) ∧ Ok strict inflight A' w')
      (fun _ w' => w.Later w' ∧ ∃ A', A.Wrote i pos pos f A' ∧ pos / blksize < maxBlocks ∧
        (A'.info i).blocks ≤ max (A.info i).blocks (pos / blksize + 1) ∧
        (w.Works → (A'.info i).blocks = (A.info i).blocks) ∧ Ok strict inflight A' w')
      w := by
  have load : ioChunk i (pos / blksize) chunk buf = (do
      let block ← sfsBmapLoadNolock i (pos / blksize)
      buf.elim (readChunk block chunk) fun bytes => do
        writeChunk (bytes.take chunk.length) block chunk
        pure []) := by
    cases buf <;> rfl
  rw [load]
  apply (sfsBmapLoadNolock_spec ok refs dense bound room pos f).bind
  · intro b w₁ loaded
    obtain ⟨real, ptr, later₁, A₁, wrote, blocks, ok₁⟩ := loaded
    obtain ⟨-, -, -, live, -⟩ := ok.cached refs
    have live₁ : i ∈ A₁.live := by rwa [wrote.live]
    have node₁ := ok₁.rep.node i live₁
    have valid := (ok₁.mapped_valid live₁ real ptr).1
    have held := node₁.content_of_ptr (by rw [ptr]; exact real)
    rw [ptr] at held
    have stops {w₂ : World} (same : w₂.fs = w₁.fs) (lost : w₁.Lost w₂) : w.Later w₂ ∧ ∃ A', A.Wrote i pos pos f A' ∧
        pos / blksize < maxBlocks ∧ (A'.info i).blocks ≤ max (A.info i).blocks (pos / blksize + 1) ∧
        (w.Works → (A'.info i).blocks = (A.info i).blocks) ∧ Ok strict inflight A' w₂ := by
      have bounded := node₁.bounded
      exact ⟨later₁.trans lost.1, A₁, wrote, by omega, le_of_eq blocks,
        fun works => absurd works (later₁.lost lost).not_works, ok₁.sameFs same lost.1⟩
    cases buf with
    | none =>
      apply (readChunk_spec ⟨real, valid⟩ h).mono
      · intro bytes w₂ read
        obtain ⟨rfl, same, later₂⟩ := read
        refine ⟨?_, later₁.trans later₂, A₁, wrote, blocks, ok₁.sameFs same later₂⟩
        rw [slice_bytes h held, wrote.bytes_eq]
        rfl
      · exact fun e w₂ failed => stops failed.2.1 failed.2.2
    | some bytes =>
      obtain ⟨enough, data⟩ := supply bytes rfl
      have length : (bytes.take chunk.length).length = chunk.length := by
        rw [length_take]
        omega
      apply (writeChunk_spec ⟨real, valid⟩ h length).bind
      · intro _ w₂ done
        obtain ⟨later₂, new, same, covers⟩ := done
        have rep := ok₁.rep.writeMapped live₁ (by rw [ptr]; exact real) new
        rw [ptr, ← same] at rep
        have inside : pos / blksize < (A₁.info i).blocks := by omega
        have chunkWrote := Wrote.chunk h held inside covers (f := f) fun j small => by
          rw [← data j small, getD_eq_getElem?_getD, getD_eq_getElem?_getD,
            getElem?_take_of_lt small]
        refine ⟨rfl, later₁.trans later₂, _, wrote.trans chunkWrote (le_refl _) (by omega), blocks,
          ok₁.next rep later₂⟩
      · exact fun e w₂ failed => stops failed.2.1 failed.2.2
  · intro e w₁ failed
    exact ⟨failed.2.2, A, .refl A i pos f, failed.1, le_max_left _ _, fun _ => rfl, failed.2.1⟩

/-- The chunks follow each other from a position on, each but the last to the end of
    its block. -/
def Tiles : Nat → List Chunk → Prop
  | _, [] => True
  | pos, chunk :: chunks => chunk.At pos ∧ (chunks ≠ [] → chunk.offset + chunk.length = blksize) ∧
      Tiles (pos + chunk.length) chunks

def chunksLength (chunks : List Chunk) : Nat := (chunks.map Chunk.length).sum

/-- The number of blocks that hold the first `n` bytes. -/
def blocksFor (n : Nat) : Nat := (n + (blksize - 1)) / blksize

theorem Supplies.drop {m : Nat} (h : Supplies f buf pos (m + n)) :
    Supplies f (buf.map (·.drop m)) (pos + m) n := by
  intro rest eq
  cases buf with
  | none => cases eq
  | some bytes =>
    cases eq
    obtain ⟨enough, data⟩ := h bytes rfl
    refine ⟨by rw [length_drop]; omega, fun j small => ?_⟩
    rw [getD_eq_getElem?_getD, getElem?_drop, ← getD_eq_getElem?_getD,
      data (m + j) (by omega), add_assoc]

theorem Supplies.take {m : Nat} (h : Supplies f buf pos (m + n)) :
    Supplies f buf pos m := by
  intro bytes eq
  obtain ⟨enough, data⟩ := h bytes eq
  exact ⟨by omega, fun j small => data j (by omega)⟩

theorem written_add (buf : Option (List UInt8)) (m n : Nat) :
    written buf (m + n) = written buf m + written buf n := by
  cases buf <;> rfl

/-- What a transfer that was to cover `total` bytes from `pos` on has come to. -/
structure Transfer.Covers (done : Transfer) (A : AFs) (i pos total : Nat)
    (buf : Option (List UInt8)) (f : Nat → UInt8) (before : Transfer) (A' : AFs) : Prop where
  alen : before.alen ≤ done.alen
  bound : done.alen ≤ before.alen + total
  complete : done.ret = none → done.alen = before.alen + total
  wrote : A.Wrote i pos (pos + written buf (done.alen - before.alen)) f A'
  data : buf = none → done.data = before.data ++ A.bytes i pos (done.alen - before.alen)
  blocks : (A'.info i).blocks ≤ max (A.info i).blocks (blocksFor (pos + total))
  reaches : done.ret = none → 0 < total → blocksFor (pos + total) ≤ (A'.info i).blocks
  index : 0 < total → pos / blksize < maxBlocks
  inside : before.alen < done.alen →
    pos + (done.alen - before.alen) ≤ (A'.info i).blocks * blksize

/-- The blocks up to the end of `n` bytes from `pos` on; none if there are no bytes. -/
def reached (pos n : Nat) : Nat := if n = 0 then 0 else blocksFor (pos + n)

theorem reached_chunk {chunk : Chunk} (h : chunk.At pos) (n : Nat) :
    max (pos / blksize + 1) (reached (pos + chunk.length) n) = reached pos (chunk.length + n) := by
  have offset := h.offset
  have inside := h.inside
  have nonempty := h.nonempty
  unfold reached blocksFor
  unfold blksize at *
  rw [if_neg (show ¬ chunk.length + n = 0 by omega)]
  split <;> omega

namespace Transfer.Covers

variable {done before : Transfer} {pos total : Nat} {buf : Option (List UInt8)}

theorem refl (A : AFs) (i pos : Nat) (buf : Option (List UInt8)) (f : Nat → UInt8) (done : Transfer) :
    done.Covers A i pos 0 buf f done A := by
  refine ⟨le_refl _, le_refl _, fun _ => rfl, ?_, ?_, le_max_left _ _, ?_, ?_, ?_⟩
  · simpa [written] using Wrote.refl A i pos f
  · simp [bytes]
  · intro _ positive
    exact absurd positive (lt_irrefl 0)
  · intro positive
    exact absurd positive (lt_irrefl 0)
  · intro positive
    exact absurd positive (lt_irrefl _)

theorem failed (wrote : A.Wrote i pos pos f A') (index : pos / blksize < maxBlocks)
    (blocks : (A'.info i).blocks ≤ max (A.info i).blocks (blocksFor (pos + total))) (e : Errno) :
    Transfer.Covers { before with ret := some e } A i pos total buf f before A' := by
  refine ⟨le_refl _, le_add_right _ _, ?_, ?_, ?_, blocks, ?_, fun _ => index, ?_⟩
  · intro success
    cases success
  · have zero : written buf 0 = 0 := by cases buf <;> rfl
    simpa [zero] using wrote
  · simp [bytes]
  · intro success
    cases success
  · intro more
    exact absurd more (lt_irrefl _)

/-- A chunk, and what the chunks behind it come to. -/
theorem cons {chunk : Chunk} (h : chunk.At pos)
    (wrote : A.Wrote i pos (pos + written buf chunk.length) f A')
    (blocks : (A'.info i).blocks = max (A.info i).blocks (pos / blksize + 1))
    (bounded : (A'.info i).blocks ≤ maxBlocks)
    (rest : done.Covers A' i (pos + chunk.length) total (buf.map (·.drop chunk.length)) f
      { before with
        alen := before.alen + chunk.length
        data := before.data ++ if buf.isSome then [] else A.bytes i pos chunk.length } A'') :
    done.Covers A i pos (chunk.length + total) buf f before A'' := by
  have offset := h.offset
  have stays := h.inside
  have nonempty := h.nonempty
  have alen := rest.alen
  have upper := rest.bound
  have grown := rest.wrote.blocks
  have reach : pos / blksize + 1 ≤ blocksFor (pos + (chunk.length + total)) := by
    unfold blocksFor
    unfold blksize at *
    omega
  simp only at alen upper
  have split : done.alen - before.alen = chunk.length + (done.alen - (before.alen + chunk.length)) := by
    omega
  refine ⟨by omega, by omega, ?_, ?_, ?_, ?_, ?_, fun _ => by omega, ?_⟩
  · intro success
    have := rest.complete success
    simp only at this
    omega
  · rw [split, written_add, ← add_assoc]
    have second := rest.wrote
    cases buf with
    | none =>
      exact wrote.trans (second.shift pos f) (le_refl _) (le_refl _)
    | some bytes =>
      exact wrote.trans second (by omega) (by omega)
  · intro isRead
    have data := rest.data (by rw [isRead]; rfl)
    subst isRead
    rw [data, split, bytes_append, wrote.bytes_eq]
    simp
  · have := rest.blocks
    rw [add_assoc] at this
    omega
  · intro success _
    by_cases more : 0 < total
    · have := rest.reaches success more
      rwa [add_assoc] at this
    · unfold blocksFor
      unfold blksize at *
      omega
  · have further := rest.inside
    simp only at further
    by_cases more : before.alen + chunk.length < done.alen
    · omega
    · unfold blksize at *
      omega

end Transfer.Covers

/-- The chunks are transferred in order until one fails. -/
theorem ioLoop_spec {chunks : List Chunk} {blkno : Nat}
    {before : Transfer} (ok : Ok strict inflight A w) (refs : A.refs i = some r) (dense : A.Dense i)
    (block : chunks ≠ [] → blkno = pos / blksize) (bound : pos / blksize ≤ (A.info i).blocks)
    (room : pos + chunksLength chunks ≤ maxBlocks * blksize ∨ H .indexOutOfRange)
    (tiles : Tiles pos chunks) (supply : Supplies f buf pos (chunksLength chunks)) :
    (ioLoop i chunks blkno buf before).wp H
      (fun done w' => w.Later w' ∧ ∃ A', done.Covers A i pos (chunksLength chunks) buf f before A' ∧
        (w.Works → (A'.info i).blocks =
          max (A.info i).blocks (reached pos (done.alen - before.alen))) ∧
        Ok strict inflight A' w') (fun _ _ => False) w := by
  induction chunks generalizing pos blkno buf before w A with
  | nil => exact ⟨.refl w, A, .refl A i pos buf f before, fun _ => by simp [reached], ok⟩
  | cons chunk chunks ih =>
    obtain rfl := block (cons_ne_nil _ _)
    obtain ⟨here, full, rest⟩ := tiles
    have offset := here.offset
    have inside := here.inside
    have nonempty := here.nonempty
    have total : chunksLength (chunk :: chunks) = chunk.length + chunksLength chunks := rfl
    have roomHere : pos / blksize < maxBlocks ∨ H .indexOutOfRange := by
      refine room.imp_left fun fits => ?_
      unfold blksize at *
      omega
    simp only [ioLoop, wp_bind, wp_attempt]
    apply (ioChunk_spec ok refs dense bound roomHere here supply.take).mono
    · intro data w₁ done
      obtain ⟨rfl, later₁, A₁, wrote, blocks, ok₁⟩ := done
      have refs₁ : A₁.refs i = some r := by rw [wrote.refs_self, refs]
      obtain ⟨-, -, -, live₁, -⟩ := ok₁.cached refs₁
      have bounded := (ok₁.rep.node i live₁).bounded
      refine (ih ok₁ refs₁ (wrote.dense dense) (fun more => ?_) ?_ (by rwa [add_assoc]) rest
        supply.drop).mono_done ?_
      · have := full more
        unfold blksize at *
        omega
      · unfold blksize at *
        omega
      intro done w₂ covered
      obtain ⟨later₂, A₂, covers, exactly, ok₂⟩ := covered
      refine ⟨later₁.trans later₂, A₂, covers.cons here wrote blocks bounded, fun works => ?_, ok₂⟩
      have alen := covers.alen
      simp only at alen
      rw [exactly (later₁.works works), blocks, max_assoc, reached_chunk here]
      congr 2
      dsimp only
      omega
    · intro e w₁ failed
      obtain ⟨later₁, A₁, wrote, index, blocks, same, ok₁⟩ := failed
      refine ⟨later₁, A₁, .failed wrote index (blocks.trans ?_) e, fun works => ?_, ok₁⟩
      · unfold blocksFor
        unfold blksize at *
        omega
      · simp [reached, same works]

theorem tiles_replicate {last : List Chunk} (aligned : pos % blksize = 0)
    (rest : Tiles (pos + n * blksize) last) :
    Tiles pos (replicate n ⟨0, blksize, true⟩ ++ last) := by
  induction n generalizing pos with
  | zero => simpa using rest
  | succ n ih =>
    refine ⟨⟨aligned.symm, by decide, le_refl _, fun _ => ⟨rfl, rfl⟩⟩, fun _ => zero_add _, ?_⟩
    apply ih
    · rw [add_mod_right, aligned]
    · rwa [add_assoc, ← succ_mul n blksize |>.trans (add_comm _ _)]

theorem tiles_last (aligned : pos % blksize = 0) (bound : n < blksize) :
    Tiles pos (if n ≠ 0 then [Chunk.mk 0 n false] else []) := by
  split_ifs with nonzero
  · refine ⟨⟨aligned.symm, pos_of_ne_zero nonzero, ?_, fun whole => ?_⟩, fun more => ?_, trivial⟩
    · simp only
      omega
    · cases whole
    · exact absurd rfl more
  · trivial

theorem chunksLength_append (xs ys : List Chunk) :
    chunksLength (xs ++ ys) = chunksLength xs + chunksLength ys := by
  simp [chunksLength]

theorem chunksLength_replicate (n : Nat) (chunk : Chunk) :
    chunksLength (replicate n chunk) = n * chunk.length := by
  simp [chunksLength]

theorem chunksLength_last (n : Nat) :
    chunksLength (if n ≠ 0 then [Chunk.mk 0 n false] else []) = n := by
  split_ifs with zero
  · rfl
  · exact (not_not.mp zero).symm

variable {endpos : Nat}

theorem ioChunks_tiles {offset : Nat} (nonempty : offset < endpos) :
    Tiles offset (ioChunks offset endpos) ∧
      chunksLength (ioChunks offset endpos) = endpos - offset := by
  have lastBound : endpos % blksize < blksize := mod_lt _ (by decide)
  unfold ioChunks
  by_cases aligned : offset % blksize = 0
  · rw [if_neg (not_not.mpr aligned)]
    constructor
    · apply tiles_replicate aligned
      apply tiles_last _ lastBound
      unfold blksize at *
      omega
    · rw [chunksLength_append, chunksLength_replicate, chunksLength_last]
      unfold blksize at *
      simp only
      omega
  · rw [if_pos aligned]
    by_cases one : endpos / blksize - offset / blksize = 0
    · rw [if_pos one]
      constructor
      · refine ⟨⟨rfl, ?_, ?_, fun whole => ?_⟩, absurd rfl, trivial⟩
        · simp only
          omega
        · unfold blksize at *
          simp only
          omega
        · cases whole
      · simp [chunksLength]
    · rw [if_neg one]
      constructor
      · refine ⟨⟨rfl, ?_, ?_, fun whole => ?_⟩, fun _ => ?_, ?_⟩
        · unfold blksize at *
          simp only
          omega
        · unfold blksize at *
          simp only
          omega
        · cases whole
        · unfold blksize at *
          simp only
          omega
        · apply tiles_replicate
          · unfold blksize at *
            simp only
            omega
          · apply tiles_last _ lastBound
            unfold blksize at *
            simp only
            omega
      · change (blksize - offset % blksize) + chunksLength _ = _
        rw [chunksLength_append, chunksLength_replicate, chunksLength_last]
        unfold blksize at *
        simp only
        omega

/-- The bytes `[off, endpos)` were to be transferred; the size follows what was done. -/
structure AFs.Io (A : AFs) (i off endpos : Nat) (buf : Option (List UInt8)) (f : Nat → UInt8)
    (done : Transfer) (A' : AFs) : Prop extends A.Off A' i where
  refs_self : A'.refs i = A.refs i
  type : (A'.info i).type = (A.info i).type
  nlinks : (A'.info i).nlinks = (A.info i).nlinks
  size : (A'.info i).size = max (A.info i).size (off + done.alen)
  blocks : (A.info i).blocks ≤ (A'.info i).blocks
  upper : (A'.info i).blocks ≤ max (A.info i).blocks (blocksFor endpos)
  stored : A.Unwritten A' i
  marked : (A.info i).size < (A'.info i).size → (A'.info i).stored = none
  byte : ∀ x, A'.byte i x =
    if off ≤ x ∧ x < off + written buf done.alen then f x else A.byte i x
  dense : A.Dense i → A'.Dense i
  tail : A.Tail i → A'.Tail i
  head : A.Head i → A'.Head i
  complete : done.ret = none → done.alen = endpos - off ∧ blocksFor endpos ≤ (A'.info i).blocks
  data : buf = none → done.data = A.bytes i off done.alen
  sized : off + done.alen ≤ maxBlocks * blksize
  nonempty : off < endpos

/-- A transfer to which no device fails appends the blocks it reaches and no others, and
    does something if its first block can be had. -/
structure World.Exactly (w : World) (A : AFs) (i off : Nat) (done : Transfer) (A' : AFs) : Prop where
  blocks : w.Works → (A'.info i).blocks = max (A.info i).blocks (reached off done.alen)
  starts : w.Room (if off / blksize = (w.fs.dinode i).blocks then
    (w.fs.dinode i).cost (off / blksize) else 0) → 0 < done.alen

variable {off : Nat}

/-- The first chunk is transferred if its block can be had. -/
theorem ioLoop_starts (ok : Ok strict inflight A w) (refs : A.refs i = some r) (nonempty : off < endpos) :
    (ioLoop i (ioChunks off endpos) (off / blksize) buf {}).wp (fun _ => True)
      (fun done _ => w.Room (if off / blksize = (w.fs.dinode i).blocks then
        (w.fs.dinode i).cost (off / blksize) else 0) → 0 < done.alen) (fun _ _ => True) w := by
  obtain ⟨tiles, total⟩ := ioChunks_tiles nonempty
  obtain ⟨sin, cache, -, -, -⟩ := ok.cached refs
  rw [w.fs.dinode_of_cached cache]
  cases chunks : ioChunks off endpos with
  | nil =>
    rw [chunks] at total
    change 0 = endpos - off at total
    omega
  | cons chunk rest =>
    rw [chunks] at tiles
    have some := tiles.1.nonempty
    by_cases room : w.Room (if off / blksize = sin.din.blocks then sin.din.cost (off / blksize) else 0)
    · apply (ioLoop_room cache room).mono
      · omega
      · exact fun _ _ _ => trivial
    · apply (ioLoop_alen i _ _ buf {} w).mono
      · exact fun _ _ _ held => absurd held room
      · exact fun _ _ _ => trivial

/-- The end of a transfer: the inode has its new size. -/
theorem Transfer.Covers.io {done : Transfer} {x : Info}
    (h : done.Covers A i off (endpos - off) buf f {} A') (nonempty : off < endpos)
    (bounded : (A'.info i).blocks ≤ maxBlocks) (type : x.type = (A'.info i).type)
    (nlinks : x.nlinks = (A'.info i).nlinks) (blocks : x.blocks = (A'.info i).blocks)
    (size : x.size = max (A.info i).size (off + done.alen))
    (stored : x.stored = none ∨ x = A'.info i) :
    A.Io i off endpos buf f done (A'.setInfo i x) := by
  have wrote := h.wrote
  have upper := h.blocks
  have inside := h.inside
  have index := h.index (by omega)
  have info : (A'.setInfo i x).info i = x := by rw [AFs.info_setInfo, if_pos rfl]
  simp only [Nat.sub_zero] at wrote inside
  rw [Nat.add_sub_cancel' nonempty.le] at upper
  refine ⟨wrote.toOff.setInfo _, wrote.refs_self, ?_, ?_, ?_, ?_, ?_, ?_, ?_, wrote.byte, ?_, ?_, ?_, ?_,
    fun isRead => by simpa using h.data isRead, ?_, nonempty⟩
  · rw [info, type, wrote.type]
  · rw [info, nlinks, wrote.nlinks]
  · rw [info, size]
  · rw [info, blocks]
    exact wrote.blocks
  · rwa [info, blocks]
  · rw [AFs.Unwritten, info]
    rcases stored with none | same
    · exact .inl none
    · rw [same]
      exact wrote.stored
  · intro more
    rw [info] at more ⊢
    refine stored.resolve_right fun same => ?_
    rw [same, wrote.size] at more
    exact absurd more (Nat.lt_irrefl _)
  · intro held k inside
    rw [info, blocks] at inside
    exact wrote.dense held k inside
  · intro held k outside
    rw [info, blocks] at outside
    exact wrote.tail held k outside
  · intro held k direct mapped
    obtain ⟨counted, copied⟩ := wrote.head held k direct mapped
    rw [info, blocks]
    refine ⟨counted, fun n some => ?_⟩
    rcases stored with none | same
    · rw [none] at some
      cases some
    · exact copied n (same ▸ some)
  · intro success
    have all := h.complete success
    have reaches := h.reaches success (by omega)
    rw [Nat.add_sub_cancel' nonempty.le] at reaches
    simp only at all
    rw [info, blocks]
    exact ⟨by omega, reaches⟩
  · unfold blksize at *
    omega

section

variable (ok : Ok strict inflight A w) (refs : A.refs i = some r)
include ok refs

theorem ioTransfer_spec (dense : A.Dense i)
    (nonempty : off < endpos) (bound : off / blksize ≤ (A.info i).blocks)
    (room : endpos ≤ maxBlocks * blksize ∨ H .indexOutOfRange)
    (supply : Supplies f buf off (endpos - off)) : (ioTransfer i off endpos buf).wp H
      (fun done w' => w.Later w' ∧ ∃ A', A.Io i off endpos buf f done A' ∧
        w.Exactly A i off done A' ∧ Ok strict inflight A' w') (fun _ _ => False) w := by
  obtain ⟨tiles, total⟩ := ioChunks_tiles nonempty
  have whole : off + chunksLength (ioChunks off endpos) = endpos := by omega
  simp only [ioTransfer, wp_bind]
  apply ((ioLoop_spec ok refs dense (fun _ => rfl) bound (by rwa [whole]) tiles (by rwa [total])).and
    (ioLoop_starts ok refs nonempty)).mono
  · intro done w₁ covered
    obtain ⟨⟨later₁, A₁, covers, exactly, ok₁⟩, starts⟩ := covered
    rw [total] at covers
    have wrote := covers.wrote
    have refs₁ : A₁.refs i = some r := by rw [wrote.refs_self, refs]
    obtain ⟨sin₁, cache₁, -, live₁, info₁⟩ := ok₁.cached refs₁
    have node₁ := ok₁.rep.node i live₁
    have bounded := node₁.bounded
    have size₁ : sin₁.din.size = (A.info i).size := by
      rw [← wrote.size, info₁]
      rfl
    rw [wp_getSin cache₁, size₁]
    by_cases grows : (A.info i).size < off + done.alen
    · rw [if_pos grows, wp_bind, wp_modifySin cache₁]
      have fits := node₁.fits
      rw [w₁.fs.dinode_of_cached cache₁] at fits
      have blocks₁ := node₁.blocks_of_cached cache₁
      have io := covers.io nonempty bounded
        (x := DiskInode.info { sin₁.din with size := off + done.alen } none)
        (by rw [info₁]; rfl) (by rw [info₁]; rfl) blocks₁.symm (max_eq_right grows.le).symm (.inl rfl)
      refine ⟨later₁.withFs _ rfl, _, io, ⟨fun works => ?_, starts⟩, ok₁.withFs (ok₁.rep.updateDirty cache₁
        { sin₁ with din := { sin₁.din with size := off + done.alen }, dirty := true }
        rfl rfl { fits with size := ?_ } ?_ rfl rfl)⟩
      · rw [info_setInfo, if_pos rfl]
        exact blocks₁.symm.trans (exactly works)
      · have : maxBlocks * blksize < 2 ^ 32 := by decide
        have sized := io.sized
        change off + done.alen < 2 ^ 32
        omega
      · exact blocks₁ ▸ bounded
    · rw [if_neg grows]
      have io := covers.io nonempty bounded rfl rfl rfl
        (by rw [wrote.size, max_eq_left (Nat.le_of_not_lt grows)]) (.inr rfl)
      rw [setInfo, Function.update_eq_self] at io
      exact ⟨later₁, A₁, io, ⟨exactly, starts⟩, ok₁⟩
  · exact fun _ _ h => h.1

variable {E : Errno → World → Prop}

theorem sfsBmapLoadNolock_past {Q : Nat → World → Prop} (past : (A.info i).blocks < k)
    (halts : H .pastBlocks) : (sfsBmapLoadNolock i k).wp H Q E w := by
  obtain ⟨sin, cache, -, live, -⟩ := ok.cached refs
  have blocks := (ok.rep.node i live).blocks_of_cached cache
  have test : decide (k ≤ sin.din.blocks) = false := decide_eq_false (by omega)
  simp only [sfsBmapLoadNolock, wp_bind, wp_getSin cache, wp_assert, test,
    Bool.false_eq_true, false_implies, true_implies, true_and]
  exact halts

/-- A transfer that begins past the block after the last one halts. -/
theorem ioTransfer_past {Q : Transfer → World → Prop} (nonempty : off < endpos)
    (past : (A.info i).blocks < off / blksize)
    (halts : H .pastBlocks) : (ioTransfer i off endpos buf).wp H Q E w := by
  obtain ⟨-, total⟩ := ioChunks_tiles nonempty
  simp only [ioTransfer]
  cases chunks : ioChunks off endpos with
  | nil =>
    rw [chunks] at total
    change 0 = endpos - off at total
    omega
  | cons chunk rest =>
    simp only [ioLoop, wp_bind, wp_attempt]
    cases buf with
    | none | some bytes =>
      simp only [ioChunk, wp_bind]
      exact sfsBmapLoadNolock_past ok refs past halts

end

/-- Where a transfer ends: at the largest file size, and a read at the end of the file. -/
def ioEnd (size off length : Nat) (buf : Option (List UInt8)) : Nat :=
  if buf = none then min (min (off + length) maxFileSize) size else min (off + length) maxFileSize

/-- Nothing is transferred: the request is refused or covers no byte. -/
def IoIdle (size : Nat) (offset : Int) (length : Nat) (buf : Option (List UInt8))
    (done : Transfer) : Prop :=
  done.alen = 0 ∧ done.data = [] ∧
    (done.ret = none → length = 0 ∨ buf = none ∧ size ≤ offset.toNat)

section

variable {offset : Int} {length : Nat} (ok : Ok strict inflight A w) (refs : A.refs i = some r) (dense : A.Dense i)
  (width : length < 2 ^ 32) (supply : Supplies f buf offset.toNat length)
  (regular : (A.info i).type ≠ .dir ∨ H .assertion)
  (bound : 0 ≤ offset → offset < maxFileSize → 0 < length →
    offset.toNat / blksize ≤ (A.info i).blocks ∨ H .pastBlocks)
  (room : ioEnd (A.info i).size offset.toNat length buf ≤ maxBlocks * blksize ∨ H .indexOutOfRange)
include ok refs dense width supply regular bound room

theorem sfsIoNolock_spec : (sfsIoNolock i offset length buf).wp H
      (fun done w' => w.Later w' ∧ ∃ A', Ok strict inflight A' w' ∧
        (A' = A ∧ IoIdle (A.info i).size offset length buf done ∨
          0 ≤ offset ∧ A.Io i offset.toNat (ioEnd (A.info i).size offset.toNat length buf) buf f done A' ∧
            w.Exactly A i offset.toNat done A'))
      (fun _ _ => False) w := by
  obtain ⟨sin, cache, -, live, info⟩ := ok.cached refs
  have type : (A.info i).type = sin.din.type := by
    rw [info]
    rfl
  have size : (A.info i).size = sin.din.size := by
    rw [info]
    rfl
  simp only [sfsIoNolock, wp_bind, wp_getSin cache, wp_assert]
  rw [type] at regular
  refine ⟨fun _ => ?_, fun isDir => ?_⟩
  · by_cases refused : offset < 0 ∨ (maxFileSize : Int) ≤ offset ∨
        (offset + length).bmod (2 ^ 32) < offset
    · rw [if_pos refused]
      exact ⟨.refl w, A, ok, .inl ⟨rfl, rfl, rfl, fun success => by cases success⟩⟩
    rw [if_neg refused]
    have endpos : (offset + length).bmod (2 ^ 32) = offset + length := by
      rw [Int.bmod_def] at refused ⊢
      split at refused <;> split <;> omega
    rw [endpos]
    by_cases empty : offset = offset + length
    · rw [if_pos empty]
      exact ⟨.refl w, A, ok, .inl ⟨rfl, rfl, rfl, fun _ => .inl (by omega)⟩⟩
    rw [if_neg empty]
    have sum : (offset + length).toNat = offset.toNat + length := by omega
    by_cases past : buf = none ∧ sin.din.size ≤ offset.toNat
    · rw [if_pos past]
      exact ⟨.refl w, A, ok, .inl ⟨rfl, rfl, rfl, fun _ => .inr (by rwa [size])⟩⟩
    rw [if_neg past, sum, ← size]
    have nonempty : offset.toNat < ioEnd (A.info i).size offset.toNat length buf := by
      unfold ioEnd
      split_ifs with isRead
      · have : ¬ sin.din.size ≤ offset.toNat := fun le => past ⟨isRead, le⟩
        omega
      · omega
    by_cases inside : offset.toNat / blksize ≤ (A.info i).blocks
    · apply (ioTransfer_spec ok refs dense nonempty inside room ?_).mono
      · intro done w' moved
        obtain ⟨later, A', io, exactly, ok'⟩ := moved
        exact ⟨later, A', ok', .inr ⟨by omega, io, exactly⟩⟩
      · exact fun _ _ h => h
      · intro bytes given
        obtain ⟨enough, data⟩ := supply bytes given
        have upper : ioEnd (A.info i).size offset.toNat length buf ≤ offset.toNat + length := by
          unfold ioEnd
          split <;> omega
        exact ⟨by omega, fun j small => data j (by omega)⟩
    · apply ioTransfer_past ok refs nonempty (by omega)
      cases bound (by omega) (by omega) (by omega) with
      | inl le => exact absurd le inside
      | inr halts => exact halts
  · cases regular with
    | inl notDir => exact absurd (of_decide_eq_false isDir) (not_not.mpr notDir)
    | inr halts => exact halts

theorem sfsIo_spec (unlocked : .inode i ∈ w.held → H .deadlock) : (sfsIo i offset length buf).wp H
      (fun done w' => w.Later w' ∧ ∃ A', Ok strict inflight A' w' ∧
        (A' = A ∧ IoIdle (A.info i).size offset length buf done ∨
          0 ≤ offset ∧ A.Io i offset.toNat (ioEnd (A.info i).size offset.toNat length buf) buf f done A' ∧
            w.Exactly A i offset.toNat done A'))
      (fun _ _ => False) w := by
  simp only [sfsIo, wp_bind]
  apply wp_down unlocked
  intro _
  apply (sfsIoNolock_spec (ok.withHeld _) refs dense width supply regular bound room).mono_done
  intro done w' moved
  obtain ⟨later, A', ok', result⟩ := moved
  refine ⟨World.Later.lock w _ later, A', ok'.withHeld _, result.imp_right fun io => ?_⟩
  obtain ⟨low, io, exactly⟩ := io
  exact ⟨low, io, exactly.blocks, fun room => exactly.starts ⟨room.freeMap, room.free, room.works⟩⟩

end

end Procore.Sfs
