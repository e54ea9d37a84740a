import Procore.Sfs.BlockMap

/-! # Reading, writing and resizing a file -/

namespace Procore.Sfs

open Procore.Lib Prog

/-- A part of a transfer that lies in one block. Whole blocks are transferred
    without the bounce buffer. -/
structure Chunk where
  offset : Nat
  length : Nat
  whole : Bool
  deriving DecidableEq, Repr

/-- The parts of `[offset, endpos)`: the rest of the first block, the whole blocks,
    and the beginning of the last one. -/
def ioChunks (offset endpos : Nat) : List Chunk :=
  let nblks := endpos / blksize - offset / blksize
  let blkoff := offset % blksize
  let last := if endpos % blksize ≠ 0 then [Chunk.mk 0 (endpos % blksize) false] else []
  if blkoff ≠ 0 then
    if nblks = 0 then [⟨blkoff, endpos - offset, false⟩]
    else ⟨blkoff, blksize - blkoff, false⟩ ::
      (List.replicate (nblks - 1) ⟨0, blksize, true⟩ ++ last)
  else List.replicate nblks ⟨0, blksize, true⟩ ++ last

/-- What a transfer came to: the bytes done, the bytes read, and the error. -/
structure Transfer where
  alen : Nat := 0
  data : List UInt8 := []
  ret : Option Errno := none

def readChunk (blkno : Nat) (chunk : Chunk) : SfsM (List UInt8) :=
  if chunk.whole then sfsRblock blkno else sfsRbuf chunk.length blkno chunk.offset

def writeChunk (bytes : List UInt8) (blkno : Nat) (chunk : Chunk) : SfsM Unit :=
  if chunk.whole then sfsWblock bytes blkno else sfsWbuf bytes blkno chunk.offset

/-- One chunk of a transfer in the block of logical number `blkno`. -/
def ioChunk (ino blkno : Nat) (chunk : Chunk) : Option (List UInt8) → SfsM (List UInt8)
  | none => do
    let block ← sfsBmapLoadNolock ino blkno
    readChunk block chunk
  | some bytes => do
    let block ← sfsBmapLoadNolock ino blkno
    writeChunk (bytes.take chunk.length) block chunk
    pure []

/-- The chunks in order, until one fails. -/
def ioLoop (ino : Nat) : List Chunk → Nat → Option (List UInt8) → Transfer → SfsM Transfer
  | [], _, _, done => pure done
  | chunk :: chunks, blkno, buf, done => do
    match ← attempt (ioChunk ino blkno chunk buf) with
    | .error e => pure { done with ret := some e }
    | .ok data =>
      ioLoop ino chunks (blkno + 1) (buf.map (·.drop chunk.length))
        { done with alen := done.alen + chunk.length, data := done.data ++ data }

/-- The part of `sfs_io_nolock` after its checks: transfer `[offset, endpos)` and let
    the size follow. -/
def ioTransfer (ino offset endpos : Nat) (buf : Option (List UInt8)) : SfsM Transfer := do
  let done ← ioLoop ino (ioChunks offset endpos) (offset / blksize) buf {}
  let sin ← getSin ino
  if sin.din.size < offset + done.alen then do
    modifySin ino fun sin =>
      { sin with din := { sin.din with size := offset + done.alen }, dirty := true }
    pure done
  else pure done

/-- `sfs_io_nolock`, writing the bytes of `buf` or else reading `length` bytes. The
    end position is computed in 32 bits. -/
def sfsIoNolock (ino : Nat) (offset : Int) (length : Nat) (buf : Option (List UInt8)) :
    SfsM Transfer := do
  let sin ← getSin ino
  assert (sin.din.type ≠ .dir) .assertion
  let endpos := (offset + length).bmod (2 ^ 32)
  if offset < 0 ∨ (maxFileSize : Int) ≤ offset ∨ endpos < offset then pure { ret := some .inval }
  else if offset = endpos then pure {}
  else do
    let endpos := min endpos.toNat maxFileSize
    if buf = none ∧ sin.din.size ≤ offset.toNat then pure {}
    else
      ioTransfer ino offset.toNat (if buf = none then min endpos sin.din.size else endpos) buf

def sfsIo (ino : Nat) (offset : Int) (length : Nat) (buf : Option (List UInt8)) :
    SfsM Transfer := do
  lockSin ino
  let done ← sfsIoNolock ino offset length buf
  unlockSin ino
  pure done

def sfsRead (ino : Nat) (offset : Int) (length : Nat) : SfsM Transfer := sfsIo ino offset length none

def sfsWrite (ino : Nat) (offset : Int) (buf : List UInt8) : SfsM Transfer :=
  sfsIo ino offset buf.length (some buf)

def sfsFsync (ino : Nat) : SfsM Unit := do
  let sin ← getSin ino
  if sin.dirty then do
    lockSin ino
    modifySin ino fun sin => { sin with dirty := false }
    let ret ← attempt (sfsWbuf sin.din.encode ino 0)
    match ret with
    | .ok () => pure ()
    | .error _ => modifySin ino fun sin => { sin with dirty := true }
    unlockSin ino
    rethrow ret
  else pure ()

/-- Append `count` blocks, the first one with logical number `nblks`. -/
def growLoop (ino : Nat) : Nat → Nat → SfsM Unit
  | 0, _ => pure ()
  | count + 1, nblks => do
    let _ ← sfsBmapLoadNolock ino nblks
    growLoop ino count (nblks + 1)

/-- Drop the last `count` blocks. -/
def shrinkLoop (ino : Nat) : Nat → SfsM Unit
  | 0 => pure ()
  | count + 1 => do
    sfsBmapTruncateNolock ino
    shrinkLoop ino count

/-- The part of `sfs_truncfile` for directories: they can only be emptied. -/
def truncateDir (ino blocks : Nat) : SfsM Unit := do
  lockSin ino
  let ret ← attempt (shrinkLoop ino blocks)
  modifySin ino fun sin => { sin with din := { sin.din with size := 0 }, dirty := true }
  unlockSin ino
  rethrow ret

/-- The part of `sfs_truncfile` under the inode semaphore. -/
def resize (ino nblks tblks len : Nat) : SfsM Unit := do
  if nblks < tblks then growLoop ino (tblks - nblks) nblks else shrinkLoop ino (nblks - tblks)
  let sin ← getSin ino
  assert (sin.din.blocks = tblks) .sizeMismatch
  modifySin ino fun sin => { sin with din := { sin.din with size := len }, dirty := true }

def sfsTruncfile (ino : Nat) (len : Int) : SfsM Unit := do
  if len < 0 ∨ (maxFileSize : Int) < len then fail .inval
  else do
    let sin ← getSin ino
    let tblks := (len.toNat + (blksize - 1)) / blksize
    if sin.din.type = .dir then
      if len ≠ 0 then fail .isdir else truncateDir ino sin.din.blocks
    else if sin.din.size = len.toNat then assert (tblks = sin.din.blocks) .sizeMismatch
    else do
      lockSin ino
      let ret ← attempt (resize ino sin.din.blocks tblks len.toNat)
      unlockSin ino
      rethrow ret

def sfsTryseek (ino : Nat) (pos : Int) : SfsM Unit := do
  if pos < 0 ∨ (maxFileSize : Int) ≤ pos then fail .inval
  else do
    let sin ← getSin ino
    if sin.din.size < pos.toNat then sfsTruncfile ino pos else pure ()

end Procore.Sfs
