import Procore.Sfs.Disk

/-! # Block allocation and the block map of an inode

A file owns its blocks through twelve direct pointers and one indirect block of
1024 entries. The indirect block lives on disk and is changed there entry by
entry, the pointers in the in-memory copy of the inode.
-/

namespace Procore.Sfs

open Procore.Lib Prog

def maxBlocks : Nat := ndirect + blkNentry

/-- The first set bit from `start` on, among `count` bits. -/
def firstFree (free : Nat → Bool) : Nat → Nat → Option Nat
  | 0, _ => none
  | count + 1, start => if free start then some start else firstFree free count (start + 1)

def Fs.freemapBits (fs : Fs) : Nat := (fs.blocks + (blkbits - 1)) / blkbits * blkbits

/-- `bitmap_alloc` before the bit is cleared. -/
def Fs.bitmapAlloc (fs : Fs) : Option Nat := firstFree fs.free fs.freemapBits 0

def Fs.take (fs : Fs) (ino : Nat) : Fs :=
  { fs with free := Function.update fs.free ino false, unused := fs.unused - 1, superDirty := true }

def Fs.giveBack (fs : Fs) (ino : Nat) : Fs :=
  { fs with free := Function.update fs.free ino true, unused := fs.unused + 1, superDirty := true }

def sfsBlockInuse (ino : Nat) : SfsM Bool := do
  let fs ← getFs
  if ino ≠ 0 ∧ ino < fs.blocks then pure (!fs.free ino) else halt .blockOutOfRange

def assertInuse (ino : Nat) : SfsM Unit := do
  let inuse ← sfsBlockInuse ino
  assert inuse .assertion

def sfsBlockAlloc : SfsM Nat := do
  let fs ← getFs
  match fs.bitmapAlloc with
  | none => fail .noMem
  | some ino => do
    assert (0 < fs.unused) .assertion
    modifyFs fun fs => fs.take ino
    assertInuse ino
    sfsClearBlock ino
    pure ino

def sfsBlockFree (ino : Nat) : SfsM Unit := do
  assertInuse ino
  modifyFs fun fs => fs.giveBack ino

/-- Read one entry of an indirect block. -/
def readIndex (ent index : Nat) : SfsM Nat := do
  let bytes ← sfsRbuf 4 ent (index * 4)
  pure (ofLe bytes)

/-- The end of `sfs_bmap_get_sub_nolock`: allocate a block and enter it in `ent`,
    which is freed again on failure if it is not the inode's own. -/
def bmapAllocSub (own ent index : Nat) : SfsM (Nat × Nat) := do
  match ← attempt sfsBlockAlloc with
  | .error e => do
    if ent ≠ own then sfsBlockFree ent else pure ()
    fail e
  | .ok ino => do
    match ← attempt (sfsWbuf (le 4 ino) ent (index * 4)) with
    | .error e => do
      sfsBlockFree ino
      if ent ≠ own then sfsBlockFree ent else pure ()
      fail e
    | .ok () => pure (ent, ino)

/-- The entry of the indirect block and the block it names. -/
def sfsBmapGetSubNolock (own index : Nat) (create : Bool) : SfsM (Nat × Nat) := do
  assert (index < blkNentry) .assertion
  if own ≠ 0 then do
    let ino ← readIndex own index
    if ino ≠ 0 ∨ create = false then pure (own, ino) else bmapAllocSub own own index
  else if create = false then pure (own, 0)
  else do
    let ent ← sfsBlockAlloc
    bmapAllocSub own ent index

def setDirect (ino : Nat) (k : Fin ndirect) (blkno : Nat) : SfsM Unit :=
  modifySin ino fun sin =>
    { sin with din := { sin.din with direct := Function.update sin.din.direct k blkno }, dirty := true }

def setIndirect (ino blkno : Nat) : SfsM Unit :=
  modifySin ino fun sin => { sin with din := { sin.din with indirect := blkno }, dirty := true }

/-- The assertion before `sfs_bmap_get_nolock` returns. -/
def assertMapped (blkno : Nat) : SfsM Unit :=
  if blkno = 0 then pure () else assertInuse blkno

def sfsBmapGetNolock (ino index : Nat) (create : Bool) : SfsM Nat := do
  let sin ← getSin ino
  if direct : index < ndirect then do
    let k : Fin ndirect := ⟨index, direct⟩
    if sin.din.direct k = 0 ∧ create = true then do
      let blkno ← sfsBlockAlloc
      setDirect ino k blkno
      assertMapped blkno
      pure blkno
    else do
      assertMapped (sin.din.direct k)
      pure (sin.din.direct k)
  else if index - ndirect < blkNentry then do
    let (ent, blkno) ← sfsBmapGetSubNolock sin.din.indirect (index - ndirect) create
    if ent ≠ sin.din.indirect then do
      assert (sin.din.indirect = 0) .assertion
      setIndirect ino ent
      assertMapped blkno
      pure blkno
    else do
      assertMapped blkno
      pure blkno
  else halt .indexOutOfRange

def sfsBmapFreeSubNolock (ent index : Nat) : SfsM Unit := do
  assertInuse ent
  assert (index < blkNentry) .assertion
  let blkno ← readIndex ent index
  if blkno ≠ 0 then do
    sfsWbuf (le 4 0) ent (index * 4)
    sfsBlockFree blkno
  else pure ()

def sfsBmapFreeNolock (ino index : Nat) : SfsM Unit := do
  let sin ← getSin ino
  if direct : index < ndirect then do
    let k : Fin ndirect := ⟨index, direct⟩
    if sin.din.direct k ≠ 0 then do
      sfsBlockFree (sin.din.direct k)
      setDirect ino k 0
    else pure ()
  else if index - ndirect < blkNentry ∧ sin.din.indirect ≠ 0 then
    sfsBmapFreeSubNolock sin.din.indirect (index - ndirect)
  else pure ()

/-- Find the block of a file, or append one right after the last. -/
def sfsBmapLoadNolock (ino index : Nat) : SfsM Nat := do
  let sin ← getSin ino
  assert (index ≤ sin.din.blocks) .pastBlocks
  let create : Bool := index = sin.din.blocks
  let blkno ← sfsBmapGetNolock ino index create
  assertInuse blkno
  if create then do
    modifySin ino fun sin =>
      { sin with din := { sin.din with blocks := (sin.din.blocks + 1) % 2 ^ 32 } }
    pure blkno
  else pure blkno

def sfsBmapTruncateNolock (ino : Nat) : SfsM Unit := do
  let sin ← getSin ino
  assert (sin.din.blocks ≠ 0) .assertion
  sfsBmapFreeNolock ino (sin.din.blocks - 1)
  modifySin ino fun sin =>
    { sin with din := { sin.din with blocks := sin.din.blocks - 1 }, dirty := true }

end Procore.Sfs
