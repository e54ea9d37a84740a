import Procore.Sfs.File

/-! # In-memory inodes: loading, creating and reclaiming -/

namespace Procore.Sfs

open Procore.Lib Prog

/-- The end of `sfs_reclaim`: an unlinked inode gives its own block and its indirect
    block back. -/
def releaseInode (ino : Nat) : SfsM Unit := do
  let sin ← getSin ino
  if sin.din.nlinks = 0 then do
    sfsBlockFree ino
    if sin.din.indirect ≠ 0 then sfsBlockFree sin.din.indirect else pure ()
  else pure ()
  modifyFs fun fs => fs.setSin ino none

/-- `sfs_reclaim` after its last token is spent. -/
def reclaimLast (ino : Nat) : SfsM Unit := do
  let sin ← getSin ino
  if sin.din.nlinks = 0 then sfsTruncfile ino 0 else pure ()
  sfsFsync ino
  releaseInode ino

def sfsReclaim (ino : Nat) : SfsM Unit := do
  lockSfsFs
  let sin ← getSin ino
  match sin.refs.reclaim with
  | (.assertFails, _) => halt .assertion
  | (.busy, refs) => do
    modifySin ino fun sin => { sin with refs := refs }
    unlockSfsFs
    fail .busy
  | (.last, refs) => do
    modifySin ino fun sin => { sin with refs := refs }
    let ret ← attempt (reclaimLast ino)
    unlockSfsFs
    rethrow ret

/-- Draw the outcomes of requests from the other list. -/
def swapFaults : SfsM Unit :=
  modify fun w =>
    { w with faults := { w.faults with io := w.faults.reclaim, reclaim := w.faults.io } }

/-- `inode_ref_dec`; an error of `vop_reclaim` is only reported. -/
def vopRefDec (ino : Nat) : SfsM Unit := do
  let sin ← getSin ino
  assert (0 < sin.refs.refCount) .assertion
  modifySin ino fun sin => { sin with refs := sin.refs.refDec.1 }
  if sin.refs.refDec.2 then do
    swapFaults
    let _ ← attempt (sfsReclaim ino)
    swapFaults
  else pure ()

end Procore.Sfs
