import Procore.Lib.Bytes
import Procore.Lib.Prog
import Procore.Sfs.InodeRefs

/-! # The SFS volume

The on-disk structures, the mounted file system with the inodes it holds in
memory, and the block-level I/O routines. Requests to the block device and
allocations of kernel memory can fail; which ones do is drawn from lists that
belong to the call, one outcome for each request.
-/

namespace Procore.Sfs

open Procore.Lib Prog List

def blksize : Nat := 4096

def ndirect : Nat := 12

def blkNentry : Nat := 1024

def blkbits : Nat := 32768

def maxFileSize : Nat := 1024 * 1024 * 128

inductive FileType where
  | inval
  | file
  | dir
  | link
  deriving DecidableEq, Repr

def FileType.code : FileType → Nat
  | .inval => 0
  | .file => 1
  | .dir => 2
  | .link => 3

def FileType.ofCode : Nat → FileType
  | 1 => .file
  | 2 => .dir
  | 3 => .link
  | _ => .inval

@[ext] structure DiskInode where
  size : Nat := 0
  type : FileType := .inval
  nlinks : Nat := 0
  blocks : Nat := 0
  direct : Fin ndirect → Nat := fun _ => 0
  indirect : Nat := 0

/-- The fields fit their on-disk widths. -/
structure DiskInode.Fits (d : DiskInode) : Prop where
  size : d.size < 2 ^ 32
  nlinks : d.nlinks < 2 ^ 16
  blocks : d.blocks < 2 ^ 32
  direct : ∀ k, d.direct k < 2 ^ 32
  indirect : d.indirect < 2 ^ 32

@[ext] structure DiskEntry where
  ino : Nat
  name : CStr
  deriving DecidableEq, Repr

def inodeSize : Nat := 64

def DiskInode.encode (d : DiskInode) : List UInt8 :=
  le 4 d.size ++ (le 2 d.type.code ++ (le 2 d.nlinks ++ (le 4 d.blocks ++
    ((ofFn d.direct).flatMap (le 4) ++ le 4 d.indirect))))

def DiskInode.decode (bytes : List UInt8) : DiskInode where
  size := field bytes 0 4
  type := .ofCode (field bytes 4 2)
  nlinks := field bytes 6 2
  blocks := field bytes 8 4
  direct k := field bytes (12 + 4 * k) 4
  indirect := field bytes 60 4

theorem FileType.ofCode_code (type : FileType) : ofCode type.code = type := by
  cases type <;> rfl

theorem DiskInode.length_array (d : DiskInode) :
    ((ofFn d.direct).flatMap (le 4)).length = 48 := by
  rfl

theorem DiskInode.length_encode (d : DiskInode) : d.encode.length = inodeSize := by
  simp [encode, d.length_array, inodeSize]

theorem DiskInode.decode_encode {d : DiskInode} (fits : d.Fits) : decode d.encode = d := by
  have typeFits : d.type.code < 256 ^ 2 := by cases d.type <;> decide
  have array : ∀ value ∈ ofFn d.direct, value < 256 ^ 4 := by
    intro value mem
    obtain ⟨k, rfl⟩ := mem_ofFn.mp mem
    exact fits.direct k
  let head := le 4 d.size ++ (le 2 d.type.code ++ (le 2 d.nlinks ++ le 4 d.blocks))
  have headLength : head.length = 12 := by simp [head]
  have split : d.encode = head ++ ((ofFn d.direct).flatMap (le 4) ++ le 4 d.indirect) := by
    simp [encode, head]
  ext1
  · exact field_append [] _ 0 4 d.size rfl fits.size
  · rw [decode, encode, field_append (le 4 d.size) _ 4 2 _ (length_le 4 _) typeFits,
      FileType.ofCode_code]
  · have at6 := field_append (le 4 d.size ++ le 2 d.type.code) (le 4 d.blocks ++
      ((ofFn d.direct).flatMap (le 4) ++ le 4 d.indirect)) 6 2 d.nlinks (by simp) fits.nlinks
    simpa [decode, encode] using at6
  · have at8 := field_append (le 4 d.size ++ (le 2 d.type.code ++ le 2 d.nlinks))
      ((ofFn d.direct).flatMap (le 4) ++ le 4 d.indirect) 8 4 d.blocks (by simp) fits.blocks
    simpa [decode, encode] using at8
  · funext k
    have atK := field_flatMap head (le 4 d.indirect) (k := k) headLength array (by simp)
    rw [← split] at atK
    simpa [decode] using atK
  · have at60 := field_append (head ++ (ofFn d.direct).flatMap (le 4)) [] 60 4 d.indirect
      (by simp [headLength, d.length_array]) fits.indirect
    simpa [decode, split] using at60

theorem DiskInode.decode_fits (bytes : List UInt8) : (decode bytes).Fits where
  size := field_lt bytes 0 4
  nlinks := field_lt bytes 6 2
  blocks := field_lt bytes 8 4
  direct _ := field_lt bytes _ 4
  indirect := field_lt bytes 60 4

def dotName : CStr := ⟨[46], by decide⟩
def dotdotName : CStr := ⟨[46, 46], by decide⟩

def DiskEntry.encode (e : DiskEntry) : List UInt8 := le 4 e.ino ++ e.name.padded 256

/-- `struct sfs_inode`, with the reference count of the inode around it. -/
structure SfsInode where
  din : DiskInode
  dirty : Bool := false
  refs : InodeRefs := {}

/-- `struct sfs_fs` and the device below it. The free map has its bits set for
    free blocks; `icache` is the hash list of in-memory inodes. -/
structure Fs where
  /-- `super.blocks`. -/
  blocks : Nat
  /-- `super.unused_blocks`. -/
  unused : Nat
  superDirty : Bool := false
  free : Nat → Bool
  disk : Nat → Block
  icache : Nat → Option SfsInode := fun _ => none

/-- The semaphores a call can hold across others. -/
inductive Sem where
  /-- `mutex_sem`. -/
  | mutex
  /-- `fs_sem`. -/
  | fs
  /-- The semaphore of an in-memory inode. -/
  | inode (ino : Nat)
  deriving DecidableEq, Repr

/-- The outcomes drawn by one call: `true` is a failure, and what is not listed
    succeeds. The requests that clear a fresh block and the requests made while an
    inode is reclaimed have lists of their own. -/
structure Faults where
  io : List Bool := []
  clear : List Bool := []
  reclaim : List Bool := []
  mem : List Bool := []

structure World where
  fs : Fs
  held : List Sem := []
  faults : Faults := {}

inductive Errno where
  | inval
  | noMem
  | tooBig
  | busy
  | noent
  | isdir
  | notdir
  | exists
  | notempty
  /-- The block device returned an error. -/
  | io
  deriving DecidableEq, Repr

inductive Halt where
  /-- A semaphore is taken by the call that holds it. -/
  | deadlock
  /-- The panic of `sfs_bmap_get_nolock`. -/
  | indexOutOfRange
  /-- The panic of `sfs_block_inuse`. -/
  | blockOutOfRange
  /-- The panic of `sfs_get_ops`. -/
  | invalidType
  /-- The assertion of `sfs_bmap_load_nolock`. -/
  | pastBlocks
  /-- The assertions of `sfs_truncfile`. -/
  | sizeMismatch
  | assertion
  /-- An inode is used that is not in memory. -/
  | dangling
  deriving DecidableEq, Repr

abbrev SfsM (α : Type) := Prog World Errno Halt α

def getFs : SfsM Fs := do
  let w ← get
  pure w.fs

def modifyFs (f : Fs → Fs) : SfsM Unit := modify fun w => { w with fs := f w.fs }

/-- `down` on a semaphore that no other task holds. -/
def down (sem : Sem) : SfsM Unit := do
  let w ← get
  if sem ∈ w.held then halt .deadlock
  else modify fun w => { w with held := sem :: w.held }

def up (sem : Sem) : SfsM Unit := modify fun w => { w with held := w.held.erase sem }

/-- Whether the next request to the device succeeds. -/
def drawIo : SfsM Bool := do
  let w ← get
  modify fun w => { w with faults := { w.faults with io := w.faults.io.tail } }
  pure (!w.faults.io.headD false)

def drawClear : SfsM Bool := do
  let w ← get
  modify fun w => { w with faults := { w.faults with clear := w.faults.clear.tail } }
  pure (!w.faults.clear.headD false)

/-- The check of `sfs_rwblock_nolock`. -/
def checkBlkno (blkno : Nat) : SfsM Unit := do
  let fs ← getFs
  assert (blkno ≠ 0 ∧ blkno < fs.blocks) .assertion

def readBlock (blkno : Nat) : SfsM Block := do
  checkBlkno blkno
  if ← drawIo then
    let fs ← getFs
    pure (fs.disk blkno)
  else fail .io

def Fs.setBlock (fs : Fs) (blkno : Nat) (block : Block) : Fs :=
  { fs with disk := Function.update fs.disk blkno block }

/-- `sfs_rwblock_nolock`, writing. A request that fails changes nothing. -/
def writeBlock (blkno : Nat) (block : Block) : SfsM Unit := do
  checkBlkno blkno
  if ← drawIo then modifyFs fun fs => fs.setBlock blkno block
  else fail .io

def sfsRblock (blkno : Nat) : SfsM (List UInt8) := do
  let block ← readBlock blkno
  pure (slice block 0 blksize)

def sfsWblock (bytes : List UInt8) (blkno : Nat) : SfsM Unit :=
  writeBlock blkno (splice zeroBlock 0 bytes)

def sfsRbuf (len blkno offset : Nat) : SfsM (List UInt8) := do
  assert (offset < blksize ∧ offset + len ≤ blksize) .assertion
  let block ← readBlock blkno
  pure (slice block offset len)

def sfsWbuf (bytes : List UInt8) (blkno offset : Nat) : SfsM Unit := do
  assert (offset < blksize ∧ offset + bytes.length ≤ blksize) .assertion
  let block ← readBlock blkno
  writeBlock blkno (splice block offset bytes)

def sfsClearBlock (blkno : Nat) : SfsM Unit := do
  checkBlkno blkno
  if ← drawClear then modifyFs fun fs => fs.setBlock blkno zeroBlock
  else fail .io

/-- The in-memory inode behind a pointer. -/
def getSin (ino : Nat) : SfsM SfsInode := do
  let fs ← getFs
  match fs.icache ino with
  | some sin => pure sin
  | none => halt .dangling

def Fs.setSin (fs : Fs) (ino : Nat) (sin : Option SfsInode) : Fs :=
  { fs with icache := Function.update fs.icache ino sin }

def modifySin (ino : Nat) (f : SfsInode → SfsInode) : SfsM Unit :=
  modifyFs fun fs => fs.setSin ino ((fs.icache ino).map f)

def lockSin (ino : Nat) : SfsM Unit := down (.inode ino)
def unlockSin (ino : Nat) : SfsM Unit := up (.inode ino)
def lockSfsFs : SfsM Unit := down .fs
def unlockSfsFs : SfsM Unit := up .fs

end Procore.Sfs
