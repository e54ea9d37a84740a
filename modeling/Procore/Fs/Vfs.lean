import Procore.Lib.Prog
import Procore.Lib.Run
import Mathlib.Data.Fintype.Defs

/-! # Vnode operations

The calls on paths and descriptors, down to the operations that they dispatch
through the table of a node. There are three tables, and each of them leaves
slots empty; `__vop_op` asserts that the slot is filled. What the file system and
the devices answer is an input of every call.
-/

namespace Procore.Fs.Vfs

open Procore.Lib Prog

inductive Vop where
  | vopOpen
  | vopClose
  | vopRead
  | vopWrite
  | vopFstat
  | vopFsync
  | vopNamefile
  | vopGetdirentry
  | vopReclaim
  | vopGettype
  | vopTryseek
  | vopTruncate
  | vopCreate
  | vopLookup
  | vopIoctl
  deriving DecidableEq, Repr

def sfsNodeDirops : List Vop :=
  [.vopOpen, .vopClose, .vopFstat, .vopFsync, .vopNamefile, .vopGetdirentry, .vopReclaim,
    .vopGettype, .vopLookup, .vopCreate, .vopTruncate]

def sfsNodeFileops : List Vop :=
  [.vopOpen, .vopClose, .vopRead, .vopWrite, .vopFstat, .vopFsync, .vopReclaim, .vopGettype,
    .vopTryseek, .vopTruncate]

def devNodeOps : List Vop :=
  [.vopOpen, .vopClose, .vopRead, .vopWrite, .vopFstat, .vopIoctl, .vopGettype, .vopTryseek,
    .vopLookup]

inductive NodeType where
  | dir
  | file
  | link
  | chr
  | blk
  deriving DecidableEq, Repr

namespace NodeType

/-- `in_ops`: `sfs_get_ops` for the nodes of the file system. -/
def ops : NodeType → List Vop
  | .dir => sfsNodeDirops
  | .file | .link => sfsNodeFileops
  | .chr | .blk => devNodeOps

def isDevice : NodeType → Bool
  | .chr | .blk => true
  | .dir | .file | .link => false

/-- The operations that an operation may dispatch on its own node in turn. -/
def calls (type : NodeType) : Vop → List Vop
  | .vopClose => if type.isDevice then [] else [.vopFsync]
  | .vopFstat => [.vopGettype]
  | .vopReclaim => [.vopTruncate, .vopFsync]
  | .vopTryseek => if type.isDevice then [] else [.vopTruncate]
  | _ => []

theorem calls_present (type : NodeType) {op op' : Vop} (present : op ∈ type.ops)
    (called : op' ∈ type.calls op) : op' ∈ type.ops := by
  have closed : ∀ op ∈ type.ops, ∀ op' ∈ type.calls op, op' ∈ type.ops := by
    cases type <;> decide
  exact closed op present op' called

end NodeType

inductive Errno where
  | inval
  | noMem
  | tooBig
  | noDev
  | naDev
  | noent
  | isdir
  | notdir
  | xdev
  | unimp
  | seek
  | exists
  /-- What a driver or a disk reports. -/
  | io
  deriving DecidableEq, Repr

/-- Failed assertions: of `__vop_op`, of `in_fs`, of `ref_count`. -/
inductive Halt where
  | absent (op : Vop)
  | noFs
  | refCount
  deriving DecidableEq, Repr

abbrev Name := List UInt8

def slash : UInt8 := 47
def colon : UInt8 := 58

def fsMaxFnameLen : Nat := 255

/-- `struct inode`: a node of the file system or of a device. -/
inductive Node (ν δ : Type) where
  | sfs (x : ν)
  | dev (d : δ)
  deriving DecidableEq

/-- An entry of `vdev_list`: a device with a file system, a device without, or one that is not
    mounted yet. -/
inductive VfsDev (ν δ : Type) where
  | mounted (root : ν)
  | raw (d : δ)
  | unmounted

/-- `din->type`. -/
inductive SfsType where
  | dir
  | file
  | link
  deriving DecidableEq, Repr

/-- The nodes of the kernel, their file systems, and the list of devices. -/
structure Mounts (ν δ : Type) where
  sfsType : ν → SfsType
  /-- The device has blocks. -/
  blocks : δ → Bool
  /-- The root of `in_fs`. -/
  root : ν → ν
  devices : List (Name × VfsDev ν δ)
  bootfs : Option ν

/-- What the environment of one call answers: the directories and the memory. -/
structure Answers (ν : Type) where
  lookup : ν → Name → Except Errno ν
  create : ν → Name → Except Errno ν
  /-- A buffer is there, and the user's memory can be copied. -/
  memory : Bool := true

/-- How a driver or the file system ends an operation; a transfer may be complete. -/
structure Reply where
  error : Option Errno := none
  full : Bool := false

/-- What the calls use of `struct open_file`. Pipes and sockets have no node. -/
structure OpenFile (ν δ : Type) where
  node : Option (Node ν δ)
  readable : Bool
  writable : Bool
  append : Bool

/-- The file is open for a transfer by `vop_read` or `vop_write`. -/
def OpenFile.allows {ν δ : Type} (file : OpenFile ν δ) (op : Vop) : Prop :=
  (op = .vopRead → file.readable = true) ∧ (op = .vopWrite → file.writable = true)

instance {ν δ : Type} (file : OpenFile ν δ) (op : Vop) : Decidable (file.allows op) :=
  inferInstanceAs (Decidable (_ ∧ _))

/-- The open files and references of the running system. -/
structure State (ν δ : Type) where
  opened : List (Nat × OpenFile ν δ)
  pwd : Option (Node ν δ)
  refs : Multiset (Node ν δ)
  replies : List Reply := []

abbrev VfsM (ν δ α : Type) := Prog (State ν δ) Errno Halt α

inductive AccMode where
  | rdonly
  | wronly
  | rdwr
  | invalid
  deriving DecidableEq, Repr

structure OpenFlags where
  acc : AccMode := .rdonly
  creat : Bool := false
  excl : Bool := false
  trunc : Bool := false
  append : Bool := false
  deriving DecidableEq, Repr

variable {ν δ : Type}

def Mounts.type (k : Mounts ν δ) : Node ν δ → NodeType
  | .sfs x => match k.sfsType x with
      | .dir => .dir
      | .file => .file
      | .link => .link
  | .dev d => if k.blocks d then .blk else .chr

section Calls

variable [DecidableEq ν] [DecidableEq δ] (k : Mounts ν δ) (a : Answers ν)

/-- The assertion of `__vop_op` for each of the operations. -/
def present (node : Node ν δ) : List Vop → VfsM ν δ Unit
  | [] => pure ()
  | op :: ops => do
    assert (op ∈ (k.type node).ops) (.absent op)
    present node ops

/-- Dispatch an operation, which may dispatch others. -/
def dispatch (op : Vop) (node : Node ν δ) : VfsM ν δ Unit :=
  present k node (op :: (k.type node).calls op)

/-- The next reply of a driver or of the file system. -/
def draw : VfsM ν δ Reply := do
  let s ← get
  modify fun s => { s with replies := s.replies.tail }
  pure (s.replies.headD {})

def reply : VfsM ν δ Unit := do
  let r ← draw
  match r.error with
  | some e => fail e
  | none => pure ()

def vopRefInc (node : Node ν δ) : VfsM ν δ Unit := modify fun s => { s with refs := node ::ₘ s.refs }

/-- `inode_ref_dec`; an error of `vop_reclaim` is only reported. -/
def vopRefDec (node : Node ν δ) : VfsM ν δ Unit := do
  let s ← get
  assert (node ∈ s.refs) .refCount
  modify fun s => { s with refs := s.refs.erase node }
  if node ∈ s.refs.erase node then pure () else dispatch k .vopReclaim node

/-- `vop_lookup`: `sfs_lookup` or `dev_lookup`. -/
def vopLookup (node : Node ν δ) (component : Name) : VfsM ν δ (Node ν δ) := do
  dispatch k .vopLookup node
  match node with
  | .dev _ => fail .noent
  | .sfs x =>
    match a.lookup x component with
    | .error e => fail e
    | .ok next => do
      vopRefInc (.sfs next)
      pure (.sfs next)

def vopGettype (node : Node ν δ) : VfsM ν δ NodeType := do
  dispatch k .vopGettype node
  pure (k.type node)

def vfsGetCurdir : VfsM ν δ (Node ν δ) := do
  let s ← get
  match s.pwd with
  | none => fail .noent
  | some node => do
    vopRefInc node
    pure node

def vfsGetRoot (devname : Name) : VfsM ν δ (Node ν δ) :=
  match k.devices.lookup devname with
  | none => fail .noDev
  | some .unmounted => fail .naDev
  | some (.mounted root) => do
    vopRefInc (.sfs root)
    pure (.sfs root)
  | some (.raw d) => do
    vopRefInc (.dev d)
    pure (.dev d)

def vfsGetBootfs : VfsM ν δ (Node ν δ) :=
  match k.bootfs with
  | none => fail .noent
  | some root => do
    vopRefInc (.sfs root)
    pure (.sfs root)

/-- The root of the file system of the current directory. -/
def curdirRoot : VfsM ν δ (Node ν δ) := do
  let node ← vfsGetCurdir
  match node with
  | .dev _ => halt .noFs
  | .sfs x => do
    vopRefInc (.sfs (k.root x))
    vopRefDec k node
    pure (.sfs (k.root x))

/-- `get_device`, with the components of the rest of the path. -/
def getDevice (path : Name) : VfsM ν δ (Node ν δ) :=
  match path.find? fun c => c = colon ∨ c = slash with
  | none => vfsGetCurdir
  | some c =>
    if path.head? = some slash then vfsGetBootfs k
    else if path.head? = some colon then curdirRoot k
    else if c = colon then vfsGetRoot k (path.takeWhile (· ≠ colon))
    else vfsGetCurdir

/-- The part of a path behind its device. -/
def subpath (path : Name) : Name :=
  match path.find? fun c => c = colon ∨ c = slash with
  | none => path
  | some c => if c = colon then (path.dropWhile (· ≠ colon)).drop 1 else path

def components (path : Name) : List Name := ((subpath path).splitOn slash).filter (· ≠ [])

/-- The loop over the components of a path. -/
def walk : List Name → Node ν δ → VfsM ν δ (Node ν δ)
  | [], node => pure node
  | c :: cs, node =>
    if fsMaxFnameLen < c.length then do
      vopRefDec k node
      fail .tooBig
    else do
      let ret ← attempt (vopLookup k a node c)
      vopRefDec k node
      let next ← rethrow ret
      walk cs next

def vfsLookup (path : Name) : VfsM ν δ (Node ν δ) := do
  let node ← getDevice k path
  walk k a (components path) node

/-- The directory that holds the last component, and that component. -/
def vfsLookupParent (path : Name) : VfsM ν δ (Node ν δ × Name) := do
  let node ← getDevice k path
  match (components path).getLast? with
  | none => do
    vopRefDec k node
    fail .inval
  | some name => do
    let dir ← walk k a (components path).dropLast node
    if fsMaxFnameLen < name.length then do
      vopRefDec k dir
      fail .tooBig
    else pure (dir, name)

def vfsRequireDir (node : Node ν δ) : VfsM ν δ Unit := do
  let type ← vopGettype k node
  if type = .dir then pure () else fail .notdir

/-- `vop_open`: `sfs_opendir`, `sfs_openfile` or `dev_open`. -/
def vopOpen (node : Node ν δ) (flags : OpenFlags) : VfsM ν δ Unit := do
  dispatch k .vopOpen node
  match k.type node with
  | .dir => if flags.acc ≠ .rdonly ∨ flags.append then fail .isdir else pure ()
  | .file | .link => pure ()
  | .chr | .blk =>
    if flags.creat ∨ flags.trunc ∨ flags.excl ∨ flags.append then fail .inval else reply

def vopCreate (dir : Node ν δ) (name : Name) : VfsM ν δ (Node ν δ) := do
  dispatch k .vopCreate dir
  match dir with
  | .dev _ => fail .inval
  | .sfs x =>
    match a.create x name with
    | .error e => fail e
    | .ok node => do
      vopRefInc (.sfs node)
      pure (.sfs node)

/-- The part of `vfs_open` that creates a file in a directory. -/
def createIn (dir : Node ν δ) (name : Name) : VfsM ν δ (Node ν δ) := do
  let ret ← attempt do
    vfsRequireDir k dir
    vopCreate k a dir name
  vopRefDec k dir
  rethrow ret

/-- The node of `vfs_open`, found or created. -/
def findOrCreate (path : Name) (flags : OpenFlags) : VfsM ν δ (Node ν δ) := do
  match ← attempt (vfsLookup k a path) with
  | .ok node =>
    if flags.excl ∧ flags.creat then do
      vopRefDec k node
      fail .exists
    else pure node
  | .error e =>
    if e = .noent ∧ flags.creat then do
      let parent ← vfsLookupParent k a path
      createIn k a parent.1 parent.2
    else fail e

/-- `vop_open_dec` when no description is left on the node; an error of `vop_close` is only
    reported. -/
def vopOpenDec (node : Node ν δ) : VfsM ν δ Unit := do
  let s ← get
  if s.opened.any fun x => x.2.node = some node then pure () else dispatch k .vopClose node

def vfsClose (node : Node ν δ) : VfsM ν δ Unit := do
  vopOpenDec k node
  vopRefDec k node

def vopTruncate (node : Node ν δ) : VfsM ν δ Unit := do
  dispatch k .vopTruncate node
  reply

/-- `vfs_open` after the node is there. -/
def openNode (node : Node ν δ) (flags : OpenFlags) : VfsM ν δ Unit := do
  match ← attempt (vopOpen k node flags) with
  | .error e => do
    vopRefDec k node
    fail e
  | .ok () =>
    if flags.trunc then do
      match ← attempt (vopTruncate k node) with
      | .error e => do
        vfsClose k node
        fail e
      | .ok () => pure ()
    else pure ()

def vfsOpen (path : Name) (flags : OpenFlags) : VfsM ν δ (Node ν δ) :=
  if flags.acc = .invalid ∨ flags.trunc ∧ flags.acc = .rdonly then fail .inval
  else do
    let node ← findOrCreate k a path flags
    openNode k node flags
    pure node

/-- `file_open` with the reserved descriptor `fd`. -/
def fileOpen (fd : Nat) (path : Name) (flags : OpenFlags) : VfsM ν δ Unit :=
  if flags.acc = .invalid then fail .inval
  else do
    let node ← vfsOpen k a path flags
    if flags.append then dispatch k .vopFstat node else pure ()
    if a.memory then
      modify fun s => { s with opened := (fd, {
        node := some node
        readable := flags.acc ≠ .wronly
        writable := flags.acc ≠ .rdonly
        append := flags.append }) :: s.opened }
    else do
      vfsClose k node
      fail .noMem

def fdAcquire (fd : Nat) : VfsM ν δ (OpenFile ν δ) := do
  let s ← get
  match s.opened.lookup fd with
  | none => fail .inval
  | some file => pure file

def regularFileAcquire (fd : Nat) (readable writable : Bool) : VfsM ν δ (Node ν δ) := do
  let file ← fdAcquire fd
  match file.node with
  | none => fail .inval
  | some node =>
    if (readable → file.readable) ∧ (writable → file.writable) then pure node
    else fail .inval

def answer : VfsM ν δ Bool := do
  let r ← draw
  match r.error with
  | some e => fail e
  | none => pure r.full

/-- A transfer by `vop_read` or `vop_write`. -/
def transfer (op : Vop) (node : Node ν δ) : VfsM ν δ Bool := do
  dispatch k op node
  answer

/-- `file_read` and `file_write`. A pipe or a socket answers by itself. -/
def fileTransfer (op : Vop) (fd : Nat) : VfsM ν δ Bool := do
  let file ← fdAcquire fd
  if file.allows op then
    match file.node with
    | none => answer
    | some node => do
      if op = .vopWrite ∧ file.append then dispatch k .vopFstat node else pure ()
      transfer k op node
  else fail .inval

def iobufSize : Nat := 4096

/-- The loop of `sysfile_read` and `sysfile_write` over pieces of the buffer. An error after the
    first piece is not reported. -/
def transferLoop (one : VfsM ν δ Bool) : Nat → VfsM ν δ Unit
  | 0 => pure ()
  | rounds + 1 => do
    let full ← one
    if full then do
      let _ ← attempt (transferLoop one rounds)
      pure ()
    else pure ()

def pieces (len : Nat) : Nat := (len + (iobufSize - 1)) / iobufSize

def sysfileTransfer (op : Vop) (fd len : Nat) : VfsM ν δ Unit :=
  if len = 0 then pure ()
  else do
    let file ← fdAcquire fd
    if file.allows op then
      if a.memory then transferLoop (fileTransfer k op fd) (pieces len) else fail .noMem
    else fail .inval

def sysfileRead (fd len : Nat) : VfsM ν δ Unit := sysfileTransfer k a .vopRead fd len
def sysfileWrite (fd len : Nat) : VfsM ν δ Unit := sysfileTransfer k a .vopWrite fd len

def filePtransfer (op : Vop) (fd : Nat) : VfsM ν δ Bool := do
  let node ← regularFileAcquire fd (op = .vopRead) (op = .vopWrite)
  transfer k op node

def sysfilePtransfer (op : Vop) (fd len : Nat) (offset : Int) : VfsM ν δ Unit :=
  if offset < 0 then fail .inval
  else if len = 0 then pure ()
  else if a.memory then transferLoop (filePtransfer k op fd) (pieces len)
  else fail .noMem

def sysfilePread (fd len : Nat) (offset : Int) : VfsM ν δ Unit :=
  sysfilePtransfer k a .vopRead fd len offset

def sysfilePwrite (fd len : Nat) (offset : Int) : VfsM ν δ Unit :=
  sysfilePtransfer k a .vopWrite fd len offset

inductive Whence where
  | set
  | cur
  | fromEnd
  | invalid
  deriving DecidableEq, Repr

def fileSeek (fd : Nat) (whence : Whence) : VfsM ν δ Unit := do
  let file ← fdAcquire fd
  match file.node with
  | none => fail .seek
  | some node => do
    if whence = .invalid then fail .inval
    else if whence = .fromEnd then dispatch k .vopFstat node
    else pure ()
    dispatch k .vopTryseek node
    reply

def fileFstat (fd : Nat) : VfsM ν δ Unit := do
  let node ← regularFileAcquire fd false false
  dispatch k .vopFstat node

def fileFsync (fd : Nat) : VfsM ν δ Unit := do
  let node ← regularFileAcquire fd false false
  dispatch k .vopFsync node
  reply

def fileFtruncate (fd : Nat) (length : Int) : VfsM ν δ Unit :=
  if length < 0 then fail .inval
  else do
    let node ← regularFileAcquire fd false true
    vopTruncate k node

def sysfileGetdirentry (fd : Nat) : VfsM ν δ Unit :=
  if a.memory then do
    let node ← regularFileAcquire fd false false
    dispatch k .vopGetdirentry node
    reply
  else fail .noMem

def vfsSetCurdir (dir : Node ν δ) : VfsM ν δ Unit := do
  let s ← get
  if s.pwd = some dir then pure ()
  else do
    vfsRequireDir k dir
    vopRefInc dir
    modify fun s => { s with pwd := some dir }
    match s.pwd with
    | none => pure ()
    | some old => vopRefDec k old

def fileChdir (fd : Nat) : VfsM ν δ Unit := do
  let file ← fdAcquire fd
  match file.node with
  | none => fail .notdir
  | some node => vfsSetCurdir k node

/-- `vfs_getcwd`: the name of the device, a colon, and the path. -/
def vfsGetcwd : VfsM ν δ Unit := do
  let node ← vfsGetCurdir
  match node with
  | .dev _ => halt .noFs
  | .sfs _ => do
    let ret ← attempt do
      reply
      reply
      dispatch k .vopNamefile node
      reply
    vopRefDec k node
    rethrow ret

def sysfileGetcwd (len : Nat) : VfsM ν δ Unit :=
  if len = 0 ∨ !a.memory then fail .inval else vfsGetcwd k

/-- Look a node up, do something with it, and let it go. -/
def withNode (path : Name) (act : Node ν δ → VfsM ν δ Unit) : VfsM ν δ Unit := do
  let node ← vfsLookup k a path
  let ret ← attempt (act node)
  vopRefDec k node
  rethrow ret

def vfsChdir (path : Name) : VfsM ν δ Unit := withNode k a path (vfsSetCurdir k)

def sysfileStat (path : Name) : VfsM ν δ Unit := withNode k a path (dispatch k .vopFstat)

def sysfileTruncate (path : Name) (length : Int) : VfsM ν δ Unit :=
  if length < 0 then fail .inval else withNode k a path (vopTruncate k)

def vfsReadlink (path : Name) : VfsM ν δ Unit :=
  withNode k a path fun node => do
    let type ← vopGettype k node
    if type = .link then do
      dispatch k .vopRead node
      reply
    else fail .inval

def sysfileReadlink (path : Name) (len : Nat) : VfsM ν δ Unit :=
  if len = 0 then fail .inval
  else if a.memory then vfsReadlink k a path
  else fail .noMem

/-- `vfs_mkdir`, `vfs_unlink`, `vfs_rmdir` and `vfs_symlink`: a change of the directory that holds
    the last component. -/
def vfsDirop (path : Name) : VfsM ν δ Unit := do
  let (dir, name) ← vfsLookupParent k a path
  let ret ← attempt do
    if name = [] ∨ slash ∈ name then fail .inval
    else do
      vfsRequireDir k dir
      reply
  vopRefDec k dir
  rethrow ret

/-- `vop_fs` of both is the same. -/
def sameFs : Node ν δ → Node ν δ → Bool
  | .sfs x, .sfs y => k.root x = k.root y
  | .dev _, .dev _ => true
  | .sfs _, .dev _ | .dev _, .sfs _ => false

/-- Look up the directory of a second path, while a node is held. -/
def withParent (held : Node ν δ) (path : Name) (act : Node ν δ → Name → VfsM ν δ Unit) :
    VfsM ν δ Unit := do
  match ← attempt (vfsLookupParent k a path) with
  | .error e => do
    vopRefDec k held
    fail e
  | .ok parent => act parent.1 parent.2

/-- `vfs_rename` with both directories. -/
def renameDirs (oldDir : Node ν δ) (oldName : Name) (newDir : Node ν δ) (newName : Name) :
    VfsM ν δ Unit := do
  let ret ← attempt do
    if oldName = [] ∨ newName = [] ∨ slash ∈ oldName ∨ slash ∈ newName then fail .inval
    else do
      vfsRequireDir k oldDir
      vfsRequireDir k newDir
      if sameFs k oldDir newDir then reply else fail .xdev
  vopRefDec k oldDir
  vopRefDec k newDir
  rethrow ret

def vfsRename (oldPath newPath : Name) : VfsM ν δ Unit := do
  let old ← vfsLookupParent k a oldPath
  withParent k a old.1 newPath (renameDirs k old.1 old.2)

/-- `vfs_link` with the target and the new directory. -/
def linkIn (target newDir : Node ν δ) (newName : Name) : VfsM ν δ Unit := do
  let ret ← attempt do
    if newName = [] ∨ slash ∈ newName then fail .inval
    else if sameFs k target newDir then do
      vfsRequireDir k newDir
      reply
    else fail .xdev
  vopRefDec k newDir
  vopRefDec k target
  rethrow ret

def vfsLink (oldPath newPath : Name) : VfsM ν δ Unit := do
  let target ← vfsLookup k a oldPath
  withParent k a target newPath (linkIn k target)

/-- `file_close` of the last descriptor of a description. -/
def fileClose (fd : Nat) : VfsM ν δ Unit := do
  let file ← fdAcquire fd
  modify fun s => { s with opened := s.opened.eraseP (·.1 = fd) }
  match file.node with
  | none => pure ()
  | some node => vfsClose k node

def loadIcodeRead (fd len : Nat) : VfsM ν δ Unit := do
  fileSeek k fd .set
  sysfileRead k a fd len

/-- The reads of `load_icode`, by their lengths. -/
def loadIcode (fd : Nat) : List Nat → VfsM ν δ Unit
  | [] => fileClose k fd
  | len :: lens => do
    loadIcodeRead k a fd len
    loadIcode fd lens

/-- `do_execve` from `sysfile_open` on. When the image cannot be loaded, the process exits and its
    descriptors are closed then. -/
def doExecve (fd : Nat) (path : Name) (lens : List Nat) : VfsM ν δ Unit := do
  fileOpen k a fd path {}
  if a.memory then loadIcode k a fd lens else fail .noMem

end Calls

inductive VfsCall where
  | openPath (fd : Nat) (path : Name) (flags : OpenFlags)
  /-- A pipe or a socket. -/
  | openOther (fd : Nat) (readable writable : Bool)
  | close (fd : Nat)
  | read (fd len : Nat)
  | write (fd len : Nat)
  | pread (fd len : Nat) (offset : Int)
  | pwrite (fd len : Nat) (offset : Int)
  | seek (fd : Nat) (whence : Whence)
  | fstat (fd : Nat)
  | fsync (fd : Nat)
  | ftruncate (fd : Nat) (length : Int)
  | getdirentry (fd : Nat)
  | fchdir (fd : Nat)
  | getcwd (len : Nat)
  | chdir (path : Name)
  | stat (path : Name)
  | truncate (path : Name) (length : Int)
  | readlink (path : Name) (len : Nat)
  | mkdir (path : Name)
  | unlink (path : Name)
  | rmdir (path : Name)
  | symlink (path : Name)
  | rename (oldPath newPath : Name)
  | link (oldPath newPath : Name)
  | exec (fd : Nat) (path : Name) (lens : List Nat)

/-- A call with what its environment answers. -/
structure Request (ν : Type) where
  call : VfsCall
  answers : Answers ν
  replies : List Reply := []

section Machine

variable [DecidableEq ν] [DecidableEq δ] (k : Mounts ν δ)

def VfsCall.run (a : Answers ν) : VfsCall → VfsM ν δ Unit
  | .openPath fd path flags => fileOpen k a fd path flags
  | .openOther fd readable writable =>
    modify fun s => { s with opened := (fd, ⟨none, readable, writable, false⟩) :: s.opened }
  | .close fd => fileClose k fd
  | .read fd len => sysfileRead k a fd len
  | .write fd len => sysfileWrite k a fd len
  | .pread fd len offset => sysfilePread k a fd len offset
  | .pwrite fd len offset => sysfilePwrite k a fd len offset
  | .seek fd whence => fileSeek k fd whence
  | .fstat fd => fileFstat k fd
  | .fsync fd => fileFsync k fd
  | .ftruncate fd length => fileFtruncate k fd length
  | .getdirentry fd => sysfileGetdirentry k a fd
  | .fchdir fd => fileChdir k fd
  | .getcwd len => sysfileGetcwd k a len
  | .chdir path => vfsChdir k a path
  | .stat path => sysfileStat k a path
  | .truncate path length => sysfileTruncate k a path length
  | .readlink path len => sysfileReadlink k a path len
  | .mkdir path | .unlink path | .rmdir path | .symlink path => vfsDirop k a path
  | .rename oldPath newPath => vfsRename k a oldPath newPath
  | .link oldPath newPath => vfsLink k a oldPath newPath
  | .exec fd path lens => doExecve k a fd path lens

/-- The descriptor that a call is to open. -/
def VfsCall.reserves : VfsCall → Option Nat
  | .openPath fd _ _ | .openOther fd _ _ | .exec fd _ _ => some fd
  | _ => none

namespace State

def outcome (s : State ν δ) (r : Request ν) : Outcome (State ν δ) Errno Halt Unit :=
  r.call.run k r.answers { s with replies := r.replies }

/-- The call opens no descriptor that is in use. -/
def Enabled (s : State ν δ) (r : Request ν) : Prop :=
  ∀ fd ∈ r.call.reserves, s.opened.lookup fd = none

instance (s : State ν δ) (r : Request ν) : Decidable (s.Enabled r) :=
  inferInstanceAs (Decidable (∀ _ ∈ _, _ = none))

/-- A call that returns, with an error or without. -/
def step (s : State ν δ) (r : Request ν) : Option (State ν δ) :=
  if s.Enabled r then
    match s.outcome k r with
    | .done _ t => some t
    | .failed _ t => some t
    | .halted _ => none
  else none

/-- The first process in the root of the boot file system. Every device has the reference of
    `vdev_list`. -/
def boot [Fintype δ] (root : ν) : State ν δ where
  opened := []
  pwd := some (.sfs root)
  refs := .sfs root ::ₘ Finset.univ.val.map .dev

end State

end Machine

end Procore.Fs.Vfs
