import Procore.Fs.Refs
import Procore.Lib.Run

/-! # Descriptor tables

Any number of tasks, some of which share a descriptor table, open, duplicate and
close files, make pipes and socket pairs, fork, exec and exit. A section under
`files_sem` is one step, as is what a call does between two sections; `kmalloc`
answers with an address that is not in use, or with none.
-/

namespace Procore.Fs.Files

open Procore.Lib
open Function

variable {τ α : Type} {n : Nat} [DecidableEq τ] [DecidableEq α]

/-- `FD_NONE`, `FD_INIT`, or `FD_OPENED` with the description. -/
inductive Slot (α : Type) where
  | fdNone
  | fdInit
  | fdOpened (d : α)
  deriving DecidableEq

/-- `struct files_struct` with an array of `n` descriptors. -/
structure FilesStruct (α : Type) (n : Nat) where
  filesCount : Int
  fdArray : Fin n → Slot α

inductive Pc (α : Type) (n : Nat) where
  | idle
  /-- A descriptor is reserved for a file or a socket. -/
  | opening (fd : Fin n) (kind : FileKind α) (readable writable : Bool)
  /-- The reserved descriptors are to be given back. -/
  | cancelling (guarded : Bool) (fds : List (Fin n))
  | installing (slots : List (Fin n × α))
  /-- `open_file_put` is to be called. -/
  | putting (ds : List α)
  /-- An operation between `fd_acquire` and `open_file_put`. -/
  | busy (d : α)
  | piping (r w : Fin n)
  /-- After `pipe_create`. -/
  | pipeMade (r w : Fin n) (p : α)
  /-- With the description for reading. -/
  | pipeRead (r w : Fin n) (p rd : α)
  /-- With both descriptions. -/
  | pipeBoth (r w : Fin n) (p rd wd : α)
  | pairing (a b : Fin n)
  | pairMade (a b : Fin n) (ab ba ea eb : α)
  | pairBoth (a b : Fin n) (ab ba ea eb da db : α)
  deriving DecidableEq

structure Task (α : Type) (n : Nat) where
  filesp : Option α := none
  pc : Pc α n := .idle

structure State (τ α : Type) (n : Nat) where
  heap : Heap α
  tables : α → Option (FilesStruct α n)
  tasks : τ → Task α n

inductive FilesOp (τ α : Type) where
  /-- The beginning of `file_open`, up to the reserved descriptor. -/
  | fileOpen (t : τ) (readable writable : Bool)
  /-- The same of `file_socket_create` and of `file_socket_accept`. -/
  | socketCreate (t : τ)
  /-- The file, the socket or the memory for its description is not there. -/
  | objectFails (t : τ)
  | describe (t : τ) (d : α)
  | install (t : τ)
  | cancel (t : τ)
  | close (t : τ) (fd : Int)
  | put (t : τ)
  | acquire (t : τ) (fd : Int)
  | use (t : τ)
  | release (t : τ)
  | dup (t : τ) (fd1 fd2 : Int)
  /-- `F_DUPFD`. -/
  | dupfd (t : τ) (fd : Int) (argument : Nat)
  /-- `file_pipe` in its steps. -/
  | pipe (t : τ)
  | pipeCreate (t : τ) (p : Option α)
  | pipeReader (t : τ) (d : Option α)
  | pipeWriter (t : τ) (d : Option α)
  | pipeOpen (t : τ)
  /-- `file_socketpair_create` in its steps. -/
  | socketpair (t : τ)
  | pairAlloc (t : τ) (ab ba a b : Option α)
  | pairDescribe (t : τ) (da db : Option α)
  | pairOpen (t : τ)
  /-- `copy_fs`, with a table of its own for the child. -/
  | fork (t child : τ) (a : α)
  /-- `copy_fs` with `CLONE_FS`. -/
  | clone (t child : τ)
  /-- `files_closeall` in `do_execve`. -/
  | closeAll (t : τ)
  /-- `put_fs`. -/
  | exit (t : τ)

def noFd : Int := -1

def testfd (n : Nat) (fd : Int) : Option (Fin n) :=
  if valid : 0 ≤ fd ∧ fd.toNat < n then some ⟨fd.toNat, valid.2⟩ else none

namespace FilesStruct

/-- `fd_array_alloc` for `NO_FD`. -/
def fdArrayAlloc (files : FilesStruct α n) : Option (Fin n) :=
  (List.finRange n).find? fun fd => files.fdArray fd = .fdNone

def fd2file (files : FilesStruct α n) (fd : Int) : Option (Fin n × α) :=
  match testfd n fd with
  | none => none
  | some k =>
    match files.fdArray k with
    | .fdOpened d => some (k, d)
    | _ => none

end FilesStruct

namespace State

def setPc (s : State τ α n) (t : τ) (pc : Pc α n) : State τ α n :=
  { s with tasks := update s.tasks t { s.tasks t with pc := pc } }

def setTable (s : State τ α n) (a : α) (files : Option (FilesStruct α n)) : State τ α n :=
  { s with tables := update s.tables a files }

def slot (s : State τ α n) (a : α) (fd : Fin n) : Slot α :=
  match s.tables a with
  | some files => files.fdArray fd
  | none => .fdNone

def setSlot (s : State τ α n) (a : α) (fd : Fin n) (v : Slot α) : State τ α n :=
  match s.tables a with
  | some files => s.setTable a (some { files with fdArray := update files.fdArray fd v })
  | none => s

def currentFiles (s : State τ α n) (a : α) : Except Fault (FilesStruct α n) := do
  let files ← deref (s.tables a)
  check (0 < files.filesCount)
  return files

def fdArrayCancel (s : State τ α n) (a : α) (guarded : Bool) (fd : Fin n) :
    Except Fault (State τ α n) := do
  if guarded ∧ s.slot a fd ≠ .fdInit then return s
  check (s.slot a fd = .fdInit)
  return s.setSlot a fd .fdNone

def fdArrayInstall (s : State τ α n) (a : α) (fd : Fin n) (d : α) : Except Fault (State τ α n) := do
  check (s.slot a fd = .fdInit)
  let x ← deref (s.heap.files d)
  check (0 < x.descriptorCount)
  return s.setSlot a fd (.fdOpened d)

/-- `fd_array_close` of a slot with this description. -/
def fdArrayClose (s : State τ α n) (a : α) (fd : Fin n) (d : α) : Except Fault (State τ α n) := do
  check (s.slot a fd = .fdOpened d)
  let heap ← s.heap.openFileDropDescriptor d
  return { s.setSlot a fd .fdNone with heap := heap }

/-- `fd_array_dup` from a slot with this description. -/
def fdArrayDup (s : State τ α n) (a : α) (fd : Fin n) (d : α) : Except Fault (State τ α n) := do
  check (s.slot a fd = .fdNone ∨ s.slot a fd = .fdInit)
  let heap ← s.heap.openFileGetDescriptor d
  return { s.setSlot a fd (.fdOpened d) with heap := heap }

def cancelSlots (s : State τ α n) (a : α) (guarded : Bool) : List (Fin n) → Except Fault (State τ α n)
  | [] => .ok s
  | fd :: fds => do
    let s ← s.fdArrayCancel a guarded fd
    s.cancelSlots a guarded fds

def installSlots (s : State τ α n) (a : α) : List (Fin n × α) → Except Fault (State τ α n)
  | [] => .ok s
  | (fd, d) :: slots => do
    let s ← s.fdArrayInstall a fd d
    s.installSlots a slots

/-- The loop of `files_detach`, with the descriptions that are to be put. -/
def detach (s : State τ α n) (a : α) : List (Fin n) → Except Fault (State τ α n × List α)
  | [] => .ok (s, [])
  | fd :: fds =>
    match s.slot a fd with
    | .fdOpened d => do
      let s ← s.fdArrayClose a fd d
      let (s, ds) ← s.detach a fds
      return (s, d :: ds)
    | _ => s.detach a fds

def dupFs (s : State τ α n) (dst src : α) : List (Fin n) → Except Fault (State τ α n)
  | [] => .ok s
  | fd :: fds =>
    match s.slot src fd with
    | .fdOpened d => do
      let s ← s.fdArrayDup dst fd d
      s.dupFs dst src fds
    | _ => s.dupFs dst src fds

/-- After `open_file_put` of one description. -/
def afterPut (ds : List α) : Pc α n :=
  match ds with
  | [] => .idle
  | d :: ds => .putting (d :: ds)

def reserve (s : State τ α n) (t : τ) (a : α) (next : Fin n → Pc α n) : Except Fault (State τ α n) := do
  let files ← s.currentFiles a
  match files.fdArrayAlloc with
  | none => return s
  | some fd => return (s.setSlot a fd .fdInit).setPc t (next fd)

def reserveTwo (s : State τ α n) (t : τ) (a : α) (next : Fin n → Fin n → Pc α n) :
    Except Fault (State τ α n) := do
  let files ← s.currentFiles a
  match files.fdArrayAlloc with
  | none => return s
  | some first =>
    let s := s.setSlot a first .fdInit
    match ({ files with fdArray := update files.fdArray first .fdInit }).fdArrayAlloc with
    | none => return s.setPc t (.cancelling true [first])
    | some second => return (s.setSlot a second .fdInit).setPc t (next first second)

def fileClose (s : State τ α n) (t : τ) (a : α) (fd : Int) : Except Fault (State τ α n) := do
  let files ← s.currentFiles a
  match files.fd2file fd with
  | none => return s
  | some (k, d) =>
    let s ← s.fdArrayClose a k d
    return s.setPc t (.putting [d])

def fdAcquire (s : State τ α n) (t : τ) (a : α) (fd : Int) : Except Fault (State τ α n) := do
  let files ← s.currentFiles a
  match files.fd2file fd with
  | none => return s
  | some (_, d) =>
    let heap ← s.heap.openFileGet d
    return { s with heap := heap }.setPc t (.busy d)

def fileDup (s : State τ α n) (t : τ) (a : α) (fd1 fd2 : Int) : Except Fault (State τ α n) := do
  let files ← s.currentFiles a
  match files.fd2file fd1 with
  | none => return s
  | some (_, d) =>
    if fd1 = fd2 then return s
    else if fd2 = noFd then
      match files.fdArrayAlloc with
      | none => return s
      | some dst => (s.setSlot a dst .fdInit).fdArrayDup a dst d
    else
      match testfd n fd2 with
      | none => return s
      | some dst =>
        match files.fdArray dst with
        | .fdInit => return s
        | .fdNone => s.fdArrayDup a dst d
        | .fdOpened replaced => do
          let s ← s.fdArrayClose a dst replaced
          let s ← s.fdArrayDup a dst d
          return s.setPc t (.putting [replaced])

def fileDupfd (s : State τ α n) (a : α) (fd : Int) (argument : Nat) : Except Fault (State τ α n) := do
  let files ← s.currentFiles a
  if n ≤ argument then return s
  match files.fd2file fd with
  | none => return s
  | some (_, d) =>
    match (List.finRange n).find? fun target =>
        argument ≤ target.val ∧ files.fdArray target = .fdNone with
    | none => return s
    | some target => s.fdArrayDup a target d

/-- The next place of a task after an operation on the heap. -/
def onHeap (s : State τ α n) (t : τ) (pc : Pc α n) (heap : Except Fault (Heap α)) :
    Except Fault (State τ α n) := do
  let heap ← heap
  return { s with heap := heap }.setPc t pc

def filesCloseall (s : State τ α n) (t : τ) (a : α) : Except Fault (State τ α n) := do
  let _ ← s.currentFiles a
  let (s, ds) ← s.detach a ((List.finRange n).filter fun fd => 2 ≤ fd.val)
  return s.setPc t (afterPut ds)

def addTask (s : State τ α n) (child : τ) (a : α) : Except Fault (State τ α n) := do
  let files ← deref (s.tables a)
  return { s.setTable a (some { files with filesCount := files.filesCount + 1 }) with
    tasks := update s.tasks child ⟨some a, .idle⟩ }

/-- `copy_fs` with a table of its own for the child. -/
def copyFs (s : State τ α n) (child : τ) (a dst : α) : Except Fault (State τ α n) := do
  let _ ← s.currentFiles a
  let s := s.setTable dst (some ⟨0, fun _ => .fdNone⟩)
  let s ← s.dupFs dst a (List.finRange n)
  s.addTask child dst

def putFs (s : State τ α n) (t : τ) (a : α) : Except Fault (State τ α n) := do
  let files ← deref (s.tables a)
  let s := { s.setTable a (some { files with filesCount := files.filesCount - 1 }) with
    tasks := update s.tasks t {} }
  if files.filesCount - 1 = 0 then
    let (s, ds) ← s.detach a (List.finRange n)
    check (∀ fd, s.slot a fd = .fdNone)
    return (s.setTable a none).setPc t (afterPut ds)
  else return s

/-- `pipe_put` of a pipe that may not be there. -/
def pipePutSome (h : Heap α) : Option α → Except Fault (Heap α)
  | some p => h.pipePut p
  | none => .ok h

def pipeCreate (h : Heap α) : Option α → Heap α
  | some p => h.setPipe p (some ⟨1, 0, 0⟩)
  | none => h

/-- The end of a description in `file_socketpair_create` that has failed. -/
def pairUndo (h : Heap α) (d : Option α) (e : α) : Except Fault (Heap α) :=
  match d with
  | some d => do
    let h ← h.openFileDropDescriptor d
    h.openFilePut d
  | none => h.socketpairEndpointPut e

def fresh {β : Type} (objects : α → Option β) : Option α → Bool
  | some x => (objects x).isNone
  | none => true

def step (s : State τ α n) : FilesOp τ α → Option (Except Fault (State τ α n))
  | .fileOpen t r w =>
    match s.tasks t with
    | ⟨some a, .idle⟩ => some (s.reserve t a fun fd => .opening fd .inode r w)
    | _ => none
  | .socketCreate t =>
    match s.tasks t with
    | ⟨some a, .idle⟩ => some (s.reserve t a fun fd => .opening fd .socket true true)
    | _ => none
  | .objectFails t =>
    match (s.tasks t).pc with
    | .opening fd _ _ _ => some (.ok (s.setPc t (.cancelling false [fd])))
    | _ => none
  | .describe t d =>
    match (s.tasks t).pc with
    | .opening fd kind r w =>
      if s.heap.files d = none then
        some (s.onHeap t (.installing [(fd, d)]) (.ok (s.heap.openFileCreate d kind r w)))
      else none
    | _ => none
  | .install t =>
    match s.tasks t with
    | ⟨some a, .installing slots⟩ => some (do
        let s ← s.installSlots a slots
        return s.setPc t .idle)
    | _ => none
  | .cancel t =>
    match s.tasks t with
    | ⟨some a, .cancelling guarded fds⟩ => some (do
        let s ← s.cancelSlots a guarded fds
        return s.setPc t .idle)
    | _ => none
  | .close t fd =>
    match s.tasks t with
    | ⟨some a, .idle⟩ => some (s.fileClose t a fd)
    | _ => none
  | .put t =>
    match (s.tasks t).pc with
    | .putting (d :: ds) => some (s.onHeap t (afterPut ds) (s.heap.openFilePut d))
    | _ => none
  | .acquire t fd =>
    match s.tasks t with
    | ⟨some a, .idle⟩ => some (s.fdAcquire t a fd)
    | _ => none
  | .use t =>
    match (s.tasks t).pc with
    | .busy d => some (do
        s.heap.openFileUse d
        return s)
    | _ => none
  | .release t =>
    match (s.tasks t).pc with
    | .busy d => some (s.onHeap t .idle (s.heap.openFilePut d))
    | _ => none
  | .dup t fd1 fd2 =>
    match s.tasks t with
    | ⟨some a, .idle⟩ => some (s.fileDup t a fd1 fd2)
    | _ => none
  | .dupfd t fd argument =>
    match s.tasks t with
    | ⟨some a, .idle⟩ => some (s.fileDupfd a fd argument)
    | _ => none
  | .pipe t =>
    match s.tasks t with
    | ⟨some a, .idle⟩ => some (s.reserveTwo t a .piping)
    | _ => none
  | .pipeCreate t p =>
    match (s.tasks t).pc with
    | .piping r w =>
      if fresh s.heap.pipes p then
        match p with
        | some p => some (s.onHeap t (.pipeMade r w p) (.ok (pipeCreate s.heap p)))
        | none => some (.ok (s.setPc t (.cancelling true [r, w])))
      else none
    | _ => none
  | .pipeReader t d =>
    match (s.tasks t).pc, d with
    | .pipeMade r w p, none => some (s.onHeap t (.cancelling true [r, w]) (s.heap.pipePut p))
    | .pipeMade r w p, some d =>
      if s.heap.files d = none then
        some (s.onHeap t (.pipeRead r w p d)
          ((s.heap.openFileCreate d (.pipe p) true false).pipeGet p))
      else none
    | _, _ => none
  | .pipeWriter t d =>
    match (s.tasks t).pc, d with
    | .pipeRead r w p rd, none => some (s.onHeap t (.cancelling true [r, w]) (do
        let h ← s.heap.openFileDropDescriptor rd
        let h ← h.openFilePut rd
        h.pipePut p))
    | .pipeRead r w p rd, some d =>
      if s.heap.files d = none then
        some (s.onHeap t (.pipeBoth r w p rd d)
          ((s.heap.openFileCreate d (.pipe p) false true).pipeGet p))
      else none
    | _, _ => none
  | .pipeOpen t =>
    match (s.tasks t).pc with
    | .pipeBoth r w p rd wd => some (s.onHeap t (.installing [(r, rd), (w, wd)]) (do
        let h ← s.heap.pipeEndpointOpen p true false
        let h ← h.pipeEndpointOpen p false true
        h.pipePut p))
    | _ => none
  | .socketpair t =>
    match s.tasks t with
    | ⟨some a, .idle⟩ => some (s.reserveTwo t a .pairing)
    | _ => none
  | .pairAlloc t ab ba a b =>
    match (s.tasks t).pc with
    | .pairing fa fb =>
      if fresh s.heap.pipes ab ∧ fresh (pipeCreate s.heap ab).pipes ba ∧ fresh s.heap.ends a ∧
          fresh s.heap.ends b ∧ (a = none ∨ a ≠ b) then
        let h := pipeCreate (pipeCreate s.heap ab) ba
        match ab, ba, a, b with
        | some ab, some ba, some a, some b =>
          some (s.onHeap t (.pairMade fa fb ab ba a b) (do
            let h := (h.setEnd a (some ⟨ba, ab⟩)).setEnd b (some ⟨ab, ba⟩)
            let h ← h.pipeGet ab
            h.pipeGet ba))
        | ab, ba, _, _ => some (s.onHeap t (.cancelling true [fa, fb]) (do
            let h ← pipePutSome h ab
            pipePutSome h ba))
      else none
    | _ => none
  | .pairDescribe t da db =>
    match (s.tasks t).pc with
    | .pairMade fa fb ab ba a b =>
      if fresh s.heap.files da ∧ fresh s.heap.files db ∧ (da = none ∨ da ≠ db) then
        let create (h : Heap α) (d : Option α) (e : α) : Heap α :=
          match d with
          | some d => h.openFileCreate d (.socketpair e) true true
          | none => h
        let h := create (create s.heap da a) db b
        match da, db with
        | some da, some db =>
          some (s.onHeap t (.pairBoth fa fb ab ba a b da db) (.ok h))
        | da, db => some (s.onHeap t (.cancelling true [fa, fb]) (do
            let h ← pairUndo h da a
            let h ← pairUndo h db b
            let h ← h.pipePut ab
            h.pipePut ba))
      else none
    | _ => none
  | .pairOpen t =>
    match (s.tasks t).pc with
    | .pairBoth fa fb ab ba a b da db =>
      some (s.onHeap t (.installing [(fa, da), (fb, db)]) (do
        let h ← s.heap.socketpairEndpointOpen a
        let h ← h.socketpairEndpointOpen b
        let h ← h.pipePut ab
        h.pipePut ba))
    | _ => none
  | .fork t child dst =>
    match s.tasks t, s.tasks child, s.tables dst with
    | ⟨some a, .idle⟩, ⟨none, .idle⟩, none => some (s.copyFs child a dst)
    | _, _, _ => none
  | .clone t child =>
    match s.tasks t, s.tasks child with
    | ⟨some a, .idle⟩, ⟨none, .idle⟩ => some (s.addTask child a)
    | _, _ => none
  | .closeAll t =>
    match s.tasks t with
    | ⟨some a, .idle⟩ => some (s.filesCloseall t a)
    | _ => none
  | .exit t =>
    match s.tasks t with
    | ⟨some a, .idle⟩ => some (s.putFs t a)
    | _ => none

def boot (t : τ) (a : α) : State τ α n where
  heap := ⟨fun _ => none, fun _ => none, fun _ => none⟩
  tables := update (fun _ => none) a (some ⟨1, fun _ => .fdNone⟩)
  tasks := update (fun _ => {}) t ⟨some a, .idle⟩

end State

/-- The kernel runs, or has stopped at a fault. -/
inductive Kernel (τ α : Type) (n : Nat) where
  | running (s : State τ α n)
  | halted (fault : Fault)

namespace Kernel

def ofResult : Except Fault (State τ α n) → Kernel τ α n
  | .ok s => .running s
  | .error fault => .halted fault

def step : Kernel τ α n → FilesOp τ α → Option (Kernel τ α n)
  | .running s, op => (s.step op).map ofResult
  | .halted _, _ => none

end Kernel

end Procore.Fs.Files
