import Procore.Lib.Bytes
import Procore.Lib.Prog
import Procore.Mm.Vma

/-! # Loading a program

`load_icode` reads the headers and segments of an executable into fresh pages and puts
the arguments on the stack. The file is reached through a reader. Cells of memory hold
values of any type into which bytes are injected, so that what the loader has written can
be told from what was there before.
-/

namespace Procore.Process

open Procore.Lib Procore.Mm Prog

/-- `load_icode_read`: the bytes asked for, or an error. -/
structure Reader (σ ε η : Type) where
  read : (len : Nat) → (offset : Int) → Prog σ ε η (List UInt8)
  full : ∀ {len offset s bytes t}, read len offset s = .done bytes t → bytes.length = len

inductive LoadError (ε : Type) where
  | noMem
  | inval
  | invalElf
  | read (e : ε)

inductive LoadHalt (η : Type) where
  | assertion
  /-- The panic of a page fault in the kernel. -/
  | pageFault
  | read (reason : η)

abbrev Perm := BitVec 32

def pteP : Perm := 1
def pteW : Perm := 2
def pteU : Perm := 4
def pteUser : Perm := pteU ||| pteW ||| pteP

/-- The address space that is being built, with the memory and the files it is built from. Pages
    are named by their numbers, and cells by their addresses. -/
structure Loader (σ β : Type) where
  files : σ
  /-- The number of free pages. -/
  free : Nat
  /-- Whether the next calls of `kmalloc` succeed. -/
  mem : List Bool
  vmas : Vmas
  /-- The page tables. -/
  tables : Nat → Bool
  /-- The pages that are present. -/
  mapped : Nat → Bool
  /-- The permission bits in the entries of these pages. -/
  perm : Nat → Perm
  cells : Nat → β

/-- The registers that a new program starts with; the others are constants. -/
structure Trapframe where
  tfEip : Nat
  tfEsp : Nat
  deriving DecidableEq

abbrev LoadM (σ β ε η α : Type) := Prog (Loader σ β) (LoadError ε) (LoadHalt η) α

/-- The fields of `struct elfhdr` that are used. -/
structure ElfHdr where
  magic : Nat
  entry : Nat
  phoff : Nat
  phnum : Nat

def ElfHdr.decode (bytes : List UInt8) : ElfHdr :=
  ⟨field bytes 0 4, field bytes 24 4, field bytes 28 4, field bytes 44 2⟩

/-- The fields of `struct proghdr` that are used. -/
structure ProgHdr where
  type : Nat
  offset : Nat
  va : Nat
  filesz : Nat
  memsz : Nat
  flags : Nat
  deriving DecidableEq, Repr

def ProgHdr.decode (bytes : List UInt8) : ProgHdr :=
  ⟨field bytes 0 4, field bytes 4 4, field bytes 8 4, field bytes 16 4, field bytes 20 4,
    field bytes 24 4⟩

def elfMagic : Nat := 0x464c457f

/-- `sizeof(struct elfhdr)` and `sizeof(struct proghdr)`. -/
def elfhdrSize : Nat := 52
def proghdrSize : Nat := 32

def ptLoad : Nat := 1

def toOff (n : Nat) : Int := (n : Int).bmod (2 ^ 32)

def ustackTop : Nat := userTop
def ustackSize : Nat := 256 * pgsize

/-- `EXEC_MAX_ARG_NUM` and `EXEC_MAX_ARG_LEN`. -/
def execMaxArgNum : Nat := 32
def execMaxArgLen : Nat := 4095

/-- An argument as `copy_kargv` has copied it. -/
abbrev KArg := { arg : CStr // arg.length ≤ execMaxArgLen }

def ProgHdr.vmFlags (ph : ProgHdr) : VmFlags :=
  (if ph.flags.testBit 0 then vmExec else 0) ||| (if ph.flags.testBit 1 then vmWrite else 0) |||
    (if ph.flags.testBit 2 then vmRead else 0)

def ProgHdr.perm (ph : ProgHdr) : Perm :=
  pteU ||| (if ph.vmFlags &&& vmWrite ≠ 0 then pteW else 0)

section Code

variable {σ β ε η : Type} (rd : Reader σ ε η) (inj : UInt8 → β) (prior : Nat → β)

def loadIcodeRead (len : Nat) (offset : Int) : LoadM σ β ε η (List UInt8) := fun s =>
  match rd.read len offset s.files with
  | .done bytes files => .done bytes { s with files := files }
  | .failed e files => .failed (.read e) { s with files := files }
  | .halted reason => .halted (.read reason)

/-- `alloc_page`. What it can reclaim, once `current->mm` is set, counts as free. -/
def allocPage : LoadM σ β ε η Unit := do
  let s ← get
  if s.free = 0 then fail .noMem
  else modify fun s => { s with free := s.free - 1 }

def freePage : LoadM σ β ε η Unit := modify fun s => { s with free := s.free + 1 }

/-- `page_insert` behind `get_pte`. A page that was there is freed. -/
def mapPage (perm : Perm) (vpn : Nat) : LoadM σ β ε η Unit :=
  modify fun s => { s with
    free := if s.mapped vpn then s.free + 1 else s.free
    mapped := Function.update s.mapped vpn true
    perm := Function.update s.perm vpn (pteP ||| perm)
    cells := fun a => if a / pgsize = vpn then prior a else s.cells a }

/-- `pgdir_alloc_page`. The new page has its previous contents. -/
def pgdirAllocPage (perm : Perm) (la : Nat) : LoadM σ β ε η Unit := do
  allocPage
  let s ← get
  if s.tables (la / (pgsize * 1024)) then mapPage prior perm (la / pgsize)
  else if s.free = 0 then do
    freePage
    fail .noMem
  else do
    modify fun s => { s with
      free := s.free - 1
      tables := Function.update s.tables (la / (pgsize * 1024)) true }
    mapPage prior perm (la / pgsize)

/-- Put bytes at an address through the kernel's mapping. -/
def write (addr : Nat) (bytes : List UInt8) : LoadM σ β ε η Unit :=
  modify fun s => { s with
    cells := fun a => match bytes[a - addr]? with
      | some b => if addr ≤ a then inj b else s.cells a
      | none => s.cells a }

def kmalloc : LoadM σ β ε η Bool := do
  let s ← get
  modify fun s => { s with mem := s.mem.tail }
  pure (s.mem.headD true)

def mmMap (addr len : Nat) (flags : VmFlags) : LoadM σ β ε η Unit := do
  let ok ← kmalloc
  let s ← get
  match s.vmas.mmMap addr len flags ok with
  | none => halt .assertion
  | some (.ok, _, vmas) => modify fun s => { s with vmas := vmas }
  | some (.noMem, _, _) => fail .noMem
  | some (_, _, _) => fail .inval

/-- The size of the part of a page from `start` on that lies before `stop`. -/
def pieceSize (start la stop : Nat) : Nat :=
  pgsize - (start - la) - (if stop < la + pgsize then la + pgsize - stop else 0)

/-- The loop over the part of a segment that is in the file. It returns `start` and `la`. -/
def copyLoop (perm : Perm) (stop : Nat) : Nat → Nat → Nat → Nat → LoadM σ β ε η (Nat × Nat)
  | 0, start, la, _ => pure (start, la)
  | rounds + 1, start, la, offset =>
    if start < stop then do
      pgdirAllocPage prior perm la
      let size := pieceSize start la stop
      let bytes ← loadIcodeRead rd size (toOff offset)
      write inj start bytes
      copyLoop perm stop rounds (start + size) (la + pgsize) (offset + size)
    else pure (start, la)

/-- The loop over the rest of a segment. -/
def bssLoop (perm : Perm) (stop : Nat) : Nat → Nat → Nat → LoadM σ β ε η Unit
  | 0, _, _ => pure ()
  | rounds + 1, start, la =>
    if start < stop then do
      pgdirAllocPage prior perm la
      let size := pieceSize start la stop
      write inj start (List.replicate size 0)
      bssLoop perm stop rounds (start + size) (la + pgsize)
    else pure ()

def rounds (start stop : Nat) : Nat := (stop + (pgsize - 1)) / pgsize - start / pgsize

/-- What follows the part in the file: the rest of its last page, and whole pages. -/
def clearRest (perm : Perm) (start la stop : Nat) : LoadM σ β ε η Unit :=
  if start < la then
    if start = stop then pure ()
    else do
      let size := pieceSize start (la - pgsize) stop
      write inj start (List.replicate size 0)
      let start := start + size
      assert (stop < la ∧ start = stop ∨ la ≤ stop ∧ start = la) .assertion
      bssLoop inj prior perm stop (rounds start stop) start la
  else bssLoop inj prior perm stop (rounds start stop) start la

/-- A segment. The result is its end, unless the segment is not loaded at all. -/
def loadSegment (ph : ProgHdr) : LoadM σ β ε η Unit := do
  let stop := ph.va + ph.filesz
  mmMap ph.va ph.memsz ph.vmFlags
  let (start, la) ← copyLoop rd inj prior ph.perm stop (rounds ph.va stop) ph.va (roundDown ph.va)
    ph.offset
  clearRest inj prior ph.perm start la (ph.va + ph.memsz)

/-- The headers from number `i` on. `imageBrk` is the end of the segments so far. -/
def loadHeaders (phoff : Nat) : Nat → Nat → Nat → LoadM σ β ε η Nat
  | 0, _, imageBrk => pure imageBrk
  | count + 1, i, imageBrk => do
    let bytes ← loadIcodeRead rd proghdrSize (toOff (phoff + proghdrSize * i))
    let ph := ProgHdr.decode bytes
    if ph.type ≠ ptLoad then loadHeaders phoff count (i + 1) imageBrk
    else if ph.memsz < ph.filesz then fail .invalElf
    else if word ≤ ph.va + ph.memsz ∨ userTop < ph.va + ph.memsz then fail .invalElf
    else do
      let imageBrk := max imageBrk (ph.va + ph.memsz)
      if ph.filesz = 0 then loadHeaders phoff count (i + 1) imageBrk
      else do
        loadSegment rd inj prior ph
        loadHeaders phoff count (i + 1) imageBrk

/-- A page of the stack, which has to be there. -/
def stackPage (k : Nat) : LoadM σ β ε η Unit := do
  match ← attempt (pgdirAllocPage prior pteUser (ustackTop - k * pgsize)) with
  | .ok () => pure ()
  | .error _ => halt .assertion

/-- A page fault of the kernel on the stack: a page of zeros, writable as the area is. -/
def stackFault (vpn : Nat) : LoadM σ β ε η Unit := do
  let s ← get
  if s.mapped vpn then pure ()
  else if ustackTop - ustackSize + pgsize ≤ vpn * pgsize ∧ vpn * pgsize < ustackTop then do
    match ← attempt (pgdirAllocPage prior (pteU ||| pteW) (vpn * pgsize)) with
    | .ok () => write inj (vpn * pgsize) (List.replicate pgsize 0)
    | .error _ => halt .pageFault
  else halt .pageFault

/-- Stores of the kernel to the stack of the user. -/
def store : Nat → List UInt8 → LoadM σ β ε η Unit
  | _, [] => pure ()
  | addr, b :: bytes => do
    stackFault inj prior (addr / pgsize)
    write inj addr [b]
    store (addr + 1) bytes

/-- `argv_size`: the strings with their terminators. -/
def argvSize (args : List KArg) : Nat := (args.map fun arg => arg.val.length + 1).sum

def stackTop (args : List KArg) : Nat := ustackTop - (argvSize args / 4 + 1) * 4

def uargv (args : List KArg) : Nat := stackTop args - args.length * 4

/-- The loop over the arguments: each string, and the pointer to it. -/
def storeArgs (top argv : Nat) : List KArg → Nat → Nat → LoadM σ β ε η Unit
  | [], _, _ => pure ()
  | arg :: args, i, size => do
    store inj prior (top + size) (arg.val.bytes ++ [0])
    store inj prior (argv + 4 * i) (le 4 (top + size))
    storeArgs top argv args (i + 1) (size + arg.val.length + 1)

/-- The stack. The result is the last value of `stacktop`. -/
def setupStack (args : List KArg) : LoadM σ β ε η Nat := do
  mmMap (ustackTop - ustackSize) ustackSize (vmRead ||| vmWrite ||| vmStack)
  stackPage prior 1
  stackPage prior 2
  stackPage prior 3
  stackPage prior 4
  storeArgs inj prior (stackTop args) (uargv args) args 0 0
  let stacktop := uargv args - 4
  store inj prior stacktop (le 4 args.length)
  pure stacktop

/-- `load_icode` from `mm_create` on. The result is the trap frame. -/
def loadIcode (args : List KArg) : LoadM σ β ε η Trapframe := do
  assert (args.length ≤ execMaxArgNum) .assertion
  let ok ← kmalloc
  if ok then do
    allocPage
    let elf ← loadIcodeRead rd elfhdrSize 0
    let elf := ElfHdr.decode elf
    if elf.magic ≠ elfMagic then fail .invalElf
    else do
      let imageBrk ← loadHeaders rd inj prior elf.phoff elf.phnum 0 userBase
      modify fun s => { s with vmas := { s.vmas with
        startBrk := roundUp imageBrk
        brk := roundUp imageBrk } }
      let stacktop ← setupStack inj prior args
      pure ⟨elf.entry, stacktop⟩
  else fail .noMem

end Code

/-- Before `load_icode`: no address space yet. -/
def Loader.start {σ β : Type} (files : σ) (free : Nat) (mem : List Bool) (cells : Nat → β) :
    Loader σ β where
  files := files
  free := free
  mem := mem
  vmas := .create userBase
  tables _ := false
  mapped _ := false
  perm _ := 0
  cells := cells

end Procore.Process
