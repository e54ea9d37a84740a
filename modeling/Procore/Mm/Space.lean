import Procore.Mm.Vma

/-! # Address spaces, page frames and swap slots

The state holds all address spaces with their page tables, the page frames with
their reference counts, the list of free frames, the replacement list and the
swap slots. Pages of an address space are named by their numbers: the address
divided by the page size. An operation that follows a pointer to a freed address
space, or whose assertion fails, has no result.
-/

namespace Procore.Mm

open Procore.Lib
open Function

/-- A page-table entry. The four kinds differ in the bits `PTE_P` and `PTE_MPROTECT`, which a
    swap entry, a slot number shifted by eight, does not have. -/
inductive Pte where
  | none
  /-- `PTE_P`, with `PTE_W` and `PTE_COW`. -/
  | present (page : Nat) (write cow : Bool)
  /-- `PTE_MPROTECT`: the page is kept but not accessible. -/
  | hidden (page : Nat) (write cow : Bool)
  | swap (slot : Nat)
  deriving DecidableEq, Repr

structure MmStruct where
  vmas : Vmas
  /-- The frame of the page directory. -/
  pgdir : Nat
  /-- The frames of the page tables. -/
  pde : Nat → Option Nat
  pte : Nat → Pte

/-- What the memory manager keeps in a `struct Page`. -/
structure Frame where
  ref : Int := 0
  praMm : Option Nat := none
  /-- The page `pra_vaddr` lies in. -/
  praVaddr : Nat := 0
  deriving DecidableEq, Repr

structure Vm where
  mm : Nat → Option MmStruct
  /-- The address of the next `mm_struct`. -/
  next : Nat
  /-- The free frames, in ascending order. -/
  free : List Nat
  frame : Nat → Frame
  data : Nat → Nat → UInt8
  /-- `pra_list_head`: the newest page first. -/
  fifo : List Nat
  /-- `max_swap_offset`. -/
  slotCount : Nat
  slotRefs : Nat → Nat
  slotData : Nat → Nat → UInt8
  /-- Whether the next requests to the swap disk succeed. -/
  disk : List Bool
  /-- Whether the next calls of `kmalloc` succeed. -/
  mem : List Bool

/-- `NPTEENTRY`. -/
def tableSize : Nat := 1024

def swapRetryLimit : Nat := 8

def swapVictimScanLimit : Nat := 64

/-- The numbers of the pages from `start` to `stop`. -/
def pagesOf (start stop : Nat) : List Nat := List.range' (start / pgsize) (stop / pgsize - start / pgsize)

/-- The numbers of the page tables that serve the addresses from `start` to `stop`. -/
def tablesOf (start stop : Nat) : List Nat :=
  List.range' (start / (pgsize * tableSize))
    ((stop + (pgsize * tableSize - 1)) / (pgsize * tableSize) - start / (pgsize * tableSize))

namespace Vm

def entry (s : Vm) (i vpn : Nat) : Pte :=
  match s.mm i with
  | none => .none
  | some m => m.pte vpn

def setMm (s : Vm) (i : Nat) (change : MmStruct → MmStruct) : Vm :=
  { s with mm := update s.mm i ((s.mm i).map change) }

def setEntry (s : Vm) (i vpn : Nat) (e : Pte) : Vm :=
  s.setMm i fun m => { m with pte := update m.pte vpn e }

def setVmas (s : Vm) (i : Nat) (vmas : Vmas) : Vm := s.setMm i fun m => { m with vmas := vmas }

def setFrame (s : Vm) (p : Nat) (change : Frame → Frame) : Vm :=
  { s with frame := update s.frame p (change (s.frame p)) }

/-- `page_ref_inc` and `page_ref_dec`. -/
def addRef (s : Vm) (p : Nat) (d : Int) : Vm := s.setFrame p fun f => { f with ref := f.ref + d }

def setData (s : Vm) (p : Nat) (bytes : Nat → UInt8) : Vm :=
  { s with data := update s.data p bytes }

def mapSwappable (s : Vm) (i vpn p : Nat) : Vm :=
  if p ∈ s.fifo then s
  else { s.setFrame p (fun f => { f with
      praMm := some i
      praVaddr := vpn }) with fifo := p :: s.fifo }

def setVaddr (s : Vm) (p vpn : Nat) : Vm := s.setFrame p fun f => { f with praVaddr := vpn }

def untrackPage (s : Vm) (p : Nat) : Vm :=
  { s.setFrame p (fun f => { f with
      praMm := none
      praVaddr := 0 }) with fifo := s.fifo.erase p }

/-- Put a frame back in order. -/
def giveFrame (p : Nat) (free : List Nat) : List Nat :=
  free.takeWhile (· ≤ p) ++ p :: free.dropWhile (· ≤ p)

def freePage (s : Vm) (p : Nat) : Vm :=
  { (s.untrackPage p).setFrame p (fun f => { f with ref := 0 }) with free := giveFrame p s.free }

/-- Give up one reference, and the page with the last one. -/
def putPage (s : Vm) (p : Nat) : Vm :=
  let s := s.addRef p (-1)
  if (s.frame p).ref = 0 then s.freePage p else s

def SlotValid (s : Vm) (slot : Nat) : Prop := slot ≠ 0 ∧ slot < s.slotCount

instance (s : Vm) (slot : Nat) : Decidable (s.SlotValid slot) := inferInstanceAs (Decidable (_ ∧ _))

def setSlotRefs (s : Vm) (slot refs : Nat) : Vm :=
  { s with slotRefs := update s.slotRefs slot refs }

/-- The first slot without references. -/
def swapAllocEntry (s : Vm) : Option Nat :=
  (List.range' 1 (s.slotCount - 1)).find? fun slot => s.slotRefs slot = 0

/-- `none` if the entry is not valid or has no more references to give. -/
def swapDuplicateEntry (s : Vm) (slot : Nat) : Option Vm :=
  if s.SlotValid slot ∧ s.slotRefs slot ≠ 0 ∧ s.slotRefs slot ≠ 0xffff then
    some (s.setSlotRefs slot (s.slotRefs slot + 1))
  else none

def swapReleaseEntry (s : Vm) (slot : Nat) : Vm :=
  if s.SlotValid slot ∧ s.slotRefs slot ≠ 0 then s.setSlotRefs slot (s.slotRefs slot - 1) else s

/-- The outcome of the next request to the swap disk. -/
def askDisk (s : Vm) : Bool × Vm := (s.disk.headD true, { s with disk := s.disk.tail })

/-- The outcome of the next `kmalloc`, which takes none of the frames here. -/
def askMem (s : Vm) : Bool × Vm := (s.mem.headD true, { s with mem := s.mem.tail })

/-- How a victim fares in the loop of `swap_out`. -/
inductive Victim where
  /-- The loop ends. -/
  | stop
  /-- The page is left in memory. -/
  | skip
  | swapped
  deriving DecidableEq, Repr

/-- Write a page to a slot and let its entry name the slot. -/
def evict (s : Vm) (owner vpn p slot : Nat) : Victim × Vm :=
  let s := s.setSlotRefs slot 1
  let (done, s) := s.askDisk
  if done then
    let s := { s with slotData := update s.slotData slot (s.data p) }
    (.swapped, (s.setEntry owner vpn (.swap slot)).putPage p)
  else (.skip, (s.swapReleaseEntry slot).mapSwappable owner vpn p)

/-- One pass through the loop of `swap_out`. -/
def swapVictim (s : Vm) : Option (Victim × Vm) :=
  match s.fifo.getLast? with
  | none => some (.stop, s)
  | some p =>
    let s := { s with fifo := s.fifo.dropLast }
    match (s.frame p).praMm with
    | none => some (.skip, s)
    | some owner =>
      if (s.frame p).ref ≠ 1 then some (.skip, s)
      else
        let v := (s.frame p).praVaddr
        match s.mm owner with
        | none => none
        | some m =>
          match m.pte v with
          | .present q _ _ =>
            if q = p then
              match s.swapAllocEntry with
              | none => some (.stop, s.mapSwappable owner v p)
              | some slot => some (s.evict owner v p slot)
            else some (.skip, s.mapSwappable owner v p)
          | _ => some (.skip, s.mapSwappable owner v p)

/-- The loop of `swap_out`, with the passes and the pages that are left. It returns the number
    of pages it has swapped out. -/
def swapOutLoop (s : Vm) : Nat → Nat → Option (Nat × Vm)
  | 0, _ => some (0, s)
  | _, 0 => some (0, s)
  | scans + 1, n + 1 =>
    match s.swapVictim with
    | none => none
    | some (.stop, s) => some (0, s)
    | some (.skip, s) => swapOutLoop s scans (n + 1)
    | some (.swapped, s) => (swapOutLoop s scans n).map fun r => (r.1 + 1, r.2)

def swapOut (s : Vm) (n : Nat) : Option (Nat × Vm) := s.swapOutLoop swapVictimScanLimit n

/-- `alloc_pages(1)`. A process with an address space reclaims when there is no free page. -/
def allocLoop (reclaim : Bool) : Nat → Vm → Option (Option Nat × Vm)
  | attempts, s =>
    match s.free with
    | p :: rest => some (some p, { s with free := rest })
    | [] =>
      if reclaim then
        match attempts with
        | 0 => some (none, s)
        | attempts + 1 =>
          match s.swapOut 1 with
          | none => none
          | some (0, s) => some (none, s)
          | some (_ + 1, s) => allocLoop reclaim attempts s
      else some (none, s)

def allocPage (s : Vm) (reclaim : Bool) : Option (Option Nat × Vm) := allocLoop reclaim swapRetryLimit s

/-- An empty page table or none. Where there is no table there are no entries. -/
def setTable (s : Vm) (i k : Nat) (table : Option Nat) : Vm :=
  s.setMm i fun m =>
    { m with
      pde := update m.pde k table
      pte := fun vpn => if vpn / tableSize = k then .none else m.pte vpn }

/-- Whether there is a page table for the page. -/
def hasTable (s : Vm) (i vpn : Nat) : Bool := (s.mm i).any fun m => (m.pde (vpn / tableSize)).isSome

/-- `get_pte` with `create`. It is false if there is no memory for a page table. -/
def getPte (s : Vm) (i vpn : Nat) : Option (Bool × Vm) :=
  if s.hasTable i vpn then some (true, s)
  else
    match s.allocPage true with
    | none => none
    | some (none, s) => some (false, s)
    | some (some p, s) =>
      some (true, (s.setFrame p fun f => { f with ref := 1 }).setTable i (vpn / tableSize) (some p))

/-- It is false if there is no memory for a page table. -/
def pageInsert (s : Vm) (i p vpn : Nat) (write : Bool) : Option (Bool × Vm) :=
  match s.getPte i vpn with
  | none => none
  | some (false, s) => some (false, s)
  | some (true, s) =>
    let s := s.addRef p 1
    let s := match s.entry i vpn with
      | .present q _ _ => if q = p then s.addRef p (-1) else s.putPage q
      | _ => s
    some (true, s.setEntry i vpn (.present p write false))

/-- `pgdir_alloc_page` for a page of the current process, and the `memset` behind it. -/
def pgdirAllocPage (s : Vm) (i vpn : Nat) (write : Bool) : Option (Bool × Vm) :=
  match s.allocPage true with
  | none => none
  | some (none, s) => some (false, s)
  | some (some p, s) =>
    match s.pageInsert i p vpn write with
    | none => none
    | some (false, s) => some (false, s.freePage p)
    | some (true, s) =>
      let s := (s.mapSwappable i vpn p).setVaddr p vpn
      if (s.frame p).ref = 1 then some (true, s.setData p fun _ => 0) else none

def swapIn (s : Vm) (i vpn : Nat) : Option (Except Code Nat × Vm) :=
  match s.allocPage true with
  | none => none
  | some (none, s) => some (.error .noMem, s)
  | some (some p, s) =>
    match s.entry i vpn with
    | .swap slot =>
      if s.SlotValid slot then
        let (done, s) := s.askDisk
        if done then some (.ok p, s.setData p (s.slotData slot))
        else some (.error .io, s.freePage p)
      else some (.error .inval, s.freePage p)
    | _ => some (.error .inval, s.freePage p)

/-- A write fault on a page that is shared since a fork. -/
def copyOnWrite (s : Vm) (i vpn old : Nat) (write : Bool) : Option (Code × Vm) :=
  if (s.frame old).ref = 1 then
    some (.ok, ((s.setEntry i vpn (.present old true false)).mapSwappable i vpn old).setVaddr old vpn)
  else
    match s.allocPage true with
    | none => none
    | some (none, s) => some (.noMem, s)
    | some (some p, s) =>
      match (s.setData p (s.data old)).pageInsert i p vpn write with
      | none => none
      | some (false, s) => some (.noMem, s.freePage p)
      | some (true, s) => some (.ok, (s.mapSwappable i vpn p).setVaddr p vpn)

def swapFault (s : Vm) (i vpn slot : Nat) (write : Bool) : Option (Code × Vm) :=
  match s.swapIn i vpn with
  | none => none
  | some (.error code, s) => some (code, s)
  | some (.ok p, s) =>
    match s.pageInsert i p vpn write with
    | none => none
    | some (false, s) => some (.noMem, s.freePage p)
    | some (true, s) =>
      some (.ok, (((s.swapReleaseEntry slot).mapSwappable i vpn p).setVaddr p vpn))

/-- The part of `do_pgfault` behind the checks. -/
def handleFault (s : Vm) (i vpn : Nat) (write : Bool) : Option (Code × Vm) :=
  match s.getPte i vpn with
  | none => none
  | some (false, s) => some (.noMem, s)
  | some (true, s) =>
    match s.entry i vpn with
    | .none => (s.pgdirAllocPage i vpn write).map fun r => (if r.1 then .ok else .noMem, r.2)
    | .hidden p _ cow => some (.ok, s.setEntry i vpn (.present p (write && !cow) cow))
    | .present p _ cow => if cow then s.copyOnWrite i vpn p write else some (.noMem, s)
    | .swap slot => s.swapFault i vpn slot write

/-- The error code says whether the page was present and whether it was written. -/
def doPgfault (s : Vm) (i addr : Nat) (present write : Bool) : Option (Code × Vm) :=
  match s.mm i with
  | none => none
  | some m =>
    let found := m.vmas.findVma addr
    let s := s.setVmas i found.2
    match found.1 with
    | none => some (.inval, s)
    | some v =>
      let writable : Bool := v.flags &&& vmWrite ≠ 0
      let readable : Bool := v.flags &&& (vmRead ||| vmExec) ≠ 0
      if (if write then writable else !present && readable) then
        s.handleFault i (addr / pgsize) writable
      else some (.inval, s)

def setUnswappable (s : Vm) (i vpn : Nat) : Vm :=
  match s.entry i vpn with
  | .present p _ _ => if p ∈ s.fifo then s.untrackPage p else s
  | _ => s

def unmapPte (s : Vm) (i vpn : Nat) : Vm :=
  match s.entry i vpn with
  | .none => s
  | .present p _ _ => (s.putPage p).setEntry i vpn .none
  | .hidden p _ _ => (s.putPage p).setEntry i vpn .none
  | .swap slot => (s.swapReleaseEntry slot).setEntry i vpn .none

/-- Unmap the pages that a page table serves, and free the table if it is empty then. -/
def unmapTable (s : Vm) (i k : Nat) (pages : List Nat) : Vm :=
  match (s.mm i).bind fun m => m.pde k with
  | none => s
  | some table =>
    let s := (pages.filter fun vpn => vpn / tableSize = k).foldl (fun s vpn => s.unmapPte i vpn) s
    if ∀ vpn ∈ List.range' (k * tableSize) tableSize, s.entry i vpn = .none then
      (s.freePage table).setTable i k none
    else s

def unmapRange (s : Vm) (i start stop : Nat) : Option Vm :=
  if start % pgsize = 0 ∧ stop % pgsize = 0 ∧ UserAccess start stop then
    some ((tablesOf start stop).foldl (fun s k => s.unmapTable i k (pagesOf start stop)) s)
  else none

def mmUnmapPages (s : Vm) (i : Nat) (range : Nat × Nat) : Option Vm :=
  if range.1 < range.2 then
    ((pagesOf range.1 range.2).foldl (fun s vpn => s.setUnswappable i vpn) s).unmapRange i range.1 range.2
  else some s

/-- Free the page tables that serve a range. -/
def exitRange (s : Vm) (i start stop : Nat) : Option Vm :=
  if start % pgsize = 0 ∧ stop % pgsize = 0 ∧ UserAccess start stop then
    some ((tablesOf start stop).foldl (fun s k =>
      match (s.mm i).bind fun m => m.pde k with
      | none => s
      | some table => (s.freePage table).setTable i k none) s)
  else none

/-- `exit_mmap`, `put_pgdir` and `mm_destroy`. -/
def exitMm (s : Vm) (i : Nat) : Option Vm :=
  match s.mm i with
  | none => none
  | some m => do
    let s ← m.vmas.mmapList.foldlM (fun s v => s.mmUnmapPages i (v.start, v.stop)) s
    let s ← m.vmas.mmapList.foldlM (fun s v => s.exitRange i v.start v.stop) s
    let s := s.freePage m.pgdir
    some { s with mm := update s.mm i none }

/-- Let the copy have what an entry of the original says. A writable page becomes copy-on-write
    in both. -/
def shareEntry (s : Vm) (dst src vpn : Nat) : Pte → Code × Vm
  | .none => (.ok, s)
  | .present p write cow =>
    let s := if write then s.setEntry src vpn (.present p false true) else s
    (.ok, (s.addRef p 1).setEntry dst vpn (.present p false (cow || write)))
  | .hidden p write cow =>
    let s := if write then s.setEntry src vpn (.hidden p false true) else s
    (.ok, (s.addRef p 1).setEntry dst vpn (.hidden p false (cow || write)))
  | .swap slot =>
    match s.swapDuplicateEntry slot with
    | none => (.inval, s)
    | some s => (.ok, s.setEntry dst vpn (.swap slot))

/-- The body of the loop of `copy_range`. The entry is read before the page table of the copy
    is there. -/
def copyPte (s : Vm) (dst src vpn : Nat) : Option (Code × Vm) :=
  let source := s.entry src vpn
  if source = .none then some (.ok, s)
  else
    match s.getPte dst vpn with
    | none => none
    | some (false, s) => some (.noMem, s)
    | some (true, s) => some (s.shareEntry dst src vpn source)

def copyLoop (s : Vm) (dst src : Nat) : List Nat → Option (Code × Vm)
  | [] => some (.ok, s)
  | vpn :: vpns =>
    match s.copyPte dst src vpn with
    | none => none
    | some (.ok, s) => copyLoop s dst src vpns
    | some failed => some failed

def copyRange (s : Vm) (dst src start stop : Nat) : Option (Code × Vm) :=
  if start % pgsize = 0 ∧ stop % pgsize = 0 ∧ UserAccess start stop then
    s.copyLoop dst src (pagesOf start stop)
  else none

def dupLoop (s : Vm) (dst src : Nat) (srcBrk : Option Nat) : List Vma → Option (Code × Vm)
  | [] => some (.ok, s)
  | v :: vs =>
    let (done, s) := s.askMem
    if done = false then some (.noMem, s)
    else
      match (s.mm dst).bind fun m => m.vmas.dupVma srcBrk v with
      | none => none
      | some vmas =>
        match (s.setVmas dst vmas).copyRange dst src v.start v.stop with
        | none => none
        | some (.ok, s) => dupLoop s dst src srcBrk vs
        | some (_, s) => some (.noMem, s)

/-- A new address space, as `mm_create` and `setup_pgdir` make it. -/
def createMm (s : Vm) (startBrk : Nat) (reclaim : Bool) : Option (Option Nat × Vm) :=
  let (done, s) := s.askMem
  if done = false then some (none, s)
  else
    match s.allocPage reclaim with
    | none => none
    | some (none, s) => some (none, s)
    | some (some p, s) =>
      some (some s.next, { s with
        mm := update s.mm s.next (some ⟨.create startBrk, p, fun _ => none, fun _ => .none⟩)
        next := s.next + 1 })

/-- `copy_mm` without `CLONE_VM`. -/
def copyMm (s : Vm) (src : Nat) : Option (Code × Vm) :=
  match s.mm src with
  | none => none
  | some m =>
    match s.createMm userBase true with
    | none => none
    | some (none, s) => some (.noMem, s)
    | some (some dst, s) =>
      let s := s.setMm dst fun n => { n with vmas := n.vmas.dupStart m.vmas }
      match s.dupLoop dst src m.vmas.brkVma m.vmas.mmapList.reverse with
      | none => none
      | some (.ok, s) => some (.ok, s)
      | some (code, s) => (s.exitMm dst).map fun s => (code, s)

/-- The loop of `mm_mprotect` over the page table. -/
def protectPte (s : Vm) (i : Nat) (flags : VmFlags) (vpn : Nat) : Vm :=
  let writable : Bool := flags &&& vmWrite ≠ 0
  match s.entry i vpn with
  | .present p write cow =>
    if flags = 0 then s.setEntry i vpn (.hidden p write cow)
    else s.setEntry i vpn (.present p (writable && !cow) cow)
  | .hidden p _ cow =>
    if flags = 0 then s else s.setEntry i vpn (.present p (writable && !cow) cow)
  | _ => s

def mmMap (s : Vm) (i addr len : Nat) (flags : VmFlags) (mem : Bool) : Option Vm :=
  match s.mm i with
  | none => none
  | some m => (m.vmas.mmMap addr len flags mem).map fun r => s.setVmas i r.2.2

/-- `mm_unmap_pages` for several ranges. -/
def unmapAll (s : Vm) (i : Nat) (ranges : List (Nat × Nat)) : Option Vm :=
  ranges.foldlM (fun s range => s.mmUnmapPages i range) s

def mmUnmap (s : Vm) (i addr len : Nat) (mem : Bool) : Option Vm :=
  match s.mm i with
  | none => none
  | some m =>
    let r := m.vmas.mmUnmap addr len mem
    (s.unmapAll i r.2.2).map fun s => s.setVmas i r.2.1

def mmMprotect (s : Vm) (i addr len : Nat) (flags : VmFlags) (memLeft memRight : Bool) : Option Vm :=
  match s.mm i with
  | none => none
  | some m =>
    let r := m.vmas.mmMprotect addr len flags memLeft memRight
    let s := s.setVmas i r.2
    if r.1 = .ok then
      some ((pagesOf addr (roundUp ((addr + len) % word))).foldl (fun s vpn => s.protectPte i flags vpn) s)
    else some s

def mmMadvise (s : Vm) (i addr len : Nat) (advice : Option Vmas.Advice) : Option Vm :=
  match s.mm i with
  | none => none
  | some m => s.unmapAll i (m.vmas.mmMadvise addr len advice).2

def mmBrk (s : Vm) (i newbrk : Nat) (mem : Bool) : Option Vm :=
  match s.mm i with
  | none => none
  | some m =>
    match m.vmas.mmBrk newbrk mem with
    | none => none
    | some r => (s.unmapAll i r.2.2).map fun s => s.setVmas i r.2.1

/-- A store by the processor. It needs a writable mapping; otherwise it faults first. -/
def store (s : Vm) (i addr : Nat) (byte : UInt8) : Option Vm :=
  match s.entry i (addr / pgsize) with
  | .present p true _ =>
    some (s.setData p (update (s.data p) (addr % pgsize) byte))
  | _ => none

end Vm

/-- What processes and the kernel do to memory. Each operation comes with the outcomes of the
    requests to the swap disk and of `kmalloc` that it will make. -/
inductive VmOp where
  /-- A new program with an empty address space. -/
  | create (startBrk : Nat) (mem : List Bool)
  | fault (mm addr : Nat) (present write : Bool) (disk : List Bool)
  | store (mm addr : Nat) (byte : UInt8)
  | mmap (mm addr len : Nat) (flags : VmFlags) (mem : Bool)
  | munmap (mm addr len : Nat) (mem : Bool)
  | mprotect (mm addr len : Nat) (flags : VmFlags) (memLeft memRight : Bool)
  | madvise (mm addr len : Nat) (advice : Option Vmas.Advice)
  | brk (mm newbrk : Nat) (mem : Bool)
  | fork (mm : Nat) (disk mem : List Bool)
  | swapOut (n : Nat) (disk : List Bool)
  | exit (mm : Nat)
  deriving DecidableEq, Repr

def Vm.step (s : Vm) : VmOp → Option Vm
  | .create startBrk mem => ({ s with mem := mem }.createMm startBrk false).map Prod.snd
  | .fault i addr present write disk =>
    ({ s with disk := disk }.doPgfault i addr present write).map Prod.snd
  | .store i addr byte => s.store i addr byte
  | .mmap i addr len flags mem => s.mmMap i addr len flags mem
  | .munmap i addr len mem => s.mmUnmap i addr len mem
  | .mprotect i addr len flags memLeft memRight => s.mmMprotect i addr len flags memLeft memRight
  | .madvise i addr len advice => s.mmMadvise i addr len advice
  | .brk i newbrk mem => s.mmBrk i newbrk mem
  | .fork i disk mem => ({ s with disk := disk, mem := mem }.copyMm i).map Prod.snd
  | .swapOut n disk => ({ s with disk := disk }.swapOut n).map Prod.snd
  | .exit i => s.exitMm i

/-- No address spaces, all frames free and all slots unused. -/
def Vm.boot (frames : List Nat) (slotCount : Nat) : Vm where
  mm _ := none
  next := 0
  free := frames
  frame _ := {}
  data _ _ := 0
  fifo := []
  slotCount := slotCount
  slotRefs _ := 0
  slotData _ _ := 0
  disk := []
  mem := []

end Procore.Mm
