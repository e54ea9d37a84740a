import Mathlib.Data.BitVec
import Procore.Lib.Run

/-! # The list of virtual memory areas

`mmap_list` holds the areas of an address space in ascending order. `mmap_cache`
and `brk_vma` point into it. The calls split, trim, grow and delete areas; the
pages they unmap on the way are listed in their results.
-/

namespace Procore.Mm

open Procore.Lib

def pgsize : Nat := 4096

/-- `uintptr_t` and `size_t` count modulo this. -/
def word : Nat := 2 ^ 32

def userBase : Nat := 0x200000

def userTop : Nat := 0xb0000000

def roundDown (a : Nat) : Nat := a - a % pgsize

def roundUp (a : Nat) : Nat := roundDown ((a + (pgsize - 1)) % word)

def UserAccess (start stop : Nat) : Prop := userBase ≤ start ∧ start < stop ∧ stop ≤ userTop

instance (start stop : Nat) : Decidable (UserAccess start stop) := inferInstanceAs (Decidable (_ ∧ _))

abbrev VmFlags := BitVec 32

def vmRead : VmFlags := 1

def vmWrite : VmFlags := 2

def vmExec : VmFlags := 4

def vmStack : VmFlags := 8

/-- What a call returns: zero or an error code. -/
inductive Code where
  | ok
  | inval
  | noMem
  /-- The swap disk returned an error. -/
  | io
  deriving DecidableEq, Repr

/-- A `struct vma_struct`. Its address in the kernel is `id`. -/
structure Vma where
  id : Nat
  start : Nat
  stop : Nat
  flags : VmFlags
  deriving DecidableEq, Repr

/-- What `struct mm_struct` says about the areas. -/
structure Vmas where
  mmapList : List Vma
  mmapCache : Option Nat
  mapCount : Int
  startBrk : Nat
  brk : Nat
  brkVma : Option Nat
  /-- The address `kmalloc` gives to the next area. -/
  next : Nat
  deriving DecidableEq, Repr

namespace Vmas

/-- No areas. `mm_create` begins the heap at `USERBASE`, `load_icode` behind the image. -/
def create (startBrk : Nat) : Vmas where
  mmapList := []
  mmapCache := none
  mapCount := 0
  startBrk := startBrk
  brk := startBrk
  brkVma := none
  next := 0

def findVma (s : Vmas) (addr : Nat) : Option Vma × Vmas :=
  let holds (v : Vma) : Bool := v.start ≤ addr ∧ addr < v.stop
  let cached := (s.mmapCache.bind fun id => s.mmapList.find? (·.id = id)).filter holds
  match cached.or (s.mmapList.find? holds) with
  | none => (none, s)
  | some v => (some v, { s with mmapCache := some v.id })

/-- `none` is a failed assertion of `check_vma_overlap`. -/
def insertVmaStruct (s : Vmas) (v : Vma) : Option Vmas :=
  let before := s.mmapList.takeWhile (·.start ≤ v.start)
  let after := s.mmapList.dropWhile (·.start ≤ v.start)
  if v.start < v.stop ∧ (∀ p ∈ before.getLast?, p.start < p.stop ∧ p.stop ≤ v.start) ∧
      (∀ n ∈ after.head?, v.stop ≤ n.start ∧ n.start < n.stop) then
    some { s with
      mmapList := before ++ v :: after
      mapCount := s.mapCount + 1 }
  else none

/-- The loop of `mm_map` that looks for an area in the way. -/
def hasRoom (start stop : Nat) : List Vma → Bool
  | [] => true
  | v :: vs => if v.stop ≤ start then hasRoom start stop vs else stop ≤ v.start

/-- The second component is what `vma_store` receives. -/
def mmMap (s : Vmas) (addr len : Nat) (flags : VmFlags) (mem : Bool) :
    Option (Code × Option Nat × Vmas) :=
  if len = 0 ∨ (addr + len) % word < addr ∨
      flags &&& ~~~(vmRead ||| vmWrite ||| vmExec ||| vmStack) ≠ 0 then some (.inval, none, s)
  else
    let start := roundDown addr
    let stop := roundUp ((addr + len) % word)
    if stop ≤ start ∨ ¬ UserAccess start stop then some (.inval, none, s)
    else if hasRoom start stop s.mmapList = false then some (.inval, none, s)
    else if mem = false then some (.noMem, none, s)
    else
      (insertVmaStruct { s with next := s.next + 1 } ⟨s.next, start, stop, flags⟩).map
        fun t => (.ok, some s.next, t)

/-- `USTACKTOP - USTACKSIZE`, the lower end of the stack reservation. -/
def stackLimit : Nat := userTop - 256 * pgsize

def unmappedLoop (size : Nat) : Nat → List Vma → Nat
  | candidate, [] => if candidate ≤ stackLimit ∧ size ≤ stackLimit - candidate then candidate else 0
  | candidate, v :: vs =>
    if v.stop ≤ candidate then unmappedLoop size candidate vs
    else if candidate ≤ v.start ∧ size ≤ v.start - candidate ∧ (candidate + size) % word ≤ stackLimit then
      candidate
    else if stackLimit < roundUp v.stop ∨ stackLimit - roundUp v.stop < size then 0
    else unmappedLoop size (roundUp v.stop) vs

/-- Zero if there is no hole of that length. -/
def getUnmappedArea (s : Vmas) (len : Nat) : Nat :=
  if len = 0 ∨ word - 1 - (pgsize - 1) < len then 0
  else if roundUp len = 0 ∨ stackLimit - userBase < roundUp len then 0
  else unmappedLoop (roundUp len) userBase s.mmapList

/-- What `mm_unmap` makes of an area that the range cuts. `none` if there is no memory for
    the right part. -/
def cutVma (s : Vmas) (v : Vma) (cutStart cutEnd : Nat) (mem : Bool) : Option (List Vma × Vmas) :=
  if cutStart = v.start ∧ cutEnd = v.stop then
    some ([], { s with
      brkVma := if s.brkVma = some v.id then none else s.brkVma
      mmapCache := if s.mmapCache = some v.id then none else s.mmapCache
      mapCount := s.mapCount - 1 })
  else if cutStart = v.start then
    some ([{ v with start := cutEnd }], { s with
      brkVma := if s.brkVma = some v.id ∧ cutEnd ≠ roundUp s.startBrk then none else s.brkVma })
  else if cutEnd = v.stop then
    some ([{ v with stop := cutStart }], { s with
      brk := if s.brkVma = some v.id ∧ cutStart < s.brk then cutStart else s.brk })
  else if mem then
    some ([{ v with stop := cutStart }, ⟨s.next, cutEnd, v.stop, v.flags⟩], { s with
      brkVma := if s.brkVma = some v.id then none else s.brkVma
      mapCount := s.mapCount + 1
      next := s.next + 1 })
  else none

/-- The loop of `mm_unmap`. `before` are the areas it has passed. -/
def unmapLoop (start stop : Nat) (mem : Bool) (s : Vmas) (before : List Vma) :
    List Vma → Code × Vmas × List (Nat × Nat)
  | [] => (.ok, { s with mmapList := before }, [])
  | v :: vs =>
    if v.stop ≤ start then unmapLoop start stop mem s (before ++ [v]) vs
    else if stop ≤ v.start then (.ok, { s with mmapList := before ++ v :: vs }, [])
    else
      let cutStart := if v.start < start then start else v.start
      let cutEnd := if stop < v.stop then stop else v.stop
      if cutStart < cutEnd then
        match s.cutVma v cutStart cutEnd mem with
        | none => (.noMem, { s with mmapList := before ++ v :: vs }, [(cutStart, cutEnd)])
        | some (parts, t) =>
          let rest := unmapLoop start stop mem t (before ++ parts) vs
          (rest.1, rest.2.1, (cutStart, cutEnd) :: rest.2.2)
      else unmapLoop start stop mem s (before ++ [v]) vs

/-- The last component lists the calls of `mm_unmap_pages`. -/
def mmUnmap (s : Vmas) (addr len : Nat) (mem : Bool) : Code × Vmas × List (Nat × Nat) :=
  if len = 0 ∨ addr % pgsize ≠ 0 ∨ (addr + len) % word < addr then (.inval, s, [])
  else
    let stop := roundUp ((addr + len) % word)
    if stop ≤ addr ∨ ¬ UserAccess addr stop then (.inval, s, [])
    else unmapLoop addr stop mem s [] s.mmapList

/-- Every page from `cursor` to `stop` belongs to an area. -/
def covered (stop : Nat) : Nat → List Vma → Bool
  | cursor, [] => stop ≤ cursor
  | cursor, v :: vs =>
    if stop ≤ cursor then true
    else if v.stop ≤ cursor then covered stop cursor vs
    else if cursor < v.start then false
    else covered stop (if v.stop < stop then v.stop else stop) vs

def splitVma (s : Vmas) (before : List Vma) (v : Vma) (after : List Vma) (addr : Nat) : Vmas :=
  { s with
    mmapList := before ++ { v with stop := addr } :: ⟨s.next, addr, v.stop, v.flags⟩ :: after
    mapCount := s.mapCount + 1
    next := s.next + 1 }

/-- Split the area that contains the left edge. The lists are the areas before and from
    the edge on. -/
def splitLeft (s : Vmas) (start : Nat) (mem : Bool) : Except Code (Vmas × List Vma × List Vma) :=
  let before := s.mmapList.takeWhile (·.stop ≤ start)
  match s.mmapList.dropWhile (·.stop ≤ start) with
  | [] => .error .inval
  | v :: after =>
    if v.start < start then
      if mem then
        .ok (s.splitVma before v after start, before ++ [{ v with stop := start }],
          ⟨s.next, start, v.stop, v.flags⟩ :: after)
      else .error .noMem
    else .ok (s, before, v :: after)

/-- Split the area that contains the right edge. -/
def splitRight (s : Vmas) (stop : Nat) (mem : Bool) (before rest : List Vma) : Code × Vmas :=
  match rest.dropWhile (·.stop < stop) with
  | [] => (.inval, s)
  | v :: after =>
    if stop < v.stop then
      if mem then (.ok, s.splitVma (before ++ rest.takeWhile (·.stop < stop)) v after stop)
      else (.noMem, s)
    else (.ok, s)

/-- Give the areas inside the range their new flags. -/
def protectVmas (start stop : Nat) (flags : VmFlags) : List Vma → List Vma
  | [] => []
  | v :: vs =>
    if stop ≤ v.start then v :: vs
    else
      (if start ≤ v.start ∧ v.stop ≤ stop then { v with flags := flags } else v) ::
        protectVmas start stop flags vs

/-- The page table follows if the code is zero. -/
def mmMprotect (s : Vmas) (addr len : Nat) (flags : VmFlags) (memLeft memRight : Bool) :
    Code × Vmas :=
  if len = 0 ∨ addr % pgsize ≠ 0 ∨ (addr + len) % word < addr ∨
      flags &&& ~~~(vmRead ||| vmWrite ||| vmExec) ≠ 0 then (.inval, s)
  else
    let stop := roundUp ((addr + len) % word)
    if stop ≤ addr ∨ ¬ UserAccess addr stop then (.inval, s)
    else if covered stop addr s.mmapList = false then (.inval, s)
    else
      match s.splitLeft addr memLeft with
      | .error code => (code, s)
      | .ok (s, before, rest) =>
        match s.splitRight stop memRight before rest with
        | (.ok, s) => (.ok, { s with mmapList := protectVmas addr stop flags s.mmapList })
        | failed => failed

inductive Advice where
  | normal
  | random
  | sequential
  | willneed
  | dontneed
  deriving DecidableEq, Repr

/-- `none` is no valid advice. The areas do not change. -/
def mmMadvise (s : Vmas) (addr len : Nat) (advice : Option Advice) : Code × List (Nat × Nat) :=
  if (addr + len) % word < addr ∨ advice = none then (.inval, [])
  else if len = 0 then (.ok, [])
  else
    let start := roundDown addr
    let stop := roundUp ((addr + len) % word)
    if stop ≤ start ∨ ¬ UserAccess start stop then (.inval, [])
    else if covered stop start s.mmapList = false then (.inval, [])
    else (.ok, if advice = some .dontneed then [(start, stop)] else [])

/-- Move the end of the heap down. `none` if `brk_vma` is not in the list. -/
def shrinkHeap (s : Vmas) (id newbrk : Nat) : Option (Code × Vmas × List (Nat × Nat)) :=
  let newEnd := roundUp newbrk
  let before := s.mmapList.takeWhile (·.id ≠ id)
  match s.mmapList.dropWhile (·.id ≠ id) with
  | [] => none
  | v :: after =>
    let unmapped := [(newEnd, roundUp s.brk)]
    if newEnd ≤ roundUp s.startBrk then
      some (.ok, { s with
        mmapList := before ++ after
        mapCount := s.mapCount - 1
        brkVma := none
        mmapCache := if s.mmapCache = some id then none else s.mmapCache
        brk := newbrk }, unmapped)
    else
      some (.ok, { s with
        mmapList := before ++ { v with stop := newEnd } :: after
        brk := newbrk }, unmapped)

def growHeap (s : Vmas) (id newbrk : Nat) : Option (Code × Vmas) :=
  let newEnd := roundUp newbrk
  let before := s.mmapList.takeWhile (·.id ≠ id)
  match s.mmapList.dropWhile (·.id ≠ id) with
  | [] => none
  | v :: after =>
    if v.stop ≠ roundUp s.brk ∨ ∃ n ∈ after.head?, n.start < newEnd then some (.inval, s)
    else
      some (.ok, { s with
        mmapList := before ++ { v with stop := newEnd } :: after
        brk := newbrk })

def mapHeap (s : Vmas) (newbrk : Nat) (mem : Bool) : Option (Code × Vmas) :=
  let heapStart := roundUp s.startBrk
  if roundUp s.brk ≠ heapStart then some (.inval, s)
  else
    match s.mmMap heapStart (roundUp newbrk - heapStart) (vmRead ||| vmWrite) mem with
    | none => none
    | some (.ok, stored, t) => some (.ok, { t with
        brkVma := stored
        brk := newbrk })
    | some (_, _, t) => some (.inval, t)

def mmBrk (s : Vmas) (newbrk : Nat) (mem : Bool) : Option (Code × Vmas × List (Nat × Nat)) :=
  if newbrk < s.startBrk ∨ userTop < newbrk then some (.inval, s, [])
  else
    let oldEnd := roundUp s.brk
    let newEnd := roundUp newbrk
    if newEnd = oldEnd then some (.ok, { s with brk := newbrk }, [])
    else if newEnd < oldEnd then
      match s.brkVma with
      | none => some (.ok, { s with brk := newbrk }, [])
      | some id => s.shrinkHeap id newbrk
    else if userTop < newEnd ∨ newEnd < roundUp s.startBrk then some (.inval, s, [])
    else
      let grown := match s.brkVma with
        | none => s.mapHeap newbrk mem
        | some id => s.growHeap id newbrk
      grown.map fun r => (r.1, r.2, [])

def dupVma (dst : Vmas) (srcBrk : Option Nat) (v : Vma) : Option Vmas :=
  (insertVmaStruct { dst with next := dst.next + 1 } ⟨dst.next, v.start, v.stop, v.flags⟩).map
    fun t => if srcBrk = some v.id then { t with brkVma := some dst.next } else t

/-- The loop of `dup_mmap`, from the last area to the first. For each area the answers say
    whether there is memory for it and whether `copy_range` succeeds. -/
def dupLoop (srcBrk : Option Nat) (dst : Vmas) : List Vma → List (Bool × Bool) → Option (Code × Vmas)
  | [], _ => some (.ok, dst)
  | v :: vs, answers =>
    let answer := answers.headD (true, true)
    if answer.1 = false then some (.noMem, dst)
    else
      match dst.dupVma srcBrk v with
      | none => none
      | some dst =>
        if answer.2 then dupLoop srcBrk dst vs answers.tail else some (.noMem, dst)

/-- The heap of the copy before its areas are copied. -/
def dupStart (dst src : Vmas) : Vmas :=
  { dst with
    startBrk := src.startBrk
    brk := src.brk
    brkVma := none }

def dupMmap (dst src : Vmas) (answers : List (Bool × Bool)) : Option (Code × Vmas) :=
  dupLoop src.brkVma (dst.dupStart src) src.mmapList.reverse answers

end Vmas

end Procore.Mm
