import Mathlib.Data.List.Perm.Subperm
import Procore.Lib.Ring
import Procore.Lib.Run

/-! # The SLOB allocator

`kmalloc` serves small requests from a circular list of free blocks in the order of their
addresses. The list is entered wherever the last call left it. A block is cut off the front of the
first free block that is large enough; a freed block is merged with the free blocks it touches, and
whole pages go back to the page allocator. Addresses count units of eight bytes. The head of the
list, `arena`, lies in the kernel image, below every page.
-/

namespace Procore.Mm.Slob

open Procore.Lib
open Function

/-- `struct slob_block`, the first unit of a block. -/
structure SlobBlock where
  units : Nat
  next : Nat

def slobUnit : Nat := 8

def pageSize : Nat := 4096

def pageUnits : Nat := 512

def slobUnits (size : Nat) : Nat := (size + slobUnit - 1) / slobUnit

def arena : Nat := 0

abbrev Memory : Type := Nat → SlobBlock

def Memory.next (mem : Memory) (a : Nat) : Nat := (mem a).next

structure State where
  mem : Memory
  slobfree : Nat
  /-- The pages that were taken from the page allocator and not given back. -/
  owned : List Nat := []
  /-- The blocks that are in use, each with the size that was asked for. -/
  live : List (Nat × Nat) := []
  /-- A loop has not come to its end, or an assertion has failed. -/
  stuck : Bool := false

/-- More rounds than the list has blocks. -/
def State.rounds (s : State) : Nat := pageUnits * s.owned.length + 1

/-- The test of the loop of `slob_free` that looks for the place of `b`. -/
def Memory.place (mem : Memory) (b cur : Nat) : Bool :=
  (cur < b && b < mem.next cur) || (mem.next cur ≤ cur && (cur < b || b < mem.next cur))

/-- `slob_free` behind `cur`: `b` is merged with the next block, then with `cur`. The second part
    of the result is the free block that has come about. -/
def Memory.link (mem : Memory) (b cur : Nat) : Memory × Nat :=
  let next := mem.next cur
  let joined : Memory :=
    if b + (mem b).units = next then
      update mem b { units := (mem b).units + (mem next).units, next := mem.next next }
    else update mem b { mem b with next := next }
  if cur + (joined cur).units = b then
    (update joined cur
      { units := (joined cur).units + (joined b).units, next := joined.next b }, cur)
  else (update joined cur { joined cur with next := b }, b)

/-- The first `units` units of `cur` leave the list. -/
def Memory.take (mem : Memory) (prev cur units : Nat) : Memory :=
  if (mem cur).units = units then update mem prev { mem prev with next := mem.next cur }
  else
    let cut := update mem prev { mem prev with next := cur + units }
    let rest := update cut (cur + units)
      { units := (mem cur).units - units, next := mem.next cur }
    update rest cur { mem cur with units := units }

namespace State

/-- The end of `slob_free`: the pages of `release` are unlinked and given back. -/
def giveBack (s : State) (release : Nat) : Option State := do
  let prev ← walk s.mem.next (fun prev => s.mem.next prev = release || s.mem.next prev = arena)
    s.rounds arena
  if s.mem.next prev = release ∧ s.mem.next release ≠ release then
    some { s with
      mem := update s.mem prev { s.mem prev with next := s.mem.next release }
      slobfree := if s.slobfree = release then prev else s.slobfree
      owned := s.owned.filter fun page =>
        !(release ≤ pageUnits * page && pageUnits * page < release + (s.mem release).units) }
  else some s

def slobFree (s : State) (b size : Nat) : Option State := do
  let mem : Memory :=
    if size ≠ 0 then update s.mem b { s.mem b with units := slobUnits size } else s.mem
  let cur ← walk mem.next (mem.place b) s.rounds s.slobfree
  let (linked, release) := mem.link b cur
  let done := { s with mem := linked, slobfree := cur }
  if size ≠ pageSize ∧ release ≠ arena ∧ release % pageUnits = 0 ∧
      (linked release).units % pageUnits = 0 then
    done.giveBack release
  else some done

/-- `slob_alloc` for `units` units; `pages` are the answers of the page allocator, which has no
    page when they are used up. -/
def slobAlloc (s : State) (units : Nat) (pages : List Nat) : Option (State × Option Nat) := do
  let prev ← walk s.mem.next
    (fun prev => units ≤ (s.mem (s.mem.next prev)).units || s.mem.next prev = s.slobfree)
    s.rounds s.slobfree
  let cur := s.mem.next prev
  if units ≤ (s.mem cur).units then
    some ({ s with mem := s.mem.take prev cur units, slobfree := prev }, some cur)
  else match pages with
    | [] => some (s, none)
    | page :: pages =>
      let grown ← { s with owned := page :: s.owned }.slobFree (pageUnits * page) pageSize
      slobAlloc grown units pages
termination_by structural pages

/-- `kmalloc` of a size below a page. -/
def kmalloc (s : State) (size : Nat) (pages : List Nat) : State :=
  if size + slobUnit + slobUnit < pageSize then
    match s.slobAlloc (slobUnits (size + slobUnit)) pages with
    | none => { s with stuck := true }
    | some (t, none) => t
    | some (t, some m) => { t with live := (m, size) :: t.live }
  else { s with stuck := true }

/-- `kfree` of the block whose first unit is `m`. -/
def kfree (s : State) (m : Nat) : State :=
  match { s with live := s.live.filter (·.1 ≠ m) }.slobFree m 0 with
  | none => { s with stuck := true }
  | some t => t

end State

inductive Label where
  | kmalloc (size : Nat) (pages : List Nat)
  | kfree (m : Nat)
  /-- The owner of a block writes behind its first unit. -/
  | write (m a : Nat) (value : SlobBlock)
  /-- Somebody writes to memory that the allocator does not have. -/
  | foreign (a : Nat) (value : SlobBlock)

namespace State

def step (s : State) : Label → Option State
  | .kmalloc size pages =>
    -- The page allocator answers with pages that nobody has.
    if 1 ≤ size ∧ size ≤ 4079 ∧ pages.Nodup ∧ ∀ page ∈ pages, 1 ≤ page ∧ page ∉ s.owned then
      some (s.kmalloc size pages)
    else none
  | .kfree m => if m ∈ s.live.map Prod.fst then some (s.kfree m) else none
  | .write m a value =>
    if m ∈ s.live.map Prod.fst ∧ m < a ∧ a < m + (s.mem m).units then
      some { s with mem := update s.mem a value }
    else none
  | .foreign a value =>
    if a ≠ arena ∧ a / pageUnits ∉ s.owned then
      some { s with mem := update s.mem a value }
    else none

def boot (mem : Memory) : State :=
  { mem := update mem arena { units := 1, next := arena }, slobfree := arena }

/-- The blocks of the state: the free list from `arena` on, and the blocks in use. -/
structure Sound (s : State) : Prop where
  list : ∃ blocks : List Nat,
    -- circular,
    Path s.mem.next arena (arena :: blocks) arena ∧
    -- in the order of the addresses, disjoint and never adjacent,
    (arena :: blocks).Pairwise (fun a b => a + (s.mem a).units < b) ∧
    -- in pages of the allocator,
    (∀ a ∈ blocks, 0 < (s.mem a).units ∧
      ∀ x, a ≤ x → x < a + (s.mem a).units → x / pageUnits ∈ s.owned) ∧
    -- apart from the blocks in use.
    ∀ e ∈ s.live, ∀ a ∈ blocks,
      e.1 + (s.mem e.1).units ≤ a ∨ a + (s.mem a).units ≤ e.1
  room : ∀ e ∈ s.live, e.2 ≤ slobUnit * ((s.mem e.1).units - 1)
  apart : s.live.Pairwise fun e f =>
    e.1 + (s.mem e.1).units ≤ f.1 ∨ f.1 + (s.mem f.1).units ≤ e.1
  /-- A page that was given back holds no block in use. -/
  held : ∀ e ∈ s.live, ∀ x, e.1 ≤ x → x < e.1 + (s.mem e.1).units → x / pageUnits ∈ s.owned
  returns : s.stuck = false

end State

end Procore.Mm.Slob
