import Procore.Lib.Count
import Mathlib.Data.Fintype.Prod

/-! # Reference counts of open files and pipes

Descriptions, pipes and socket-pair endpoints are objects of the heap. A description
counts its references and, among them, its descriptors; a pipe counts the objects
that point to it and the descriptors that are open on either end. The counts are
compared with the references that exist, as multisets: those of descriptors whose
end has been opened, those of descriptors whose end has not, those of operations in
flight, and those of the creators of pipes.
-/

namespace Procore.Fs.Files

open Procore.Lib Multiset Option Finset
open Function (update update_of_ne update_self)

variable {α : Type} [DecidableEq α]

/-- `enum open_file_kind`, with the object of the description. -/
inductive FileKind (α : Type) where
  | inode
  | socket
  | pipe (p : α)
  | socketpair (e : α)
  deriving DecidableEq

structure OpenFile (α : Type) where
  refCount : Int
  descriptorCount : Int
  kind : FileKind α
  readable : Bool
  writable : Bool
  deriving DecidableEq

structure PipeRefs where
  refCount : Int
  readers : Int
  writers : Int
  deriving DecidableEq

structure Endpoint (α : Type) where
  readPipe : α
  writePipe : α
  deriving DecidableEq

structure Heap (α : Type) where
  files : α → Option (OpenFile α)
  pipes : α → Option PipeRefs
  ends : α → Option (Endpoint α)

inductive Fault where
  /-- An assertion has failed. -/
  | assertion
  /-- Memory that `kfree` has taken is used. -/
  | freed
  deriving DecidableEq

@[simp] theorem ok_bind {β γ : Type} (b : β) (f : β → Except Fault γ) : (Except.ok b >>= f) = f b := rfl

@[simp] theorem pure_ok {β : Type} (b : β) : (pure b : Except Fault β) = .ok b := rfl

/-- `assert`. -/
def check (condition : Prop) [Decidable condition] : Except Fault Unit :=
  if condition then .ok () else .error .assertion

def deref {β : Type} : Option β → Except Fault β
  | some x => .ok x
  | none => .error .freed

namespace Heap

def setFile (h : Heap α) (d : α) (x : Option (OpenFile α)) : Heap α :=
  { h with files := update h.files d x }

def setPipe (h : Heap α) (p : α) (c : Option PipeRefs) : Heap α :=
  { h with pipes := update h.pipes p c }

def setEnd (h : Heap α) (e : α) (x : Option (Endpoint α)) : Heap α :=
  { h with ends := update h.ends e x }

def pipeEndpointOpen (h : Heap α) (p : α) (readable writable : Bool) : Except Fault (Heap α) := do
  let c ← deref (h.pipes p)
  return h.setPipe p (some { c with
    readers := if readable then c.readers + 1 else c.readers
    writers := if writable then c.writers + 1 else c.writers })

/-- The counts that `pipe_endpoint_close` changes. -/
def pipeEndpointClose (h : Heap α) (p : α) (readable writable : Bool) : Except Fault (Heap α) := do
  let c ← deref (h.pipes p)
  return h.setPipe p (some { c with
    readers := if readable ∧ 0 < c.readers then c.readers - 1 else c.readers
    writers := if writable ∧ 0 < c.writers then c.writers - 1 else c.writers })

def pipeGet (h : Heap α) (p : α) : Except Fault (Heap α) := do
  let c ← deref (h.pipes p)
  check (0 < c.refCount)
  return h.setPipe p (some { c with refCount := c.refCount + 1 })

def pipePut (h : Heap α) (p : α) : Except Fault (Heap α) := do
  let c ← deref (h.pipes p)
  if c.refCount - 1 = 0 then return h.setPipe p none
  else return h.setPipe p (some { c with refCount := c.refCount - 1 })

def socketpairEndpointOpen (h : Heap α) (e : α) : Except Fault (Heap α) := do
  let x ← deref (h.ends e)
  let h ← h.pipeEndpointOpen x.readPipe true false
  h.pipeEndpointOpen x.writePipe false true

def socketpairEndpointClose (h : Heap α) (e : α) : Except Fault (Heap α) := do
  let x ← deref (h.ends e)
  let h ← h.pipeEndpointClose x.readPipe true false
  h.pipeEndpointClose x.writePipe false true

def socketpairEndpointPut (h : Heap α) (e : α) : Except Fault (Heap α) := do
  let x ← deref (h.ends e)
  let h ← h.pipePut x.readPipe
  let h ← h.pipePut x.writePipe
  return h.setEnd e none

/-- `open_file_create` at an address that `kmalloc` has returned. -/
def openFileCreate (h : Heap α) (d : α) (kind : FileKind α) (readable writable : Bool) : Heap α :=
  h.setFile d (some ⟨1, 1, kind, readable, writable⟩)

def openFileGet (h : Heap α) (d : α) : Except Fault (Heap α) := do
  let x ← deref (h.files d)
  check (0 < x.refCount)
  check (1 < x.refCount + 1)
  return h.setFile d (some { x with refCount := x.refCount + 1 })

def openFileGetDescriptor (h : Heap α) (d : α) : Except Fault (Heap α) := do
  let h ← h.openFileGet d
  let x ← deref (h.files d)
  check (0 < x.descriptorCount)
  check (1 < x.descriptorCount + 1)
  let h := h.setFile d (some { x with descriptorCount := x.descriptorCount + 1 })
  match x.kind with
  | .pipe p => h.pipeEndpointOpen p x.readable x.writable
  | .socketpair e => h.socketpairEndpointOpen e
  | _ => return h

def openFileDropDescriptor (h : Heap α) (d : α) : Except Fault (Heap α) := do
  let x ← deref (h.files d)
  check (0 < x.descriptorCount)
  check (0 ≤ x.descriptorCount - 1)
  let h := h.setFile d (some { x with descriptorCount := x.descriptorCount - 1 })
  match x.kind with
  | .pipe p => h.pipeEndpointClose p x.readable x.writable
  | .socketpair e => h.socketpairEndpointClose e
  | _ => return h

def openFilePut (h : Heap α) (d : α) : Except Fault (Heap α) := do
  let x ← deref (h.files d)
  check (0 ≤ x.refCount - 1)
  if x.refCount - 1 ≠ 0 then
    return h.setFile d (some { x with refCount := x.refCount - 1 })
  else
    check (x.descriptorCount = 0)
    let h ← match x.kind with
      | .pipe p => h.pipePut p
      | .socketpair e => h.socketpairEndpointPut e
      | _ => pure h
    return h.setFile d none

/-- The pipes that an operation on a description uses. -/
def openFileUse (h : Heap α) (d : α) : Except Fault Unit := do
  let x ← deref (h.files d)
  match x.kind with
  | .pipe p =>
    let _ ← deref (h.pipes p)
  | .socketpair e =>
    let x ← deref (h.ends e)
    let _ ← deref (h.pipes x.readPipe)
    let _ ← deref (h.pipes x.writePipe)
  | _ => return ()

/-! ## The counts and the references -/

def onPipe (h : Heap α) (p d : α) : Bool := (h.files d).any fun x => x.kind = .pipe p

/-- A description that reads this pipe. -/
def reads (h : Heap α) (p d : α) : Bool := (h.files d).any fun x => x.kind = .pipe p ∧ x.readable

/-- A description that writes this pipe. -/
def writes (h : Heap α) (p d : α) : Bool := (h.files d).any fun x => x.kind = .pipe p ∧ x.writable

/-- The counts of every description are the numbers of its references. -/
structure FileBooks (h : Heap α) (opened shut flying : Multiset α) : Prop where
  ref : ∀ d x, h.files d = some x →
    x.refCount = opened.count d + shut.count d + flying.count d
  desc : ∀ d x, h.files d = some x → x.descriptorCount = opened.count d + shut.count d
  alive : ∀ d, h.files d ≠ none ↔ d ∈ opened ∨ d ∈ shut ∨ d ∈ flying

def SameObject (x y : OpenFile α) : Prop :=
  y.kind = x.kind ∧ y.readable = x.readable ∧ y.writable = x.writable

variable {h : Heap α} {o u f m o' u' f' m' : Multiset α} {d p : α} {x y : OpenFile α}

@[simp] theorem files_setFile (v : Option (OpenFile α)) :
    (h.setFile d v).files = update h.files d v := rfl

@[simp] theorem pipes_setFile (v : Option (OpenFile α)) : (h.setFile d v).pipes = h.pipes := rfl

@[simp] theorem ends_setFile (v : Option (OpenFile α)) : (h.setFile d v).ends = h.ends := rfl

@[simp] theorem files_setPipe (v : Option PipeRefs) : (h.setPipe p v).files = h.files := rfl

@[simp] theorem pipes_setPipe (v : Option PipeRefs) :
    (h.setPipe p v).pipes = update h.pipes p v := rfl

@[simp] theorem ends_setPipe (v : Option PipeRefs) : (h.setPipe p v).ends = h.ends := rfl

variable {h' : Heap α}

theorem FileBooks.congr (b : FileBooks h o u f) (same : h'.files = h.files) :
    FileBooks h' o u f := by
  constructor
  · rw [same]
    exact b.ref
  · rw [same]
    exact b.desc
  · rw [same]
    exact b.alive

variable {v : Option (OpenFile α)}

section

variable (b : FileBooks h o u f) (opened : ∀ e, e ≠ d → o'.count e = o.count e)
  (shut : ∀ e, e ≠ d → u'.count e = u.count e) (flying : ∀ e, e ≠ d → f'.count e = f.count e)
include b opened shut flying

/-- One description changes. -/
theorem FileBooks.point (here : ∀ x, v = some x → x.refCount = o'.count d + u'.count d + f'.count d ∧
      x.descriptorCount = o'.count d + u'.count d)
    (alive : v ≠ none ↔ 0 < o'.count d + u'.count d + f'.count d) :
    FileBooks (h.setFile d v) o' u' f' := by
  constructor
  · intro e x there
    by_cases same : e = d
    · subst same
      simp only [files_setFile, update_self] at there
      exact (here x there).1
    · simp only [files_setFile, update_of_ne same] at there
      rw [opened e same, shut e same, flying e same]
      exact b.ref e x there
  · intro e x there
    by_cases same : e = d
    · subst same
      simp only [files_setFile, update_self] at there
      exact (here x there).2
    · simp only [files_setFile, update_of_ne same] at there
      rw [opened e same, shut e same]
      exact b.desc e x there
  · intro e
    simp only [← count_pos]
    by_cases same : e = d
    · subst same
      simp only [files_setFile, update_self]
      rw [alive]
      omega
    · simp only [files_setFile, update_of_ne same]
      rw [opened e same, shut e same, flying e same, b.alive]
      simp only [← count_pos]

theorem FileBooks.set (ref : y.refCount = o'.count d + u'.count d + f'.count d)
    (desc : y.descriptorCount = o'.count d + u'.count d) (pos : 0 < y.refCount) :
    FileBooks (h.setFile d (some y)) o' u' f' := by
  refine b.point opened shut flying ?_ ?_
  · intro x there
    obtain rfl := some.inj there
    exact ⟨ref, desc⟩
  · simp only [ne_eq, reduceCtorEq, not_false_eq_true, true_iff]
    omega

end

theorem FileBooks.exists_file (b : FileBooks h o u f) (mem : d ∈ o ∨ d ∈ u ∨ d ∈ f) :
    ∃ x, h.files d = some x := ne_none_iff_exists'.mp ((b.alive d).mpr mem)

theorem FileBooks.ref_pos (b : FileBooks h o u f) (here : h.files d = some x) : 0 < x.refCount := by
  have mem := (b.alive d).mp (by simp [here])
  simp only [← count_pos] at mem
  have ref := b.ref d x here
  omega

section

variable (here : h.files d = some x)
include here

theorem onPipe_of_file (p : α) : h.onPipe p d = decide (x.kind = .pipe p) := by
  simp [onPipe, here]

theorem reads_of_file (p : α) : h.reads p d = decide (x.kind = .pipe p ∧ x.readable) := by
  simp [reads, here]

theorem writes_of_file (p : α) : h.writes p d = decide (x.kind = .pipe p ∧ x.writable) := by
  simp [writes, here]

theorem onPipe_setFile (same : SameObject x y) (p : α) :
    (h.setFile d (some y)).onPipe p = h.onPipe p := by
  funext e
  by_cases at_ : e = d
  · subst at_
    simp [onPipe, here, same.1]
  · simp [onPipe, at_]

theorem reads_setFile (same : SameObject x y) (p : α) :
    (h.setFile d (some y)).reads p = h.reads p := by
  funext e
  by_cases at_ : e = d
  · subst at_
    simp [reads, here, same.1, same.2.1]
  · simp [reads, at_]

theorem writes_setFile (same : SameObject x y) (p : α) :
    (h.setFile d (some y)).writes p = h.writes p := by
  funext e
  by_cases at_ : e = d
  · subst at_
    simp [writes, here, same.1, same.2.2]
  · simp [writes, at_]

end

theorem onPipe_of_reads (found : h.reads p d = true) : h.onPipe p d = true := by
  simp only [reads, onPipe, any_eq_true] at *
  grind

theorem onPipe_of_writes (found : h.writes p d = true) : h.onPipe p d = true := by
  simp only [writes, onPipe, any_eq_true] at *
  grind

theorem countP_of_unopened (none : ∀ d ∈ o, h.onPipe p d = false) :
    (o.countP fun d => h.reads p d) = 0 ∧ (o.countP fun d => h.writes p d) = 0 := by
  constructor
  · rw [countP_eq_zero]
    intro d mem reads
    have on := onPipe_of_reads reads
    rw [none d mem] at on
    cases on
  · rw [countP_eq_zero]
    intro d mem writes
    have on := onPipe_of_writes writes
    rw [none d mem] at on
    cases on

theorem reads_setFile_of_ne {e : α} (other : e ≠ d) (p : α) :
    (h.setFile d v).reads p e = h.reads p e := by
  simp [reads, other]

theorem writes_setFile_of_ne {e : α} (other : e ≠ d) (p : α) :
    (h.setFile d v).writes p e = h.writes p e := by
  simp [writes, other]

theorem noPair_setFile (b : ∀ d x e, h.files d = some x → x.kind ≠ .socketpair e)
    (kind : ∀ e, y.kind ≠ .socketpair e) :
    ∀ c x e, (h.setFile d (some y)).files c = some x → x.kind ≠ .socketpair e := by
  intro c x e there
  by_cases same : c = d
  · subst same
    simp only [files_setFile, update_self, some.injEq] at there
    rw [← there]
    exact kind e
  · simp only [files_setFile, update_of_ne same] at there
    exact b c x e there

/-- The ends of a description are opened or closed so many times. -/
def addEnds (h : Heap α) (x : OpenFile α) (k : Int) : Heap α :=
  match x.kind with
  | .pipe p =>
    match h.pipes p with
    | some c => h.setPipe p (some { c with
        readers := if x.readable then c.readers + k else c.readers
        writers := if x.writable then c.writers + k else c.writers })
    | none => h
  | _ => h

theorem addEnds_files (k : Int) : (h.addEnds x k).files = h.files := by
  rw [addEnds]
  split
  · split <;> rfl
  · rfl

theorem addEnds_ends (k : Int) : (h.addEnds x k).ends = h.ends := by
  rw [addEnds]
  split
  · split <;> rfl
  · rfl

variable {k : Int} {c : PipeRefs}

/-- What a pipe counts after that. -/
theorem addEnds_pipes (here : h.files d = some x)
    (there : (h.addEnds x k).pipes p = some c) : ∃ c₀, h.pipes p = some c₀ ∧
      c.refCount = c₀.refCount ∧
      c.readers = c₀.readers + (if h.reads p d then k else 0) ∧
      c.writers = c₀.writers + (if h.writes p d then k else 0) := by
  rw [reads_of_file here, writes_of_file here]
  rw [addEnds] at there
  split at there
  · rename_i q kind
    split at there
    · rename_i c₀ found
      by_cases same : p = q
      · subst same
        simp only [pipes_setPipe, update_self, some.injEq] at there
        subst there
        refine ⟨c₀, found, rfl, ?_, ?_⟩
        · cases x.readable <;> simp [kind]
        · cases x.writable <;> simp [kind]
      · simp only [pipes_setPipe, update_of_ne same] at there
        exact ⟨c, there, rfl, by simp [kind, Ne.symm same], by simp [kind, Ne.symm same]⟩
    · rename_i missing
      have other : q ≠ p := by
        rintro rfl
        rw [missing] at there
        cases there
      exact ⟨c, there, rfl, by simp [kind, other], by simp [kind, other]⟩
  · rename_i other
    refine ⟨c, there, rfl, ?_, ?_⟩
    · simp [show x.kind ≠ .pipe p from other p]
    · simp [show x.kind ≠ .pipe p from other p]

theorem addEnds_alive (k : Int) (p : α) : (h.addEnds x k).pipes p ≠ none ↔ h.pipes p ≠ none := by
  rw [addEnds]
  split
  · rename_i q kind
    split
    · rename_i c₀ found
      by_cases same : p = q
      · subst same
        simp [found]
      · simp [same]
    · rfl
  · rfl

theorem openFileGetDescriptor_eq (here : h.files d = some x) (ref : 0 < x.refCount)
    (desc : 0 < x.descriptorCount) (pipe : ∀ p, x.kind = .pipe p → ∃ c, h.pipes p = some c)
    (noPair : ∀ e, x.kind ≠ .socketpair e) :
    h.openFileGetDescriptor d = .ok ((h.addEnds x 1).setFile d (some { x with
      refCount := x.refCount + 1
      descriptorCount := x.descriptorCount + 1 })) := by
  have more : 1 < x.refCount + 1 := by omega
  have more' : 1 < x.descriptorCount + 1 := by omega
  rw [openFileGetDescriptor, openFileGet, addEnds]
  simp only [here, deref, check, if_pos ref, if_pos more, if_pos desc, if_pos more', files_setFile, update_self, ok_bind, pure_ok]
  cases kind : x.kind with
  | inode => simp [setFile]
  | socket => simp [setFile]
  | socketpair e => exact absurd kind (noPair e)
  | pipe p =>
    obtain ⟨c, found⟩ := pipe p kind
    simp [setFile, setPipe, pipeEndpointOpen, found, deref]

theorem openFileDropDescriptor_eq (here : h.files d = some x) (desc : 0 < x.descriptorCount)
    (pipe : ∀ p, x.kind = .pipe p → ∃ c, h.pipes p = some c ∧ (x.readable → 0 < c.readers) ∧
      (x.writable → 0 < c.writers))
    (noPair : ∀ e, x.kind ≠ .socketpair e) :
    h.openFileDropDescriptor d = .ok ((h.addEnds x (-1)).setFile d (some { x with
      descriptorCount := x.descriptorCount - 1 })) := by
  have less : 0 ≤ x.descriptorCount - 1 := by omega
  rw [openFileDropDescriptor, addEnds]
  simp only [here, deref, check, if_pos desc, if_pos less, ok_bind]
  cases kind : x.kind with
  | inode => rfl
  | socket => rfl
  | socketpair e => exact absurd kind (noPair e)
  | pipe p =>
    obtain ⟨c, found, readers, writers⟩ := pipe p kind
    have closing {side : Bool} {count : Int} (pos : side = true → 0 < count) :
        (if side ∧ 0 < count then count - 1 else count) = if side then count + -1 else count := by
      cases side
      · simp
      · simp [pos rfl, Int.sub_eq_add_neg]
    simp [pipeEndpointClose, found, deref, setPipe, setFile, closing readers, closing writers]

/-- The first descriptor of a pipe that was never opened. -/
theorem openFileDropDescriptor_shut (here : h.files d = some x)
    (desc : 0 < x.descriptorCount) (kind : x.kind = .pipe p) (found : h.pipes p = some c)
    (readers : c.readers = 0) (writers : c.writers = 0) :
    h.openFileDropDescriptor d = .ok (h.setFile d (some { x with
      descriptorCount := x.descriptorCount - 1 })) := by
  have less : 0 ≤ x.descriptorCount - 1 := by omega
  obtain ⟨refs, r, w⟩ := c
  obtain rfl : r = 0 := readers
  obtain rfl : w = 0 := writers
  rw [openFileDropDescriptor]
  simp only [here, deref, check, if_pos desc, if_pos less, kind, pipeEndpointClose, ok_bind]
  simp [setFile, setPipe, found]

/-- A reference of a pipe is given back. -/
def dropRef (h : Heap α) (p : α) (c : PipeRefs) : Heap α :=
  h.setPipe p (if c.refCount - 1 = 0 then none else some { c with refCount := c.refCount - 1 })

theorem pipePut_eq (found : h.pipes p = some c) : h.pipePut p = .ok (h.dropRef p c) := by
  simp only [pipePut, found, deref, dropRef, ok_bind]
  split <;> rfl

variable [Fintype α]

/-- The descriptions that point to a pipe. -/
def holders (h : Heap α) (p : α) : Finset α := univ.filter fun d => h.onPipe p d

/-- The counts of every pipe are the numbers of its open descriptors and of its holders. -/
structure PipeBooks (h : Heap α) (opened made : Multiset α) : Prop where
  readers : ∀ p c, h.pipes p = some c → c.readers = opened.countP fun d => h.reads p d
  writers : ∀ p c, h.pipes p = some c → c.writers = opened.countP fun d => h.writes p d
  ref : ∀ p c, h.pipes p = some c → c.refCount = (h.holders p).card + made.count p
  alive : ∀ p, h.pipes p ≠ none ↔ (h.holders p).Nonempty ∨ p ∈ made
  once : made.Nodup

/-- Every count is the number of the references that exist: `opened` and `shut` are those of
    descriptors, `flying` those of operations, and `made` those of the creators of pipes. -/
structure Balanced (h : Heap α) (opened shut flying made : Multiset α) : Prop where
  files : FileBooks h opened shut flying
  pipes : PipeBooks h opened made
  noEnds : ∀ e, h.ends e = none
  noPair : ∀ d x e, h.files d = some x → x.kind ≠ .socketpair e
  /-- A description whose end is shut has one descriptor. -/
  fresh : shut.Nodup ∧ ∀ d ∈ shut, d ∉ opened

theorem PipeBooks.recount (b : PipeBooks h o m) (here : h.files d = some x) (same : SameObject x y) :
    PipeBooks (h.setFile d (some y)) o m := by
  constructor
  · simpa [reads_setFile here same] using b.readers
  · simpa [writes_setFile here same] using b.writers
  · simpa [holders, onPipe_setFile here same] using b.ref
  · simpa [holders, onPipe_setFile here same] using b.alive
  · exact b.once

theorem PipeBooks.exists_pipe (b : PipeBooks h o m) (here : h.files d = some x)
    (kind : x.kind = .pipe p) : ∃ c, h.pipes p = some c := by
  refine ne_none_iff_exists'.mp ((b.alive p).mpr (.inl ⟨d, ?_⟩))
  simp [holders, onPipe_of_file here, kind]

theorem Balanced.get (b : Balanced h o u f m) (mem : d ∈ o ∨ d ∈ u ∨ d ∈ f) : ∃ x,
    h.files d = some x ∧ h.openFileGet d = .ok (h.setFile d (some { x with
      refCount := x.refCount + 1 })) ∧
    Balanced (h.setFile d (some { x with refCount := x.refCount + 1 })) o u (d ::ₘ f) m := by
  obtain ⟨x, here⟩ := b.files.exists_file mem
  have pos := b.files.ref_pos here
  have ref := b.files.ref d x here
  have desc := b.files.desc d x here
  refine ⟨x, here, ?_, ?_, ?_, b.noEnds, noPair_setFile b.noPair (b.noPair d x · here), b.fresh⟩
  · simp [openFileGet, here, deref, check, pos]
  · refine b.files.set (fun _ _ => rfl) (fun _ _ => rfl) ?_ ?_ desc (by simpa using by omega)
    · intro e other
      rw [count_cons_of_ne other]
    · simp only [count_cons_self]
      omega
  · exact b.pipes.recount here ⟨rfl, rfl, rfl⟩

theorem PipeBooks.addEnds (b : PipeBooks h o m) (here : h.files d = some x)
    (readers : ∀ p, (o'.countP fun d => h.reads p d : Int) =
      (o.countP fun d => h.reads p d) + if h.reads p d then k else 0)
    (writers : ∀ p, (o'.countP fun d => h.writes p d : Int) =
      (o.countP fun d => h.writes p d) + if h.writes p d then k else 0) :
    PipeBooks (h.addEnds x k) o' m := by
  have same : (h.addEnds x k).files = h.files := addEnds_files k
  constructor
  · intro p c there
    obtain ⟨c₀, found, -, now, -⟩ := addEnds_pipes here there
    simp only [reads, same]
    rw [now, b.readers p c₀ found]
    exact (readers p).symm
  · intro p c there
    obtain ⟨c₀, found, -, -, now⟩ := addEnds_pipes here there
    simp only [writes, same]
    rw [now, b.writers p c₀ found]
    exact (writers p).symm
  · intro p c there
    obtain ⟨c₀, found, now, -, -⟩ := addEnds_pipes here there
    simp only [holders, onPipe, same]
    rw [now, b.ref p c₀ found]
    rfl
  · intro p
    simp only [holders, onPipe, same]
    rw [addEnds_alive]
    exact b.alive p
  · exact b.once

theorem PipeBooks.openEnds (b : PipeBooks h o m) (here : h.files d = some x) :
    PipeBooks (h.addEnds x 1) (d ::ₘ o) m := by
  refine b.addEnds here ?_ ?_
  · intro p
    rw [countP_cons]
    split <;> simp
  · intro p
    rw [countP_cons]
    split <;> simp

theorem PipeBooks.closeEnds (b : PipeBooks h (d ::ₘ o) m) (here : h.files d = some x) :
    PipeBooks (h.addEnds x (-1)) o m := by
  refine b.addEnds here ?_ ?_
  · intro p
    rw [countP_cons]
    split <;> simp
  · intro p
    rw [countP_cons]
    split <;> simp

/-- The change of a description that comes with a change of its ends. -/
theorem Balanced.withEnds (b : Balanced h o u f m) (here : h.files d = some x)
    (same : SameObject x y) (files : FileBooks (h.setFile d (some y)) o' u' f')
    (pipes : PipeBooks (h.addEnds x k) o' m) (fresh : u'.Nodup ∧ ∀ d ∈ u', d ∉ o') :
    Balanced ((h.addEnds x k).setFile d (some y)) o' u' f' m := by
  have kept : (h.addEnds x k).files d = some x := by rw [addEnds_files, here]
  refine ⟨files.congr ?_, pipes.recount kept same, ?_, ?_, fresh⟩
  · simp only [files_setFile, addEnds_files]
  · rw [ends_setFile, addEnds_ends]
    exact b.noEnds
  · refine noPair_setFile ?_ ?_
    · rw [addEnds_files]
      exact b.noPair
    · rw [same.1]
      exact (b.noPair d x · here)

/-- A descriptor is added, and its end opened. -/
theorem Balanced.share (b : Balanced h o u f m) (mem : d ∈ o) : ∃ x h',
    h.files d = some x ∧ h.openFileGetDescriptor d = .ok h' ∧
    h'.files = update h.files d (some { x with
      refCount := x.refCount + 1
      descriptorCount := x.descriptorCount + 1 }) ∧ Balanced h' (d ::ₘ o) u f m := by
  obtain ⟨x, here⟩ := b.files.exists_file (.inl mem)
  have count := count_pos.mpr mem
  have ref := b.files.ref d x here
  have desc := b.files.desc d x here
  have eq := openFileGetDescriptor_eq here (by omega) (by omega)
    (fun p kind => b.pipes.exists_pipe here kind) (b.noPair d x · here)
  refine ⟨x, _, here, eq, by rw [files_setFile, addEnds_files], ?_⟩
  refine b.withEnds here ⟨rfl, rfl, rfl⟩ ?_ (b.pipes.openEnds here) ⟨b.fresh.1, ?_⟩
  · refine b.files.set ?_ (fun _ _ => rfl) (fun _ _ => rfl) ?_ ?_ ?_
    · intro e other
      rw [count_cons_of_ne other]
    · simp only [count_cons_self]
      omega
    · simp only [count_cons_self]
      omega
    · dsimp only
      omega
  · intro e shut
    rw [Multiset.mem_cons, not_or]
    refine ⟨?_, b.fresh.2 e shut⟩
    rintro rfl
    exact b.fresh.2 e shut mem

/-- A descriptor is dropped, and its end closed; the reference is left. -/
theorem Balanced.drop (b : Balanced h (d ::ₘ o) u f m) : ∃ x h',
    h.files d = some x ∧ h.openFileDropDescriptor d = .ok h' ∧
    h'.files = update h.files d (some { x with
      descriptorCount := x.descriptorCount - 1 }) ∧ Balanced h' o u (d ::ₘ f) m := by
  obtain ⟨x, here⟩ := b.files.exists_file (.inl (mem_cons_self d o))
  have ref := b.files.ref d x here
  have desc := b.files.desc d x here
  simp only [count_cons_self] at ref desc
  have eq := openFileDropDescriptor_eq here (by omega) ?_ (b.noPair d x · here)
  · refine ⟨x, _, here, eq, by rw [files_setFile, addEnds_files], ?_⟩
    refine b.withEnds here ⟨rfl, rfl, rfl⟩ ?_ (b.pipes.closeEnds here) ⟨b.fresh.1, fun e shut opened =>
      b.fresh.2 e shut (mem_cons_of_mem opened)⟩
    refine b.files.set ?_ (fun _ _ => rfl) ?_ ?_ ?_ ?_
    · intro e other
      rw [count_cons_of_ne other]
    · intro e other
      rw [count_cons_of_ne other]
    · simp only [count_cons_self]
      omega
    · dsimp only
      omega
    · dsimp only
      omega
  · intro p kind
    obtain ⟨c, found⟩ := b.pipes.exists_pipe here kind
    refine ⟨c, found, ?_, ?_⟩
    · intro readable
      rw [b.pipes.readers p c found, countP_cons, reads_of_file here]
      simp [kind, readable]
    · intro writable
      rw [b.pipes.writers p c found, countP_cons, writes_of_file here]
      simp [kind, writable]

/-! ## Descriptions and pipes come and go -/

theorem mem_holders : d ∈ h.holders p ↔ h.onPipe p d = true := by
  simp [holders]

theorem holders_setFile_none (q : α) : (h.setFile d none).holders q = (h.holders q).erase d := by
  ext e
  rw [mem_erase, mem_holders, mem_holders]
  by_cases same : e = d <;> simp [onPipe, same]

theorem holders_setFile_some (q : α) : (h.setFile d (some y)).holders q =
    if y.kind = .pipe q then insert d (h.holders q) else (h.holders q).erase d := by
  ext e
  rw [mem_holders]
  split_ifs with kind
  · rw [mem_insert, mem_holders]
    by_cases same : e = d <;> simp [onPipe, same, kind]
  · rw [mem_erase, mem_holders]
    by_cases same : e = d <;> simp [onPipe, same, kind]

theorem not_mem_holders (missing : h.files d = none) (p : α) : d ∉ h.holders p := by
  simp [mem_holders, onPipe, missing]

/-- One pipe changes, and descriptions that no open descriptor names. -/
theorem PipeBooks.point {v : Option PipeRefs} (b : PipeBooks h o m)
    (pipes : h'.pipes = update h.pipes p v)
    (reads : ∀ q, ∀ d ∈ o, h'.reads q d = h.reads q d)
    (writes : ∀ q, ∀ d ∈ o, h'.writes q d = h.writes q d)
    (holders : ∀ q, q ≠ p → h'.holders q = h.holders q)
    (made : ∀ q, q ≠ p → m'.count q = m.count q) (once : m'.Nodup)
    (here : ∀ c, v = some c → c.readers = (o.countP fun d => h.reads p d) ∧
      c.writers = (o.countP fun d => h.writes p d) ∧
      c.refCount = (h'.holders p).card + m'.count p)
    (alive : v ≠ none ↔ (h'.holders p).Nonempty ∨ p ∈ m') : PipeBooks h' o m' := by
  have readers (q : α) : (o.countP fun d => h'.reads q d) = o.countP fun d => h.reads q d :=
    countP_congr rfl fun d mem => by rw [reads q d mem]
  have writers (q : α) : (o.countP fun d => h'.writes q d) = o.countP fun d => h.writes q d :=
    countP_congr rfl fun d mem => by rw [writes q d mem]
  constructor
  · intro q c there
    rw [readers]
    by_cases same : q = p
    · subst same
      rw [pipes, update_self] at there
      exact (here c there).1
    · rw [pipes, update_of_ne same] at there
      exact b.readers q c there
  · intro q c there
    rw [writers]
    by_cases same : q = p
    · subst same
      rw [pipes, update_self] at there
      exact (here c there).2.1
    · rw [pipes, update_of_ne same] at there
      exact b.writers q c there
  · intro q c there
    by_cases same : q = p
    · subst same
      rw [pipes, update_self] at there
      exact (here c there).2.2
    · rw [pipes, update_of_ne same] at there
      rw [holders q same, made q same]
      exact b.ref q c there
  · intro q
    by_cases same : q = p
    · subst same
      rw [pipes, update_self]
      exact alive
    · rw [pipes, update_of_ne same, holders q same, ← count_pos, made q same,
        count_pos]
      exact b.alive q
  · exact once

theorem PipeBooks.setFile (b : PipeBooks h o m) (unnamed : d ∉ o)
    (holders : ∀ q, (h.setFile d v).holders q = h.holders q) : PipeBooks (h.setFile d v) o m := by
  have other {e : α} (mem : e ∈ o) : e ≠ d := by
    rintro rfl
    exact unnamed mem
  constructor
  · intro q c there
    rw [countP_congr rfl fun e mem => by rw [reads_setFile_of_ne (other mem)]]
    exact b.readers q c there
  · intro q c there
    rw [countP_congr rfl fun e mem => by rw [writes_setFile_of_ne (other mem)]]
    exact b.writers q c there
  · intro q c there
    rw [holders q]
    exact b.ref q c there
  · intro q
    rw [holders q]
    exact b.alive q
  · exact b.once

/-- A new description of a file or a socket. -/
theorem Balanced.create {kind : FileKind α} {r w : Bool} (b : Balanced h o u f m)
    (free : h.files d = none) (plain : kind = .inode ∨ kind = .socket) :
    Balanced (h.openFileCreate d kind r w) (d ::ₘ o) u f m := by
  have none := (b.files.alive d).not.mp (by simp [free])
  simp only [not_or, ← count_eq_zero] at none
  have off (q : α) : kind ≠ .pipe q := by rcases plain with rfl | rfl <;> nofun
  have unnamed : d ∉ o := count_eq_zero.mp none.1
  have outside (q : α) := not_mem_holders free q
  have pipes : PipeBooks (h.openFileCreate d kind r w) o m := b.pipes.setFile unnamed fun q => by
    rw [holders_setFile_some, if_neg (off q), erase_eq_of_notMem (outside q)]
  have here : (h.openFileCreate d kind r w).files d = some ⟨1, 1, kind, r, w⟩ := by
    simp [openFileCreate]
  refine ⟨?_, ?_, b.noEnds, ?_, b.fresh.1, ?_⟩
  · refine b.files.set ?_ (fun _ _ => rfl) (fun _ _ => rfl) ?_ ?_ Int.one_pos
    · intro e other
      rw [count_cons_of_ne other]
    · simp [none]
    · simp [none]
  · refine { pipes with readers := ?_, writers := ?_ }
    · intro q c there
      rw [pipes.readers q c there, countP_cons, reads_of_file here]
      simp [off q]
    · intro q c there
      rw [pipes.writers q c there, countP_cons, writes_of_file here]
      simp [off q]
  · refine noPair_setFile b.noPair ?_
    rcases plain with rfl | rfl <;> nofun
  · intro e shut
    rw [Multiset.mem_cons, not_or]
    refine ⟨?_, b.fresh.2 e shut⟩
    rintro rfl
    exact count_eq_zero.mp none.2.1 shut

theorem Balanced.newPipe (b : Balanced h o u f m) (free : h.pipes p = none) :
    Balanced (h.setPipe p (some ⟨1, 0, 0⟩)) o u f (p ::ₘ m) := by
  have none := (b.pipes.alive p).not.mp (by simp [free])
  rw [not_or, not_nonempty_iff_eq_empty] at none
  obtain ⟨unheld, unmade⟩ := none
  have off (d : α) (_ : d ∈ o) : h.onPipe p d = false := by
    have out : d ∉ h.holders p := by simp [unheld]
    simpa [mem_holders] using out
  obtain ⟨readers, writers⟩ := countP_of_unopened off
  have same : (h.setPipe p (some ⟨1, 0, 0⟩)).holders p = ∅ := unheld
  refine ⟨b.files.congr rfl, ?_, b.noEnds, b.noPair, b.fresh⟩
  refine b.pipes.point rfl (fun _ _ _ => rfl) (fun _ _ _ => rfl) (fun _ _ => rfl) ?_ ?_ ?_ ?_
  · intro q other
    rw [count_cons_of_ne other]
  · exact nodup_cons.mpr ⟨unmade, b.pipes.once⟩
  · intro c there
    obtain rfl := some.inj there
    rw [same, readers, writers, count_cons_self, count_eq_zero_of_notMem unmade]
    exact ⟨rfl, rfl, rfl⟩
  · simp

/-- A new description of a pipe, for its creator. -/
theorem Balanced.newDescription {r w : Bool} (b : Balanced h o u f m) (free : h.files d = none)
    (made : p ∈ m) : ∃ h', (h.openFileCreate d (.pipe p) r w).pipeGet p = .ok h' ∧
      h'.files = update h.files d (some ⟨1, 1, .pipe p, r, w⟩) ∧
      Balanced h' o (d ::ₘ u) f m := by
  have none := (b.files.alive d).not.mp (by simp [free])
  simp only [not_or, ← count_eq_zero] at none
  have unnamed : d ∉ o := count_eq_zero.mp none.1
  have unshut : d ∉ u := count_eq_zero.mp none.2.1
  have other {e : α} (mem : e ∈ o) : e ≠ d := by
    rintro rfl
    exact unnamed mem
  obtain ⟨c, found⟩ := ne_none_iff_exists'.mp ((b.pipes.alive p).mpr (.inr made))
  have ref := b.pipes.ref p c found
  have one := count_pos.mpr made
  have more : 0 < c.refCount := by omega
  have files : FileBooks (h.openFileCreate d (.pipe p) r w) o (d ::ₘ u) f := by
    refine b.files.set (fun _ _ => rfl) ?_ (fun _ _ => rfl) ?_ ?_ Int.one_pos
    · intro e other
      rw [count_cons_of_ne other]
    · simp [none]
    · simp [none]
  refine ⟨(h.openFileCreate d (.pipe p) r w).setPipe p (some { c with refCount := c.refCount + 1 }),
    ?_, rfl, files.congr rfl, ?_, b.noEnds, ?_, ?_, ?_⟩
  · simp [pipeGet, openFileCreate, found, deref, check, more]
  · have now (q : α) : ((h.openFileCreate d (.pipe p) r w).setPipe p (some { c with
        refCount := c.refCount + 1 })).holders q =
        if p = q then insert d (h.holders q) else (h.holders q).erase d := by
      have here : (h.setFile d (some ⟨1, 1, .pipe p, r, w⟩)).holders q =
          if p = q then insert d (h.holders q) else (h.holders q).erase d := by
        simp [holders_setFile_some]
      exact here
    refine b.pipes.point rfl ?_ ?_ ?_ (fun _ _ => rfl) b.pipes.once ?_ ?_
    · intro q e mem
      exact reads_setFile_of_ne (other mem) q
    · intro q e mem
      exact writes_setFile_of_ne (other mem) q
    · intro q differs
      rw [now, if_neg (Ne.symm differs), erase_eq_of_notMem (not_mem_holders free q)]
    · intro c' there
      obtain rfl := some.inj there
      rw [now, if_pos rfl, card_insert_of_notMem (not_mem_holders free p)]
      refine ⟨b.pipes.readers p c found, b.pipes.writers p c found, ?_⟩
      push_cast
      omega
    · simp [made]
  · exact noPair_setFile b.noPair nofun
  · exact nodup_cons.mpr ⟨unshut, b.fresh.1⟩
  · intro e mem
    rcases mem_cons.mp mem with rfl | shut
    · exact unnamed
    · exact b.fresh.2 e shut

/-- The end of a new description is opened. -/
theorem Balanced.expose (b : Balanced h o (d ::ₘ u) f m) (here : h.files d = some x)
    (kind : x.kind = .pipe p) :
    h.pipeEndpointOpen p x.readable x.writable = .ok (h.addEnds x 1) ∧
      Balanced (h.addEnds x 1) (d ::ₘ o) u f m := by
  obtain ⟨c, found⟩ := b.pipes.exists_pipe here kind
  obtain ⟨unshut, once⟩ := nodup_cons.mp b.fresh.1
  constructor
  · simp [pipeEndpointOpen, addEnds, kind, found, deref]
  · refine ⟨?_, b.pipes.openEnds here, ?_, ?_, once, ?_⟩
    · refine FileBooks.congr ?_ (addEnds_files 1)
      constructor
      · intro e y there
        have ref := b.files.ref e y there
        by_cases same : e = d
        · subst same
          simp only [count_cons_self] at ref ⊢
          omega
        · simpa [count_cons_of_ne same] using ref
      · intro e y there
        have desc := b.files.desc e y there
        by_cases same : e = d
        · subst same
          simp only [count_cons_self] at desc ⊢
          omega
        · simpa [count_cons_of_ne same] using desc
      · intro e
        rw [b.files.alive e]
        simp only [Multiset.mem_cons]
        tauto
    · rw [addEnds_ends]
      exact b.noEnds
    · rw [addEnds_files]
      exact b.noPair
    · intro e shut
      rw [Multiset.mem_cons, not_or]
      refine ⟨?_, b.fresh.2 e (mem_cons_of_mem shut)⟩
      rintro rfl
      exact unshut shut

/-- A holder of a pipe, or its creator, goes. -/
theorem PipeBooks.dropRef (b : PipeBooks h o m)
    (found : h.pipes p = some c) (pipes : h'.pipes = (h.dropRef p c).pipes)
    (reads : ∀ q, ∀ d ∈ o, h'.reads q d = h.reads q d)
    (writes : ∀ q, ∀ d ∈ o, h'.writes q d = h.writes q d)
    (holders : ∀ q, q ≠ p → h'.holders q = h.holders q)
    (made : ∀ q, q ≠ p → m'.count q = m.count q) (once : m'.Nodup)
    (less : (h'.holders p).card + m'.count p + 1 = (h.holders p).card + m.count p) :
    PipeBooks h' o m' := by
  have ref := b.ref p c found
  refine b.point pipes reads writes holders made once ?_ ?_
  · intro c' there
    split at there
    · cases there
    · obtain rfl := some.inj there
      refine ⟨b.readers p c found, b.writers p c found, ?_⟩
      dsimp only
      omega
  · rw [← Finset.card_pos, ← Multiset.count_pos]
    split
    · simp only [ne_eq, not_true_eq_false, false_iff]
      omega
    · simp only [ne_eq, reduceCtorEq, not_false_eq_true, true_iff]
      omega

theorem Balanced.putCreator (b : Balanced h o u f (p ::ₘ m)) : ∃ h',
    h.pipePut p = .ok h' ∧ h'.files = h.files ∧ Balanced h' o u f m := by
  obtain ⟨c, found⟩ := ne_none_iff_exists'.mp
    ((b.pipes.alive p).mpr (.inr (mem_cons_self p m)))
  refine ⟨_, pipePut_eq found, rfl, b.files.congr rfl, ?_, b.noEnds, b.noPair, b.fresh⟩
  refine b.pipes.dropRef found rfl (fun _ _ _ => rfl) (fun _ _ _ => rfl) (fun _ _ => rfl) ?_
    (nodup_cons.mp b.pipes.once).2 ?_
  · intro q other
    rw [count_cons_of_ne other]
  · rw [count_cons_self]
    rfl

/-- The last reference of a description goes. -/
theorem Balanced.free (b : Balanced h o u (d ::ₘ f) m) (here : h.files d = some x)
    (last : x.refCount = 1) : ∃ h', h.openFilePut d = .ok h' ∧
      h'.files = update h.files d none ∧ Balanced h' o u f m := by
  have ref := b.files.ref d x here
  have desc := b.files.desc d x here
  rw [Multiset.count_cons_self] at ref
  have unnamed : d ∉ o := by
    rw [← Multiset.count_eq_zero]
    omega
  have other {e : α} (mem : e ∈ o) : e ≠ d := by
    rintro rfl
    exact unnamed mem
  have books : FileBooks (h.setFile d none) o u f := by
    refine b.files.point (fun _ _ => rfl) (fun _ _ => rfl) ?_ nofun ?_
    · intro e differs
      rw [Multiset.count_cons_of_ne differs]
    · simp only [ne_eq, not_true_eq_false, false_iff]
      omega
  have noPair (c : α) (y : OpenFile α) (e : α)
      (there : update h.files d none c = some y) : y.kind ≠ .socketpair e := by
    by_cases same : c = d
    · subst same
      rw [update_self] at there
      cases there
    · rw [update_of_ne same] at there
      exact b.noPair c y e there
  have put : h.openFilePut d = (do
      let h ← match x.kind with
        | .pipe p => h.pipePut p
        | .socketpair e => h.socketpairEndpointPut e
        | _ => pure h
      return h.setFile d none) := by
    have none : x.descriptorCount = 0 := by omega
    simp [openFilePut, here, deref, check, last, none]
  cases kind : x.kind with
  | socketpair e => exact absurd kind (b.noPair d x e here)
  | inode | socket =>
    refine ⟨h.setFile d none, by rw [put, kind]; rfl, rfl, books, ?_, b.noEnds, noPair, b.fresh⟩
    refine b.pipes.setFile unnamed fun q => ?_
    rw [holders_setFile_none, Finset.erase_eq_of_notMem]
    simp [mem_holders, onPipe_of_file here, kind]
  | pipe p =>
    obtain ⟨c, found⟩ := b.pipes.exists_pipe here kind
    refine ⟨(h.dropRef p c).setFile d none, ?_, rfl, books.congr rfl, ?_, b.noEnds, noPair, b.fresh⟩
    · rw [put, kind]
      simp [pipePut_eq found]
    · have now (q : α) : ((h.dropRef p c).setFile d none).holders q = (h.holders q).erase d :=
        holders_setFile_none q
      refine b.pipes.dropRef found rfl ?_ ?_ ?_ (fun _ _ => rfl) b.pipes.once ?_
      · intro q e mem
        exact reads_setFile_of_ne (other mem) q
      · intro q e mem
        exact writes_setFile_of_ne (other mem) q
      · intro q differs
        rw [now, Finset.erase_eq_of_notMem]
        simp [mem_holders, onPipe_of_file here, kind, Ne.symm differs]
      · have mem : d ∈ h.holders p := by simp [mem_holders, onPipe_of_file here, kind]
        have card := Finset.card_erase_add_one mem
        rw [now]
        omega

/-- `open_file_put`. -/
theorem Balanced.put (b : Balanced h o u (d ::ₘ f) m) : ∃ h' v, h.openFilePut d = .ok h' ∧
    h'.files = update h.files d v ∧
    (∀ y, v = some y → ∃ x, h.files d = some x ∧ SameObject x y) ∧ Balanced h' o u f m := by
  obtain ⟨x, here⟩ := b.files.exists_file (.inr (.inr (mem_cons_self d f)))
  by_cases last : x.refCount = 1
  · obtain ⟨h', put, files, balanced⟩ := b.free here last
    exact ⟨h', none, put, files, nofun, balanced⟩
  have ref := b.files.ref d x here
  have desc := b.files.desc d x here
  rw [count_cons_self] at ref
  refine ⟨h.setFile d (some { x with refCount := x.refCount - 1 }), _, ?_, rfl, ?_, ?_, ?_,
    b.noEnds, noPair_setFile b.noPair (b.noPair d x · here), b.fresh⟩
  · have more : 0 ≤ x.refCount - 1 := by omega
    have left : x.refCount - 1 ≠ 0 := by omega
    simp only [openFilePut, here, deref, check, if_pos more, if_pos left, ok_bind, pure_ok]
  · intro y there
    obtain rfl := some.inj there
    exact ⟨x, here, rfl, rfl, rfl⟩
  · refine b.files.set (fun _ _ => rfl) (fun _ _ => rfl) ?_ ?_ desc ?_
    · intro e other
      rw [count_cons_of_ne other]
    · dsimp only
      omega
    · dsimp only
      omega
  · exact b.pipes.recount here ⟨rfl, rfl, rfl⟩

/-- The only description of a pipe, whose end was never opened, loses its descriptor. -/
theorem Balanced.dropShut (b : Balanced h o (d ::ₘ u) f m) (here : h.files d = some x)
    (kind : x.kind = .pipe p) (only : ∀ e, h.onPipe p e = true → e = d) : ∃ h',
    h.openFileDropDescriptor d = .ok h' ∧ h'.files = update h.files d (some { x with
      descriptorCount := x.descriptorCount - 1 }) ∧ Balanced h' o u (d ::ₘ f) m := by
  have ref := b.files.ref d x here
  have desc := b.files.desc d x here
  simp only [count_cons_self] at ref desc
  obtain ⟨unshut, once⟩ := nodup_cons.mp b.fresh.1
  have unnamed : d ∉ o := b.fresh.2 d (mem_cons_self d u)
  obtain ⟨c, found⟩ := b.pipes.exists_pipe here kind
  have none (e : α) (mem : e ∈ o) : h.onPipe p e = false := by
    by_contra on
    rw [Bool.not_eq_false] at on
    rw [only e on] at mem
    exact unnamed mem
  obtain ⟨readers, writers⟩ := countP_of_unopened none
  have noReaders : c.readers = 0 := by rw [b.pipes.readers p c found, readers]; rfl
  have noWriters : c.writers = 0 := by rw [b.pipes.writers p c found, writers]; rfl
  refine ⟨_, openFileDropDescriptor_shut here (by omega) kind found noReaders noWriters, rfl, ?_,
    b.pipes.recount here ⟨rfl, rfl, rfl⟩, b.noEnds, noPair_setFile b.noPair (b.noPair d x · here),
    once, fun e shut => b.fresh.2 e (mem_cons_of_mem shut)⟩
  refine b.files.set (fun _ _ => rfl) ?_ ?_ ?_ ?_ ?_
  · intro e other
    rw [count_cons_of_ne other]
  · intro e other
    rw [count_cons_of_ne other]
  · simp only [count_cons_self]
    omega
  · dsimp only
    omega
  · dsimp only
    omega

theorem Balanced.use (b : Balanced h o u f m) (mem : d ∈ o ∨ d ∈ u ∨ d ∈ f) :
    h.openFileUse d = .ok () := by
  obtain ⟨x, here⟩ := b.files.exists_file mem
  cases kind : x.kind with
  | inode | socket => simp [openFileUse, here, deref, kind]
  | socketpair e => exact absurd kind (b.noPair d x e here)
  | pipe p =>
    obtain ⟨c, found⟩ := b.pipes.exists_pipe here kind
    simp [openFileUse, here, deref, kind, found]

end Heap

end Procore.Fs.Files
