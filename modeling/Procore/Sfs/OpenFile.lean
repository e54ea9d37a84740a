import Procore.Sfs.FlatFile

/-! # Open files

A descriptor names an open file description, which several descriptors may
share and which holds the position of the next `read` or `write`. The position
is kept apart from the file: another description may shorten the file below it,
and `pwrite` brings a position of its own. A write that starts behind the block
after the last one halts the machine.
-/

namespace Procore.Sfs

open Procore.Lib
open Prog (wp_bind wp_get)

/-- What the inode operations use of `struct open_file`. -/
structure OpenFile where
  node : Nat
  readable : Bool := true
  writable : Bool := true
  append : Bool := false
  pos : Int := 0

/-- The volume with the descriptors and open file descriptions on it. -/
structure Files where
  world : World
  fdArray : Nat → Option Nat
  description : Nat → OpenFile

abbrev FileM (α : Type) := Prog Files Errno Halt α

/-- A vnode operation, called by the file layer. -/
def onVolume {α : Type} (p : SfsM α) : FileM α := fun s =>
  match p s.world with
  | .done value w => .done value { s with world := w }
  | .failed e w => .failed e { s with world := w }
  | .halted reason => .halted reason

structure Stat where
  mode : FileType
  nlinks : Nat
  blocks : Nat
  size : Nat

def sfsFstat (ino : Nat) : SfsM Stat := do
  let sin ← getSin ino
  if sin.din.type = .inval then Prog.halt .invalidType
  else pure ⟨sin.din.type, sin.din.nlinks, sin.din.blocks, sin.din.size⟩

/-- `fd_acquire`, down to the description. -/
def fdAcquire (fd : Nat) : FileM Nat := do
  let s ← Prog.get
  match s.fdArray fd with
  | some d => pure d
  | none => Prog.fail .inval

def regularFileAcquire (fd : Nat) (readable writable : Bool) : FileM Nat := do
  let d ← fdAcquire fd
  let s ← Prog.get
  if readable && !(s.description d).readable || writable && !(s.description d).writable then
    Prog.fail .inval
  else pure d

def Files.withPos (s : Files) (d : Nat) (pos : Int) : Files :=
  { s with description := Function.update s.description d { s.description d with pos := pos } }

def setPos (d : Nat) (pos : Int) : FileM Unit := Prog.modify fun s => s.withPos d pos

/-- The bytes copied, or the error of the transfer. -/
def copied (done : Transfer) : FileM Nat :=
  match done.ret with
  | some e => Prog.fail e
  | none => pure done.alen

/-- The part of `file_write` under the semaphore of the description. -/
def writeDescription (d : Nat) (data : List UInt8) : FileM Nat := do
  let s ← Prog.get
  if (s.description d).append then do
    let stat ← onVolume (sfsFstat (s.description d).node)
    setPos d stat.size
  else pure ()
  let s ← Prog.get
  let done ← onVolume (sfsWrite (s.description d).node (s.description d).pos data)
  setPos d ((s.description d).pos + done.alen)
  copied done

def fileWrite (fd : Nat) (data : List UInt8) : FileM Nat := do
  let d ← fdAcquire fd
  let s ← Prog.get
  if (s.description d).writable then writeDescription d data else Prog.fail .inval

def filePwrite (fd : Nat) (data : List UInt8) (offset : Int) : FileM Nat :=
  if offset < 0 then Prog.fail .inval
  else do
    let d ← regularFileAcquire fd false true
    if data.length = 0 then pure 0
    else do
      let s ← Prog.get
      let done ← onVolume (sfsWrite (s.description d).node offset data)
      copied done

inductive Whence where
  | set
  | cur
  | fromEnd
  | invalid
  deriving DecidableEq, Repr

/-- The position that `file_seek` is asked for. Positions are 32-bit integers. -/
def seekTarget (file : OpenFile) (pos : Int) : Whence → FileM Int
  | .set => pure pos
  | .cur => pure ((pos + file.pos).bmod (2 ^ 32))
  | .fromEnd => do
    let stat ← onVolume (sfsFstat file.node)
    pure ((pos + stat.size).bmod (2 ^ 32))
  | .invalid => Prog.fail .inval

def fileSeek (fd : Nat) (pos : Int) (whence : Whence) : FileM Int := do
  let d ← fdAcquire fd
  let s ← Prog.get
  let pos ← seekTarget (s.description d) pos whence
  onVolume (sfsTryseek (s.description d).node pos)
  setPos d pos
  pure pos

def fileFtruncate (fd : Nat) (length : Int) : FileM Unit :=
  if length < 0 then Prog.fail .inval
  else do
    let d ← regularFileAcquire fd false true
    let s ← Prog.get
    onVolume (sfsTruncfile (s.description d).node length)

inductive FdCall where
  | write (fd : Nat) (data : { bytes : List UInt8 // bytes.length < 2 ^ 32 })
  | pwrite (fd : Nat) (data : { bytes : List UInt8 // bytes.length < 2 ^ 32 }) (offset : Int)
  | seek (fd : Nat) (pos : Int) (whence : Whence)
  | ftruncate (fd : Nat) (length : Int)

def FdCall.run : FdCall → FileM Unit
  | .write fd data => do
    let _ ← fileWrite fd data.val
    pure ()
  | .pwrite fd data offset => do
    let _ ← filePwrite fd data.val offset
    pure ()
  | .seek fd pos whence => do
    let _ ← fileSeek fd pos whence
    pure ()
  | .ftruncate fd length => fileFtruncate fd length

/-- How a call ends for which the outcomes of requests are drawn from `faults`. -/
def Files.outcome (s : Files) (call : FdCall × Faults) : Outcome Files Errno Halt Unit :=
  call.1.run { s with world := { s.world with faults := call.2 } }

/-- One call that returns, with an error or without. -/
def Files.step (s : Files) (call : FdCall × Faults) : Option Files :=
  match s.outcome call with
  | .done _ t => some t
  | .failed _ t => some t
  | .halted _ => none

/-- Where a `write` to the description starts. -/
def Files.start (s : Files) (d : Nat) : Int :=
  let file := s.description d
  if file.append then (s.world.fs.dinode file.node).size else file.pos

/-- A transfer to inode `i` that is not refused starts at a block of the file or at the
    block after the last one. -/
def Fs.Reaches (fs : Fs) (i : Nat) (offset : Int) (length : Nat) : Prop :=
  0 ≤ offset → offset < maxFileSize → 0 < length → offset.toNat / blksize ≤ (fs.dinode i).blocks

/-- A write starts inside the file or at most one block behind it. -/
def Files.StartsInside (s : Files) : FdCall × Faults → Prop
  | (.write fd data, _) => ∀ d ∈ s.fdArray fd,
      s.world.fs.Reaches (s.description d).node (s.start d) data.val.length
  | (.pwrite fd data offset, _) => ∀ d ∈ s.fdArray fd,
      s.world.fs.Reaches (s.description d).node offset data.val.length
  | _ => True

instance (fs : Fs) (i : Nat) (offset : Int) (length : Nat) : Decidable (fs.Reaches i offset length) :=
  inferInstanceAs (Decidable (_ → _ → _ → _))

instance (s : Files) : (call : FdCall × Faults) → Decidable (s.StartsInside call)
  | (.write _ _, _) => inferInstanceAs (Decidable (∀ _ ∈ _, _))
  | (.pwrite _ _ _, _) => inferInstanceAs (Decidable (∀ _ ∈ _, _))
  | (.seek _ _ _, _) => isTrue trivial
  | (.ftruncate _ _, _) => isTrue trivial

/-- Inode `i` is a file in memory whose blocks are all there. -/
structure AFs.Regular (A : AFs) (i : Nat) : Prop where
  cached : ∃ r, A.refs i = some r
  dense : A.Dense i
  type : (A.info i).type ≠ .dir

/-- The volume stands for `A`, and every descriptor is open on a file. -/
structure Files.Stands (s : Files) (A : AFs) : Prop where
  rep : Rep False ∅ A s.world.fs
  opened : ∀ fd, ∀ d ∈ s.fdArray fd, A.Regular (s.description d).node

/-- The volume is consistent, and every descriptor is open on a file. -/
def Files.Opened (s : Files) : Prop := ∃ A, s.Stands A

section Calls

variable {s : Files} {A A' : AFs} {i d fd : Nat}

theorem AFs.Regular.touched (h : A.Regular fd) (touched : A.Touched i A') : A'.Regular fd := by
  by_cases same : fd = i
  · subst same
    obtain ⟨r, refs⟩ := h.cached
    exact ⟨⟨r, touched.refs_self.trans refs⟩, touched.dense h.dense, touched.type ▸ h.type⟩
  obtain ⟨r, refs⟩ := h.cached
  refine ⟨⟨r, (touched.refs fd same).trans refs⟩, ?_, ?_⟩
  · intro k inside
    rw [touched.info fd same] at inside
    rw [touched.content fd same]
    exact h.dense k inside
  · rw [touched.info fd same]
    exact h.type

theorem Files.Stands.touched {w : World} (h : s.Stands A) (touched : A.Touched i A')
    (ok : Ok False ∅ A' w) : Files.Stands { s with world := w } A' where
  rep := ok.rep
  opened fd d mem := (h.opened fd d mem).touched touched

variable {H : Halt → Prop} {E : Errno → Files → Prop}

theorem wp_onVolume {α : Type} {p : SfsM α} {Q : α → Files → Prop} : (onVolume p).wp H Q E s ↔
      p.wp H (fun value w => Q value { s with world := w }) (fun e w => E e { s with world := w })
        s.world := by
  simp only [Prog.wp, onVolume]
  cases p s.world <;> rfl

/-- Every halt but the one of `sfs_bmap_load_nolock`. -/
def NotPast (reason : Halt) : Prop := reason ≠ .pastBlocks

instance (reason : Halt) : Decidable (NotPast reason) := inferInstanceAs (Decidable (_ ≠ _))

/-- What every call ensures: it does not halt past the blocks of a file, and leaves the
    descriptors open. -/
def Files.Safe {α : Type} (s : Files) (p : FileM α) : Prop :=
  p.wp NotPast (fun _ t => t.Opened) (fun _ t => t.Opened) s

variable {data : List UInt8}

section

variable (h : s.Stands A) (regular : A.Regular i)
include h regular

theorem Files.Stands.write {offset : Int} (width : data.length < 2 ^ 32)
    (reaches : s.world.fs.Reaches i offset data.length) :
    (onVolume (sfsWrite i offset data)).wp NotPast
      (fun _ t => ∃ w A', t = { s with world := w } ∧ t.Stands A') (fun _ _ => False) s := by
  have ok : Ok False ∅ A s.world := ⟨h.rep, False.elim⟩
  obtain ⟨r, refs⟩ := regular.cached
  obtain ⟨-, -, -, live, -⟩ := ok.cached refs
  have blocks : (s.world.fs.dinode i).blocks = (A.info i).blocks := by
    rw [← (h.rep.node i live).info]
    rfl
  have supply : Supplies (fun x => data.getD (x - offset.toNat) 0) (some data) offset.toNat
      data.length := by
    intro given eq
    cases eq
    exact ⟨le_refl _, fun j _ => by simp⟩
  rw [wp_onVolume, sfsWrite]
  apply (sfsIo_spec ok refs regular.dense width supply (.inl regular.type) ?_
    (.inr (by decide)) (fun _ => by decide)).mono
  · intro done w moved
    obtain ⟨-, A', ok', result⟩ := moved
    refine ⟨w, A', rfl, ?_⟩
    cases result with
    | inl idle =>
      obtain ⟨rfl, -⟩ := idle
      exact h.touched (.refl A' i) ok'
    | inr io => exact h.touched io.2.1.touched ok'
  · exact fun _ _ h => h
  · intro low high nonempty
    rw [← blocks]
    exact .inl (reaches low high nonempty)

theorem Files.Stands.truncate {len : Int} : (onVolume (sfsTruncfile i len)).wp NotPast
      (fun _ t => ∃ w A', t = { s with world := w } ∧ t.Stands A')
      (fun _ t => t.Opened) s := by
  have ok : Ok False ∅ A s.world := ⟨h.rep, False.elim⟩
  obtain ⟨r, refs⟩ := regular.cached
  rw [wp_onVolume]
  apply (sfsTruncfile_spec ok refs regular.dense regular.type (.inr (by decide))
    (fun _ => .inr (by decide)) (fun _ => by decide)).mono
  · intro _ w resized
    obtain ⟨-, -, A', done, ok'⟩ := resized
    exact ⟨w, A', rfl, h.touched done.toTouched ok'⟩
  · intro _ w failed
    obtain ⟨-, A', touched, -, ok'⟩ := failed
    exact ⟨A', h.touched touched ok'⟩

theorem Files.Stands.tryseek {pos : Int} : (onVolume (sfsTryseek i pos)).wp NotPast
      (fun _ t => ∃ w A', t = { s with world := w } ∧ t.Stands A')
      (fun _ t => t.Opened) s := by
  have ok : Ok False ∅ A s.world := ⟨h.rep, False.elim⟩
  obtain ⟨r, refs⟩ := regular.cached
  rw [wp_onVolume]
  apply (sfsTryseek_spec ok refs regular.dense regular.type (.inr (by decide))
    (fun _ => by decide)).mono
  · intro _ w sought
    obtain ⟨-, -, A', result, ok'⟩ := sought
    refine ⟨w, A', rfl, ?_⟩
    cases result with
    | inl inside =>
      obtain ⟨rfl, -⟩ := inside
      exact h.touched (.refl A' i) ok'
    | inr grown => exact h.touched grown.2.toTouched ok'
  · intro _ w failed
    obtain ⟨-, A', touched, -, ok'⟩ := failed
    exact ⟨A', h.touched touched ok'⟩

theorem Files.Stands.fstat : (onVolume (sfsFstat i)).wp NotPast
      (fun stat t => t = s ∧ stat.size = (s.world.fs.dinode i).size) (fun _ _ => False) s := by
  have ok : Ok False ∅ A s.world := ⟨h.rep, False.elim⟩
  obtain ⟨r, refs⟩ := regular.cached
  obtain ⟨sin, cache, -, -, -⟩ := ok.cached refs
  rw [wp_onVolume, sfsFstat, wp_bind, wp_getSin cache, s.world.fs.dinode_of_cached cache]
  split
  · exact (by decide : NotPast .invalidType)
  · exact ⟨rfl, rfl⟩

end

@[simp] theorem Files.pos_withPos (d : Nat) (pos : Int) :
    ((s.withPos d pos).description d).pos = pos := by
  simp [Files.withPos]

@[simp] theorem Files.node_withPos (d d' : Nat) (pos : Int) :
    ((s.withPos d pos).description d').node = (s.description d').node := by
  by_cases same : d' = d
  · subst same
    simp [Files.withPos]
  · simp [Files.withPos, same]

theorem Files.Stands.withPos (h : s.Stands A) (d : Nat) (pos : Int) : (s.withPos d pos).Stands A := by
  refine ⟨h.rep, fun fd d' mem => ?_⟩
  rw [Files.node_withPos]
  exact h.opened fd d' mem

theorem copied_safe (opened : s.Opened) (done : Transfer) : s.Safe (copied done) := by
  unfold Files.Safe copied
  split
  · exact opened
  · exact opened

variable {Q : Nat → Files → Prop}

theorem wp_fdAcquire (found : ∀ d ∈ s.fdArray fd, Q d s) (absent : E .inval s) :
    (fdAcquire fd).wp H Q E s := by
  simp only [fdAcquire, wp_bind, wp_get]
  cases entry : s.fdArray fd with
  | none => exact absent
  | some d => exact found d entry

theorem wp_regularFileAcquire {readable writable : Bool} (found : ∀ d ∈ s.fdArray fd, Q d s)
    (absent : E .inval s) :
    (regularFileAcquire fd readable writable).wp H Q E s := by
  simp only [regularFileAcquire, wp_bind]
  apply wp_fdAcquire
  · intro d mem
    rw [wp_get]
    split
    · exact absent
    · exact found d mem
  · exact absent

/-- A write at the position of the description. -/
theorem Files.Stands.writeAt (h : s.Stands A)
    (regular : A.Regular (s.description d).node) (width : data.length < 2 ^ 32)
    (reaches : s.world.fs.Reaches (s.description d).node (s.description d).pos data.length) :
    s.Safe (do
      let done ← onVolume (sfsWrite (s.description d).node (s.description d).pos data)
      setPos d ((s.description d).pos + done.alen)
      copied done) := by
  apply (h.write regular width reaches).bind
  · intro done t wrote
    obtain ⟨w, A', rfl, stands⟩ := wrote
    exact copied_safe ⟨A', stands.withPos d _⟩ done
  · exact fun _ _ impossible => impossible.elim

theorem fileWrite_safe (h : s.Opened) (width : data.length < 2 ^ 32) (reaches : ∀ d ∈ s.fdArray fd,
      s.world.fs.Reaches (s.description d).node (s.start d) data.length) :
    s.Safe (fileWrite fd data) := by
  obtain ⟨A, stands⟩ := h
  unfold Files.Safe
  simp only [fileWrite, wp_bind]
  apply wp_fdAcquire
  · intro d mem
    have regular := stands.opened fd d mem
    have reach := reaches d mem
    rw [wp_get]
    by_cases writable : (s.description d).writable = true
    · rw [if_pos writable, writeDescription, wp_bind, wp_get]
      by_cases append : (s.description d).append = true
      · -- The position is moved to the end of the file first.
        rw [Files.start, if_pos append] at reach
        rw [if_pos append]
        apply (stands.fstat regular).bind
        · intro stat t known
          obtain ⟨rfl, size⟩ := known
          apply (stands.withPos d stat.size).writeAt ?_ width ?_
          · rwa [Files.node_withPos]
          · rw [Files.node_withPos, Files.pos_withPos, size]
            exact reach
        · exact fun _ _ impossible => impossible.elim
      · rw [Files.start, if_neg append] at reach
        rw [if_neg append]
        exact stands.writeAt regular width reach
    · rw [if_neg writable]
      exact ⟨A, stands⟩
  · exact ⟨A, stands⟩

theorem filePwrite_safe {offset : Int} (h : s.Opened) (width : data.length < 2 ^ 32)
    (reaches : ∀ d ∈ s.fdArray fd, s.world.fs.Reaches (s.description d).node offset data.length) :
    s.Safe (filePwrite fd data offset) := by
  obtain ⟨A, stands⟩ := h
  unfold Files.Safe filePwrite
  split
  · exact ⟨A, stands⟩
  rw [wp_bind]
  apply wp_regularFileAcquire
  · intro d mem
    split
    · exact ⟨A, stands⟩
    apply (stands.write (stands.opened fd d mem) width (reaches d mem)).bind
    · intro done t wrote
      obtain ⟨w, A', rfl, after⟩ := wrote
      exact copied_safe ⟨A', after⟩ done
    · exact fun _ _ impossible => impossible.elim
  · exact ⟨A, stands⟩

theorem fileSeek_safe {pos : Int} {whence : Whence} (h : s.Opened) :
    s.Safe (fileSeek fd pos whence) := by
  obtain ⟨A, stands⟩ := h
  unfold Files.Safe fileSeek
  rw [wp_bind]
  apply wp_fdAcquire
  · intro d mem
    have regular := stands.opened fd d mem
    have sought (target : Int) : s.Safe (do
        onVolume (sfsTryseek (s.description d).node target)
        setPos d target
        pure target) := by
      apply (stands.tryseek regular).bind
      · intro _ t done
        obtain ⟨w, A', rfl, after⟩ := done
        exact ⟨A', after.withPos d target⟩
      · exact fun _ _ opened => opened
    rw [wp_bind, wp_get, wp_bind]
    cases whence with
    | set => exact sought pos
    | cur => exact sought _
    | fromEnd =>
      apply (stands.fstat regular).bind
      · intro stat t known
        obtain ⟨rfl, -⟩ := known
        exact sought _
      · exact fun _ _ impossible => impossible.elim
    | invalid => exact ⟨A, stands⟩
  · exact ⟨A, stands⟩

theorem fileFtruncate_safe {length : Int} (h : s.Opened) : s.Safe (fileFtruncate fd length) := by
  obtain ⟨A, stands⟩ := h
  unfold Files.Safe fileFtruncate
  split
  · exact ⟨A, stands⟩
  rw [wp_bind]
  apply wp_regularFileAcquire
  · intro d mem
    apply (stands.truncate (stands.opened fd d mem)).mono
    · intro _ t done
      obtain ⟨w, A', rfl, after⟩ := done
      exact ⟨A', after⟩
    · exact fun _ _ opened => opened
  · exact ⟨A, stands⟩

theorem Files.Safe.ignore {α : Type} {p : FileM α} (h : s.Safe p) : s.Safe (do
    let _ ← p
    pure ()) := by
  unfold Files.Safe at h ⊢
  rwa [wp_bind]

variable {call : FdCall × Faults}

theorem FdCall.safe (h : s.Opened) (inside : s.StartsInside call) :
    Files.Safe { s with world := { s.world with faults := call.2 } } call.1.run := by
  obtain ⟨A, stands⟩ := h
  have opened : Files.Opened { s with world := { s.world with faults := call.2 } } :=
    ⟨A, stands.rep, stands.opened⟩
  obtain ⟨call, faults⟩ := call
  cases call with
  | write fd data => exact (fileWrite_safe opened data.property inside).ignore
  | pwrite fd data offset => exact (filePwrite_safe opened data.property inside).ignore
  | seek fd pos whence => exact (fileSeek_safe opened).ignore
  | ftruncate fd length => exact fileFtruncate_safe opened

theorem Files.step_opened {t : Files} (h : s.Opened)
    (inside : s.StartsInside call) (taken : s.step call = some t) : t.Opened := by
  have safe := FdCall.safe h inside
  unfold Files.Safe Prog.wp at safe
  unfold Files.step Files.outcome at taken
  split at taken
  · rename_i ended
    cases taken
    rwa [ended] at safe
  · rename_i ended
    cases taken
    rwa [ended] at safe
  · cases taken

end Calls

/-- In a run in which every write starts inside the file or at the block behind it, no call
    fails the assertion of `sfs_bmap_load_nolock`. -/
theorem write_stays_in_blocks {s t : Files} {calls : List (FdCall × Faults)} {call : FdCall × Faults}
    (start : s.Opened) (inside : Along Files.step Files.StartsInside s (calls ++ [call]))
    (run : runFrom Files.step s calls = some t) :
    (t.outcome call).haltReason ≠ some .pastBlocks := by
  obtain ⟨before, last⟩ := along_append inside run
  have opened : t.Opened :=
    runFrom_invariant (fun _ _ _ h cond taken => Files.step_opened h cond taken) start before run
  intro halts
  exact (FdCall.safe opened last.1).halts halts rfl

/-- An empty file that is open twice. -/
def openTwice : Files where
  world := { fs := emptyFileImage.fs }
  fdArray fd := if fd < 2 then some fd else none
  description _ := { node := 6 }

theorem openTwice_opened : openTwice.Opened := by
  obtain ⟨A, r, rep, refs, flat⟩ := emptyFileImage_holds
  exact ⟨A, rep, fun _ _ _ => ⟨⟨r, refs⟩, flat.dense, flat.regular⟩⟩

/-- Grow the file through one descriptor, cut it through the other and write at its end. -/
def growAndCut : List (FdCall × Faults) :=
  [(.seek 1 5000 .set, {}), (.write 1 ⟨[7], by decide⟩, {}), (.ftruncate 0 4096, {})]

theorem write_stays_in_blocks_growAndCut : ∃ t,
    runFrom Files.step openTwice growAndCut = some t ∧
      (t.outcome (.pwrite 0 ⟨[8], by decide⟩ 5000, {})).haltReason ≠ some .pastBlocks := by
  refine exists_run (by decide +kernel) fun t run => ?_
  exact write_stays_in_blocks openTwice_opened (by decide +kernel) run

/-- A position past the end, left there by a cut or given to `pwrite`, halts the machine. -/
theorem write_past_end_halts : openTwice.Opened ∧
    (openTwice.outcome (.pwrite 0 ⟨[8], by decide⟩ 8192, {})).haltReason = some .pastBlocks ∧
    (runFrom Files.step openTwice [(.seek 1 5000 .set, {}), (.ftruncate 0 0, {})]).map
      (fun t => (t.outcome (.write 1 ⟨[7], by decide⟩, {})).haltReason) =
        some (some .pastBlocks) := by
  refine ⟨openTwice_opened, ?_, ?_⟩
  · decide +kernel
  · decide +kernel

end Procore.Sfs
