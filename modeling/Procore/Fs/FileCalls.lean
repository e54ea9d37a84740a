import Procore.Fs.FileCounts
import Mathlib.Algebra.BigOperators.Group.Finset.Piecewise

/-! # The calls on descriptor tables keep the counts

Every call, in every interleaving of its sections with those of the others, finds the
objects that it uses and keeps the counts equal to the numbers of references. A
socket pair does not: its two endpoints point to both pipes, and each pipe counts
one of them.
-/

namespace Procore.Fs.Files

open Procore.Lib State Multiset Option Finset List Heap
open Function (update update_eq_self update_of_ne update_self)

variable {τ α : Type} {n : Nat}

namespace State

variable {s s' : State τ α n} {t : τ} {a d p : α} {fd : Fin n} {files : FilesStruct α n}

theorem slot_of_table (table : s.tables a = some files) (fd : Fin n) :
    s.slot a fd = files.fdArray fd := by
  rw [slot, table]

theorem slot_of_fd2file {k : Int} (found : files.fd2file k = some (fd, d)) :
    files.fdArray fd = .fdOpened d := by
  rw [FilesStruct.fd2file] at found
  split at found
  · cases found
  split at found
  · rename_i here
    simp only [Option.some.injEq, Prod.mk.injEq] at found
    rw [← found.1, ← found.2]
    exact here
  · cases found

theorem testfd_inj {k k' : Int} {fd : Fin n} (first : testfd n k = some fd)
    (second : testfd n k' = some fd) : k = k' := by
  simp only [testfd, dite_none_right_eq_some, some.injEq] at first second
  obtain ⟨valid, eq⟩ := first
  obtain ⟨valid', eq'⟩ := second
  have same : k.toNat = k'.toNat := by rw [Fin.ext_iff] at eq eq'; exact eq.trans eq'.symm
  omega

theorem testfd_of_fd2file {k : Int} (found : files.fd2file k = some (fd, d)) :
    testfd n k = some fd := by
  rw [FilesStruct.fd2file] at found
  split at found
  · cases found
  rename_i valid
  split at found
  · simp only [Option.some.injEq, Prod.mk.injEq] at found
    rw [valid, found.1]
  · cases found

section

variable [DecidableEq α]

theorem slot_of_alloc (found : files.fdArrayAlloc = some fd) :
    files.fdArray fd = .fdNone := by
  have here := find?_some found
  simpa using here

theorem onPipe_of_ne {heap : Heap α} {e : α} {v : Option (OpenFile α)}
    (files : heap.files = update s.heap.files d v) (other : e ≠ d) (p : α) :
    heap.onPipe p e = s.heap.onPipe p e := by
  simp [onPipe, files, other]

theorem tables_setSlot (table : s.tables a = some files) (fd : Fin n) (v : Slot α) :
    ∃ files', (s.setSlot a fd v).tables a = some files' ∧ files'.filesCount = files.filesCount := by
  rw [setSlot_eq table]
  exact ⟨{ files with fdArray := update files.fdArray fd v }, by simp [setTable], rfl⟩

theorem tasks_setSlot (table : s.tables a = some files) (v : Slot α) :
    (s.setSlot a fd v).tasks = s.tasks := by
  rw [setSlot_eq table]
  rfl

/-! ## Tables come and go -/

theorem slot_setTable {files : Option (FilesStruct α n)} (b : α) (k : Fin n) :
    (s.setTable a files).slot b k = if b = a then (match files with
      | some files => files.fdArray k
      | none => .fdNone) else s.slot b k := by
  by_cases same : b = a
  · subst same
    cases files <;> simp [slot, setTable]
  · simp [slot, setTable, same]

theorem slot_setTable_eq {f : Option (FilesStruct α n)} (same : ∀ k, s.slot a k = match f with
      | some files => files.fdArray k
      | none => .fdNone) (b : α) (k : Fin n) : (s.setTable a f).slot b k = s.slot b k := by
  rw [slot_setTable]
  split
  · next here => rw [here, same]
  · rfl

variable [Fintype τ] {own : τ → List (Fin n)}

theorem Tables.newTable (h : s.Tables own) (free : s.tables a = none) :
    (s.setTable a (some ⟨0, fun _ => .fdNone⟩)).Tables own := by
  refine h.rebase (slot_setTable_eq fun k => by rw [slot, free]) (fun _ _ => rfl) (h.counted (fun _ _ => some_ne_none _) ?_)
  rintro _ ⟨⟩
  have unused : (univ.filter fun v => (s.tasks v).filesp = some a) = ∅ := by
    rw [filter_eq_empty_iff]
    intro v _ mine
    exact h.table v a mine free
  exact congrArg Nat.cast (card_eq_zero.mpr unused).symm

theorem Tables.freeTable (h : s.Tables own) (unused : ∀ v, (s.tasks v).filesp ≠ some a)
    (empty : ∀ fd, s.slot a fd = .fdNone) : (s.setTable a none).Tables own :=
  h.rebase (slot_setTable_eq empty) (fun _ _ => rfl) (h.counted (fun v mine => absurd mine (unused v)) (by simp))

variable [DecidableEq τ] {v : τ}

/-- How many tasks have a table, after one of them has changed. -/
theorem card_sharers (b : α) (same : ∀ w, w ≠ v → (s'.tasks w).filesp = (s.tasks w).filesp) :
    (univ.filter fun w => (s'.tasks w).filesp = some b).card +
      (if (s.tasks v).filesp = some b then 1 else 0) =
    (univ.filter fun w => (s.tasks w).filesp = some b).card +
      (if (s'.tasks v).filesp = some b then 1 else 0) := by
  apply card_filter_point (mem_univ v)
  intro w _ other
  rw [same w other]

/-- A task without reserved descriptors gets a table or leaves it. -/
theorem Tables.setTask {task : Task α n} {count : Int}
    (h : s.Tables own) (idle : own v = []) (table : s.tables a = some files)
    (mine : task.filesp = none ∨ task.filesp = some a)
    (before : (s.tasks v).filesp = none ∨ (s.tasks v).filesp = some a)
    (counts : count + (if (s.tasks v).filesp = some a then 1 else 0) =
      files.filesCount + (if task.filesp = some a then 1 else 0)) :
    Tables { s.setTable a (some { files with filesCount := count }) with
      tasks := update s.tasks v task } own := by
  generalize result : ({ s.setTable a (some { files with filesCount := count }) with
      tasks := update s.tasks v task } : State τ α n) = s'
  have other (w : τ) (differs : w ≠ v) : s'.tasks w = s.tasks w := by
    rw [← result]
    exact update_of_ne differs _ _
  have self : s'.tasks v = task := by
    rw [← result]
    exact update_self ..
  have slots (b : α) (k : Fin n) : s'.slot b k = s.slot b k := by
    rw [← result]
    exact slot_setTable_eq (slot_of_table table) b k
  have tables (b : α) : s'.tables b = if b = a then some { files with filesCount := count }
      else s.tables b := by
    rw [← result]
    by_cases same : b = a <;> simp [setTable, same]
  have same (w : τ) (differs : w ≠ v) : (s'.tasks w).filesp = (s.tasks w).filesp := by
    rw [other w differs]
  have sharers (b : α) := card_sharers b same
  refine h.rebase slots (fun w busy => same w ?_) ⟨?_, ?_⟩
  · rintro rfl
    exact busy idle
  · intro w b here
    rw [tables]
    split_ifs with differs
    · exact some_ne_none _
    by_cases same : w = v
    · subst same
      rw [self] at here
      rcases mine with none | some
      · rw [none] at here
        cases here
      · exact absurd (Option.some.inj (here.symm.trans some)) differs
    · rw [other w same] at here
      exact h.table w b here
  · intro b files' there
    have card := sharers b
    rw [tables] at there
    rw [self] at card
    split at there
    · rename_i same
      subst same
      have now := h.count b files table
      obtain rfl := some.inj there
      dsimp only
      split_ifs at card counts <;> omega
    · rename_i differs
      have now := h.count b files' there
      have gone {filesp : Option α} (mine : filesp = none ∨ filesp = some a) : filesp ≠ some b := by
        rcases mine with none | some
        · rw [none]
          exact (some_ne_none b).symm
        · rw [some]
          exact fun same => differs (Option.some.inj same).symm
      rw [if_neg (gone before), if_neg (gone mine)] at card
      rw [now]
      exact_mod_cast card.symm

end

/-! ## Sections of calls -/

variable [DecidableEq τ] [DecidableEq α] [Fintype τ] [Fintype α] {o o' u u' f f' m m' : Multiset α}
  {own : τ → List (Fin n)} {r : List (Fin n)} {pc : Pc α n}

/-- The section does not fault and keeps the invariant. -/
abbrev Keeps (result : Except Fault (State τ α n)) : Prop := ∃ s', result = .ok s' ∧ s'.Inv

theorem onHeap_ok {heap : Heap α} {result : Except Fault (Heap α)} (done : result = .ok heap)
    (inv : { s with heap := heap }.InvAt t pc.opens pc.shut pc.flying pc.makes pc.reserved)
    (made : pc.Made heap) : Keeps (s.onHeap t pc result) := by
  refine ⟨_, ?_, inv.leave pc made⟩
  rw [onHeap, done]
  rfl

theorem Inv.put {ds : List α} (h : s.Inv) (here : (s.tasks t).pc = .putting (d :: ds)) :
    Keeps (s.onHeap t (afterPut ds) (s.heap.openFilePut d)) := by
  have inv : s.InvAt t 0 0 (d ::ₘ ds) 0 [] := h.take t here
  obtain ⟨heap, done, older, held⟩ := inv.held.put
  cases ds with
  | nil | cons e ds => exact onHeap_ok done (inv.older held older) trivial

theorem Inv.release (h : s.Inv) (here : (s.tasks t).pc = .busy d) :
    Keeps (s.onHeap t .idle (s.heap.openFilePut d)) := by
  have inv : s.InvAt t 0 0 (d ::ₘ 0) 0 [] := h.take t here
  obtain ⟨heap, done, older, held⟩ := inv.held.put
  exact onHeap_ok done (inv.older held older) trivial

variable {fds : List (Fin n)}

theorem InvAt.leavePlain (h : s.InvAt t 0 0 0 0 fds) (plain : pc.Plain fds) :
    (s.setPc t pc).Inv := by
  obtain ⟨opens, shut, flying, makes, reserved, made⟩ := plain
  refine InvAt.leave pc ?_ (made _)
  rw [opens, shut, flying, makes, reserved]
  exact h

theorem InvAt.reserveSlot (h : s.InvAt t o u f m r)
    (table : s.tables a = some files) (mine : (s.tasks t).filesp = some a)
    (free : files.fdArray fd = .fdNone) : (s.setSlot a fd .fdInit).InvAt t o u f m (fd :: r) := by
  have slot : s.slot a fd = .fdNone := by rw [slot_of_table table, free]
  refine h.setSlot table ?_ (h.tables.reserve table mine slot)
  simp [slot, Slot.files]

section

variable (h : s.Inv) (here : s.tasks t = ⟨some a, .idle⟩)
include h here

theorem Inv.idle : s.InvAt t 0 0 0 0 [] := by
  have pc : (s.tasks t).pc = .idle := by rw [here]
  exact h.take t pc

omit [DecidableEq τ] in
theorem Inv.current : ∃ files, (s.tasks t).filesp = some a ∧ s.tables a = some files ∧ s.currentFiles a = .ok files := by
  have mine : (s.tasks t).filesp = some a := by rw [here]
  obtain ⟨files, current⟩ := h.tables.currentFiles mine
  exact ⟨files, mine, current⟩

theorem Inv.fileClose (k : Int) : Keeps (s.fileClose t a k) := by
  obtain ⟨files, -, table, current⟩ := h.current here
  cases found : files.fd2file k with
  | none => exact ⟨s, by simp [State.fileClose, current, found], h⟩
  | some slot =>
    obtain ⟨fd, d⟩ := slot
    have opened : s.slot a fd = .fdOpened d := by
      rw [slot_of_table table, slot_of_fd2file found]
    obtain ⟨heap, closed, inv⟩ := (h.idle here).fdArrayClose table opened
    refine ⟨_, ?_, InvAt.leave (.putting [d]) inv trivial⟩
    simp [State.fileClose, current, found, closed]

theorem Inv.fdAcquire (k : Int) : Keeps (s.fdAcquire t a k) := by
  obtain ⟨files, -, table, current⟩ := h.current here
  cases found : files.fd2file k with
  | none => exact ⟨s, by simp [State.fdAcquire, current, found], h⟩
  | some slot =>
    obtain ⟨fd, d⟩ := slot
    have opened : s.slot a fd = .fdOpened d := by
      rw [slot_of_table table, slot_of_fd2file found]
    have inv := h.idle here
    obtain ⟨heap, got, older, held⟩ := inv.held.get (mem_named opened)
    refine ⟨_, ?_, InvAt.leave (.busy d) (inv.older held older) trivial⟩
    simp [State.fdAcquire, current, found, got]

theorem Inv.reserve {next : Fin n → Pc α n}
    (plain : ∀ fd, (next fd).Plain [fd]) : Keeps (s.reserve t a next) := by
  obtain ⟨files, mine, table, current⟩ := h.current here
  cases found : files.fdArrayAlloc with
  | none => exact ⟨s, by simp [State.reserve, current, found], h⟩
  | some fd =>
    have inv := (h.idle here).reserveSlot table mine (slot_of_alloc found)
    refine ⟨_, ?_, inv.leavePlain (plain fd)⟩
    simp [State.reserve, current, found]

theorem Inv.reserveTwo {next : Fin n → Fin n → Pc α n} (plain : ∀ fd k, (next fd k).Plain [fd, k]) :
    Keeps (s.reserveTwo t a next) := by
  obtain ⟨files, mine, table, current⟩ := h.current here
  cases found : files.fdArrayAlloc with
  | none =>
    exact ⟨s, by simp [State.reserveTwo, current, found], h⟩
  | some first =>
    have one := (h.idle here).reserveSlot table mine (slot_of_alloc found)
    have after : (s.setSlot a first .fdInit).tables a = some { files with
        fdArray := update files.fdArray first .fdInit } := by
      rw [setSlot_eq table]
      simp [setTable]
    have mine' : ((s.setSlot a first .fdInit).tasks t).filesp = some a := by
      rw [setSlot_eq table]
      exact mine
    cases again : ({ files with
        fdArray := update files.fdArray first .fdInit } : FilesStruct α n).fdArrayAlloc with
    | none =>
      refine ⟨_, ?_, one.leave (.cancelling true [first]) trivial⟩
      simp [State.reserveTwo, current, found, again]
    | some second =>
      have two := one.reserveSlot after mine' (slot_of_alloc again)
      have both : ((s.setSlot a first .fdInit).setSlot a second .fdInit).InvAt t 0 0 0 0
          [first, second] := by
        refine ⟨two.held, two.made, two.tables.perm fun v => ?_⟩
        by_cases same : v = t
        · subst same
          simpa using Perm.swap second first []
        · simp [same]
      refine ⟨_, ?_, both.leavePlain (plain first second)⟩
      simp [State.reserveTwo, current, found, again]

end

theorem InvAt.cancelSlots (guarded : Bool) (h : s.InvAt t o u f m fds)
    (mine : (s.tasks t).filesp = some a) : ∃ s', s.cancelSlots a guarded fds = .ok s' ∧
      s'.InvAt t o u f m [] := by
  induction fds generalizing s with
  | nil => exact ⟨s, rfl, h⟩
  | cons fd fds ih =>
    obtain ⟨files, table⟩ := h.tables.exists_table mine
    obtain ⟨init, tables⟩ := h.tables.release table mine (v := .fdNone) nofun
    have one : (s.setSlot a fd .fdNone).InvAt t o u f m fds := by
      refine h.setSlot table ?_ tables
      simp [init, Slot.files]
    obtain ⟨s', rest, inv⟩ := ih one (by rw [tasks_setSlot table]; exact mine)
    refine ⟨s', ?_, inv⟩
    rw [← rest, State.cancelSlots]
    simp [fdArrayCancel, init, check]

theorem Inv.cancel {guarded : Bool} (h : s.Inv)
    (here : s.tasks t = ⟨some a, .cancelling guarded fds⟩) : Keeps (do
      let s ← s.cancelSlots a guarded fds
      return s.setPc t .idle) := by
  have mine : (s.tasks t).filesp = some a := by rw [here]
  have inv : s.InvAt t 0 0 0 0 fds := h.take t (congrArg Task.pc here)
  obtain ⟨s', done, after⟩ := inv.cancelSlots guarded mine
  refine ⟨_, ?_, after.leave .idle trivial⟩
  rw [done]
  rfl

variable {slots : List (Fin n × α)}

theorem InvAt.installSlots (h : s.InvAt t (slots.map Prod.snd : List α) u f m (slots.map Prod.fst))
    (mine : (s.tasks t).filesp = some a) : ∃ s', s.installSlots a slots = .ok s' ∧
      s'.InvAt t 0 u f m [] := by
  induction slots generalizing s with
  | nil => exact ⟨s, rfl, h⟩
  | cons slot slots ih =>
    obtain ⟨fd, d⟩ := slot
    obtain ⟨files, table⟩ := h.tables.exists_table mine
    obtain ⟨init, tables⟩ := h.tables.release table mine (v := .fdOpened d) nofun
    have here : d ∈ s.named + s.others t Pc.opens + (((fd, d) :: slots).map Prod.snd : List α) := by
      simp
    obtain ⟨x, file⟩ := h.held.files.exists_file (.inl here)
    have desc : 0 < x.descriptorCount := by
      rw [h.held.files.desc d x file]
      have pos := Multiset.count_pos.mpr here
      omega
    have one : (s.setSlot a fd (.fdOpened d)).InvAt t (slots.map Prod.snd : List α) u f m
        (slots.map Prod.fst) := by
      refine h.setSlot table ?_ tables
      simp only [init, Slot.files, add_zero]
      exact add_comm _ _
    obtain ⟨s', rest, inv⟩ := ih one (by rw [tasks_setSlot table]; exact mine)
    refine ⟨s', ?_, inv⟩
    rw [← rest, State.installSlots]
    simp [fdArrayInstall, init, file, deref, check, desc]

theorem Inv.install (h : s.Inv) (here : s.tasks t = ⟨some a, .installing slots⟩) : Keeps (do
      let s ← s.installSlots a slots
      return s.setPc t .idle) := by
  have mine : (s.tasks t).filesp = some a := by rw [here]
  have inv : s.InvAt t (slots.map Prod.snd : List α) 0 0 0 (slots.map Prod.fst) :=
    h.take t (congrArg Task.pc here)
  obtain ⟨s', done, after⟩ := inv.installSlots mine
  refine ⟨_, ?_, after.leave .idle trivial⟩
  rw [done]
  rfl

theorem Inv.describe {kind : FileKind α} {readable writable : Bool} (h : s.Inv)
    (here : (s.tasks t).pc = .opening fd kind readable writable) (free : s.heap.files d = none) :
    Keeps (s.onHeap t (.installing [(fd, d)]) (.ok (s.heap.openFileCreate d kind readable writable))) := by
  have inv : s.InvAt t 0 0 0 0 [fd] := h.take t here
  have plain : kind = .inode ∨ kind = .socket := by
    have made := h.made t
    rw [here] at made
    exact made
  have created := Balanced.create (r := readable) (w := writable) inv.held free plain
  refine onHeap_ok rfl (inv.withHeap ?_ ?_) trivial
  · rw [← add_cons] at created
    exact created
  · intro v other e y there
    simp only [openFileCreate, files_setFile] at there
    by_cases same : e = d
    · subst same
      rw [update_self] at there
      obtain rfl := some.inj there
      refine .inr ⟨free, fun p _ => ?_⟩
      rcases plain with rfl | rfl <;> simp
    · rw [update_of_ne same] at there
      exact .inl ⟨y, there, rfl, rfl, rfl⟩

/-! ## Duplicates -/

/-- `fd_array_dup` of an open slot into a free one. -/
theorem InvAt.dupFree (h : s.InvAt t o u f m r)
    (table : s.tables a = some files) (mem : d ∈ s.named) (free : s.slot a fd = .fdNone) : ∃ heap,
    s.fdArrayDup a fd d = .ok { s.setSlot a fd (.fdOpened d) with heap := heap } ∧
      { s.setSlot a fd (.fdOpened d) with heap := heap }.InvAt t o u f m r := by
  refine h.fdArrayDup table mem (.inl free) ?_
  exact h.tables.retake table (by rw [free]; nofun) nofun

theorem InvAt.rest (h : s.InvAt t 0 0 0 0 []) (here : (s.tasks t).pc = .idle) : s.Inv := by
  have same : s.setPc t .idle = s := by
    rw [setPc, ← here, update_eq_self]
  rw [← same]
  exact h.leave .idle trivial

variable {k : Fin n}

section

variable (h : s.Inv) (here : s.tasks t = ⟨some a, .idle⟩)
include h here

theorem Inv.dupFree (table : s.tables a = some files) (mem : d ∈ s.named) (free : files.fdArray fd = .fdNone) :
    Keeps (s.fdArrayDup a fd d) := by
  obtain ⟨heap, done, inv⟩ := (h.idle here).dupFree table mem (by rw [slot_of_table table, free])
  refine ⟨_, done, inv.rest ?_⟩
  rw [tasks_setSlot table, here]

theorem Inv.fileDupfd (k : Int) (argument : Nat) :
    Keeps (s.fileDupfd a k argument) := by
  obtain ⟨files, -, table, current⟩ := h.current here
  simp only [State.fileDupfd, current, ok_bind]
  split
  · exact ⟨s, rfl, h⟩
  split
  · exact ⟨s, rfl, h⟩
  rename_i from' d found
  have opened : s.slot a from' = .fdOpened d := by
    rw [slot_of_table table, slot_of_fd2file found]
  split
  · exact ⟨s, rfl, h⟩
  · rename_i target first
    have free := find?_some first
    simp only [decide_eq_true_eq] at free
    exact h.dupFree here table (mem_named opened) free.2

section

variable (table : s.tables a = some files) (opened : s.slot a k = .fdOpened d)
include table opened

/-- A slot that is reserved and filled in one section. -/
theorem Inv.dupReserved (free : files.fdArray fd = .fdNone) :
    Keeps ((s.setSlot a fd .fdInit).fdArrayDup a fd d) := by
  have mine : (s.tasks t).filesp = some a := by rw [here]
  have inv := (h.idle here).reserveSlot table mine free
  obtain ⟨files', table', -⟩ := tables_setSlot table fd .fdInit
  have mine' : ((s.setSlot a fd .fdInit).tasks t).filesp = some a := by
    rw [tasks_setSlot table]
    exact mine
  have other : k ≠ fd := by
    rintro rfl
    rw [slot_of_table table, free] at opened
    cases opened
  have still : (s.setSlot a fd .fdInit).slot a k = .fdOpened d := by
    rw [slot_setSlot table, if_neg fun same => other same.2, opened]
  obtain ⟨init, tables⟩ := inv.tables.release table' mine' (v := .fdOpened d) nofun
  obtain ⟨heap, done, after⟩ := inv.fdArrayDup table' (mem_named still) (.inr init) tables
  refine ⟨_, done, after.rest ?_⟩
  rw [tasks_setSlot table', tasks_setSlot table, here]

/-- A slot whose description is replaced. -/
theorem Inv.dupReplace {replaced : α} (other : k ≠ fd)
    (full : s.slot a fd = .fdOpened replaced) : Keeps (do
      let s ← s.fdArrayClose a fd replaced
      let s ← s.fdArrayDup a fd d
      return s.setPc t (.putting [replaced])) := by
  obtain ⟨heap, closed, inv⟩ := (h.idle here).fdArrayClose table full
  obtain ⟨files', table', -⟩ := tables_setSlot table fd .fdNone
  have still : ({ s.setSlot a fd .fdNone with heap := heap } : State τ α n).slot a k = .fdOpened d :=
    (slot_setSlot table .fdNone a k).trans (by rw [if_neg fun same => other same.2, opened])
  have free : ({ s.setSlot a fd .fdNone with heap := heap } : State τ α n).slot a fd = .fdNone :=
    (slot_setSlot table .fdNone a fd).trans (by simp)
  obtain ⟨heap', done, after⟩ := inv.dupFree table' (mem_named still) free
  refine ⟨_, ?_, after.leave (.putting [replaced]) trivial⟩
  simp [closed, done]

end

theorem Inv.fileDup (fd1 fd2 : Int) :
    Keeps (s.fileDup t a fd1 fd2) := by
  obtain ⟨files, -, table, current⟩ := h.current here
  simp only [State.fileDup, current, ok_bind]
  split
  · exact ⟨s, rfl, h⟩
  rename_i src d found
  have opened : s.slot a src = .fdOpened d := by
    rw [slot_of_table table, slot_of_fd2file found]
  split_ifs with same any
  · exact ⟨s, rfl, h⟩
  · split
    · exact ⟨s, rfl, h⟩
    · rename_i dst first
      exact h.dupReserved here table opened (slot_of_alloc first)
  split
  · exact ⟨s, rfl, h⟩
  rename_i dst valid
  have other : src ≠ dst := by
    rintro rfl
    exact same (testfd_inj (testfd_of_fd2file found) valid)
  split
  · exact ⟨s, rfl, h⟩
  · rename_i free
    exact h.dupFree here table (mem_named opened) free
  · rename_i replaced full
    exact h.dupReplace here table opened other (by rw [slot_of_table table, full])

end

/-! ## Pipes -/

theorem onPipe_of_free (h : s.Held t o u f m) (free : s.heap.pipes p = none) (e : α) :
    s.heap.onPipe p e = false := by
  have dead := (h.pipes.alive p).not.mp (by simp [free])
  rw [not_or, not_nonempty_iff_eq_empty] at dead
  have out : e ∉ s.heap.holders p := by simp [dead.1]
  simpa [mem_holders] using out

theorem Inv.pipeCreate (h : s.Inv) (here : (s.tasks t).pc = .piping fd k) (free : s.heap.pipes p = none) :
    Keeps (s.onHeap t (.pipeMade fd k p) (.ok (pipeCreate s.heap (some p)))) := by
  have inv : s.InvAt t 0 0 0 0 [fd, k] := h.take t here
  have new := Balanced.newPipe inv.held free
  rw [← add_cons] at new
  refine onHeap_ok rfl (inv.older new (Older.of_files rfl)) ?_
  exact onPipe_of_free inv.held free

theorem InvAt.abandonPipe (h : s.InvAt t 0 0 0 (p ::ₘ 0) [fd, k]) :
    Keeps (s.onHeap t (.cancelling true [fd, k]) (s.heap.pipePut p)) := by
  obtain ⟨heap, done, older, held⟩ := h.held.putCreator
  exact onHeap_ok done (h.older held older) trivial

variable {v : τ}

theorem InvAt.makes_apart (h : s.InvAt t o u f (p ::ₘ m) r) (other : v ≠ t) :
    p ∉ (s.tasks v).pc.makes := by
  intro mem
  have once := h.held.pipes.once
  rw [Multiset.add_cons, Multiset.nodup_cons] at once
  exact once.1 (Multiset.mem_add.mpr (.inl (mem_others other mem)))

/-- A description of a pipe that the task is creating. -/
theorem InvAt.newDescription (readable writable : Bool) (h : s.InvAt t o u f (p ::ₘ m) r)
    (free : s.heap.files d = none) : ∃ heap,
    (s.heap.openFileCreate d (.pipe p) readable writable).pipeGet p = .ok heap ∧
      heap.files = update s.heap.files d (some ⟨1, 1, .pipe p, readable, writable⟩) ∧
      { s with heap := heap }.InvAt t o (d ::ₘ u) f (p ::ₘ m) r := by
  obtain ⟨heap, done, files, balanced⟩ := Balanced.newDescription (p := p)
    h.held free (by simp)
  rw [← add_cons] at balanced
  refine ⟨heap, done, files, h.withHeap balanced ?_⟩
  intro v other e y there
  rw [files] at there
  by_cases same : e = d
  · subst same
    rw [update_self] at there
    obtain rfl := some.inj there
    refine .inr ⟨free, fun q mem => ?_⟩
    rintro ⟨rfl⟩
    exact h.makes_apart other mem
  · rw [update_of_ne same] at there
    exact .inl ⟨y, there, rfl, rfl, rfl⟩

theorem Inv.pipeReader (h : s.Inv) (here : (s.tasks t).pc = .pipeMade fd k p)
    (free : s.heap.files d = none) : Keeps (s.onHeap t (.pipeRead fd k p d)
      ((s.heap.openFileCreate d (.pipe p) true false).pipeGet p)) := by
  have inv : s.InvAt t 0 0 0 (p ::ₘ 0) [fd, k] := h.take t here
  have made := h.made t
  rw [here] at made
  obtain ⟨heap, done, files, after⟩ := inv.newDescription true false free
  refine onHeap_ok done after ⟨⟨_, by rw [files, update_self], rfl, rfl, rfl⟩, ?_⟩
  intro e on
  by_contra other
  rw [onPipe_of_ne files other, made e] at on
  cases on

variable {rd : α}

theorem Inv.pipeWriter (h : s.Inv)
    (here : (s.tasks t).pc = .pipeRead fd k p rd) (free : s.heap.files d = none) :
    Keeps (s.onHeap t (.pipeBoth fd k p rd d)
      ((s.heap.openFileCreate d (.pipe p) false true).pipeGet p)) := by
  have inv : s.InvAt t 0 (rd ::ₘ 0) 0 (p ::ₘ 0) [fd, k] := h.take t here
  have made := h.made t
  rw [here] at made
  obtain ⟨x, known, object⟩ := made.1
  have other : rd ≠ d := by
    rintro rfl
    rw [known] at free
    cases free
  obtain ⟨heap, done, files, after⟩ := inv.newDescription false true free
  rw [Multiset.cons_swap] at after
  refine onHeap_ok done after ⟨⟨x, ?_, object⟩, _, by rw [files, update_self], rfl, rfl, rfl⟩
  rw [files, update_of_ne other, known]

/-- The description for writing is not there. -/
theorem Inv.pipeNoWriter (h : s.Inv) (here : (s.tasks t).pc = .pipeRead fd k p rd) :
    Keeps (s.onHeap t (.cancelling true [fd, k]) (do
      let h ← s.heap.openFileDropDescriptor rd
      let h ← h.openFilePut rd
      h.pipePut p)) := by
  have inv : s.InvAt t 0 (rd ::ₘ 0) 0 (p ::ₘ 0) [fd, k] := h.take t here
  have made := h.made t
  rw [here] at made
  obtain ⟨⟨x, known, kind, -⟩, only⟩ := made
  have held := inv.held
  rw [Held, add_cons] at held
  obtain ⟨heap, dropped, files, balanced⟩ := held.dropShut known kind only
  rw [← add_cons] at balanced
  have older : Older s.heap heap := by
    refine Older.update files fun y there => ?_
    obtain rfl := some.inj there
    exact ⟨x, known, rfl, rfl, rfl⟩
  have first : { s with heap := heap }.InvAt t 0 0 (rd ::ₘ 0) (p ::ₘ 0) [fd, k] :=
    inv.older balanced older
  obtain ⟨heap', put, older', held'⟩ := first.held.put
  have second := first.older held' older'
  obtain ⟨s', done, after⟩ := second.abandonPipe
  refine ⟨s', ?_, after⟩
  rw [← done]
  simp only [dropped, ok_bind]
  rw [put]
  rfl

theorem InvAt.expose {x : OpenFile α} (h : s.InvAt t o (d ::ₘ u) f m r)
    (known : s.heap.files d = some x) (kind : x.kind = .pipe p) :
    s.heap.pipeEndpointOpen p x.readable x.writable = .ok (s.heap.addEnds x 1) ∧
      { s with heap := s.heap.addEnds x 1 }.InvAt t (d ::ₘ o) u f m r := by
  have held := h.held
  rw [Held, add_cons] at held
  obtain ⟨done, balanced⟩ := held.expose known kind
  rw [← add_cons] at balanced
  exact ⟨done, h.older balanced (Older.of_files (addEnds_files 1))⟩

theorem Inv.pipeOpen {wd : α} (h : s.Inv) (here : (s.tasks t).pc = .pipeBoth fd k p rd wd) :
    Keeps (s.onHeap t (.installing [(fd, rd), (k, wd)]) (do
      let h ← s.heap.pipeEndpointOpen p true false
      let h ← h.pipeEndpointOpen p false true
      h.pipePut p)) := by
  have inv : s.InvAt t 0 (rd ::ₘ wd ::ₘ 0) 0 (p ::ₘ 0) [fd, k] := h.take t here
  have made := h.made t
  rw [here] at made
  obtain ⟨⟨x, reader, kind, readable, writable⟩, y, writer, kind', readable', writable'⟩ := made
  obtain ⟨opened, first⟩ := inv.expose reader kind
  obtain ⟨opened', second⟩ := first.expose (by rw [Heap.addEnds_files, writer]) kind'
  rw [Multiset.cons_swap] at second
  obtain ⟨heap, put, older, held⟩ := second.held.putCreator
  rw [readable, writable] at opened
  rw [readable', writable'] at opened'
  refine onHeap_ok ?_ (second.older held older) trivial
  simp only [opened, ok_bind]
  rw [opened']
  exact put

/-! ## A socket pair that is not made -/

theorem InvAt.pipeCreate {q : Option α} (h : s.InvAt t o u f m r) (free : fresh s.heap.pipes q) :
    { s with heap := pipeCreate s.heap q }.InvAt t o u f (q.toList + m) r := by
  cases q with
  | none => simpa [State.pipeCreate] using h
  | some p =>
    have new := Balanced.newPipe h.held (by simpa [fresh] using free)
    rw [← add_cons] at new
    exact h.older new (Older.of_files rfl)

theorem InvAt.pipePutSome {q : Option α} (h : s.InvAt t o u f (q.toList + m) r) : ∃ heap,
    pipePutSome s.heap q = .ok heap ∧ { s with heap := heap }.InvAt t o u f m r := by
  cases q with
  | none => exact ⟨s.heap, rfl, by simpa using h⟩
  | some p =>
    have held : s.Held t o u f (p ::ₘ m) := h.held
    obtain ⟨heap, done, older, held⟩ := held.putCreator
    exact ⟨heap, done, h.older held older⟩

theorem Inv.pairFails {a b : Fin n} {ab ba : Option α} (h : s.Inv)
    (here : (s.tasks t).pc = .pairing a b) (free : fresh s.heap.pipes ab)
    (free' : fresh (State.pipeCreate s.heap ab).pipes ba) :
    Keeps (s.onHeap t (.cancelling true [a, b]) (do
      let h ← State.pipePutSome (State.pipeCreate (State.pipeCreate s.heap ab) ba) ab
      pipePutSome h ba)) := by
  have inv : s.InvAt t 0 0 0 0 [a, b] := h.take t here
  have first := inv.pipeCreate free
  have second : { s with heap := State.pipeCreate (State.pipeCreate s.heap ab) ba }.InvAt t 0 0 0
      (ab.toList + (ba.toList + 0)) [a, b] := by
    have made := first.pipeCreate free'
    rwa [add_left_comm] at made
  obtain ⟨heap, put, third⟩ := second.pipePutSome
  obtain ⟨heap', put', last⟩ := third.pipePutSome
  refine onHeap_ok ?_ last trivial
  simp only [put]
  exact put'

/-! ## Tasks come and go -/

omit [DecidableEq τ] in
theorem Books.congr (h : s.Books) (heap : s'.heap = s.heap)
    (slots : ∀ a fd, s'.slot a fd = s.slot a fd) (tasks : ∀ v, (s'.tasks v).pc = (s.tasks v).pc) :
    s'.Books := by
  have totals (part : Pc α n → List α) : s'.total part = s.total part := by
    simp [total, tasks]
  rw [Books, heap, named_congr slots, totals, totals, totals, totals]
  exact h

theorem Inv.addTask {child : τ} (h : s.Inv)
    (new : s.tasks child = ⟨none, .idle⟩) (table : s.tables a = some files) :
    Keeps (s.addTask child a) := by
  refine ⟨_, by simp [State.addTask, table]; rfl, ?_⟩
  have pcs (v : τ) : (update s.tasks child ⟨some a, .idle⟩ v).pc = (s.tasks v).pc := by
    by_cases same : v = child
    · subst same
      simp [new]
    · simp [same]
  constructor
  · refine h.books.congr rfl ?_ pcs
    exact slot_setTable_eq fun k => slot_of_table table k
  · intro v
    simp only [pcs]
    exact h.made v
  · simp only [pcs]
    refine h.tables.setTask ?_ table (.inr rfl) (.inl (by rw [new])) ?_
    · rw [new]
      rfl
    · simp [new]

/-- The loop of `dup_fs`. -/
theorem InvAt.dupFs {dst : α} (src : α) (h : s.InvAt t 0 0 0 0 [])
    (table : s.tables dst ≠ none) (once : fds.Nodup)
    (free : ∀ fd ∈ fds, s.slot dst fd = .fdNone) : ∃ s', s.dupFs dst src fds = .ok s' ∧
      s'.InvAt t 0 0 0 0 [] ∧ s'.tables dst ≠ none ∧ s'.tasks = s.tasks := by
  induction fds generalizing s with
  | nil => exact ⟨s, rfl, h, table, rfl⟩
  | cons fd fds ih =>
    obtain ⟨notin, rest⟩ := nodup_cons.mp once
    cases slot : s.slot src fd with
    | fdNone | fdInit =>
      obtain ⟨s', done, inv⟩ := ih h table rest fun k mem => free k (.tail _ mem)
      exact ⟨s', by rw [dupFs, slot]; exact done, inv⟩
    | fdOpened d =>
      obtain ⟨files, here⟩ := ne_none_iff_exists'.mp table
      obtain ⟨heap, dup, more⟩ := h.dupFree here (mem_named slot) (free fd (.head _))
      obtain ⟨files', here', -⟩ := tables_setSlot here fd (.fdOpened d)
      obtain ⟨s', done, inv, table', tasks⟩ := ih more (by simp [here']) rest (by
        intro k mem
        have differs : k ≠ fd := by
          rintro rfl
          exact notin mem
        refine (slot_setSlot here (.fdOpened d) dst k).trans ?_
        rw [if_neg fun same => differs same.2]
        exact free k (.tail _ mem))
      refine ⟨s', ?_, inv, table', tasks.trans (tasks_setSlot here _)⟩
      rw [dupFs, slot]
      simp only [dup]
      exact done

/-- What the loop of `files_detach` leaves of a table. -/
structure Detached (s s' : State τ α n) (a : α) (fds : List (Fin n)) : Prop where
  tasks : s'.tasks = s.tasks
  table : s'.tables a ≠ none
  gone : ∀ fd ∈ fds, ∀ d, s'.slot a fd ≠ .fdOpened d
  left : ∀ fd, s'.slot a fd = s.slot a fd ∨ s'.slot a fd = .fdNone

theorem InvAt.detach (fds : List (Fin n)) (h : s.InvAt t o u f m r) (table : s.tables a ≠ none) :
    ∃ s' ds, s.detach a fds = .ok (s', ds) ∧ s'.InvAt t o u (ds + f) m r ∧ Detached s s' a fds := by
  induction fds generalizing s f with
  | nil =>
    refine ⟨s, [], rfl, by simpa using h, rfl, table, nofun, fun _ => .inl rfl⟩
  | cons fd fds ih =>
    cases slot : s.slot a fd with
    | fdNone | fdInit =>
      obtain ⟨s', ds, done, inv, after⟩ := ih h table
      refine ⟨s', ds, by rw [detach, slot]; exact done, inv, { after with gone := ?_ }⟩
      intro k mem d full
      rcases mem_cons.mp mem with rfl | later
      · rcases after.left k with same | none
        · rw [same, slot] at full
          cases full
        · rw [none] at full
          cases full
      · exact after.gone k later d full
    | fdOpened d =>
      obtain ⟨files, here⟩ := ne_none_iff_exists'.mp table
      obtain ⟨heap, closed, less⟩ := h.fdArrayClose here slot
      obtain ⟨files', here', -⟩ := tables_setSlot here fd .fdNone
      obtain ⟨s', ds, done, inv, after⟩ := ih less (by simp [here'])
      have slots (k : Fin n) : ({ s.setSlot a fd .fdNone with heap := heap } :
          State τ α n).slot a k = if k = fd then .fdNone else s.slot a k := by
        refine (slot_setSlot here .fdNone a k).trans ?_
        simp
      refine ⟨s', d :: ds, ?_, ?_, after.tasks.trans (tasks_setSlot here _), after.table, ?_, ?_⟩
      · rw [detach, slot]
        simp [closed, done]
      · rw [← cons_coe, cons_add, ← add_cons]
        exact inv
      · intro k mem e full
        rcases mem_cons.mp mem with rfl | later
        · rcases after.left k with same | none
          · rw [same, slots, if_pos rfl] at full
            cases full
          · rw [none] at full
            cases full
        · exact after.gone k later e full
      · intro k
        rcases after.left k with same | none
        · rw [same, slots]
          split
          · exact .inr rfl
          · exact .inl rfl
        · exact .inr none

theorem InvAt.leavePut {ds : List α} (h : s.InvAt t 0 0 (ds + 0) 0 []) :
    (s.setPc t (afterPut ds)).Inv := by
  rw [add_zero] at h
  cases ds with
  | nil => exact h.leave .idle trivial
  | cons d ds => exact h.leave (.putting (d :: ds)) trivial

section

variable (h : s.Inv) (here : s.tasks t = ⟨some a, .idle⟩)
include h here

theorem Inv.copyFs {child : τ} {dst : α} (new : s.tasks child = ⟨none, .idle⟩) (free : s.tables dst = none) :
    Keeps (s.copyFs child a dst) := by
  obtain ⟨files, -, table, current⟩ := h.current here
  have inv := h.idle here
  have slots (b : α) (k : Fin n) :
      (s.setTable dst (some ⟨0, fun _ => .fdNone⟩)).slot b k = s.slot b k :=
    slot_setTable_eq (fun k => by rw [slot, free]) b k
  have start : (s.setTable dst (some ⟨0, fun _ => .fdNone⟩)).InvAt t 0 0 0 0 [] :=
    ⟨inv.held.congr rfl slots fun _ _ => rfl, inv.made, inv.tables.newTable free⟩
  have table₁ : (s.setTable dst (some ⟨0, fun _ => .fdNone⟩)).tables dst ≠ none := by
    simp [setTable]
  obtain ⟨s', dup, after, table', tasks⟩ := start.dupFs a table₁ (nodup_finRange n) (fun fd _ => by rw [slots, slot, free])
  have rested : s'.Inv := after.rest (by rw [tasks]; exact congrArg Task.pc here)
  obtain ⟨files', there⟩ := ne_none_iff_exists'.mp table'
  obtain ⟨s'', added, final⟩ := rested.addTask (by rw [tasks]; exact new) there
  refine ⟨s'', ?_, final⟩
  simp only [State.copyFs, current, dup]
  exact added

theorem Inv.filesCloseall :
    Keeps (s.filesCloseall t a) := by
  obtain ⟨files, -, table, current⟩ := h.current here
  have there : s.tables a ≠ none := by simp [table]
  obtain ⟨s', ds, done, inv, -⟩ := (h.idle here).detach
    ((finRange n).filter fun fd => 2 ≤ fd.val) there
  refine ⟨_, ?_, inv.leavePut⟩
  simp [State.filesCloseall, current, done]

theorem Inv.putFs :
    Keeps (s.putFs t a) := by
  obtain ⟨files, mine, table, -⟩ := h.current here
  have inv := h.idle here
  generalize left : ({ s.setTable a (some { files with filesCount := files.filesCount - 1 }) with
    tasks := update s.tasks t {} } : State τ α n) = s₁
  have other (v : τ) (differs : v ≠ t) : s₁.tasks v = s.tasks v := by
    rw [← left]
    exact update_of_ne differs _ _
  have self : s₁.tasks t = {} := by
    rw [← left]
    exact update_self ..
  have slots (b : α) (k : Fin n) : s₁.slot b k = s.slot b k := by
    rw [← left]
    exact slot_setTable_eq (slot_of_table table) b k
  have own : (update (fun v => (s₁.tasks v).pc.reserved) t []) =
      update (fun v => (s.tasks v).pc.reserved) t [] := by
    funext v
    by_cases same : v = t
    · simp [same]
    · simp [same, other v same]
  have first : s₁.InvAt t 0 0 0 0 [] := by
    refine ⟨inv.held.congr (by rw [← left]; rfl) slots fun v differs => by rw [other v differs], ?_, ?_⟩
    · intro v differs
      rw [other v differs, ← left]
      exact inv.made v differs
    · rw [own, ← left]
      refine inv.tables.setTask (by simp) table (.inl rfl) (.inr mine) ?_
      simp [mine]
  simp only [State.putFs, table, deref, left, ok_bind]
  split_ifs with last
  · have alone : ∀ v, (s₁.tasks v).filesp ≠ some a := by
      have count := first.tables.count a { files with filesCount := files.filesCount - 1 }
        (by rw [← left]; simp [setTable])
      rw [last] at count
      have none := Finset.card_eq_zero.mp (Int.ofNat_eq_zero.mp count.symm)
      intro v has
      have mem : v ∈ Finset.univ.filter fun v => (s₁.tasks v).filesp = some a := by simp [has]
      rw [none] at mem
      cases mem
    have there : s₁.tables a ≠ none := by
      rw [← left]
      simp [setTable]
    obtain ⟨s₂, ds, done, after, rest⟩ := first.detach (List.finRange n) there
    have alone' (v : τ) : (s₂.tasks v).filesp ≠ some a := by
      rw [rest.tasks]
      exact alone v
    have empty (fd : Fin n) : s₂.slot a fd = .fdNone := by
      cases slot : s₂.slot a fd with
      | fdNone => rfl
      | fdOpened d => exact absurd slot (rest.gone fd (List.mem_finRange fd) d)
      | fdInit =>
        obtain ⟨v, has, -⟩ := (after.tables.init a fd).mp slot
        exact absurd has (alone' v)
    have freed : (s₂.setTable a none).InvAt t 0 0 (ds + 0) 0 [] := by
      exact ⟨after.held.congr rfl (slot_setTable_eq empty) fun _ _ => rfl, after.made,
        after.tables.freeTable alone' empty⟩
    refine ⟨_, ?_, freed.leavePut⟩
    simp [done, check, if_pos empty]
  · refine ⟨s₁, rfl, first.rest ?_⟩
    rw [self]

end

end State

/-- A call of `file_socketpair_create` does not get all four objects. -/
def FilesOp.PairFails : FilesOp τ α → Prop
  | .pairAlloc _ (some _) (some _) (some _) (some _) => False
  | _ => True

namespace State

variable {s : State τ α n}

section

variable [DecidableEq τ] [DecidableEq α]

theorem boot_slot (t : τ) (a b : α) (fd : Fin n) :
    (boot t a : State τ α n).slot b fd = .fdNone := by
  by_cases same : b = a <;> simp [boot, slot, same]

theorem boot_pc (t v : τ) (a : α) : ((boot t a : State τ α n).tasks v).pc = .idle := by
  by_cases same : v = t <;> simp [boot, same]

variable [Fintype τ] [Fintype α]

theorem Inv.step {op : FilesOp τ α} {result : Except Fault (State τ α n)} (h : s.Inv)
    (fails : op.PairFails) (taken : s.step op = some result) : Keeps result := by
  cases op with (simp only [State.step] at taken; split at taken <;> rename_i here <;> try cases taken)
  | fileOpen t readable writable =>
    exact h.reserve here fun fd => ⟨rfl, rfl, rfl, rfl, rfl, fun _ => .inl rfl⟩
  | socketCreate t =>
    exact h.reserve here fun fd => ⟨rfl, rfl, rfl, rfl, rfl, fun _ => .inr rfl⟩
  | objectFails t =>
    rename_i fd kind readable writable
    have inv : s.InvAt t 0 0 0 0 [fd] := h.take t here
    exact ⟨_, rfl, inv.leave (.cancelling false [fd]) trivial⟩
  | describe t d =>
    obtain ⟨free, ⟨⟩⟩ := ite_none_right_eq_some.mp taken
    exact h.describe here free
  | install t =>
    exact h.install here
  | cancel t =>
    exact h.cancel here
  | close t fd =>
    exact h.fileClose here fd
  | put t =>
    exact h.put here
  | acquire t fd =>
    exact h.fdAcquire here fd
  | use t =>
    rename_i d
    have inv : s.InvAt t 0 0 (d ::ₘ 0) 0 [] := h.take t here
    have used := Balanced.use inv.held (d := d) (.inr (.inr (by simp)))
    exact ⟨s, by rw [used]; rfl, h⟩
  | release t =>
    exact h.release here
  | dup t fd1 fd2 =>
    exact h.fileDup here fd1 fd2
  | dupfd t fd argument =>
    exact h.fileDupfd here fd argument
  | pipe t | socketpair t =>
    exact h.reserveTwo here fun fd k => ⟨rfl, rfl, rfl, rfl, rfl, fun _ => trivial⟩
  | pipeCreate t p =>
    rename_i r w
    split at taken
    · rename_i free
      split at taken
      · cases taken
        exact h.pipeCreate here (by simpa [fresh] using free)
      · cases taken
        have inv : s.InvAt t 0 0 0 0 [r, w] := h.take t here
        exact ⟨_, rfl, inv.leave (.cancelling true [r, w]) trivial⟩
    · cases taken
  | pipeReader t d =>
    first
    | exact (show s.InvAt t 0 0 0 _ _ from h.take t here).abandonPipe
    | split at taken
      · rename_i free
        cases taken
        exact h.pipeReader here free
      · cases taken
  | pipeWriter t d =>
    first
    | exact h.pipeNoWriter here
    | split at taken
      · rename_i free
        cases taken
        exact h.pipeWriter here free
      · cases taken
  | pipeOpen t =>
    exact h.pipeOpen here
  | pairAlloc t ab ba a b =>
    split at taken
    · rename_i free
      split at taken
      · exact fails.elim
      · cases taken
        exact h.pairFails here free.1 free.2.1
    · cases taken
  | pairDescribe t da db | pairOpen t =>
    have made := h.made t
    rw [here] at made
    exact made.elim
  | fork t child dst =>
    rename_i mine new
    exact h.copyFs mine new here
  | clone t child =>
    rename_i mine
    obtain ⟨files, table⟩ := h.tables.exists_table (congrArg Task.filesp mine)
    exact h.addTask here table
  | closeAll t =>
    exact h.filesCloseall here
  | exit t =>
    exact h.putFs here

theorem Inv.boot (t : τ) (a : α) : (boot t a : State τ α n).Inv := by
  have filesp (v : τ) : ((State.boot t a : State τ α n).tasks v).filesp = if v = t then some a else none := by
    by_cases same : v = t <;> simp [State.boot, same]
  have named : (State.boot t a : State τ α n).named = 0 := by
    simp [State.named, boot_slot, Slot.files]
  have total (part : Pc α n → List α) (none : part .idle = []) :
      (State.boot t a : State τ α n).total part = 0 := by
    simp [State.total, boot_pc, none]
  constructor
  · rw [Books, named, total _ rfl, total _ rfl, total _ rfl, total _ rfl]
    refine ⟨⟨?_, ?_, ?_⟩, ⟨?_, ?_, ?_, ?_, Multiset.nodup_zero⟩, fun _ => rfl, ?_,
      Multiset.nodup_zero, ?_⟩ <;> simp [State.boot, Heap.holders, Heap.onPipe]
  · intro v
    rw [boot_pc]
    trivial
  · simp only [boot_pc]
    refine ⟨?_, ?_, by simp [Pc.reserved], ?_, ?_, fun _ => List.nodup_nil⟩
    · intro v b mine
      rw [filesp] at mine
      obtain ⟨-, ⟨⟩⟩ := ite_none_right_eq_some.mp mine
      simp [State.boot]
    · intro b files there
      by_cases same : b = a
      · subst same
        simp only [State.boot, update_self, Option.some.injEq] at there
        have one : (Finset.univ.filter fun v => ((State.boot t b : State τ α n).tasks v).filesp =
            some b) = {t} := by
          ext v
          simp [filesp]
        rw [one, ← there]
        rfl
      · simp [State.boot, same] at there
    · simp [boot_slot, Owns, Pc.reserved]
    · rintro v w b fd ⟨-, mem⟩
      cases mem

end

/-! ## Whole runs -/

theorem count_total [Fintype τ] [DecidableEq α] (part : Pc α n → List α) (d : α) :
    (s.total part).count d = ∑ t, (part (s.tasks t).pc).count d := by
  simp [total, count_sum']

variable [Fintype α]

/-- The number of slots with such a description. -/
def slotsWith (s : State τ α n) (which : α → Bool) : Nat :=
  (univ.filter fun x : α × Fin n => (match s.slot x.1 x.2 with
    | .fdOpened d => which d
    | _ => false) = true).card

theorem countP_named (which : α → Bool) : (s.named.countP fun d => which d) = s.slotsWith which := by
  have sum : (s.named.countP fun d => which d) =
      ∑ x : α × Fin n, (s.slot x.1 x.2).files.countP fun d => which d :=
    map_sum (countPAddMonoidHom fun d => which d = true) _ _
  rw [sum, slotsWith, card_filter]
  apply sum_congr rfl
  intro x _
  cases s.slot x.1 x.2 with
  | fdNone => simp [Slot.files]
  | fdInit => simp [Slot.files]
  | fdOpened e => simp [Slot.files, ← Multiset.cons_zero, Multiset.countP_cons]

variable [DecidableEq α]

/-- The number of slots that name a description. -/
def slotsNaming (s : State τ α n) (d : α) : Nat :=
  (univ.filter fun x : α × Fin n => s.slot x.1 x.2 = .fdOpened d).card

theorem count_named (d : α) : s.named.count d = s.slotsNaming d := by
  rw [named, count_sum', slotsNaming, card_filter]
  apply sum_congr rfl
  intro x _
  cases s.slot x.1 x.2 with
  | fdNone => simp [Slot.files]
  | fdInit => simp [Slot.files]
  | fdOpened e => simp [Slot.files, Multiset.count_singleton, eq_comm]

variable [Fintype τ]

/-- The number of operations in flight on a description. -/
def inFlight (s : State τ α n) (d : α) : Nat := ∑ t, (s.tasks t).pc.flying.count d

/-- The descriptions and endpoints that point to a pipe, and its creators. -/
def pipeHolders (s : State τ α n) (p : α) : Nat :=
  (s.heap.holders p).card +
    (univ.filter fun e => (s.heap.ends e).any fun x => x.readPipe = p).card +
    (univ.filter fun e => (s.heap.ends e).any fun x => x.writePipe = p).card +
    ∑ t, (s.tasks t).pc.makes.count p

end State

/-- No task is between the slots and the objects of a new file. -/
def Pc.Quiet : Pc α n → Prop
  | .idle | .busy _ | .putting _ => True
  | _ => False

/-- Opens, closes, duplicates, pipes, forks, execs, exits and operations in flight. -/
def FilesOp.Listed : FilesOp τ α → Prop
  | .socketpair _ | .pairAlloc .. | .pairDescribe .. | .pairOpen _ => False
  | _ => True

instance (pc : Pc α n) : Decidable pc.Quiet := by
  unfold Pc.Quiet
  split <;> infer_instance

instance (op : FilesOp τ α) : Decidable op.Listed := by
  unfold FilesOp.Listed
  split <;> infer_instance

instance (op : FilesOp τ α) : Decidable op.PairFails := by
  unfold FilesOp.PairFails
  split <;> infer_instance

theorem FilesOp.Listed.fails {op : FilesOp τ α} (listed : op.Listed) : op.PairFails := by
  cases op <;> trivial

namespace Kernel

variable [DecidableEq τ] [DecidableEq α]

/-- The kernel runs, in a state with the property. -/
def isRunning (k : Kernel τ α n) (good : State τ α n → Prop) [DecidablePred good] : Bool :=
  match k with
  | .running s => good s
  | .halted _ => false

def isHalted (k : Kernel τ α n) (here : Fault) : Bool :=
  match k with
  | .running _ => false
  | .halted fault => fault = here

def boot (n : Nat) (t : τ) (a : α) : Kernel τ α n := .running (State.boot t a)

variable [Fintype τ] [Fintype α] {t : τ} {a : α} {ops : List (FilesOp τ α)} {k : Kernel τ α n}

/-- The kernel runs, and its counts are right. -/
def Sound (k : Kernel τ α n) : Prop := ∃ s, k = .running s ∧ s.Inv

theorem Sound.step {k k' : Kernel τ α n} {op : FilesOp τ α} (h : k.Sound) (fails : op.PairFails)
    (taken : k.step op = some k') : k'.Sound := by
  obtain ⟨s, rfl, inv⟩ := h
  obtain ⟨result, stepped, rfl⟩ := map_eq_some_iff.mp taken
  obtain ⟨s', rfl, inv'⟩ := inv.step fails stepped
  exact ⟨s', rfl, inv'⟩

theorem sound_of_run
    (fails : Along step (fun _ op => op.PairFails) (boot n t a) ops)
    (run : runFrom step (boot n t a) ops = some k) : k.Sound :=
  runFrom_invariant (fun _ _ _ h fails taken => h.step fails taken) ⟨_, rfl, State.Inv.boot t a⟩
    fails run

/-- No assertion fails, and between the calls the counts of descriptions are the numbers of slots
    and of operations in flight, those of pipes the numbers of slots open on either end. -/
theorem descriptor_counts_exact
    (listed : Along step (fun _ op => op.Listed) (boot n t a) ops)
    (run : runFrom step (boot n t a) ops = some k) : ∃ s, k = .running s ∧
      ((∀ v, (s.tasks v).pc.Quiet) →
        (∀ d x, s.heap.files d = some x → x.descriptorCount = s.slotsNaming d ∧
          x.refCount = x.descriptorCount + s.inFlight d) ∧
        ∀ p c, s.heap.pipes p = some c → c.readers = s.slotsWith (s.heap.reads p) ∧
          c.writers = s.slotsWith (s.heap.writes p)) := by
  have fails : Along step (fun _ op => op.PairFails) (boot n t a) ops :=
    listed.mono fun _ _ => FilesOp.Listed.fails
  obtain ⟨s, rfl, inv⟩ := sound_of_run fails run
  refine ⟨s, rfl, fun quiet => ?_⟩
  have none (part : Pc α n → List α) (nothing : ∀ pc : Pc α n, pc.Quiet → part pc = []) :
      s.total part = 0 := by
    apply Finset.sum_eq_zero
    intro v _
    rw [nothing _ (quiet v)]
    rfl
  have opens : s.total Pc.opens = 0 := none _ (by rintro ⟨⟩ quiet <;> first | rfl | exact quiet.elim)
  have shut : s.total Pc.shut = 0 := none _ (by rintro ⟨⟩ quiet <;> first | rfl | exact quiet.elim)
  have books := inv.books
  rw [Books, opens, shut, add_zero] at books
  constructor
  · intro d x here
    have desc := books.files.desc d x here
    have ref := books.files.ref d x here
    rw [count_named, count_zero, Nat.cast_zero, add_zero] at desc ref
    rw [count_total] at ref
    refine ⟨desc, ?_⟩
    rw [ref, desc, inFlight]
  · intro p c here
    rw [books.pipes.readers p c here, books.pipes.writers p c here, countP_named,
      countP_named]
    exact ⟨rfl, rfl⟩

/-- A pipe, a second descriptor for its reader, a child, and a close of the writer. -/
def pipeForkClose : List (FilesOp (Fin 2) (Fin 3)) :=
  [.pipe 0, .pipeCreate 0 (some 0), .pipeReader 0 (some 0), .pipeWriter 0 (some 1), .pipeOpen 0,
    .install 0, .dup 0 0 3, .fork 0 1 1, .close 0 1, .put 0]

theorem descriptor_counts_exact_pipeForkClose : ∃ s x c,
    runFrom step (boot 4 0 0) pipeForkClose = some (.running s) ∧ s.heap.files 0 = some x ∧
      s.heap.pipes 0 = some c ∧ x.descriptorCount = s.slotsNaming 0 ∧
      x.refCount = x.descriptorCount + s.inFlight 0 ∧ c.readers = s.slotsWith (s.heap.reads 0) ∧
      c.writers = s.slotsWith (s.heap.writes 0) := by
  have ends : (runFrom step (boot 4 0 0) pipeForkClose).any (fun k => k.isRunning fun s =>
      (∀ v, (s.tasks v).pc.Quiet) ∧ (s.heap.files 0).isSome ∧ (s.heap.pipes 0).isSome) := by
    decide +kernel
  have listed : Along step (fun _ op => op.Listed) (boot 4 0 0) pipeForkClose := by decide +kernel
  obtain ⟨k, run, now⟩ := (Option.any_eq_true _ _).mp ends
  obtain ⟨s, rfl, counts⟩ := descriptor_counts_exact listed run
  obtain ⟨quiet, file, pipe⟩ := of_decide_eq_true now
  obtain ⟨x, here⟩ := Option.isSome_iff_exists.mp file
  obtain ⟨c, there⟩ := Option.isSome_iff_exists.mp pipe
  obtain ⟨files, pipes⟩ := counts quiet
  exact ⟨s, x, c, run, here, there, (files 0 x here).1, (files 0 x here).2, pipes 0 c there⟩

/-- Without a socket pair that gets all its objects the count of a pipe is the number of its holders,
    so that it is freed when the last of them goes, and nobody uses it after that. -/
theorem pipe_refs_exact
    (fails : Along step (fun _ op => op.PairFails) (boot n t a) ops)
    (run : runFrom step (boot n t a) ops = some k) : ∃ s, k = .running s ∧
      ∀ p, (∀ c, s.heap.pipes p = some c → c.refCount = s.pipeHolders p ∧ 0 < s.pipeHolders p) ∧
        (s.heap.pipes p = none → s.pipeHolders p = 0) := by
  obtain ⟨s, rfl, inv⟩ := sound_of_run fails run
  refine ⟨s, rfl, fun p => ?_⟩
  have holders : s.pipeHolders p = (s.heap.holders p).card + (s.total Pc.makes).count p := by
    simp [State.pipeHolders, inv.books.noEnds, State.count_total]
  have alive := inv.books.pipes.alive p
  rw [← Finset.card_pos, ← Multiset.count_pos] at alive
  rw [holders]
  constructor
  · intro c here
    have some := alive.mp (by simp [here])
    refine ⟨?_, by omega⟩
    rw [inv.books.pipes.ref p c here]
    rfl
  · intro here
    have none := alive.not.mp (by simp [here])
    omega

/-- A socket pair with no memory for its second endpoint, and the same. -/
def pairThenPipe : List (FilesOp (Fin 2) (Fin 3)) :=
  [.socketpair 0, .pairAlloc 0 (some 0) (some 1) (some 0) none, .cancel 0] ++ pipeForkClose

theorem pipe_refs_exact_pairThenPipe : ∃ s c,
    runFrom step (boot 4 0 0) pairThenPipe = some (.running s) ∧ s.heap.pipes 0 = some c ∧
      c.refCount = s.pipeHolders 0 ∧ 0 < s.pipeHolders 0 := by
  have ends : (runFrom step (boot 4 0 0) pairThenPipe).any (fun k => k.isRunning fun s =>
      (s.heap.pipes 0).isSome) := by
    decide +kernel
  have fails : Along step (fun _ op => op.PairFails) (boot 4 0 0) pairThenPipe := by decide +kernel
  obtain ⟨k, run, now⟩ := (Option.any_eq_true _ _).mp ends
  obtain ⟨s, rfl, counts⟩ := pipe_refs_exact fails run
  obtain ⟨c, here⟩ := Option.isSome_iff_exists.mp (of_decide_eq_true now)
  exact ⟨s, c, run, here, (counts 0).1 c here⟩

/-- While no task is creating or installing, a description is there exactly if a slot or an operation
    names it, and a pipe exactly if such a description points to it. -/
theorem heap_is_named (fails : Along step (fun _ op => op.PairFails) (boot n t a) ops)
    {s : State τ α n} (run : runFrom step (boot n t a) ops = some (.running s))
    (quiet : ∀ v, (s.tasks v).pc.Quiet) :
    (∀ d, s.heap.files d ≠ none ↔ 0 < s.slotsNaming d + s.inFlight d) ∧
      ∀ p, s.heap.pipes p ≠ none ↔ ∃ d, s.heap.onPipe p d ∧ 0 < s.slotsNaming d + s.inFlight d := by
  obtain ⟨_, ⟨⟩, ⟨books, -⟩⟩ := sound_of_run fails run
  have idle (pc : Pc α n) (quiet : pc.Quiet) : pc.opens = [] ∧ pc.shut = [] ∧ pc.makes = [] := by
    cases pc <;> first | exact ⟨rfl, rfl, rfl⟩ | exact quiet.elim
  have alive d : s.heap.files d ≠ none ↔ 0 < s.slotsNaming d + s.inFlight d := by
    rw [books.files.alive, Nat.add_pos_iff_pos_or_pos, ← count_named, inFlight, ← count_total,
      count_pos, count_pos]
    simp [State.total, idle _ (quiet _)]
  refine ⟨alive, fun p => ?_⟩
  have held d : s.heap.onPipe p d ∧ s.heap.files d ≠ none ↔ s.heap.onPipe p d := by
    grind [Heap.onPipe]
  rw [books.pipes.alive]
  simp [State.total, idle _ (quiet _), Heap.holders, Finset.Nonempty, ← alive, held]

theorem heap_is_named_pairThenPipe : ∃ s,
    runFrom step (boot 4 0 0) pairThenPipe = some (.running s) ∧
      ∀ d, s.heap.files d ≠ none ↔ 0 < s.slotsNaming d + s.inFlight d := by
  have ends : (runFrom step (boot 4 0 0) pairThenPipe).any (fun k => k.isRunning fun s =>
      ∀ v, (s.tasks v).pc.Quiet) := by decide +kernel
  obtain ⟨k, run, now⟩ := (Option.any_eq_true _ _).mp ends
  cases k with
  | halted => cases now
  | running s => exact ⟨s, run, (heap_is_named (by decide +kernel) run (of_decide_eq_true now)).1⟩

def pairRun : List (FilesOp (Fin 1) (Fin 2)) :=
  [.socketpair 0, .pairAlloc 0 (some 0) (some 1) (some 0) (some 1),
    .pairDescribe 0 (some 0) (some 1), .pairOpen 0, .install 0]

/-- Each pipe of the pair counts one of its two endpoints; a close of one descriptor frees both
    pipes, and the next operation on the other finds them freed. -/
theorem socket_pair_uses_freed_pipe :
    (∃ s c, runFrom step (boot 2 0 0) pairRun = some (.running s) ∧ s.heap.pipes 0 = some c ∧
      c.refCount = 1 ∧ s.pipeHolders 0 = 2) ∧
    runFrom step (boot 2 0 0) (pairRun ++ [.close 0 0, .put 0, .acquire 0 1, .use 0]) =
      some (.halted .freed) := by
  have made : (runFrom step (boot 2 0 0) pairRun).any (fun k => k.isRunning fun s =>
      (s.heap.pipes 0).map PipeRefs.refCount = some 1 ∧ s.pipeHolders 0 = 2) := by
    decide +kernel
  have used : (runFrom step (boot 2 0 0)
      (pairRun ++ [.close 0 0, .put 0, .acquire 0 1, .use 0])).any
        (fun k => k.isHalted .freed) := by
    decide +kernel
  obtain ⟨k, run, now⟩ := (Option.any_eq_true _ _).mp made
  obtain ⟨k', run', stopped⟩ := (Option.any_eq_true _ _).mp used
  constructor
  · cases k with
    | running s =>
      obtain ⟨count, holders⟩ := of_decide_eq_true now
      obtain ⟨c, here, one⟩ := Option.map_eq_some_iff.mp count
      exact ⟨s, c, run, here, one, holders⟩
    | halted fault => cases now
  · cases k' with
    | running s => cases stopped
    | halted fault =>
      rw [run', of_decide_eq_true stopped]

end Kernel

end Procore.Fs.Files
