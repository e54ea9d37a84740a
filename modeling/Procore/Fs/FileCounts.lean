import Procore.Fs.Files
import Mathlib.Tactic.Abel

/-! # The counts of open files

A step is followed with the references that the task has in its hand: it takes them
from its place in the call, the functions on the heap exchange them, and it leaves
what it has in the slots and in its next place.
-/

namespace Procore.Fs.Files

open Procore.Lib Multiset Option Finset Pc Heap
open Function (update update_eq_self update_of_ne update_self)

variable {τ α : Type} {n : Nat}

/-- The description that a slot names. -/
def Slot.files : Slot α → Multiset α
  | .fdOpened d => {d}
  | _ => 0

namespace Pc

/-- The descriptors that a task is about to install, with their ends open. -/
def opens : Pc α n → List α
  | .installing slots => slots.map Prod.snd
  | _ => []

/-- The same with their ends not yet open. -/
def shut : Pc α n → List α
  | .pipeRead _ _ _ rd => [rd]
  | .pipeBoth _ _ _ rd wd => [rd, wd]
  | _ => []

/-- The descriptions that an operation uses or is going to put. -/
def flying : Pc α n → List α
  | .putting ds => ds
  | .busy d => [d]
  | _ => []

/-- The pipes that a task is creating. -/
def makes : Pc α n → List α
  | .pipeMade _ _ p | .pipeRead _ _ p _ | .pipeBoth _ _ p _ _ => [p]
  | .pairMade _ _ ab ba _ _ | .pairBoth _ _ ab ba _ _ _ _ => [ab, ba]
  | _ => []

/-- The descriptors that a task has reserved. -/
def reserved : Pc α n → List (Fin n)
  | .opening fd _ _ _ => [fd]
  | .cancelling _ fds => fds
  | .installing slots => slots.map Prod.fst
  | .piping r w | .pipeMade r w _ | .pipeRead r w _ _ | .pipeBoth r w _ _ _ => [r, w]
  | .pairing a b | .pairMade a b _ _ _ _ | .pairBoth a b _ _ _ _ _ _ => [a, b]
  | _ => []

variable [DecidableEq α]

/-- What a task knows of the objects it is creating. -/
def Made (h : Heap α) : Pc α n → Prop
  | .opening _ kind _ _ => kind = .inode ∨ kind = .socket
  | .pipeMade _ _ p => ∀ e, h.onPipe p e = false
  | .pipeRead _ _ p rd =>
    (∃ x, h.files rd = some x ∧ x.kind = .pipe p ∧ x.readable = true ∧ x.writable = false) ∧
      ∀ e, h.onPipe p e = true → e = rd
  | .pipeBoth _ _ p rd wd =>
    (∃ x, h.files rd = some x ∧ x.kind = .pipe p ∧ x.readable = true ∧ x.writable = false) ∧
      ∃ x, h.files wd = some x ∧ x.kind = .pipe p ∧ x.readable = false ∧ x.writable = true
  | .pairMade .. | .pairBoth .. => False
  | _ => True

/-- A place where a task has reserved descriptors and nothing else. -/
def Plain (pc : Pc α n) (fds : List (Fin n)) : Prop :=
  pc.opens = [] ∧ pc.shut = [] ∧ pc.flying = [] ∧ pc.makes = [] ∧ pc.reserved = fds ∧
    ∀ h, pc.Made h

end Pc

namespace State

variable {s s' : State τ α n} {t : τ} {a d p : α} {fd : Fin n}

/-- The descriptions that the slots name. -/
def named [Fintype α] (s : State τ α n) : Multiset α := ∑ x : α × Fin n, (s.slot x.1 x.2).files

theorem named_congr [Fintype α] (same : ∀ a fd, s'.slot a fd = s.slot a fd) : s'.named = s.named := by
  simp [named, same]

theorem mem_named [Fintype α] (here : s.slot a fd = .fdOpened d) : d ∈ s.named := by
  rw [named, mem_sum]
  exact ⟨(a, fd), mem_univ _, by simp [here, Slot.files]⟩

section

variable [Fintype τ] [DecidableEq τ]

def total (s : State τ α n) (part : Pc α n → List α) : Multiset α :=
  ∑ t, (part (s.tasks t).pc : Multiset α)

def others (s : State τ α n) (t : τ) (part : Pc α n → List α) : Multiset α :=
  ∑ u ∈ univ.erase t, (part (s.tasks u).pc : Multiset α)

theorem total_eq (t : τ) (part : Pc α n → List α) :
    s.total part = s.others t part + part (s.tasks t).pc := by
  rw [total, others, sum_erase_add _ _ (mem_univ t)]

theorem others_congr (same : ∀ v, v ≠ t → (s'.tasks v).pc = (s.tasks v).pc) (part : Pc α n → List α) :
    s'.others t part = s.others t part := by
  apply sum_congr rfl
  intro v mem
  rw [same v (ne_of_mem_erase mem)]

theorem mem_others {v : τ} {e : α} {part : Pc α n → List α} (other : v ≠ t)
    (mem : e ∈ part (s.tasks v).pc) : e ∈ s.others t part := by
  rw [others, mem_sum]
  exact ⟨v, by simp [other], mem⟩

end

/-! ## Slots -/

variable [DecidableEq α] {files : FilesStruct α n} {v : Slot α}

theorem slot_setSlot (table : s.tables a = some files) (v : Slot α) (b : α) (k : Fin n) :
    (s.setSlot a fd v).slot b k = if b = a ∧ k = fd then v else s.slot b k := by
  by_cases same : b = a
  · subst same
    by_cases here : k = fd
    · subst here
      simp [setSlot, table, slot, setTable]
    · simp [setSlot, table, slot, setTable, here]
  · simp [setSlot, table, slot, setTable, same]

theorem setSlot_eq (table : s.tables a = some files) (v : Slot α) :
    s.setSlot a fd v = s.setTable a (some { files with
      fdArray := update files.fdArray fd v }) := by
  rw [setSlot, table]

theorem named_setSlot [Fintype α] (table : s.tables a = some files) (fd : Fin n) (v : Slot α) :
    (s.setSlot a fd v).named + (s.slot a fd).files = s.named + v.files := by
  have point := sum_point (f := fun x : α × Fin n => (s.slot x.1 x.2).files)
    (g := fun x : α × Fin n => ((s.setSlot a fd v).slot x.1 x.2).files) (a, fd) ?_
  · simpa [named, slot_setSlot table] using point
  · intro x other
    have differs : ¬ (x.1 = a ∧ x.2 = fd) := fun same => other (Prod.ext same.1 same.2)
    simp [slot_setSlot table, differs]

/-! ## The heap -/

variable {h h' : Heap α}

/-- Descriptions keep their objects, and none is new. -/
def Older (h h' : Heap α) : Prop :=
  ∀ d y, h'.files d = some y → ∃ x, h.files d = some x ∧ SameObject x y

omit [DecidableEq α] in
theorem Older.of_files (same : h'.files = h.files) : Older h h' := by
  intro d y here
  rw [same] at here
  exact ⟨y, here, rfl, rfl, rfl⟩

theorem Older.update {v : Option (OpenFile α)} (files : h'.files = update h.files d v)
    (object : ∀ y, v = some y → ∃ x, h.files d = some x ∧ SameObject x y) : Older h h' := by
  intro e y here
  rw [files] at here
  by_cases same : e = d
  · subst same
    rw [update_self] at here
    exact object y here
  · rw [update_of_ne same] at here
    exact ⟨y, here, rfl, rfl, rfl⟩

theorem exists_of_onPipe {p e : α} (on : h.onPipe p e = true) :
    ∃ y, h.files e = some y ∧ y.kind = .pipe p := by
  simp only [onPipe, any_eq_true, decide_eq_true_eq] at on
  exact on

/-- What others do leaves alone what a task knows. -/
theorem made_of_older {pc : Pc α n} (made : pc.Made h)
    (older : ∀ d y, h'.files d = some y → (∃ x, h.files d = some x ∧ SameObject x y) ∨
      (h.files d = none ∧ ∀ p ∈ pc.makes, y.kind ≠ .pipe p))
    (alive : ∀ d ∈ pc.shut, h'.files d ≠ none) : pc.Made h' := by
  have kept {rd p : α} {r w : Bool} (shut : rd ∈ pc.shut) (known : ∃ x, h.files rd = some x ∧
      x.kind = .pipe p ∧ x.readable = r ∧ x.writable = w) : ∃ x, h'.files rd = some x ∧
      x.kind = .pipe p ∧ x.readable = r ∧ x.writable = w := by
    obtain ⟨y, there⟩ := ne_none_iff_exists'.mp (alive rd shut)
    obtain ⟨x, here, kind, readable, writable⟩ := known
    rcases older rd y there with ⟨x', found, same⟩ | ⟨missing, -⟩
    · obtain rfl := some.inj (here.symm.trans found)
      exact ⟨y, there, same.1.trans kind, same.2.1.trans readable, same.2.2.trans writable⟩
    · rw [here] at missing
      cases missing
  have on {p e : α} (mine : p ∈ pc.makes) (now : h'.onPipe p e = true) : h.onPipe p e = true := by
    obtain ⟨y, there, kind⟩ := exists_of_onPipe now
    rcases older e y there with ⟨x, found, same⟩ | ⟨-, new⟩
    · rw [onPipe_of_file found, ← same.1, kind]
      simp
    · exact absurd kind (new p mine)
  cases pc with
  | pipeMade r w p =>
    intro e
    by_contra now
    rw [Bool.not_eq_false] at now
    have before := on (by simp [makes]) now
    rw [made e] at before
    cases before
  | pipeRead r w p rd =>
    exact ⟨kept (by simp [shut]) made.1, fun e now => made.2 e (on (by simp [makes]) now)⟩
  | pipeBoth r w p rd wd =>
    exact ⟨kept (by simp [shut]) made.1, kept (by simp [shut]) made.2⟩
  | _ => exact made

/-! ## Tables and reserved descriptors -/

variable [Fintype τ] {own own' : τ → List (Fin n)} {r : List (Fin n)}

/-- A task with this table has reserved this descriptor. -/
def Owns (s : State τ α n) (own : τ → List (Fin n)) (t : τ) (a : α) (fd : Fin n) : Prop :=
  (s.tasks t).filesp = some a ∧ fd ∈ own t

/-- A table counts its tasks, and a slot is reserved when one of them has reserved it. -/
structure Tables (s : State τ α n) (own : τ → List (Fin n)) : Prop where
  table : ∀ t a, (s.tasks t).filesp = some a → s.tables a ≠ none
  count : ∀ a files, s.tables a = some files →
    files.filesCount = (univ.filter fun t => (s.tasks t).filesp = some a).card
  home : ∀ t fd, fd ∈ own t → (s.tasks t).filesp ≠ none
  init : ∀ a fd, s.slot a fd = .fdInit ↔ ∃ t, s.Owns own t a fd
  apart : ∀ t v a fd, s.Owns own t a fd → s.Owns own v a fd → t = v
  nodup : ∀ t, (own t).Nodup

def Counted (s : State τ α n) : Prop :=
  (∀ t a, (s.tasks t).filesp = some a → s.tables a ≠ none) ∧ ∀ a files, s.tables a = some files →
    files.filesCount = (univ.filter fun t => (s.tasks t).filesp = some a).card

/-- The slots stay as they are, and the tables of the tasks with reserved descriptors. -/
theorem Tables.rebase (h : s.Tables own) (slots : ∀ a fd, s'.slot a fd = s.slot a fd)
    (filesp : ∀ v, own v ≠ [] → (s'.tasks v).filesp = (s.tasks v).filesp)
    (counted : s'.Counted) : s'.Tables own := by
  have owns (v : τ) (a : α) (fd : Fin n) : s'.Owns own v a fd ↔ s.Owns own v a fd := by
    by_cases idle : own v = []
    · simp [Owns, idle]
    · rw [Owns, Owns, filesp v idle]
  refine ⟨counted.1, counted.2, fun v fd mem => ?_, ?_, ?_, h.nodup⟩
  · rw [filesp v (List.ne_nil_of_mem mem)]
    exact h.home v fd mem
  · simpa [slots, owns] using h.init
  · simpa [owns] using h.apart

theorem Tables.congr (h : s.Tables own) (tables : s'.tables = s.tables)
    (filesp : ∀ v, (s'.tasks v).filesp = (s.tasks v).filesp) : s'.Tables own := by
  refine h.rebase (fun a fd => by rw [slot, slot, tables]) (fun v _ => filesp v) ?_
  simpa only [Counted, filesp, tables] using ⟨h.table, h.count⟩

/-- One table is replaced. -/
theorem Tables.counted {f : Option (FilesStruct α n)} (h : s.Tables own)
    (used : ∀ w, (s.tasks w).filesp = some a → f ≠ none) (count : ∀ files, f = some files →
      files.filesCount = (univ.filter fun t => (s.tasks t).filesp = some a).card) : (s.setTable a f).Counted := by
  constructor
  · intro w b mine
    by_cases same : b = a
    · subst same
      simpa [setTable] using used w mine
    · simpa [setTable, same] using h.table w b mine
  · intro b files there
    by_cases same : b = a
    · subst same
      simp only [setTable, update_self] at there
      exact count files there
    · simp only [setTable, update_of_ne same] at there
      exact h.count b files there

theorem Tables.exists_table (h : s.Tables own) (mine : (s.tasks t).filesp = some a) :
    ∃ files, s.tables a = some files := ne_none_iff_exists'.mp (h.table t a mine)

theorem Tables.currentFiles (h : s.Tables own) (mine : (s.tasks t).filesp = some a) :
    ∃ files, s.tables a = some files ∧ s.currentFiles a = .ok files := by
  obtain ⟨files, table⟩ := h.exists_table mine
  have shared : 0 < (Finset.univ.filter fun t => (s.tasks t).filesp = some a).card := by
    apply Finset.card_pos.mpr
    exact ⟨t, by simp [mine]⟩
  have pos : 0 < files.filesCount := by
    rw [h.count a files table]
    exact_mod_cast shared
  simp [State.currentFiles, table, deref, check, pos]

/-- A slot changes, and with it what its table knows to be reserved. -/
theorem Tables.setSlot (h : s.Tables own)
    (table : s.tables a = some files) (home : ∀ w k, k ∈ own' w → (s.tasks w).filesp ≠ none)
    (init : v = .fdInit ↔ ∃ w, s.Owns own' w a fd)
    (others : ∀ w b k, ¬ (b = a ∧ k = fd) → (s.Owns own' w b k ↔ s.Owns own w b k))
    (apart : ∀ w w', s.Owns own' w a fd → s.Owns own' w' a fd → w = w')
    (nodup : ∀ w, (own' w).Nodup) : (s.setSlot a fd v).Tables own' := by
  have tasks : (s.setSlot a fd v).tasks = s.tasks := by rw [setSlot_eq table]; rfl
  have owns (w : τ) (b : α) (k : Fin n) :
      (s.setSlot a fd v).Owns own' w b k ↔ s.Owns own' w b k := by rw [Owns, Owns, tasks]
  have counted : (s.setSlot a fd v).Counted := by
    rw [setSlot_eq table]
    exact h.counted (fun _ _ => some_ne_none _) (by rintro _ ⟨⟩; exact h.count a files table)
  refine ⟨counted.1, counted.2, ?_, ?_, ?_, nodup⟩
  · rw [tasks]
    exact home
  · intro b k
    simp only [slot_setSlot table, owns]
    split
    · rename_i same
      rw [same.1, same.2]
      exact init
    · rename_i differs
      simp only [others _ b k differs]
      exact h.init b k
  · intro w w' b k first second
    rw [owns] at first second
    by_cases same : b = a ∧ k = fd
    · rw [same.1, same.2] at first second
      exact apart w w' first second
    · rw [others _ b k same] at first second
      exact h.apart w w' b k first second

/-- A slot that is not reserved changes and stays so. -/
theorem Tables.retake (h : s.Tables own)
    (table : s.tables a = some files) (old : s.slot a fd ≠ .fdInit) (new : v ≠ .fdInit) :
    (s.setSlot a fd v).Tables own := by
  refine h.setSlot table h.home ?_ (fun _ _ _ _ => .rfl) (fun w w' => h.apart w w' a fd) h.nodup
  rw [← h.init]
  simp [old, new]

theorem Tables.perm (h : s.Tables own) (same : ∀ v, (own' v).Perm (own v)) : s.Tables own' := by
  have owns (v : τ) (a : α) (fd : Fin n) : s.Owns own' v a fd ↔ s.Owns own v a fd := by
    rw [Owns, Owns, (same v).mem_iff]
  constructor
  · exact h.table
  · exact h.count
  · intro v fd mem
    exact h.home v fd ((same v).mem_iff.mp mem)
  · simpa [owns] using h.init
  · simpa [owns] using h.apart
  · intro v
    exact (same v).nodup_iff.mpr (h.nodup v)

variable [DecidableEq τ]

/-- A task reserves a slot. -/
theorem Tables.reserve (h : s.Tables (update own t r))
    (table : s.tables a = some files) (mine : (s.tasks t).filesp = some a)
    (free : s.slot a fd = .fdNone) : (s.setSlot a fd .fdInit).Tables (update own t (fd :: r)) := by
  have unowned (w : τ) : ¬ s.Owns (update own t r) w a fd := by
    intro owns
    have init := (h.init a fd).mpr ⟨w, owns⟩
    rw [free] at init
    cases init
  have fresh : fd ∉ r := fun mem => unowned t ⟨mine, by simpa using mem⟩
  refine h.setSlot table ?_ ?_ ?_ ?_ ?_
  · intro w k mem
    by_cases same : w = t
    · rw [same, mine]
      nofun
    · exact h.home w k (by simpa [same] using mem)
  · simp only [true_iff]
    exact ⟨t, mine, by simp⟩
  · intro w b k differs
    by_cases same : w = t
    · subst same
      simp only [Owns, mine, some.injEq, update_self, List.mem_cons]
      constructor
      · rintro ⟨rfl, here | later⟩
        · exact absurd ⟨rfl, here⟩ differs
        · exact ⟨rfl, later⟩
      · rintro ⟨rfl, later⟩
        exact ⟨rfl, .inr later⟩
    · simp [Owns, same]
  · intro w w' first second
    have only (x : τ) (owns : s.Owns (update own t (fd :: r)) x a fd) : x = t := by
      by_contra other
      exact unowned x ⟨owns.1, by simpa [other] using owns.2⟩
    rw [only w first, only w' second]
  · intro w
    by_cases same : w = t
    · subst same
      have nodup := h.nodup w
      simp only [update_self] at nodup ⊢
      exact List.nodup_cons.mpr ⟨fresh, nodup⟩
    · have nodup := h.nodup w
      simpa [same] using nodup

/-- A task gives a reserved slot up. -/
theorem Tables.release (h : s.Tables (update own t (fd :: r))) (table : s.tables a = some files)
    (mine : (s.tasks t).filesp = some a) (new : v ≠ .fdInit) :
    s.slot a fd = .fdInit ∧ (s.setSlot a fd v).Tables (update own t r) := by
  have here : s.Owns (update own t (fd :: r)) t a fd := ⟨mine, by simp⟩
  have nodup := h.nodup t
  simp only [update_self] at nodup
  obtain ⟨fresh, once⟩ := List.nodup_cons.mp nodup
  have gone (w : τ) : ¬ s.Owns (update own t r) w a fd := by
    intro owns
    by_cases same : w = t
    · subst same
      exact fresh (by simpa using owns.2)
    · exact same (h.apart w t a fd ⟨owns.1, by simpa [same] using owns.2⟩ here)
  refine ⟨(h.init a fd).mpr ⟨t, here⟩, h.setSlot table ?_ ?_ ?_ ?_ ?_⟩
  · intro w k mem
    by_cases same : w = t
    · rw [same, mine]
      nofun
    · exact h.home w k (by simpa [same] using mem)
  · simp [new, gone]
  · intro w b k differs
    by_cases same : w = t
    · subst same
      simp only [Owns, mine, some.injEq, update_self, List.mem_cons]
      constructor
      · rintro ⟨rfl, later⟩
        exact ⟨rfl, .inr later⟩
      · rintro ⟨rfl, here | later⟩
        · exact absurd ⟨rfl, here⟩ differs
        · exact ⟨rfl, later⟩
    · simp [Owns, same]
  · intro w w' first
    exact absurd first (gone w)
  · intro w
    by_cases same : w = t
    · subst same
      simpa using once
    · have other := h.nodup w
      simpa [same] using other

/-! ## References in the hand -/

variable [Fintype α] {o o' u f m : Multiset α}

/-- The counts agree with the references. -/
def Books (s : State τ α n) : Prop :=
  s.heap.Balanced (s.named + s.total opens) (s.total shut) (s.total flying)
    (s.total makes)

/-- The same while a task holds these references in its hand. -/
def Held (s : State τ α n) (t : τ) (o u f m : Multiset α) : Prop :=
  s.heap.Balanced (s.named + s.others t opens + o) (s.others t shut + u)
    (s.others t flying + f) (s.others t makes + m)

theorem books_iff (t : τ) : s.Books ↔ s.Held t (s.tasks t).pc.opens (s.tasks t).pc.shut
    (s.tasks t).pc.flying (s.tasks t).pc.makes := by
  rw [Books, Held, total_eq t, total_eq t, total_eq t, total_eq t, add_assoc]

theorem Held.congr (h : s.Held t o u f m) (heap : s'.heap = s.heap)
    (slots : ∀ a fd, s'.slot a fd = s.slot a fd)
    (tasks : ∀ v, v ≠ t → (s'.tasks v).pc = (s.tasks v).pc) : s'.Held t o u f m := by
  rw [Held, heap, named_congr slots, others_congr tasks, others_congr tasks, others_congr tasks,
    others_congr tasks]
  exact h

/-- A slot is changed, and what it named comes into the hand. -/
theorem Held.setSlot (h : s.Held t o u f m)
    (table : s.tables a = some files) (moved : o' + v.files = o + (s.slot a fd).files) :
    (s.setSlot a fd v).Held t o' u f m := by
  have named := named_setSlot table fd v
  have same : (s.setSlot a fd v).heap = s.heap := by rw [setSlot_eq table]; rfl
  have rest (part : Pc α n → List α) : (s.setSlot a fd v).others t part = s.others t part := by
    rw [setSlot_eq table]
    rfl
  have opened : (s.setSlot a fd v).named + s.others t opens + o' =
      s.named + s.others t opens + o := by
    apply add_right_cancel
    calc (s.setSlot a fd v).named + s.others t opens + o' + (v.files + (s.slot a fd).files)
        = (s.setSlot a fd v).named + (s.slot a fd).files + s.others t opens + (o' + v.files) := by
          abel
      _ = s.named + v.files + s.others t opens + (o + (s.slot a fd).files) := by rw [named, moved]
      _ = s.named + s.others t opens + o + (v.files + (s.slot a fd).files) := by abel
  rw [Held, same, rest, rest, rest, rest, opened]
  exact h

theorem Held.get (h : s.Held t o u f m) (mem : d ∈ s.named) : ∃ heap,
    s.heap.openFileGet d = .ok heap ∧ Older s.heap heap ∧
      { s with heap := heap }.Held t o u (d ::ₘ f) m := by
  obtain ⟨x, here, got, balanced⟩ := Balanced.get h (d := d) (.inl (by simp [mem]))
  refine ⟨_, got, Older.update rfl ?_, ?_⟩
  · intro y there
    obtain rfl := some.inj there
    exact ⟨x, here, rfl, rfl, rfl⟩
  · rw [← add_cons] at balanced
    exact balanced

theorem Held.share (h : s.Held t o u f m) (mem : d ∈ s.named ∨ d ∈ o) : ∃ heap,
    s.heap.openFileGetDescriptor d = .ok heap ∧ Older s.heap heap ∧
      { s with heap := heap }.Held t (d ::ₘ o) u f m := by
  obtain ⟨x, heap, here, got, files, balanced⟩ := Balanced.share h (d := d)
    (by rcases mem with slot | hand <;> simp [*])
  refine ⟨heap, got, Older.update files ?_, ?_⟩
  · intro y there
    obtain rfl := some.inj there
    exact ⟨x, here, rfl, rfl, rfl⟩
  · rw [← add_cons] at balanced
    exact balanced

theorem Held.drop (h : s.Held t (d ::ₘ o) u f m) : ∃ heap,
    s.heap.openFileDropDescriptor d = .ok heap ∧ Older s.heap heap ∧
      { s with heap := heap }.Held t o u (d ::ₘ f) m := by
  rw [Held, add_cons] at h
  obtain ⟨x, heap, here, got, files, balanced⟩ := h.drop
  refine ⟨heap, got, Older.update files ?_, ?_⟩
  · intro y there
    obtain rfl := some.inj there
    exact ⟨x, here, rfl, rfl, rfl⟩
  · rw [← add_cons] at balanced
    exact balanced

theorem Held.put (h : s.Held t o u (d ::ₘ f) m) : ∃ heap,
    s.heap.openFilePut d = .ok heap ∧ Older s.heap heap ∧ { s with heap := heap }.Held t o u f m := by
  rw [Held, add_cons] at h
  obtain ⟨heap, v, got, files, object, balanced⟩ := h.put
  exact ⟨heap, got, Older.update files object, balanced⟩

theorem Held.putCreator (h : s.Held t o u f (p ::ₘ m)) : ∃ heap,
    s.heap.pipePut p = .ok heap ∧ Older s.heap heap ∧ { s with heap := heap }.Held t o u f m := by
  rw [Held, add_cons] at h
  obtain ⟨heap, got, files, balanced⟩ := h.putCreator
  exact ⟨heap, got, Older.of_files files, balanced⟩

/-! ## One task at work -/

structure Inv (s : State τ α n) : Prop where
  books : s.Books
  made : ∀ v, (s.tasks v).pc.Made s.heap
  tables : s.Tables fun v => (s.tasks v).pc.reserved

/-- The same while a task has these references and these reserved descriptors in its hand. -/
structure InvAt (s : State τ α n) (t : τ) (o u f m : Multiset α) (r : List (Fin n)) : Prop where
  held : s.Held t o u f m
  made : ∀ v, v ≠ t → (s.tasks v).pc.Made s.heap
  tables : s.Tables (update (fun v => (s.tasks v).pc.reserved) t r)

variable {u' f' m' : Multiset α} {pc : Pc α n}

theorem Inv.take (h : s.Inv) (t : τ) (here : (s.tasks t).pc = pc) :
    s.InvAt t pc.opens pc.shut pc.flying pc.makes pc.reserved := by
  subst here
  refine ⟨(books_iff t).mp h.books, fun v _ => h.made v, ?_⟩
  rw [update_eq_self t fun v => (s.tasks v).pc.reserved]
  exact h.tables

theorem InvAt.leave (pc : Pc α n) (h : s.InvAt t pc.opens pc.shut pc.flying pc.makes pc.reserved)
    (made : pc.Made s.heap) : (s.setPc t pc).Inv := by
  have mine : ((s.setPc t pc).tasks t).pc = pc := by simp [setPc]
  have other (v : τ) (differs : v ≠ t) : ((s.setPc t pc).tasks v).pc = (s.tasks v).pc := by
    simp [setPc, differs]
  constructor
  · rw [books_iff t, mine]
    exact h.held.congr rfl (fun _ _ => rfl) other
  · intro v
    by_cases same : v = t
    · rw [same, mine]
      exact made
    · rw [other v same]
      exact h.made v same
  · have own : (fun v => ((s.setPc t pc).tasks v).pc.reserved) =
        update (fun v => (s.tasks v).pc.reserved) t pc.reserved := by
      funext v
      by_cases same : v = t
      · subst same
        rw [mine, update_self]
      · rw [other v same, update_of_ne same]
    rw [own]
    refine h.tables.congr rfl fun v => ?_
    by_cases same : v = t <;> simp [setPc, same]

theorem InvAt.withHeap {heap : Heap α} (h : s.InvAt t o u f m r)
    (held : { s with heap := heap }.Held t o' u' f' m')
    (older : ∀ v, v ≠ t → ∀ d y, heap.files d = some y →
      (∃ x, s.heap.files d = some x ∧ SameObject x y) ∨
      (s.heap.files d = none ∧ ∀ p ∈ (s.tasks v).pc.makes, y.kind ≠ .pipe p)) :
    { s with heap := heap }.InvAt t o' u' f' m' r := by
  refine ⟨held, ?_, h.tables.congr rfl fun _ => rfl⟩
  intro v other
  refine made_of_older (h.made v other) (older v other) ?_
  intro d shut
  refine (held.files.alive d).mpr (.inr (.inl ?_))
  exact mem_add.mpr (.inl (mem_others other shut))

theorem InvAt.older {heap : Heap α} (h : s.InvAt t o u f m r)
    (held : { s with heap := heap }.Held t o' u' f' m') (older : Older s.heap heap) :
    { s with heap := heap }.InvAt t o' u' f' m' r :=
  h.withHeap held fun _ _ d y there => .inl (older d y there)

theorem InvAt.setSlot {r' : List (Fin n)}
    (h : s.InvAt t o u f m r) (table : s.tables a = some files)
    (moved : o' + v.files = o + (s.slot a fd).files)
    (tables : (s.setSlot a fd v).Tables (update (fun v => (s.tasks v).pc.reserved) t r')) :
    (s.setSlot a fd v).InvAt t o' u f m r' := by
  have heap : (s.setSlot a fd v).heap = s.heap := by rw [setSlot_eq table]; rfl
  have tasks : (s.setSlot a fd v).tasks = s.tasks := by rw [setSlot_eq table]; rfl
  refine ⟨h.held.setSlot table moved, ?_, ?_⟩
  · rw [heap, tasks]
    exact h.made
  · rw [tasks]
    exact tables

theorem InvAt.fdArrayClose (h : s.InvAt t o u f m r)
    (table : s.tables a = some files) (here : s.slot a fd = .fdOpened d) : ∃ heap,
    s.fdArrayClose a fd d = .ok { s.setSlot a fd .fdNone with heap := heap } ∧
      { s.setSlot a fd .fdNone with heap := heap }.InvAt t o u (d ::ₘ f) m r := by
  have emptied : (s.setSlot a fd .fdNone).InvAt t (d ::ₘ o) u f m r := by
    refine h.setSlot table ?_ (h.tables.retake table (by rw [here]; nofun) nofun)
    simp only [here, Slot.files, ← singleton_add]
    abel
  have heap : (s.setSlot a fd .fdNone).heap = s.heap := by rw [setSlot_eq table]; rfl
  obtain ⟨after, dropped, older, held⟩ := emptied.held.drop
  refine ⟨after, ?_, emptied.older held older⟩
  rw [heap] at dropped
  simp [State.fdArrayClose, here, check, dropped]

/-- `fd_array_dup` into a slot that is free, or that the task has reserved. -/
theorem InvAt.fdArrayDup {r' : List (Fin n)} (h : s.InvAt t o u f m r)
    (table : s.tables a = some files) (mem : d ∈ s.named)
    (free : s.slot a fd = .fdNone ∨ s.slot a fd = .fdInit)
    (tables : (s.setSlot a fd (.fdOpened d)).Tables
      (update (fun v => (s.tasks v).pc.reserved) t r')) : ∃ heap,
    s.fdArrayDup a fd d = .ok { s.setSlot a fd (.fdOpened d) with heap := heap } ∧
      { s.setSlot a fd (.fdOpened d) with heap := heap }.InvAt t o u f m r' := by
  obtain ⟨heap, shared, older, held⟩ := h.held.share (.inl mem)
  have more : { s with heap := heap }.InvAt t (d ::ₘ o) u f m r := h.older held older
  have eq : ({ s with heap := heap } : State τ α n).setSlot a fd (.fdOpened d) =
      { s.setSlot a fd (.fdOpened d) with heap := heap } := by
    rw [setSlot_eq table, State.setSlot, table]
    rfl
  refine ⟨heap, ?_, ?_⟩
  · simp [State.fdArrayDup, free, check, shared]
  · rw [← eq]
    refine more.setSlot table ?_ ?_
    · have empty : (({ s with heap := heap } : State τ α n).slot a fd).files = 0 := by
        rcases free with none | init
        · exact congrArg Slot.files none
        · exact congrArg Slot.files init
      rw [empty, Slot.files, add_zero, ← singleton_add, add_comm]
    · rw [eq]
      exact tables.congr rfl fun _ => rfl

end State

end Procore.Fs.Files
