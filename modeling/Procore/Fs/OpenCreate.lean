import Procore.Fs.Vfs

/-! # Opening and creating

Processes that open and unlink names of one directory. `vfs_open` looks the name
up and creates it in two calls of the file system, each of which holds the lock
of the directory, and other processes run between them.
-/

namespace Procore.Fs.OpenCreate

open Procore.Lib Procore.Fs.Vfs
open Function

/-- Where a process is in `vfs_open`. -/
inductive Phase where
  | idle
  /-- At `vfs_lookup`. -/
  | lookup
  /-- At `vfs_lookup_parent`, after `vfs_lookup` has returned `-E_NOENT`. -/
  | create
  /-- At `vop_open`. -/
  | opening (node : Nat)
  | returned (ret : Except Errno Nat)
  deriving DecidableEq

structure Process where
  phase : Phase := .idle
  name : Name := []
  flags : OpenFlags := {}

/-- `n` processes and the directory. -/
structure State (n : Nat) where
  entries : Name → Option Nat
  /-- The number of the next new inode. -/
  next : Nat
  process : Fin n → Process

/-- What the file system reports that is not about the name. -/
abbrev Fault := { e : Errno // e ≠ .noent ∧ e ≠ .exists }

inductive Action (n : Nat) where
  | vfsOpen (p : Fin n) (name : Name) (flags : OpenFlags)
  /-- The next call of the file system in `vfs_open`. -/
  | goOn (p : Fin n) (fault : Option Fault)
  | unlink (name : Name)

namespace State

variable {n : Nat}

def sfsLookup (s : State n) (name : Name) : Option Fault → Except Errno Nat
  | some e => .error e
  | none => match s.entries name with
      | none => .error .noent
      | some node => .ok node

/-- The name can be given to a new file. -/
def GoodName (name : Name) : Prop :=
  name ≠ [] ∧ name.length ≤ fsMaxFnameLen ∧ slash ∉ name ∧ name ≠ [46] ∧ name ≠ [46, 46]

instance (name : Name) : Decidable (GoodName name) := inferInstanceAs (Decidable (_ ∧ _))

def link (s : State n) (name : Name) : State n :=
  { s with entries := update s.entries name (some s.next), next := s.next + 1 }

/-- `sfs_create`; it does not look at `excl`. -/
def sfsCreate (s : State n) (name : Name) (fault : Option Fault) : Except Errno Nat × State n :=
  if GoodName name then
    match s.sfsLookup name fault with
    | .ok _ => (.error .exists, s)
    | .error e => if e = .noent then (.ok s.next, s.link name) else (.error e, s)
  else (.error .inval, s)

def afterLookup (flags : OpenFlags) : Except Errno Nat → Phase
  | .error e => if e = .noent ∧ flags.creat then .create else .returned (.error e)
  | .ok node => if flags.excl ∧ flags.creat then .returned (.error .exists) else .opening node

def afterCreate : Except Errno Nat → Phase
  | .error e => .returned (.error e)
  | .ok node => .opening node

/-- `vfs_open` after `vop_open` and `vop_truncate`. -/
def afterOpen (node : Nat) : Option Fault → Phase
  | some e => .returned (.error e)
  | none => .returned (.ok node)

def setPhase (s : State n) (p : Fin n) (phase : Phase) : State n :=
  { s with process := update s.process p { s.process p with phase } }

def vfsOpen (s : State n) (p : Fin n) (name : Name) (flags : OpenFlags) : State n :=
  { s with process := update s.process p ⟨if flags.acc = .invalid ∨ flags.trunc ∧ flags.acc = .rdonly
      then .returned (.error .inval) else .lookup, name, flags⟩ }

def goOn (s : State n) (p : Fin n) (fault : Option Fault) : Option (State n) :=
  match (s.process p).phase with
  | .idle | .returned _ => none
  | .lookup => some (s.setPhase p (afterLookup (s.process p).flags (s.sfsLookup (s.process p).name fault)))
  | .create =>
    let created := s.sfsCreate (s.process p).name fault
    some (created.2.setPhase p (afterCreate created.1))
  | .opening node => some (s.setPhase p (afterOpen node fault))

def step (s : State n) : Action n → Option (State n)
  | .vfsOpen p name flags =>
    match (s.process p).phase with
    | .idle | .returned _ => some (s.vfsOpen p name flags)
    | _ => none
  | .goOn p fault => s.goOn p fault
  | .unlink name => some { s with entries := update s.entries name none }

/-- The process has not found its name and is about to create it. -/
def Waits (s : State n) (p : Fin n) : Prop :=
  (s.process p).phase = .create ∧ (s.process p).flags.creat = true ∧ (s.process p).flags.excl = false

/-- Another process creates the name of this one. -/
def Takes (s : State n) (q : Fin n) : Action n → Prop
  | .goOn p none => p ≠ q ∧ (s.process p).phase = .create ∧ (s.process p).name = (s.process q).name ∧
      GoodName (s.process q).name
  | _ => False

/-- Nobody creates a name that another process is about to create. -/
def Alone (s : State n) (a : Action n) : Prop := ∀ q, s.Waits q → ¬ s.Takes q a

instance (s : State n) (p : Fin n) : Decidable (s.Waits p) := inferInstanceAs (Decidable (_ ∧ _))

instance (s : State n) (q : Fin n) (a : Action n) : Decidable (s.Takes q a) := by
  unfold Takes
  split <;> infer_instance

instance (s : State n) (a : Action n) : Decidable (s.Alone a) := inferInstanceAs (Decidable (∀ _, _))

/-- A file that may be there already is opened or created, or the file system has failed. -/
def Calm (s : State n) (x : Process) : Prop :=
  x.flags.creat = true → x.flags.excl = false →
    (x.phase = .create → s.entries x.name = none) ∧
      x.phase ≠ .returned (.error .noent) ∧ x.phase ≠ .returned (.error .exists)

variable {s t : State n} {p : Fin n} {fault : Option Fault}

theorem sfsLookup_error {name : Name} {e : Errno} (failed : s.sfsLookup name fault = .error e) :
    e ≠ .exists ∧ (e = .noent → s.entries name = none ∧ fault = none) := by
  cases fault with
  | none => grind [sfsLookup]
  | some fault =>
    obtain rfl := Except.error.inj failed
    exact ⟨fault.2.2, fun absent => absurd absent fault.2.1⟩

theorem afterLookup_calm (fault : Option Fault) (x : Process) :
    s.Calm { x with phase := afterLookup x.flags (s.sfsLookup x.name fault) } := by
  intro (creat : x.flags.creat = true) (excl : x.flags.excl = false)
  cases found : s.sfsLookup x.name fault with
  | ok node => simp [afterLookup, excl]
  | error e =>
    have failed := sfsLookup_error found
    grind [afterLookup]

theorem afterCreate_calm (x : Process) (absent : s.entries x.name = none) :
    (s.sfsCreate x.name fault).2.Calm { x with phase := afterCreate (s.sfsCreate x.name fault).1 } := by
  intro _ _
  cases found : s.sfsLookup x.name fault with
  | ok node => cases fault <;> simp [sfsLookup, absent] at found
  | error e =>
    have failed := sfsLookup_error found
    grind [sfsCreate, afterCreate]

theorem sfsCreate_process (name : Name) : (s.sfsCreate name fault).2.process = s.process := by
  grind [sfsCreate, link]

theorem sfsCreate_entries {name other : Name} (absent : s.entries other = none)
    (apart : ¬ (fault = none ∧ name = other ∧ GoodName other)) :
    (s.sfsCreate name fault).2.entries other = none := by
  cases found : s.sfsLookup name fault with
  | ok node => grind [sfsCreate]
  | error e =>
    have failed := sfsLookup_error found
    simp only [sfsCreate, found]
    split_ifs
    · simp only [link, update_apply]
      grind
    · exact absent
    · exact absent

theorem goOn_calm (calm : ∀ q, s.Calm (s.process q)) (went : s.goOn p fault = some t) :
    (∀ q, q ≠ p → t.process q = s.process q) ∧ t.Calm (t.process p) := by
  rw [goOn] at went
  split at went
  case h_1 | h_2 => cases went
  case h_3 phase =>
    obtain rfl := Option.some.inj went
    refine ⟨fun q other => by simp [setPhase, other], ?_⟩
    simpa [setPhase, Calm] using afterLookup_calm fault (s.process p)
  case h_4 phase =>
    obtain rfl := Option.some.inj went
    refine ⟨fun q other => by simp [setPhase, other, sfsCreate_process], ?_⟩
    simp only [setPhase, update_self, sfsCreate_process]
    intro creat excl
    exact afterCreate_calm (s.process p) ((calm p creat excl).1 phase) creat excl
  case h_5 node phase =>
    obtain rfl := Option.some.inj went
    refine ⟨fun q other => by simp [setPhase, other], fun _ _ => ?_⟩
    cases fault with
    | none => simp [setPhase, afterOpen]
    | some e => simp [setPhase, afterOpen, e.2.1, e.2.2]

/-- A name that is not there is there after a step only if a process has created it. -/
theorem step_entries {q : Fin n} {a : Action n} (taken : s.step a = some t) (free : ¬ s.Takes q a)
    (absent : s.entries (s.process q).name = none) (other : ∀ fault, a ≠ .goOn q fault) :
    t.entries (s.process q).name = none := by
  cases a with
  | goOn p fault =>
    simp only [step, goOn] at taken
    split at taken
    case h_1 | h_2 => cases taken
    case h_3 | h_5 =>
      obtain rfl := Option.some.inj taken
      exact absent
    case h_4 phase =>
      obtain rfl := Option.some.inj taken
      refine sfsCreate_entries absent fun created => free ?_
      obtain ⟨rfl, same, good⟩ := created
      exact ⟨fun own => other none (by rw [own]), phase, same, good⟩
  | unlink name =>
    obtain rfl := Option.some.inj taken
    grind [update_apply]
  | vfsOpen p name flags =>
    rw [step] at taken
    split at taken <;> grind [vfsOpen]

/-- A process that does not run keeps what it knows when nobody creates its name. -/
theorem Calm.other {q : Fin n} {a : Action n} (calm : s.Calm (s.process q)) (alone : s.Alone a)
    (taken : s.step a = some t) (other : ∀ fault, a ≠ .goOn q fault) (same : t.process q = s.process q) :
    t.Calm (t.process q) := by
  rw [same]
  intro creat excl
  obtain ⟨absent, returned⟩ := calm creat excl
  exact ⟨fun phase => step_entries taken (alone q ⟨phase, creat, excl⟩) (absent phase) other, returned⟩

theorem step_calm (s : State n) (a : Action n) (t : State n) (calm : ∀ q, s.Calm (s.process q))
    (alone : s.Alone a) (taken : s.step a = some t) (q : Fin n) : t.Calm (t.process q) := by
  cases a with
  | goOn p fault =>
    obtain ⟨others, own⟩ := goOn_calm calm taken
    by_cases here : q = p
    · exact here ▸ own
    · exact (calm q).other alone taken (fun _ h => here (by injection h with h; exact h.symm)) (others q here)
  | unlink name =>
    refine (calm q).other alone taken (by simp) ?_
    obtain rfl := Option.some.inj taken
    rfl
  | vfsOpen p name flags =>
    have opened : t = s.vfsOpen p name flags := by
      rw [step] at taken
      split at taken <;> simp_all
    by_cases here : q = p
    · subst here opened
      intro _ _
      simp only [vfsOpen]
      split_ifs <;> simp
    · exact (calm q).other alone taken (by simp) (by simp [opened, vfsOpen, here])

/-- An open with `O_CREAT` and without `O_EXCL` is not told that the file exists. -/
theorem open_creat_opens {as : List (Action n)} (idle : ∀ p, (s.process p).phase = .idle)
    (alone : Along step Alone s as) (run : runFrom step s as = some t) {ret : Except Errno Nat}
    (returned : (t.process p).phase = .returned ret) (creat : (t.process p).flags.creat = true)
    (excl : (t.process p).flags.excl = false) : ret ≠ .error .noent ∧ ret ≠ .error .exists := by
  have calm : ∀ q, t.Calm (t.process q) :=
    runFrom_invariant step_calm (fun q _ _ => by simp [idle q]) alone run
  simpa [returned] using (calm p creat excl).2

/-- No process has called `vfs_open`, and the directory is empty. -/
def boot : State 2 := ⟨fun _ => none, 2, fun _ => {}⟩

local instance twoProcesses : @NeZero Nat Zero.ofOfNat0 2 := ⟨by decide⟩

/-- The second process creates `b` between the lookup and the creation of `a` by the first. -/
def twoNames : List (Action 2) :=
  [.vfsOpen 0 [97] { creat := true }, .vfsOpen 1 [98] { creat := true }, .goOn 0 none, .goOn 1 none,
    .goOn 1 none, .goOn 0 none, .goOn 0 none]

theorem open_creat_opens_twoNames : ∃ t, runFrom step boot twoNames = some t ∧
    (t.process 0).phase = .returned (.ok 3) ∧ Except.ok (ε := Errno) 3 ≠ .error .exists := by
  refine exists_run_test (fun t => (t.process 0).phase = .returned (.ok 3) ∧
    (t.process 0).flags.creat = true ∧ (t.process 0).flags.excl = false) (by decide) ?_
  rintro t run ⟨returned, creat, excl⟩
  exact ⟨returned, (open_creat_opens (fun _ => rfl) (by decide) run returned creat excl).2⟩

/-- Two processes look a name up; the second creates it first. -/
theorem late_creator_told_exists : ∃ t, runFrom step boot [.vfsOpen 0 [97] { creat := true },
      .vfsOpen 1 [97] { creat := true }, .goOn 0 none, .goOn 1 none, .goOn 1 none, .goOn 0 none] = some t ∧
    (t.process 0).phase = .returned (.error .exists) ∧ (t.process 0).flags = { creat := true } :=
  ⟨_, rfl, by decide, by decide⟩

end State

end Procore.Fs.OpenCreate
