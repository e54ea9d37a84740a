import Procore.Fs.Vfs
import Mathlib.Algebra.Order.Group.Multiset

/-! # Paths and references

How a path is resolved, and which of its components are looked up in a file, whose
table has no `vop_lookup`. Every call gives back the references that it takes; the list
of devices keeps one to each device, whose table has no `vop_reclaim`.
-/

namespace Procore.Fs.Vfs

open Procore.Lib Multiset State List Mounts
open Prog (wp_assert_pos wp_attempt wp_bind wp_get wp_ite wp_modify wp_pure)

variable {ν δ : Type}

section Paths

variable (k : Mounts ν δ) (a : Answers ν)

/-- The node that the components lead to, through directories. -/
def follow : List Name → Node ν δ → Option (Node ν δ)
  | [], node => some node
  | _ :: _, .dev _ => none
  | c :: cs, .sfs x =>
    if c.length ≤ fsMaxFnameLen ∧ k.sfsType x = .dir then
      match a.lookup x c with
      | .ok next => follow cs (.sfs next)
      | .error _ => none
    else none

/-- No component is looked up in a file. -/
def Clear (cs : List Name) (node : Node ν δ) : Prop :=
  ∀ i (_ : i < cs.length), cs[i].length ≤ fsMaxFnameLen →
    ∀ x ∈ follow k a (cs.take i) node, k.type x ≠ .file ∧ k.type x ≠ .link

inductive Resolution (ν δ : Type) where
  | found (node : Node ν δ)
  | error (e : Errno)
  /-- A component is looked up in a file. -/
  | stuck

def resolve : List Name → Node ν δ → Resolution ν δ
  | [], node => .found node
  | c :: cs, node =>
    if fsMaxFnameLen < c.length then .error .tooBig
    else match node with
      | .dev _ => .error .noent
      | .sfs x =>
        match k.sfsType x with
        | .file | .link => .stuck
        | .dir =>
          match a.lookup x c with
          | .error e => .error e
          | .ok next => resolve cs (.sfs next)

variable {k a}

variable {cs : List Name} {node : Node ν δ}

theorem follow_eq_some {x : Node ν δ} :
    follow k a cs node = some x ↔ resolve k a cs node = .found x := by
  induction cs generalizing node with
  | nil => simp [follow, resolve]
  | cons c cs ih =>
    cases node with
    | dev d =>
      rw [follow, resolve]
      split <;> simp
    | sfs y =>
      rw [follow, resolve]
      by_cases long : fsMaxFnameLen < c.length
      · simp [long]
      have short := Nat.not_lt.mp long
      rw [if_neg long]
      cases type : k.sfsType y with
      | file => simp
      | link => simp
      | dir =>
        rw [if_pos ⟨short, rfl⟩]
        cases found : a.lookup y c with
        | error e => simp
        | ok next => simpa using ih

theorem clear_nil (node : Node ν δ) : Clear k a [] node := by
  intro i inside
  cases inside

/-- The components behind the first one, when that one names a node of a directory. -/
theorem clear_cons {c : Name} :
    Clear k a (c :: cs) node ↔ (c.length ≤ fsMaxFnameLen → k.type node ≠ .file ∧ k.type node ≠ .link) ∧
      ∀ next, follow k a [c] node = some next → Clear k a cs next := by
  have split (i : Nat) : follow k a (c :: cs.take i) node =
      (follow k a [c] node).bind (follow k a (cs.take i)) := by
    cases node with
    | dev d => rfl
    | sfs x =>
      simp only [follow]
      split
      · cases a.lookup x c <;> rfl
      · rfl
  constructor
  · intro clear
    constructor
    · intro short
      exact clear 0 (Nat.succ_pos _) short node rfl
    · intro next first i inside short x here
      apply clear (i + 1) (Nat.succ_lt_succ inside) short
      rw [take_succ_cons, split, first]
      exact here
  · intro ⟨head, tail⟩ i inside short x here
    cases i with
    | zero =>
      cases here
      exact head short
    | succ i =>
      rw [take_succ_cons, split] at here
      obtain ⟨next, first, rest⟩ := Option.bind_eq_some_iff.mp here
      exact tail next first i (Nat.lt_of_succ_lt_succ inside) short x rest

theorem resolve_stuck :
    resolve k a cs node = .stuck ↔ ¬ Clear k a cs node := by
  induction cs generalizing node with
  | nil => simp [resolve, clear_nil]
  | cons c cs ih =>
    rw [clear_cons, resolve.eq_def]
    dsimp only
    by_cases long : fsMaxFnameLen < c.length
    · have none : follow k a [c] node = none := by
        cases node <;> simp [follow, Nat.not_le.mpr long]
      simp [long, none]
    have short := Nat.not_lt.mp long
    rw [if_neg long]
    cases node with
    | dev d =>
      have device : k.type (.dev d) ≠ .file ∧ k.type (.dev d) ≠ .link := by
        simp only [type]
        split <;> simp
      simp [follow, device]
    | sfs x =>
      cases type : k.sfsType x with
      | file | link => simp [Mounts.type, type, short]
      | dir =>
        cases found : a.lookup x c with
        | error e => simp [follow, found, Mounts.type, type]
        | ok next => simp [follow, found, Mounts.type, type, short, ih]

theorem Clear.dropLast (h : Clear k a cs node) :
    Clear k a cs.dropLast node := by
  intro i inside short x here
  rw [length_dropLast] at inside
  rw [getElem_dropLast] at short
  rw [dropLast_eq_take, take_take, Nat.min_eq_left (by omega)] at here
  exact h i (by omega) short x here

end Paths

/-! ## The tables -/

namespace NodeType

variable {type : NodeType}

@[simp] theorem mem_open : .vopOpen ∈ type.ops := by cases type <;> decide

@[simp] theorem mem_close : .vopClose ∈ type.ops := by cases type <;> decide

@[simp] theorem mem_fstat : .vopFstat ∈ type.ops := by cases type <;> decide

@[simp] theorem mem_gettype : .vopGettype ∈ type.ops := by cases type <;> decide

@[simp] theorem mem_read : .vopRead ∈ type.ops ↔ type ≠ .dir := by cases type <;> decide

@[simp] theorem mem_write : .vopWrite ∈ type.ops ↔ type ≠ .dir := by cases type <;> decide

@[simp] theorem mem_tryseek : .vopTryseek ∈ type.ops ↔ type ≠ .dir := by cases type <;> decide

@[simp] theorem mem_create : .vopCreate ∈ type.ops ↔ type = .dir := by cases type <;> decide

@[simp] theorem mem_namefile : .vopNamefile ∈ type.ops ↔ type = .dir := by cases type <;> decide

@[simp] theorem mem_getdirentry : .vopGetdirentry ∈ type.ops ↔ type = .dir := by
  cases type <;> decide

@[simp] theorem mem_fsync : .vopFsync ∈ type.ops ↔ type.isDevice = false := by
  cases type <;> decide

@[simp] theorem mem_truncate : .vopTruncate ∈ type.ops ↔ type.isDevice = false := by
  cases type <;> decide

@[simp] theorem mem_reclaim : .vopReclaim ∈ type.ops ↔ type.isDevice = false := by
  cases type <;> decide

@[simp] theorem mem_lookup : .vopLookup ∈ type.ops ↔ type ≠ .file ∧ type ≠ .link := by
  cases type <;> decide

end NodeType

@[simp] theorem Mounts.isDevice_sfs (k : Mounts ν δ) (x : ν) :
    (k.type (.sfs x)).isDevice = false := by
  cases type : k.sfsType x <;> simp [Mounts.type, type, NodeType.isDevice]

/-! ## Where a path leads -/

section Specs

variable {k : Mounts ν δ} {a : Answers ν} {s w t : State ν δ} {held : Multiset (Node ν δ)}
  {node : Node ν δ} {op : Vop} {H : Halt → Prop} {E : Errno → State ν δ → Prop}
  {Q : Unit → State ν δ → Prop} {path : Name} {r : Resolution ν δ}

def State.origin (k : Mounts ν δ) (s : State ν δ) (path : Name) : Except Errno (Node ν δ) :=
  let curdir := match s.pwd with
    | none => .error .noent
    | some node => .ok node
  match path.find? fun c => c = colon ∨ c = slash with
  | none => curdir
  | some c =>
    if path.head? = some slash then
      match k.bootfs with
      | none => .error .noent
      | some root => .ok (.sfs root)
    else if path.head? = some colon then
      match s.pwd with
      | some (.sfs x) => .ok (.sfs (k.root x))
      | _ => .error .noent
    else if c = colon then
      match k.devices.lookup (path.takeWhile (· ≠ colon)) with
      | none => .error .noDev
      | some .unmounted => .error .naDev
      | some (.mounted root) => .ok (.sfs root)
      | some (.raw d) => .ok (.dev d)
    else curdir

def State.resolvePath (k : Mounts ν δ) (a : Answers ν) (s : State ν δ) (path : Name) :
    Resolution ν δ :=
  match s.origin k path with
  | .error e => .error e
  | .ok x => resolve k a (components path) x

def State.resolveParent (k : Mounts ν δ) (a : Answers ν) (s : State ν δ) (path : Name) :
    Resolution ν δ :=
  match s.origin k path, (components path).getLast? with
  | .error e, _ => .error e
  | .ok _, none => .error .inval
  | .ok x, some name =>
    match resolve k a (components path).dropLast x with
    | .found dir => if fsMaxFnameLen < name.length then .error .tooBig else .found dir
    | .error e => .error e
    | .stuck => .stuck

/-- No component of the path is looked up in a file. -/
def State.ClearPath (k : Mounts ν δ) (a : Answers ν) (s : State ν δ) (path : Name) : Prop :=
  ∀ x, s.origin k path = .ok x → Clear k a (components path) x

/-- No component but the last is looked up in a file. -/
def State.ClearParent (k : Mounts ν δ) (a : Answers ν) (s : State ν δ) (path : Name) : Prop :=
  ∀ x, s.origin k path = .ok x → Clear k a (components path).dropLast x

def State.Names (k : Mounts ν δ) (a : Answers ν) (s : State ν δ) (path : Name) (x : Node ν δ) :
    Prop :=
  ∃ o, s.origin k path = .ok o ∧ follow k a (components path) o = some x

/-- The path has a last component, and what is before it leads to a node. -/
def State.HasParent (k : Mounts ν δ) (a : Answers ν) (s : State ν δ) (path : Name) : Prop :=
  ∃ o name, s.origin k path = .ok o ∧ (components path).getLast? = some name ∧
    name.length ≤ fsMaxFnameLen ∧ (follow k a (components path).dropLast o).isSome

theorem resolvePath_stuck :
    s.resolvePath k a path = .stuck ↔ ¬ s.ClearPath k a path := by
  rw [resolvePath, ClearPath]
  cases s.origin k path with
  | error e => simp
  | ok x => simp [resolve_stuck]

theorem resolvePath_found {x : Node ν δ} :
    s.resolvePath k a path = .found x ↔ s.Names k a path x := by
  rw [resolvePath, Names]
  cases s.origin k path with
  | error e => simp
  | ok o => simp [follow_eq_some]

theorem resolveParent_stuck :
    s.resolveParent k a path = .stuck ↔ ¬ s.ClearParent k a path := by
  rw [resolveParent, ClearParent]
  cases s.origin k path with
  | error e => simp
  | ok x =>
    simp only [Except.ok.injEq, forall_eq', ← resolve_stuck]
    cases last : (components path).getLast? with
    | none =>
      rw [getLast?_eq_none_iff.mp last]
      simp [resolve]
    | some name =>
      cases walked : resolve k a (components path).dropLast x with
      | found dir => by_cases long : fsMaxFnameLen < name.length <;> simp [walked, long]
      | error e => simp [walked]
      | stuck => simp [walked]

theorem hasParent_iff :
    s.HasParent k a path ↔ ∃ dir, s.resolveParent k a path = .found dir := by
  rw [resolveParent, HasParent]
  cases s.origin k path with
  | error e => simp
  | ok x =>
    cases last : (components path).getLast? with
    | none => simp
    | some name =>
      simp only [Except.ok.injEq, exists_and_left, exists_eq_left',
        Option.isSome_iff_exists, follow_eq_some]
      cases resolve k a (components path).dropLast x with
      | found dir =>
        by_cases long : fsMaxFnameLen < name.length
        · simp [long]
        · simp [long, Nat.not_lt.mp long]
      | error e => simp
      | stuck => simp

theorem clearParent_of_ended (ended : s.resolveParent k a path = r) (moved : r ≠ .stuck) :
    s.ClearParent k a path := by
  by_contra stuck
  rw [resolveParent_stuck.mpr stuck] at ended
  exact moved ended.symm

theorem clearPath_of_ended (ended : s.resolvePath k a path = r) (moved : r ≠ .stuck) :
    s.ClearPath k a path := by
  by_contra stuck
  rw [resolvePath_stuck.mpr stuck] at ended
  exact moved ended.symm

theorem clearParent_of_clearPath (h : s.ClearPath k a path) : s.ClearParent k a path :=
  fun x here => (h x here).dropLast

theorem wp_present {ops : List Vop} (there : ∀ op ∈ ops, op ∈ (k.type node).ops) :
    (present k node ops).wp H Q E w ↔ Q () w := by
  induction ops with
  | nil => rfl
  | cons op ops ih =>
    rw [present, wp_bind, wp_assert_pos (there op (.head _))]
    exact ih fun op' inside => there op' (mem_cons_of_mem op inside)

@[simp] theorem wp_dispatch : (dispatch k op node).wp H Q E w ↔
      (op ∈ (k.type node).ops → Q () w) ∧ (op ∉ (k.type node).ops → H (.absent op)) := by
  rw [dispatch]
  by_cases there : op ∈ (k.type node).ops
  · rw [wp_present]
    · simp [there]
    · intro op' inside
      cases inside with
      | head => exact there
      | tail _ called => exact NodeType.calls_present _ there called
  · simp [present, there]

/-! ## References -/

def openNodes (opened : List (Nat × OpenFile ν δ)) : Multiset (Node ν δ) :=
  ofList (opened.filterMap fun x => x.2.node)

theorem openNodes_cons (e : Nat × OpenFile ν δ) (opened : List (Nat × OpenFile ν δ)) :
    openNodes (e :: opened) = Multiset.ofList e.2.node.toList + openNodes opened := by
  rw [openNodes, List.filterMap_cons]
  cases e.2.node <;> rfl

theorem openNodes_eraseP {opened : List (Nat × OpenFile ν δ)} {fd : Nat} {f : OpenFile ν δ}
    (here : opened.lookup fd = some f) :
    openNodes opened = ofList f.node.toList + openNodes (opened.eraseP (·.1 = fd)) := by
  induction opened with
  | nil => cases here
  | cons e opened ih =>
    obtain ⟨fd', g⟩ := e
    by_cases same : fd' = fd
    · subst same
      rw [lookup_cons_self] at here
      cases here
      rw [eraseP_cons_of_pos (by simp), openNodes_cons]
    · rw [lookup_cons, beq_false_of_ne (Ne.symm same)] at here
      rw [eraseP_cons_of_neg (by simpa using same), openNodes_cons, openNodes_cons, ih here]
      exact add_left_comm _ _ _

variable [Fintype δ]

/-- The references of the descriptors, the current directory and the list of devices. -/
def State.holders (s : State ν δ) : Multiset (Node ν δ) :=
  openNodes s.opened + ofList s.pwd.toList + Finset.univ.val.map .dev

/-- In a call that began in `s` and has references of its own: the files are as before, and the
    counts cover all references. -/
structure State.Keeps (s : State ν δ) (held : Multiset (Node ν δ)) (w : State ν δ) : Prop where
  opened : w.opened = s.opened
  pwd : w.pwd = s.pwd
  counted : held + s.holders ≤ w.refs

/-- What holds between two calls. -/
structure State.Inv (k : Mounts ν δ) (s : State ν δ) : Prop where
  counted : s.holders ≤ s.refs
  pwd : ∀ x ∈ s.pwd, k.type x = .dir
  readOnly : ∀ e ∈ s.opened, ∀ x ∈ e.2.node, k.type x = .dir → e.2.writable = false

theorem State.Keeps.refInc (h : s.Keeps held w) (node : Node ν δ) :
    s.Keeps (node ::ₘ held) { w with refs := node ::ₘ w.refs } where
  opened := h.opened
  pwd := h.pwd
  counted := by
    rw [cons_add]
    exact cons_le_cons node h.counted

theorem State.device_mem_holders (s : State ν δ) (d : δ) : .dev d ∈ s.holders := by
  simp [holders]

theorem draw_spec (h : s.Keeps held w) :
    (draw : VfsM ν δ Reply).wp H (fun _ t => s.Keeps held t) E w :=
  ⟨h.opened, h.pwd, h.counted⟩

theorem reply_spec (h : s.Keeps held w) :
    (reply : VfsM ν δ Unit).wp H (fun _ t => s.Keeps held t) (fun _ t => s.Keeps held t) w := by
  apply (draw_spec h).bind_done
  intro r t keeps
  cases r.error with
  | none => exact keeps
  | some e => exact keeps

theorem vopLookup_spec {c : Name} (h : s.Keeps held w) (short : ¬ fsMaxFnameLen < c.length)
    (cs : List Name) (stuck : resolve k a (c :: cs) node = .stuck → H (.absent .vopLookup)) :
    (vopLookup k a node c).wp H
      (fun next t => resolve k a (c :: cs) node = resolve k a cs next ∧ s.Keeps (next ::ₘ held) t)
      (fun e t => resolve k a (c :: cs) node = .error e ∧ s.Keeps held t) w := by
  rw [resolve.eq_def] at stuck ⊢
  dsimp only at stuck ⊢
  rw [if_neg short] at stuck ⊢
  rw [vopLookup.eq_def, wp_bind, wp_dispatch]
  cases node with
  | dev d =>
    refine ⟨fun _ => ⟨rfl, h⟩, fun missing => ?_⟩
    simp only [type] at missing
    split at missing <;> simp at missing
  | sfs x =>
    dsimp only at stuck
    simp only [type]
    cases type : k.sfsType x with
    | file | link =>
      rw [type] at stuck
      simp [stuck]
    | dir =>
      refine ⟨fun _ => ?_, by simp⟩
      cases found : a.lookup x c with
      | error e => exact ⟨rfl, h⟩
      | ok y => exact ⟨rfl, h.refInc _⟩

theorem vfsGetCurdir_spec (h : s.Keeps held w) :
    (vfsGetCurdir : VfsM ν δ (Node ν δ)).wp H
      (fun x t => s.pwd = some x ∧ s.Keeps (x ::ₘ held) t)
      (fun e t => s.pwd = none ∧ e = .noent ∧ s.Keeps held t) w := by
  rw [vfsGetCurdir, wp_bind, wp_get, ← h.pwd]
  cases here : w.pwd with
  | none => exact ⟨rfl, rfl, h⟩
  | some x => exact ⟨rfl, h.refInc x⟩

variable [DecidableEq ν] [DecidableEq δ]

theorem vopRefDec_spec (h : s.Keeps (node ::ₘ held) w) :
    (vopRefDec k node).wp H (fun _ t => s.Keeps held t) E w := by
  have counted := h.counted
  rw [cons_add] at counted
  have here : node ∈ w.refs := mem_of_le counted (mem_cons_self node _)
  have rest : held + s.holders ≤ w.refs.erase node := by
    rw [← erase_cons_head node (held + s.holders)]
    exact erase_le_erase node counted
  have keeps : s.Keeps held { w with refs := w.refs.erase node } := ⟨h.opened, h.pwd, rest⟩
  simp only [vopRefDec, wp_bind, wp_get, wp_assert_pos here,
    wp_ite, wp_dispatch]
  refine ⟨fun _ => keeps, fun gone => ⟨fun _ => keeps, fun missing => ?_⟩⟩
  cases node with
  | sfs x => simp at missing
  | dev d =>
    have more : Node.dev d ∈ held + s.holders :=
      mem_add.mpr (.inr (s.device_mem_holders d))
    exact absurd (mem_of_le rest more) gone

theorem walk_spec {cs : List Name} (h : s.Keeps (node ::ₘ held) w)
    (stuck : resolve k a cs node = .stuck → H (.absent .vopLookup)) :
    (walk k a cs node).wp H (fun x t => resolve k a cs node = .found x ∧ s.Keeps (x ::ₘ held) t)
      (fun e t => resolve k a cs node = .error e ∧ s.Keeps held t) w := by
  induction cs generalizing node w with
  | nil => exact ⟨by rw [resolve], h⟩
  | cons c cs ih =>
    rw [walk, wp_ite]
    constructor
    · exact fun long => (vopRefDec_spec h).bind_done fun _ t keeps => ⟨if_pos long, keeps⟩
    · intro short
      apply (vopLookup_spec h short cs stuck).bind_attempt
      · intro next t looked
        obtain ⟨same, keeps⟩ := looked
        rw [same] at stuck ⊢
        rw [cons_swap] at keeps
        exact (vopRefDec_spec keeps).bind_done fun _ t keeps => ih keeps stuck
      · intro e t failed
        obtain ⟨same, keeps⟩ := failed
        exact (vopRefDec_spec keeps).bind_done fun _ t keeps => ⟨same, keeps⟩

theorem curdirRoot_spec (inv : s.Inv k) (h : s.Keeps held w) :
    (curdirRoot k).wp H (fun x t => ∃ y, s.pwd = some (.sfs y) ∧ x = .sfs (k.root y) ∧
        s.Keeps (x ::ₘ held) t)
      (fun e t => s.pwd = none ∧ e = .noent ∧ s.Keeps held t) w := by
  apply (vfsGetCurdir_spec h).bind_done
  intro x t found
  obtain ⟨here, keeps⟩ := found
  cases x with
  | dev d =>
    have dir := inv.pwd _ here
    simp only [type] at dir
    split at dir <;> cases dir
  | sfs y =>
    have both := keeps.refInc (.sfs (k.root y))
    rw [cons_swap] at both
    exact (vopRefDec_spec both).bind_done fun _ t keeps => ⟨y, here, rfl, keeps⟩

theorem getDevice_spec (inv : s.Inv k) (h : s.Keeps held w) (path : Name) :
    (getDevice k path).wp H (fun x t => s.origin k path = .ok x ∧ s.Keeps (x ::ₘ held) t)
      (fun e t => s.origin k path = .error e ∧ s.Keeps held t) w := by
  have curdir : (vfsGetCurdir : VfsM ν δ (Node ν δ)).wp H
      (fun x t => (match s.pwd with
        | none => Except.error Errno.noent
        | some node => .ok node) = .ok x ∧ s.Keeps (x ::ₘ held) t)
      (fun e t => (match s.pwd with
        | none => Except.error Errno.noent
        | some node => .ok node) = .error e ∧ s.Keeps held t) w := by
    apply (vfsGetCurdir_spec h).mono
    · intro x t found
      rw [found.1]
      exact ⟨rfl, found.2⟩
    · intro e t failed
      rw [failed.1, failed.2.1]
      exact ⟨rfl, failed.2.2⟩
  rw [getDevice, origin]
  cases path.find? (fun c => c = colon ∨ c = slash) with
  | none => exact curdir
  | some c =>
    by_cases top : path.head? = some slash
    · simp only [if_pos top, vfsGetBootfs]
      cases k.bootfs with
      | none => exact ⟨rfl, h⟩
      | some root => exact ⟨rfl, h.refInc _⟩
    by_cases bare : path.head? = some colon
    · simp only [if_neg top, if_pos bare]
      apply (curdirRoot_spec inv h).mono
      · rintro x t ⟨y, here, rfl, keeps⟩
        rw [here]
        exact ⟨rfl, keeps⟩
      · rintro e t ⟨none, rfl, keeps⟩
        rw [none]
        exact ⟨rfl, keeps⟩
    · by_cases device : c = colon
      · simp only [if_neg top, if_neg bare, if_pos device, vfsGetRoot]
        cases k.devices.lookup (path.takeWhile (· ≠ colon)) with
        | none => exact ⟨rfl, h⟩
        | some entry =>
          cases entry with
          | unmounted => exact ⟨rfl, h⟩
          | mounted root | raw d => exact ⟨rfl, h.refInc _⟩
      · simp only [if_neg top, if_neg bare, if_neg device]
        exact curdir

theorem vfsLookup_spec (inv : s.Inv k) (h : s.Keeps held w)
    (stuck : s.resolvePath k a path = .stuck → H (.absent .vopLookup)) :
    (vfsLookup k a path).wp H
      (fun x t => s.resolvePath k a path = .found x ∧ s.Keeps (x ::ₘ held) t)
      (fun e t => s.resolvePath k a path = .error e ∧ s.Keeps held t) w := by
  rw [vfsLookup, wp_bind]
  rw [resolvePath] at stuck ⊢
  apply (getDevice_spec inv h path).mono
  · intro x t started
    obtain ⟨here, keeps⟩ := started
    rw [here] at stuck ⊢
    exact walk_spec keeps stuck
  · intro e t failed
    rw [failed.1]
    exact ⟨rfl, failed.2⟩

theorem vfsLookupParent_spec (inv : s.Inv k) (h : s.Keeps held w)
    (stuck : s.resolveParent k a path = .stuck → H (.absent .vopLookup)) :
    (vfsLookupParent k a path).wp H
      (fun x t => s.resolveParent k a path = .found x.1 ∧ s.Keeps (x.1 ::ₘ held) t)
      (fun e t => s.resolveParent k a path = .error e ∧ s.Keeps held t) w := by
  rw [vfsLookupParent, wp_bind]
  rw [resolveParent] at stuck ⊢
  apply (getDevice_spec inv h path).mono
  · intro x t started
    obtain ⟨here, keeps⟩ := started
    rw [here] at stuck ⊢
    cases last : (components path).getLast? with
    | none => exact (vopRefDec_spec keeps).bind_done fun _ _ keeps => ⟨rfl, keeps⟩
    | some name =>
      rw [last] at stuck
      dsimp only at stuck ⊢
      apply (walk_spec keeps ?_).bind
      · intro dir t walked
        obtain ⟨found, keeps⟩ := walked
        rw [found]
        dsimp only
        rw [wp_ite]
        constructor
        · intro long
          rw [if_pos long]
          exact (vopRefDec_spec keeps).bind_done fun _ _ keeps => ⟨rfl, keeps⟩
        · intro short
          rw [if_neg short]
          exact ⟨rfl, keeps⟩
      · intro e t failed
        rw [failed.1]
        exact ⟨rfl, failed.2⟩
      · intro here
        apply stuck
        rw [here]
  · intro e t failed
    rw [failed.1]
    exact ⟨rfl, failed.2⟩

end Specs

end Procore.Fs.Vfs
