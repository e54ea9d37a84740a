import Procore.Fs.VfsPaths
import Mathlib.Data.Fintype.Basic
import Mathlib.Tactic.Abel

/-! # Which calls dispatch an absent operation

A path panics the kernel when one of its components but the last names a file, and a
descriptor when it is used for what the table of its node leaves out: a directory is
read or positioned in, a file is listed, a device is synchronised or truncated.
-/

namespace Procore.Fs.Vfs

open Procore.Lib State
open Prog (wp_attempt wp_bind wp_fail wp_get wp_ite wp_modify wp_pure)

variable {ν δ : Type}

section Specs

variable {k : Mounts ν δ} {a : Answers ν} {s w t : State ν δ} {held : Multiset (Node ν δ)}
  {node x : Node ν δ} {op : Vop} {H : Halt → Prop} {fits : Prop} {fd : Nat} {readable writable : Bool}
  {f : OpenFile ν δ} {p : VfsM ν δ Unit} {path : Name} {flags : OpenFlags} {len : Nat}

/-- The nodes that a descriptor gives for a use. -/
def State.Gives (s : State ν δ) (fd : Nat) (readable writable : Bool) (x : Node ν δ) : Prop :=
  ∃ f, s.opened.lookup fd = some f ∧ (readable = true → f.readable = true) ∧
    (writable = true → f.writable = true) ∧ f.node = some x

theorem gives_iff {f : OpenFile ν δ} (here : s.opened.lookup fd = some f) : s.Gives fd readable writable x ↔
    (readable = true → f.readable = true) ∧ (writable = true → f.writable = true) ∧ f.node = some x := by
  simp [Gives, here]

theorem not_gives (none : s.opened.lookup fd = none) : ¬ s.Gives fd readable writable x := by
  simp [Gives, none]

theorem State.Gives.unique {y : Node ν δ}
    (h : s.Gives fd readable writable x) (h' : s.Gives fd readable writable y) : x = y := by
  obtain ⟨f, here, -, -, node⟩ := h
  obtain ⟨g, here', -, -, node'⟩ := h'
  rw [here] at here'
  cases here'
  rw [node] at node'
  exact Option.some.inj node'

/-- The descriptor is open for the transfer, and its node has no operation for it. -/
def State.Lacks (k : Mounts ν δ) (s : State ν δ) (op : Vop) (fd : Nat) : Prop :=
  ∃ f x, s.opened.lookup fd = some f ∧ f.allows op ∧ f.node = some x ∧ op ∉ (k.type x).ops

theorem lacks_iff {f : OpenFile ν δ} (here : s.opened.lookup fd = some f) :
    s.Lacks k op fd ↔ f.allows op ∧ ∃ x, f.node = some x ∧ op ∉ (k.type x).ops := by
  simp [Lacks, here]

theorem State.lacks_read : ¬ s.Lacks k .vopRead fd ↔ ∀ x, s.Gives fd true false x → k.type x ≠ .dir := by
  simp only [Lacks, Gives, OpenFile.allows, NodeType.mem_read]
  constructor
  · rintro none x ⟨f, here, r, -, node⟩ dir
    exact none ⟨f, x, here, ⟨fun _ => r trivial, by simp⟩, node, by simpa using dir⟩
  · rintro file ⟨f, x, here, ⟨r, -⟩, node, dir⟩
    exact dir (file x ⟨f, here, fun _ => r trivial, by simp, node⟩)

theorem State.Names.unique {y : Node ν δ} (h : s.Names k a path x) (h' : s.Names k a path y) : x = y :=
  Resolution.found.inj ((resolvePath_found.mpr h).symm.trans (resolvePath_found.mpr h'))

/-- Every node has `vop_fstat`. -/
theorem fstat_if_spec {α : Type} {c : Prop} [Decidable c] {p : VfsM ν δ α} {Q : α → State ν δ → Prop}
    {E : Errno → State ν δ → Prop} (h : p.wp H Q E w) :
    (if c then do
      dispatch k .vopFstat x
      p
    else p).wp H Q E w := by
  rw [wp_ite, wp_bind, wp_dispatch]
  exact ⟨fun _ => ⟨fun _ => h, by simp⟩, fun _ => h⟩

variable [Fintype δ]

/-- Inside of a call that has references of its own. -/
structure State.Holding (k : Mounts ν δ) (held : Multiset (Node ν δ)) (t : State ν δ) : Prop where
  inv : t.Inv k
  keeps : t.Keeps held t

theorem State.Keeps.holders (h : s.Keeps held t) : t.holders = s.holders := by
  rw [State.holders, State.holders, h.opened, h.pwd]

theorem State.Inv.holding (inv : s.Inv k) (h : s.Keeps held t) : t.Holding k held where
  inv :=
    { counted := by
        rw [h.holders]
        exact (Multiset.le_add_left _ _).trans h.counted
      pwd := by
        rw [h.pwd]
        exact inv.pwd
      readOnly := by
        rw [h.opened]
        exact inv.readOnly }
  keeps := ⟨rfl, rfl, by rw [h.holders]; exact h.counted⟩

theorem State.Inv.keeps (inv : s.Inv k) (h : s.Keeps held t) : t.Inv k := (inv.holding h).inv

theorem State.Inv.setPwd (inv : s.Inv k) (h : s.Keeps held w) (dir : k.type node = .dir) :
    State.Holding k (Multiset.ofList s.pwd.toList + held)
      { w with refs := node ::ₘ w.refs, pwd := some node } := by
  have swap : Multiset.ofList s.pwd.toList + held +
      State.holders { w with refs := node ::ₘ w.refs, pwd := some node } =
        node ::ₘ (held + s.holders) := by
    simp only [State.holders, h.opened, Option.toList_some, Multiset.coe_singleton,
      ← Multiset.singleton_add]
    abel
  have counted : Multiset.ofList s.pwd.toList + held +
      State.holders { w with refs := node ::ₘ w.refs, pwd := some node } ≤ node ::ₘ w.refs := by
    rw [swap]
    exact Multiset.cons_le_cons node h.counted
  refine ⟨⟨(Multiset.le_add_left _ _).trans counted, ?_, (inv.keeps h).readOnly⟩, rfl, rfl, counted⟩
  intro x here
  cases here
  exact dir

theorem State.Inv.push (inv : s.Inv k) (h : s.Keeps (Multiset.ofList f.node.toList) w)
    (reading : ∀ x ∈ f.node, k.type x = .dir → f.writable = false) :
    Inv k { w with opened := (fd, f) :: w.opened } where
  counted := by
    have more : holders { w with opened := (fd, f) :: w.opened } =
        Multiset.ofList f.node.toList + s.holders := by
      rw [← h.holders, holders, holders, openNodes_cons]
      abel
    rw [more]
    exact h.counted
  pwd := (inv.keeps h).pwd
  readOnly := by
    intro e inside
    cases inside with
    | head => exact reading
    | tail _ inside => exact (inv.keeps h).readOnly e inside

theorem State.Inv.pop (inv : s.Inv k) (here : s.opened.lookup fd = some f) :
    State.Holding k (Multiset.ofList f.node.toList)
      { s with opened := s.opened.eraseP (·.1 = fd) } := by
  have less : Multiset.ofList f.node.toList +
      State.holders { s with opened := s.opened.eraseP (·.1 = fd) } = s.holders := by
    rw [holders, holders, openNodes_eraseP here]
    abel
  have counted : Multiset.ofList f.node.toList +
      holders { s with opened := s.opened.eraseP (·.1 = fd) } ≤ s.refs := by
    rw [less]
    exact inv.counted
  refine ⟨⟨(Multiset.le_add_left _ _).trans counted, inv.pwd, ?_⟩, rfl, rfl, counted⟩
  exact fun e inside => inv.readOnly e (List.mem_of_mem_eraseP inside)

theorem State.Inv.not_lacks_write (inv : s.Inv k) : ¬ s.Lacks k .vopWrite fd := by
  rintro ⟨f, x, here, ⟨-, w⟩, node, missing⟩
  obtain ⟨l, l', split, -⟩ := List.lookup_eq_some_iff.mp here
  have inside : (fd, f) ∈ s.opened := by simp [split]
  have dir : k.type x = .dir := by simpa using missing
  rw [inv.readOnly _ inside x node dir] at w
  cases w rfl

theorem State.Inv.again (inv : s.Inv k) (replies : List Reply) :
    s.Keeps 0 { s with replies := replies } :=
  ⟨rfl, rfl, by simpa using inv.counted⟩

theorem State.Inv.boot {root : ν} (dir : k.sfsType root = .dir) : (boot root).Inv k where
  counted := by simp [holders, State.boot, openNodes]
  pwd := by
    intro x here
    cases here
    simp [Mounts.type, dir]
  readOnly := by simp [State.boot]

/-- The machine stops at an absent operation, for a call that does not fit. -/
def Refuses (fits : Prop) (reason : Halt) : Prop := ¬ fits ∧ ∃ op, reason = .absent op

/-- The call dispatches an absent operation unless `fits`, and otherwise returns. -/
def Judges (k : Mounts ν δ) (p : VfsM ν δ Unit) (fits : Prop) (w : State ν δ) : Prop :=
  p.wp (Refuses fits) (fun _ t => fits ∧ t.Inv k)
    (fun _ t => fits ∧ t.Inv k) w

/-- The same of a part of a call that gives its references back. -/
def State.Settles {α : Type} (s : State ν δ) (p : VfsM ν δ α) (fits : Prop) (w : State ν δ) : Prop :=
  p.wp (Refuses fits) (fun _ t => fits ∧ s.Keeps 0 t) (fun _ t => fits ∧ s.Keeps 0 t) w

/-- The same of a part of a call that still holds references. -/
def Acts (k : Mounts ν δ) (held : Multiset (Node ν δ)) (p : VfsM ν δ Unit) (fits : Prop) (w : State ν δ) : Prop :=
  p.wp (Refuses fits) (fun _ t => fits ∧ t.Holding k held) (fun _ t => fits ∧ t.Holding k held) w

theorem State.Settles.judges (h : s.Settles p fits w) (inv : s.Inv k) : Judges k p fits w :=
  Prog.wp.same h fun _ ended => ⟨ended.1, inv.keeps ended.2⟩

theorem Judges.always (h : Judges k p fits w) (good : fits) : Judges k p True w :=
  (Prog.wp.weaken h fun _ refused => absurd good refused.1).same fun _ ended => ⟨trivial, ended.2⟩

theorem fdAcquire_spec (h : s.Keeps held w) :
    (fdAcquire fd : VfsM ν δ (OpenFile ν δ)).wp H
      (fun f t => s.opened.lookup fd = some f ∧ s.Keeps held t)
      (fun _ t => s.opened.lookup fd = none ∧ s.Keeps held t) w := by
  rw [fdAcquire, wp_bind, wp_get, ← h.opened]
  cases w.opened.lookup fd with
  | none => exact ⟨rfl, h⟩
  | some f => exact ⟨rfl, h⟩

theorem regularFileAcquire_spec (h : s.Keeps held w) :
    (regularFileAcquire fd readable writable : VfsM ν δ (Node ν δ)).wp H
      (fun x t => s.Gives fd readable writable x ∧ s.Keeps held t)
      (fun _ t => (∀ x, ¬ s.Gives fd readable writable x) ∧ s.Keeps held t) w := by
  apply (fdAcquire_spec h).bind
  · intro f t acquired
    obtain ⟨here, keeps⟩ := acquired
    cases node : f.node with
    | none =>
      exact ⟨by simp [gives_iff here, node], keeps⟩
    | some x =>
      rw [wp_ite]
      refine ⟨fun fits => ⟨⟨f, here, fits.1, fits.2, node⟩, keeps⟩, fun unfit => ⟨fun y given => ?_, keeps⟩⟩
      obtain ⟨r, w, -⟩ := (gives_iff here).mp given
      exact unfit ⟨r, w⟩
  · exact fun e t failed => ⟨fun x => not_gives failed.1, failed.2⟩

/-- An operation on the node of a descriptor. -/
theorem acquire_dispatch_spec {α : Type} {rest : Node ν δ → VfsM ν δ α} (h : s.Keeps 0 w)
    (judged : fits ↔ ∀ x, s.Gives fd readable writable x → op ∈ (k.type x).ops)
    (acts : ∀ x t, fits → s.Keeps 0 t → s.Settles (rest x) fits t) : s.Settles (do
      let node ← regularFileAcquire fd readable writable
      dispatch k op node
      rest node) fits w := by
  apply (regularFileAcquire_spec h).bind
  · intro x t acquired
    rw [wp_bind, wp_dispatch]
    constructor
    · intro there
      apply acts x t _ acquired.2
      rw [judged]
      intro y given
      rwa [given.unique acquired.1]
    · exact fun missing => ⟨fun fits => missing (judged.mp fits x acquired.1), _, rfl⟩
  · intro e t failed
    exact ⟨judged.mpr fun x given => absurd given (failed.1 x), failed.2⟩

/-- The first piece of a transfer is like every other one. -/
theorem transferLoop_spec {one : VfsM ν δ Bool} (each : ∀ w, s.Keeps 0 w → s.Settles one fits w)
    (h : s.Keeps 0 w) {rounds : Nat} (some : 0 < rounds) : s.Settles (transferLoop one rounds) fits w := by
  induction rounds generalizing w with
  | zero => cases some
  | succ rounds ih =>
    apply (each w h).bind_done
    intro full t moved
    cases rounds with
    | zero =>
      rw [wp_ite]
      exact ⟨fun _ => moved, fun _ => moved⟩
    | succ rounds =>
      rw [wp_ite, wp_bind, wp_attempt]
      exact ⟨fun _ => ih moved.2 (Nat.succ_pos rounds), fun _ => moved⟩

theorem vfsRequireDir_spec (h : s.Keeps held w) : (vfsRequireDir k node).wp H
    (fun _ t => k.type node = .dir ∧ s.Keeps held t) (fun _ t => s.Keeps held t) w := by
  simp only [vfsRequireDir, vopGettype, wp_bind, wp_dispatch, wp_ite]
  exact ⟨fun _ => ⟨fun dir => ⟨dir, h⟩, fun _ => h⟩, by simp⟩

theorem reply_ends (good : fits) (h : s.Keeps 0 w) : s.Settles reply fits w :=
  (reply_spec h).same fun _ keeps => ⟨good, keeps⟩

theorem answer_ends (good : fits) (h : s.Keeps 0 w) : s.Settles answer fits w := by
  apply (draw_spec h).bind_done
  intro r t keeps
  cases r.error with
  | none | some e => exact ⟨good, keeps⟩

theorem vopOpen_spec (h : s.Keeps held w) : (vopOpen k node flags).wp H
    (fun _ t => (k.type node = .dir → flags.acc = .rdonly) ∧
      (flags.trunc = true → (k.type node).isDevice = false) ∧ s.Keeps held t)
    (fun _ t => (flags = {} → k.type node ≠ .dir) ∧ s.Keeps held t) w := by
  rw [vopOpen, wp_bind, wp_dispatch]
  refine ⟨fun _ => ?_, by simp⟩
  have device : (if flags.creat = true ∨ flags.trunc = true ∨ flags.excl = true ∨
      flags.append = true then Prog.fail .inval else reply : VfsM ν δ Unit).wp H
        (fun _ t => flags.trunc = false ∧ s.Keeps held t) (fun _ t => s.Keeps held t) w := by
    rw [wp_ite]
    refine ⟨fun _ => h, fun plain => ?_⟩
    have kept : flags.trunc = false := by
      by_contra cut
      exact plain (.inr (.inl (by simpa using cut)))
    exact (reply_spec h).mono (fun _ _ keeps => ⟨kept, keeps⟩) fun _ _ keeps => keeps
  cases type : k.type node with
  | dir =>
    rw [wp_ite]
    refine ⟨fun writing => ⟨fun plain => ?_, h⟩, fun plain => ⟨fun _ => ?_, fun _ => rfl, h⟩⟩
    · rw [plain] at writing
      simp at writing
    · by_contra writing
      exact plain (.inl writing)
  | file | link => exact ⟨by simp, fun _ => rfl, h⟩
  | chr | blk =>
    refine device.mono (fun _ _ opened => ⟨by simp, ?_, opened.2⟩) fun _ _ keeps => ⟨by simp, keeps⟩
    simp [opened.1]

theorem vopCreate_spec {name : Name} (h : s.Keeps held w) (dir : k.type node = .dir) :
    (vopCreate k a node name).wp H (fun x t => s.Keeps (x ::ₘ held) t) (fun _ t => s.Keeps held t)
      w := by
  rw [vopCreate.eq_def, wp_bind, wp_dispatch]
  refine ⟨fun _ => ?_, by simp [dir]⟩
  cases node with
  | dev d => exact h
  | sfs x =>
    dsimp only
    cases a.create x name with
    | error e => exact h
    | ok y => exact h.refInc _

/-! ## Descriptors -/

section

variable (inv : s.Inv k) (h : s.Keeps 0 w)
include inv h

theorem fileFstat_judges : Judges k (fileFstat k fd) True w := by
  apply (regularFileAcquire_spec h).bind
  · intro x t acquired
    rw [wp_dispatch]
    exact ⟨fun _ => ⟨trivial, inv.keeps acquired.2⟩, by simp⟩
  · exact fun _ t failed => ⟨trivial, inv.keeps failed.2⟩

theorem fileFsync_judges : Judges k (fileFsync k fd)
      (∀ x, s.Gives fd false false x → (k.type x).isDevice = false) w := by
  refine Settles.judges ?_ inv
  exact acquire_dispatch_spec h (by simp) fun _ t good keeps => reply_ends good keeps

theorem fileFtruncate_judges {length : Int} : Judges k (fileFtruncate k fd length)
      (0 ≤ length → ∀ x, s.Gives fd false true x → (k.type x).isDevice = false) w := by
  rw [fileFtruncate]
  by_cases negative : length < 0
  · rw [if_pos negative]
    exact ⟨fun positive => absurd positive (Int.not_le.mpr negative), inv.keeps h⟩
  rw [if_neg negative]
  refine Settles.judges ?_ inv
  apply acquire_dispatch_spec h
  · simp [Int.not_lt.mp negative]
  · exact fun _ t good keeps => reply_ends good keeps

theorem sysfileGetdirentry_judges : Judges k (sysfileGetdirentry k a fd)
      (a.memory = true → ∀ x, s.Gives fd false false x → k.type x = .dir) w := by
  rw [sysfileGetdirentry]
  by_cases memory : a.memory = true
  · rw [if_pos memory]
    refine Settles.judges ?_ inv
    apply acquire_dispatch_spec h
    · simp [memory]
    · exact fun _ t good keeps => reply_ends good keeps
  · rw [if_neg memory]
    exact ⟨fun there => absurd there memory, inv.keeps h⟩

end

theorem fileSeek_spec {whence : Whence} (h : s.Keeps 0 w)
    (judged : fits ↔ (whence ≠ .invalid → ∀ x, s.Gives fd false false x → k.type x ≠ .dir)) :
    s.Settles (fileSeek k fd whence) fits w := by
  apply (fdAcquire_spec h).bind
  · intro f t acquired
    obtain ⟨here, keeps⟩ := acquired
    cases node : f.node with
    | none =>
      exact ⟨judged.mpr (by simp [gives_iff here, node]), keeps⟩
    | some x =>
      have given : s.Gives fd false false x := ⟨f, here, by simp, by simp, node⟩
      have same : whence ≠ .invalid → (fits ↔ k.type x ≠ .dir) := by
        intro valid
        refine judged.trans ⟨fun good => good valid x given, fun other _ y given' => ?_⟩
        rwa [given'.unique given]
      have seek (valid : whence ≠ .invalid) : s.Settles (do
          dispatch k .vopTryseek x
          reply) fits t := by
        rw [Settles, wp_bind, wp_dispatch, NodeType.mem_tryseek, ← same valid]
        exact ⟨fun good => reply_ends good keeps, fun bad => ⟨bad, _, rfl⟩⟩
      cases whence with
      | set | cur => exact seek (by simp)
      | invalid => exact ⟨judged.mpr (absurd rfl), keeps⟩
      | fromEnd =>
        dsimp only
        rw [if_neg (by simp), if_pos rfl, wp_bind, wp_dispatch]
        exact ⟨fun _ => seek (by simp), by simp⟩
  · exact fun e t failed => ⟨judged.mpr fun _ x given => absurd given (not_gives failed.1), failed.2⟩

theorem fileTransfer_spec (h : s.Keeps 0 w) :
    s.Settles (fileTransfer k op fd) (¬ s.Lacks k op fd) w := by
  apply (fdAcquire_spec h).bind
  · intro f t acquired
    obtain ⟨here, keeps⟩ := acquired
    rw [wp_ite, lacks_iff here]
    constructor
    · intro allowed
      cases node : f.node with
      | none => exact answer_ends (by simp) keeps
      | some x =>
        refine fstat_if_spec ?_
        rw [transfer, wp_bind, wp_dispatch]
        constructor
        · exact fun there => answer_ends (by simp [there]) keeps
        · exact fun missing => ⟨by simp [allowed, missing], _, rfl⟩
    · exact fun refused => ⟨fun lacking => refused lacking.1, keeps⟩
  · exact fun e t failed => ⟨by simp [Lacks, failed.1], failed.2⟩

theorem filePtransfer_spec (h : s.Keeps 0 w) :
    s.Settles (filePtransfer k op fd) (¬ s.Lacks k op fd) w := by
  apply acquire_dispatch_spec h
  · simp only [State.Gives, decide_eq_true_eq]
    constructor
    · rintro good x ⟨f, here, r, w, node⟩
      by_contra missing
      exact good ⟨f, x, here, ⟨r, w⟩, node, missing⟩
    · rintro good ⟨f, x, here, ⟨r, w⟩, node, missing⟩
      exact missing (good x ⟨f, here, r, w, node⟩)
  · exact fun _ t good keeps => answer_ends good keeps

theorem pieces_pos (some : len ≠ 0) : 0 < pieces len :=
  Nat.div_pos (by unfold iobufSize; omega) (by decide)

theorem sysfileTransfer_spec (h : s.Keeps 0 w) :
    s.Settles (sysfileTransfer k a op fd len) (0 < len → a.memory = true → ¬ s.Lacks k op fd) w := by
  rw [sysfileTransfer]
  by_cases empty : len = 0
  · rw [if_pos empty]
    exact ⟨fun some => absurd empty (Nat.ne_of_gt some), h⟩
  rw [if_neg empty]
  apply (fdAcquire_spec h).bind
  · intro f t acquired
    obtain ⟨here, keeps⟩ := acquired
    rw [wp_ite]
    constructor
    · intro allowed
      rw [wp_ite]
      constructor
      · intro memory
        have fits : (0 < len → a.memory = true → ¬ s.Lacks k op fd) ↔ ¬ s.Lacks k op fd :=
          ⟨fun good => good (Nat.pos_of_ne_zero empty) memory, fun good _ _ => good⟩
        rw [fits]
        exact transferLoop_spec (fun w keeps => fileTransfer_spec keeps) keeps (pieces_pos empty)
      · exact fun none => ⟨fun _ memory => absurd memory none, keeps⟩
    · exact fun refused => ⟨fun _ _ lacking => refused ((lacks_iff here).mp lacking).1, keeps⟩
  · exact fun e t failed => ⟨fun _ _ => by simp [Lacks, failed.1], failed.2⟩

theorem sysfilePtransfer_judges {offset : Int} (inv : s.Inv k) (h : s.Keeps 0 w) :
    Judges k (sysfilePtransfer k a op fd len offset)
      (0 ≤ offset → 0 < len → a.memory = true → ¬ s.Lacks k op fd) w := by
  refine Settles.judges ?_ inv
  rw [sysfilePtransfer]
  by_cases negative : offset < 0
  · rw [if_pos negative]
    exact ⟨fun positive => absurd positive (Int.not_le.mpr negative), h⟩
  by_cases empty : len = 0
  · rw [if_neg negative, if_pos empty]
    exact ⟨fun _ some => absurd empty (Nat.ne_of_gt some), h⟩
  rw [Settles, if_neg negative, if_neg empty, wp_ite]
  constructor
  · intro memory
    have fits : (0 ≤ offset → 0 < len → a.memory = true → ¬ s.Lacks k op fd) ↔ ¬ s.Lacks k op fd :=
      ⟨fun good => good (Int.not_lt.mp negative) (Nat.pos_of_ne_zero empty) memory,
        fun good _ _ _ => good⟩
    rw [fits]
    exact transferLoop_spec (fun w keeps => filePtransfer_spec keeps) h (pieces_pos empty)
  · exact fun none => ⟨fun _ _ memory => absurd memory none, h⟩

/-! ## Paths -/

variable [DecidableEq ν] [DecidableEq δ]

theorem release_spec (good : fits) (holding : w.Holding k (x ::ₘ 0)) (ret : Except Errno Unit) :
    Judges k (do
      vopRefDec k x
      Prog.rethrow ret) fits w := by
  apply (vopRefDec_spec holding.keeps).bind_done
  intro _ t keeps
  cases ret with
  | ok _ | error e => exact ⟨good, holding.inv.keeps keeps⟩

variable {act : VfsM ν δ Unit}

theorem act_release_spec (acts : Acts k (x ::ₘ 0) act fits w) : Judges k (do
      let ret ← Prog.attempt act
      vopRefDec k x
      Prog.rethrow ret) fits w := by
  rw [Judges, wp_bind, wp_attempt]
  exact acts.mono (fun _ t ended => release_spec ended.1 ended.2 _)
    fun e t ended => release_spec ended.1 ended.2 _

/-- Look up, act, and give the reference back. -/
theorem withNode_spec {act : Node ν δ → VfsM ν δ Unit}
    (inv : s.Inv k) (h : s.Keeps 0 w) (stuck : ¬ s.ClearPath k a path → ¬ fits)
    (failed : s.ClearPath k a path → (∀ x, ¬ s.Names k a path x) → fits)
    (acts : ∀ x t, s.Names k a path x → s.ClearPath k a path → s.Keeps (x ::ₘ 0) t →
      Acts k (x ::ₘ 0) (act x) fits t) :
    Judges k (withNode k a path act) fits w := by
  apply (vfsLookup_spec inv h ?_).bind
  · intro x t looked
    obtain ⟨found, keeps⟩ := looked
    exact act_release_spec (acts x t (resolvePath_found.mp found)
      (clearPath_of_ended found (by simp)) keeps)
  · intro e t ended
    refine ⟨failed (clearPath_of_ended ended.1 (by simp)) fun x named => ?_, inv.keeps ended.2⟩
    rw [resolvePath_found.mpr named] at ended
    cases ended.1
  · exact fun here => ⟨stuck (resolvePath_stuck.mp here), _, rfl⟩

theorem sysfileStat_judges (inv : s.Inv k) (h : s.Keeps 0 w) :
    Judges k (sysfileStat k a path) (s.ClearPath k a path) w := by
  apply withNode_spec inv h id
  · exact fun clear _ => clear
  · intro x t named clear keeps
    rw [Acts, wp_dispatch]
    exact ⟨fun _ => ⟨clear, inv.holding keeps⟩, by simp⟩

theorem sysfileTruncate_judges {length : Int} (inv : s.Inv k) (h : s.Keeps 0 w) :
    Judges k (sysfileTruncate k a path length) (0 ≤ length → s.ClearPath k a path ∧
      ∀ x, s.Names k a path x → (k.type x).isDevice = false) w := by
  rw [sysfileTruncate]
  by_cases negative : length < 0
  · rw [if_pos negative]
    exact ⟨fun positive => absurd positive (Int.not_le.mpr negative), inv.keeps h⟩
  rw [if_neg negative]
  apply withNode_spec inv h
  · exact fun stuck fits => stuck (fits (Int.not_lt.mp negative)).1
  · exact fun clear none _ => ⟨clear, fun x named => absurd named (none x)⟩
  · intro x t named clear keeps
    rw [Acts, vopTruncate, wp_bind, wp_dispatch]
    constructor
    · intro there
      have fits : 0 ≤ length → s.ClearPath k a path ∧
          ∀ y, s.Names k a path y → (k.type y).isDevice = false := by
        refine fun _ => ⟨clear, fun y other => ?_⟩
        rw [other.unique named]
        exact NodeType.mem_truncate.mp there
      exact (reply_spec keeps).same fun t keeps => ⟨fits, inv.holding keeps⟩
    · intro missing
      refine ⟨fun fits => missing ?_, _, rfl⟩
      exact NodeType.mem_truncate.mpr ((fits (Int.not_lt.mp negative)).2 x named)

theorem sysfileReadlink_judges (inv : s.Inv k) (h : s.Keeps 0 w) :
    Judges k (sysfileReadlink k a path len)
      (0 < len → a.memory = true → s.ClearPath k a path) w := by
  rw [sysfileReadlink]
  by_cases empty : len = 0
  · rw [if_pos empty]
    exact ⟨fun some => absurd empty (Nat.ne_of_gt some), inv.keeps h⟩
  by_cases memory : a.memory = true
  · rw [if_neg empty, if_pos memory, vfsReadlink]
    apply withNode_spec inv h
    · exact fun stuck fits => stuck (fits (Nat.pos_of_ne_zero empty) memory)
    · exact fun clear _ _ _ => clear
    · intro x t named clear keeps
      have ends {t : State ν δ} (keeps : s.Keeps (x ::ₘ 0) t) :
          (0 < len → a.memory = true → s.ClearPath k a path) ∧ t.Holding k (x ::ₘ 0) :=
        ⟨fun _ _ => clear, inv.holding keeps⟩
      simp only [Acts, vopGettype, wp_bind, wp_dispatch, wp_ite]
      refine ⟨fun _ => ⟨fun link => ⟨fun _ => ?_, ?_⟩, fun _ => ends keeps⟩, by simp⟩
      · exact (reply_spec keeps).same fun _ => ends
      · simp [link]
  · rw [if_neg empty, if_neg memory]
    exact ⟨fun _ there => absurd there memory, inv.keeps h⟩

theorem vfsSetCurdir_spec (inv : s.Inv k) (h : s.Keeps held w) :
    (vfsSetCurdir k node).wp H (fun _ t => t.Holding k held) (fun _ t => t.Holding k held) w := by
  rw [vfsSetCurdir, wp_bind, wp_get, wp_ite]
  refine ⟨fun _ => inv.holding h, fun _ => ?_⟩
  apply (vfsRequireDir_spec h).bind
  · intro _ t required
    obtain ⟨dir, keeps⟩ := required
    simp only [vopRefInc]
    have replaced := inv.setPwd keeps dir
    rw [h.pwd]
    cases old : s.pwd with
    | none =>
      rw [old] at replaced
      simpa using replaced
    | some x =>
      rw [old] at replaced
      exact (vopRefDec_spec replaced.keeps).mono_done fun _ t keeps => replaced.inv.holding keeps
  · exact fun _ t keeps => inv.holding keeps

theorem vfsChdir_judges (inv : s.Inv k) (h : s.Keeps 0 w) :
    Judges k (vfsChdir k a path) (s.ClearPath k a path) w := by
  apply withNode_spec inv h id
  · exact fun clear _ => clear
  · intro x t named clear keeps
    exact (vfsSetCurdir_spec inv keeps).same fun _ holding => ⟨clear, holding⟩

theorem vfsDirop_judges (inv : s.Inv k) (h : s.Keeps 0 w) :
    Judges k (vfsDirop k a path) (s.ClearParent k a path) w := by
  apply (vfsLookupParent_spec inv h ?_).bind
  · rintro ⟨dir, name⟩ t ⟨found, keeps⟩
    have ends {t : State ν δ} (keeps : s.Keeps (dir ::ₘ 0) t) :
        s.ClearParent k a path ∧ t.Holding k (dir ::ₘ 0) :=
      ⟨clearParent_of_ended found (by simp), inv.holding keeps⟩
    apply act_release_spec
    rw [Acts, wp_ite]
    refine ⟨fun _ => ends keeps, fun _ => ?_⟩
    apply (vfsRequireDir_spec keeps).bind
    · intro _ t required
      exact (reply_spec required.2).same fun _ => ends
    · exact fun _ _ => ends
  · intro e t ended
    exact ⟨clearParent_of_ended ended.1 (by simp), inv.keeps ended.2⟩
  · exact fun here => ⟨resolveParent_stuck.mp here, _, rfl⟩

/-- The same with two nodes, which are given back in either order. -/
theorem act_release_both_spec {y : Node ν δ} (acts : Acts k (x ::ₘ y ::ₘ 0) act fits w) : Judges k (do
      let ret ← Prog.attempt act
      vopRefDec k x
      vopRefDec k y
      Prog.rethrow ret) fits w := by
  have ends (ret : Except Errno Unit) (t : State ν δ)
      (ended : fits ∧ t.Holding k (x ::ₘ y ::ₘ 0)) :
      Judges k (do
        vopRefDec k x
        vopRefDec k y
        Prog.rethrow ret) fits t := by
    exact (vopRefDec_spec ended.2.keeps).bind_done fun _ t keeps =>
      release_spec ended.1 (ended.2.inv.holding keeps) ret
  rw [Judges, wp_bind, wp_attempt]
  exact acts.mono (fun _ t ended => ends _ t ended) fun e t ended => ends _ t ended

theorem withParent_spec {act : Node ν δ → Name → VfsM ν δ Unit} (inv : s.Inv k) (h : s.Keeps (x ::ₘ 0) w)
    (judged : fits ↔ s.ClearParent k a path)
    (acts : ∀ dir name t, s.ClearParent k a path → s.Keeps (dir ::ₘ x ::ₘ 0) t →
      Judges k (act dir name) fits t) :
    Judges k (withParent k a x path act) fits w := by
  apply (vfsLookupParent_spec inv h ?_).bind_attempt
  · intro y t looked
    exact acts y.1 y.2 t (clearParent_of_ended looked.1 (by simp)) looked.2
  · intro e t ended
    exact release_spec (judged.mpr (clearParent_of_ended ended.1 (by simp))) (inv.holding ended.2)
      (.error e)
  · exact fun here => ⟨fun good => resolveParent_stuck.mp here (judged.mp good), _, rfl⟩

theorem vfsRename_judges {oldPath newPath : Name} (inv : s.Inv k) (h : s.Keeps 0 w) :
    Judges k (vfsRename k a oldPath newPath) (s.ClearParent k a oldPath ∧
      (s.HasParent k a oldPath → s.ClearParent k a newPath)) w := by
  apply (vfsLookupParent_spec inv h ?_).bind
  · intro old t looked
    obtain ⟨found, keeps⟩ := looked
    have clear := clearParent_of_ended found (by simp)
    have judged : _ ↔ s.ClearParent k a newPath :=
      (and_iff_right clear).trans (imp_iff_right (hasParent_iff.mpr ⟨old.1, found⟩))
    apply withParent_spec inv keeps judged
    intro newDir newName t good keeps
    have ends {t : State ν δ} (keeps : s.Keeps (newDir ::ₘ old.1 ::ₘ 0) t) :
        _ ∧ t.Holding k (old.1 ::ₘ newDir ::ₘ 0) :=
      ⟨judged.mpr good, inv.holding (Multiset.cons_swap newDir old.1 0 ▸ keeps)⟩
    apply act_release_both_spec
    rw [Acts, wp_ite]
    refine ⟨fun _ => ends keeps, fun _ => ?_⟩
    apply (vfsRequireDir_spec keeps).bind
    · intro _ t required
      apply (vfsRequireDir_spec required.2).bind
      · intro _ t required
        rw [wp_ite]
        refine ⟨fun _ => ?_, fun _ => ends required.2⟩
        exact (reply_spec required.2).same fun _ => ends
      · exact fun _ _ => ends
    · exact fun _ _ => ends
  · intro e t ended
    refine ⟨⟨clearParent_of_ended ended.1 (by simp), fun parent => ?_⟩, inv.keeps ended.2⟩
    obtain ⟨dir, found⟩ := hasParent_iff.mp parent
    rw [found] at ended
    cases ended.1
  · exact fun here => ⟨fun fits => resolveParent_stuck.mp here fits.1, _, rfl⟩

theorem vfsLink_judges {oldPath newPath : Name} (inv : s.Inv k) (h : s.Keeps 0 w) :
    Judges k (vfsLink k a oldPath newPath) (s.ClearPath k a oldPath ∧
      ((∃ x, s.Names k a oldPath x) → s.ClearParent k a newPath)) w := by
  apply (vfsLookup_spec inv h ?_).bind
  · intro target t looked
    obtain ⟨found, keeps⟩ := looked
    have clear := clearPath_of_ended found (by simp)
    have judged : _ ↔ s.ClearParent k a newPath :=
      (and_iff_right clear).trans (imp_iff_right (Exists.intro target (resolvePath_found.mp found)))
    apply withParent_spec inv keeps judged
    intro newDir newName t good keeps
    have ends {t : State ν δ} (keeps : s.Keeps (newDir ::ₘ target ::ₘ 0) t) :
        _ ∧ t.Holding k (newDir ::ₘ target ::ₘ 0) :=
      ⟨judged.mpr good, inv.holding keeps⟩
    apply act_release_both_spec
    rw [Acts, wp_ite]
    refine ⟨fun _ => ends keeps, fun _ => ?_⟩
    rw [wp_ite]
    refine ⟨fun _ => ?_, fun _ => ends keeps⟩
    apply (vfsRequireDir_spec keeps).bind
    · intro _ t required
      exact (reply_spec required.2).same fun _ => ends
    · exact fun _ _ => ends
  · intro e t ended
    refine ⟨⟨clearPath_of_ended ended.1 (by simp), ?_⟩, inv.keeps ended.2⟩
    rintro ⟨x, named⟩
    rw [resolvePath_found.mpr named] at ended
    cases ended.1
  · exact fun here => ⟨fun fits => resolvePath_stuck.mp here fits.1, _, rfl⟩

section

variable (inv : s.Inv k) (h : s.Keeps 0 w)
include inv h

theorem fileChdir_judges : Judges k (fileChdir k fd) True w := by
  apply (fdAcquire_spec h).bind
  · intro f t acquired
    cases f.node with
    | none => exact ⟨trivial, inv.keeps acquired.2⟩
    | some x =>
      exact (vfsSetCurdir_spec inv acquired.2).same fun _ holding => ⟨trivial, holding.inv⟩
  · exact fun _ t failed => ⟨trivial, inv.keeps failed.2⟩

theorem vfsGetcwd_judges : Judges k (vfsGetcwd k) True w := by
  apply (vfsGetCurdir_spec h).bind
  · intro x t found
    obtain ⟨here, keeps⟩ := found
    have dir := inv.pwd x here
    cases x with
    | dev d =>
      simp only [Mounts.type] at dir
      split at dir <;> cases dir
    | sfs y =>
      have ends {t : State ν δ} (keeps : s.Keeps (.sfs y ::ₘ 0) t) :
          True ∧ t.Holding k (.sfs y ::ₘ 0) := ⟨trivial, inv.holding keeps⟩
      apply act_release_spec
      apply (reply_spec keeps).bind
      · intro _ t keeps
        apply (reply_spec keeps).bind
        · intro _ t keeps
          rw [wp_bind, wp_dispatch]
          refine ⟨fun _ => ?_, by simp [dir]⟩
          exact (reply_spec keeps).same fun _ => ends
        · exact fun _ _ => ends
      · exact fun _ _ => ends
  · exact fun _ t failed => ⟨trivial, inv.keeps failed.2.2⟩

theorem sysfileGetcwd_judges : Judges k (sysfileGetcwd k a len) True w := by
  rw [sysfileGetcwd]
  split
  · exact ⟨trivial, inv.keeps h⟩
  · exact vfsGetcwd_judges inv h

end

/-! ## Opening and closing -/

theorem vfsClose_spec {E : Errno → State ν δ → Prop} (h : s.Keeps (node ::ₘ held) w) :
    (vfsClose k node).wp H (fun _ t => s.Keeps held t) E w := by
  rw [vfsClose, vopOpenDec, wp_bind, wp_bind, wp_get, wp_ite, wp_dispatch]
  exact ⟨fun _ => vopRefDec_spec h, fun _ => ⟨fun _ => vopRefDec_spec h, by simp⟩⟩

/-- `vop_open` lets no device be truncated and no directory be opened for writing. -/
theorem openNode_spec (h : s.Keeps (node ::ₘ held) w) :
    (openNode k node flags).wp H
      (fun _ t => (k.type node = .dir → flags.acc = .rdonly) ∧ s.Keeps (node ::ₘ held) t)
      (fun _ t => (flags = {} → k.type node ≠ .dir) ∧ s.Keeps held t) w := by
  apply (vopOpen_spec h).bind_attempt
  · intro _ t opened
    obtain ⟨reading, plain, keeps⟩ := opened
    rw [wp_ite]
    refine ⟨fun cut => ?_, fun _ => ⟨reading, keeps⟩⟩
    have given : flags = {} → k.type node ≠ .dir := by
      rintro rfl
      cases cut
    rw [wp_bind, wp_attempt, vopTruncate, wp_bind, wp_dispatch]
    refine ⟨fun _ => ?_, by simp [plain cut]⟩
    apply (reply_spec keeps).mono
    · exact fun _ t keeps => ⟨reading, keeps⟩
    · intro e t keeps
      exact (vfsClose_spec keeps).bind_done fun _ _ keeps => ⟨given, keeps⟩
  · intro e t failed
    exact (vopRefDec_spec failed.2).bind_done fun _ _ keeps => ⟨failed.1, keeps⟩

theorem createIn_spec {name : Name} (h : s.Keeps (node ::ₘ 0) w) :
    (createIn k a node name).wp H (fun x t => s.Keeps (x ::ₘ 0) t) (fun _ t => s.Keeps 0 t) w := by
  rw [createIn, wp_bind, wp_attempt]
  apply (vfsRequireDir_spec h).bind
  · intro _ t required
    apply (vopCreate_spec required.2 required.1).mono
    · intro x t keeps
      rw [Multiset.cons_swap] at keeps
      exact (vopRefDec_spec keeps).bind_done fun _ _ keeps => keeps
    · exact fun e t keeps => (vopRefDec_spec keeps).bind_done fun _ _ keeps => keeps
  · exact fun e t keeps => (vopRefDec_spec keeps).bind_done fun _ _ keeps => keeps

section

variable (inv : s.Inv k)
include inv

/-- The second walk of `vfs_open`, to the directory of a file that is not there, is clear when the
    first one was. -/
theorem findOrCreate_spec (h : s.Keeps 0 w)
    (stuck : ¬ s.ClearPath k a path → H (.absent .vopLookup)) : (findOrCreate k a path flags).wp H
      (fun x t => s.ClearPath k a path ∧ (flags = {} → s.Names k a path x) ∧ s.Keeps (x ::ₘ 0) t)
      (fun _ t => s.ClearPath k a path ∧ (flags = {} → ∀ x, ¬ s.Names k a path x) ∧ s.Keeps 0 t)
      w := by
  apply (vfsLookup_spec inv h fun here => stuck (resolvePath_stuck.mp here)).bind_attempt
  · intro x t looked
    obtain ⟨found, keeps⟩ := looked
    have clear := clearPath_of_ended found (by simp)
    rw [wp_ite]
    constructor
    · intro exclusive
      refine (vopRefDec_spec keeps).bind_done fun _ t keeps => ⟨clear, ?_, keeps⟩
      rintro rfl
      simp at exclusive
    · exact fun _ => ⟨clear, fun _ => resolvePath_found.mp found, keeps⟩
  · intro e t looked
    obtain ⟨failed, keeps⟩ := looked
    have clear := clearPath_of_ended failed (by simp)
    rw [wp_ite]
    constructor
    · intro creating
      have given (x : Node ν δ) : flags = {} → s.Names k a path x := by
        rintro rfl
        simp at creating
      have given' : flags = {} → ∀ x, ¬ s.Names k a path x := by
        rintro rfl
        simp at creating
      apply (vfsLookupParent_spec inv keeps ?_).bind
      · intro parent t looked
        exact (createIn_spec looked.2).mono (fun x _ keeps => ⟨clear, given x, keeps⟩)
          fun _ _ keeps => ⟨clear, given', keeps⟩
      · exact fun e t ended => ⟨clear, given', ended.2⟩
      · intro here
        exact absurd (clearParent_of_clearPath clear) (resolveParent_stuck.mp here)
    · intro _
      refine ⟨clear, fun _ x named => ?_, keeps⟩
      rw [resolvePath_found.mpr named] at failed
      cases failed

theorem vfsOpen_spec (h : s.Keeps 0 w)
    (judged : fits ↔ (¬ (flags.acc = .invalid ∨ flags.trunc = true ∧
      flags.acc = .rdonly) → s.ClearPath k a path)) : (vfsOpen k a path flags).wp (Refuses fits)
      (fun x t => fits ∧ (flags = {} → s.Names k a path x) ∧
        (k.type x = .dir → flags.acc = .rdonly) ∧ s.Keeps (x ::ₘ 0) t)
      (fun _ t => fits ∧ (flags = {} → ∀ x, s.Names k a path x → k.type x ≠ .dir) ∧ s.Keeps 0 t)
      w := by
  rw [vfsOpen, wp_ite]
  constructor
  · intro invalid
    refine ⟨judged.mpr (absurd invalid), ?_, h⟩
    rintro rfl
    simp at invalid
  · intro valid
    have same : fits ↔ s.ClearPath k a path := judged.trans ⟨fun good => good valid, fun good _ => good⟩
    apply (findOrCreate_spec inv h fun bad => ⟨fun good => bad (same.mp good), _, rfl⟩).bind
    · intro x t found
      obtain ⟨clear, named, keeps⟩ := found
      apply (openNode_spec keeps).bind
      · exact fun _ t opened => ⟨same.mpr clear, named, opened.1, opened.2⟩
      · intro e t failed
        refine ⟨same.mpr clear, fun plain y other => ?_, failed.2⟩
        rw [other.unique (named plain)]
        exact failed.1 plain
    · intro e t failed
      exact ⟨same.mpr failed.1, fun plain x named => absurd named (failed.2.1 plain x), failed.2.2⟩

theorem fileOpen_spec (h : s.Keeps 0 w)
    (judged : fits ↔ (¬ (flags.acc = .invalid ∨ flags.trunc = true ∧
      flags.acc = .rdonly) → s.ClearPath k a path)) : (fileOpen k a fd path flags).wp (Refuses fits)
      (fun _ t => fits ∧ t.Inv k ∧ (flags = {} → a.memory = true ∧ ∃ x f, s.Names k a path x ∧
        t.opened.lookup fd = some f ∧ f.node = some x))
      (fun _ t => fits ∧ t.Inv k ∧
        (flags = {} → a.memory = true → ∀ x, s.Names k a path x → k.type x ≠ .dir)) w := by
  rw [fileOpen, wp_ite]
  constructor
  · intro invalid
    refine ⟨judged.mpr fun valid => absurd (.inl invalid) valid, inv.keeps h, ?_⟩
    rintro rfl
    cases invalid
  · intro valid
    apply (vfsOpen_spec inv h judged).bind
    · intro x t opened
      obtain ⟨good, named, reading, keeps⟩ := opened
      refine fstat_if_spec ?_
      rw [wp_ite]
      constructor
      · intro memory
        refine ⟨good, inv.push keeps ?_,
          fun plain => ⟨memory, x, _, named plain, List.lookup_cons_self, rfl⟩⟩
        intro y here dir
        cases here
        simp [reading dir]
      · intro none
        exact (vfsClose_spec keeps).bind_done fun _ _ keeps =>
          ⟨good, inv.keeps keeps, fun _ memory => absurd memory none⟩
    · exact fun e t failed => ⟨failed.1, inv.keeps failed.2.2, fun plain _ => failed.2.1 plain⟩

theorem fileClose_spec (h : s.Keeps 0 w) :
    (fileClose k fd).wp H (fun _ t => t.Inv k) (fun _ t => t.Inv k) w := by
  apply (fdAcquire_spec h).bind
  · intro f t acquired
    obtain ⟨here, keeps⟩ := acquired
    rw [← keeps.opened] at here
    have popped := (inv.keeps keeps).pop here
    cases node : f.node with
    | none => exact popped.inv
    | some x =>
      rw [node, Option.toList_some, Multiset.coe_singleton] at popped
      exact (vfsClose_spec popped.keeps).mono_done fun _ _ keeps => popped.inv.keeps keeps
  · exact fun _ t failed => inv.keeps failed.2

/-- The reads of `load_icode`: the first seek decides. -/
theorem loadIcode_spec {lens : List Nat} (h : s.Keeps 0 w)
    (judged : fits ↔ (lens ≠ [] → ∀ x, s.Gives fd false false x → k.type x ≠ .dir)) :
    (loadIcode k a fd lens).wp (Refuses fits) (fun _ t => fits ∧ t.Inv k)
      (fun _ t => fits ∧ t.Inv k) w := by
  induction lens generalizing w fits with
  | nil =>
    have good : fits := judged.mpr (absurd rfl)
    exact (fileClose_spec inv h).same fun _ inv => ⟨good, inv⟩
  | cons len lens ih =>
    rw [loadIcode, loadIcodeRead, wp_bind, wp_bind]
    have seeks : fits ↔ (Whence.set ≠ .invalid → ∀ x, s.Gives fd false false x → k.type x ≠ .dir) := by
      simpa using judged
    apply (fileSeek_spec h seeks).mono
    · intro _ t sought
      obtain ⟨good, keeps⟩ := sought
      have file := judged.mp good (by simp)
      have reads : ¬ s.Lacks k .vopRead fd := by
        rintro ⟨f, x, here, -, node, missing⟩
        have given : s.Gives fd false false x := ⟨f, here, by simp, by simp, node⟩
        exact missing (NodeType.mem_read.mpr (file x given))
      apply ((sysfileTransfer_spec keeps).weaken ?_).mono
      · intro _ t moved
        apply ((ih moved.2 .rfl).weaken ?_).same
        · exact fun t ended => ⟨good, ended.2⟩
        · exact fun reason refused => absurd (fun _ => file) refused.1
      · exact fun _ t failed => ⟨good, inv.keeps failed.2⟩
      · exact fun reason refused => absurd (fun _ _ => reads) refused.1
    · exact fun _ t failed => ⟨failed.1, inv.keeps failed.2⟩

theorem doExecve_judges {lens : List Nat} (h : s.Keeps 0 w) : Judges k (doExecve k a fd path lens)
    (s.ClearPath k a path ∧
      (a.memory = true → lens ≠ [] → ∀ x, s.Names k a path x → k.type x ≠ .dir)) w := by
  rw [Judges, doExecve, wp_bind]
  have judged : s.ClearPath k a path ↔ (¬ (OpenFlags.acc {} = .invalid ∨ OpenFlags.trunc {} = true ∧
      OpenFlags.acc {} = .rdonly) → s.ClearPath k a path) := by
    simp
  apply ((fileOpen_spec inv h judged).weaken ?_).mono
  · intro _ t opened
    obtain ⟨clear, inv', plain⟩ := opened
    obtain ⟨memory, x, f, named, here, node⟩ := plain rfl
    have given (y : Node ν δ) : t.Gives fd false false y ↔ y = x := by
      constructor
      · intro other
        exact other.unique ⟨f, here, by simp, by simp, node⟩
      · rintro rfl
        exact ⟨f, here, by simp, by simp, node⟩
    rw [if_pos memory]
    apply loadIcode_spec inv' ⟨rfl, rfl, by simpa using inv'.counted⟩
    constructor
    · rintro ⟨-, file⟩ some y other
      rw [(given y).mp other]
      exact file memory some x named
    · intro file
      refine ⟨clear, fun _ some y other => ?_⟩
      rw [other.unique named]
      exact file some x ((given x).mpr rfl)
  · intro e t failed
    exact ⟨⟨failed.1, fun memory _ => failed.2.2 rfl memory⟩, failed.2.1⟩
  · exact fun reason refused => ⟨fun fits => refused.1 fits.1, refused.2⟩

end

end Specs

/-! ## Every call -/

namespace State

variable [DecidableEq ν] [DecidableEq δ] [Fintype δ]

/-- The call dispatches operations only that the tables have. -/
def Fits (k : Mounts ν δ) (s : State ν δ) (r : Request ν) : Prop :=
  match r.call with
  | .openPath _ path flags => ¬ (flags.acc = .invalid ∨ flags.trunc = true ∧ flags.acc = .rdonly) →
      s.ClearPath k r.answers path
  | .read fd len => 0 < len → r.answers.memory = true →
      ∀ x, s.Gives fd true false x → k.type x ≠ .dir
  | .pread fd len offset => 0 ≤ offset → 0 < len → r.answers.memory = true →
      ∀ x, s.Gives fd true false x → k.type x ≠ .dir
  | .seek fd whence => whence ≠ .invalid → ∀ x, s.Gives fd false false x → k.type x ≠ .dir
  | .fsync fd => ∀ x, s.Gives fd false false x → (k.type x).isDevice = false
  | .ftruncate fd length => 0 ≤ length →
      ∀ x, s.Gives fd false true x → (k.type x).isDevice = false
  | .getdirentry fd => r.answers.memory = true →
      ∀ x, s.Gives fd false false x → k.type x = .dir
  | .chdir path | .stat path => s.ClearPath k r.answers path
  | .truncate path length => 0 ≤ length → s.ClearPath k r.answers path ∧
      ∀ x, s.Names k r.answers path x → (k.type x).isDevice = false
  | .readlink path len => 0 < len → r.answers.memory = true → s.ClearPath k r.answers path
  | .mkdir path | .unlink path | .rmdir path | .symlink path => s.ClearParent k r.answers path
  | .rename oldPath newPath => s.ClearParent k r.answers oldPath ∧
      (s.HasParent k r.answers oldPath → s.ClearParent k r.answers newPath)
  | .link oldPath newPath => s.ClearPath k r.answers oldPath ∧
      ((∃ x, s.Names k r.answers oldPath x) → s.ClearParent k r.answers newPath)
  | .exec _ path lens => s.ClearPath k r.answers path ∧
      (r.answers.memory = true → lens ≠ [] →
        ∀ x, s.Names k r.answers path x → k.type x ≠ .dir)
  | .openOther .. | .close _ | .write .. | .pwrite .. | .fstat _ | .fchdir _ | .getcwd _ => True

variable {k : Mounts ν δ} {s t w : State ν δ} {r : Request ν} {fd : Nat}

theorem Inv.judges (inv : s.Inv k) (h : s.Keeps 0 w) :
    Judges k (r.call.run k r.answers) (s.Fits k r) w := by
  obtain ⟨call, a, replies⟩ := r
  cases call with
  | openPath fd path flags =>
    exact (fileOpen_spec inv h .rfl).mono (fun _ _ ended => ⟨ended.1, ended.2.1⟩)
      fun _ _ ended => ⟨ended.1, ended.2.1⟩
  | openOther fd readable writable =>
    exact ⟨trivial, inv.push h (by simp)⟩
  | close fd =>
    exact (fileClose_spec inv h).same fun _ inv => ⟨trivial, inv⟩
  | read fd len =>
    have spec : Judges k (sysfileRead k a fd len)
        (0 < len → a.memory = true → ¬ s.Lacks k .vopRead fd) w :=
      (sysfileTransfer_spec h).judges inv
    rw [lacks_read] at spec
    exact spec
  | write fd len =>
    have spec : Judges k (sysfileWrite k a fd len)
        (0 < len → a.memory = true → ¬ s.Lacks k .vopWrite fd) w :=
      (sysfileTransfer_spec h).judges inv
    exact spec.always fun _ _ => inv.not_lacks_write
  | pread fd len offset =>
    have spec : Judges k (sysfilePread k a fd len offset)
        (0 ≤ offset → 0 < len → a.memory = true → ¬ s.Lacks k .vopRead fd) w :=
      sysfilePtransfer_judges inv h
    rw [lacks_read] at spec
    exact spec
  | pwrite fd len offset =>
    have spec : Judges k (sysfilePwrite k a fd len offset)
        (0 ≤ offset → 0 < len → a.memory = true → ¬ s.Lacks k .vopWrite fd) w :=
      sysfilePtransfer_judges inv h
    exact spec.always fun _ _ _ => inv.not_lacks_write
  | seek fd whence => exact (fileSeek_spec h .rfl).judges inv
  | fstat fd => exact fileFstat_judges inv h
  | fsync fd => exact fileFsync_judges inv h
  | ftruncate fd length => exact fileFtruncate_judges inv h
  | getdirentry fd => exact sysfileGetdirentry_judges inv h
  | fchdir fd => exact fileChdir_judges inv h
  | getcwd len => exact sysfileGetcwd_judges inv h
  | chdir path => exact vfsChdir_judges inv h
  | stat path => exact sysfileStat_judges inv h
  | truncate path length => exact sysfileTruncate_judges inv h
  | readlink path len => exact sysfileReadlink_judges inv h
  | mkdir path | unlink path | rmdir path | symlink path => exact vfsDirop_judges inv h
  | rename oldPath newPath => exact vfsRename_judges inv h
  | link oldPath newPath => exact vfsLink_judges inv h
  | exec fd path lens => exact doExecve_judges inv h

theorem Inv.step (inv : s.Inv k) (taken : s.step k r = some t) : t.Inv k := by
  have judged := inv.judges (r := r) (inv.again r.replies)
  rw [Judges, Prog.wp] at judged
  rw [State.step] at taken
  split at taken
  · rw [outcome] at taken
    split at taken
    · rename_i ended
      rw [ended] at judged
      cases taken
      exact judged.2
    · rename_i ended
      rw [ended] at judged
      cases taken
      exact judged.2
    · cases taken
  · cases taken

/-- In every state of the system a call dispatches an absent operation just when it does not fit: a
    component of a path is looked up in a file, a directory is read, positioned in or executed, a
    device is synchronised or truncated, or something else than a directory is listed. -/
theorem dispatches_absent_iff {root : ν} {calls : List (Request ν)}
    (dir : k.sfsType root = .dir) (run : runFrom (State.step k) (State.boot root) calls = some s)
    (r : Request ν) :
    (∃ op, s.outcome k r = .halted (.absent op)) ↔ ¬ s.Fits k r := by
  have inv : s.Inv k :=
    runFrom_always (fun _ _ _ inv taken => Inv.step inv taken) (Inv.boot dir) run
  have judged := inv.judges (r := r) (inv.again r.replies)
  rw [Judges, Prog.wp] at judged
  rw [outcome]
  constructor
  · rintro ⟨op, halted⟩
    rw [halted] at judged
    exact judged.1
  · intro unfit
    split at judged
    · exact absurd judged.1 unfit
    · exact absurd judged.1 unfit
    · rename_i reason ended
      obtain ⟨-, op, rfl⟩ := judged
      exact ⟨op, ended⟩

local instance twoNodes : @NeZero Nat Zero.ofOfNat0 2 := ⟨by decide⟩

local instance oneDevice : @NeZero Nat Zero.ofOfNat0 1 := ⟨by decide⟩

/-- A root directory with one file in it, and a console. -/
def small : Mounts (Fin 2) (Fin 1) where
  sfsType x := if x = 0 then .dir else .file
  blocks _ := false
  root _ := 0
  devices := [([99], .raw 0)]
  bootfs := some 0

/-- Every name in the root is that of the file. -/
def smallAnswers : Answers (Fin 2) where
  lookup _ _ := .ok 1
  create _ _ := .error .exists

def ask (call : VfsCall) : Request (Fin 2) := ⟨call, smallAnswers, []⟩

/-- The root `/`, the file `/f` and the console `c:` are open. -/
def openAll : List (Request (Fin 2)) :=
  [ask (.openPath 3 [47] {}), ask (.openPath 4 [47, 102] {}), ask (.openPath 5 [99, 58] {})]

theorem dispatches_absent_iff_readFile : ∃ s,
    runFrom (State.step small) (State.boot 0) openAll = some s ∧
      ¬ ∃ op, s.outcome small (ask (.read 4 1)) = .halted (.absent op) := by
  have ends : (runFrom (State.step small) (State.boot 0) openAll).any fun s =>
      (s.opened.lookup 4).any fun f => f.node = some (.sfs 1) := by
    decide +kernel
  obtain ⟨s, run, here⟩ := (Option.any_eq_true _ _).mp ends
  obtain ⟨f, found, node⟩ := (Option.any_eq_true _ _).mp here
  refine ⟨s, run, fun absent => ?_⟩
  refine (dispatches_absent_iff rfl run (ask (.read 4 1))).mp absent ?_
  rintro - - x given
  obtain ⟨-, -, node'⟩ := (gives_iff found).mp given
  rw [of_decide_eq_true node] at node'
  cases node'
  decide

/-- A read of a directory, a seek in it, a listing of a file, an `fsync` of the console, a path
    through a file, and a directory that is executed. -/
theorem user_calls_dispatch_absent : ∃ s,
    runFrom (State.step small) (State.boot 0) openAll = some s ∧
      (s.outcome small (ask (.read 3 1))).haltReason = some (.absent .vopRead) ∧
      (s.outcome small (ask (.seek 3 .set))).haltReason = some (.absent .vopTryseek) ∧
      (s.outcome small (ask (.getdirentry 4))).haltReason = some (.absent .vopGetdirentry) ∧
      (s.outcome small (ask (.fsync 5))).haltReason = some (.absent .vopFsync) ∧
      (s.outcome small (ask (.stat [47, 102, 47, 120]))).haltReason = some (.absent .vopLookup) ∧
      (s.outcome small (ask (.exec 6 [47] [52]))).haltReason = some (.absent .vopTryseek) := by
  exact exists_run_test _ (by decide +kernel) fun _ _ facts => facts

end State

end Procore.Fs.Vfs
