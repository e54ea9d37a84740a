import Procore.Lib.Run

/-! # Reference counts and reclaim tokens of one in-memory inode

A lookup that raises the reference count from zero adds a reclaim token, and
the task that lowers it to zero goes on to `sfs_reclaim`, which spends one. Only
the reclaim that spends the last token of an unreferenced inode may free it.

A reclaim that finds the inode referenced again returns without spending its
token. The token it was sent to spend then has no reclaim left to spend it, and
no later reclaim of that inode ever finds the last one.
-/

namespace Procore.Sfs

open Procore.Lib

/-- `ref_count` of the inode and `reclaim_count` of its SFS part. -/
structure InodeRefs where
  refCount : Nat := 1
  reclaimCount : Nat := 1
  deriving DecidableEq, Repr

namespace InodeRefs

/-- `lookup_sfs_nolock` on a hit: `vop_ref_inc`, and a token if the count was zero. -/
def lookup (r : InodeRefs) : InodeRefs :=
  { refCount := r.refCount + 1
    reclaimCount := if r.refCount + 1 = 1 then r.reclaimCount + 1 else r.reclaimCount }

/-- `atomic_inc_return` by a task that already holds a reference. -/
def refInc (r : InodeRefs) : InodeRefs := { r with refCount := r.refCount + 1 }

/-- `atomic_dec_return`; the flag says that the caller goes on to `vop_reclaim`. -/
def refDec (r : InodeRefs) : InodeRefs × Bool :=
  ({ r with refCount := r.refCount - 1 }, r.refCount - 1 = 0)

/-- The verdict of the first test of `sfs_reclaim`. -/
inductive Verdict where
  /-- `assert(sin->reclaim_count > 0)` fails. -/
  | assertFails
  /-- Return `-E_BUSY`. -/
  | busy
  /-- The last token is spent: free the inode. -/
  | last
  deriving DecidableEq, Repr

/-- The head of `sfs_reclaim`: the token is spent only when the inode is
    unreferenced. -/
def reclaim (r : InodeRefs) : Verdict × InodeRefs :=
  if r.reclaimCount = 0 then (.assertFails, r)
  else if r.refCount ≠ 0 then (.busy, r)
  else
    let spent := { r with reclaimCount := r.reclaimCount - 1 }
    if spent.reclaimCount ≠ 0 then (.busy, spent) else (.last, spent)

end InodeRefs

/-- One in-memory inode and the tasks around it. `holders` has one entry for each
    reference, `reclaiming` one for each task between its drop to zero and the
    section of `sfs_reclaim` under the file-system lock. -/
structure InodeLife where
  refs : InodeRefs := {}
  nlinks : Nat := 1
  hashed : Bool := true
  holders : List Nat := [0]
  reclaiming : List Nat := []
  /-- How often the inode was freed. -/
  frees : Nat := 0
  /-- Its blocks were given back to the free map. -/
  released : Bool := false
  /-- An assertion failed. -/
  halted : Bool := false

/-- One atomic section or one atomic counter operation of a task. -/
inductive LifeLabel where
  | lookup (task : Nat)
  | refInc (task : Nat)
  | refDec (task : Nat)
  | unlink (task : Nat)
  /-- `sfs_reclaim` under the file-system lock; `io` says that its truncate and
      write-back succeed. -/
  | reclaim (task : Nat) (io : Bool)

namespace InodeLife

/-- The section of `sfs_reclaim` once its task runs it. -/
def reclaimSection (s : InodeLife) (io : Bool) : InodeLife :=
  match s.refs.reclaim with
  | (.assertFails, _) => { s with halted := true }
  | (.busy, refs) => { s with refs := refs }
  | (.last, refs) =>
    if io then
      { s with
        refs := refs
        hashed := false
        frees := s.frees + 1
        released := s.nlinks = 0 }
    else { s with refs := refs }

/-- One step. Only an inode still in the hash list is found by a lookup, and only
    a holder can use or drop a reference. -/
def step (s : InodeLife) (l : LifeLabel) : Option InodeLife :=
  if s.halted then none
  else match l with
    | .lookup task =>
      if s.hashed then some { s with refs := s.refs.lookup, holders := task :: s.holders }
      else none
    | .refInc task =>
      if task ∈ s.holders then
        some { s with refs := s.refs.refInc, holders := task :: s.holders }
      else none
    | .refDec task =>
      if task ∈ s.holders then
        some { s with
          refs := s.refs.refDec.1
          holders := s.holders.erase task
          reclaiming := if s.refs.refDec.2 then task :: s.reclaiming else s.reclaiming }
      else none
    | .unlink task =>
      if task ∈ s.holders ∧ 0 < s.nlinks then some { s with nlinks := s.nlinks - 1 } else none
    | .reclaim task io =>
      if task ∈ s.reclaiming then
        some (reclaimSection { s with reclaiming := s.reclaiming.erase task } io)
      else none

/-- What is expected of every state: no assertion fails, the inode is freed at
    most once and never while referenced, and once nobody references it and no
    reclaim is on its way it has been freed, with its blocks if it is unlinked. -/
structure Sound (s : InodeLife) : Prop where
  running : s.halted = false
  once : s.frees ≤ 1
  unreferenced : 0 < s.frees → s.refs.refCount = 0
  freed : s.refs.refCount = 0 → s.reclaiming = [] → s.frees = 1 ∧ (s.nlinks = 0 → s.released)

/-- The condition on a step: a reclaim runs while the inode is unreferenced, and
    its truncate and write-back succeed. -/
def ReclaimCond (s : InodeLife) : LifeLabel → Prop
  | .reclaim _ io => s.refs.refCount = 0 ∧ io = true
  | _ => True

instance (s : InodeLife) : ∀ l, Decidable (s.ReclaimCond l)
  | .reclaim _ io => inferInstanceAs (Decidable (s.refs.refCount = 0 ∧ io = true))
  | .lookup _ | .refInc _ | .refDec _ | .unlink _ => isTrue trivial

/-- One token for a referenced inode. -/
def held (s : InodeLife) : Nat := if s.refs.refCount = 0 then 0 else 1

/-- What every step keeps. `slack` counts the tokens that no reclaim is left to
    spend. -/
structure TokenInv (s : InodeLife) (slack : Nat) : Prop where
  running : s.halted = false
  references : s.refs.refCount = s.holders.length
  tokens : s.frees = 0 → s.refs.reclaimCount = s.reclaiming.length + s.held + slack
  hashed : s.hashed = (s.frees == 0)
  once : s.frees ≤ 1
  gone : 0 < s.frees → s.holders = [] ∧ s.reclaiming = [] ∧ (s.nlinks = 0 → s.released)

theorem tokenInv_init : TokenInv {} 0 where
  running := rfl
  references := rfl
  tokens := fun _ => rfl
  hashed := rfl
  once := by decide
  gone := by decide

/-- A reclaim of a referenced inode leaves one token that nobody will spend;
    every other step leaves the slack as it was. -/
def slackOf (s : InodeLife) : LifeLabel → Nat
  | .reclaim _ _ => if s.refs.refCount = 0 then 0 else 1
  | _ => 0

variable {s : InodeLife}

/-- The section of `sfs_reclaim`, in terms of the counters it finds. -/
theorem reclaimSection_cases (io : Bool) (token : 0 < s.refs.reclaimCount) :
    (s.refs.refCount ≠ 0 ∧ s.reclaimSection io = s) ∨
    (s.refs.refCount = 0 ∧ (1 < s.refs.reclaimCount ∨ io = false) ∧
      s.reclaimSection io =
        { s with refs := { s.refs with reclaimCount := s.refs.reclaimCount - 1 } }) ∨
    (s.refs.refCount = 0 ∧ s.refs.reclaimCount = 1 ∧ io = true ∧
      s.reclaimSection io =
        { s with
          refs := { s.refs with reclaimCount := 0 }
          hashed := false
          frees := s.frees + 1
          released := s.nlinks = 0 }) := by
  have nonzero : s.refs.reclaimCount ≠ 0 := by omega
  by_cases free : s.refs.refCount = 0
  · right
    by_cases last : s.refs.reclaimCount = 1
    · cases io with
      | false =>
        simp [reclaimSection, InodeRefs.reclaim, free, last]
      | true =>
        simp [reclaimSection, InodeRefs.reclaim, free, last]
    · left
      have more : s.refs.reclaimCount - 1 ≠ 0 := by omega
      refine ⟨free, .inl (by omega), ?_⟩
      simp [reclaimSection, InodeRefs.reclaim, free, nonzero, more]
  · left
    exact ⟨free, by simp [reclaimSection, InodeRefs.reclaim, free, nonzero]⟩

variable {slack : Nat}

theorem TokenInv.unfreed_of_sent {task : Nat} (inv : TokenInv s slack)
    (sent : task ∈ s.reclaiming) : s.frees = 0 := by
  by_contra freed
  simp [(inv.gone (by omega)).2.1] at sent

variable {s' : InodeLife} {l : LifeLabel}

theorem step_tokenInv (inv : TokenInv s slack)
    (taken : s.step l = some s') : TokenInv s' (slack + s.slackOf l) := by
  have live : ¬ s.halted = true := by simp [inv.running]
  cases l with
  | lookup task =>
    rw [step, if_neg live] at taken
    obtain ⟨found, ⟨⟩⟩ := Option.ite_none_right_eq_some.mp taken
    have unfreed : s.frees = 0 := by simpa [inv.hashed] using found
    have tokens := inv.tokens unfreed
    constructor
    · exact inv.running
    · simp [InodeRefs.lookup, inv.references]
    · by_cases zero : s.refs.refCount = 0 <;>
        simp [InodeRefs.lookup, held, slackOf, zero] at tokens ⊢ <;> omega
    · exact inv.hashed
    · exact inv.once
    · intro freed
      simp only at freed
      omega
  | refInc task =>
    rw [step, if_neg live] at taken
    obtain ⟨holder, ⟨⟩⟩ := Option.ite_none_right_eq_some.mp taken
    have positive : 0 < s.holders.length := List.length_pos_of_mem holder
    have references := inv.references
    constructor
    · exact inv.running
    · simp [InodeRefs.refInc, references]
    · intro unfreed
      have tokens := inv.tokens unfreed
      have zero : s.refs.refCount ≠ 0 := by omega
      simpa [InodeRefs.refInc, held, slackOf, zero] using tokens
    · exact inv.hashed
    · exact inv.once
    · intro freed
      simp [(inv.gone freed).1] at holder
  | refDec task =>
    rw [step, if_neg live] at taken
    obtain ⟨holder, ⟨⟩⟩ := Option.ite_none_right_eq_some.mp taken
    have positive : 0 < s.holders.length := List.length_pos_of_mem holder
    have references := inv.references
    have shorter : (s.holders.erase task).length = s.holders.length - 1 :=
      List.length_erase_of_mem holder
    constructor
    · exact inv.running
    · simp [InodeRefs.refDec, references, shorter]
    · intro unfreed
      have tokens := inv.tokens unfreed
      have zero : s.refs.refCount ≠ 0 := by omega
      by_cases last : s.refs.refCount - 1 = 0
      · simp [InodeRefs.refDec, held, slackOf, last, zero] at tokens ⊢
        omega
      · simpa [InodeRefs.refDec, held, slackOf, last, zero] using tokens
    · exact inv.hashed
    · exact inv.once
    · intro freed
      simp [(inv.gone freed).1] at holder
  | unlink task =>
    rw [step, if_neg live] at taken
    obtain ⟨ok, ⟨⟩⟩ := Option.ite_none_right_eq_some.mp taken
    refine ⟨inv.running, inv.references, inv.tokens, inv.hashed, inv.once, fun freed => ?_⟩
    have holder := ok.1
    simp [(inv.gone freed).1] at holder
  | reclaim task io =>
    rw [step, if_neg live] at taken
    obtain ⟨sent, ⟨⟩⟩ := Option.ite_none_right_eq_some.mp taken
    have unfreed := inv.unfreed_of_sent sent
    have tokens := inv.tokens unfreed
    have references := inv.references
    have positive : 0 < s.reclaiming.length := List.length_pos_of_mem sent
    have shorter : (s.reclaiming.erase task).length = s.reclaiming.length - 1 :=
      List.length_erase_of_mem sent
    obtain ⟨busy, same⟩ | ⟨free, -, same⟩ | ⟨free, last, -, same⟩ :=
      reclaimSection_cases (s := { s with reclaiming := s.reclaiming.erase task }) io
        (by simp only; omega)
    · rw [same]
      refine ⟨inv.running, inv.references, fun _ => ?_, inv.hashed, inv.once, fun freed => ?_⟩
      · simp [held, slackOf, busy] at tokens ⊢
        omega
      · simp only at freed
        omega
    · rw [same]
      refine ⟨inv.running, inv.references, fun _ => ?_, inv.hashed, inv.once, fun freed => ?_⟩
      · simp only at free
        simp [held, slackOf, free] at tokens ⊢
        omega
      · simp only at freed
        omega
    · rw [same]
      simp only at free last
      have noHolder : s.holders = [] := List.length_eq_zero_iff.mp (by omega)
      have noReclaim : s.reclaiming.erase task = [] := by
        apply List.length_eq_zero_iff.mp
        omega
      refine ⟨inv.running, inv.references, fun freed => ?_, ?_, ?_, fun _ => ?_⟩
      · simp only at freed
        omega
      · simp
      · simp [unfreed]
      · exact ⟨noHolder, noReclaim, fun unlinked => by simpa using unlinked⟩

/-- A token is left as long as the inode is in memory. -/
def TokenLeft (s : InodeLife) : Prop := s.frees = 0 → 0 < s.refs.reclaimCount

theorem step_tokenLeft (inv : TokenInv s slack)
    (left : TokenLeft s) (cond : s.ReclaimCond l) (taken : s.step l = some s') :
    TokenLeft s' := by
  have live : ¬ s.halted = true := by simp [inv.running]
  cases l with
  | reclaim task io =>
    rw [step, if_neg live] at taken
    obtain ⟨free, succeeds⟩ := cond
    obtain ⟨sent, ⟨⟩⟩ := Option.ite_none_right_eq_some.mp taken
    have unfreed := inv.unfreed_of_sent sent
    obtain ⟨busy, -⟩ | ⟨-, more | failed, same⟩ | ⟨-, -, -, same⟩ :=
      reclaimSection_cases (s := { s with reclaiming := s.reclaiming.erase task }) io
        (left unfreed)
    · exact absurd free busy
    · rw [same]
      intro _
      simp only at more ⊢
      omega
    · rw [succeeds] at failed
      cases failed
    · rw [same]
      intro freed
      simp only at freed
      omega
  | lookup task =>
    rw [step, if_neg live] at taken
    obtain ⟨-, ⟨⟩⟩ := Option.ite_none_right_eq_some.mp taken
    intro unfreed
    have token := left unfreed
    simp only [InodeRefs.lookup]
    split <;> omega
  | refInc task | refDec task | unlink task =>
    rw [step, if_neg live] at taken
    obtain ⟨-, ⟨⟩⟩ := Option.ite_none_right_eq_some.mp taken
    exact left

theorem TokenInv.sound (inv : TokenInv s 0) (left : TokenLeft s) : Sound s where
  running := inv.running
  once := inv.once
  unreferenced freed := by rw [inv.references, (inv.gone freed).1, List.length_nil]
  freed free quiet := by
    by_cases unfreed : s.frees = 0
    · have tokens := inv.tokens unfreed
      have token := left unfreed
      simp only [quiet, held, free, List.length_nil, if_true] at tokens
      omega
    · have positive : 0 < s.frees := by omega
      have once := inv.once
      exact ⟨by omega, (inv.gone positive).2.2⟩

/-- The invariant of the runs that meet the condition: no slack, and a token left. -/
structure Accounted (s : InodeLife) : Prop where
  tokens : TokenInv s 0
  left : TokenLeft s

theorem step_accounted (inv : Accounted s)
    (cond : s.ReclaimCond l) (taken : s.step l = some s') : Accounted s' := by
  refine ⟨?_, step_tokenLeft inv.tokens inv.left cond taken⟩
  have kept := step_tokenInv inv.tokens taken
  cases l with
  | reclaim task io => simpa [slackOf, if_pos cond.1] using kept
  | lookup task | refInc task | refDec task | unlink task => exact kept

/-- In every run whose reclaims all find the inode unreferenced and do not fail,
    every state is sound. -/
theorem reclaim_tokens_sound (labels : List LifeLabel) (s : InodeLife)
    (run : runFrom step {} labels = some s) (cond : Along step ReclaimCond {} labels) :
    Sound s := by
  have kept : Accounted s :=
    runFrom_invariant (fun _ _ _ inv cond taken => step_accounted inv cond taken)
      ⟨tokenInv_init, fun _ => Nat.one_pos⟩ cond run
  exact kept.tokens.sound kept.left

/-- Two overlapping 0 → 1 → 0 cycles of an unlinked inode, each reclaim late but
    none of them finding the inode referenced. -/
theorem reclaim_tokens_sound_cycles :
    Sound { refs := ⟨0, 0⟩, nlinks := 0, hashed := false, holders := [],
            reclaiming := [], frees := 1, released := true } :=
  reclaim_tokens_sound
    [.unlink 0, .refDec 0, .lookup 1, .refInc 1, .refDec 1, .refDec 1, .reclaim 0 true,
      .reclaim 1 true] _ rfl (by decide)

/-- A reclaim that backs off: the inode is unlinked and unreferenced, no reclaim
    is on its way, and it stays in memory with its blocks. -/
theorem backed_off_reclaim_leaks :
    ∃ s, runFrom step {} [.unlink 0, .refDec 0, .lookup 1, .reclaim 0 true, .refDec 1,
        .reclaim 1 true] = some s ∧
      s.refs.refCount = 0 ∧ s.reclaiming = [] ∧ s.nlinks = 0 ∧ s.frees = 0 ∧
      s.released = false ∧ ¬ Sound s :=
  ⟨_, rfl, rfl, rfl, rfl, rfl, rfl, fun sound => absurd (sound.freed rfl rfl).1 (by decide)⟩

end InodeLife

end Procore.Sfs
