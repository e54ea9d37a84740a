import Procore.Process.StopCont

/-! # Handlers of signals

`signal_deliver` on the way back to user mode and `signal_sigreturn` at the end of
a handler. There is one saved frame pointer, and `in_handler` keeps a second
handler away unless `SIGKILL` or `SIGSTOP` is pending; then the pending signal of
the least number is taken, whichever it is.
-/

namespace Procore.Process.Deliver

open Procore.Lib Option List
open Procore.Process.Stop (signalNext signalDefaultStops)
open Function

def userBase : Nat := 0x200000

/-- `sizeof(struct ucore_signal_frame)`. -/
def frameSize : Nat := 96

/-- What a trap from user mode has interrupted. -/
structure Context where
  esp : Nat
  /-- The restorer, and the memory of handler, restorer and frame, pass the checks. -/
  memory : Bool
  /-- The trapframe passes `signal_frame_valid`. -/
  valid : Bool
  deriving DecidableEq

def Context.frameAddress (c : Context) : Nat := (c.esp - frameSize - 8) / 16 * 16 + 8

structure State extends SignalState where
  saMask : Nat → UInt32 := fun _ => 0
  inHandler : Nat := 0
  frame : Nat := 0
  /-- The frames in user memory: the context and the mask. -/
  frames : Nat → Option (Context × UInt32) := fun _ => none
  /-- The contexts whose handlers have not returned, the last one first. -/
  outstanding : List Context := []
  /-- `PF_EXITING`. -/
  exiting : Bool := false

inductive Act where
  | nothing
  | stop
  | exit
  | enter (signo : Nat)
  deriving DecidableEq

inductive Return where
  | inval
  | killed
  | resumed (c : Context)
  deriving DecidableEq

/-- `SIG_BLOCK`, `SIG_UNBLOCK`, `SIG_SETMASK`. -/
inductive How where
  | block
  | unblock
  | setmask

inductive Label where
  | signalQueue (signo : Nat)
  | signalSetAction (signo : Nat) (handler mask : UInt32)
  | signalSetMask (how : How) (mask : UInt32)
  | signalDeliver (c : Context)
  | signalSigreturn
  /-- `signal_state_fork`; the child is followed. -/
  | fork
  | exec

namespace State

def uncatchable : UInt32 := signalBit sigkill ||| signalBit sigstop

def Ignored (s : State) (signo : Nat) : Prop :=
  s.handler signo = sigIgn ∨ s.handler signo = sigDfl ∧ signalDefaultIgnored signo = true

instance (s : State) (signo : Nat) : Decidable (s.Ignored signo) := inferInstanceAs (Decidable (_ ∨ _))

/-- The rounds of `signal_deliver` up to the signal that it acts on. -/
def pick : Nat → State → Option Nat × State
  | 0, s => (none, s)
  | fuel + 1, s =>
    if s.inHandler ≠ 0 ∧ s.pending &&& uncatchable = 0 then (none, s)
    else match signalNext s.toSignalState with
      | none => (none, s)
      | some signo =>
        let taken := { s with pending := s.pending &&& ~~~ signalBit signo }
        if s.Ignored signo then pick fuel taken else (some signo, taken)

def enter (s : State) (signo : Nat) (c : Context) : State × Act :=
  if userBase + frameSize + 8 ≤ c.esp ∧ c.memory then
    ({ s with
        inHandler := signo
        frame := c.frameAddress
        frames := update s.frames c.frameAddress (some (c, s.blocked))
        blocked := s.blocked ||| s.saMask signo ||| signalBit signo
        outstanding := c :: s.outstanding }, .enter signo)
  else ({ s with inHandler := 0, frame := 0, exiting := true }, .exit)

def signalDeliver (s : State) (c : Context) : State × Act :=
  match s.pick ucoreNsig with
  | (none, t) => (t, .nothing)
  | (some signo, t) =>
    if t.handler signo = sigDfl then
      if signalDefaultStops signo then (t, .stop) else ({ t with exiting := true }, .exit)
    else t.enter signo c

def signalSigreturn (s : State) : State × Return :=
  if s.inHandler = 0 ∨ s.frame = 0 then (s, .inval)
  else match s.frames s.frame with
    | none => ({ s with exiting := true }, .killed)
    | some (c, mask) =>
      if c.valid then
        ({ s with
            blocked := mask &&& ~~~ uncatchable
            frame := 0
            inHandler := 0
            outstanding := s.outstanding.tail }, .resumed c)
      else ({ s with exiting := true }, .killed)

def step (s : State) (l : Label) : Option State :=
  if s.exiting then none
  else match l with
    | .signalQueue signo =>
      if signalNumberValid signo then some { s with toSignalState := signalQueue s.toSignalState signo }
      else some s
    | .signalSetAction signo handler mask =>
      if signalNumberValid signo = false ∨ signalUncatchable signo ∧ handler ≠ sigDfl then some s
      else some { s with
        handler := update s.handler signo handler
        saMask := update s.saMask signo mask }
    | .signalSetMask how mask =>
      let mask := mask &&& ~~~ uncatchable
      some { s with blocked := match how with
        | .block => s.blocked ||| mask
        | .unblock => s.blocked &&& ~~~ mask
        | .setmask => mask }
    | .signalDeliver c => some (s.signalDeliver c).1
    | .signalSigreturn => some s.signalSigreturn.1
    | .fork => some { s with pending := 0, inHandler := 0, frame := 0 }
    | .exec => some { handler := fun signo => if s.handler signo = sigIgn then sigIgn else sigDfl }

/-- The signal is pending and can be delivered. -/
def Ready (s : SignalState) (signo : Nat) : Prop :=
  (0 < signo ∧ signo < ucoreNsig) ∧ s.pending.toBitVec.getLsbD signo = true ∧
    (s.blocked.toBitVec.getLsbD signo = false ∨ signalUncatchable signo = true)

instance (s : SignalState) (signo : Nat) : Decidable (Ready s signo) := inferInstanceAs (Decidable (_ ∧ _))

variable {s t : State} {signo : Nat}

theorem and_signalBit (x : UInt32) (small : signo < ucoreNsig) :
    x &&& signalBit signo ≠ 0 ↔ x.toBitVec.getLsbD signo = true := by
  have power : ∀ k < ucoreNsig, (signalBit k).toBitVec = BitVec.twoPow 32 k ∧ signalBit k ≠ 0 := by decide
  have bit : (x &&& signalBit signo).toBitVec =
      if x.toBitVec.getLsbD signo then (signalBit signo).toBitVec else 0 := by
    rw [UInt32.toBitVec_and, (power signo small).1, BitVec.and_twoPow]
    rfl
  rw [ne_eq, ← UInt32.toBitVec_inj, bit]
  split
  · rename_i set
    simp only [set, iff_true]
    exact mt UInt32.toBitVec_inj.mp (power signo small).2
  · rename_i clear
    simp [clear]

theorem ready_iff (s : SignalState) (small : signo < ucoreNsig) :
    Ready s signo ↔ 0 < signo ∧ (s.pending &&& ~~~ s.blocked ||| s.pending &&& uncatchable) &&&
      signalBit signo ≠ 0 := by
  have bits : ∀ k < ucoreNsig, uncatchable.toBitVec.getLsbD k = signalUncatchable k := by decide
  rw [and_signalBit _ small]
  simp only [Ready, UInt32.toBitVec_or, UInt32.toBitVec_and, UInt32.toBitVec_not]
  grind

theorem signalNext_none {s : SignalState} (next : signalNext s = none) : ¬ Ready s signo := by
  intro ready
  have small := ready.1.2
  have none := find?_eq_none.mp next signo (mem_range.mpr small)
  obtain ⟨pos, bit⟩ := (ready_iff s small).mp ready
  simp only [uncatchable] at bit
  simp [pos, bit] at none

theorem signalNext_some {s : SignalState} (next : signalNext s = some signo) :
    Ready s signo ∧ ∀ k < signo, ¬ Ready s k := by
  obtain ⟨found, mem, first⟩ := find?_range_eq_some.mp next
  have small := mem_range.mp mem
  simp only [Bool.and_eq_true, decide_eq_true_eq, bne_iff_ne] at found
  refine ⟨(ready_iff s small).mpr found, fun k before ready => ?_⟩
  obtain ⟨pos, bit⟩ := (ready_iff s ready.1.2).mp ready
  have none := first k before
  simp only [uncatchable] at bit
  simp [pos, bit] at none

theorem ready_clear {k : Nat} (s : SignalState) (small : signo < ucoreNsig) :
    Ready { s with pending := s.pending &&& ~~~ signalBit signo } k ↔ Ready s k ∧ k ≠ signo := by
  have power : ∀ k < ucoreNsig, (signalBit k).toBitVec = BitVec.twoPow 32 k := by decide
  simp only [Ready, UInt32.toBitVec_and, UInt32.toBitVec_not]
  grind

theorem uncatchable_ready (s : SignalState) :
    s.pending &&& uncatchable = 0 ↔ ¬ Ready s sigkill ∧ ¬ Ready s sigstop := by
  have bit {k : Nat} (small : k < ucoreNsig) (pos : 0 < k) (always : signalUncatchable k = true) :
      ¬ Ready s k ↔ s.pending &&& signalBit k = 0 := by
    rw [← not_iff_not, not_not, ← ne_eq, and_signalBit _ small]
    simp [Ready, small, pos, always]
  rw [bit (by decide) (by decide) rfl, bit (by decide) (by decide) rfl]
  constructor
  · intro none
    have part (k : Nat) (within : uncatchable &&& signalBit k = signalBit k) : s.pending &&& signalBit k = 0 := by
      rw [← within, ← UInt32.and_assoc, none, UInt32.zero_and]
    exact ⟨part _ (by decide), part _ (by decide)⟩
  · rintro ⟨kill, stop⟩
    rw [UInt32.and_comm] at kill stop ⊢
    exact Stop.State.or_zero kill stop

/-- `SIGKILL` and `SIGSTOP` keep their default actions. -/
def Default (s : State) : Prop := s.handler sigkill = sigDfl ∧ s.handler sigstop = sigDfl

/-- Nothing is delivered as long as the handler runs. -/
def Deferred (s : State) : Prop :=
  s.inHandler ≠ 0 ∧ ¬ Ready s.toSignalState sigkill ∧ ¬ Ready s.toSignalState sigstop

theorem Default.acts (h : s.Default) : ¬ s.Ignored sigkill ∧ ¬ s.Ignored sigstop := by
  rw [Ignored, Ignored, h.1, h.2]
  decide

/-- What the rounds leave, and which signal they find. -/
theorem pick_spec {fuel low : Nat} (default : s.Default) (above : ∀ k, Ready s.toSignalState k → low ≤ k)
    (enough : ucoreNsig ≤ low + fuel) : (∃ p, (s.pick fuel).2 = { s with pending := p }) ∧
      match (s.pick fuel).1 with
      | none => s.Deferred ∨ ∀ k, Ready s.toSignalState k → s.Ignored k
      | some signo => Ready s.toSignalState signo ∧ ¬ s.Ignored signo ∧ ¬ s.Deferred ∧
          ∀ k < signo, Ready s.toSignalState k → s.Ignored k := by
  induction fuel generalizing s low with
  | zero =>
    refine ⟨⟨s.pending, rfl⟩, .inr fun k ready => ?_⟩
    exact absurd ready.1.2 (Nat.not_lt.mpr (enough.trans (above k ready)))
  | succ fuel ih =>
    rw [pick]
    split
    · rename_i kept
      rw [uncatchable_ready] at kept
      exact ⟨⟨s.pending, rfl⟩, .inl kept⟩
    rename_i free
    rw [uncatchable_ready] at free
    split
    · rename_i next
      exact ⟨⟨s.pending, rfl⟩, .inr fun k ready => absurd ready (signalNext_none next)⟩
    rename_i signo next
    obtain ⟨ready, first⟩ := signalNext_some next
    split
    · rename_i ignored
      have clear {k : Nat} := ready_clear (k := k) s.toSignalState ready.1.2
      have low' := above signo ready
      have later (k : Nat) (still : Ready s.toSignalState k ∧ k ≠ signo) : signo + 1 ≤ k := by
        grind
      obtain ⟨same, rest⟩ := ih (s := { s with pending := s.pending &&& ~~~ signalBit signo }) default
        (fun k still => later k (clear.mp still)) (by omega)
      have differ : sigkill ≠ signo ∧ sigstop ≠ signo :=
        ⟨fun h => default.acts.1 (h ▸ ignored), fun h => default.acts.2 (h ▸ ignored)⟩
      simp only [Deferred, Ignored] at rest free ignored ⊢
      split at rest <;> grind
    · rename_i act
      exact ⟨⟨_, rfl⟩, ready, act, free, fun k before ready => absurd ready (first k before)⟩

/-- All that `signal_deliver` can do. -/
theorem signalDeliver_cases (default : s.Default) (c : Context) : ∃ p,
    (s.signalDeliver c = ({ s with pending := p }, .nothing) ∧
      (s.Deferred ∨ ∀ k, Ready s.toSignalState k → s.Ignored k)) ∨
    ¬ s.Deferred ∧ (s.signalDeliver c = ({ s with pending := p }, .stop) ∨
      s.signalDeliver c = ({ s with pending := p, exiting := true }, .exit) ∨
      ∃ signo, s.signalDeliver c = enter { s with pending := p } signo c ∧ s.handler signo ≠ sigDfl ∧
        Ready s.toSignalState signo ∧ ¬ s.Ignored signo ∧
        ∀ k < signo, Ready s.toSignalState k → s.Ignored k) := by
  obtain ⟨⟨p, left⟩, found⟩ := pick_spec default (fun _ _ => Nat.zero_le _)
    (Nat.zero_add ucoreNsig).ge
  refine ⟨p, ?_⟩
  rw [signalDeliver]
  generalize s.pick ucoreNsig = r at left found
  obtain ⟨signo, t⟩ := r
  obtain rfl : t = _ := left
  cases signo with
  | none => exact .inl ⟨rfl, found⟩
  | some signo =>
    obtain ⟨ready, acts, free, first⟩ := found
    refine .inr ⟨free, ?_⟩
    dsimp only
    split
    · split
      · exact .inl rfl
      · exact .inr (.inl rfl)
    · rename_i caught
      exact .inr (.inr ⟨signo, rfl, caught, ready, acts, first⟩)

theorem enter_handler (s : State) (signo : Nat) (c : Context) : (s.enter signo c).1.handler = s.handler := by
  unfold enter
  split_ifs <;> rfl

theorem step_default {l : Label} (h : s.Default) (taken : s.step l = some t) : t.Default := by
  replace taken := (ite_none_left_eq_some.mp taken).2
  have same (handler : t.handler = s.handler) : t.Default := by rwa [Default, handler]
  cases l with
  | signalQueue signo =>
    dsimp only at taken
    split_ifs at taken
    · exact same (by rw [← some.inj taken]; rfl)
    · exact same (by rw [← some.inj taken])
  | signalSetAction signo handler mask =>
    dsimp only at taken
    split_ifs at taken with fail
    · exact same (by rw [← some.inj taken])
    obtain rfl := some.inj taken
    have unchanged {k : Nat} (keeps : s.handler k = sigDfl) (always : signalUncatchable k = true) :
        update s.handler signo handler k = sigDfl := by
      rw [update_apply]
      split_ifs with eq
      · subst eq
        by_contra other
        exact fail (.inr ⟨always, other⟩)
      · exact keeps
    exact ⟨unchanged h.1 rfl, unchanged h.2 rfl⟩
  | signalSetMask how mask | fork => exact same (by rw [← some.inj taken])
  | signalDeliver c =>
    obtain rfl := some.inj taken
    obtain ⟨p, ⟨done, -⟩ | ⟨-, done | done | ⟨signo, done, -⟩⟩⟩ := signalDeliver_cases h c <;>
      refine same ?_ <;> rw [done]
    exact enter_handler _ signo c
  | signalSigreturn =>
    obtain rfl := some.inj taken
    refine same ?_
    unfold signalSigreturn
    split_ifs
    · rfl
    · split
      · rfl
      · split_ifs <;> rfl
  | exec =>
    obtain rfl := some.inj taken
    simp only [Default, h.1, h.2]
    decide

/-- An interrupted call is followed by a delivery unless a handler defers it. -/
theorem interrupted_call_delivers {ls : List Label} (run : runFrom step {} ls = some s)
    (interrupt : signalShouldInterrupt s.toSignalState = true) (c : Context) :
    (s.signalDeliver c).2 ≠ .nothing ↔ ¬ s.Deferred := by
  have default : s.Default := runFrom_always (fun _ _ _ => step_default) ⟨rfl, rfl⟩ run
  obtain ⟨k, ready, acts⟩ : ∃ k, Ready s.toSignalState k ∧ ¬ s.Ignored k := by
    simp only [signalShouldInterrupt, List.any_eq_true, List.mem_range, Bool.and_eq_true, decide_eq_true_eq,
      bne_iff_ne] at interrupt
    obtain ⟨k, small, bit, acts⟩ := interrupt
    refine ⟨k, (ready_iff _ small).mpr bit, ?_⟩
    have both : signalUncatchable k = true → k = sigkill ∨ k = sigstop := by
      simp [signalUncatchable]
    have := default.acts
    unfold Ignored at this ⊢
    grind
  obtain ⟨p, ⟨done, still⟩ | ⟨free, act⟩⟩ := signalDeliver_cases default c
  · rw [done]
    have kept : s.Deferred := still.resolve_right fun all => acts (all k ready)
    simp [kept]
  refine iff_of_true ?_ free
  obtain done | done | ⟨signo, done, -⟩ := act <;> rw [done]
  · nofun
  · nofun
  · unfold enter
    split_ifs <;> nofun

/-- Handlers for `SIGTERM` and `SIGINT`; `SIGTERM` has come and its handler runs. -/
def handling (c : Context) : List Label :=
  [.signalSetAction 15 0x800000 0, .signalSetAction 2 0x800000 0, .signalQueue 15, .signalDeliver c]

instance (s : State) : Decidable s.Deferred := inferInstanceAs (Decidable (_ ∧ _))

theorem interrupted_call_delivers_int : ∃ s, runFrom step {} [.signalQueue 2] = some s ∧
    signalShouldInterrupt s.toSignalState = true ∧ (s.signalDeliver ⟨0x900000, true, true⟩).2 ≠ .nothing :=
  exists_run_test (fun s => signalShouldInterrupt s.toSignalState = true ∧ ¬ s.Deferred) (by decide +kernel)
    fun _ run facts => ⟨facts.1, (interrupted_call_delivers run facts.1 _).mpr facts.2⟩

/-- `SIGINT` during the handler of `SIGTERM`: each call is interrupted and nothing is delivered. -/
theorem interrupted_call_deferred : ∃ s,
    runFrom step {} (handling ⟨0x900000, true, true⟩ ++ [.signalQueue 2]) = some s ∧
      signalShouldInterrupt s.toSignalState = true ∧ (s.signalDeliver ⟨0x8fff00, true, true⟩).2 = .nothing :=
  exists_run_test _ (by decide +kernel) fun _ _ facts => facts

/-- The context of the only handler that may run is the one `sigreturn` finds. -/
def Single (s : State) : Prop :=
  s.outstanding = [] ∨ ∃ c mask, s.outstanding = [c] ∧ s.inHandler ≠ 0 ∧ s.frame = c.frameAddress ∧
    s.frames c.frameAddress = some (c, mask) ∧ c.valid = true

/-- While a handler runs no caught signal comes before a pending `SIGKILL` or `SIGSTOP`, the process
does not fork, and the interrupted contexts are valid. -/
def Calm (s : State) (l : Label) : Prop :=
  match l with
  | .signalDeliver c => c.valid = true ∧ (s.outstanding ≠ [] → ∀ k < ucoreNsig,
      Ready s.toSignalState k ∧ s.handler k ≠ sigDfl ∧ ¬ s.Ignored k →
        s.Deferred ∨ (Ready s.toSignalState sigkill ∧ sigkill < k) ∨
          (Ready s.toSignalState sigstop ∧ sigstop < k))
  | .fork => s.outstanding = []
  | _ => True

instance (s : State) (l : Label) : Decidable (s.Calm l) := by
  unfold Calm
  split <;> infer_instance

theorem step_single {l : Label} (inv : s.Default ∧ s.Single) (calm : s.Calm l) (taken : s.step l = some t) :
    t.Default ∧ t.Single := by
  refine ⟨step_default inv.1 taken, ?_⟩
  obtain ⟨default, single⟩ := inv
  replace taken := (ite_none_left_eq_some.mp taken).2
  cases l with
  | signalDeliver c =>
    obtain ⟨valid, alone⟩ := calm
    obtain rfl := some.inj taken
    obtain ⟨p, ⟨done, -⟩ | ⟨free, done | done | ⟨signo, done, caught, ready, acts, first⟩⟩⟩ :=
      signalDeliver_cases default c <;> rw [done]
    · exact single
    · exact single
    · exact single
    have none : s.outstanding = [] := by
      by_contra running
      obtain kept | ⟨kill, before⟩ | ⟨stop, before⟩ := alone running signo ready.1.2 ⟨ready, caught, acts⟩
      · exact free kept
      · exact default.acts.1 (first _ before kill)
      · exact default.acts.2 (first _ before stop)
    unfold enter
    split_ifs
    · exact .inr ⟨c, s.blocked, congrArg (c :: ·) none, ready.1.1.ne', rfl, update_self .., valid⟩
    · exact .inl none
  | signalSigreturn =>
    obtain rfl := some.inj taken
    unfold signalSigreturn
    split_ifs
    · exact single
    split
    · exact single
    split_ifs
    · left
      obtain none | ⟨c, mask, one, -⟩ := single
      · exact congrArg tail none
      · exact congrArg tail one
    · exact single
  | fork =>
    obtain rfl := some.inj taken
    exact .inl calm
  | exec =>
    obtain rfl := some.inj taken
    exact .inl rfl
  | signalSetMask how mask =>
    obtain rfl := some.inj taken
    exact single
  | signalQueue signo | signalSetAction signo handler mask =>
    dsimp only at taken
    split_ifs at taken <;> obtain rfl := some.inj taken <;> exact single

/-- One handler at a time, whose return resumes what it has interrupted. -/
theorem sigreturn_resumes {ls : List Label} (calm : Along step Calm {} ls) (run : runFrom step {} ls = some s) :
    s.outstanding.length ≤ 1 ∧ ∀ c ∈ s.outstanding, s.signalSigreturn.2 = .resumed c := by
  have inv := runFrom_invariant (fun _ _ _ => step_single) ⟨⟨rfl, rfl⟩, .inl rfl⟩ calm run
  obtain none | ⟨c, mask, one, running, frame, saved, valid⟩ := inv.2
  · simp [none]
  have nonzero : c.frameAddress ≠ 0 := Nat.succ_ne_zero _
  simp [one, signalSigreturn, running, nonzero, frame, saved, valid]

theorem sigreturn_resumes_term : ∃ s, runFrom step {} (handling ⟨0x900000, true, true⟩) = some s ∧
    Along step Calm {} (handling ⟨0x900000, true, true⟩) ∧ s.outstanding ≠ [] ∧
    s.outstanding.length ≤ 1 ∧ ∀ c ∈ s.outstanding, s.signalSigreturn.2 = .resumed c :=
  exists_run_test (fun s => s.outstanding ≠ []) (by decide +kernel) fun _ run some =>
    ⟨by decide +kernel, some, sigreturn_resumes (by decide +kernel) run⟩

/-- `SIGINT` and `SIGSTOP` during the handler of `SIGTERM`: the handler of `SIGINT` is entered and
returns, and then the return from the handler of `SIGTERM` fails. -/
theorem nested_handler_loses_frame : ∃ s, runFrom step {} (handling ⟨0x900000, true, true⟩ ++
      [.signalQueue 2, .signalQueue 19, .signalDeliver ⟨0x8fff00, true, true⟩]) = some s ∧
    s.outstanding.length = 2 ∧ s.signalSigreturn.2 = .resumed ⟨0x8fff00, true, true⟩ ∧
    s.signalSigreturn.1.outstanding = [⟨0x900000, true, true⟩] ∧
    s.signalSigreturn.1.signalSigreturn.2 = .inval :=
  exists_run_test _ (by decide +kernel) fun _ _ facts => facts

end State

end Procore.Process.Deliver
