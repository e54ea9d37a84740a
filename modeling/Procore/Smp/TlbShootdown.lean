import Mathlib.Data.UInt
import Procore.Lib.Run

/-! # TLB shootdowns

`smp_tlb_shootdown` posts a request in the slot of every CPU whose published CR3 is the page
directory, interrupts that CPU and waits for the acknowledgement. A CPU loads CR3 first and
publishes it after that, so for a moment it uses a page directory that nobody can see it use.
-/

namespace Procore.Smp.Tlb

open Procore.Lib
open Function

structure Request where
  sequence : UInt32 := 0
  acknowledged : UInt32 := 0
  pgdir : Option Nat := none
  la : Nat := 0

/-- A call of `smp_tlb_shootdown`, with the epoch it begins. -/
structure Call where
  pgdir : Nat
  la : Nat
  start : Nat
  deriving DecidableEq, Repr

/-- Where a CPU stands in `smp_tlb_shootdown`. -/
inductive Pc where
  | out
  | locking (call : Call)
  /-- The loop looks at `cpu` next. -/
  | looking (call : Call) (cpu : Nat)
  /-- A request to `cpu` gets the number `sequence`; its fields are written next. -/
  | numbered (call : Call) (cpu : Nat) (sequence : UInt32)
  | pgdirSet (call : Call) (cpu : Nat) (sequence : UInt32)
  | laSet (call : Call) (cpu : Nat) (sequence : UInt32)
  /-- The request is posted; the interrupt is sent next. -/
  | posted (call : Call) (cpu : Nat) (sequence : UInt32)
  | waiting (call : Call) (cpu : Nat) (sequence : UInt32)
  | returned (call : Call)
  deriving DecidableEq, Repr

def Pc.inside : Pc → Bool
  | .out | .locking _ | .returned _ => false
  | _ => true

/-- Where a CPU stands in `smp_handle_tlb_ipi`, and what it has read from its slot. -/
inductive Handler where
  | idle
  | sequenceRead (sequence : UInt32)
  | pgdirRead (sequence : UInt32) (pgdir : Option Nat)
  | laRead (sequence : UInt32) (pgdir : Option Nat) (la : Nat)
  /-- `request->acknowledged` is written next. -/
  | flushed (sequence : UInt32)

/-- The sequence number that the handler is going to acknowledge. -/
def Handler.holds : Handler → Option UInt32
  | .idle => none
  | .sequenceRead sequence | .pgdirRead sequence _ | .laRead sequence _ _ | .flushed sequence =>
    some sequence

structure Cpu where
  online : Bool := false
  cr3 : Nat
  /-- `smp_current_cr3`. -/
  published : Nat
  /-- Between `lcr3` and `smp_publish_cr3`. -/
  loading : Bool := false
  /-- Cached addresses, each with the epoch in which it was cached. -/
  tlb : List (Nat × Nat) := []

structure State where
  /-- `smp_enabled` and `smp_scheduler_started`. -/
  started : Bool
  ncpu : Nat
  cpus : Nat → Cpu
  handlers : Nat → Handler := fun _ => .idle
  /-- An interrupt on its way to the CPU. -/
  ipi : Nat → Bool := fun _ => false
  pcs : Nat → Pc := fun _ => .out
  requests : Nat → Request := fun _ => {}
  /-- The holder of `smp_tlb_lock`. -/
  lock : Option Nat := none
  /-- `smp_tlb_sequence`. -/
  sequence : UInt32 := 0
  /-- The number of calls that have begun. -/
  epoch : Nat := 0

inductive Label where
  /-- A CPU starts to run. -/
  | online (c : Nat)
  | start
  | lcr3 (c cr3 : Nat)
  | publishCr3 (c : Nat)
  /-- The hardware caches a translation of the loaded page directory. -/
  | cache (c la : Nat)
  | evict (c la : Nat)
  | interrupt (c : Nat)
  | readPgdir (c : Nat)
  | readLa (c : Nat)
  | flush (c : Nat)
  | acknowledge (c : Nat)
  | shootdown (c : Nat) (pgdir : Option Nat) (la : Nat)
  | lock (c : Nat)
  | look (c : Nat)
  | setPgdir (c : Nat)
  | setLa (c : Nat)
  | setSequence (c : Nat)
  /-- `smp_lapic_send_ipi`; an interrupt whose sending is reported as failed may still arrive. -/
  | sendIpi (c : Nat) (ok arrives : Bool)
  | acknowledged (c : Nat)
  | timeout (c : Nat)
  | leave (c : Nat)

/-- `++smp_tlb_sequence`, once more if that gives 0. -/
def nextSequence (sequence : UInt32) : UInt32 :=
  if sequence + 1 = 0 then sequence + 1 + 1 else sequence + 1

namespace State

def setCpu (s : State) (c : Nat) (cpu : Cpu) : State :=
  { s with cpus := update s.cpus c cpu }

def setHandler (s : State) (c : Nat) (handler : Handler) : State :=
  { s with handlers := update s.handlers c handler }

def setPc (s : State) (c : Nat) (pc : Pc) : State :=
  { s with pcs := update s.pcs c pc }

def setRequest (s : State) (c : Nat) (request : Request) : State :=
  { s with requests := update s.requests c request }

def Up (s : State) (c : Nat) : Prop := c < s.ncpu ∧ (s.cpus c).online = true

instance (s : State) (c : Nat) : Decidable (s.Up c) := inferInstanceAs (Decidable (_ ∧ _))

/-- Context switches and what the hardware does by itself. -/
def stepCpu (s : State) : Label → Option State
  | .online c =>
    if c < s.ncpu then some (s.setCpu c { s.cpus c with online := true }) else none
  | .start => some { s with started := true }
  | .lcr3 c cr3 =>
    match s.pcs c with
    | .out =>
      if s.Up c ∧ (s.cpus c).loading = false then
        some (s.setCpu c { s.cpus c with cr3 := cr3, loading := true, tlb := [] })
      else none
    | _ => none
  | .publishCr3 c =>
    if (s.cpus c).loading then
      some (s.setCpu c { s.cpus c with published := (s.cpus c).cr3, loading := false })
    else none
  | .cache c la =>
    if s.Up c then
      some (s.setCpu c { s.cpus c with tlb := (la, s.epoch) :: (s.cpus c).tlb })
    else none
  | .evict c la =>
    some (s.setCpu c { s.cpus c with tlb := (s.cpus c).tlb.filter (·.1 ≠ la) })
  | _ => none

/-- `smp_handle_tlb_ipi`. -/
def stepHandler (s : State) : Label → Option State
  | .interrupt c =>
    match s.handlers c with
    | .idle =>
      if s.ipi c then
        some { s.setHandler c (.sequenceRead (s.requests c).sequence) with
          ipi := update s.ipi c false }
      else none
    | _ => none
  | .readPgdir c =>
    match s.handlers c with
    | .sequenceRead sequence => some (s.setHandler c (.pgdirRead sequence (s.requests c).pgdir))
    | _ => none
  | .readLa c =>
    match s.handlers c with
    | .pgdirRead sequence pgdir => some (s.setHandler c (.laRead sequence pgdir (s.requests c).la))
    | _ => none
  | .flush c =>
    match s.handlers c with
    | .laRead sequence pgdir la =>
      let done := s.setHandler c (.flushed sequence)
      if sequence ≠ 0 ∧ pgdir = some (s.cpus c).cr3 then
        some (done.setCpu c { s.cpus c with tlb := (s.cpus c).tlb.filter (·.1 ≠ la) })
      else some done
    | _ => none
  | .acknowledge c =>
    match s.handlers c with
    | .flushed sequence =>
      some ((s.setHandler c .idle).setRequest c { s.requests c with acknowledged := sequence })
    | _ => none
  | _ => none

/-- `smp_tlb_shootdown`. -/
def stepCall (s : State) : Label → Option State
  | .shootdown c pgdir la =>
    match s.pcs c, pgdir with
    | .out, some pgdir =>
      if s.Up c then
        let call : Call := { pgdir := pgdir, la := la, start := s.epoch + 1 }
        some { s.setPc c (if s.started then .locking call else .returned call) with
          epoch := s.epoch + 1 }
      else none
    | .out, none => some s
    | _, _ => none
  | .lock c =>
    match s.pcs c with
    | .locking call =>
      if s.lock = none then some { s.setPc c (.looking call 0) with lock := some c } else none
    | _ => none
  | .look c =>
    match s.pcs c with
    | .looking call cpu =>
      if cpu < s.ncpu then
        if cpu = c ∨ (s.cpus cpu).online = false ∨ (s.cpus cpu).published ≠ call.pgdir then
          some (s.setPc c (.looking call (cpu + 1)))
        else
          some { s.setPc c (.numbered call cpu (nextSequence s.sequence)) with
            sequence := nextSequence s.sequence }
      else some { s.setPc c (.returned call) with lock := none }
    | _ => none
  | .setPgdir c =>
    match s.pcs c with
    | .numbered call cpu sequence =>
      some ((s.setPc c (.pgdirSet call cpu sequence)).setRequest cpu
        { s.requests cpu with pgdir := some call.pgdir })
    | _ => none
  | .setLa c =>
    match s.pcs c with
    | .pgdirSet call cpu sequence =>
      some ((s.setPc c (.laSet call cpu sequence)).setRequest cpu
        { s.requests cpu with la := call.la })
    | _ => none
  | .setSequence c =>
    match s.pcs c with
    | .laSet call cpu sequence =>
      some ((s.setPc c (.posted call cpu sequence)).setRequest cpu
        { s.requests cpu with sequence := sequence })
    | _ => none
  | .sendIpi c ok arrives =>
    match s.pcs c with
    | .posted call cpu sequence =>
      let sent := { s with ipi := update s.ipi cpu (s.ipi cpu || arrives) }
      if ok then
        if arrives then some (sent.setPc c (.waiting call cpu sequence)) else none
      else
        some ((sent.setPc c (.looking call (cpu + 1))).setRequest cpu
          { s.requests cpu with acknowledged := sequence })
    | _ => none
  | .acknowledged c =>
    match s.pcs c with
    | .waiting call cpu sequence =>
      if (s.requests cpu).acknowledged = sequence then
        some (s.setPc c (.looking call (cpu + 1)))
      else none
    | _ => none
  | .timeout c =>
    match s.pcs c with
    | .waiting call cpu _ => some (s.setPc c (.looking call (cpu + 1)))
    | _ => none
  | .leave c =>
    match s.pcs c with
    | .returned _ => some (s.setPc c .out)
    | _ => none
  | _ => none

def step (s : State) (l : Label) : Option State :=
  ((s.stepCpu l).or (s.stepHandler l)).or (s.stepCall l)

end State

/-- The CPU does not use a translation that was cached before the call. -/
def Cpu.Clean (cpu : Cpu) (call : Call) : Prop :=
  cpu.cr3 = call.pgdir → ∀ epoch, (call.la, epoch) ∈ cpu.tlb → call.start ≤ epoch

namespace State

/-- Whenever a call has returned, every other CPU is clean. -/
def Flushed (s : State) : Prop :=
  ∀ c call, s.pcs c = .returned call → ∀ other, other < s.ncpu → other ≠ c → (s.cpus other).Clean call

/-- No CPU is looked at while it has the page directory loaded and not published, no request is
    given up, no sequence number is in use twice, and a call before the scheduler has started finds
    the page directory loaded nowhere else. -/
def Orderly (s : State) : Label → Prop
  | .shootdown c (some pgdir) _ =>
    s.started = true ∨ ∀ other < s.ncpu, other ≠ c → (s.cpus other).cr3 ≠ pgdir
  | .look c =>
    match s.pcs c with
    | .looking call cpu => (s.cpus cpu).cr3 = call.pgdir → (s.cpus cpu).loading = false
    | _ => True
  | .setSequence c =>
    match s.pcs c with
    | .laSet _ cpu sequence =>
      (s.requests cpu).acknowledged ≠ sequence ∧ (s.handlers cpu).holds ≠ some sequence
    | _ => True
  | .sendIpi _ ok _ => ok = true
  | .timeout _ => False
  | _ => True

instance (s : State) (l : Label) : Decidable (s.Orderly l) := by
  unfold Orderly
  split
  · infer_instance
  · split <;> infer_instance
  · split <;> infer_instance
  all_goals infer_instance

/-! ## The invariant -/

/-- The call knows that the CPUs below `bound` are clean. -/
def Done (s : State) (c : Nat) (call : Call) (bound : Nat) : Prop :=
  call.start ≤ s.epoch ∧ ∀ other < bound, other ≠ c → (s.cpus other).Clean call

/-- What a handler knows that is going to acknowledge the request of the call. -/
def HandlerFits (cpu : Cpu) (call : Call) (sequence : UInt32) : Handler → Prop
  | .idle | .sequenceRead _ => True
  | .pgdirRead held pgdir => held = sequence → pgdir = some call.pgdir
  | .laRead held pgdir la => held = sequence → pgdir = some call.pgdir ∧ la = call.la
  | .flushed held => held = sequence → cpu.Clean call

/-- The request of the call stands in the slot of `cpu`. -/
structure Posted (s : State) (call : Call) (cpu : Nat) (sequence : UInt32) : Prop where
  nonzero : sequence ≠ 0
  pgdir : (s.requests cpu).pgdir = some call.pgdir
  la : (s.requests cpu).la = call.la
  acknowledged : (s.requests cpu).acknowledged = sequence → (s.cpus cpu).Clean call
  handler : HandlerFits (s.cpus cpu) call sequence (s.handlers cpu)

def PcFits (s : State) (c : Nat) : Pc → Prop
  | .out => True
  | .locking call => s.Done c call 0
  | .looking call cpu => s.Done c call cpu
  | .numbered call cpu sequence => s.Done c call cpu ∧ sequence ≠ 0
  | .pgdirSet call cpu sequence =>
    s.Done c call cpu ∧ sequence ≠ 0 ∧ (s.requests cpu).pgdir = some call.pgdir
  | .laSet call cpu sequence =>
    s.Done c call cpu ∧ sequence ≠ 0 ∧ (s.requests cpu).pgdir = some call.pgdir ∧
      (s.requests cpu).la = call.la
  | .posted call cpu sequence | .waiting call cpu sequence =>
    s.Done c call cpu ∧ s.Posted call cpu sequence
  | .returned call => s.Done c call s.ncpu

structure Inv (s : State) : Prop where
  locked : ∀ c, (s.pcs c).inside = true → s.lock = some c
  visible : ∀ c, (s.cpus c).loading = false → (s.cpus c).published = (s.cpus c).cr3
  dark : ∀ c, (s.cpus c).online = false → (s.cpus c).tlb = []
  fits : ∀ c, s.PcFits c (s.pcs c)

variable {s : State}

theorem Inv.flushed (inv : s.Inv) : s.Flushed := by
  intro c call returned other bound different
  have fits := inv.fits c
  rw [returned] at fits
  exact fits.2 other bound different

/-- No step makes a CPU unclean for a call that has begun. -/
structure Later (s s' : State) : Prop where
  epoch : s.epoch ≤ s'.epoch
  ncpu : s'.ncpu = s.ncpu
  clean : ∀ c (call : Call), call.start ≤ s.epoch → (s.cpus c).Clean call → (s'.cpus c).Clean call

variable {s' : State} {c : Nat}

theorem Later.done (later : Later s s') {bound : Nat} {call : Call}
    (h : s.Done c call bound) : s'.Done c call bound :=
  ⟨h.1.trans later.epoch, fun other less different => later.clean other call h.1 (h.2 other less different)⟩

variable {pc : Pc}

theorem PcFits.outside (later : Later s s') (h : s.PcFits c pc)
    (outside : pc.inside = false) : s'.PcFits c pc := by
  cases pc with
  | out => trivial
  | locking call => exact later.done h
  | returned call =>
    rw [PcFits, later.ncpu]
    exact later.done h
  | looking | numbered | pgdirSet | laSet | posted | waiting => cases outside

theorem PcFits.later (later : Later s s') (h : s.PcFits c pc)
    (pgdir : ∀ cpu, (s'.requests cpu).pgdir = (s.requests cpu).pgdir)
    (la : ∀ cpu, (s'.requests cpu).la = (s.requests cpu).la)
    (posted : ∀ call cpu sequence, call.start ≤ s.epoch → s.Posted call cpu sequence →
      s'.Posted call cpu sequence) : s'.PcFits c pc := by
  cases pc with
  | out => trivial
  | locking call | looking call cpu => exact later.done h
  | returned call =>
    rw [PcFits, later.ncpu]
    exact later.done h
  | numbered call cpu sequence => exact ⟨later.done h.1, h.2⟩
  | pgdirSet call cpu sequence => exact ⟨later.done h.1, h.2.1, (pgdir cpu).trans h.2.2⟩
  | laSet call cpu sequence =>
    exact ⟨later.done h.1, h.2.1, (pgdir cpu).trans h.2.2.1, (la cpu).trans h.2.2.2⟩
  | posted call cpu sequence | waiting call cpu sequence =>
    exact ⟨later.done h.1, posted call cpu sequence h.1.1 h.2⟩

variable {cpu : Cpu} {sequence : UInt32} {handler : Handler}

theorem HandlerFits.later {cpu' : Cpu} {call : Call}
    (h : HandlerFits cpu call sequence handler) (clean : cpu.Clean call → cpu'.Clean call) :
    HandlerFits cpu' call sequence handler := by
  cases handler with
  | idle | sequenceRead => trivial
  | pgdirRead | laRead => exact h
  | flushed held => exact fun same => clean (h same)

theorem Posted.later (later : Later s s') (requests : s'.requests = s.requests)
    (handlers : s'.handlers = s.handlers) {call : Call} {cpu : Nat}
    (begun : call.start ≤ s.epoch) (h : s.Posted call cpu sequence) : s'.Posted call cpu sequence where
  nonzero := h.nonzero
  pgdir := requests ▸ h.pgdir
  la := requests ▸ h.la
  acknowledged := requests ▸ fun same => later.clean cpu call begun (h.acknowledged same)
  handler := handlers ▸ h.handler.later (later.clean cpu call begun)

/-! ## Context switches -/

/-- A change of one CPU, in a way that leaves clean what is clean. -/
theorem Inv.setCpu (inv : s.Inv)
    (visible : cpu.loading = false → cpu.published = cpu.cr3) (dark : cpu.online = false → cpu.tlb = [])
    (clean : ∀ call : Call, call.start ≤ s.epoch → (s.cpus c).Clean call → cpu.Clean call) :
    (s.setCpu c cpu).Inv := by
  have later : Later s (s.setCpu c cpu) := by
    refine ⟨le_rfl, rfl, fun d call begun before => ?_⟩
    rcases eq_or_ne d c with rfl | other
    · simpa [State.setCpu] using clean call begun before
    · simpa [State.setCpu, other] using before
  refine ⟨inv.locked, fun d => ?_, fun d => ?_, fun d => (inv.fits d).later later (fun _ => rfl)
    (fun _ => rfl) fun _ _ _ begun h => h.later later rfl rfl begun⟩
  · rcases eq_or_ne d c with rfl | other
    · simpa [State.setCpu] using visible
    · simpa [State.setCpu, other] using inv.visible d
  · rcases eq_or_ne d c with rfl | other
    · simpa [State.setCpu] using dark
    · simpa [State.setCpu, other] using inv.dark d

variable {l : Label}

theorem Inv.stepCpu (inv : s.Inv) (go : s.stepCpu l = some s') : s'.Inv := by
  cases l with try cases go
  | online c =>
    simp only [State.stepCpu] at go
    split_ifs at go
    cases go
    exact inv.setCpu (inv.visible c) nofun fun _ _ => id
  | start =>
    have later : Later s { s with started := true } := ⟨le_rfl, rfl, fun _ _ _ => id⟩
    exact ⟨inv.locked, inv.visible, inv.dark, fun c => (inv.fits c).later later (fun _ => rfl)
      (fun _ => rfl) fun _ _ _ begun h => h.later later rfl rfl begun⟩
  | lcr3 c cr3 =>
    simp only [State.stepCpu] at go
    split at go
    · split_ifs at go
      cases go
      exact inv.setCpu nofun (fun _ => rfl) fun _ _ _ _ => nofun
    · cases go
  | publishCr3 c =>
    simp only [State.stepCpu] at go
    split_ifs at go
    cases go
    exact inv.setCpu (fun _ => rfl) (inv.dark c) fun _ _ => id
  | cache c la =>
    simp only [State.stepCpu] at go
    split_ifs at go with up
    cases go
    refine inv.setCpu (inv.visible c) (fun off => ?_) fun call begun clean loaded epoch mem => ?_
    · rw [up.2] at off
      cases off
    · rcases List.mem_cons.mp mem with same | old
      · cases same
        exact begun
      · exact clean loaded epoch old
  | evict c la =>
    exact inv.setCpu (inv.visible c) (fun off => by simp [inv.dark c off])
      fun call _ clean loaded epoch mem => clean loaded epoch (List.mem_of_mem_filter mem)

/-! ## The handler -/

/-- A step of the handler of `c`, seen by a request in the slot of `c`. -/
theorem Inv.handle (inv : s.Inv) (cpus : s'.cpus = s.cpus)
    (pcs : s'.pcs = s.pcs) (lock : s'.lock = s.lock) (epoch : s'.epoch = s.epoch)
    (ncpu : s'.ncpu = s.ncpu) (others : ∀ d, d ≠ c → s'.handlers d = s.handlers d ∧ s'.requests d = s.requests d)
    (pgdir : (s'.requests c).pgdir = (s.requests c).pgdir) (la : (s'.requests c).la = (s.requests c).la)
    (own : ∀ call sequence, s.Posted call c sequence →
      ((s'.requests c).acknowledged = sequence → (s.cpus c).Clean call) ∧
        HandlerFits (s.cpus c) call sequence (s'.handlers c)) : s'.Inv := by
  have later : Later s s' := ⟨epoch.ge, ncpu, fun d call _ clean => cpus ▸ clean⟩
  refine ⟨pcs ▸ lock ▸ inv.locked, cpus ▸ inv.visible, cpus ▸ inv.dark, fun d => ?_⟩
  rw [pcs]
  refine (inv.fits d).later later (fun cpu => ?_) (fun cpu => ?_) fun call cpu sequence _ h => ?_
  · rcases eq_or_ne cpu c with rfl | other
    · exact pgdir
    · rw [(others cpu other).2]
  · rcases eq_or_ne cpu c with rfl | other
    · exact la
    · rw [(others cpu other).2]
  · rcases eq_or_ne cpu c with rfl | other
    · obtain ⟨acknowledged, handler⟩ := own call sequence h
      exact ⟨h.nonzero, pgdir.trans h.pgdir, la.trans h.la, cpus ▸ acknowledged, cpus ▸ handler⟩
    · obtain ⟨handlers, requests⟩ := others cpu other
      exact ⟨h.nonzero, requests ▸ h.pgdir, requests ▸ h.la, cpus ▸ requests ▸ h.acknowledged,
        cpus ▸ handlers ▸ h.handler⟩

/-- A step that only moves the handler on. -/
theorem Inv.setHandler (inv : s.Inv)
    (own : ∀ call sequence, s.Posted call c sequence → HandlerFits (s.cpus c) call sequence handler) :
    (s.setHandler c handler).Inv := by
  refine inv.handle (c := c) rfl rfl rfl rfl rfl
    (fun d other => ⟨by simp [State.setHandler, other], rfl⟩) rfl rfl fun call sequence h => ?_
  refine ⟨h.acknowledged, ?_⟩
  simpa [State.setHandler] using own call sequence h

theorem clean_filter {call : Call} :
    Cpu.Clean { cpu with tlb := cpu.tlb.filter (·.1 ≠ call.la) } call := by
  intro _ epoch mem
  simp at mem

theorem Inv.flush (inv : s.Inv) (go : s.stepHandler (.flush c) = some s') :
    s'.Inv := by
  simp only [stepHandler] at go
  split at go
  case h_2 => cases go
  next held pgdir la here =>
    have knows : ∀ {call : Call} {sequence : UInt32}, s.Posted call c sequence → held = sequence →
        pgdir = some call.pgdir ∧ la = call.la := by
      intro call sequence h same
      have fits := h.handler
      rw [here] at fits
      exact fits same
    split_ifs at go with loaded
    all_goals cases go
    -- The entries go first, then the handler moves on.
    · have emptied : (s.setCpu c { s.cpus c with tlb := (s.cpus c).tlb.filter (·.1 ≠ la) }).Inv :=
        inv.setCpu (inv.visible c) (fun off => by simp [inv.dark c off])
          fun call _ clean loaded epoch mem => clean loaded epoch (List.mem_of_mem_filter mem)
      refine emptied.setHandler fun call sequence h => ?_
      intro same
      have fits := h.handler
      simp only [State.setCpu, here] at fits
      obtain ⟨_, rfl⟩ := fits same
      simpa [State.setCpu] using clean_filter
    · refine inv.setHandler fun call sequence h => ?_
      rintro rfl unloaded
      obtain ⟨rfl, _⟩ := knows h rfl
      exact absurd ⟨h.nonzero, by rw [unloaded]⟩ loaded

theorem Inv.stepHandler (inv : s.Inv) (go : s.stepHandler l = some s') :
    s'.Inv := by
  cases l with try cases go
  | interrupt c =>
    simp only [State.stepHandler] at go
    split at go
    · split_ifs at go
      cases go
      refine inv.handle (c := c) rfl rfl rfl rfl rfl
        (fun d other => ⟨by simp [State.setHandler, other], rfl⟩) rfl rfl fun call sequence h => ?_
      refine ⟨h.acknowledged, ?_⟩
      simp [State.setHandler, HandlerFits]
    · cases go
  | readPgdir c =>
    simp only [State.stepHandler] at go
    split at go
    · cases go
      exact inv.setHandler fun call sequence h _ => h.pgdir
    · cases go
  | readLa c =>
    simp only [State.stepHandler] at go
    split at go
    · next held pgdir here =>
      cases go
      refine inv.setHandler fun call sequence h same => ?_
      have fits := h.handler
      rw [here] at fits
      exact ⟨fits same, h.la⟩
    · cases go
  | flush c => exact inv.flush go
  | acknowledge c =>
    simp only [State.stepHandler] at go
    split at go
    · next held here =>
      cases go
      refine inv.handle (c := c) rfl rfl rfl rfl rfl
        (fun d other => by simp [State.setHandler, State.setRequest, other])
        (by simp [State.setRequest]) (by simp [State.setRequest])
        fun call sequence h => ?_
      have fits := h.handler
      rw [here] at fits
      simpa [State.setHandler, State.setRequest, HandlerFits] using fits
    · cases go

/-! ## The call -/

/-- A step of the call on `c`. Only the holder of the lock writes the slots, and nobody else
    relies on them meanwhile. -/
theorem Inv.call (inv : s.Inv) (cpus : s'.cpus = s.cpus)
    (handlers : s'.handlers = s.handlers) (pcs : s'.pcs = update s.pcs c pc)
    (ncpu : s'.ncpu = s.ncpu) (epoch : s.epoch ≤ s'.epoch)
    (requests : s'.requests = s.requests ∨ (s.pcs c).inside = true)
    (lock : s'.lock = s.lock ∨ s.lock = none ∨ s.lock = some c)
    (locked : pc.inside = true → s'.lock = some c) (own : s'.PcFits c pc) : s'.Inv := by
  have later : Later s s' := ⟨epoch, ncpu, fun d call _ clean => cpus ▸ clean⟩
  refine ⟨fun d inside => ?_, cpus ▸ inv.visible, cpus ▸ inv.dark, fun d => ?_⟩
  · rw [pcs] at inside
    rcases eq_or_ne d c with rfl | other
    · exact locked (by simpa using inside)
    have held := inv.locked d (by simpa [other] using inside)
    rcases lock with same | free | mine
    · rw [same, held]
    · simp [free] at held
    · rw [mine] at held
      exact absurd (Option.some_inj.mp held).symm other
  · rcases eq_or_ne d c with rfl | other
    · simpa [pcs] using own
    rw [pcs, update_of_ne other]
    rcases requests with same | inside
    · exact (inv.fits d).later later (fun _ => by rw [same]) (fun _ => by rw [same])
        fun _ _ _ begun h => h.later later same handlers begun
    · refine (inv.fits d).outside later (Bool.eq_false_iff.mpr fun both => other ?_)
      exact Option.some_inj.mp ((inv.locked d both).symm.trans (inv.locked c inside))

theorem Inv.begin (inv : s.Inv) {la : Nat} {pgdir : Option Nat}
    (orderly : s.Orderly (.shootdown c pgdir la)) (go : s.stepCall (.shootdown c pgdir la) = some s') :
    s'.Inv := by
  simp only [stepCall] at go
  split at go
  · obtain ⟨_, begun⟩ := Option.ite_none_right_eq_some.mp go
    cases begun
    refine inv.call rfl rfl rfl rfl (Nat.le_succ _) (.inl rfl) (.inl rfl) ?_ ?_
    · split_ifs <;> nofun
    · split_ifs with started
      · exact ⟨le_rfl, nofun⟩
      · refine ⟨le_rfl, fun other bound different loaded => ?_⟩
        exact absurd loaded (orderly.resolve_left started other bound different)
  · cases go
    exact inv
  · cases go

theorem nextSequence_ne_zero (sequence : UInt32) : nextSequence sequence ≠ 0 := by
  unfold nextSequence
  split_ifs with wraps
  · rw [wraps]
    decide
  · exact wraps

theorem Inv.look (inv : s.Inv) (orderly : s.Orderly (.look c))
    (go : s.stepCall (.look c) = some s') : s'.Inv := by
  simp only [stepCall] at go
  split at go
  case h_2 => cases go
  next call cpu here =>
    have inside : (s.pcs c).inside = true := by rw [here]; rfl
    have mine := inv.locked c inside
    have fits := inv.fits c
    rw [here] at fits
    split_ifs at go with bound skip
    all_goals cases go
    · refine inv.call rfl rfl rfl rfl le_rfl (.inl rfl) (.inl rfl) (fun _ => mine) ⟨fits.1, ?_⟩
      intro other less different
      rcases Nat.lt_succ_iff_lt_or_eq.mp less with earlier | rfl
      · exact fits.2 other earlier different
      rcases skip with self | off | hidden
      · exact absurd self different
      · intro _ epoch mem
        rw [State.setPc, inv.dark other off] at mem
        cases mem
      · intro loaded
        simp only [Orderly, here] at orderly
        exact absurd ((inv.visible other (orderly loaded)).trans loaded) hidden
    · exact inv.call rfl rfl rfl rfl le_rfl (.inl rfl) (.inl rfl) (fun _ => mine)
        ⟨fits, nextSequence_ne_zero _⟩
    · refine inv.call rfl rfl rfl rfl le_rfl (.inl rfl) (.inr (.inr mine)) nofun ⟨fits.1, ?_⟩
      exact fun other less => fits.2 other (less.trans_le (not_lt.mp bound))

theorem handlerFits_of_holds {call : Call}
    (other : handler.holds ≠ some sequence) : HandlerFits cpu call sequence handler := by
  cases handler with
  | idle | sequenceRead => trivial
  | pgdirRead held | laRead held | flushed held =>
    exact fun same => absurd (congrArg some same) other

theorem Inv.setSequence (inv : s.Inv) (orderly : s.Orderly (.setSequence c))
    (go : s.stepCall (.setSequence c) = some s') : s'.Inv := by
  simp only [stepCall] at go
  split at go
  case h_2 => cases go
  next call cpu sequence here =>
    cases go
    have inside : (s.pcs c).inside = true := by rw [here]; rfl
    obtain ⟨done, nonzero, pgdir, la⟩ : s.PcFits c (.laSet call cpu sequence) := here ▸ inv.fits c
    simp only [Orderly, here] at orderly
    refine inv.call rfl rfl rfl rfl le_rfl (.inr inside) (.inl rfl) (fun _ => inv.locked c inside)
      ⟨done, nonzero, ?_, ?_, ?_, handlerFits_of_holds orderly.2⟩
    · simpa [State.setRequest] using pgdir
    · simpa [State.setRequest] using la
    · simp [State.setRequest, orderly.1]

theorem Inv.stepCall (inv : s.Inv) (orderly : s.Orderly l) (go : s.stepCall l = some s') : s'.Inv := by
  cases l with try cases go
  | shootdown c pgdir la => exact inv.begin orderly go
  | look c => exact inv.look orderly go
  | setSequence c => exact inv.setSequence orderly go
  | lock c =>
    simp only [State.stepCall] at go
    split at go
    · next call here =>
      split_ifs at go with free
      cases go
      have fits : s.PcFits c (.locking call) := here ▸ inv.fits c
      exact inv.call rfl rfl rfl rfl le_rfl (.inl rfl) (.inr (.inl free)) (fun _ => rfl) fits
    · cases go
  | setPgdir c =>
    simp only [State.stepCall] at go
    split at go
    · next call cpu sequence here =>
      cases go
      have inside : (s.pcs c).inside = true := by rw [here]; rfl
      obtain ⟨done, nonzero⟩ : s.PcFits c (.numbered call cpu sequence) := here ▸ inv.fits c
      exact inv.call rfl rfl rfl rfl le_rfl (.inr inside) (.inl rfl) (fun _ => inv.locked c inside)
        ⟨done, nonzero, by simp [State.setRequest]⟩
    · cases go
  | setLa c =>
    simp only [State.stepCall] at go
    split at go
    · next call cpu sequence here =>
      cases go
      have inside : (s.pcs c).inside = true := by rw [here]; rfl
      obtain ⟨done, nonzero, pgdir⟩ : s.PcFits c (.pgdirSet call cpu sequence) := here ▸ inv.fits c
      exact inv.call rfl rfl rfl rfl le_rfl (.inr inside) (.inl rfl) (fun _ => inv.locked c inside)
        ⟨done, nonzero, by simpa [State.setRequest] using pgdir, by simp [State.setRequest]⟩
    · cases go
  | sendIpi c ok arrives =>
    obtain rfl : ok = true := orderly
    simp only [State.stepCall] at go
    split at go
    · next call cpu sequence here =>
      obtain ⟨_, sent⟩ := Option.ite_none_right_eq_some.mp go
      cases sent
      have inside : (s.pcs c).inside = true := by rw [here]; rfl
      obtain ⟨done, posted⟩ : s.PcFits c (.posted call cpu sequence) := here ▸ inv.fits c
      exact inv.call rfl rfl rfl rfl le_rfl (.inl rfl) (.inl rfl) (fun _ => inv.locked c inside)
        ⟨done, posted.nonzero, posted.pgdir, posted.la, posted.acknowledged, posted.handler⟩
    · cases go
  | acknowledged c =>
    simp only [State.stepCall] at go
    split at go
    · next call cpu sequence here =>
      split_ifs at go with acknowledged
      cases go
      have inside : (s.pcs c).inside = true := by rw [here]; rfl
      obtain ⟨done, posted⟩ : s.PcFits c (.waiting call cpu sequence) := here ▸ inv.fits c
      refine inv.call rfl rfl rfl rfl le_rfl (.inl rfl) (.inl rfl) (fun _ => inv.locked c inside)
        ⟨done.1, fun other less different => ?_⟩
      rcases Nat.lt_succ_iff_lt_or_eq.mp less with earlier | rfl
      · exact done.2 other earlier different
      · exact posted.acknowledged acknowledged
    · cases go
  | timeout c => exact orderly.elim
  | leave c =>
    simp only [State.stepCall] at go
    split at go
    · cases go
      exact inv.call rfl rfl rfl rfl le_rfl (.inl rfl) (.inl rfl) nofun trivial
    · cases go

theorem Inv.step (inv : s.Inv) (orderly : s.Orderly l) (go : s.step l = some s') : s'.Inv := by
  rcases Option.or_eq_some_iff.mp go with other | ⟨_, call⟩
  · rcases Option.or_eq_some_iff.mp other with cpu | ⟨_, handler⟩
    · exact inv.stepCpu cpu
    · exact inv.stepHandler handler
  · exact inv.stepCall orderly call

/-- CPU 0 runs on the boot page directory, the others are not started. -/
def boot (ncpu bootCr3 : Nat) : State :=
  { started := false
    ncpu := ncpu
    cpus := fun c => { online := c == 0, cr3 := bootCr3, published := bootCr3 } }

theorem inv_boot (ncpu bootCr3 : Nat) : (boot ncpu bootCr3).Inv :=
  ⟨nofun, fun _ _ => rfl, fun _ _ => rfl, fun _ => trivial⟩

/-- In an orderly run no other CPU uses an old translation when a shootdown has returned. -/
theorem shootdown_flushes {ncpu bootCr3 : Nat} {ls : List Label} {s : State}
    (orderly : Along State.step Orderly (boot ncpu bootCr3) ls)
    (run : runFrom State.step (boot ncpu bootCr3) ls = some s) : s.Flushed :=
  (runFrom_invariant (fun _ _ _ inv orderly go => Inv.step inv orderly go) (inv_boot ncpu bootCr3)
    orderly run).flushed

/-- CPU 1 has published page directory 7 and cached a page of it; it acknowledges the request. -/
theorem shootdown_flushes_acknowledged : ∃ s,
    runFrom State.step (boot 2 1) [.online 1, .start, .lcr3 1 7, .publishCr3 1, .cache 1 4096,
      .shootdown 0 (some 7) 4096, .lock 0, .look 0, .look 0, .setPgdir 0, .setLa 0, .setSequence 0,
      .sendIpi 0 true true, .interrupt 1, .readPgdir 1, .readLa 1, .flush 1, .acknowledge 1,
      .acknowledged 0, .look 0] = some s ∧
    s.pcs 0 = .returned ⟨7, 4096, 1⟩ ∧ s.Flushed := by
  refine exists_run_test (fun s => s.pcs 0 = .returned ⟨7, 4096, 1⟩) (by decide +kernel) ?_
  intro s run returned
  exact ⟨returned, shootdown_flushes (by decide +kernel) run⟩

/-- A call that finds CPU 1 between `lcr3` and `smp_publish_cr3`, and one whose interrupt comes
    after the timeout, return while CPU 1 has the page directory loaded and the page cached. -/
theorem shootdown_leaves_translation :
    (runFrom State.step (boot 2 1) [.online 1, .start, .lcr3 1 7, .cache 1 4096,
      .shootdown 0 (some 7) 4096, .lock 0, .look 0, .look 0, .look 0]).any
      (fun s => s.pcs 0 = .returned ⟨7, 4096, 1⟩ ∧ (s.cpus 1).cr3 = 7 ∧ (4096, 0) ∈ (s.cpus 1).tlb)
      = true ∧
    (runFrom State.step (boot 2 1) [.online 1, .start, .lcr3 1 7, .publishCr3 1, .cache 1 4096,
      .shootdown 0 (some 7) 4096, .lock 0, .look 0, .look 0, .setPgdir 0, .setLa 0, .setSequence 0,
      .sendIpi 0 true true, .timeout 0, .look 0]).any
      (fun s => s.pcs 0 = .returned ⟨7, 4096, 1⟩ ∧ (s.cpus 1).cr3 = 7 ∧ (4096, 0) ∈ (s.cpus 1).tlb)
      = true := by
  constructor
  · decide +kernel
  · decide +kernel

end State

end Procore.Smp.Tlb
