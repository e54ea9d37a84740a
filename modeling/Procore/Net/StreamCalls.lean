import Procore.Net.Stream

/-! # The calls of a connection, one after the other

Without interleavings, what can go wrong with the byte stream is that an
accepted payload finds no memory or no room, and that segments behind the
peer's FIN are accepted like any other.
-/

namespace Procore.Net

open Procore.Lib Option Socket

namespace Conn

inductive Op where
  | segment (ticks : Ticks) (seg : Segment) (memory : Bool)
  | read (length : Nat)
  | shutdownRead
  | close
  | other (update : Socket → Socket)

def Op.sections : Op → List Section
  | .segment ticks seg memory => [.receive 0 ticks seg, .queue 0 memory]
  | .read length => [.recv 0 length, .putBack 0]
  | .shutdownRead => [.shutdownRead]
  | .close => [.close]
  | .other update => [.other update]

def opStep (c : Conn) (op : Op) : Option Conn := runFrom step c op.sections

/-- Nobody is between two sections. -/
def Quiet (c : Conn) : Prop := c.accepting = [] ∧ c.holding = []

/-- A payload that is accepted finds memory and room. -/
def Fits (c : Conn) : Op → Prop
  | .segment _ seg memory =>
    c.sock.AcceptsData seg → c.sock.tcpReadShutdown = false →
      memory ∧ c.sock.rxQueue.length < netTcpRxQueueLimit
  | _ => True

instance (c : Conn) : ∀ op, Decidable (c.Fits op)
  | .segment _ _ _ => inferInstanceAs (Decidable (_ → _ → _))
  | .read _ | .shutdownRead | .close | .other _ => inferInstanceAs (Decidable True)

/-- Once a FIN was taken, no segment is next. -/
def NothingNext (c : Conn) : Op → Prop
  | .segment _ seg _ => c.fins ≠ 0 → ¬ c.sock.AcceptsData seg ∧ ¬ c.sock.AcceptsFin seg
  | _ => True

instance (c : Conn) : ∀ op, Decidable (c.NothingNext op)
  | .segment _ _ _ => inferInstanceAs (Decidable (_ → _))
  | .read _ | .shutdownRead | .close | .other _ => inferInstanceAs (Decidable True)

variable {c : Conn}

theorem opStep_segment (quiet : c.Quiet) (ticks : Ticks) (seg : Segment) (memory : Bool) :
    c.opStep (.segment ticks seg memory) = some ((c.receive 0 ticks seg).queue 0 memory) := by
  simp [opStep, Op.sections, runFrom, step, quiet.1]

theorem opStep_read (quiet : c.Quiet) (length : Nat) :
    c.opStep (.read length) = some ((c.recv 0 length).putBack 0) := by
  simp [opStep, Op.sections, runFrom, step, quiet.2]

theorem netQueuePacket_eq {s t : Socket} {memory : Bool} {data : List UInt8} {source : SockAddr}
    (queued : s.netQueuePacket memory data source = some t) :
    ∃ rxQueue, t = { s with rxQueue := rxQueue } := by
  simp only [netQueuePacket, queuePacket, ite_none_left_eq_some,
    some.injEq] at queued
  exact ⟨_, queued.2.2.symm⟩

/-- The step moves neither `tcp_rcv_nxt` nor the history that belongs to it. -/
structure SameCount (c c' : Conn) : Prop where
  rcvNxt : c'.sock.tcpRcvNxt = c.sock.tcpRcvNxt
  state : c'.sock.tcpState = .synSent → c.sock.tcpState = .synSent
  accepted : c'.accepted = c.accepted
  fins : c'.fins = c.fins

theorem queue_sameCount (c : Conn) (cpu : Nat) (memory : Bool) :
    c.SameCount (c.queue cpu memory) ∧ (c.queue cpu memory).holding = c.holding := by
  unfold queue
  cases c.accepting.lookup cpu with
  | none => exact ⟨⟨rfl, id, rfl, rfl⟩, rfl⟩
  | some packet =>
    dsimp only
    split
    · exact ⟨⟨rfl, id, rfl, rfl⟩, rfl⟩
    · next queued =>
        obtain ⟨rxQueue, rfl⟩ := netQueuePacket_eq queued
        exact ⟨⟨rfl, id, rfl, rfl⟩, rfl⟩

theorem read_sameCount (c : Conn) (length : Nat) :
    c.SameCount ((c.recv 0 length).putBack 0) ∧ ((c.recv 0 length).putBack 0).entered = c.entered := by
  have takes : c.SameCount (c.recv 0 length) ∧ (c.recv 0 length).entered = c.entered := by
    unfold recv
    split
    · next start =>
        obtain ⟨-, rest, -, rfl⟩ := recvStart_takes start
        exact ⟨⟨rfl, id, rfl, rfl⟩, rfl⟩
    · exact ⟨⟨rfl, id, rfl, rfl⟩, rfl⟩
  unfold putBack
  split
  · exact takes
  · exact ⟨⟨takes.1.rcvNxt, takes.1.state, takes.1.accepted, takes.1.fins⟩, takes.2⟩

variable {c' : Conn} {op : Op}

/-- The calls that take one section. -/
theorem opStep_other (single : op.sections.length = 1) (taken : c.opStep op = some c') :
    c.SameCount c' ∧ c'.entered = c.entered ∧ c'.accepting = c.accepting ∧ c'.holding = c.holding := by
  cases op with
  | segment | read => simp [Op.sections] at single
  | shutdownRead | close =>
    obtain rfl := some.inj taken
    exact ⟨⟨rfl, id, rfl, rfl⟩, rfl, rfl, rfl⟩
  | other update =>
    simp only [opStep, Op.sections, runFrom, step, bind_eq_some_iff, some.injEq,
      ite_none_right_eq_some] at taken
    obtain ⟨_, ⟨same, rfl⟩, rfl⟩ := taken
    exact ⟨⟨same.rcvNxt, same.handshake, rfl, rfl⟩, rfl, rfl, rfl⟩

theorem opStep_quiet (quiet : c.Quiet) (taken : c.opStep op = some c') :
    c'.Quiet := by
  cases op with
  | segment ticks seg memory =>
    rw [opStep_segment quiet] at taken
    obtain rfl := some.inj taken
    refine ⟨?_, (queue_sameCount _ 0 memory).2.trans quiet.2⟩
    cases todo : (c.sock.receive ticks seg).2.queueData
    · simp [queue, receive, todo, quiet.1]
    · simp only [queue, receive, todo, quiet.1]
      simp
      split <;> rfl
  | read length =>
    rw [opStep_read quiet] at taken
    obtain rfl := some.inj taken
    unfold recv
    split
    · next packet sock start =>
        by_cases short : length < packet.data.length <;>
          simp [putBack, short, Quiet, quiet.1, quiet.2]
    · simp [putBack, Quiet, quiet.1, quiet.2]
  | shutdownRead | close | other =>
    obtain ⟨-, -, accepting, holding⟩ := opStep_other rfl taken
    exact ⟨accepting.trans quiet.1, holding.trans quiet.2⟩

/-- `tcp_rcv_nxt` counts the accepted bytes and FINs from `first` on. -/
structure Counted (first : Seq) (c : Conn) : Prop where
  past : c.sock.tcpState ≠ .synSent
  count : c.sock.tcpRcvNxt = first + BitVec.ofNat 32 (c.accepted.length + c.fins)

variable {first : Seq}

theorem Counted.of_same (counted : Counted first c) (same : c.SameCount c') : Counted first c' where
  past := mt same.state counted.past
  count := by rw [same.rcvNxt, same.accepted, same.fins, counted.count]

theorem Counted.receive (counted : Counted first c) (cpu : Nat)
    (ticks : Ticks) (seg : Segment) : Counted first (c.receive cpu ticks seg) where
  past := (receive_received ticks seg counted.past).past
  count := by
    have moved := (receive_received ticks seg counted.past).rcvNxt
    have total : (c.receive cpu ticks seg).accepted.length + (c.receive cpu ticks seg).fins =
        c.accepted.length + c.fins + c.sock.advance seg := by
      simp only [Conn.receive, advance]
      split <;> split <;> simp <;> omega
    rw [total, BitVec.ofNat_add, ← BitVec.add_assoc, ← counted.count]
    exact moved

theorem opStep_counted (quiet : c.Quiet)
    (counted : Counted first c) (taken : c.opStep op = some c') : Counted first c' := by
  cases op with
  | segment ticks seg memory =>
    rw [opStep_segment quiet] at taken
    obtain rfl := some.inj taken
    exact (counted.receive 0 ticks seg).of_same (queue_sameCount _ 0 memory).1
  | read length =>
    rw [opStep_read quiet] at taken
    obtain rfl := some.inj taken
    exact counted.of_same (read_sameCount c length).1
  | shutdownRead | close | other => exact counted.of_same (opStep_other rfl taken).1

theorem Fits.alone (quiet : c.Quiet) (past : c.sock.tcpState ≠ .synSent)
    (fits : c.Fits op) : Along step Alone c op.sections := by
  cases op with
  | segment ticks seg memory =>
    have result := receive_received ticks seg past
    refine ⟨fun _ => quiet.1, fun mid taken => ⟨?_, fun _ _ => trivial⟩⟩
    simp only [step, quiet.1, List.lookup_nil, isNone_none, if_true,
      some.injEq] at taken
    subst taken
    intro pending
    have queued : c.sock.AcceptsData seg ∧ c.sock.tcpReadShutdown = false := by
      by_contra none
      have todo : (c.sock.receive ticks seg).2.queueData = false := by
        rw [result.queueData]
        grind
      simp [Conn.receive, todo, quiet.1] at pending
    have opened : c.sock.closed = false := by
      have opened := queued.1.1
      simp only [isOpen] at opened
      grind
    obtain ⟨available, room⟩ := fits queued.1 queued.2
    exact ⟨available, result.closed.trans opened, by
      rw [show (c.receive 0 ticks seg).sock.rxQueue = c.sock.rxQueue from result.rxQueue]
      exact room⟩
  | read length =>
    exact ⟨quiet.2, fun _ _ => ⟨trivial, fun _ _ => trivial⟩⟩
  | shutdownRead | close | other => exact ⟨trivial, fun _ _ => trivial⟩

theorem ops_counted {ops : List Op} (fresh : c.Fresh)
    (run : runFrom opStep c ops = some c') : c'.Quiet ∧ Counted c.sock.tcpRcvNxt c' := by
  have start : c.Quiet ∧ Counted c.sock.tcpRcvNxt c :=
    ⟨⟨fresh.accepting, fresh.holding⟩, fresh.past, by simp [fresh.accepted, fresh.fins]⟩
  have preserved (s : Conn) (op : Op) (s' : Conn) (inv : s.Quiet ∧ Counted c.sock.tcpRcvNxt s)
      (taken : s.opStep op = some s') : s'.Quiet ∧ Counted c.sock.tcpRcvNxt s' :=
    ⟨opStep_quiet inv.1 taken, opStep_counted inv.1 inv.2 taken⟩
  exact runFrom_always preserved start run

/-- If every accepted payload finds memory and room, every byte that `tcp_rcv_nxt` has passed is
    returned or still in the queue, in the order of the sequence numbers, until reading is shut
    down. -/
theorem acknowledged_bytes_kept {c c' : Conn} {ops : List Op} (fresh : c.Fresh)
    (fits : Along opStep Fits c ops) (run : runFrom opStep c ops = some c') :
    c'.sock.tcpRcvNxt = c.sock.tcpRcvNxt + BitVec.ofNat 32 (c'.accepted.length + c'.fins) ∧
      (c'.sock.tcpReadShutdown = false →
        c'.returned ++ bytes c'.sock.rxQueue = c'.accepted) := by
  have preserved (s : Conn) (op : Op) (s' : Conn) (inv : s.Quiet ∧ s.InOrder) (fits : s.Fits op)
      (taken : s.opStep op = some s') : s'.Quiet ∧ s'.InOrder := by
    have alone := fits.alone inv.1 inv.2.past
    exact ⟨opStep_quiet inv.1 taken,
      runFrom_invariant (fun _ _ _ inv alone taken => step_inOrder inv alone taken) inv.2 alone taken⟩
  have kept := runFrom_invariant preserved
    ⟨⟨fresh.accepting, fresh.holding⟩, fresh.inOrder⟩ fits run
  refine ⟨(ops_counted fresh run).2.count, fun reads => ?_⟩
  simpa [bytes, kept.1.1, kept.1.2] using kept.2.whole reads

def twoSegments : List Op := [.segment 0 (oneByte 100 1) true, .segment 0 (oneByte 101 2) true, .read 10]

theorem acknowledged_bytes_kept_twoSegments : ∃ c, runFrom opStep example100 twoSegments = some c ∧
    c.returned = [1] ∧ c.accepted = [1, 2] ∧ c.returned ++ bytes c.sock.rxQueue = c.accepted :=
  exists_run_test (fun c => c.returned = [1] ∧ c.accepted = [1, 2] ∧ c.sock.tcpReadShutdown = false)
    (by decide +kernel) fun _ run facts =>
      ⟨facts.1, facts.2.1, (acknowledged_bytes_kept example100_fresh (by decide +kernel) run).2 facts.2.2⟩

/-- Without memory for the packet, the byte is acknowledged and gone. -/
theorem acknowledged_byte_dropped :
    ((runFrom opStep example100 [.segment 0 (oneByte 100 1) false, .read 10]).any fun c =>
      c.sock.tcpRcvNxt = 101 ∧ c.accepted = [1] ∧ c.returned = [] ∧ c.sock.rxQueue = [] ∧
        c.sock.tcpReadShutdown = false ∧ c.sock.closed = false) = true := by
  decide +kernel

/-- A segment that is not next leaves the stream alone. -/
theorem segment_sameCount (quiet : c.Quiet) (past : c.sock.tcpState ≠ .synSent)
    {ticks : Ticks} {seg : Segment} (memory : Bool) (data : ¬ c.sock.AcceptsData seg)
    (fin : ¬ c.sock.AcceptsFin seg) :
    c.SameCount ((c.receive 0 ticks seg).queue 0 memory) ∧
      ((c.receive 0 ticks seg).queue 0 memory).entered = c.entered := by
  have result := receive_received ticks seg past
  have todo : (c.sock.receive ticks seg).2.queueData = false := by simp [result.queueData, data]
  have unmoved : (c.sock.receive ticks seg).1.tcpRcvNxt = c.sock.tcpRcvNxt := by
    simp [result.rcvNxt, advance, data, fin]
  have idle : (c.receive 0 ticks seg).queue 0 memory = c.receive 0 ticks seg := by
    simp [queue, receive, todo, quiet.1]
  rw [idle]
  exact ⟨⟨unmoved, fun handshake => absurd handshake result.past, if_neg data, if_neg fin⟩, rfl⟩

/-- If nothing that arrives behind the peer's FIN carries the next sequence number, the FIN is
    the last thing taken: `tcp_rcv_nxt` stays, and no payload enters the queue. -/
theorem fin_is_last {start c c' : Conn} {before after : List Op} (fresh : start.Fresh)
    (reached : runFrom opStep start before = some c) (fin : c.fins ≠ 0)
    (nothing : Along opStep NothingNext c after) (run : runFrom opStep c after = some c') :
    c'.sock.tcpRcvNxt = c.sock.tcpRcvNxt ∧ c'.entered = c.entered := by
  have inv := ops_counted fresh reached
  have preserved (s : Conn) (op : Op) (s' : Conn)
      (inv : (s.Quiet ∧ Counted start.sock.tcpRcvNxt s) ∧ s.fins ≠ 0 ∧
        s.sock.tcpRcvNxt = c.sock.tcpRcvNxt ∧ s.entered = c.entered)
      (nothing : s.NothingNext op) (taken : s.opStep op = some s') :
      (s'.Quiet ∧ Counted start.sock.tcpRcvNxt s') ∧ s'.fins ≠ 0 ∧
        s'.sock.tcpRcvNxt = c.sock.tcpRcvNxt ∧ s'.entered = c.entered := by
    obtain ⟨⟨quiet, counted⟩, fin, nxt, entered⟩ := inv
    refine ⟨⟨opStep_quiet quiet taken, opStep_counted quiet counted taken⟩, ?_⟩
    suffices same : s.SameCount s' ∧ s'.entered = s.entered from
      ⟨same.1.fins ▸ fin, same.1.rcvNxt.trans nxt, same.2.trans entered⟩
    cases op with
    | segment ticks seg memory =>
      obtain ⟨data, last⟩ := nothing fin
      rw [opStep_segment quiet] at taken
      obtain rfl := some.inj taken
      exact segment_sameCount quiet counted.past memory data last
    | read length =>
      rw [opStep_read quiet] at taken
      obtain rfl := some.inj taken
      exact read_sameCount s length
    | shutdownRead | close | other =>
      obtain ⟨same, entered, -⟩ := opStep_other rfl taken
      exact ⟨same, entered⟩
  have kept := runFrom_invariant preserved ⟨inv, fin, rfl, rfl⟩ nothing run
  exact kept.2.2

/-- The FIN of the peer behind the byte 99. -/
def finAt100 : Segment := { sequence := 100, fin := true }

/-- A byte with the sequence number of the FIN, and the FIN once more. -/
def againAt100 : List Op := [.segment 0 (oneByte 100 1) true, .segment 0 finAt100 true]

theorem fin_is_last_againAt100 : ∃ c, runFrom opStep example100 [.segment 0 finAt100 true] = some c ∧
    ∃ c', runFrom opStep c againAt100 = some c' ∧
      c.fins = 1 ∧ c'.sock.tcpRcvNxt = c.sock.tcpRcvNxt ∧ c'.entered = c.entered := by
  refine exists_run_test (fun c => c.fins = 1 ∧ Along opStep NothingNext c againAt100 ∧
    (runFrom opStep c againAt100).isSome) (by decide +kernel) fun c reached facts => ?_
  obtain ⟨fin, nothing, ends⟩ := facts
  obtain ⟨c', run⟩ := isSome_iff_exists.mp ends
  exact ⟨c', run, fin, fin_is_last example100_fresh reached (by simp [fin]) nothing run⟩

/-- Data and a second FIN with the sequence numbers behind the FIN are taken in CLOSE_WAIT. -/
theorem taken_after_fin :
    ((runFrom opStep example100 [.segment 0 finAt100 true]).any fun c =>
      (runFrom opStep c [.segment 0 (oneByte 101 7) true,
          .segment 0 { sequence := 102, fin := true } true]).any fun c' =>
        c.fins = 1 ∧ c.sock.tcpState = .closeWait ∧ c.sock.tcpRcvNxt = 101 ∧ c.entered = [] ∧
          c'.sock.tcpRcvNxt = 103 ∧ c'.entered = [7] ∧ c'.fins = 2) = true := by
  decide +kernel

end Conn

end Procore.Net
