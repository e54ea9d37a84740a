import Procore.Lib.Run
import Procore.Net.AckShift

/-! # The byte stream of a connection

Several CPUs receive segments of one connection while tasks read from it. Each
of the two takes two sections of `socket->lock`: a payload is accepted in the
first and queued in the second, and a packet is taken from the queue in the
first and its unread tail put back in the second.
-/

namespace Procore.Net

open Procore.Lib

namespace Socket

/-- The payload of the segment moves `tcp_rcv_nxt` on. -/
def AcceptsData (s : Socket) (seg : Segment) : Prop :=
  s.isOpen ∧ ¬ seg.rst ∧ s.IsNext seg

instance (s : Socket) (seg : Segment) : Decidable (s.AcceptsData seg) :=
  inferInstanceAs (Decidable (_ ∧ _ ∧ _))

/-- The FIN of the segment moves `tcp_rcv_nxt` on. -/
def AcceptsFin (s : Socket) (seg : Segment) : Prop :=
  s.isOpen ∧ ¬ seg.rst ∧ (s.takeData seg).FinIsNext seg

instance (s : Socket) (seg : Segment) : Decidable (s.AcceptsFin seg) :=
  inferInstanceAs (Decidable (_ ∧ _ ∧ _))

/-- What the sending half of a connection leaves alone; it does not go back to the handshake. -/
structure SameInput (s t : Socket) : Prop where
  type : t.type = s.type
  link : t.link = s.link
  rxQueue : t.rxQueue = s.rxQueue
  rcvNxt : t.tcpRcvNxt = s.tcpRcvNxt
  closed : t.closed = s.closed
  readShutdown : t.tcpReadShutdown = s.tcpReadShutdown
  handshake : t.tcpState = .synSent → s.tcpState = .synSent

instance (s t : Socket) : Decidable (s.SameInput t) :=
  decidable_of_iff (t.type = s.type ∧ t.link = s.link ∧ t.rxQueue = s.rxQueue ∧ t.tcpRcvNxt = s.tcpRcvNxt ∧
      t.closed = s.closed ∧ t.tcpReadShutdown = s.tcpReadShutdown ∧
      (t.tcpState = .synSent → s.tcpState = .synSent))
    ⟨fun ⟨a, b, c, d, e, f, g⟩ => ⟨a, b, c, d, e, f, g⟩,
      fun ⟨a, b, c, d, e, f, g⟩ => ⟨a, b, c, d, e, f, g⟩⟩

variable {s t : Socket}

theorem SameInput.trans {u : Socket} (first : s.SameInput t) (second : t.SameInput u) :
    s.SameInput u where
  type := second.type.trans first.type
  link := second.link.trans first.link
  rxQueue := second.rxQueue.trans first.rxQueue
  rcvNxt := second.rcvNxt.trans first.rcvNxt
  closed := second.closed.trans first.closed
  readShutdown := second.readShutdown.trans first.readShutdown
  handshake := first.handshake ∘ second.handshake

theorem ackQueue_sameInput (s : Socket) (acknowledgement : Seq) :
    s.SameInput (s.ackQueue acknowledgement) := by
  obtain ⟨cwnd, queue⟩ := s.ackQueue_eq acknowledgement
  rw [queue]
  constructor <;> simp

theorem finAcked_sameInput (s : Socket) : s.SameInput s.finAcked.1 := by
  unfold finAcked
  cases state : s.tcpState <;> constructor <;> simp [state]

theorem newAck_sameInput (s : Socket) (acknowledgement : Seq) :
    s.SameInput (s.newAck acknowledgement).1 := by
  have fin (t : Socket) : t.SameInput (t.ackFin acknowledgement).1 := by
    unfold ackFin
    split
    · exact finAcked_sameInput t
    · constructor <;> simp
  have release (t : Socket) : t.SameInput t.releaseFin.1 := by
    unfold releaseFin
    split <;> constructor <;> simp
  exact ((ackQueue_sameInput s acknowledgement).trans (fin _)).trans (release _)

theorem takeAck_sameInput (s : Socket) (ticks : Ticks) (seg : Segment) :
    s.SameInput (s.takeAck ticks seg).1 := by
  have window : s.SameInput (s.updateWindow seg.window) := by
    constructor <;> simp [updateWindow]
  have dup (t : Socket) : t.SameInput (t.dupAck ticks) := by
    unfold dupAck
    split <;> constructor <;> simp
  simp only [takeAck]
  split
  · exact window.trans (newAck_sameInput _ _)
  · split
    · exact window.trans (dup _)
    · exact window

/-- The socket the payload and the FIN of a segment are taken by. -/
def afterAck (s : Socket) (ticks : Ticks) (seg : Segment) : Socket :=
  if seg.ack then (s.takeAck ticks seg).1 else s

theorem afterAck_sameInput (s : Socket) (ticks : Ticks) (seg : Segment) :
    s.SameInput (s.afterAck ticks seg) := by
  unfold afterAck
  split
  · exact takeAck_sameInput s ticks seg
  · constructor <;> simp

theorem process_of_not_rst {seg : Segment} (rst : ¬ seg.rst) (ticks : Ticks) :
    (s.process ticks seg).1 = (s.afterAck ticks seg).takeStream seg ∧
      (s.process ticks seg).2.queueData =
        (decide ((s.afterAck ticks seg).IsNext seg) && !(s.afterAck ticks seg).tcpReadShutdown) := by
  unfold process afterAck
  simp only [rst, if_false, Bool.false_eq_true]
  split <;> exact ⟨rfl, rfl⟩

/-- How far the payload and the FIN of a segment move `tcp_rcv_nxt`. -/
def advance (s : Socket) (seg : Segment) : Nat :=
  (if s.AcceptsData seg then seg.payload.val.length else 0) + if s.AcceptsFin seg then 1 else 0

/-- What reception does to the input of a connection past our SYN. -/
structure Received (s : Socket) (seg : Segment) (result : Socket × Todo) : Prop where
  type : result.1.type = s.type
  link : result.1.link = s.link
  rxQueue : result.1.rxQueue = s.rxQueue
  rcvNxt : result.1.tcpRcvNxt = s.tcpRcvNxt + BitVec.ofNat 32 (s.advance seg)
  closed : result.1.closed = s.closed
  readShutdown : result.1.tcpReadShutdown = s.tcpReadShutdown
  past : result.1.tcpState ≠ .synSent
  queueData : result.2.queueData = (decide (s.AcceptsData seg) && !s.tcpReadShutdown)

theorem isNext_of_sameInput (same : s.SameInput t) (seg : Segment) :
    t.IsNext seg ↔ s.IsNext seg := by
  simp [IsNext, same.rcvNxt]

theorem takeStream_rcvNxt (s : Socket) (seg : Segment) :
    (s.takeStream seg).tcpRcvNxt = s.tcpRcvNxt + BitVec.ofNat 32
      ((if s.IsNext seg then seg.payload.val.length else 0) +
        if (s.takeData seg).FinIsNext seg then 1 else 0) := by
  simp only [takeStream, takeFin, BitVec.ofNat_add, ← BitVec.add_assoc]
  have data : (s.takeData seg).tcpRcvNxt =
      s.tcpRcvNxt + BitVec.ofNat 32 (if s.IsNext seg then seg.payload.val.length else 0) := by
    unfold takeData
    split <;> simp [Segment.length]
  split <;> simp [data]

theorem takeStream_input (s : Socket) (seg : Segment) :
    (s.takeStream seg).type = s.type ∧ (s.takeStream seg).link = s.link ∧
      (s.takeStream seg).rxQueue = s.rxQueue ∧
      (s.takeStream seg).closed = s.closed ∧
      (s.takeStream seg).tcpReadShutdown = s.tcpReadShutdown ∧
      ((s.takeStream seg).tcpState = .synSent → s.tcpState = .synSent) := by
  unfold takeStream takeData takeFin
  split <;> split <;> cases s.tcpState <;> simp

theorem takeData_finIsNext_of_sameInput (same : s.SameInput t) (seg : Segment) :
    (t.takeData seg).FinIsNext seg ↔ (s.takeData seg).FinIsNext seg := by
  simp only [takeData, isNext_of_sameInput same, FinIsNext]
  split <;> simp [same.rcvNxt]

theorem process_received (ticks : Ticks) (seg : Segment) (opened : s.isOpen)
    (past : s.tcpState ≠ .synSent) : s.Received seg (s.process ticks seg) := by
  by_cases rst : seg.rst
  · constructor <;> simp [process, rst, advance, AcceptsData, AcceptsFin]
  have same := afterAck_sameInput s ticks seg
  obtain ⟨result, queue⟩ := process_of_not_rst rst ticks
  obtain ⟨type, link, rxQueue, closed, shut, state⟩ := takeStream_input (s.afterAck ticks seg) seg
  have moved := takeStream_rcvNxt (s.afterAck ticks seg) seg
  simp only [isNext_of_sameInput same, takeData_finIsNext_of_sameInput same, same.rcvNxt] at moved
  constructor
  · rw [result, type, same.type]
  · rw [result, link, same.link]
  · rw [result, rxQueue, same.rxQueue]
  · rw [result, moved]
    simp [advance, AcceptsData, AcceptsFin, opened, rst]
  · rw [result, closed, same.closed]
  · rw [result, shut, same.readShutdown]
  · rw [result]
    exact fun handshake => past (same.handshake (state handshake))
  · rw [queue, same.readShutdown]
    simp [AcceptsData, opened, rst, isNext_of_sameInput same]

theorem receive_received (ticks : Ticks) (seg : Segment)
    (past : s.tcpState ≠ .synSent) : s.Received seg (s.receive ticks seg) := by
  have answered : s.answersSyn seg = false := by simp [answersSyn, past]
  by_cases acked : s.acksSyn seg
  · have closed : s.isOpen = false := by
      simp only [acksSyn, isOpen] at acked ⊢
      grind
    constructor <;> simp [receive, answered, acked, establish, advance, AcceptsData, AcceptsFin, closed]
  by_cases opened : s.isOpen
  · have result : s.receive ticks seg = s.process ticks seg := by
      simp [receive, answered, acked, opened]
    rw [result]
    exact process_received ticks seg opened past
  · constructor <;>
      simp [receive, answered, acked, opened, advance, AcceptsData, AcceptsFin, past]

end Socket

/-- A connection with what its CPUs and tasks are in the middle of. The three byte lists are its
    history: what `tcp_rcv_nxt` has passed, what entered the queue, and what reads returned. -/
structure Conn where
  sock : Socket
  /-- Payloads accepted by a CPU and not yet queued. -/
  accepting : List (Nat × Packet) := []
  /-- Unread tails that a task has not yet put back. -/
  holding : List (Nat × Packet) := []
  accepted : List UInt8 := []
  entered : List UInt8 := []
  returned : List UInt8 := []
  /-- The FINs that `tcp_rcv_nxt` has passed. -/
  fins : Nat := 0

inductive Section where
  /-- The lock section of `net_receive_tcp_frame`. -/
  | receive (cpu : Nat) (ticks : Ticks) (seg : Segment)
  /-- `net_queue_packet` for the payload the CPU accepted. -/
  | queue (cpu : Nat) (memory : Bool)
  /-- The first lock section of `net_socket_recv`. -/
  | recv (task length : Nat)
  /-- The second one. -/
  | putBack (task : Nat)
  | shutdownRead
  | close
  /-- A section of the sending half. -/
  | other (update : Socket → Socket)

namespace Conn

def receive (c : Conn) (cpu : Nat) (ticks : Ticks) (seg : Segment) : Conn :=
  let result := c.sock.receive ticks seg
  { c with
    sock := result.1
    accepting :=
      if result.2.queueData then (cpu, ⟨seg.payload.val, seg.source⟩) :: c.accepting else c.accepting
    accepted := if c.sock.AcceptsData seg then c.accepted ++ seg.payload.val else c.accepted
    fins := if c.sock.AcceptsFin seg then c.fins + 1 else c.fins }

def queue (c : Conn) (cpu : Nat) (memory : Bool) : Conn :=
  match c.accepting.lookup cpu with
  | none => c
  | some packet =>
    let c := { c with accepting := c.accepting.filter (·.1 ≠ cpu) }
    match c.sock.netQueuePacket memory packet.data packet.source with
    | none => c
    | some sock => { c with sock := sock, entered := c.entered ++ packet.data }

def recv (c : Conn) (task length : Nat) : Conn :=
  match c.sock.recvStart with
  | .takes packet sock =>
    { c with
      sock := sock
      returned := c.returned ++ packet.data.take length
      holding :=
        if length < packet.data.length then
          (task, { packet with data := packet.data.drop length }) :: c.holding
        else c.holding }
  | _ => c

def putBack (c : Conn) (task : Nat) : Conn :=
  match c.holding.lookup task with
  | none => c
  | some packet =>
    { c with sock := c.sock.putBack packet, holding := c.holding.filter (·.1 ≠ task) }

/-- One lock section. A CPU or task that is between two sections starts nothing else. -/
def step (c : Conn) : Section → Option Conn
  | .receive cpu ticks seg =>
    if (c.accepting.lookup cpu).isNone then some (c.receive cpu ticks seg) else none
  | .queue cpu memory => some (c.queue cpu memory)
  | .recv task length =>
    if (c.holding.lookup task).isNone then some (c.recv task length) else none
  | .putBack task => some (c.putBack task)
  | .shutdownRead => some { c with sock := c.sock.shutdownRead }
  | .close => some { c with sock := { c.sock with closed := true } }
  | .other update =>
    if c.sock.SameInput (update c.sock) then some { c with sock := update c.sock } else none

/-- The bytes of packets in the order of the list. -/
def bytes (packets : List Packet) : List UInt8 := packets.flatMap (·.data)

/-- Every accepted byte is, in order, returned, in a tail, in the queue or about to be queued. -/
structure InOrder (c : Conn) : Prop where
  stream : c.sock.type = .stream
  past : c.sock.tcpState ≠ .synSent
  oneCpu : c.accepting.length ≤ 1
  oneTask : c.holding.length ≤ 1
  small : ∀ entry ∈ c.accepting, entry.2.data ≠ [] ∧ entry.2.data.length ≤ netMaxDatagram
  whole : c.sock.tcpReadShutdown = false →
    c.returned ++ bytes (c.holding.map (·.2)) ++ bytes c.sock.rxQueue ++
      bytes (c.accepting.map (·.2)) = c.accepted
  front : c.returned <+: c.accepted

/-- Nobody else is between the two sections, and a payload that is to be queued finds memory and
    room on an open socket. -/
def Alone (c : Conn) : Section → Prop
  | .receive _ _ seg => c.sock.AcceptsData seg → c.accepting = []
  | .queue cpu memory =>
    (c.accepting.lookup cpu).isSome →
      memory ∧ c.sock.closed = false ∧ c.sock.rxQueue.length < netTcpRxQueueLimit
  | .recv _ _ => c.holding = []
  | _ => True

instance (c : Conn) : ∀ l, Decidable (c.Alone l)
  | .receive _ _ _ => inferInstanceAs (Decidable (_ → _))
  | .queue _ _ => inferInstanceAs (Decidable (_ → _))
  | .recv _ _ => inferInstanceAs (Decidable (_ = _))
  | .putBack _ | .shutdownRead | .close | .other _ => inferInstanceAs (Decidable True)

variable {c : Conn}

theorem InOrder.receive (inv : c.InOrder) {cpu : Nat} {ticks : Ticks} {seg : Segment}
    (alone : c.sock.AcceptsData seg → c.accepting = []) : (c.receive cpu ticks seg).InOrder := by
  have result := Socket.receive_received ticks seg inv.past
  have fits : seg.payload.val.length ≤ netMaxDatagram := Nat.le_trans seg.payload.property (by decide)
  have stream := result.type.trans inv.stream
  have front : c.returned <+: (c.receive cpu ticks seg).accepted := by
    simp only [Conn.receive]
    split
    · exact inv.front.trans (List.prefix_append _ _)
    · exact inv.front
  by_cases accepts : c.sock.AcceptsData seg
  · have first := alone accepts
    cases shut : c.sock.tcpReadShutdown
    · have whole := inv.whole shut
      exact {
        stream, front, past := result.past, oneTask := inv.oneTask
        oneCpu := by simp [Conn.receive, result.queueData, accepts, shut, first]
        small := by simpa [Conn.receive, result.queueData, accepts, shut, first] using
          ⟨accepts.2.2.2, fits⟩
        whole := fun _ => by
          simp [Conn.receive, result.queueData, accepts, shut, first, result.rxQueue, bytes, ← whole] }
    · exact {
        stream, front, past := result.past, oneTask := inv.oneTask
        oneCpu := by simp [Conn.receive, result.queueData, shut, first]
        small := by simp [Conn.receive, result.queueData, shut, first]
        whole := fun reads => by
          rw [show (c.receive cpu ticks seg).sock.tcpReadShutdown = true from
            result.readShutdown.trans shut] at reads
          cases reads }
  · exact {
      stream, front, past := result.past, oneTask := inv.oneTask
      oneCpu := by simpa [Conn.receive, result.queueData, accepts] using inv.oneCpu
      small := by simpa [Conn.receive, result.queueData, accepts] using inv.small
      whole := fun reads => by
        simpa [Conn.receive, result.queueData, accepts, result.rxQueue] using
          inv.whole (result.readShutdown.symm.trans reads) }

theorem lookup_of_length_le_one {pending : List (Nat × Packet)} {who : Nat} {packet : Packet}
    (one : pending.length ≤ 1) (found : pending.lookup who = some packet) :
    pending = [(who, packet)] := by
  match pending with
  | [] => simp at found
  | [(other, held)] =>
    simp only [List.lookup_cons] at found
    split at found <;> simp_all
  | _ :: _ :: _ => simp at one

theorem InOrder.queue (inv : c.InOrder) {cpu : Nat} {memory : Bool} (alone : (c.accepting.lookup cpu).isSome →
      memory ∧ c.sock.closed = false ∧ c.sock.rxQueue.length < netTcpRxQueueLimit) :
    (c.queue cpu memory).InOrder := by
  unfold Conn.queue
  cases found : c.accepting.lookup cpu with
  | none => exact inv
  | some packet =>
    obtain ⟨available, opened, room⟩ := alone (by simp [found])
    have only := lookup_of_length_le_one inv.oneCpu found
    obtain ⟨nonempty, small⟩ := inv.small (cpu, packet) (by simp [only])
    have queued : c.sock.netQueuePacket memory packet.data packet.source =
        some { c.sock with rxQueue := c.sock.rxQueue ++ [packet] } := by
      simp [Socket.netQueuePacket, Socket.queuePacket, inv.stream, nonempty, available, opened,
        Nat.not_lt.mpr small, room]
    simp only [queued]
    exact {
      stream := inv.stream, past := inv.past, oneTask := inv.oneTask, front := inv.front
      oneCpu := by simp [only]
      small := by simp [only]
      whole := fun reads => by
        have whole := inv.whole reads
        simp only [only, bytes] at whole ⊢
        simpa using whole }

theorem recvStart_takes {s t : Socket} {packet : Packet} (start : s.recvStart = .takes packet t) :
    s.tcpReadShutdown = false ∧ ∃ rest, s.rxQueue = packet :: rest ∧ t = { s with rxQueue := rest } := by
  simp only [Socket.recvStart] at start
  grind

theorem InOrder.recv (inv : c.InOrder) {task length : Nat} (alone : c.holding = []) :
    (c.recv task length).InOrder := by
  unfold Conn.recv
  split
  · next packet sock start =>
      obtain ⟨reads, rest, queue, rfl⟩ := recvStart_takes start
      have whole := inv.whole reads
      simp only [alone, queue, bytes,
        List.flatMap_cons] at whole
      exact {
        stream := inv.stream, past := inv.past, oneCpu := inv.oneCpu, small := inv.small
        front := by
          rw [← List.take_append_drop length packet.data] at whole
          simp only [List.append_assoc] at whole
          exact ⟨_, (List.append_assoc _ _ _).trans whole⟩
        oneTask := by split <;> simp [alone]
        whole := fun _ => by
          -- The packet is split into what is returned and the tail, if there is one.
          split
          · simpa [bytes, alone] using whole
          · next short =>
              simpa [bytes, alone, List.take_of_length_le (Nat.not_lt.mp short)] using whole }
  · exact inv

theorem InOrder.putBack (inv : c.InOrder) (task : Nat) : (c.putBack task).InOrder := by
  unfold Conn.putBack
  cases found : c.holding.lookup task with
  | none => exact inv
  | some packet =>
    have only := lookup_of_length_le_one inv.oneTask found
    exact {
      stream := inv.stream, past := inv.past, oneCpu := inv.oneCpu, small := inv.small
      front := inv.front
      oneTask := by simp [only]
      whole := fun reads => by
        have whole := inv.whole reads
        simp only [only, bytes, Socket.putBack] at whole ⊢
        simpa using whole }

theorem step_inOrder {c' : Conn} {l : Section} (inv : c.InOrder) (alone : c.Alone l)
    (taken : c.step l = some c') : c'.InOrder := by
  cases l with
  | receive cpu ticks seg =>
    simp only [step, Option.ite_none_right_eq_some, Option.some.injEq] at taken
    obtain ⟨-, rfl⟩ := taken
    exact inv.receive alone
  | queue cpu memory =>
    obtain rfl := Option.some.inj taken
    exact inv.queue alone
  | recv task length =>
    simp only [step, Option.ite_none_right_eq_some, Option.some.injEq] at taken
    obtain ⟨-, rfl⟩ := taken
    exact inv.recv alone
  | putBack task =>
    obtain rfl := Option.some.inj taken
    exact inv.putBack task
  | shutdownRead =>
    obtain rfl := Option.some.inj taken
    exact { inv with whole := fun reads => by cases reads }
  | close =>
    obtain rfl := Option.some.inj taken
    exact { inv with }
  | other update =>
    simp only [step, Option.ite_none_right_eq_some, Option.some.injEq] at taken
    obtain ⟨same, rfl⟩ := taken
    exact { inv with
      stream := same.type.trans inv.stream
      past := fun handshake => inv.past (same.handshake handshake)
      whole := fun reads => by
        rw [same.rxQueue]
        exact inv.whole (same.readShutdown.symm.trans reads) }

/-- A connection past the handshake that has not received anything yet. -/
structure Fresh (c : Conn) : Prop where
  stream : c.sock.type = .stream
  past : c.sock.tcpState ≠ .synSent
  rxQueue : c.sock.rxQueue = []
  accepting : c.accepting = []
  holding : c.holding = []
  accepted : c.accepted = []
  entered : c.entered = []
  returned : c.returned = []
  fins : c.fins = 0

theorem Fresh.inOrder (fresh : c.Fresh) : c.InOrder where
  stream := fresh.stream
  past := fresh.past
  oneCpu := by simp [fresh.accepting]
  oneTask := by simp [fresh.holding]
  small := by simp [fresh.accepting]
  front := by simp [fresh.returned]
  whole := by simp [bytes, fresh.returned, fresh.holding, fresh.rxQueue, fresh.accepting,
    fresh.accepted]

/-- If nobody else is between two sections at the first one of a reception or a read, and the
    packets find memory and room, the reads return a part of the peer's bytes from the first
    byte on, and the bytes they have not returned are all still held. -/
theorem interleaved_reads_in_order {c c' : Conn} {sections : List Section} (fresh : c.Fresh)
    (alone : Along step Alone c sections) (run : runFrom step c sections = some c') :
    c'.returned <+: c'.accepted ∧
      (c'.sock.tcpReadShutdown = false →
        c'.returned ++ bytes (c'.holding.map (·.2)) ++ bytes c'.sock.rxQueue ++
          bytes (c'.accepting.map (·.2)) = c'.accepted) := by
  have inv := runFrom_invariant (fun _ _ _ inv alone taken => step_inOrder inv alone taken)
    fresh.inOrder alone run
  exact ⟨inv.front, inv.whole⟩

/-- An established connection that expects the sequence number 100. -/
def example100 : Conn := { sock := { tcpState := .established, tcpRcvNxt := 100 } }

/-- A segment with a one-byte payload. -/
def oneByte (sequence : Seq) (byte : UInt8) : Segment :=
  { sequence, payload := ⟨[byte], by simp⟩ }

theorem example100_fresh : example100.Fresh := by
  constructor <;> decide

/-- A `recv` between the receipt and the queueing of each of two segments. -/
def recvBetween : List Section :=
  [.receive 0 0 (oneByte 100 1), .recv 7 1, .queue 0 true, .receive 1 0 (oneByte 101 2), .recv 7 1, .queue 1 true]

theorem interleaved_reads_in_order_recvBetween : ∃ c, runFrom step example100 recvBetween = some c ∧
    c.returned = [1] ∧ c.accepted = [1, 2] ∧ c.returned <+: c.accepted :=
  exists_run_test (fun c => c.returned = [1] ∧ c.accepted = [1, 2]) (by decide +kernel) fun _ run facts =>
    ⟨facts.1, facts.2, (interleaved_reads_in_order example100_fresh (by decide +kernel) run).1⟩

/-- The second of two segments is queued before the first one; and a second reader takes a packet
    while the first one holds the tail of the packet before it. -/
theorem reads_out_of_order :
    ((runFrom step example100 [.receive 0 0 (oneByte 100 1), .receive 1 0 (oneByte 101 2),
        .queue 1 true, .queue 0 true, .recv 7 1]).any fun c =>
      c.accepted = [1, 2] ∧ c.returned = [2]) = true ∧
    ((runFrom step example100 [.receive 0 0 { sequence := 100, payload := ⟨[1, 2], by decide⟩ },
        .queue 0 true, .receive 0 0 (oneByte 102 3), .queue 0 true, .recv 7 1, .recv 8 1,
        .putBack 7]).any fun c =>
      c.accepted = [1, 2, 3] ∧ c.returned = [1, 3]) = true := by
  decide +kernel

end Conn

end Procore.Net
