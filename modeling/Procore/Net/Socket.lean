import Mathlib.Data.List.Basic
import Mathlib.Logic.Function.Iterate

/-! # Sockets and the reception of TCP segments

A socket with the fields that reception uses, and `net_receive_tcp_frame` for a
socket that was found: one section under `socket->lock` that moves the
connection on, and what the rest of the function then has to do. The counters
`rx_count` and `tcp_tx_count` are the lengths of their queues.
-/

namespace Procore.Net

/-- Sequence and acknowledgement numbers. -/
abbrev Seq := BitVec 32

abbrev Ticks := BitVec 32

def netMaxDatagram : Nat := 1472
def netRxQueueLimit : Nat := 16
def netTcpRxQueueLimit : Nat := 32
def netTcpMss : BitVec 32 := 1400
def netTcpMaxWindow : BitVec 32 := 65535
def netTcpRetryTicks : Ticks := 100

def inaddrAny : Nat := 0

inductive SockType where
  | dgram
  | stream
  deriving DecidableEq

inductive TcpState where
  | closed
  | synSent
  | synReceived
  | established
  | closeWait
  | finWait1
  | finWait2
  | closing
  | lastAck
  deriving DecidableEq

structure SockAddr where
  port : Nat := 0
  addr : Nat := inaddrAny
  deriving DecidableEq

structure Packet where
  data : List UInt8
  source : SockAddr
  deriving DecidableEq

structure TxSegment where
  sequence : Seq
  acknowledgement : Seq
  data : List UInt8
  sentTick : Ticks := 0
  retries : Nat := 0
  deriving DecidableEq

/-- The end of a segment on the transmit queue. -/
def TxSegment.stop (seg : TxSegment) : Seq := seg.sequence + BitVec.ofNat 32 seg.data.length

structure Socket where
  type : SockType := .stream
  port : Nat := 0
  addr : Nat := inaddrAny
  bound : Bool := false
  connected : Bool := false
  peer : SockAddr := {}
  listening : Bool := false
  closed : Bool := false
  rxQueue : List Packet := []
  tcpState : TcpState := .closed
  tcpSndUna : Seq := 0
  tcpSndNxt : Seq := 0
  tcpRcvNxt : Seq := 0
  tcpSndWnd : BitVec 32 := netTcpMaxWindow
  tcpCwnd : BitVec 32 := 2 * netTcpMss
  tcpSsthresh : BitVec 32 := 16 * netTcpMss
  tcpLastAck : Seq := 0
  tcpDupAcks : Nat := 0
  tcpTxQueue : List TxSegment := []
  /-- The flags of the control segment to be sent again; none when nothing is outstanding. -/
  tcpLastTxFlags : Nat := 0
  tcpEof : Bool := false
  tcpReadShutdown : Bool := false
  tcpWriteShutdown : Bool := false
  tcpFinSent : Bool := false
  tcpFinPending : Bool := false
  deriving DecidableEq

/-- The ends of a connection. -/
@[simp] def Socket.link (s : Socket) : Bool × Bool × Nat × Nat × SockAddr :=
  (s.bound, s.connected, s.port, s.addr, s.peer)

def noPayload : { bytes : List UInt8 // bytes.length ≤ 1460 } := ⟨[], by decide⟩

/-- What `net_parse_tcp_frame` returns. The payload of a frame is shorter than a datagram. -/
structure Segment where
  source : SockAddr := {}
  destination : SockAddr := {}
  sequence : Seq
  acknowledgement : Seq := 0
  fin : Bool := false
  syn : Bool := false
  rst : Bool := false
  ack : Bool := false
  window : BitVec 16 := 65535
  payload : { bytes : List UInt8 // bytes.length ≤ 1460 } := noPayload

def Segment.length (seg : Segment) : Seq := BitVec.ofNat 32 seg.payload.val.length

/-- What is left to do after the lock section of `net_receive_tcp_frame`. -/
structure Todo where
  sendAck : Bool := false
  markEof : Bool := false
  queueData : Bool := false
  /-- The connection is to be handed to its listener, if it has one. -/
  accept : Bool := false
  startFin : Bool := false
  deriving DecidableEq

/-- The window of a segment; an empty one is taken as a segment. -/
def sndWnd (window : BitVec 16) : BitVec 32 :=
  if window = 0 then netTcpMss else window.setWidth 32

/-- `net_tcp_ack_segments_locked`: the segments left, and the bytes acknowledged. -/
def ackSegments (acknowledgement : Seq) : List TxSegment → List TxSegment × Nat
  | [] => ([], 0)
  | seg :: rest =>
    if acknowledgement < seg.stop then (seg :: rest, 0)
    else
      let (left, acked) := ackSegments acknowledgement rest
      (left, seg.data.length + acked)

/-- The congestion window after one acknowledged segment. -/
def cwndAfterAck (cwnd ssthresh : BitVec 32) : BitVec 32 :=
  let increase :=
    if cwnd < ssthresh then netTcpMss
    else
      let share := netTcpMss * netTcpMss / (if cwnd = 0 then netTcpMss else cwnd)
      if share = 0 then 1 else share
  -- The difference wraps for a window so small that the increase exceeds the largest window.
  if netTcpMaxWindow - increase < cwnd then netTcpMaxWindow else cwnd + increase

namespace Socket

def congestionAck (s : Socket) : Socket :=
  { s with tcpCwnd := cwndAfterAck s.tcpCwnd s.tcpSsthresh }

def finAcked (s : Socket) : Socket × Bool :=
  let s := { s with tcpFinSent := false, tcpLastTxFlags := 0 }
  match s.tcpState with
  | .finWait1 => ({ s with tcpState := .finWait2 }, false)
  | .closing | .lastAck => ({ s with tcpState := .closed, tcpEof := true }, true)
  | _ => (s, false)

/-- The acknowledgement lies behind `tcp_snd_una` and up to `tcp_snd_nxt`. -/
def AckIsNew (s : Socket) (acknowledgement : Seq) : Prop :=
  s.tcpSndUna < acknowledgement ∧ acknowledgement ≤ s.tcpSndNxt

instance (s : Socket) (acknowledgement : Seq) : Decidable (s.AckIsNew acknowledgement) :=
  inferInstanceAs (Decidable (_ ∧ _))

/-- What a new acknowledgement does to the transmit queue. -/
def ackQueue (s : Socket) (acknowledgement : Seq) : Socket :=
  let (left, acked) := ackSegments acknowledgement s.tcpTxQueue
  -- One step of congestion control for each started `NET_TCP_MSS` of `acknowledged_bytes`.
  congestionAck^[(acked + (netTcpMss.toNat - 1)) / netTcpMss.toNat]
    { s with tcpSndUna := acknowledgement, tcpLastAck := acknowledgement, tcpDupAcks := 0,
             tcpTxQueue := left }

def ackFin (s : Socket) (acknowledgement : Seq) : Socket × Bool :=
  if s.tcpFinSent ∧ s.tcpSndNxt ≤ acknowledgement then s.finAcked else (s, false)

/-- A FIN that waited for the transmit queue is sent once everything is acknowledged. -/
def releaseFin (s : Socket) : Socket × Bool :=
  if s.tcpFinPending ∧ s.tcpTxQueue = [] ∧ s.tcpSndNxt = s.tcpSndUna then
    ({ s with tcpFinPending := false }, true)
  else (s, false)

def newAck (s : Socket) (acknowledgement : Seq) : Socket × Todo :=
  let (s, eof) := (s.ackQueue acknowledgement).ackFin acknowledgement
  let (s, fin) := s.releaseFin
  (s, { markEof := eof, startFin := fin })

/-- The first segment is to be sent again at once. -/
def resendFirst (ticks : Ticks) : List TxSegment → List TxSegment
  | [] => []
  | first :: rest => { first with sentTick := ticks - netTcpRetryTicks, retries := 0 } :: rest

def dupAck (s : Socket) (ticks : Ticks) : Socket :=
  if s.tcpDupAcks + 1 < 3 then { s with tcpDupAcks := s.tcpDupAcks + 1 }
  else
    let ssthresh := if s.tcpCwnd / 2 < 2 * netTcpMss then 2 * netTcpMss else s.tcpCwnd / 2
    { s with tcpSsthresh := ssthresh, tcpCwnd := ssthresh + 3 * netTcpMss, tcpDupAcks := 0,
             tcpTxQueue := resendFirst ticks s.tcpTxQueue }

def updateWindow (s : Socket) (window : BitVec 16) : Socket := { s with tcpSndWnd := sndWnd window }

def takeAck (s : Socket) (ticks : Ticks) (seg : Segment) : Socket × Todo :=
  let s := s.updateWindow seg.window
  if s.AckIsNew seg.acknowledgement then s.newAck seg.acknowledgement
  else if seg.acknowledgement = s.tcpSndUna ∧ s.tcpTxQueue ≠ [] then (s.dupAck ticks, {})
  else (s, {})

def IsNext (s : Socket) (seg : Segment) : Prop :=
  seg.sequence = s.tcpRcvNxt ∧ seg.payload.val ≠ []

instance (s : Socket) (seg : Segment) : Decidable (s.IsNext seg) := inferInstanceAs (Decidable (_ ∧ _))

def takeData (s : Socket) (seg : Segment) : Socket :=
  if s.IsNext seg then { s with tcpRcvNxt := s.tcpRcvNxt + seg.length } else s

/-- The segment ends with the FIN that comes next. -/
def FinIsNext (s : Socket) (seg : Segment) : Prop :=
  seg.fin ∧ seg.sequence + seg.length = s.tcpRcvNxt

instance (s : Socket) (seg : Segment) : Decidable (s.FinIsNext seg) :=
  inferInstanceAs (Decidable (_ ∧ _))

def takeFin (s : Socket) : Socket :=
  { s with
    tcpRcvNxt := s.tcpRcvNxt + 1
    tcpEof := true
    tcpState :=
      match s.tcpState with
      | .closed | .finWait2 => .closed
      | .finWait1 | .closing | .lastAck => .closing
      | _ => .closeWait }

/-- The states in which segments are processed. -/
def isOpen (s : Socket) : Bool :=
  !s.closed && (s.tcpState = .established || s.tcpState = .closeWait || s.tcpState = .finWait1 ||
    s.tcpState = .finWait2 || s.tcpState = .closing || s.tcpState = .lastAck)

/-- The payload and the FIN of a segment. -/
def takeStream (s : Socket) (seg : Segment) : Socket :=
  if (s.takeData seg).FinIsNext seg then (s.takeData seg).takeFin else s.takeData seg

def process (s : Socket) (ticks : Ticks) (seg : Segment) : Socket × Todo :=
  if seg.rst then
    ({ s with tcpState := .closed, tcpFinSent := false, tcpEof := true }, { markEof := true })
  else
    let (s, todo) := if seg.ack then s.takeAck ticks seg else (s, {})
    let fin := decide ((s.takeData seg).FinIsNext seg)
    (s.takeStream seg,
      { todo with
        queueData := s.IsNext seg && !s.tcpReadShutdown
        sendAck := seg.payload.val ≠ [] || fin
        markEof := todo.markEof || fin })

def establish (s : Socket) (seg : Segment) : Socket :=
  { s with
    tcpSndUna := seg.acknowledgement
    tcpSndWnd := sndWnd seg.window
    tcpLastAck := seg.acknowledgement
    tcpDupAcks := 0
    tcpState := .established
    tcpLastTxFlags := 0 }

def answersSyn (s : Socket) (seg : Segment) : Bool :=
  !s.closed && s.tcpState = .synSent && seg.syn && seg.ack && seg.acknowledgement = s.tcpSndNxt

/-- The segment acknowledges our SYN and ACK. -/
def acksSyn (s : Socket) (seg : Segment) : Bool :=
  !s.closed && s.tcpState = .synReceived && seg.ack && seg.acknowledgement = s.tcpSndNxt

/-- The lock section of `net_receive_tcp_frame`. -/
def receive (s : Socket) (ticks : Ticks) (seg : Segment) : Socket × Todo :=
  if s.answersSyn seg then
    ({ s.establish seg with tcpRcvNxt := seg.sequence + 1 }, { sendAck := true })
  else if s.acksSyn seg then
    ({ s.establish seg with tcpFinSent := false }, { sendAck := true, accept := true })
  else if s.isOpen then s.process ticks seg
  else (s, {})

/-- `net_queue_packet` from its lock section on, with the packet allocated; nothing if the
    packet is dropped. Packets of a stream go to the end of the queue, others to its front. -/
def queuePacket (s : Socket) (packet : Packet) : Option Socket :=
  let limit := if s.type = .stream then netTcpRxQueueLimit else netRxQueueLimit
  if s.closed ∨ limit ≤ s.rxQueue.length then none
  else some { s with rxQueue := if s.type = .stream then s.rxQueue ++ [packet] else packet :: s.rxQueue }

/-- `net_queue_packet`; `memory` says that `kmalloc` finds memory. -/
def netQueuePacket (s : Socket) (memory : Bool) (data : List UInt8) (source : SockAddr) :
    Option Socket :=
  if data = [] ∨ netMaxDatagram < data.length ∨ memory = false then none
  else s.queuePacket ⟨data, source⟩

/-- The read half of `net_socket_shutdown`. -/
def shutdownRead (s : Socket) : Socket :=
  { s with tcpReadShutdown := true, tcpEof := true, rxQueue := [] }

end Socket

/-- What the errors of the socket calls say. -/
inductive NetError where
  | busy
  | badProc
  | inval
  deriving DecidableEq

/-- How a call of `net_socket_recv` on a stream goes on after its first lock section. -/
inductive RecvStart where
  /-- It returns. -/
  | done (result : Except NetError (List UInt8))
  /-- It took the first packet. -/
  | takes (packet : Packet) (s : Socket)
  /-- There is nothing yet: `-E_BUSY`, or it sleeps. -/
  | empty

/-- The first lock section of `net_socket_recv` on a stream. -/
def Socket.recvStart (s : Socket) : RecvStart :=
  if s.tcpReadShutdown then .done (.ok [])
  else
    match s.rxQueue with
    | packet :: rest => .takes packet { s with rxQueue := rest }
    | [] =>
      if s.tcpEof then .done (.ok [])
      else if s.closed ∨ s.tcpState = .closed then .done (.error .badProc)
      else .empty

/-- The unread tail of a packet goes back to the front of the queue. -/
def Socket.putBack (s : Socket) (packet : Packet) : Socket :=
  { s with rxQueue := packet :: s.rxQueue }

end Procore.Net
