import Procore.Net.Demux

/-! # What a stream socket sends

The acknowledgement with which reception ends, and `net_socket_send`: a loop
whose rounds queue one segment each under `socket->lock` and transmit it after
the lock is released. The socket that a round finds is part of the input, as
other calls may have run since the round before.
-/

namespace Procore.Net

open Procore.Lib List

/-- The segment of `net_tcp_send_segment` without payload, for an acknowledgement. -/
def Socket.acknowledge (s : Socket) : Segment :=
  { source := ⟨s.port, s.localAddr⟩, destination := s.peer, sequence := s.tcpSndNxt,
    acknowledgement := s.tcpRcvNxt, ack := true }

/-- The end of `net_receive_tcp_frame`; `now` is the socket when its lock is taken again. -/
def Todo.answer (todo : Todo) (now : Socket) : Option Segment :=
  if todo.sendAck then some now.acknowledge else none

namespace Socket

variable {s t : Socket}

theorem receive_of_isOpen (opened : s.isOpen) (ticks : Ticks) (seg : Segment) :
    s.receive ticks seg = s.process ticks seg := by
  have past : s.answersSyn seg = false ∧ s.acksSyn seg = false := by
    simp only [isOpen, answersSyn, acksSyn] at opened ⊢
    grind
  simp [receive, past, opened]

theorem process_sendAck {seg : Segment} (rst : seg.rst = false) (ticks : Ticks) :
    (s.process ticks seg).2.sendAck =
      (seg.payload.val ≠ [] || decide ((s.takeData seg).FinIsNext seg)) := by
  have same := takeData_finIsNext_of_sameInput (afterAck_sameInput s ticks seg) seg
  simp only [afterAck] at same
  simp only [process, rst, Bool.false_eq_true, if_false, ← same]
  split <;> rfl

/-- An open connection answers a segment with the `tcp_rcv_nxt` of that time exactly if the segment
    has a payload or its FIN comes next. -/
theorem open_acks_iff (opened : s.isOpen) {seg : Segment} (rst : seg.rst = false) (ticks : Ticks)
    (now : Socket) : (s.receive ticks seg).2.answer now = some now.acknowledge ↔
      seg.payload.val ≠ [] ∨ seg.fin ∧ seg.sequence = s.tcpRcvNxt := by
  rw [receive_of_isOpen opened, Todo.answer, process_sendAck rst]
  by_cases empty : seg.payload.val = [] <;>
    simp [empty, takeData, FinIsNext, Segment.length]

/-- A connection that has taken the FIN at 100. -/
def halfClosed : Socket := { tcpState := .closeWait, tcpRcvNxt := 101, tcpEof := true }

theorem open_acks_iff_halfClosed : halfClosed.isOpen = true ∧
    (halfClosed.receive 0 { sequence := 101, fin := true }).2.answer halfClosed = some halfClosed.acknowledge :=
  ⟨rfl, (open_acks_iff rfl rfl 0 halfClosed).mpr (.inr ⟨rfl, rfl⟩)⟩

/-- The FIN at 100 comes again, as its acknowledgement was lost. -/
theorem repeated_fin_not_acked : halfClosed.isOpen = true ∧
    ∀ now, (halfClosed.receive 0 { sequence := 100, fin := true }).2.answer now = none :=
  ⟨rfl, fun _ => rfl⟩

/-- `net_tcp_window_locked`. -/
def windowLocked (s : Socket) : BitVec 32 :=
  let window := if netTcpMaxWindow < s.tcpSndWnd then netTcpMaxWindow else s.tcpSndWnd
  if s.tcpCwnd ≠ 0 ∧ s.tcpCwnd < window then s.tcpCwnd else window

/-- Data may be queued. -/
def isWritable (s : Socket) : Bool :=
  !s.closed && (s.tcpState = .established || s.tcpState = .closeWait) && !s.tcpWriteShutdown

/-- What a round of `net_socket_send` finds under the lock. -/
inductive Turn where
  | broken
  | full
  | queued (segment : TxSegment) (s : Socket)

/-- The lock section of a round, with the bytes it copied. -/
def sendSection (s : Socket) (ticks : Ticks) (chunk : List UInt8) : Turn :=
  if !s.isWritable then .broken
  else
    let inflight := s.tcpSndNxt - s.tcpSndUna
    let available := s.windowLocked
    if s.tcpSndWnd = 0 ∨ available ≤ inflight then .full
    else
      let segment : TxSegment :=
        { sequence := s.tcpSndNxt, acknowledgement := s.tcpRcvNxt, sentTick := ticks
          data := chunk.take (available - inflight).toNat }
      .queued segment { s with tcpSndNxt := segment.stop, tcpTxQueue := s.tcpTxQueue ++ [segment] }

end Socket

inductive SendError where
  | inval
  | noMem
  | pipe
  | timeout
  | naDev

/-- What one round of `net_socket_send` meets: `tcp_maxseg`, the memory for the segment, the socket
    under the lock, the time after waiting, and the transmission. -/
structure Round where
  maxSegment : Nat
  memory : Bool
  socket : Socket
  ticks : Ticks
  late : Bool
  sent : Bool

/-- An error is returned only if nothing was counted before. -/
def stopAt (offset : Nat) (error : SendError) : Except SendError Nat :=
  if offset ≠ 0 then .ok offset else .error error

/-- A segment that is queued, and whether its transmission succeeds. -/
structure Attempt where
  segment : TxSegment
  sent : Bool

/-- The loop of `net_socket_send` with the bytes left: what it returns and the segments it queued
    and transmitted; nothing if it has not returned after these rounds. -/
def sendLoop : Nat → List UInt8 → List Round → Option (Except SendError Nat × List Attempt)
  | offset, [], _ => some (.ok offset, [])
  | _, _ :: _, [] => none
  | offset, left, r :: rest =>
    if r.maxSegment = 0 then some (stopAt offset .inval, [])
    else if !r.memory then some (stopAt offset .noMem, [])
    else match r.socket.sendSection r.ticks (left.take r.maxSegment) with
      | .broken => some (stopAt offset .pipe, [])
      | .full => if r.late then some (stopAt offset .timeout, []) else sendLoop offset left rest
      | .queued segment _ =>
        if !r.sent then some (stopAt offset .naDev, [⟨segment, false⟩])
        else (sendLoop (offset + segment.data.length) (left.drop segment.data.length) rest).map
          fun (result, attempts) => (result, ⟨segment, true⟩ :: attempts)

/-- `net_socket_send` on a stream. -/
def netSocketSend (data : List UInt8) (rounds : List Round) :
    Option (Except SendError Nat × List Attempt) :=
  if data = [] then some (.error .inval, []) else sendLoop 0 data rounds

/-- The bytes a call reports as sent. -/
def reported : Except SendError Nat → Nat
  | .ok count => count
  | .error _ => 0

@[simp] theorem reported_stopAt (offset : Nat) (error : SendError) : reported (stopAt offset error) = offset := by
  unfold stopAt
  split <;> simp_all [reported]

theorem Socket.sendSection_queued {s t : Socket} {ticks : Ticks} {chunk : List UInt8} {seg : TxSegment}
    (queued : s.sendSection ticks chunk = .queued seg t) : s.isWritable ∧ s.tcpSndWnd ≠ 0 ∧
      s.tcpSndNxt - s.tcpSndUna < s.windowLocked ∧ seg.sequence = s.tcpSndNxt ∧
      seg.data = chunk.take (s.windowLocked - (s.tcpSndNxt - s.tcpSndUna)).toNat ∧
      t = { s with tcpSndNxt := seg.stop, tcpTxQueue := s.tcpTxQueue ++ [seg] } := by
  unfold sendSection at queued
  grind

/-- The bytes of the segments that were queued. -/
def queuedBytes (attempts : List Attempt) : List UInt8 := attempts.flatMap (·.segment.data)

/-- What a round queues are the next bytes, at least one. -/
theorem sendSection_takes {s t : Socket} {ticks : Ticks} {left : List UInt8} {most : Nat} {seg : TxSegment}
    (queued : s.sendSection ticks (left.take most) = .queued seg t) (some : left ≠ []) (pos : most ≠ 0) :
    seg.data <+: left ∧ seg.data ≠ [] := by
  obtain ⟨-, -, room, -, data, -⟩ := Socket.sendSection_queued queued
  rw [take_take] at data
  have free : (s.windowLocked - (s.tcpSndNxt - s.tcpSndUna)).toNat ≠ 0 := by bv_omega
  rw [data, ne_eq, take_eq_nil_iff]
  exact ⟨⟨_, take_append_drop _ left⟩, not_or.mpr ⟨by omega, some⟩⟩

theorem sendLoop_counts {rounds : List Round} {offset : Nat} {left : List UInt8}
    {result : Except SendError Nat} {attempts : List Attempt}
    (returned : sendLoop offset left rounds = some (result, attempts)) :
    (reported result = offset + (queuedBytes attempts).length ↔ ∀ a ∈ attempts, a.sent) ∧
      queuedBytes attempts <+: left := by
  fun_induction sendLoop offset left rounds generalizing attempts with
  | case1 =>
    cases returned
    simp [queuedBytes, reported]
  | case2 => cases returned
  | case3 | case4 | case5 | case6 =>
    cases returned
    simp [queuedBytes]
  | case7 _ _ _ _ _ _ _ _ _ ih => exact ih returned
  | case8 offset left r _ some pos _ seg _ queued =>
    cases returned
    obtain ⟨part, full⟩ := sendSection_takes queued (by simpa using some) pos
    simpa [queuedBytes, full] using part
  | case9 offset left r rest some pos _ seg _ queued _ ih =>
    obtain ⟨⟨result, attempts⟩, goesOn, same⟩ := Option.map_eq_some_iff.mp returned
    cases same
    obtain ⟨⟨left, rfl⟩, -⟩ := sendSection_takes queued (by simpa using some) pos
    obtain ⟨counts, rest⟩ := ih goesOn
    rw [drop_left] at rest
    simp only [queuedBytes, flatMap_cons, length_append, prefix_append_right_inj, forall_mem_cons,
      true_and, ← Nat.add_assoc]
    exact ⟨counts, rest⟩

/-- A call reports the bytes that it has given sequence numbers exactly if none of its
    transmissions fails. They are the first ones of the caller's buffer. -/
theorem send_reports_queued {data : List UInt8} {rounds : List Round} {result : Except SendError Nat}
    {attempts : List Attempt} (returned : netSocketSend data rounds = some (result, attempts)) :
    (reported result = (queuedBytes attempts).length ↔ ∀ a ∈ attempts, a.sent) ∧
      queuedBytes attempts <+: data := by
  unfold netSocketSend at returned
  split at returned
  · cases returned
    simp [queuedBytes, reported]
  · simpa using sendLoop_counts returned

/-- A round on an established connection with room for one byte. -/
def oneRound (sent : Bool) : Round :=
  ⟨1400, true, { tcpState := .established, tcpSndWnd := 1 }, 0, false, sent⟩

def attempt (byte : UInt8) (sent : Bool) : Attempt :=
  ⟨{ sequence := 0, acknowledgement := 0, data := [byte] }, sent⟩

theorem send_reports_queued_two :
    netSocketSend [7, 8] [oneRound true, oneRound true] = some (.ok 2, [attempt 7 true, attempt 8 true]) ∧
      reported (.ok 2) = (queuedBytes [attempt 7 true, attempt 8 true]).length :=
  ⟨rfl, (@send_reports_queued [7, 8] [oneRound true, oneRound true] _ _ rfl).1.mpr (by simp)⟩

/-- The device is busy: the byte stays queued, and the call returns an error. -/
theorem failed_send_queues :
    netSocketSend [7] [oneRound false] = some (.error .naDev, [attempt 7 false]) ∧
      queuedBytes [attempt 7 false] = [7] :=
  ⟨rfl, rfl⟩

end Procore.Net
