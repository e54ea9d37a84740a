import Procore.Net.Send

/-! # The transmit queue of a connection over time

Segments come in, calls of `net_socket_send` queue data, and `net_tcp_retransmit`
looks at the first segment of the queue at every tick. Each lock section is one step.
-/

namespace Procore.Net

open Procore.Lib Socket

def netTcpRetryLimit : Nat := 3

/-- The part of `net_tcp_retransmit` for the data of one socket, and the segment it tries to send. -/
def Socket.retransmitData (s : Socket) (ticks : Ticks) (memory : Bool) : Socket × Option TxSegment :=
  match s.tcpTxQueue with
  | [] => (s, none)
  | first :: rest =>
    if s.closed ∨ s.tcpState ≠ .established ∨ ticks - first.sentTick < netTcpRetryTicks then (s, none)
    else if netTcpRetryLimit ≤ first.retries then
      ({ s with
          tcpSsthresh := if s.tcpCwnd / 2 < 2 * netTcpMss then 2 * netTcpMss else s.tcpCwnd / 2
          tcpCwnd := netTcpMss
          tcpTxQueue := { first with retries := 0, sentTick := ticks } :: rest }, none)
    else if memory then
      ({ s with tcpTxQueue := { first with retries := first.retries + 1, sentTick := ticks } :: rest },
        some first)
    else (s, none)

/-- `net_tcp_send_segment`: whether the segment is sent. `maxSegment` is `tcp_maxseg` at that time,
    and `taken` says that the address is resolved and the device takes the frame. -/
def sendSegment (maxSegment : Nat) (taken : Bool) (seg : TxSegment) : Bool :=
  maxSegment ≠ 0 && seg.data.length ≤ maxSegment && taken

structure Output where
  sock : Socket
  ticks : Nat := 0
  /-- The window of the last acknowledgement. -/
  window : BitVec 16
  /-- The segments that were sent again so far. -/
  resent : List TxSegment := []

namespace Output

def now (o : Output) : Ticks := BitVec.ofNat 32 o.ticks

inductive Label where
  | segment (seg : Segment)
  | send (chunk : List UInt8)
  /-- A run of `net_tcp_retransmit`, which ignores what becomes of the transmission. -/
  | tick (memory : Bool) (maxSegment : Nat) (taken : Bool)

def step (o : Output) : Label → Option Output
  | .segment seg => some { o with
      sock := (o.sock.receive o.now seg).1
      window := if seg.ack then seg.window else o.window }
  | .send chunk => match o.sock.sendSection o.now chunk with
    | .queued _ sock => some { o with sock }
    | _ => some o
  | .tick memory maxSegment taken =>
    let (sock, retry) := o.sock.retransmitData (o.now + 1) memory
    let sent := retry.filter (sendSegment maxSegment taken)
    some { o with sock, ticks := o.ticks + 1, resent := o.resent ++ sent.toList }

/-- An open connection knows the window its peer has advertised last. -/
structure Windowed (o : Output) : Prop where
  cwnd : o.sock.tcpCwnd ≠ 0
  window : o.sock.isOpen → o.sock.tcpSndWnd = sndWnd o.window

end Output

theorem cwndAfterAck_ne_zero (cwnd ssthresh : BitVec 32) : cwndAfterAck cwnd ssthresh ≠ 0 := by
  have unit : ∀ d : BitVec 32, (netTcpMss * netTcpMss / d).toNat = 1960000 / d.toNat := fun _ => BitVec.toNat_udiv
  have shared := unit (if cwnd = 0 then netTcpMss else cwnd)
  have most := Nat.div_le_self 1960000 (if cwnd = 0 then netTcpMss else cwnd).toNat
  have wide (large : 1400 ≤ cwnd.toNat) : 1960000 / (if cwnd = 0 then netTcpMss else cwnd).toNat ≤ 1400 := by
    apply Nat.div_le_of_le_mul
    split <;> bv_omega
  simp only [cwndAfterAck]
  generalize netTcpMss * netTcpMss / _ = share at *
  rw [netTcpMss, netTcpMaxWindow]
  intro zero
  -- An increase beyond the largest window is taken only from a window below one segment.
  split_ifs at zero <;> bv_omega

namespace Socket

variable {s : Socket}

theorem congestionAck_iterate_cwnd (n : Nat) (some : s.tcpCwnd ≠ 0) : (congestionAck^[n] s).tcpCwnd ≠ 0 := by
  cases n with
  | zero => exact some
  | succ n =>
    rw [Function.iterate_succ_apply']
    exact cwndAfterAck_ne_zero _ _

theorem dupAck_windows (some : s.tcpCwnd ≠ 0) (ticks : Ticks) :
    (s.dupAck ticks).tcpSndWnd = s.tcpSndWnd ∧ (s.dupAck ticks).tcpCwnd ≠ 0 := by
  simp only [dupAck, netTcpMss]
  split
  · exact ⟨rfl, some⟩
  · grind

theorem takeAck_window (some : s.tcpCwnd ≠ 0) (ticks : Ticks) (seg : Segment) :
    (s.takeAck ticks seg).1.tcpSndWnd = sndWnd seg.window ∧ (s.takeAck ticks seg).1.tcpCwnd ≠ 0 := by
  by_cases new : s.AckIsNew seg.acknowledgement
  · simp only [takeAck_of_new new, newAck_sends]
    exact ⟨rfl, congestionAck_iterate_cwnd _ some⟩
  · rw [takeAck_of_not_new new]
    split
    · exact @dupAck_windows (s.updateWindow seg.window) some ticks
    · exact ⟨rfl, some⟩

theorem receive_window (some : s.tcpCwnd ≠ 0) (ticks : Ticks) (seg : Segment) :
    (s.receive ticks seg).1.tcpCwnd ≠ 0 ∧ ((s.receive ticks seg).1.isOpen → if seg.ack then
      (s.receive ticks seg).1.tcpSndWnd = sndWnd seg.window
    else s.isOpen ∧ (s.receive ticks seg).1.tcpSndWnd = s.tcpSndWnd) := by
  have reached : s.answersSyn seg ∨ s.acksSyn seg → seg.ack := by
    simp only [answersSyn, acksSyn]
    grind
  unfold receive
  split
  · next answers => simpa [reached (.inl answers), establish] using some
  split
  · next acks => simpa [reached (.inr acks), establish] using some
  split
  · next opened =>
    by_cases rst : seg.rst
    · simpa [process, rst, isOpen] using some
    · simp only [process_of_not_rst rst, takeStream_sends, afterAck]
      split
      · exact ⟨(takeAck_window some ticks seg).2, fun _ => (takeAck_window some ticks seg).1⟩
      · exact ⟨some, fun _ => ⟨opened, rfl⟩⟩
  · next shut => exact ⟨some, fun opened => absurd opened shut⟩

theorem retransmitData_windows (some : s.tcpCwnd ≠ 0) (ticks : Ticks) (memory : Bool) :
    (s.retransmitData ticks memory).1.tcpCwnd ≠ 0 ∧
      (s.retransmitData ticks memory).1.tcpSndWnd = s.tcpSndWnd ∧
      (s.retransmitData ticks memory).1.isOpen = s.isOpen := by
  unfold retransmitData
  split
  · exact ⟨some, rfl, rfl⟩
  split
  · exact ⟨some, rfl, rfl⟩
  split
  · exact ⟨(by decide : netTcpMss ≠ 0), rfl, rfl⟩
  · split <;> exact ⟨some, rfl, rfl⟩

theorem receive_unacked {first : TxSegment} {rest : List TxSegment} {k : Ticks}
    {seg : Segment} (opened : s.isOpen) (queue : s.tcpTxQueue = first :: rest)
    (unacked : seg.ack ∧ s.AckIsNew seg.acknowledgement → seg.acknowledgement < first.stop) :
    (s.receive k seg).1.tcpTxQueue = s.tcpTxQueue ∨
      (s.receive k seg).1.tcpTxQueue = resendFirst k s.tcpTxQueue := by
  rw [receive_of_isOpen opened]
  by_cases rst : seg.rst
  · simp [process, rst]
  simp only [process_of_not_rst rst, takeStream_sends, afterAck]
  split
  · next ack =>
    by_cases new : s.AckIsNew seg.acknowledgement
    · simp [takeAck_of_new new, newAck_sends, updateWindow, queue, ackSegments,
        unacked ⟨ack, new⟩]
    · simp only [takeAck_of_not_new new, dupAck, updateWindow]
      grind
  · exact .inl rfl

end Socket

namespace Output

variable {o p : Output}

theorem step_send {chunk : List UInt8} (taken : o.step (.send chunk) = some p) : ∃ nxt more,
    p = { o with sock := { o.sock with tcpSndNxt := nxt, tcpTxQueue := o.sock.tcpTxQueue ++ more } } := by
  simp only [step] at taken
  split at taken
  · next turn =>
    obtain ⟨-, -, -, -, -, rfl⟩ := sendSection_queued turn
    cases taken
    exact ⟨_, _, rfl⟩
  · cases taken
    exact ⟨o.sock.tcpSndNxt, [], by simp⟩

theorem Windowed.step {l : Label} (h : o.Windowed) (taken : o.step l = some p) : p.Windowed := by
  cases l with
  | segment seg =>
    obtain ⟨cwnd, window⟩ := receive_window h.cwnd o.now seg
    cases taken
    refine ⟨cwnd, fun opened => ?_⟩
    grind [h.window]
  | send chunk =>
    obtain ⟨nxt, more, rfl⟩ := step_send taken
    exact ⟨h.cwnd, h.window⟩
  | tick memory maxSegment taken =>
    obtain ⟨cwnd, window, opened⟩ := retransmitData_windows h.cwnd (o.now + 1) memory
    cases taken
    refine ⟨cwnd, fun still => ?_⟩
    exact window.trans (h.window (opened ▸ still))

/-- What `net_socket_send` queues keeps the bytes in flight within the window that the peer has
    advertised last, unless that is empty, and within the congestion window. -/
theorem inflight_within_window {o p : Output} {ls : List Label} (start : o.Windowed)
    (run : runFrom step o ls = some p) {chunk : List UInt8} {seg : TxSegment} {t : Socket}
    (queued : p.sock.sendSection p.now chunk = .queued seg t) (some : p.window ≠ 0) :
    t.tcpSndNxt - t.tcpSndUna ≤ p.window.setWidth 32 ∧ t.tcpSndNxt - t.tcpSndUna ≤ t.tcpCwnd := by
  have inv : p.Windowed := runFrom_always (fun _ _ _ => Windowed.step) start run
  obtain ⟨writable, -, room, sequence, data, rfl⟩ := sendSection_queued queued
  have opened : p.sock.isOpen := by
    simp only [isWritable, isOpen] at writable ⊢
    grind
  have least : p.sock.windowLocked ≤ p.window.setWidth 32 ∧ p.sock.windowLocked ≤ p.sock.tcpCwnd := by
    have known := inv.window opened
    have cwnd := inv.cwnd
    rw [sndWnd, if_neg some] at known
    simp only [windowLocked, known, ne_eq, cwnd]
    grind
  have short : seg.data.length ≤ (p.sock.windowLocked - (p.sock.tcpSndNxt - p.sock.tcpSndUna)).toNat := by
    grind
  have inflight : seg.stop - p.sock.tcpSndUna ≤ p.sock.windowLocked := by
    rw [TxSegment.stop, sequence]
    bv_omega
  exact ⟨BitVec.le_trans inflight least.1, BitVec.le_trans inflight least.2⟩

def connected : Output := { sock := { tcpState := .established }, window := 65535 }

/-- Three bytes are sent, and two of them acknowledged with a window of three. -/
def smallWindow : List Label :=
  [.segment { sequence := 0, ack := true, window := 100 }, .send [1, 2, 3],
    .segment { sequence := 0, ack := true, acknowledgement := 2, window := 3 }]

/-- Of three more bytes, two are queued. -/
theorem inflight_within_window_small : ∃ p seg t, runFrom step connected smallWindow = some p ∧
    p.window = 3 ∧ p.sock.sendSection p.now [7, 8, 9] = .queued seg t ∧ seg.data = [7, 8] ∧
    t.tcpSndNxt - t.tcpSndUna ≤ p.window.setWidth 32 ∧ t.tcpSndNxt - t.tcpSndUna ≤ t.tcpCwnd :=
  ⟨_, _, _, rfl, rfl, rfl, rfl,
    @inflight_within_window connected _ smallWindow ⟨by decide, fun _ => rfl⟩ rfl _ _ _ rfl (by decide)⟩

/-- A byte is sent into the empty window. -/
theorem empty_window_exceeded : ∃ p seg t,
    runFrom step connected [.segment { sequence := 0, ack := true, window := 0 }] = some p ∧ p.window = 0 ∧
      p.sock.sendSection p.now [7] = .queued seg t ∧ p.window.setWidth 32 < t.tcpSndNxt - t.tcpSndUna :=
  ⟨_, _, _, rfl, rfl, rfl, by decide⟩

/-- The step leaves the first segment unacknowledged, and can send it. -/
def Label.Keeps (first : TxSegment) (sock : Socket) : Label → Prop
  | .segment seg => seg.ack ∧ sock.AckIsNew seg.acknowledgement → seg.acknowledgement < first.stop
  | .send _ => True
  | .tick memory maxSegment taken => memory ∧ sendSegment maxSegment taken first

instance (first : TxSegment) (sock : Socket) : DecidablePred (Label.Keeps first sock)
  | .segment _ => inferInstanceAs (Decidable (_ → _))
  | .send _ => isTrue trivial
  | .tick .. => inferInstanceAs (Decidable (_ ∧ _))

/-- The step is taken on a connection that retransmits. -/
def Retries (first : TxSegment) (o : Output) (l : Label) : Prop :=
  o.sock.closed = false ∧ o.sock.tcpState = .established ∧ l.Keeps first o.sock

instance (first : TxSegment) (o : Output) (l : Label) : Decidable (Retries first o l) :=
  inferInstanceAs (Decidable (_ ∧ _ ∧ _))

/-- The segment has been sent again, or is sent again in the tick after `limit` at the latest. -/
def Waits (first : TxSegment) (limit : Nat) (o : Output) : Prop :=
  (∃ sentTick retries, { first with sentTick, retries } ∈ o.resent) ∨
    ∃ sentTick retries rest, o.sock.tcpTxQueue = { first with sentTick, retries } :: rest ∧
      (o.now - sentTick).toNat < (if retries < netTcpRetryLimit then 200 else 100) ∧
      o.ticks + ((if retries < netTcpRetryLimit then 99 else 199) - (o.now - sentTick).toNat) ≤ limit

theorem Waits.step {first : TxSegment} {limit : Nat} {l : Label} (h : o.Waits first limit)
    (retries : o.Retries first l) (taken : o.step l = some p) : p.Waits first limit := by
  obtain ⟨opened, established, unacked⟩ := retries
  obtain ⟨sentTick, retries, sent⟩ | ⟨sentTick, retries, rest, queue, young, due⟩ := h
  · left
    cases l <;> simp only [Output.step] at taken <;> grind
  cases l with
  | segment seg =>
    cases taken
    obtain same | again := receive_unacked (k := o.now) (by simp [isOpen, opened, established])
      queue unacked
    · exact .inr ⟨sentTick, retries, rest, same.trans queue, young, due⟩
    · rw [queue] at again
      have back : (o.now - (o.now - netTcpRetryTicks)).toNat = 100 := by
        grind [netTcpRetryTicks]
      refine .inr ⟨_, 0, rest, again, back.symm ▸ (by decide : 100 < 200), ?_⟩
      change o.ticks + (99 - (o.now - (o.now - netTcpRetryTicks)).toNat) ≤ limit
      omega
  | send chunk =>
    obtain ⟨nxt, more, rfl⟩ := step_send taken
    exact .inr ⟨sentTick, retries, rest ++ more, by simp [queue], young, due⟩
  | tick memory maxSegment taken' =>
    obtain ⟨rfl, sent⟩ := unacked
    have next : (o.now + 1 - sentTick).toNat = (o.now - sentTick).toNat + 1 := by grind
    have clock (sock : Socket) (resent : List TxSegment) :
        now ⟨sock, o.ticks + 1, o.window, resent⟩ = o.now + 1 := BitVec.ofNat_add _ _
    simp only [Output.step, retransmitData, queue, opened, established] at taken
    split at taken
    · next early =>
      cases taken
      have waits : (o.now + 1 - sentTick).toNat < 100 := BitVec.lt_def.mp (by simpa using early)
      refine .inr ⟨sentTick, retries, rest, queue, ?_, ?_⟩ <;> simp only [clock, next] <;>
        split_ifs at * <;> omega
    split at taken
    · next exhausted =>
      cases taken
      rw [if_neg (Nat.not_lt.mpr exhausted)] at young due
      refine .inr ⟨o.now + 1, 0, rest, rfl, ?_, ?_⟩ <;> rw [clock, BitVec.sub_self]
      · decide
      · change o.ticks + 1 + 99 ≤ limit
        omega
    · cases taken
      have same : sendSegment maxSegment taken' { first with sentTick, retries } = true := sent
      exact .inl ⟨sentTick, retries, by simp [same]⟩

/-- The oldest segment of an established connection is sent again within 200 ticks of its last
    transmission, unless it is acknowledged before, if it became the oldest within that time and
    its transmissions succeed. -/
theorem resent_in_time {s : Socket} {ticks : Nat} {window : BitVec 16} {first : TxSegment}
    {rest : List TxSegment} (queue : s.tcpTxQueue = first :: rest) {waited : Nat}
    (last : (BitVec.ofNat 32 ticks - first.sentTick).toNat = waited)
    (young : waited < if first.retries < netTcpRetryLimit then 200 else 100) {p : Output}
    {ls : List Label} (along : Along step (Retries first) { sock := s, ticks, window } ls)
    (run : runFrom step { sock := s, ticks, window } ls = some p) (later : ticks < p.ticks)
    (late : ticks + 200 ≤ p.ticks + waited) :
    ∃ sentTick retries, { first with sentTick, retries } ∈ p.resent := by
  have start : Waits first (ticks + ((if first.retries < netTcpRetryLimit then 99 else 199) - waited))
      { sock := s, ticks, window } :=
    .inr ⟨first.sentTick, first.retries, rest, queue, last ▸ young, last ▸ Nat.le_refl _⟩
  obtain sent | ⟨sentTick, retries, -, -, -, due⟩ := runFrom_invariant (fun _ _ _ => Waits.step) start along run
  · exact sent
  · grind

def oneByte : TxSegment := { sequence := 0, acknowledgement := 0, data := [7] }

/-- A byte was sent at tick 0. -/
def sending : Socket := { tcpState := .established, tcpSndNxt := 1, tcpTxQueue := [oneByte] }

def everyTick : List Label := .replicate 200 (.tick true 1400 true)

/-- Another byte is sent, and an old acknowledgement comes. -/
theorem resent_in_time_oldAck : ∃ p,
    runFrom step ⟨sending, 0, 65535, []⟩
      (.send [8] :: .segment { sequence := 0, ack := true } :: everyTick) = some p ∧
    ∃ sentTick retries, { oneByte with sentTick, retries } ∈ p.resent :=
  exists_run_test (·.ticks = 200) (by decide +kernel) fun p run ticks =>
    @resent_in_time sending 0 _ oneByte [] rfl _ rfl (by decide) _ _ (by decide +kernel) run (by omega) (by omega)

/-- After the FIN of the peer nothing is sent again. -/
theorem closeWait_not_resent : (runFrom step ⟨sending, 0, 65535, []⟩
      (.segment { sequence := 0, fin := true } :: everyTick)).map
        (fun p => (p.sock.tcpState, p.sock.tcpTxQueue, p.ticks, p.resent)) =
      some (.closeWait, [oneByte], 200, []) := by
  decide +kernel

end Output

end Procore.Net
