import Procore.Fs.Pipe
import Procore.Net.Socket

/-! # Polling and receiving

`file_poll` computes whether there is something to read by code of its own. It
should agree with the non-blocking call on the same state: what is reported as
readable is not answered with `-E_BUSY`, and where nothing is reported the
answer is `-E_BUSY`.
-/

namespace Procore.Net

open Procore.Fs

/-- The events of `file_poll` for `POLLIN`. -/
structure Revents where
  pollin : Bool := false
  pollhup : Bool := false
  pollerr : Bool := false
  deriving DecidableEq

/-- What can be polled for input. The sockets of `acceptQueue` wait to be accepted. -/
inductive Endpoint where
  | pipe (p : Pipe)
  | socketpair (readPipe writePipe : Pipe)
  | socket (s : Socket) (acceptQueue : List Socket)

/-- The section of `file_poll` on a pipe that is read from. -/
def pollPipe (pipe : Pipe) : Revents where
  pollin := pipe.ring.count ≠ 0
  pollhup := pipe.ring.count = 0 && pipe.writers = 0
  pollerr := pipe.readers = 0

def Socket.poll (s : Socket) (acceptQueue : List Socket) : Revents :=
  if s.closed then { pollhup := true, pollerr := true }
  else
    match s.type with
    | .stream =>
      { pollin := if s.listening then acceptQueue ≠ [] else s.rxQueue ≠ [] || s.tcpEof }
    | .dgram => { pollin := s.rxQueue ≠ [] }

def Endpoint.poll : Endpoint → Revents
  | .pipe p => pollPipe p
  | .socketpair readPipe writePipe =>
    { pollPipe readPipe with pollerr := readPipe.readers = 0 || writePipe.readers = 0 }
  | .socket s acceptQueue => s.poll acceptQueue

/-- A non-blocking `pipe_read` of at least one byte: how many it returns. -/
def pipeRead (pipe : Pipe) (length : Nat) : Except NetError Nat :=
  if pipe.ring.count ≠ 0 then .ok (if length < pipe.ring.count then length else pipe.ring.count)
  else if pipe.writers = 0 then .ok 0
  else .error .busy

namespace Socket

/-- A non-blocking `net_socket_recvfrom`. -/
def recvfrom (s : Socket) (length : Nat) : Except NetError Nat :=
  if s.closed then .error .badProc
  else
    match s.rxQueue with
    | [] => .error .busy
    | packet :: _ => .ok (min packet.data.length length)

/-- The loop of a non-blocking `net_socket_recv` on a connected datagram socket. -/
def recvPeer (s : Socket) (length : Nat) : List Packet → Except NetError Nat
  | [] => if s.closed then .error .badProc else .error .busy
  | packet :: rest =>
    if s.closed then .error .badProc
    else if packet.source = s.peer then .ok (min packet.data.length length)
    else recvPeer s length rest

/-- A non-blocking `net_socket_recv` on a stream. -/
def recvStream (s : Socket) (length : Nat) : Except NetError Nat :=
  match s.recvStart with
  | .done result => result.map List.length
  | .takes packet _ => .ok (min packet.data.length length)
  | .empty => .error .busy

/-- A non-blocking `net_socket_accept`: closed connections are passed over, and so are those that
    are neither established nor closed. -/
def accept (s : Socket) (acceptQueue : List Socket) : Except NetError Unit :=
  if s.closed ∨ ¬ s.listening then .error .badProc
  else if acceptQueue.any (·.tcpState = .established) then .ok ()
  else .error .busy

end Socket

/-- The receiving call is not answered with `-E_BUSY`. -/
def NotBusy {α : Type} (result : Except NetError α) : Prop :=
  match result with
  | .error .busy => False
  | _ => True

instance {α : Type} (result : Except NetError α) : Decidable (NotBusy result) :=
  match result with
  | .error .busy => isFalse id
  | .error .badProc | .error .inval | .ok _ => isTrue trivial

/-- The non-blocking receiving call of an endpoint, with room for a byte at least, gets something
    else than `-E_BUSY`. A datagram socket without a peer is read with `recvfrom`. -/
def Endpoint.Receives (length : Nat) (e : Endpoint) : Prop :=
  0 < length ∧ match e with
  | .pipe p => NotBusy (pipeRead p length)
  | .socketpair readPipe _ => NotBusy (pipeRead readPipe length)
  | .socket s acceptQueue =>
    match s.type with
    | .stream =>
      if s.listening then NotBusy (s.accept acceptQueue) else NotBusy (s.recvStream length)
    | .dgram =>
      if s.connected then NotBusy (s.recvPeer length s.rxQueue) else NotBusy (s.recvfrom length)

def Endpoint.Agrees (length : Nat) (e : Endpoint) : Prop :=
  (e.poll.pollin → e.Receives length) ∧
    (¬ e.poll.pollin ∧ ¬ e.poll.pollhup ∧ ¬ e.poll.pollerr → ¬ e.Receives length)

/-- The states of a socket that is not closed in which polling tells the truth. -/
def Endpoint.Truthful : Endpoint → Prop
  | .pipe _ | .socketpair _ _ => True
  | .socket s acceptQueue =>
    s.closed = false →
      match s.type with
      | .stream =>
        if s.listening then acceptQueue ≠ [] → ∃ c ∈ acceptQueue, c.tcpState = .established
        else s.rxQueue = [] → s.tcpEof = false →
          s.tcpReadShutdown = false ∧ s.tcpState ≠ .closed
      | .dgram =>
        s.connected → s.rxQueue ≠ [] → ∃ packet ∈ s.rxQueue, packet.source = s.peer

theorem notBusy_pipeRead (pipe : Pipe) (length : Nat) :
    NotBusy (pipeRead pipe length) ↔ pipe.ring.count ≠ 0 ∨ pipe.writers = 0 := by
  unfold pipeRead
  split_ifs <;> simp_all [NotBusy]

theorem notBusy_recvPeer {s : Socket} (opened : s.closed = false) (length : Nat)
    (packets : List Packet) :
    NotBusy (s.recvPeer length packets) ↔ ∃ packet ∈ packets, packet.source = s.peer := by
  induction packets with
  | nil => simp [Socket.recvPeer, opened, NotBusy]
  | cons packet rest ih =>
    by_cases matching : packet.source = s.peer
    · simp [Socket.recvPeer, opened, matching, NotBusy]
    · simp [Socket.recvPeer, opened, matching, ih]

theorem notBusy_recvStream {s : Socket} (opened : s.closed = false) (length : Nat) :
    NotBusy (s.recvStream length) ↔
      s.tcpReadShutdown ∨ s.rxQueue ≠ [] ∨ s.tcpEof ∨ s.tcpState = .closed := by
  unfold Socket.recvStream Socket.recvStart
  cases s.tcpReadShutdown <;> cases s.rxQueue <;> cases s.tcpEof <;>
    by_cases state : s.tcpState = .closed <;> simp [opened, state, NotBusy, Except.map]

/-- Polling agrees with receiving exactly in the states in which it is truthful. -/
theorem poll_agrees_iff {length : Nat} (some : 0 < length) (e : Endpoint) :
    e.Agrees length ↔ e.Truthful := by
  simp only [Endpoint.Agrees, Endpoint.Receives, some, true_and]
  cases e with
  | pipe p | socketpair readPipe writePipe =>
    simp only [Endpoint.poll, pollPipe, notBusy_pipeRead, Endpoint.Truthful]
    grind
  | socket s acceptQueue =>
    simp only [Endpoint.poll, Socket.poll, Endpoint.Truthful]
    cases opened : s.closed
    · cases s.type with
      | stream =>
        cases listening : s.listening
        · simp only [notBusy_recvStream opened]
          cases s.rxQueue <;> cases s.tcpEof <;> simp
        · have accepted : NotBusy (s.accept acceptQueue) ↔
              ∃ c ∈ acceptQueue, c.tcpState = .established := by
            unfold Socket.accept
            split_ifs <;> simp_all [NotBusy]
          simp only [accepted]
          cases acceptQueue <;> simp
      | dgram =>
        cases s.connected
        · cases queue : s.rxQueue <;> simp [Socket.recvfrom, opened, queue, NotBusy]
        · simp only [notBusy_recvPeer opened]
          cases s.rxQueue <;> simp
    · simp

/-- A connected datagram socket with a packet of somebody else only. -/
def foreignPacket : Socket :=
  { type := .dgram, connected := true, peer := ⟨7, 1⟩, rxQueue := [⟨[1], ⟨8, 2⟩⟩] }

def listener : Socket := { listening := true }

theorem poll_agrees_iff_listener : (Endpoint.socket listener []).Agrees 10 ∧
    ¬ (Endpoint.socket foreignPacket []).Agrees 10 := by
  rw [poll_agrees_iff (by decide), poll_agrees_iff (by decide)]
  simp [Endpoint.Truthful, listener, foreignPacket]

/-- A connection that the peer has already ended. -/
def endedChild : Socket := { tcpState := .closeWait, tcpEof := true }

/-- The first and the last one are reported readable and answer `-E_BUSY`; nothing is reported for
    a new TCP socket, which answers `-E_BAD_PROC`. -/
theorem poll_disagrees :
    (foreignPacket.poll []).pollin ∧
      foreignPacket.recvPeer 10 foreignPacket.rxQueue = .error .busy ∧
      ({} : Socket).poll [] = {} ∧ ({} : Socket).recvStream 10 = .error .badProc ∧
      (listener.poll [endedChild]).pollin ∧ listener.accept [endedChild] = .error .busy := by
  decide +kernel

end Procore.Net
