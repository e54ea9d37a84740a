import Mathlib.Data.List.Forall2
import Procore.Net.Stream

/-! # Which socket a frame reaches

`net_receive_frame` looks for the socket of a UDP datagram by port and address
only, and `net_receive_tcp_frame` for the socket of a segment by port and peer.
A connected stream should get the bytes of its own connection and no others,
whatever its process and others do. A frame is queued some time after its socket
was found.
-/

namespace Procore.Net

open Procore.Lib Socket

def netLocalIp : Nat := 0x0F02000A
def inaddrLoopback : Nat := 0x0100007F

inductive Frame where
  | udp (source destination : SockAddr) (payload : List UInt8)
  | tcp (seg : Segment)

namespace Frame

def payload : Frame → List UInt8
  | .udp _ _ payload => payload
  | .tcp seg => seg.payload.val

def source : Frame → SockAddr
  | .udp source _ _ => source
  | .tcp seg => seg.source

end Frame

namespace Socket

/-- The test of `net_find_port_addr_locked`. -/
def isPortAddr (destination : SockAddr) (s : Socket) : Bool :=
  s.bound && s.port = destination.port && (s.addr = inaddrAny || s.addr = destination.addr)

/-- The test of `net_find_tcp_locked`. -/
def isTcp (port : Nat) (peer : SockAddr) (s : Socket) : Bool :=
  s.type = .stream && s.bound && s.port = port && s.connected && s.peer = peer

/-- The test of `net_find_listener_locked`. -/
def isListener (destination : SockAddr) (s : Socket) : Bool :=
  s.type = .stream && s.bound && s.listening && s.port = destination.port &&
    (s.addr = inaddrAny || s.addr = destination.addr)

/-- The socket a listener's connection request makes. -/
def child (listener : Socket) (seg : Segment) (sequence : Seq) : Socket :=
  { port := seg.destination.port, addr := listener.addr, bound := true, connected := true,
    peer := seg.source, tcpSndUna := sequence, tcpSndNxt := sequence + 1,
    tcpRcvNxt := seg.sequence + 1, tcpSndWnd := sndWnd seg.window, tcpState := .synReceived }

/-- The address a connection's own segments carry. -/
def localAddr (s : Socket) : Nat := if s.addr = inaddrAny then netLocalIp else s.addr

/-- An open socket without a port gets one. -/
def bindTo (s : Socket) (addr : SockAddr) : Socket :=
  if s.closed ∨ s.bound then s else { s with port := addr.port, addr := addr.addr, bound := true }

/-- `net_socket_connect` up to its wait; `port` is what `net_allocate_port_locked` gives. -/
def connectTo (s : Socket) (peer : SockAddr) (port : Nat) (sequence : Seq) : Socket :=
  if s.closed ∨ s.connected then s
  else
    let s := { s.bindTo ⟨port, inaddrAny⟩ with peer := peer, connected := true }
    if s.type = .stream then
      { s with tcpSndUna := sequence, tcpSndNxt := sequence + 1, tcpRcvNxt := 0,
               tcpState := .synSent, tcpEof := false }
    else s

/-- Whatever other calls do to a socket: its address stays, and a connection may be given up. -/
def change (s t : Socket) : Socket :=
  { t with type := s.type, bound := s.bound, port := s.port, addr := s.addr, peer := s.peer,
           connected := s.connected && t.connected, rxQueue := s.rxQueue }

end Socket

/-- The frame is a segment of the connection's four-tuple. -/
def Frame.Belongs (s : Socket) : Frame → Prop
  | .udp _ _ _ => False
  | .tcp seg => seg.destination = ⟨s.port, s.localAddr⟩ ∧ seg.source = s.peer

/-- A socket with the segments that were found to be for it, the frames on their way to its queue,
    and those that the packets on its queue come from; nothing reads the last. -/
structure Tracked where
  sock : Socket
  arrived : List Segment := []
  pending : List Frame := []
  origins : List Frame := []

namespace Tracked

def frames (t : Tracked) : List Frame := t.arrived.map .tcp ++ t.pending ++ t.origins

@[grind =] theorem mem_frames {t : Tracked} {f : Frame} :
    f ∈ t.frames ↔ (∃ seg ∈ t.arrived, .tcp seg = f) ∨ f ∈ t.pending ∨ f ∈ t.origins := by
  simp [frames]

def map (t : Tracked) (f : Socket → Socket) : Tracked := { t with sock := f t.sock }

/-- The first lock section of `net_receive_tcp_frame`, for one of the segments. -/
def receive (t : Tracked) (k : Nat) (ticks : Ticks) : Tracked :=
  match t.arrived[k]? with
  | none => t
  | some seg =>
    let (sock, todo) := t.sock.receive ticks seg
    { t with
      sock, arrived := t.arrived.eraseIdx k
      pending := if todo.queueData then t.pending ++ [.tcp seg] else t.pending }

/-- `net_queue_packet` for one of the frames. -/
def queue (t : Tracked) (k : Nat) (memory : Bool) : Tracked :=
  match t.pending[k]? with
  | none => t
  | some frame =>
    match t.sock.netQueuePacket memory frame.payload frame.source with
    | none => { t with pending := t.pending.eraseIdx k }
    | some sock =>
      { t with
        sock, pending := t.pending.eraseIdx k
        origins := if t.sock.type = .stream then t.origins ++ [frame] else frame :: t.origins }

/-- A packet is taken from the queue, and its tail from `k` on put back. -/
def recv (t : Tracked) (k : Nat) : Tracked :=
  match t.sock.rxQueue with
  | [] => t
  | packet :: rest =>
    if packet.data.length ≤ k then
      { t with sock := { t.sock with rxQueue := rest }, origins := t.origins.tail }
    else t.map fun s => putBack { s with rxQueue := rest } { packet with data := packet.data.drop k }

end Tracked

/-- The sockets in the order of `net_socket_list`. -/
abbrev Sockets := List Tracked

/-- The first socket that passes the test is updated. -/
def updateFirst (test : Socket → Bool) (update : Tracked → Tracked) : Sockets → Sockets
  | [] => []
  | t :: rest => if test t.sock then update t :: rest else t :: updateFirst test update rest

namespace Sockets

/-- A datagram is on its way to the socket that `net_find_port_addr_locked` finds. -/
def deliver (frame : Frame) (destination : SockAddr) : Sockets → Sockets :=
  updateFirst (isPortAddr destination) fun t => { t with pending := t.pending ++ [frame] }

/-- The lookups of `net_receive_frame`. `created` is the first sequence number of the socket that a connection
    request makes, if the listener has room and the socket and its answer can be made. -/
def receiveFrame (net : Sockets) (created : Option Seq) : Frame → Sockets
  | .udp source destination payload =>
    deliver (.udp source destination payload) destination net
  | .tcp seg =>
    if net.any (isTcp seg.destination.port seg.source ·.sock) then
      updateFirst (isTcp seg.destination.port seg.source)
        (fun t => { t with arrived := t.arrived ++ [seg] }) net
    else if seg.syn ∧ ¬ seg.ack then
      match net.find? (isListener seg.destination ·.sock), created with
      | some listener, some sequence => { sock := listener.sock.child seg sequence } :: net
      | _, _ => net
    else net

/-- The socket from which `net_socket_sendto` sends has a port. -/
def bindSender (net : Sockets) (i port : Nat) : Sockets := net.modify i (·.map (·.bindTo ⟨port, inaddrLoopback⟩))

/-- `net_socket_sendto`; `present` says that there is a device. -/
def sendto (net : Sockets) (i : Nat) (destination : SockAddr) (payload : List UInt8) (present : Bool)
    (port : Nat) : Sockets :=
  match (net.bindSender i port)[i]? with
  | none => net
  | some t =>
    if t.sock.type ≠ .dgram ∨ t.sock.closed ∨ payload = [] ∨ netMaxDatagram < payload.length ∨
      destination.port = 0 then net
    else if present ∧ destination.addr ∉ [inaddrAny, inaddrLoopback, netLocalIp] then net.bindSender i port
    else
      let addr := if t.sock.addr = inaddrAny then inaddrLoopback else t.sock.addr
      deliver (.udp ⟨t.sock.port, addr⟩ destination payload) destination (net.bindSender i port)

inductive Label where
  | create (type : SockType)
  | bind (i : Nat) (addr : SockAddr)
  | connect (i : Nat) (peer : SockAddr) (port : Nat) (sequence : Seq)
  | sendto (i : Nat) (destination : SockAddr) (payload : List UInt8) (present : Bool) (port : Nat)
  | frame (frame : Frame) (created : Option Seq)
  | receive (i k : Nat) (ticks : Ticks)
  | queue (i k : Nat) (memory : Bool)
  | recv (i k : Nat)
  | change (i : Nat) (t : Socket)
  | remove (i : Nat)

def step (net : Sockets) : Label → Option Sockets
  | .create type => some ({ sock := { type } } :: net)
  | .bind i addr =>
    if net.any fun t => t.sock.bound && t.sock.port = addr.port then some net
    else some (net.modify i (·.map (·.bindTo addr)))
  | .connect i peer port sequence => some (net.modify i (·.map (·.connectTo peer port sequence)))
  | .sendto i destination payload present port => some (net.sendto i destination payload present port)
  | .frame frame created => some (net.receiveFrame created frame)
  | .receive i k ticks => some (net.modify i (·.receive k ticks))
  | .queue i k memory => some (net.modify i (·.queue k memory))
  | .recv i k => some (net.modify i (·.recv k))
  | .change i t => some (net.modify i (·.map (·.change t)))
  | .remove i => some (net.eraseIdx i)

/-- The datagram does not find a connected stream. -/
def NoStream (net : Sockets) (destination : SockAddr) : Prop :=
  ∀ t ∈ net.find? (isPortAddr destination ·.sock), ¬ (t.sock.type = .stream ∧ t.sock.connected)

/-- No datagram finds a connected stream, no segment a connection with another local address, and
    a stream that is connected has no bytes. -/
def Clean (net : Sockets) : Label → Prop
  | .sendto i destination _ _ port => (net.bindSender i port).NoStream destination
  | .frame (.udp _ destination _) _ => net.NoStream destination
  | .frame (.tcp seg) _ =>
    ∀ t ∈ net.find? (isTcp seg.destination.port seg.source ·.sock), seg.destination.addr = t.sock.localAddr
  | .connect i _ _ _ => ∀ t ∈ net[i]?, t.sock.type = .stream →
      t.sock.rxQueue = [] ∧ t.arrived.isEmpty ∧ t.pending.isEmpty
  | _ => True

instance (net : Sockets) (destination : SockAddr) : Decidable (net.NoStream destination) :=
  inferInstanceAs (Decidable (∀ t ∈ net.find? (isPortAddr destination ·.sock),
    ¬ (t.sock.type = .stream ∧ t.sock.connected)))

instance (net : Sockets) (l : Label) : Decidable (net.Clean l) := by
  unfold Clean
  split <;> infer_instance

end Sockets

/-- A connected stream has frames of its own connection only. -/
structure Tracked.Own (t : Tracked) : Prop where
  queue : List.Forall₂ (fun f p => p.data <:+ f.payload) t.origins t.sock.rxQueue
  link : t.sock.type = .stream → t.sock.connected →
    t.sock.bound ∧ ∀ f ∈ t.frames, f.Belongs t.sock

theorem Socket.netQueuePacket_eq {s s' : Socket} {memory : Bool} {data : List UInt8} {source : SockAddr}
    (queued : s.netQueuePacket memory data source = some s') : s' = { s with
      rxQueue := if s.type = .stream then s.rxQueue ++ [⟨data, source⟩] else ⟨data, source⟩ :: s.rxQueue } := by
  unfold netQueuePacket queuePacket at queued
  grind

theorem Socket.receive_link (s : Socket) (ticks : Ticks) (seg : Segment) :
    (s.receive ticks seg).1.type = s.type ∧ (s.receive ticks seg).1.link = s.link ∧
      (s.receive ticks seg).1.rxQueue = s.rxQueue := by
  by_cases past : s.tcpState = .synSent
  · have shut : s.isOpen = false := by simp [isOpen, past]
    have other : s.acksSyn seg = false := by simp [acksSyn, past]
    unfold receive
    split <;> simp [shut, other, establish]
  · have result := receive_received ticks seg past
    exact ⟨result.type, result.link, result.rxQueue⟩

namespace Tracked.Own

variable {t u : Tracked}

/-- The ends stay while the connection does, and new frames belong to it. -/
theorem keep (h : t.Own) (queue : List.Forall₂ (fun f p => p.data <:+ f.payload) u.origins u.sock.rxQueue)
    (type : u.sock.type = t.sock.type) (link : u.sock.connected → u.sock.link = t.sock.link)
    (frames : ∀ f ∈ u.frames, f ∈ t.frames ∨
      (t.sock.type = .stream → t.sock.connected → f.Belongs t.sock)) : u.Own := by
  refine ⟨queue, fun stream connected => ?_⟩
  have same := link connected
  simp only [Socket.link, Prod.mk.injEq] at same
  obtain ⟨bound, connected', port, addr, peer⟩ := same
  have belongs (f : Frame) : f.Belongs u.sock ↔ f.Belongs t.sock := by
    cases f <;> simp [Frame.Belongs, localAddr, port, addr, peer]
  rw [type] at stream
  rw [connected'] at connected
  obtain ⟨old, all⟩ := h.link stream connected
  refine ⟨bound.trans old, fun f mem => (belongs f).mpr ?_⟩
  exact (frames f mem).elim (all f) fun own => own stream connected

theorem bindTo (h : t.Own) (addr : SockAddr) : (t.map (·.bindTo addr)).Own := by
  by_cases bound : t.sock.closed ∨ t.sock.bound
  · simpa [map, Socket.bindTo, bound] using h
  · refine ⟨by simpa [map, Socket.bindTo, bound] using h.queue, fun stream connected => ?_⟩
    simp only [map, Socket.bindTo, bound] at stream connected
    exact absurd (.inr (h.link stream connected).1) bound

theorem connectTo (h : t.Own) (empty : t.sock.type = .stream →
      t.sock.rxQueue = [] ∧ t.arrived.isEmpty ∧ t.pending.isEmpty)
    (peer : SockAddr) (port : Nat) (sequence : Seq) : (t.map (·.connectTo peer port sequence)).Own := by
  by_cases refused : t.sock.closed ∨ t.sock.connected
  · simpa [map, Socket.connectTo, refused] using h
  have same : (t.sock.connectTo peer port sequence).type = t.sock.type ∧
      (t.sock.connectTo peer port sequence).rxQueue = t.sock.rxQueue ∧
      (t.sock.connectTo peer port sequence).bound := by
    simp only [Socket.connectTo, refused, Socket.bindTo]
    grind
  obtain ⟨type, rxQueue, bound⟩ := same
  refine ⟨by simpa [map, rxQueue] using h.queue, fun stream _ => ⟨bound, ?_⟩⟩
  obtain ⟨none, arrived, pending⟩ := empty (type ▸ stream)
  have origins := h.queue
  rw [none, List.forall₂_nil_right_iff] at origins
  simp [map, frames, origins, List.isEmpty_iff.mp arrived, List.isEmpty_iff.mp pending]

theorem receive (h : t.Own) (k : Nat) (ticks : Ticks) : (t.receive k ticks).Own := by
  unfold Tracked.receive
  split
  · exact h
  · next seg here =>
    obtain ⟨type, link, rxQueue⟩ := t.sock.receive_link ticks seg
    have mem := List.mem_of_getElem? here
    exact h.keep (by simpa [rxQueue] using h.queue) type (fun _ => link) (by grind [List.mem_of_mem_eraseIdx])

theorem queuePacket (h : t.Own) (k : Nat) (memory : Bool) : (t.queue k memory).Own := by
  unfold Tracked.queue
  split
  · exact h
  · next frame here =>
    have mem := List.mem_of_getElem? here
    split
    · exact h.keep h.queue rfl (fun _ => rfl) (by grind [List.mem_of_mem_eraseIdx])
    · next queued =>
      cases netQueuePacket_eq queued
      refine h.keep ?_ rfl (fun _ => rfl) (by grind [List.mem_of_mem_eraseIdx])
      have last : frame.payload <:+ frame.payload := List.suffix_refl _
      split
      · exact List.rel_append h.queue (.cons last .nil)
      · exact .cons last h.queue

theorem recv (h : t.Own) (k : Nat) : (t.recv k).Own := by
  have queue := h.queue
  unfold Tracked.recv
  split
  · exact h
  · next packet rest here =>
    rw [here] at queue
    obtain ⟨frame, origins, part, others, same⟩ := List.forall₂_cons_right_iff.mp queue
    split
    · exact h.keep (by simpa [same] using others) rfl (fun _ => rfl) (by grind [List.mem_of_mem_tail])
    · refine h.keep ?_ rfl (fun _ => rfl) fun f other => .inl other
      simp only [map, putBack, same]
      exact .cons ((List.drop_suffix _ _).trans part) others

theorem change (h : t.Own) (s : Socket) : (t.map (·.change s)).Own := by
  refine h.keep h.queue rfl (fun connected => ?_) fun f other => .inl other
  simp only [map, Socket.change, Bool.and_eq_true] at connected
  simp [map, Socket.change, connected]

end Tracked.Own

namespace Sockets

variable {net net' : Sockets} {P : Tracked → Prop}

def peer : SockAddr := ⟨4000, 7⟩

end Sockets

end Procore.Net
