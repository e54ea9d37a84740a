import Procore.Lib.Run
import Procore.Net.Socket

/-! # What waits for a receiving call

Datagrams wait on the queue of a UDP socket for `net_socket_recvfrom` and
established connections on the queue of a listener for `net_socket_accept`. Each
lock section and each semaphore operation is one step, on sockets that stay open.
The calls are not told apart: how many stand at each place is all that the steps
depend on.
-/

namespace Procore.Net

open Procore.Lib

/-- The loop of `net_socket_accept` over `accept_queue`. -/
def acceptFirst : List (Nat × Socket) → Option Nat × List (Nat × Socket)
  | [] => (none, [])
  | (id, child) :: rest =>
    if child.tcpState = .established then (some id, rest)
    else if child.tcpState = .closed ∨ child.closed then acceptFirst rest
    else ((acceptFirst rest).1, (id, child) :: (acceptFirst rest).2)

structure Backlog where
  /-- The UDP socket. -/
  sock : Socket := { type := .dgram }
  rxSem : Nat := 0
  /-- Calls of `net_queue_packet` before their `up`. -/
  queuing : Nat := 0
  /-- Non-blocking calls of `net_socket_recvfrom` before `down_interruptible`; they sleep there
      while `rxSem` is 0. -/
  passed : Nat := 0
  /-- Blocking calls before it. -/
  blocking : Nat := 0
  /-- Calls after it. -/
  holding : Nat := 0
  /-- The connections that completed and are not yet on the queue of the listener. -/
  arriving : List (Nat × Socket) := []
  /-- The connections of the listener, numbered as they completed. -/
  acceptQueue : List (Nat × Socket) := []
  queued : List Packet := []
  returned : List Packet := []
  completed : List Nat := []
  accepted : List Nat := []

namespace Backlog

inductive Label where
  | queuePacket (packet : Packet)
  | up
  | check
  | down
  /-- A blocking call, which does not look at the queue before it waits. -/
  | enter
  | downBlocking
  | take
  /-- The section of the connection in which its handshake ends. -/
  | complete (child : Socket)
  /-- The section of the listener for one of these connections, in any order. -/
  | insert (i : Nat)
  /-- Whatever happens to the connections that wait. -/
  | change (f : Nat → Socket → Socket)
  | accept

def step (b : Backlog) : Label → Option Backlog
  | .queuePacket packet => (b.sock.queuePacket packet).map fun sock =>
    { b with sock, queuing := b.queuing + 1, queued := b.queued ++ [packet] }
  | .up =>
    if b.queuing = 0 then none else some { b with queuing := b.queuing - 1, rxSem := b.rxSem + 1 }
  | .check => if b.sock.closed ∨ b.sock.rxQueue = [] then some b else some { b with passed := b.passed + 1 }
  | .down =>
    if b.passed = 0 ∨ b.rxSem = 0 then none
    else some { b with passed := b.passed - 1, holding := b.holding + 1, rxSem := b.rxSem - 1 }
  | .enter => some { b with blocking := b.blocking + 1 }
  | .downBlocking =>
    if b.blocking = 0 ∨ b.rxSem = 0 then none
    else some { b with blocking := b.blocking - 1, holding := b.holding + 1, rxSem := b.rxSem - 1 }
  | .take =>
    if b.holding = 0 then none
    else match b.sock.rxQueue with
      -- The call starts again.
      | [] => some { b with holding := b.holding - 1 }
      | packet :: rest => some { b with
          holding := b.holding - 1
          sock := { b.sock with rxQueue := rest }
          returned := b.returned ++ [packet] }
  | .complete child => some { b with
      arriving := b.arriving ++ [(b.completed.length, child)]
      completed := b.completed ++ [b.completed.length] }
  | .insert i => b.arriving[i]?.map fun child =>
    { b with arriving := b.arriving.eraseIdx i, acceptQueue := child :: b.acceptQueue }
  | .change f => some { b with
      arriving := b.arriving.map fun (id, child) => (id, f id child)
      acceptQueue := b.acceptQueue.map fun (id, child) => (id, f id child) }
  | .accept =>
    let (first, left) := acceptFirst b.acceptQueue
    some { b with acceptQueue := left, accepted := b.accepted ++ first.toList }

/-- Nothing waits when something comes, and of the connections the one comes that completed first. -/
def Empty (b : Backlog) : Label → Prop
  | .queuePacket _ => b.sock.rxQueue = []
  | .insert i => b.acceptQueue = [] ∧ i = 0
  | _ => True

instance (b : Backlog) (l : Label) : Decidable (b.Empty l) := by
  unfold Empty
  split <;> infer_instance

structure InOrder (b : Backlog) : Prop where
  dgram : b.sock.type = .dgram
  packets : b.queued = b.returned ++ b.sock.rxQueue
  waiting : b.acceptQueue.length ≤ 1
  children : (b.accepted ++ (b.acceptQueue ++ b.arriving).map Prod.fst).Sublist b.completed

theorem InOrder.step {b c : Backlog} {l : Label} (h : b.InOrder) (empty : b.Empty l)
    (taken : b.step l = some c) : c.InOrder := by
  obtain ⟨dgram, packets, waiting, children⟩ := h
  cases l with
  | queuePacket packet =>
    obtain ⟨sock, queued, rfl⟩ := Option.map_eq_some_iff.mp taken
    simp only [Socket.queuePacket, Empty] at queued empty
    constructor <;> grind
  | up | check | down | enter | downBlocking | take => constructor <;> grind [Backlog.step]
  | complete child =>
    cases taken
    exact ⟨dgram, packets, waiting, by simpa using children.append_right [b.completed.length]⟩
  | insert i =>
    obtain ⟨child, first, rfl⟩ := Option.map_eq_some_iff.mp taken
    obtain ⟨none, rfl⟩ := empty
    obtain ⟨rest, queue⟩ := List.head?_eq_some_iff.mp (List.head?_eq_getElem? ▸ first)
    exact ⟨dgram, packets, by simp [none], by simpa [none, queue] using children⟩
  | change f =>
    cases taken
    exact ⟨dgram, packets, by simpa using waiting, by simpa [Function.comp_def] using children⟩
  | accept =>
    cases taken
    match queue : b.acceptQueue with
    | [] => exact ⟨dgram, packets, by simp [acceptFirst], by simpa [acceptFirst, queue] using children⟩
    | [(id, child)] =>
      rw [queue] at children
      have short := (List.sublist_cons_self id (b.arriving.map Prod.fst)).append_left b.accepted
      simp only [acceptFirst]
      split_ifs
      · exact ⟨dgram, packets, by simp, by simpa using children⟩
      · exact ⟨dgram, packets, by simp, by simpa using short.trans children⟩
      · exact ⟨dgram, packets, by simp, by simpa using children⟩
    | _ :: _ :: _ => simp [queue] at waiting

/-- If nothing waits whenever something comes and connections come as they completed, datagrams are
    returned in the order they were queued, and connections in the order they completed. -/
theorem received_in_order {b : Backlog} {ls : List Label} (empty : Along step Empty {} ls)
    (run : runFrom step {} ls = some b) : b.returned <+: b.queued ∧ b.accepted.Sublist b.completed := by
  have start : InOrder {} := ⟨rfl, rfl, by simp, by simp⟩
  have inv := runFrom_invariant (fun _ _ _ h empty taken => InOrder.step h empty taken) start empty run
  exact ⟨⟨_, inv.packets.symm⟩, (List.sublist_append_left ..).trans inv.children⟩

/-- A datagram of one byte. -/
def datagram (byte : UInt8) : Packet := ⟨[byte], {}⟩

def established : Socket := { tcpState := .established }

/-- One datagram is received before the next one comes, and so are the connections. -/
def oneByOne : List Label :=
  [.enter, .queuePacket (datagram 1), .up, .downBlocking, .take,
    .queuePacket (datagram 2), .up, .check, .down, .take,
    .complete established, .complete established, .insert 0, .accept, .insert 0, .accept]

theorem received_in_order_oneByOne : ∃ b, runFrom step {} oneByOne = some b ∧
    b.returned = [datagram 1, datagram 2] ∧ b.accepted = [0, 1] ∧
    b.returned <+: b.queued ∧ b.accepted.Sublist b.completed :=
  exists_run_test (fun b => b.returned = [datagram 1, datagram 2] ∧ b.accepted = [0, 1]) (by decide)
    fun _ run facts => ⟨facts.1, facts.2, received_in_order (by decide) run⟩

/-- Two datagrams wait and two connections: the later one is received first. -/
theorem received_out_of_order : (runFrom step {} [.queuePacket (datagram 1), .up, .queuePacket (datagram 2),
    .up, .check, .down, .take, .complete established, .insert 0, .complete established, .insert 0,
    .accept]).any (fun b =>
      b.queued = [datagram 1, datagram 2] ∧ b.returned = [datagram 2] ∧
      b.completed = [0, 1] ∧ b.accepted = [1]) = true := by decide

/-- No other call is under way when a call looks at `rx_count`, and no blocking call starts before it
    has its token. -/
def Alone (b : Backlog) : Label → Prop
  | .check => b.queuing = 0 ∧ b.passed = 0 ∧ b.holding = 0 ∧ b.blocking = 0
  | .enter => b.passed = 0
  | _ => True

instance (b : Backlog) (l : Label) : Decidable (b.Alone l) := by
  unfold Alone
  split <;> infer_instance

/-- The datagrams have tokens, and so has the call that has passed the check. -/
structure Backed (b : Backlog) : Prop where
  tokens : b.sock.rxQueue.length ≤ b.rxSem + b.queuing + b.holding
  passed : b.passed = 0 ∨ b.passed = 1 ∧ 0 < b.rxSem ∧ b.holding = 0 ∧ b.blocking = 0

theorem Backed.step {b c : Backlog} {l : Label} (h : b.Backed) (alone : b.Alone l)
    (taken : b.step l = some c) : c.Backed := by
  obtain ⟨tokens, passed⟩ := h
  cases l with
  | queuePacket packet =>
    obtain ⟨sock, queued, rfl⟩ := Option.map_eq_some_iff.mp taken
    simp only [Socket.queuePacket] at queued
    constructor <;> grind
  | check | enter =>
    simp only [Alone] at alone
    have some := List.length_eq_zero_iff (l := b.sock.rxQueue)
    constructor <;> grind [Backlog.step]
  | up | down | downBlocking | take | complete | insert | change | accept => constructor <;> grind [Backlog.step]

/-- If no other call is under way when a call looks at `rx_count`, no call sleeps. -/
theorem nonblocking_never_sleeps {b : Backlog} {ls : List Label} (alone : Along step Alone {} ls)
    (run : runFrom step {} ls = some b) (here : b.passed ≠ 0) : 0 < b.rxSem := by
  have start : Backed {} := ⟨by simp, .inl rfl⟩
  have inv := runFrom_invariant (fun _ _ _ h alone taken => Backed.step h alone taken) start alone run
  exact (inv.passed.resolve_left here).2.1

theorem nonblocking_never_sleeps_one : ∃ b, runFrom step {} [.queuePacket (datagram 1), .up, .check] = some b ∧
    b.passed = 1 ∧ 0 < b.rxSem :=
  exists_run_test (fun b => b.passed = 1) (by decide) fun _ run passed =>
    ⟨passed, nonblocking_never_sleeps (by decide) run (by simp [passed])⟩

/-- The call comes between the queueing of a datagram and its `up`. -/
theorem nonblocking_call_sleeps : (runFrom step {} [.queuePacket (datagram 1), .check]).any (fun b =>
    b.passed = 1 ∧ b.rxSem = 0 ∧ b.step .down = none) = true := by decide

end Backlog

end Procore.Net
