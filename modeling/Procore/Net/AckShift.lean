import Mathlib.Algebra.Group.Nat.Defs
import Procore.Net.Socket

/-! # Acknowledgements and the origin of the sequence numbers

Adding a constant to every sequence number of a connection and of a segment
should not change what the segment does. Reception compares acknowledgements as
unsigned numbers, so the shift commutes with it exactly when it carries the
compared numbers over the end of the number range together.
-/

namespace Procore.Net

open TxSegment BitVec

/-- The sum with `k` passes the end of the sequence numbers. -/
def Wraps (k a : Seq) : Prop := 2 ^ 32 ≤ a.toNat + k.toNat

instance (k a : Seq) : Decidable (Wraps k a) := inferInstanceAs (Decidable (_ ≤ _))

variable {k : Seq}

theorem add_lt_add_iff {a b : Seq} : (a + k < b + k ↔ a < b) ↔ (Wraps k a ↔ Wraps k b) := by
  simp only [Wraps, lt_def, toNat_add]
  omega

def TxSegment.shift (k : Seq) (seg : TxSegment) : TxSegment :=
  { seg with sequence := seg.sequence + k, acknowledgement := seg.acknowledgement + k }

@[simp]
theorem TxSegment.shift_stop (k : Seq) (seg : TxSegment) : (seg.shift k).stop = seg.stop + k := by
  simp only [stop, shift]
  ac_rfl

@[simp]
theorem TxSegment.shift_data (k : Seq) (seg : TxSegment) : (seg.shift k).data = seg.data := rfl

def Segment.shift (k : Seq) (seg : Segment) : Segment :=
  { seg with sequence := seg.sequence + k, acknowledgement := seg.acknowledgement + k }

def Socket.shift (k : Seq) (s : Socket) : Socket :=
  { s with
    tcpSndUna := s.tcpSndUna + k
    tcpSndNxt := s.tcpSndNxt + k
    tcpRcvNxt := s.tcpRcvNxt + k
    tcpLastAck := s.tcpLastAck + k
    tcpTxQueue := s.tcpTxQueue.map (TxSegment.shift k) }

/-- The segments whose end `net_tcp_ack_segments_locked` compares: those it removes and the
    first one it keeps. -/
def tested (acknowledgement : Seq) : List TxSegment → List TxSegment
  | [] => []
  | seg :: rest =>
    if acknowledgement < seg.stop then [seg] else seg :: tested acknowledgement rest

theorem ackSegments_length_le (acknowledgement : Seq) (queue : List TxSegment) :
    (ackSegments acknowledgement queue).1.length ≤ queue.length := by
  induction queue with
  | nil => simp [ackSegments]
  | cons seg rest ih =>
    simp only [ackSegments]
    split <;> simp_all
    omega

variable {queue : List TxSegment} {acknowledgement : Seq}

theorem ackSegments_shift (safe : ∀ seg ∈ tested acknowledgement queue, Wraps k acknowledgement ↔ Wraps k seg.stop) :
    ackSegments (acknowledgement + k) (queue.map (TxSegment.shift k)) =
      ((ackSegments acknowledgement queue).1.map (TxSegment.shift k),
        (ackSegments acknowledgement queue).2) := by
  induction queue with
  | nil => rfl
  | cons seg rest ih =>
    have head : Wraps k acknowledgement ↔ Wraps k seg.stop :=
      safe seg (by simp [tested]; split <;> simp)
    have same := add_lt_add_iff.mpr head
    by_cases keeps : acknowledgement < seg.stop
    · simp [ackSegments, keeps, same]
    · have tail := ih fun seg' mem => safe seg' (by simp [tested, keeps, mem])
      simp [ackSegments, keeps, same, tail]

theorem tested_of_ackSegments_shift (same : (ackSegments (acknowledgement + k) (queue.map (shift k))).1 =
      (ackSegments acknowledgement queue).1.map (TxSegment.shift k)) :
    ∀ seg ∈ tested acknowledgement queue, Wraps k acknowledgement ↔ Wraps k seg.stop := by
  induction queue with
  | nil => simp [tested]
  | cons seg rest ih =>
    have shorter := ackSegments_length_le (acknowledgement + k) (rest.map (shift k))
    have shorter' := ackSegments_length_le acknowledgement rest
    have lengths := congrArg List.length same
    simp only [ackSegments, List.map_cons, shift_stop] at same lengths
    -- A segment kept on one side only would make that side's queue longer.
    by_cases keeps : acknowledgement < seg.stop <;>
      by_cases keeps' : acknowledgement + k < seg.stop + k <;>
      simp only [keeps, keeps', if_true, if_false, List.length_map, List.length_cons] at same lengths shorter
    · simp [tested, keeps, ← add_lt_add_iff, keeps']
    · omega
    · omega
    intro seg' mem
    simp only [tested, keeps, if_false, List.mem_cons] at mem
    obtain rfl | mem := mem
    · simp [← add_lt_add_iff, keeps, keeps']
    · exact ih same seg' mem

namespace Socket

/-- The shift takes the numbers that decide about the acknowledgement over the end of the
    number range together. -/
def ShiftSafe (k : Seq) (s : Socket) (acknowledgement : Seq) : Prop :=
  if s.AckIsNew acknowledgement then
    (Wraps k s.tcpSndUna ↔ Wraps k s.tcpSndNxt) ∧
      ∀ seg ∈ tested acknowledgement s.tcpTxQueue, Wraps k acknowledgement ↔ Wraps k seg.stop
  else
    ¬ (Wraps k s.tcpSndUna ∧ ¬ Wraps k s.tcpSndNxt ∧
      (acknowledgement ≤ s.tcpSndNxt ∨ s.tcpSndUna < acknowledgement))

instance (k : Seq) (s : Socket) (acknowledgement : Seq) : Decidable (s.ShiftSafe k acknowledgement) :=
  inferInstanceAs (Decidable (ite _ _ _))

variable {k acknowledgement : Seq} {s : Socket}

/-- Whether an acknowledgement is new is the same after the shift. -/
theorem ackIsNew_shift_iff :
    ((s.shift k).AckIsNew (acknowledgement + k) ↔ s.AckIsNew acknowledgement) ↔
      if s.AckIsNew acknowledgement then (Wraps k s.tcpSndUna ↔ Wraps k s.tcpSndNxt)
      else ¬ (Wraps k s.tcpSndUna ∧ ¬ Wraps k s.tcpSndNxt ∧
        (acknowledgement ≤ s.tcpSndNxt ∨ s.tcpSndUna < acknowledgement)) := by
  simp only [AckIsNew, shift, Wraps, lt_def, le_def, toNat_add]
  split <;> omega

theorem congestionAck_iterate_shift (k : Seq) (n : Nat) (s : Socket) :
    congestionAck^[n] (s.shift k) = (congestionAck^[n] s).shift k := by
  have commute : Function.Commute congestionAck (shift k) := by
    intro t
    cases t
    rfl
  exact (commute.iterate_left n).eq s

theorem congestionAck_iterate (n : Nat) (s : Socket) :
    ∃ cwnd, congestionAck^[n] s = { s with tcpCwnd := cwnd } := by
  induction n generalizing s with
  | zero => exact ⟨s.tcpCwnd, rfl⟩
  | succ n ih =>
    obtain ⟨cwnd, rest⟩ := ih s.congestionAck
    refine ⟨cwnd, ?_⟩
    rw [Function.iterate_succ_apply, rest]
    cases s
    rfl

theorem ackQueue_eq (s : Socket) (acknowledgement : Seq) :
    ∃ cwnd, s.ackQueue acknowledgement =
      { s with tcpSndUna := acknowledgement, tcpLastAck := acknowledgement, tcpDupAcks := 0,
               tcpTxQueue := (ackSegments acknowledgement s.tcpTxQueue).1, tcpCwnd := cwnd } :=
  congestionAck_iterate _ _

theorem ackQueue_shift (safe : ∀ seg ∈ tested acknowledgement s.tcpTxQueue,
      Wraps k acknowledgement ↔ Wraps k seg.stop) :
    (s.shift k).ackQueue (acknowledgement + k) = (s.ackQueue acknowledgement).shift k := by
  have queue := ackSegments_shift safe
  simp only [ackQueue, ← congestionAck_iterate_shift]
  simp [shift, queue]

theorem finAcked_shift (k : Seq) (s : Socket) :
    (s.shift k).finAcked = (s.finAcked.1.shift k, s.finAcked.2) := by
  unfold finAcked
  cases state : s.tcpState <;> simp [shift, state]

/-- With both numbers at most `tcp_snd_nxt`, the test for our FIN is an equality. -/
theorem ackFin_shift (le : acknowledgement ≤ s.tcpSndNxt) (le' : acknowledgement + k ≤ s.tcpSndNxt + k) :
    (s.shift k).ackFin (acknowledgement + k) =
      ((s.ackFin acknowledgement).1.shift k, (s.ackFin acknowledgement).2) := by
  have all : s.tcpSndNxt + k ≤ acknowledgement + k ↔ s.tcpSndNxt ≤ acknowledgement := by
    bv_omega
  have test : ((s.shift k).tcpFinSent ∧ (s.shift k).tcpSndNxt ≤ acknowledgement + k) ↔
      (s.tcpFinSent ∧ s.tcpSndNxt ≤ acknowledgement) := and_congr_right fun _ => all
  unfold ackFin
  by_cases acked : s.tcpFinSent ∧ s.tcpSndNxt ≤ acknowledgement
  · rw [if_pos acked, if_pos (test.mpr acked)]
    exact finAcked_shift k s
  · rw [if_neg acked, if_neg (mt test.mp acked)]

theorem releaseFin_shift (k : Seq) (s : Socket) :
    (s.shift k).releaseFin = (s.releaseFin.1.shift k, s.releaseFin.2) := by
  unfold releaseFin
  by_cases pending : s.tcpFinPending ∧ s.tcpTxQueue = [] ∧ s.tcpSndNxt = s.tcpSndUna <;> simp [shift, pending]

theorem newAck_shift (le : acknowledgement ≤ s.tcpSndNxt) (le' : acknowledgement + k ≤ s.tcpSndNxt + k)
    (safe : ∀ seg ∈ tested acknowledgement s.tcpTxQueue,
      Wraps k acknowledgement ↔ Wraps k seg.stop) :
    (s.shift k).newAck (acknowledgement + k) =
      ((s.newAck acknowledgement).1.shift k, (s.newAck acknowledgement).2) := by
  have nxt : (s.ackQueue acknowledgement).tcpSndNxt = s.tcpSndNxt := by
    obtain ⟨cwnd, queue⟩ := s.ackQueue_eq acknowledgement
    rw [queue]
  simp [newAck, ackQueue_shift safe, ackFin_shift (nxt ▸ le) (nxt ▸ le'), releaseFin_shift]

theorem dupAck_shift (k : Seq) (ticks : Ticks) (s : Socket) :
    (s.shift k).dupAck ticks = (s.dupAck ticks).shift k := by
  have resend : resendFirst ticks (s.tcpTxQueue.map (TxSegment.shift k)) =
      (resendFirst ticks s.tcpTxQueue).map (TxSegment.shift k) := by
    cases s.tcpTxQueue <;> rfl
  by_cases few : s.tcpDupAcks + 1 < 3
  · simp [dupAck, shift, few]
  · simp only [dupAck, shift, few, resend, if_false]
    rfl

theorem newAck_sends (s : Socket) (acknowledgement : Seq) :
    (s.newAck acknowledgement).1.tcpSndUna = acknowledgement ∧
      (s.newAck acknowledgement).1.tcpTxQueue = (ackSegments acknowledgement s.tcpTxQueue).1 ∧
      (s.newAck acknowledgement).1.tcpSndWnd = s.tcpSndWnd ∧
      (s.newAck acknowledgement).1.tcpCwnd = (s.ackQueue acknowledgement).tcpCwnd := by
  obtain ⟨cwnd, queue⟩ := s.ackQueue_eq acknowledgement
  simp only [newAck, releaseFin, ackFin, finAcked]
  grind

variable {ticks : Ticks} {seg : Segment}

theorem takeAck_of_new (new : s.AckIsNew seg.acknowledgement) :
    s.takeAck ticks seg = (s.updateWindow seg.window).newAck seg.acknowledgement :=
  if_pos new

theorem takeAck_of_not_new (old : ¬ s.AckIsNew seg.acknowledgement) :
    s.takeAck ticks seg =
      (if seg.acknowledgement = s.tcpSndUna ∧ s.tcpTxQueue ≠ [] then
        (s.updateWindow seg.window).dupAck ticks
      else s.updateWindow seg.window, {}) := by
  refine (if_neg old).trans ?_
  exact (apply_ite (Prod.mk · ({} : Todo)) _ _ _).symm

theorem takeAck_tcpSndUna (s : Socket) (ticks : Ticks) (seg : Segment) :
    (s.takeAck ticks seg).1.tcpSndUna =
      if s.AckIsNew seg.acknowledgement then seg.acknowledgement else s.tcpSndUna := by
  split
  · next new => rw [takeAck_of_new new, (newAck_sends _ _).1]
  · next old =>
      rw [takeAck_of_not_new old]
      simp only [dupAck, updateWindow]
      grind

/-- The shift commutes with taking an acknowledgement if it is safe. -/
theorem takeAck_shift (safe : s.ShiftSafe k seg.acknowledgement) :
    (s.shift k).takeAck ticks (seg.shift k) =
      ((s.takeAck ticks seg).1.shift k, (s.takeAck ticks seg).2) := by
  have verdict := @ackIsNew_shift_iff k seg.acknowledgement s
  unfold ShiftSafe at safe
  by_cases new : s.AckIsNew seg.acknowledgement
  · simp only [new, iff_true] at safe verdict
    have new' := verdict.mpr safe.1
    have shifted := @takeAck_of_new (s.shift k) ticks (seg.shift k) new'
    rw [takeAck_of_new new, shifted]
    exact @newAck_shift k _ (s.updateWindow seg.window) new.2 new'.2 safe.2
  · simp only [new, iff_false] at safe verdict
    have shifted := @takeAck_of_not_new (s.shift k) ticks (seg.shift k) (verdict.mpr safe)
    have duplicate : ((seg.shift k).acknowledgement = (s.shift k).tcpSndUna ∧
        (s.shift k).tcpTxQueue ≠ []) ↔ (seg.acknowledgement = s.tcpSndUna ∧ s.tcpTxQueue ≠ []) := by
      simp [shift, Segment.shift]
    rw [takeAck_of_not_new new, shifted]
    simp only [duplicate]
    split
    · exact Prod.ext (dupAck_shift k ticks (s.updateWindow seg.window)) rfl
    · rfl

/-- A shift that is not safe shows in `tcp_snd_una` or in the transmit queue. -/
theorem shiftSafe_of_takeAck (una : ((s.shift k).takeAck ticks (seg.shift k)).1.tcpSndUna =
      (s.takeAck ticks seg).1.tcpSndUna + k)
    (queue : ((s.shift k).takeAck ticks (seg.shift k)).1.tcpTxQueue =
      (s.takeAck ticks seg).1.tcpTxQueue.map (TxSegment.shift k)) :
    s.ShiftSafe k seg.acknowledgement := by
  have verdict := @ackIsNew_shift_iff k seg.acknowledgement s
  have same : (s.shift k).AckIsNew (seg.acknowledgement + k) ↔ s.AckIsNew seg.acknowledgement := by
    -- A new acknowledgement moves `tcp_snd_una`, any other leaves it.
    by_cases new : s.AckIsNew seg.acknowledgement <;>
      by_cases new' : (s.shift k).AckIsNew (seg.acknowledgement + k) <;>
      simp only [takeAck_tcpSndUna, Segment.shift, new, new', if_true] at una ⊢
    · have equal : s.tcpSndUna = seg.acknowledgement := (BitVec.add_left_inj k).mp una
      exact absurd (equal ▸ new.1) (BitVec.lt_irrefl _)
    · exact absurd (una ▸ new'.1) (BitVec.lt_irrefl _)
  have answer := verdict.mp same
  unfold ShiftSafe
  by_cases new : s.AckIsNew seg.acknowledgement
  · have shifted := @takeAck_of_new (s.shift k) ticks (seg.shift k) (same.mpr new)
    simp only [takeAck_of_new new, shifted, newAck_sends] at queue
    simp only [new] at answer ⊢
    exact ⟨answer, tested_of_ackSegments_shift queue⟩
  · simpa [new] using answer

theorem isNext_shift (k : Seq) (s : Socket) (seg : Segment) :
    (s.shift k).IsNext (seg.shift k) ↔ s.IsNext seg := by
  simp [IsNext, shift, Segment.shift]

theorem finIsNext_shift (k : Seq) (s : Socket) (seg : Segment) :
    (s.shift k).FinIsNext (seg.shift k) ↔ s.FinIsNext seg := by
  have sum : seg.sequence + k + seg.length = s.tcpRcvNxt + k ↔
      seg.sequence + seg.length = s.tcpRcvNxt := by
    bv_omega
  exact and_congr_right fun _ => sum

theorem takeData_shift (k : Seq) (s : Socket) (seg : Segment) :
    (s.shift k).takeData (seg.shift k) = (s.takeData seg).shift k := by
  have sum : s.tcpRcvNxt + k + seg.length = s.tcpRcvNxt + seg.length + k := by bv_omega
  simp only [takeData, isNext_shift]
  split
  · simp only [shift, Segment.shift, Segment.length] at sum ⊢
    rw [sum]
  · rfl

theorem takeStream_shift (k : Seq) (s : Socket) (seg : Segment) :
    (s.shift k).takeStream (seg.shift k) = (s.takeStream seg).shift k := by
  have sum (a : Seq) : a + k + 1 = a + 1 + k := by bv_omega
  simp only [takeStream, takeData_shift, finIsNext_shift]
  split
  · simp only [takeFin, shift, sum]
  · rfl

theorem takeStream_sends (s : Socket) (seg : Segment) :
    (s.takeStream seg).tcpSndUna = s.tcpSndUna ∧ (s.takeStream seg).tcpTxQueue = s.tcpTxQueue ∧
      (s.takeStream seg).tcpSndWnd = s.tcpSndWnd ∧ (s.takeStream seg).tcpCwnd = s.tcpCwnd := by
  unfold takeStream takeData takeFin
  split <;> split <;> exact ⟨rfl, rfl, rfl, rfl⟩

theorem process_shift_iff :
    (s.shift k).process ticks (seg.shift k) =
        ((s.process ticks seg).1.shift k, (s.process ticks seg).2) ↔
      (¬ seg.rst → seg.ack → s.ShiftSafe k seg.acknowledgement) := by
  have fields : (seg.shift k).rst = seg.rst ∧ (seg.shift k).ack = seg.ack ∧
      (seg.shift k).payload = seg.payload := ⟨rfl, rfl, rfl⟩
  cases rst : seg.rst
  · cases ack : seg.ack <;>
      simp only [process, fields, rst, ack, if_true, if_false, Bool.false_eq_true, not_false_eq_true,
        true_imp_iff, false_imp_iff, iff_true]
    · simp only [takeStream_shift, takeData_shift, isNext_shift, finIsNext_shift]
      rfl
    · constructor
      · intro same
        have una := congrArg (fun r => r.1.tcpSndUna) same
        have queue := congrArg (fun r => r.1.tcpTxQueue) same
        simp only [takeStream_sends, shift] at una queue
        exact shiftSafe_of_takeAck una queue
      · intro safe
        simp only [takeAck_shift safe, takeStream_shift, takeData_shift, isNext_shift,
          finIsNext_shift]
        rfl
  · simp only [process, fields, rst, not_true_eq_false, false_imp_iff, iff_true]
    rfl

/-- Reception commutes with a shift of all sequence numbers exactly when the shift is safe for
    the acknowledgement of a segment that reaches an open connection. -/
theorem receive_shift_iff (k : Seq) (s : Socket) (ticks : Ticks) (seg : Segment) :
    (s.shift k).receive ticks (seg.shift k) =
        ((s.receive ticks seg).1.shift k, (s.receive ticks seg).2) ↔
      (s.isOpen → ¬ seg.rst → seg.ack → s.ShiftSafe k seg.acknowledgement) := by
  have next : seg.sequence + k + 1 = seg.sequence + 1 + k := by bv_omega
  have expected : decide ((seg.shift k).acknowledgement = (s.shift k).tcpSndNxt) =
      decide (seg.acknowledgement = s.tcpSndNxt) := decide_eq_decide.mpr (BitVec.add_left_inj k)
  have answers : (s.shift k).answersSyn (seg.shift k) = s.answersSyn seg :=
    congrArg (!s.closed && s.tcpState = .synSent && seg.syn && seg.ack && ·) expected
  have acks : (s.shift k).acksSyn (seg.shift k) = s.acksSyn seg :=
    congrArg (!s.closed && s.tcpState = .synReceived && seg.ack && ·) expected
  have opens : (s.shift k).isOpen = s.isOpen := rfl
  simp only [receive, answers, acks, opens]
  by_cases answered : s.answersSyn seg
  · have state : s.isOpen = false := by
      simp only [answersSyn, isOpen] at answered ⊢
      grind
    simp only [answered, state, if_true, Bool.false_eq_true, false_imp_iff]
    simp only [establish, shift, Segment.shift, next]
  by_cases acked : s.acksSyn seg
  · have state : s.isOpen = false := by
      simp only [acksSyn, isOpen] at acked ⊢
      grind
    simp only [answered, acked, state, Bool.false_eq_true, false_imp_iff, iff_true]
    rfl
  simp only [answered, acked]
  by_cases opened : s.isOpen
  · simp only [opened, true_imp_iff]
    exact process_shift_iff
  · simp [opened]

/-- The bytes in flight cross the end of the number range. -/
def crossing : Socket :=
  { tcpState := .established, tcpSndUna := 0xFFFFFFFE, tcpSndNxt := 2,
    tcpTxQueue := [⟨0xFFFFFFFE, 0, [1, 2, 3, 4], 0, 0⟩] }

/-- The acknowledgement of all of them. -/
def crossingAck : Segment := { sequence := 0, acknowledgement := 2, ack := true }

/-- It is ignored, while the same acknowledgement ten numbers further on empties the queue. -/
theorem crossing_ack_ignored :
    (crossing.receive 0 crossingAck).1.tcpTxQueue = crossing.tcpTxQueue ∧
      ((crossing.shift 10).receive 0 (crossingAck.shift 10)).1.tcpTxQueue = [] ∧
      (crossing.shift 10).receive 0 (crossingAck.shift 10) ≠
        ((crossing.receive 0 crossingAck).1.shift 10, (crossing.receive 0 crossingAck).2) := by
  decide +kernel

end Socket

end Procore.Net
