import Mathlib.Algebra.Group.Nat.Defs
import Mathlib.Data.List.Basic

/-! # The keyboard

`dev_stdin_write` and `dev_stdin_read` of `dev_stdin.c`: a buffer with two counters
that are not reduced. The abstract device is a queue that drops what comes while it
is full.
-/

namespace Procore.Fs.Stdin

def stdinBufsize : Nat := 4096

structure Device where
  stdinBuffer : Int → UInt8 := fun _ => 0
  rpos : Int := 0
  wpos : Int := 0

/-- `off_t` is an `int`. -/
def offT (n : Int) : Int := n.bmod (2 ^ 32)

inductive Op where
  | write (c : UInt8)
  /-- The loop of `dev_stdin_read` until it returns or sleeps. -/
  | read (len : Nat)

namespace Device

def devStdinWrite (s : Device) (c : UInt8) : Device :=
  if c = 0 then s
  else
    let s := { s with stdinBuffer := Function.update s.stdinBuffer (s.wpos.tmod stdinBufsize) c }
    if offT (s.wpos - s.rpos) < stdinBufsize then { s with wpos := offT (s.wpos + 1) } else s

def devStdinRead (s : Device) : Nat → List UInt8 × Device
  | 0 => ([], s)
  | len + 1 =>
    if s.rpos < s.wpos then
      let (buf, t) := devStdinRead { s with rpos := offT (s.rpos + 1) } len
      (s.stdinBuffer (s.rpos.tmod stdinBufsize) :: buf, t)
    else ([], s)

def step (s : Device) : Op → List UInt8 × Device
  | .write c => ([], s.devStdinWrite c)
  | .read len => s.devStdinRead len

end Device

/-- What the calls return, one after the other. -/
def outputs {σ : Type} (step : σ → Op → List UInt8 × σ) : σ → List Op → List UInt8
  | _, [] => []
  | s, op :: ops => (step s op).1 ++ outputs step (step s op).2 ops

/-- The abstract device. -/
def queueStep (queue : List UInt8) : Op → List UInt8 × List UInt8
  | .write c => ([], if c = 0 ∨ queue.length = stdinBufsize then queue else queue ++ [c])
  | .read len => (queue.take len, queue.drop len)

/-- No character comes while the queue is full, and fewer than `2 ^ 31` come; `n` have been read. -/
def Fits : List UInt8 → Nat → List Op → Prop
  | _, _, [] => True
  | queue, n, .write c :: ops =>
    c = 0 ∧ Fits queue n ops ∨ c ≠ 0 ∧ queue.length < stdinBufsize ∧ n + queue.length + 1 < 2 ^ 31 ∧
      Fits (queue ++ [c]) n ops
  | queue, n, .read len :: ops => Fits (queue.drop len) (n + min len queue.length) ops

/-- The device holds the queue after `n` characters have been read. -/
structure Rep (s : Device) (queue : List UInt8) (n : Nat) : Prop where
  rpos : s.rpos = n
  wpos : s.wpos = (n + queue.length : Nat)
  room : queue.length ≤ stdinBufsize
  small : n + queue.length < 2 ^ 31
  cells : ∀ i < queue.length, s.stdinBuffer ((n + i) % stdinBufsize : Nat) = queue.getD i 0

variable {s : Device} {queue : List UInt8} {n : Nat} {c : UInt8}

theorem offT_of_lt (small : n < 2 ^ 31) : offT n = n := Int.bmod_eq_of_le (by omega) (by omega)

theorem Rep.unread (h : Rep s queue n) : offT (s.wpos - s.rpos) = queue.length := by
  have length : s.wpos - s.rpos = queue.length := by
    rw [h.rpos, h.wpos]
    omega
  rw [length]
  exact offT_of_lt (Nat.lt_of_le_of_lt (Nat.le_add_left ..) h.small)

theorem Rep.write (h : Rep s queue n) (some : c ≠ 0) (free : queue.length < stdinBufsize)
    (small : n + queue.length + 1 < 2 ^ 31) : Rep (s.devStdinWrite c) (queue ++ [c]) n := by
  have length : (queue ++ [c]).length = queue.length + 1 := List.length_append
  have next : offT (s.wpos + 1) = (n + queue.length + 1 : Nat) := by
    rw [h.wpos]
    exact offT_of_lt small
  have written : s.devStdinWrite c = ⟨Function.update s.stdinBuffer
      ((n + queue.length) % stdinBufsize : Nat) c, s.rpos, (n + queue.length + 1 : Nat)⟩ := by
    simp only [Device.devStdinWrite, some, if_false, h.unread, Int.ofNat_lt.mpr free, if_true, next]
    rw [h.wpos, ← Int.ofNat_tmod]
  rw [written]
  refine ⟨h.rpos, ?_, ?_, ?_, fun i inside => ?_⟩
  · rw [length]
    rfl
  · rwa [length]
  · rwa [length]
  · rw [length] at inside
    obtain before | rfl := Nat.lt_succ_iff_lt_or_eq.mp inside
    · have apart : ((n + i) % stdinBufsize : Nat) ≠ ((n + queue.length) % stdinBufsize : Nat) := by
        unfold stdinBufsize at free ⊢
        omega
      dsimp only
      rw [Function.update_of_ne (Int.ofNat_inj.not.mpr apart), h.cells i before]
      simp [List.getElem?_append_left before]
    · simp

theorem Rep.read (h : Rep s queue n) (len : Nat) : (s.devStdinRead len).1 = queue.take len ∧
    Rep (s.devStdinRead len).2 (queue.drop len) (n + min len queue.length) := by
  induction len generalizing s queue n with
  | zero => simpa [Device.devStdinRead] using h
  | succ len ih =>
    cases queue with
    | nil =>
      have none : ¬ s.rpos < s.wpos := by simp [h.rpos, h.wpos]
      simpa [Device.devStdinRead, none] using h
    | cons c queue =>
      obtain ⟨rpos, wpos, room, small, cells⟩ := h
      rw [List.length_cons] at wpos room small cells
      have some : s.rpos < s.wpos := by omega
      have next : offT (s.rpos + 1) = (n + 1 : Nat) := by
        rw [rpos]
        exact offT_of_lt (n := n + 1) (by omega)
      have first : s.stdinBuffer (s.rpos.tmod stdinBufsize) = c := by
        rw [rpos]
        exact cells 0 (Nat.succ_pos _)
      have rest : Rep { s with rpos := offT (s.rpos + 1) } queue (n + 1) := by
        refine ⟨next, ?_, by omega, by omega, fun i inside => ?_⟩
        · dsimp only
          omega
        · rw [Nat.add_assoc, Nat.add_comm 1]
          exact cells (i + 1) (by omega)
      obtain ⟨same, kept⟩ := ih rest
      simp only [Device.devStdinRead, some, first, same]
      refine ⟨rfl, ?_⟩
      rw [List.length_cons, Nat.succ_min_succ, Nat.succ_eq_add_one, ← Nat.add_assoc, Nat.add_right_comm]
      exact kept

theorem Rep.outputs {ops : List Op} (h : Rep s queue n) (fits : Fits queue n ops) :
    outputs Device.step s ops = outputs queueStep queue ops := by
  induction ops generalizing s queue n with
  | nil => rfl
  | cons op ops ih =>
    cases op with
    | write c =>
      obtain ⟨zero, fits⟩ | ⟨some, free, small, fits⟩ := fits
      · simpa [Stdin.outputs, Device.step, queueStep, Device.devStdinWrite, zero] using ih h fits
      · have := ih (h.write some free small) fits
        simpa [Stdin.outputs, Device.step, queueStep, some, Nat.ne_of_lt free] using this
    | read len =>
      obtain ⟨same, rest⟩ := h.read len
      simpa [Stdin.outputs, Device.step, queueStep, same] using ih rest fits

theorem rep_empty : Rep {} [] 0 := ⟨rfl, rfl, Nat.zero_le _, by decide, nofun⟩

/-- The device is the queue, as long as nothing comes while it is full. -/
theorem stdin_is_queue {ops : List Op} (fits : Fits [] 0 ops) :
    outputs Device.step {} ops = outputs queueStep [] ops := rep_empty.outputs fits

theorem stdin_is_queue_two : Fits [] 0 [.write 7, .write 0, .write 8, .read 1, .read 5] ∧
    outputs Device.step {} [.write 7, .write 0, .write 8, .read 1, .read 5] = [7, 8] := by
  have fits : Fits [] 0 [.write 7, .write 0, .write 8, .read 1, .read 5] := by simp [Fits, stdinBufsize]
  exact ⟨fits, stdin_is_queue fits⟩

/-- The buffer after so many characters. -/
def filled : Nat → Device
  | 0 => {}
  | k + 1 => (filled k).devStdinWrite 1

theorem rep_filled {k : Nat} (fits : k ≤ stdinBufsize) : Rep (filled k) (List.replicate k 1) 0 := by
  induction k with
  | zero => exact rep_empty
  | succ k ih =>
    rw [List.replicate_succ']
    refine (ih (by omega)).write (by decide) (by rwa [List.length_replicate]) ?_
    rw [List.length_replicate, Nat.zero_add]
    exact Nat.lt_of_le_of_lt fits (by decide)

theorem Rep.overwrite (h : Rep s queue n) (full : queue.length = stdinBufsize) (some : c ≠ 0) :
    ((s.devStdinWrite c).devStdinRead 1).1 = [c] := by
  have unread : s.rpos < s.wpos := by
    rw [h.rpos, h.wpos, full]
    exact Int.ofNat_lt.mpr (Nat.lt_add_of_pos_right (by decide))
  have cell : s.wpos.tmod stdinBufsize = s.rpos.tmod stdinBufsize := by
    rw [h.rpos, h.wpos, full, ← Int.ofNat_tmod, ← Int.ofNat_tmod, Nat.add_mod_right]
  simp [Device.devStdinWrite, Device.devStdinRead, some, h.unread, full, unread, cell]

/-- A character that comes while the buffer is full takes the place of the first unread one. -/
theorem unread_character_altered : ((filled stdinBufsize).devStdinRead 1).1 = [1] ∧
    (((filled stdinBufsize).devStdinWrite 2).devStdinRead 1).1 = [2] := by
  have h := rep_filled (Nat.le_refl stdinBufsize)
  constructor
  · rw [(h.read 1).1, List.take_replicate]
    rfl
  · exact h.overwrite List.length_replicate (by decide)

end Procore.Fs.Stdin
