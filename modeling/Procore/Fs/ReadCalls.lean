import Procore.Fs.Pipe
import Procore.Fs.Vfs

/-! # `read` and `readv`

A read takes the bytes from the pipe or the file before it copies them to the
user, piece by piece. What each piece meets is an input: the pipe with what
happens while the reader sleeps, the answer of the file system, and the memory
of the process.
-/

namespace Procore.Fs.ReadCalls

open Procore.Fs.Vfs (iobufSize)

def eNoMem : Int := 4

def fsIovMax : Nat := 16

inductive Wakeup where
  | written (bytes : List UInt8)
  | closed
  | signal

inductive Source where
  /-- The descriptor has been closed. -/
  | gone
  /-- A pipe, or the pipe of a socket pair: the bytes in it and its writers. -/
  | pipe (queue : List UInt8) (writers : Nat) (nonblock : Bool) (wakeups : List Wakeup)
  /-- A file of which `vop_read` can give `size` bytes, and the error that it returns, or 0. -/
  | inode (size error : Nat)

/-- A round of the loop of `sysfile_read`, with `user_mem_check` for writing. -/
structure Round where
  source : Source
  check : Nat → Nat → Bool

/-- `pipe_read`; `none` while the reader sleeps. -/
def pipeRead (len : Nat) (nonblock : Bool) (queue : List UInt8) (writers : Nat) (wakeups : List Wakeup) :
    Option Int :=
  if queue ≠ [] then some (min len queue.length : Nat)
  else if writers = 0 then some 0
  else if nonblock then some (-eBusy)
  else match wakeups with
    | [] => none
    | .written bytes :: wakeups => pipeRead len nonblock bytes writers wakeups
    | .closed :: wakeups => pipeRead len nonblock [] (writers - 1) wakeups
    | .signal :: _ => some (-eIntr)

/-- `file_read`: what it returns, and the bytes that it takes. -/
def fileRead (len : Nat) : Source → Option (Int × Nat)
  | .gone => some (-eInval, 0)
  | .pipe queue writers nonblock wakeups =>
    (pipeRead len nonblock queue writers wakeups).map fun ret =>
      if 0 < ret then (0, ret.toNat) else (ret, 0)
  | .inode size error => some (-error, min size len)

/-- What a call has returned, and the bytes that it has taken. -/
structure Result where
  ret : Int
  taken : Nat
  deriving DecidableEq

/-- The loop of `sysfile_read`: the error, the bytes copied, and the bytes taken. -/
def readLoop (base len copied taken : Nat) : List Round → Option (Nat × Result)
  | [] => if len = 0 then some (copied, ⟨0, taken⟩) else none
  | r :: rs =>
    if len = 0 then some (copied, ⟨0, taken⟩)
    else
      let requested := min len iobufSize
      match fileRead requested r.source with
      | none => none
      | some (ret, alen) =>
        if alen ≠ 0 ∧ r.check base alen = false then
          some (copied, ⟨if ret = 0 then -eInval else ret, taken + alen⟩)
        else if ret ≠ 0 ∨ alen = 0 ∨ alen < requested then some (copied + alen, ⟨ret, taken + alen⟩)
        else readLoop (base + alen) (len - alen) (copied + alen) (taken + alen) rs

/-- A call of `sysfile_read`: `file_testfd`, the memory for the buffer, and the rounds. -/
structure Read where
  base : Nat
  len : Nat
  readable : Bool
  memory : Bool
  rounds : List Round

def Read.sysfileRead (r : Read) : Option Result :=
  if r.len = 0 then some ⟨0, 0⟩
  else if r.readable = false then some ⟨-eInval, 0⟩
  else if r.memory = false then some ⟨-eNoMem, 0⟩
  else (readLoop r.base r.len 0 0 r.rounds).map fun (copied, result) =>
    ⟨if copied ≠ 0 then toInt copied else result.ret, result.taken⟩

def readvLoop (total : Nat) (ret : Int) (taken : Nat) : List Read → Option Result
  | [] => some ⟨if total ≠ 0 then toInt total else ret, taken⟩
  | iov :: iovs =>
    if iov.len = 0 then readvLoop total ret taken iovs
    else match iov.sysfileRead with
      | none => none
      | some r =>
        let total := if 0 < r.ret then (total + r.ret.toNat) % 2 ^ 32 else total
        if r.ret < 0 ∨ r.ret.toNat < iov.len then
          some ⟨if total ≠ 0 then toInt total else r.ret, taken + r.taken⟩
        else readvLoop total r.ret (taken + r.taken) iovs

/-- `sysfile_readv`; `copied` says that the vector can be read and its buffers written. -/
def sysfileReadv (copied : Bool) (iovs : List Read) : Option Result :=
  if fsIovMax < iovs.length ∨ copied = false then some ⟨-eInval, 0⟩ else readvLoop 0 0 0 iovs

/-- Every piece that is read finds memory that it can be copied to. -/
def Copies (base len : Nat) : List Round → Prop
  | [] => True
  | r :: rs => len ≠ 0 → ∀ ret alen, fileRead (min len iobufSize) r.source = some (ret, alen) →
      (alen ≠ 0 → r.check base alen = true) ∧
        (ret = 0 → alen ≠ 0 → min len iobufSize ≤ alen → Copies (base + alen) (len - alen) rs)

/-- The bytes that the rounds of a read of `len` bytes give. -/
def gives (len : Nat) : List Round → Nat
  | [] => 0
  | r :: rs =>
    if len = 0 then 0
    else match fileRead (min len iobufSize) r.source with
      | none => 0
      | some (ret, alen) =>
        alen + if ret = 0 ∧ alen ≠ 0 ∧ min len iobufSize ≤ alen then gives (len - alen) rs else 0

def Read.Copies (r : Read) : Prop :=
  r.readable = true → r.memory = true → ReadCalls.Copies r.base r.len r.rounds

def Read.gives (r : Read) : Nat :=
  if r.readable = true ∧ r.memory = true then ReadCalls.gives r.len r.rounds else 0

/-- The same for the buffers of a vector, up to the one that is not filled. -/
def CopiesAll : List Read → Prop
  | [] => True
  | iov :: iovs => iov.Copies ∧ (iov.gives = iov.len → CopiesAll iovs)

def givesAll : List Read → Nat
  | [] => 0
  | iov :: iovs => iov.gives + if iov.gives = iov.len then givesAll iovs else 0

section

variable {base len copied taken total : Nat} {ret : Int} {result : Result} {rounds : List Round}

theorem pipeRead_le {nonblock : Bool} {queue : List UInt8} {writers : Nat} {wakeups : List Wakeup}
    {value : Int} (answer : pipeRead len nonblock queue writers wakeups = some value) : value ≤ len := by
  fun_induction pipeRead len nonblock queue writers wakeups <;> grind [eBusy, eIntr]

theorem fileRead_le {source : Source} {alen : Nat} (answer : fileRead len source = some (ret, alen)) :
    ret ≤ 0 ∧ alen ≤ len := by
  cases source with
  | gone =>
    simp only [fileRead, eInval, Option.some.injEq, Prod.mk.injEq] at answer
    omega
  | pipe queue writers nonblock wakeups =>
    simp only [fileRead, Option.map_eq_some_iff] at answer
    obtain ⟨value, read, split⟩ := answer
    have := pipeRead_le read
    grind
  | inode size error =>
    simp only [fileRead, Option.some.injEq, Prod.mk.injEq] at answer
    omega

theorem gives_le (len : Nat) (rounds : List Round) : gives len rounds ≤ len := by
  fun_induction gives len rounds with
  | case1 | case2 | case3 => omega
  | case4 len r rs more ret alen answer ih =>
    have fits := (fileRead_le answer).2
    grind

/-- What is copied has been taken, and it is all of it if every piece can be copied. -/
theorem readLoop_spec {all : Nat} (done : readLoop base len copied taken rounds = some (all, result)) :
    result.ret ≤ 0 ∧ all + taken ≤ result.taken + copied ∧
      (all + taken = result.taken + copied ↔ Copies base len rounds) ∧
      (Copies base len rounds → result.taken = taken + gives len rounds) := by
  induction rounds generalizing base len copied taken with
  | nil =>
    simp only [readLoop] at done
    grind [Copies, gives]
  | cons r rs ih =>
    rw [readLoop] at done
    split at done
    case isTrue empty => grind [Copies, gives]
    case isFalse more =>
    cases answer : fileRead (min len iobufSize) r.source with
    | none => simp [answer] at done
    | some x =>
    obtain ⟨ret, alen⟩ := x
    obtain ⟨nonpos, fits⟩ := fileRead_le answer
    simp only [answer] at done
    have copies : Copies base len (r :: rs) ↔ (alen ≠ 0 → r.check base alen = true) ∧
        (ret = 0 → alen ≠ 0 → min len iobufSize ≤ alen → Copies (base + alen) (len - alen) rs) := by
      simp [Copies, more, answer]
    have given : gives len (r :: rs) = alen +
        if ret = 0 ∧ alen ≠ 0 ∧ min len iobufSize ≤ alen then gives (len - alen) rs else 0 := by
      simp [gives, more, answer]
    split at done
    case isTrue failed => grind [eInval]
    case isFalse ok =>
    split at done
    case isTrue short => grind
    case isFalse full =>
      grind

theorem toInt_lt (n : Nat) : toInt n < 2 ^ 31 := by
  have := Int.bmod_lt (x := n) (m := 2 ^ 32) (by decide)
  unfold toInt
  omega

theorem toInt_toNat_le (n : Nat) : (toInt n).toNat ≤ n := by
  by_cases small : n < 2 ^ 31
  · rw [toInt_of_lt small, Int.toNat_natCast]
  · have := toInt_lt n
    omega

/-- The count that is returned is the count of the bytes that were taken. -/
theorem returned_iff (part : total ≤ taken) (bound : ret < 2 ^ 31)
    (error : taken < 2 ^ 31 → total = 0 → ret ≤ 0) :
    taken = (if total ≠ 0 then toInt total else ret).toNat ↔ taken < 2 ^ 31 ∧ total = taken := by
  have high := toInt_lt total
  by_cases small : taken < 2 ^ 31
  · have exact := toInt_of_lt (part.trans_lt small)
    grind
  · grind

theorem Read.gives_le (r : Read) : r.gives ≤ r.len := by
  rw [Read.gives]
  split
  · exact ReadCalls.gives_le r.len r.rounds
  · exact Nat.zero_le _

/-- A read returns the count of the bytes that it takes if they can all be copied. -/
theorem sysfileRead_spec {r : Read} (done : r.sysfileRead = some result) :
    result.ret < 2 ^ 31 ∧ result.ret.toNat ≤ result.taken ∧ (r.Copies → result.taken = r.gives) ∧
      (result.taken = result.ret.toNat ↔ r.gives < 2 ^ 31 ∧ r.Copies) := by
  rw [Read.sysfileRead] at done
  split at done
  case isTrue empty =>
    obtain rfl := Option.some.inj done
    cases rounds : r.rounds <;> simp [Read.Copies, Copies, Read.gives, gives, empty, rounds]
  case isFalse =>
  split at done
  case isTrue denied =>
    obtain rfl := Option.some.inj done
    simp [Read.Copies, Read.gives, denied, eInval]
  case isFalse readable =>
  split at done
  case isTrue full =>
    obtain rfl := Option.some.inj done
    simp [Read.Copies, Read.gives, full, eNoMem]
  case isFalse memory =>
    obtain ⟨⟨all, last⟩, looped, rfl⟩ := Option.map_eq_some_iff.mp done
    obtain ⟨nonpos, part, exact, given⟩ := readLoop_spec looped
    have returned := returned_iff part (nonpos.trans_lt (by decide)) fun _ _ => nonpos
    have copies : r.Copies ↔ Copies r.base r.len r.rounds := by
      simp [Read.Copies, Bool.of_not_eq_false readable, Bool.of_not_eq_false memory]
    have gives : r.gives = ReadCalls.gives r.len r.rounds := by
      simp [Read.gives, Bool.of_not_eq_false readable, Bool.of_not_eq_false memory]
    refine ⟨?_, ?_, ?_, ?_⟩
    · have := toInt_lt all
      grind
    · change (if all ≠ 0 then toInt all else last.ret).toNat ≤ last.taken
      split_ifs
      · exact (toInt_toNat_le all).trans part
      · exact (Int.toNat_of_nonpos nonpos).trans_le (Nat.zero_le _)
    · grind
    · grind

/-- The same for a vector, of which `taken` bytes have come and `total` are counted. -/
theorem readvLoop_spec {iovs : List Read} (part : total ≤ taken) (bound : ret < 2 ^ 31)
    (error : taken < 2 ^ 31 → total = 0 → ret ≤ 0) (done : readvLoop total ret taken iovs = some result) :
    taken ≤ result.taken ∧
      (result.taken = result.ret.toNat ↔
        taken + givesAll iovs < 2 ^ 31 ∧ total = taken ∧ CopiesAll iovs) := by
  induction iovs generalizing total ret taken with
  | nil =>
    obtain rfl := Option.some.inj done
    simpa [CopiesAll, givesAll] using returned_iff part bound error
  | cons iov iovs ih =>
    rw [readvLoop] at done
    split at done
    case isTrue empty =>
      have read : iov.sysfileRead = some ⟨0, 0⟩ := by rw [Read.sysfileRead, if_pos empty]
      obtain ⟨-, -, given, exact⟩ := sysfileRead_spec read
      have copies := (exact.mp rfl).2
      simpa [CopiesAll, givesAll, copies, ← given copies, empty] using ih part bound error done
    case isFalse more =>
    cases read : iov.sysfileRead with
    | none => simp [read] at done
    | some r =>
    obtain ⟨high, low, given, exact⟩ := sysfileRead_spec read
    have most := iov.gives_le
    simp only [read] at done
    simp only [CopiesAll, givesAll]
    generalize counted : (if 0 < r.ret then (total + r.ret.toNat) % 2 ^ 32 else total) = total' at done
    have part' : total' ≤ taken + r.taken := by grind
    have error' (small : taken + r.taken < 2 ^ 31) (zero : total' = 0) : r.ret ≤ 0 := by grind
    split at done
    case isTrue last =>
      have := returned_iff part' high error'
      grind
    case isFalse full =>
      grind

/-- A call takes as many bytes as it returns, unless a piece cannot be copied or the count is no `int`. -/
theorem reads_account (r : Read) (copied : Bool) (iovs : List Read) (result : Result) :
    (r.sysfileRead = some result →
      (result.taken = result.ret.toNat ↔ r.gives < 2 ^ 31 ∧ r.Copies)) ∧
    (sysfileReadv copied iovs = some result →
      (result.taken = result.ret.toNat ↔
        (iovs.length ≤ fsIovMax → copied = true → givesAll iovs < 2 ^ 31 ∧ CopiesAll iovs))) := by
  refine ⟨fun done => (sysfileRead_spec done).2.2.2, fun done => ?_⟩
  rw [sysfileReadv] at done
  split at done
  case isTrue refused =>
    obtain rfl := Option.some.inj done
    simp only [eInval]
    grind
  case isFalse checked =>
    have looped := (readvLoop_spec (le_rfl) (by decide) (fun _ _ => Int.le_refl 0) done).2
    grind

/-- A read of one byte from a pipe, to memory that can be written or not. -/
def readOne (writable : Bool) : Read :=
  ⟨0x200000, 1, true, true, [⟨.pipe [7] 1 false [], fun _ _ => writable⟩]⟩

/-- A read of 4097 bytes of a file, in two pieces. -/
def readTwice : Read :=
  ⟨0x200000, 4097, true, true, [⟨.inode 4096 0, fun _ _ => true⟩, ⟨.inode 1 0, fun _ _ => true⟩]⟩

theorem reads_account_readTwice : readTwice.sysfileRead = some ⟨4097, 4097⟩ ∧ readTwice.Copies ∧
    sysfileReadv true [readTwice, readTwice] = some ⟨8194, 8194⟩ ∧ CopiesAll [readTwice, readTwice] := by
  have read : readTwice.sysfileRead = some ⟨4097, 4097⟩ := by decide +kernel
  have readv : sysfileReadv true [readTwice, readTwice] = some ⟨8194, 8194⟩ := by decide +kernel
  obtain ⟨one, -⟩ := reads_account readTwice true [] ⟨4097, 4097⟩
  obtain ⟨-, all⟩ := reads_account readTwice true [readTwice, readTwice] ⟨8194, 8194⟩
  exact ⟨read, ((one read).mp (by decide)).2, readv, ((all readv).mp (by decide) (by decide) rfl).2⟩

/-- The byte is gone, and the caller has an error. -/
theorem read_loses_byte : (readOne false).sysfileRead = some ⟨-eInval, 1⟩ := rfl

/-! ## Waiting after bytes have come -/

/-- A blocking read of the source goes to sleep. -/
def Source.sleeps : Source → Bool
  | .pipe queue writers nonblock _ => queue = [] ∧ writers ≠ 0 ∧ nonblock = false
  | _ => false

/-- The rounds of `readLoop`: one of them goes to sleep after bytes have come. -/
def sleepsLoop (base len taken : Nat) : List Round → Bool
  | [] => false
  | r :: rs =>
    if len = 0 then false
    else
      let requested := min len iobufSize
      (r.source.sleeps && taken != 0) || match fileRead requested r.source with
        | none => false
        | some (ret, alen) =>
          if alen ≠ 0 ∧ r.check base alen = false ∨ ret ≠ 0 ∨ alen = 0 ∨ alen < requested then false
          else sleepsLoop (base + alen) (len - alen) (taken + alen) rs

def Read.sleepsLate (r : Read) (taken : Nat) : Bool :=
  r.readable && r.memory && sleepsLoop r.base r.len taken r.rounds

/-- The same for the buffers of `readvLoop`. -/
def readvSleepsLate (taken : Nat) : List Read → Bool
  | [] => false
  | iov :: iovs =>
    if iov.len = 0 then readvSleepsLate taken iovs
    else iov.sleepsLate taken || match iov.sysfileRead with
      | none => false
      | some r =>
        if r.ret < 0 ∨ r.ret.toNat < iov.len then false else readvSleepsLate (taken + r.taken) iovs

theorem Read.len_of_sleepsLate {r : Read} (sleeps : r.sleepsLate taken = true) :
    taken ≠ 0 ∨ iobufSize < r.len := by
  obtain ⟨base, len, readable, memory, rounds⟩ := r
  simp only [Read.sleepsLate, Bool.and_eq_true] at sleeps
  cases rounds with
  | nil => simp [sleepsLoop] at sleeps
  | cons r rs =>
    by_contra! fits
    obtain ⟨rfl, fits⟩ := fits
    rw [sleepsLoop, Nat.min_eq_left fits] at sleeps
    split at sleeps
    case isTrue => simp at sleeps
    case isFalse =>
    simp only [bne_self_eq_false] at sleeps
    split at sleeps
    case h_1 => simp at sleeps
    case h_2 ret alen answer =>
    split at sleeps
    case isTrue => simp at sleeps
    case isFalse full =>
      -- The first piece has filled the buffer.
      have filled : len - alen = 0 := by omega
      rw [filled] at sleeps
      cases rs <;> simp [sleepsLoop] at sleeps

/-- A read of `len` bytes from a pipe that holds so many bytes at each round. -/
def pipeReads (len : Nat) (counts : List Nat) : Read :=
  ⟨0x200000, len, true, true, counts.map fun n => ⟨.pipe (List.replicate n 0) 1 false [], fun _ _ => true⟩⟩

@[simp] theorem len_pipeReads (counts : List Nat) : (pipeReads len counts).len = len := rfl

theorem fileRead_pipe (some : len ≠ 0) :
    fileRead len (.pipe (List.replicate len 0) 1 false []) = .some (0, len) := by
  simp [fileRead, pipeRead, some]

theorem sleepsLate_pipeReads (some : len ≠ 0) (got : taken ≠ 0) :
    (pipeReads len [0]).sleepsLate taken = true := by
  simp [Read.sleepsLate, pipeReads, sleepsLoop, Source.sleeps, some, got]

theorem sleepsLate_pipeReads_long (long : iobufSize < len) :
    (pipeReads len [iobufSize, 0]).sleepsLate taken = true := by
  have piece : iobufSize ≠ 0 := by decide
  have rest : len - iobufSize ≠ 0 := by omega
  have some : len ≠ 0 := by omega
  simp [Read.sleepsLate, pipeReads, sleepsLoop, Source.sleeps, Nat.min_eq_right long.le, fileRead_pipe, piece,
    rest, some]

theorem sysfileRead_pipeReads (some : len ≠ 0) (fits : len ≤ iobufSize) :
    (pipeReads len [len]).sysfileRead = .some ⟨len, len⟩ := by
  have small : toInt len = len := toInt_of_lt (fits.trans_lt (by decide))
  simp [Read.sysfileRead, pipeReads, readLoop, Nat.min_eq_left fits, fileRead_pipe, some, small]

/-- The lengths of a vector for which a call may sleep after `taken` bytes and more. -/
theorem readvSleepsLate_iff (lens : List Nat) (taken : Nat) :
    (∃ iovs, iovs.map Read.len = lens ∧ readvSleepsLate taken iovs = true) ↔
      1 < (if taken = 0 then 0 else 1) + lens.countP (· ≠ 0) ∨ ∃ len ∈ lens, iobufSize < len := by
  induction lens generalizing taken with
  | nil =>
    refine iff_of_false ?_ (by split_ifs <;> simp)
    rintro ⟨iovs, none, sleeps⟩
    rw [List.map_eq_nil_iff.mp none] at sleeps
    simp [readvSleepsLate] at sleeps
  | cons len lens ih =>
    simp only [List.exists_mem_cons_iff]
    constructor
    · rintro ⟨_ | ⟨iov, iovs⟩, lens', sleeps⟩
      · simp at lens'
      obtain ⟨rfl, rfl⟩ := List.cons.inj lens'
      rw [readvSleepsLate] at sleeps
      split at sleeps
      case isTrue empty =>
        have := (ih taken).mp ⟨iovs, rfl, sleeps⟩
        grind
      case isFalse more =>
      obtain now | later := Bool.or_eq_true_iff.mp sleeps
      · have := iov.len_of_sleepsLate now
        grind
      split at later
      case h_1 => simp at later
      case h_2 r _ =>
      split at later
      case isTrue => simp at later
      case isFalse =>
        have := (ih (taken + r.taken)).mp ⟨iovs, rfl, later⟩
        grind
    · intro may
      obtain ⟨others, map⟩ : ∃ iovs : List Read, iovs.map Read.len = lens :=
        ⟨lens.map (pipeReads · []), by simp [Function.comp_def]⟩
      by_cases empty : len = 0
      · obtain ⟨iovs, rfl, sleeps⟩ := (ih taken).mpr (by grind)
        exact ⟨pipeReads len [] :: iovs, rfl, by simp [readvSleepsLate, empty, sleeps]⟩
      by_cases got : taken = 0
      · by_cases long : iobufSize < len
        · refine ⟨pipeReads len [iobufSize, 0] :: others, congrArg (len :: ·) map, ?_⟩
          simp [readvSleepsLate, empty, sleepsLate_pipeReads_long long]
        · obtain ⟨iovs, rfl, sleeps⟩ := (ih (taken + len)).mpr (by grind)
          refine ⟨pipeReads len [len] :: iovs, rfl, ?_⟩
          simp [readvSleepsLate, empty, sysfileRead_pipeReads empty (Nat.not_lt.mp long), sleeps]
      · refine ⟨pipeReads len [0] :: others, congrArg (len :: ·) map, ?_⟩
        simp [readvSleepsLate, empty, sleepsLate_pipeReads empty got]

/-- A read may sleep after bytes have come only if it is longer than a piece, and a vector only if
two of its buffers are not empty or one of them is longer than a piece. -/
theorem reads_sleep_late_iff (len : Nat) (lens : List Nat) :
    ((∀ r : Read, r.len = len → r.sleepsLate 0 = false) ↔ len ≤ iobufSize) ∧
    ((∀ iovs, iovs.length ≤ fsIovMax → iovs.map Read.len = lens → readvSleepsLate 0 iovs = false) ↔
      fsIovMax < lens.length ∨ lens.countP (· ≠ 0) ≤ 1 ∧ ∀ len ∈ lens, len ≤ iobufSize) := by
  constructor
  · constructor
    · intro never
      by_contra! long
      have sleeps : (pipeReads len [iobufSize, 0]).sleepsLate 0 = true := sleepsLate_pipeReads_long long
      rw [never _ rfl] at sleeps
      contradiction
    · rintro fits r rfl
      by_contra sleeps
      have := r.len_of_sleepsLate (Bool.of_not_eq_false sleeps)
      omega
  · have may := readvSleepsLate_iff lens 0
    constructor
    · intro never
      by_contra! long
      obtain ⟨iovs, rfl, sleeps⟩ := may.mpr (by grind)
      grind
    · rintro short iovs few rfl
      by_contra sleeps
      grind

/-- A pipe with one byte and two buffers for one byte each. -/
theorem readv_sleeps_late : readvSleepsLate 0 [pipeReads 1 [1], pipeReads 1 [0]] = true ∧
    (pipeReads 4097 [4096, 0]).sleepsLate 0 = true := by
  decide +kernel

end

end Procore.Fs.ReadCalls
