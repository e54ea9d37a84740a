import Procore.Process.LoadResidue

/-! # The arguments of a new program

`copy_kargv` copies the arguments from the memory of the caller, and `load_icode`
puts them on the stack of the new program: their number, the pointers, and the
strings behind them.
-/

namespace Procore.Process

open Procore.Lib Procore.Mm Nat Option List

section Copy

variable (user : Nat → UInt8) (check : Nat → Nat → Bool)

def userBytes (src n : Nat) : List UInt8 := (range n).map fun k => user (src + k)

def strnlen (src : Nat) : Nat → Nat
  | 0 => 0
  | n + 1 => if user src = 0 then 0 else strnlen (src + 1) n + 1

/-- The loop of `copy_string`, with `user_mem_check` for reading. No piece is empty. -/
def copyPieces (src maxn : Nat) (part : { part : Nat // 0 < part }) : Option (List UInt8) :=
  let n := min part.1 maxn
  if check src n = false then none
  else if strnlen user src n < n then some (userBytes user src (strnlen user src n + 1))
  else if n = maxn then none
  else do
    let rest ← copyPieces (src + n) (maxn - n) ⟨pgsize, by decide⟩
    some (userBytes user src n ++ rest)
termination_by maxn
decreasing_by
  have := part.2
  omega

theorem first_piece_pos (src : Nat) : 0 < roundDown (src + pgsize) - src := by
  simp only [roundDown, pgsize]
  omega

def copyString (src maxn : Nat) : Option (List UInt8) :=
  copyPieces user check src maxn ⟨roundDown (src + pgsize) - src, first_piece_pos src⟩

/-- The loop of `copy_kargv`; `mem` says whether `kmalloc` succeeds. -/
def copyArgs (mem : Nat → Bool) (argv : Nat) : Nat → Nat → Option (List (List UInt8))
  | 0, _ => some []
  | n + 1, i =>
    if mem i then do
      let buffer ← copyString user check (field (userBytes user (argv + 4 * i) 4) 0 4) (execMaxArgLen + 1)
      let buffers ← copyArgs mem argv n (i + 1)
      some (buffer :: buffers)
    else none

def copyKargv (mem : Nat → Bool) (argv argc : Nat) : Option (List (List UInt8)) :=
  if check argv (4 * argc) then copyArgs user check mem argv argc 0 else none

variable {user} {check} {src maxn n : Nat}

/-- A string of length `n` begins at `src`. -/
def StringAt (user : Nat → UInt8) (src n : Nat) : Prop := user (src + n) = 0 ∧ ∀ k, k < n → user (src + k) ≠ 0

theorem StringAt.unique {m : Nat} (first : StringAt user src n) (second : StringAt user src m) : n = m := by
  rcases lt_trichotomy n m with lt | eq | gt
  · exact absurd first.1 (second.2 n lt)
  · exact eq
  · exact absurd second.1 (first.2 m gt)

theorem strnlen_spec (user : Nat → UInt8) (src n : Nat) : (∀ k, k < strnlen user src n → user (src + k) ≠ 0) ∧
    strnlen user src n ≤ n ∧ (strnlen user src n < n → user (src + strnlen user src n) = 0) := by
  induction n generalizing src with
  | zero => simp [strnlen]
  | succ n ih =>
    rw [strnlen]
    split_ifs with zero
    · simpa using zero
    obtain ⟨before, bound, ends⟩ := ih (src + 1)
    refine ⟨fun k inside => ?_, by omega, fun lt => ?_⟩
    · cases k with
      | zero => exact zero
      | succ k => exact add_right_comm src k 1 ▸ before k (by omega)
    · exact add_right_comm src _ 1 ▸ ends (by omega)

theorem userBytes_append (user : Nat → UInt8) (src m n : Nat) :
    userBytes user src m ++ userBytes user (src + m) n = userBytes user src (m + n) := by
  simp [userBytes, range_add, add_assoc]

/-- What is copied is a string with its terminator. -/
theorem copyPieces_spec {part : { part : Nat // 0 < part }} {out : List UInt8}
    (copied : copyPieces user check src maxn part = some out) :
    ∃ n, StringAt user src n ∧ out = userBytes user src (n + 1) := by
  induction maxn using Nat.strongRecOn generalizing src part out with
  | ind maxn ih =>
  obtain ⟨before, bound, ends⟩ := strnlen_spec user src (min part.1 maxn)
  rw [copyPieces] at copied
  split_ifs at copied with refused short all
  · exact ⟨_, ⟨ends short, before⟩, (some.inj copied).symm⟩
  obtain ⟨rest, later, joined⟩ := bind_eq_some_iff.mp copied
  obtain ⟨n, ⟨zero, nonzero⟩, rfl⟩ := ih _ (by omega) later
  have full : strnlen user src (min part.1 maxn) = min part.1 maxn := by omega
  rw [full] at before
  refine ⟨min part.1 maxn + n, ⟨by rwa [← add_assoc], fun k lt => ?_⟩, ?_⟩
  · by_cases first : k < min part.1 maxn
    · exact before k first
    · have := nonzero (k - min part.1 maxn) (by omega)
      rwa [Nat.add_assoc, Nat.add_sub_cancel' (by omega)] at this
  · rw [← some.inj joined, userBytes_append, add_assoc]

theorem stringAt_of_bytes (arg : CStr) (there : userBytes user src (arg.length + 1) = arg.bytes ++ [0]) :
    StringAt user src arg.length := by
  have cell (k : Nat) (bound : k < arg.length + 1) : (arg.bytes ++ [0])[k]? = some (user (src + k)) := by
    rw [← there]
    simp [userBytes, bound]
  refine ⟨?_, fun k inside zero => arg.terminated ?_⟩
  · have := cell arg.length (lt_succ_self _)
    simpa [CStr.length] using this.symm
  · have := cell k (lt_succ_of_lt inside)
    rw [getElem?_append_left inside, zero] at this
    exact mem_of_getElem? this

/-- The strings of the caller are copied. -/
theorem copyArgs_spec {mem : Nat → Bool} {argv i : Nat} {args : List KArg} {out : List (List UInt8)}
    (strings : ∀ j arg, args[j]? = some arg →
      userBytes user (field (userBytes user (argv + 4 * (i + j)) 4) 0 4) (arg.val.length + 1) = arg.val.bytes ++ [0])
    (copied : copyArgs user check mem argv args.length i = some out) :
    out = args.map fun arg => arg.val.bytes ++ [0] := by
  induction args generalizing i out with
  | nil => exact (some.inj copied).symm
  | cons arg args ih =>
    rw [length_cons, copyArgs] at copied
    split_ifs at copied with memory
    obtain ⟨buffer, first, joined⟩ := bind_eq_some_iff.mp copied
    obtain ⟨buffers, later, joined⟩ := bind_eq_some_iff.mp joined
    have own : userBytes user (field (userBytes user (argv + 4 * i) 4) 0 4) _ = _ := strings 0 arg rfl
    obtain ⟨n, string, rfl⟩ := copyPieces_spec first
    obtain rfl := string.unique (stringAt_of_bytes arg.val own)
    have rest := ih (fun j x found => by
      have := strings (j + 1) x found
      rwa [add_comm j 1, ← add_assoc] at this) later
    rw [← some.inj joined, rest, own, map_cons]

end Copy

/-- The bytes that the program sees from `addr` on. -/
def Loader.Shows {σ : Type} (t : Loader σ UInt8) (addr : Nat) (bytes : List UInt8) : Prop :=
  ∀ k b, bytes[k]? = some b → t.sees (addr + k) = some b

theorem Loader.Has.shows {σ : Type} {u : Loader σ (Option UInt8)} {addr : Nat} {bytes : List UInt8}
    (has : u.Has addr bytes) (prior : Nat → UInt8) : (u.fill prior).Shows addr bytes := by
  intro k b found
  obtain ⟨mapped, cell⟩ := has k b found
  rw [Loader.sees, Loader.fill]
  simp [mapped, cell]

def argAt (args : List KArg) (j : Nat) : Nat := stackTop args + argvSize (args.take j)

theorem argvSize_take (args : List KArg) {j : Nat} {arg : KArg} (found : args[j]? = some arg) :
    argvSize (args.take j) + (arg.val.length + 1) = argvSize (args.take (j + 1)) := by
  rw [take_add_one, found]
  simp [argvSize]

theorem argvSize_take_le (args : List KArg) {j k : Nat} (le : j ≤ k) :
    argvSize (args.take j) ≤ argvSize (args.take k) := by
  obtain ⟨n, rfl⟩ := Nat.exists_eq_add_of_le le
  rw [take_add]
  simp [argvSize]

variable {σ ε η : Type}

/-- A program begins with the number of its arguments at its stack pointer, the pointers and the
    strings, one behind the other in the area of its stack. -/
theorem exec_leaves_arguments {user : Nat → UInt8} {check : Nat → Nat → Bool} {kmem : Nat → Bool} {argv : Nat}
    {args : List KArg} {buffers : List (List UInt8)} (rd : Reader σ ε η) (files : σ) (free : Nat)
    (mem : List Bool) (prior : Nat → UInt8) {tf : Trapframe} {t : Loader σ UInt8}
    (strings : ∀ j arg, args[j]? = some arg →
      userBytes user (field (userBytes user (argv + 4 * j) 4) 0 4) (arg.val.length + 1) = arg.val.bytes ++ [0])
    (copied : copyKargv user check kmem argv args.length = some buffers)
    (run : load rd args files free mem prior = .done tf t) :
    buffers = args.map (fun arg => arg.val.bytes ++ [0]) ∧
    (∃ v ∈ t.vmas.mmapList, v.start = ustackTop - ustackSize ∧ v.stop = ustackTop) ∧
    ustackTop - ustackSize ≤ tf.tfEsp ∧ tf.tfEsp + 4 = uargv args ∧
    t.Shows tf.tfEsp (le 4 args.length) ∧
    ∀ j arg, args[j]? = some arg → t.Shows (uargv args + 4 * j) (le 4 (argAt args j)) ∧
      t.Shows (argAt args j) (arg.val.bytes ++ [0]) ∧ uargv args + 4 * args.length ≤ argAt args j ∧
      argAt args j + (arg.val.length + 1) ≤ ustackTop ∧
      ∀ k, j < k → argAt args j + (arg.val.length + 1) ≤ argAt args k := by
  have ensured := loadIcode_returns (P := fun _ _ _ => True) (fun _ => gives_any rd _) args files free mem
  obtain ⟨u, shadow, rfl⟩ := load_done rd args files free mem run
  obtain ⟨-, -, -, -, few, area, arguments, esp, argc⟩ := ensured.done shadow
  have size := argvSize_le args
  have ⟨low, words, pointers, high⟩ : ustackTop - ustackSize ≤ tf.tfEsp ∧
      tf.tfEsp + 4 = uargv args ∧ uargv args + 4 * args.length = stackTop args ∧
      stackTop args + argvSize args ≤ ustackTop := by
    simp only [uargv, stackTop, ustackSize, ustackTop, userTop, execMaxArgNum, execMaxArgLen, pgsize] at *
    omega
  refine ⟨?_, area, low, words, argc.shows prior, fun j arg found => ?_⟩
  · rw [copyKargv] at copied
    split_ifs at copied
    exact copyArgs_spec (by simpa using strings) copied
  · obtain ⟨string, pointer⟩ := arguments j arg found
    have next := argvSize_take args found
    have last := argvSize_take_le args (j := j + 1) (List.getElem?_eq_some_iff.mp found).1
    rw [take_length] at last
    refine ⟨pointer.shows prior, string.shows prior, ?_, ?_, fun k lt => ?_⟩
    · rw [argAt]
      omega
    · rw [argAt]
      omega
    · have := argvSize_take_le args (j := j + 1) lt
      rw [argAt, argAt]
      omega

/-- A caller with one argument, "a", at 0x200008. -/
def callerMemory (a : Nat) : UInt8 :=
  if a = 0x200000 then 8 else if a = 0x200002 then 0x20 else if a = 0x200008 then 97 else 0

theorem exec_leaves_arguments_one : ∃ t,
    load (.ofImage smallImage) oneArg () 10 [] (fun _ => 0) = .done ⟨0x800020, ustackTop - 12⟩ t ∧
    t.Shows (ustackTop - 12) (le 4 1) ∧ t.Shows (ustackTop - 8) (le 4 (ustackTop - 4)) ∧
    t.Shows (ustackTop - 4) [97, 0] := by
  have ends : (load (.ofImage smallImage) oneArg () 10 [] fun _ => 0).ends
      (fun tf _ => tf = ⟨0x800020, ustackTop - 12⟩) = true := by decide +kernel
  obtain ⟨tf, t, run, same⟩ := Outcome.ends_iff.mp ends
  obtain rfl := of_decide_eq_true same
  have strings (j : Nat) (arg : KArg) (found : oneArg[j]? = some arg) :
      userBytes callerMemory (field (userBytes callerMemory (0x200000 + 4 * j) 4) 0 4) (arg.val.length + 1) =
        arg.val.bytes ++ [0] := by
    cases j with
    | zero =>
      obtain rfl := some.inj found
      decide
    | succ j => cases found
  have copied : copyKargv callerMemory (fun _ _ => true) (fun _ => true) 0x200000 1 = some [[97, 0]] := by
    decide +kernel
  obtain ⟨-, -, -, -, argc, arguments⟩ := exec_leaves_arguments _ _ _ _ _ strings copied run
  exact ⟨t, run, argc, (arguments 0 _ rfl).1, (arguments 0 _ rfl).2.1⟩

end Procore.Process
