import Procore.Fs.Vfs
import Procore.Lib.Bytes
import Mathlib.Data.List.TakeWhile

/-! # Paths in their buffer

The loops of `vfs_lookup` and `vfs_lookup_parent` on the bytes of the path. Both
end a component by a NUL in the buffer; `vfs_lookup` and `get_device` put back
what they overwrite, `vfs_lookup_parent` does not. `Vfs` begins where these loops
end, with the list of the components.
-/

namespace Procore.Fs.PathBuffer

open Procore.Fs.Vfs List
open Procore.Lib (CStr)

variable {ν : Type}

/-- What the lookups ask for. The directories answer `vop_lookup`, and the current directory has a
    file system. -/
structure Space (ν : Type) where
  curdir : Except Errno ν
  bootfs : Except Errno ν
  vfsGetRoot : Name → Except Errno ν
  fsopGetRoot : ν → ν
  vopLookup : ν → Name → Except Errno ν

/-- The end of a call: what it returns, the buffer, and the references. -/
structure Done (ν α : Type) where
  ret : Except Errno α
  buf : Name
  refs : Multiset ν

/-- A call returns with a reference to the node that it stores, and with no other. -/
def Done.Balanced {α : Type} (d : Done ν α) (node : α → ν) (refs : Multiset ν) : Prop :=
  match d.ret with
  | .ok x => d.refs = node x ::ₘ refs
  | .error _ => d.refs = refs

/-- The string at a position of the buffer. -/
def cstr (buf : Name) (path : Nat) : Name := (buf.drop path).takeWhile (· ≠ 0)

/-- `*path == '\0'`; the buffer ends by a NUL. -/
def atEnd (buf : Name) (path : Nat) : Bool := (buf.drop path).headD 0 = 0

def skipSlashes (buf : Name) (path : Nat) : Nat :=
  path + ((buf.drop path).takeWhile (· = slash)).length

def skipName (buf : Name) (path : Nat) : Nat :=
  path + ((buf.drop path).takeWhile fun c => c ≠ 0 ∧ c ≠ slash).length

section Calls

variable [DecidableEq ν] (k : Space ν)

/-- The node where a path begins, and the references with it. -/
def hold (refs : Multiset ν) : Except Errno ν → Except Errno ν × Multiset ν
  | .ok node => (.ok node, node ::ₘ refs)
  | .error e => (.error e, refs)

/-- The root of the file system of the current directory. -/
def curdirRoot (refs : Multiset ν) : Except Errno ν × Multiset ν :=
  match hold refs k.curdir with
  | (.ok node, refs) => (.ok (k.fsopGetRoot node), (k.fsopGetRoot node ::ₘ refs).erase node)
  | (.error e, refs) => (.error e, refs)

/-- `get_device`, with the position of the subpath. -/
def getDevice (path : Name) (refs : Multiset ν) : Done ν ν × Nat :=
  let i := (path.takeWhile fun c => c ≠ 0 ∧ c ≠ colon ∧ c ≠ slash).length
  if path[i]? ≠ some colon ∧ ¬ (path[i]? = some slash ∧ i = 0) then
    let (ret, refs) := hold refs k.curdir
    (⟨ret, path, refs⟩, 0)
  else if path[i]? = some colon ∧ 0 < i then
    let cut := path.set i 0
    let (ret, refs) := hold refs (k.vfsGetRoot (cstr cut 0))
    (⟨ret, cut.set i colon, refs⟩, skipSlashes cut (i + 1))
  else
    let (ret, refs) := if path.head? = some slash then hold refs k.bootfs else curdirRoot k refs
    (⟨ret, path, refs⟩, skipSlashes path 1)

def lookupLoop : Nat → Name → Nat → ν → Multiset ν → Done ν ν
  | 0, buf, _, node, refs => ⟨.ok node, buf, refs⟩
  | fuel + 1, buf, path, node, refs =>
    let component := skipSlashes buf path
    if atEnd buf component then ⟨.ok node, buf, refs⟩
    else
      let path := skipName buf component
      if fsMaxFnameLen < path - component then ⟨.error .tooBig, buf, refs.erase node⟩
      else if atEnd buf path then
        match k.vopLookup node (cstr buf component) with
        | .error e => ⟨.error e, buf, refs.erase node⟩
        | .ok next => lookupLoop fuel buf path next ((next ::ₘ refs).erase node)
      else
        let cut := buf.set path 0
        let buf := cut.set path slash
        match k.vopLookup node (cstr cut component) with
        | .error e => ⟨.error e, buf, refs.erase node⟩
        | .ok next => lookupLoop fuel buf (path + 1) next ((next ::ₘ refs).erase node)

/-- The loop of `vfs_lookup_parent`, with the position of the last component. -/
def parentLoop : Nat → Name → Nat → ν → Multiset ν → Done ν (ν × Nat)
  | 0, buf, path, node, refs => ⟨.ok (node, path), buf, refs⟩
  | fuel + 1, buf, component, node, refs =>
    let stop := skipName buf component
    -- tested at the end of the path and behind a separator, before anything else
    if fsMaxFnameLen < stop - component then ⟨.error .tooBig, buf, refs.erase node⟩
    else if atEnd buf stop then ⟨.ok (node, component), buf, refs⟩
    else
      let nextComponent := skipSlashes buf stop
      let buf := buf.set stop 0
      if atEnd buf nextComponent then ⟨.ok (node, component), buf, refs⟩
      else
        match k.vopLookup node (cstr buf component) with
        | .error e => ⟨.error e, buf, refs.erase node⟩
        | .ok next => parentLoop fuel buf nextComponent next ((next ::ₘ refs).erase node)

def vfsLookup (path : Name) (refs : Multiset ν) : Done ν ν :=
  match getDevice k path refs with
  | (⟨.error e, buf, refs⟩, _) => ⟨.error e, buf, refs⟩
  | (⟨.ok node, buf, refs⟩, sub) => lookupLoop k (buf.length + 1) buf sub node refs

def vfsLookupParent (path : Name) (refs : Multiset ν) : Done ν (ν × Nat) :=
  match getDevice k path refs with
  | (⟨.error e, buf, refs⟩, _) => ⟨.error e, buf, refs⟩
  | (⟨.ok node, buf, refs⟩, sub) =>
    let path := skipSlashes buf sub
    if atEnd buf path then ⟨.error .inval, buf, refs.erase node⟩
    else parentLoop k (buf.length + 1) buf path node refs

end Calls

/-! ## Positions -/

theorem drop_takeWhile (p : UInt8 → Bool) (l : Name) :
    l.drop (l.takeWhile p).length = l.dropWhile p := by
  conv => lhs; arg 2; rw [← takeWhile_append_dropWhile (p := p) (l := l)]
  exact drop_left

theorem skipSlashes_twice (buf : Name) (i : Nat) :
    skipSlashes buf (skipSlashes buf i) = skipSlashes buf i := by
  have rest : buf.drop (skipSlashes buf i) = (buf.drop i).dropWhile (· = slash) := by
    rw [skipSlashes, ← drop_drop, drop_takeWhile]
  rw [skipSlashes, rest]
  have head := head?_dropWhile_not (fun c => decide (c = slash)) (buf.drop i)
  cases found : (buf.drop i).dropWhile (· = slash) with
  | nil => rfl
  | cons c cs =>
    rw [found] at head
    simp [show ¬ c = slash by simpa using head]

theorem set_restore {buf : Name} {i : Nat} {c : UInt8} (here : buf[i]? = some c) :
    (buf.set i 0).set i c = buf := by
  obtain ⟨inside, at_i⟩ := List.getElem?_eq_some_iff.mp here
  rw [set_set, ← at_i, set_getElem_self]

/-- What the scan of a component finds: its name, and the end or a separator behind it. -/
structure Scan (buf : Name) (i : Nat) (w t : Name) : Prop where
  rest : buf.drop i = w ++ t
  stop : skipName buf i = i + w.length
  clean : 0 ∉ w
  ended : t = [] ∨ ∃ t', t = slash :: t'

theorem scan {buf : Name} (clean : 0 ∉ buf) (i : Nat) : ∃ w t, Scan buf i w t := by
  refine ⟨_, _, takeWhile_append_dropWhile.symm, rfl, fun zero => ?_, ?_⟩
  · simpa using mem_takeWhile_imp zero
  have head := head?_dropWhile_not (fun c => decide (c ≠ 0 ∧ c ≠ slash)) (buf.drop i)
  cases found : (buf.drop i).dropWhile fun c => decide (c ≠ 0 ∧ c ≠ slash) with
  | nil => exact .inl rfl
  | cons c cs =>
    rw [found] at head
    have inside : c ∈ buf := mem_of_mem_drop ((dropWhile_sublist _).subset
      (found ▸ mem_cons_self))
    have nonzero : c ≠ 0 := fun zero => clean (zero ▸ inside)
    have separator : c = slash := by simpa [nonzero] using head
    exact .inr ⟨cs, by rw [separator]⟩

namespace Scan

variable {buf w t : Name} {i : Nat}

theorem behind (s : Scan buf i w t) : buf.drop (i + w.length) = t := by
  rw [← drop_drop, s.rest, drop_left]

theorem congr {buf' : Name} (s : Scan buf i w t) (same : buf'.drop i = buf.drop i) :
    Scan buf' i w t :=
  ⟨same.trans s.rest, by rw [skipName, same]; exact s.stop, s.clean, s.ended⟩

theorem nonzero (s : Scan buf i w t) : ∀ c ∈ w, decide (c ≠ 0) = true := by
  intro c inside
  exact decide_eq_true fun zero => s.clean (zero ▸ inside)

theorem cstr_last (s : Scan buf i w []) : cstr buf i = w := by
  rw [cstr, s.rest, append_nil, takeWhile_eq_self_iff]
  exact s.nonzero

theorem cstr_cut (s : Scan buf i w (slash :: t)) : cstr (buf.set (i + w.length) 0) i = w := by
  rw [cstr, drop_set, if_neg (by omega), s.rest, Nat.add_sub_cancel_left,
    set_append_right _ _ (le_rfl), Nat.sub_self, set_cons_zero,
    takeWhile_append_of_pos s.nonzero]
  simp

theorem restore (s : Scan buf i w (slash :: t)) :
    (buf.set (i + w.length) 0).set (i + w.length) slash = buf := by
  have here : buf[i + w.length]? = some slash := by rw [← head?_drop, s.behind]; rfl
  exact set_restore here

/-- The component behind the separators, where a buffer with a NUL is still the same. -/
theorem next {buf' : Name} (s : Scan buf i w (slash :: t)) (same : buf'.drop i = buf.drop i) :
    ∃ j, i < j ∧ skipSlashes buf (i + w.length + 1) = j ∧ skipSlashes buf' (i + w.length) = j ∧
      (buf'.set (i + w.length) 0).drop j = buf.drop j := by
  have behind : buf.drop (i + w.length + 1) = t := by
    rw [← drop_drop, s.behind, drop_one, tail_cons]
  have skipped : skipSlashes buf (i + w.length + 1) = i + (w.length + 1 +
      (t.takeWhile (· = slash)).length) := by
    rw [skipSlashes, behind]
    omega
  refine ⟨_, by omega, skipped, ?_, ?_⟩
  · rw [skipSlashes, (s.congr same).behind, takeWhile_cons_of_pos (by simp), length_cons]
    omega
  · rw [drop_set_of_lt (by omega), ← drop_drop, same, drop_drop]

end Scan

/-! ## Agreement -/

variable [DecidableEq ν]

/-- The two lookups of a path: the buffer is restored, the references are balanced, and the one
    returns what the directory of the other answers for the last component. -/
structure Agree (k : Space ν) (path : Name) (refs : Multiset ν) (l : Done ν ν)
    (p : Done ν (ν × Nat)) : Prop where
  restored : l.buf = path
  lookup : l.Balanced id refs
  parent : p.Balanced Prod.fst refs
  same : ∀ dir component, p.ret = .ok (dir, component) →
    l.ret = k.vopLookup dir (cstr p.buf component)

theorem erase_behind (next node : ν) (refs : Multiset ν) :
    (next ::ₘ node ::ₘ refs).erase node = next ::ₘ refs := by
  rw [Multiset.cons_swap, Multiset.erase_cons_head]

section Loops

variable {k : Space ν} {buf buf' : Name} {path : Nat} {node : ν} {refs : Multiset ν}

theorem lookupLoop_skip (n path : Nat) : lookupLoop k n buf path node refs =
    lookupLoop k n buf (skipSlashes buf path) node refs := by
  cases n with
  | zero => rfl
  | succ n => rw [lookupLoop, lookupLoop, skipSlashes_twice]

theorem lookupLoop_end (n : Nat) (ended : atEnd buf (skipSlashes buf path) = true) :
    lookupLoop k n buf path node refs = ⟨.ok node, buf, refs⟩ := by
  cases n with
  | zero => rfl
  | succ n => rw [lookupLoop, if_pos ended]

omit [DecidableEq ν] in
theorem agree_error (e : Errno) :
    Agree k buf refs ⟨.error e, buf, refs⟩ ⟨.error e, buf', refs⟩ :=
  ⟨rfl, rfl, rfl, fun _ _ returned => by cases returned⟩

omit [DecidableEq ν] in
theorem agree_last {w : Name} (named : cstr buf' path = w) :
    Agree k buf refs
      (match k.vopLookup node w with
        | .error e => ⟨.error e, buf, refs⟩
        | .ok next => ⟨.ok next, buf, next ::ₘ refs⟩)
      ⟨.ok (node, path), buf', node ::ₘ refs⟩ := by
  cases answer : k.vopLookup node w <;>
    exact ⟨rfl, rfl, rfl, fun _ _ returned => by cases returned; rw [named, answer]⟩

theorem loops_agree (n : Nat) (clean : 0 ∉ buf) (same : buf'.drop path = buf.drop path)
    (starts : skipSlashes buf path = path) (more : atEnd buf path = false)
    (fuel : buf.length < path + n) :
    Agree k buf refs (lookupLoop k n buf path node (node ::ₘ refs))
      (parentLoop k n buf' path node (node ::ₘ refs)) := by
  induction n generalizing buf' path node with
  | zero =>
    rw [Nat.add_zero] at fuel
    rw [atEnd, drop_eq_nil_of_le (Nat.le_of_lt fuel)] at more
    contradiction
  | succ n ih =>
    obtain ⟨w, t, s⟩ := scan clean path
    have s' := s.congr same
    simp only [lookupLoop, parentLoop, starts, more, s.stop, s'.stop, Nat.add_sub_cancel_left,
      erase_behind, Multiset.erase_cons_head]
    by_cases long : fsMaxFnameLen < w.length
    · simp only [long]
      exact agree_error _
    simp only [long]
    obtain rfl | ⟨t, rfl⟩ := s.ended
    -- the end of the buffer is behind the component
    · have last : ∀ {b}, Scan b path w [] → atEnd b (path + w.length) = true := fun s => by
        rw [atEnd, s.behind]; rfl
      have ended : atEnd buf (skipSlashes buf (path + w.length)) = true := by
        rw [skipSlashes, s.behind]; exact last s
      simp only [last s, last s', s.cstr_last, lookupLoop_end n ended]
      exact agree_last s'.cstr_last
    -- a separator is behind it, and `vfs_lookup_parent` skips all of them at once
    have separator : ∀ {b}, Scan b path w (slash :: t) → atEnd b (path + w.length) = false :=
      fun s => by rw [atEnd, s.behind]; rfl
    obtain ⟨j, after, next, next', rest⟩ := s.next same
    have parentEnd : atEnd (buf'.set (path + w.length) 0) j = atEnd buf j := by
      rw [atEnd, atEnd, rest]
    simp only [separator s, separator s', next', s.restore, s.cstr_cut, s'.cstr_cut, parentEnd,
      lookupLoop_skip n (path + w.length + 1), next]
    have starts : skipSlashes buf j = j := next ▸ skipSlashes_twice _ _
    cases ended : atEnd buf j with
    | true =>
      simp only [lookupLoop_end n (starts.symm ▸ ended)]
      exact agree_last s'.cstr_cut
    | false =>
      cases k.vopLookup node w with
      | error e => exact agree_error e
      | ok child => exact ih rest starts ended (by omega)

end Loops

omit [DecidableEq ν] in
theorem hold_balanced (buf : Name) (refs : Multiset ν) (ret : Except Errno ν) :
    (Done.mk (hold refs ret).1 buf (hold refs ret).2).Balanced id refs := by
  cases ret <;> rfl

theorem getDevice_spec (k : Space ν) (path : Name) (refs : Multiset ν) :
    (getDevice k path refs).1.buf = path ∧ (getDevice k path refs).1.Balanced id refs := by
  rw [getDevice]
  split
  · exact ⟨rfl, hold_balanced _ _ _⟩
  split
  · rename_i device
    exact ⟨set_restore device.1, hold_balanced _ _ _⟩
  refine ⟨rfl, ?_⟩
  by_cases boot : path.head? = some slash
  · simp only [boot]
    exact hold_balanced _ _ _
  simp only [boot, curdirRoot]
  cases k.curdir with
  | error e => rfl
  | ok node => exact erase_behind _ _ _

/-- However the path is divided by its device and its slashes, both lookups divide it alike. -/
theorem lookups_agree (k : Space ν) (path : CStr) (refs : Multiset ν) :
    Agree k path.bytes refs (vfsLookup k path.bytes refs) (vfsLookupParent k path.bytes refs) := by
  obtain ⟨kept, balanced⟩ := getDevice_spec k path.bytes refs
  rw [vfsLookup, vfsLookupParent]
  generalize getDevice k path.bytes refs = start at kept balanced ⊢
  rcases start with ⟨⟨ret, buf, held⟩, sub⟩
  obtain rfl : buf = path.bytes := kept
  cases ret with
  | error e =>
    obtain rfl : held = refs := balanced
    exact agree_error e
  | ok node =>
    obtain rfl : held = node ::ₘ refs := balanced
    simp only [lookupLoop_skip _ sub, Multiset.erase_cons_head]
    cases more : atEnd path.bytes (skipSlashes path.bytes sub) with
    | true =>
      rw [← lookupLoop_skip, lookupLoop_end _ more]
      exact ⟨rfl, rfl, rfl, fun _ _ returned => by cases returned⟩
    | false => exact loops_agree _ path.terminated rfl (skipSlashes_twice _ _) more (by omega)

end Procore.Fs.PathBuffer
