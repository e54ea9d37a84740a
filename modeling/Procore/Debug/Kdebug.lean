import Mathlib.Algebra.Group.Nat.Defs
import Mathlib.Logic.Basic

/-! # The search for a debug entry

`stab_binsearch` halves a range of the symbol table, but only the entries of one
type are in the order of their addresses: from the middle it walks down to the
next entry of the type. After an exact match it goes on for the address plus one.
-/

namespace Procore.Debug

structure Stab where
  nType : Nat
  nValue : Nat

structure Region where
  left : Int
  right : Int
  deriving DecidableEq

section

variable (stabs : Int → Stab) (type : Nat)

/-- The loop `while (m >= l && stabs[m].n_type != type) m --`. -/
def scan (l m : Int) : Int := if l ≤ m ∧ (stabs m).nType ≠ type then scan l (m - 1) else m
termination_by (m - l + 1).toNat
decreasing_by omega

theorem scan_spec (l m : Int) : scan stabs type l m ≤ m ∧
    (∀ i, scan stabs type l m < i → i ≤ m → (stabs i).nType ≠ type) ∧
    (l ≤ scan stabs type l m → (stabs (scan stabs type l m)).nType = type) := by
  fun_induction scan stabs type l m with
  | case1 m more ih => grind
  | case2 m stop => grind

theorem half_within {l r : Int} (range : l ≤ r) : l ≤ (l + r).tdiv 2 ∧ (l + r).tdiv 2 ≤ r := by
  rw [Int.tdiv_eq_ediv]
  split <;> grind

/-- The loop over `l` and `r`, with the stored bounds and `any_matches`. -/
def search (l r : Int) (addr : Nat) (g : Region) (anyMatches : Bool) : Region × Bool :=
  if l ≤ r then
    let trueM := (l + r).tdiv 2
    let m := scan stabs type l trueM
    if m < l then search (trueM + 1) r addr g anyMatches
    else if (stabs m).nValue < addr then search (trueM + 1) r addr { g with left := m } true
    else if addr < (stabs m).nValue then search l (m - 1) addr { g with right := m - 1 } true
    else search m r ((addr + 1) % 2 ^ 32) { g with left := m } true
  else (g, anyMatches)
termination_by 2 * (r - l + 1).toNat + if (stabs (scan stabs type l ((l + r).tdiv 2))).nValue = addr then 1 else 0
decreasing_by
  -- After an exact match the same entry may be found again; its address is then not `addr`.
  all_goals
    have within := (scan_spec stabs type l ((l + r).tdiv 2)).1
    have half := half_within (l := l) (r := r)
    grind

def stabBinsearch (g : Region) (addr : Nat) : Region :=
  let (g', anyMatches) := search stabs type g.left g.right addr g false
  if anyMatches then { g' with left := scan stabs type (g'.left + 1) g'.right }
  else { g' with right := g'.left - 1 }

end

/-- What is searched, and for which address. -/
structure Query where
  stabs : Int → Stab
  type : Nat
  range : Region
  addr : Nat

namespace Query

variable (q : Query)

/-- An entry of the type in the range. -/
def Entry (i : Int) : Prop := q.range.left ≤ i ∧ i ≤ q.range.right ∧ (q.stabs i).nType = q.type

def value (i : Int) : Nat := (q.stabs i).nValue

def find : Region := stabBinsearch q.stabs q.type q.range q.addr

/-- The bounds enclose the last entry up to the address, or are crossed if there is none. -/
def Brackets (g : Region) : Prop :=
  (q.Entry g.left ∧ q.value g.left ≤ q.addr ∧ g.left ≤ g.right ∧
    (∀ i, q.Entry i → g.left < i → q.addr < q.value i ∧ g.right < i) ∧
    (g.right = q.range.right ∨ q.Entry (g.right + 1))) ∨
  g.right < g.left ∧ ∀ i, q.Entry i → q.addr < q.value i

/-- What the loop knows of the entries that it has left behind. -/
structure Inv (l r : Int) (addr : Nat) (g : Region) (anyMatches : Bool) : Prop where
  low : q.range.left ≤ l
  high : r ≤ q.range.right
  right : g.right = r
  before : ∀ i, q.Entry i → i < l → i ≤ g.left
  after : ∀ i, q.Entry i → r < i → q.addr < q.value i
  edge : r = q.range.right ∨ anyMatches ∧ q.Entry (r + 1)
  left : anyMatches ∧ q.Entry g.left ∧ q.value g.left ≤ q.addr ∨ g.left = q.range.left ∧ ∀ i, q.Entry i → l ≤ i
  seen : anyMatches → ∃ i, q.Entry i
  addr : ∀ i, q.Entry i → (q.value i < addr → q.value i ≤ q.addr) ∧ (addr < q.value i → q.addr < q.value i) ∧
    (q.value i = addr → addr = q.addr)

variable {q} (increasing : ∀ i j, q.Entry i → q.Entry j → i < j → q.value i < q.value j)
  (apart : ∀ i j, q.Entry i → q.Entry j → q.value i = q.addr → q.value j ≠ q.addr + 1 ∧ q.addr + 1 < 2 ^ 32)
include increasing apart

theorem Inv.search {l r : Int} {addr : Nat} {g : Region} {anyMatches : Bool} (h : q.Inv l r addr g anyMatches) :
    ∃ l' r' addr', r' < l' ∧ q.Inv l' r' addr' (search q.stabs q.type l r addr g anyMatches).1
      (search q.stabs q.type l r addr g anyMatches).2 := by
  fun_induction Debug.search q.stabs q.type l r addr g anyMatches with
  | case1 l r addr g anyMatches within trueM m none ih =>
    obtain ⟨le, skipped, here⟩ := scan_spec q.stabs q.type l trueM
    obtain ⟨above, below⟩ : l ≤ trueM ∧ trueM ≤ r := half_within within
    clear_value trueM
    obtain ⟨low, high, right, before, after, edge, left, seen, exact⟩ := h
    apply ih
    constructor <;> grind [Entry, value]
  | case2 l r addr g anyMatches within trueM m found less ih =>
    obtain ⟨le, skipped, here⟩ := scan_spec q.stabs q.type l trueM
    obtain ⟨above, below⟩ : l ≤ trueM ∧ trueM ≤ r := half_within within
    clear_value trueM
    obtain ⟨low, high, right, before, after, edge, left, seen, exact⟩ := h
    apply ih
    constructor <;> grind [Entry, value]
  | case3 l r addr g anyMatches within trueM m found less more ih =>
    obtain ⟨le, skipped, here⟩ := scan_spec q.stabs q.type l trueM
    obtain ⟨above, below⟩ : l ≤ trueM ∧ trueM ≤ r := half_within within
    clear_value trueM
    obtain ⟨low, high, right, before, after, edge, left, seen, exact⟩ := h
    have entry : q.Entry m := by grind [Entry]
    have beyond : q.addr < q.value m := (exact m entry).2.1 more
    have later := fun j other => increasing m j entry other
    apply ih
    constructor <;> grind [Entry, value]
  | case4 l r addr g anyMatches within trueM m found less more ih =>
    obtain ⟨le, skipped, here⟩ := scan_spec q.stabs q.type l trueM
    obtain ⟨above, below⟩ : l ≤ trueM ∧ trueM ≤ r := half_within within
    clear_value trueM
    obtain ⟨low, high, right, before, after, edge, left, seen, exact⟩ := h
    have entry : q.Entry m := by grind [Entry]
    have same : q.value m = addr := Nat.le_antisymm (Nat.not_lt.mp more) (Nat.not_lt.mp less)
    obtain rfl := (exact m entry).2.2 same
    have next : (q.addr + 1) % 2 ^ 32 = q.addr + 1 := Nat.mod_eq_of_lt (apart m m entry entry same).2
    have later := fun j other => (apart m j entry other same).1
    apply ih
    rw [next]
    constructor <;> grind [Entry, value]
  | case5 l r addr g anyMatches done => exact ⟨l, r, addr, Int.not_le.mp done, h⟩

/-- The search ends as documented, where an exact match has no entry at the next address, exactly if
    the entries of the type, if any, do not all start above the address. -/
theorem brackets_iff : q.Brackets q.find ↔ (∃ i, q.Entry i ∧ q.value i ≤ q.addr) ∨ ∀ i, ¬q.Entry i := by
  have start : q.Inv q.range.left q.range.right q.addr q.range false := by constructor <;> grind [Entry]
  obtain ⟨l, r, addr, done, h⟩ := start.search increasing apart
  rw [find, stabBinsearch]
  generalize Debug.search q.stabs q.type q.range.left q.range.right q.addr q.range false = result at h
  obtain ⟨g, anyMatches⟩ := result
  obtain ⟨low, high, right, before, after, edge, left, seen, exact⟩ := h
  dsimp only at *
  have spec := scan_spec q.stabs q.type (g.left + 1) g.right
  constructor
  · intro brackets
    refine or_iff_not_imp_left.mpr fun above i entry => ?_
    have matched : anyMatches = true := by grind [Entry]
    rw [if_pos matched] at brackets
    grind [Brackets]
  · rintro (⟨i, entry, below⟩ | empty)
    · have stays : scan q.stabs q.type (g.left + 1) g.right = g.left := by grind [Entry]
      rw [if_pos (by grind), stays]
      exact .inl (by grind)
    · rw [if_neg (by grind)]
      exact .inr ⟨Int.sub_lt_self g.left Int.one_pos, fun i entry => absurd entry (empty i)⟩

omit increasing apart

def nFun : Nat := 0x24

def nSline : Nat := 0x44

/-- Three functions of some size from address 10 on, each with a line entry behind it. -/
def functions (size addr : Nat) : Query :=
  ⟨fun i => ⟨if i % 2 = 0 then nFun else nSline, 10 + size * (i.toNat / 2)⟩, nFun, ⟨0, 5⟩, addr⟩

theorem brackets_iff_functions : (functions 16 26).find = ⟨2, 3⟩ ∧ (functions 16 26).Brackets ⟨2, 3⟩ := by
  have found : (functions 16 26).find = ⟨2, 3⟩ := by decide +kernel
  refine ⟨found, found ▸ (brackets_iff ?_ ?_).mpr (.inl ⟨2, ?_⟩)⟩ <;>
    grind [Entry, value, functions, nFun, nSline]

/-- The search for the second of three functions of one byte finds the third, and below all of them
    the bounds are not crossed. -/
theorem next_address_found : (functions 1 11).find = ⟨4, 5⟩ ∧ ¬(functions 1 11).Brackets ⟨4, 5⟩ ∧
    (functions 16 5).find = ⟨-1, -1⟩ ∧ ¬(functions 16 5).Brackets ⟨-1, -1⟩ := by
  refine ⟨by decide +kernel, ?_, by decide +kernel, ?_⟩ <;>
    simp [Brackets, Entry, value, functions]

end Query

end Procore.Debug
