import Procore.Mm.Slob

/-! # The free list of the SLOB allocator

What cutting a block off, linking a block in and giving pages back do to the list, and to the
set of free units.
-/

namespace Procore.Mm.Slob

open Procore.Lib Memory List
open Function (update update_of_ne update_self)

/-- The list from `arena` on, in the order of the addresses. -/
structure FreeList (mem : Memory) (ring : List Nat) : Prop where
  path : Path mem.next arena ring arena
  entry : arena ∈ ring
  spaced : ring.Pairwise fun a b => a + (mem a).units < b
  positive : ∀ a ∈ ring, 0 < (mem a).units
  head : (mem arena).units = 1

def Covers (mem : Memory) (ring : List Nat) (x : Nat) : Prop :=
  ∃ a ∈ ring, a ≠ arena ∧ a ≤ x ∧ x < a + (mem a).units

namespace FreeList

variable {mem mem' : Memory} {ring pre post : List Nat} {a b c cur prev x : Nat}

section

variable (h : FreeList mem ring)
include h

theorem arena_first : ∃ blocks, ring = arena :: blocks := by
  cases ring with
  | nil => cases h.entry
  | cons a blocks =>
    obtain ⟨rfl, _⟩ := h.path
    exact ⟨blocks, rfl⟩

theorem nodup : ring.Nodup := h.spaced.imp fun less => by omega

theorem around (all : ring = pre ++ cur :: post) :
    (∀ a ∈ pre, a + (mem a).units < cur) ∧ ∀ a ∈ post, cur + (mem cur).units < a := by
  have spaced := h.spaced
  rw [all] at spaced
  obtain ⟨_, back, cross⟩ := pairwise_append.mp spaced
  exact ⟨fun a on => cross a on cur (by simp), (pairwise_cons.mp back).1⟩

theorem gap (on : a ∈ ring) (also : b ∈ ring) (ne : a ≠ b) :
    a + (mem a).units < b ∨ b + (mem b).units < a := by
  obtain ⟨pre, post, all⟩ := append_of_mem on
  obtain ⟨before, after⟩ := h.around all
  rw [all, mem_append, mem_cons] at also
  rcases also with first | rfl | last
  · exact .inr (before b first)
  · exact absurd rfl ne
  · exact .inl (after b last)

theorem covers_self (on : a ∈ ring) (ne : a ≠ arena) : Covers mem ring a := by
  have positive := h.positive a on
  exact ⟨a, on, ne, by omega, by omega⟩

theorem only (on : a ∈ ring) (also : b ∈ ring) (here : a ≤ x ∧ x < a + (mem a).units)
    (there : b ≤ x ∧ x < b + (mem b).units) : a = b := by
  by_contra ne
  rcases h.gap on also ne with less | less <;> omega

theorem succ (on : prev ∈ ring) (step : mem.next prev = c) (ne : c ≠ arena) :
    ∃ pre post, ring = pre ++ prev :: c :: post := by
  obtain ⟨pre, rest, all⟩ := append_of_mem on
  have path := h.path
  rw [all] at path
  cases rest with
  | nil => exact absurd (step.symm.trans path.next_last) ne
  | cons y post =>
    obtain rfl : y = c := path.next_eq.symm.trans step
    exact ⟨pre, post, all⟩

theorem second_ne_arena (all : ring = pre ++ prev :: cur :: post) : cur ≠ arena := by
  have nodup := h.nodup
  obtain ⟨blocks, first⟩ := h.arena_first
  cases pre with
  | nil => grind
  | cons x pre => grind

theorem congr (same : ∀ a ∈ ring, mem' a = mem a) : FreeList mem' ring where
  path := h.path.frame fun a on => by rw [Memory.next, Memory.next, same a on]
  entry := h.entry
  spaced := h.spaced.imp_of_mem fun {a b} on _ less => by rwa [same a on]
  positive a on := by
    rw [same a on]
    exact h.positive a on
  head := by rw [same arena h.entry, h.head]

end

end FreeList

variable {mem : Memory} {ring : List Nat} {mem' : Memory}

theorem covers_congr {x : Nat}
    (same : ∀ a ∈ ring, mem' a = mem a) : Covers mem' ring x ↔ Covers mem ring x := by
  constructor
  · rintro ⟨a, on, ne, low, high⟩
    exact ⟨a, on, ne, low, by rwa [same a on] at high⟩
  · rintro ⟨a, on, ne, low, high⟩
    exact ⟨a, on, ne, low, by rwa [same a on]⟩

theorem covers_append {xs ys : List Nat} {x : Nat} :
    Covers mem (xs ++ ys) x ↔ Covers mem xs x ∨ Covers mem ys x := by
  simp [Covers, or_and_right, exists_or]

variable {pre post : List Nat} {cur : Nat}

/-- The list up to `cur` with another tail. -/
theorem FreeList.rebuild {tail : List Nat}
    (h : FreeList mem ring) (all : ring = pre ++ cur :: post) (front : ∀ a ∈ pre, mem' a = mem a)
    (onward : Path mem'.next (mem'.next cur) tail arena) (some : 0 < (mem' cur).units)
    (head : cur = arena → (mem' cur).units = 1) (behind : ∀ a ∈ tail, cur + (mem' cur).units < a)
    (spaced : tail.Pairwise fun a b => a + (mem' a).units < b) (positive : ∀ a ∈ tail, 0 < (mem' a).units) :
    FreeList mem' (pre ++ cur :: tail) := by
  have old := h.spaced
  have path := h.path
  rw [all] at old path
  obtain ⟨first, _, cross⟩ := pairwise_append.mp old
  have before : ∀ a ∈ pre, a + (mem a).units < cur := fun a on => cross a on cur (by simp)
  have arenaOn : arena ∈ pre ∨ cur = arena := by
    obtain ⟨blocks, start⟩ := h.arena_first
    rw [all] at start
    cases pre with
    | nil => exact .inr (cons.inj start).1
    | cons a pre => exact .inl (by simp [(cons.inj start).1])
  refine ⟨?_, ?_, ?_, ?_, ?_⟩
  · exact Path.join (path.split.1.frame fun a on => by rw [Memory.next, Memory.next, front a on]) onward
  · rcases arenaOn with on | rfl <;> simp [*]
  · refine pairwise_append.mpr ⟨?_, pairwise_cons.mpr ⟨behind, spaced⟩, ?_⟩
    · exact first.imp_of_mem fun {a b} on _ less => by rwa [front a on]
    · intro a on b also
      have less := before a on
      rw [front a on]
      rcases mem_cons.mp also with rfl | later
      · exact less
      · have := behind b later
        omega
  · intro a on
    rcases mem_append.mp on with on | on
    · rw [front a on]
      exact h.positive a (by simp [all, on])
    · rcases mem_cons.mp on with rfl | later
      · exact some
      · exact positive a later
  · rcases arenaOn with on | same
    · rw [front arena on, h.head]
    · rw [← same]
      exact head same

/-! ## Blocks leave the list -/

/-- A list that is built anew, with `free` as its free units. Units of blocks that are on neither
    list stay. -/
structure Changed (mem mem' : Memory) (ring ring' : List Nat) (free : Nat → Prop) : Prop where
  list : FreeList mem' ring'
  covers : ∀ x, Covers mem' ring' x ↔ free x
  units : ∀ x, ¬ Covers mem ring x → ¬ free x → (mem' x).units = (mem x).units

variable {prev : Nat}

section

variable (h : FreeList mem ring) (all : ring = pre ++ prev :: cur :: post)
include h all

theorem FreeList.mem_left (a : Nat) : a ∈ pre ++ prev :: post ↔ a ∈ ring ∧ a ≠ cur := by
  have nodup := h.nodup
  grind

theorem FreeList.drop : Changed mem (update mem prev { mem prev with next := mem.next cur }) ring
      (pre ++ prev :: post) fun x => Covers mem ring x ∧ ¬ (cur ≤ x ∧ x < cur + (mem cur).units) := by
  have units a : (update mem prev { mem prev with next := mem.next cur } a).units = (mem a).units := by
    rw [Function.update_apply]
    split_ifs with same
    · rw [same]
    · rfl
  have other a (ne : a ≠ prev) : update mem prev { mem prev with next := mem.next cur } a = mem a :=
    update_of_ne ne ..
  have nodup := h.nodup
  have left := h.mem_left all
  have path := h.path
  have spaced := h.spaced
  rw [all] at path spaced
  simp only [pairwise_append, pairwise_cons] at spaced
  refine ⟨?_, fun x => ⟨?_, ?_⟩, fun x _ _ => units x⟩
  · refine h.rebuild all (fun a on => other a (by grind)) ?_ ?_ ?_ ?_ ?_ ?_
    · have own : next (update mem prev { mem prev with next := mem.next cur }) prev = mem.next cur := by
        rw [Memory.next, update_self]
      rw [own]
      exact path.split.2.2.frame fun a on => by rw [Memory.next, other a (by grind), Memory.next]
    · rw [units]
      exact h.positive prev (by simp [all])
    · rintro rfl
      rw [units, h.head]
    · simp only [units]
      grind
    · simp only [units]
      exact spaced.2.1.2.2
    · simp only [units]
      exact fun a on => h.positive a (by simp [all, on])
  · rintro ⟨a, on, ne, low, high⟩
    rw [units] at high
    obtain ⟨old, apart⟩ := (left a).mp on
    exact ⟨⟨a, old, ne, low, high⟩, fun inside => apart (h.only old (by simp [all]) ⟨low, high⟩ inside)⟩
  · rintro ⟨⟨a, on, ne, low, high⟩, outside⟩
    exact ⟨a, (left a).mpr ⟨on, by grind⟩, ne, low, by rwa [units]⟩

section

variable {units : Nat} (some : 0 < units) (less : units < (mem cur).units)
include some less

theorem FreeList.rest_fresh : cur + units ∉ ring := by
  intro on
  rcases h.gap (by simp [all]) on (by omega : cur ≠ cur + units) with apart | apart <;> omega

/-- The memory after the cut: `prev`, the rest of `cur`, and everything else. -/
theorem FreeList.cut_memory : mem.take prev cur units prev = { mem prev with next := cur + units } ∧
    mem.take prev cur units (cur + units) = { units := (mem cur).units - units, next := mem.next cur } ∧
    ∀ a, a ≠ prev → a ≠ cur → a ≠ cur + units → mem.take prev cur units a = mem a := by
  have nodup := h.nodup
  have fresh := h.rest_fresh all some less
  have apart : prev ≠ cur ∧ prev ≠ cur + units := by grind
  refine ⟨?_, ?_, fun a first second third => ?_⟩
  · simp [Memory.take, Nat.ne_of_gt less, apart]
  · simp [Memory.take, Nat.ne_of_gt less, Nat.ne_of_gt some]
  · simp [Memory.take, Nat.ne_of_gt less, first, second, third]

theorem FreeList.cut_units {a : Nat} (on : a ∈ ring) (ne : a ≠ cur) :
    (mem.take prev cur units a).units = (mem a).units := by
  have fresh := h.rest_fresh all some less
  obtain ⟨atPrev, -, elsewhere⟩ := h.cut_memory all some less
  grind

theorem FreeList.cut_list : FreeList (mem.take prev cur units) (pre ++ prev :: (cur + units) :: post) := by
  have nodup := h.nodup
  have fresh := h.rest_fresh all some less
  have left := h.mem_left all
  obtain ⟨atPrev, atRest, elsewhere⟩ := h.cut_memory all some less
  have kept a (on : a ∈ pre ++ prev :: post) : (mem.take prev cur units a).units = (mem a).units :=
    h.cut_units all some less ((left a).mp on).1 ((left a).mp on).2
  have path := h.path
  have spaced := h.spaced
  rw [all] at path spaced
  simp only [pairwise_append, pairwise_cons] at spaced
  obtain ⟨-, ⟨fromPrev, fromCur, last⟩, -⟩ := spaced
  refine h.rebuild all (fun a on => elsewhere a (by grind) (by grind) (by grind)) ⟨?_, ?_⟩ ?_ ?_ ?_ ?_ ?_
  · rw [Memory.next, atPrev]
  · rw [Memory.next, atRest]
    exact path.split.2.2.frame fun a on => by
      rw [Memory.next, elsewhere a (by grind) (by grind) (by grind), Memory.next]
  · rw [atPrev]
    exact h.positive prev (by simp [all])
  · rintro rfl
    rw [atPrev, h.head]
  · rw [atPrev]
    grind
  · refine pairwise_cons.mpr ⟨fun b on => ?_, last.imp_of_mem fun {a b} on _ gap => ?_⟩
    · have := fromCur b on
      rw [atRest]
      dsimp only
      omega
    · rwa [kept a (by simp [on])]
  · intro a on
    rcases mem_cons.mp on with rfl | later
    · rw [atRest]
      dsimp only
      omega
    · rw [kept a (by simp [later])]
      exact h.positive a (by simp [all, later])

theorem FreeList.cut_covers (x : Nat) :
    Covers (mem.take prev cur units) (pre ++ prev :: (cur + units) :: post) x ↔
      Covers mem ring x ∧ ¬ (cur ≤ x ∧ x < cur + units) := by
  have real := h.second_ne_arena all
  have onCur : cur ∈ ring := by simp [all]
  have left := h.mem_left all
  obtain ⟨-, atRest, -⟩ := h.cut_memory all some less
  constructor
  · rintro ⟨a, on, ne, low, high⟩
    rcases eq_or_ne a (cur + units) with rfl | other
    · rw [atRest] at high
      dsimp only at high
      exact ⟨⟨cur, onCur, real, by omega, by omega⟩, by omega⟩
    · obtain ⟨old, apart⟩ := (left a).mp (by grind)
      rw [h.cut_units all some less old apart] at high
      refine ⟨⟨a, old, ne, low, high⟩, fun inside => apart ?_⟩
      exact h.only old onCur ⟨low, high⟩ ⟨inside.1, by omega⟩
  · rintro ⟨⟨a, on, ne, low, high⟩, outside⟩
    rcases eq_or_ne a cur with rfl | other
    · refine ⟨a + units, by simp, by simp only [arena]; omega, by omega, ?_⟩
      rw [atRest]
      dsimp only
      omega
    · exact ⟨a, by grind, ne, low, by rwa [h.cut_units all some less on other]⟩

theorem FreeList.cut : Changed mem (mem.take prev cur units) ring (pre ++ prev :: (cur + units) :: post)
    (fun x => Covers mem ring x ∧ ¬ (cur ≤ x ∧ x < cur + units)) := by
  have real := h.second_ne_arena all
  have onCur : cur ∈ ring := by simp [all]
  obtain ⟨atPrev, -, elsewhere⟩ := h.cut_memory all some less
  refine ⟨h.cut_list all some less, h.cut_covers all some less, fun x uncovered _ => ?_⟩
  have notCur : x ≠ cur := fun same => uncovered (same ▸ h.covers_self onCur real)
  have notRest : x ≠ cur + units := by
    rintro rfl
    exact uncovered ⟨cur, onCur, real, by omega, by omega⟩
  rcases eq_or_ne x prev with rfl | other
  · rw [atPrev]
  · rw [elsewhere x other notCur notRest]

end

/-- `slob_alloc` takes the front of a block. -/
theorem FreeList.take {units : Nat} (some : 0 < units)
    (room : units ≤ (mem cur).units) : ∃ ring', prev ∈ ring' ∧
      (mem.take prev cur units cur).units = units ∧
      Changed mem (mem.take prev cur units) ring ring'
        fun x => Covers mem ring x ∧ ¬ (cur ≤ x ∧ x < cur + units) := by
  rcases Nat.lt_or_eq_of_le room with less | exact
  · exact ⟨_, by simp, by simp [Memory.take, Nat.ne_of_gt less], h.cut all some less⟩
  have dropped := h.drop all
  have same : mem.take prev cur units = update mem prev { mem prev with next := mem.next cur } := by
    simp [Memory.take, exact]
  have ne : cur ≠ prev := by
    have nodup := h.nodup
    grind
  rw [same]
  rw [← exact] at dropped
  exact ⟨_, by simp, by rw [update_of_ne ne, exact], dropped⟩

end

/-! ## A block enters the list -/

/-- The first part of `Memory.link`: `b` is merged with the block behind it. -/
def Memory.joined (mem : Memory) (b cur : Nat) : Memory :=
  if b + (mem b).units = mem.next cur then
    update mem b
      { units := (mem b).units + (mem (mem.next cur)).units, next := mem.next (mem.next cur) }
  else update mem b { mem b with next := mem.next cur }

theorem joined_of_ne {a b : Nat} (ne : a ≠ b) : mem.joined b cur a = mem a := by
  unfold joined
  split_ifs <;> exact update_of_ne ne ..

theorem or_move_last {p q r t : Prop} : (p ∨ q ∨ r ∨ t) ↔ ((p ∨ q ∨ t) ∨ r) := by tauto

section Link

variable {mem : Memory} {ring pre post : List Nat} {b cur : Nat} (h : FreeList mem ring)
  (all : ring = pre ++ cur :: post) (real : 1 < b) (positive : 0 < (mem b).units)
  (outside : ∀ x, b ≤ x → x < b + (mem b).units → ¬ Covers mem ring x) (above : cur < b)
  (below : ∀ a ∈ post, b < a)
include h all real positive outside above below

theorem fits_between : cur + (mem cur).units ≤ b ∧ ∀ a ∈ post, b + (mem b).units ≤ a := by
  constructor
  · rcases eq_or_ne cur arena with rfl | ne
    · rw [h.head]
      simp only [arena]
      omega
    · by_contra exceeds
      exact outside b (by omega) (by omega) ⟨cur, by simp [all], ne, by omega, by omega⟩
  · intro a on
    by_contra exceeds
    have later := below a on
    have ne : a ≠ arena := by
      simp only [arena]
      omega
    exact outside a (by omega) (by omega) (h.covers_self (by simp [all, on]) ne)

theorem joined_next : ∃ rest, rest.Sublist post ∧ Path mem.next ((mem.joined b cur).next b) rest arena ∧
    (∀ a ∈ rest, b + (mem.joined b cur b).units < a) ∧ (mem b).units ≤ (mem.joined b cur b).units ∧
    ∀ x, ((b ≤ x ∧ x < b + (mem.joined b cur b).units) ∨ Covers mem rest x) ↔
      ((b ≤ x ∧ x < b + (mem b).units) ∨ Covers mem post x) := by
  obtain ⟨_, room⟩ := fits_between h all real positive outside above below
  have path := h.path
  rw [all] at path
  have back := path.split.2
  by_cases touch : b + (mem b).units = mem.next cur
  · have own : mem.joined b cur b =
        { units := (mem b).units + (mem (mem.next cur)).units, next := mem.next (mem.next cur) } := by
      rw [joined, if_pos touch, update_self]
    cases post with
    | nil =>
      have last : mem.next cur = arena := back
      simp only [last, arena] at touch
      omega
    | cons y rest =>
      obtain ⟨here, onward⟩ := back
      have split : ring = (pre ++ [cur]) ++ y :: rest := by simpa using all
      obtain ⟨_, behind⟩ := h.around split
      rw [Memory.next, own]
      rw [here] at touch ⊢
      refine ⟨rest, sublist_cons_self y rest, onward, ?_, by simp, fun x => ?_⟩
      · intro a on
        have := behind a on
        dsimp only
        omega
      · have ne : y ≠ arena := by
          simp only [arena]
          omega
        have split : Covers mem (y :: rest) x ↔ (y ≤ x ∧ x < y + (mem y).units) ∨ Covers mem rest x := by
          simp [Covers, ne]
        rw [split]
        dsimp only
        constructor
        · rintro (⟨low, high⟩ | covered)
          · rcases Nat.lt_or_ge x (b + (mem b).units) with inside | beyond
            · exact .inl ⟨low, inside⟩
            · exact .inr (.inl (by omega))
          · exact .inr (.inr covered)
        · rintro (inside | inside | covered)
          · exact .inl (by omega)
          · exact .inl (by omega)
          · exact .inr covered
  · have own : mem.joined b cur b = { mem b with next := mem.next cur } := by
      rw [joined, if_neg touch, update_self]
    rw [Memory.next, own]
    refine ⟨post, Sublist.refl _, back, fun a on => ?_, by simp, fun x => .rfl⟩
    cases post with
    | nil => cases on
    | cons y rest =>
      obtain ⟨here, _⟩ := back
      have first := room y (by simp)
      rcases mem_cons.mp on with rfl | later
      · dsimp only
        omega
      · have split : ring = (pre ++ [cur]) ++ y :: rest := by simpa using all
        have := (h.around split).2 a later
        dsimp only
        omega

/-- Whatever `b` and `cur` become, the blocks before them and those that are left behind stay. -/
theorem link_frame (elsewhere : ∀ a, a ≠ b → a ≠ cur → mem' a = mem a) :
    ∃ rest, rest.Sublist post ∧ Path mem'.next ((mem.joined b cur).next b) rest arena ∧
      (∀ a ∈ rest, b + (mem.joined b cur b).units < a ∧ 0 < (mem' a).units) ∧
      (rest.Pairwise fun a c => a + (mem' a).units < c) ∧ (∀ a ∈ pre, mem' a = mem a) ∧
      (mem b).units ≤ (mem.joined b cur b).units ∧
      ∀ x, ((b ≤ x ∧ x < b + (mem.joined b cur b).units) ∨ Covers mem' rest x) ↔
        ((b ≤ x ∧ x < b + (mem b).units) ∨ Covers mem post x) := by
  obtain ⟨rest, sub, onward, gaps, grows, covers⟩ := joined_next h all real positive outside above below
  obtain ⟨before, after⟩ := h.around all
  have onRest : ∀ a ∈ rest, mem' a = mem a := by
    intro a on
    have later := after a (sub.subset on)
    exact elsewhere a (by have := gaps a on; omega) (by omega)
  have spaced := h.spaced
  rw [all] at spaced
  have tail := (pairwise_cons.mp (pairwise_append.mp spaced).2.1).2
  refine ⟨rest, sub, onward.frame fun a on => by rw [Memory.next, Memory.next, onRest a on],
    fun a on => ⟨gaps a on, ?_⟩, ?_, fun a on => ?_, grows, fun x => by rw [covers_congr onRest, covers x]⟩
  · rw [onRest a on]
    exact h.positive a (by simp [all, sub.subset on])
  · exact (tail.sublist sub).imp_of_mem fun {a c} on _ gap => by rwa [onRest a on]
  · have := before a on
    exact elsewhere a (by omega) (by omega)

theorem link_apart (apart : cur + (mem cur).units ≠ b) : ∃ ring', cur ∈ ring' ∧ b ∈ ring' ∧
    Changed mem (update (mem.joined b cur) cur { mem.joined b cur cur with next := b }) ring ring'
      fun x => Covers mem ring x ∨ (b ≤ x ∧ x < b + (mem b).units) := by
  obtain ⟨less, _⟩ := fits_between h all real positive outside above below
  have after := (h.around all).2
  have curB : b ≠ cur := by omega
  -- The memory afterwards.
  generalize new : update (mem.joined b cur) cur { mem.joined b cur cur with next := b } = mem'
  have atCur : mem' cur = { mem cur with next := b } := by
    rw [← new, update_self, joined_of_ne curB.symm]
  have atB : mem' b = mem.joined b cur b := by rw [← new, update_of_ne curB]
  have elsewhere : ∀ a, a ≠ b → a ≠ cur → mem' a = mem a := by
    intro a first second
    rw [← new, update_of_ne second, joined_of_ne first]
  obtain ⟨rest, sub, onward, gaps, spaced, onPre, grows, covers⟩ :=
    link_frame h all real positive outside above below elsewhere
  refine ⟨pre ++ cur :: b :: rest, by simp, by simp, ?_, fun x => ?_, fun x uncovered unfree => ?_⟩
  · refine h.rebuild all onPre ?_ ?_ ?_ ?_ ?_ ?_
    · rw [Memory.next, atCur]
      refine ⟨rfl, ?_⟩
      rw [Memory.next, atB]
      exact onward
    · rw [atCur]
      exact h.positive cur (by simp [all])
    · rintro rfl
      rw [atCur, h.head]
    · intro a on
      rw [atCur]
      rcases mem_cons.mp on with rfl | later
      · dsimp only
        omega
      · exact after a (sub.subset later)
    · exact pairwise_cons.mpr ⟨fun a on => by rw [atB]; exact (gaps a on).1, spaced⟩
    · intro a on
      rcases mem_cons.mp on with rfl | later
      · rw [atB]
        omega
      · exact (gaps a later).2
  · have notArena : b ≠ arena := by
      simp only [arena]
      omega
    have same : Covers mem' [cur] x ↔ Covers mem [cur] x := by simp [Covers, atCur]
    have own : Covers mem' [b] x ↔ b ≤ x ∧ x < b + (mem.joined b cur b).units := by
      simp [Covers, notArena, atB]
    have parts : Covers mem' (pre ++ cur :: b :: rest) x ↔
        Covers mem' pre x ∨ Covers mem' [cur] x ∨ Covers mem' [b] x ∨ Covers mem' rest x := by
      rw [← covers_append, ← covers_append, ← covers_append]
      rfl
    have before : Covers mem (pre ++ cur :: post) x ↔ Covers mem pre x ∨ Covers mem [cur] x ∨ Covers mem post x := by
      rw [← covers_append, ← covers_append]
      rfl
    rw [parts, all, before, covers_congr onPre, same, own, covers x]
    exact or_move_last
  · rcases eq_or_ne x cur with rfl | ne
    · rw [atCur]
    · have notB : x ≠ b := by
        rintro rfl
        exact unfree (.inr ⟨by omega, by omega⟩)
      rw [elsewhere x notB ne]

theorem link_merged (touch : cur + (mem cur).units = b) : ∃ ring', cur ∈ ring' ∧ cur ≠ arena ∧
    Changed mem (update (mem.joined b cur) cur
      { units := (mem.joined b cur cur).units + (mem.joined b cur b).units,
        next := (mem.joined b cur).next b }) ring ring'
      fun x => Covers mem ring x ∨ (b ≤ x ∧ x < b + (mem b).units) := by
  have curB : b ≠ cur := by omega
  have notArena : cur ≠ arena := by
    rintro rfl
    rw [h.head] at touch
    simp only [arena] at touch
    omega
  generalize new : update (mem.joined b cur) cur
    { units := (mem.joined b cur cur).units + (mem.joined b cur b).units,
      next := (mem.joined b cur).next b } = mem'
  have atCur : mem' cur =
      ⟨(mem cur).units + (mem.joined b cur b).units, (mem.joined b cur).next b⟩ := by
    rw [← new, update_self, joined_of_ne curB.symm]
  have elsewhere : ∀ a, a ≠ b → a ≠ cur → mem' a = mem a := by
    intro a first second
    rw [← new, update_of_ne second, joined_of_ne first]
  obtain ⟨rest, sub, onward, gaps, spaced, onPre, grows, covers⟩ :=
    link_frame h all real positive outside above below elsewhere
  refine ⟨pre ++ cur :: rest, by simp, notArena, ?_, fun x => ?_, fun x uncovered unfree => ?_⟩
  · refine h.rebuild all onPre ?_ ?_ (fun same => absurd same notArena) ?_ ?_ ?_
    · rw [Memory.next, atCur]
      exact onward
    · rw [atCur]
      dsimp only
      omega
    · intro a on
      have := (gaps a on).1
      rw [atCur]
      dsimp only
      omega
    · exact spaced
    · exact fun a on => (gaps a on).2
  · have own : Covers mem' [cur] x ↔ Covers mem [cur] x ∨
        (b ≤ x ∧ x < b + (mem.joined b cur b).units) := by
      simp only [Covers, mem_singleton, exists_eq_left, notArena, ne_eq, not_false_eq_true,
        true_and, atCur]
      omega
    have parts : ∀ mem tail, Covers mem (pre ++ cur :: tail) x ↔
        Covers mem pre x ∨ Covers mem [cur] x ∨ Covers mem tail x := by
      intro mem tail
      rw [← covers_append, ← covers_append]
      rfl
    rw [parts, all, parts, covers_congr onPre, own, or_assoc, covers x]
    exact or_move_last
  · have notCur : x ≠ cur := by
      rintro rfl
      exact uncovered (h.covers_self (by simp [all]) notArena)
    have notB : x ≠ b := by
      rintro rfl
      exact unfree (.inr ⟨by omega, by omega⟩)
    rw [elsewhere x notB notCur]

theorem FreeList.link : ∃ ring', cur ∈ ring' ∧ (mem.link b cur).2 ∈ ring' ∧ (mem.link b cur).2 ≠ arena ∧
    Changed mem (mem.link b cur).1 ring ring'
      fun x => Covers mem ring x ∨ (b ≤ x ∧ x < b + (mem b).units) := by
  have same : mem.joined b cur cur = mem cur := joined_of_ne (by omega)
  have unfolded : mem.link b cur = if cur + (mem.joined b cur cur).units = b then
      (update (mem.joined b cur) cur
        { units := (mem.joined b cur cur).units + (mem.joined b cur b).units,
          next := (mem.joined b cur).next b }, cur)
      else (update (mem.joined b cur) cur { mem.joined b cur cur with next := b }, b) := rfl
  rw [unfolded]
  split_ifs with touch
  · rw [same] at touch
    obtain ⟨ring', on, ne, changed⟩ := link_merged h all real positive outside above below touch
    exact ⟨ring', on, on, ne, changed⟩
  rw [same] at touch
  obtain ⟨ring', on, own, changed⟩ := link_apart h all real positive outside above below touch
  refine ⟨ring', on, own, ?_, changed⟩
  simp only [arena]
  omega

end Link

end Procore.Mm.Slob
