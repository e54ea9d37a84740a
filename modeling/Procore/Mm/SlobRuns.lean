import Mathlib.Data.List.Pairwise
import Procore.Mm.SlobList

/-! # Runs of the SLOB allocator

The loops come to their end, and every call keeps the free list, the blocks in use and the pages
apart from each other.
-/

namespace Procore.Mm.Slob

open Procore.Lib List Option State
open Function (update update_of_ne update_self)

/-! ## The place of a block -/

variable {mem : Memory} {b : Nat}

theorem FreeList.place_spec {ring pre post : List Nat} {cur : Nat}
    (h : FreeList mem ring) (all : ring = pre ++ cur :: post) (here : mem.place b cur = true) :
    cur < b ∧ ∀ a ∈ post, b < a := by
  have path := h.path
  rw [all] at path
  simp only [Memory.place, Bool.or_eq_true, Bool.and_eq_true, decide_eq_true_eq] at here
  cases post with
  | nil =>
    have last : mem.next cur = 0 := path.next_last
    exact ⟨by omega, nofun⟩
  | cons y post =>
    have next : mem.next cur = y := path.next_eq
    have gap := (h.around all).2 y (by simp)
    have split : ring = (pre ++ [cur]) ++ y :: post := by simpa using all
    refine ⟨by omega, fun a on => ?_⟩
    rcases mem_cons.mp on with rfl | later
    · omega
    · have := (h.around split).2 a later
      omega

theorem FreeList.place_exists {ring : List Nat} (h : FreeList mem ring)
    (positive : 0 < b) (off : b ∉ ring) : ∃ cur ∈ ring, mem.place b cur = true := by
  -- From a block below `b` on, the first block that is above `b`, or the end of the list.
  have search : ∀ (post pre : List Nat) (cur : Nat), ring = pre ++ cur :: post → cur < b →
      ∃ cur ∈ ring, mem.place b cur = true := by
    intro post
    induction post with
    | nil =>
      intro pre cur all below
      have path := h.path
      rw [all] at path
      have last : mem.next cur = 0 := path.next_last
      refine ⟨cur, by simp [all], ?_⟩
      simp [Memory.place, last, below]
    | cons y post ih =>
      intro pre cur all below
      have path := h.path
      rw [all] at path
      have next : mem.next cur = y := path.next_eq
      rcases Nat.lt_trichotomy b y with less | rfl | more
      · refine ⟨cur, by simp [all], ?_⟩
        simp [Memory.place, next, below, less]
      · exact absurd (by simp [all]) off
      · exact ih (pre ++ [cur]) y (by simpa using all) more
  obtain ⟨blocks, first⟩ := h.arena_first
  exact search blocks [] arena (by simpa using first) positive

namespace State

structure Base (s : State) (ring : List Nat) : Prop where
  list : FreeList s.mem ring
  entry : s.slobfree ∈ ring
  owned : ∀ x, Covers s.mem ring x → x / pageUnits ∈ s.owned
  pages : ∀ page ∈ s.owned, 1 ≤ page

/-- The unit belongs to the allocator and is not free. -/
def Used (s : State) (ring : List Nat) (x : Nat) : Prop :=
  x / pageUnits ∈ s.owned ∧ ¬ Covers s.mem ring x

variable {s : State} {ring : List Nat}

theorem Base.rounds (h : s.Base ring) : ring.length ≤ s.rounds := by
  obtain ⟨blocks, rfl⟩ := h.list.arena_first
  have units : blocks ⊆ s.owned.flatMap fun page => List.range' (pageUnits * page) pageUnits := by
    intro a on
    have ne : a ≠ arena := by
      rintro rfl
      exact (List.nodup_cons.mp h.list.nodup).1 on
    have page := h.owned a (h.list.covers_self (by simp [on]) ne)
    refine List.mem_flatMap.mpr ⟨_, page, ?_⟩
    rw [List.mem_range'_1]
    have := Nat.div_add_mod a pageUnits
    have := Nat.mod_lt a (show 0 < pageUnits by decide)
    omega
  have fewer := (List.subperm_of_subset (List.nodup_cons.mp h.list.nodup).2 units).length_le
  have total : (s.owned.flatMap fun page => List.range' (pageUnits * page) pageUnits).length =
      pageUnits * s.owned.length := by
    simp [Nat.mul_comm]
  rw [total] at fewer
  simpa [State.rounds] using fewer

/-! ## `slob_free` -/

/-- What a call may do to the rest of the memory: used units outside of `given` stay used, and
    keep their length. -/
structure Kept (s t : State) (ring ring' : List Nat) (given : Nat → Prop) : Prop where
  base : t.Base ring'
  used : ∀ x, s.Used ring x → ¬ given x → t.Used ring' x ∧ (t.mem x).units = (s.mem x).units
  owned : t.owned ⊆ s.owned
  live : t.live = s.live
  stuck : t.stuck = s.stuck

variable {units : Nat}

/-- A page begins in a run of whole pages exactly when its units are in it. -/
theorem page_iff {first x : Nat} (aligned : first % pageUnits = 0) (whole : units % pageUnits = 0) :
    (first ≤ pageUnits * (x / pageUnits) ∧ pageUnits * (x / pageUnits) < first + units) ↔
      (first ≤ x ∧ x < first + units) := by
  simp only [pageUnits] at *
  omega

theorem Base.giveBack {release : Nat} (h : s.Base ring)
    (on : release ∈ ring) (real : release ≠ arena) (aligned : release % pageUnits = 0)
    (whole : (s.mem release).units % pageUnits = 0) :
    ∃ t ring', s.giveBack release = some t ∧ Kept s t ring ring' fun _ => False := by
  obtain ⟨y, onY, step⟩ := h.list.path.pred on
  obtain ⟨prev, onPrev, found, _⟩ : ∃ prev ∈ ring, walk s.mem.next
      (fun prev => s.mem.next prev = release || s.mem.next prev = arena) s.rounds arena = some prev ∧ _ :=
    h.list.path.walk_ring h.list.entry ⟨y, onY, by simp [step]⟩ h.rounds
  simp only [State.giveBack, found, Option.bind_eq_bind, Option.bind_some]
  by_cases before : s.mem.next prev = release ∧ s.mem.next release ≠ release
  · rw [if_pos before]
    obtain ⟨pre, post, all⟩ := h.list.succ onPrev before.1 real
    have dropped := h.list.drop all
    have left : ∀ a, a ∈ ring → a ≠ release → a ∈ pre ++ prev :: post := by
      grind
    -- A page goes when its units are those of the block.
    have page : ∀ x, x / pageUnits ∈ s.owned → ¬ (release ≤ x ∧ x < release + (s.mem release).units) →
        x / pageUnits ∈ s.owned.filter fun page => !(release ≤ pageUnits * page &&
          pageUnits * page < release + (s.mem release).units) := by
      intro x has outside
      rw [← page_iff aligned whole] at outside
      refine mem_filter.mpr ⟨has, ?_⟩
      rcases Nat.lt_or_ge (pageUnits * (x / pageUnits)) release with low | low
      · simp [low]
      · simpa [low] using Nat.le_of_not_lt fun high => outside ⟨low, high⟩
    refine ⟨_, _, rfl, ⟨dropped.list, ?_, ?_, ?_⟩, ?_, filter_sublist.subset, rfl, rfl⟩
    · split_ifs with same
      · simp
      · exact left _ h.entry same
    · intro x covered
      obtain ⟨old, outside⟩ := (dropped.covers x).mp covered
      exact page x (h.owned x old) outside
    · exact fun page has => h.pages page (mem_of_mem_filter has)
    · rintro x ⟨has, uncovered⟩ -
      refine ⟨⟨page x has fun inside => uncovered ⟨release, on, real, inside⟩, ?_⟩, ?_⟩
      · exact fun covered => uncovered ((dropped.covers x).mp covered).1
      · exact dropped.units x uncovered fun free => uncovered free.1
  · rw [if_neg before]
    exact ⟨s, ring, rfl, h, fun x used _ => ⟨used, rfl⟩, Subset.refl _, rfl, rfl⟩

variable {size : Nat}

theorem Base.slobFree {n : Nat} (h : s.Base ring) (positive : 0 < n)
    (length : n = if size ≠ 0 then slobUnits size else (s.mem b).units)
    (own : ∀ x, b ≤ x → x < b + n → s.Used ring x) :
    ∃ t ring', s.slobFree b size = some t ∧ Kept s t ring ring' fun x => b ≤ x ∧ x < b + n := by
  obtain ⟨page, uncovered⟩ := own b (Nat.le_refl b) (by omega)
  have real : 1 < b := by
    have := h.pages _ page
    simp only [pageUnits] at this
    omega
  have off : b ∉ ring := by
    intro on
    refine uncovered (h.list.covers_self on ?_)
    simp only [arena]
    omega
  -- The header of the block, which is on no list yet.
  obtain ⟨mem, header⟩ : ∃ mem : Memory, (if size ≠ 0 then
      update s.mem b { s.mem b with units := slobUnits size } else s.mem) = mem := ⟨_, rfl⟩
  have elsewhere : ∀ a, a ≠ b → mem a = s.mem a := by
    intro a ne
    rw [← header]
    split_ifs
    · rw [update_of_ne ne]
    · rfl
  have units : (mem b).units = n := by
    rw [← header, length]
    split_ifs
    · rw [update_self]
    · rfl
  have onRing : ∀ a ∈ ring, mem a = s.mem a := fun a on => elsewhere a (by rintro rfl; exact off on)
  have list : FreeList mem ring := h.list.congr onRing
  have covers : ∀ x, Covers mem ring x ↔ Covers s.mem ring x := fun x => covers_congr onRing
  obtain ⟨cur, on, found, here⟩ := list.path.walk_ring h.entry (list.place_exists (by omega) off) h.rounds
  obtain ⟨pre, post, all⟩ := append_of_mem on
  obtain ⟨above, below⟩ := list.place_spec all here
  obtain ⟨ring', onCur, onRelease, ne, linked⟩ := list.link all real (by omega)
    (fun x low high => by rw [covers]; exact (own x low (by omega)).2) above below
  rw [units] at linked
  -- Linking the block keeps the rest.
  have kept : Kept s { s with mem := (mem.link b cur).1, slobfree := cur } ring ring'
      fun x => b ≤ x ∧ x < b + n := by
    refine ⟨⟨linked.list, onCur, fun x covered => ?_, h.pages⟩, fun x used outside => ?_, Subset.refl _,
      rfl, rfl⟩
    · rcases (linked.covers x).mp covered with old | new
      · exact h.owned x ((covers x).mp old)
      · exact (own x new.1 new.2).1
    · have free : ¬ (Covers mem ring x ∨ b ≤ x ∧ x < b + n) := by
        rw [covers]
        exact not_or.mpr ⟨used.2, outside⟩
      refine ⟨⟨used.1, fun covered => free ((linked.covers x).mp covered)⟩, ?_⟩
      have ne : x ≠ b := by
        rintro rfl
        exact outside ⟨Nat.le_refl x, by omega⟩
      rw [← elsewhere x ne]
      exact linked.units x (fun covered => free (.inl covered)) free
  simp only [State.slobFree, header, found, Option.bind_eq_bind, Option.bind_some]
  split_ifs with whole
  · obtain ⟨t, last, done, after⟩ := kept.base.giveBack onRelease ne whole.2.2.1 whole.2.2.2
    refine ⟨t, last, done, after.base, fun x used outside => ?_, after.owned, after.live, after.stuck⟩
    obtain ⟨still, same⟩ := kept.used x used outside
    obtain ⟨used', same'⟩ := after.used x still id
    exact ⟨used', same'.trans same⟩
  · exact ⟨_, _, rfl, kept⟩

/-! ## `slob_alloc` -/

/-- What `slob_alloc` hands out was not used before, and is used now. -/
structure Served (s t : State) (ring ring' : List Nat) (units : Nat) (result : Option Nat) : Prop where
  base : t.Base ring'
  used : ∀ x, s.Used ring x → t.Used ring' x ∧ (t.mem x).units = (s.mem x).units
  live : t.live = s.live
  stuck : t.stuck = s.stuck
  block : ∀ m, result = some m → (t.mem m).units = units ∧
    ∀ x, m ≤ x → x < m + units → t.Used ring' x ∧ ¬ s.Used ring x

/-- The search ends at the latest before the block where it has begun. -/
theorem Base.search (h : s.Base ring) (units : Nat) :
    ∃ prev ∈ ring, walk s.mem.next
      (fun prev => units ≤ (s.mem (s.mem.next prev)).units || s.mem.next prev = s.slobfree) s.rounds
      s.slobfree = some prev := by
  obtain ⟨last, on, step⟩ := h.list.path.pred h.entry
  obtain ⟨prev, on, found, _⟩ : ∃ prev ∈ ring, walk s.mem.next
      (fun prev => units ≤ (s.mem (s.mem.next prev)).units || s.mem.next prev = s.slobfree) s.rounds
      s.slobfree = some prev ∧ _ :=
    h.list.path.walk_ring h.entry ⟨last, on, by simp [step]⟩ h.rounds
  exact ⟨prev, on, found⟩

/-- A block that is large enough leaves the list. -/
theorem Base.fit {prev : Nat} (h : s.Base ring) (two : 2 ≤ units)
    (on : prev ∈ ring) (room : units ≤ (s.mem (s.mem.next prev)).units) :
    ∃ ring', Served s { s with mem := s.mem.take prev (s.mem.next prev) units, slobfree := prev } ring ring'
      units (some (s.mem.next prev)) := by
  have real : s.mem.next prev ≠ arena := by
    intro same
    rw [same, h.list.head] at room
    omega
  obtain ⟨pre, post, all⟩ := h.list.succ on rfl real
  obtain ⟨ring', entry, length, taken⟩ := h.list.take all (by omega) room
  have inside : ∀ x, s.mem.next prev ≤ x → x < s.mem.next prev + units → Covers s.mem ring x :=
    fun x low high => ⟨_, by simp [all], real, low, by omega⟩
  refine ⟨ring', ⟨taken.list, entry, ?_, h.pages⟩, ?_, rfl, rfl, ?_⟩
  · exact fun x covered => h.owned x ((taken.covers x).mp covered).1
  · rintro x ⟨page, uncovered⟩
    refine ⟨⟨page, fun covered => uncovered ((taken.covers x).mp covered).1⟩, ?_⟩
    exact taken.units x uncovered fun free => uncovered free.1
  · rintro m ⟨⟩
    refine ⟨length, fun x low high => ⟨⟨h.owned x (inside x low high), fun covered => ?_⟩, fun used => ?_⟩⟩
    · exact ((taken.covers x).mp covered).2 ⟨low, high⟩
    · exact used.2 (inside x low high)

theorem Base.grow {page : Nat} (h : s.Base ring) (real : 1 ≤ page) (fresh : page ∉ s.owned) : ∃ t ring',
      { s with owned := page :: s.owned }.slobFree (pageUnits * page) pageSize = some t ∧ t.Base ring' ∧
      (∀ x, s.Used ring x → t.Used ring' x ∧ (t.mem x).units = (s.mem x).units) ∧
      t.owned ⊆ page :: s.owned ∧ t.live = s.live ∧ t.stuck = s.stuck := by
  have base : Base { s with owned := page :: s.owned } ring := by
    refine ⟨h.list, h.entry, fun x covered => mem_cons_of_mem _ (h.owned x covered), ?_⟩
    intro p has
    rcases mem_cons.mp has with rfl | old
    · exact real
    · exact h.pages p old
  have inPage : ∀ x, pageUnits * page ≤ x → x < pageUnits * page + pageUnits → x / pageUnits = page := by
    simp only [pageUnits]
    omega
  have length : pageUnits = if pageSize ≠ 0 then slobUnits pageSize else (s.mem (pageUnits * page)).units := by
    simp [pageSize, pageUnits, slobUnits, slobUnit]
  obtain ⟨t, ring', done, kept⟩ := base.slobFree (by decide) length (by
      intro x low high
      have same := inPage x low high
      refine ⟨by simp [same], fun covered => fresh ?_⟩
      exact same ▸ h.owned x covered)
  refine ⟨t, ring', done, kept.base, fun x used => ?_, kept.owned, kept.live, kept.stuck⟩
  refine kept.used x ⟨.tail _ used.1, used.2⟩ fun inside => fresh ?_
  exact inPage x inside.1 inside.2 ▸ used.1

theorem Base.slobAlloc {pages : List Nat} (h : s.Base ring)
    (two : 2 ≤ units) (nodup : pages.Nodup) (fresh : ∀ page ∈ pages, 1 ≤ page ∧ page ∉ s.owned) :
    ∃ t ring' result, s.slobAlloc units pages = some (t, result) ∧ Served s t ring ring' units result := by
  induction pages generalizing s ring with
  | nil =>
    obtain ⟨prev, on, found⟩ := h.search units
    by_cases room : units ≤ (s.mem (s.mem.next prev)).units
    · obtain ⟨ring', served⟩ := h.fit two on room
      exact ⟨_, ring', _, by simp [slobAlloc, found, room], served⟩
    · exact ⟨s, ring, none, by simp [slobAlloc, found, room], h, fun x used => ⟨used, rfl⟩, rfl, rfl, nofun⟩
  | cons page pages ih =>
    obtain ⟨prev, on, found⟩ := h.search units
    by_cases room : units ≤ (s.mem (s.mem.next prev)).units
    · obtain ⟨ring', served⟩ := h.fit two on room
      exact ⟨_, ring', _, by simp [slobAlloc, found, room], served⟩
    obtain ⟨first, later⟩ := nodup_cons.mp nodup
    obtain ⟨real, new⟩ := fresh page (by simp)
    obtain ⟨grown, middle, done, base, used, owned, live, stuck⟩ := h.grow real new
    obtain ⟨t, ring', result, served, facts⟩ := ih base later (by
      intro p mem
      obtain ⟨positive, unowned⟩ := fresh p (by simp [mem])
      refine ⟨positive, fun has => ?_⟩
      rcases mem_cons.mp (owned has) with rfl | old
      · exact first mem
      · exact unowned old)
    refine ⟨t, ring', result, by simp [slobAlloc, found, room, done, served], facts.base, ?_,
      facts.live.trans live, facts.stuck.trans stuck, ?_⟩
    · intro x before
      obtain ⟨still, same⟩ := used x before
      obtain ⟨now, same'⟩ := facts.used x still
      exact ⟨now, same'.trans same⟩
    · intro m got
      obtain ⟨length, block⟩ := facts.block m got
      exact ⟨length, fun x low high => ⟨(block x low high).1, fun before => (block x low high).2 (used x before).1⟩⟩

/-! ## Runs -/

/-- The unit `x` lies in the block `e`. -/
def In (s : State) (e : Nat × Nat) (x : Nat) : Prop := e.1 ≤ x ∧ x < e.1 + (s.mem e.1).units

structure Inv (s : State) (ring : List Nat) : Prop where
  base : s.Base ring
  length : ∀ e ∈ s.live, (s.mem e.1).units = slobUnits (e.2 + slobUnit) ∧ 1 ≤ e.2
  used : ∀ e ∈ s.live, ∀ x, s.In e x → s.Used ring x
  apart : s.live.Pairwise fun e f => ∀ x, s.In e x → ¬ s.In f x
  returns : s.stuck = false

theorem slobUnits_header (positive : 1 ≤ size) :
    2 ≤ slobUnits (size + slobUnit) ∧ size ≤ slobUnit * (slobUnits (size + slobUnit) - 1) := by
  simp only [slobUnits, slobUnit]
  omega

theorem Inv.in_self {e : Nat × Nat} (h : s.Inv ring) (live : e ∈ s.live) :
    s.In e e.1 := by
  obtain ⟨length, positive⟩ := h.length e live
  have := (slobUnits_header positive).1
  exact ⟨Nat.le_refl _, by omega⟩

theorem Inv.apart_of_ne {e f : Nat × Nat} {x : Nat} (h : s.Inv ring)
    (live : e ∈ s.live) (also : f ∈ s.live) (ne : e ≠ f) (inside : s.In e x) : ¬ s.In f x := by
  have : Std.Symm fun e f : Nat × Nat => ∀ x, s.In e x → ¬ s.In f x := ⟨fun _ _ apart x inF inE => apart x inE inF⟩
  exact h.apart.forall live also ne x inside

theorem behind_of_apart {a m n : Nat} (first : 0 < m) (second : 0 < n)
    (apart : ∀ x, a ≤ x ∧ x < a + m → ¬ (b ≤ x ∧ x < b + n)) : a + m ≤ b ∨ b + n ≤ a := by
  have := apart a
  have := apart b
  omega

section

variable (h : s.Inv ring)
include h

theorem Inv.sound : s.Sound := by
  have positive : ∀ e ∈ s.live, 0 < (s.mem e.1).units := by
    intro e live
    have := h.in_self live
    simp only [In] at this
    omega
  obtain ⟨blocks, rfl⟩ := h.base.list.arena_first
  have covered : ∀ a ∈ blocks, ∀ x, a ≤ x → x < a + (s.mem a).units → Covers s.mem (arena :: blocks) x := by
    intro a on x low high
    refine ⟨a, by simp [on], ?_, low, high⟩
    rintro rfl
    exact (nodup_cons.mp h.base.list.nodup).1 on
  have free : ∀ a ∈ blocks, 0 < (s.mem a).units := fun a on => h.base.list.positive a (by simp [on])
  refine ⟨⟨blocks, h.base.list.path, h.base.list.spaced, fun a on => ⟨free a on, ?_⟩, ?_⟩, ?_, ?_, ?_, h.returns⟩
  · exact fun x low high => h.base.owned x (covered a on x low high)
  · intro e live a on
    refine behind_of_apart (positive e live) (free a on) fun x inside block => ?_
    exact (h.used e live x inside).2 (covered a on x block.1 block.2)
  · intro e live
    obtain ⟨length, asked⟩ := h.length e live
    rw [length]
    exact (slobUnits_header asked).2
  · exact h.apart.imp_of_mem fun live also apart => behind_of_apart (positive _ live) (positive _ also) apart
  · exact fun e live x low high => (h.used e live x ⟨low, high⟩).1

/-- A call that keeps the used units of the blocks that stay. -/
theorem Inv.keep {t : State} {ring' : List Nat} (base : t.Base ring')
    (live : t.live.Sublist s.live) (stuck : t.stuck = s.stuck)
    (used : ∀ e ∈ t.live, ∀ x, s.In e x → t.Used ring' x ∧ (t.mem x).units = (s.mem x).units) :
    t.Inv ring' := by
  have same : ∀ e ∈ t.live, (t.mem e.1).units = (s.mem e.1).units := fun e on =>
    (used e on e.1 (h.in_self (live.subset on))).2
  have inside : ∀ e ∈ t.live, ∀ x, t.In e x ↔ s.In e x := by
    intro e on x
    simp [In, same e on]
  refine ⟨base, fun e on => ?_, fun e on x has => ?_, ?_, stuck.trans h.returns⟩
  · rw [same e on]
    exact h.length e (live.subset on)
  · exact (used e on x ((inside e on x).mp has)).1
  · refine (h.apart.sublist live).imp_of_mem ?_
    intro e f onE onF apart x inE inF
    exact apart x ((inside e onE x).mp inE) ((inside f onF x).mp inF)

theorem Inv.kmalloc {pages : List Nat} (positive : 1 ≤ size) (small : size ≤ 4079)
    (nodup : pages.Nodup)
    (fresh : ∀ page ∈ pages, 1 ≤ page ∧ page ∉ s.owned) : ∃ ring', (s.kmalloc size pages).Inv ring' := by
  have fits : size + slobUnit + slobUnit < pageSize := by
    simp only [slobUnit, pageSize]
    omega
  obtain ⟨t, ring', result, done, served⟩ := h.base.slobAlloc (slobUnits_header positive).1 nodup fresh
  have kept : t.Inv ring' := h.keep served.base (served.live ▸ Sublist.refl _) served.stuck
    fun e on x inside => served.used x (h.used e (served.live ▸ on) x inside)
  refine ⟨ring', ?_⟩
  rw [State.kmalloc, if_pos fits, done]
  cases result with
  | none => exact kept
  | some m =>
    obtain ⟨length, block⟩ := served.block m rfl
    have inside : ∀ x, t.In (m, size) x → t.Used ring' x ∧ ¬ s.Used ring x := by
      rintro x ⟨low, high⟩
      exact block x low (length ▸ high)
    refine ⟨⟨kept.base.list, kept.base.entry, kept.base.owned, kept.base.pages⟩,
      forall_mem_cons.mpr ⟨⟨length, positive⟩, kept.length⟩,
      forall_mem_cons.mpr ⟨fun x new => (inside x new).1, kept.used⟩,
      pairwise_cons.mpr ⟨fun e on x new old => (inside x new).2 ?_, kept.apart⟩, kept.returns⟩
    -- A block in use keeps its length, so its units were used before the call.
    have before : e ∈ s.live := served.live ▸ on
    refine h.used e before x ?_
    have same := (served.used e.1 (h.used e before e.1 (h.in_self before))).2
    simpa [In, same] using old

theorem Inv.kfree {m : Nat} (live : m ∈ s.live.map Prod.fst) : ∃ ring', (s.kfree m).Inv ring' := by
  obtain ⟨e, on, rfl⟩ := mem_map.mp live
  have base : Base { s with live := s.live.filter (·.1 ≠ e.1) } ring :=
    ⟨h.base.list, h.base.entry, h.base.owned, h.base.pages⟩
  have length : (s.mem e.1).units = if 0 ≠ 0 then slobUnits 0 else (s.mem e.1).units := by simp
  have positive : 0 < (s.mem e.1).units := by
    have := h.in_self on
    simp only [In] at this
    omega
  obtain ⟨t, ring', done, kept⟩ := base.slobFree positive length
    fun x low high => h.used e on x ⟨low, high⟩
  refine ⟨ring', ?_⟩
  rw [State.kfree, done]
  refine h.keep kept.base (kept.live ▸ filter_sublist) kept.stuck fun f left x inside => ?_
  obtain ⟨old, other⟩ := mem_filter.mp (kept.live ▸ left)
  have ne : f ≠ e := by
    rintro rfl
    simp at other
  exact kept.used x (h.used f old x inside) (h.apart_of_ne old on ne inside)

theorem Inv.write {a : Nat} {value : SlobBlock} (off : a ∉ ring) (header : ∀ e ∈ s.live, e.1 ≠ a) :
    Inv { s with mem := update s.mem a value } ring := by
  have onRing : ∀ c ∈ ring, update s.mem a value c = s.mem c := by
    intro c on
    refine update_of_ne ?_ ..
    rintro rfl
    exact off on
  have covers : ∀ x, Covers (update s.mem a value) ring x ↔ Covers s.mem ring x :=
    fun x => covers_congr onRing
  have inside : ∀ e ∈ s.live, ∀ x,
      In { s with mem := update s.mem a value } e x ↔ s.In e x := by
    intro e live x
    simp [In, update_of_ne (header e live)]
  refine ⟨⟨h.base.list.congr onRing, h.base.entry, fun x covered => h.base.owned x ((covers x).mp covered),
    h.base.pages⟩, fun e live => ?_, fun e live x has => ?_, ?_, h.returns⟩
  · dsimp only
    rw [update_of_ne (header e live)]
    exact h.length e live
  · obtain ⟨page, uncovered⟩ := h.used e live x ((inside e live x).mp has)
    exact ⟨page, fun covered => uncovered ((covers x).mp covered)⟩
  · refine h.apart.imp_of_mem fun {e f} live also apart x inE inF => ?_
    exact apart x ((inside e live x).mp inE) ((inside f also x).mp inF)

theorem Inv.step {t : State} {l : Label} (go : s.step l = some t) : ∃ ring', t.Inv ring' := by
  cases l with
  | kmalloc size pages =>
    obtain ⟨⟨positive, small, nodup, fresh⟩, ⟨⟩⟩ := ite_none_right_eq_some.mp go
    exact h.kmalloc positive small nodup fresh
  | kfree m =>
    obtain ⟨live, ⟨⟩⟩ := ite_none_right_eq_some.mp go
    exact h.kfree live
  | write m a value =>
    obtain ⟨⟨live, low, high⟩, ⟨⟩⟩ := ite_none_right_eq_some.mp go
    obtain ⟨e, on, rfl⟩ := mem_map.mp live
    have inside : s.In e a := ⟨Nat.le_of_lt low, high⟩
    have used := h.used e on a inside
    refine ⟨ring, h.write (fun free => used.2 (h.base.list.covers_self free ?_)) fun f live same => ?_⟩
    · simp only [arena]
      omega
    · refine h.apart_of_ne on live ?_ inside (same ▸ h.in_self live)
      rintro rfl
      omega
  | foreign a value =>
    obtain ⟨⟨real, outside⟩, ⟨⟩⟩ := ite_none_right_eq_some.mp go
    refine ⟨ring, h.write (fun free => outside ?_) fun e live same => outside ?_⟩
    · exact h.base.owned a (h.base.list.covers_self free real)
    · exact same ▸ (h.used e live e.1 (h.in_self live)).1

end

theorem inv_boot (mem : Memory) : (boot mem).Inv [arena] := by
  refine ⟨⟨⟨?_, by simp, by simp, ?_, ?_⟩, by simp [boot], ?_, by simp [boot]⟩, by simp [boot], by simp [boot],
    by simp [boot], rfl⟩
  · simp [Lib.Path, boot, Memory.next]
  · simp [boot]
  · simp [boot]
  · rintro x ⟨a, on, ne, _⟩
    exact absurd (mem_singleton.mp on) ne

variable {labels : List Label}

theorem inv_of_run (run : runFrom step (boot mem) labels = some s) : ∃ ring, s.Inv ring := by
  have preserved : ∀ (s : State) l t, (∃ ring, s.Inv ring) → s.step l = some t → ∃ ring, t.Inv ring :=
    fun _ _ _ ⟨_, inv⟩ go => inv.step go
  exact runFrom_always preserved ⟨_, inv_boot mem⟩ run

/-- In every run the list, the blocks in use and the pages stay as they should be, and every call
    returns. -/
theorem slob_sound {s : State} (run : runFrom step (boot mem) labels = some s) : s.Sound := by
  obtain ⟨_, inv⟩ := inv_of_run run
  exact inv.sound

/-- Two blocks of page 7 and one of page 3, with writes by their owners; page 7 goes back with the second
    `kfree`, and its next owner writes to it. -/
theorem slob_sound_page : ∃ s, runFrom step (boot fun _ => ⟨0, 0⟩)
    [.kmalloc 100 [7], .kmalloc 1 [], .write 3584 3590 ⟨9, 9⟩, .kmalloc 4079 [3, 5], .kfree 3584,
      .kfree 3598, .foreign 3584 ⟨1, 1⟩] = some s ∧ s.live = [(1536, 4079)] ∧ s.owned = [3] ∧ s.Sound := by
  refine exists_run_test (fun s => s.live = [(1536, 4079)] ∧ s.owned = [3]) (by decide +kernel) ?_
  intro s run ⟨live, owned⟩
  exact ⟨live, owned, slob_sound run⟩

end State

end Procore.Mm.Slob
