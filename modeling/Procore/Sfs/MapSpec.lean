import Procore.Sfs.Cache
import Procore.Sfs.Wp

/-! # What the block map functions ensure

`Ok` is the representation carried through a call. Every function here either
does its work on the abstract volume or leaves it as it was; in particular a
failed allocation gives back what it had taken.
-/

namespace Procore.Sfs

open Procore.Lib Finset AFs Procore.Sfs.Fs
open Function
open Prog (wp_assert wp_assert_pos wp_attempt wp_bind wp_fail wp_ite wp_pure)

variable {strict : Prop} {inflight : Finset Nat} {A A' A'' : AFs} {w w' : World} {H : Halt → Prop}
  {i k b : Nat} {r : InodeRefs}

/-- The state of a call stands for `A`. Under `strict` no request to clear a block is
    going to fail. -/
structure Ok (strict : Prop) (inflight : Finset Nat) (A : AFs) (w : World) : Prop where
  rep : Rep strict inflight A w.fs
  clear : strict → failures w.faults.clear = 0

section

variable (h : Ok strict inflight A w)
include h

variable {inflight' : Finset Nat}

theorem Ok.next (rep : Rep strict inflight' A' w'.fs) (later : w.Later w') :
    Ok strict inflight' A' w' where
  rep := rep
  clear holds := Nat.le_zero.mp (h.clear holds ▸ later.clear)

theorem Ok.sameFs (fs : w'.fs = w.fs) (later : w.Later w') : Ok strict inflight A w' :=
  h.next (by rw [fs]; exact h.rep) later

theorem Ok.withFs {fs : Fs} (rep : Rep strict inflight' A' fs) :
    Ok strict inflight' A' { w with fs := fs } :=
  ⟨rep, h.clear⟩

theorem Ok.withHeld (held : List Sem) :
    Ok strict inflight A { w with held := held } := ⟨h.rep, h.clear⟩

theorem Ok.cached (refs : A.refs i = some r) :
    ∃ sin, w.fs.icache i = some sin ∧ sin.refs = r ∧ i ∈ A.live ∧
      A.info i = sin.din.info (A.info i).stored := by
  have live : i ∈ A.live := by
    by_contra dead
    rw [(h.rep.cached i dead).2] at refs
    cases refs
  have node := h.rep.node i live
  cases cache : w.fs.icache i with
  | none =>
    have none := node.refs
    rw [cache, refs] at none
    cases none
  | some sin =>
    have some := node.refs_of_cached cache
    rw [refs] at some
    cases some
    exact ⟨sin, rfl, rfl, live, node.info_of_cached cache⟩

end

variable {Q : Unit → World → Prop} {E : Errno → World → Prop}

theorem wp_assertInuse (real : b ≠ 0) (used : b < w.fs.blocks ∧ w.fs.free b = false) :
    (assertInuse b).wp H Q E w ↔ Q () w := by
  have inside : b ≠ 0 ∧ b < w.fs.blocks := ⟨real, used.1⟩
  simp only [assertInuse, sfsBlockInuse, wp_bind, wp_getFs, inside, used.2]
  simp [real]

theorem wp_sfsBlockFree (real : b ≠ 0) (used : b < w.fs.blocks ∧ w.fs.free b = false) :
    (sfsBlockFree b).wp H Q E w ↔ Q () { w with fs := w.fs.giveBack b } := by
  simp [sfsBlockFree, wp_assertInuse real used]

theorem firstFree_some {free : Nat → Bool} {count start found : Nat}
    (h : firstFree free count start = some found) : free found = true := by
  induction count generalizing start with
  | zero => cases h
  | succ count ih =>
    rw [firstFree] at h
    split_ifs at h with here
    · cases h
      exact here
    · exact ih h

theorem Rep.leak {fs : Fs} (h : Rep strict (insert b inflight) A fs) (lax : ¬ strict) :
    Rep strict inflight A fs where
  freeMap := h.freeMap
  owned := ⟨h.owned.used, h.owned.exclusive, fun c mem => h.owned.taken c (mem_insert_of_mem mem),
    fun c mem => h.owned.unowned c (mem_insert_of_mem mem)⟩
  node := h.node
  cached := h.cached
  cover holds := absurd holds lax

/-- The volume after a block is taken and cleared. -/
def Fs.allocated (fs : Fs) (b : Nat) : Fs := (fs.take b).setBlock b zeroBlock

theorem sfsBlockAlloc_spec (ok : Ok strict inflight A w) : sfsBlockAlloc.wp H
    (fun b w' => w.fs.free b = true ∧ w'.fs = w.fs.allocated b ∧
      Ok strict (insert b inflight) A w' ∧ w.Later w')
    (fun _ w' => Ok strict inflight A w' ∧ w.Later w' ∧ w'.fs.icache = w.fs.icache ∧
      w'.fs.disk = w.fs.disk) w := by
  simp only [sfsBlockAlloc, wp_bind, wp_getFs]
  cases found : w.fs.bitmapAlloc with
  | none => exact ⟨ok, .refl w, rfl, rfl⟩
  | some b =>
    have free : w.fs.free b = true := firstFree_some found
    have bits := ok.rep.freeMap.bits b free
    have taken := ok.rep.take free
    let mid : World := { w with fs := w.fs.take b }
    have later : w.Later mid := (World.Later.refl w).withFs _ rfl
    have used : b < mid.fs.blocks ∧ mid.fs.free b = false :=
      (taken.owned.taken b (mem_insert_self _ _)).2
    simp only [wp_bind, wp_assert_pos (ok.rep.freeMap.unused_pos free), wp_modifyFs]
    rw [wp_assertInuse bits.1 used]
    apply (sfsClearBlock_spec ⟨bits.1, used.1⟩).mono
    · intro _ w' cleared
      have cover : Rep strict (insert b inflight) A (w.fs.allocated b) :=
        taken.writeInflight (mem_insert_self b _)
      rw [allocated, ← cleared.1] at cover
      exact ⟨free, cleared.1, ok.next cover (later.trans cleared.2), later.trans cleared.2⟩
    · intro _ w' failed
      obtain ⟨fs, after, fewer⟩ := failed
      have lax : ¬ strict := by
        intro holds
        have none : failures mid.faults.clear = 0 := ok.clear holds
        omega
      refine ⟨ok.next ?_ (later.trans after), later.trans after, by rw [fs]; rfl, by rw [fs]; rfl⟩
      rw [fs]
      exact taken.leak lax

theorem Fs.disk_allocated (fs : Fs) (b : Nat) : (fs.allocated b).disk b = zeroBlock :=
  update_self b _ _

theorem Ok.notMem_of_free (ok : Ok strict inflight A w) (free : w.fs.free b = true) :
    b ∉ inflight := by
  intro mem
  rw [(ok.rep.owned.taken b mem).2.2] at free
  cases free

variable {sin : SfsInode}

theorem Ok.index_valid (ok : Ok strict inflight A w)
    (cache : w.fs.icache i = some sin) (nonzero : sin.din.indirect ≠ 0) :
    sin.din.indirect < w.fs.blocks ∧ w.fs.free sin.din.indirect = false := by
  have index := w.fs.dinode_of_cached cache
  have used := ok.rep.owned.indirect_used (ok.rep.live_of_cached cache) (by rwa [index])
  rwa [index] at used

theorem readIndex_spec {ent index : Nat} (valid : ent ≠ 0 ∧ ent < w.fs.blocks)
    (inside : index < blkNentry) : (readIndex ent index).wp H
      (fun entry w' => entry = indexEntry (w.fs.disk ent) index ∧ w'.fs = w.fs ∧ w.Later w')
      w.IoFails w := by
  simp only [readIndex, wp_bind]
  unfold blkNentry at inside
  apply (sfsRbuf_spec valid (by unfold blksize; omega)).mono_done
  intro bytes w' read
  rw [read.1]
  exact ⟨rfl, read.2⟩

theorem World.Later.giveBack (h : w.Later w') (b : Nat) :
    w.Later { w' with fs := w'.fs.giveBack b } := h.withFs _ rfl

section

variable (ok : Ok strict inflight A w)
include ok

theorem wp_freeInflight (mem : b ∈ inflight)
    (next : Ok strict (inflight.erase b) A { w with fs := w.fs.giveBack b } →
      Q () { w with fs := w.fs.giveBack b }) : (sfsBlockFree b).wp H Q E w := by
  have taken := ok.rep.owned.taken b mem
  rw [wp_sfsBlockFree taken.1 taken.2]
  exact next (ok.next (ok.rep.giveBack mem) ((World.Later.refl w).giveBack b))

/-- Allocate a block and enter it in the indirect block that the inode has. -/
theorem bmapAllocSub_existing (cache : w.fs.icache i = some sin) (nonzero : sin.din.indirect ≠ 0)
    (above : ¬ k < ndirect)
    (below : k < maxBlocks) (empty : A.content i k = none) :
    (bmapAllocSub sin.din.indirect sin.din.indirect (k - ndirect)).wp H
      (fun found w' => found.1 = sin.din.indirect ∧ found.2 ≠ 0 ∧ w'.fs.ptr i k = found.2 ∧
        w'.fs.icache = w.fs.icache ∧
        Ok strict inflight (A.setContent i k (some zeroBlock)) w' ∧ w.Later w')
      (fun _ w' => Ok strict inflight A w' ∧ w.Later w') w := by
  have live := ok.rep.live_of_cached cache
  simp only [bmapAllocSub, wp_bind, wp_attempt]
  apply (sfsBlockAlloc_spec ok).mono
  · intro b w₁ alloc
    obtain ⟨free, fs₁, ok₁, later₁⟩ := alloc
    have mem : b ∈ insert b inflight := mem_insert_self _ _
    have erase : (insert b inflight).erase b = inflight :=
      erase_insert (ok.notMem_of_free free)
    have cache₁ : w₁.fs.icache i = some sin := by
      rw [fs₁]
      exact cache
    have index₁ := w₁.fs.dinode_of_cached cache₁
    have real₁ : (w₁.fs.dinode i).indirect ≠ 0 := by rwa [index₁]
    have empty₁ : w₁.fs.ptr i k = 0 := (ok₁.rep.node i live).content_eq_none.mp empty
    have mapped := ok₁.rep.mapIndex live real₁ above below empty₁ mem
    have ptr := ok₁.rep.ptr_setIndex live real₁ above below (ok₁.rep.inflight_lt mem) k
    rw [index₁, erase, fs₁, disk_allocated, ← fs₁] at mapped
    rw [index₁, if_pos rfl] at ptr
    have inside : k - ndirect < blkNentry := by unfold maxBlocks at below; omega
    unfold blkNentry at inside
    apply (sfsWbuf_spec ⟨nonzero, (ok₁.index_valid cache₁ nonzero).1⟩
      (by rw [length_le]; unfold blksize; omega)).mono
    · intro _ w₂ written
      have later := later₁.trans written.2
      refine ⟨rfl, (ok₁.rep.owned.taken b mem).1, ?_, ?_, ok.next ?_ later, later⟩
      · rw [written.1]
        exact ptr
      · rw [written.1, fs₁]
        rfl
      · rw [written.1]
        exact mapped
    · intro e w₂ failed
      apply wp_freeInflight (ok₁.sameFs failed.2.1 failed.2.2.1) mem
      intro ok₂
      rw [erase] at ok₂
      simp only [ne_eq]
      exact ⟨ok₂, (later₁.trans failed.2.2.1).giveBack b⟩
  · intro e w₁ failed
    simp only [ne_eq]
    exact ⟨failed.1, failed.2.1⟩

/-- Allocate a block and enter it in an indirect block that is still in flight. -/
theorem bmapAllocSub_new {ent index : Nat} (fresh : ent ∈ inflight)
    (zero : w.fs.disk ent = zeroBlock) (inside : index < blkNentry) :
    (bmapAllocSub 0 ent index).wp H
      (fun found w' => found.1 = ent ∧ found.2 ≠ ent ∧ found.2 ∉ inflight ∧
        (∀ l, indexEntry (w'.fs.disk ent) l = if l = index then found.2 else 0) ∧
        w'.fs.disk found.2 = zeroBlock ∧ w'.fs.icache = w.fs.icache ∧
        Ok strict (insert found.2 inflight) A w' ∧ w.Later w')
      (fun _ w' => Ok strict (inflight.erase ent) A w' ∧ w.Later w') w := by
  have real := (ok.rep.owned.taken ent fresh).1
  simp only [bmapAllocSub, wp_bind, wp_attempt]
  apply (sfsBlockAlloc_spec ok).mono
  · intro b w₁ alloc
    obtain ⟨free, fs₁, ok₁, later₁⟩ := alloc
    have mem : b ∈ insert b inflight := mem_insert_self _ _
    have memEnt : ent ∈ insert b inflight := mem_insert_of_mem fresh
    have notMem := ok.notMem_of_free free
    have erase : (insert b inflight).erase b = inflight := erase_insert notMem
    have apart : b ≠ ent := by
      rintro rfl
      exact notMem fresh
    have zero₁ : w₁.fs.disk ent = zeroBlock := by
      rw [fs₁, ← zero]
      exact update_of_ne apart.symm _ _
    have data₁ : w₁.fs.disk b = zeroBlock := by rw [fs₁, disk_allocated]
    unfold blkNentry at inside
    apply (sfsWbuf_spec ⟨real, (ok₁.rep.owned.taken ent memEnt).2.1⟩
      (by rw [length_le]; unfold blksize; omega)).mono
    · intro _ w₂ written
      have later := later₁.trans written.2
      refine ⟨rfl, apart, notMem, ?_, ?_, ?_, ok.next ?_ later, later⟩
      · intro l
        rw [written.1, zero₁]
        simp only [setBlock, update_self]
        rw [indexEntry_splice (ok₁.rep.inflight_lt mem), indexEntry_zeroBlock]
      · rw [written.1, ← data₁]
        exact update_of_ne apart _ _
      · rw [written.1, fs₁]
        rfl
      · rw [written.1]
        exact ok₁.rep.writeInflight memEnt
    · intro e w₂ failed
      have later := later₁.trans failed.2.2.1
      apply wp_freeInflight (ok₁.sameFs failed.2.1 failed.2.2.1) mem
      intro ok₂
      rw [erase] at ok₂
      simp only [ne_eq, real, not_false_eq_true, if_true, wp_bind]
      apply wp_freeInflight ok₂ fresh
      intro ok₃
      exact ⟨ok₃, (later.giveBack b).giveBack ent⟩
  · intro e w₁ failed
    simp only [ne_eq, real, not_false_eq_true, if_true, wp_bind]
    apply wp_freeInflight failed.1 fresh
    intro ok₂
    exact ⟨ok₂, failed.2.1.giveBack ent⟩

theorem wp_assertMapped (live : i ∈ A.live) (mapped : w.fs.ptr i k = b) :
    (assertMapped b).wp H Q E w ↔ Q () w := by
  subst mapped
  unfold assertMapped
  split_ifs with nonzero
  · rfl
  · exact wp_assertInuse nonzero (ok.rep.owned.mapped_used live nonzero)

end

/-- The entry of an existing indirect block is read. -/
theorem sfsBmapGetSubNolock_read {own index : Nat} {create : Bool}
    (valid : own ≠ 0 → own < w.fs.blocks) (inside : index < blkNentry)
    (found : own ≠ 0 → create = true → indexEntry (w.fs.disk own) index ≠ 0)
    (absent : own = 0 → create = false) : (sfsBmapGetSubNolock own index create).wp H
      (fun found w' => found = (own, if own = 0 then 0 else indexEntry (w.fs.disk own) index) ∧
        w'.fs = w.fs ∧ w.Later w')
      w.IoFails w := by
  simp only [sfsBmapGetSubNolock, wp_bind, wp_assert_pos inside]
  by_cases zero : own = 0
  · simp only [zero, ne_eq, not_true_eq_false, if_false, absent zero, if_true, wp_pure,
      true_and]
    exact .refl w
  simp only [ne_eq, zero, not_false_eq_true, if_true, wp_bind]
  apply (readIndex_spec ⟨zero, valid zero⟩ inside).mono_done
  intro entry w' read
  obtain ⟨rfl, same, later⟩ := read
  have stop : indexEntry (w.fs.disk own) index ≠ 0 ∨ create = false := by
    cases create with
    | true => exact .inl (found zero rfl)
    | false => exact .inr rfl
  rw [if_pos stop]
  exact ⟨rfl, same, later⟩

/-- The block at a position is looked up. -/
theorem sfsBmapGetNolock_read {create : Bool} (ok : Ok strict inflight A w)
    (refs : A.refs i = some r) (below : k < maxBlocks)
    (found : create = true → A.content i k ≠ none) : (sfsBmapGetNolock i k create).wp H
      (fun b w' => b = w.fs.ptr i k ∧ w'.fs = w.fs ∧ w.Later w')
      w.IoFails w := by
  obtain ⟨sin, cache, -, live, -⟩ := ok.cached refs
  have node := ok.rep.node i live
  have index := w.fs.dinode_of_cached cache
  simp only [sfsBmapGetNolock, wp_bind, wp_getSin cache]
  by_cases direct : k < ndirect
  · have ptr : w.fs.ptr i k = sin.din.direct ⟨k, direct⟩ := by
      rw [ptr_direct _ _ direct, index]
    have stop : ¬ (w.fs.ptr i k = 0 ∧ create = true) := by
      rintro ⟨zero, creating⟩
      exact found creating (node.content_eq_none.mpr zero)
    simp only [direct, dif_pos, ← ptr]
    rw [if_neg stop, wp_bind, wp_assertMapped ok live rfl]
    exact ⟨rfl, rfl, .refl w⟩
  · have inside : k - ndirect < blkNentry := by unfold maxBlocks at below; omega
    simp only [direct, dif_neg, not_false_eq_true, inside, if_true, wp_bind]
    have ptr : w.fs.ptr i k = if sin.din.indirect = 0 then 0 else
        indexEntry (w.fs.disk sin.din.indirect) (k - ndirect) := by
      by_cases zero : sin.din.indirect = 0
      · rw [if_pos zero, ptr_zero _ _ direct (by rw [index]; exact fun both => both.2 zero)]
      · rw [if_neg zero, ptr_indirect _ _ direct below (by rwa [index]), index]
    have mapped (creating : create = true) : w.fs.ptr i k ≠ 0 := fun zero =>
      found creating (node.content_eq_none.mpr zero)
    apply (sfsBmapGetSubNolock_read (fun real => (ok.index_valid cache real).1) inside ?_ ?_).mono
    · intro pair w' read
      obtain ⟨rfl, same, later⟩ := read
      rw [← ptr]
      simp only [ne_eq, not_true_eq_false, if_false, wp_bind]
      rw [wp_assertMapped (ok.sameFs same later) live (by rw [same])]
      exact ⟨rfl, same, later⟩
    · exact fun _ _ h => h
    · intro real creating
      rw [if_neg real] at ptr
      rw [← ptr]
      exact mapped creating
    · intro zero
      rw [if_pos zero] at ptr
      cases create with
      | true => exact absurd ptr (mapped rfl)
      | false => rfl

/-- What a new block at position `k` of inode `i` does to the abstract volume: the
    inode is marked dirty unless the pointer went into an indirect block it had. -/
def AFs.Maps (A : AFs) (i k : Nat) (A' : AFs) : Prop :=
  A' = (A.mark i).setContent i k (some zeroBlock) ∨
    ¬ k < ndirect ∧ A' = A.setContent i k (some zeroBlock)

section

variable (ok : Ok strict inflight A w)
include ok

theorem sfsBmapGetNolock_createDirect (refs : A.refs i = some r)
    (direct : k < ndirect) (empty : A.content i k = none) : (sfsBmapGetNolock i k true).wp H
      (fun b w' => b ≠ 0 ∧ w'.fs.ptr i k = b ∧
        Ok strict inflight ((A.mark i).setContent i k (some zeroBlock)) w' ∧ w.Later w')
      (fun _ w' => Ok strict inflight A w' ∧ w.Later w') w := by
  obtain ⟨sin, cache, -, live, -⟩ := ok.cached refs
  have zero : sin.din.direct ⟨k, direct⟩ = 0 := by
    have ptr := (ok.rep.node i live).content_eq_none.mp empty
    rwa [ptr_direct _ _ direct, w.fs.dinode_of_cached cache] at ptr
  simp only [sfsBmapGetNolock, wp_bind, wp_getSin cache]
  simp only [direct, dif_pos, zero, and_self, if_true, wp_bind]
  apply (sfsBlockAlloc_spec ok).mono
  · intro b w₁ alloc
    obtain ⟨free, fs₁, ok₁, later₁⟩ := alloc
    have mem : b ∈ insert b inflight := mem_insert_self _ _
    have cache₁ : w₁.fs.icache i = some sin := by
      rw [fs₁]
      exact cache
    have mapped := ok₁.rep.mapDirect cache₁ direct zero mem
    rw [erase_insert (ok.notMem_of_free free), fs₁, disk_allocated, ← fs₁] at mapped
    have ptr := w₁.fs.ptr_setDirect cache₁ direct b k
    rw [if_pos rfl] at ptr
    rw [setDirect, wp_modifySin cache₁]
    have ok₂ := ok₁.withFs mapped
    rw [wp_assertMapped ok₂ live ptr]
    exact ⟨(ok₁.rep.owned.taken b mem).1, ptr, ok₂, later₁.withFs _ rfl⟩
  · intro e w₁ failed
    exact ⟨failed.1, failed.2.1⟩

/-- A new block behind an indirect block that the inode has. -/
theorem sfsBmapGetNolock_createIndex (cache : w.fs.icache i = some sin)
    (nonzero : sin.din.indirect ≠ 0) (above : ¬ k < ndirect)
    (below : k < maxBlocks) (empty : A.content i k = none) : (sfsBmapGetNolock i k true).wp H
      (fun b w' => b ≠ 0 ∧ w'.fs.ptr i k = b ∧
        Ok strict inflight (A.setContent i k (some zeroBlock)) w' ∧ w.Later w')
      (fun _ w' => Ok strict inflight A w' ∧ w.Later w') w := by
  have live := ok.rep.live_of_cached cache
  have inside : k - ndirect < blkNentry := by unfold maxBlocks at below; omega
  have zero : indexEntry (w.fs.disk sin.din.indirect) (k - ndirect) = 0 := by
    have ptr := (ok.rep.node i live).content_eq_none.mp empty
    have index := w.fs.dinode_of_cached cache
    rwa [ptr_indirect _ _ above below (by rwa [index]), index] at ptr
  simp only [sfsBmapGetNolock, wp_bind, wp_getSin cache]
  rw [dif_neg above, if_pos inside]
  simp only [sfsBmapGetSubNolock, wp_bind, wp_assert_pos inside, ne_eq, nonzero,
    not_false_eq_true, if_true]
  apply (readIndex_spec ⟨nonzero, (ok.index_valid cache nonzero).1⟩ inside).mono
  · intro entry w₁ read
    obtain ⟨rfl, same, later₁⟩ := read
    simp only [zero]
    apply (bmapAllocSub_existing (ok.sameFs same later₁) (by rwa [same]) nonzero above below
      empty).mono
    · intro found w₂ entered
      obtain ⟨ent, real, ptr, -, ok₂, later₂⟩ := entered
      simp only [ent, not_true_eq_false, if_false, wp_bind]
      rw [wp_assertMapped ok₂ live ptr]
      exact ⟨real, ptr, ok₂, later₁.trans later₂⟩
    · intro e w₂ failed
      exact ⟨failed.1, later₁.trans failed.2⟩
  · intro e w₁ failed
    exact ⟨ok.sameFs failed.2.1 failed.2.2.1, failed.2.2.1⟩

/-- A new block behind a new indirect block. -/
theorem sfsBmapGetNolock_createNewIndex (cache : w.fs.icache i = some sin)
    (absent : sin.din.indirect = 0) (above : ¬ k < ndirect)
    (below : k < maxBlocks) : (sfsBmapGetNolock i k true).wp H
      (fun b w' => b ≠ 0 ∧ w'.fs.ptr i k = b ∧
        Ok strict inflight ((A.mark i).setContent i k (some zeroBlock)) w' ∧ w.Later w')
      (fun _ w' => Ok strict inflight A w' ∧ w.Later w') w := by
  have live := ok.rep.live_of_cached cache
  have inside : k - ndirect < blkNentry := by unfold maxBlocks at below; omega
  simp only [sfsBmapGetNolock, wp_bind, wp_getSin cache]
  rw [dif_neg above, if_pos inside]
  simp only [sfsBmapGetSubNolock, wp_bind, wp_assert_pos inside]
  simp only [absent, ne_eq, not_true_eq_false, Bool.true_eq_false, if_false, wp_bind]
  apply (sfsBlockAlloc_spec ok).mono
  · intro ent w₁ alloc
    obtain ⟨free, fs₁, ok₁, later₁⟩ := alloc
    have mem : ent ∈ insert ent inflight := mem_insert_self _ _
    have erase : (insert ent inflight).erase ent = inflight :=
      erase_insert (ok.notMem_of_free free)
    have realEnt := (ok₁.rep.owned.taken ent mem).1
    apply (bmapAllocSub_new ok₁ mem (by rw [fs₁, disk_allocated]) inside).mono
    · intro found w₂ entered
      obtain ⟨rfl, apart, notMem, entries, data, icache, ok₂, later₂⟩ := entered
      have cache₂ : w₂.fs.icache i = some sin := by
        rw [icache, fs₁]
        exact cache
      have mapped := ok₂.rep.mapNewIndex cache₂ above below absent (mem_insert_self _ _)
        (mem_insert_of_mem mem) apart.symm entries
      rw [erase_insert notMem, erase, data] at mapped
      have ok₃ := ok₂.withFs mapped
      have real : found.2 ≠ 0 := (ok₂.rep.owned.taken _ (mem_insert_self _ _)).1
      have ptr := w₂.fs.ptr_setIndirect cache₂ above below absent realEnt entries k
      rw [if_pos rfl] at ptr
      simp only [realEnt, not_false_eq_true, if_true, wp_bind, wp_assert,
        decide_true, true_implies, Bool.true_eq_false, false_implies, and_true]
      rw [setIndirect, wp_modifySin cache₂, wp_assertMapped ok₃ live ptr]
      exact ⟨real, ptr, ok₃, (later₁.trans later₂).withFs _ rfl⟩
    · intro e w₂ failed
      rw [erase] at failed
      exact ⟨failed.1, later₁.trans failed.2⟩
  · intro e w₁ failed
    exact ⟨failed.1, failed.2.1⟩

/-- A new block is mapped at a position that has none, or nothing changes. -/
theorem sfsBmapGetNolock_create (refs : A.refs i = some r)
    (below : k < maxBlocks) (empty : A.content i k = none) : (sfsBmapGetNolock i k true).wp H
      (fun b w' => b ≠ 0 ∧ w'.fs.ptr i k = b ∧ w.Later w' ∧
        ∃ A', A.Maps i k A' ∧ Ok strict inflight A' w')
      (fun _ w' => Ok strict inflight A w' ∧ w.Later w') w := by
  obtain ⟨sin, cache, -, -, -⟩ := ok.cached refs
  by_cases direct : k < ndirect
  · apply (sfsBmapGetNolock_createDirect ok refs direct empty).mono_done
    intro b w' h
    exact ⟨h.1, h.2.1, h.2.2.2, _, .inl rfl, h.2.2.1⟩
  by_cases absent : sin.din.indirect = 0
  · apply (sfsBmapGetNolock_createNewIndex ok cache absent direct below).mono_done
    intro b w' h
    exact ⟨h.1, h.2.1, h.2.2.2, _, .inl rfl, h.2.2.1⟩
  · apply (sfsBmapGetNolock_createIndex ok cache absent direct below empty).mono_done
    intro b w' h
    exact ⟨h.1, h.2.1, h.2.2.2, _, .inr ⟨direct, rfl⟩, h.2.2.1⟩

end

/-- The disk copy of inode `i` has not been written, but the inode may have got dirty. -/
def AFs.Unwritten (A A' : AFs) (i : Nat) : Prop :=
  (A'.info i).stored = none ∨ (A'.info i).stored = (A.info i).stored

theorem AFs.Unwritten.trans (h : A.Unwritten A' i) (h' : A'.Unwritten A'' i) : A.Unwritten A'' i := by
  cases h' with
  | inl dirty => exact .inl dirty
  | inr same =>
    cases h with
    | inl dirty => exact .inl (same.trans dirty)
    | inr before => exact .inr (same.trans before)

/-- Inode `i` has one block more. A position past the end that was mapped keeps what
    it held; otherwise the new block is zero. -/
structure AFs.Grows (A : AFs) (i : Nat) (A' : AFs) : Prop extends A.Off A' i where
  refs_self : A'.refs i = A.refs i
  type : (A'.info i).type = (A.info i).type
  nlinks : (A'.info i).nlinks = (A.info i).nlinks
  size : (A'.info i).size = (A.info i).size
  blocks : (A'.info i).blocks = (A.info i).blocks + 1
  stored : A.Unwritten A' i
  direct : (A.info i).blocks < ndirect → A.content i (A.info i).blocks = none →
    (A'.info i).stored = none
  content_self : ∀ k, A'.content i k = if k = (A.info i).blocks then
    some ((A.content i k).getD zeroBlock) else A.content i k

/-- The volume between the mapping of a new block and the new number of blocks. -/
structure AFs.Mapped (A : AFs) (i k : Nat) (A' : AFs) : Prop extends A.Off A' i where
  refs_self : A'.refs i = A.refs i
  info_self : A'.info i = { A.info i with stored := (A'.info i).stored }
  stored : A.Unwritten A' i
  direct : k < ndirect → A.content i k = none → (A'.info i).stored = none
  content_self : ∀ l, A'.content i l = if l = k then
    some ((A.content i l).getD zeroBlock) else A.content i l

theorem AFs.Mapped.of_maps (maps : A.Maps i k A') (empty : A.content i k = none) : A.Mapped i k A' := by
  have content (l : Nat) : (if l = k then some zeroBlock else A.content i l) =
      if l = k then some ((A.content i l).getD zeroBlock) else A.content i l := by
    split_ifs with same
    · rw [same, empty]
      rfl
    · rfl
  cases maps with
  | inl marked =>
    subst marked
    refine ⟨((Off.refl A i).setInfo _).setContent k _, rfl, ?_, ?_, ?_, ?_⟩
    · simp [mark]
    · simp [Unwritten, mark]
    · simp [mark]
    · intro l
      rw [content_setContent, ← content l]
      simp only [true_and]
      rfl
  | inr plain =>
    obtain ⟨above, rfl⟩ := plain
    refine ⟨(Off.refl A i).setContent k _, rfl, rfl, .inr rfl, ?_, ?_⟩
    · exact fun direct => absurd direct above
    intro l
    rw [content_setContent, ← content l]
    simp

theorem AFs.Mapped.of_present (present : A.content i k ≠ none) : A.Mapped i k A := by
  refine ⟨.refl A i, rfl, rfl, .inr rfl, fun _ empty => absurd empty present, ?_⟩
  intro l
  split_ifs with same
  · subst same
    cases held : A.content i l with
    | none => exact absurd held present
    | some block => rfl
  · rfl

section

variable (ok : Ok strict inflight A w)
include ok

/-- Find the block at a position, or map a new one. -/
theorem sfsBmapGetNolock_spec (refs : A.refs i = some r)
    (room : k < maxBlocks ∨ H .indexOutOfRange) : (sfsBmapGetNolock i k true).wp H
      (fun b w' => k < maxBlocks ∧ b ≠ 0 ∧ w'.fs.ptr i k = b ∧ w.Later w' ∧
        ∃ A', A.Mapped i k A' ∧ Ok strict inflight A' w')
      (fun _ w' => k < maxBlocks ∧ Ok strict inflight A w' ∧ w.Later w') w := by
  obtain ⟨sin, cache, -, live, -⟩ := ok.cached refs
  by_cases below : k < maxBlocks
  · by_cases empty : A.content i k = none
    · apply (sfsBmapGetNolock_create ok refs below empty).mono
      · intro b w' h
        obtain ⟨real, ptr, later, A', maps, ok'⟩ := h
        exact ⟨below, real, ptr, later, A', .of_maps maps empty, ok'⟩
      · exact fun _ _ h => ⟨below, h⟩
    · apply (sfsBmapGetNolock_read ok refs below (fun _ => empty)).mono
      · intro b w' h
        obtain ⟨rfl, same, later⟩ := h
        have real : w.fs.ptr i k ≠ 0 := fun zero =>
          empty ((ok.rep.node i live).content_eq_none.mpr zero)
        exact ⟨below, real, by rw [same], later, A, .of_present empty, ok.sameFs same later⟩
      · intro e w' h
        exact ⟨below, ok.sameFs h.2.1 h.2.2.1, h.2.2.1⟩
  · have direct : ¬ k < ndirect := by unfold maxBlocks at below; omega
    have outside : ¬ k - ndirect < blkNentry := by unfold maxBlocks at below; omega
    simp only [sfsBmapGetNolock, wp_bind, wp_getSin cache]
    rw [dif_neg direct, if_neg outside]
    cases room with
    | inl inside => exact absurd inside below
    | inr halts => exact halts

theorem Ok.mapped_valid (live : i ∈ A.live) (real : b ≠ 0)
    (ptr : w.fs.ptr i k = b) : b < w.fs.blocks ∧ w.fs.free b = false := by
  subst ptr
  exact ok.rep.owned.mapped_used live real

/-- Find a block of a file. -/
theorem sfsBmapLoadNolock_read (refs : A.refs i = some r)
    (inside : k < (A.info i).blocks) (mapped : A.content i k ≠ none) : (sfsBmapLoadNolock i k).wp H
      (fun b w' => b ≠ 0 ∧ w.fs.ptr i k = b ∧ w'.fs = w.fs ∧ w.Later w')
      w.IoFails w := by
  obtain ⟨sin, cache, -, live, info⟩ := ok.cached refs
  have node := ok.rep.node i live
  have blocks := node.blocks_of_cached cache
  have bound : k ≤ sin.din.blocks := by omega
  have notLast : k ≠ sin.din.blocks := by omega
  have below : k < maxBlocks := lt_of_lt_of_le inside node.bounded
  have real : w.fs.ptr i k ≠ 0 := fun zero => mapped (node.content_eq_none.mpr zero)
  simp only [sfsBmapLoadNolock, wp_bind, wp_getSin cache, wp_assert_pos bound, notLast]
  apply (sfsBmapGetNolock_read ok refs below (fun creating => by cases creating)).mono_done
  intro b w' h
  obtain ⟨rfl, same, later⟩ := h
  rw [wp_assertInuse real (by rw [same]; exact ok.mapped_valid live real rfl)]
  exact ⟨real, rfl, same, later⟩

/-- Append a block to a file. -/
theorem sfsBmapLoadNolock_grow (refs : A.refs i = some r)
    (last : k = (A.info i).blocks) (room : k < maxBlocks ∨ H .indexOutOfRange) :
    (sfsBmapLoadNolock i k).wp H
      (fun b w' => b ≠ 0 ∧ w'.fs.ptr i k = b ∧ w.Later w' ∧
        ∃ A', A.Grows i A' ∧ Ok strict inflight A' w')
      (fun _ w' => k < maxBlocks ∧ Ok strict inflight A w' ∧ w.Later w') w := by
  obtain ⟨sin, cache, -, live, -⟩ := ok.cached refs
  have blocks := (ok.rep.node i live).blocks_of_cached cache
  have bound : k ≤ sin.din.blocks := by omega
  have creates : k = sin.din.blocks := by omega
  simp only [sfsBmapLoadNolock, wp_bind, wp_getSin cache, wp_assert_pos bound]
  simp only [creates, decide_true, if_true]
  rw [← creates]
  apply (sfsBmapGetNolock_spec ok refs room).mono_done
  intro b w₁ h
  obtain ⟨below, real, ptr, later₁, A₁, mapped, ok₁⟩ := h
  have live₁ : i ∈ A₁.live := by rwa [mapped.live]
  obtain ⟨sin₁, cache₁, -, -, -⟩ := ok₁.cached (by rw [mapped.refs_self, refs])
  have blocks₁ : sin₁.din.blocks = k := by
    rw [← (ok₁.rep.node i live₁).blocks_of_cached cache₁, mapped.info_self, last]
  have next : (sin₁.din.blocks + 1) % 2 ^ 32 = sin₁.din.blocks + 1 := by
    have : maxBlocks = 1036 := rfl
    omega
  have rep := ok₁.rep.appendBlock cache₁ (by rwa [blocks₁])
  rw [wp_assertInuse real (ok₁.mapped_valid live₁ real ptr), wp_bind, wp_modifySin cache₁, next]
  refine ⟨real, ?_, later₁.withFs _ rfl, _, ?_, ok₁.withFs rep⟩
  · exact (w₁.fs.ptr_setSin_of_pointers cache₁ (by rfl) (by rfl) k).trans ptr
  · constructor
    · exact mapped.toOff.setInfo _
    · exact mapped.refs_self
    · rw [mapped.info_self]
      simp
    · rw [mapped.info_self]
      simp
    · rw [mapped.info_self]
      simp
    · rw [mapped.info_self]
      simp
    · exact mapped.stored.trans (.inr (by simp))
    · intro direct empty
      rw [← last] at direct empty
      simpa using mapped.direct direct empty
    · simpa [last] using mapped.content_self

end

/-- Position `k` of inode `i` is unmapped. -/
structure AFs.Unmapped (A : AFs) (i k : Nat) (A' : AFs) : Prop extends A.Off A' i where
  refs_self : A'.refs i = A.refs i
  info_self : A'.info i = { A.info i with stored := (A'.info i).stored }
  content_self : ∀ l, A'.content i l = if l = k then none else A.content i l

theorem AFs.Unmapped.direct (A : AFs) (i k : Nat) :
    A.Unmapped i k ((A.mark i).setContent i k none) := by
  refine ⟨((Off.refl A i).setInfo _).setContent k _, rfl, by simp [mark], fun l => ?_⟩
  simp [mark]

theorem AFs.Unmapped.index (A : AFs) (i k : Nat) : A.Unmapped i k (A.setContent i k none) := by
  refine ⟨(Off.refl A i).setContent k _, rfl, rfl, fun l => ?_⟩
  simp

theorem AFs.Unmapped.nothing (empty : A.content i k = none) : A.Unmapped i k A := by
  refine ⟨.refl A i, rfl, rfl, fun l => ?_⟩
  split_ifs with same
  · rw [same, empty]
  · rfl

theorem Ok.ptr_notMem (ok : Ok strict inflight A w) (live : i ∈ A.live) : w.fs.ptr i k ∉ inflight :=
  fun mem => ok.rep.owned.ptr_ne_inflight mem live rfl

/-- Unmap and free the block at a position. -/
theorem sfsBmapFreeNolock_spec (ok : Ok strict inflight A w) (refs : A.refs i = some r)
    (below : k < maxBlocks) : (sfsBmapFreeNolock i k).wp H
      (fun _ w' => w.Later w' ∧ ∃ A', A.Unmapped i k A' ∧ Ok strict inflight A' w')
      w.IoFails w := by
  obtain ⟨sin, cache, -, live, -⟩ := ok.cached refs
  have node := ok.rep.node i live
  have index := w.fs.dinode_of_cached cache
  simp only [sfsBmapFreeNolock, wp_bind, wp_getSin cache]
  by_cases direct : k < ndirect
  · have ptr : w.fs.ptr i k = sin.din.direct ⟨k, direct⟩ := by
      rw [ptr_direct _ _ direct, index]
    rw [dif_pos direct]
    by_cases zero : sin.din.direct ⟨k, direct⟩ = 0
    · simp only [zero]
      exact ⟨.refl w, A, .nothing (node.content_eq_none.mpr (ptr.trans zero)), ok⟩
    have notMem : sin.din.direct ⟨k, direct⟩ ∉ inflight := by
      rw [← ptr]
      exact ok.ptr_notMem live
    have rep := (ok.rep.unmapDirect cache direct zero).giveBack (mem_insert_self _ _)
    rw [erase_insert notMem] at rep
    simp only [ne_eq, zero, not_false_eq_true, if_true, wp_bind]
    rw [wp_sfsBlockFree zero (ok.mapped_valid live zero ptr), setDirect,
      wp_modifySin (w := { w with fs := w.fs.giveBack _ }) cache]
    exact ⟨(World.Later.refl w).withFs _ rfl, _, .direct A i k, ok.withFs rep⟩
  · have inside : k - ndirect < blkNentry := by unfold maxBlocks at below; omega
    rw [dif_neg direct]
    by_cases zero : sin.din.indirect = 0
    · have ptr : w.fs.ptr i k = 0 := by
        apply ptr_zero _ _ direct
        rw [index]
        exact fun both => both.2 zero
      rw [if_neg (fun both => both.2 zero)]
      exact ⟨.refl w, A, .nothing (node.content_eq_none.mpr ptr), ok⟩
    · rw [if_pos ⟨inside, zero⟩]
      have valid := ok.index_valid cache zero
      have real : (w.fs.dinode i).indirect ≠ 0 := by rwa [index]
      have ptr : w.fs.ptr i k = indexEntry (w.fs.disk sin.din.indirect) (k - ndirect) := by
        rw [ptr_indirect _ _ direct below real, index]
      simp only [sfsBmapFreeSubNolock, wp_bind]
      rw [wp_assertInuse zero valid, wp_assert_pos inside]
      apply (readIndex_spec ⟨zero, valid.1⟩ inside).mono_done
      intro entry w₁ read
      obtain ⟨rfl, same, later₁⟩ := read
      rw [← ptr]
      have ok₁ := ok.sameFs same later₁
      by_cases empty : w.fs.ptr i k = 0
      · simp only [empty]
        exact ⟨later₁, A, .nothing (node.content_eq_none.mpr empty), ok₁⟩
      simp only [ne_eq, empty, not_false_eq_true, if_true, wp_bind]
      have rep := ok.rep.unmapIndex live real direct below empty
      rw [index] at rep
      unfold blkNentry at inside
      apply (sfsWbuf_spec ⟨zero, by rw [same]; exact valid.1⟩
        (by rw [length_le]; unfold blksize; omega)).mono
      · intro _ w₂ written
        rw [same] at written
        have later₂ := later₁.trans written.2
        have ok₂ := ok.next (by rw [written.1]; exact rep) later₂
        apply wp_freeInflight ok₂ (mem_insert_self _ _)
        intro ok₃
        rw [erase_insert (ok.ptr_notMem live)] at ok₃
        exact ⟨later₂.giveBack _, _, .index A i k, ok₃⟩
      · intro e w₂ failed
        exact ⟨failed.1, failed.2.1.trans same, later₁.lost failed.2.2⟩

/-- Inode `i` has lost its last block. -/
structure AFs.Shrinks (A : AFs) (i : Nat) (A' : AFs) : Prop extends A.Off A' i where
  refs_self : A'.refs i = A.refs i
  info_self : A'.info i = { A.info i with
    blocks := (A.info i).blocks - 1, stored := none }
  content_self : ∀ k, A'.content i k = if k = (A.info i).blocks - 1 then none else A.content i k

/-- Drop the last block of a file. -/
theorem sfsBmapTruncateNolock_spec (ok : Ok strict inflight A w) (refs : A.refs i = some r)
    (nonempty : (A.info i).blocks ≠ 0) : (sfsBmapTruncateNolock i).wp H
      (fun _ w' => w.Later w' ∧ ∃ A', A.Shrinks i A' ∧ Ok strict inflight A' w')
      w.IoFails w := by
  obtain ⟨sin, cache, -, live, -⟩ := ok.cached refs
  have node := ok.rep.node i live
  have blocks := node.blocks_of_cached cache
  have bounded := node.bounded
  simp only [sfsBmapTruncateNolock, wp_bind, wp_getSin cache]
  rw [wp_assert_pos (by rwa [← blocks]), ← blocks]
  apply (sfsBmapFreeNolock_spec ok refs (by omega)).mono_done
  intro _ w₁ h
  obtain ⟨later₁, A₁, unmapped, ok₁⟩ := h
  obtain ⟨sin₁, cache₁, -, live₁, info₁⟩ := ok₁.cached
    (by rw [unmapped.refs_self, refs])
  have node₁ := ok₁.rep.node i live₁
  have blocks₁ : sin₁.din.blocks = (A.info i).blocks := by
    rw [← node₁.blocks_of_cached cache₁, unmapped.info_self]
  have fits := node₁.fits
  rw [w₁.fs.dinode_of_cached cache₁] at fits
  rw [wp_modifySin cache₁]
  refine ⟨later₁.withFs _ rfl, _, ?_, ok₁.withFs (ok₁.rep.updateDirty cache₁ _ rfl rfl
    { fits with blocks := ?_ } ?_ rfl rfl)⟩
  · refine ⟨unmapped.toOff.setInfo _, unmapped.refs_self, ?_, unmapped.content_self⟩
    rw [unmapped.info_self] at info₁
    have type := congrArg Info.type info₁
    have nlinks := congrArg Info.nlinks info₁
    have size := congrArg Info.size info₁
    simp only [DiskInode.info_size] at type nlinks size
    simp [DiskInode.info, type, nlinks, size, blocks₁]
  · have := fits.blocks
    change sin₁.din.blocks - 1 < 2 ^ 32
    omega
  · change sin₁.din.blocks - 1 ≤ maxBlocks
    omega

end Procore.Sfs
