import Procore.Sfs.Rep

/-! # Changes of the block map

A block in flight is entered in the block map of an inode, or a mapped block
is taken out of it. Only pointers of that inode change, and its blocks are not
reached from any other.
-/

namespace Procore.Sfs

open Procore.Lib Finset Procore.Sfs.Fs
open Function

variable {strict : Prop} {inflight inflight' : Finset Nat} {A A' : AFs} {fs fs' : Fs}
  {i k b : Nat} {sin sin' : SfsInode}

theorem Fs.dinode_of_cached (cache : fs.icache i = some sin) : fs.dinode i = sin.din := by
  simp [dinode, cache]

theorem Fs.stored_of_dirty (cache : fs.icache i = some sin) (dirty : sin.dirty = true) :
    fs.stored i = none := by
  simp [stored, cache, dirty]

/-- An inode that is written back later has only its memory copy to agree with. -/
theorem NodeRep.of_dirty (cache : fs.icache i = some sin) (dirty : sin.dirty = true)
    (info : A.info i = sin.din.info none) (fits : sin.din.Fits)
    (content : ∀ k, fs.content i k = A.content i k) (refs : A.refs i = some sin.refs)
    (bounded : sin.din.blocks ≤ maxBlocks) : NodeRep A fs i := by
  constructor
  · rw [fs.dinode_of_cached cache, fs.stored_of_dirty cache dirty, info]
  · rwa [fs.dinode_of_cached cache]
  · exact content
  · rw [cache, refs]
    rfl
  · intro other cache' isClean
    rw [cache] at cache'
    cases cache'
    rw [dirty] at isClean
    cases isClean
  · rwa [info]
  · intro n some
    rw [info] at some
    cases some

section

variable (h : NodeRep A fs i) (cache : fs.icache i = some sin)
include h cache

theorem NodeRep.info_of_cached : A.info i = sin.din.info (A.info i).stored := by
  have info := h.info
  rw [fs.dinode_of_cached cache] at info
  rw [← info]
  rfl

theorem NodeRep.refs_of_cached : A.refs i = some sin.refs := by
  rw [← h.refs, cache]
  rfl

theorem NodeRep.blocks_of_cached : (A.info i).blocks = sin.din.blocks := by
  rw [h.info_of_cached cache]
  rfl

end

theorem NodeRep.content_eq_none (h : NodeRep A fs i) : A.content i k = none ↔ fs.ptr i k = 0 := by
  rw [← h.content k, Fs.content]
  split <;> simp [*]

theorem NodeRep.content_of_ptr (h : NodeRep A fs i) (nonzero : fs.ptr i k ≠ 0) :
    A.content i k = some (fs.disk (fs.ptr i k)) := by
  rw [← h.content k, Fs.content, if_neg nonzero]

/-- The abstract volumes differ at most in inode `i`. -/
structure AFs.Off (A A' : AFs) (i : Nat) : Prop where
  live : A'.live = A.live
  info : ∀ j, j ≠ i → A'.info j = A.info j
  refs : ∀ j, j ≠ i → A'.refs j = A.refs j
  content : ∀ j, j ≠ i → A'.content j = A.content j

/-- The inode will be written back before it is dropped. -/
def AFs.mark (A : AFs) (i : Nat) : AFs :=
  A.setInfo i { A.info i with stored := none }

namespace AFs.Off

theorem refl (A : AFs) (i : Nat) : A.Off A i := ⟨rfl, fun _ _ => rfl, fun _ _ => rfl, fun _ _ => rfl⟩

theorem setInfo (h : A.Off A' i) (info : Info) : A.Off (A'.setInfo i info) i :=
  { h with info := fun j other => (update_of_ne other _ _).trans (h.info j other) }

theorem setRefs (h : A.Off A' i) (refs : Option InodeRefs) : A.Off (A'.setRefs i refs) i :=
  { h with refs := fun j other => (update_of_ne other _ _).trans (h.refs j other) }

theorem setContent (h : A.Off A' i) (k : Nat) (c : Option Block) : A.Off (A'.setContent i k c) i :=
  { h with content := fun j other => (update_of_ne other _ _).trans (h.content j other) }

end AFs.Off

/-- Everything but inode `i` is as before. -/
structure OffNode (A A' : AFs) (fs fs' : Fs) (i : Nat) : Prop extends AFs.Off A A' i where
  cache : ∀ j, j ≠ i → fs'.icache j = fs.icache j
  agree : ∀ j ∈ A.live, j ≠ i → fs.Agree fs' j

theorem OffNode.node (h : Rep strict inflight A fs) (off : OffNode A A' fs fs' i)
    (node : NodeRep A' fs' i) : ∀ j ∈ A'.live, NodeRep A' fs' j := by
  intro j live
  rw [off.live] at live
  by_cases same : j = i
  · subst same
    exact node
  · exact (h.node j live).agree (off.agree j live same) (off.info j same) (off.refs j same)
      (off.content j same)

theorem OffNode.cached (h : Rep strict inflight A fs) (off : OffNode A A' fs fs' i)
    (mem : i ∈ A.live) : ∀ j, j ∉ A'.live → fs'.icache j = none ∧ A'.refs j = none := by
  intro j dead
  rw [off.live] at dead
  have different : j ≠ i := by
    rintro rfl
    exact dead mem
  rw [off.cache j different, off.refs j different]
  exact h.cached j dead

/-- The slots of the other inodes own what they owned. -/
theorem OffNode.owns (off : OffNode A A' fs fs' i) (blocks : fs'.blocks = fs.blocks)
    {slot : Slot} (notMapped : ∀ k, slot ≠ .mapped i k) (notIndirect : slot ≠ .indirect i) :
    Owns A.live fs' b slot ↔ Owns A.live fs b slot := by
  cases slot with
  | sys => simp only [Owns, isSys, blocks]
  | inode j => rfl
  | mapped j k =>
    have other : j ≠ i := by
      rintro rfl
      exact notMapped k rfl
    constructor <;> rintro ⟨mem, rest⟩ <;> refine ⟨mem, ?_⟩
    · rwa [(off.agree j mem other).ptr_eq] at rest
    · rwa [(off.agree j mem other).ptr_eq]
  | indirect j =>
    have other : j ≠ i := by
      rintro rfl
      exact notIndirect rfl
    constructor <;> rintro ⟨mem, rest⟩ <;> refine ⟨mem, ?_⟩
    · rwa [(off.agree j mem other).dinode_eq] at rest
    · rwa [(off.agree j mem other).dinode_eq]

section

variable (h : Rep strict inflight A fs) (mem : i ∈ A.live) (off : OffNode A A' fs fs' i)
  (node : NodeRep A' fs' i) (blocks : fs'.blocks = fs.blocks) (free : fs'.free = fs.free)
  (unused : fs'.unused = fs.unused)
include h mem off node blocks free unused

/-- Block `b` is entered at position `k`, through a new indirect block or not. -/
theorem Rep.enter (ptr : ∀ l, fs'.ptr i l = if l = k then b else fs.ptr i l)
    (unmapped : fs.ptr i k = 0)
    (fresh : b ∈ inflight) (gone : b ∉ inflight') (sub : inflight' ⊆ inflight)
    (index : (fs'.dinode i).indirect = (fs.dinode i).indirect ∨
      (fs.dinode i).indirect = 0 ∧ (fs'.dinode i).indirect ∈ inflight ∧
        (fs'.dinode i).indirect ∉ inflight' ∧ (fs'.dinode i).indirect ≠ b)
    (left : ∀ c ∈ inflight, c ∉ inflight' → c = b ∨ c = (fs'.dinode i).indirect) :
    Rep strict inflight' A' fs' := by
  classical
  refine h.reuse (fun c u => if u = .inflight ∧ c ∉ inflight' then
      if c = b then .slot (.mapped i k) else .slot (.indirect i) else u)
    (h.freeMap.congr blocks free unused) blocks (fun c u use => ?_) (fun _ c u use => ?_)
    (off.node h node) (off.cached h mem)
  all_goals rw [off.live] at *
  · cases u with
    | free => exact ⟨.free, by simpa [Uses, free] using use, by simp⟩
    | inflight => exact ⟨.inflight, sub use, if_neg fun out => out.2 use⟩
    | slot slot =>
      have old (own : Owns A.live fs c slot) : ∃ v, Uses A.live inflight fs c v ∧
          (if v = .inflight ∧ c ∉ inflight' then
            if c = b then .slot (.mapped i k) else .slot (.indirect i) else v) = .slot slot :=
        ⟨.slot slot, own, by simp⟩
      by_cases notMapped : ∀ l, slot ≠ .mapped i l
      · by_cases notIndirect : slot = .indirect i
        · subst notIndirect
          obtain ⟨live, nonzero, rfl⟩ := use
          rcases index with same | ⟨-, entered, out, other⟩
          · exact old ⟨live, nonzero, same.symm⟩
          · exact ⟨.inflight, entered, by simp [out, other]⟩
        · exact old ((off.owns blocks notMapped notIndirect).mp use)
      · push Not at notMapped
        obtain ⟨l, rfl⟩ := notMapped
        obtain ⟨live, nonzero, target⟩ := use
        rw [ptr l] at target
        split at target
        · rename_i same
          subst same target
          exact ⟨.inflight, fresh, by simp [gone]⟩
        · exact old ⟨live, nonzero, target⟩
  · cases u with
    | free => simpa [Uses, free] using use
    | inflight =>
      by_cases still : c ∈ inflight'
      · simp [Uses, still]
      have nonzero := (h.owned.taken c use).1
      by_cases data : c = b
      · subst data
        simpa [still] using ⟨mem, nonzero, by rw [ptr k, if_pos rfl]⟩
      · simpa [still, data] using ⟨mem, nonzero, ((left c use still).resolve_left data).symm⟩
    | slot slot =>
      simp only [reduceCtorEq, false_and, if_false]
      by_cases notMapped : ∀ l, slot ≠ .mapped i l
      · by_cases notIndirect : slot = .indirect i
        · subst notIndirect
          obtain ⟨live, nonzero, target⟩ := use
          rcases index with same | entered
          · exact ⟨live, nonzero, same.trans target⟩
          · exact absurd (target.symm.trans entered.1) nonzero
        · exact (off.owns blocks notMapped notIndirect).mpr use
      · push Not at notMapped
        obtain ⟨l, rfl⟩ := notMapped
        obtain ⟨live, nonzero, target⟩ := use
        have other : l ≠ k := by
          rintro rfl
          exact nonzero (target.symm.trans unmapped)
        exact ⟨live, nonzero, by rw [ptr l, if_neg other, target]⟩

/-- The block at position `k` is taken out of the map. -/
theorem Rep.leave (mapped : fs.ptr i k ≠ 0)
    (ptr : ∀ l, fs'.ptr i l = if l = k then 0 else fs.ptr i l)
    (index : (fs'.dinode i).indirect = (fs.dinode i).indirect) :
    Rep strict (insert (fs.ptr i k) inflight) A' fs' := by
  have owns (c : Nat) (slot : Slot) :
      Owns A.live fs' c slot ↔ Owns A.live fs c slot ∧ slot ≠ .mapped i k := by
    by_cases notMapped : ∀ l, slot ≠ .mapped i l
    · by_cases notIndirect : slot = .indirect i
      · subst notIndirect
        simp [Owns, index]
      · rw [off.owns blocks notMapped notIndirect]
        exact ⟨fun own => ⟨own, notMapped k⟩, And.left⟩
    · push Not at notMapped
      obtain ⟨l, rfl⟩ := notMapped
      simp only [Owns, ptr l, ne_eq, Slot.mapped.injEq, true_and]
      by_cases same : l = k
      · simp only [same, not_true_eq_false, and_false, iff_false, not_and]
        intro _ nonzero zero
        exact nonzero zero.symm
      · simp [same]
  classical
  have own : Owns A.live fs (fs.ptr i k) (.mapped i k) := ⟨mem, mapped, rfl⟩
  refine h.reuse (fun _ u => if u = .slot (.mapped i k) then .inflight else u)
    (h.freeMap.congr blocks free unused) blocks (fun c u use => ?_) (fun _ c u use => ?_)
    (off.node h node) (off.cached h mem)
  all_goals rw [off.live] at *
  · cases u with
    | free => exact ⟨.free, by simpa [Uses, free] using use, by simp⟩
    | inflight =>
      rcases mem_insert.mp use with rfl | old
      · exact ⟨.slot (.mapped i k), own, if_pos rfl⟩
      · exact ⟨.inflight, old, by simp⟩
    | slot slot =>
      obtain ⟨old, other⟩ := (owns c slot).mp use
      exact ⟨.slot slot, old, by simp [other]⟩
  · cases u with
    | free => simpa [Uses, free] using use
    | inflight => simpa [Uses] using Or.inr use
    | slot slot =>
      by_cases dropped : slot = .mapped i k
      · subst dropped
        simpa [Uses] using Or.inl use.2.2.symm
      · simpa [Uses, dropped] using (owns c slot).mpr ⟨use, dropped⟩

end

theorem indexEntry_splice {block : Block} {index l : Nat} (bound : b < 2 ^ 32) :
    indexEntry (splice block (index * 4) (le 4 b)) l =
      if l = index then b else indexEntry block l := by
  unfold indexEntry
  by_cases same : l = index
  · subst same
    have read := slice_splice_self block (l * 4) (le 4 b)
    rw [length_le] at read
    rw [read, if_pos rfl, ofLe_le_of_lt bound]
  · rw [if_neg same, slice_splice_of_disjoint]
    rw [length_le]
    omega

theorem indexEntry_zeroBlock (l : Nat) : indexEntry zeroBlock l = 0 := by
  rw [indexEntry, slice_zeroBlock, ofLe_replicate_zero]

theorem Fs.ptr_direct (fs : Fs) (i : Nat) {k : Nat} (direct : k < ndirect) :
    fs.ptr i k = (fs.dinode i).direct ⟨k, direct⟩ := by
  rw [ptr, dif_pos direct]

theorem Fs.ptr_indirect (fs : Fs) (i : Nat) {k : Nat} (above : ¬ k < ndirect) (below : k < maxBlocks)
    (nonzero : (fs.dinode i).indirect ≠ 0) :
    fs.ptr i k = indexEntry (fs.disk (fs.dinode i).indirect) (k - ndirect) := by
  rw [ptr, dif_neg above, if_pos ⟨below, nonzero⟩]

theorem Fs.ptr_zero (fs : Fs) (i : Nat) {k : Nat} (above : ¬ k < ndirect)
    (none : ¬ (k < maxBlocks ∧ (fs.dinode i).indirect ≠ 0)) : fs.ptr i k = 0 := by
  rw [ptr, dif_neg above, if_neg none]

/-- Where the contents of the blocks stay, the contents of a file follow its pointers. -/
theorem NodeRep.content_remap (h : NodeRep A fs i) {c : Option Block}
    (ptr_eq : ∀ l, fs'.ptr i l = if l = k then b else fs.ptr i l)
    (disk : ∀ l, l ≠ k → fs.ptr i l ≠ 0 → fs'.disk (fs.ptr i l) = fs.disk (fs.ptr i l))
    (entered : (if b = 0 then none else some (fs'.disk b)) = c) (l : Nat) :
    fs'.content i l = (A.setContent i k c).content i l := by
  rw [AFs.content_setContent, Fs.content, ptr_eq l]
  by_cases same : l = k
  · simp only [same]
    exact entered
  simp only [same, if_false, and_false]
  rw [← h.content l, Fs.content]
  split
  · rfl
  · rename_i nonzero
    rw [disk l same nonzero]

theorem AFs.Off.setSin (off : A.Off A' i) (fs : Fs) (sin : Option SfsInode) :
    OffNode A A' fs (fs.setSin i sin) i where
  toOff := off
  cache _ other := update_of_ne other _ _
  agree _ _ other := .of_eq (update_of_ne other _ _) rfl

/-- A block that belongs to inode `i` is rewritten. -/
theorem AFs.Off.setIndex (off : A.Off A' i) (h : Rep strict inflight A fs) (mem : i ∈ A.live)
    (nonzero : (fs.dinode i).indirect ≠ 0) (block : Block) :
    OffNode A A' fs (fs.setBlock (fs.dinode i).indirect block) i where
  toOff := off
  cache _ _ := rfl
  agree j live other := by
    have own : Owns A.live fs (fs.dinode i).indirect (.indirect i) := ⟨mem, nonzero, rfl⟩
    apply Agree.setBlock
    · intro same
      cases h.owned.exclusive _ _ (.inode j) own ⟨live, same⟩
    · intro same
      cases h.owned.exclusive _ _ (.indirect j) own ⟨live, nonzero, same⟩
      exact other rfl
    · intro k same
      cases h.owned.exclusive _ _ (.mapped j k) own ⟨live, nonzero, same⟩

theorem Rep.live_of_cached (h : Rep strict inflight A fs) (cache : fs.icache i = some sin) :
    i ∈ A.live := by
  by_contra dead
  rw [(h.cached i dead).1] at cache
  cases cache

theorem Rep.inflight_lt (h : Rep strict inflight A fs) (mem : b ∈ inflight) : b < 2 ^ 32 :=
  lt_of_lt_of_le (h.owned.taken b mem).2.1 h.freeMap.width

/-- The node after its pointers have changed in memory. -/
theorem NodeRep.remap (h : NodeRep A fs i) (cache : fs.icache i = some sin)
    (cache' : fs'.icache i = some sin') (dirty : sin'.dirty = true) (refs : sin'.refs = sin.refs)
    (info : sin'.din.info none = sin.din.info none) (fits : sin'.din.Fits)
    {c : Option Block} (content : ∀ l, fs'.content i l = (A.setContent i k c).content i l) :
    NodeRep ((A.mark i).setContent i k c) fs' i := by
  have blocks : sin'.din.blocks = (A.info i).blocks := by
    rw [h.blocks_of_cached cache]
    exact congrArg Info.blocks info
  apply NodeRep.of_dirty cache' dirty
  · change update A.info i _ i = _
    rw [update_self, info, h.info_of_cached cache]
    rfl
  · exact fits
  · exact content
  · rw [refs]
    exact h.refs_of_cached cache
  · rw [blocks]
    exact h.bounded

theorem Fs.ptr_setDirect (fs : Fs) (cache : fs.icache i = some sin) (direct : k < ndirect) (b l : Nat) :
    (fs.setSin i (some { sin with
      din := { sin.din with direct := update sin.din.direct ⟨k, direct⟩ b }
      dirty := true })).ptr i l = if l = k then b else fs.ptr i l := by
  simp only [ptr, dinode, setSin, update_self, cache]
  by_cases small : l < ndirect
  · simp only [dif_pos small, update_apply, Fin.mk.injEq]
  · have other : l ≠ k := by omega
    simp [dif_neg small, if_neg other]

theorem DiskInode.Fits.setDirect {d : DiskInode} (fits : d.Fits) (k : Fin ndirect)
    (bound : b < 2 ^ 32) : ({ d with direct := update d.direct k b } : DiskInode).Fits := by
  refine { fits with direct := fun l => ?_ }
  simp only [update_apply]
  split
  · exact bound
  · exact fits.direct l

/-- Enter a block at a direct pointer. -/
theorem Rep.mapDirect (h : Rep strict inflight A fs) (cache : fs.icache i = some sin)
    (direct : k < ndirect) (empty : sin.din.direct ⟨k, direct⟩ = 0) (fresh : b ∈ inflight) :
    Rep strict (inflight.erase b) ((A.mark i).setContent i k (some (fs.disk b)))
      (fs.setSin i (some { sin with
        din := { sin.din with direct := update sin.din.direct ⟨k, direct⟩ b }
        dirty := true })) := by
  have live := h.live_of_cached cache
  have node := h.node i live
  have before := fs.dinode_of_cached cache
  have nonzero := (h.owned.taken b fresh).1
  have ptr := fs.ptr_setDirect cache direct b
  refine h.enter live (((AFs.Off.refl A i).setInfo _).setContent k _ |>.setSin fs _) ?_
    (by rfl) (by rfl) (by rfl) ptr ?_ fresh (notMem_erase b _) (erase_subset b _) ?_ ?_
  · refine node.remap cache (update_self i _ _) (by rfl) (by rfl) (by rfl) ?_ ?_
    · have fits := node.fits
      rw [before] at fits
      exact fits.setDirect ⟨k, direct⟩ (h.inflight_lt fresh)
    · exact node.content_remap ptr (fun _ _ _ => rfl) (by rw [if_neg nonzero]; rfl)
  · rw [ptr_direct fs i direct, before, empty]
  · left
    rw [before, dinode_of_cached (update_self i _ _)]
  · intro c mem gone
    left
    by_contra other
    exact gone (mem_erase.mpr ⟨other, mem⟩)

section Index

variable (h : Rep strict inflight A fs) (mem : i ∈ A.live)
  (nonzero : (fs.dinode i).indirect ≠ 0)

include h mem nonzero

theorem Rep.index_ne : i ≠ (fs.dinode i).indirect ∧ (∀ l, fs.ptr i l ≠ (fs.dinode i).indirect) ∧
    ∀ c ∈ inflight, c ≠ (fs.dinode i).indirect := by
  have own : Owns A.live fs (fs.dinode i).indirect (.indirect i) := ⟨mem, nonzero, rfl⟩
  refine ⟨?_, ?_, ?_⟩
  · intro same
    cases h.owned.exclusive _ _ (.inode i) own ⟨mem, same⟩
  · intro l same
    cases h.owned.exclusive _ _ (.mapped i l) own ⟨mem, nonzero, same⟩
  · rintro c taken rfl
    exact h.owned.unowned _ taken _ own

theorem Rep.dinode_setIndex (block : Block) :
    (fs.setBlock (fs.dinode i).indirect block).dinode i = fs.dinode i :=
  dinode_congr rfl (update_of_ne (h.index_ne mem nonzero).1 _ _)

section

variable (above : ¬ k < ndirect) (below : k < maxBlocks)
include above below

/-- One entry of the indirect block is rewritten. -/
theorem Rep.ptr_setIndex (bound : b < 2 ^ 32) (l : Nat) :
    (fs.setBlock (fs.dinode i).indirect (splice (fs.disk (fs.dinode i).indirect)
      ((k - ndirect) * 4) (le 4 b))).ptr i l = if l = k then b else fs.ptr i l := by
  have same := h.dinode_setIndex mem nonzero
    (splice (fs.disk (fs.dinode i).indirect) ((k - ndirect) * 4) (le 4 b))
  by_cases small : l < ndirect
  · have other : l ≠ k := by omega
    rw [ptr_direct _ _ small, ptr_direct _ _ small, same, if_neg other]
  by_cases large : l < maxBlocks
  · rw [ptr_indirect _ _ small large (by rwa [same]), ptr_indirect _ _ small large nonzero,
      same]
    simp only [setBlock, update_self]
    rw [indexEntry_splice bound]
    have iff : l - ndirect = k - ndirect ↔ l = k := by omega
    simp [iff]
  · have other : l ≠ k := by omega
    rw [ptr_zero _ _ small (fun both => large both.1), if_neg other,
      ptr_zero _ _ small (fun both => large both.1)]

theorem Rep.node_setIndex (bound : b < 2 ^ 32) (other : b ≠ (fs.dinode i).indirect) :
    NodeRep (A.setContent i k (if b = 0 then none else some (fs.disk b)))
      (fs.setBlock (fs.dinode i).indirect (splice (fs.disk (fs.dinode i).indirect)
        ((k - ndirect) * 4) (le 4 b))) i := by
  have node := h.node i mem
  have apart := h.index_ne mem nonzero
  refine node.transfer (by rfl) (update_of_ne apart.1 _ _) (by rfl) (by rfl) ?_
  apply node.content_remap (h.ptr_setIndex mem nonzero above below bound)
  · intro l _ _
    exact update_of_ne (apart.2.1 l) _ _
  · rw [show (fs.setBlock (fs.dinode i).indirect _).disk b = fs.disk b from
      update_of_ne other _ _]

/-- Enter a block in the indirect block that the inode has. -/
theorem Rep.mapIndex (empty : fs.ptr i k = 0) (fresh : b ∈ inflight) :
    Rep strict (inflight.erase b) (A.setContent i k (some (fs.disk b)))
      (fs.setBlock (fs.dinode i).indirect (splice (fs.disk (fs.dinode i).indirect)
        ((k - ndirect) * 4) (le 4 b))) := by
  have bound := h.inflight_lt fresh
  have real := (h.owned.taken b fresh).1
  have node := h.node_setIndex mem nonzero above below bound
    ((h.index_ne mem nonzero).2.2 b fresh)
  rw [if_neg real] at node
  refine h.enter mem (((AFs.Off.refl A i).setContent k _).setIndex h mem nonzero _) node
    (by rfl) (by rfl) (by rfl) (h.ptr_setIndex mem nonzero above below bound) empty fresh
    (notMem_erase b _) (erase_subset b _) ?_ ?_
  · left
    rw [h.dinode_setIndex mem nonzero]
  · intro c taken gone
    left
    by_contra other
    exact gone (mem_erase.mpr ⟨other, taken⟩)

/-- Clear an entry of the indirect block. -/
theorem Rep.unmapIndex (mapped : fs.ptr i k ≠ 0) :
    Rep strict (insert (fs.ptr i k) inflight) (A.setContent i k none)
      (fs.setBlock (fs.dinode i).indirect (splice (fs.disk (fs.dinode i).indirect)
        ((k - ndirect) * 4) (le 4 0))) := by
  have bound : 0 < 2 ^ 32 := by decide
  have node := h.node_setIndex mem nonzero above below bound nonzero.symm
  exact h.leave mem (((AFs.Off.refl A i).setContent k _).setIndex h mem nonzero _) node
    (by rfl) (by rfl) (by rfl) mapped (h.ptr_setIndex mem nonzero above below bound)
    (by rw [h.dinode_setIndex mem nonzero])

end

end Index

theorem Fs.dinode_setIndirect (fs : Fs) (i ent : Nat) (sin : SfsInode) :
    (fs.setSin i (some { sin with din := { sin.din with indirect := ent }, dirty := true })).dinode i =
      { sin.din with indirect := ent } := by
  rw [dinode_of_cached (update_self i _ _)]

/-- The pointers behind an indirect block that the inode did not have. -/
theorem Fs.ptr_setIndirect (fs : Fs) (cache : fs.icache i = some sin) (above : ¬ k < ndirect)
    (below : k < maxBlocks) (empty : sin.din.indirect = 0) {ent : Nat} (real : ent ≠ 0)
    (entries : ∀ l, indexEntry (fs.disk ent) l = if l = k - ndirect then b else 0) (l : Nat) :
    (fs.setSin i (some { sin with din := { sin.din with indirect := ent }, dirty := true })).ptr i l =
      if l = k then b else fs.ptr i l := by
  have before := fs.dinode_of_cached cache
  have after := fs.dinode_setIndirect i ent sin
  by_cases small : l < ndirect
  · have other : l ≠ k := by omega
    rw [ptr_direct _ _ small, after, if_neg other, ptr_direct _ _ small, before]
  have unmapped : fs.ptr i l = 0 := by
    apply ptr_zero _ _ small
    rw [before]
    exact fun both => both.2 empty
  by_cases large : l < maxBlocks
  · rw [ptr_indirect _ _ small large (by rw [after]; exact real), after, unmapped]
    have iff : l - ndirect = k - ndirect ↔ l = k := by omega
    simp only [← iff]
    exact entries (l - ndirect)
  · have other : l ≠ k := by omega
    rw [ptr_zero _ _ small (fun both => large both.1), if_neg other, unmapped]

/-- Enter a block through an indirect block that the inode did not have. -/
theorem Rep.mapNewIndex (h : Rep strict inflight A fs) (cache : fs.icache i = some sin)
    (above : ¬ k < ndirect) (below : k < maxBlocks) (empty : sin.din.indirect = 0) {ent : Nat}
    (fresh : b ∈ inflight) (freshEnt : ent ∈ inflight) (different : ent ≠ b)
    (entries : ∀ l, indexEntry (fs.disk ent) l = if l = k - ndirect then b else 0) :
    Rep strict ((inflight.erase b).erase ent) ((A.mark i).setContent i k (some (fs.disk b)))
      (fs.setSin i (some { sin with din := { sin.din with indirect := ent }, dirty := true })) := by
  have live := h.live_of_cached cache
  have node := h.node i live
  have before := fs.dinode_of_cached cache
  have nonzero := (h.owned.taken b fresh).1
  have after := fs.dinode_setIndirect i ent sin
  have ptr := fs.ptr_setIndirect cache above below empty (h.owned.taken ent freshEnt).1 entries
  refine h.enter live (((AFs.Off.refl A i).setInfo _).setContent k _ |>.setSin fs _) ?_
    (by rfl) (by rfl) (by rfl) ptr ?_ fresh ?_ ?_ ?_ ?_
  · refine node.remap cache (update_self i _ _) (by rfl) (by rfl) (by rfl) ?_ ?_
    · have fits := node.fits
      rw [before] at fits
      exact { fits with indirect := h.inflight_lt freshEnt }
    · exact node.content_remap ptr (fun _ _ _ => rfl) (by rw [if_neg nonzero]; rfl)
  · apply ptr_zero _ _ above
    rw [before]
    exact fun both => both.2 empty
  · intro mem
    exact notMem_erase b _ (mem_of_mem_erase mem)
  · exact (erase_subset _ _).trans (erase_subset _ _)
  · right
    rw [before, after]
    exact ⟨empty, freshEnt, notMem_erase _ _, different⟩
  · intro c mem gone
    rw [after]
    by_contra other
    push Not at other
    exact gone (mem_erase.mpr ⟨other.2, mem_erase.mpr ⟨other.1, mem⟩⟩)

/-- Clear a direct pointer. -/
theorem Rep.unmapDirect (h : Rep strict inflight A fs) (cache : fs.icache i = some sin)
    (direct : k < ndirect) (mapped : sin.din.direct ⟨k, direct⟩ ≠ 0) :
    Rep strict (insert (sin.din.direct ⟨k, direct⟩) inflight) ((A.mark i).setContent i k none)
      (fs.setSin i (some { sin with
        din := { sin.din with direct := update sin.din.direct ⟨k, direct⟩ 0 }
        dirty := true })) := by
  have live := h.live_of_cached cache
  have node := h.node i live
  have before := fs.dinode_of_cached cache
  have current : fs.ptr i k = sin.din.direct ⟨k, direct⟩ := by rw [ptr_direct _ _ direct, before]
  have ptr := fs.ptr_setDirect cache direct 0
  rw [← current]
  refine h.leave live (((AFs.Off.refl A i).setInfo _).setContent k _ |>.setSin fs _) ?_
    (by rfl) (by rfl) (by rfl) (by rwa [current]) ptr ?_
  · refine node.remap cache (update_self i _ _) (by rfl) (by rfl) (by rfl) ?_ ?_
    · have fits := node.fits
      rw [before] at fits
      exact fits.setDirect ⟨k, direct⟩ (by decide)
    · exact node.content_remap ptr (fun _ _ _ => rfl) (by rfl)
  · rw [before, dinode_of_cached (update_self i _ _)]

end Procore.Sfs
