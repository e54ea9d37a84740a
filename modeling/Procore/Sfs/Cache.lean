import Procore.Sfs.Remap

/-! # Inodes in memory

How the fields of an inode change in memory, how it is written back, loaded,
dropped, created and released, as steps of the representation.
-/

namespace Procore.Sfs

open Procore.Lib Finset AFs Procore.Sfs.Fs DiskInode
open Function

variable {strict : Prop} {inflight : Finset Nat} {A : AFs} {fs : Fs} {i b : Nat}
  {sin sin' : SfsInode}

theorem Fs.ptr_setSin_of_pointers (cache : fs.icache i = some sin)
    (direct : sin'.din.direct = sin.din.direct) (indirect : sin'.din.indirect = sin.din.indirect)
    (k : Nat) : (fs.setSin i (some sin')).ptr i k = fs.ptr i k := by
  simp [ptr, dinode, setSin, cache, direct, indirect]

/-- The pointers of inode `i` and of all others are the same as before. -/
theorem Rep.rebuildNode {A' : AFs} {fs' : Fs} (h : Rep strict inflight A fs) (mem : i ∈ A.live)
    (off : OffNode A A' fs fs' i) (blocks : fs'.blocks = fs.blocks) (free : fs'.free = fs.free)
    (unused : fs'.unused = fs.unused)
    (index : (fs'.dinode i).indirect = (fs.dinode i).indirect)
    (ptr : ∀ k, fs'.ptr i k = fs.ptr i k) (node : NodeRep A' fs' i) :
    Rep strict inflight A' fs' := by
  apply h.rebuild off.live blocks free unused
  · intro j live
    by_cases same : j = i
    · subst same
      exact index
    · rw [(off.agree j live same).dinode_eq]
  · intro j live k
    by_cases same : j = i
    · subst same
      exact ptr k
    · exact (off.agree j live same).ptr_eq k
  · intro j live
    exact off.node h node j (by rwa [off.live])
  · intro j dead
    exact off.cached h mem j (by rwa [off.live])

/-- The fields of an inode in memory change, apart from its pointers. -/
theorem Rep.updateSin (h : Rep strict inflight A fs) (cache : fs.icache i = some sin) (sin' : SfsInode)
    (direct : sin'.din.direct = sin.din.direct) (indirect : sin'.din.indirect = sin.din.indirect)
    (fits : sin'.din.Fits) (bounded : sin'.din.blocks ≤ maxBlocks)
    (stored : sin'.dirty = false → (fs.diskInode i).blocks ≤ sin'.din.blocks)
    (clean : sin'.dirty = false → fs.diskInode i = { sin'.din with blocks := (fs.diskInode i).blocks }) :
    Rep strict inflight
      ((A.setInfo i (sin'.din.info ((fs.setSin i (some sin')).stored i))).setRefs i (some sin'.refs))
      (fs.setSin i (some sin')) := by
  have live := h.live_of_cached cache
  have node := h.node i live
  have cache' : (fs.setSin i (some sin')).icache i = some sin' := update_self i _ _
  have after := Fs.dinode_of_cached cache'
  have ptr (k : Nat) : (fs.setSin i (some sin')).ptr i k = fs.ptr i k :=
    fs.ptr_setSin_of_pointers cache direct indirect k
  refine h.rebuildNode live (((AFs.Off.refl A i).setInfo _).setRefs _ |>.setSin fs _)
    rfl rfl rfl (by rw [after, fs.dinode_of_cached cache, indirect]) ptr ?_
  constructor
  · simp [after]
  · rwa [after]
  · intro k
    rw [Fs.content, ptr k]
    exact node.content k
  · simp [cache']
  · intro other cached isClean
    rw [cache'] at cached
    cases cached
    exact clean isClean
  · simpa using bounded
  · intro n some
    simp only [AFs.info_setRefs, AFs.info_setInfo, if_true, Fs.stored,
      cache'] at some
    split_ifs at some with isClean
    · cases some
    · cases some
      change (fs.diskInode i).blocks ≤ _
      simpa using stored (by simpa using isClean)

theorem NodeRep.diskBlocks_le (h : NodeRep A fs i) (cache : fs.icache i = some sin)
    (isClean : sin.dirty = false) : (fs.diskInode i).blocks ≤ sin.din.blocks := by
  rw [← h.blocks_of_cached cache]
  apply h.stored
  rw [← h.info, info_stored]
  simp [Fs.stored, cache, isClean]

section

variable (h : Rep strict inflight A fs) (cache : fs.icache i = some sin)
include h cache

/-- An inode is changed and marked dirty. -/
theorem Rep.updateDirty (sin' : SfsInode) (direct : sin'.din.direct = sin.din.direct)
    (indirect : sin'.din.indirect = sin.din.indirect)
    (fits : sin'.din.Fits) (bounded : sin'.din.blocks ≤ maxBlocks) (dirty : sin'.dirty = true)
    (refs : sin'.refs = sin.refs) :
    Rep strict inflight (A.setInfo i (sin'.din.info none)) (fs.setSin i (some sin')) := by
  have cache' : (fs.setSin i (some sin')).icache i = some sin' := update_self i _ _
  have stored := stored_of_dirty cache' dirty
  have rep := h.updateSin cache sin' direct indirect fits bounded
    (fun isClean => by rw [dirty] at isClean; cases isClean)
    (fun isClean => by rw [dirty] at isClean; cases isClean)
  have same : A.refs = update A.refs i (some sin'.refs) := by
    rw [refs, ← (h.node i (h.live_of_cached cache)).refs_of_cached cache, update_eq_self]
  rw [stored, setRefs] at rep
  simpa [setInfo, ← same] using rep

theorem Rep.updateRefs (refs : InodeRefs) :
    Rep strict inflight (A.setRefs i (some refs)) (fs.setSin i (some { sin with refs := refs })) := by
  have live := h.live_of_cached cache
  have node := h.node i live
  have before := fs.dinode_of_cached cache
  have stored : (fs.setSin i (some { sin with refs := refs })).stored i = fs.stored i := by
    simp only [stored, setSin, update_self, cache]
    rfl
  have info : sin.din.info (fs.stored i) = A.info i := by rw [← node.info, before]
  have rep := h.updateSin cache { sin with refs := refs } rfl rfl
    (by have fits := node.fits; rwa [before] at fits)
    (by rw [← node.blocks_of_cached cache]; exact node.bounded)
    (fun isClean => by have bound := node.diskBlocks_le cache isClean; exact bound)
    (fun isClean => by
      have clean := node.clean sin cache isClean
      rw [clean])
  rw [stored, info] at rep
  simpa [setInfo] using rep

theorem Rep.appendBlock (below : sin.din.blocks < maxBlocks) :
    Rep strict inflight (A.setInfo i { A.info i with blocks := (A.info i).blocks + 1 })
      (fs.setSin i (some { sin with din := { sin.din with blocks := sin.din.blocks + 1 } })) := by
  have node := h.node i (h.live_of_cached cache)
  have info := node.info_of_cached cache
  have fits := node.fits
  rw [fs.dinode_of_cached cache] at fits
  have width : maxBlocks < 2 ^ 32 := by decide
  let sin' : SfsInode := { sin with din := { sin.din with blocks := sin.din.blocks + 1 } }
  have stored : (fs.setSin i (some sin')).stored i = (A.info i).stored := by
    rw [← node.info, info_stored]
    simp only [stored, setSin, update_self, cache]
    rfl
  have rep := h.updateSin cache sin' rfl rfl
    { fits with blocks := by change sin.din.blocks + 1 < 2 ^ 32; omega } below
    (fun isClean => by
      have := node.diskBlocks_le cache isClean
      change _ ≤ sin.din.blocks + 1
      omega)
    (fun isClean => by rw [node.clean sin cache isClean])
  have refs : (A.setInfo i (sin'.din.info ((fs.setSin i (some sin')).stored i))).setRefs i
      (some sin'.refs) = A.setInfo i { A.info i with blocks := (A.info i).blocks + 1 } := by
    have same := node.refs_of_cached cache
    rw [setRefs, refs_setInfo, show sin'.refs = sin.refs from rfl, ← same,
      update_eq_self, stored, info]
    rfl
  rwa [refs] at rep

end

theorem diskInode_splice {block : Block} {d : DiskInode} (fits : d.Fits) :
    decode (slice (splice block 0 d.encode) 0 inodeSize) = d := by
  have read := slice_splice_self block 0 d.encode
  rw [d.length_encode] at read
  rw [read, decode_encode fits]

theorem Owned.inode_ne {inodes : Finset Nat} (h : Owned inodes inflight fs) (mem : i ∈ inodes) :
    ∀ j ∈ inodes, (fs.dinode j).indirect ≠ i ∧ ∀ k, fs.ptr j k ≠ i := by
  have nonzero := h.ne_zero mem
  have own : Owns inodes fs i (.inode i) := ⟨mem, rfl⟩
  intro j live
  constructor
  · intro same
    cases h.exclusive _ _ (.indirect j) own ⟨live, nonzero, same⟩
  · intro k same
    cases h.exclusive _ _ (.mapped j k) own ⟨live, nonzero, same⟩

theorem Rep.sync (h : Rep strict inflight A fs) (cache : fs.icache i = some sin) :
    Rep strict inflight (A.setInfo i { A.info i with stored := some (A.info i).blocks })
      ((fs.setSin i (some { sin with dirty := false })).setBlock i
        (splice (fs.disk i) 0 sin.din.encode)) := by
  have live := h.live_of_cached cache
  have node := h.node i live
  have before := fs.dinode_of_cached cache
  have apart := h.owned.inode_ne live
  let fs' := (fs.setSin i (some { sin with dirty := false })).setBlock i
    (splice (fs.disk i) 0 sin.din.encode)
  have cache' : fs'.icache i = some { sin with dirty := false } := update_self i _ _
  have after : fs'.dinode i = sin.din := by rw [dinode_of_cached cache']
  have fits : sin.din.Fits := by
    have fits := node.fits
    rwa [before] at fits
  have diskInode : fs'.diskInode i = sin.din := by
    have block : fs'.disk i = splice (fs.disk i) 0 sin.din.encode := update_self i _ _
    rw [diskInode, block, diskInode_splice fits]
  have stored : fs'.stored i = some sin.din.blocks := by
    simp [stored, cache', diskInode]
  have disk (c : Nat) (other : c ≠ i) : fs'.disk c = fs.disk c := update_of_ne other _ _
  have ptr (k : Nat) : fs'.ptr i k = fs.ptr i k := by
    apply ptr_congr (by rw [after, before])
    exact disk _ (apart i live).1
  have off : OffNode A (A.setInfo i { A.info i with stored := some (A.info i).blocks }) fs fs' i := by
    refine ⟨(Off.refl A i).setInfo _, fun j other => update_of_ne other _ _, ?_⟩
    intro j liveJ other
    exact ⟨update_of_ne other _ _, disk j other, disk _ (apart j liveJ).1,
      fun k _ => disk _ ((apart j liveJ).2 k)⟩
  refine h.rebuildNode live off rfl rfl rfl (by rw [after, before]) ptr ?_
  have info := node.info_of_cached cache
  constructor
  · rw [after, stored, info_setInfo, if_pos rfl, info]
    rfl
  · rwa [after]
  · intro k
    change fs'.content i k = A.content i k
    rw [← node.content k, Fs.content, Fs.content, ptr k]
    split
    · rfl
    · rw [disk _ ((apart i live).2 k)]
  · rw [cache']
    exact (node.refs_of_cached cache).symm
  · intro other cached _
    rw [cache'] at cached
    cases cached
    rw [diskInode]
  · rw [info_setInfo, if_pos rfl]
    exact node.bounded
  · intro n some
    rw [info_setInfo, if_pos rfl] at some
    cases some
    rw [info_setInfo, if_pos rfl]

theorem Rep.evict (h : Rep strict inflight A fs) (cache : fs.icache i = some sin)
    (isClean : sin.dirty = false) :
    Rep strict inflight
      ((A.setInfo i { A.info i with blocks := ((A.info i).stored).getD 0 }).setRefs i none)
      (fs.setSin i none) := by
  have live := h.live_of_cached cache
  have node := h.node i live
  have before := fs.dinode_of_cached cache
  have clean := node.clean sin cache isClean
  have info := node.info
  rw [before] at info
  have absent : (fs.setSin i none).icache i = none := update_self i _ _
  have after : (fs.setSin i none).dinode i =
      { sin.din with blocks := (fs.diskInode i).blocks } := by
    simp only [dinode, absent]
    exact clean
  have stored : (A.info i).stored = some (fs.diskInode i).blocks := by
    rw [← info, info_stored]
    simp [stored, cache, isClean]
  have storedNow : (fs.setSin i none).stored i = some (fs.diskInode i).blocks := by
    simp only [Fs.stored, absent]
    rfl
  have ptr (k : Nat) : (fs.setSin i none).ptr i k = fs.ptr i k := by
    simp only [ptr, after, before]
    rfl
  refine h.rebuildNode live (((Off.refl A i).setInfo _).setRefs _ |>.setSin fs _)
    rfl rfl rfl (by rw [after, before]) ptr ?_
  constructor
  · rw [after, storedNow]
    simp only [info_setRefs, info_setInfo, stored, Option.getD_some]
    rw [← stored, ← info]
    rfl
  · rw [after, ← clean]
    exact decode_fits _
  · intro k
    rw [Fs.content, ptr k]
    exact node.content k
  · simp [absent]
  · intro other cached
    rw [absent] at cached
    cases cached
  · simpa [stored] using le_trans (node.stored _ stored) node.bounded
  · intro n some
    simp only [info_setRefs, info_setInfo, if_true] at some ⊢
    rw [some, Option.getD_some]

/-- The abstract volume without an inode. -/
def AFs.abandon (A : AFs) (i : Nat) : AFs :=
  { A with live := A.live.erase i, refs := update A.refs i none }

theorem Rep.absent_of_inflight (h : Rep strict inflight A fs) (fresh : b ∈ inflight) :
    b ∉ A.live := fun live => h.owned.unowned b fresh (.inode b) ⟨live, rfl⟩

/-- The inode that a slot belongs to. -/
def Slot.holder : Slot → Option Nat
  | .sys => none
  | .inode i => some i
  | .mapped i _ => some i
  | .indirect i => some i

/-- The use of a block that the inode `i` has left behind. -/
def Use.leave (i : Nat) : Use → Use
  | .slot c => if c.holder = some i then .inflight else .slot c
  | u => u

/-- An inode that maps nothing is dropped; its blocks are then in flight. -/
theorem Rep.abandon (h : Rep strict inflight A fs) (cache : fs.icache i = some sin)
    (empty : strict → ∀ k, A.content i k = none) :
    Rep strict
      (insert i (if sin.din.indirect = 0 then inflight else insert sin.din.indirect inflight))
      (A.abandon i) (fs.setSin i none) := by
  have live := h.live_of_cached cache
  have before := fs.dinode_of_cached cache
  have agree (j : Nat) (other : j ≠ i) : fs.Agree (fs.setSin i none) j :=
    .of_eq (update_of_ne other _ _) rfl
  have owns (c : Nat) (slot : Slot) : Owns (A.live.erase i) (fs.setSin i none) c slot ↔
      Owns A.live fs c slot ∧ slot.holder ≠ some i := by
    cases slot with
    | sys => simp only [Slot.holder, ne_eq, reduceCtorEq, not_false_eq_true, and_true]; rfl
    | inode j =>
      simp only [Owns, mem_erase, Slot.holder, ne_eq, Option.some.injEq]
      tauto
    | mapped j k =>
      simp only [Owns, mem_erase, Slot.holder, ne_eq, Option.some.injEq]
      by_cases same : j = i
      · simp only [same, not_true_eq_false, false_and, and_false]
      · rw [(agree j same).ptr_eq]
        tauto
    | indirect j =>
      simp only [Owns, mem_erase, Slot.holder, ne_eq, Option.some.injEq]
      by_cases same : j = i
      · simp only [same, not_true_eq_false, false_and, and_false]
      · rw [(agree j same).dinode_eq]
        tauto
  have cases_mem (c : Nat) (mem : c ∈ insert i
      (if sin.din.indirect = 0 then inflight else insert sin.din.indirect inflight)) :
      c ∈ inflight ∨ ∃ slot : Slot, Owns A.live fs c slot ∧ slot.holder = some i := by
    cases mem_insert.mp mem with
    | inl own =>
      subst own
      exact .inr ⟨.inode c, ⟨live, rfl⟩, rfl⟩
    | inr rest =>
      split_ifs at rest with nonzero
      · exact .inl rest
      cases mem_insert.mp rest with
      | inl index =>
        subst index
        exact .inr ⟨.indirect i, ⟨live, nonzero, by rw [before]⟩, rfl⟩
      | inr old => exact .inl old
  refine h.reuse (fun _ => Use.leave i) (h.freeMap.congr rfl rfl rfl) rfl (fun c u use => ?_) (fun holds c u use => ?_)
    (fun j mem => ?_) fun j gone => ?_
  · cases u with
    | free => exact ⟨.free, use, rfl⟩
    | inflight =>
      rcases cases_mem c use with old | ⟨slot, own, holder⟩
      · exact ⟨.inflight, old, rfl⟩
      · exact ⟨.slot slot, own, if_pos holder⟩
    | slot slot =>
      obtain ⟨old, other⟩ := (owns c slot).mp use
      exact ⟨.slot slot, old, if_neg other⟩
  · cases u with
    | free => exact use
    | inflight =>
      apply mem_insert_of_mem
      split
      · exact use
      · exact mem_insert_of_mem use
    | slot slot =>
      by_cases holder : slot.holder = some i
      · rw [Use.leave, if_pos holder]
        cases slot with cases holder
        | inode j =>
          obtain ⟨_, rfl⟩ := use
          exact mem_insert_self _ _
        | mapped j k =>
          have none := (h.node i live).content_eq_none.mp (empty holds k)
          exact absurd (use.2.2.symm.trans none) use.2.1
        | indirect j =>
          obtain ⟨_, nonzero, index⟩ := use
          rw [before] at index
          subst index
          rw [if_neg nonzero]
          exact mem_insert_of_mem (mem_insert_self _ _)
      · rw [Use.leave, if_neg holder]
        exact (owns c slot).mpr ⟨use, holder⟩
  · have split := mem_erase.mp mem
    exact (h.node j split.2).agree (agree j split.1) rfl (update_of_ne split.1 _ _) rfl
  · by_cases same : j = i
    · subst same
      exact ⟨update_self _ _ _, update_self _ _ _⟩
    · have old : j ∉ A.live := fun mem => gone (mem_erase.mpr ⟨same, mem⟩)
      have cached := h.cached j old
      exact ⟨(update_of_ne same _ _).trans cached.1,
        (update_of_ne same _ _).trans cached.2⟩

end Procore.Sfs
