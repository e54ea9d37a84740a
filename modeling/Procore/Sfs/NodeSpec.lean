import Procore.Sfs.ResizeSpec

/-! # What loading, creating and reclaiming an inode ensure

Loading adds a reference and changes nothing else. The last reference to an
inode that has links writes it back and drops it from memory; one without links
is emptied and its blocks are given back.
-/

namespace Procore.Sfs

open Procore.Lib World AFs Finset Nat
open Function
open Prog (wp_assert wp_assert_pos wp_attempt wp_bind)

variable {strict : Prop} {inflight : Finset Nat} {A A' A'' : AFs} {w w' : World} {H : Halt → Prop}
  {i j k : Nat} {r : InodeRefs} {fault : Prop}

/-- The inode is going to be written back, or its disk copy has as many blocks. -/
def AFs.Synced (A : AFs) (i : Nat) : Prop :=
  (A.info i).stored = none ∨ (A.info i).stored = some (A.info i).blocks

/-- The inode is written back if it is dirty. -/
def AFs.flush (A : AFs) (i : Nat) : AFs :=
  A.setInfo i { A.info i with stored := some ((A.info i).stored.getD (A.info i).blocks) }

variable {n : Nat}

theorem AFs.flush_of_clean (clean : (A.info i).stored = some n) : A.flush i = A := by
  rw [flush, clean, Option.getD_some, ← clean, setInfo, update_eq_self]

theorem Ok.stored_of_cached {sin : SfsInode} (ok : Ok strict inflight A w)
    (cache : w.fs.icache i = some sin) :
    (A.info i).stored = if sin.dirty then none else some (w.fs.diskInode i).blocks := by
  have info := (ok.rep.node i (ok.rep.live_of_cached cache)).info
  rw [← info, DiskInode.info_stored, Fs.stored, cache]

/-- Write an inode back. -/
theorem sfsFsync_spec (ok : Ok strict inflight A w) (refs : A.refs i = some r)
    (unlocked : .inode i ∈ w.held → H .deadlock) : (sfsFsync i).wp H
      (fun _ w' => w.Later w' ∧ Ok strict inflight (A.flush i) w')
      (fun _ w' => w.Lost w' ∧ Ok strict inflight A w') w := by
  obtain ⟨sin, cache, -, live, -⟩ := ok.cached refs
  have stored := ok.stored_of_cached cache
  have used := ok.rep.owned.inode_used live
  have real := ok.rep.owned.ne_zero live
  simp only [sfsFsync, wp_bind, wp_getSin cache]
  cases dirty : sin.dirty with
  | false =>
    rw [dirty] at stored
    rw [flush_of_clean stored]
    exact ⟨.refl w, ok⟩
  | true =>
    rw [dirty] at stored
    simp only [if_true, wp_bind, wp_attempt]
    apply wp_down unlocked
    intro _
    rw [wp_modifySin (w := { w with held := .inode i :: w.held }) cache]
    let w₁ : World := { w with
      fs := w.fs.setSin i (some { sin with dirty := false }), held := .inode i :: w.held }
    have cache₁ : w₁.fs.icache i = some { sin with dirty := false } := update_self i _ _
    have later₁ : Later { w with held := .inode i :: w.held } w₁ :=
      (Later.refl { w with held := .inode i :: w.held }).withFs _ rfl
    refine Prog.wp.mono (sfsWbuf_spec (w := w₁) ⟨real, used.1⟩ ?_) ?_ ?_
    · rw [DiskInode.length_encode]
      decide
    · intro _ w₂ written
      obtain ⟨fs₂, later₂⟩ := written
      have rep := ok.rep.sync cache
      have flush : A.flush i = A.setInfo i { A.info i with stored := some (A.info i).blocks } := by
        rw [flush, stored]
        rfl
      have later := Later.lock w _ (later₁.trans later₂)
      refine ⟨later, ?_⟩
      rw [flush]
      exact ok.next (by rw [fs₂]; exact rep) later
    · intro _ w₂ failed
      obtain ⟨-, fs₂, lost₂⟩ := failed
      have cache₂ : w₂.fs.icache i = some { sin with dirty := false } := by rw [fs₂]; exact cache₁
      have restored : w₂.fs.setSin i (some { sin with dirty := true }) = w.fs := by
        rw [fs₂]
        simp only [w₁, Fs.setSin, update_idem]
        rw [← dirty, ← cache, update_eq_self]
      rw [wp_modifySin cache₂]
      have later := Later.lock w _ ((later₁.trans lost₂.1).withFs
        (w₂.fs.setSin i (some { sin with dirty := true })) rfl)
      refine ⟨⟨later, lost₂.2⟩, ok.next ?_ later⟩
      rw [restored]
      exact ok.rep

/-- File `i` has changed, and of its blocks some may be gone. -/
structure AFs.Clears (A : AFs) (i : Nat) (A' : AFs) : Prop extends A.Touched i A' where
  content_self : ∀ k, A'.content i k = none ∨ A'.content i k = A.content i k

theorem AFs.Clears.refl (A : AFs) (i : Nat) : A.Clears i A := ⟨.refl A i, fun _ => Or.inr rfl⟩

theorem AFs.Clears.trans (h : A.Clears i A') (h' : A'.Clears i A'') : A.Clears i A'' := by
  refine ⟨h.toTouched.trans h'.toTouched, fun k => ?_⟩
  cases h'.content_self k with
  | inl none => exact Or.inl none
  | inr same =>
    rw [same]
    exact h.content_self k

theorem AFs.Cut.clears (h : A.Cut i n A') (le : n ≤ (A.info i).blocks) : A.Clears i A' := by
  refine ⟨h.touched le, fun k => ?_⟩
  rw [h.content_self]
  split
  · exact Or.inl rfl
  · exact Or.inr rfl

theorem AFs.Clears.setSize {len : Nat} (short : len ≤ maxBlocks * blksize) :
    A.Clears i (A.setInfo i { A.info i with size := len, stored := none }) :=
  ⟨.setSize short, fun _ => Or.inr rfl⟩

theorem AFs.Clears.flush (A : AFs) (i : Nat) : A.Clears i (A.flush i) := by
  refine ⟨⟨(AFs.Off.refl A i).setInfo _, rfl, by simp [AFs.flush], by simp [AFs.flush], ?_, ?_, ?_, ?_⟩,
    fun _ => Or.inr rfl⟩
  · simp [AFs.flush]
  · intro dense k inside
    exact dense k (by simpa [AFs.flush] using inside)
  · intro tail k outside
    exact tail k (by simpa [AFs.flush] using outside)
  · intro head k direct mapped
    have before := head k direct mapped
    refine ⟨by simpa [AFs.flush] using before.1, fun n some => ?_⟩
    simp only [AFs.flush, AFs.info_setInfo, if_true, Option.some.injEq] at some
    subst some
    cases held : (A.info i).stored with
    | none => exact before.1
    | some n => exact before.2 n held

section

variable (ok : Ok strict inflight A w) (refs : A.refs i = some r)
include ok refs

/-- Give back the blocks of a directory. -/
theorem truncateDir_spec (unlocked : .inode i ∈ w.held → H .deadlock) :
    (truncateDir i (A.info i).blocks).wp H
      (fun _ w' => w.Later w' ∧ ∃ A', A.Clears i A' ∧ (A'.info i).blocks = 0 ∧
        Ok strict inflight A' w')
      (fun _ w' => w.Lost w' ∧ ∃ A', A.Clears i A' ∧ Ok strict inflight A' w') w := by
  simp only [truncateDir, wp_bind, wp_attempt]
  apply wp_down unlocked
  intro _
  have finish {n : Nat} {w₁ : World} {A₁ : AFs} (le : n ≤ (A.info i).blocks) (cut : A.Cut i n A₁)
      (ok₁ : Ok strict inflight A₁ w₁) : ∃ sin, w₁.fs.icache i = some sin ∧
        ∃ A', A.Clears i A' ∧ (A'.info i).blocks = n ∧ Ok strict inflight A'
          { w₁ with fs := w₁.fs.setSin i (some { sin with
            din := { sin.din with size := 0 }, dirty := true }) } := by
    obtain ⟨sin, cache, -, -, -⟩ := ok₁.cached (by rw [cut.refs_self, refs])
    exact ⟨sin, cache, _, (cut.clears le).trans (.setSize (zero_le _)), by simpa using cut.blocks,
      ok₁.setSize cache (zero_le _)⟩
  apply (shrinkLoop_spec (ok.withHeld _) refs (le_refl _)).mono
  · intro _ w₁ done
    obtain ⟨later₁, A₁, cut, ok₁⟩ := done
    rw [Nat.sub_self] at cut
    obtain ⟨sin, cache, A', clears, blocks, ok'⟩ := finish (zero_le _) cut ok₁
    rw [wp_modifySin cache]
    exact ⟨Later.lock w _ (later₁.withFs _ rfl), A', clears, blocks, ok'.withHeld _⟩
  · intro _ w₁ failed
    obtain ⟨-, lost₁, n, A₁, le, cut, ok₁⟩ := failed
    obtain ⟨sin, cache, A', clears, -, ok'⟩ := finish le cut ok₁
    rw [wp_modifySin cache]
    exact ⟨⟨Later.lock w _ (lost₁.1.withFs _ rfl), lost₁.2⟩, A', clears, ok'.withHeld _⟩

/-- Give back all blocks of a file. -/
theorem sfsTruncfile_zero (unlocked : .inode i ∈ w.held → H .deadlock)
    (exact : A.Exact i ∨ H .sizeMismatch) :
    (sfsTruncfile i 0).wp H
      (fun _ w' => w.Later w' ∧ ∃ A', A.Clears i A' ∧ (A'.info i).blocks = 0 ∧
        Ok strict inflight A' w')
      (fun _ w' => w.Lost w' ∧ ∃ A', A.Clears i A' ∧ Ok strict inflight A' w') w := by
  obtain ⟨sin, cache, -, live, info⟩ := ok.cached refs
  have held := (ok.rep.node i live).blocks_of_cached cache
  have type : (A.info i).type = sin.din.type := by
    rw [info]
    rfl
  have size : (A.info i).size = sin.din.size := by
    rw [info]
    rfl
  have accepted : ¬ ((0 : Int) < 0 ∨ (maxFileSize : Int) < 0) := by decide
  have none : ((0 : Int).toNat + (blksize - 1)) / blksize = 0 := by decide
  rw [sfsTruncfile, if_neg accepted]
  simp only [wp_bind, wp_getSin cache, none, ← type, ← size, ← held]
  by_cases isDir : (A.info i).type = .dir
  · rw [if_pos isDir, if_neg (by decide)]
    exact truncateDir_spec ok refs unlocked
  rw [if_neg isDir]
  by_cases empty : (A.info i).size = (0 : Int).toNat
  · rw [if_pos empty]
    by_cases blocks : 0 = (A.info i).blocks
    · rw [wp_assert_pos blocks]
      exact ⟨.refl w, A, .refl A i, blocks.symm, ok⟩
    simp only [wp_assert, decide_eq_true_eq]
    refine ⟨fun same => absurd same blocks, fun _ => ?_⟩
    cases exact with
    | inl fits =>
      have zero : blocksFor (0 : Int).toNat = 0 := by decide
      have none := fits isDir
      rw [empty, zero] at none
      exact absurd none.symm blocks
    | inr halts => exact halts
  · rw [if_neg empty]
    simp only [wp_bind, wp_attempt]
    apply wp_down unlocked
    intro _
    unfold resize
    apply (shrinkLoop_spec (ok.withHeld _) refs (le_refl _)).bind
    · intro _ w₁ done
      obtain ⟨later₁, A₁, cut, ok₁⟩ := done
      rw [Nat.sub_self] at cut
      obtain ⟨sin₁, cache₁, -, live₁, -⟩ := ok₁.cached (by rw [cut.refs_self, refs])
      have blocks₁ : sin₁.din.blocks = 0 := by
        rw [← (ok₁.rep.node i live₁).blocks_of_cached cache₁, cut.blocks]
      simp only [wp_bind, wp_getSin cache₁]
      rw [wp_assert_pos blocks₁, wp_modifySin cache₁]
      refine ⟨Later.lock w _ (later₁.withFs _ rfl), _, (cut.clears (zero_le _)).trans
        (.setSize (zero_le _)), ?_, (ok₁.setSize cache₁ (zero_le _)).withHeld _⟩
      simpa using cut.blocks
    · intro _ w₁ failed
      obtain ⟨-, lost₁, n, A₁, le, cut, ok₁⟩ := failed
      exact ⟨⟨Later.lock w _ lost₁.1, lost₁.2⟩, A₁, cut.clears le, ok₁.withHeld _⟩

/-- A clean inode that has links leaves memory. -/
theorem releaseInode_linked (links : (A.info i).nlinks ≠ 0) (stored : (A.info i).stored = some n) :
    (releaseInode i).wp H
      (fun _ w' => w.Later w' ∧
        Ok strict inflight ((A.setInfo i { A.info i with blocks := n }).setRefs i none) w')
      (fun _ _ => False) w := by
  obtain ⟨sin, cache, -, live, info⟩ := ok.cached refs
  have linked : sin.din.nlinks ≠ 0 := by
    rw [info] at links
    exact links
  have clean : sin.dirty = false := by
    have held := ok.stored_of_cached cache
    rw [stored] at held
    cases dirty : sin.dirty with
    | false => rfl
    | true =>
      rw [dirty] at held
      cases held
  have rep := ok.rep.evict cache clean
  rw [stored, Option.getD_some] at rep
  simp only [releaseInode, wp_bind, wp_getSin cache]
  rw [if_neg linked]
  exact ⟨(Later.refl w).withFs _ rfl, ok.withFs rep⟩

/-- An inode without links is given back with its indirect block. -/
theorem releaseInode_unlinked (unlinked : (A.info i).nlinks = 0)
    (empty : strict → ∀ k, A.content i k = none) :
    (releaseInode i).wp H
      (fun _ w' => w.Later w' ∧ Ok strict inflight (A.abandon i) w') (fun _ _ => False) w := by
  obtain ⟨sin, cache, -, live, info⟩ := ok.cached refs
  have none : sin.din.nlinks = 0 := by
    rw [info] at unlinked
    exact unlinked
  have real := ok.rep.owned.ne_zero live
  have used := ok.rep.owned.inode_used live
  have outside : i ∉ inflight := fun mem => ok.rep.absent_of_inflight mem live
  have rep := ok.rep.abandon cache empty
  have index := w.fs.dinode_of_cached cache
  simp only [releaseInode, wp_bind, wp_getSin cache]
  rw [if_pos none, wp_bind, wp_sfsBlockFree real used]
  by_cases direct : sin.din.indirect = 0
  · rw [if_pos direct] at rep
    rw [if_neg (not_not.mpr direct)]
    have back := rep.giveBack (mem_insert_self _ _)
    rw [erase_insert outside] at back
    exact ⟨(Later.refl w).withFs _ rfl, ok.withFs back⟩
  · rw [if_neg direct] at rep
    rw [if_pos direct]
    have apart : sin.din.indirect ≠ i := by
      rw [← index]
      exact (ok.rep.owned.inode_ne live i live).1
    have usedIndex := ok.rep.owned.indirect_used live (by rwa [index])
    rw [index] at usedIndex
    have freeIndex : (w.fs.giveBack i).free sin.din.indirect = false :=
      (update_of_ne apart _ _).trans usedIndex.2
    have outsideIndex : sin.din.indirect ∉ inflight := fun mem =>
      ok.rep.owned.unowned _ mem (.indirect i) ⟨live, direct, by rw [index]⟩
    rw [wp_bind,
      wp_sfsBlockFree (w := { w with fs := w.fs.giveBack i }) direct ⟨usedIndex.1, freeIndex⟩]
    have back := rep.giveBack (mem_insert_self _ _)
    rw [erase_insert (by simp [outside, Ne.symm apart])] at back
    have back' := back.giveBack (mem_insert_self _ _)
    rw [erase_insert outsideIndex] at back'
    exact ⟨(Later.refl w).withFs _ rfl, ok.withFs back'⟩

end

/-- What becomes of an inode whose last reference goes. -/
inductive AFs.Reclaimed (A : AFs) (i : Nat) (A' : AFs) : Prop where
  | evicted (links : (A.info i).nlinks ≠ 0)
      (same : A' = (A.setInfo i { A.info i with
        blocks := (A.info i).stored.getD (A.info i).blocks,
        stored := some ((A.info i).stored.getD (A.info i).blocks) }).setRefs i none)
  | freed (mid : AFs) (unlinked : (A.info i).nlinks = 0) (clears : A.Clears i mid)
      (same : A' = mid.abandon i)

/-- Free an inode after its last token is spent. -/
theorem reclaimLast_spec (ok : Ok strict inflight A w) (refs : A.refs i = some r)
    (tail : strict → A.Tail i) (unlocked : .inode i ∈ w.held → H .deadlock)
    (exact : A.Exact i ∨ H .sizeMismatch) : (reclaimLast i).wp H
      (fun _ w' => w.Later w' ∧ ∃ A', A.Reclaimed i A' ∧ Ok strict inflight A' w')
      (fun _ w' => w.Lost w' ∧ ∃ A', A.Clears i A' ∧ ((A.info i).nlinks ≠ 0 → A' = A) ∧
        Ok strict inflight A' w') w := by
  obtain ⟨sin, cache, -, live, info⟩ := ok.cached refs
  have links : (A.info i).nlinks = sin.din.nlinks := by
    rw [info]
    rfl
  simp only [reclaimLast, wp_bind, wp_getSin cache, ← links]
  by_cases unlinked : (A.info i).nlinks = 0
  · rw [if_pos unlinked]
    simp only [wp_bind]
    apply (sfsTruncfile_zero ok refs unlocked exact).mono
    · intro _ w₁ emptied
      obtain ⟨later₁, A₁, clears₁, blocks₁, ok₁⟩ := emptied
      have refs₁ : A₁.refs i = some r := by rw [clears₁.refs_self, refs]
      apply (sfsFsync_spec ok₁ refs₁ (by rw [later₁.held]; exact unlocked)).mono
      · intro _ w₂ synced
        obtain ⟨later₂, ok₂⟩ := synced
        have clears₂ := clears₁.trans (.flush A₁ i)
        have empty (holds : strict) (k : Nat) : (A₁.flush i).content i k = none := by
          apply clears₂.tail (tail holds) k
          simp [flush, blocks₁]
        have unlinked₂ : ((A₁.flush i).info i).nlinks = 0 := by rw [clears₂.nlinks, unlinked]
        refine Prog.wp.mono (releaseInode_unlinked ok₂ refs₁ unlinked₂ empty) ?_ ?_
        · intro _ w₃ freed
          exact ⟨(later₁.trans later₂).trans freed.1, _, .freed _ unlinked clears₂ rfl, freed.2⟩
        · exact fun _ _ h => h.elim
      · intro _ w₂ failed
        exact ⟨later₁.lost failed.1, A₁, clears₁, absurd unlinked, failed.2⟩
    · intro _ w₁ failed
      obtain ⟨lost₁, A₁, clears₁, ok₁⟩ := failed
      exact ⟨lost₁, A₁, clears₁, absurd unlinked, ok₁⟩
  · rw [if_neg unlinked]
    apply (sfsFsync_spec ok refs unlocked).bind
    · intro _ w₂ synced
      obtain ⟨later₂, ok₂⟩ := synced
      have links₂ : ((A.flush i).info i).nlinks ≠ 0 := by simpa [flush] using unlinked
      refine Prog.wp.mono (releaseInode_linked ok₂ refs links₂ (by simp [flush]; rfl)) ?_ ?_
      · intro _ w₃ left
        refine ⟨later₂.trans left.1, _, .evicted unlinked ?_, left.2⟩
        simp [flush, setInfo]
      · exact fun _ _ h => h.elim
    · intro _ w₂ failed
      exact ⟨failed.1, A, .refl A i, fun _ => rfl, failed.2⟩

/-- Reclaim an inode. -/
theorem sfsReclaim_spec (ok : Ok strict inflight A w) (refs : A.refs i = some r)
    (tail : strict → A.Tail i) (free : .fs ∈ w.held → H .deadlock)
    (unlocked : .inode i ∈ w.held → H .deadlock) (exact : A.Exact i ∨ H .sizeMismatch)
    (halts : H .assertion) : (sfsReclaim i).wp H
      (fun _ w' => w.Later w' ∧ r.reclaim.1 = .last ∧
        ∃ A', (A.setRefs i (some r.reclaim.2)).Reclaimed i A' ∧ Ok strict inflight A' w')
      (fun _ w' => w.Later w' ∧ (r.reclaim.1 = .last → w.Lost w') ∧
        ∃ A', (A.setRefs i (some r.reclaim.2)).Clears i A' ∧
          ((A.info i).nlinks ≠ 0 ∨ r.reclaim.1 ≠ .last → A' = A.setRefs i (some r.reclaim.2)) ∧
          Ok strict inflight A' w') w := by
  obtain ⟨sin, cache, rfl, live, -⟩ := ok.cached refs
  simp only [sfsReclaim, wp_bind]
  apply wp_down free
  intro _
  have cache₁ : (fs { w with held := .fs :: w.held }).icache i = some sin := cache
  rw [wp_getSin cache₁]
  have rep := ok.rep.updateRefs cache sin.refs.reclaim.2
  have ok₁ : Ok strict inflight (A.setRefs i (some sin.refs.reclaim.2))
      { w with
        fs := w.fs.setSin i (some { sin with refs := sin.refs.reclaim.2 })
        held := .fs :: w.held } := ok.withFs rep |>.withHeld _
  have later₁ : Later { w with held := .fs :: w.held }
      { w with
        fs := w.fs.setSin i (some { sin with refs := sin.refs.reclaim.2 })
        held := .fs :: w.held } :=
    (Later.refl { w with held := .fs :: w.held }).withFs _ rfl
  rcases verdict : sin.refs.reclaim with ⟨result, refs'⟩
  rw [verdict] at ok₁ later₁
  cases result with
  | assertFails => exact halts
  | busy =>
    simp only [wp_bind]
    rw [wp_modifySin cache₁]
    refine ⟨Later.lock w _ later₁, fun last => (by cases last), _, .refl _ i, fun _ => rfl,
      ok₁.withHeld _⟩
  | last =>
    simp only [wp_bind, wp_attempt]
    rw [wp_modifySin cache₁]
    refine Prog.wp.mono (reclaimLast_spec ok₁ (r := refs') (by simp) tail (by simpa using unlocked)
      exact) ?_ ?_
    · intro _ w₂ done
      obtain ⟨later₂, A', reclaimed, ok'⟩ := done
      exact ⟨Later.lock w _ (later₁.trans later₂), trivial, A', reclaimed, ok'.withHeld _⟩
    · intro _ w₂ failed
      obtain ⟨lost, A', clears, linked, ok'⟩ := failed
      have later := Later.lock w _ (later₁.trans lost.1)
      refine ⟨later, fun _ => ⟨later, lost.2⟩, A', clears, fun reason => ?_, ok'.withHeld _⟩
      cases reason with
      | inl links => exact linked links
      | inr other => exact absurd rfl other

/-- What dropping a reference does; `fault` says that requests may fail meanwhile. -/
inductive AFs.Drops (A : AFs) (i : Nat) (r : InodeRefs) (fault : Prop) (A' : AFs) : Prop where
  | kept (more : 1 < r.refCount) (same : A' = A.setRefs i (some r.refDec.1))
  | reclaimed (last : r.refCount = 1) (r' : InodeRefs)
      (reclaimed : (A.setRefs i (some r')).Reclaimed i A')
  | busy (last : r.refCount = 1) (tokens : r.reclaimCount ≠ 1) (r' : InodeRefs)
      (same : A' = A.setRefs i (some r'))
  | failed (last : r.refCount = 1) (fault : fault) (r' : InodeRefs)
      (clears : (A.setRefs i (some r')).Clears i A')
      (linked : (A.info i).nlinks ≠ 0 → A' = A.setRefs i (some r'))

theorem InodeRefs.reclaim_busy {r : InodeRefs} (one : r.refCount = 1)
    (other : r.refDec.1.reclaim.1 ≠ .last) : r.reclaimCount ≠ 1 := by
  intro token
  apply other
  simp [refDec, reclaim, one, token]

/-- Drop a reference. -/
theorem vopRefDec_spec (ok : Ok strict inflight A w) (refs : A.refs i = some r)
    (tail : strict → A.Tail i) (free : .fs ∈ w.held → H .deadlock)
    (unlocked : .inode i ∈ w.held → H .deadlock) (exact : A.Exact i ∨ H .sizeMismatch)
    (halts : H .assertion) : (vopRefDec i).wp H
      (fun _ w' => w.Later w' ∧ ∃ A', A.Drops i r (failures w.faults.reclaim ≠ 0) A' ∧
        Ok strict inflight A' w')
      (fun _ _ => False) w := by
  obtain ⟨sin, cache, rfl, live, -⟩ := ok.cached refs
  simp only [vopRefDec, wp_bind, wp_getSin cache, wp_assert, decide_eq_true_eq]
  refine ⟨fun positive => ?_, fun _ => halts⟩
  rw [wp_modifySin cache]
  have ok₁ : Ok strict inflight (A.setRefs i (some sin.refs.refDec.1))
      { w with fs := w.fs.setSin i (some { sin with refs := sin.refs.refDec.1 }) } :=
    ok.withFs (ok.rep.updateRefs cache _)
  have later₁ : w.Later { w with fs := w.fs.setSin i (some { sin with refs := sin.refs.refDec.1 }) } :=
    (Later.refl w).withFs _ rfl
  by_cases zero : sin.refs.refCount - 1 = 0
  · have one : sin.refs.refCount = 1 := by omega
    have flag : sin.refs.refDec.2 = true := decide_eq_true zero
    have swap (w : World) : swapFaults.wp H (fun _ w' => w' = { w with faults :=
        { w.faults with io := w.faults.reclaim, reclaim := w.faults.io } }) (fun _ _ => False) w := rfl
    rw [flag, if_pos rfl]
    simp only [wp_bind, wp_attempt]
    apply (swap _).mono
    · rintro _ w₂ rfl
      have ok₂ : Ok strict inflight (A.setRefs i (some sin.refs.refDec.1)) { w with
          fs := w.fs.setSin i (some { sin with refs := sin.refs.refDec.1 })
          faults := { w.faults with io := w.faults.reclaim, reclaim := w.faults.io } } :=
        ⟨ok₁.rep, ok₁.clear⟩
      have back {w₃ : World} (later₃ : Later { w with
          fs := w.fs.setSin i (some { sin with refs := sin.refs.refDec.1 })
          faults := { w.faults with io := w.faults.reclaim, reclaim := w.faults.io } } w₃) :
          w.Later { w₃ with faults :=
            { w₃.faults with io := w₃.faults.reclaim, reclaim := w₃.faults.io } } :=
        ⟨later₃.held, later₃.blocks, later₃.reclaim, later₃.clear, later₃.io, later₃.mem⟩
      refine Prog.wp.mono (sfsReclaim_spec ok₂ (r := sin.refs.refDec.1) (by simp) tail free unlocked
        exact halts) ?_ ?_
      · intro _ w₃ done
        obtain ⟨later₃, last, A', reclaimed, ok₃⟩ := done
        refine ⟨back later₃, A', .reclaimed one sin.refs.refDec.1.reclaim.2 ?_, ok₃.rep, ok₃.clear⟩
        simpa [setRefs] using reclaimed
      · intro _ w₃ failed
        obtain ⟨later₃, lost, A', clears, linked, ok₃⟩ := failed
        refine ⟨back later₃, A', ?_, ok₃.rep, ok₃.clear⟩
        simp only [setRefs, update_idem] at clears linked
        by_cases last : sin.refs.refDec.1.reclaim.1 = .last
        · refine .failed one ?_ sin.refs.refDec.1.reclaim.2 clears (fun links => linked (Or.inl links))
          have fewer := (lost last).2
          change _ < failures w.faults.reclaim at fewer
          omega
        · exact .busy one (InodeRefs.reclaim_busy one last) _ (linked (Or.inr last))
    · exact fun _ _ h => h
  · have flag : sin.refs.refDec.2 = false := decide_eq_false zero
    rw [flag, if_neg (by decide)]
    exact ⟨later₁, _, .kept (by omega) rfl, ok₁⟩

namespace AFs

/-- Dropping a reference leaves all other inodes alone. -/
structure DropsOff (A : AFs) (i : Nat) (A' : AFs) : Prop where
  live : ∀ j, j ≠ i → (j ∈ A'.live ↔ j ∈ A.live)
  info : ∀ j, j ≠ i → A'.info j = A.info j
  refs : ∀ j, j ≠ i → A'.refs j = A.refs j
  content : ∀ j, j ≠ i → A'.content j = A.content j

theorem Drops.off (h : A.Drops i r fault A') : A.DropsOff i A' := by
  have setRefs (r' : InodeRefs) : A.DropsOff i (A.setRefs i (some r')) :=
    ⟨fun _ _ => Iff.rfl, fun _ _ => rfl, fun j other => update_of_ne other _ _,
      fun _ _ => rfl⟩
  have clears {r' : InodeRefs} {mid : AFs} (clears : (A.setRefs i (some r')).Clears i mid) :
      A.DropsOff i mid :=
    ⟨fun j _ => by rw [clears.live]; rfl, clears.info,
      fun j other => (clears.refs j other).trans (update_of_ne other _ _),
      clears.content⟩
  cases h with
  | kept more same => exact same ▸ setRefs _
  | busy last tokens r' same => exact same ▸ setRefs r'
  | failed last fault r' cleared linked => exact clears cleared
  | reclaimed last r' reclaimed =>
    cases reclaimed with
    | evicted links same =>
      subst same
      exact ⟨fun _ _ => Iff.rfl, fun j other => update_of_ne other _ _,
        fun j other => by simp [other], fun _ _ => rfl⟩
    | freed mid unlinked cleared same =>
      subst same
      have before := clears cleared
      exact ⟨fun j other => mem_erase.trans ((and_iff_right other).trans (before.live j other)),
        before.info, fun j other => (update_of_ne other _ _).trans (before.refs j other),
        before.content⟩

end AFs

end Procore.Sfs
