import Procore.Sfs.NodeSpec
import Procore.Sfs.FlatFile

/-! # The size of a file and its number of blocks

The number of blocks of a file follows its size: `sfs_truncfile` relies on it.
The two are set at different times, though. A file that is to grow and finds
the volume full keeps the blocks it has got and its old size; a write behind
the end of the file that gets no block at all still moves the size there.
-/

namespace Procore.Sfs

open Procore.Lib

/-- `vfs_close`; `last` says that nobody else has the file open. -/
def vfsClose (i : Nat) (last : Bool) : SfsM Unit := do
  if last then do
    let _ ← Prog.attempt (sfsFsync i)
    pure ()
  else pure ()
  vopRefDec i

/-- The operations on the files of a volume. -/
inductive NodeOp where
  | write (i : Nat) (offset : Int) (data : { bytes : List UInt8 // bytes.length < 2 ^ 32 })
  | seek (i : Nat) (pos : Int)
  | truncate (i : Nat) (len : Int)
  | close (i : Nat) (last : Bool)

def NodeOp.node : NodeOp → Nat
  | .write i _ _ => i
  | .seek i _ => i
  | .truncate i _ => i
  | .close i _ => i

def NodeOp.run : NodeOp → SfsM Unit
  | .write i offset data => do
    let done ← sfsWrite i offset data.val
    match done.ret with
    | some e => Prog.fail e
    | none => pure ()
  | .seek i pos => sfsTryseek i pos
  | .truncate i len => sfsTruncfile i len
  | .close i last => vfsClose i last

structure Volume where
  fs : Fs
  files : Finset Nat

/-- How an operation ends for which the outcomes of requests are drawn from `faults`. -/
def Volume.outcome (v : Volume) (op : NodeOp × Faults) : Outcome World Errno Halt Unit :=
  op.1.run { fs := v.fs, faults := op.2 }

/-- An unlinked file is gone when it leaves memory. -/
def Volume.after (v : Volume) (i : Nat) (fs : Fs) : Volume where
  fs := fs
  files := if (v.fs.dinode i).nlinks = 0 ∧ fs.icache i = none then v.files.erase i else v.files

/-- Somebody has the file open, so that it is in memory. -/
def Volume.IsOpen (v : Volume) (i : Nat) : Prop := i ∈ v.files ∧ (v.fs.icache i).isSome = true

instance (v : Volume) (i : Nat) : Decidable (v.IsOpen i) := inferInstanceAs (Decidable (_ ∧ _))

/-- An operation on an open file that returns, with an error or without. -/
def Volume.step (v : Volume) (op : NodeOp × Faults) : Option Volume :=
  if v.IsOpen op.1.node then
    match v.outcome op with
    | .done _ w => some (v.after op.1.node w.fs)
    | .failed _ w => some (v.after op.1.node w.fs)
    | .halted _ => none
  else none

instance (w : World) : Decidable w.Quiet := inferInstanceAs (Decidable (_ = _))

/-- There is room for the blocks that the operation cannot do without. -/
def Volume.HasBlocks (v : Volume) : NodeOp → Prop
  | .write i offset data => 0 ≤ offset → offset < maxFileSize → data.val ≠ [] →
      offset.toNat % blksize ≠ 0 →
        (v.fs.dinode i).need (offset.toNat / blksize + 1) ≤ v.fs.unused
  | .seek i pos => pos < maxFileSize → (v.fs.dinode i).size < pos.toNat →
      (v.fs.dinode i).need (blocksFor pos.toNat) ≤ v.fs.unused
  | .truncate i len => len ≤ maxFileSize →
      (v.fs.dinode i).need (blocksFor len.toNat) ≤ v.fs.unused
  | .close _ _ => True

instance (v : Volume) : (op : NodeOp) → Decidable (v.HasBlocks op)
  | .write _ _ _ => inferInstanceAs (Decidable (_ → _ → _ → _ → _))
  | .seek _ _ => inferInstanceAs (Decidable (_ → _ → _))
  | .truncate _ _ => inferInstanceAs (Decidable (_ → _))
  | .close _ _ => isTrue trivial

/-- No request fails, and the volume has room. -/
def Volume.Roomy (v : Volume) (op : NodeOp × Faults) : Prop :=
  World.Quiet { fs := v.fs, faults := op.2 } ∧ v.HasBlocks op.1

instance (v : Volume) (op : NodeOp × Faults) : Decidable (v.Roomy op) :=
  inferInstanceAs (Decidable (_ ∧ _))

/-- A file has the blocks for its size, in memory and on disk. -/
structure AFs.Sized (A : AFs) (i : Nat) : Prop where
  dense : A.Dense i
  type : (A.info i).type ≠ .dir
  blocks : (A.info i).blocks = blocksFor (A.info i).size
  synced : A.Synced i

/-- The volume stands for `A`, and its files have the blocks for their sizes. -/
structure Volume.Stands (v : Volume) (A : AFs) : Prop where
  rep : Rep False ∅ A v.fs
  live : v.files ⊆ A.live
  sized : ∀ i ∈ v.files, A.Sized i

/-- The volume is consistent, and its files have the blocks for their sizes. -/
def Volume.Counted (v : Volume) : Prop := ∃ A, v.Stands A

section Sized

variable {A A' : AFs} {i j : Nat} {f : Nat → UInt8} {v : Volume} {w : World}

theorem AFs.Sized.congr (h : A.Sized j) (info : A'.info j = A.info j)
    (content : A'.content j = A.content j) : A'.Sized j where
  dense k inside := by
    rw [info] at inside
    rw [content]
    exact h.dense k inside
  type := by
    rw [info]
    exact h.type
  blocks := by
    rw [info]
    exact h.blocks
  synced := by
    rw [AFs.Synced, info]
    exact h.synced

/-- A transfer keeps size and blocks together, if it does something or starts inside. -/
theorem AFs.Sized.io {off endpos : Nat} {buf : Option (List UInt8)} {done : Transfer}
    (h : A.Sized i) (io : A.Io i off endpos buf f done A')
    (blocks : (A'.info i).blocks = max (A.info i).blocks (reached off done.alen))
    (starts : 0 < done.alen ∨ off ≤ (A.info i).size ∨ off = (A.info i).blocks * blksize) :
    A'.Sized i := by
  have size := io.size
  have before := h.blocks
  have exact : (A'.info i).blocks = blocksFor (A'.info i).size := by
    rw [blocks, size, reached]
    by_cases nothing : done.alen = 0
    · rw [if_pos nothing, Nat.max_zero, nothing, Nat.add_zero]
      cases starts with
      | inl some => omega
      | inr inside =>
        rw [blocksFor_max, ← before]
        have le : blocksFor off ≤ (A.info i).blocks := by
          cases inside with
          | inl le =>
            rw [before]
            exact Nat.div_le_div_right (by omega)
          | inr aligned =>
            rw [aligned]
            unfold blocksFor blksize
            omega
        omega
    · rw [if_neg nothing, blocksFor_max, before]
  refine ⟨io.dense h.dense, by rw [io.type]; exact h.type, exact, ?_⟩
  by_cases grown : (A.info i).size < (A'.info i).size
  · exact .inl (io.marked grown)
  have same : (A'.info i).size = (A.info i).size := by omega
  rw [same, ← before] at exact
  cases io.stored with
  | inl dirty => exact .inl dirty
  | inr kept =>
    rw [AFs.Synced, kept, exact]
    exact h.synced

theorem AFs.Sized.resized {len : Nat} (h : A.Sized i) (resized : A.Resized i len A') : A'.Sized i := by
  refine ⟨resized.dense h.dense, by rw [resized.type]; exact h.type, ?_, ?_⟩
  · rw [resized.blocks, resized.size]
  · cases resized.marked with
    | inl same =>
      rw [same]
      exact h.synced
    | inr dirty => exact .inl dirty

theorem AFs.Sized.flush (h : A.Sized i) : (A.flush i).Sized i := by
  refine ⟨(AFs.Clears.flush A i).dense h.dense, by simpa [AFs.flush] using h.type,
    by simpa [AFs.flush] using h.blocks, .inr ?_⟩
  cases h.synced with
  | inl dirty => simp [AFs.flush, dirty]
  | inr clean => simp [AFs.flush, clean]

theorem AFs.Sized.exact (h : A.Sized i) : A.Exact i := fun _ => h.blocks

theorem Volume.Stands.touched (h : v.Stands A) (off : A.Off A' i) (sized : A'.Sized i)
    (ok : Ok False ∅ A' w) (cached : w.fs.icache i ≠ none) : (v.after i w.fs).Stands A' := by
  have files : (v.after i w.fs).files = v.files := if_neg fun gone => cached gone.2
  refine ⟨ok.rep, ?_, ?_⟩
  · rw [files, off.live]
    exact h.live
  · intro j mem
    rw [files] at mem
    by_cases same : j = i
    · exact same ▸ sized
    · exact (h.sized j mem).congr (off.info j same) (off.content j same)

end Sized

section Steps

variable {A : AFs} {i : Nat} {v : Volume} {faults : Faults}

/-- Every halt but those of `sfs_truncfile`. -/
def NotMismatch (reason : Halt) : Prop := reason ≠ .sizeMismatch

instance (reason : Halt) : Decidable (NotMismatch reason) := inferInstanceAs (Decidable (_ ≠ _))

/-- What an operation on file `i` ensures, however it returns. -/
def Volume.Safe (v : Volume) (i : Nat) (faults : Faults) (p : SfsM Unit) : Prop :=
  p.wp NotMismatch (fun _ w => (v.after i w.fs).Counted) (fun _ w => (v.after i w.fs).Counted)
    { fs := v.fs, faults := faults }

theorem Volume.Stands.opened (h : v.Stands A) (faults : Faults) (isOpen : v.IsOpen i) :
    Ok False ∅ A { fs := v.fs, faults := faults } ∧ A.Sized i ∧ (∃ r, A.refs i = some r) ∧
      (v.fs.dinode i).blocks = (A.info i).blocks ∧ (v.fs.dinode i).size = (A.info i).size ∧
      (v.fs.dinode i).nlinks = (A.info i).nlinks := by
  have node := h.rep.node i (h.live isOpen.1)
  obtain ⟨sin, cache⟩ := Option.isSome_iff_exists.mp isOpen.2
  refine ⟨⟨h.rep, False.elim⟩, h.sized i isOpen.1, ⟨sin.refs, ?_⟩, ?_, ?_, ?_⟩
  · rw [← node.refs, cache]
    rfl
  · rw [← node.info, DiskInode.info_blocks]
  · rw [← node.info, DiskInode.info_size]
  · rw [← node.info, DiskInode.info_nlinks]

variable {w : World} {r : InodeRefs}

theorem Ok.cached_ne {A : AFs} (ok : Ok False ∅ A w) (refs : A.refs i = some r) : w.fs.icache i ≠ none := by
  obtain ⟨sin, cache, -⟩ := ok.cached refs
  rw [cache]
  exact Option.some_ne_none _

section

variable (h : v.Stands A)
include h

theorem write_counted {offset : Int} {data : { bytes : List UInt8 // bytes.length < 2 ^ 32 }}
    (isOpen : v.IsOpen i) (roomy : v.Roomy (.write i offset data, faults)) :
    v.Safe i faults (NodeOp.run (.write i offset data)) := by
  obtain ⟨ok, sized, ⟨r, refs⟩, blocks, size, -⟩ := h.opened faults isOpen
  obtain ⟨quiet, room⟩ := roomy
  have supply : Supplies (fun x => data.val.getD (x - offset.toNat) 0) (some data.val) offset.toNat
      data.val.length := by
    intro given eq
    cases eq
    exact ⟨le_refl _, fun j _ => by simp⟩
  have counted (done : Transfer) (w : World) (result : (v.after i w.fs).Counted) :
      (match done.ret with
        | some e => Prog.fail e
        | none => pure () : SfsM Unit).wp NotMismatch (fun _ w => (v.after i w.fs).Counted)
          (fun _ w => (v.after i w.fs).Counted) w := by
    cases done.ret with
    | some e => exact result
    | none => exact result
  simp only [Volume.Safe, NodeOp.run, Prog.wp_bind]
  apply (sfsIo_spec ok refs sized.dense data.property supply (.inl sized.type)
    (fun _ _ _ => .inr (by decide)) (.inr (by decide)) (fun _ => by decide)).mono
  · intro done w moved
    obtain ⟨-, A', ok', result⟩ := moved
    apply counted
    cases result with
    | inl idle =>
      obtain ⟨rfl, -⟩ := idle
      exact ⟨A', h.touched (.refl A' i) sized ok' (ok'.cached_ne refs)⟩
    | inr io =>
      obtain ⟨low, io, exactly⟩ := io
      have refs' : A'.refs i = some r := by rw [io.refs_self, refs]
      refine ⟨A', h.touched io.toOff (sized.io io (exactly.blocks quiet.works) ?_) ok' (ok'.cached_ne refs')⟩
      -- If there was no room for the first block, the write started at the end of one.
      by_contra stuck
      simp only [not_or, Nat.not_lt, Nat.le_zero] at stuck
      obtain ⟨nothing, outside, unaligned⟩ := stuck
      have first := exactly.starts
      rw [nothing] at first
      have bounds : offset.toNat < maxFileSize ∧ data.val ≠ [] := by
        have nonempty := io.nonempty
        rw [ioEnd, if_neg (Option.some_ne_none _)] at nonempty
        refine ⟨by omega, fun none => ?_⟩
        rw [none, List.length_nil] at nonempty
        omega
      refine absurd (first ⟨ok.rep.freeMap, ?_, quiet.works⟩) (Nat.lt_irrefl 0)
      change (if offset.toNat / blksize = (v.fs.dinode i).blocks then
        (v.fs.dinode i).cost (offset.toNat / blksize) else 0) ≤ v.fs.unused
      split_ifs with last
      · have needed := room low (by omega) bounds.2 (by
          unfold blksize at *
          omega)
        rw [DiskInode.need, ← last, DiskInode.growth, Nat.add_sub_cancel_left] at needed
        rw [DiskInode.cost]
        split_ifs with above
        · omega
        · rw [not_or, not_not] at above
          rw [if_pos ⟨above.2, by omega, by omega⟩] at needed
          omega
      · exact Nat.zero_le _
  · exact fun _ _ h => h.elim

/-- A file that was resized, or could not be. -/
theorem Volume.Stands.resized {A' : AFs} {len : Nat} (sized : A.Sized i) (refs : A.refs i = some r)
    (resized : A.Resized i len A')
    (ok : Ok False ∅ A' w) : (v.after i w.fs).Counted := by
  have refs' : A'.refs i = some r := by rw [resized.refs_self, refs]
  exact ⟨A', h.touched resized.toOff (sized.resized resized) ok (ok.cached_ne refs')⟩

section

variable (isOpen : v.IsOpen i)
include isOpen

theorem truncate_counted {len : Int} (roomy : v.Roomy (.truncate i len, faults)) :
    v.Safe i faults (NodeOp.run (.truncate i len)) := by
  obtain ⟨ok, sized, ⟨r, refs⟩, -, -, -⟩ := h.opened faults isOpen
  obtain ⟨quiet, room⟩ := roomy
  change (sfsTruncfile i len).wp _ _ _ _
  by_cases high : (maxFileSize : Int) < len
  · rw [sfsTruncfile, if_pos (.inr high)]
    exact ⟨A, h.touched (.refl A i) sized ok (ok.cached_ne refs)⟩
  apply (sfsTruncfile_spec ok refs sized.dense sized.type (.inr (by decide)) ?_
    (fun _ => by decide)).mono
  · intro _ w done
    obtain ⟨-, -, A', resized, ok'⟩ := done
    exact h.resized sized refs resized ok'
  · intro _ w failed
    obtain ⟨-, A', touched, same | full, ok'⟩ := failed
    · subst same
      exact ⟨A', h.touched (.refl A' i) sized ok' (ok'.cached_ne refs)⟩
    · exact absurd ⟨ok.rep.freeMap, room (by omega), quiet.works⟩ full
  · intro same
    rw [sized.blocks, same]
    exact .inl rfl

theorem seek_counted {pos : Int} (roomy : v.Roomy (.seek i pos, faults)) :
    v.Safe i faults (NodeOp.run (.seek i pos)) := by
  obtain ⟨ok, sized, ⟨r, refs⟩, -, size, -⟩ := h.opened faults isOpen
  obtain ⟨quiet, room⟩ := roomy
  change (sfsTryseek i pos).wp _ _ _ _
  by_cases high : (maxFileSize : Int) ≤ pos
  · rw [sfsTryseek, if_pos (.inr high)]
    exact ⟨A, h.touched (.refl A i) sized ok (ok.cached_ne refs)⟩
  apply (sfsTryseek_spec ok refs sized.dense sized.type (.inr (by decide)) (fun _ => by decide)).mono
  · intro _ w done
    obtain ⟨-, -, A', inside | grown, ok'⟩ := done
    · obtain ⟨rfl, -⟩ := inside
      exact ⟨A', h.touched (.refl A' i) sized ok' (ok'.cached_ne refs)⟩
    · exact h.resized sized refs grown.2 ok'
  · intro _ w failed
    obtain ⟨-, A', touched, same | full, ok'⟩ := failed
    · subst same
      exact ⟨A', h.touched (.refl A' i) sized ok' (ok'.cached_ne refs)⟩
    · refine absurd ⟨ok.rep.freeMap, room (by omega) ?_, quiet.works⟩ full.2
      rw [size]
      exact full.1

theorem Volume.Stands.drops {A' : AFs} (drops : A.Drops i r False A') (ok : Ok False ∅ A' w) :
    (v.after i w.fs).Counted := by
  obtain ⟨-, sized, -, -, -, links⟩ := h.opened {} isOpen
  have off := drops.off
  have others (j : Nat) (mem : j ∈ v.files) (other : j ≠ i) : j ∈ A'.live ∧ A'.Sized j :=
    ⟨(off.live j other).mpr (h.live mem),
      (h.sized j mem).congr (off.info j other) (off.content j other)⟩
  have stays (live : i ∈ A'.live) (sized' : A'.Sized i)
      (kept : ¬ ((v.fs.dinode i).nlinks = 0 ∧ w.fs.icache i = none)) : (v.after i w.fs).Counted := by
    have files : (v.after i w.fs).files = v.files := if_neg kept
    refine ⟨A', ok.rep, fun j mem => ?_, fun j mem => ?_⟩
    · rw [files] at mem
      by_cases same : j = i
      · exact same ▸ live
      · exact (others j mem same).1
    · rw [files] at mem
      by_cases same : j = i
      · exact same ▸ sized'
      · exact (others j mem same).2
  have live := h.live isOpen.1
  cases drops with
  | kept more same =>
    subst same
    refine stays live (sized.congr rfl rfl) fun gone => ?_
    exact ok.cached_ne (r := r.refDec.1) (by simp) gone.2
  | busy last tokens r' same =>
    subst same
    refine stays live (sized.congr rfl rfl) fun gone => ?_
    exact ok.cached_ne (r := r') (by simp) gone.2
  | failed last fault => exact fault.elim
  | reclaimed last r' reclaimed =>
    cases reclaimed with
    | evicted linked same =>
      subst same
      refine stays live ?_ fun gone => ?_
      · have stored : (A.info i).stored.getD (A.info i).blocks = (A.info i).blocks := by
          cases sized.synced with
          | inl dirty => rw [dirty, Option.getD_none]
          | inr clean => rw [clean, Option.getD_some]
        refine ⟨fun k inside => ?_, ?_, ?_, .inr ?_⟩
        · simp only [AFs.info_setRefs, AFs.info_setInfo, stored] at inside
          exact sized.dense k inside
        · simpa using sized.type
        · simpa [stored] using sized.blocks
        · simp
      · rw [links] at gone
        exact linked gone.1
    | freed mid unlinked clears same =>
      subst same
      have erased : (v.after i w.fs).files = v.files.erase i := by
        apply if_pos
        refine ⟨by rw [links]; exact unlinked, ?_⟩
        exact (ok.rep.cached i (Finset.notMem_erase i _)).1
      refine ⟨_, ok.rep, fun j mem => ?_, fun j mem => ?_⟩
      · rw [erased] at mem
        exact (others j (Finset.mem_of_mem_erase mem) (Finset.ne_of_mem_erase mem)).1
      · rw [erased] at mem
        exact (others j (Finset.mem_of_mem_erase mem) (Finset.ne_of_mem_erase mem)).2

theorem drop_counted (fs : w.fs = v.fs)
    (quiet : w.Quiet) : (vopRefDec i).wp NotMismatch (fun _ w' => (v.after i w'.fs).Counted)
      (fun _ w' => (v.after i w'.fs).Counted) w := by
  obtain ⟨-, sized, ⟨r, refs⟩, -⟩ := h.opened {} isOpen
  have ok : Ok False ∅ A w := ⟨by rw [fs]; exact h.rep, False.elim⟩
  apply (vopRefDec_spec ok refs False.elim (fun _ => by decide) (fun _ => by decide)
    (.inl sized.exact) (by decide)).mono
  · intro _ w' dropped
    obtain ⟨-, A', drops, ok'⟩ := dropped
    have calm : failures w.faults.reclaim = 0 := by
      have none : w.failures = 0 := quiet
      unfold World.failures at none
      omega
    simp only [calm, ne_eq, not_true_eq_false] at drops
    exact h.drops isOpen drops ok'
  · exact fun _ _ impossible => impossible.elim

theorem close_counted {last : Bool} (roomy : v.Roomy (.close i last, faults)) :
    v.Safe i faults (NodeOp.run (.close i last)) := by
  obtain ⟨ok, sized, ⟨r, refs⟩, -, -, links⟩ := h.opened faults isOpen
  have quiet := roomy.1
  change (vfsClose i last).wp _ _ _ _
  cases last with
  | false => exact drop_counted h isOpen rfl quiet
  | true =>
    simp only [vfsClose, if_true, Prog.wp_bind, Prog.wp_attempt]
    apply (sfsFsync_spec ok refs (fun _ => by decide)).mono
    · intro _ w₁ synced
      obtain ⟨later₁, ok₁⟩ := synced
      -- The inode is written back first, which leaves size and links as they are.
      have node₁ := ok₁.rep.node i (h.live isOpen.1)
      have links₁ : (w₁.fs.dinode i).nlinks = (v.fs.dinode i).nlinks := by
        rw [links, ← DiskInode.info_nlinks (w₁.fs.dinode i) (w₁.fs.stored i), node₁.info]
        simp [AFs.flush]
      have stands : Volume.Stands { v with fs := w₁.fs } (A.flush i) := by
        refine ⟨ok₁.rep, h.live, fun j mem => ?_⟩
        by_cases same : j = i
        · exact same ▸ sized.flush
        · exact (h.sized j mem).congr (by simp [AFs.flush, same]) rfl
      have opened : Volume.IsOpen { v with fs := w₁.fs } i :=
        ⟨isOpen.1, Option.isSome_iff_ne_none.mpr (ok₁.cached_ne refs)⟩
      have after (fs : Fs) : Volume.after { v with fs := w₁.fs } i fs = v.after i fs := by
        simp [Volume.after, links₁]
      have dropped := drop_counted stands opened rfl (later₁.quiet quiet)
      simpa [after] using dropped
    · intro _ w₁ failed
      exact absurd quiet failed.1.spent.not_quiet

end

end

variable {op : NodeOp × Faults}

theorem NodeOp.safe (h : v.Counted) (isOpen : v.IsOpen op.1.node)
    (roomy : v.Roomy op) : v.Safe op.1.node op.2 op.1.run := by
  obtain ⟨A, stands⟩ := h
  obtain ⟨op, faults⟩ := op
  cases op with
  | write i offset data => exact write_counted stands isOpen roomy
  | seek i pos => exact seek_counted stands isOpen roomy
  | truncate i len => exact truncate_counted stands isOpen roomy
  | close i last => exact close_counted stands isOpen roomy

theorem Volume.step_counted {t : Volume} (h : v.Counted) (roomy : v.Roomy op)
    (taken : v.step op = some t) : t.Counted := by
  unfold Volume.step at taken
  split at taken
  · rename_i isOpen
    have safe := NodeOp.safe h isOpen roomy
    unfold Volume.Safe Prog.wp at safe
    unfold Volume.outcome at taken
    split at taken
    · rename_i ended
      cases taken
      rwa [ended] at safe
    · rename_i ended
      cases taken
      rwa [ended] at safe
    · cases taken
  · cases taken

end Steps

/-- In a run that finds room for the blocks it needs, every file has the blocks for its
    size, and the assertions of `sfs_truncfile` hold. -/
theorem blocks_follow_size {v t : Volume} {ops : List (NodeOp × Faults)} (start : v.Counted)
    (roomy : Along Volume.step Volume.Roomy v ops) (run : runFrom Volume.step v ops = some t) :
    (∀ i ∈ t.files, (t.fs.dinode i).blocks = blocksFor (t.fs.dinode i).size) ∧
      ∀ op, t.IsOpen op.1.node → t.Roomy op → (t.outcome op).haltReason ≠ some .sizeMismatch := by
  have counted : t.Counted :=
    runFrom_invariant (fun _ _ _ h cond taken => Volume.step_counted h cond taken) start roomy run
  constructor
  · obtain ⟨A, stands⟩ := counted
    intro i mem
    have info := (stands.rep.node i (stands.live mem)).info
    have exact := (stands.sized i mem).blocks
    rwa [← info] at exact
  · intro op isOpen room halts
    exact (NodeOp.safe counted isOpen room).halts halts rfl

/-- A volume with nine free blocks and one file on it, which is empty. -/
def smallVolume : Volume := ⟨emptyFileImage.fs, {6}⟩

theorem smallVolume_counted : smallVolume.Counted := by
  refine ⟨emptyFileImage.abs, Image.rep (by decide) _, by decide, fun i mem => ?_⟩
  obtain rfl : i = 6 := Finset.mem_singleton.mp mem
  refine ⟨fun k inside => absurd inside (Nat.not_lt_zero k), by decide, rfl, .inr rfl⟩

theorem seven_short : [(7 : UInt8)].length < 2 ^ 32 := by decide

/-- Write behind the beginning of the file, resize it and close it. -/
def writeAndClose : List (NodeOp × Faults) :=
  [(.write 6 100 ⟨[7], seven_short⟩, {}), (.truncate 6 8192, {}), (.seek 6 9000, {}),
    (.close 6 true, {})]

theorem blocks_follow_size_writeAndClose : ∃ t,
    runFrom Volume.step smallVolume writeAndClose = some t ∧
      ∀ i ∈ t.files, (t.fs.dinode i).blocks = blocksFor (t.fs.dinode i).size := by
  refine exists_run (by decide +kernel) fun t run => ?_
  exact (blocks_follow_size smallVolume_counted (by decide +kernel) run).1

variable {i n : Nat} {w : World}

theorem growLoop_append {m k : Nat} {w' : World} (first : growLoop i m k w = .done () w') :
    growLoop i (m + n) k w = growLoop i n (k + m) w' := by
  induction m generalizing k w with
  | zero =>
    cases first
    rw [Nat.zero_add, Nat.add_zero]
  | succ m ih =>
    obtain ⟨b, w₁, loaded, rest⟩ := Prog.done_of_bind first
    rw [Nat.succ_add, growLoop, Prog.bind_done loaded, ih rest, Nat.add_right_comm, Nat.add_assoc]

/-- On a full volume the next block of a file is not found. -/
theorem growLoop_full {sin : SfsInode} (cache : w.fs.icache i = some sin)
    (direct : sin.din.blocks < ndirect) (unmapped : sin.din.direct ⟨sin.din.blocks, direct⟩ = 0)
    (full : w.fs.bitmapAlloc = none) :
    growLoop i (n + 1) sin.din.blocks w = .failed .noMem w := by
  simp [growLoop, sfsBmapLoadNolock, sfsBmapGetNolock, sfsBlockAlloc, getSin, getFs, Bind.bind, Pure.pure, Prog.get,
    Prog.assert, Prog.fail, cache, direct, unmapped, full]

/-- A file that does not get its new blocks keeps its size. -/
theorem sfsTruncfile_full {k : Nat} {len : Int} {w' : World} {sin : SfsInode}
    (cache : w.fs.icache i = some sin) (inside : 0 ≤ len ∧ len ≤ maxFileSize)
    (type : sin.din.type ≠ .dir) (size : sin.din.size ≠ len.toNat) (unlocked : .inode i ∉ w.held)
    (now : sin.din.blocks = k) (want : (len.toNat + (blksize - 1)) / blksize = k + n) (more : 0 < n)
    (failed : growLoop i n k { w with held := .inode i :: w.held } = .failed .noMem w') :
    sfsTruncfile i len w = .failed .noMem { w' with held := w'.held.erase (.inode i) } := by
  have range : ¬ (len < 0 ∨ (maxFileSize : Int) < len) := by omega
  have grows : k < k + n := by omega
  simp [sfsTruncfile, resize, lockSin, unlockSin, down, up, getSin, getFs, Bind.bind, Pure.pure, Prog.get,
    Prog.modify, Prog.attempt, Prog.rethrow, Prog.fail, range, cache, type, size, unlocked, now, want,
    grows, failed]

/-- After nine blocks the volume is full, and the file has these blocks and no size yet. -/
theorem smallVolume_nine : ∃ w sin, growLoop 6 9 0 ⟨smallVolume.fs, [.inode 6], {}⟩ = .done () w ∧
    w.fs.icache 6 = some sin ∧ w.fs.bitmapAlloc = none ∧ sin.din.blocks = 9 ∧ sin.din.size = 0 ∧
    sin.din.type = .file ∧ ∃ direct : sin.din.blocks < ndirect, sin.din.direct ⟨_, direct⟩ = 0 := by
  have ends : (growLoop 6 9 0 ⟨smallVolume.fs, [.inode 6], {}⟩).ends (fun _ w => w.fs.unused = 0 ∧
      (w.fs.icache 6).any fun sin => sin.din.blocks = 9 ∧ sin.din.size = 0 ∧ sin.din.type = .file ∧
        ∃ direct : sin.din.blocks < ndirect, sin.din.direct ⟨_, direct⟩ = 0) = true := by
    decide +kernel
  obtain ⟨_, w, grown, test⟩ := Outcome.ends_iff.mp ends
  obtain ⟨full, file⟩ := of_decide_eq_true test
  obtain ⟨sin, cache, facts⟩ := (Option.any_eq_true _ _).mp file
  have start : Ok False ∅ emptyFileImage.abs ⟨smallVolume.fs, [.inode 6], {}⟩ :=
    ⟨Image.rep (by decide) _, False.elim⟩
  have dense : emptyFileImage.abs.Dense 6 := fun k inside => absurd inside (Nat.not_lt_zero k)
  have refs : emptyFileImage.abs.refs 6 = some {} := rfl
  obtain ⟨-, A, -, -, ok⟩ := (growLoop_spec (H := fun _ => True) (f := fun _ => 0) start refs dense rfl
    (.inr trivial)).done grown
  exact ⟨w, sin, grown, cache, ok.rep.freeMap.bitmapAlloc_full full, of_decide_eq_true facts⟩

/-- Growing to eleven blocks fails after nine; the file keeps them and its size of zero. -/
theorem full_volume_splits_size : smallVolume.Counted ∧
    (runFrom Volume.step smallVolume [(.truncate 6 45056, {})]).map
      (fun t => ((t.fs.dinode 6).blocks, (t.fs.dinode 6).size,
        (t.outcome (.truncate 6 0, {})).haltReason)) = some (9, 0, some .sizeMismatch) := by
  refine ⟨smallVolume_counted, ?_⟩
  obtain ⟨w, sin, grown, cache, full, blocks, size, type, direct, unmapped⟩ := smallVolume_nine
  have failed : growLoop 6 11 0 ⟨smallVolume.fs, [.inode 6], {}⟩ = .failed .noMem w := by
    rw [growLoop_append (n := 2) grown, Nat.zero_add, ← blocks]
    exact growLoop_full cache direct unmapped full
  obtain ⟨new, cache₀, empty⟩ : ∃ new, smallVolume.fs.icache 6 = some new ∧
      new.din = { type := .file, nlinks := 1 } := ⟨_, rfl, rfl⟩
  have grows : sfsTruncfile 6 45056 ⟨smallVolume.fs, [], {}⟩ =
      .failed .noMem { w with held := w.held.erase (.inode 6) } := by
    apply sfsTruncfile_full (n := 11) cache₀
    · decide
    · rw [empty]
      decide
    · rw [empty]
      decide
    · exact List.not_mem_nil
    · rw [empty]
    · rfl
    · decide
    · exact failed
  have opened : smallVolume.IsOpen 6 := by decide
  have stays : (sfsTruncfile 6 0 ⟨w.fs, [], {}⟩).haltReason = some .sizeMismatch := by
    simp [sfsTruncfile, getSin, getFs, Bind.bind, Pure.pure, Prog.get, Prog.assert, Prog.halt, cache, type,
      size, blocks, maxFileSize, blksize, Outcome.haltReason]
  have outcome : smallVolume.outcome (.truncate 6 45056, {}) =
      .failed .noMem { w with held := w.held.erase (.inode 6) } := grows
  have taken : smallVolume.step (.truncate 6 45056, {}) = some (smallVolume.after 6 w.fs) := by
    rw [Volume.step, outcome]
    exact if_pos opened
  rw [runFrom, taken, Option.bind_some, runFrom, Option.map_some]
  change some ((w.fs.dinode 6).blocks, (w.fs.dinode 6).size,
    (sfsTruncfile 6 0 ⟨w.fs, [], {}⟩).haltReason) = _
  rw [stays, w.fs.dinode_of_cached cache, blocks, size]

end Procore.Sfs
