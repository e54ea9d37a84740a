import Procore.Sfs.FileSpec

/-! # Resizing a file

Blocks are appended or dropped one at a time, and the size is set when the
number of blocks is right. A request that fails on the way leaves the file with
some of the blocks appended or dropped and with its old size.
-/

namespace Procore.Sfs

open Procore.Lib
open Prog (wp_assert wp_assert_pos wp_attempt wp_bind)

variable {strict : Prop} {inflight : Finset Nat} {A A' A'' : AFs} {w w' : World} {H : Halt → Prop}
  {i k : Nat} {r : InodeRefs} {f : Nat → UInt8}

/-- Append blocks one by one. -/
theorem growLoop_spec {count : Nat} (ok : Ok strict inflight A w) (refs : A.refs i = some r)
    (dense : A.Dense i) (start : k = (A.info i).blocks)
    (room : k + count ≤ maxBlocks ∨ H .indexOutOfRange) : (growLoop i count k).wp H
      (fun _ w' => w.Later w' ∧ ∃ A', A.Wrote i 0 0 f A' ∧ (A'.info i).blocks = k + count ∧
        Ok strict inflight A' w')
      (fun _ w' => w.Later w' ∧ ∃ A', A.Wrote i 0 0 f A' ∧ Ok strict inflight A' w') w := by
  induction count generalizing k w A with
  | zero => exact ⟨.refl w, A, .refl A i 0 f, by omega, ok⟩
  | succ count ih =>
    have roomHere : k < maxBlocks ∨ H .indexOutOfRange := by
      cases room with
      | inl fits => exact .inl (by omega)
      | inr halts => exact .inr halts
    simp only [growLoop, wp_bind]
    apply (sfsBmapLoadNolock_spec ok refs dense (le_of_eq start) roomHere 0 f).mono
    · intro b w₁ loaded
      obtain ⟨-, -, later₁, A₁, wrote₁, blocks₁, ok₁⟩ := loaded
      refine Prog.wp.mono (ih ok₁ (by rw [wrote₁.refs_self, refs]) (wrote₁.dense dense)
        (by omega) (by rwa [Nat.add_assoc, Nat.add_comm 1])) ?_ ?_
      · intro _ w₂ grown
        obtain ⟨later₂, A₂, wrote₂, blocks₂, ok₂⟩ := grown
        exact ⟨later₁.trans later₂, A₂, wrote₁.trans wrote₂ (le_refl _) (le_refl _), by omega, ok₂⟩
      · intro _ w₂ failed
        obtain ⟨later₂, A₂, wrote₂, ok₂⟩ := failed
        exact ⟨later₁.trans later₂, A₂, wrote₁.trans wrote₂ (le_refl _) (le_refl _), ok₂⟩
    · intro _ w₁ failed
      exact ⟨failed.2.2, A, .refl A i 0 f, failed.2.1⟩

/-- The blocks of file `i` from `n` on are gone. -/
structure AFs.Cut (A : AFs) (i n : Nat) (A' : AFs) : Prop extends A.Off A' i where
  refs_self : A'.refs i = A.refs i
  type : (A'.info i).type = (A.info i).type
  nlinks : (A'.info i).nlinks = (A.info i).nlinks
  size : (A'.info i).size = (A.info i).size
  blocks : (A'.info i).blocks = n
  content_self : ∀ k, A'.content i k =
    if n ≤ k ∧ k < (A.info i).blocks then none else A.content i k
  head : A.Head i → A'.Head i

theorem AFs.Shrinks.head (h : A.Shrinks i A') (head : A.Head i) : A'.Head i := by
  intro k direct mapped
  rw [h.content_self] at mapped
  split at mapped
  · exact absurd rfl mapped
  · have before := (head k direct mapped).1
    rw [h.info_self]
    exact ⟨by dsimp only; omega, fun n some => by cases some⟩

/-- Drop blocks one by one. -/
theorem shrinkLoop_spec {count : Nat} (ok : Ok strict inflight A w) (refs : A.refs i = some r)
    (enough : count ≤ (A.info i).blocks) : (shrinkLoop i count).wp H
      (fun _ w' => w.Later w' ∧ ∃ A', A.Cut i ((A.info i).blocks - count) A' ∧
        Ok strict inflight A' w')
      (fun e w' => e = .io ∧ w.Lost w' ∧ ∃ n A', n ≤ (A.info i).blocks ∧ A.Cut i n A' ∧
        Ok strict inflight A' w') w := by
  induction count generalizing w A with
  | zero =>
    refine ⟨.refl w, A, ⟨.refl A i, rfl, rfl, rfl, rfl, rfl, fun k => ?_, id⟩, ok⟩
    rw [if_neg (by omega)]
  | succ count ih =>
    simp only [shrinkLoop, wp_bind]
    apply (sfsBmapTruncateNolock_spec ok refs (by omega)).mono
    · intro _ w₁ shrunk
      obtain ⟨later₁, A₁, shrinks, ok₁⟩ := shrunk
      have blocks₁ : (A₁.info i).blocks = (A.info i).blocks - 1 := by rw [shrinks.info_self]
      have cut {n : Nat} {A₂ : AFs} (le : n ≤ (A₁.info i).blocks) (h : A₁.Cut i n A₂) :
          A.Cut i n A₂ := by
        refine ⟨shrinks.toOff.trans h.toOff, h.refs_self.trans shrinks.refs_self, ?_, ?_, ?_,
          h.blocks, fun k => ?_, h.head ∘ shrinks.head⟩
        · rw [h.type, shrinks.info_self]
        · rw [h.nlinks, shrinks.info_self]
        · rw [h.size, shrinks.info_self]
        · rw [h.content_self, shrinks.content_self, blocks₁]
          by_cases last : k = (A.info i).blocks - 1
          · rw [if_pos last, if_neg (by omega), if_pos (by omega)]
          · rw [if_neg last]
            by_cases gone : n ≤ k ∧ k < (A.info i).blocks - 1
            · rw [if_pos gone, if_pos (by omega)]
            · rw [if_neg gone, if_neg (by omega)]
      apply (ih ok₁ (by rw [shrinks.refs_self, refs]) (by omega)).mono
      · intro _ w₂ done
        obtain ⟨later₂, A₂, h, ok₂⟩ := done
        refine ⟨later₁.trans later₂, A₂, ?_, ok₂⟩
        have := cut (by omega) h
        rwa [blocks₁, Nat.sub_sub, Nat.add_comm 1] at this
      · intro e w₂ failed
        obtain ⟨io, lost, n, A₂, le, h, ok₂⟩ := failed
        exact ⟨io, later₁.lost lost, n, A₂, by omega, cut le h, ok₂⟩
    · intro e w₁ failed
      refine ⟨failed.1, failed.2.2, _, A, le_refl _,
        ⟨.refl A i, rfl, rfl, rfl, rfl, rfl, fun k => ?_, id⟩, ok.sameFs failed.2.1 failed.2.2.1⟩
      rw [if_neg (by omega)]

variable {n : Nat}

theorem AFs.Cut.dense (h : A.Cut i n A') (le : n ≤ (A.info i).blocks) (dense : A.Dense i) :
    A'.Dense i := by
  intro k inside
  rw [h.blocks] at inside
  rw [h.content_self, if_neg (by omega)]
  exact dense k (by omega)

theorem AFs.Cut.tail (h : A.Cut i n A') (tail : A.Tail i) : A'.Tail i := by
  intro k outside
  rw [h.blocks] at outside
  rw [h.content_self]
  split
  · rfl
  · exact tail k (by omega)

theorem AFs.Cut.byte (h : A.Cut i n A') (tail : A.Tail i) (x : Nat) :
    A'.byte i x = if x / blksize < n then A.byte i x else 0 := by
  simp only [AFs.byte, h.content_self]
  by_cases inside : x / blksize < n
  · rw [if_neg (by omega), if_pos inside]
  · rw [if_neg inside]
    by_cases gone : x / blksize < (A.info i).blocks
    · rw [if_pos (by omega)]
    · rw [if_neg (by omega), tail _ (by omega)]

/-- File `i` may have changed, but not what names it. -/
structure AFs.Touched (A : AFs) (i : Nat) (A' : AFs) : Prop extends A.Off A' i where
  refs_self : A'.refs i = A.refs i
  type : (A'.info i).type = (A.info i).type
  nlinks : (A'.info i).nlinks = (A.info i).nlinks
  sized : (A.info i).size ≤ maxBlocks * blksize → (A'.info i).size ≤ maxBlocks * blksize
  dense : A.Dense i → A'.Dense i
  tail : A.Tail i → A'.Tail i
  head : A.Head i → A'.Head i

theorem AFs.Touched.refl (A : AFs) (i : Nat) : A.Touched i A :=
  ⟨.refl A i, rfl, rfl, rfl, id, id, id, id⟩

theorem AFs.Wrote.touched {lo hi : Nat} (h : A.Wrote i lo hi f A') : A.Touched i A' :=
  ⟨h.toOff, h.refs_self, h.type, h.nlinks, fun le => by rwa [h.size], h.dense, h.tail, h.head⟩

theorem AFs.Cut.touched (h : A.Cut i n A') (le : n ≤ (A.info i).blocks) : A.Touched i A' :=
  ⟨h.toOff, h.refs_self, h.type, h.nlinks, fun le => by rwa [h.size], h.dense le, h.tail,
    h.head⟩

theorem AFs.Io.touched {off endpos : Nat} {buf : Option (List UInt8)} {done : Transfer}
    (h : A.Io i off endpos buf f done A') : A.Touched i A' := by
  refine ⟨h.toOff, h.refs_self, h.type, h.nlinks, fun le => ?_, h.dense, h.tail, h.head⟩
  rw [h.size]
  exact max_le le h.sized

structure AFs.Resized (A : AFs) (i len : Nat) (A' : AFs) : Prop extends A.Touched i A' where
  size : (A'.info i).size = len
  blocks : (A'.info i).blocks = blocksFor len
  marked : A' = A ∨ (A'.info i).stored = none
  byte : A.Tail i → ∀ x, A'.byte i x = if x / blksize < blocksFor len then A.byte i x else 0

variable {len : Nat}

/-- The size of a file in memory is set. -/
theorem Ok.setSize {sin : SfsInode} (ok : Ok strict inflight A w)
    (cache : w.fs.icache i = some sin) (short : len ≤ maxBlocks * blksize) :
    Ok strict inflight
      (A.setInfo i { A.info i with size := len, stored := none })
      { w with fs := w.fs.setSin i (some { sin with
        din := { sin.din with size := len }, dirty := true }) } := by
  have node := ok.rep.node i (ok.rep.live_of_cached cache)
  have bounded := node.bounded
  have held := node.blocks_of_cached cache
  have fits := node.fits
  rw [w.fs.dinode_of_cached cache] at fits
  have width : maxBlocks * blksize < 2 ^ 32 := by decide
  have rep := ok.rep.updateDirty cache { sin with din := { sin.din with size := len }, dirty := true }
    rfl rfl { fits with size := by change len < 2 ^ 32; omega }
    (by change sin.din.blocks ≤ maxBlocks; rwa [← held]) rfl rfl
  have info : DiskInode.info { sin.din with size := len } none =
      { A.info i with size := len, stored := none } := by
    rw [node.info_of_cached cache]
    rfl
  rw [info] at rep
  exact ok.withFs rep

theorem AFs.Touched.setSize (short : len ≤ maxBlocks * blksize) :
    A.Touched i (A.setInfo i { A.info i with size := len, stored := none }) := by
  refine ⟨(AFs.Off.refl A i).setInfo _, rfl, by simp, by simp, fun _ => by simpa using short,
    ?_, ?_, ?_⟩
  · intro dense k inside
    simp only [AFs.info_setInfo] at inside
    exact dense k inside
  · intro tail k outside
    simp only [AFs.info_setInfo] at outside
    exact tail k outside
  · intro head k direct mapped
    simp only [AFs.info_setInfo]
    exact ⟨(head k direct mapped).1, fun n some => by cases some⟩

/-- Set the size once the number of blocks is right. -/
theorem resize_finish (ok : Ok strict inflight A w) (refs : A.refs i = some r)
    (blocks : (A.info i).blocks = blocksFor len) :
    (do
      let sin ← getSin i
      Prog.assert (sin.din.blocks = blocksFor len) .sizeMismatch
      modifySin i fun sin => { sin with din := { sin.din with size := len }, dirty := true } :
        SfsM Unit).wp H
      (fun _ w' => w.Later w' ∧ ∃ A', A.Touched i A' ∧ (A'.info i).size = len ∧
        (A'.info i).blocks = (A.info i).blocks ∧ (A'.info i).stored = none ∧
        (∀ x, A'.byte i x = A.byte i x) ∧ Ok strict inflight A' w') (fun _ _ => False) w := by
  obtain ⟨sin, cache, -, live, -⟩ := ok.cached refs
  have held := (ok.rep.node i live).blocks_of_cached cache
  have short : len ≤ maxBlocks * blksize := by
    have bounded := (ok.rep.node i live).bounded
    unfold blocksFor at blocks
    unfold blksize at *
    omega
  simp only [wp_bind, wp_getSin cache]
  rw [wp_assert_pos (by rw [← held, blocks]), wp_modifySin cache]
  refine ⟨(World.Later.refl w).withFs _ rfl, _, .setSize short, ?_, ?_, ?_, (by exact fun x => rfl),
    ok.setSize cache short⟩
  · simp
  · simp
  · simp

theorem AFs.Touched.trans (h : A.Touched i A') (h' : A'.Touched i A'') : A.Touched i A'' :=
  ⟨h.toOff.trans h'.toOff, h'.refs_self.trans h.refs_self, h'.type.trans h.type,
    h'.nlinks.trans h.nlinks, h'.sized ∘ h.sized, h'.dense ∘ h.dense, h'.tail ∘ h.tail,
    h'.head ∘ h.head⟩

theorem resize_spec (ok : Ok strict inflight A w) (refs : A.refs i = some r)
    (dense : A.Dense i) (room : blocksFor len ≤ maxBlocks ∨ H .indexOutOfRange)
    (width : blocksFor len < 2 ^ 32) :
    (resize i (A.info i).blocks (blocksFor len) len).wp H
      (fun _ w' => w.Later w' ∧ ∃ A', A.Resized i len A' ∧ Ok strict inflight A' w')
      (fun _ w' => w.Later w' ∧ ¬ w.Room ((w.fs.dinode i).need (blocksFor len)) ∧
        ∃ A', A.Touched i A' ∧ Ok strict inflight A' w') w := by
  obtain ⟨sin, cache, -, live, -⟩ := ok.cached refs
  have held := (ok.rep.node i live).blocks_of_cached cache
  have enough : (growLoop i (blocksFor len - (A.info i).blocks) (A.info i).blocks).wp (fun _ => True)
      (fun _ _ => True) (fun _ _ => ¬ w.Room ((w.fs.dinode i).need (blocksFor len))) w := by
    rw [w.fs.dinode_of_cached cache, DiskInode.need, ← held]
    by_cases roomy : w.Room (sin.din.growth (A.info i).blocks (blocksFor len - (A.info i).blocks))
    · have bounded := (ok.rep.node i live).bounded
      have small : maxBlocks < 2 ^ 32 := by decide
      apply (growLoop_room cache held (by omega) roomy).mono
      · exact fun _ _ h => h
      · exact fun _ _ h => h.elim
    · unfold Prog.wp
      split
      · trivial
      · exact roomy
      · trivial
  unfold resize
  by_cases grow : (A.info i).blocks < blocksFor len
  · rw [if_pos grow, wp_bind]
    apply ((growLoop_spec (f := fun _ => 0) ok refs dense rfl (by
      cases room with
      | inl fits => exact .inl (by omega)
      | inr halts => exact .inr halts)).and enough).mono
    · intro _ w₁ grown
      obtain ⟨⟨later₁, A₁, wrote, blocks₁, ok₁⟩, -⟩ := grown
      apply (resize_finish ok₁ (by rw [wrote.refs_self, refs]) (by omega)).mono
      · intro _ w₂ finished
        obtain ⟨later₂, A₂, touched, size, blocks₂, marked, byte, ok₂⟩ := finished
        refine ⟨later₁.trans later₂, A₂, ⟨wrote.touched.trans touched, size, by omega, .inr marked,
          ?_⟩, ok₂⟩
        intro tail x
        rw [byte x, wrote.byte x, if_neg (by omega)]
        split
        · rfl
        · simp [AFs.byte, tail (x / blksize) (by omega)]
      · exact fun _ _ h => h.elim
    · intro _ w₁ failed
      obtain ⟨⟨later₁, A₁, wrote, ok₁⟩, full⟩ := failed
      exact ⟨later₁, full, A₁, wrote.touched, ok₁⟩
  · rw [if_neg grow]
    apply (shrinkLoop_spec ok refs (Nat.sub_le _ _)).bind
    · intro _ w₁ shrunk
      obtain ⟨later₁, A₁, cut, ok₁⟩ := shrunk
      rw [show (A.info i).blocks - ((A.info i).blocks - blocksFor len) = blocksFor len by omega] at cut
      apply (resize_finish ok₁ (by rw [cut.refs_self, refs]) cut.blocks).mono
      · intro _ w₂ finished
        obtain ⟨later₂, A₂, touched, size, blocks₂, marked, byte, ok₂⟩ := finished
        refine ⟨later₁.trans later₂, A₂, ⟨(cut.touched (by omega)).trans touched, size,
          blocks₂.trans cut.blocks, .inr marked, ?_⟩, ok₂⟩
        intro tail x
        rw [byte x, cut.byte tail x]
      · exact fun _ _ h => h.elim
    · intro _ w₁ failed
      obtain ⟨-, lost, n, A₁, le, cut, ok₁⟩ := failed
      exact ⟨lost.1, fun roomy => lost.not_works roomy.works, A₁, cut.touched le, ok₁⟩

/-- A file has the blocks for its size. -/
def AFs.Exact (A : AFs) (i : Nat) : Prop :=
  (A.info i).type ≠ .dir → (A.info i).blocks = blocksFor (A.info i).size

section

variable (ok : Ok strict inflight A w) (refs : A.refs i = some r) (dense : A.Dense i)
  (regular : (A.info i).type ≠ .dir)
include ok refs dense regular

/-- `sfs_truncfile` on a file that is not a directory. -/
theorem sfsTruncfile_spec {len : Int} (room : blocksFor len.toNat ≤ maxBlocks ∨ H .indexOutOfRange)
    (exact : (A.info i).size = len.toNat → blocksFor len.toNat = (A.info i).blocks ∨ H .sizeMismatch)
    (unlocked : .inode i ∈ w.held → H .deadlock) : (sfsTruncfile i len).wp H
      (fun _ w' => 0 ≤ len ∧ w.Later w' ∧ ∃ A', A.Resized i len.toNat A' ∧ Ok strict inflight A' w')
      (fun _ w' => w.Later w' ∧ ∃ A', A.Touched i A' ∧
        (A' = A ∨ ¬ w.Room ((w.fs.dinode i).need (blocksFor len.toNat))) ∧
        Ok strict inflight A' w') w := by
  obtain ⟨sin, cache, -, live, info⟩ := ok.cached refs
  have node := ok.rep.node i live
  have held := node.blocks_of_cached cache
  have type : (A.info i).type = sin.din.type := by
    rw [info]
    rfl
  have size : (A.info i).size = sin.din.size := by
    rw [info]
    rfl
  unfold sfsTruncfile
  by_cases refused : len < 0 ∨ (maxFileSize : Int) < len
  · rw [if_pos refused]
    exact ⟨.refl w, A, .refl A i, .inl rfl, ok⟩
  rw [if_neg refused]
  simp only [wp_bind, wp_getSin cache, ← type, ← size, ← held]
  rw [if_neg regular]
  change (if _ then Prog.assert (decide (blocksFor len.toNat = _)) _ else _ : SfsM Unit).wp H _ _ w
  by_cases same : (A.info i).size = len.toNat
  · rw [if_pos same]
    by_cases fits : blocksFor len.toNat = (A.info i).blocks
    · rw [wp_assert_pos fits]
      refine ⟨by omega, .refl w, A, ⟨.refl A i, same, fits.symm, .inl rfl, fun tail x => ?_⟩, ok⟩
      split
      · rfl
      · simp [AFs.byte, tail (x / blksize) (by omega)]
    · cases exact same with
      | inl eq => exact absurd eq fits
      | inr halts =>
        simp only [wp_assert, decide_eq_true_eq]
        exact ⟨fun eq => absurd eq fits, fun _ => halts⟩
  · rw [if_neg same]
    simp only [wp_bind, wp_attempt]
    apply wp_down unlocked
    intro _
    have width : blocksFor len.toNat < 2 ^ 32 := by
      have : maxFileSize = 2 ^ 27 := by decide
      unfold blocksFor blksize
      omega
    apply (resize_spec (ok.withHeld _) refs dense room width).mono
    · intro _ w₁ resized
      obtain ⟨later, A', done, ok'⟩ := resized
      exact ⟨by omega, World.Later.lock w _ later, A', done, ok'.withHeld _⟩
    · intro _ w₁ failed
      obtain ⟨later, full, A', touched, ok'⟩ := failed
      refine ⟨World.Later.lock w _ later, A', touched, .inr fun roomy => ?_, ok'.withHeld _⟩
      exact full ⟨roomy.freeMap, roomy.free, roomy.works⟩

/-- `sfs_tryseek` lets the file grow to the position. -/
theorem sfsTryseek_spec {pos : Int} (room : blocksFor pos.toNat ≤ maxBlocks ∨ H .indexOutOfRange)
    (unlocked : .inode i ∈ w.held → H .deadlock) : (sfsTryseek i pos).wp H
      (fun _ w' => 0 ≤ pos ∧ w.Later w' ∧ ∃ A', (A' = A ∧ pos.toNat ≤ (A.info i).size ∨
        (A.info i).size < pos.toNat ∧ A.Resized i pos.toNat A') ∧ Ok strict inflight A' w')
      (fun _ w' => w.Later w' ∧ ∃ A', A.Touched i A' ∧ (A' = A ∨ (A.info i).size < pos.toNat ∧
        ¬ w.Room ((w.fs.dinode i).need (blocksFor pos.toNat))) ∧ Ok strict inflight A' w') w := by
  obtain ⟨sin, cache, -, -, info⟩ := ok.cached refs
  have size : (A.info i).size = sin.din.size := by
    rw [info]
    rfl
  unfold sfsTryseek
  by_cases refused : pos < 0 ∨ (maxFileSize : Int) ≤ pos
  · rw [if_pos refused]
    exact ⟨.refl w, A, .refl A i, .inl rfl, ok⟩
  rw [if_neg refused]
  simp only [wp_bind, wp_getSin cache, ← size]
  by_cases past : (A.info i).size < pos.toNat
  · rw [if_pos past]
    apply (sfsTruncfile_spec ok refs dense regular room (fun same => by omega) unlocked).mono
    · intro _ w' resized
      obtain ⟨low, later, A', done, ok'⟩ := resized
      exact ⟨low, later, A', .inr ⟨past, done⟩, ok'⟩
    · intro _ w' failed
      obtain ⟨later, A', touched, full, ok'⟩ := failed
      exact ⟨later, A', touched, full.imp_right fun roomless => ⟨past, roomless⟩, ok'⟩
  · rw [if_neg past]
    exact ⟨by omega, .refl w, A, .inl ⟨rfl, by omega⟩, ok⟩

end

end Procore.Sfs
