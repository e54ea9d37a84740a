import Procore.Sfs.MapSpec

/-! # Room on the volume

While nothing fails, the only thing that stops an allocation is a full volume.
A file that grows by some blocks needs these, and one more when it gets its
indirect block on the way. The lemmas here say when a call does not return an
error, and leave it open whether it halts.
-/

namespace Procore.Sfs

open Procore.Lib
open Prog (wp_assert wp_attempt wp_bind wp_ite wp_pure)

/-- So many blocks are free, and nothing is going to fail. -/
structure World.Room (n : Nat) (w : World) : Prop where
  freeMap : FreeMap w.fs
  free : n ≤ w.fs.unused
  works : w.Works

/-- The blocks it takes to map position `k`. -/
def DiskInode.cost (d : DiskInode) (k : Nat) : Nat := if k < ndirect ∨ d.indirect ≠ 0 then 1 else 2

/-- The blocks it takes to map `count` positions from `k` on. -/
def DiskInode.growth (d : DiskInode) (k count : Nat) : Nat :=
  count + if d.indirect = 0 ∧ count ≠ 0 ∧ ndirect < k + count then 1 else 0

/-- The blocks it takes to let a file grow to `blocks` blocks. -/
def DiskInode.need (d : DiskInode) (blocks : Nat) : Nat := d.growth d.blocks (blocks - d.blocks)

/-- The program does not return an error. -/
def Returns {α : Type} (p : SfsM α) (Q : α → World → Prop) (w : World) : Prop :=
  p.wp (fun _ => True) Q (fun _ _ => False) w

theorem firstFree_none {free : Nat → Bool} {count start : Nat} (none : firstFree free count start = none)
    {b : Nat} (low : start ≤ b) (high : b < start + count) : free b = false := by
  induction count generalizing start with
  | zero => omega
  | succ count ih =>
    rw [firstFree] at none
    split at none
    · cases none
    rename_i used
    by_cases here : b = start
    · subst here
      exact Bool.eq_false_iff.mpr used
    · exact ih none (by omega) (by omega)

theorem FreeMap.bitmapAlloc_none {fs : Fs} (h : FreeMap fs) (none : fs.bitmapAlloc = none) :
    fs.unused = 0 := by
  rw [h.count, Finset.card_eq_zero, Finset.filter_eq_empty_iff]
  intro b mem free
  have inside := Finset.mem_range.mp mem
  have bits : fs.blocks ≤ fs.freemapBits := by
    unfold Fs.freemapBits blkbits
    omega
  rw [firstFree_none none (Nat.zero_le b) (by omega)] at free
  cases free

theorem FreeMap.bitmapAlloc_full {fs : Fs} (h : FreeMap fs) (full : fs.unused = 0) :
    fs.bitmapAlloc = none := by
  have clear (b : Nat) : fs.free b = false := by
    by_contra free
    have left := h.unused_pos (Bool.eq_true_of_not_eq_false free)
    omega
  have none (count start : Nat) : firstFree fs.free count start = none := by
    induction count generalizing start with
    | zero => rfl
    | succ count ih => rw [firstFree, clear, ih]; rfl
  exact none _ _

section Requests

variable {w : World}

theorem drawIo_works (works : w.Works) :
    Returns drawIo (fun ok w' => ok = true ∧ w'.fs = w.fs ∧ w'.Works) w := by
  apply drawIo_spec.mono_done
  intro ok w' drawn
  obtain ⟨fs, later, failed⟩ := drawn
  cases ok with
  | true => exact ⟨rfl, fs, later.works works⟩
  | false => exact absurd works (failed rfl).not_works

theorem readBlock_works (b : Nat) (works : w.Works) :
    Returns (readBlock b) (fun _ w' => w'.fs = w.fs ∧ w'.Works) w := by
  simp only [Returns, readBlock, checkBlkno, wp_bind, wp_assert]
  refine ⟨fun _ => ?_, fun _ => trivial⟩
  apply (drawIo_works works).mono_done
  intro ok w' drawn
  obtain ⟨rfl, after⟩ := drawn
  exact after

theorem writeBlock_works (b : Nat) (block : Block) (works : w.Works) :
    Returns (writeBlock b block) (fun _ w' => w'.fs = w.fs.setBlock b block ∧ w'.Works) w := by
  simp only [Returns, writeBlock, checkBlkno, wp_bind, wp_assert]
  refine ⟨fun _ => ?_, fun _ => trivial⟩
  apply (drawIo_works works).mono_done
  intro ok w' drawn
  obtain ⟨rfl, fs, works'⟩ := drawn
  exact ⟨congrArg (fun fs => Fs.setBlock fs b block) fs, works'⟩

theorem sfsRbuf_works (len b offset : Nat) (works : w.Works) :
    Returns (sfsRbuf len b offset) (fun _ w' => w'.fs = w.fs ∧ w'.Works) w := by
  simp only [Returns, sfsRbuf, wp_bind, wp_assert]
  exact ⟨fun _ => readBlock_works b works, fun _ => trivial⟩

theorem sfsWbuf_works (bytes : List UInt8) (b offset : Nat) (works : w.Works) :
    Returns (sfsWbuf bytes b offset)
      (fun _ w' => (∃ block, w'.fs = w.fs.setBlock b block) ∧ w'.Works) w := by
  simp only [Returns, sfsWbuf, wp_bind, wp_assert]
  refine ⟨fun _ => ?_, fun _ => trivial⟩
  apply (readBlock_works b works).mono_done
  intro block w₁ read
  obtain ⟨same, works₁⟩ := read
  apply (writeBlock_works b _ works₁).mono_done
  intro _ w₂ written
  rw [same] at written
  exact ⟨⟨_, written.1⟩, written.2⟩

theorem sfsClearBlock_works (b : Nat) (works : w.Works) :
    Returns (sfsClearBlock b) (fun _ w' => w'.fs = w.fs.setBlock b zeroBlock ∧ w'.Works) w := by
  simp only [Returns, sfsClearBlock, checkBlkno, wp_bind, wp_assert]
  refine ⟨fun _ => ?_, fun _ => trivial⟩
  apply drawClear_spec.mono_done
  intro ok w' drawn
  obtain ⟨fs, later, failed⟩ := drawn
  cases ok with
  | true => exact ⟨congrArg (fun fs => Fs.setBlock fs b zeroBlock) fs, later.works works⟩
  | false =>
    have fewer := failed rfl
    have none := works.2
    omega

theorem assertInuse_returns (b : Nat) : Returns (assertInuse b) (fun _ w' => w' = w) w := by
  simp only [Returns, assertInuse, sfsBlockInuse, wp_bind, wp_getFs, wp_ite, wp_pure, wp_assert]
  exact ⟨fun _ => ⟨fun _ => trivial, fun _ => trivial⟩, fun _ => trivial⟩

end Requests

section Growth

variable {w : World} {n i k : Nat} {sin : SfsInode}

theorem World.Room.setBlock {w' : World} {b : Nat} {block : Block} (h : w.Room n)
    (fs : w'.fs = w.fs.setBlock b block) (works : w'.Works) : w'.Room n := by
  refine ⟨?_, ?_, works⟩
  · rw [fs]
    exact h.freeMap.congr rfl rfl rfl
  · rw [fs]
    exact h.free

theorem World.Room.sameFs {w' : World} (h : w.Room n) (same : w'.fs = w.fs) (works : w'.Works) :
    w'.Room n :=
  ⟨by rw [same]; exact h.freeMap, by rw [same]; exact h.free, works⟩

theorem World.Room.setSin (h : w.Room n) (i : Nat) (sin : Option SfsInode) :
    World.Room n { w with fs := w.fs.setSin i sin } :=
  ⟨h.freeMap.congr rfl rfl rfl, h.free, h.works⟩

theorem World.Room.less {m : Nat} (h : w.Room n) (le : m ≤ n) : w.Room m :=
  ⟨h.freeMap, le_trans le h.free, h.works⟩

theorem sfsBlockAlloc_room (room : w.Room (n + 1)) :
    Returns sfsBlockAlloc (fun b w' => b ≠ 0 ∧ w'.Room n ∧ w'.fs.icache = w.fs.icache) w := by
  simp only [Returns, sfsBlockAlloc, wp_bind, wp_getFs]
  cases found : w.fs.bitmapAlloc with
  | none =>
    have full := room.freeMap.bitmapAlloc_none found
    have free := room.free
    omega
  | some b =>
    have free : w.fs.free b = true := firstFree_some found
    simp only [wp_bind, wp_assert]
    refine ⟨fun _ => ?_, fun _ => trivial⟩
    let mid : World := { w with fs := w.fs.take b }
    have left : n ≤ mid.fs.unused := by
      have := room.free
      change n ≤ w.fs.unused - 1
      omega
    have room₁ : mid.Room n := ⟨room.freeMap.take free, left, room.works⟩
    apply (assertInuse_returns b).mono_done
    intro _ w₁ same
    subst same
    apply (sfsClearBlock_works b room₁.works).mono_done
    intro _ w₂ cleared
    obtain ⟨fs₂, works₂⟩ := cleared
    refine ⟨(room.freeMap.bits b free).1, room₁.setBlock fs₂ works₂, ?_⟩
    rw [fs₂]
    rfl

theorem bmapAllocSub_room {own ent index : Nat} (room : w.Room (n + 1)) :
    Returns (bmapAllocSub own ent index)
      (fun found w' => found.1 = ent ∧ w'.Room n ∧ w'.fs.icache = w.fs.icache) w := by
  simp only [Returns, bmapAllocSub, wp_bind, wp_attempt]
  apply (sfsBlockAlloc_room room).mono
  · intro b w₁ alloc
    obtain ⟨-, room₁, cache₁⟩ := alloc
    apply (sfsWbuf_works _ ent _ room₁.works).mono
    · intro _ w₂ written
      obtain ⟨⟨block, fs₂⟩, works₂⟩ := written
      refine ⟨rfl, room₁.setBlock fs₂ works₂, ?_⟩
      rw [fs₂]
      exact cache₁
    · exact fun _ _ h => h.elim
  · exact fun _ _ h => h.elim

theorem sfsBmapGetSubNolock_room {own index : Nat} (create : Bool)
    (room : w.Room (n + if create = false then 0 else if own = 0 then 2 else 1)) :
    Returns (sfsBmapGetSubNolock own index create)
      (fun found w' => (create = true → found.1 ≠ 0) ∧ w'.Room n ∧ w'.fs.icache = w.fs.icache) w := by
  simp only [Returns, sfsBmapGetSubNolock, wp_bind, wp_assert]
  refine ⟨fun _ => ?_, fun _ => trivial⟩
  by_cases zero : own = 0
  · subst zero
    cases create with
    | false => exact ⟨fun h => (by cases h), room.less (by omega), rfl⟩
    | true =>
      simp only [ne_eq, not_true_eq_false, if_false, Bool.true_eq_false, wp_bind]
      apply (sfsBlockAlloc_room (n := n + 1) (room.less (by simp))).mono_done
      intro ent w₁ alloc
      obtain ⟨real, room₁, cache₁⟩ := alloc
      apply (bmapAllocSub_room room₁).mono_done
      intro found w₂ entered
      obtain ⟨rfl, room₂, cache₂⟩ := entered
      exact ⟨fun _ => real, room₂, cache₂.trans cache₁⟩
  · simp only [ne_eq, zero, not_false_eq_true, if_true, readIndex, wp_bind]
    apply (sfsRbuf_works 4 own _ room.works).mono_done
    intro bytes w₁ read
    obtain ⟨same, works₁⟩ := read
    have room₁ := room.sameFs same works₁
    rw [wp_pure]
    split_ifs with creating
    · exact ⟨fun _ => zero, room₁.less (by omega), by rw [same]⟩
    cases create with
    | false => exact absurd (.inr rfl) creating
    | true =>
      apply (bmapAllocSub_room (n := n) (room₁.less (by simp [zero]))).mono_done
      intro found w₂ entered
      obtain ⟨ent, room₂, cache₂⟩ := entered
      refine ⟨fun _ => by rw [ent]; exact zero, room₂, ?_⟩
      rw [cache₂, same]

theorem assertMapped_returns (b : Nat) : Returns (assertMapped b) (fun _ w' => w' = w) w := by
  unfold assertMapped
  split
  · rfl
  · exact assertInuse_returns b

/-- The inode in memory after a position was mapped: it has an indirect block if the
    position is behind one. -/
def DiskInode.MapsAt (d : DiskInode) (k : Nat) (d' : DiskInode) : Prop :=
  d'.blocks = d.blocks ∧ if k < ndirect then d'.indirect = d.indirect else d'.indirect ≠ 0

section

variable (cache : w.fs.icache i = some sin)
include cache

theorem sfsBmapGetNolock_room (room : w.Room (n + sin.din.cost k)) :
    Returns (sfsBmapGetNolock i k true) (fun _ w' => w'.Room n ∧
      ∃ sin', w'.fs.icache i = some sin' ∧ sin.din.MapsAt k sin'.din) w := by
  simp only [Returns, sfsBmapGetNolock, wp_bind, wp_getSin cache]
  by_cases direct : k < ndirect
  · rw [dif_pos direct]
    have one : sin.din.cost k = 1 := if_pos (.inl direct)
    rw [one] at room
    split
    · rw [wp_bind]
      apply (sfsBlockAlloc_room room).mono_done
      intro b w₁ alloc
      obtain ⟨-, room₁, cache₁⟩ := alloc
      rw [wp_bind, setDirect, wp_modifySin (by rw [cache₁]; exact cache), wp_bind]
      apply (assertMapped_returns b).mono_done
      intro _ w₂ same
      subst same
      refine ⟨room₁.setSin _ _, _, Function.update_self i _ _, rfl, ?_⟩
      rw [if_pos direct]
    · rw [wp_bind]
      apply (assertMapped_returns _).mono_done
      intro _ w₂ same
      subst same
      exact ⟨room.less (by omega), sin, cache, rfl, by rw [if_pos direct]⟩
  · rw [dif_neg direct]
    split
    · rw [wp_bind]
      have cost : sin.din.cost k =
          if true = false then 0 else if sin.din.indirect = 0 then 2 else 1 := by
        by_cases zero : sin.din.indirect = 0 <;> simp [DiskInode.cost, direct]
      rw [cost] at room
      apply (sfsBmapGetSubNolock_room _ room).mono_done
      intro found w₁ got
      obtain ⟨real, room₁, cache₁⟩ := got
      have held : w₁.fs.icache i = some sin := by rw [cache₁]; exact cache
      split_ifs with own
      · rw [wp_bind, wp_assert]
        refine ⟨fun _ => ?_, fun _ => trivial⟩
        rw [wp_bind, setIndirect, wp_modifySin held, wp_bind]
        apply (assertMapped_returns _).mono_done
        intro _ w₂ same
        subst same
        refine ⟨room₁.setSin _ _, _, Function.update_self i _ _, rfl, ?_⟩
        rw [if_neg direct]
        exact real rfl
      · rw [wp_bind]
        apply (assertMapped_returns _).mono_done
        intro _ w₂ same
        subst same
        refine ⟨room₁, sin, held, rfl, ?_⟩
        rw [if_neg direct, ← not_not.mp own]
        exact real rfl
    · trivial

/-- Append a block. -/
theorem sfsBmapLoadNolock_room (last : k = sin.din.blocks) (room : w.Room (n + sin.din.cost k)) :
    Returns (sfsBmapLoadNolock i k) (fun _ w' => w'.Room n ∧ ∃ sin', w'.fs.icache i = some sin' ∧
      sin'.din.blocks = (k + 1) % 2 ^ 32 ∧
      if k < ndirect then sin'.din.indirect = sin.din.indirect else sin'.din.indirect ≠ 0) w := by
  simp only [Returns, sfsBmapLoadNolock, wp_bind, wp_getSin cache, wp_assert]
  refine ⟨fun _ => ?_, fun _ => trivial⟩
  simp only [last, decide_true, if_true, wp_bind]
  rw [← last]
  apply (sfsBmapGetNolock_room cache room).mono_done
  intro b w₁ got
  obtain ⟨room₁, sin₁, cache₁, blocks, index⟩ := got
  apply (assertInuse_returns b).mono_done
  intro _ w₂ same
  subst same
  rw [wp_modifySin cache₁]
  refine ⟨room₁.setSin _ _, _, Function.update_self i _ _, ?_, index⟩
  rw [blocks, last]

theorem sfsBmapLoadNolock_works (inside : k ≠ sin.din.blocks)
    (room : w.Room n) : Returns (sfsBmapLoadNolock i k) (fun _ w' => w'.Works) w := by
  simp only [Returns, sfsBmapLoadNolock, wp_bind, wp_getSin cache, wp_assert]
  refine ⟨fun _ => ?_, fun _ => trivial⟩
  have finish (b : Nat) (w₁ : World) (works : w₁.Works) : Returns (assertInuse b)
      (fun _ w' => w'.Works) w₁ := by
    apply (assertInuse_returns b).mono_done
    intro _ w₂ same
    rwa [same]
  simp only [inside, decide_false, Bool.false_eq_true, if_false, sfsBmapGetNolock, wp_bind,
    wp_getSin cache, and_false]
  split
  · rw [wp_bind]
    apply (assertMapped_returns _).mono_done
    intro _ w₁ same
    subst same
    exact finish _ _ room.works
  · split
    · rw [wp_bind]
      apply (sfsBmapGetSubNolock_room false room).mono_done
      intro found w₁ got
      obtain ⟨-, room₁, cache₁⟩ := got
      have held : w₁.fs.icache i = some sin := by rw [cache₁]; exact cache
      split
      · rw [wp_bind, wp_assert]
        refine ⟨fun _ => ?_, fun _ => trivial⟩
        rw [wp_bind, setIndirect, wp_modifySin held, wp_bind]
        apply (assertMapped_returns _).mono_done
        intro _ w₂ same
        subst same
        exact finish _ _ room₁.works
      · rw [wp_bind]
        apply (assertMapped_returns _).mono_done
        intro _ w₂ same
        subst same
        exact finish _ _ room₁.works
    · trivial

/-- With room for them, all blocks are appended. -/
theorem growLoop_room {count : Nat} (last : k = sin.din.blocks)
    (width : k + count < 2 ^ 32) (room : w.Room (sin.din.growth k count)) :
    Returns (growLoop i count k) (fun _ _ => True) w := by
  induction count generalizing k w sin with
  | zero => trivial
  | succ count ih =>
    unfold Returns
    rw [growLoop, wp_bind]
    -- What is left after this block is enough for the others.
    have split (d : DiskInode)
        (index : if k < ndirect then d.indirect = sin.din.indirect else d.indirect ≠ 0) :
        d.growth (k + 1) count + sin.din.cost k ≤ sin.din.growth k (count + 1) := by
      unfold DiskInode.growth DiskInode.cost
      by_cases direct : k < ndirect
      · rw [if_pos direct] at index
        rw [index, if_pos (Or.inl direct)]
        by_cases more : sin.din.indirect = 0 ∧ count ≠ 0 ∧ ndirect < k + 1 + count
        · rw [if_pos more, if_pos ⟨more.1, by omega, by omega⟩]
        · rw [if_neg more]
          omega
      · rw [if_neg direct] at index
        rw [if_neg (fun all => index all.1)]
        by_cases zero : sin.din.indirect = 0
        · rw [if_neg (not_or.mpr ⟨direct, not_not.mpr zero⟩), if_pos ⟨zero, by omega, by omega⟩]
        · rw [if_pos (.inr zero)]
          omega
    have atLeast : sin.din.growth k (count + 1) - sin.din.cost k + sin.din.cost k ≤
        sin.din.growth k (count + 1) := by
      by_cases direct : k < ndirect
      · have := split sin.din (by rw [if_pos direct])
        omega
      · have := split { sin.din with indirect := 1 } (by rw [if_neg direct]; exact Nat.one_ne_zero)
        omega
    apply (sfsBmapLoadNolock_room cache last (room.less atLeast)).mono_done
    intro _ w₁ loaded
    obtain ⟨room₁, sin₁, cache₁, blocks₁, index⟩ := loaded
    have enough := split sin₁.din index
    exact ih cache₁ (by omega) (by omega) (room₁.less (by omega))

/-- With room for its block, the first chunk is transferred. -/
theorem ioChunk_room {chunk : Chunk} {buf : Option (List UInt8)}
    (room : w.Room (if k = sin.din.blocks then sin.din.cost k else 0)) :
    Returns (ioChunk i k chunk buf) (fun _ _ => True) w := by
  have load : Returns (sfsBmapLoadNolock i k) (fun _ w' => w'.Works) w := by
    by_cases last : k = sin.din.blocks
    · rw [if_pos last] at room
      apply (sfsBmapLoadNolock_room cache last (by rwa [Nat.zero_add])).mono
      · exact fun _ _ h => h.1.works
      · exact fun _ _ h => h
    · exact sfsBmapLoadNolock_works cache last room
  cases buf with
  | none =>
    simp only [Returns, ioChunk, wp_bind]
    apply load.mono_done
    intro b w₁ works
    unfold readChunk
    split
    · exact (readBlock_works b works).bind (fun _ _ _ => trivial) (fun _ _ h => h)
    · exact (sfsRbuf_works _ b _ works).mono (fun _ _ _ => trivial) (fun _ _ h => h)
  | some bytes =>
    simp only [Returns, ioChunk, wp_bind]
    apply load.mono_done
    intro b w₁ works
    unfold writeChunk
    split
    · exact (writeBlock_works b _ works).mono (fun _ _ _ => trivial) (fun _ _ h => h)
    · exact (sfsWbuf_works _ b _ works).mono (fun _ _ _ => trivial) (fun _ _ h => h)

end

theorem ioLoop_alen (i : Nat) (chunks : List Chunk) (k : Nat) (buf : Option (List UInt8))
    (before : Transfer) (w : World) :
    Returns (ioLoop i chunks k buf before) (fun done _ => before.alen ≤ done.alen) w := by
  induction chunks generalizing k buf before w with
  | nil => exact le_refl _
  | cons chunk chunks ih =>
    simp only [Returns, ioLoop, wp_bind, wp_attempt]
    have any : (ioChunk i k chunk buf).wp (fun _ => True) (fun _ _ => True) (fun _ _ => True) w := by
      unfold Prog.wp
      split <;> trivial
    apply any.mono
    · intro data w₁ _
      apply (ih _ _ _ _).mono_done
      intro done w₂ longer
      exact le_trans (Nat.le_add_right _ _) longer
    · exact fun _ _ _ => le_refl _

theorem ioLoop_room {chunk : Chunk} {chunks : List Chunk} {buf : Option (List UInt8)}
    {before : Transfer} (cache : w.fs.icache i = some sin)
    (room : w.Room (if k = sin.din.blocks then sin.din.cost k else 0)) :
    Returns (ioLoop i (chunk :: chunks) k buf before)
      (fun done _ => before.alen + chunk.length ≤ done.alen) w := by
  simp only [Returns, ioLoop, wp_bind, wp_attempt]
  apply (ioChunk_room cache room).mono
  · intro data w₁ _
    exact ioLoop_alen i chunks _ _ _ w₁
  · exact fun _ _ h => h.elim

end Growth

end Procore.Sfs
