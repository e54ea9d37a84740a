import Mathlib.Data.Finset.Card
import Procore.Sfs.BlockMap

/-! # What a mounted volume stands for

The abstract volume knows the live inodes, what each of them says about itself
and the block at each of its logical positions; where these blocks lie is left
to the mounted volume below. `Rep` connects the two. It says that the free map
counts right, that a block has at most one owner and every owned block is in
use, and that the inodes in memory or on disk agree with the abstract ones.
-/

namespace Procore.Sfs

open Procore.Lib Finset Procore.Sfs.Fs
open Function

/-- What an inode says about itself. For an inode that is not going to be written back
    `stored` is the number of blocks in its disk copy. -/
structure Info where
  type : FileType
  nlinks : Nat
  size : Nat
  blocks : Nat
  stored : Option Nat

structure AFs where
  live : Finset Nat
  info : Nat → Info
  /-- The reference counts of the inodes in memory. -/
  refs : Nat → Option InodeRefs
  content : Nat → Nat → Option Block

namespace AFs

def setInfo (A : AFs) (i : Nat) (info : Info) : AFs :=
  { A with info := update A.info i info }

def setRefs (A : AFs) (i : Nat) (refs : Option InodeRefs) : AFs :=
  { A with refs := update A.refs i refs }

def setContent (A : AFs) (i k : Nat) (block : Option Block) : AFs :=
  { A with content := update A.content i (update (A.content i) k block) }

variable (A : AFs) (i j k : Nat) (x : Info) (refs : Option InodeRefs) (block : Option Block)

@[simp] theorem live_setInfo : (A.setInfo i x).live = A.live := rfl
@[simp] theorem refs_setInfo : (A.setInfo i x).refs = A.refs := rfl
@[simp] theorem content_setInfo : (A.setInfo i x).content = A.content := rfl
@[simp] theorem live_setRefs : (A.setRefs i refs).live = A.live := rfl
@[simp] theorem info_setRefs : (A.setRefs i refs).info = A.info := rfl
@[simp] theorem content_setRefs : (A.setRefs i refs).content = A.content := rfl
@[simp] theorem live_setContent : (A.setContent i k block).live = A.live := rfl
@[simp] theorem info_setContent : (A.setContent i k block).info = A.info := rfl
@[simp] theorem refs_setContent : (A.setContent i k block).refs = A.refs := rfl

@[simp] theorem info_setInfo : (A.setInfo i x).info j = if j = i then x else A.info j :=
  update_apply _ _ _ _

@[simp] theorem refs_setRefs : (A.setRefs i refs).refs j = if j = i then refs else A.refs j :=
  update_apply _ _ _ _

@[simp] theorem content_setContent (A : AFs) (i k j l : Nat) (block : Option Block) :
    (A.setContent i k block).content j l = if j = i ∧ l = k then block else A.content j l := by
  by_cases node : j = i
  · subst node
    by_cases pos : l = k
    · subst pos
      simp [setContent]
    · simp [setContent, pos]
  · simp [setContent, node]

end AFs

def Fs.diskInode (fs : Fs) (i : Nat) : DiskInode := .decode (slice (fs.disk i) 0 inodeSize)

/-- The copy of an inode that counts: the one in memory, if there is one. -/
def Fs.dinode (fs : Fs) (i : Nat) : DiskInode :=
  match fs.icache i with
  | some sin => sin.din
  | none => fs.diskInode i

def Fs.stored (fs : Fs) (i : Nat) : Option Nat :=
  match fs.icache i with
  | some sin => if sin.dirty then none else some (fs.diskInode i).blocks
  | none => some (fs.diskInode i).blocks

def indexEntry (block : Block) (index : Nat) : Nat := ofLe (slice block (index * 4) 4)

/-- The block number at a logical position of a file; zero if there is none. -/
def Fs.ptr (fs : Fs) (i k : Nat) : Nat :=
  if direct : k < ndirect then (fs.dinode i).direct ⟨k, direct⟩
  else if k < maxBlocks ∧ (fs.dinode i).indirect ≠ 0 then
    indexEntry (fs.disk (fs.dinode i).indirect) (k - ndirect)
  else 0

def Fs.content (fs : Fs) (i k : Nat) : Option Block :=
  if fs.ptr i k = 0 then none else some (fs.disk (fs.ptr i k))

/-- What can own a block. -/
inductive Slot where
  /-- The super block or a block of the free map. -/
  | sys
  /-- The block an inode is stored in. -/
  | inode (i : Nat)
  | mapped (i k : Nat)
  | indirect (i : Nat)

/-- The super block and the blocks of the free map. -/
def Fs.isSys (fs : Fs) (b : Nat) : Prop :=
  b = 0 ∨ 2 ≤ b ∧ b < 2 + (fs.blocks + (blkbits - 1)) / blkbits

/-- `Owns inodes fs b slot`: the slot owns block `b`. -/
def Owns (inodes : Finset Nat) (fs : Fs) (b : Nat) : Slot → Prop
  | .sys => fs.isSys b
  | .inode i => i ∈ inodes ∧ i = b
  | .mapped i k => i ∈ inodes ∧ b ≠ 0 ∧ fs.ptr i k = b
  | .indirect i => i ∈ inodes ∧ b ≠ 0 ∧ (fs.dinode i).indirect = b

/-- The free map: a set bit is a free block, and `unused_blocks` counts them. -/
structure FreeMap (fs : Fs) : Prop where
  width : fs.blocks ≤ 2 ^ 32
  bits : ∀ b, fs.free b = true → b ≠ 0 ∧ b < fs.blocks
  count : fs.unused = ((range fs.blocks).filter fun b => fs.free b = true).card

/-- Ownership of blocks. The blocks of `inflight` are taken by the call that runs
    and not entered anywhere yet. -/
structure Owned (inodes inflight : Finset Nat) (fs : Fs) : Prop where
  used : ∀ b slot, Owns inodes fs b slot → b < fs.blocks ∧ fs.free b = false
  exclusive : ∀ b slot slot', Owns inodes fs b slot → Owns inodes fs b slot' → slot = slot'
  taken : ∀ b ∈ inflight, b ≠ 0 ∧ b < fs.blocks ∧ fs.free b = false
  unowned : ∀ b ∈ inflight, ∀ slot, ¬ Owns inodes fs b slot

def DiskInode.info (d : DiskInode) (stored : Option Nat) : Info :=
  ⟨d.type, d.nlinks, d.size, d.blocks, stored⟩

section Info

variable (d : DiskInode) (stored : Option Nat)

@[simp] theorem DiskInode.info_type : (d.info stored).type = d.type := rfl
@[simp] theorem DiskInode.info_nlinks : (d.info stored).nlinks = d.nlinks := rfl
@[simp] theorem DiskInode.info_size : (d.info stored).size = d.size := rfl
@[simp] theorem DiskInode.info_blocks : (d.info stored).blocks = d.blocks := rfl
@[simp] theorem DiskInode.info_stored : (d.info stored).stored = stored := rfl

end Info

/-- One live inode agrees with its abstract counterpart. -/
structure NodeRep (A : AFs) (fs : Fs) (i : Nat) : Prop where
  info : (fs.dinode i).info (fs.stored i) = A.info i
  fits : (fs.dinode i).Fits
  content : ∀ k, fs.content i k = A.content i k
  refs : (fs.icache i).map SfsInode.refs = A.refs i
  /-- A clean inode differs from its disk copy at most in the number of blocks. -/
  clean : ∀ sin, fs.icache i = some sin → sin.dirty = false →
    fs.diskInode i = { sin.din with blocks := (fs.diskInode i).blocks }
  bounded : (A.info i).blocks ≤ maxBlocks
  stored : ∀ n, (A.info i).stored = some n → n ≤ (A.info i).blocks

/-- The mounted volume `fs` stands for `A`. Under `strict` every block in use has an
    owner. -/
structure Rep (strict : Prop) (inflight : Finset Nat) (A : AFs) (fs : Fs) : Prop where
  freeMap : FreeMap fs
  owned : Owned A.live inflight fs
  node : ∀ i ∈ A.live, NodeRep A fs i
  cached : ∀ i, i ∉ A.live → fs.icache i = none ∧ A.refs i = none
  cover : strict → ∀ b < fs.blocks, fs.free b = false →
    b ∈ inflight ∨ ∃ slot, Owns A.live fs b slot

section Frames

variable {fs fs' : Fs} {i k b : Nat} {block : Block}

/-- The two volumes do not differ in anything that inode `i` reaches. -/
structure Fs.Agree (fs fs' : Fs) (i : Nat) : Prop where
  cache : fs'.icache i = fs.icache i
  inode : fs'.disk i = fs.disk i
  index : fs'.disk (fs.dinode i).indirect = fs.disk (fs.dinode i).indirect
  data : ∀ k, fs.ptr i k ≠ 0 → fs'.disk (fs.ptr i k) = fs.disk (fs.ptr i k)

theorem dinode_congr (cache : fs'.icache i = fs.icache i) (inode : fs'.disk i = fs.disk i) :
    fs'.dinode i = fs.dinode i := by
  simp [dinode, diskInode, cache, inode]

theorem ptr_congr (same : fs'.dinode i = fs.dinode i)
    (index : fs'.disk (fs.dinode i).indirect = fs.disk (fs.dinode i).indirect) :
    fs'.ptr i k = fs.ptr i k := by
  simp [ptr, same, index]

theorem Fs.Agree.dinode_eq (h : fs.Agree fs' i) : fs'.dinode i = fs.dinode i :=
  dinode_congr h.cache h.inode

theorem Fs.Agree.ptr_eq (h : fs.Agree fs' i) (k : Nat) : fs'.ptr i k = fs.ptr i k :=
  ptr_congr h.dinode_eq h.index

theorem Fs.Agree.content_eq (h : fs.Agree fs' i) (k : Nat) : fs'.content i k = fs.content i k := by
  simp only [content, h.ptr_eq k]
  split_ifs with nonzero
  · rfl
  · rw [h.data k nonzero]

/-- Only the blocks that the inode maps have changed. -/
theorem NodeRep.transfer {A A' : AFs} (h : NodeRep A fs i) (cache : fs'.icache i = fs.icache i)
    (inode : fs'.disk i = fs.disk i) (info : A'.info i = A.info i) (refs : A'.refs i = A.refs i)
    (content : ∀ k, fs'.content i k = A'.content i k) : NodeRep A' fs' i := by
  have same : fs'.dinode i = fs.dinode i := dinode_congr cache inode
  have diskInode : fs'.diskInode i = fs.diskInode i := by simp [diskInode, inode]
  have stored : fs'.stored i = fs.stored i := by simp [Fs.stored, diskInode, cache]
  constructor
  · rw [same, stored, info, h.info]
  · rw [same]
    exact h.fits
  · exact content
  · rw [cache, refs, h.refs]
  · intro sin
    rw [cache, diskInode]
    exact h.clean sin
  · rw [info]
    exact h.bounded
  · rw [info]
    exact h.stored

theorem NodeRep.agree {A A' : AFs} (h : NodeRep A fs i) (same : fs.Agree fs' i)
    (info : A'.info i = A.info i) (refs : A'.refs i = A.refs i)
    (content : A'.content i = A.content i) : NodeRep A' fs' i := by
  apply h.transfer same.cache same.inode info refs
  intro k
  rw [same.content_eq, content, h.content]

theorem Fs.Agree.of_eq (cache : fs'.icache i = fs.icache i) (disk : fs'.disk = fs.disk) :
    fs.Agree fs' i where
  cache := cache
  inode := by rw [disk]
  index := by rw [disk]
  data _ _ := by rw [disk]

theorem Fs.Agree.setBlock (own : i ≠ b) (index : (fs.dinode i).indirect ≠ b)
    (data : ∀ k, fs.ptr i k ≠ b) : fs.Agree (fs.setBlock b block) i where
  cache := rfl
  inode := update_of_ne own _ _
  index := update_of_ne index _ _
  data k _ := update_of_ne (data k) _ _

theorem owns_congr {inodes : Finset Nat} {slot : Slot} (blocks : fs'.blocks = fs.blocks)
    (index : ∀ i ∈ inodes, (fs'.dinode i).indirect = (fs.dinode i).indirect)
    (ptr : ∀ i ∈ inodes, ∀ k, fs'.ptr i k = fs.ptr i k) :
    Owns inodes fs' b slot ↔ Owns inodes fs b slot := by
  cases slot with
  | sys => simp only [Owns, isSys, blocks]
  | inode i => rfl
  | mapped i k =>
    constructor <;> rintro ⟨mem, rest⟩
    · exact ⟨mem, by rwa [ptr i mem] at rest⟩
    · exact ⟨mem, by rwa [ptr i mem]⟩
  | indirect i =>
    constructor <;> rintro ⟨mem, rest⟩
    · exact ⟨mem, by rwa [index i mem] at rest⟩
    · exact ⟨mem, by rwa [index i mem]⟩

end Frames

section Ownership

variable {strict : Prop} {inodes inflight inflight' : Finset Nat} {A A' : AFs} {fs fs' : Fs}
  {i j k l b : Nat} {block : Block}

/-- Blocks that hold neither an inode nor pointers. -/
def Leaf (inodes : Finset Nat) (fs : Fs) (b : Nat) : Prop :=
  ∀ i ∈ inodes, i ≠ b ∧ (fs.dinode i).indirect ≠ b

section

variable (h : Owned inodes inflight fs)
include h

theorem Owned.ne_zero (mem : i ∈ inodes) : i ≠ 0 := by
  rintro rfl
  have sys : Owns inodes fs 0 .sys := .inl rfl
  have own : Owns inodes fs 0 (.inode 0) := ⟨mem, rfl⟩
  cases h.exclusive 0 _ _ sys own

theorem Owned.leaf_mapped (mem : i ∈ inodes)
    (nonzero : fs.ptr i k ≠ 0) : Leaf inodes fs (fs.ptr i k) := by
  have own : Owns inodes fs (fs.ptr i k) (.mapped i k) := ⟨mem, nonzero, rfl⟩
  intro j live
  constructor
  · intro same
    cases h.exclusive _ _ _ own (show Owns inodes fs _ (.inode j) from ⟨live, same⟩)
  · intro same
    cases h.exclusive _ _ _ own (show Owns inodes fs _ (.indirect j) from ⟨live, nonzero, same⟩)

theorem Owned.leaf_inflight (mem : b ∈ inflight) : Leaf inodes fs b := by
  intro j live
  constructor
  · intro same
    exact h.unowned b mem (.inode j) ⟨live, same⟩
  · intro same
    exact h.unowned b mem (.indirect j) ⟨live, (h.taken b mem).1, same⟩

theorem Owned.ptr_ne_inflight (mem : b ∈ inflight) (live : i ∈ inodes) : fs.ptr i k ≠ b := by
  intro same
  exact h.unowned b mem (.mapped i k) ⟨live, (h.taken b mem).1, same⟩

theorem Owned.ptr_inj (mem : i ∈ inodes) (mem' : j ∈ inodes)
    (nonzero : fs.ptr i k ≠ 0) (same : fs.ptr j l = fs.ptr i k) : j = i ∧ l = k := by
  have own : Owns inodes fs (fs.ptr i k) (.mapped i k) := ⟨mem, nonzero, rfl⟩
  have own' : Owns inodes fs (fs.ptr i k) (.mapped j l) := ⟨mem', nonzero, same⟩
  cases h.exclusive _ _ _ own own'
  exact ⟨rfl, rfl⟩

theorem Owned.mapped_used (mem : i ∈ inodes)
    (nonzero : fs.ptr i k ≠ 0) : fs.ptr i k < fs.blocks ∧ fs.free (fs.ptr i k) = false :=
  h.used _ (.mapped i k) ⟨mem, nonzero, rfl⟩

theorem Owned.indirect_used (mem : i ∈ inodes) (nonzero : (fs.dinode i).indirect ≠ 0) :
    (fs.dinode i).indirect < fs.blocks ∧ fs.free (fs.dinode i).indirect = false :=
  h.used _ (.indirect i) ⟨mem, nonzero, rfl⟩

theorem Owned.inode_used (mem : i ∈ inodes) : i < fs.blocks ∧ fs.free i = false :=
  h.used _ (.inode i) ⟨mem, rfl⟩

end

theorem FreeMap.congr (h : FreeMap fs) (blocks : fs'.blocks = fs.blocks) (free : fs'.free = fs.free)
    (unused : fs'.unused = fs.unused) : FreeMap fs' where
  width := by
    rw [blocks]
    exact h.width
  bits b := by
    rw [blocks, free]
    exact h.bits b
  count := by rw [blocks, free, unused, h.count]

/-- What a block is used for. -/
inductive Use where
  | free
  | inflight
  | slot (slot : Slot)

def Uses (inodes inflight : Finset Nat) (fs : Fs) (b : Nat) : Use → Prop
  | .free => fs.free b = true
  | .inflight => b ∈ inflight
  | .slot s => Owns inodes fs b s

section

variable (h : Rep strict inflight A fs)
include h

theorem Rep.uses_lt {u : Use} (use : Uses A.live inflight fs b u) : b < fs.blocks := by
  cases u with
  | free => exact (h.freeMap.bits b use).2
  | inflight => exact (h.owned.taken b use).2.1
  | slot s => exact (h.owned.used b s use).1

theorem Rep.uses_unique {u v : Use} (use : Uses A.live inflight fs b u)
    (use' : Uses A.live inflight fs b v) : u = v := by
  have taken (mem : b ∈ inflight) := (h.owned.taken b mem).2.2
  have unowned := h.owned.unowned b
  have used (slot : Slot) (own : Owns A.live fs b slot) := (h.owned.used b slot own).2
  cases u <;> cases v <;> simp only [Uses] at use use' <;> grind [h.owned.exclusive]

/-- Every use of a block comes from the one it had before. -/
theorem Rep.reuse (f : Nat → Use → Use) (freeMap : FreeMap fs') (blocks : fs'.blocks = fs.blocks)
    (back : ∀ b u, Uses A'.live inflight' fs' b u → ∃ v, Uses A.live inflight fs b v ∧ f b v = u)
    (kept : strict → ∀ b u, Uses A.live inflight fs b u → Uses A'.live inflight' fs' b (f b u))
    (node : ∀ i ∈ A'.live, NodeRep A' fs' i)
    (cached : ∀ i, i ∉ A'.live → fs'.icache i = none ∧ A'.refs i = none) : Rep strict inflight' A' fs' := by
  have unique {b : Nat} (u v : Use) (use : Uses A'.live inflight' fs' b u)
      (use' : Uses A'.live inflight' fs' b v) : u = v := by
    obtain ⟨u, old, rfl⟩ := back b u use
    obtain ⟨v, old', rfl⟩ := back b v use'
    rw [h.uses_unique old old']
  have lt {b : Nat} (u : Use) (use : Uses A'.live inflight' fs' b u) : b < fs'.blocks := by
    obtain ⟨v, old, -⟩ := back b u use
    exact blocks ▸ h.uses_lt old
  have used {b : Nat} (u : Use) (use : Uses A'.live inflight' fs' b u) (other : u ≠ .free) : fs'.free b = false := by
    by_contra free
    exact other (unique u .free use (by simpa [Uses] using free))
  refine ⟨freeMap, ⟨fun b slot own => ⟨lt (.slot slot) own, used (.slot slot) own (by simp)⟩, ?_, ?_, ?_⟩,
    node, cached, fun holds b bound taken => ?_⟩
  · intro b slot slot' own own'
    exact Use.slot.inj (unique (.slot slot) (.slot slot') own own')
  · refine fun b mem => ⟨?_, lt .inflight mem, used .inflight mem (by simp)⟩
    rintro rfl
    cases unique .inflight (.slot .sys) mem (.inl rfl)
  · intro b mem slot own
    cases unique .inflight (.slot slot) mem own
  · have old : ∃ u, Uses A.live inflight fs b u := by
      by_cases free : fs.free b = true
      · exact ⟨.free, free⟩
      rcases h.cover holds b (blocks ▸ bound) (by simpa using free) with mem | ⟨slot, own⟩
      · exact ⟨.inflight, mem⟩
      · exact ⟨.slot slot, own⟩
    obtain ⟨u, use⟩ := old
    have now := kept holds b u use
    cases new : f b u with rw [new] at now
    | free => exact absurd now (by simp [Uses, taken])
    | inflight => exact .inl now
    | slot slot => exact .inr ⟨slot, now⟩

/-- One block is put to another use. -/
theorem Rep.reuseOne {u v : Use} (freeMap : FreeMap fs') (blocks : fs'.blocks = fs.blocks)
    (old : Uses A.live inflight fs b u) (new : ∀ w, Uses A'.live inflight' fs' b w ↔ w = v)
    (others : ∀ c ≠ b, ∀ w, Uses A'.live inflight' fs' c w ↔ Uses A.live inflight fs c w)
    (node : ∀ i ∈ A'.live, NodeRep A' fs' i)
    (cached : ∀ i, i ∉ A'.live → fs'.icache i = none ∧ A'.refs i = none) : Rep strict inflight' A' fs' := by
  refine h.reuse (fun c w => if c = b then v else w) freeMap blocks (fun c w use => ?_) (fun _ c w use => ?_)
    node cached
  · by_cases same : c = b
    · subst same
      exact ⟨u, old, (if_pos rfl).trans ((new w).mp use).symm⟩
    · exact ⟨w, (others c same w).mp use, if_neg same⟩
  · split_ifs with same
    · exact same ▸ (new v).mpr rfl
    · exact (others c same w).mpr use

/-- The pointers and the free map are the same, so only the inodes have to be looked at. -/
theorem Rep.rebuild (live : A'.live = A.live)
    (blocks : fs'.blocks = fs.blocks) (free : fs'.free = fs.free) (unused : fs'.unused = fs.unused)
    (index : ∀ i ∈ A.live, (fs'.dinode i).indirect = (fs.dinode i).indirect)
    (ptr : ∀ i ∈ A.live, ∀ k, fs'.ptr i k = fs.ptr i k) (node : ∀ i ∈ A.live, NodeRep A' fs' i)
    (cached : ∀ i, i ∉ A.live → fs'.icache i = none ∧ A'.refs i = none) :
    Rep strict inflight A' fs' := by
  have uses (b : Nat) (u : Use) : Uses A'.live inflight fs' b u ↔ Uses A.live inflight fs b u := by
    rw [live]
    cases u with
    | free => simp [Uses, free]
    | inflight => rfl
    | slot s => exact owns_congr blocks index ptr
  exact h.reuse (fun _ u => u) (h.freeMap.congr blocks free unused) blocks
    (fun b u use => ⟨u, (uses b u).mp use, rfl⟩) (fun _ b u use => (uses b u).mpr use) (live ▸ node) (live ▸ cached)

/-- A block that holds neither an inode nor pointers is rewritten. -/
theorem Rep.setLeaf (leaf : Leaf A.live fs b) (nonzero : b ≠ 0)
    (live : A'.live = A.live) (info : A'.info = A.info) (refs : A'.refs = A.refs)
    (content : ∀ i ∈ A.live, ∀ k,
      A'.content i k = if fs.ptr i k = b then some block else A.content i k) :
    Rep strict inflight A' (fs.setBlock b block) := by
  have inode (i) (mem : i ∈ A.live) : (fs.setBlock b block).disk i = fs.disk i :=
    update_of_ne (leaf i mem).1 _ _
  have same (i) (mem : i ∈ A.live) : (fs.setBlock b block).dinode i = fs.dinode i :=
    dinode_congr rfl (inode i mem)
  have ptr (i) (mem : i ∈ A.live) (k) : (fs.setBlock b block).ptr i k = fs.ptr i k :=
    ptr_congr (same i mem) (update_of_ne (leaf i mem).2 _ _)
  refine h.rebuild live rfl rfl rfl ?_ ptr ?_ ?_
  · intro i mem
    rw [same i mem]
  · intro i mem
    refine (h.node i mem).transfer rfl (inode i mem) (by rw [info]) (by rw [refs]) ?_
    intro k
    rw [content i mem k, ← (h.node i mem).content k]
    simp only [Fs.content, ptr i mem k]
    by_cases hit : fs.ptr i k = b
    · simp only [hit, nonzero, if_false, if_true, setBlock, update_self]
    · simp [hit, setBlock]
  · intro i mem
    rw [refs]
    exact h.cached i mem

/-- A mapped block is rewritten. -/
theorem Rep.writeMapped (mem : i ∈ A.live) (nonzero : fs.ptr i k ≠ 0) (block : Block) :
    Rep strict inflight (A.setContent i k (some block)) (fs.setBlock (fs.ptr i k) block) := by
  refine h.setLeaf (h.owned.leaf_mapped mem nonzero) nonzero rfl rfl rfl ?_
  intro j live l
  rw [AFs.content_setContent]
  by_cases hit : fs.ptr j l = fs.ptr i k
  · rw [if_pos hit, if_pos (h.owned.ptr_inj mem live nonzero hit)]
  · have other : ¬ (j = i ∧ l = k) := by
      rintro ⟨rfl, rfl⟩
      exact hit rfl
    rw [if_neg hit, if_neg other]

theorem Rep.writeInflight (mem : b ∈ inflight) : Rep strict inflight A (fs.setBlock b block) := by
  refine h.setLeaf (h.owned.leaf_inflight mem) (h.owned.taken b mem).1 rfl rfl rfl ?_
  intro i live k
  rw [if_neg (h.owned.ptr_ne_inflight mem live)]

end

theorem FreeMap.unused_pos (h : FreeMap fs) (free : fs.free b = true) : 0 < fs.unused := by
  rw [h.count]
  apply card_pos.mpr
  exact ⟨b, mem_filter.mpr ⟨mem_range.mpr (h.bits b free).2, free⟩⟩

theorem FreeMap.take (h : FreeMap fs) (free : fs.free b = true) : FreeMap (fs.take b) where
  width := h.width
  bits c set := by
    by_cases same : c = b
    · subst same
      exact h.bits c free
    · simp only [Fs.take, update_of_ne same] at set
      exact h.bits c set
  count := by
    have mem : b ∈ (Finset.range fs.blocks).filter fun c => fs.free c = true :=
      Finset.mem_filter.mpr ⟨Finset.mem_range.mpr (h.bits b free).2, free⟩
    have bitsLeft : (Finset.range fs.blocks).filter (fun c => (fs.take b).free c = true) =
        ((Finset.range fs.blocks).filter fun c => fs.free c = true).erase b := by
      ext c
      rw [Finset.mem_filter, Finset.mem_erase, Finset.mem_filter]
      by_cases same : c = b <;> simp [Fs.take, same]
    change fs.unused - 1 = _
    rw [show (fs.take b).blocks = fs.blocks from rfl, bitsLeft, Finset.card_erase_of_mem mem,
      ← h.count]

theorem FreeMap.giveBack (h : FreeMap fs) (nonzero : b ≠ 0) (bound : b < fs.blocks)
    (used : fs.free b = false) : FreeMap (fs.giveBack b) where
  width := h.width
  bits c set := by
    by_cases same : c = b
    · subst same
      exact ⟨nonzero, bound⟩
    · simp only [Fs.giveBack, update_of_ne same] at set
      exact h.bits c set
  count := by
    have fresh : b ∉ (Finset.range fs.blocks).filter fun c => fs.free c = true := by
      simp [used]
    have bitsNow : (Finset.range fs.blocks).filter (fun c => (fs.giveBack b).free c = true) =
        insert b ((Finset.range fs.blocks).filter fun c => fs.free c = true) := by
      ext c
      rw [Finset.mem_filter, Finset.mem_insert, Finset.mem_filter]
      by_cases same : c = b <;> simp [Fs.giveBack, same, bound]
    change fs.unused + 1 = _
    rw [show (fs.giveBack b).blocks = fs.blocks from rfl, bitsNow,
      Finset.card_insert_of_notMem fresh, ← h.count]

theorem Rep.take (h : Rep strict inflight A fs) (free : fs.free b = true) :
    Rep strict (insert b inflight) A (fs.take b) := by
  have owns (c : Nat) (slot : Slot) : Owns A.live (fs.take b) c slot ↔ Owns A.live fs c slot :=
    owns_congr rfl (by exact fun _ _ => rfl) (by exact fun _ _ _ => rfl)
  refine h.reuseOne (u := .free) (v := .inflight) (h.freeMap.take free) rfl free (fun w => ?_) (fun c other w => ?_)
    (fun i mem => (h.node i mem).agree (.of_eq rfl rfl) rfl rfl rfl) h.cached
  · cases w with
    | free | inflight => simp [Uses, Fs.take]
    | slot slot =>
      have unowned (own : Owns A.live fs b slot) : False := by
        cases h.uses_unique (u := .free) (v := .slot slot) free own
      simpa [Uses, owns] using unowned
  · cases w with
    | free | inflight => simp [Uses, Fs.take, other]
    | slot slot => exact owns c slot

theorem Rep.giveBack (h : Rep strict inflight A fs) (mem : b ∈ inflight) :
    Rep strict (inflight.erase b) A (fs.giveBack b) := by
  have owns (c : Nat) (slot : Slot) : Owns A.live (fs.giveBack b) c slot ↔ Owns A.live fs c slot :=
    owns_congr rfl (by exact fun _ _ => rfl) (by exact fun _ _ _ => rfl)
  have taken := h.owned.taken b mem
  refine h.reuseOne (u := .inflight) (v := .free) (h.freeMap.giveBack taken.1 taken.2.1 taken.2.2) rfl mem
    (fun w => ?_) (fun c other w => ?_)
    (fun i live => (h.node i live).agree (.of_eq rfl rfl) rfl rfl rfl) h.cached
  · cases w with
    | free | inflight => simp [Uses, Fs.giveBack]
    | slot slot => simpa [Uses, owns] using h.owned.unowned b mem slot
  · cases w with
    | free | inflight => simp [Uses, Fs.giveBack, other]
    | slot slot => exact owns c slot

end Ownership

end Procore.Sfs
