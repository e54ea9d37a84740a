import Procore.Sfs.Cache

/-! # Volumes given by tables

A small volume is written down as the table of its inodes and of the directory
entries in its blocks. Whether the blocks are used consistently can be computed
from the tables.
-/

namespace Procore.Sfs

open Procore.Lib List Prod

/-- The tables of a volume. Its inodes have no indirect blocks; those of `memory` are
    in memory and referenced once. -/
structure Image where
  blocks : Nat
  inodes : List (Nat × DiskInode)
  entries : List (Nat × DiskEntry) := []
  memory : List Nat := []

def directOf (blocks : List Nat) : Fin ndirect → Nat := fun k => blocks.getD k 0

/-- A directory with one slot in each of these blocks. -/
def dirInode (nlinks : Nat) (blocks : List Nat) : DiskInode :=
  { type := .dir, nlinks := nlinks, blocks := blocks.length, direct := directOf blocks }

namespace Image

variable (img : Image)

def block (b : Nat) : Block :=
  match img.inodes.lookup b with
  | some d => splice zeroBlock 0 d.encode
  | none =>
    match img.entries.lookup b with
    | some e => splice zeroBlock 0 e.encode
    | none => zeroBlock

def sysBlocks : List Nat := 0 :: (range ((img.blocks + (blkbits - 1)) / blkbits)).map (2 + ·)

/-- The blocks that an inode owns, with what owns them. -/
def nodeSlots (i : Nat) (d : DiskInode) : List (Nat × Slot) :=
  (i, .inode i) :: (finRange ndirect).filterMap fun k =>
    if d.direct k = 0 then none else some (d.direct k, .mapped i k)

def slots : List (Nat × Slot) :=
  img.sysBlocks.map (·, .sys) ++ img.inodes.flatMap fun p => nodeSlots p.1 p.2

def owned : List Nat := img.slots.map fst

def free (b : Nat) : Bool := decide (b < img.blocks) && !img.owned.contains b

def fs : Fs where
  blocks := img.blocks
  unused := ((Finset.range img.blocks).filter fun b => img.free b = true).card
  free := img.free
  disk := img.block
  icache i := if i ∈ img.memory then (img.inodes.lookup i).map fun d => { din := d } else none

def abs : AFs where
  live := (img.inodes.map fst).toFinset
  info i :=
    match img.inodes.lookup i with
    | some d => d.info (some d.blocks)
    | none => ⟨.inval, 0, 0, 0, some 0⟩
  refs i := if i ∈ img.memory then (img.inodes.lookup i).map fun _ => {} else none
  content i k :=
    match img.inodes.lookup i with
    | some d =>
      if direct : k < ndirect then
        if d.direct ⟨k, direct⟩ = 0 then none else some (img.block (d.direct ⟨k, direct⟩))
      else none
    | none => none

structure Valid : Prop where
  width : img.blocks ≤ 2 ^ 32
  nodup : img.owned.Nodup
  inside : ∀ b ∈ img.owned, b < img.blocks
  fits : ∀ p ∈ img.inodes, p.2.Fits
  indirect : ∀ p ∈ img.inodes, p.2.indirect = 0
  bounded : ∀ p ∈ img.inodes, p.2.blocks ≤ maxBlocks

end Image

instance (d : DiskInode) : Decidable d.Fits :=
  decidable_of_iff (d.size < 2 ^ 32 ∧ d.nlinks < 2 ^ 16 ∧ d.blocks < 2 ^ 32 ∧
    (∀ k, d.direct k < 2 ^ 32) ∧ d.indirect < 2 ^ 32)
    ⟨fun h => ⟨h.1, h.2.1, h.2.2.1, h.2.2.2.1, h.2.2.2.2⟩,
      fun h => ⟨h.size, h.nlinks, h.blocks, h.direct, h.indirect⟩⟩

instance (img : Image) : Decidable img.Valid :=
  decidable_of_iff (img.blocks ≤ 2 ^ 32 ∧ img.owned.Nodup ∧ (∀ b ∈ img.owned, b < img.blocks) ∧
    (∀ p ∈ img.inodes, p.2.Fits) ∧ (∀ p ∈ img.inodes, p.2.indirect = 0) ∧
    ∀ p ∈ img.inodes, p.2.blocks ≤ maxBlocks)
    ⟨fun h => ⟨h.1, h.2.1, h.2.2.1, h.2.2.2.1, h.2.2.2.2.1, h.2.2.2.2.2⟩,
      fun h => ⟨h.width, h.nodup, h.inside, h.fits, h.indirect, h.bounded⟩⟩

theorem lookup_of_mem {α : Type} {table : List (Nat × α)} {key : Nat} {value : α}
    (nodup : (table.map fst).Nodup) (mem : (key, value) ∈ table) :
    table.lookup key = some value := by
  induction table with
  | nil => cases mem
  | cons p rest ih =>
    obtain ⟨key', value'⟩ := p
    rw [map_cons, nodup_cons] at nodup
    by_cases same : key = key'
    · subst same
      rw [lookup_cons_self]
      cases mem_cons.mp mem with
      | inl here => cases here; rfl
      | inr later =>
        have : key ∈ rest.map fst := mem_map.mpr ⟨_, later, rfl⟩
        exact absurd this nodup.1
    · have later : (key, value) ∈ rest := by
        cases mem_cons.mp mem with
        | inl here => cases here; exact absurd rfl same
        | inr later => exact later
      have differs : (key == key') = false := by simpa using same
      rw [lookup_cons, differs]
      exact ih nodup.2 later

theorem mem_of_lookup {α : Type} {table : List (Nat × α)} {key : Nat} {value : α}
    (found : table.lookup key = some value) : (key, value) ∈ table := by
  induction table with
  | nil => cases found
  | cons p rest ih =>
    obtain ⟨key', value'⟩ := p
    rw [lookup_cons] at found
    split at found
    · rename_i same
      cases found
      have : key = key' := by simpa using same
      subst this
      exact .head _
    · exact .tail _ (ih found)

namespace Image

variable {img : Image} {i b : Nat} {d : DiskInode} {slot : Slot}

theorem mem_live : i ∈ img.abs.live ↔ ∃ d, img.inodes.lookup i = some d := by
  simp only [abs, mem_toFinset, mem_map]
  constructor
  · rintro ⟨p, mem, rfl⟩
    cases found : img.inodes.lookup p.1 with
    | some d => exact ⟨d, rfl⟩
    | none =>
      have := lookup_eq_none_iff.mp found p mem
      simp at this
  · rintro ⟨d, found⟩
    exact ⟨(i, d), mem_of_lookup found, rfl⟩

theorem mem_nodeSlots : (b, slot) ∈ nodeSlots i d ↔
    b = i ∧ slot = .inode i ∨ ∃ k : Fin ndirect, d.direct k ≠ 0 ∧ b = d.direct k ∧ slot = .mapped i k := by
  simp only [nodeSlots, List.mem_cons, Prod.mk.injEq, List.mem_filterMap, List.mem_finRange, true_and]
  apply or_congr .rfl
  constructor
  · rintro ⟨k, found⟩
    split at found
    · cases found
    · rename_i nonzero
      cases found
      exact ⟨k, nonzero, rfl, rfl⟩
  · rintro ⟨k, nonzero, rfl, rfl⟩
    exact ⟨k, by rw [if_neg nonzero]⟩

theorem keys_nodup (valid : img.Valid) : (img.inodes.map fst).Nodup := by
  have nodup := valid.nodup
  rw [owned, slots, map_append, nodup_append] at nodup
  have flat := nodup.2.1
  rw [map_flatMap] at flat
  apply Nodup.sublist _ flat
  rw [← flatMap_singleton' (img.inodes.map fst), flatMap_map]
  induction img.inodes with
  | nil => exact Sublist.refl _
  | cons p rest ih =>
    apply Sublist.append _ ih
    exact singleton_sublist.mpr (.head _)

section

variable (valid : img.Valid) (found : img.inodes.lookup i = some d)
include valid found

theorem dinode_eq : img.fs.dinode i = d := by
  have fits := valid.fits _ (mem_of_lookup found)
  simp only [Fs.dinode, fs]
  by_cases cached : i ∈ img.memory
  · simp only [cached, if_true, found, Option.map_some]
  · simp only [cached, Fs.diskInode, block, found]
    exact diskInode_splice fits

theorem diskInode_eq : img.fs.diskInode i = d := by
  simp only [Fs.diskInode, fs, block, found]
  exact diskInode_splice (valid.fits _ (mem_of_lookup found))

theorem ptr_eq (k : Nat) : img.fs.ptr i k = if direct :
    k < ndirect then d.direct ⟨k, direct⟩ else 0 := by
  have none := valid.indirect _ (mem_of_lookup found)
  simp only at none
  simp [Fs.ptr, dinode_eq valid found, none]

end

theorem owns_iff (valid : img.Valid) : Owns img.abs.live img.fs b slot ↔ (b, slot) ∈ img.slots := by
  simp only [slots, mem_append, mem_map, mem_flatMap]
  constructor
  · intro own
    cases slot with
    | sys =>
      left
      refine ⟨b, ?_, rfl⟩
      cases own with
      | inl zero =>
        subst zero
        exact .head _
      | inr map =>
        apply mem_cons_of_mem
        rw [mem_map]
        exact ⟨b - 2, mem_range.mpr (by have := map.2; simp only [fs] at this; omega), by omega⟩
    | inode i =>
      right
      obtain ⟨live, rfl⟩ := own
      obtain ⟨d, found⟩ := mem_live.mp live
      exact ⟨(i, d), mem_of_lookup found, mem_nodeSlots.mpr (.inl ⟨rfl, rfl⟩)⟩
    | mapped i k =>
      right
      obtain ⟨live, nonzero, target⟩ := own
      obtain ⟨d, found⟩ := mem_live.mp live
      rw [ptr_eq valid found] at target
      split_ifs at target with direct
      · exact ⟨(i, d), mem_of_lookup found, mem_nodeSlots.mpr
          (.inr ⟨⟨k, direct⟩, by rwa [target], target.symm, rfl⟩)⟩
      · exact absurd target.symm nonzero
    | indirect i =>
      obtain ⟨live, nonzero, target⟩ := own
      obtain ⟨d, found⟩ := mem_live.mp live
      rw [dinode_eq valid found, valid.indirect _ (mem_of_lookup found)] at target
      exact absurd target.symm nonzero
  · rintro (⟨c, mem, eq⟩ | ⟨⟨i, d⟩, mem, inside⟩)
    · cases eq
      cases mem_cons.mp mem with
      | inl zero => exact .inl zero
      | inr map =>
        obtain ⟨n, bound, rfl⟩ := mem_map.mp map
        right
        have := mem_range.mp bound
        simp only [fs]
        omega
    · have found := lookup_of_mem (keys_nodup valid) mem
      have live := mem_live.mpr ⟨d, found⟩
      cases mem_nodeSlots.mp inside with
      | inl own =>
        obtain ⟨rfl, rfl⟩ := own
        exact ⟨live, rfl⟩
      | inr mapped =>
        obtain ⟨k, nonzero, rfl, rfl⟩ := mapped
        exact ⟨live, nonzero, by rw [ptr_eq valid found, dif_pos k.isLt]⟩

theorem mem_owned : (∃ slot, (b, slot) ∈ img.slots) ↔ b ∈ img.owned := by
  simp [owned]

theorem zero_mem_owned : 0 ∈ img.owned :=
  mem_owned.mp ⟨.sys, mem_append.mpr (.inl (mem_map.mpr ⟨0, (.head _), rfl⟩))⟩

theorem free_eq_true : img.free b = true ↔ b < img.blocks ∧ b ∉ img.owned := by
  simp [free]

theorem owned_exclusive (valid : img.Valid) {slot' : Slot} (own : (b, slot) ∈ img.slots)
    (own' : (b, slot') ∈ img.slots) : slot = slot' := by
  have := inj_on_of_nodup_map valid.nodup own own' rfl
  cases this
  rfl

theorem node_rep (valid : img.Valid) (found : img.inodes.lookup i = some d) :
    NodeRep img.abs img.fs i := by
  have bounded := valid.bounded _ (mem_of_lookup found)
  have fits := valid.fits _ (mem_of_lookup found)
  have cache : img.fs.icache i = if i ∈ img.memory then some { din := d } else none := by
    simp [fs, found]
  have stored : img.fs.stored i = some d.blocks := by
    simp only [Fs.stored, cache, diskInode_eq valid found]
    split
    · rename_i sin eq
      split at eq
      · cases eq
        rfl
      · cases eq
    · rfl
  have info : img.abs.info i = d.info (some d.blocks) := by simp [abs, found]
  constructor
  · rw [dinode_eq valid found, stored, info]
  · rw [dinode_eq valid found]
    exact fits
  · intro k
    simp only [Fs.content, ptr_eq valid found, abs, found]
    by_cases direct : k < ndirect
    · simp only [dif_pos direct]
      rfl
    · simp [dif_neg direct]
  · rw [cache]
    simp only [abs, found]
    split <;> rfl
  · intro sin eq _
    rw [cache] at eq
    split at eq
    · cases eq
      rw [diskInode_eq valid found]
    · cases eq
  · rw [info]
    exact bounded
  · intro n some
    rw [info] at some
    cases some
    rw [info]
    exact le_refl _

theorem rep (valid : img.Valid) (strict : Prop) : Rep strict ∅ img.abs img.fs := by
  constructor
  · refine ⟨valid.width, fun b free => ?_, rfl⟩
    have split := free_eq_true.mp free
    refine ⟨?_, split.1⟩
    rintro rfl
    exact split.2 zero_mem_owned
  · constructor
    · intro b slot own
      have mem := mem_owned.mp ⟨slot, (owns_iff valid).mp own⟩
      refine ⟨valid.inside b mem, ?_⟩
      rw [Bool.eq_false_iff]
      intro free
      exact (free_eq_true.mp free).2 mem
    · intro b slot slot' own own'
      exact owned_exclusive valid ((owns_iff valid).mp own) ((owns_iff valid).mp own')
    · intro b mem
      exact absurd mem (Finset.notMem_empty b)
    · intro b mem
      exact absurd mem (Finset.notMem_empty b)
  · intro i live
    obtain ⟨d, found⟩ := mem_live.mp live
    exact node_rep valid found
  · intro i dead
    have none : img.inodes.lookup i = none := by
      cases found : img.inodes.lookup i with
      | none => rfl
      | some d => exact absurd (mem_live.mpr ⟨d, found⟩) dead
    simp [fs, abs, none]
  · intro _ b bound used
    right
    have mem : b ∈ img.owned := by
      by_contra absent
      rw [show img.fs.free b = true from free_eq_true.mpr ⟨bound, absent⟩] at used
      cases used
    obtain ⟨slot, own⟩ := mem_owned.mpr mem
    exact ⟨slot, (owns_iff valid).mpr own⟩

end Image

end Procore.Sfs
