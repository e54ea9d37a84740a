import Mathlib.Data.Nat.Count
import Mathlib.Order.Interval.Finset.Nat
import Procore.Sfs.Disk

/-! # The free map of a new volume

`mksfs` takes blocks one after the other, behind those of the free map, and
writes the free map when everything else has its blocks. The kernel reads the map
when it mounts the volume, and counts its bits.
-/

namespace Procore.Sfs.Mksfs

open Procore.Lib
open Function

/-- A block of 32-bit words, or a longer map of them. -/
abbrev Words := Nat → BitVec 32

def wordBits : Nat := 32

/-- `data[j / bits] |= (1 << (j % bits))`. -/
def Words.set (data : Words) (j : Nat) : Words :=
  update data (j / wordBits) (data (j / wordBits) ||| 1#32 <<< (j % wordBits))

def Words.bitmapTest (map : Words) (index : Nat) : Bool :=
  (map (index / wordBits) &&& 1#32 <<< (index % wordBits)) ≠ 0#32

def Words.setBits (data : Words) : Nat → Nat → Words
  | _, 0 => data
  | j, count + 1 => (data.set j).setBits (j + 1) count

def maxNblks : Nat := 1024 * 512

structure NewFs where
  ninos : Nat
  nextIno : Nat
  /-- `super.unused_blocks`. -/
  unused : Nat
  /-- The blocks on the disk. -/
  image : Nat → Words
  /-- The blocks and inodes that are written at the end. -/
  cached : List Nat
  /-- What `sfs_alloc_ino` has returned. -/
  taken : List Nat := []

/-- Where the blocks behind the free map begin. -/
def reserved (ninos : Nat) : Nat := 2 + (ninos + blkbits - 1) / blkbits

/-- `create_sfs` on an image of `size` bytes. The root is block 1. -/
def createSfs (size : Nat) (image : Nat → Words) : Option NewFs :=
  let blocks := size / blksize % 2 ^ 32
  let ninos := if maxNblks < blocks then maxNblks else blocks
  if ninos ≤ reserved ninos then none
  else some ⟨ninos, reserved ninos, ninos - reserved ninos, image, [1], []⟩

/-- A volume: `super.blocks` and `super.unused_blocks`, and its blocks. -/
structure Volume where
  blocks : Nat
  unused : Nat
  block : Nat → Words

namespace NewFs

def sfsAllocIno (s : NewFs) : Option (Nat × NewFs) :=
  if s.nextIno < s.ninos then
    some (s.nextIno, { s with
      unused := s.unused - 1
      nextIno := s.nextIno + 1
      taken := s.nextIno :: s.taken })
  else none

/-- `write_block` with its assertion. -/
def writeBlock (s : NewFs) (image : Nat → Words) (data : Words) (ino : Nat) : Option (Nat → Words) :=
  if ino < s.ninos then some (update image ino data) else none

/-- A block of the free map, of the bits from `i` on. -/
def freemapBlock (s : NewFs) (i : Nat) : Words :=
  if s.nextIno < i + blkbits then
    let start := if i < s.nextIno then s.nextIno - i else 0
    let stop := if s.ninos < i + blkbits then s.ninos - i else blkbits
    Words.setBits (fun _ => 0) start (stop - start)
  else fun _ => 0

def writeFreemap (s : NewFs) (image : Nat → Words) (ino i : Nat) : Option (Nat → Words) :=
  if i < s.ninos then do
    let image ← s.writeBlock image (s.freemapBlock i) ino
    s.writeFreemap image (ino + 1) (i + blkbits)
  else some image
termination_by s.ninos - i
decreasing_by
  unfold blkbits
  omega

/-- The last loop of `close_sfs`, over what is cached. -/
def flush (s : NewFs) (contents : Nat → Words) (image : Nat → Words) : List Nat → Option (Nat → Words)
  | [] => some image
  | ino :: inos => do
    let image ← s.writeBlock image (contents ino) ino
    s.flush contents image inos

def closeSfs (s : NewFs) (contents : Nat → Words) : Option Volume := do
  let image ← s.writeFreemap s.image 2 0
  let image ← s.flush contents image s.cached
  some ⟨s.ninos, s.unused, image⟩

/-- What takes a block: it is written at once, or it is cached. -/
inductive Alloc where
  | written (data : Words)
  | cached

def step (s : NewFs) : Alloc → Option NewFs
  | .written data => do
    let (ino, t) ← s.sfsAllocIno
    let image ← t.writeBlock t.image data ino
    some { t with image }
  | .cached => do
    let (ino, t) ← s.sfsAllocIno
    some { t with cached := ino :: t.cached }

end NewFs

namespace Volume

def freemapBits (v : Volume) : Nat := (v.blocks + (blkbits - 1)) / blkbits * blkbits

/-- The map that `sfs_init_freemap` reads. -/
def freemap (v : Volume) : Words := fun ix => v.block (2 + ix / blkNentry) (ix % blkNentry)

/-- The count of `sfs_do_mount`. -/
def unusedBlocks (v : Volume) : Nat := Nat.count (fun i => v.freemap.bitmapTest i = true) v.freemapBits

end Volume

section

variable {data : Words} {j k count : Nat} {s t : NewFs}

theorem bitmapTest_eq (data : Words) (k : Nat) :
    data.bitmapTest k = (data (k / wordBits)).getLsbD (k % wordBits) := by
  have bound : k % wordBits < 32 := Nat.mod_lt _ (by decide)
  rw [Words.bitmapTest, ← BitVec.twoPow_eq, BitVec.and_twoPow]
  split_ifs with set
  · have mask : BitVec.twoPow 32 (k % wordBits) ≠ 0#32 := by
      intro zero
      simpa [bound] using congrArg (fun x => x.getLsbD (k % wordBits)) zero
    rw [set, decide_eq_true mask]
  · simpa using set

theorem bitmapTest_set : (data.set j).bitmapTest k = true ↔ k = j ∨ data.bitmapTest k = true := by
  have bound : k % wordBits < 32 := Nat.mod_lt _ (by decide)
  have parts : k = j ↔ k / wordBits = j / wordBits ∧ k % wordBits = j % wordBits := by
    unfold wordBits
    omega
  rw [bitmapTest_eq, bitmapTest_eq, Words.set, ← BitVec.twoPow_eq, parts]
  by_cases here : k / wordBits = j / wordBits
  · grind
  · simp [here]

theorem bitmapTest_setBits :
    (data.setBits j count).bitmapTest k = true ↔ j ≤ k ∧ k < j + count ∨ data.bitmapTest k = true := by
  induction count generalizing data j with
  | zero => simp [Words.setBits]
  | succ count ih =>
    rw [Words.setBits, ih, bitmapTest_set]
    grind

theorem freemapBlock_spec {i : Nat} (low : i < s.ninos) (bound : k < blkbits) :
    (s.freemapBlock i).bitmapTest k = true ↔ s.nextIno ≤ i + k ∧ i + k < s.ninos := by
  have empty : Words.bitmapTest (fun _ => 0) k = false := by simp [bitmapTest_eq]
  rw [NewFs.freemapBlock]
  split
  · rw [bitmapTest_setBits, empty]
    grind
  · grind

/-- There is room for the map, and each round of the loop gets nearer to its end. -/
theorem freemap_room {m i : Nat} (room : reserved s.ninos ≤ s.ninos) (here : i = m * blkbits)
    (inside : i < s.ninos) :
    2 + m < s.ninos ∧ s.ninos - (i + blkbits) < s.ninos - i ∧ i + blkbits = (m + 1) * blkbits := by
  unfold reserved at room
  unfold blkbits at *
  omega

/-- The blocks of the map from block `m` of it on. -/
theorem writeFreemap_spec {m i : Nat} (image : Nat → Words) (room : reserved s.ninos ≤ s.ninos)
    (here : i = m * blkbits) :
    ∃ image', s.writeFreemap image (2 + m) i = some image' ∧ (∀ b, b < 2 + m → image' b = image b) ∧
      ∀ n, m ≤ n → n * blkbits < s.ninos → image' (2 + n) = s.freemapBlock (n * blkbits) := by
  induction left : s.ninos - i using Nat.strongRecOn generalizing m i image with
  | ind left ih =>
  rw [NewFs.writeFreemap]
  split
  case isFalse out =>
    refine ⟨image, rfl, fun _ _ => rfl, fun n le inside => ?_⟩
    have := Nat.mul_le_mul_right blkbits le
    omega
  case isTrue inside =>
    obtain ⟨fits, nearer, next⟩ := freemap_room room here inside
    obtain ⟨image', written, before, after⟩ := ih _ (left ▸ nearer)
      (update image (2 + m) (s.freemapBlock i)) next rfl
    refine ⟨image', ?_, fun b lt => ?_, fun n le inside => ?_⟩
    · rw [NewFs.writeBlock, if_pos fits, Option.bind_eq_bind, Option.bind_some, Nat.add_assoc 2 m 1]
      exact written
    · rw [before b (by omega), update_of_ne (by omega)]
    · by_cases first : n = m
      · subst first
        rw [before _ (by omega), update_self, here]
      · exact after n (by omega) inside

theorem flush_spec (contents image : Nat → Words) {inos : List Nat} (fits : ∀ ino ∈ inos, ino < s.ninos) :
    ∃ image', s.flush contents image inos = some image' ∧ ∀ b, b ∉ inos → image' b = image b := by
  induction inos generalizing image with
  | nil => exact ⟨image, rfl, fun _ _ => rfl⟩
  | cons ino inos ih =>
    obtain ⟨image', flushed, same⟩ := ih (update image ino (contents ino))
      fun x mem => fits x (.tail _ mem)
    refine ⟨image', ?_, fun b notMem => ?_⟩
    · rw [NewFs.flush, NewFs.writeBlock, if_pos (fits ino (.head _))]
      exact flushed
    · rw [List.mem_cons, not_or] at notMem
      rw [same b notMem.2, update_of_ne notMem.1]

/-- The blocks that are taken lie behind the free map. -/
structure Sound (s : NewFs) : Prop where
  low : reserved s.ninos ≤ s.nextIno
  high : s.nextIno ≤ s.ninos
  unused : s.unused = s.ninos - s.nextIno
  nodup : s.taken.Nodup
  taken : ∀ b ∈ s.taken, reserved s.ninos ≤ b ∧ b < s.nextIno
  cached : ∀ b ∈ s.cached, b = 1 ∨ b ∈ s.taken

theorem sfsAllocIno_sound {ino : Nat} (sound : Sound s) (taken : s.sfsAllocIno = some (ino, t)) :
    Sound t ∧ t.ninos = s.ninos ∧ ino ∈ t.taken := by
  rw [NewFs.sfsAllocIno] at taken
  split at taken
  case isFalse => cases taken
  case isTrue room =>
    obtain ⟨rfl, rfl⟩ := taken
    refine ⟨⟨?_, ?_, ?_, ?_, ?_, ?_⟩, rfl, (.head _)⟩
    · exact sound.low.trans (Nat.le_succ _)
    · exact room
    · have := sound.unused
      grind
    · refine List.nodup_cons.mpr ⟨fun mem => ?_, sound.nodup⟩
      exact absurd (sound.taken _ mem).2 (Nat.lt_irrefl _)
    · rintro b (_ | ⟨_, mem⟩)
      · exact ⟨sound.low, Nat.lt_succ_self _⟩
      · exact ⟨(sound.taken b mem).1, Nat.lt_succ_of_lt (sound.taken b mem).2⟩
    · exact fun b mem => (sound.cached b mem).imp_right (List.mem_cons_of_mem _)

theorem step_sound (s : NewFs) (a : NewFs.Alloc) (t : NewFs) (sound : Sound s) (taken : s.step a = some t) :
    Sound t := by
  cases a with
  | written data =>
    simp only [NewFs.step, Option.bind_eq_bind, Option.bind_eq_some_iff] at taken
    obtain ⟨⟨ino, u⟩, allocated, image, -, done⟩ := taken
    obtain rfl := Option.some.inj done
    obtain ⟨kept, -, -⟩ := sfsAllocIno_sound sound allocated
    exact { kept with }
  | cached =>
    simp only [NewFs.step, Option.bind_eq_bind, Option.bind_eq_some_iff] at taken
    obtain ⟨⟨ino, u⟩, allocated, done⟩ := taken
    obtain rfl := Option.some.inj done
    obtain ⟨kept, -, mem⟩ := sfsAllocIno_sound sound allocated
    refine { kept with cached := ?_ }
    rintro b (_ | ⟨_, old⟩)
    · exact .inr mem
    · exact kept.cached b old

theorem createSfs_sound {size : Nat} {image : Nat → Words} (created : createSfs size image = some s) :
    Sound s := by
  simp only [createSfs, Option.ite_none_left_eq_some, Option.some.injEq] at created
  obtain ⟨room, rfl⟩ := created
  exact ⟨le_rfl, Nat.le_of_not_le room, rfl, List.nodup_nil, by simp, by simp⟩

theorem freemap_bitmapTest (v : Volume) (k : Nat) :
    v.freemap.bitmapTest k = (v.block (2 + k / blkbits)).bitmapTest (k % blkbits) := by
  have block : k / wordBits / blkNentry = k / blkbits := Nat.div_div_eq_div_mul ..
  have word : k / wordBits % blkNentry = k % blkbits / wordBits := by
    unfold wordBits blkNentry blkbits
    omega
  have bit : k % wordBits = k % blkbits % wordBits := by
    unfold wordBits blkbits
    omega
  rw [bitmapTest_eq, bitmapTest_eq, Volume.freemap, block, word, bit]

/-- The volume that is written: the blocks from `next_ino` on are free. -/
theorem closeSfs_spec (sound : Sound s) (contents : Nat → Words) :
    ∃ v, s.closeSfs contents = some v ∧ v.blocks = s.ninos ∧ v.unused = s.ninos - s.nextIno ∧
      ∀ k, k < v.freemapBits → (v.freemap.bitmapTest k = true ↔ s.nextIno ≤ k ∧ k < s.ninos) := by
  have room := sound.low.trans sound.high
  have map : 3 ≤ reserved s.ninos := by
    unfold reserved blkbits at *
    omega
  have inside (ino : Nat) (mem : ino ∈ s.cached) : ino < s.ninos ∧ (ino = 1 ∨ reserved s.ninos ≤ ino) := by
    obtain rfl | taken := sound.cached ino mem
    · omega
    · have := sound.taken ino taken
      have := sound.high
      omega
  obtain ⟨mapped, written, -, blocks⟩ := writeFreemap_spec s.image room (Nat.zero_mul _).symm
  obtain ⟨image, flushed, same⟩ := flush_spec contents mapped fun ino mem => (inside ino mem).1
  refine ⟨⟨s.ninos, s.unused, image⟩, ?_, rfl, sound.unused, fun k bound => ?_⟩
  · rw [NewFs.closeSfs, written, Option.bind_eq_bind, Option.bind_some, flushed]
    rfl
  · have low : k / blkbits * blkbits < s.ninos ∧ 2 + k / blkbits < reserved s.ninos := by
      change k < (s.ninos + (blkbits - 1)) / blkbits * blkbits at bound
      unfold reserved blkbits at *
      omega
    have kept : 2 + k / blkbits ∉ s.cached := by
      intro mem
      obtain ⟨-, one | behind⟩ := inside _ mem
      · grind
      · exact absurd behind (Nat.not_le_of_lt low.2)
    have block : (Volume.mk s.ninos s.unused image).block (2 + k / blkbits) = _ :=
      (same _ kept).trans (blocks _ (Nat.zero_le _) low.1)
    rw [freemap_bitmapTest, block, freemapBlock_spec low.1 (Nat.mod_lt _ (by decide)),
      Nat.div_add_mod' k blkbits]

/-- The free map of every volume that `mksfs` writes agrees with its count, and with what was taken. -/
theorem new_volume_mounts {size : Nat} {image : Nat → Words} {as : List NewFs.Alloc}
    (created : createSfs size image = some s) (run : runFrom NewFs.step s as = some t)
    (contents : Nat → Words) :
    ∃ v, t.closeSfs contents = some v ∧ v.blocks = t.ninos ∧
      (∀ k, k < v.freemapBits → (v.freemap.bitmapTest k = true ↔ t.nextIno ≤ k ∧ k < t.ninos)) ∧
      v.unusedBlocks = v.unused ∧ t.taken.Nodup ∧ ∀ b ∈ t.taken, reserved t.ninos ≤ b ∧ b < t.nextIno := by
  have sound := runFrom_always step_sound (createSfs_sound created) run
  obtain ⟨v, closed, blocks, unused, bits⟩ := closeSfs_spec sound contents
  refine ⟨v, closed, blocks, bits, ?_, sound.nodup, sound.taken⟩
  have all : t.ninos ≤ v.freemapBits := by
    unfold Volume.freemapBits blkbits
    omega
  have free : (Finset.range v.freemapBits).filter (fun k => v.freemap.bitmapTest k = true) =
      Finset.Ico t.nextIno t.ninos := by
    ext k
    rw [Finset.mem_filter, Finset.mem_range, Finset.mem_Ico]
    constructor
    · exact fun ⟨bound, set⟩ => (bits k bound).mp set
    · exact fun mem => ⟨mem.2.trans_le all, (bits k (mem.2.trans_le all)).mpr mem⟩
  rw [Volume.unusedBlocks, Nat.count_eq_card_filter_range, free, Nat.card_Ico, unused]

/-- An image of five blocks, of which one is taken. -/
theorem new_volume_mounts_five : ∃ s t v, createSfs 20480 (fun _ _ => 0) = some s ∧
    runFrom NewFs.step s [.cached] = some t ∧ t.closeSfs (fun _ _ => 0) = some v ∧
    v.unusedBlocks = v.unused ∧ v.freemap.bitmapTest 3 = false ∧ v.freemap.bitmapTest 4 = true := by
  have created : createSfs 20480 (fun _ _ => 0) = some ⟨5, 3, 2, fun _ _ => 0, [1], []⟩ := rfl
  have run : runFrom NewFs.step ⟨5, 3, 2, fun _ _ => 0, [1], []⟩ [.cached] =
      some ⟨5, 4, 1, fun _ _ => 0, [3, 1], [3]⟩ := rfl
  obtain ⟨v, closed, blocks, bits, count, -⟩ := new_volume_mounts created run (fun _ _ => 0)
  have inside (k : Nat) (low : k < 5) : k < v.freemapBits := by
    rw [Volume.freemapBits, blocks]
    exact low.trans_le (by decide)
  refine ⟨_, _, v, created, run, closed, count, ?_, ?_⟩
  · simpa using mt (bits 3 (inside 3 (by decide))).mp (by decide)
  · exact (bits 4 (inside 4 (by decide))).mpr (by decide)

end

end Procore.Sfs.Mksfs
