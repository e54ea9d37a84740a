import Procore.Sfs.Inode

/-! # Rules for the primitive operations

What the requests to the device, the locks and the accesses to inodes in memory
ensure. A request that fails uses up one of the failures drawn for the call,
and nothing ever adds one.
-/

namespace Procore.Sfs

open Procore.Lib
open Prog (wp_assert_pos wp_bind wp_get wp_ite wp_modify wp_pure)

/-- The failures among the outcomes still to be drawn. -/
def failures (draws : List Bool) : Nat := draws.count true

theorem failures_tail_le (draws : List Bool) : failures draws.tail ≤ failures draws := by
  cases draws with
  | nil => exact le_refl _
  | cons draw draws =>
    simp only [failures, List.tail_cons, List.count_cons]
    omega

theorem failures_tail_lt {draws : List Bool} (failed : draws.headD false = true) :
    failures draws.tail < failures draws := by
  cases draws with
  | nil => cases failed
  | cons draw draws =>
    subst failed
    simp [failures]

/-- The call goes on: it holds the same semaphores and has no new failures ahead. -/
structure World.Later (w w' : World) : Prop where
  held : w'.held = w.held
  blocks : w'.fs.blocks = w.fs.blocks
  io : failures w'.faults.io ≤ failures w.faults.io
  clear : failures w'.faults.clear ≤ failures w.faults.clear
  reclaim : failures w'.faults.reclaim ≤ failures w.faults.reclaim
  mem : failures w'.faults.mem ≤ failures w.faults.mem

namespace World.Later

variable {w w' w'' : World}

theorem refl (w : World) : w.Later w := ⟨rfl, rfl, le_refl _, le_refl _, le_refl _, le_refl _⟩

theorem trans (h : w.Later w') (h' : w'.Later w'') : w.Later w'' where
  held := h'.held.trans h.held
  blocks := h'.blocks.trans h.blocks
  io := le_trans h'.io h.io
  clear := le_trans h'.clear h.clear
  reclaim := le_trans h'.reclaim h.reclaim
  mem := le_trans h'.mem h.mem

theorem withFs (h : w.Later w') (fs : Fs) (blocks : fs.blocks = w'.fs.blocks) :
    w.Later { w' with fs := fs } :=
  { h with blocks := blocks.trans h.blocks }

theorem lock (w : World) (sem : Sem) (h : World.Later { w with held := sem :: w.held } w') :
    w.Later { w' with held := w'.held.erase sem } := by
  refine { h with held := ?_ }
  rw [h.held]
  exact List.erase_cons_head sem w.held

end World.Later

/-- A request to the device failed on the way. -/
def World.Lost (w w' : World) : Prop :=
  w.Later w' ∧ failures w'.faults.io < failures w.faults.io

variable {w w' : World}

/-- A block could not be transferred and nothing has changed. -/
@[simp] abbrev World.IoFails (w : World) (e : Errno) (w' : World) : Prop := e = .io ∧ w'.fs = w.fs ∧ w.Lost w'

theorem World.Later.lost {w'' : World} (h : w.Later w') (lost : w'.Lost w'') : w.Lost w'' :=
  ⟨h.trans lost.1, lt_of_lt_of_le lost.2 h.io⟩

/-- The failures of any kind still to be drawn. -/
def World.failures (w : World) : Nat :=
  Sfs.failures w.faults.io + Sfs.failures w.faults.clear + Sfs.failures w.faults.reclaim +
    Sfs.failures w.faults.mem

def World.Spent (w w' : World) : Prop := w.Later w' ∧ w'.failures < w.failures

/-- Nothing is going to fail. -/
def World.Quiet (w : World) : Prop := w.failures = 0

theorem World.Later.failures_le (h : w.Later w') : w'.failures ≤ w.failures :=
  Nat.add_le_add (Nat.add_le_add (Nat.add_le_add h.io h.clear) h.reclaim) h.mem

theorem World.Later.quiet (h : w.Later w') (quiet : w.Quiet) : w'.Quiet :=
  Nat.le_zero.mp (le_trans h.failures_le (Nat.le_of_eq quiet))

theorem World.Spent.not_quiet (spent : w.Spent w') : ¬ w.Quiet := by
  intro quiet
  have := spent.2
  rw [quiet] at this
  cases this

theorem World.Lost.spent (lost : w.Lost w') : w.Spent w' := by
  refine ⟨lost.1, ?_⟩
  have io := lost.2
  have clear := lost.1.clear
  have reclaim := lost.1.reclaim
  have mem := lost.1.mem
  unfold World.failures
  omega

/-- No request of the call itself is going to fail. -/
def World.Works (w : World) : Prop := Sfs.failures w.faults.io = 0 ∧ Sfs.failures w.faults.clear = 0

theorem World.Quiet.works (quiet : w.Quiet) : w.Works := by
  have none : w.failures = 0 := quiet
  unfold World.failures at none
  exact ⟨by omega, by omega⟩

theorem World.Later.works (h : w.Later w') (works : w.Works) : w'.Works :=
  ⟨Nat.le_zero.mp (works.1 ▸ h.io), Nat.le_zero.mp (works.2 ▸ h.clear)⟩

theorem World.Lost.not_works (lost : w.Lost w') : ¬ w.Works := by
  intro works
  have := lost.2
  rw [works.1] at this
  cases this

section Rules

variable {H : Halt → Prop} {w : World} {E : Errno → World → Prop}

@[simp] theorem wp_getFs {Q : Fs → World → Prop} : getFs.wp H Q E w ↔ Q w.fs w := .rfl

variable {Q : Unit → World → Prop}

@[simp] theorem wp_modifyFs {f : Fs → Fs} :
    (modifyFs f).wp H Q E w ↔ Q () { w with fs := f w.fs } := .rfl

theorem wp_down {sem : Sem}
    (free : sem ∈ w.held → H .deadlock) (done : sem ∉ w.held → Q () { w with held := sem :: w.held }) :
    (down sem).wp H Q E w := by
  simp only [down, wp_bind, wp_ite]
  exact ⟨free, done⟩

theorem wp_getSin {i : Nat} {sin : SfsInode} {Q : SfsInode → World → Prop}
    (cache : w.fs.icache i = some sin) : (getSin i).wp H Q E w ↔ Q sin w := by
  simp [getSin, cache]

theorem wp_modifySin {i : Nat} {sin : SfsInode} {f : SfsInode → SfsInode} (cache : w.fs.icache i = some sin) :
    (modifySin i f).wp H Q E w ↔ Q () { w with fs := w.fs.setSin i (some (f sin)) } := by
  simp [modifySin, cache]

theorem drawIo_spec : drawIo.wp H
    (fun ok w' => w'.fs = w.fs ∧ w.Later w' ∧ (ok = false → w.Lost w')) E w := by
  have later : w.Later { w with faults := { w.faults with io := w.faults.io.tail } } :=
    ⟨rfl, rfl, failures_tail_le _, le_refl _, le_refl _, le_refl _⟩
  refine ⟨rfl, later, fun failed => ⟨later, failures_tail_lt ?_⟩⟩
  simpa using failed

theorem drawClear_spec : drawClear.wp H
    (fun ok w' => w'.fs = w.fs ∧ w.Later w' ∧
      (ok = false → failures w'.faults.clear < failures w.faults.clear)) E w := by
  have later : w.Later { w with faults := { w.faults with clear := w.faults.clear.tail } } :=
    ⟨rfl, rfl, le_refl _, failures_tail_le _, le_refl _, le_refl _⟩
  refine ⟨rfl, later, fun failed => failures_tail_lt ?_⟩
  simpa using failed

variable {b : Nat}

section

variable (valid : b ≠ 0 ∧ b < w.fs.blocks)
include valid

theorem readBlock_spec : (readBlock b).wp H
    (fun block w' => block = w.fs.disk b ∧ w'.fs = w.fs ∧ w.Later w') w.IoFails w := by
  simp only [readBlock, checkBlkno, wp_bind, wp_getFs, wp_assert_pos valid]
  apply drawIo_spec.mono_done
  intro ok w' drawn
  obtain ⟨fs, later, failed⟩ := drawn
  cases ok with
  | true => simp [fs, later]
  | false => simp [fs, failed rfl]

theorem writeBlock_spec {block : Block} : (writeBlock b block).wp H
      (fun _ w' => w'.fs = w.fs.setBlock b block ∧ w.Later w')
      w.IoFails w := by
  simp only [writeBlock, checkBlkno, wp_bind, wp_getFs, wp_assert_pos valid]
  apply drawIo_spec.mono_done
  intro ok w' drawn
  obtain ⟨fs, later, failed⟩ := drawn
  cases ok with
  | true =>
    have after : w.Later { w' with fs := w'.fs.setBlock b block } := later.withFs _ rfl
    simpa [fs] using after
  | false => simp [fs, failed rfl]

theorem sfsClearBlock_spec : (sfsClearBlock b).wp H
      (fun _ w' => w'.fs = w.fs.setBlock b zeroBlock ∧ w.Later w')
      (fun _ w' => w'.fs = w.fs ∧ w.Later w' ∧
        failures w'.faults.clear < failures w.faults.clear) w := by
  simp only [sfsClearBlock, checkBlkno, wp_bind, wp_getFs, wp_assert_pos valid]
  apply drawClear_spec.mono_done
  intro ok w' drawn
  obtain ⟨fs, later, failed⟩ := drawn
  cases ok with
  | true =>
    have after : w.Later { w' with fs := w'.fs.setBlock b zeroBlock } := later.withFs _ rfl
    simpa [fs] using after
  | false => simp [fs, later, failed rfl]

theorem sfsRbuf_spec {len offset : Nat} (inside : offset < blksize ∧ offset + len ≤ blksize) :
    (sfsRbuf len b offset).wp H
      (fun bytes w' => bytes = slice (w.fs.disk b) offset len ∧ w'.fs = w.fs ∧ w.Later w')
      w.IoFails w := by
  simp only [sfsRbuf, wp_bind, wp_assert_pos inside]
  apply (readBlock_spec valid).mono_done
  intro block w' read
  rw [read.1]
  exact ⟨rfl, read.2⟩

theorem sfsWbuf_spec {bytes : List UInt8} {offset : Nat}
    (inside : offset < blksize ∧ offset + bytes.length ≤ blksize) : (sfsWbuf bytes b offset).wp H
      (fun _ w' => w'.fs = w.fs.setBlock b (splice (w.fs.disk b) offset bytes) ∧ w.Later w')
      w.IoFails w := by
  simp only [sfsWbuf, wp_bind, wp_assert_pos inside]
  apply (readBlock_spec valid).mono_done
  intro block w' read
  obtain ⟨rfl, fs, later⟩ := read
  apply (writeBlock_spec (by rwa [fs])).mono
  · intro _ w'' written
    rw [fs] at written
    exact ⟨written.1, later.trans written.2⟩
  · intro e w'' failed
    exact ⟨failed.1, failed.2.1.trans fs, later.lost failed.2.2⟩

theorem sfsRblock_spec : (sfsRblock b).wp H
    (fun bytes w' => bytes = slice (w.fs.disk b) 0 blksize ∧ w'.fs = w.fs ∧ w.Later w') w.IoFails w := by
  simp only [sfsRblock, wp_bind]
  apply (readBlock_spec valid).mono_done
  intro block w' read
  rw [read.1]
  exact ⟨rfl, read.2⟩

end

end Rules

end Procore.Sfs
