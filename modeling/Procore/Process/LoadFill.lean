import Procore.Lib.Follow
import Procore.Process.LoadIcode

/-! # Loading into unset memory

`pgdir_alloc_page` does not clear the page it maps. A run in which every cell of a new
page is unset tells which cells the loader writes. The run on real memory follows it, and
has the previous contents of a page wherever a cell is still unset.
-/

namespace Procore.Process

open Procore.Lib Procore.Mm Prog Loader

variable {σ ε η : Type}

/-- The unset cells show what was in memory before. -/
def Loader.fill (prior : Nat → UInt8) (s : Loader σ (Option UInt8)) : Loader σ UInt8 where
  files := s.files
  free := s.free
  mem := s.mem
  vmas := s.vmas
  tables := s.tables
  mapped := s.mapped
  perm := s.perm
  cells a := (s.cells a).getD (prior a)

variable (rd : Reader σ ε η) {prior : Nat → UInt8}

abbrev Filled (prior : Nat → UInt8) {α : Type} (p : LoadM σ (Option UInt8) ε η α)
    (q : LoadM σ UInt8 ε η α) : Prop := Follows (fill prior) p q

theorem loadIcodeRead_filled (len : Nat) (offset : Int) :
    Filled prior (loadIcodeRead rd len offset) (loadIcodeRead rd len offset) := by
  intro s
  simp only [loadIcodeRead, fill]
  cases rd.read len offset s.files <;> rfl

theorem allocPage_filled : Filled prior (allocPage : LoadM σ _ ε η _) allocPage :=
  follows_get fun _ => follows_ite (fun _ => follows_fail _)
    fun _ => follows_modify fun _ => rfl

theorem freePage_filled : Filled prior (freePage : LoadM σ _ ε η _) freePage :=
  follows_modify fun _ => rfl

variable (perm : Perm)

theorem mapPage_filled (vpn : Nat) :
    Filled prior (mapPage (fun _ => none) perm vpn : LoadM σ _ ε η _) (mapPage prior perm vpn) := by
  refine follows_modify fun s => ?_
  simp only [fill, mk.injEq, true_and]
  refine ⟨rfl, funext fun a => ?_⟩
  split <;> rfl

theorem pgdirAllocPage_filled (la : Nat) :
    Filled prior (pgdirAllocPage (fun _ => none) perm la : LoadM σ _ ε η _)
      (pgdirAllocPage prior perm la) := by
  refine allocPage_filled.bind fun _ => follows_get fun s => ?_
  refine follows_ite (fun _ => mapPage_filled perm _) fun _ => follows_ite (fun _ => ?_) fun _ => ?_
  · exact freePage_filled.bind fun _ => follows_fail _
  · exact Follows.bind (follows_modify fun _ => rfl) fun _ => mapPage_filled perm _

theorem write_filled (addr : Nat) (bytes : List UInt8) :
    Filled prior (write some addr bytes : LoadM σ _ ε η _) (write id addr bytes) := by
  refine follows_modify fun s => ?_
  simp only [fill, mk.injEq, true_and]
  funext a
  cases bytes[a - addr]? with
  | none => rfl
  | some b => by_cases inside : addr ≤ a <;> simp [inside]

theorem kmalloc_filled : Filled prior (kmalloc : LoadM σ _ ε η _) kmalloc :=
  follows_get fun s => Follows.bind (follows_modify fun _ => rfl) fun _ =>
    follows_pure (s.mem.headD true)

theorem mmMap_filled (addr len : Nat) (flags : VmFlags) :
    Filled prior (mmMap addr len flags : LoadM σ _ ε η _) (mmMap addr len flags) := by
  refine kmalloc_filled.bind fun ok => follows_get fun s => ?_
  have same : (s.fill prior).vmas = s.vmas := rfl
  rw [same]
  rcases s.vmas.mmMap addr len flags ok with _ | ⟨code, stored, vmas⟩
  · exact follows_halt _
  · cases code with
    | ok => exact follows_modify fun _ => rfl
    | noMem | inval | io => exact follows_fail _

theorem copyLoop_filled (stop n start la offset : Nat) :
    Filled prior (copyLoop rd some (fun _ => none) perm stop n start la offset)
      (copyLoop rd id prior perm stop n start la offset) := by
  induction n generalizing start la offset with
  | zero => exact follows_pure _
  | succ n ih =>
    refine follows_ite (fun _ => ?_) fun _ => follows_pure _
    exact (pgdirAllocPage_filled perm la).bind fun _ => (loadIcodeRead_filled rd _ _).bind fun bytes =>
      (write_filled start bytes).bind fun _ => ih _ _ _

theorem bssLoop_filled (stop n start la : Nat) :
    Filled prior (bssLoop some (fun _ => none) perm stop n start la : LoadM σ _ ε η _)
      (bssLoop id prior perm stop n start la) := by
  induction n generalizing start la with
  | zero => exact follows_pure _
  | succ n ih =>
    refine follows_ite (fun _ => ?_) fun _ => follows_pure _
    exact (pgdirAllocPage_filled perm la).bind fun _ => (write_filled start _).bind fun _ => ih _ _

theorem clearRest_filled (start la stop : Nat) :
    Filled prior (clearRest some (fun _ => none) perm start la stop : LoadM σ _ ε η _)
      (clearRest id prior perm start la stop) := by
  refine follows_ite (fun _ => follows_ite (fun _ => follows_pure _) fun _ => ?_)
    fun _ => bssLoop_filled perm _ _ _ _
  exact (write_filled _ _).bind fun _ => (follows_assert _ _).bind fun _ =>
    bssLoop_filled perm _ _ _ _

theorem loadSegment_filled (ph : ProgHdr) :
    Filled prior (loadSegment rd some (fun _ => none) ph) (loadSegment rd id prior ph) :=
  (mmMap_filled _ _ _).bind fun _ => (copyLoop_filled rd _ _ _ _ _ _).bind fun _ =>
    clearRest_filled _ _ _ _

theorem loadHeaders_filled (phoff count i imageBrk : Nat) :
    Filled prior (loadHeaders rd some (fun _ => none) phoff count i imageBrk)
      (loadHeaders rd id prior phoff count i imageBrk) := by
  induction count generalizing i imageBrk with
  | zero => exact follows_pure _
  | succ count ih =>
    refine (loadIcodeRead_filled rd _ _).bind fun bytes => ?_
    refine follows_ite (fun _ => ih _ _) fun _ => ?_
    refine follows_ite (fun _ => follows_fail _) fun _ => ?_
    refine follows_ite (fun _ => follows_fail _) fun _ => ?_
    refine follows_ite (fun _ => ih _ _) fun _ => ?_
    exact (loadSegment_filled rd _).bind fun _ => ih _ _

theorem stackPage_filled (k : Nat) :
    Filled prior (stackPage (fun _ => none) k : LoadM σ _ ε η _) (stackPage prior k) := by
  refine (pgdirAllocPage_filled _ _).attempt.bind fun result => ?_
  cases result with
  | ok => exact follows_pure _
  | error => exact follows_halt _

theorem stackFault_filled (vpn : Nat) :
    Filled prior (stackFault some (fun _ => none) vpn : LoadM σ _ ε η _) (stackFault id prior vpn) := by
  refine follows_get fun s => follows_ite (fun _ => follows_pure _) fun _ => ?_
  refine follows_ite (fun _ => ?_) fun _ => follows_halt _
  refine (pgdirAllocPage_filled _ _).attempt.bind fun result => ?_
  cases result with
  | ok => exact write_filled _ _
  | error => exact follows_halt _

theorem store_filled (addr : Nat) (bytes : List UInt8) :
    Filled prior (store some (fun _ => none) addr bytes : LoadM σ _ ε η _) (store id prior addr bytes) := by
  induction bytes generalizing addr with
  | nil => exact follows_pure _
  | cons b bytes ih =>
    exact (stackFault_filled _).bind fun _ => (write_filled _ _).bind fun _ => ih _

theorem storeArgs_filled (top argv : Nat) (args : List KArg) (i size : Nat) :
    Filled prior (storeArgs some (fun _ => none) top argv args i size : LoadM σ _ ε η _)
      (storeArgs id prior top argv args i size) := by
  induction args generalizing i size with
  | nil => exact follows_pure _
  | cons arg args ih =>
    exact (store_filled _ _).bind fun _ => (store_filled _ _).bind fun _ => ih _ _

theorem setupStack_filled (args : List KArg) :
    Filled prior (setupStack some (fun _ => none) args : LoadM σ _ ε η _) (setupStack id prior args) :=
  (mmMap_filled _ _ _).bind fun _ => (stackPage_filled 1).bind fun _ => (stackPage_filled 2).bind fun _ =>
    (stackPage_filled 3).bind fun _ => (stackPage_filled 4).bind fun _ =>
    (storeArgs_filled _ _ _ _ _).bind fun _ => (store_filled _ _).bind fun _ => follows_pure _

theorem loadIcode_filled (args : List KArg) :
    Filled prior (loadIcode rd some (fun _ => none) args) (loadIcode rd id prior args) := by
  refine (follows_assert _ _).bind fun _ => kmalloc_filled.bind fun ok => ?_
  refine follows_ite (fun _ => ?_) fun _ => follows_fail _
  refine allocPage_filled.bind fun _ => (loadIcodeRead_filled rd _ _).bind fun elf => ?_
  refine follows_ite (fun _ => follows_fail _) fun _ => ?_
  refine (loadHeaders_filled rd _ _ _ _).bind fun _ => ?_
  refine Follows.bind (follows_modify fun _ => rfl) fun _ => ?_
  exact (setupStack_filled args).bind fun _ => follows_pure _

end Procore.Process
