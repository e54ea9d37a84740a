import Procore.Process.LoadLoops

/-! # What a loaded program finds in its pages

The cells that are unset after a load are those of the pages of the segments outside the
segments, and those of the four first pages of the stack outside the arguments. Two loads that
differ in the previous contents of the pages look the same exactly if these cells agree.
-/

namespace Procore.Process

open Procore.Lib Procore.Mm Loader ProgHdr List
open Prog (wp_assert wp_attempt wp_bind wp_fail wp_get wp_ite wp_modify wp_pure)

variable {σ ε η : Type}

section Segments

variable (rd : Reader σ ε η)

/-- The reads of the loop over the headers. The result is the segments that are loaded. -/
def scanHeaders (phoff : Nat) : Nat → Nat → Prog σ ε η (List ProgHdr)
  | 0, _ => pure []
  | count + 1, i => do
    let bytes ← rd.read proghdrSize (toOff (phoff + proghdrSize * i))
    let ph := decode bytes
    if ph.type ≠ ptLoad ∨ ph.filesz = 0 then scanHeaders phoff count (i + 1)
    else do
      let stop := ph.va + ph.filesz
      scanCopy rd stop (rounds ph.va stop) ph.va (roundDown ph.va) ph.offset
      let later ← scanHeaders phoff count (i + 1)
      pure (ph :: later)

def scan : Prog σ ε η (List ProgHdr) := do
  let elf ← rd.read elfhdrSize 0
  scanHeaders rd (ElfHdr.decode elf).phoff (ElfHdr.decode elf).phnum 0

/-- The segments of the file that are loaded. -/
def segments (files : σ) : List ProgHdr :=
  match scan rd files with
  | .done found _ => found
  | .failed _ _ => []
  | .halted _ => []

end Segments

/-- The address is in the pages that the stack begins with, outside the arguments. -/
def StackLeaves (args : List KArg) (a : Nat) : Prop :=
  (ustackTop - 4 * pgsize ≤ a ∧ a < ustackTop) ∧
    ¬ (uargv args - 4 ≤ a ∧ a < stackTop args + argvSize args)

/-- The addresses in the pages of a new program that the loader does not write. -/
def Unwritten (found : List ProgHdr) (args : List KArg) (a : Nat) : Prop :=
  (∃ ph ∈ found, ph.Leaves a) ∨ StackLeaves args a

/-- What the program reads at an address that is mapped. -/
def Loader.sees {β : Type} (s : Loader σ β) (a : Nat) : Option β :=
  if s.mapped (a / pgsize) then some (s.cells a) else none

section Headers

variable {s t u : Loader σ (Option UInt8)} {ph : ProgHdr} {found : List ProgHdr}
  {P : ProgHdr → Nat → UInt8 → Prop}

/-- The segments are loaded, and what was there before is as it was. -/
structure Areas (P : ProgHdr → Nat → UInt8 → Prop) (found : List ProgHdr)
    (s t : Loader σ (Option UInt8)) : Prop where
  tidy : t.Tidy
  hole : ∀ a, t.Hole a ↔ s.Hole a ∨ ∃ ph ∈ found, ph.Leaves a
  fits : ∀ ph ∈ found, ph.va + ph.memsz ≤ userTop
  old : ∀ v ∈ s.vmas.mmapList, v ∈ t.vmas.mmapList
  new : ∀ ph ∈ found, ∃ v ∈ t.vmas.mmapList, Asked ph.va ph.memsz ph.vmFlags v
  only : ∀ v ∈ t.vmas.mmapList, v ∈ s.vmas.mmapList ∨ ∃ ph ∈ found, Asked ph.va ph.memsz ph.vmFlags v
  same : ∀ a, s.vmas.Covers a → SameAt a s t
  has : ∀ ph ∈ found, ∀ a, ph.va ≤ a → a < ph.va + ph.memsz → HasAt (P ph) a t
  perm : ∀ ph ∈ found, ∀ a, ph.OnPage a → t.perm (a / pgsize) = pteP ||| ph.perm

theorem Areas.nil (tidy : s.Tidy) : Areas P [] s s :=
  ⟨tidy, by simp, nofun, fun _ old => old, nofun, fun _ old => .inl old, fun a _ => .refl a s, nofun, nofun⟩

theorem Areas.covers (areas : Areas P found s t) (mem : ph ∈ found) {a : Nat} (page : ph.OnPage a) :
    t.vmas.Covers a := by
  obtain ⟨v, listed, asked⟩ := areas.new ph mem
  exact ⟨v, listed, asked.holds.mpr page⟩

theorem Adds.areas (adds : Adds (P ph) ph s t) (tidy : s.Tidy) (small : ph.va + ph.memsz ≤ userTop)
    (later : Areas P found t u) : Areas P (ph :: found) s u where
  tidy := later.tidy
  hole a := by rw [later.hole, adds.hole tidy, exists_mem_cons_iff, or_assoc]
  fits := forall_mem_cons.mpr ⟨small, later.fits⟩
  old v listed := later.old v (adds.area.old v listed)
  new := by
    obtain ⟨v, listed, asked⟩ := adds.area.new
    exact forall_mem_cons.mpr ⟨⟨v, later.old v listed, asked⟩, later.new⟩
  only v listed := by
    rw [exists_mem_cons_iff]
    rcases later.only v listed with old | new
    · exact (adds.area.only v old).imp_right .inl
    · exact .inr (.inr new)
  same a covered := by
    obtain ⟨v, -, asked⟩ := adds.area.new
    refine (adds.other a fun page => ?_).trans (later.same a (adds.area.covers covered))
    exact adds.area.fresh v asked a (asked.holds.mpr page) covered
  has := by
    refine forall_mem_cons.mpr ⟨fun a low high => ?_, later.has⟩
    obtain ⟨v, listed, asked⟩ := adds.area.new
    have page := onPage_of_mem small low high
    exact (adds.has a low high).same (later.same a ⟨v, listed, asked.holds.mpr page⟩)
  perm := by
    refine forall_mem_cons.mpr ⟨fun a page => ?_, later.perm⟩
    obtain ⟨v, listed, asked⟩ := adds.area.new
    exact (later.same a ⟨v, listed, asked.holds.mpr page⟩).perm.trans (adds.perm a page)

theorem loadHeaders_returns {Place : Nat → Prop} {rd : Reader σ ε η}
    (gives : ∀ bytes, Gives rd (decode bytes) Place (P (decode bytes)))
    (phoff count i imageBrk : Nat) (tidy : s.Tidy) :
    Returns (loadHeaders rd some (fun _ => none) phoff count i imageBrk) (fun _ t =>
      ∃ found, scanHeaders rd phoff count i s.files = .done found t.files ∧ Areas P found s t) s := by
  induction count generalizing s i imageBrk with
  | zero => exact ⟨[], rfl, .nil tidy⟩
  | succ count ih =>
    simp only [loadHeaders, wp_bind]
    refine (loadIcodeRead_returns rd _ _).next ?_
    rintro bytes m ⟨-, read, same⟩
    have tidy' : m.Tidy := by
      rw [same]
      exact ⟨tidy.linked, tidy.ordered, tidy.heap, tidy.inside⟩
    have keep {found : List ProgHdr} {t : Loader σ (Option UInt8)} (areas : Areas P found m t) :
        Areas P found s t := by
      rw [same] at areas
      exact ⟨areas.tidy, areas.hole, areas.fits, areas.old, areas.new, areas.only,
        fun a covered => ⟨(areas.same a covered).1, (areas.same a covered).2, (areas.same a covered).3⟩,
        areas.has, areas.perm⟩
    -- A header that is skipped leaves no trace.
    have skip {brk : Nat} (none : (decode bytes).type ≠ ptLoad ∨ (decode bytes).filesz = 0) :
        Returns (loadHeaders rd some (fun _ => .none) phoff count (i + 1) brk) (fun _ t =>
          ∃ found, scanHeaders rd phoff (count + 1) i s.files = .done found t.files ∧ Areas P found s t) m := by
      refine (ih _ _ tidy').next ?_
      rintro _ t ⟨found, scanned, areas⟩
      exact ⟨found, by rwa [scanHeaders, Prog.bind_done read, if_pos none], keep areas⟩
    simp only [wp_ite]
    refine ⟨fun other => skip (.inl other), fun load => ⟨fun _ => trivial, fun fits => ⟨fun _ => trivial,
      fun inside => ⟨fun empty => skip (.inr empty), fun full => ?_⟩⟩⟩⟩
    rw [wp_bind]
    refine (loadSegment_returns (gives bytes) tidy' (Nat.pos_of_ne_zero full) (by omega) (by omega)).next ?_
    rintro _ u ⟨adds, copied⟩
    refine (ih _ _ adds.tidy).next ?_
    rintro _ t ⟨found, scanned, areas⟩
    refine ⟨decode bytes :: found, ?_, keep (adds.areas tidy' (by omega) areas)⟩
    rw [scanHeaders, Prog.bind_done read, if_neg (not_or.mpr ⟨load, full⟩), Prog.bind_done copied,
      Prog.bind_done scanned]
    rfl

end Headers

section Stack

variable {s t u : Loader σ (Option UInt8)}

/-- The address is not in the area of the stack. -/
def OutOfStack (a : Nat) : Prop := a < ustackTop - ustackSize ∨ ustackTop ≤ a

/-- The areas are as they were, and so is what lies outside the stack. -/
structure InStack (s t : Loader σ (Option UInt8)) : Prop where
  vmas : t.vmas = s.vmas
  same : ∀ a, OutOfStack a → SameAt a s t

theorem InStack.refl (s : Loader σ (Option UInt8)) : InStack s s := ⟨rfl, fun a _ => .refl a s⟩

theorem InStack.trans (first : InStack s t) (later : InStack t u) : InStack s u :=
  ⟨later.vmas.trans first.vmas, fun a out => (first.same a out).trans (later.same a out)⟩

/-- The bytes of the range are written, in the stack, and no others. -/
structure Stored (range : Nat → Prop) (s t : Loader σ (Option UInt8)) : Prop where
  hole : ∀ a, t.Hole a ↔ s.Hole a ∧ ¬ range a
  stack : InStack s t
  kept : ∀ a, s.mapped (a / pgsize) = true → ¬ range a → SameAt a s t

variable {range : Nat → Prop} {range' : Nat → Prop}

theorem Stored.trans (first : Stored range s t) (later : Stored range' t u) :
    Stored (fun a => range a ∨ range' a) s u where
  hole a := by
    rw [later.hole, first.hole]
    grind
  stack := first.stack.trans later.stack
  kept a mapped out :=
    have same := first.kept a mapped fun inside => out (.inl inside)
    same.trans (later.kept a (same.mapped.trans mapped) fun inside => out (.inr inside))

theorem Stored.congr (stored : Stored range s t) (same : ∀ a, range a ↔ range' a) :
    Stored range' s t := by
  rwa [← funext fun a => propext (same a)]

/-- The bytes are in memory, from `addr` on. -/
def Loader.Has (s : Loader σ (Option UInt8)) (addr : Nat) (bytes : List UInt8) : Prop :=
  ∀ k b, bytes[k]? = some b → s.mapped ((addr + k) / pgsize) = true ∧ s.cells (addr + k) = some b

theorem Loader.Has.keep {addr : Nat} {bytes : List UInt8} (has : s.Has addr bytes)
    (stored : Stored range s t) (out : ∀ a, addr ≤ a ∧ a < addr + bytes.length → ¬ range a) :
    t.Has addr bytes := by
  intro k b found
  obtain ⟨mapped, cell⟩ := has k b found
  have inside := (List.getElem?_eq_some_iff.mp found).1
  have same := stored.kept _ mapped (out _ ⟨Nat.le_add_right _ _, Nat.add_lt_add_left inside _⟩)
  exact ⟨same.mapped.trans mapped, same.cells.trans cell⟩

/-- Each string, from `top` on, and the pointers to them, from `argv` on. -/
def Loader.HasArgs (s : Loader σ (Option UInt8)) (top argv : Nat) (args : List KArg) : Prop :=
  ∀ j arg, args[j]? = some arg → s.Has (top + argvSize (args.take j)) (arg.val.bytes ++ [0]) ∧
    s.Has (argv + 4 * j) (le 4 (top + argvSize (args.take j)))

/-- The area of the stack, the strings and the pointers to them, and their number at the stack
    pointer. -/
structure Loader.HasStack (s : Loader σ (Option UInt8)) (args : List KArg) (esp : Nat) : Prop where
  area : ∃ v ∈ s.vmas.mmapList, v.start = ustackTop - ustackSize ∧ v.stop = ustackTop
  arguments : s.HasArgs (stackTop args) (uargv args) args
  pointer : esp = uargv args - 4
  argc : s.Has esp (le 4 args.length)

theorem stackPage_returns (k : Nat) (low : 1 ≤ k) (high : k ≤ 4) :
    Returns (stackPage (fun _ => none) k : LoadM σ _ ε η _)
      (fun _ t => Paged pteUser (ustackTop - k * pgsize) s t ∧ InStack s t) s := by
  simp only [stackPage, wp_bind, wp_attempt]
  refine (pgdirAllocPage_returns _ _).next ?_
  rintro _ t ⟨_, paged⟩
  refine ⟨paged, paged.vmas, fun a out => ?_⟩
  refine paged.other a ?_
  simp only [OutOfStack, ustackTop, userTop, ustackSize, pgsize] at *
  omega

theorem stackFault_returns (vpn : Nat) :
    Returns (stackFault some (fun _ => none) vpn : LoadM σ _ ε η _)
      (fun _ t => Stored (fun _ => False) s t ∧ t.mapped vpn = true) s := by
  simp only [stackFault, wp_bind, wp_ite,
    Prog.wp_halt, implies_true, and_true, wp_attempt]
  refine ⟨fun present => ⟨⟨by simp, .refl s, fun a _ _ => .refl a s⟩, present⟩, fun absent inside => ?_⟩
  refine (pgdirAllocPage_returns _ _).next ?_
  rintro _ m ⟨_, paged⟩
  refine (write_returns _ _).next ?_
  rintro _ t ⟨_, written⟩
  have page (a : Nat) : a / pgsize = vpn * pgsize / pgsize ↔ vpn * pgsize ≤ a ∧ a < vpn * pgsize + pgsize := by
    simp only [pgsize]
    omega
  have number : vpn * pgsize / pgsize = vpn := Nat.mul_div_cancel _ (by decide)
  have apart (a : Nat) (out : a / pgsize ≠ vpn * pgsize / pgsize) : SameAt a s t :=
    (paged.other a out).trans (written.other a (by rwa [length_replicate, ← page]))
  have other (a : Nat) (mapped : s.mapped (a / pgsize) = true) : a / pgsize ≠ vpn * pgsize / pgsize :=
    fun here => absent (number ▸ here ▸ mapped)
  refine ⟨⟨fun a => ?_, ⟨written.vmas.trans paged.vmas, fun a out => apart a ?_⟩,
    fun a mapped _ => apart a (other a mapped)⟩, ?_⟩
  · have old (hole : s.Hole a) := other a hole.1
    rw [written.hole, length_replicate, paged.hole, ← page]
    grind
  · simp only [OutOfStack, ustackTop, userTop, pgsize] at *
    omega
  · rw [written.mapped]
    exact number ▸ (paged.here _ rfl).1

theorem store_returns (addr : Nat) (bytes : List UInt8) (low : ustackTop - ustackSize ≤ addr)
    (high : addr + bytes.length ≤ ustackTop) :
    Returns (store some (fun _ => none) addr bytes : LoadM σ _ ε η _)
      (fun _ t => Stored (fun a => addr ≤ a ∧ a < addr + bytes.length) s t ∧ t.Has addr bytes) s := by
  induction bytes generalizing s addr with
  | nil => exact ⟨⟨by simp, .refl s, fun a _ _ => .refl a s⟩, by simp [Has]⟩
  | cons b bytes ih =>
    rw [length_cons] at high ⊢
    simp only [store, wp_bind]
    refine (stackFault_returns _).next ?_
    rintro _ m ⟨fault, mapped⟩
    refine (write_returns addr [b]).next ?_
    rintro _ u ⟨_, written⟩
    refine (ih _ (by omega) (by omega)).next ?_
    rintro _ t ⟨later, has⟩
    have one : Stored (fun a => addr ≤ a ∧ a < addr + 1) m u := by
      refine ⟨fun a => written.hole, ⟨written.vmas, fun a out => written.other a ?_⟩,
        fun a _ out => written.other a out⟩
      rw [length_singleton]
      unfold OutOfStack at out
      omega
    refine ⟨(fault.trans (one.trans later)).congr fun a => by grind, fun k c found => ?_⟩
    cases k with
    | zero =>
      obtain rfl : b = c := by simpa using found
      have same := later.kept addr (written.mapped ▸ mapped) (by omega)
      exact ⟨same.mapped.trans (written.mapped ▸ mapped),
        same.cells.trans (written.here addr b (le_refl _) (by simp))⟩
    | succ k =>
      rw [Nat.add_comm k 1, ← Nat.add_assoc]
      exact has k c found

theorem storeArgs_returns (top argv : Nat) (args : List KArg) (i size : Nat)
    (low : ustackTop - ustackSize ≤ argv) (high : top + size + argvSize args ≤ ustackTop)
    (pointers : argv + 4 * (i + args.length) ≤ top) :
    Returns (storeArgs some (fun _ => none) top argv args i size : LoadM σ _ ε η _)
      (fun _ t => Stored (fun a => top + size ≤ a ∧ a < top + size + argvSize args ∨
          argv + 4 * i ≤ a ∧ a < argv + 4 * (i + args.length)) s t ∧
        t.HasArgs (top + size) (argv + 4 * i) args) s := by
  induction args generalizing s i size with
  | nil =>
    refine ⟨⟨by simp [argvSize], .refl s, fun a _ _ => .refl a s⟩, ?_⟩
    rintro j arg found
    cases found
  | cons arg args ih =>
    have sum : argvSize (arg :: args) = arg.val.bytes.length + 1 + argvSize args := rfl
    have length : (arg.val.bytes ++ [0]).length = arg.val.bytes.length + 1 := by simp
    rw [length_cons] at pointers
    simp only [storeArgs, wp_bind]
    refine (store_returns _ _ (by omega) (by omega)).next ?_
    rintro _ m ⟨first, string⟩
    refine (store_returns _ _ (by omega) (by rw [length_le]; omega)).next ?_
    rintro _ u ⟨second, pointer⟩
    have fits : top + (size + arg.val.bytes.length + 1) + argvSize args ≤ ustackTop := by
      omega
    refine (ih _ _ fits (by omega)).next ?_
    rintro _ t ⟨later, rest⟩
    rw [length_le] at second
    refine ⟨(first.trans (second.trans later)).congr fun a => ?_, fun j x found => ?_⟩
    · rw [sum, length_cons]
      omega
    cases j with
    | zero =>
      obtain rfl : arg = x := by simpa using found
      refine ⟨(string.keep second fun a => ?_).keep later fun a => ?_, pointer.keep later fun a => ?_⟩
      · omega
      · omega
      · rw [length_le]
        omega
    | succ j =>
      have before : argvSize ((arg :: args).take (j + 1)) =
          arg.val.bytes.length + 1 + argvSize (args.take j) := rfl
      have start : top + size + argvSize ((arg :: args).take (j + 1)) =
          top + (size + arg.val.bytes.length + 1) + argvSize (args.take j) := by omega
      have place : argv + 4 * i + 4 * (j + 1) = argv + 4 * (i + 1) + 4 * j := by omega
      rw [start, place]
      exact rest j x found

theorem argvSize_le (args : List KArg) : argvSize args ≤ args.length * (execMaxArgLen + 1) := by
  induction args with
  | nil => exact le_rfl
  | cons arg args ih =>
    have sum : argvSize (arg :: args) = arg.val.length + 1 + argvSize args := rfl
    rw [sum, length_cons, Nat.succ_mul]
    omega

theorem setupStack_returns (args : List KArg) (tidy : s.Tidy) (few : args.length ≤ execMaxArgNum) :
    Returns (setupStack some (fun _ => none) args : LoadM σ _ ε η _) (fun esp t =>
      (∀ a, t.Hole a ↔ s.Hole a ∨ StackLeaves args a) ∧
      (∀ v ∈ s.vmas.mmapList, v ∈ t.vmas.mmapList) ∧
      (∀ v ∈ t.vmas.mmapList, v ∈ s.vmas.mmapList ∨ v.flags = vmRead ||| vmWrite ||| vmStack) ∧
      (∀ a, s.vmas.Covers a → SameAt a s t) ∧ t.HasStack args esp) s := by
  have size := argvSize_le args
  have ⟨low, top, pointers, strings, words⟩ : ustackTop - ustackSize ≤ uargv args - 4 ∧
      uargv args ≤ stackTop args ∧ uargv args + 4 * args.length = stackTop args ∧
      stackTop args + argvSize args ≤ ustackTop ∧ uargv args - 4 + 4 = uargv args := by
    simp only [uargv, stackTop, ustackSize, ustackTop, userTop, execMaxArgNum, execMaxArgLen,
      pgsize] at *
    omega
  simp only [setupStack, wp_bind]
  refine (mmMap_returns tidy (by decide)).next ?_
  rintro _ m ⟨-, -, same, area⟩
  obtain ⟨v, listed, begins, ends, flags⟩ := area.new
  have outside (a : Nat) (covered : s.vmas.Covers a) : OutOfStack a := by
    have low : v.start = ustackTop - ustackSize := begins.trans (by decide)
    have high : v.stop = ustackTop := ends.trans (by decide)
    have out : ¬ v.Holds a := fun holds => area.fresh v ⟨begins, ends, flags⟩ a holds covered
    rw [Vma.Holds, low, high] at out
    unfold OutOfStack
    omega
  refine (stackPage_returns 1 (by decide) (by decide)).next ?_
  rintro _ m₁ ⟨page₁, in₁⟩
  refine (stackPage_returns 2 (by decide) (by decide)).next ?_
  rintro _ m₂ ⟨page₂, in₂⟩
  refine (stackPage_returns 3 (by decide) (by decide)).next ?_
  rintro _ m₃ ⟨page₃, in₃⟩
  refine (stackPage_returns 4 (by decide) (by decide)).next ?_
  rintro _ m₄ ⟨page₄, in₄⟩
  refine (storeArgs_returns _ _ _ _ _ (by omega) (by omega) (by omega)).next ?_
  rintro _ u ⟨stored, arguments⟩
  refine (store_returns _ _ low (by rw [length_le]; omega)).next ?_
  rintro _ t ⟨last, argc⟩
  have all := in₁.trans (in₂.trans (in₃.trans (in₄.trans (stored.stack.trans last.stack))))
  have covered (a : Nat) (before : s.vmas.Covers a) : SameAt a s t :=
    (same a).trans (all.same a (outside a before))
  refine ⟨fun a => ?_, all.vmas ▸ area.old,
    all.vmas ▸ fun v found => (area.only v found).imp_right fun asked => asked.2.2, covered,
    ⟨v, all.vmas ▸ listed, begins.trans (by decide), ends.trans (by decide)⟩, fun j arg found => ?_, rfl, argc⟩
  have pages : m₄.Hole a ↔ s.Hole a ∨ ustackTop - 4 * pgsize ≤ a ∧ a < ustackTop := by
    rw [page₄.hole, page₃.hole, page₂.hole, page₁.hole, (same a).hole]
    simp only [ustackTop, userTop, pgsize]
    grind
  -- The arguments lie in the area of the stack.
  have old (hole : s.Hole a) : ¬ (uargv args - 4 ≤ a ∧ a < stackTop args + argvSize args) := by
    have out := outside _ (tidy.inside _ hole.1)
    simp only [OutOfStack, ustackTop, userTop, ustackSize, pgsize] at *
    omega
  · rw [last.hole, stored.hole, pages, length_le, StackLeaves]
    grind
  · obtain ⟨string, pointer⟩ := arguments j arg found
    rw [length_le] at last
    exact ⟨string.keep last fun a => by omega, pointer.keep last fun a => by omega⟩

theorem loadIcode_returns {P : ProgHdr → Nat → UInt8 → Prop} {Place : Nat → Prop} {rd : Reader σ ε η}
    (gives : ∀ bytes, Gives rd (decode bytes) Place (P (decode bytes)))
    (args : List KArg) (files : σ) (free : Nat) (mem : List Bool) :
    Returns (loadIcode rd some (fun _ => none) args) (fun tf t =>
      (∃ files', scan rd files = .done (segments rd files) files') ∧
      (∀ a, t.Hole a ↔ Unwritten (segments rd files) args a) ∧
      (∀ v ∈ t.vmas.mmapList, (∃ ph ∈ segments rd files, Asked ph.va ph.memsz ph.vmFlags v) ∨
        v.flags = vmRead ||| vmWrite ||| vmStack) ∧
      (∀ ph ∈ segments rd files, ph.va + ph.memsz ≤ userTop ∧
        (∃ v ∈ t.vmas.mmapList, Asked ph.va ph.memsz ph.vmFlags v) ∧
        (∀ a, ph.va ≤ a → a < ph.va + ph.memsz → HasAt (P ph) a t) ∧
        ∀ a, ph.OnPage a → t.perm (a / pgsize) = pteP ||| ph.perm) ∧
      args.length ≤ execMaxArgNum ∧ t.HasStack args tf.tfEsp)
      (start files free mem fun _ => none) := by
  simp only [loadIcode, allocPage, wp_bind, wp_assert, wp_ite, wp_fail, implies_true, and_true, true_and,
    decide_eq_true_eq]
  intro few _ _
  refine (loadIcodeRead_returns rd _ _).next ?_
  rintro elf m ⟨-, read, same⟩ _
  have tidy : m.Tidy := by
    rw [same]
    refine ⟨Vmas.create_linked userBase, ordered_nil, rfl, ?_⟩
    intro a paged
    cases paged
  refine (loadHeaders_returns gives _ _ _ _ tidy).next ?_
  rintro _ u ⟨found, scanned, areas⟩
  have header : rd.read elfhdrSize 0 files = .done elf m.files := read
  have all : scan rd files = .done found u.files := by rw [scan, Prog.bind_done header, scanned]
  have segs : segments rd files = found := by rw [segments, all]
  rw [segs]
  have keep (brk : Nat) : Tidy { u with vmas := { u.vmas with startBrk := brk, brk := brk } } := by
    refine ⟨?_, areas.tidy.ordered, areas.tidy.heap, areas.tidy.inside⟩
    refine areas.tidy.linked.keep rfl rfl rfl areas.tidy.linked.cache fun id named => ?_
    cases areas.tidy.heap.symm.trans named
  refine (setupStack_returns args (keep _) few).next ?_
  rintro esp t ⟨stack, old, only, covered, arguments⟩
  refine ⟨⟨u.files, all⟩, fun a => ?_, fun v listed => ?_, fun ph mem => ?_, few, arguments⟩
  · have before : ¬ m.Hole a := fun hole => by
      rw [same] at hole
      cases hole.1
    have here : u.Hole a ↔ ∃ ph ∈ found, ph.Leaves a := by rw [areas.hole, or_iff_right before]
    rw [stack, Unwritten, ← here, Loader.Hole, Loader.Hole]
  · refine (only v listed).imp_left fun before => (areas.only v before).resolve_left fun first => ?_
    rw [same] at first
    cases first
  · obtain ⟨v, listed, asked⟩ := areas.new ph mem
    have kept {a : Nat} (page : ph.OnPage a) : SameAt a u t := by
      obtain ⟨w, on, holds⟩ := areas.covers mem page
      obtain ⟨mapped, cells, perm⟩ := covered a ⟨w, on, holds⟩
      exact ⟨mapped, cells, perm⟩
    refine ⟨areas.fits ph mem, ⟨v, old v listed, asked⟩, fun a low high => ?_, fun a page => ?_⟩
    · exact (areas.has ph mem a low high).same (kept (onPage_of_mem (areas.fits ph mem) low high))
    · exact (kept page).perm.trans (areas.perm ph mem a page)

end Stack

section Result

variable (rd : Reader σ ε η) (args : List KArg) (files : σ) (free : Nat) (mem : List Bool)

/-- `load_icode` when the page that is given for an address has held `prior` there. -/
def load (prior : Nat → UInt8) : Outcome (Loader σ UInt8) (LoadError ε) (LoadHalt η) Trapframe :=
  loadIcode rd id prior args (start files free mem prior)

theorem gives_any (ph : ProgHdr) : Gives rd ph (fun _ => True) fun _ _ => True :=
  ⟨trivial, fun _ _ _ _ _ _ _ _ _ _ => ⟨trivial, fun _ _ _ _ => trivial⟩, fun _ _ => trivial⟩

theorem load_eq (prior : Nat → UInt8) : load rd args files free mem prior =
    (loadIcode rd some (fun _ => none) args (start files free mem fun _ => none)).mapState
      (fill prior) :=
  loadIcode_filled rd args (start files free mem fun _ => none)

/-- A load that returns has filled the holes that it leaves. -/
theorem load_done {prior : Nat → UInt8} {tf : Trapframe} {t : Loader σ UInt8}
    (run : load rd args files free mem prior = .done tf t) :
    ∃ u, loadIcode rd some (fun _ => none) args (start files free mem fun _ => none) = .done tf u ∧
      t = u.fill prior := by
  rw [load_eq] at run
  cases shadow : loadIcode rd some (fun _ => none) args (start files free mem fun _ => none) with
  | done tf' u =>
    rw [shadow] at run
    cases run
    exact ⟨u, rfl, rfl⟩
  | failed e u | halted reason =>
    rw [shadow] at run
    cases run

/-- A load gives the same pages whatever they have held, and the program sees a difference
    exactly at the addresses that are not written. -/
theorem load_sees_iff (prior prior' : Nat → UInt8) {tf : Trapframe} {t : Loader σ UInt8}
    (run : load rd args files free mem prior = .done tf t) :
    ∃ t', load rd args files free mem prior' = .done tf t' ∧ t'.vmas = t.vmas ∧
      t'.mapped = t.mapped ∧ ((∀ a, t.sees a = t'.sees a) ↔
        ∀ a, Unwritten (segments rd files) args a → prior a = prior' a) := by
  have ensured := loadIcode_returns (P := fun _ _ _ => True) (fun _ => gives_any rd _) args files free mem
  obtain ⟨u, shadow, rfl⟩ := load_done rd args files free mem run
  obtain ⟨-, holes, -⟩ := ensured.done shadow
  refine ⟨u.fill prior', by rw [load_eq, shadow]; rfl, rfl, rfl, forall_congr' fun a => ?_⟩
  rw [← holes]
  simp only [sees, fill, Loader.Hole]
  by_cases present : u.mapped (a / pgsize) = true
  · cases u.cells a <;> simp [present]
  · simp [present]

end Result

def Reader.ofImage (image : List UInt8) : Reader Unit Unit Empty where
  read len offset := fun s =>
    if 0 ≤ offset ∧ ((image.drop offset.toNat).take len).length = len then
      .done ((image.drop offset.toNat).take len) s
    else .failed () s
  full := by
    intro len offset s bytes t ran
    split at ran
    · rename_i fits
      cases ran
      exact fits.2
    · cases ran

/-- An executable with one segment of four bytes, at 0x800020. -/
def smallImage : List UInt8 :=
  le 4 elfMagic ++ le 20 0 ++ le 4 0x800020 ++ le 4 52 ++ le 12 0 ++ le 2 1 ++ le 6 0 ++
    le 4 ptLoad ++ le 4 84 ++ le 4 0x800020 ++ le 4 0 ++ le 4 4 ++ le 4 4 ++ le 4 5 ++ le 4 0 ++
    [0xb8, 0, 0, 0xc3]

theorem a_terminated : (0 : UInt8) ∉ [97] := by decide

theorem a_short : CStr.length ⟨[97], a_terminated⟩ ≤ execMaxArgLen := by decide

/-- The argument vector of a program "a" that is called with its name only. -/
def oneArg : List KArg := [⟨⟨[97], a_terminated⟩, a_short⟩]

/-- The two supplies of pages differ only where the segment is loaded. -/
theorem load_sees_iff_smallImage : ∃ t t',
    load (.ofImage smallImage) oneArg () 10 [] (fun _ => 0) = .done ⟨0x800020, ustackTop - 12⟩ t ∧
    load (.ofImage smallImage) oneArg () 10 [] (fun a => if 0x800020 ≤ a ∧ a < 0x800024 then 7 else 0) =
      .done ⟨0x800020, ustackTop - 12⟩ t' ∧ ∀ a, t.sees a = t'.sees a := by
  have ends : (load (.ofImage smallImage) oneArg () 10 [] fun _ => 0).ends
      (fun tf _ => tf = ⟨0x800020, ustackTop - 12⟩) = true := by decide +kernel
  have found : (segments (.ofImage smallImage) ()).all (fun ph => ph.va = 0x800020 ∧ ph.memsz = 4) = true := by
    decide +kernel
  obtain ⟨tf, t, run, same⟩ := Outcome.ends_iff.mp ends
  obtain rfl := of_decide_eq_true same
  obtain ⟨t', run', -, -, sees⟩ := load_sees_iff _ _ _ _ _ _ _ run
  refine ⟨t, t', run, run', sees.mpr fun a unwritten => (if_neg fun inside => ?_).symm⟩
  rcases unwritten with ⟨ph, mem, -, outside⟩ | ⟨stack, -⟩
  · have segment := of_decide_eq_true (List.all_eq_true.mp found ph mem)
    exact outside (by omega)
  · simp only [ustackTop, userTop, pgsize] at stack
    omega

/-- The last byte of the stack shows what the page has held before. -/
theorem load_shows_prior_contents : ∃ t t',
    load (.ofImage smallImage) oneArg () 10 [] (fun _ => 0) = .done ⟨0x800020, ustackTop - 12⟩ t ∧
    load (.ofImage smallImage) oneArg () 10 [] (fun _ => 7) = .done ⟨0x800020, ustackTop - 12⟩ t' ∧
    t.sees (ustackTop - 1) = some 0 ∧ t'.sees (ustackTop - 1) = some 7 := by
  have ends (b : UInt8) (known : b = 0 ∨ b = 7) :
      (load (.ofImage smallImage) oneArg () 10 [] fun _ => b).ends
        (fun tf t => tf = ⟨0x800020, ustackTop - 12⟩ ∧ t.sees (ustackTop - 1) = some b) = true := by
    rcases known with rfl | rfl <;> decide +kernel
  obtain ⟨tf, t, run, facts⟩ := Outcome.ends_iff.mp (ends 0 (.inl rfl))
  obtain ⟨tf', t', run', facts'⟩ := Outcome.ends_iff.mp (ends 7 (.inr rfl))
  obtain ⟨rfl, low⟩ := of_decide_eq_true facts
  obtain ⟨rfl, high⟩ := of_decide_eq_true facts'
  exact ⟨t, t', run, run', low, high⟩

end Procore.Process
