import Procore.Mm.Fork

/-! # Every operation is a sequence of moves

What an operation may do depends on the state it finds. A fork needs free frames
for the tables of the child; an address space that ends must be the owner only of
pages that it unlinks; an operation that makes a page writable must be alone with
it.
-/

namespace Procore.Mm

open Procore.Lib Option Vmas

namespace Vm

variable {A : Allow} {s t : Vm} {i vpn p : Nat} {m : MmStruct} {frames : List Nat} {op : VmOp}
  {flags : VmFlags}

/-- The owner of every linked page is there. -/
def Owned (s : Vm) : Prop := ∀ p ∈ s.fifo, ∃ i, (s.frame p).praMm = some i ∧ (s.mm i).isSome = true

/-- A fork finds free frames for the child's tables. -/
def Room (s : Vm) : VmOp → Prop
  | .fork i _ _ => s.ForkRoom i
  | _ => True

/-- An address space that ends owns no page that it leaves on the replacement list. -/
def Clear (s : Vm) : VmOp → Prop
  | .exit i => s.ExitClear i
  | _ => True

/-- No other entry names a hidden page that becomes accessible again. -/
def Alone (s : Vm) : Pte → Prop
  | .hidden p _ false => s.ref p = 1
  | _ => True

/-- No other entry names a page that becomes writable. -/
def Grants (s : Vm) : Pte → Prop
  | .present p write false => write = true ∨ s.ref p = 1
  | e => s.Alone e

/-- Pages become writable only where no other entry names them. -/
def Private (s : Vm) : VmOp → Prop
  | .mprotect i addr len flags _ _ =>
    flags &&& vmWrite ≠ 0 → ∀ vpn ∈ pagesOf addr (roundUp ((addr + len) % word)), s.Grants (s.entry i vpn)
  | .fault i addr _ _ _ =>
    ∀ m ∈ s.mm i, ∀ v ∈ (m.vmas.findVma addr).1, v.flags &&& vmWrite ≠ 0 →
      s.Alone (s.entry i (addr / pgsize))
  | _ => True

instance (s : Vm) : (op : VmOp) → Decidable (s.Room op)
  | .fork i _ _ => inferInstanceAs (Decidable (s.ForkRoom i))
  | .create .. | .fault .. | .store .. | .mmap .. | .munmap .. | .mprotect .. | .madvise .. | .brk ..
  | .swapOut .. | .exit .. => isTrue trivial

instance (s : Vm) : (op : VmOp) → Decidable (s.Clear op)
  | .exit i => inferInstanceAs (Decidable (s.ExitClear i))
  | .create .. | .fault .. | .store .. | .mmap .. | .munmap .. | .mprotect .. | .madvise .. | .brk ..
  | .swapOut .. | .fork .. => isTrue trivial

instance (s : Vm) : (e : Pte) → Decidable (s.Alone e)
  | .hidden p _ false => inferInstanceAs (Decidable (s.ref p = 1))
  | .hidden _ _ true | .none | .present .. | .swap _ => isTrue trivial

instance (s : Vm) : (e : Pte) → Decidable (s.Grants e)
  | .present p write false => inferInstanceAs (Decidable (write = true ∨ s.ref p = 1))
  | .hidden p write cow => inferInstanceAs (Decidable (s.Alone (.hidden p write cow)))
  | .present _ _ true | .none | .swap _ => isTrue trivial

instance (s : Vm) : (op : VmOp) → Decidable (s.Private op)
  | .mprotect i _ _ _ _ _ => inferInstanceAs (Decidable (_ → ∀ vpn ∈ pagesOf _ _, s.Grants (s.entry i vpn)))
  | .fault i _ _ _ _ => inferInstanceAs (Decidable (∀ m ∈ s.mm i, ∀ v ∈ _, _ → s.Alone _))
  | .create .. | .store .. | .mmap .. | .munmap .. | .madvise .. | .brk .. | .fork .. | .swapOut ..
  | .exit .. => isTrue trivial

/-- Operations that keep the contents of all pages. -/
def Quiet : VmOp → Prop
  | .fault .. | .mmap .. | .mprotect .. | .swapOut .. => True
  | _ => False

/-- The entry after `mm_mprotect`, if it names a page. -/
theorem protectPte_spec (i vpn : Nat) (flags : VmFlags)
    (granted : flags &&& vmWrite ≠ 0 → A.loose ∨ s.Grants (s.entry i vpn)) :
    Moves A s (s.protectPte i flags vpn) ∧
      (∀ v, v ≠ vpn → (s.protectPte i flags vpn).entry i v = s.entry i v) ∧
      ∀ q, (s.protectPte i flags vpn).ref q = s.ref q := by
  have frame {e : Pte} : (∀ v, v ≠ vpn → (s.setEntry i vpn e).entry i v = s.entry i v) ∧
      ∀ q, (s.setEntry i vpn e).ref q = s.ref q := by
    refine ⟨fun v other => ?_, fun _ => rfl⟩
    rw [entry_setEntry, if_neg (fun here => other here.2.2)]
  have retype {e : Pte} {p : Nat} (old : (s.entry i vpn).page = some p) (new : e.page = some p)
      (grant : e.writable = true →
        (s.entry i vpn).writable = true ∨ (s.frame p).ref = 1 ∨ A.loose) :
      Moves A s (s.setEntry i vpn e) ∧ (∀ v, v ≠ vpn → (s.setEntry i vpn e).entry i v = s.entry i v) ∧
        ∀ q, (s.setEntry i vpn e).ref q = s.ref q :=
    ⟨(Move.retype i vpn p e old new grant).moves, frame⟩
  rw [protectPte]
  split
  · rename_i p write cow there
    split
    · exact retype (by rw [there]; rfl) rfl (by simp [Pte.writable])
    refine retype (by rw [there]; rfl) rfl ?_
    intro writable
    simp only [Pte.writable, Bool.and_eq_true, decide_eq_true_eq, Bool.not_eq_true'] at writable
    obtain ⟨write', rfl⟩ := writable
    rcases granted write' with loose | grants
    · exact .inr (.inr loose)
    · rw [there] at grants ⊢
      rcases grants with already | sole
      · exact .inl already
      · exact .inr (.inl sole)
  · rename_i p write cow there
    split
    · exact ⟨.refl, fun _ _ => rfl, fun _ => rfl⟩
    refine retype (by rw [there]; rfl) rfl ?_
    intro writable
    simp only [Pte.writable, Bool.and_eq_true, decide_eq_true_eq, Bool.not_eq_true'] at writable
    obtain ⟨write', rfl⟩ := writable
    rcases granted write' with loose | grants
    · exact .inr (.inr loose)
    · rw [there] at grants
      exact .inr (.inl grants)
  · exact ⟨.refl, fun _ _ => rfl, fun _ => rfl⟩

theorem grants_congr {e : Pte} (refs : ∀ q, t.ref q = s.ref q) : t.Grants e ↔ s.Grants e := by
  cases e with
  | none => rfl
  | swap slot => rfl
  | present p write cow | hidden p write cow => cases cow <;> simp [Grants, Alone, refs]

theorem protectPtes_moves {vpns : List Nat} (nodup : vpns.Nodup)
    (granted : flags &&& vmWrite ≠ 0 → A.loose ∨ ∀ vpn ∈ vpns, s.Grants (s.entry i vpn)) :
    Moves A s (vpns.foldl (fun s vpn => s.protectPte i flags vpn) s) := by
  induction vpns generalizing s with
  | nil => exact .refl
  | cons vpn vpns ih =>
    obtain ⟨fresh, nodup⟩ := List.nodup_cons.mp nodup
    obtain ⟨moves, entries, refs⟩ := protectPte_spec i vpn flags
      (fun write => (granted write).imp id fun grants => grants vpn (.head _))
    apply moves.trans
    apply ih nodup
    intro write
    refine (granted write).imp id fun grants v mem => ?_
    rw [grants_congr refs, entries v (fun same => fresh (same ▸ mem))]
    exact grants v (.tail _ mem)

theorem mmMprotect_moves {addr len : Nat} {memLeft memRight : Bool} (h : s.Sound frames)
    (granted : A.loose ∨ s.Private (.mprotect i addr len flags memLeft memRight))
    (done : s.mmMprotect i addr len flags memLeft memRight = some t) : Moves A s t := by
  rw [mmMprotect] at done
  split at done
  · cases done
  rename_i m alive
  have kept : Kept True m.vmas (m.vmas.mmMprotect addr len flags memLeft memRight).2 [] :=
    mmMprotect_kept (h.shape.mm i m alive).linked rfl
  have move : Move A s (s.setVmas i (m.vmas.mmMprotect addr len flags memLeft memRight).2) :=
    h.shape.vmas_move alive kept
  apply move.moves.trans
  dsimp only at done
  split at done
  · cases done
    apply protectPtes_moves (pagesOf_nodup _ _)
    intro write
    refine granted.imp id fun alone vpn mem => ?_
    have same := grants_congr (e := s.entry i vpn)
      (t := s.setVmas i (m.vmas.mmMprotect addr len flags memLeft memRight).2) (fun _ => rfl)
    rw [entry_setVmas, same]
    exact alone write vpn mem
  · cases done
    exact .refl

/-- The operations as moves. -/
theorem step_moves (h : s.Sound frames) (loud : A.loud ∨ Quiet op) (may : A.evict ∨ ¬ Quiet op)
    (owned : A.orphan ∨ (s.Owned ∧ s.Clear op)) (room : s.Room op) (alone : A.loose ∨ s.Private op)
    (taken : s.step op = some t) : Moves A s t := by
  cases op with
  | create startBrk mem =>
    obtain ⟨⟨got, u⟩, ran, rfl⟩ := map_eq_some_iff.mp taken
    exact (Move.env s.disk mem).moves.trans (createMm_moves (loud.resolve_right id) (.inl rfl) ran)
  | fault i addr present write disk =>
    obtain ⟨⟨code, u⟩, ran, rfl⟩ := map_eq_some_iff.mp taken
    have asked : Move A s { s with disk := disk } := .env disk s.mem
    refine asked.moves.trans (doPgfault_moves (asked.sound h)
      (may.resolve_right (absurd trivial)) ?_ ran)
    intro m v p w alive found writable hidden
    refine (alone.imp id fun alone => ?_).symm
    have alone := alone m alive v found writable
    rwa [show s.entry i (addr / pgsize) = .hidden p w false from hidden] at alone
  | store i addr byte =>
    have loud := loud.resolve_right id
    have taken : s.store i addr byte = some t := taken
    rw [store] at taken
    split at taken
    · rename_i p cow mapped
      cases taken
      exact (Move.store loud i _ p _ cow byte mapped).moves
    · cases taken
  | mmap i addr len flags mem =>
    have taken : s.mmMap i addr len flags mem = some t := taken
    rw [mmMap] at taken
    split at taken
    · cases taken
    rename_i m alive
    obtain ⟨⟨code, stored, vmas⟩, ran, rfl⟩ := map_eq_some_iff.mp taken
    have kept : Kept True m.vmas vmas [] :=
      (mmMap_spec (h.shape.mm i m alive).linked ran).1
    exact (h.shape.vmas_move alive kept).moves
  | munmap i addr len mem =>
    have taken : s.mmUnmap i addr len mem = some t := taken
    rw [mmUnmap] at taken
    split at taken
    · cases taken
    rename_i m alive
    obtain ⟨u, ran, rfl⟩ := map_eq_some_iff.mp taken
    have kept : Kept True m.vmas (m.vmas.mmUnmap addr len mem).2.1 (m.vmas.mmUnmap addr len mem).2.2 :=
      mmUnmap_kept (h.shape.mm i m alive).linked rfl
    exact (unmapAll_spec h alive ran).vmas_moves h (loud.resolve_right id) alive kept
  | mprotect i addr len flags memLeft memRight => exact mmMprotect_moves h alone taken
  | madvise i addr len advice =>
    have taken : s.mmMadvise i addr len advice = some t := taken
    rw [mmMadvise] at taken
    split at taken
    · cases taken
    · rename_i m alive
      exact (unmapAll_spec h alive taken).shrinks.moves A (loud.resolve_right id)
  | brk i newbrk mem =>
    have taken : s.mmBrk i newbrk mem = some t := taken
    rw [mmBrk] at taken
    split at taken
    · cases taken
    rename_i m alive
    split at taken
    · cases taken
    · rename_i r ran
      obtain ⟨u, unmapped, rfl⟩ := map_eq_some_iff.mp taken
      have kept := mmBrk_kept (h.shape.mm i m alive).linked ran
      exact (unmapAll_spec h alive unmapped).vmas_moves h (loud.resolve_right id) alive kept
  | fork i disk mem =>
    obtain ⟨⟨code, u⟩, ran, rfl⟩ := map_eq_some_iff.mp taken
    have asked : Move A s { s with disk := disk, mem := mem } := .env disk mem
    refine asked.moves.trans (copyMm_moves (asked.sound h) (loud.resolve_right id) room ?_ ran)
    refine owned.imp id fun owned p queued next => ?_
    obtain ⟨j, owner, alive⟩ := owned.1 p queued
    obtain ⟨n, alive⟩ := isSome_iff_exists.mp alive
    have older := h.shape.ids j n alive
    rw [owner] at next
    cases next
    exact Nat.lt_irrefl _ older
  | swapOut n disk =>
    obtain ⟨⟨count, u⟩, ran, rfl⟩ := map_eq_some_iff.mp taken
    have may := may.resolve_right (absurd trivial)
    exact (Move.env disk s.mem).moves.trans ((swapOutLoop_reclaimed ran).moves A may)
  | exit i => exact exitMm_moves h (loud.resolve_right id) (owned.imp id And.right) taken

end Vm

end Procore.Mm
