import Procore.Lib.Run

/-! # The ARP cache

Updates take the first slot that is free or holds the address. A lookup frees the expired
entries that it passes, so a free slot may stand before the entry of an address.
-/

namespace Procore.Net

open Procore.Lib
open Function (update)

abbrev Mac := BitVec 48

structure ArpEntry where
  valid : Bool := false
  ip : UInt32 := 0
  mac : Mac := 0
  expires : UInt32 := 0

def netArpCacheSize : Nat := 8

def netArpTtlTicks : UInt32 := 6000

/-- The answer of `net_arp_lookup_locked`, and the slots behind it. -/
def arpLookup (ticks ip : UInt32) : List ArpEntry → Option Mac × List ArpEntry
  | [] => (none, [])
  | e :: es =>
    if e.valid && e.ip == ip then
      if e.expires ≥ ticks then (some e.mac, e :: es)
      else ((arpLookup ticks ip es).1, { e with valid := false } :: (arpLookup ticks ip es).2)
    else ((arpLookup ticks ip es).1, e :: (arpLookup ticks ip es).2)

/-- The loop of `net_arp_update_locked` at slot `i`. The answer is `oldest` if no slot is free. -/
def arpSlot (ip : UInt32) (i oldest : Nat) (oldestTick : UInt32) : List ArpEntry → Nat
  | [] => oldest
  | e :: es =>
    if e.valid && e.ip == ip then i
    else if !e.valid then i
    else if e.expires < oldestTick then arpSlot ip (i + 1) i e.expires es
    else arpSlot ip (i + 1) oldest oldestTick es

def arpUpdate (ticks ip : UInt32) (mac : Mac) (es : List ArpEntry) : List ArpEntry :=
  es.set (arpSlot ip 0 0 0xFFFFFFFF es) { valid := true, ip, mac, expires := ticks + netArpTtlTicks }

/-- `latest` is what the last update of each address gave; nothing reads it. -/
structure Arp where
  cache : List ArpEntry := .replicate netArpCacheSize {}
  ticks : UInt32 := 0
  latest : UInt32 → Option Mac := fun _ => none

namespace Arp

inductive Label where
  | lookup (ip : UInt32)
  | update (ip : UInt32) (mac : Mac)
  | tick (now : UInt32)

/-- The address 0 and the broadcast MAC are not taken. -/
def step (s : Arp) : Label → Option Arp
  | .lookup ip => some { s with cache := (arpLookup s.ticks ip s.cache).2 }
  | .update ip mac => if ip = 0 ∨ mac = .allOnes 48 then some s
    else some { s with cache := arpUpdate s.ticks ip mac s.cache, latest := update s.latest ip (some mac) }
  | .tick now => if s.ticks ≤ now then some { s with ticks := now } else none

/-- No free slot stands before the entry of an address that is updated. -/
def Calm (s : Arp) : Label → Prop
  | .update ip _ => s.cache.Pairwise fun e f => f.valid → f.ip = ip → e.valid
  | .lookup _ | .tick _ => True

instance (s : Arp) : DecidablePred s.Calm
  | .update ip _ =>
    inferInstanceAs (Decidable (s.cache.Pairwise fun e f => f.valid → f.ip = ip → e.valid))
  | .lookup _ | .tick _ => isTrue trivial

/-- An address has one entry. -/
def Unique (s : Arp) : Prop :=
  ∀ (i j : Nat) (e f : ArpEntry), s.cache[i]? = some e → s.cache[j]? = some f → e.valid → f.valid → e.ip = f.ip → i = j

structure Inv (s : Arp) : Prop where
  unique : s.Unique
  latest : ∀ e ∈ s.cache, e.valid → s.latest e.ip = some e.mac

variable {s t : Arp} {es : List ArpEntry} {ticks ip : UInt32} {mac : Mac}

theorem lookup_hit (hit : (arpLookup ticks ip es).1 = some mac) :
    ∃ e ∈ es, e.valid ∧ e.ip = ip ∧ e.mac = mac := by
  fun_induction arpLookup ticks ip es <;> grind

variable {i j : Nat} {e : ArpEntry}

theorem lookup_keeps (here : (arpLookup ticks ip es).2[i]? = some e) (valid : e.valid) : es[i]? = some e := by
  fun_induction arpLookup ticks ip es generalizing i <;> cases i <;> grind

theorem slot_before {oldest : Nat} {tick : UInt32} (here : es[j]? = some e) (same : e.ip = ip) :
    ∃ m ≤ j, arpSlot ip i oldest tick es = i + m ∧ ∃ f, es[m]? = some f ∧ (f.valid → f.ip = ip) := by
  fun_induction arpSlot ip i oldest tick es generalizing j with
  | case1 => cases here
  | case2 | case3 => exact ⟨0, by grind⟩
  | case4 _ _ _ _ _ _ _ _ ih | case5 _ _ _ _ _ _ _ _ ih =>
    cases j with
    | zero => grind
    | succ j =>
      obtain ⟨m, le, slot, taken⟩ := ih here
      exact ⟨m + 1, by omega, by omega, taken⟩

/-- An entry of the address is in the slot that the update takes. -/
theorem Unique.slot (unique : s.Unique) (calm : s.Calm (.update ip mac)) (here : s.cache[j]? = some e)
    (valid : e.valid) (same : e.ip = ip) : j = arpSlot ip 0 0 0xFFFFFFFF s.cache := by
  obtain ⟨m, le, slot, f, there, taken⟩ := slot_before (i := 0) here same
  rw [slot, Nat.zero_add]
  by_contra other
  have used : f.valid := by
    obtain ⟨inside, rfl⟩ := List.getElem?_eq_some_iff.mp there
    obtain ⟨inside', rfl⟩ := List.getElem?_eq_some_iff.mp here
    exact List.pairwise_iff_getElem.mp calm m j _ _ (by omega) valid same
  exact other (unique j m e f here there valid used (same.trans (taken used).symm))

theorem Inv.step {l : Label} (inv : s.Inv) (calm : s.Calm l) (taken : s.step l = some t) : t.Inv := by
  obtain ⟨unique, latest⟩ := inv
  cases l with
  | lookup ip =>
    cases taken
    refine ⟨fun i j e f here there valid valid' => ?_, fun e mem valid => ?_⟩
    · exact unique i j e f (lookup_keeps here valid) (lookup_keeps there valid') valid valid'
    · obtain ⟨i, here⟩ := List.getElem?_of_mem mem
      exact latest e (List.mem_of_getElem? (lookup_keeps here valid)) valid
  | update ip mac =>
    simp only [Arp.step] at taken
    split at taken <;> cases taken
    · exact ⟨unique, latest⟩
    have slot (j : Nat) (e : ArpEntry) := @Unique.slot s ip mac j e unique calm
    refine ⟨fun i j e f here there => ?_, fun e mem valid => ?_⟩
    · simp only [arpUpdate, List.getElem?_set] at here there
      grind [Unique]
    · obtain ⟨i, here⟩ := List.getElem?_of_mem mem
      simp only [arpUpdate, List.getElem?_set] at here
      grind
  | tick now =>
    simp only [Arp.step] at taken
    split at taken <;> cases taken
    exact ⟨unique, latest⟩

/-- If no free slot stands before the entry of an address when it is updated, an address has one
    entry, and a hit is what the last update gave. -/
theorem hit_is_latest {ls : List Label} (calm : Along step Calm {} ls) (run : runFrom step {} ls = some s) :
    s.Unique ∧ ∀ ip mac, (arpLookup s.ticks ip s.cache).1 = some mac → s.latest ip = some mac := by
  have boot : Inv {} := by
    constructor <;> simp [Unique, List.getElem?_replicate]
    grind
  have inv : s.Inv := runFrom_invariant (fun _ _ _ => Inv.step) boot calm run
  refine ⟨inv.unique, fun ip mac hit => ?_⟩
  obtain ⟨e, mem, valid, rfl, rfl⟩ := lookup_hit hit
  exact inv.latest e mem valid

/-- The entry of address 1 expires and is freed by a lookup; the address is updated twice more. -/
def updatedAgain : List Label :=
  [.update 1 7, .update 2 8, .tick 6001, .lookup 1, .update 1 8, .update 3 7, .update 1 9]

theorem hit_is_latest_updatedAgain : ∃ s, runFrom step {} updatedAgain = some s ∧ s.Unique ∧
    (arpLookup s.ticks 1 s.cache).1 = some 9 ∧ s.latest 1 = some 9 := by
  refine exists_run_test (fun s => (arpLookup s.ticks 1 s.cache).1 = some 9) (by decide +kernel) fun s run hit => ?_
  obtain ⟨unique, latest⟩ := hit_is_latest (by decide +kernel) run
  exact ⟨unique, hit, latest 1 9 hit⟩

/-- The entry of address 2 is made again in the slot of address 1, which has expired. When six other
    addresses have come and one more takes that slot, the older entry is found. -/
theorem older_mac_found : ∃ s, runFrom step {} (
      [.update 1 7, .tick 6001, .update 2 8, .lookup 1, .update 2 9] ++
        [3, 4, 5, 6, 7, 8, 9].map fun ip => .update ip 7) = some s ∧
    (arpLookup s.ticks 2 s.cache).1 = some 8 ∧ s.latest 2 = some 9 := by
  exact exists_run_test _ (by decide +kernel) fun _ _ facts => facts

end Arp

end Procore.Net
