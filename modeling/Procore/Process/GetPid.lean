import Mathlib.Order.Interval.Finset.Nat
import Procore.Process.Family

/-! # Process identifiers

`get_pid` keeps the identifier it gave last and the next one in use behind it, and
walks along the list of processes only when it has come to that one.
-/

namespace Procore.Process.GetPid

open Procore.Lib
open Family (maxPid maxProcess)

structure Pids where
  lastPid : Nat := maxPid
  nextSafe : Nat := maxPid
  /-- The identifiers in `proc_list`. -/
  procList : List Nat := []

/-- The loop over `proc_list`. An error is the jump to `repeat`, with the new `last_pid`. -/
def scan (lastPid nextSafe : Nat) : List Nat → Except Nat (Nat × Nat)
  | [] => .ok (lastPid, nextSafe)
  | pid :: rest =>
    if pid = lastPid then
      if nextSafe ≤ lastPid + 1 then .error (if maxPid ≤ lastPid + 1 then 1 else lastPid + 1)
      else scan (lastPid + 1) nextSafe rest
    else scan lastPid (if lastPid < pid ∧ pid < nextSafe then pid else nextSafe) rest

/-- From the label `repeat` on. -/
def repeatScan (list : List Nat) : Nat → Nat → Option (Nat × Nat)
  | 0, _ => none
  | fuel + 1, lastPid =>
    match scan lastPid maxPid list with
    | .ok found => some found
    | .error lastPid => repeatScan list fuel lastPid

/-- The new `last_pid`, which is returned, and `next_safe`. -/
def Pids.getPid (s : Pids) (fuel : Nat) : Option (Nat × Nat) :=
  if maxPid ≤ s.lastPid + 1 then repeatScan s.procList fuel 1
  else if s.nextSafe ≤ s.lastPid + 1 then repeatScan s.procList fuel (s.lastPid + 1)
  else some (s.lastPid + 1, s.nextSafe)

inductive Label where
  | create
  | exit (pid : Nat)

def step (fuel : Nat) (s : Pids) : Label → Option Pids
  | .create =>
    if s.procList.length < maxProcess then
      (s.getPid fuel).map fun (lastPid, nextSafe) => ⟨lastPid, nextSafe, lastPid :: s.procList⟩
    else some s
  | .exit pid => some { s with procList := s.procList.erase pid }

/-- A free identifier, with no other one in use before `nextSafe`. -/
structure Found (list : List Nat) (lastPid nextSafe : Nat) : Prop where
  positive : 0 < lastPid
  below : lastPid < maxPid
  free : lastPid ∉ list
  safe : ∀ pid ∈ list, lastPid < pid → nextSafe ≤ pid

variable {list : List Nat} {last next fuel : Nat} {s t : Pids}

/-- A walk finds a free identifier, or passes identifiers in use only. -/
theorem scan_spec (list seen : List Nat) (low : last < next) (high : next ≤ maxPid)
    (passed : ∀ pid ∈ seen, pid ≠ last ∧ (last < pid → next ≤ pid)) :
    match scan last next list with
    | .ok (l, n) => last ≤ l ∧ l < n ∧ n ≤ maxPid ∧ ∀ pid, pid ∈ seen ∨ pid ∈ list → pid ≠ l ∧ (l < pid → n ≤ pid)
    | .error l => ∃ k, last < k ∧ k ≤ maxPid ∧ (∀ pid, last ≤ pid → pid < k → pid ∈ list) ∧
        l = if maxPid ≤ k then 1 else k := by
  induction list generalizing last next seen with
  | nil => simpa [scan, low, high] using passed
  | cons pid rest ih =>
    rw [scan]
    by_cases here : pid = last
    · rw [if_pos here]
      by_cases restart : next ≤ last + 1
      · rw [if_pos restart]
        exact ⟨last + 1, by omega, by omega, by grind, rfl⟩
      · have := ih (pid :: seen) (Nat.lt_of_not_le restart) high (by grind)
        split at this <;> grind
    · generalize bound : (if last < pid ∧ pid < next then pid else next) = next'
      have := ih (pid :: seen) (show last < next' by grind) (by grind) (by grind)
      split at this <;> grind

theorem exists_free (few : list.length < maxPid - 1) : ∃ pid, 0 < pid ∧ pid < maxPid ∧ pid ∉ list := by
  by_contra! used
  have all : Finset.Ico 1 maxPid ⊆ list.toFinset := by
    intro pid mem
    rw [Finset.mem_Ico] at mem
    exact List.mem_toFinset.mpr (used pid mem.1 mem.2)
  have count := (Finset.card_le_card all).trans list.toFinset_card_le
  rw [Nat.card_Ico] at count
  omega

/-- Before it comes around a second time, `get_pid` has found a free identifier. -/
theorem repeatScan_spec (few : list.length < maxPid - 1) (positive : 0 < last) (below : last < maxPid)
    (enough : (if ∀ pid < last, 0 < pid → pid ∈ list then 0 else maxPid) + (maxPid - last) ≤ fuel) :
    ∃ l n, repeatScan list fuel last = some (l, n) ∧ Found list l n := by
  induction fuel generalizing last with
  | zero => omega
  | succ fuel ih =>
    have walk := scan_spec list [] below (le_rfl) (by simp)
    rw [repeatScan]
    split at walk
    case h_1 l n found =>
      obtain ⟨low, high, bound, safe⟩ := walk
      rw [found]
      exact ⟨l, n, rfl, by omega, by omega, fun mem => (safe l (.inr mem)).1 rfl, fun pid mem => (safe pid (.inr mem)).2⟩
    case h_2 l again =>
      obtain ⟨k, more, bound, used, rfl⟩ := walk
      rw [again]
      obtain ⟨free, pos, small, out⟩ := exists_free few
      split_ifs with around
      · refine ih (by decide) (by decide) ?_
        grind
      · grind

/-- The cached values are of use. -/
def Safe (s : Pids) : Prop := ∀ pid ∈ s.procList, s.lastPid < pid → s.nextSafe ≤ pid

theorem getPid_spec (safe : Safe s) (few : s.procList.length < maxProcess) (enough : 2 * maxPid ≤ fuel) :
    ∃ l n, s.getPid fuel = some (l, n) ∧ Found s.procList l n := by
  have few' : s.procList.length < maxPid - 1 := by
    unfold maxProcess at few
    unfold maxPid
    omega
  unfold Pids.getPid
  split_ifs with around stale
  · exact repeatScan_spec few' (by decide) (by decide) (by grind)
  · exact repeatScan_spec few' (by omega) (by omega) (by grind)
  · exact ⟨_, _, rfl, by omega, by omega, by grind [Safe], by grind [Safe]⟩

theorem step_safe {l : Label} (safe : Safe s) (enough : 2 * maxPid ≤ fuel) (taken : step fuel s l = some t) :
    Safe t := by
  cases l with
  | create =>
    simp only [step] at taken
    split_ifs at taken with few
    · obtain ⟨l, n, got, found⟩ := getPid_spec safe few enough
      have := found.safe
      grind [Safe]
    · exact Option.some.inj taken ▸ safe
  | exit pid =>
    obtain rfl := Option.some.inj taken
    exact fun q mem => safe q (List.mem_of_mem_erase mem)

/-- Every call returns an identifier that is not in use. -/
theorem get_pid_returns_free {ls : List Label} (enough : 2 * maxPid ≤ fuel)
    (run : runFrom (step fuel) {} ls = some s) (few : s.procList.length < maxProcess) :
    ∃ l n, s.getPid fuel = some (l, n) ∧ (1 ≤ l ∧ l ≤ maxPid - 1) ∧ l ∉ s.procList := by
  have safe : Safe s := runFrom_always (fun _ _ _ safe => step_safe safe enough) (by simp [Safe]) run
  obtain ⟨l, n, got, found⟩ := getPid_spec safe few enough
  exact ⟨l, n, got, ⟨found.positive, Nat.le_sub_one_of_lt found.below⟩, found.free⟩

theorem get_pid_returns_free_third : ∃ s, runFrom (step 16384) {} [.create, .create, .exit 1] = some s ∧
    s.procList = [2] ∧ ∃ l n, s.getPid 16384 = some (l, n) ∧ (1 ≤ l ∧ l ≤ maxPid - 1) ∧ l ∉ s.procList :=
  exists_run_test (fun s => s.procList = [2]) (by decide +kernel) fun s run list =>
    ⟨list, get_pid_returns_free (by decide) run (by rw [list]; decide)⟩

structure InUse (list : List Nat) : Prop where
  nodup : list.Nodup
  range : ∀ pid ∈ list, 0 < pid ∧ pid < maxPid
  few : list.length ≤ maxProcess

/-- Along every run the processes have distinct identifiers in range, and there are not too many. -/
theorem pids_in_use {ls : List Label} (enough : 2 * maxPid ≤ fuel)
    (run : runFrom (step fuel) {} ls = some s) : InUse s.procList := by
  have keep s l t (h : Safe s ∧ InUse s.procList) (taken : step fuel s l = some t) :
      Safe t ∧ InUse t.procList := by
    obtain ⟨safe, nodup, range, bound⟩ := h
    refine ⟨step_safe safe enough taken, ?_⟩
    cases l with
    | create =>
      simp only [step] at taken
      split_ifs at taken with few
      · obtain ⟨l, n, got, ⟨positive, below, free, -⟩⟩ := getPid_spec safe few enough
        constructor <;> grind
      · exact Option.some.inj taken ▸ ⟨nodup, range, bound⟩
    | exit pid =>
      cases taken
      constructor <;> grind
  exact (runFrom_always keep ⟨by simp [Safe], by simp, by simp, by decide⟩ run).2

theorem pids_in_use_third : ∃ s, runFrom (step 16384) {} [.create, .create, .exit 1, .create] = some s ∧
    s.procList = [3, 2] ∧ InUse s.procList :=
  exists_run_test _ (by decide +kernel) fun _ run list => ⟨list, pids_in_use (by decide) run⟩

end Procore.Process.GetPid
