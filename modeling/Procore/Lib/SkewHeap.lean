import Mathlib.Data.List.Basic

/-! # Skew heaps

A self-adjusting heap over any comparison. The comparison need not be an order:
the operations are the ones of the pointer structure, and they are total
whatever it answers. `best` walks the whole tree, so that a search can skip
elements that are not allowed.
-/

namespace Procore.Lib

open List

inductive SkewHeap (α : Type*) where
  | nil
  | node (left : SkewHeap α) (value : α) (right : SkewHeap α)
  deriving DecidableEq, Repr

namespace SkewHeap

variable {α : Type*}

def toList : SkewHeap α → List α
  | .nil => []
  | .node left value right => value :: (left.toList ++ right.toList)

/-- Merge the node `left`, `value`, `right` with a heap, given how to merge its
    right child. The children of the root that stays are exchanged. -/
def mergeNode (less : α → α → Bool) (left : SkewHeap α) (value : α) (right : SkewHeap α)
    (mergeRight : SkewHeap α → SkewHeap α) : SkewHeap α → SkewHeap α
  | .nil => .node left value right
  | .node left' value' right' =>
    if less value value' then .node (mergeRight (.node left' value' right')) value left
    else .node (mergeNode less left value right mergeRight right') value' left'

def merge (less : α → α → Bool) : SkewHeap α → SkewHeap α → SkewHeap α
  | .nil => fun other => other
  | .node left value right => mergeNode less left value right (merge less right)

def insert (less : α → α → Bool) (heap : SkewHeap α) (value : α) : SkewHeap α :=
  heap.merge less (.node .nil value .nil)

/-- Replace the node that holds `target` by the merge of its children. -/
def remove [DecidableEq α] (less : α → α → Bool) (target : α) : SkewHeap α → SkewHeap α
  | .nil => .nil
  | .node left value right =>
    if value = target then left.merge less right
    else if target ∈ left.toList then .node (left.remove less target) value right
    else .node left value (right.remove less target)

/-- The better one of two candidates; the first one on a tie. -/
def better (less : α → α → Bool) : Option α → Option α → Option α
  | best, none => best
  | none, some candidate => some candidate
  | some best, some candidate => if less candidate best then some candidate else some best

/-- The first smallest element among the allowed ones, in preorder. -/
def best (less : α → α → Bool) (allowed : α → Bool) : SkewHeap α → Option α
  | .nil => none
  | .node left value right =>
    better less
      (better less (if allowed value then some value else none) (left.best less allowed))
      (right.best less allowed)

variable {less : α → α → Bool} {value : α}

theorem mergeNode_perm {left right : SkewHeap α} {mergeRight : SkewHeap α → SkewHeap α}
    (step : ∀ other, (mergeRight other).toList.Perm (right.toList ++ other.toList))
    (other : SkewHeap α) : (mergeNode less left value right mergeRight other).toList.Perm
      ((node left value right).toList ++ other.toList) := by
  induction other with
  | nil => simp [mergeNode, toList]
  | node left' value' right' _ ihRight =>
    rw [mergeNode]
    split
    · refine Perm.cons value (((step _).append_right left.toList).trans ?_)
      exact perm_append_comm.trans (Perm.of_eq (append_assoc ..).symm)
    · refine (((ihRight.append_right left'.toList).cons value').trans ?_)
      simp only [append_assoc]
      refine Perm.trans ?_ perm_middle.symm
      exact ((perm_append_comm.append_left _).cons value')

theorem merge_perm (less : α → α → Bool) (heap other : SkewHeap α) :
    (heap.merge less other).toList.Perm (heap.toList ++ other.toList) := by
  induction heap generalizing other with
  | nil => exact Perm.refl _
  | node left value right _ ihRight => exact mergeNode_perm ihRight other

theorem insert_perm (less : α → α → Bool) (heap : SkewHeap α) (value : α) :
    (heap.insert less value).toList.Perm (value :: heap.toList) :=
  (merge_perm less heap _).trans (perm_append_singleton value heap.toList)

theorem remove_perm [DecidableEq α] (less : α → α → Bool) (target : α) (heap : SkewHeap α) :
    (heap.remove less target).toList.Perm (heap.toList.erase target) := by
  induction heap with
  | nil => exact Perm.refl _
  | node left value right ihLeft ihRight =>
    rw [remove, toList]
    split
    · rename_i root
      rw [root, erase_cons_head]
      exact merge_perm less left right
    rename_i other
    rw [erase_cons_tail (by simpa using other)]
    split
    · rename_i inLeft
      rw [erase_append_left _ inLeft]
      exact (ihLeft.append_right _).cons value
    · rename_i notLeft
      rw [erase_append_right _ notLeft]
      exact (ihRight.append_left _).cons value

variable {heap : SkewHeap α}

theorem mem_insert {x : α} (mem : x ∈ (heap.insert less value).toList) : x = value ∨ x ∈ heap.toList :=
  mem_cons.mp ((insert_perm less heap value).mem_iff.mp mem)

theorem mem_remove [DecidableEq α] {target x : α}
    (mem : x ∈ (heap.remove less target).toList) : x ∈ heap.toList :=
  mem_of_mem_erase ((remove_perm less target heap).mem_iff.mp mem)

theorem better_eq_some {first second : Option α} (found : better less first second = some value) :
    first = some value ∨ second = some value := by
  cases first <;> cases second <;> simp only [better] at found
  · cases found
  · exact .inr found
  · exact .inl found
  · split at found
    · exact .inr found
    · exact .inl found

theorem best_mem {allowed : α → Bool} (found : heap.best less allowed = some value) :
    value ∈ heap.toList ∧ allowed value = true := by
  induction heap with
  | nil => cases found
  | node left root right ihLeft ihRight =>
    simp only [toList, mem_cons, mem_append]
    obtain inner | inRight := better_eq_some found
    · obtain isRoot | inLeft := better_eq_some inner
      · obtain ⟨ok, ⟨⟩⟩ := Option.ite_none_right_eq_some.mp isRoot
        exact ⟨.inl rfl, ok⟩
      · obtain ⟨mem, ok⟩ := ihLeft inLeft
        exact ⟨.inr (.inl mem), ok⟩
    · obtain ⟨mem, ok⟩ := ihRight inRight
      exact ⟨.inr (.inr mem), ok⟩

end SkewHeap

end Procore.Lib
