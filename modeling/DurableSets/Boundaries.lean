import DurableSets.LinkFree.ListBoundary
import DurableSets.LinkFree.SkipListBoundary
import DurableSets.SOFT.ListBoundary

variable {V : Type}

namespace Boundaries

/-- A new list that one thread uses alone is a set, with its sentinels in place, exactly when
all keys are below the one of the tail. -/
theorem lists_are_sets_iff (zero : V) (junk : LinkFree.Uchar) (t : Tid) (ops : List (SetOp V)) :
    ((LinkFree.List.machine V).Behaves (LinkFree.List.enter t) t LinkFree.List.Guarded
      (fun _ _ => True) ops ∅ (LinkFree.List.initial zero junk) ↔ ∀ op ∈ ops, op.key < INT_MAX) ∧
    ((SOFT.List.machine V).Behaves (SOFT.List.enter t) t SOFT.List.Upright
      (fun _ _ => True) ops ∅ (SOFT.List.initial zero) ↔ ∀ op ∈ ops, op.key < INT_MAX) ∧
    ((LinkFree.SkipList.machine V).Behaves (LinkFree.SkipList.enter t) t LinkFree.SkipList.Guarded
      (fun _ _ => True) ops ∅ (LinkFree.SkipList.initial zero junk) ↔
        ∀ op ∈ ops, op.key < INT_MAX) :=
  ⟨LinkFree.List.behaves_iff zero junk t ops, SOFT.List.behaves_iff zero t ops,
    LinkFree.SkipList.behaves_iff zero junk t ops⟩

-- an insert of the key of the tail, for all three lists
theorem lists_are_not_sets_at_tail :
    (¬ (LinkFree.List.machine ℕ).Behaves (LinkFree.List.enter 0) 0 LinkFree.List.Guarded
      (fun _ _ => True) [.insert INT_MAX 5] ∅ (LinkFree.List.initial 0 0#8)) ∧
    (¬ (SOFT.List.machine ℕ).Behaves (SOFT.List.enter 0) 0 SOFT.List.Upright
      (fun _ _ => True) [.insert INT_MAX 5] ∅ (SOFT.List.initial 0)) ∧
    ¬ (LinkFree.SkipList.machine ℕ).Behaves (LinkFree.SkipList.enter 0) 0
      LinkFree.SkipList.Guarded (fun _ _ => True) [.insert INT_MAX 5] ∅
      (LinkFree.SkipList.initial 0 0#8) := by
  have hbig : ¬ ∀ op ∈ [(.insert INT_MAX 5 : SetOp ℕ)], op.key < INT_MAX := by decide
  exact ⟨fun h => hbig ((LinkFree.List.behaves_iff 0 0#8 0 _).1 h),
    fun h => hbig ((SOFT.List.behaves_iff 0 0 _).1 h),
    fun h => hbig ((LinkFree.SkipList.behaves_iff 0 0#8 0 _).1 h)⟩

end Boundaries
