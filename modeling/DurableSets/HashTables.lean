import DurableSets.LinkFree.HashTable
import DurableSets.SOFT.HashTable

variable {V : Type}

namespace HashTables

theorem hashTables_are_one_set {BUCKET_NUM : ℕ} (h : 0 < BUCKET_NUM) (zero : V)
    (junk : Fin BUCKET_NUM → LinkFree.Uchar) (t : Tid) :
    (∀ k, LinkFree.HashTable.bucketIndex BUCKET_NUM k < BUCKET_NUM ∧
      SOFT.HashTable.bucketIndex BUCKET_NUM k < BUCKET_NUM) ∧
    (∀ (T : LinkFree.HashTable.State V BUCKET_NUM) op,
      ((LinkFree.HashTable.enter h t T op).current t : ℕ) =
        LinkFree.HashTable.bucketIndex BUCKET_NUM op.key) ∧
    (∀ (T : SOFT.HashTable.State V BUCKET_NUM) op,
      ((SOFT.HashTable.enter h t T op).current t : ℕ) =
        SOFT.HashTable.bucketIndex BUCKET_NUM op.key) ∧
    Table.OneSet (LinkFree.List.machine V) (LinkFree.HashTable.getBucket h)
      (LinkFree.List.enter t) t (fun op => op.key < INT_MAX) LinkFree.List.Guarded
      LinkFree.List.Keys (LinkFree.HashTable.new h zero junk) ∧
    Table.OneSet (SOFT.List.machine V) (SOFT.HashTable.getBucket h) (SOFT.List.enter t) t
      (fun op => op.key < INT_MAX) SOFT.List.Guarded SOFT.List.Keys
      (SOFT.HashTable.new h zero) := by
  refine ⟨fun k => ⟨LinkFree.HashTable.bucketIndex_lt h k, SOFT.HashTable.bucketIndex_lt h k⟩,
    fun T op => ?_, fun T op => ?_, LinkFree.HashTable.oneSet h zero junk t,
    SOFT.HashTable.oneSet h zero t⟩
  · simp only [LinkFree.HashTable.enter, Table.enter, Function.update_self]
    rfl
  · simp only [SOFT.HashTable.enter, Table.enter, Function.update_self]
    rfl

theorem hashTables_are_one_set_three :
    LinkFree.HashTable.bucketIndex 3 (-5) < 3 ∧
    Table.OneSet (LinkFree.List.machine Unit) (LinkFree.HashTable.getBucket (by decide : 0 < 3))
      (LinkFree.List.enter 0) 0 (fun op => op.key < INT_MAX) LinkFree.List.Guarded
      LinkFree.List.Keys (LinkFree.HashTable.new (by decide) () fun _ => 0) ∧
    Table.OneSet (SOFT.List.machine Unit) (SOFT.HashTable.getBucket (by decide : 0 < 3))
      (SOFT.List.enter 0) 0 (fun op => op.key < INT_MAX) SOFT.List.Guarded SOFT.List.Keys
      (SOFT.HashTable.new (by decide) ()) := by
  obtain ⟨hk, _, _, h1, h2⟩ := hashTables_are_one_set (by decide : 0 < 3) () (fun _ => 0) 0
  exact ⟨(hk (-5)).1, h1, h2⟩

-- the remainder of a negative key is negative, and abs folds it onto the same buckets
example : LinkFree.HashTable.bucketIndex 3 (-5) = 2 ∧ LinkFree.HashTable.bucketIndex 3 5 = 2 ∧
    LinkFree.HashTable.bucketIndex 3 (-4) = 1 := by decide

end HashTables
