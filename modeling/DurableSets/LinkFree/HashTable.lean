import DurableSets.Core.Buckets
import DurableSets.LinkFree.ListSequential

namespace LinkFree.HashTable

variable {V : Type} {BUCKET_NUM : ℕ}

-- std::abs(k % BUCKET_NUM), where the remainder has the sign of k
def bucketIndex (BUCKET_NUM : ℕ) (k : ℤ) : ℕ := (k.tmod BUCKET_NUM).natAbs

theorem bucketIndex_lt (h : 0 < BUCKET_NUM) (k : ℤ) : bucketIndex BUCKET_NUM k < BUCKET_NUM := by
  rw [bucketIndex, Int.natAbs_tmod, Int.natAbs_natCast]
  exact Nat.mod_lt _ h

def getBucket (h : 0 < BUCKET_NUM) (k : ℤ) : Fin BUCKET_NUM :=
  ⟨bucketIndex BUCKET_NUM k, bucketIndex_lt h k⟩

abbrev State (V : Type) (BUCKET_NUM : ℕ) := Table (Fin BUCKET_NUM) (List.State V)

-- no slot that was used in one list is handed out for another: each has memory of its own
def machine (V : Type) (h : 0 < BUCKET_NUM) : Machine (State V BUCKET_NUM) (SetOp V) List.Pc :=
  Table.machine (List.machine V) (getBucket h)

def enter (h : 0 < BUCKET_NUM) (t : Tid) : State V BUCKET_NUM → SetOp V → State V BUCKET_NUM :=
  Table.enter (getBucket h) t (List.enter t)

def new (h : 0 < BUCKET_NUM) (zero : V) (junk : Fin BUCKET_NUM → Uchar) : State V BUCKET_NUM :=
  ⟨fun i => List.initial zero (junk i), fun _ => ⟨0, h⟩⟩

theorem oneSet (h : 0 < BUCKET_NUM) (zero : V) (junk : Fin BUCKET_NUM → Uchar) (t : Tid) :
    Table.OneSet (List.machine V) (getBucket h) (List.enter t) t (fun op => op.key < INT_MAX)
      List.Guarded List.Keys (new h zero junk) :=
  Table.oneSet (List.serves V t) (fun hs => hs.idle) (fun hs => hs.keys) fun i =>
    List.initial_settled zero (junk i) t

end LinkFree.HashTable
