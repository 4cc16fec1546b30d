import DurableSets.Core.Run
import Mathlib.Algebra.Group.Nat.Defs
import Mathlib.Data.List.Perm.Basic
import Mathlib.Logic.Function.Basic

namespace Ssmem

-- a full set carries the versions collected when it was full
structure FreeSet (α : Type*) where
  set : List α
  tsSet : Tid → ℕ

-- free_set_list is freeSet, the set being filled, and fullSets behind it; pending are the
-- threads whose version is still to be read before freeSet is stamped
structure Allocator (α : Type*) where
  fsSize : ℕ
  freeSet : FreeSet α
  pending : List Tid
  fullSets : List (FreeSet α)
  collectedSets : List (List α)

variable {α : Type*}

-- the versions are size_t, so that only their residues are compared
def tsCompare (tsList : List Tid) (sNew sOld : Tid → ℕ) : Bool :=
  tsList.all fun t => decide (sOld t % 2 ^ 64 < sNew t % 2 ^ 64)

namespace Allocator

def isFull (a : Allocator α) : Bool := a.freeSet.set.length == a.fsSize

-- one iteration of the loop of ssmem_ts_set_collect
def tsSetCollect (version : Tid → ℕ) (a : Allocator α) : Option (Allocator α) :=
  match a.pending with
  | [] => none
  | cur :: rest =>
    if a.isFull then
      some { a with
        freeSet := { a.freeSet with tsSet := Function.update a.freeSet.tsSet cur (version cur) }
        pending := rest }
    else none

def memReclaim (tsList : List Tid) (a : Allocator α) : Allocator α :=
  match a.fullSets with
  | [] => a
  | fsNxt :: rest =>
    if tsCompare tsList a.freeSet.tsSet fsNxt.tsSet then
      { a with
        fullSets := []
        collectedSets := a.collectedSets ++ (fsNxt :: rest).map FreeSet.set }
    else a

def getAvail (tsList : List Tid) (a : Allocator α) : Allocator α :=
  { a with
    freeSet := ⟨[], fun _ => 0⟩
    pending := tsList
    fullSets := a.freeSet :: a.fullSets }

def push (a : Allocator α) (obj : α) : Allocator α :=
  { a with freeSet := { a.freeSet with set := obj :: a.freeSet.set } }

def free (tsList : List Tid) (a : Allocator α) (obj : α) : Option (Allocator α) :=
  if a.isFull then
    match a.pending with
    | [] => some (((a.memReclaim tsList).getAvail tsList).push obj)
    | _ :: _ => none
  else some (a.push obj)

-- a slot of the collected memory; a set that gets empty is dropped
def pop (a : Allocator α) : Option (α × Allocator α) :=
  match a.collectedSets with
  | (m :: ms) :: rest =>
    some (m, { a with collectedSets := if ms.isEmpty then rest else ms :: rest })
  | _ => none

def init (tsList : List Tid) (fsSize : ℕ) : Allocator α := ⟨fsSize, ⟨[], fun _ => 0⟩, tsList, [], []⟩

end Allocator

-- the allocators of all threads, and the memory of their chunks that was never handed out
structure Pool (α : Type*) where
  allocator : Tid → Allocator α
  fresh : α → Bool

namespace Pool

def setAllocator (P : Pool α) (t : Tid) (a : Allocator α) : Pool α :=
  { P with allocator := Function.update P.allocator t a }

def collect (P : Pool α) (version : Tid → ℕ) (t : Tid) : Option (Pool α) :=
  ((P.allocator t).tsSetCollect version).map (P.setAllocator t)

def free (P : Pool α) (tsList : List Tid) (t : Tid) (obj : α) : Option (Pool α) :=
  ((P.allocator t).free tsList obj).map (P.setAllocator t)

def alloc [DecidableEq α] (P : Pool α) (t : Tid) (slot : α) : Option (Pool α) :=
  match (P.allocator t).collectedSets with
  | [] => if P.fresh slot then some { P with fresh := Function.update P.fresh slot false } else none
  | _ :: _ =>
    (P.allocator t).pop.bind fun r => if r.1 = slot then some (P.setAllocator t r.2) else none

def init (tsList : List Tid) (fsSize : Tid → ℕ) (fresh : α → Bool) : Pool α where
  allocator t := Allocator.init tsList (fsSize t)
  fresh := fresh

end Pool

-- the increment of SSMEM_TS_INCR_ON_FREE at the end of ssmem_free
def tsNext (version : Tid → ℕ) (t : Tid) : Tid → ℕ := Function.update version t (version t + 1)

end Ssmem
