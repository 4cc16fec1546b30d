import DurableSets.SOFT.ListInv

namespace SOFT.List

variable {V : Type}

-- the next access of recovery() and of the quickInsert it calls; todo are the slots of the
-- chunks that it has still to look at, failed is an assertion
inductive RecoveryPc where
  | scan (todo : List PLoc)
  | reset (p : PLoc) (todo : List PLoc)
  | free (p : PLoc) (todo : List PLoc)
  | retry (newNode : Loc) (todo : List PLoc)
  | search (newNode pred : Loc) (st : NodeState) (curr : Loc) (todo : List PLoc)
  | link (newNode pred : Loc) (st : NodeState) (curr : Loc) (todo : List PLoc)
  | failed
deriving DecidableEq

def recoveredNode (p : PLoc) (c : PNode V) : Node V :=
  ⟨c.key, c.value, some p, c.validStart, ⟨none, .inserted⟩⟩

def recoveryNext (σ : Store V) (slot : Loc) : RecoveryPc → Option (Store V × RecoveryPc)
  | .scan [] => none
  | .scan (p :: todo) =>
    if (σ.pnode p).recovered then
      some ((σ.take slot).write slot (recoveredNode p (σ.pnode p)), .retry slot todo)
    else some (σ, .reset p todo)
  | .reset p todo =>
    some (σ.writeP p { σ.pnode p with validStart := (σ.pnode p).validEnd }, .free p todo)
  | .free p todo => some (σ.giveP p, .scan todo)
  | .retry n todo =>
    (σ.node head).next.ref.map fun c => (σ, .search n head (σ.node head).next.state c todo)
  | .search n pred st curr todo =>
    let succ := (σ.node curr).next
    if succ.getState = .deleted then some (σ, .failed)
    else if (σ.node curr).key < (σ.node n).key then
      succ.ref.map fun c => (σ, .search n curr succ.state c todo)
    else if (σ.node curr).key = (σ.node n).key then some (σ, .failed)
    else some (σ.setNext n (Ptr.addr curr .inserted), .link n pred st curr todo)
  | .link n pred st curr todo =>
    if (σ.node pred).next = Ptr.addr curr st then
      some (σ.setNext pred (Ptr.addr n .inserted), .scan todo)
    else some (σ, .retry n todo)
  | .failed => none

def RecoveryPc.todo : RecoveryPc → List PLoc
  | .scan todo => todo
  | .reset p todo => p :: todo
  | .free p todo => p :: todo
  | .retry _ todo => todo
  | .search _ _ _ _ todo => todo
  | .link _ _ _ _ todo => todo
  | .failed => []

def restore (zero : V) (image : PLoc → PNode V) (pavail : PLoc → Bool) : Store V :=
  { initialStore zero with pline := fun p => ⟨image p, []⟩, pavail := pavail }

end SOFT.List
