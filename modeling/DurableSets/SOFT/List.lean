import DurableSets.Core.Chain
import DurableSets.Core.Linearizable
import DurableSets.SOFT.PNode
import Mathlib.Data.Int.ConditionallyCompleteOrder
import Mathlib.Order.WithBot

namespace SOFT.List

structure Node (V : Type) where
  key : ℤ
  value : V
  pptr : Option PLoc
  pValidity : Bool
  next : Ptr

variable {V : Type}

def Node.stamp (n : Node V) : Stamp V := ⟨n.pValidity, n.key, n.value⟩

structure Store (V : Type) where
  node : Loc → Node V
  pline : PLoc → Line (PNode V)
  avail : Loc → Bool
  pavail : PLoc → Bool

namespace Store

def pnode (σ : Store V) (p : PLoc) : PNode V := (σ.pline p).cur

def write (σ : Store V) (x : Loc) (n : Node V) : Store V :=
  { σ with node := Function.update σ.node x n }

def setNext (σ : Store V) (x : Loc) (q : Ptr) : Store V := σ.write x { σ.node x with next := q }

def setLine (σ : Store V) (p : PLoc) (l : Line (PNode V)) : Store V :=
  { σ with pline := Function.update σ.pline p l }

def writeP (σ : Store V) (p : PLoc) (m : PNode V) : Store V := σ.setLine p ((σ.pline p).write m)

def flushP (σ : Store V) (p : PLoc) : Store V := σ.setLine p (σ.pline p).flush

def take (σ : Store V) (x : Loc) : Store V :=
  { σ with avail := Function.update σ.avail x false }

def give (σ : Store V) (x : Loc) : Store V :=
  { σ with avail := Function.update σ.avail x true }

def takeP (σ : Store V) (p : PLoc) : Store V :=
  { σ with pavail := Function.update σ.pavail p false }

def giveP (σ : Store V) (p : PLoc) : Store V :=
  { σ with pavail := Function.update σ.pavail p true }

end Store

def head : Loc := 0

def tail : Loc := 1

-- where trim was called: in find with the next node to look at, or at the end of remove
inductive TrimCtx where
  | inFind (succRef : Loc)
  | inRemove
deriving DecidableEq

-- the next shared access of a call, with the local variables that are still used; a tagged
-- pointer curr of the source is the pair of st and curr here
inductive Pc where
  | find
  | findLoad (prev : Loc) (st : NodeState) (curr : Loc)
  | trimLoad (c : TrimCtx) (prev : Loc) (st : NodeState) (curr : Loc)
  | trimCas (c : TrimCtx) (prev : Loc) (st : NodeState) (curr : Loc) (succ : Ptr)
  | trimFree (c : TrimCtx) (prev : Loc) (st : NodeState) (curr : Loc)
  | allocPNode (pred : Loc) (st : NodeState) (curr : Loc)
  | pnodeAlloc (pred : Loc) (st : NodeState) (curr : Loc) (newPNode : PLoc)
  | allocNode (pred : Loc) (st : NodeState) (curr : Loc) (newPNode : PLoc) (pValid : Bool)
  | initNode (pred : Loc) (st : NodeState) (curr newNode : Loc) (newPNode : PLoc) (pValid : Bool)
  | initNext (pred : Loc) (st : NodeState) (curr newNode : Loc) (newPNode : PLoc)
  | linkCas (pred : Loc) (st : NodeState) (curr newNode : Loc) (newPNode : PLoc)
  | lostNode (newNode : Loc) (newPNode : PLoc)
  | lostPNode (newPNode : PLoc)
  | createStart (r : Bool) (n : Loc)
  | createKey (r : Bool) (n : Loc)
  | createValue (r : Bool) (n : Loc)
  | createEnd (r : Bool) (n : Loc)
  | createFlush (r : Bool) (n : Loc)
  | insertTest (r : Bool) (n : Loc)
  | insertLoad (r : Bool) (n : Loc)
  | insertCas (r : Bool) (n : Loc) (p : Ptr)
  | markTest (pred : Loc) (st : NodeState) (n : Loc)
  | markLoad (pred : Loc) (st : NodeState) (n : Loc)
  | markCas (pred : Loc) (st : NodeState) (n : Loc) (p : Ptr)
  | destroyStore (r : Bool) (pred : Loc) (st : NodeState) (n : Loc)
  | destroyFlush (r : Bool) (pred : Loc) (st : NodeState) (n : Loc)
  | deleteTest (r : Bool) (pred : Loc) (st : NodeState) (n : Loc)
  | deleteLoad (r : Bool) (pred : Loc) (st : NodeState) (n : Loc)
  | deleteCas (r : Bool) (pred : Loc) (st : NodeState) (n : Loc) (p : Ptr)
  | containsHead
  | containsWalk (curr : Loc)
  | ret (r : Bool)
deriving DecidableEq

def start : SetOp V → Pc
  | .insert _ _ => .find
  | .remove _ => .find
  | .contains _ => .containsHead

def afterFind (σ : Store V) (prev : Loc) (st : NodeState) (curr : Loc) (cState : NodeState) :
    SetOp V → Option Pc
  | .insert key _ =>
    if (σ.node curr).key = key then
      if cState ≠ .intendToInsert then some (.ret false) else some (.createStart false curr)
    else some (.allocPNode prev st curr)
  | .remove key =>
    if (σ.node curr).key ≠ key then some (.ret false)
    else if cState = .intendToInsert ∨ cState = .deleted then some (.ret false)
    else some (.markTest prev st curr)
  | .contains _ => none

def afterTrim (prev : Loc) (st : NodeState) : TrimCtx → Pc
  | .inFind succRef => .findLoad prev st succRef
  | .inRemove => .ret true

-- a compare-and-swap of next that leaves the reference and moves the state
def stateCas (σ : Store V) (n : Loc) (p : Ptr) (expected newVal : NodeState)
    (won lost : Pc) : Store V × Pc :=
  if (σ.node n).next = p.createRef expected then (σ.setNext n (p.createRef newVal), won)
  else (σ, lost)

-- one store of create or destroy on the PNode of n
def storeP (σ : Store V) (n : Loc) (f : Node V → PNode V → PNode V) (pc : Pc) :
    Option (Store V × Pc) :=
  (σ.node n).pptr.map fun p => (σ.writeP p (f (σ.node n) (σ.pnode p)), pc)

def barrier (σ : Store V) (n : Loc) (pc : Pc) : Option (Store V × Pc) :=
  (σ.node n).pptr.map fun p => (σ.flushP p, pc)

def next (σ : Store V) (op : SetOp V) (slot : ℕ) : Pc → Option (Store V × Pc)
  | .find => (σ.node head).next.ref.map fun c => (σ, .findLoad head (σ.node head).next.state c)
  | .findLoad prev st curr =>
    let succ := (σ.node curr).next
    if succ.state ≠ .deleted then
      if op.key ≤ (σ.node curr).key then
        (afterFind σ prev st curr succ.state op).map fun pc => (σ, pc)
      else succ.ref.map fun c => (σ, .findLoad curr succ.state c)
    else succ.ref.map fun c => (σ, .trimLoad (.inFind c) prev st curr)
  | .trimLoad c prev st curr =>
    some (σ, .trimCas c prev st curr ((σ.node curr).next.createRef st))
  | .trimCas c prev st curr succ =>
    if (σ.node prev).next = Ptr.addr curr st then
      some (σ.setNext prev succ, .trimFree c prev st curr)
    else some (σ, afterTrim prev st c)
  | .trimFree c prev st curr =>
    (σ.node curr).pptr.map fun p => (σ.giveP p, afterTrim prev st c)
  | .allocPNode pred st curr => some (σ.takeP slot, .pnodeAlloc pred st curr slot)
  | .pnodeAlloc pred st curr p => some (σ, .allocNode pred st curr p (σ.pnode p).alloc)
  | .allocNode pred st curr p v => some (σ.take slot, .initNode pred st curr slot p v)
  | .initNode pred st curr n p v =>
    match op with
    | .insert key value =>
      some (σ.write n { σ.node n with key, value, pptr := some p, pValidity := v },
        .initNext pred st curr n p)
    | _ => none
  | .initNext pred st curr n p =>
    some (σ.setNext n (Ptr.addr curr .intendToInsert), .linkCas pred st curr n p)
  | .linkCas pred st curr n p =>
    if (σ.node pred).next = Ptr.addr curr st then
      some (σ.setNext pred (Ptr.addr n st), .createStart true n)
    else some (σ, .lostNode n p)
  | .lostNode n p => some (σ.give n, .lostPNode p)
  | .lostPNode p => some (σ.giveP p, .find)
  | .createStart r n =>
    storeP σ n (fun a c => { c with validStart := a.pValidity }) (.createKey r n)
  | .createKey r n => storeP σ n (fun a c => { c with key := a.key }) (.createValue r n)
  | .createValue r n => storeP σ n (fun a c => { c with value := a.value }) (.createEnd r n)
  | .createEnd r n =>
    storeP σ n (fun a c => { c with validEnd := a.pValidity }) (.createFlush r n)
  | .createFlush r n => barrier σ n (.insertTest r n)
  | .insertTest r n =>
    if (σ.node n).next.getState = .intendToInsert then some (σ, .insertLoad r n)
    else some (σ, .ret r)
  | .insertLoad r n => some (σ, .insertCas r n (σ.node n).next)
  | .insertCas r n p =>
    some (stateCas σ n p .intendToInsert .inserted (.insertTest r n) (.insertTest r n))
  | .markTest pred st n =>
    if (σ.node n).next.getState = .inserted then some (σ, .markLoad pred st n)
    else some (σ, .destroyStore false pred st n)
  | .markLoad pred st n => some (σ, .markCas pred st n (σ.node n).next)
  | .markCas pred st n p =>
    some (stateCas σ n p .inserted .intendToDelete (.destroyStore true pred st n)
      (.markTest pred st n))
  | .destroyStore r pred st n =>
    storeP σ n (fun a c => { c with deleted := a.pValidity }) (.destroyFlush r pred st n)
  | .destroyFlush r pred st n => barrier σ n (.deleteTest r pred st n)
  | .deleteTest r pred st n =>
    if (σ.node n).next.getState = .intendToDelete then some (σ, .deleteLoad r pred st n)
    else if r then some (σ, .trimLoad .inRemove pred st n)
    else some (σ, .ret false)
  | .deleteLoad r pred st n => some (σ, .deleteCas r pred st n (σ.node n).next)
  | .deleteCas r pred st n p =>
    some (stateCas σ n p .intendToDelete .deleted (.deleteTest r pred st n)
      (.deleteTest r pred st n))
  | .containsHead => (σ.node head).next.ref.map fun c => (σ, .containsWalk c)
  | .containsWalk curr =>
    if (σ.node curr).key < op.key then
      (σ.node curr).next.ref.map fun c => (σ, .containsWalk c)
    else
      let currState := (σ.node curr).next.getState
      some (σ, .ret ((σ.node curr).key == op.key &&
        (currState == .inserted || currState == .intendToDelete)))
  | .ret _ => none

structure State (V : Type) where
  store : Store V
  thread : Tid → Option (SetOp V × Pc)

def TrimCtx.refs : TrimCtx → List Loc
  | .inFind s => [s]
  | .inRemove => []

-- the nodes of the list that a call still refers to
def Pc.refs : Pc → List Loc
  | .findLoad prev _ curr => [prev, curr]
  | .trimLoad c prev _ curr => prev :: curr :: c.refs
  | .trimCas c prev _ curr succ => prev :: curr :: (c.refs ++ succ.ref.toList)
  | .trimFree c prev _ curr => prev :: curr :: c.refs
  | .allocPNode pred _ curr => [pred, curr]
  | .pnodeAlloc pred _ curr _ => [pred, curr]
  | .allocNode pred _ curr _ _ => [pred, curr]
  | .initNode pred _ curr _ _ _ => [pred, curr]
  | .initNext pred _ curr _ _ => [pred, curr]
  | .linkCas pred _ curr _ _ => [pred, curr]
  | .createStart _ n => [n]
  | .createKey _ n => [n]
  | .createValue _ n => [n]
  | .createEnd _ n => [n]
  | .createFlush _ n => [n]
  | .insertTest _ n => [n]
  | .insertLoad _ n => [n]
  | .insertCas _ n p => n :: p.ref.toList
  | .markTest pred _ n => [pred, n]
  | .markLoad pred _ n => [pred, n]
  | .markCas pred _ n p => pred :: n :: p.ref.toList
  | .destroyStore _ pred _ n => [pred, n]
  | .destroyFlush _ pred _ n => [pred, n]
  | .deleteTest _ pred _ n => [pred, n]
  | .deleteLoad _ pred _ n => [pred, n]
  | .deleteCas _ pred _ n p => pred :: n :: p.ref.toList
  | .containsWalk curr => [curr]
  | _ => []

def Pc.writes : Pc → Option Loc
  | .createStart _ n => some n
  | .createKey _ n => some n
  | .createValue _ n => some n
  | .createEnd _ n => some n
  | .createFlush _ n => some n
  | .markTest _ _ n => some n
  | .markLoad _ _ n => some n
  | .markCas _ _ n _ => some n
  | .destroyStore _ _ _ n => some n
  | .destroyFlush _ _ _ n => some n
  | _ => none

def rank (σ : Store V) (x : Loc) : WithBot ℤ := if x = head then ⊥ else ((σ.node x).key : ℤ)

def Store.heap (σ : Store V) : Chain.Heap Loc (WithBot ℤ) where
  head := head
  succ x := (σ.node x).next.ref
  dead x := (σ.node x).next.state = .deleted
  rank := rank σ

-- no running call may still write to the PNode slot
def State.Recyclable (s : State V) (p : PLoc) : Prop :=
  s.store.pavail p = true ∧ ∀ t op pc x, s.thread t = some (op, pc) → pc.writes = some x →
    (s.store.node x).pptr ≠ some p

def State.goto (s : State V) (σ : Store V) (t : Tid) (c : Option (SetOp V × Pc)) : State V :=
  ⟨σ, Function.update s.thread t c⟩

def initialStore (zero : V) : Store V where
  node x :=
    if x = head then ⟨INT_MIN, zero, none, false, Ptr.addr tail .inserted⟩
    else if x = tail then ⟨INT_MAX, zero, none, false, ⟨none, .inserted⟩⟩
    else ⟨0, zero, none, false, ⟨none, .inserted⟩⟩
  pline _ := ⟨⟨false, false, false, 0, zero⟩, []⟩
  avail x := !(x == head || x == tail)
  pavail _ := true

def initial (zero : V) : State V := ⟨initialStore zero, fun _ => none⟩

inductive Step (s : State V) : Event (SetOp V) → State V → Prop where
  | call (t : Tid) (op : SetOp V) (idle : s.thread t = none) (hk : op.key < INT_MAX) :
    Step s (.call t op) (s.goto s.store t (some (op, start op)))
  | ret (t : Tid) (op : SetOp V) (r : Bool) (h : s.thread t = some (op, .ret r)) :
    Step s (.ret t r) (s.goto s.store t none)
  | tau (t : Tid) (op : SetOp V) (pc pc' : Pc) (slot : ℕ) (σ : Store V)
    (h : s.thread t = some (op, pc)) (hn : next s.store op slot pc = some (σ, pc'))
    (hp : ∀ pred st curr, pc = .allocPNode pred st curr → s.Recyclable slot)
    (ha : ∀ pred st curr p v, pc = .allocNode pred st curr p v → s.store.avail slot = true) :
    Step s (.tau t) (s.goto σ t (some (op, pc')))

theorem goto_thread_self (s : State V) (σ : Store V) (t : Tid) (c : Option (SetOp V × Pc)) :
    (s.goto σ t c).thread t = c := by simp [State.goto]

theorem goto_thread_other (s : State V) (σ : Store V) {t u : Tid}
    (c : Option (SetOp V × Pc)) (h : u ≠ t) : (s.goto σ t c).thread u = s.thread u := by
  simp [State.goto, h]

def machine (V : Type) : Machine (State V) (SetOp V) Pc where
  init s := ∃ zero, s = initial zero
  step := Step
  thread := State.thread
  init_idle := by
    rintro s t ⟨zero, rfl⟩
    rfl
  step_other := by
    intro s e s' u h hu
    cases h <;> exact goto_thread_other _ _ _ hu
  step_call := by
    intro s t op s' h
    cases h with
    | call _ _ idle _ => exact ⟨idle, _, goto_thread_self _ _ _ _⟩
  step_ret := by
    intro s t r s' h
    cases h with
    | ret _ op _ h => exact ⟨⟨op, _, h⟩, goto_thread_self _ _ _ _⟩
  step_tau := by
    intro s t s' h
    cases h with
    | tau _ op pc pc' slot σ h hn hp ha => exact ⟨op, pc, pc', h, goto_thread_self _ _ _ _⟩

def NodeState.Visible (s : NodeState) : Prop := s = .inserted ∨ s = .intendToDelete

def State.abs (s : State V) : Set ℤ :=
  {k | ∃ x, x ≠ head ∧ x ≠ tail ∧ s.store.heap.Linked x ∧
    NodeState.Visible (s.store.node x).next.state ∧ (s.store.node x).key = k}

end SOFT.List
