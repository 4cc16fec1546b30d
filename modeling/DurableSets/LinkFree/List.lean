import DurableSets.Core.Chain
import DurableSets.Core.Linearizable
import DurableSets.LinkFree.Utilities
import Mathlib.Data.Int.ConditionallyCompleteOrder
import Mathlib.Order.WithBot

namespace LinkFree.List

structure Node (V : Type) where
  metaData : Uchar
  insertFlag : Bool
  deleteFlag : Bool
  key : ℤ
  value : V
  next : Ptr
deriving DecidableEq

variable {V : Type}

def Node.isMarked (n : Node V) : Bool := n.next.isMarked

-- the branches of recover(): skip, free, or quickInsert
def Node.recovered (n : Node V) : Bool :=
  if n.next = Ptr.null ∧ isValid n.metaData = true then false
  else if isValid n.metaData = false ∨ n.isMarked = true then false
  else true

structure Store (V : Type) where
  line : Loc → Line (Node V)
  -- the slots ssmem_alloc may hand out
  avail : Loc → Bool

namespace Store

def node (σ : Store V) (x : Loc) : Node V := (σ.line x).cur

def setLine (σ : Store V) (x : Loc) (l : Line (Node V)) : Store V :=
  { σ with line := Function.update σ.line x l }

def write (σ : Store V) (x : Loc) (n : Node V) : Store V := σ.setLine x ((σ.line x).write n)

def flush (σ : Store V) (x : Loc) : Store V := σ.setLine x (σ.line x).flush

def take (σ : Store V) (x : Loc) : Store V :=
  { σ with avail := Function.update σ.avail x false }

def give (σ : Store V) (x : Loc) : Store V :=
  { σ with avail := Function.update σ.avail x true }

end Store

def head : Loc := 0

def tail : Loc := 1

inductive TrimCtx where
  | inFind
  | inRemove
deriving DecidableEq

inductive DeleteCtx where
  | trim (c : TrimCtx) (pred : Loc)
  | contains
deriving DecidableEq

inductive ValidCtx where
  | found
  | linked
  | lost
  | removing (pred : Loc) (succ : Ptr)
  | contains
deriving DecidableEq

-- the next shared access of a call, with the local variables that are still used
inductive Pc where
  | find
  | findTest (prev curr : Loc)
  | findNext (prev curr : Loc)
  | deleteLoad (c : DeleteCtx) (n : Loc)
  | deleteFlush (c : DeleteCtx) (n : Loc)
  | deleteStore (c : DeleteCtx) (n : Loc)
  | trimLoad (c : TrimCtx) (pred curr : Loc)
  | trimCas (c : TrimCtx) (pred curr : Loc) (succ : Ptr)
  | trimFree (c : TrimCtx) (pred curr : Loc)
  | validLoad (c : ValidCtx) (n : Loc)
  | validStore (c : ValidCtx) (n : Loc) (oldMetaData : Uchar)
  | insertLoad (r : Bool) (n : Loc)
  | insertFlush (r : Bool) (n : Loc)
  | insertStore (r : Bool) (n : Loc)
  | alloc (pred curr : Loc)
  | flipLoad (pred curr newNode : Loc)
  | flipStore (pred curr newNode : Loc) (oldMetaData : Uchar)
  | initInsertFlag (pred curr newNode : Loc)
  | initDeleteFlag (pred curr newNode : Loc)
  | initKey (pred curr newNode : Loc)
  | initValue (pred curr newNode : Loc)
  | initNext (pred curr newNode : Loc)
  | linkCas (pred curr newNode : Loc)
  | lostStore (newNode : Loc)
  | lostFree (newNode : Loc)
  | removeLoad (pred curr : Loc)
  | markCas (pred curr : Loc) (succ : Ptr)
  | containsHead
  | containsWalk (curr : Loc)
  | ret (r : Bool) (n : Loc)
deriving DecidableEq

def start : SetOp V → Pc
  | .insert _ _ => .find
  | .remove _ => .find
  | .contains _ => .containsHead

def afterFind (σ : Store V) (prev curr : Loc) : SetOp V → Option Pc
  | .insert key _ =>
    if (σ.node curr).key = key then some (.validLoad .found curr) else some (.alloc prev curr)
  | .remove key =>
    if (σ.node curr).key = key then some (.removeLoad prev curr) else some (.ret false curr)
  | .contains _ => none

def afterTrim (pred curr : Loc) : TrimCtx → Pc
  | .inFind => .findNext pred curr
  | .inRemove => .ret true curr

def afterDelete (n : Loc) : DeleteCtx → Pc
  | .trim c pred => .trimLoad c pred n
  | .contains => .ret false n

def afterValid (n : Loc) : ValidCtx → Pc
  | .found => .insertLoad false n
  | .linked => .insertLoad true n
  | .lost => .lostFree n
  | .removing pred succ => .markCas pred n succ
  | .contains => .insertLoad true n

def next (σ : Store V) (op : SetOp V) (slot : Loc) : Pc → Option (Store V × Pc)
  | .find =>
    match (σ.node head).next with
    | ⟨some c, false⟩ => some (σ, .findTest head c)
    | _ => none
  | .findTest prev curr =>
    if (σ.node curr).isMarked then some (σ, .deleteLoad (.trim .inFind prev) curr)
    else if op.key ≤ (σ.node curr).key then (afterFind σ prev curr op).map fun pc => (σ, pc)
    else some (σ, .findNext curr curr)
  | .findNext prev curr => (σ.node curr).next.ref.map fun c => (σ, .findTest prev c)
  | .deleteLoad c n =>
    if (σ.node n).deleteFlag then some (σ, afterDelete n c) else some (σ, .deleteFlush c n)
  | .deleteFlush c n => some (σ.flush n, .deleteStore c n)
  | .deleteStore c n =>
    some (σ.write n { σ.node n with deleteFlag := true }, afterDelete n c)
  | .trimLoad c pred curr => some (σ, .trimCas c pred curr (σ.node curr).next.getRef)
  | .trimCas c pred curr succ =>
    if (σ.node pred).next = Ptr.addr curr then
      some (σ.write pred { σ.node pred with next := succ }, .trimFree c pred curr)
    else some (σ, afterTrim pred curr c)
  | .trimFree c pred curr => some (σ.give curr, afterTrim pred curr c)
  | .validLoad c n =>
    if isValid (σ.node n).metaData then some (σ, afterValid n c)
    else some (σ, .validStore c n (σ.node n).metaData)
  | .validStore c n old =>
    some (σ.write n { σ.node n with metaData := makeValid old }, afterValid n c)
  | .insertLoad r n =>
    if (σ.node n).insertFlag then some (σ, .ret r n) else some (σ, .insertFlush r n)
  | .insertFlush r n => some (σ.flush n, .insertStore r n)
  | .insertStore r n => some (σ.write n { σ.node n with insertFlag := true }, .ret r n)
  | .alloc pred curr => some (σ.take slot, .flipLoad pred curr slot)
  | .flipLoad pred curr n => some (σ, .flipStore pred curr n (σ.node n).metaData)
  | .flipStore pred curr n old =>
    some (σ.write n { σ.node n with metaData := flipV1 old }, .initInsertFlag pred curr n)
  | .initInsertFlag pred curr n =>
    some (σ.write n { σ.node n with insertFlag := false }, .initDeleteFlag pred curr n)
  | .initDeleteFlag pred curr n =>
    some (σ.write n { σ.node n with deleteFlag := false }, .initKey pred curr n)
  | .initKey pred curr n =>
    some (σ.write n { σ.node n with key := op.key }, .initValue pred curr n)
  | .initValue pred curr n =>
    match op with
    | .insert _ value => some (σ.write n { σ.node n with value := value }, .initNext pred curr n)
    | _ => none
  | .initNext pred curr n =>
    some (σ.write n { σ.node n with next := Ptr.addr curr }, .linkCas pred curr n)
  | .linkCas pred curr n =>
    if (σ.node pred).next = Ptr.addr curr then
      some (σ.write pred { σ.node pred with next := Ptr.addr n }, .validLoad .linked n)
    else some (σ, .lostStore n)
  | .lostStore n =>
    some (σ.write n { σ.node n with next := Ptr.null.mark }, .validLoad .lost n)
  | .lostFree n => some (σ.give n, .find)
  | .removeLoad pred curr =>
    some (σ, .validLoad (.removing pred (σ.node curr).next.getRef) curr)
  | .markCas pred curr succ =>
    if (σ.node curr).next = succ then
      some (σ.write curr { σ.node curr with next := succ.mark },
        .deleteLoad (.trim .inRemove pred) curr)
    else some (σ, .find)
  | .containsHead =>
    match (σ.node head).next with
    | ⟨some c, false⟩ => some (σ, .containsWalk c)
    | _ => none
  | .containsWalk curr =>
    if (σ.node curr).key < op.key then
      (σ.node curr).next.ref.map fun c => (σ, .containsWalk c)
    else if (σ.node curr).key ≠ op.key then some (σ, .ret false curr)
    else if (σ.node curr).isMarked then some (σ, .deleteLoad .contains curr)
    else some (σ, .validLoad .contains curr)
  | .ret _ _ => none

structure State (V : Type) where
  store : Store V
  thread : Tid → Option (SetOp V × Pc)

def ptrRefs (p : Ptr) : List Loc := p.ref.toList

def ValidCtx.refs (n : Loc) : ValidCtx → List Loc
  | .found => [n]
  | .linked => [n]
  | .lost => []
  | .removing pred succ => pred :: n :: ptrRefs succ
  | .contains => [n]

def DeleteCtx.refs (n : Loc) : DeleteCtx → List Loc
  | .trim _ pred => [pred, n]
  | .contains => [n]

-- the nodes of the list that a call still refers to; newNode is not among them before it
-- is linked
def Pc.refs : Pc → List Loc
  | .findTest prev curr => [prev, curr]
  | .findNext prev curr => [prev, curr]
  | .deleteLoad c n => c.refs n
  | .deleteFlush c n => c.refs n
  | .deleteStore c n => c.refs n
  | .trimLoad _ pred curr => [pred, curr]
  | .trimCas _ pred curr succ => pred :: curr :: ptrRefs succ
  | .trimFree _ pred curr => [pred, curr]
  | .validLoad c n => c.refs n
  | .validStore c n _ => c.refs n
  | .insertLoad _ n => [n]
  | .insertFlush _ n => [n]
  | .insertStore _ n => [n]
  | .alloc pred curr => [pred, curr]
  | .flipLoad pred curr _ => [pred, curr]
  | .flipStore pred curr _ _ => [pred, curr]
  | .initInsertFlag pred curr _ => [pred, curr]
  | .initDeleteFlag pred curr _ => [pred, curr]
  | .initKey pred curr _ => [pred, curr]
  | .initValue pred curr _ => [pred, curr]
  | .initNext pred curr _ => [pred, curr]
  | .linkCas pred curr _ => [pred, curr]
  | .removeLoad pred curr => [pred, curr]
  | .markCas pred curr succ => pred :: curr :: ptrRefs succ
  | .containsWalk curr => [curr]
  | _ => []

-- the slot a call holds alone: newNode before it is linked
def Pc.owns : Pc → Option Loc
  | .flipLoad _ _ n => some n
  | .flipStore _ _ n _ => some n
  | .initInsertFlag _ _ n => some n
  | .initDeleteFlag _ _ n => some n
  | .initKey _ _ n => some n
  | .initValue _ _ n => some n
  | .initNext _ _ n => some n
  | .linkCas _ _ n => some n
  | .lostStore n => some n
  | .validLoad .lost n => some n
  | .validStore .lost n _ => some n
  | .lostFree n => some n
  | _ => none

def rank (σ : Store V) (x : Loc) : WithBot ℤ := if x = head then ⊥ else ((σ.node x).key : ℤ)

def Store.heap (σ : Store V) : Chain.Heap Loc (WithBot ℤ) where
  head := head
  succ x := (σ.node x).next.ref
  dead x := (σ.node x).next.marked = true
  rank := rank σ

def State.roots (s : State V) : Set Loc :=
  {r | r = head ∨ ∃ t op pc, s.thread t = some (op, pc) ∧ r ∈ pc.refs}

-- no running call can get to the slot, from its variables and on through next pointers
def State.Recyclable (s : State V) (x : Loc) : Prop :=
  s.store.avail x = true ∧ ∀ t op pc, s.thread t = some (op, pc) →
    ∀ r ∈ pc.refs, ¬ s.store.heap.Reach r x

def State.goto (s : State V) (σ : Store V) (t : Tid) (c : Option (SetOp V × Pc)) : State V :=
  ⟨σ, Function.update s.thread t c⟩

def initialStore (zero : V) (junk : Uchar) : Store V where
  line x :=
    if x = head then ⟨⟨junk, false, false, INT_MIN, zero, Ptr.addr tail⟩, []⟩
    else if x = tail then ⟨⟨junk, false, false, INT_MAX, zero, Ptr.null⟩, []⟩
    else ⟨⟨0#8, false, false, 0, zero, Ptr.null⟩, []⟩
  avail x := !(x == head || x == tail)

def initial (zero : V) (junk : Uchar) : State V := ⟨initialStore zero junk, fun _ => none⟩

inductive Step (s : State V) : Event (SetOp V) → State V → Prop where
  | call (t : Tid) (op : SetOp V) (idle : s.thread t = none) (hk : op.key < INT_MAX) :
    Step s (.call t op) (s.goto s.store t (some (op, start op)))
  | ret (t : Tid) (op : SetOp V) (r : Bool) (n : Loc) (h : s.thread t = some (op, .ret r n)) :
    Step s (.ret t r) (s.goto s.store t none)
  | tau (t : Tid) (op : SetOp V) (pc pc' : Pc) (slot : Loc) (σ : Store V)
    (h : s.thread t = some (op, pc)) (hn : next s.store op slot pc = some (σ, pc'))
    (hs : ∀ pred curr, pc = .alloc pred curr → s.Recyclable slot) :
    Step s (.tau t) (s.goto σ t (some (op, pc')))

theorem goto_thread_self (s : State V) (σ : Store V) (t : Tid) (c : Option (SetOp V × Pc)) :
    (s.goto σ t c).thread t = c := by simp [State.goto]

theorem goto_thread_other (s : State V) (σ : Store V) {t u : Tid}
    (c : Option (SetOp V × Pc)) (h : u ≠ t) : (s.goto σ t c).thread u = s.thread u := by
  simp [State.goto, h]

def machine (V : Type) : Machine (State V) (SetOp V) Pc where
  init s := ∃ zero junk, s = initial zero junk
  step := Step
  thread := State.thread
  init_idle := by
    rintro s t ⟨zero, junk, rfl⟩
    rfl
  step_other := by
    intro s e s' u h hu
    cases h <;> exact goto_thread_other _ _ _ hu
  step_call := by
    intro s t op s' h
    cases h with
    | call _ _ idle _ => exact ⟨idle, _, goto_thread_self _ _ _ _⟩
  step_ret := by
    intro s t r s' h
    cases h with
    | ret _ op _ n h => exact ⟨⟨op, _, h⟩, goto_thread_self _ _ _ _⟩
  step_tau := by
    intro s t s' h
    cases h with
    | tau _ op pc pc' slot σ h hn hs => exact ⟨op, pc, pc', h, goto_thread_self _ _ _ _⟩

def State.abs (s : State V) : Set ℤ :=
  {k | ∃ x, x ≠ head ∧ x ≠ tail ∧ s.store.heap.Linked x ∧ ¬ s.store.heap.dead x ∧
    (s.store.node x).key = k}

end LinkFree.List
