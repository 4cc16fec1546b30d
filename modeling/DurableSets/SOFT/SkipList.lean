import DurableSets.Core.Tower
import DurableSets.Core.Linearizable
import DurableSets.SOFT.Utilities
import Mathlib.Data.Int.ConditionallyCompleteOrder
import Mathlib.Order.WithBot

namespace SOFT.SkipList

def MAX_LEVEL : ℕ := 21

def INTPTR_MAX : ℤ := 9223372036854775807

def INTPTR_MIN : ℤ := -9223372036854775808

structure Node (V : Type) where
  key : ℤ
  value : V
  pValidity : Bool
  validStart : Bool
  validEnd : Bool
  deleted : Bool
  topLevel : ℕ
  next : ℕ → Ptr

variable {V : Type}

namespace Node

def alloc (n : Node V) : Bool := !n.validStart

def isValid (n : Node V) : Bool := n.validStart == n.validEnd && n.validEnd != n.deleted

def setNext (n : Node V) (i : ℕ) (q : Ptr) : Node V :=
  { n with next := Function.update n.next i q }

end Node

structure Store (V : Type) where
  line : Loc → Line (Node V)
  -- the slots that were never allocated, or were given to ssmem_free since
  avail : Loc → Bool

namespace Store

def node (σ : Store V) (x : Loc) : Node V := (σ.line x).cur

def setLine (σ : Store V) (x : Loc) (l : Line (Node V)) : Store V :=
  { σ with line := Function.update σ.line x l }

def write (σ : Store V) (x : Loc) (n : Node V) : Store V := σ.setLine x ((σ.line x).write n)

def setNext (σ : Store V) (x : Loc) (i : ℕ) (q : Ptr) : Store V :=
  σ.write x ((σ.node x).setNext i q)

def flush (σ : Store V) (x : Loc) : Store V := σ.setLine x (σ.line x).flush

def take (σ : Store V) (x : Loc) : Store V :=
  { σ with avail := Function.update σ.avail x false }

def give (σ : Store V) (x : Loc) : Store V :=
  { σ with avail := Function.update σ.avail x true }

end Store

def head : Loc := 0

def tail : Loc := 1

-- preds[i] and succs[i]; the latter carries the state that the search ascribes to the former
structure Entry where
  pred : Loc
  succ : Loc
  predState : NodeState
deriving DecidableEq

def Entry.succs (e : Entry) : Ptr := Ptr.addr e.succ e.predState

-- the entries of the levels that a search has been through, the lowest one first
abbrev Path := List Entry

-- where find was called: in insert, before newNode is linked at the level, or in remove
inductive FindCtx where
  | inInsert (newNode : Loc) (level : ℕ)
  | inRemove (node : Loc)
deriving DecidableEq

-- where insert calls help: on a node that it found, or on newNode
inductive InsertCtx where
  | found
  | linked (path : Path)
deriving DecidableEq

-- where stateCAS was called: in insert, at the end of markNodes, or in remove
inductive StateCtx where
  | insert (c : InsertCtx)
  | mark
  | delete (result : Bool)
deriving DecidableEq

def StateCtx.expected : StateCtx → NodeState
  | .insert _ => .intendToInsert
  | .mark => .inserted
  | .delete _ => .intendToDelete

def StateCtx.newState : StateCtx → NodeState
  | .insert _ => .inserted
  | .mark => .intendToDelete
  | .delete _ => .deleted

-- the next shared access of a call, with the local variables that are still used;
-- search is findNoCleanup in an insert and findSuccsNoCleanup in a remove
inductive Pc where
  | searchDown (i : ℕ) (pred : Loc) (path : Path)
  | searchTest (i : ℕ) (pred : Loc) (st : NodeState) (succ : Loc) (path : Path)
  | searchNext (i : ℕ) (pred : Loc) (st : NodeState) (succ : Loc) (path : Path)
  | findDown (c : FindCtx) (i : ℕ) (pred : Loc) (path : Path)
  | findLoad (c : FindCtx) (i : ℕ) (pred : Loc) (st : NodeState) (predNext succ : Loc) (path : Path)
  | findCas (c : FindCtx) (i : ℕ) (pred : Loc) (st : NodeState) (predNext succ : Loc) (path : Path)
  | helpStore (c : InsertCtx) (n : Loc)
  | helpFlush (c : InsertCtx) (n : Loc)
  | stateTest (c : StateCtx) (n : Loc)
  | stateLoad (c : StateCtx) (n : Loc)
  | stateCas (c : StateCtx) (n : Loc) (p : Ptr)
  | alloc (path : Path)
  | allocTest (path : Path) (newNode : Loc) (topLevel : ℕ)
  | createStart (path : Path) (newNode : Loc) (topLevel : ℕ) (validity : Bool)
  | createKey (path : Path) (newNode : Loc) (topLevel : ℕ) (validity : Bool)
  | createValue (path : Path) (newNode : Loc) (topLevel : ℕ) (validity : Bool)
  | createTopLevel (path : Path) (newNode : Loc) (topLevel : ℕ) (validity : Bool)
  | createValidity (path : Path) (newNode : Loc) (validity : Bool)
  | initNext (path : Path) (newNode : Loc) (i : ℕ)
  | linkCas (path : Path) (newNode : Loc)
  | lostStore (newNode : Loc)
  | lostFree (newNode : Loc)
  | upperLoad (path : Path) (newNode : Loc) (i : ℕ)
  | upperCas (path : Path) (newNode : Loc) (i : ℕ) (next : Ptr)
  | upperLink (path : Path) (newNode : Loc) (i : ℕ)
  | markLoad (node : Loc) (i : ℕ)
  | markCas (node : Loc) (i : ℕ) (next : Ptr)
  | destroyStore (result : Bool) (node : Loc)
  | destroyFlush (result : Bool) (node : Loc)
  | removeFree (node : Loc)
  | containsDown (i : ℕ) (pred : Loc)
  | containsTest (i : ℕ) (pred curr : Loc)
  | containsPass (i : ℕ) (pred curr : Loc)
  | containsNext (i : ℕ) (pred curr : Loc)
  | ret (r : Bool)
deriving DecidableEq

-- findNoCleanup keeps the arrays for insert; remove only uses succs[0] and succStates[0],
-- which are succ and succState at the end
def keepPath (op : SetOp V) (e : Entry) (path : Path) : Path :=
  match op with
  | .insert _ _ => e :: path
  | _ => path

def FindCtx.keepPath (c : FindCtx) (e : Entry) (path : Path) : Path :=
  match c with
  | .inInsert _ _ => e :: path
  | .inRemove _ => path

def retry : Pc := .searchDown (MAX_LEVEL - 1) head []

def FindCtx.retry (c : FindCtx) : Pc := .findDown c (MAX_LEVEL - 1) head []

def start : SetOp V → Pc
  | .insert _ _ => retry
  | .remove _ => retry
  | .contains _ => .containsDown (MAX_LEVEL - 1) head

-- the loop of markNodes over the upper levels, and stateCAS after it
def mark (n : Loc) : ℕ → Pc
  | 0 => .stateTest .mark n
  | i + 1 => .markLoad n (i + 1)

def afterSearch (σ : Store V) (op : SetOp V) (e : Entry) (succState : NodeState) (path : Path) :
    Pc :=
  match op with
  | .insert key _ =>
    if (σ.node e.succ).key = key then
      if succState ≠ .intendToInsert then .ret false else .helpStore .found e.succ
    else .alloc (keepPath op e path)
  | .remove key =>
    if (σ.node e.succ).key ≠ key then .ret false
    else if isOut succState then .ret false
    else mark e.succ ((σ.node e.succ).topLevel - 1)
  | .contains _ => .ret false

def searchDone (σ : Store V) (op : SetOp V) (e : Entry) (succState : NodeState) (path : Path) :
    ℕ → Pc
  | 0 => afterSearch σ op e succState path
  | i + 1 => .searchDown i e.pred (keepPath op e path)

def afterFind (c : FindCtx) (path : Path) : Pc :=
  match c with
  | .inInsert n i => .upperLoad path n i
  | .inRemove n => .removeFree n

def findDone (c : FindCtx) (e : Entry) (path : Path) : ℕ → Pc
  | 0 => afterFind c (c.keepPath e path)
  | i + 1 => .findDown c i e.pred (c.keepPath e path)

def upper (σ : Store V) (path : Path) (n : Loc) (i : ℕ) : Pc :=
  if i < (σ.node n).topLevel then .upperLoad path n i else .ret true

def afterState (σ : Store V) (n : Loc) (result : Bool) : StateCtx → Pc
  | .insert .found => .ret false
  | .insert (.linked path) => upper σ path n 1
  | .mark => .destroyStore result n
  | .delete won => if won then (FindCtx.inRemove n).retry else .ret false

def next (σ : Store V) (op : SetOp V) (slot : Loc) (level : ℕ) : Pc → Option (Store V × Pc)
  | .searchDown i pred path =>
    -- predState is read off a pointer whose tag getRef has removed
    ((σ.node pred).next i).ref.map fun s => (σ, .searchTest i pred .inserted s path)
  | .searchTest i pred st succ path =>
    let succState := ((σ.node succ).next i).getState
    if succState = .deleted then some (σ, .searchNext i pred st succ path)
    else if op.key ≤ (σ.node succ).key then
      some (σ, searchDone σ op ⟨pred, succ, st⟩ succState path i)
    else some (σ, .searchNext i succ succState succ path)
  | .searchNext i pred st succ path =>
    ((σ.node succ).next i).ref.map fun s => (σ, .searchTest i pred st s path)
  | .findDown c i pred path =>
    let predNext := (σ.node pred).next i
    if predNext.getState = .deleted then some (σ, c.retry)
    else predNext.ref.map fun s => (σ, .findLoad c i pred predNext.getState s s path)
  | .findLoad c i pred st predNext succ path =>
    let succNext := (σ.node succ).next i
    if succNext.getState = .deleted then
      succNext.ref.map fun s => (σ, .findLoad c i pred st predNext s path)
    else if op.key ≤ (σ.node succ).key then
      some (σ, if predNext = succ then findDone c ⟨pred, succ, st⟩ path i
        else .findCas c i pred st predNext succ path)
    else succNext.ref.map fun s => (σ, .findLoad c i succ succNext.getState s s path)
  | .findCas c i pred st predNext succ path =>
    if (σ.node pred).next i = Ptr.addr predNext st then
      some (σ.setNext pred i (Ptr.addr succ st), findDone c ⟨pred, succ, st⟩ path i)
    else some (σ, c.retry)
  | .helpStore c n =>
    some (σ.write n { σ.node n with validEnd := (σ.node n).pValidity }, .helpFlush c n)
  | .helpFlush c n => some (σ.flush n, .stateTest (.insert c) n)
  | .stateTest c n =>
    if ((σ.node n).next 0).getState = c.expected then some (σ, .stateLoad c n)
    else some (σ, afterState σ n false c)
  | .stateLoad c n => some (σ, .stateCas c n ((σ.node n).next 0))
  | .stateCas c n p =>
    if (σ.node n).next 0 = p.createRef c.expected then
      some (σ.setNext n 0 (p.createRef c.newState), afterState σ n true c)
    else some (σ, .stateTest c n)
  | .alloc path => some (σ.take slot, .allocTest path slot level)
  | .allocTest path n l => some (σ, .createStart path n l (σ.node n).alloc)
  | .createStart path n l v =>
    some (σ.write n { σ.node n with validStart := v }, .createKey path n l v)
  | .createKey path n l v =>
    some (σ.write n { σ.node n with key := op.key }, .createValue path n l v)
  | .createValue path n l v =>
    match op with
    | .insert _ value =>
      some (σ.write n { σ.node n with value := value }, .createTopLevel path n l v)
    | _ => none
  | .createTopLevel path n l v =>
    some (σ.write n { σ.node n with topLevel := l }, .createValidity path n v)
  | .createValidity path n v =>
    some (σ.write n { σ.node n with pValidity := v }, .initNext path n 0)
  | .initNext path n i =>
    path[i]?.map fun e =>
      (σ.setNext n i (Ptr.addr e.succ (if i = 0 then .intendToInsert else .inserted)),
        if i + 1 < (σ.node n).topLevel then .initNext path n (i + 1) else .linkCas path n)
  | .linkCas path n =>
    path[0]?.map fun e =>
      if (σ.node e.pred).next 0 = e.succs then
        (σ.setNext e.pred 0 (Ptr.addr n e.predState), .helpStore (.linked path) n)
      else (σ, .lostStore n)
  | .lostStore n =>
    some (σ.write n { σ.node n with validStart := !(σ.node n).pValidity }, .lostFree n)
  | .lostFree n => some (σ.give n, retry)
  | .upperLoad path n i =>
    if isOut ((σ.node n).next i).getState then some (σ, .ret true)
    else path[i]?.map fun e =>
      (σ, if (σ.node n).next i = e.succs then .upperLink path n i
        else .upperCas path n i ((σ.node n).next i))
  | .upperCas path n i q =>
    path[i]?.map fun e =>
      if (σ.node n).next i = q then (σ.setNext n i e.succs, .upperLink path n i)
      else (σ, .ret true)
  | .upperLink path n i =>
    path[i]?.map fun e =>
      if (σ.node e.pred).next i = e.succs then
        (σ.setNext e.pred i (Ptr.addr n .inserted), upper σ path n (i + 1))
      else (σ, (FindCtx.inInsert n i).retry)
  | .markLoad n i =>
    if ((σ.node n).next i).getState = .deleted then some (σ, mark n (i - 1))
    else some (σ, .markCas n i ((σ.node n).next i))
  | .markCas n i q =>
    if (σ.node n).next i = q.createRef .inserted then
      some (σ.setNext n i (q.createRef .deleted), mark n (i - 1))
    else some (σ, .markLoad n i)
  | .destroyStore r n =>
    some (σ.write n { σ.node n with deleted := (σ.node n).pValidity }, .destroyFlush r n)
  | .destroyFlush r n => some (σ.flush n, .stateTest (.delete r) n)
  | .removeFree n => some (σ.give n, .ret true)
  | .containsDown i pred =>
    ((σ.node pred).next i).ref.map fun c => (σ, .containsTest i pred c)
  | .containsTest i pred curr =>
    if (σ.node curr).key < op.key ∨ isOut ((σ.node curr).next i).getState then
      some (σ, .containsPass i pred curr)
    else if (σ.node curr).key = op.key then some (σ, .ret true)
    else match i with
      | 0 => some (σ, .ret false)
      | j + 1 => some (σ, .containsDown j pred)
  | .containsPass i pred curr =>
    if isOut ((σ.node curr).next i).getState then some (σ, .containsNext i pred curr)
    else some (σ, .containsNext i curr curr)
  | .containsNext i pred curr =>
    ((σ.node curr).next i).ref.map fun c => (σ, .containsTest i pred c)
  | .ret _ => none

structure State (V : Type) where
  store : Store V
  thread : Tid → Option (SetOp V × Pc)

abbrev Cursor := Loc × ℕ

-- the path starts at level i
def Path.refs : ℕ → Path → List Cursor
  | _, [] => []
  | i, e :: path => (e.pred, i) :: (e.succ, i) :: Path.refs (i + 1) path

def FindCtx.refs : FindCtx → List Cursor
  | .inInsert n level => [(n, level - 1)]
  | .inRemove n => [(n, 0)]

def InsertCtx.refs (n : Loc) : InsertCtx → List Cursor
  | .found => [(n, 0)]
  | .linked path => (n, 0) :: Path.refs 0 path

def StateCtx.refs (n : Loc) : StateCtx → List Cursor
  | .insert c => c.refs n
  | .mark => [(n, 0)]
  | .delete _ => [(n, 0)]

-- the nodes of the list that a call still refers to; newNode is not among them before it
-- is linked
def Pc.refs : Pc → List Cursor
  | .searchDown i pred path => (pred, i) :: Path.refs (i + 1) path
  | .searchTest i pred _ succ path => (pred, i) :: (succ, i) :: Path.refs (i + 1) path
  | .searchNext i pred _ succ path => (pred, i) :: (succ, i) :: Path.refs (i + 1) path
  | .findDown c i pred path => (pred, i) :: (c.refs ++ Path.refs (i + 1) path)
  | .findLoad c i pred _ predNext succ path =>
    (pred, i) :: (predNext, i) :: (succ, i) :: (c.refs ++ Path.refs (i + 1) path)
  | .findCas c i pred _ predNext succ path =>
    (pred, i) :: (predNext, i) :: (succ, i) :: (c.refs ++ Path.refs (i + 1) path)
  | .helpStore c n => c.refs n
  | .helpFlush c n => c.refs n
  | .stateTest c n => c.refs n
  | .stateLoad c n => c.refs n
  | .stateCas c n _ => c.refs n
  | .alloc path => Path.refs 0 path
  | .allocTest path _ _ => Path.refs 0 path
  | .createStart path _ _ _ => Path.refs 0 path
  | .createKey path _ _ _ => Path.refs 0 path
  | .createValue path _ _ _ => Path.refs 0 path
  | .createTopLevel path _ _ _ => Path.refs 0 path
  | .createValidity path _ _ => Path.refs 0 path
  | .initNext path _ _ => Path.refs 0 path
  | .linkCas path _ => Path.refs 0 path
  | .lostStore _ => []
  | .lostFree _ => []
  | .upperLoad path n i => (n, i - 1) :: Path.refs 0 path
  | .upperCas path n i _ => (n, i - 1) :: Path.refs 0 path
  | .upperLink path n i => (n, i - 1) :: Path.refs 0 path
  | .markLoad n _ => [(n, 0)]
  | .markCas n _ _ => [(n, 0)]
  | .destroyStore _ n => [(n, 0)]
  | .destroyFlush _ n => [(n, 0)]
  | .removeFree n => [(n, 0)]
  | .containsDown i pred => [(pred, i)]
  | .containsTest i pred curr => [(pred, i), (curr, i)]
  | .containsPass i pred curr => [(pred, i), (curr, i)]
  | .containsNext i pred curr => [(pred, i), (curr, i)]
  | .ret _ => []

-- newNode and the level at which it is to be linked next, until the call has linked it at
-- all its levels or given it back
def FindCtx.pending : FindCtx → Option Cursor
  | .inInsert n i => some (n, i)
  | .inRemove _ => none

def InsertCtx.pending (n : Loc) : InsertCtx → Option Cursor
  | .found => none
  | .linked _ => some (n, 1)

def StateCtx.pending (n : Loc) : StateCtx → Option Cursor
  | .insert c => c.pending n
  | .mark => none
  | .delete _ => none

def Pc.pending : Pc → Option Cursor
  | .findDown c _ _ _ => c.pending
  | .findLoad c _ _ _ _ _ _ => c.pending
  | .findCas c _ _ _ _ _ _ => c.pending
  | .helpStore c n => c.pending n
  | .helpFlush c n => c.pending n
  | .stateTest c n => c.pending n
  | .stateLoad c n => c.pending n
  | .stateCas c n _ => c.pending n
  | .allocTest _ n _ => some (n, 0)
  | .createStart _ n _ _ => some (n, 0)
  | .createKey _ n _ _ => some (n, 0)
  | .createValue _ n _ _ => some (n, 0)
  | .createTopLevel _ n _ _ => some (n, 0)
  | .createValidity _ n _ => some (n, 0)
  | .initNext _ n _ => some (n, 0)
  | .linkCas _ n => some (n, 0)
  | .lostStore n => some (n, 0)
  | .lostFree n => some (n, 0)
  | .upperLoad _ n i => some (n, i)
  | .upperCas _ n i _ => some (n, i)
  | .upperLink _ n i => some (n, i)
  | _ => none

def Pc.owns (pc : Pc) : Option Loc := pc.pending.map Prod.fst

def rank (σ : Store V) (x : Loc) : WithBot ℤ := if x = head then ⊥ else ((σ.node x).key : ℤ)

def Store.stateAt (σ : Store V) (i : ℕ) (x : Loc) : NodeState := ((σ.node x).next i).state

def Store.tower (σ : Store V) : Chain.Tower Loc (WithBot ℤ) where
  head := head
  tail := tail
  succ i x := ((σ.node x).next i).ref
  dead i x := σ.stateAt i x = .deleted
  rank := rank σ

def Store.level (σ : Store V) (i : ℕ) : Chain.Heap Loc (WithBot ℤ) := σ.tower.level i

def State.roots (s : State V) : Set Cursor :=
  {c | (c.1 = head ∧ c.2 < MAX_LEVEL) ∨ ∃ t op pc, s.thread t = some (op, pc) ∧ c ∈ pc.refs}

def State.live (s : State V) : Set Cursor := s.store.tower.Live s.roots

-- a slot that ssmem_alloc hands out in the step cannot be got to
def State.Clean (s s' : State V) : Prop :=
  ∀ x, s.store.avail x = true → s'.store.avail x = false → (x, 0) ∉ s.live

def State.goto (s : State V) (σ : Store V) (t : Tid) (c : Option (SetOp V × Pc)) : State V :=
  ⟨σ, Function.update s.thread t c⟩

def initialStore (zero : V) : Store V where
  line x :=
    if x = head then
      ⟨⟨INTPTR_MIN, zero, false, false, false, false, MAX_LEVEL, fun _ => Ptr.addr tail .inserted⟩,
        []⟩
    else if x = tail then
      ⟨⟨INTPTR_MAX, zero, false, false, false, false, MAX_LEVEL, fun _ => ⟨none, .inserted⟩⟩, []⟩
    else ⟨⟨0, zero, false, false, false, false, 0, fun _ => ⟨none, .inserted⟩⟩, []⟩
  avail x := !(x == head || x == tail)

def initial (zero : V) : State V := ⟨initialStore zero, fun _ => none⟩

inductive Step (s : State V) : Event (SetOp V) → State V → Prop where
  | call (t : Tid) (op : SetOp V) (idle : s.thread t = none) (hk : op.key < INTPTR_MAX) :
    Step s (.call t op) (s.goto s.store t (some (op, start op)))
  | ret (t : Tid) (op : SetOp V) (r : Bool) (h : s.thread t = some (op, .ret r)) :
    Step s (.ret t r) (s.goto s.store t none)
  | tau (t : Tid) (op : SetOp V) (pc pc' : Pc) (slot : Loc) (level : ℕ) (σ : Store V)
    (h : s.thread t = some (op, pc)) (hn : next s.store op slot level pc = some (σ, pc'))
    (ha : ∀ path, pc = .alloc path →
      s.store.avail slot = true ∧ 1 ≤ level ∧ level ≤ MAX_LEVEL) :
    Step s (.tau t) (s.goto σ t (some (op, pc')))

theorem goto_thread_self (s : State V) (σ : Store V) (t : Tid) (c : Option (SetOp V × Pc)) :
    (s.goto σ t c).thread t = c := by simp [State.goto]

theorem goto_thread_other (s : State V) (σ : Store V) {t u : Tid}
    (c : Option (SetOp V × Pc)) (h : u ≠ t) : (s.goto σ t c).thread u = s.thread u := by
  simp [State.goto, h]

def machine (V : Type) : Machine (State V) (SetOp V) Pc where
  init s := ∃ zero, s = initial zero
  step := Step
  thread := State.thread
  init_idle := by
    rintro s t ⟨zero, rfl⟩
    rfl
  step_other := by
    intro s e s' u h hu
    cases h <;> exact goto_thread_other _ _ _ hu
  step_call := by
    intro s t op s' h
    cases h with
    | call _ _ idle _ => exact ⟨idle, _, goto_thread_self _ _ _ _⟩
  step_ret := by
    intro s t r s' h
    cases h with
    | ret _ op _ h => exact ⟨⟨op, _, h⟩, goto_thread_self _ _ _ _⟩
  step_tau := by
    intro s t s' h
    cases h with
    | tau _ op pc pc' slot level σ h hn ha => exact ⟨op, pc, pc', h, goto_thread_self _ _ _ _⟩

def State.abs (s : State V) : Set ℤ :=
  {k | ∃ x, x ≠ head ∧ x ≠ tail ∧ (s.store.level 0).Linked x ∧
    (s.store.stateAt 0 x = .inserted ∨ s.store.stateAt 0 x = .intendToDelete) ∧
    (s.store.node x).key = k}

end SOFT.SkipList
