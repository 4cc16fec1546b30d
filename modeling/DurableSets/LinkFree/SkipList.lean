import DurableSets.Core.Tower
import DurableSets.Core.Linearizable
import DurableSets.LinkFree.Utilities
import Mathlib.Data.Int.ConditionallyCompleteOrder
import Mathlib.Order.WithBot

namespace LinkFree.SkipList

def MAX_LEVEL : ℕ := 21

structure Node (V : Type) where
  metaData : Uchar
  insertFlag : Bool
  deleteFlag : Bool
  topLevel : ℕ
  key : ℤ
  value : V
  next : ℕ → Ptr

variable {V : Type}

def Node.setNext (n : Node V) (i : ℕ) (q : Ptr) : Node V :=
  { n with next := Function.update n.next i q }

structure Store (V : Type) where
  line : Loc → Line (Node V)
  -- the slots that were never allocated, or were given to ssmem_free since
  avail : Loc → Bool

namespace Store

def node (σ : Store V) (x : Loc) : Node V := (σ.line x).cur

def setLine (σ : Store V) (x : Loc) (l : Line (Node V)) : Store V :=
  { σ with line := Function.update σ.line x l }

def write (σ : Store V) (x : Loc) (n : Node V) : Store V := σ.setLine x ((σ.line x).write n)

def setNext (σ : Store V) (x : Loc) (i : ℕ) (q : Ptr) : Store V :=
  σ.write x ((σ.node x).setNext i q)

def flush (σ : Store V) (x : Loc) : Store V := σ.setLine x (σ.line x).flush

def take (σ : Store V) (x : Loc) : Store V :=
  { σ with avail := Function.update σ.avail x false }

def give (σ : Store V) (x : Loc) : Store V :=
  { σ with avail := Function.update σ.avail x true }

end Store

def head : Loc := 0

def tail : Loc := 1

-- preds[i] and succs[i] of the levels that a search has been through, the lowest one first
abbrev Path := List (Loc × Loc)

-- where find was called: in insert, before newNode is linked at the level, or in remove
inductive FindCtx where
  | inInsert (newNode : Loc) (level : ℕ)
  | inRemove (node : Loc)
deriving DecidableEq

inductive DeleteCtx where
  | find (c : FindCtx) (pred predNext succNext : Loc) (path : Path)
  | remove (result : Bool)
  | contains
deriving DecidableEq

inductive ValidCtx where
  | found
  | linked (path : Path)
  | lost
  | removing
  | contains
deriving DecidableEq

inductive InsertCtx where
  | found
  | linked (path : Path)
  | contains
deriving DecidableEq

-- the next shared access of a call, with the local variables that are still used;
-- search is findNoCleanup in an insert and findSuccsNoCleanup in a remove
inductive Pc where
  | searchDown (i : ℕ) (pred : Loc) (path : Path)
  | searchTest (i : ℕ) (pred succ : Loc) (path : Path)
  | searchNext (i : ℕ) (pred succ : Loc) (path : Path)
  | findDown (c : FindCtx) (i : ℕ) (pred : Loc) (path : Path)
  | findLoad (c : FindCtx) (i : ℕ) (pred predNext succ : Loc) (path : Path)
  | findCas (c : FindCtx) (i : ℕ) (pred predNext succ : Loc) (path : Path)
  | deleteLoad (c : DeleteCtx) (n : Loc)
  | deleteFlush (c : DeleteCtx) (n : Loc)
  | deleteStore (c : DeleteCtx) (n : Loc)
  | validLoad (c : ValidCtx) (n : Loc)
  | validStore (c : ValidCtx) (n : Loc) (oldMetaData : Uchar)
  | insertLoad (c : InsertCtx) (n : Loc)
  | insertFlush (c : InsertCtx) (n : Loc)
  | insertStore (c : InsertCtx) (n : Loc)
  | alloc (path : Path)
  | flipLoad (path : Path) (newNode : Loc) (topLevel : ℕ)
  | flipStore (path : Path) (newNode : Loc) (topLevel : ℕ) (oldMetaData : Uchar)
  | initInsertFlag (path : Path) (newNode : Loc) (topLevel : ℕ)
  | initDeleteFlag (path : Path) (newNode : Loc) (topLevel : ℕ)
  | initKey (path : Path) (newNode : Loc) (topLevel : ℕ)
  | initValue (path : Path) (newNode : Loc) (topLevel : ℕ)
  | initTopLevel (path : Path) (newNode : Loc) (topLevel : ℕ)
  | initNext (path : Path) (newNode : Loc) (i : ℕ)
  | linkCas (path : Path) (newNode : Loc)
  | lostStore (newNode : Loc)
  | lostFree (newNode : Loc)
  | upperLoad (path : Path) (newNode : Loc) (i : ℕ)
  | upperCas (path : Path) (newNode : Loc) (i : ℕ) (next : Ptr)
  | upperLink (path : Path) (newNode : Loc) (i : ℕ)
  | markLoad (node : Loc) (i : ℕ)
  | markCas (node : Loc) (i : ℕ) (next : Ptr)
  | removeFree (node : Loc)
  | containsDown (i : ℕ) (pred : Loc)
  | containsTest (i : ℕ) (pred curr : Loc)
  | containsPass (i : ℕ) (pred curr : Loc)
  | containsNext (i : ℕ) (pred curr : Loc)
  | ret (r : Bool)
deriving DecidableEq

-- findNoCleanup keeps both arrays for insert; remove only uses succs[0], which is succ itself
def keepPath (op : SetOp V) (pred succ : Loc) (path : Path) : Path :=
  match op with
  | .insert _ _ => (pred, succ) :: path
  | _ => path

def FindCtx.keepPath (c : FindCtx) (pred succ : Loc) (path : Path) : Path :=
  match c with
  | .inInsert _ _ => (pred, succ) :: path
  | .inRemove _ => path

def retry : Pc := .searchDown (MAX_LEVEL - 1) head []

def FindCtx.retry (c : FindCtx) : Pc := .findDown c (MAX_LEVEL - 1) head []

def start : SetOp V → Pc
  | .insert _ _ => retry
  | .remove _ => retry
  | .contains _ => .containsDown (MAX_LEVEL - 1) head

def afterSearch (σ : Store V) (op : SetOp V) (pred succ : Loc) (path : Path) : Pc :=
  match op with
  | .insert key _ =>
    if (σ.node succ).key = key then .validLoad .found succ
    else .alloc (keepPath op pred succ path)
  | .remove key => if (σ.node succ).key = key then .validLoad .removing succ else .ret false
  | .contains _ => .ret false

def searchDone (σ : Store V) (op : SetOp V) (pred succ : Loc) (path : Path) : ℕ → Pc
  | 0 => afterSearch σ op pred succ path
  | i + 1 => .searchDown i pred (keepPath op pred succ path)

def afterFind (c : FindCtx) (path : Path) : Pc :=
  match c with
  | .inInsert n i => .upperLoad path n i
  | .inRemove n => .removeFree n

def findDone (c : FindCtx) (pred succ : Loc) (path : Path) : ℕ → Pc
  | 0 => afterFind c (c.keepPath pred succ path)
  | i + 1 => .findDown c i pred (c.keepPath pred succ path)

def afterDelete (n : Loc) : DeleteCtx → Pc
  | .find c pred predNext succNext path => .findLoad c 0 pred predNext succNext path
  | .remove result => if result then (FindCtx.inRemove n).retry else .ret false
  | .contains => .ret false

def upper (σ : Store V) (path : Path) (n : Loc) (i : ℕ) : Pc :=
  if i < (σ.node n).topLevel then .upperLoad path n i else .ret true

-- the loop of markNode; its result is the one of level 0
def marked (n : Loc) (result : Bool) : ℕ → Pc
  | 0 => .deleteLoad (.remove result) n
  | i + 1 => .markLoad n i

def afterValid (σ : Store V) (n : Loc) : ValidCtx → Pc
  | .found => .insertLoad .found n
  | .linked path => .insertLoad (.linked path) n
  | .lost => .lostFree n
  | .removing => .markLoad n ((σ.node n).topLevel - 1)
  | .contains => .insertLoad .contains n

def afterInsert (σ : Store V) (n : Loc) : InsertCtx → Pc
  | .found => .ret false
  | .linked path => upper σ path n 1
  | .contains => .ret true

def next (σ : Store V) (op : SetOp V) (slot : Loc) (level : ℕ) : Pc → Option (Store V × Pc)
  | .searchDown i pred path =>
    ((σ.node pred).next i).ref.map fun s => (σ, .searchTest i pred s path)
  | .searchTest i pred succ path =>
    if ((σ.node succ).next i).isMarked then some (σ, .searchNext i pred succ path)
    else if op.key ≤ (σ.node succ).key then some (σ, searchDone σ op pred succ path i)
    else some (σ, .searchNext i succ succ path)
  | .searchNext i pred succ path =>
    ((σ.node succ).next i).ref.map fun s => (σ, .searchTest i pred s path)
  | .findDown c i pred path =>
    if ((σ.node pred).next i).isMarked then some (σ, c.retry)
    else ((σ.node pred).next i).ref.map fun s => (σ, .findLoad c i pred s s path)
  | .findLoad c i pred predNext succ path =>
    let succNext := (σ.node succ).next i
    if succNext.isMarked then
      succNext.ref.map fun s =>
        (σ, if i = 0 then .deleteLoad (.find c pred predNext s path) succ
          else .findLoad c i pred predNext s path)
    else if op.key ≤ (σ.node succ).key then
      some (σ, if predNext = succ then findDone c pred succ path i
        else .findCas c i pred predNext succ path)
    else succNext.ref.map fun s => (σ, .findLoad c i succ s s path)
  | .findCas c i pred predNext succ path =>
    if (σ.node pred).next i = Ptr.addr predNext then
      some (σ.setNext pred i (Ptr.addr succ), findDone c pred succ path i)
    else some (σ, c.retry)
  | .deleteLoad c n =>
    if (σ.node n).deleteFlag then some (σ, afterDelete n c) else some (σ, .deleteFlush c n)
  | .deleteFlush c n => some (σ.flush n, .deleteStore c n)
  | .deleteStore c n =>
    some (σ.write n { σ.node n with deleteFlag := true }, afterDelete n c)
  | .validLoad c n =>
    if isValid (σ.node n).metaData then some (σ, afterValid σ n c)
    else some (σ, .validStore c n (σ.node n).metaData)
  | .validStore c n old =>
    some (σ.write n { σ.node n with metaData := makeValid old }, afterValid σ n c)
  | .insertLoad c n =>
    if (σ.node n).insertFlag then some (σ, afterInsert σ n c) else some (σ, .insertFlush c n)
  | .insertFlush c n => some (σ.flush n, .insertStore c n)
  | .insertStore c n =>
    some (σ.write n { σ.node n with insertFlag := true }, afterInsert σ n c)
  | .alloc path => some (σ.take slot, .flipLoad path slot level)
  | .flipLoad path n l => some (σ, .flipStore path n l (σ.node n).metaData)
  | .flipStore path n l old =>
    some (σ.write n { σ.node n with metaData := flipV1 old }, .initInsertFlag path n l)
  | .initInsertFlag path n l =>
    some (σ.write n { σ.node n with insertFlag := false }, .initDeleteFlag path n l)
  | .initDeleteFlag path n l =>
    some (σ.write n { σ.node n with deleteFlag := false }, .initKey path n l)
  | .initKey path n l =>
    some (σ.write n { σ.node n with key := op.key }, .initValue path n l)
  | .initValue path n l =>
    match op with
    | .insert _ value => some (σ.write n { σ.node n with value := value }, .initTopLevel path n l)
    | _ => none
  | .initTopLevel path n l =>
    some (σ.write n { σ.node n with topLevel := l }, .initNext path n 0)
  | .initNext path n i =>
    path[i]?.map fun e => (σ.setNext n i (Ptr.addr e.2),
      if i + 1 < (σ.node n).topLevel then .initNext path n (i + 1) else .linkCas path n)
  | .linkCas path n =>
    path[0]?.map fun e =>
      if (σ.node e.1).next 0 = Ptr.addr e.2 then
        (σ.setNext e.1 0 (Ptr.addr n), .validLoad (.linked path) n)
      else (σ, .lostStore n)
  | .lostStore n => some (σ.setNext n 0 Ptr.null.mark, .validLoad .lost n)
  | .lostFree n => some (σ.give n, retry)
  | .upperLoad path n i =>
    if ((σ.node n).next i).isMarked then some (σ, .ret true)
    else path[i]?.map fun e =>
      (σ, if (σ.node n).next i = Ptr.addr e.2 then .upperLink path n i
        else .upperCas path n i ((σ.node n).next i))
  | .upperCas path n i q =>
    path[i]?.map fun e =>
      if (σ.node n).next i = q then (σ.setNext n i (Ptr.addr e.2), .upperLink path n i)
      else (σ, .ret true)
  | .upperLink path n i =>
    path[i]?.map fun e =>
      if (σ.node e.1).next i = Ptr.addr e.2 then
        (σ.setNext e.1 i (Ptr.addr n), upper σ path n (i + 1))
      else (σ, (FindCtx.inInsert n i).retry)
  | .markLoad n i =>
    if ((σ.node n).next i).isMarked then some (σ, marked n false i)
    else some (σ, .markCas n i ((σ.node n).next i))
  | .markCas n i q =>
    if (σ.node n).next i = q then some (σ.setNext n i q.mark, marked n true i)
    else some (σ, .markLoad n i)
  | .removeFree n => some (σ.give n, .ret true)
  | .containsDown i pred =>
    ((σ.node pred).next i).ref.map fun c => (σ, .containsTest i pred c)
  | .containsTest i pred curr =>
    if (σ.node curr).key < op.key ∨ ((σ.node curr).next i).isMarked then
      some (σ, .containsPass i pred curr)
    else if (σ.node curr).key = op.key then some (σ, .validLoad .contains curr)
    else match i with
      | 0 => some (σ, .ret false)
      | j + 1 => some (σ, .containsDown j pred)
  | .containsPass i pred curr =>
    if ((σ.node curr).next i).isMarked then
      if i = 0 ∧ (σ.node curr).key = op.key then some (σ, .deleteLoad .contains curr)
      else some (σ, .containsNext i pred curr)
    else some (σ, .containsNext i curr curr)
  | .containsNext i pred curr =>
    ((σ.node curr).next i).ref.map fun c => (σ, .containsTest i pred c)
  | .ret _ => none

structure State (V : Type) where
  store : Store V
  thread : Tid → Option (SetOp V × Pc)

abbrev Cursor := Loc × ℕ

-- the path starts at level i
def Path.refs : ℕ → Path → List Cursor
  | _, [] => []
  | i, e :: path => (e.1, i) :: (e.2, i) :: Path.refs (i + 1) path

def FindCtx.refs : FindCtx → List Cursor
  | .inInsert n level => [(n, level - 1)]
  | .inRemove n => [(n, 0)]

def DeleteCtx.refs (n : Loc) : DeleteCtx → List Cursor
  | .find c pred predNext succNext path =>
    (pred, 0) :: (predNext, 0) :: (succNext, 0) :: (n, 0) :: (c.refs ++ Path.refs 1 path)
  | .remove _ => [(n, 0)]
  | .contains => [(n, 0)]

def ValidCtx.refs (n : Loc) : ValidCtx → List Cursor
  | .found => [(n, 0)]
  | .linked path => (n, 0) :: Path.refs 0 path
  | .lost => []
  | .removing => [(n, 0)]
  | .contains => [(n, 0)]

def InsertCtx.refs (n : Loc) : InsertCtx → List Cursor
  | .found => [(n, 0)]
  | .linked path => (n, 0) :: Path.refs 0 path
  | .contains => [(n, 0)]

-- the nodes of the list that a call still refers to; newNode is not among them before it
-- is linked
def Pc.refs : Pc → List Cursor
  | .searchDown i pred path => (pred, i) :: Path.refs (i + 1) path
  | .searchTest i pred succ path => (pred, i) :: (succ, i) :: Path.refs (i + 1) path
  | .searchNext i pred succ path => (pred, i) :: (succ, i) :: Path.refs (i + 1) path
  | .findDown c i pred path => (pred, i) :: (c.refs ++ Path.refs (i + 1) path)
  | .findLoad c i pred predNext succ path =>
    (pred, i) :: (predNext, i) :: (succ, i) :: (c.refs ++ Path.refs (i + 1) path)
  | .findCas c i pred predNext succ path =>
    (pred, i) :: (predNext, i) :: (succ, i) :: (c.refs ++ Path.refs (i + 1) path)
  | .deleteLoad c n => c.refs n
  | .deleteFlush c n => c.refs n
  | .deleteStore c n => c.refs n
  | .validLoad c n => c.refs n
  | .validStore c n _ => c.refs n
  | .insertLoad c n => c.refs n
  | .insertFlush c n => c.refs n
  | .insertStore c n => c.refs n
  | .alloc path => Path.refs 0 path
  | .flipLoad path _ _ => Path.refs 0 path
  | .flipStore path _ _ _ => Path.refs 0 path
  | .initInsertFlag path _ _ => Path.refs 0 path
  | .initDeleteFlag path _ _ => Path.refs 0 path
  | .initKey path _ _ => Path.refs 0 path
  | .initValue path _ _ => Path.refs 0 path
  | .initTopLevel path _ _ => Path.refs 0 path
  | .initNext path _ _ => Path.refs 0 path
  | .linkCas path _ => Path.refs 0 path
  | .lostStore _ => []
  | .lostFree _ => []
  | .upperLoad path n i => (n, i - 1) :: Path.refs 0 path
  | .upperCas path n i _ => (n, i - 1) :: Path.refs 0 path
  | .upperLink path n i => (n, i - 1) :: Path.refs 0 path
  | .markLoad n _ => [(n, 0)]
  | .markCas n _ _ => [(n, 0)]
  | .removeFree n => [(n, 0)]
  | .containsDown i pred => [(pred, i)]
  | .containsTest i pred curr => [(pred, i), (curr, i)]
  | .containsPass i pred curr => [(pred, i), (curr, i)]
  | .containsNext i pred curr => [(pred, i), (curr, i)]
  | .ret _ => []

-- newNode, until the call has linked it at all its levels or given it back
def FindCtx.owns : FindCtx → Option Loc
  | .inInsert n _ => some n
  | .inRemove _ => none

def DeleteCtx.owns : DeleteCtx → Option Loc
  | .find c _ _ _ _ => c.owns
  | .remove _ => none
  | .contains => none

def ValidCtx.owns (n : Loc) : ValidCtx → Option Loc
  | .linked _ => some n
  | .lost => some n
  | _ => none

def InsertCtx.owns (n : Loc) : InsertCtx → Option Loc
  | .linked _ => some n
  | _ => none

def Pc.owns : Pc → Option Loc
  | .findDown c _ _ _ => c.owns
  | .findLoad c _ _ _ _ _ => c.owns
  | .findCas c _ _ _ _ _ => c.owns
  | .deleteLoad c _ => c.owns
  | .deleteFlush c _ => c.owns
  | .deleteStore c _ => c.owns
  | .validLoad c n => c.owns n
  | .validStore c n _ => c.owns n
  | .insertLoad c n => c.owns n
  | .insertFlush c n => c.owns n
  | .insertStore c n => c.owns n
  | .flipLoad _ n _ => some n
  | .flipStore _ n _ _ => some n
  | .initInsertFlag _ n _ => some n
  | .initDeleteFlag _ n _ => some n
  | .initKey _ n _ => some n
  | .initValue _ n _ => some n
  | .initTopLevel _ n _ => some n
  | .initNext _ n _ => some n
  | .linkCas _ n => some n
  | .lostStore n => some n
  | .lostFree n => some n
  | .upperLoad _ n _ => some n
  | .upperCas _ n _ _ => some n
  | .upperLink _ n _ => some n
  | _ => none

def rank (σ : Store V) (x : Loc) : WithBot ℤ := if x = head then ⊥ else ((σ.node x).key : ℤ)

def Store.tower (σ : Store V) : Chain.Tower Loc (WithBot ℤ) where
  head := head
  tail := tail
  succ i x := ((σ.node x).next i).ref
  dead i x := ((σ.node x).next i).marked = true
  rank := rank σ

def Store.level (σ : Store V) (i : ℕ) : Chain.Heap Loc (WithBot ℤ) := σ.tower.level i

def State.roots (s : State V) : Set Cursor :=
  {c | (c.1 = head ∧ c.2 < MAX_LEVEL) ∨ ∃ t op pc, s.thread t = some (op, pc) ∧ c ∈ pc.refs}

def State.live (s : State V) : Set Cursor := s.store.tower.Live s.roots

-- a slot that ssmem_alloc hands out in the step cannot be got to
def State.Clean (s s' : State V) : Prop :=
  ∀ x, s.store.avail x = true → s'.store.avail x = false → (x, 0) ∉ s.live

def State.goto (s : State V) (σ : Store V) (t : Tid) (c : Option (SetOp V × Pc)) : State V :=
  ⟨σ, Function.update s.thread t c⟩

def initialStore (zero : V) (junk : Uchar) : Store V where
  line x :=
    if x = head then ⟨⟨junk, false, false, MAX_LEVEL, INT_MIN, zero, fun _ => Ptr.addr tail⟩, []⟩
    else if x = tail then ⟨⟨junk, false, false, MAX_LEVEL, INT_MAX, zero, fun _ => Ptr.null⟩, []⟩
    else ⟨⟨0#8, false, false, 0, 0, zero, fun _ => Ptr.null⟩, []⟩
  avail x := !(x == head || x == tail)

def initial (zero : V) (junk : Uchar) : State V := ⟨initialStore zero junk, fun _ => none⟩

inductive Step (s : State V) : Event (SetOp V) → State V → Prop where
  | call (t : Tid) (op : SetOp V) (idle : s.thread t = none) (hk : op.key < INT_MAX) :
    Step s (.call t op) (s.goto s.store t (some (op, start op)))
  | ret (t : Tid) (op : SetOp V) (r : Bool) (h : s.thread t = some (op, .ret r)) :
    Step s (.ret t r) (s.goto s.store t none)
  | tau (t : Tid) (op : SetOp V) (pc pc' : Pc) (slot : Loc) (level : ℕ) (σ : Store V)
    (h : s.thread t = some (op, pc)) (hn : next s.store op slot level pc = some (σ, pc'))
    (ha : ∀ path, pc = .alloc path →
      s.store.avail slot = true ∧ 1 ≤ level ∧ level ≤ MAX_LEVEL) :
    Step s (.tau t) (s.goto σ t (some (op, pc')))

theorem goto_thread_self (s : State V) (σ : Store V) (t : Tid) (c : Option (SetOp V × Pc)) :
    (s.goto σ t c).thread t = c := by simp [State.goto]

theorem goto_thread_other (s : State V) (σ : Store V) {t u : Tid}
    (c : Option (SetOp V × Pc)) (h : u ≠ t) : (s.goto σ t c).thread u = s.thread u := by
  simp [State.goto, h]

def machine (V : Type) : Machine (State V) (SetOp V) Pc where
  init s := ∃ zero junk, s = initial zero junk
  step := Step
  thread := State.thread
  init_idle := by
    rintro s t ⟨zero, junk, rfl⟩
    rfl
  step_other := by
    intro s e s' u h hu
    cases h <;> exact goto_thread_other _ _ _ hu
  step_call := by
    intro s t op s' h
    cases h with
    | call _ _ idle _ => exact ⟨idle, _, goto_thread_self _ _ _ _⟩
  step_ret := by
    intro s t r s' h
    cases h with
    | ret _ op _ h => exact ⟨⟨op, _, h⟩, goto_thread_self _ _ _ _⟩
  step_tau := by
    intro s t s' h
    cases h with
    | tau _ op pc pc' slot level σ h hn ha => exact ⟨op, pc, pc', h, goto_thread_self _ _ _ _⟩

end LinkFree.SkipList
