import DurableSets.SOFT.ListHelp
import DurableSets.Ssmem.Epochs

namespace SOFT.List.Memory

open Ssmem

variable {V : Type}

inductive Request where
  | alloc
  | volatileAlloc
  | free (p : PLoc)
  | volatileFree (n : Loc)
deriving DecidableEq

def request (σ : Store V) : Pc → Option Request
  | .allocPNode _ _ _ => some .alloc
  | .allocNode _ _ _ _ _ => some .volatileAlloc
  | .trimFree _ _ _ n => (σ.node n).pptr.map .free
  | .lostNode n _ => some (.volatileFree n)
  | .lostPNode p => some (.free p)
  | _ => none

-- the list, and what alloc and volatileAlloc of every thread keep; both count in one version
structure State (V : Type) where
  base : List.State V
  version : Tid → ℕ
  alloc : Pool PLoc
  volatileAlloc : Pool Loc

def State.serve (tsList : List Tid) (s : State V) (t : Tid) (slot : ℕ) :
    Option Request → Option (State V)
  | none => some s
  | some .alloc => (s.alloc.alloc t slot).map fun P => { s with alloc := P }
  | some .volatileAlloc =>
    (s.volatileAlloc.alloc t slot).map fun P => { s with volatileAlloc := P }
  | some (.free p) =>
    (s.alloc.free tsList t p).map fun P =>
      { s with alloc := P, version := tsNext s.version t }
  | some (.volatileFree n) =>
    (s.volatileAlloc.free tsList t n).map fun P =>
      { s with volatileAlloc := P, version := tsNext s.version t }

-- one version is read while a full free set waits for its stamp
def State.collect (s : State V) (t : Tid) : Option Request → Option (State V)
  | some (.free _) => (s.alloc.collect s.version t).map fun P => { s with alloc := P }
  | some (.volatileFree _) =>
    (s.volatileAlloc.collect s.version t).map fun P => { s with volatileAlloc := P }
  | _ => none

def initial (tsList : List Tid) (zero : V) (fsSize volatileFsSize : Tid → ℕ) : State V where
  base := List.initial zero
  version _ := 0
  alloc := Pool.init tsList fsSize fun _ => true
  volatileAlloc := Pool.init tsList volatileFsSize fun x => !(x == head || x == tail)

inductive Step (tsList : List Tid) (s : State V) : Event (SetOp V) → State V → Prop where
  | call (t : Tid) (op : SetOp V) (b : List.State V) (ht : t ∈ tsList)
    (hs : List.Step s.base (.call t op) b) : Step tsList s (.call t op) { s with base := b }
  | ret (t : Tid) (r : Bool) (b : List.State V) (hs : List.Step s.base (.ret t r) b) :
    Step tsList s (.ret t r) { s with base := b }
  | tau (t : Tid) (op : SetOp V) (pc pc' : Pc) (slot : ℕ) (σ : Store V) (s' : State V)
    (h : s.base.thread t = some (op, pc)) (hn : next s.base.store op slot pc = some (σ, pc'))
    (hr : s.serve tsList t slot (request s.base.store pc) = some s') :
    Step tsList s (.tau t) { s' with base := s.base.goto σ t (some (op, pc')) }
  | collect (t : Tid) (op : SetOp V) (pc : Pc) (s' : State V)
    (h : s.base.thread t = some (op, pc))
    (hc : s.collect t (request s.base.store pc) = some s') : Step tsList s (.tau t) s'

theorem collect_base {s s' : State V} {t : Tid} {r : Option Request}
    (h : s.collect t r = some s') : s'.base = s.base ∧ s'.version = s.version := by
  cases r with
  | none => cases h
  | some r =>
    cases r with
    | alloc => cases h
    | volatileAlloc => cases h
    | free p =>
      obtain ⟨P, _, rfl⟩ := Option.map_eq_some_iff.1 h
      exact ⟨rfl, rfl⟩
    | volatileFree n =>
      obtain ⟨P, _, rfl⟩ := Option.map_eq_some_iff.1 h
      exact ⟨rfl, rfl⟩

def machine (V : Type) (tsList : List Tid) : Machine (State V) (SetOp V) Pc where
  init s := ∃ zero fsSize volatileFsSize, (∀ t, 1 ≤ fsSize t ∧ 1 ≤ volatileFsSize t) ∧
    s = initial tsList zero fsSize volatileFsSize
  step := Step tsList
  thread s := s.base.thread
  init_idle := by
    rintro s t ⟨zero, fsSize, volatileFsSize, _, rfl⟩
    rfl
  step_other := by
    intro s e s' u h hu
    cases h with
    | call t op b ht hs => exact (List.machine V).step_other hs hu
    | ret t r b hs => exact (List.machine V).step_other hs hu
    | tau t op pc pc' slot σ s' h hn hr => exact goto_thread_other _ _ _ hu
    | collect t op pc s' h hc => rw [(collect_base hc).1]
  step_call := by
    intro s t op s' h
    cases h with
    | call _ _ b ht hs => exact (List.machine V).step_call hs
  step_ret := by
    intro s t r s' h
    cases h with
    | ret _ _ b hs => exact (List.machine V).step_ret hs
  step_tau := by
    intro s t s' h
    cases h with
    | tau _ op pc pc' slot σ s' h hn hr => exact ⟨op, pc, pc', h, goto_thread_self _ _ _ _⟩
    | collect _ op pc s' h hc =>
      exact ⟨op, pc, pc, h, by rw [(collect_base hc).1]; exact h⟩

theorem next_avail {σ σ' : Store V} {op : SetOp V} {slot : ℕ} {pc pc' : Pc}
    (hn : next σ op slot pc = some (σ', pc')) :
    σ'.pavail = (match request σ pc with
      | some .alloc => Function.update σ.pavail slot false
      | some (.free p) => Function.update σ.pavail p true
      | _ => σ.pavail) ∧
    σ'.avail = (match request σ pc with
      | some .volatileAlloc => Function.update σ.avail slot false
      | some (.volatileFree n) => Function.update σ.avail n true
      | _ => σ.avail) := by
  cases pc <;> simp only [next, request, storeP, barrier, stateCas] at hn ⊢ <;>
    grind [Option.map_eq_some_iff, Store.setNext, Store.write, Store.take, Store.give, Store.takeP, Store.giveP,
      Store.writeP, Store.flushP, Store.setLine]

end SOFT.List.Memory
