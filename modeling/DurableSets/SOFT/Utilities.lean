import DurableSets.Core.Line

namespace SOFT

inductive NodeState where
  | inserted
  | intendToDelete
  | intendToInsert
  | deleted
deriving DecidableEq

def isOut (s : NodeState) : Bool := s == .deleted || s == .intendToInsert

namespace NodeState

def age : NodeState → ℕ
  | .intendToInsert => 0
  | .inserted => 1
  | .intendToDelete => 2
  | .deleted => 3

variable {a b : NodeState}

theorem age_injective (h : a.age = b.age) : a = b := by
  cases a <;> cases b <;> first | rfl | cases h

end NodeState

theorem age_of_ne {a b : NodeState} (h : a.age ≤ b.age) (ha : a ≠ .intendToInsert) :
    b = .inserted ∨ b = .intendToDelete ∨ b = .deleted := by
  cases a <;> cases b <;> simp_all [NodeState.age]

theorem deleted_of_age {a : NodeState} (h : NodeState.deleted.age ≤ a.age) : a = .deleted := by
  cases a <;> simp_all [NodeState.age]

inductive Moves : NodeState → NodeState → Prop
  | insert : Moves .intendToInsert .inserted
  | intend : Moves .inserted .intendToDelete
  | delete : Moves .intendToDelete .deleted

theorem moves_of_age {a b : NodeState} (h : b.age = a.age + 1) : Moves a b := by
  cases a <;> cases b <;> first | exact Moves.insert | exact Moves.intend | exact Moves.delete | cases h

-- a node's next word: its successor, and its own state
structure Ptr where
  ref : Option Loc
  state : NodeState
deriving DecidableEq

namespace Ptr

def createRef (p : Ptr) (s : NodeState) : Ptr := ⟨p.ref, s⟩

def getState (p : Ptr) : NodeState := p.state

def addr (x : Loc) (s : NodeState) : Ptr := ⟨some x, s⟩

end Ptr

end SOFT
