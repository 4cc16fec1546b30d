import Mathlib.Order.ConditionallyCompleteLattice.Basic
import Mathlib.Data.Set.Basic
import Mathlib.Data.Nat.Notation

/-- Addresses of nodes; a null pointer is `none`. -/
abbrev Loc := ℕ

/-- A cache line: what it holds, and what it held since it was last flushed. -/
structure Line (α : Type*) where
  cur : α
  older : List α

namespace Line

variable {α : Type*} {P Q : α → Prop} {l : Line α} {a c : α}

def contents (l : Line α) : List α := l.cur :: l.older

def write (l : Line α) (a : α) : Line α := ⟨a, l.contents⟩

def flush (l : Line α) : Line α := ⟨l.cur, []⟩

def All (P : α → Prop) (l : Line α) : Prop := ∀ c ∈ l.contents, P c

@[simp] theorem write_cur : (l.write a).cur = a := rfl

@[simp] theorem flush_cur : l.flush.cur = l.cur := rfl

@[simp] theorem mem_contents : c ∈ l.contents ↔ c = l.cur ∨ c ∈ l.older := List.mem_cons

@[simp] theorem mem_write : c ∈ (l.write a).contents ↔ c = a ∨ c ∈ l.contents := List.mem_cons

@[simp] theorem mem_flush : c ∈ l.flush.contents ↔ c = l.cur := List.mem_singleton

theorem All.cur (h : l.All P) : P l.cur := h _ (by simp)

theorem All.imp (h : l.All P) (hi : ∀ c, P c → Q c) : l.All Q := fun c hc => hi c (h c hc)

theorem All.write (h : l.All P) (ha : P a) : (l.write a).All P := by
  intro c hc
  rcases mem_write.1 hc with rfl | hc
  · exact ha
  · exact h c hc

theorem all_flush (h : P l.cur) : l.flush.All P := by
  intro c hc
  rw [mem_flush.1 hc]
  exact h

theorem All.flush (h : l.All P) : l.flush.All P := all_flush h.cur

end Line
