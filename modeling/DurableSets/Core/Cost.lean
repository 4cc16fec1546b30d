import DurableSets.Core.Linearizable
import DurableSets.Core.Progress
import Mathlib.Algebra.BigOperators.Intervals

variable {S Op Pc : Type*}

namespace Machine

variable (M : Machine S Op Pc)

/-- What the event costs thread `t`, when a step from a point of the code has the price `cost`. -/
def charge (cost : Pc → ℕ) (t : Tid) (s : S) : Event Op → ℕ
  | .tau u => if u = t then (M.thread s t).elim 0 fun c => cost c.2 else 0
  | _ => 0

variable {M} {cost : Pc → ℕ} {s s' : S} {t : Tid} {e : Event Op} {op : Op} {pc pc' : Pc} {c : ℕ}

theorem charge_own (h : M.thread s t = some (op, pc)) : M.charge cost t s (.tau t) = cost pc := by
  simp only [charge, if_true, h, Option.elim]

theorem charge_other (h : t ≠ e.tid) : M.charge cost t s e = 0 := by
  cases e with
  | tau u => exact if_neg fun he => h he.symm
  | call u op => rfl
  | ret u r => rfl

end Machine

namespace Run

variable {M : Machine S Op Pc} (ρ : Run M) (cost : Pc → ℕ) (t : Tid) (i n : ℕ)

def spent : ℕ := ∑ m ∈ Finset.Ico (i + 1) n, M.charge cost t (ρ.state m) (ρ.event m)

/-- At every moment of a call its price is within `sofar`, and at its return within `total`. -/
structure Priced (sofar : Op → ℕ → Prop) (total : Op → Bool → ℕ → Prop) : Prop where
  active : ∀ {t op i n}, n ≤ ρ.length → ρ.Active t op i n → sofar op (ρ.spent cost t i n)
  completed : ∀ {t op r i j}, ρ.Completed t op r i j → total op r (ρ.spent cost t i j)

/-- A call of the kind `P` can always go on, and makes at most `bound` steps, whatever the other
threads do. -/
def WaitFree (P : Op → Prop) (bound : Op → ℕ) : Prop :=
  ∀ t op i n, n ≤ ρ.length → ρ.Active t op i n → P op →
    ρ.spent (fun _ => 1) t i n ≤ bound op ∧ ∃ s, M.Solo t (ρ.state n) s

variable {ρ cost t i n}

theorem spent_start : ρ.spent cost t n (n + 1) = 0 := by
  simp only [spent, Finset.Ico_self, Finset.sum_empty]

theorem spent_succ (h : i < n) : ρ.spent cost t i (n + 1) =
    ρ.spent cost t i n + M.charge cost t (ρ.state n) (ρ.event n) :=
  Finset.sum_Ico_succ_top h _

/-- The account of the running calls: what one of them may have paid when it has come to a point
of its code. -/
structure Metered (ρ : Run M) (cost : Pc → ℕ) (Paid : ℕ → Op → Pc → ℕ → Prop) : Prop where
  call : ∀ {n t op pc}, n < ρ.length → ρ.event n = .call t op →
    M.thread (ρ.state (n + 1)) t = some (op, pc) → Paid (n + 1) op pc 0
  own : ∀ {n t op pc pc' k}, n < ρ.length → ρ.event n = .tau t →
    M.thread (ρ.state n) t = some (op, pc) → M.thread (ρ.state (n + 1)) t = some (op, pc') →
    Paid n op pc k → Paid (n + 1) op pc' (k + cost pc)
  other : ∀ {n t op pc k}, n < ρ.length → t ≠ (ρ.event n).tid →
    M.thread (ρ.state n) t = some (op, pc) → Paid n op pc k → Paid (n + 1) op pc k

namespace Metered

variable {Paid : ℕ → Op → Pc → ℕ → Prop} {op : Op} {pc : Pc}

theorem paid (h : ρ.Metered cost Paid) (hn : n ≤ ρ.length) (ha : ρ.Active t op i n)
    (ht : M.thread (ρ.state n) t = some (op, pc)) : Paid n op pc (ρ.spent cost t i n) := by
  have key : ∀ n ≤ ρ.length, ∀ {t op pc}, M.thread (ρ.state n) t = some (op, pc) →
      ∃ i, ρ.Active t op i n ∧ Paid n op pc (ρ.spent cost t i n) := by
    refine ρ.active_inv ?_ ?_ ?_
    · intro n t op pc hn he _ ht
      rw [spent_start]
      exact h.call hn he ht
    · intro i n t op pc pc' hn ha he ht ht' hp
      rw [spent_succ ha.lt, he, Machine.charge_own ht]
      exact h.own hn he ht ht' hp
    · intro i n t op pc hn ha hne ht _ hp
      rw [spent_succ ha.lt, Machine.charge_other hne, Nat.add_zero]
      exact h.other hn hne ht hp
  obtain ⟨j, hj, hp⟩ := key n hn ht
  obtain ⟨rfl, _⟩ := ha.unique hj
  exact hp

theorem priced {sofar : Op → ℕ → Prop} {total : Op → Bool → ℕ → Prop}
    (h : ρ.Metered cost Paid)
    (within : ∀ {n t op pc k}, n ≤ ρ.length → M.thread (ρ.state n) t = some (op, pc) →
      Paid n op pc k → sofar op k)
    (ret : ∀ {n t op r pc k}, n < ρ.length → ρ.event n = .ret t r →
      M.thread (ρ.state n) t = some (op, pc) → Paid n op pc k → total op r k) :
    ρ.Priced cost sofar total := by
  constructor
  · intro t op i n hn ha
    obtain ⟨pc, ht⟩ := ha.thread hn
    exact within hn ht (h.paid hn ha ht)
  · intro t op r i j hc
    obtain ⟨pc, ht⟩ := hc.active.thread hc.lt.le
    exact ret hc.lt hc.ret ht (h.paid hc.lt.le hc.active ht)

end Metered

end Run

def Run.KeysFrom {V S Pc : Type*} {M : Machine S (SetOp V) Pc} (ρ : Run M) (lo : ℤ) : Prop :=
  ∀ n t op, n < ρ.length → ρ.event n = .call t op → lo ≤ op.key

namespace SetOp

variable {V : Type*} {op : SetOp V} {r : Bool}

/-- A call pays at most once, contains never does, and an update that takes effect does. -/
structure PaysOnce (op : SetOp V) (r : Bool) (k : ℕ) : Prop where
  le : k ≤ 1
  contains : op.IsContains → k = 0
  update : ¬ op.IsContains → r = true → k = 1

theorem paysOnce_false (op : SetOp V) : op.PaysOnce false 0 :=
  ⟨Nat.zero_le 1, fun _ => rfl, fun _ h => absurd h Bool.false_ne_true⟩

theorem paysOnce_contains (h : op.IsContains) : op.PaysOnce r 0 :=
  ⟨Nat.zero_le 1, fun _ => rfl, fun hno => absurd h hno⟩

theorem paysOnce_update (h : ¬ op.IsContains) : op.PaysOnce r 1 :=
  ⟨le_rfl, fun hc => absurd hc h, fun _ _ => rfl⟩

end SetOp
