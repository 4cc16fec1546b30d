import Mathlib.Algebra.Order.Group.Nat
import Mathlib.Tactic.Common

/-! A slot of an allocator over the moments of a run: it is available or not, and the steps
that take it and that give it back are known. -/

structure Ledger (L : ℕ) (avail : ℕ → Bool) (takes gives : ℕ → Prop) : Prop where
  take : ∀ {m}, takes m → m < L ∧ avail m = true ∧ avail (m + 1) = false
  give : ∀ {m}, gives m → m < L ∧ avail m = false ∧ avail (m + 1) = true
  same : ∀ {m}, m < L → avail (m + 1) = avail m ∨ takes m ∨ gives m

namespace Ledger

variable {L a b m n : ℕ} {avail : ℕ → Bool} {takes gives : ℕ → Prop}

-- taken with the step from moment a, and not given back before moment n
def Since (takes gives : ℕ → Prop) (a n : ℕ) : Prop :=
  a < n ∧ takes a ∧ ∀ m, a < m → m < n → ¬ gives m

-- every time that the slot was taken before moment n, it is still held then or it was given
-- back exactly once; and it is given back only when it is held
structure Settles (takes gives : ℕ → Prop) (n : ℕ) : Prop where
  once : ∀ a, a < n → takes a → Since takes gives a n ∨
    ∃! m, a < m ∧ m < n ∧ gives m ∧ ∀ k, a < k → k < m → ¬ takes k
  held : ∀ m, m < n → gives m → ∃ a, Since takes gives a m

theorem last_change (h : Ledger L avail takes gives) (h0 : avail 0 = true) :
    ∀ n ≤ L, avail n = false → ∃ a, Since takes gives a n ∧
      ∀ m, a < m → m ≤ n → avail m = false := by
  intro n
  induction n with
  | zero => exact fun _ hn => absurd (h0.symm.trans hn) (by decide)
  | succ n ih =>
    intro hn hav
    rcases h.same (m := n) (by omega) with he | ht | hg
    · obtain ⟨a, ha, hall⟩ := ih (by omega) (he.symm.trans hav)
      refine ⟨a, ⟨ha.1.trans n.lt_succ_self, ha.2.1, fun m h1 h2 hg => ?_⟩, fun m h1 h2 => ?_⟩
      · rcases Nat.lt_succ_iff_lt_or_eq.1 h2 with h2 | rfl
        · exact ha.2.2 m h1 h2 hg
        · exact absurd (hav.symm.trans (h.give hg).2.2) (by decide)
      · rcases Nat.lt_or_eq_of_le h2 with h2 | rfl
        · exact hall m h1 (by omega)
        · exact hav
    · refine ⟨n, ⟨n.lt_succ_self, ht, fun m h1 h2 => by omega⟩, fun m h1 h2 => ?_⟩
      obtain rfl : m = n + 1 := by omega
      exact hav
    · exact absurd (hav.symm.trans (h.give hg).2.2) (by decide)

theorem Since.unavail (h : Ledger L avail takes gives) (ha : Since takes gives a n) :
    ∀ m, a < m → m ≤ n → m ≤ L → avail m = false := by
  intro m hm
  induction m, hm using Nat.le_induction with
  | base => exact fun _ _ => (h.take ha.2.1).2.2
  | succ m hm ih =>
    intro hmn hml
    have hav := ih (by omega) (by omega)
    rcases h.same (m := m) (by omega) with he | ht | hg
    · exact he.trans hav
    · exact absurd (hav.symm.trans (h.take ht).2.1) (by decide)
    · exact absurd hg (ha.2.2 m hm (by omega))

theorem since_iff (h : Ledger L avail takes gives) (h0 : avail 0 = true) (hn : n ≤ L) :
    (∃ a, Since takes gives a n) ↔ avail n = false := by
  constructor
  · rintro ⟨a, ha⟩
    exact ha.unavail h n ha.1 le_rfl hn
  · intro hav
    obtain ⟨a, ha, _⟩ := h.last_change h0 n hn hav
    exact ⟨a, ha⟩

theorem first_give (ha : takes a) (hn : a < n) : Since takes gives a n ∨
    ∃ m, a < m ∧ m < n ∧ gives m ∧ Since takes gives a m := by
  induction n, hn using Nat.le_induction with
  | base => exact Or.inl ⟨a.lt_succ_self, ha, fun m h1 h2 => by omega⟩
  | succ n hn ih =>
    rcases ih with h | ⟨m, h1, h2, h3⟩
    · by_cases hg : gives n
      · exact Or.inr ⟨n, hn, n.lt_succ_self, hg, h⟩
      · refine Or.inl ⟨by omega, ha, fun m h1 h2 => ?_⟩
        rcases Nat.lt_succ_iff_lt_or_eq.1 h2 with h2 | rfl
        · exact h.2.2 m h1 h2
        · exact hg
    · exact Or.inr ⟨m, h1, by omega, h3⟩

theorem settles (h : Ledger L avail takes gives) (h0 : avail 0 = true) (hn : n ≤ L) :
    Settles takes gives n := by
  refine ⟨fun a ha ht => ?_, fun m hm hg => ?_⟩
  · refine (first_give ht ha).imp_right ?_
    rintro ⟨m, h1, h2, hg, hs⟩
    refine ⟨m, ⟨h1, h2, hg, fun k hk hkm htk => ?_⟩, ?_⟩
    · exact absurd ((h.take htk).2.1.symm.trans (hs.unavail h k hk hkm.le (by omega))) (by decide)
    · rintro m' ⟨h1', h2', hg', hno⟩
      rcases lt_trichotomy m' m with hlt | rfl | hlt
      · exact absurd hg' (hs.2.2 m' h1' hlt)
      · rfl
      · -- given back at m, it has to be taken again before m'
        obtain ⟨b, hb, hall⟩ := h.last_change h0 m' (by omega) (h.give hg').2.1
        rcases lt_trichotomy b m with hbm | rfl | hbm
        · have := hall (m + 1) (by omega) (by omega)
          exact absurd ((h.give hg).2.2.symm.trans this) (by decide)
        · exact absurd ((h.take hb.2.1).2.1.symm.trans (h.give hg).2.1) (by decide)
        · exact absurd hb.2.1 (hno b (by omega) hb.1)
  · obtain ⟨a, ha, _⟩ := h.last_change h0 m (by omega) (h.give hg).2.1
    exact ⟨a, ha⟩

end Ledger
