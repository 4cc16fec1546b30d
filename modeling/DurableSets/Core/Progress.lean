import DurableSets.Core.Run
import DurableSets.Core.Chain
import Mathlib.Order.Lattice.Nat

-- however it goes on, it comes to P after finitely many steps and does not stop before
inductive Inevitable {S : Type*} (step : S → S → Prop) (P : S → Prop) : S → Prop where
  | here {s : S} (h : P s) : Inevitable step P s
  | later {s : S} (can : ∃ s', step s s') (all : ∀ s', step s s' → Inevitable step P s') :
    Inevitable step P s

section Inevitable

variable {S α : Type*} {step : S → S → Prop} {P Q I : S → Prop} {s : S}

theorem Inevitable.trans (h : Inevitable step Q s)
    (hQ : ∀ s, Q s → Inevitable step P s) : Inevitable step P s := by
  induction h with
  | here h => exact hQ _ h
  | later can _ ih => exact Inevitable.later can ih

theorem Inevitable.mono (h : Inevitable step Q s) (hQ : ∀ s, Q s → P s) : Inevitable step P s :=
  h.trans fun s hs => Inevitable.here (hQ s hs)

theorem Inevitable.reach (h : Inevitable step P s) :
    ∃ s', Relation.ReflTransGen step s s' ∧ P s' := by
  induction h with
  | @here s h => exact ⟨s, Relation.ReflTransGen.refl, h⟩
  | later can _ ih =>
    obtain ⟨s1, hs⟩ := can
    obtain ⟨s', hr, h⟩ := ih s1 hs
    exact ⟨s', Relation.ReflTransGen.head hs hr, h⟩

theorem Inevitable.last {s' : S} (h : Inevitable step P s) (hr : Relation.ReflTransGen step s s')
    (hP : ∀ u u', P u → ¬ step u u') (stop : ∀ u, ¬ step s' u) : P s' := by
  induction hr using Relation.ReflTransGen.head_induction_on with
  | refl =>
    cases h with
    | here h => exact h
    | later can _ => exact absurd can.choose_spec (stop _)
  | head hs _ ih =>
    cases h with
    | here h => exact absurd hs (hP _ _ h)
    | later _ all => exact ih (all _ hs)

theorem inevitable_of_measure [Preorder α] [WellFoundedLT α] (μ : S → α)
    (can : ∀ s, I s → P s ∨ ∃ s', step s s')
    (all : ∀ s s', I s → step s s' → Inevitable step P s' ∨ (I s' ∧ μ s' < μ s)) :
    I s → Inevitable step P s := by
  generalize hm : μ s = m
  induction m using WellFoundedLT.induction generalizing s with
  | ind m ih =>
    intro hI
    subst hm
    rcases can s hI with h | h
    · exact Inevitable.here h
    · refine Inevitable.later h fun s' hs => ?_
      rcases all s s' hI hs with h | ⟨hI', hlt⟩
      · exact h
      · exact ih (μ s') hlt rfl hI'

end Inevitable

namespace Machine

variable {S Op Pc : Type*}

-- thread t makes a step of the call that it is in, or returns from it
def Solo (M : Machine S Op Pc) (t : Tid) (s s' : S) : Prop :=
  M.step s (.tau t) s' ∨ ∃ r, M.step s (.ret t r) s'

-- if only thread t takes steps from s, its call returns after finitely many of them
def Returns (M : Machine S Op Pc) (t : Tid) : S → Prop :=
  Inevitable (M.Solo t) fun s => M.thread s t = none

theorem returns_of {α : Type*} [Preorder α] [WellFoundedLT α] {M : Machine S Op Pc} {t : Tid}
    {op : Op} (μ : S → Pc → α) {I : S → Pc → Prop}
    (can : ∀ {s pc}, I s pc → M.thread s t = some (op, pc) → ∃ s', M.Solo t s s')
    (all : ∀ {s pc s'}, I s pc → M.thread s t = some (op, pc) → M.Solo t s s' →
      M.Returns t s' ∨ ∃ pc', M.thread s' t = some (op, pc') ∧ I s' pc' ∧ μ s' pc' < μ s pc)
    {s : S} {pc : Pc} (hI : I s pc) (ht : M.thread s t = some (op, pc)) : M.Returns t s := by
  generalize hm : μ s pc = m
  induction m using WellFoundedLT.induction generalizing s pc with
  | ind m ih =>
    subst hm
    refine Inevitable.later (can hI ht) fun s' hs => ?_
    rcases all hI ht hs with h | ⟨pc', ht', hI', hlt⟩
    · exact h
    · exact ih _ hlt hI' ht' rfl

end Machine

namespace Chain.Heap

variable {α κ : Type*} {H H' : Heap α κ} {t x y : α}

def after (H : Heap α κ) : ℕ → α → Option α
  | 0, x => some x
  | n + 1, x => (H.succ x).bind (H.after n)

theorem Reach.exists_after (h : H.Reach x t) : ∃ n, H.after n x = some t := by
  induction h using Relation.ReflTransGen.head_induction_on with
  | refl => exact ⟨0, rfl⟩
  | head hs _ ih =>
    obtain ⟨n, hn⟩ := ih
    exact ⟨n + 1, by rw [after, show H.succ _ = some _ from hs]; exact hn⟩

noncomputable def dist (H : Heap α κ) (x t : α) : ℕ := sInf {n | H.after n x = some t}

theorem dist_succ (he : H.succ t = none) (hs : H.succ x = some y) (hr : H.Reach y t) :
    H.dist x t = H.dist y t + 1 := by
  have after_succ : ∀ n, H.after (n + 1) x = H.after n y := fun n => by rw [after, hs]; rfl
  have hne : x ≠ t := by
    rintro rfl
    rw [he] at hs
    cases hs
  have hpos : 1 ≤ sInf {n | H.after n x = some t} := by
    obtain ⟨n, hn⟩ := hr.exists_after
    have hmem := Nat.sInf_mem (s := {n | H.after n x = some t}) ⟨n + 1, (after_succ n).trans hn⟩
    refine Nat.one_le_iff_ne_zero.2 fun h0 => hne ?_
    rw [h0] at hmem
    exact Option.some.inj hmem
  have := Nat.sInf_add hpos
  simp only [after_succ] at this
  exact this.symm

theorem dist_congr (h : ∀ z, H.Reach x z → H'.succ z = H.succ z) : H'.dist x t = H.dist x t := by
  have key : ∀ n z, H.Reach x z → H'.after n z = H.after n z := by
    intro n
    induction n with
    | zero => exact fun _ _ => rfl
    | succ n ih =>
      intro z hz
      simp only [after, h z hz]
      cases hs : H.succ z with
      | none => rfl
      | some w => exact ih w (hz.tail hs)
  unfold dist
  simp only [key _ x (Reach.refl x)]

end Chain.Heap
