import DurableSets.Core.Chain
import Mathlib.Algebra.BigOperators.Finprod
import Mathlib.Algebra.Order.BigOperators.Group.Finset

namespace Chain.Heap

variable {α κ : Type*} {H H' : Heap α κ} {R : Set α} {a b c d n p t x : α} {w w' : α → ℕ}

theorem finite_reach (he : H.succ t = none) (h : H.Reach a t) : {x | H.Reach a x}.Finite := by
  induction h using Relation.ReflTransGen.head_induction_on with
  | refl =>
    refine (Set.finite_singleton t).subset fun x hx => ?_
    rcases Reach.eq_or_succ hx with rfl | ⟨c, hc, _⟩
    · rfl
    · rw [he] at hc
      cases hc
  | @head a c hs _ ih =>
    refine (ih.insert a).subset fun x hx => ?_
    rcases Reach.eq_or_succ hx with rfl | ⟨d, hd, hr⟩
    · exact Or.inl rfl
    · obtain rfl := Option.some.inj (hd.symm.trans hs)
      exact Or.inr hr

noncomputable def load (H : Heap α κ) (w : α → ℕ) : ℕ := ∑ᶠ x ∈ {x | H.Linked x}, w x

theorem load_congr (hl : ∀ x, H'.Linked x ↔ H.Linked x) (hw : ∀ x, H.Linked x → w' x = w x) :
    H'.load w' = H.load w := by
  refine finsum_mem_congr (Set.ext hl) fun x hx => ?_
  exact hw x hx

theorem load_splice (fin : {x | H.Linked x}.Finite) (hl : ∀ x, H'.Linked x ↔ H.Linked x ∨ x = n)
    (hn : ¬ H.Linked n) (hw : ∀ x, H.Linked x → w' x = w x) :
    H'.load w' = w' n + H.load w := by
  have hset : {x | H'.Linked x} = insert n {x | H.Linked x} := by
    ext x
    exact (hl x).trans or_comm
  unfold load
  rw [hset, finsum_mem_insert w' (show n ∉ {x | H.Linked x} from hn) fin]
  exact congrArg _ (finsum_mem_congr rfl fun x hx => hw x hx)

theorem load_lt (fin : {x | H.Linked x}.Finite) (hl : ∀ x, H'.Linked x → H.Linked x)
    (hw : ∀ x, H'.Linked x → w' x ≤ w x) (hx : H.Linked x)
    (hlt : (¬ H'.Linked x ∧ 0 < w x) ∨ (H'.Linked x ∧ w' x < w x)) : H'.load w' < H.load w := by
  have fin' : {x | H'.Linked x}.Finite := fin.subset hl
  unfold load
  rw [finsum_mem_eq_finite_toFinset_sum _ fin, finsum_mem_eq_finite_toFinset_sum _ fin']
  have hsub : fin'.toFinset ⊆ fin.toFinset := Set.Finite.toFinset_subset_toFinset.2 hl
  rcases hlt with ⟨hno, hpos⟩ | ⟨hyes, hlt⟩
  · calc ∑ x ∈ fin'.toFinset, w' x ≤ ∑ x ∈ fin'.toFinset, w x :=
        Finset.sum_le_sum fun y hy => hw y (fin'.mem_toFinset.1 hy)
      _ < ∑ x ∈ fin.toFinset, w x := Finset.sum_lt_sum_of_subset hsub
        (fin.mem_toFinset.2 hx) (fun h => hno (fin'.mem_toFinset.1 h)) hpos fun _ _ _ => Nat.zero_le _
  · calc ∑ x ∈ fin'.toFinset, w' x < ∑ x ∈ fin'.toFinset, w x :=
        Finset.sum_lt_sum (fun y hy => hw y (fin'.mem_toFinset.1 hy))
          ⟨x, fin'.mem_toFinset.2 hyes, hlt⟩
      _ ≤ ∑ x ∈ fin.toFinset, w x := Finset.sum_le_sum_of_subset hsub

end Chain.Heap
