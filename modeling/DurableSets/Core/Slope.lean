import DurableSets.Core.Tower
import DurableSets.Core.LockFree
import Mathlib.Data.Int.ConditionallyCompleteOrder
import Mathlib.Data.Set.Card

/-! Readers of a tower whose levels may stand still but never go down. -/

namespace Chain.Tower

variable {α κ : Type*}

section Order

variable [Preorder κ] {T T' : Tower α κ} {L L' : Set (α × ℕ)} {x y z : α} {i top G : ℕ}

structure Rising (T : Tower α κ) (L : Set (α × ℕ)) : Prop where
  le : ∀ {x y i}, (x, i) ∈ L → T.succ i x = some y → T.rank x ≤ T.rank y

def plateau (T : Tower α κ) (i : ℕ) (x : α) : Set α :=
  {y | (T.level i).Reach x y ∧ T.rank y ≤ T.rank x}

noncomputable def flat (T : Tower α κ) (i : ℕ) (x : α) : ℕ := (T.plateau i x).ncard

structure Climbs (T T' : Tower α κ) (L L' : Set (α × ℕ)) : Prop where
  rank : ∀ {x i}, (x, i) ∈ L → T'.rank x = T.rank x
  succ : ∀ {x y i}, (x, i) ∈ L → T'.succ i x = some y → (T.level i).Reach x y ∨
    (T.rank x < T'.rank y ∧ ∃ z, T.succ i x = some z ∧ T'.succ i y = some z)
  new : ∀ {x y i}, (x, i) ∈ L' → (x, i) ∉ L → T'.succ i x = some y →
    (y, i) ∈ L ∧ T'.rank x ≤ T.rank y

theorem Rising.mono (r : T.Rising L) (h : L' ⊆ L) : T.Rising L' := ⟨fun hx => r.le (h hx)⟩

theorem Rising.reach (r : T.Rising L) (hc : T.Closed L) (hx : (x, i) ∈ L)
    (hr : (T.level i).Reach x y) : T.rank x ≤ T.rank y := by
  induction hr with
  | refl => exact le_rfl
  | tail hr hs ih => exact ih.trans (r.le (hc.reach hx hr) hs)

theorem Climbs.rising (h : Climbs T T' L L') (r : T.Rising L) (hc : T.Closed L) :
    T'.Rising L' where
  le {x y i} hx hs := by
    by_cases hx0 : (x, i) ∈ L
    · rcases h.succ hx0 hs with hr | ⟨hlt, _⟩
      · rw [h.rank hx0, h.rank (hc.reach hx0 hr)]
        exact r.reach hc hx0 hr
      · rw [h.rank hx0]
        exact hlt.le
    · obtain ⟨hy, hle⟩ := h.new hx hx0 hs
      rwa [h.rank hy]

theorem Climbs.reach (h : Climbs T T' L L') (r : T.Rising L) (hc : T.Closed L) (hx : (x, i) ∈ L)
    (hr : (T'.level i).Reach x y) : (T.level i).Reach x y ∨
      (T.rank x < T'.rank y ∧ ∃ z, T'.succ i y = some z ∧ (T.level i).Reach x z) := by
  induction hr with
  | refl => exact Or.inl (Heap.Reach.refl x)
  | @tail y z _ hs ih =>
    have hs : T'.succ i y = some z := hs
    rcases ih with ih | ⟨_, w, hw, hr⟩
    · rcases h.succ (hc.reach hx ih) hs with hr | ⟨hlt, w, hw, hw'⟩
      · exact Or.inl (ih.trans hr)
      · exact Or.inr ⟨(r.reach hc hx ih).trans_lt hlt, w, hw', ih.tail hw⟩
    · obtain rfl := Option.some.inj (hw.symm.trans hs)
      exact Or.inl hr

theorem Climbs.plateau_subset (h : Climbs T T' L L') (r : T.Rising L) (hc : T.Closed L)
    (hx : (x, i) ∈ L) : T'.plateau i x ⊆ T.plateau i x := by
  rintro y ⟨hr, hle⟩
  rw [h.rank hx] at hle
  rcases h.reach r hc hx hr with hr | ⟨hlt, _⟩
  · rw [h.rank (hc.reach hx hr)] at hle
    exact ⟨hr, hle⟩
  · exact absurd hle hlt.not_ge

theorem Sound.plateau_finite (h : T.Sound top G L) (hx : (x, i) ∈ L) :
    (T.plateau i x).Finite := by
  have key : {y | (T.level i).Reach x y}.Finite := by
    have he := h.ends hx
    have ht := h.tail_mem hx
    clear hx
    induction he using Relation.ReflTransGen.head_induction_on with
    | refl =>
      refine (Set.finite_singleton T.tail).subset fun y hy => ?_
      exact h.eq_tail ht hy
    | @head x z hs _ ih =>
      refine (ih.insert x).subset fun y hy => ?_
      rcases hy.eq_or_succ with rfl | ⟨w, hw, hr⟩
      · exact Set.mem_insert _ _
      · obtain rfl := Option.some.inj (hw.symm.trans hs)
        exact Set.mem_insert_of_mem _ hr
  exact key.subset fun y hy => hy.1

theorem Climbs.flat_le (h : Climbs T T' L L') (r : T.Rising L) (hs : T.Sound top G L)
    (hx : (x, i) ∈ L) : T'.flat i x ≤ T.flat i x :=
  Set.ncard_le_ncard (h.plateau_subset r hs.closed hx) (hs.plateau_finite hx)

theorem Sound.flat_lt (h : T.Sound top G L) (hx : (x, i) ∈ L) (hs : T.succ i x = some y)
    (hle : T.rank y ≤ T.rank x) : T.flat i y < T.flat i x := by
  refine Set.ncard_lt_ncard ⟨?_, fun hsub => ?_⟩ (h.plateau_finite hx)
  · rintro z ⟨hr, hz⟩
    exact ⟨(Heap.Reach.single hs).trans hr, hz.trans hle⟩
  · exact h.acyclic hx hs (hsub ⟨Heap.Reach.refl x, le_rfl⟩).1

-- the levels below G go up as it is, on the others it is to be shown of the nodes that are linked
theorem Change.climbs (ch : Change T T' G L L') (hc : T.Closed L)
    (up : ∀ {p n c i}, G ≤ i → (p, i) ∈ L → (n, i) ∉ L → T.succ i p = some c →
      T'.succ i p = some n → T.rank p < T'.rank n ∧ T'.rank n ≤ T.rank c) :
    Climbs T T' L L' := by
  cases ch with
  | steady s =>
    refine ⟨s.rank, fun hx hs => Or.inl ?_, fun hx hn => absurd hx hn⟩
    exact Heap.Reach.single ((s.succ hx).symm.trans hs)
  | bypass j p c d s =>
    refine ⟨s.rank, fun {x y i} hx hs => Or.inl ?_, fun hx hn => absurd hx hn⟩
    by_cases he : (x, i) = (p, j)
    · obtain ⟨rfl, rfl⟩ := Prod.mk.inj he
      obtain rfl := Option.some.inj (s.pred_succ'.symm.trans hs)
      exact (Heap.Reach.single s.pred_succ).trans s.path
    · exact Heap.Reach.single ((s.succ hx he).symm.trans hs)
  | splice j p n c s =>
    have hup : T.rank p < T'.rank n ∧ T'.rank n ≤ T.rank c := by
      by_cases hj : j < G
      · exact ⟨(s.tidy hj).2.1, (s.tidy hj).2.2.le⟩
      · exact up (not_lt.1 hj) s.pred s.fresh s.pred_succ s.pred_succ'
    refine ⟨s.rank, fun {x y i} hx hs => ?_, fun {x y i} hx hn hs => ?_⟩
    · by_cases he : (x, i) = (p, j)
      · obtain ⟨rfl, rfl⟩ := Prod.mk.inj he
        obtain rfl := Option.some.inj (s.pred_succ'.symm.trans hs)
        exact Or.inr ⟨hup.1, c, s.pred_succ, s.new_succ'⟩
      · exact Or.inl (Heap.Reach.single ((s.succ hx he).symm.trans hs))
    · obtain ⟨rfl, rfl⟩ := Prod.mk.inj ((Set.mem_insert_iff.1 hx).resolve_right hn)
      obtain rfl := Option.some.inj (s.new_succ'.symm.trans hs)
      exact ⟨hc.right s.pred s.pred_succ, hup.2⟩

end Order

section Way

variable {T T' : Tower α (WithBot ℤ)} {L L' : Set (α × ℕ)} {x y : α} {i top G a d d' : ℕ} {m : ℤ}

-- the reader is at x, on a level on which no node is above m, or still at the head of the level
noncomputable def way (T : Tower α (WithBot ℤ)) (m : ℤ) (a i : ℕ) (x : α) (d : ℕ) :
    ℕ ×ₗ ℕ ×ₗ ℕ ×ₗ ℕ :=
  toLex (if T.rank x = ⊥ then a + 1 else a,
    toLex ((m - (T.rank x).unbotD m).toNat, toLex (T.flat i x, d)))

theorem way_congr (hr : T'.rank x = T.rank x) (hf : T'.flat i x ≤ T.flat i x) :
    T'.way m a i x d ≤ T.way m a i x d := by
  unfold way
  rw [hr]
  refine Prod.Lex.toLex_mono ⟨le_rfl, Prod.Lex.toLex_mono ⟨le_rfl, Prod.Lex.toLex_mono ?_⟩⟩
  exact ⟨hf, le_rfl⟩

theorem way_near (h : d < d') : T.way m a i x d < T.way m a i x d' :=
  Prod.Lex.toLex_lt_toLex.2 (Or.inr ⟨rfl, Prod.Lex.toLex_lt_toLex.2 (Or.inr ⟨rfl,
    Prod.Lex.toLex_lt_toLex.2 (Or.inr ⟨rfl, h⟩)⟩)⟩)

theorem way_lt {b : ℕ} {c : ℕ ×ₗ ℕ ×ₗ ℕ} (h : a + 1 < b) : T.way m a i x d < toLex (b, c) := by
  refine Prod.Lex.toLex_lt_toLex.2 (Or.inl ?_)
  change (if T.rank x = ⊥ then a + 1 else a) < b
  split <;> omega

theorem lt_way {b : ℕ} {c : ℕ ×ₗ ℕ ×ₗ ℕ} (h : b < a) : toLex (b, c) < T.way m a i x d := by
  refine Prod.Lex.toLex_lt_toLex.2 (Or.inl ?_)
  change b < if T.rank x = ⊥ then a + 1 else a
  split <;> omega

theorem way_next (r : T.Rising L) (h : T.Sound top G L) (hx : (x, i) ∈ L)
    (hs : T.succ i x = some y) (ht : T.rank T.tail = m) :
    T.way m a i y d' < T.way m a i x d := by
  have hy := h.closed.right hx hs
  have hle := r.le hx hs
  have hym : T.rank y ≤ m := (r.reach h.closed hy (h.ends hy)).trans_eq ht
  rcases hle.lt_or_eq with hlt | he
  · obtain ⟨v, hv⟩ := WithBot.ne_bot_iff_exists.1 hlt.ne_bot
    have hyb : T.rank y ≠ ⊥ := hlt.ne_bot
    by_cases hb : T.rank x = ⊥
    · refine Prod.Lex.toLex_lt_toLex.2 (Or.inl ?_)
      simp only [if_pos hb, if_neg hyb, Nat.lt_succ_self]
    · obtain ⟨u, hu⟩ := WithBot.ne_bot_iff_exists.1 hb
      rw [← hu, ← hv] at hlt
      rw [← hv] at hym
      have huv := WithBot.coe_lt_coe.1 hlt
      have hvm := WithBot.coe_le_coe.1 hym
      refine Prod.Lex.toLex_lt_toLex.2 (Or.inr ⟨?_, Prod.Lex.toLex_lt_toLex.2 (Or.inl ?_)⟩)
      · simp only [if_neg hb, if_neg hyb]
      · rw [← hu, ← hv]
        simp only [WithBot.unbotD_coe]
        omega
  · unfold way
    rw [he]
    exact Prod.Lex.toLex_lt_toLex.2 (Or.inr ⟨rfl, Prod.Lex.toLex_lt_toLex.2 (Or.inr ⟨rfl,
      Prod.Lex.toLex_lt_toLex.2 (Or.inl (h.flat_lt hx hs he.ge))⟩)⟩)

end Way

end Chain.Tower
