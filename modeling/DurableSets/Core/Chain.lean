import Mathlib.Order.ConditionallyCompleteLattice.Basic
import Mathlib.Logic.Relation
import Mathlib.Data.Set.Basic
import Mathlib.Order.Basic

namespace Chain

structure Heap (α κ : Type*) where
  head : α
  succ : α → Option α
  dead : α → Prop
  rank : α → κ

variable {α κ : Type*}

namespace Heap

def Edge (H : Heap α κ) (x y : α) : Prop := H.succ x = some y

def Reach (H : Heap α κ) : α → α → Prop := Relation.ReflTransGen H.Edge

def Linked (H : Heap α κ) (x : α) : Prop := H.Reach H.head x

def Live (H : Heap α κ) (R : Set α) (x : α) : Prop := ∃ r ∈ R, H.Reach r x

variable {H H' : Heap α κ} {R R' : Set α} {a b c d n p x y z : α}

theorem Reach.refl (x : α) : H.Reach x x := Relation.ReflTransGen.refl

theorem Reach.trans (h : H.Reach a b) (k : H.Reach b c) : H.Reach a c :=
  Relation.ReflTransGen.trans h k

theorem Reach.head (h : H.succ a = some b) (k : H.Reach b c) : H.Reach a c :=
  Relation.ReflTransGen.head h k

theorem Reach.tail (h : H.Reach a b) (k : H.succ b = some c) : H.Reach a c :=
  Relation.ReflTransGen.tail h k

theorem Reach.single (h : H.succ a = some b) : H.Reach a b := Relation.ReflTransGen.single h

theorem Reach.eq_or_succ (h : H.Reach a b) : a = b ∨ ∃ c, H.succ a = some c ∧ H.Reach c b :=
  Relation.ReflTransGen.cases_head h

theorem Reach.succ_of_ne (h : H.Reach a b) (hne : a ≠ b) (hs : H.succ a = some c) :
    H.Reach c b := by
  rcases h.eq_or_succ with rfl | ⟨d, hd, k⟩
  · exact absurd rfl hne
  · rw [hs] at hd
    obtain rfl := Option.some.inj hd
    exact k

theorem Reach.total (h : H.Reach a b) (k : H.Reach a c) : H.Reach b c ∨ H.Reach c b := by
  refine Relation.ReflTransGen.total_of_right_unique ?_ h k
  intro x y z hy hz
  exact Option.some.inj (hy.symm.trans hz)

theorem Live.root (h : x ∈ R) : H.Live R x := ⟨x, h, Reach.refl x⟩

theorem Live.reach (h : H.Live R x) (k : H.Reach x y) : H.Live R y := by
  obtain ⟨r, hr, hx⟩ := h
  exact ⟨r, hr, hx.trans k⟩

theorem Live.succ (h : H.Live R x) (k : H.succ x = some y) : H.Live R y :=
  h.reach (Reach.single k)

theorem Live.mono (hR : ∀ r ∈ R, H.Live R' r) (h : H.Live R x) : H.Live R' x := by
  obtain ⟨r, hr, hx⟩ := h
  exact (hR r hr).reach hx

theorem live_singleton : H.Live {a} x ↔ H.Reach a x := by
  constructor
  · rintro ⟨r, rfl, h⟩
    exact h
  · exact fun h => ⟨a, rfl, h⟩

theorem reach_congr (h : ∀ y, H.Reach a y → H'.succ y = H.succ y) :
    H'.Reach a x ↔ H.Reach a x := by
  constructor
  · intro k
    induction k with
    | refl => exact Reach.refl a
    | @tail u v _ hv ih =>
      have hu : H.succ u = some v := (h u ih).symm.trans hv
      exact ih.tail hu
  · intro k
    induction k with
    | refl => exact Reach.refl a
    | @tail u v hu hv ih =>
      have hu' : H'.succ u = some v := (h u hu).trans hv
      exact Reach.tail ih hu'

/-- The invariant of a chain seen from the roots `R`: no cycle, and whatever is alive
is still linked. -/
structure Good (H : Heap α κ) (R : Set α) : Prop where
  head_root : H.head ∈ R
  acyclic : ∀ {x y}, H.Live R x → H.succ x = some y → ¬ H.Reach y x
  alive : ∀ {x}, H.Live R x → ¬ H.dead x → H.Linked x

theorem Good.live_of_linked (g : H.Good R) (h : H.Linked x) : H.Live R x :=
  ⟨H.head, g.head_root, h⟩

theorem Good.antisymm (g : H.Good R) (hx : H.Live R x) (h : H.Reach x y) (k : H.Reach y x) :
    x = y := by
  rcases h.eq_or_succ with e | ⟨c, hc, hy⟩
  · exact e
  · exact absurd (hy.trans k) (g.acyclic hx hc)

theorem Good.reroot (g : H.Good R) (hh : H.head ∈ R') (hR : ∀ r ∈ R', H.Live R r) :
    H.Good R' where
  head_root := hh
  acyclic := fun h => g.acyclic (h.mono hR)
  alive := fun h => g.alive (h.mono hR)

def Between (H : Heap α κ) (c d x : α) : Prop := H.Reach c x ∧ H.Reach x d ∧ x ≠ d

theorem Good.between_single (g : H.Good R) (hc : H.Live R c) (hs : H.succ c = some d)
    (hb : H.Between c d x) : x = c := by
  by_contra hne
  exact hb.2.2 (g.antisymm (hc.reach hb.1) hb.2.1 (hb.1.succ_of_ne (Ne.symm hne) hs))

/-- Successors and ranks stay, nodes may die. -/
structure Steady (H H' : Heap α κ) (R : Set α) : Prop where
  head : H'.head = H.head
  succ : ∀ {x}, H.Live R x → H'.succ x = H.succ x
  rank : ∀ {x}, H.Live R x → H'.rank x = H.rank x
  dead : ∀ {x}, H.Live R x → H.dead x → H'.dead x

/-- A fresh node `n` is put between `p` and its successor `c`. -/
structure Splice (H H' : Heap α κ) (R : Set α) (p n c : α) : Prop where
  head : H'.head = H.head
  pred : H.Live R p
  pred_alive : ¬ H.dead p
  pred_succ : H.succ p = some c
  fresh : ¬ H.Live R n
  pred_succ' : H'.succ p = some n
  new_succ' : H'.succ n = some c
  new_alive' : ¬ H'.dead n
  succ : ∀ {x}, H.Live R x → x ≠ p → H'.succ x = H.succ x
  rank : ∀ {x}, H.Live R x → H'.rank x = H.rank x
  dead : ∀ {x}, H.Live R x → (H'.dead x ↔ H.dead x)

/-- The dead nodes from `c` up to `d` are cut out behind `p`. -/
structure Bypass (H H' : Heap α κ) (R : Set α) (p c d : α) : Prop where
  head : H'.head = H.head
  pred : H.Live R p
  pred_alive : ¬ H.dead p
  pred_succ : H.succ p = some c
  path : H.Reach c d
  gone : ∀ {x}, H.Between c d x → H.dead x
  pred_succ' : H'.succ p = some d
  succ : ∀ {x}, H.Live R x → x ≠ p → H'.succ x = H.succ x
  rank : ∀ {x}, H.Live R x → H'.rank x = H.rank x
  dead : ∀ {x}, H.Live R x → (H'.dead x ↔ H.dead x)

theorem Steady.reach (s : Steady H H' R) (ha : H.Live R a) : H'.Reach a x ↔ H.Reach a x :=
  reach_congr fun _ hy => s.succ (ha.reach hy)

theorem Steady.live (s : Steady H H' R) : H'.Live R x ↔ H.Live R x := by
  constructor <;> rintro ⟨r, hr, h⟩
  · exact ⟨r, hr, (s.reach (Live.root hr)).1 h⟩
  · exact ⟨r, hr, (s.reach (Live.root hr)).2 h⟩

theorem Steady.linked (g : H.Good R) (s : Steady H H' R) : H'.Linked x ↔ H.Linked x := by
  unfold Linked
  rw [s.head]
  exact s.reach (Live.root g.head_root)

theorem Steady.good (g : H.Good R) (s : Steady H H' R) : H'.Good R where
  head_root := s.head ▸ g.head_root
  acyclic := by
    intro x y hx hs hr
    have hx0 := s.live.1 hx
    rw [s.succ hx0] at hs
    exact g.acyclic hx0 hs ((s.reach (hx0.succ hs)).1 hr)
  alive := by
    intro x hx hd
    have hx0 := s.live.1 hx
    exact (s.linked g).2 (g.alive hx0 fun hd0 => hd (s.dead hx0 hd0))

theorem Splice.ne_pred (s : Splice H H' R p n c) : n ≠ p := fun h => s.fresh (h ▸ s.pred)

theorem Splice.not_reach (s : Splice H H' R p n c) (ha : H.Live R a) : ¬ H.Reach a n :=
  fun h => s.fresh (ha.reach h)

theorem Splice.reach_of (s : Splice H H' R p n c) (ha : H.Live R a) (h : H.Reach a x) :
    H'.Reach a x := by
  induction h with
  | refl => exact Reach.refl a
  | @tail u v hu hv ih =>
    by_cases hp : u = p
    · subst hp
      have hc : v = c := Option.some.inj (Eq.trans (Eq.symm hv) s.pred_succ)
      subst hc
      exact Reach.tail (Reach.tail ih s.pred_succ') s.new_succ'
    · exact Reach.tail ih ((s.succ (ha.reach hu) hp).trans hv)

theorem Splice.reach_new (s : Splice H H' R p n c) (ha : H.Live R a) (h : H.Reach a p) :
    H'.Reach a n := (s.reach_of ha h).tail s.pred_succ'

theorem Splice.reach_or (s : Splice H H' R p n c) (ha : H.Live R a) (h : H'.Reach a x) :
    H.Reach a x ∨ (x = n ∧ H.Reach a p) := by
  induction h with
  | refl => exact Or.inl (Reach.refl a)
  | @tail u v hu hv ih =>
    rcases ih with ih | ⟨rfl, ih⟩
    · by_cases hp : u = p
      · subst hp
        have hn : v = n := Option.some.inj (Eq.trans (Eq.symm hv) s.pred_succ')
        exact Or.inr ⟨hn, ih⟩
      · exact Or.inl (ih.tail ((s.succ (ha.reach ih) hp).symm.trans hv))
    · have hc : v = c := Option.some.inj (Eq.trans (Eq.symm hv) s.new_succ')
      subst hc
      exact Or.inl (ih.tail s.pred_succ)

theorem Splice.reach_from_new (s : Splice H H' R p n c) (h : H'.Reach n x) :
    x = n ∨ H'.Reach c x := by
  rcases h.eq_or_succ with rfl | ⟨d, hd, h⟩
  · exact Or.inl rfl
  · rw [s.new_succ'] at hd
    obtain rfl := Option.some.inj hd
    exact Or.inr h

theorem Splice.live_or (s : Splice H H' R p n c) (h : H'.Live R x) : H.Live R x ∨ x = n := by
  obtain ⟨r, hr, h⟩ := h
  rcases s.reach_or (Live.root hr) h with h | ⟨rfl, _⟩
  · exact Or.inl ⟨r, hr, h⟩
  · exact Or.inr rfl

theorem Splice.linked_pred (g : H.Good R) (s : Splice H H' R p n c) : H.Linked p :=
  g.alive s.pred s.pred_alive

theorem Splice.linked (g : H.Good R) (s : Splice H H' R p n c) :
    H'.Linked x ↔ H.Linked x ∨ x = n := by
  unfold Linked
  rw [s.head]
  constructor
  · intro h
    rcases s.reach_or (Live.root g.head_root) h with h | ⟨rfl, _⟩
    · exact Or.inl h
    · exact Or.inr rfl
  · rintro (h | rfl)
    · exact s.reach_of (Live.root g.head_root) h
    · exact s.reach_new (Live.root g.head_root) (s.linked_pred g)

theorem Splice.good (g : H.Good R) (s : Splice H H' R p n c) : H'.Good (insert n R) := by
  have hlive : ∀ {x}, H'.Live (insert n R) x → H.Live R x ∨ x = n := by
    rintro x ⟨r, hr, h⟩
    rcases hr with rfl | hr
    · rcases s.reach_from_new h with rfl | h
      · exact Or.inr rfl
      · rcases s.reach_or (s.pred.succ s.pred_succ) h with h | ⟨rfl, _⟩
        · exact Or.inl ((s.pred.succ s.pred_succ).reach h)
        · exact Or.inr rfl
    · exact s.live_or ⟨r, hr, h⟩
  have hpc : ¬ H.Reach c p := g.acyclic s.pred s.pred_succ
  refine ⟨Or.inr (s.head ▸ g.head_root), ?_, ?_⟩
  · intro x y hx hs hr
    rcases hlive hx with hx0 | rfl
    · by_cases hp : x = p
      · subst hp
        rw [s.pred_succ'] at hs
        obtain rfl := Option.some.inj hs
        rcases s.reach_from_new hr with h | h
        · exact s.ne_pred h.symm
        · rcases s.reach_or (s.pred.succ s.pred_succ) h with h | ⟨h, _⟩
          · exact hpc h
          · exact s.ne_pred h.symm
      · rw [s.succ hx0 hp] at hs
        rcases s.reach_or (hx0.succ hs) hr with h | ⟨rfl, _⟩
        · exact g.acyclic hx0 hs h
        · exact s.fresh hx0
    · rw [s.new_succ'] at hs
      obtain rfl := Option.some.inj hs
      rcases s.reach_or (s.pred.succ s.pred_succ) hr with h | ⟨_, h⟩
      · exact s.not_reach (s.pred.succ s.pred_succ) h
      · exact hpc h
  · intro x hx hd
    rw [s.linked g]
    rcases hlive hx with hx0 | rfl
    · exact Or.inl (g.alive hx0 fun h => hd ((s.dead hx0).2 h))
    · exact Or.inr rfl

theorem Bypass.reach_of' (s : Bypass H H' R p c d) (ha : H.Live R a) (h : H'.Reach a x) :
    H.Reach a x := by
  induction h with
  | refl => exact Reach.refl a
  | @tail u v hu hv ih =>
    by_cases hp : u = p
    · subst hp
      have hd : v = d := Option.some.inj (Eq.trans (Eq.symm hv) s.pred_succ')
      subst hd
      exact (ih.tail s.pred_succ).trans s.path
    · exact ih.tail ((s.succ (ha.reach ih) hp).symm.trans hv)

theorem Bypass.reach_off (s : Bypass H H' R p c d) (ha : H.Live R a)
    (hp : ¬ H.Reach a p) : H'.Reach a x ↔ H.Reach a x :=
  reach_congr fun _ hy => s.succ (ha.reach hy) fun h => hp (h ▸ hy)

theorem Bypass.not_back (g : H.Good R) (s : Bypass H H' R p c d) : ¬ H.Reach d p := by
  intro h
  exact g.acyclic s.pred s.pred_succ (s.path.trans h)

theorem Bypass.reach_or (g : H.Good R) (s : Bypass H H' R p c d) (ha : H.Live R a)
    (h : H.Reach a x) : H'.Reach a x ∨ (H.Reach a p ∧ H.Between c d x) := by
  induction h using Relation.ReflTransGen.head_induction_on with
  | refl => exact Or.inl (Reach.refl x)
  | @head u v hv hr ih =>
    by_cases hp : u = p
    · subst hp
      have hc : v = c := Option.some.inj (Eq.trans (Eq.symm hv) s.pred_succ)
      subst hc
      rcases Reach.total hr s.path with h | h
      · by_cases hx : x = d
        · subst hx
          exact Or.inl (Reach.single s.pred_succ')
        · exact Or.inr ⟨Reach.refl u, hr, h, hx⟩
      · have hd : H'.Reach d x :=
          (s.reach_off ((s.pred.succ s.pred_succ).reach s.path) (s.not_back g)).2 h
        exact Or.inl (Reach.head s.pred_succ' hd)
    · have hu : H'.succ u = some v := (s.succ ha hp).trans hv
      rcases ih (ha.succ hv) with h | ⟨h, hb⟩
      · exact Or.inl (Reach.head hu h)
      · exact Or.inr ⟨Reach.head hv h, hb⟩

theorem Bypass.live_of' (s : Bypass H H' R p c d) (h : H'.Live R x) : H.Live R x := by
  obtain ⟨r, hr, h⟩ := h
  exact ⟨r, hr, s.reach_of' (Live.root hr) h⟩

theorem Bypass.linked_pred (g : H.Good R) (s : Bypass H H' R p c d) : H.Linked p :=
  g.alive s.pred s.pred_alive

theorem Bypass.linked (g : H.Good R) (s : Bypass H H' R p c d) :
    H'.Linked x ↔ H.Linked x ∧ ¬ H.Between c d x := by
  have hh : H.Live R H.head := Live.root g.head_root
  unfold Linked
  rw [s.head]
  constructor
  · intro h
    refine ⟨s.reach_of' hh h, fun hb => ?_⟩
    have hp : H'.Reach H.head p := by
      rcases s.reach_or g hh (s.linked_pred g) with h | ⟨_, hb'⟩
      · exact h
      · exact absurd hb'.1 (g.acyclic s.pred s.pred_succ)
    have hx : H.Live R x := hh.reach (s.reach_of' hh h)
    rcases Reach.total h hp with k | k
    · have hxp : H.Reach x p := s.reach_of' hx k
      exact g.acyclic s.pred s.pred_succ (hb.1.trans hxp)
    · rcases k.eq_or_succ with rfl | ⟨e, he, k⟩
      · exact g.acyclic s.pred s.pred_succ hb.1
      · rw [s.pred_succ'] at he
        obtain rfl := Option.some.inj he
        have hdx : H.Reach d x := s.reach_of' ((s.pred.succ s.pred_succ).reach s.path) k
        exact hb.2.2 (g.antisymm hx hb.2.1 hdx)
  · rintro ⟨h, hb⟩
    rcases s.reach_or g hh h with h | ⟨_, hb'⟩
    · exact h
    · exact absurd hb' hb

theorem Bypass.good (g : H.Good R) (s : Bypass H H' R p c d) : H'.Good R where
  head_root := s.head ▸ g.head_root
  acyclic := by
    intro x y hx hs hr
    have hx0 := s.live_of' hx
    by_cases hp : x = p
    · subst hp
      rw [s.pred_succ'] at hs
      obtain rfl := Option.some.inj hs
      exact s.not_back g (s.reach_of' ((s.pred.succ s.pred_succ).reach s.path) hr)
    · rw [s.succ hx0 hp] at hs
      exact g.acyclic hx0 hs (s.reach_of' (hx0.succ hs) hr)
  alive := by
    intro x hx hd
    have hx0 := s.live_of' hx
    have hd0 : ¬ H.dead x := fun h => hd ((s.dead hx0).2 h)
    exact (s.linked g).2 ⟨g.alive hx0 hd0, fun hb => hd0 (s.gone hb)⟩

section Order

variable [Preorder κ]

def Ordered (H : Heap α κ) (R : Set α) : Prop :=
  ∀ {x y}, H.Live R x → H.succ x = some y → H.rank x < H.rank y

theorem Ordered.le (o : H.Ordered R) (ha : H.Live R a) (h : H.Reach a b) :
    H.rank a ≤ H.rank b := by
  induction h with
  | refl => exact le_rfl
  | @tail u v hu hv ih => exact ih.trans (o (ha.reach hu) hv).le

theorem Ordered.lt (o : H.Ordered R) (ha : H.Live R a) (h : H.Reach a b) (hne : a ≠ b) :
    H.rank a < H.rank b := by
  rcases h.eq_or_succ with rfl | ⟨c, hc, k⟩
  · exact absurd rfl hne
  · exact (o ha hc).trans_le (o.le (ha.succ hc) k)

theorem Ordered.acyclic (o : H.Ordered R) (hx : H.Live R x) (hs : H.succ x = some y) :
    ¬ H.Reach y x :=
  fun h => lt_irrefl _ ((o hx hs).trans_le (o.le (hx.succ hs) h))

theorem Ordered.eq_of_rank (o : H.Ordered R) (ha : H.Live R a) (hb : H.Reach a b)
    (hc : H.Reach a c) (h : H.rank b = H.rank c) : b = c := by
  by_contra hne
  rcases Reach.total hb hc with k | k
  · exact absurd h (o.lt (ha.reach hb) k hne).ne
  · exact absurd h.symm (o.lt (ha.reach hc) k (Ne.symm hne)).ne

theorem Ordered.gap (o : H.Ordered R) (hh : H.Live R H.head) (hp : H.Linked p)
    (hs : H.succ p = some c) (hx : H.Linked x) (h1 : H.rank p < H.rank x)
    (h2 : H.rank x < H.rank c) : False := by
  have hpl : H.Live R p := hh.reach hp
  rcases Reach.total hp hx with k | k
  · rcases k.eq_or_succ with rfl | ⟨e, he, k⟩
    · exact lt_irrefl _ h1
    · rw [hs] at he
      obtain rfl := Option.some.inj he
      exact lt_irrefl _ (h2.trans_le (o.le (hpl.succ hs) k))
  · exact lt_irrefl _ (h1.trans_le (o.le (hh.reach hx) k))

theorem Ordered.reroot (o : H.Ordered R) (hR : ∀ r ∈ R', H.Live R r) : H.Ordered R' :=
  fun h hs => o (h.mono hR) hs

theorem Steady.ordered (s : Steady H H' R) (o : H.Ordered R) : H'.Ordered R := by
  intro x y hx hs
  have hx0 := s.live.1 hx
  rw [s.succ hx0] at hs
  rw [s.rank hx0, s.rank (hx0.succ hs)]
  exact o hx0 hs

theorem Splice.ordered (s : Splice H H' R p n c) (o : H.Ordered R)
    (h1 : H.rank p < H'.rank n) (h2 : H'.rank n < H.rank c) : H'.Ordered (insert n R) := by
  have hc : H.Live R c := s.pred.succ s.pred_succ
  rintro x y ⟨r, hr, h⟩ hs
  have hlive : H.Live R x ∨ x = n := by
    rcases hr with rfl | hr
    · rcases s.reach_from_new h with rfl | h
      · exact Or.inr rfl
      · rcases s.reach_or hc h with h | ⟨rfl, _⟩
        · exact Or.inl (hc.reach h)
        · exact Or.inr rfl
    · exact s.live_or ⟨r, hr, h⟩
  rcases hlive with hx0 | rfl
  · by_cases hp : x = p
    · subst hp
      rw [s.pred_succ'] at hs
      obtain rfl := Option.some.inj hs
      rw [s.rank hx0]
      exact h1
    · rw [s.succ hx0 hp] at hs
      rw [s.rank hx0, s.rank (hx0.succ hs)]
      exact o hx0 hs
  · rw [s.new_succ'] at hs
    obtain rfl := Option.some.inj hs
    rw [s.rank hc]
    exact h2

theorem Bypass.ordered (s : Bypass H H' R p c d) (o : H.Ordered R) : H'.Ordered R := by
  intro x y hx hs
  have hx0 := s.live_of' hx
  by_cases hp : x = p
  · subst hp
    rw [s.pred_succ'] at hs
    obtain rfl := Option.some.inj hs
    have hc := s.pred.succ s.pred_succ
    rw [s.rank hx0, s.rank (hc.reach s.path)]
    exact (o hx0 s.pred_succ).trans_le (o.le hc s.path)
  · rw [s.succ hx0 hp] at hs
    rw [s.rank hx0, s.rank (hx0.succ hs)]
    exact o hx0 hs

-- nobody refers to it but from its head, and nothing is dead
structure Solid (H : Heap α κ) : Prop where
  good : H.Good {H.head}
  ordered : H.Ordered {H.head}
  alive : ∀ {x}, H.Linked x → ¬ H.dead x

theorem Solid.eq_of_rank (s : H.Solid) (hx : H.Linked x) (hy : H.Linked y)
    (h : H.rank x = H.rank y) : x = y :=
  Ordered.eq_of_rank s.ordered (Live.root rfl) hx hy h

theorem Steady.solid (t : Steady H H' {H.head}) (s : H.Solid)
    (hd : ∀ x, H.Linked x → ¬ H'.dead x) : H'.Solid where
  good := t.head ▸ t.good s.good
  ordered := t.head ▸ t.ordered s.ordered
  alive h := hd _ ((t.linked s.good).1 h)

theorem Splice.solid (t : Splice H H' {H.head} p n c) (s : H.Solid)
    (h1 : H.rank p < H'.rank n) (h2 : H'.rank n < H.rank c) : H'.Solid := by
  have hR : ∀ r ∈ ({H'.head} : Set α), H'.Live (insert n {H.head}) r := by
    rintro r rfl
    exact Live.root (Or.inr t.head)
  refine ⟨(t.good s.good).reroot rfl hR, Ordered.reroot (t.ordered s.ordered h1 h2) hR, fun hx => ?_⟩
  rcases (t.linked s.good).1 hx with hx | rfl
  · exact fun hd => s.alive hx ((t.dead (live_singleton.2 hx)).1 hd)
  · exact t.new_alive'

end Order

end Heap

end Chain
