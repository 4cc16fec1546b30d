import DurableSets.Core.Chain
import Mathlib.Order.Defs.LinearOrder

namespace Chain

variable {α κ : Type*}

inductive Change (H H' : Heap α κ) (R : Set α) : Prop where
  | steady (s : Heap.Steady H H' R)
  | splice (p n c : α) (s : Heap.Splice H H' R p n c)
  | bypass (p c d : α) (s : Heap.Bypass H H' R p c d)

theorem Change.rank {H H' : Heap α κ} {R : Set α} {x : α} (ch : Change H H' R)
    (hx : H.Live R x) : H'.rank x = H.rank x := by
  cases ch with
  | steady s => exact s.rank hx
  | splice p n c s => exact s.rank hx
  | bypass p c d s => exact s.rank hx

theorem Change.linked_or {H H' : Heap α κ} {R : Set α} {x : α} (ch : Change H H' R) (g : H.Good R)
    (hx : H'.Linked x) : H.Linked x ∨ ¬ H'.dead x := by
  cases ch with
  | steady s => exact Or.inl ((s.linked g).1 hx)
  | splice p n c s =>
    rcases (s.linked g).1 hx with h | rfl
    · exact Or.inl h
    · exact Or.inr s.new_alive'
  | bypass p c d s => exact Or.inl ((s.linked g).1 hx).1

theorem Change.stays {H H' : Heap α κ} {R : Set α} {x : α} (ch : Change H H' R) (g : H.Good R)
    (hx : H.Linked x) : H'.Linked x ∨ H'.dead x := by
  cases ch with
  | steady s => exact Or.inl ((s.linked g).2 hx)
  | splice p n c s => exact Or.inl ((s.linked g).2 (Or.inl hx))
  | bypass p c d s =>
    by_cases hb : H.Between c d x
    · exact Or.inr ((s.dead (g.live_of_linked hx)).2 (s.gone hb))
    · exact Or.inl ((s.linked g).2 ⟨hx, hb⟩)

variable {H : ℕ → Heap α κ} {S : Set α} {i m n n' : ℕ} {k : κ} {r x y z : α}

-- y was linked when it died or later, and has not moved since
def Past (H : ℕ → Heap α κ) (i n : ℕ) (y : α) : Prop :=
  ∃ m, i < m ∧ m ≤ n ∧ (H m).Linked y ∧ (H m).dead y ∧ (H n).dead y ∧
    (H m).succ y = (H n).succ y ∧ (H m).rank y = (H n).rank y ∧
    ∀ z, (H n).succ y = some z → (H m).rank z = (H n).rank z

def Seen (H : ℕ → Heap α κ) (i n : ℕ) (y : α) : Prop := (H n).Linked y ∨ Past H i n y

def SeenFrom (H : ℕ → Heap α κ) (i n : ℕ) (r : α) : Prop :=
  ∀ y, (H n).Reach r y → Seen H i n y

theorem SeenFrom.reach (h : SeenFrom H i n r) (hx : (H n).Reach r x) : SeenFrom H i n x :=
  fun y hy => h y (hx.trans hy)

theorem SeenFrom.self (h : SeenFrom H i n r) : Seen H i n r := h r (Heap.Reach.refl r)

theorem seenFrom_of_linked (h : (H n).Linked r) : SeenFrom H i n r :=
  fun _ hy => Or.inl (h.trans hy)

theorem Past.step (h : Past H i n y) (hd : (H (n + 1)).dead y)
    (hs : (H (n + 1)).succ y = (H n).succ y) (hr : (H (n + 1)).rank y = (H n).rank y)
    (hz : ∀ z, (H n).succ y = some z → (H (n + 1)).rank z = (H n).rank z) :
    Past H i (n + 1) y := by
  obtain ⟨m, h1, h2, h3, h4, _, h6, h7, h8⟩ := h
  refine ⟨m, h1, by omega, h3, h4, hd, h6.trans hs.symm, h7.trans hr.symm, fun z h => ?_⟩
  rw [hs] at h
  exact (h8 z h).trans (hz z h).symm

theorem Past.dead (h : Past H i n y) : (H n).dead y := by
  obtain ⟨m, _, _, _, _, hd, _⟩ := h
  exact hd

theorem past_now (hi : i < n) (hl : (H n).Linked y) (hd : (H n).dead y)
    (hd' : (H (n + 1)).dead y) (hs : (H (n + 1)).succ y = (H n).succ y)
    (hr : (H (n + 1)).rank y = (H n).rank y)
    (hz : ∀ z, (H n).succ y = some z → (H (n + 1)).rank z = (H n).rank z) :
    Past H i (n + 1) y :=
  Past.step ⟨n, hi, le_rfl, hl, hd, hd, rfl, rfl, fun _ _ => rfl⟩ hd' hs hr hz

theorem Seen.step (g : (H n).Good S) (ch : Change (H n) (H (n + 1)) S) (hi : i < n)
    (hl : (H n).Live S y) (h : Seen H i n y) : Seen H i (n + 1) y := by
  cases ch with
  | steady s =>
    refine h.imp (s.linked g).2 fun hp => ?_
    exact hp.step (s.dead hl hp.dead) (s.succ hl) (s.rank hl) fun z hz => s.rank (hl.succ hz)
  | splice p q c s =>
    refine h.imp (fun h => (s.linked g).2 (Or.inl h)) fun hp => ?_
    have hne : y ≠ p := by
      rintro rfl
      exact s.pred_alive hp.dead
    exact hp.step ((s.dead hl).2 hp.dead) (s.succ hl hne) (s.rank hl)
      fun z hz => s.rank (hl.succ hz)
  | bypass p c d s =>
    have hkeep : (H n).dead y → (H (n + 1)).dead y ∧ (H (n + 1)).succ y = (H n).succ y := by
      intro hd
      refine ⟨(s.dead hl).2 hd, s.succ hl ?_⟩
      rintro rfl
      exact s.pred_alive hd
    have hz : ∀ z, (H n).succ y = some z → (H (n + 1)).rank z = (H n).rank z :=
      fun z hz => s.rank (hl.succ hz)
    rcases h with h | hp
    · by_cases hb : (H n).Between c d y
      · have hd := s.gone hb
        exact Or.inr (past_now hi h hd (hkeep hd).1 (hkeep hd).2 (s.rank hl) hz)
      · exact Or.inl ((s.linked g).2 ⟨h, hb⟩)
    · exact Or.inr (hp.step (hkeep hp.dead).1 (hkeep hp.dead).2 (s.rank hl) hz)

theorem SeenFrom.step (g : (H n).Good S) (ch : Change (H n) (H (n + 1)) S) (hi : i < n)
    (hr : (H n).Live S r) (h : SeenFrom H i n r) : SeenFrom H i (n + 1) r := by
  intro y hy
  have old : (H n).Reach r y → Seen H i (n + 1) y :=
    fun hy => (h y hy).step g ch hi (hr.reach hy)
  cases ch with
  | steady s => exact old ((s.reach hr).1 hy)
  | splice p q c s =>
    rcases s.reach_or hr hy with hy | ⟨rfl, _⟩
    · exact old hy
    · exact Or.inl ((s.linked g).2 (Or.inr rfl))
  | bypass p c d s => exact old (s.reach_of' hr hy)

def Found (H : ℕ → Heap α κ) (k : κ) (i n : ℕ) (x : α) : Prop :=
  ∃ m, i < m ∧ m ≤ n ∧ (H m).Linked x ∧ ¬ (H m).dead x ∧ (H m).rank x = k

def Dying (H : ℕ → Heap α κ) (k : κ) (i n : ℕ) (x : α) : Prop :=
  ∃ m, i < m ∧ m ≤ n ∧ (H m).Linked x ∧ (H m).dead x ∧ (H m).rank x = k

def Missing (H : ℕ → Heap α κ) (k : κ) (i n : ℕ) : Prop :=
  ∃ m, i < m ∧ m ≤ n ∧ ∀ x, (H m).Linked x → (H m).rank x ≠ k

theorem Found.mono (h : Found H k i n x) (hn : n ≤ n') : Found H k i n' x := by
  obtain ⟨m, h1, h2, h3⟩ := h
  exact ⟨m, h1, h2.trans hn, h3⟩

theorem Dying.mono (h : Dying H k i n x) (hn : n ≤ n') : Dying H k i n' x := by
  obtain ⟨m, h1, h2, h3⟩ := h
  exact ⟨m, h1, h2.trans hn, h3⟩

theorem Found.succ (h : Found H k i n x) : Found H k i (n + 1) x := h.mono (Nat.le_succ n)

theorem Dying.succ (h : Dying H k i n x) : Dying H k i (n + 1) x := h.mono (Nat.le_succ n)

theorem Missing.mono (h : Missing H k i n) (hn : n ≤ n') : Missing H k i n' := by
  obtain ⟨m, h1, h2, h3⟩ := h
  exact ⟨m, h1, h2.trans hn, h3⟩

theorem Seen.dying (h : Seen H i n y) (hi : i < n) (hd : (H n).dead y)
    (hk : (H n).rank y = k) : Dying H k i n y := by
  rcases h with h | ⟨m, h1, h2, h3, h4, _, _, h7, _⟩
  · exact ⟨n, hi, le_rfl, h, hd, hk⟩
  · exact ⟨m, h1, h2, h3, h4, h7.trans hk⟩

section Order

variable [LinearOrder κ] {R : ℕ → Set α}

structure Sorted (H : Heap α κ) (S : Set α) : Prop where
  good : H.Good S
  ordered : H.Ordered S

theorem Sorted.head_live {H : Heap α κ} (g : Sorted H S) : H.Live S H.head :=
  Heap.Live.root g.good.head_root

theorem Sorted.eq_of_rank {H : Heap α κ} (g : Sorted H S) (hx : H.Linked x) (hy : H.Linked y)
    (h : H.rank x = H.rank y) : x = y := Heap.Ordered.eq_of_rank g.ordered g.head_live hx hy h

theorem Sorted.gap {H : Heap α κ} (g : Sorted H S) (hy : H.Linked y) (hs : H.succ y = some z)
    (h1 : H.rank y < k) (h2 : k < H.rank z) : ∀ x, H.Linked x → H.rank x ≠ k := by
  rintro x hx rfl
  exact Heap.Ordered.gap g.ordered g.head_live hy hs hx h1 h2

def Holds (H : Heap α κ) (k : κ) : Prop := ∃ x, H.Linked x ∧ ¬ H.dead x ∧ H.rank x = k

variable {G G' : Heap α κ} {p c d : α}

theorem holds_steady (g : Sorted G S) (s : Heap.Steady G G' S)
    (hd : ∀ x, G.Linked x → (G'.dead x ↔ G.dead x)) : Holds G' k ↔ Holds G k := by
  refine exists_congr fun x => ?_
  rw [s.linked g.good]
  refine and_congr_right fun hx => ?_
  rw [hd x hx, s.rank (g.good.live_of_linked hx)]

theorem holds_bypass (g : Sorted G S) (s : Heap.Bypass G G' S p c d) :
    Holds G' k ↔ Holds G k := by
  refine exists_congr fun x => ?_
  rw [s.linked g.good]
  constructor
  · rintro ⟨⟨hx, _⟩, hd, hr⟩
    have hl := g.good.live_of_linked hx
    exact ⟨hx, fun h => hd ((s.dead hl).2 h), (s.rank hl).symm.trans hr⟩
  · rintro ⟨hx, hd, hr⟩
    have hl := g.good.live_of_linked hx
    exact ⟨⟨hx, fun hb => hd (s.gone hb)⟩, fun h => hd ((s.dead hl).1 h), (s.rank hl).trans hr⟩

theorem holds_splice (g : Sorted G S) (s : Heap.Splice G G' S p x c) :
    Holds G' k ↔ Holds G k ∨ k = G'.rank x := by
  constructor
  · rintro ⟨y, hy, hd, hr⟩
    rcases (s.linked g.good).1 hy with hy | rfl
    · have hl := g.good.live_of_linked hy
      exact Or.inl ⟨y, hy, fun h => hd ((s.dead hl).2 h), (s.rank hl).symm.trans hr⟩
    · exact Or.inr hr.symm
  · rintro (⟨y, hy, hd, hr⟩ | rfl)
    · have hl := g.good.live_of_linked hy
      exact ⟨y, (s.linked g.good).2 (Or.inl hy), fun h => hd ((s.dead hl).1 h),
        (s.rank hl).trans hr⟩
    · exact ⟨x, (s.linked g.good).2 (Or.inr rfl), s.new_alive', rfl⟩

theorem holds_kill (g : Sorted G S) (s : Heap.Steady G G' S) (hx : G.Linked x)
    (hd : ∀ y, G.Linked y → (G'.dead y ↔ G.dead y ∨ y = x)) :
    Holds G' k ↔ Holds G k ∧ k ≠ G.rank x := by
  constructor
  · rintro ⟨y, hy, hyd, hr⟩
    have hy := (s.linked g.good).1 hy
    have hry := (s.rank (g.good.live_of_linked hy)).symm.trans hr
    refine ⟨⟨y, hy, fun h => hyd ((hd y hy).2 (Or.inl h)), hry⟩, ?_⟩
    rintro rfl
    exact hyd ((hd y hy).2 (Or.inr (g.eq_of_rank hy hx hry)))
  · rintro ⟨⟨y, hy, hyd, hr⟩, hne⟩
    refine ⟨y, (s.linked g.good).2 hy, fun h => ?_, (s.rank (g.good.live_of_linked hy)).trans hr⟩
    rcases (hd y hy).1 h with h | rfl
    · exact hyd h
    · exact hne hr.symm

theorem Seen.next (h : Seen H i n y) (g : ∀ m ≤ n, Sorted (H m) (R m)) (hi : i < n)
    (hs : (H n).succ y = some z) (hy : (H n).rank y < k) :
    (H n).rank z ≤ k ∨ Missing H k i n := by
  rcases le_or_gt ((H n).rank z) k with hz | hz
  · exact Or.inl hz
  · right
    rcases h with h | ⟨m, h1, h2, h3, _, _, h6, h7, h8⟩
    · exact ⟨n, hi, le_rfl, (g n le_rfl).gap h hs hy hz⟩
    · exact ⟨m, h1, h2, (g m h2).gap h3 (h6.trans hs) (h7 ▸ hy) (h8 z hs ▸ hz)⟩

end Order

end Chain
