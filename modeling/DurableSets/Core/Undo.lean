import DurableSets.Core.Durable
import DurableSets.Core.History

/-! The last change of a key in a run over chains: a node was linked, or marked. The calls that
have returned can be explained without it when none of them relied on it. -/

namespace Chain

variable {α κ : Type*} [LinearOrder κ] {H : ℕ → Heap α κ} {R : ℕ → Set α} {N a i j l m : ℕ}
  {x y : α} {k : κ}

structure Chains (H : ℕ → Heap α κ) (R : ℕ → Set α) (N : ℕ) : Prop where
  sorted : ∀ m ≤ N, Sorted (H m) (R m)
  change : ∀ m < N, Change (H m) (H (m + 1)) (R m)

omit [LinearOrder κ] in
theorem Change.dead {G G' : Heap α κ} {S : Set α} (ch : Change G G' S) (hx : G.Live S x)
    (hd : G.dead x) : G'.dead x := by
  cases ch with
  | steady s => exact s.dead hx hd
  | splice p n c s => exact (s.dead hx).2 hd
  | bypass p c d s => exact (s.dead hx).2 hd

theorem Sorted.holds_iff {G : Heap α κ} {S : Set α} (g : Sorted G S) (hl : G.Linked x)
    (hr : G.rank x = k) : Holds G k ↔ ¬ G.dead x := by
  constructor
  · rintro ⟨y, hy, hd, hry⟩
    obtain rfl := g.eq_of_rank hl hy (hr.trans hry.symm)
    exact hd
  · exact fun hd => ⟨x, hl, hd, hr⟩

namespace Chains

theorem live (h : Chains H R N) (hm : m ≤ N) (hl : (H m).Linked x) : (H m).Live (R m) x :=
  (h.sorted m hm).good.live_of_linked hl

theorem rank_since (h : Chains H R N) (hl : ∀ m, a ≤ m → m ≤ N → (H m).Linked x) :
    ∀ m, a ≤ m → m ≤ N → (H m).rank x = (H a).rank x := by
  intro m hm
  induction m, hm using Nat.le_induction with
  | base => exact fun _ => rfl
  | succ m ham ih =>
    intro hm
    have hlive := h.live (by omega) (hl m ham (by omega))
    exact ((h.change m (by omega)).rank hlive).trans (ih (by omega))

theorem dead_since (h : Chains H R N) (hl : ∀ m, a ≤ m → m ≤ N → (H m).Linked x)
    (hd : (H a).dead x) : ∀ m, a ≤ m → m ≤ N → (H m).dead x := by
  intro m hm
  induction m, hm using Nat.le_induction with
  | base => exact fun _ => hd
  | succ m ham ih =>
    intro hm
    exact (h.change m (by omega)).dead (h.live (by omega) (hl m ham (by omega))) (ih (by omega))

section Since

variable (hlink : ∀ m, l < m → m ≤ N → (H m).Linked x) (hr : (H N).rank x = k)
include hlink hr

theorem rank_at (h : Chains H R N) (hm : l < m) (hmN : m ≤ N) : (H m).rank x = k :=
  (h.rank_since (fun b hb => hlink b (hm.trans_le hb)) N hmN le_rfl).symm.trans hr

theorem eq_of_rank (h : Chains H R N) (hm : l < m) (hmN : m ≤ N) (hy : (H m).Linked y)
    (hry : (H m).rank y = k) : y = x :=
  (h.sorted m hmN).eq_of_rank hy (hlink m hm hmN) (hry.trans (h.rank_at hlink hr hm hmN).symm)

theorem not_holds_before (h : Chains H R N) (hl : l < N) (h0 : ¬ (H l).Linked x) :
    ¬ Holds (H l) k := by
  rintro ⟨y, hy, _, hry⟩
  have g := (h.sorted l hl.le).good
  have hry' := ((h.change l hl).rank (h.live hl.le hy)).trans hry
  have same : (H (l + 1)).Linked y → False := fun hy' => by
    obtain rfl := h.eq_of_rank hlink hr (Nat.lt_succ_self l) hl hy' hry'
    exact h0 hy
  have hx := hlink (l + 1) (Nat.lt_succ_self l) hl
  cases h.change l hl with
  | steady s => exact h0 ((s.linked g).1 hx)
  | splice p n c s => exact same ((s.linked g).2 (Or.inl hy))
  | bypass p c d s => exact h0 ((s.linked g).1 hx).1

theorem holds_after (h : Chains H R N) (hd : ¬ (H N).dead x) (hm : l < m) (hmN : m ≤ N) :
    Holds (H m) k := by
  refine ((h.sorted m hmN).holds_iff (hlink m hm hmN) (h.rank_at hlink hr hm hmN)).2 fun hdm => hd ?_
  exact h.dead_since (fun b hb => hlink b (hm.trans_le hb)) hdm N hmN le_rfl

theorem found_before (h : Chains H R N) (hj : j ≤ N) (hf : Found H k i j y) :
    (∃ m, i < m ∧ m ≤ j ∧ m ≤ l ∧ Holds (H m) k) ∨ (y = x ∧ l < j) := by
  obtain ⟨m, h1, h2, h3, h4, h5⟩ := hf
  rcases Nat.lt_or_ge l m with hlm | hml
  · exact Or.inr ⟨h.eq_of_rank hlink hr hlm (h2.trans hj) h3 h5, hlm.trans_le h2⟩
  · exact Or.inl ⟨m, h1, h2, hml, y, h3, h4, h5⟩

theorem relinked (h : Chains H R N) (h0 : ¬ (H 0).Linked x) (hl : l < N) (hx : (H l).Linked x)
    (hd : ¬ (H l).dead x) (hml : m ≤ l) (hdm : (H m).dead x) :
    ∃ b, m ≤ b ∧ b < l ∧ ¬ Holds (H b) k := by
  obtain ⟨b, hb, hb0, hsince⟩ := exists_last (P := fun m => (H m).Linked x) h0 hx
  have hlink' : ∀ c, b < c → c ≤ N → (H c).Linked x := by
    intro c h1 h2
    rcases Nat.lt_or_ge l c with hlc | hcl
    · exact hlink c hlc h2
    · exact hsince c h1 hcl
  refine ⟨b, ?_, hb, h.not_holds_before hlink' hr (hb.trans hl) hb0⟩
  by_contra hlt
  exact hd (h.dead_since (fun c hc => hlink' c (by omega)) hdm l hml hl.le)

theorem missed_before (h : Chains H R N) (h0 : ¬ (H 0).Linked x) (hl : l < N)
    (hx : (H l).Linked x) (hd : ¬ (H l).dead x) (hj : j ≤ N)
    (hm : Missing H k i j ∨ ∃ y, Dying H k i j y ∧
      ∃ m, i < m ∧ m ≤ j ∧ (H m).dead y ∧ (y = x → m ≤ l)) :
    ∃ m, i < m ∧ m ≤ j ∧ m ≤ l ∧ ¬ Holds (H m) k := by
  rcases hm with ⟨m, h1, h2, h3⟩ | ⟨y, ⟨m, h1, h2, h3, h4, h5⟩, m', h6, h7, h8, h9⟩
  · rcases Nat.lt_or_ge l m with hlm | hml
    · exact absurd (h.rank_at hlink hr hlm (h2.trans hj)) (h3 x (hlink m hlm (h2.trans hj)))
    · refine ⟨m, h1, h2, hml, ?_⟩
      rintro ⟨y, hy, _, hry⟩
      exact h3 y hy hry
  · rcases Nat.lt_or_ge l m with hlm | hml
    · obtain rfl := h.eq_of_rank hlink hr hlm (h2.trans hj) h3 h5
      obtain ⟨b, hb, hbl, hno⟩ := h.relinked hlink hr h0 hl hx hd (h9 rfl) h8
      exact ⟨b, by omega, by omega, hbl.le, hno⟩
    · exact ⟨m, h1, h2, hml, fun hk =>
        ((h.sorted m (h2.trans hj)).holds_iff h3 h5).1 hk h4⟩

end Since

end Chains

end Chain

namespace Run

open Chain

variable {S Pc V α κ : Type*} {M : Machine S (SetOp V) Pc} [LinearOrder κ] {ρ : Run M}
  {abs : S → Set ℤ} {done : S → Tid → Prop} {lin : ℕ → Option ℕ} {H : ℕ → Heap α κ}
  {R : ℕ → Set α} {i l : ℕ} {t : Tid} {op : SetOp V} {k : ℤ} {q : κ} {x : α}

section Undo

variable (hlin : ρ.Linearization abs lin) (hflip : ∀ {i m}, lin i = some m → ρ.Flip done i m)
  (hdone : ∀ {s s' u}, M.thread s' u = M.thread s u → (done s' u ↔ done s u))
include hlin hflip hdone

omit [LinearOrder κ] in
theorem Linearization.of_event (hl : l < ρ.length) (he : ρ.event l = .tau t)
    (ha : ρ.Active t op i (l + 1))
    (hch : ¬ (k ∈ abs (ρ.state (l + 1)) ↔ k ∈ abs (ρ.state l))) : lin i = some l := by
  obtain ⟨i', hi'⟩ := hlin.only hl fun h => hch (by rw [h])
  obtain ⟨_, _, t', op', ha', hnd, hd⟩ := hflip hi'
  have htt : t' = t := by
    by_contra hne
    have hs := ρ.step hl
    rw [he] at hs
    exact hnd ((hdone (M.step_other hs hne)).1 hd)
  subst htt
  obtain ⟨rfl, _⟩ := ha'.unique ha
  exact hi'

variable (h : Chains H R ρ.length) (habs : ∀ m ≤ ρ.length, k ∈ abs (ρ.state m) ↔ Holds (H m) q)
  (hl : l < ρ.length) (he : ρ.event l = .tau t) (ha : ρ.Active t op i (l + 1))
  (hend : ρ.Active t op i ρ.length) (hkey : op.key = k) (hr : (H ρ.length).rank x = q)
include h habs hl he ha hend hkey hr

-- the call that linked x may be undone, unless a call that has returned relied on it
theorem Linearization.undo_link (h0 : ¬ (H l).Linked x)
    (hlink : ∀ m, l < m → m ≤ ρ.length → (H m).Linked x) (hd : ¬ (H ρ.length).dead x)
    (hin : ∀ {u op r a j}, ρ.Completed u op r a j → op.key = k → a ≤ l ∧
      (op.SawIn r → ∃ b y, b ≤ j ∧ Found H q a b y ∧ (y = x → b ≤ l))) :
    k ∉ abs (ρ.state l) ∧ ρ.Undoable (fun m => abs (ρ.state m)) lin k l := by
  have hout : k ∉ abs (ρ.state l) := fun hk =>
    h.not_holds_before hlink hr hl h0 ((habs l hl.le).1 hk)
  have hmem : ∀ m, l < m → m ≤ ρ.length → k ∈ abs (ρ.state m) := fun m h1 h2 =>
    (habs m h2).2 (h.holds_after hlink hr hd h1 h2)
  refine ⟨hout, ⟨i, t, op, ?_, hkey, hend⟩, fun m h1 h2 => ?_, fun {u op' r a j} hc hk => ?_⟩
  · exact hlin.of_event hflip hdone hl he ha fun hiff =>
      hout (hiff.1 (hmem _ (Nat.lt_succ_self l) hl))
  · exact iff_of_true (hmem m h1 h2) (hmem _ (Nat.lt_succ_self l) hl)
  · obtain ⟨hal, hsaw⟩ := hin hc hk
    refine Run.answer_cut (hlin.answer hc) ?_ (fun hs _ => ?_) fun _ hm => absurd hm (hk ▸ hout)
    · refine lt_of_le_of_ne hal fun hal => ?_
      have := hc.active.call
      rw [hal, he] at this
      cases this
    · obtain ⟨b, y, hb, hf, hy⟩ := hsaw hs
      rcases h.found_before hlink hr (hb.trans hc.lt.le) hf with ⟨m, h1, h2, h3, h4⟩ | ⟨rfl, hlb⟩
      · have hj := hc.lt
        exact ⟨m, h1, by omega, h3, hk ▸ (habs m (by omega)).2 h4⟩
      · exact absurd (hy rfl) (not_le.2 hlb)

-- the call that marked x may be undone, unless a call that has returned relied on it
theorem Linearization.undo_mark (h0 : ¬ (H 0).Linked x) (hd : ¬ (H l).dead x)
    (hsince : ∀ m, l < m → m ≤ ρ.length → (H m).Linked x ∧ (H m).dead x)
    (hin : ∀ {u op r a j}, ρ.Completed u op r a j → op.key = k → a ≤ l ∧
      (op.SawOut r → Missing H q a j ∨ ∃ y, Dying H q a j y ∧
        ∃ m, a < m ∧ m ≤ j ∧ (H m).dead y ∧ (y = x → m ≤ l))) :
    k ∈ abs (ρ.state l) ∧ ρ.Undoable (fun m => abs (ρ.state m)) lin k l := by
  have hlink : ∀ m, l < m → m ≤ ρ.length → (H m).Linked x := fun m h1 h2 => (hsince m h1 h2).1
  obtain ⟨hx1, hd1⟩ := hsince (l + 1) (Nat.lt_succ_self l) hl
  have g := h.sorted l hl.le
  have hx : (H l).Linked x := ((h.change l hl).linked_or g.good hx1).resolve_right fun hn => hn hd1
  have hmem : k ∈ abs (ρ.state l) := by
    refine (habs l hl.le).2 ((g.holds_iff hx ?_).2 hd)
    exact ((h.change l hl).rank (h.live hl.le hx)).symm.trans
      (h.rank_at hlink hr (Nat.lt_succ_self l) hl)
  have hout : ∀ m, l < m → m ≤ ρ.length → k ∉ abs (ρ.state m) := fun m h1 h2 hk =>
    ((h.sorted m h2).holds_iff (hlink m h1 h2) (h.rank_at hlink hr h1 h2)).1
      ((habs m h2).1 hk) (hsince m h1 h2).2
  refine ⟨hmem, ⟨i, t, op, ?_, hkey, hend⟩, fun m h1 h2 => ?_, fun {u op' r a j} hc hk => ?_⟩
  · exact hlin.of_event hflip hdone hl he ha fun hiff =>
      hout _ (Nat.lt_succ_self l) hl (hiff.2 hmem)
  · exact iff_of_false (hout m h1 h2) (hout _ (Nat.lt_succ_self l) hl)
  · obtain ⟨hal, hsaw⟩ := hin hc hk
    refine Run.answer_cut (hlin.answer hc) ?_ (fun _ hm => absurd (hk ▸ hmem) hm) fun hs _ => ?_
    · refine lt_of_le_of_ne hal fun hal => ?_
      have := hc.active.call
      rw [hal, he] at this
      cases this
    · obtain ⟨m, h1, h2, h3, h4⟩ := h.missed_before hlink hr h0 hl hx hd hc.lt.le (hsaw hs)
      have hj := hc.lt
      exact ⟨m, h1, h2, h3, fun hm => h4 ((habs m (by omega)).1 (hk ▸ hm))⟩

end Undo

theorem exists_cut {A : Set ℤ} (hlin : ρ.Linearization abs lin)
    (h : ¬ (k ∈ abs (ρ.state ρ.length) ↔ k ∈ A) → ∃ l, (k ∈ abs (ρ.state l) ↔ k ∈ A) ∧
      ρ.Undoable (fun m => abs (ρ.state m)) lin k l) : ∃ cut : Option ℕ,
      (∀ l, cut = some l → ρ.Undoable (fun m => abs (ρ.state m)) lin k l) ∧
      (k ∈ abs (ρ.state (cut.elim ρ.length (min ρ.length))) ↔ k ∈ A) := by
  by_cases he : k ∈ abs (ρ.state ρ.length) ↔ k ∈ A
  · exact ⟨none, fun l hl => (by cases hl), he⟩
  · obtain ⟨l, hl, hu⟩ := h he
    refine ⟨some l, fun l' hl' => Option.some.inj hl' ▸ hu, ?_⟩
    rw [Option.elim, min_eq_right (hu.lt hlin.explains).le]
    exact hl

theorem Linearization.durably {A : Set ℤ} (hlin : ρ.Linearization abs lin)
    (h : ∀ k, ¬ (k ∈ abs (ρ.state ρ.length) ↔ k ∈ A) → ∃ l, (k ∈ abs (ρ.state l) ↔ k ∈ A) ∧
      ρ.Undoable (fun m => abs (ρ.state m)) lin k l) : ρ.DurablyLinearizable A := by
  choose cut hcut using fun k => exists_cut hlin (h k)
  obtain ⟨lin', hex⟩ := hlin.explains.undo fun k => (hcut k).1
  have hend : undone (fun m => abs (ρ.state m)) cut ρ.length = A := Set.ext fun k => (hcut k).2
  refine ⟨_, lin', hex, ?_, ?_⟩ <;> rw [hend] <;> rintro k ⟨h1, h2⟩ <;> exact absurd h1 h2

end Run
