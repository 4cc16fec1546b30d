import DurableSets.Core.Buckets
import DurableSets.Core.Progress
import Mathlib.Algebra.Order.BigOperators.Group.Finset
import Mathlib.Data.Fintype.Order
import Mathlib.Data.Prod.Lex
import Mathlib.Order.WellFounded

variable {S Op Pc α ι : Type*}

def Event.IsRet : Event Op → Prop
  | .ret _ _ => True
  | _ => False

structure Execution (M : Machine S Op Pc) where
  state : ℕ → S
  event : ℕ → Event Op
  init : M.init (state 0)
  step : ∀ m, M.step (state m) (event m) (state (m + 1))

section Rest

variable [PartialOrder α] [WellFoundedLT α]

theorem exists_rest {f : ℕ → α} {n : ℕ} (h : ∀ m, n ≤ m → f (m + 1) ≤ f m) :
    ∃ N, n ≤ N ∧ ∀ m, N ≤ m → f m = f N := by
  obtain ⟨N, hN, hmin⟩ := (InvImage.wf f (wellFounded_lt (α := α))).has_min (Set.Ici n)
    ⟨n, Set.self_mem_Ici⟩
  refine ⟨N, hN, fun m hm => ?_⟩
  have hle : f m ≤ f N := by
    induction m, hm using Nat.le_induction with
    | base => exact le_rfl
    | succ m hNm ih => exact (h m (le_trans hN hNm)).trans ih
  exact eq_of_le_of_not_lt hle (hmin m (le_trans hN hm))

theorem exists_rest_all [Finite ι] {f : ι → ℕ → α} {n : ℕ}
    (h : ∀ i m, n ≤ m → f i (m + 1) ≤ f i m) :
    ∃ N, n ≤ N ∧ ∀ i m, N ≤ m → f i m = f i N := by
  choose k _ hf using fun i => exists_rest (h i)
  obtain ⟨N, hN⟩ := Finite.exists_le k
  refine ⟨max n N, le_max_left _ _, fun i m hm => ?_⟩
  have hi : k i ≤ max n N := (hN i).trans (le_max_right _ _)
  rw [hf i _ hi, hf i _ (hi.trans hm)]

end Rest

namespace Machine

variable {M : Machine S Op Pc}

/-- However the steps of finitely many threads interleave, calls return again and again. -/
def LockFree (M : Machine S Op Pc) : Prop :=
  ∀ (ε : Execution M) (T : Finset Tid), (∀ n, (ε.event n).tid ∈ T) →
    ∀ n, ∃ m, n ≤ m ∧ (ε.event m).IsRet

/-- However the steps interleave, a call of the kind `P` can always go on, and it returns after
finitely many steps of its own. -/
def StarvationFree (M : Machine S Op Pc) (P : Op → Prop) : Prop :=
  ∀ (ε : Execution M) (n : ℕ) (t : Tid) (op : Op) (pc : Pc), P op →
    M.thread (ε.state n) t = some (op, pc) → (∃ s, M.Solo t (ε.state n) s) ∧
      ((∀ m, ∃ k, m ≤ k ∧ (ε.event k).tid = t) → ∃ m r, n ≤ m ∧ ε.event m = .ret t r)

-- a thread that does not return can start one call more
theorem exists_taus (ε : Execution M) {T : Finset Tid} {n : ℕ} (hT : ∀ n, (ε.event n).tid ∈ T)
    (hno : ∀ m, n ≤ m → ¬ (ε.event m).IsRet) :
    ∃ N, n ≤ N ∧ ∀ m, N ≤ m → ∃ t ∈ T, ε.event m = .tau t := by
  classical
  let f : T → ℕ → ℕ := fun t m => if M.thread (ε.state m) t = none then 1 else 0
  have hstep : ∀ (t : T) m, n ≤ m → f t (m + 1) ≤ f t m ∧
      ∀ op, ε.event m = .call t op → f t (m + 1) < f t m := by
    intro t m hm
    have hs := ε.step m
    cases he : ε.event m with
    | call u op =>
      rw [he] at hs
      by_cases hu : (t : Tid) = u
      · subst hu
        obtain ⟨h0, pc, h1⟩ := M.step_call hs
        simp [f, h0, h1]
      · have := M.step_other hs hu
        simp only [f, this, le_refl, true_and]
        intro op' h
        cases h
        exact absurd rfl hu
    | ret u r => exact absurd (he ▸ trivial) (hno m hm)
    | tau u =>
      rw [he] at hs
      constructor
      · by_cases hu : (t : Tid) = u
        · subst hu
          obtain ⟨op, pc, pc', h0, h1⟩ := M.step_tau hs
          simp [f, h0, h1]
        · simp [f, M.step_other hs hu]
      · intro op h
        cases h
  obtain ⟨N, hN, hrest⟩ := exists_rest_all fun t m hm => (hstep t m hm).1
  refine ⟨N, hN, fun m hm => ?_⟩
  cases he : ε.event m with
  | call t op =>
    have ht : t ∈ T := by
      have := hT m
      rwa [he] at this
    have h1 := hrest ⟨t, ht⟩ m hm
    have h2 := hrest ⟨t, ht⟩ (m + 1) (hm.trans (Nat.le_succ m))
    exact absurd ((hstep ⟨t, ht⟩ m (hN.trans hm)).2 op he) (by rw [h1, h2]; exact lt_irrefl _)
  | ret t r => exact absurd (he ▸ trivial) (hno m (hN.trans hm))
  | tau t =>
    refine ⟨t, ?_, rfl⟩
    have := hT m
    rwa [he] at this

structure Stable (M : Machine S Op Pc) (I : S → Prop) : Prop where
  init : ∀ {s}, M.init s → I s
  step : ∀ {s e s'}, I s → M.step s e s' → I s'

theorem Stable.execution {I : S → Prop} (h : M.Stable I) (ε : Execution M) (n : ℕ) :
    I (ε.state n) := by
  induction n with
  | zero => exact h.init ε.init
  | succ n ih => exact h.step ih (ε.step n)

theorem starvationFree_of_rank [Preorder α] [WellFoundedLT α] {I : S → Prop} {P : Op → Prop}
    (μ : S → Pc → α) (stable : M.Stable I)
    (can : ∀ {s t op pc}, I s → P op → M.thread s t = some (op, pc) → ∃ s', M.Solo t s s')
    (own : ∀ {s t s' op pc pc'}, I s → P op → M.step s (.tau t) s' →
      M.thread s t = some (op, pc) → M.thread s' t = some (op, pc') → μ s' pc' < μ s pc)
    (other : ∀ {s e s' t op pc}, I s → P op → M.step s e s' → t ≠ e.tid →
      M.thread s t = some (op, pc) → μ s' pc ≤ μ s pc) : M.StarvationFree P := by
  intro ε n t op pc hP ht
  refine ⟨can (stable.execution ε n) hP ht, fun often => ?_⟩
  -- up to the next event of the thread the call stays where it is
  have wait : ∀ k n pc, M.thread (ε.state n) t = some (op, pc) →
      (∀ m, n ≤ m → m < n + k → (ε.event m).tid ≠ t) →
      M.thread (ε.state (n + k)) t = some (op, pc) ∧
        μ (ε.state (n + k)) pc ≤ μ (ε.state n) pc := by
    intro k n pc ht hno
    induction k with
    | zero => exact ⟨ht, le_rfl⟩
    | succ k ih =>
      obtain ⟨hk, hle⟩ := ih fun m hm hlt => hno m hm (by omega)
      have hne := (hno (n + k) (Nat.le_add_right n k) (by omega)).symm
      have hs := ε.step (n + k)
      exact ⟨(M.step_other hs hne).trans hk,
        (other (stable.execution ε _) hP hs hne hk).trans hle⟩
  generalize hμ : μ (ε.state n) pc = a
  induction a using WellFoundedLT.induction generalizing n pc with
  | ind a ih =>
    subst hμ
    classical
    obtain ⟨k, hk, hno⟩ : ∃ k, (ε.event (n + k)).tid = t ∧
        ∀ m, n ≤ m → m < n + k → (ε.event m).tid ≠ t := by
      have he : ∃ k, (ε.event (n + k)).tid = t := by
        obtain ⟨k, hk, he⟩ := often n
        exact ⟨k - n, by rwa [Nat.add_sub_cancel' hk]⟩
      refine ⟨Nat.find he, Nat.find_spec he, fun m hm hlt h => ?_⟩
      refine Nat.find_min he (m := m - n) (by omega) ?_
      rwa [Nat.add_sub_cancel' hm]
    obtain ⟨hth, hle⟩ := wait k n pc ht hno
    have hs := ε.step (n + k)
    cases he : ε.event (n + k) with
    | call u op' =>
      rw [he] at hs hk
      obtain rfl : u = t := hk
      rw [(M.step_call hs).1] at hth
      cases hth
    | ret u r =>
      rw [he] at hk
      obtain rfl : u = t := hk
      exact ⟨n + k, r, Nat.le_add_right n k, he⟩
    | tau u =>
      rw [he] at hs hk
      obtain rfl : u = t := hk
      obtain ⟨op1, pc1, pc', h0, h1⟩ := M.step_tau hs
      obtain ⟨rfl, rfl⟩ := Prod.mk.inj (Option.some.inj (hth.symm.trans h0))
      have hlt := (own (stable.execution ε _) hP hs hth h1).trans_le hle
      obtain ⟨m, r, hm, hr⟩ := ih _ hlt (n + k + 1) pc' h1 rfl
      exact ⟨m, r, by omega, hr⟩

theorem lockFree_of_ranks [PartialOrder α] [WellFoundedLT α] [Finite ι] {I : S → Prop}
    (rank : Finset Tid → ι → S → α) (stable : M.Stable I)
    (falls : ∀ {T s t s'}, I s → t ∈ T → M.step s (.tau t) s' →
      (∀ i, rank T i s' ≤ rank T i s) ∧ ∃ i, rank T i s' < rank T i s) : M.LockFree := by
  intro ε T hT n
  by_contra hno
  push Not at hno
  obtain ⟨N, hN, htau⟩ := exists_taus ε hT hno
  have hstep : ∀ m, N ≤ m → (∀ i, rank T i (ε.state (m + 1)) ≤ rank T i (ε.state m)) ∧
      ∃ i, rank T i (ε.state (m + 1)) < rank T i (ε.state m) := by
    intro m hm
    obtain ⟨t, ht, he⟩ := htau m hm
    have hs := ε.step m
    rw [he] at hs
    exact falls (stable.execution ε m) ht hs
  obtain ⟨K, hK, hrest⟩ := exists_rest_all (f := fun i m => rank T i (ε.state m))
    fun i m hm => (hstep m hm).1 i
  obtain ⟨i, hi⟩ := (hstep K hK).2
  have h := hrest i (K + 1) (Nat.le_succ K)
  rw [h] at hi
  exact lt_irrefl _ hi

/-- Every step inside a call lowers the rank of the state, whichever of the threads makes it. -/
structure Descends [LT α] (M : Machine S Op Pc) (I : S → Prop) (rank : Finset Tid → S → α) :
    Prop where
  stable : M.Stable I
  falls : ∀ {T s t s'}, I s → t ∈ T → M.step s (.tau t) s' → rank T s' < rank T s

theorem Descends.lockFree [PartialOrder α] [WellFoundedLT α] {I : S → Prop}
    {rank : Finset Tid → S → α} (h : M.Descends I rank) : M.LockFree :=
  lockFree_of_ranks (ι := Unit) (fun T _ => rank T) h.stable fun hI ht hs =>
    ⟨fun _ => (h.falls hI ht hs).le, (), h.falls hI ht hs⟩

/-- A machine on top of another, whose own steps are some that a thread has still to make. -/
theorem Descends.lift {S' Pc' : Type*} [Preorder α] {I : S → Prop} {rank : Finset Tid → S → α}
    (h : M.Descends I rank) {N : Machine S' Op Pc'} {J : S' → Prop} (f : S' → S)
    (own : Tid → S' → ℕ) (stable : N.Stable J) (base : ∀ {s}, J s → I (f s))
    (tau : ∀ {s t s'}, J s → N.step s (.tau t) s' → M.step (f s) (.tau t) (f s') ∨
      (f s' = f s ∧ own t s' < own t s ∧ ∀ u, u ≠ t → own u s' = own u s)) :
    N.Descends J fun T s => toLex (rank T (f s), ∑ t ∈ T, own t s) where
  stable := stable
  falls {T s t s'} hJ ht hs := by
    rcases tau hJ hs with hstep | ⟨he, hlt, hother⟩
    · exact Prod.Lex.toLex_lt_toLex.2 (Or.inl (h.falls (base hJ) ht hstep))
    · refine Prod.Lex.toLex_lt_toLex.2 (Or.inr ⟨by rw [he], ?_⟩)
      refine Finset.sum_lt_sum (fun u _ => ?_) ⟨t, ht, hlt⟩
      by_cases hu : u = t
      · exact hu ▸ hlt.le
      · exact (hother u hu).le

/-- A thread that is not fresh may have to start again. Steps that spend none of the potential
leave the other threads as they are, and then a thread that is fresh stays so and comes nearer
to its end. -/
structure Retries (M : Machine S Op Pc) (I : S → Prop) (pot : Finset Tid → S → ℕ)
    (fresh : Tid → S → Prop) (rest : Tid → S → ℕ) : Prop where
  stable : M.Stable I
  pays : ∀ {T s t s'}, I s → t ∈ T → M.step s (.tau t) s' → pot T s' < pot T s ∨
    (pot T s' ≤ pot T s ∧ (∀ u, u ≠ t → (fresh u s' ↔ fresh u s) ∧ rest u s' = rest u s) ∧
      ((¬ fresh t s ∧ fresh t s') ∨ ((fresh t s → fresh t s') ∧ rest t s' < rest t s)))

open Classical in
noncomputable def retryRank (pot : Finset Tid → S → ℕ) (fresh : Tid → S → Prop)
    (rest : Tid → S → ℕ) (T : Finset Tid) (s : S) : ℕ ×ₗ ℕ ×ₗ ℕ :=
  toLex (pot T s, toLex ((T.filter fun t => ¬ fresh t s).card, ∑ t ∈ T, rest t s))

theorem Retries.descends {I : S → Prop} {pot : Finset Tid → S → ℕ} {fresh : Tid → S → Prop}
    {rest : Tid → S → ℕ} (h : M.Retries I pot fresh rest) :
    M.Descends I (retryRank pot fresh rest) where
  stable := h.stable
  falls {T s t s'} hI ht hs := by
    classical
    rcases h.pays hI ht hs with hlt | ⟨hle, hother, hown⟩
    · exact Prod.Lex.toLex_lt_toLex.2 (Or.inl hlt)
    rcases hle.lt_or_eq with hlt | heq
    · exact Prod.Lex.toLex_lt_toLex.2 (Or.inl hlt)
    refine Prod.Lex.toLex_lt_toLex.2 (Or.inr ⟨heq, ?_⟩)
    rcases hown with ⟨hno, hyes⟩ | ⟨hkeep, hlt⟩
    · refine Prod.Lex.toLex_lt_toLex.2 (Or.inl (Finset.card_lt_card ?_))
      refine Finset.ssubset_iff_of_subset ?_ |>.2 ⟨t, ?_, ?_⟩
      · intro u hu
        obtain ⟨huT, hu⟩ := Finset.mem_filter.1 hu
        have hne : u ≠ t := by
          rintro rfl
          exact hu hyes
        exact Finset.mem_filter.2 ⟨huT, fun hf => hu ((hother u hne).1.2 hf)⟩
      · exact Finset.mem_filter.2 ⟨ht, hno⟩
      · exact fun hm => (Finset.mem_filter.1 hm).2 hyes
    · refine Prod.Lex.toLex_lt_toLex.2 ?_
      have hsub : (T.filter fun u => ¬ fresh u s') ⊆ T.filter fun u => ¬ fresh u s := by
        intro u hu
        obtain ⟨huT, hu⟩ := Finset.mem_filter.1 hu
        refine Finset.mem_filter.2 ⟨huT, fun hf => hu ?_⟩
        by_cases hne : u = t
        · subst hne
          exact hkeep hf
        · exact (hother u hne).1.2 hf
      rcases (Finset.card_le_card hsub).lt_or_eq with hc | hc
      · exact Or.inl hc
      · refine Or.inr ⟨hc, Finset.sum_lt_sum (fun u _ => ?_) ⟨t, ht, hlt⟩⟩
        by_cases hne : u = t
        · subst hne
          exact hlt.le
        · exact (hother u hne).2.le

section Calls

variable (M : Machine S Op Pc) (budget : Pc → ℕ) (load : S → ℕ) (fresh : S → Pc → Prop)
  (measure : S → Pc → ℕ)

def owed (t : Tid) (s : S) : ℕ := (M.thread s t).elim 0 fun c => budget c.2

def rest (t : Tid) (s : S) : ℕ := (M.thread s t).elim 0 fun c => measure s c.2

def Settled (t : Tid) (s : S) : Prop := ∀ op pc, M.thread s t = some (op, pc) → fresh s pc

def potential (T : Finset Tid) (s : S) : ℕ := ∑ t ∈ T, M.owed budget t s + load s

/-- A step of a call spends some of its budget or of the load of the memory, or the other calls
do not notice it. -/
structure Spends (I : S → Prop) : Prop where
  stable : M.Stable I
  pays : ∀ {s t s' op pc pc'}, I s → M.step s (.tau t) s' → M.thread s t = some (op, pc) →
    M.thread s' t = some (op, pc') → budget pc' + load s' < budget pc + load s ∨
      (budget pc' + load s' ≤ budget pc + load s ∧
        (∀ u p q, M.thread s u = some (p, q) →
          (fresh s' q ↔ fresh s q) ∧ measure s' q = measure s q) ∧
        ((¬ fresh s pc ∧ fresh s' pc') ∨
          ((fresh s pc → fresh s' pc') ∧ measure s' pc' < measure s pc)))

variable {M budget load fresh measure} {I : S → Prop} {s s' : S} {t u : Tid} {op : Op} {pc pc' : Pc}

theorem settled_iff (h : M.thread s t = some (op, pc)) : M.Settled fresh t s ↔ fresh s pc := by
  constructor
  · exact fun hs => hs op pc h
  · intro hf op1 pc1 h1
    obtain ⟨_, rfl⟩ := Prod.mk.inj (Option.some.inj (h.symm.trans h1))
    exact hf

theorem rest_of_thread (h : M.thread s t = some (op, pc)) : M.rest measure t s = measure s pc := by
  simp only [rest, h, Option.elim]

theorem sum_owed (budget : Pc → ℕ) {T : Finset Tid} (ht : t ∈ T) (hs : M.step s (.tau t) s')
    (h : M.thread s t = some (op, pc)) (h' : M.thread s' t = some (op, pc')) :
    ∑ u ∈ T, M.owed budget u s' + budget pc = ∑ u ∈ T, M.owed budget u s + budget pc' := by
  have h0 : M.owed budget t s = budget pc := by simp only [owed, h, Option.elim]
  have h1 : M.owed budget t s' = budget pc' := by simp only [owed, h', Option.elim]
  have hother : ∀ u ∈ T.erase t, M.owed budget u s' = M.owed budget u s := by
    intro u hu
    simp only [owed, M.step_other hs (Finset.ne_of_mem_erase hu)]
  rw [← Finset.add_sum_erase T _ ht, ← Finset.add_sum_erase T (fun u => M.owed budget u s) ht, h0,
    h1, Finset.sum_congr rfl hother]
  omega

theorem Spends.retries (h : M.Spends budget load fresh measure I) :
    M.Retries I (M.potential budget load) (M.Settled fresh) (M.rest measure) where
  stable := h.stable
  pays {T s t s'} hI ht hs := by
    obtain ⟨op, pc, pc', h0, h1⟩ := M.step_tau hs
    have hsum := sum_owed budget ht hs h0 h1
    unfold potential
    rcases h.pays hI hs h0 h1 with hlt | ⟨hle, hother, hown⟩
    · exact Or.inl (by omega)
    · refine Or.inr ⟨by omega, fun u hu => ?_, ?_⟩
      · have hth := M.step_other hs hu
        cases hc : M.thread s u with
        | none =>
          rw [hc] at hth
          constructor
          · refine iff_of_true (fun p q hq => ?_) fun p q hq => ?_
            · rw [hth] at hq
              cases hq
            · rw [hc] at hq
              cases hq
          · simp only [rest, hth, hc, Option.elim]
        | some c =>
          rw [hc] at hth
          obtain ⟨hf, hm⟩ := hother u c.1 c.2 hc
          rw [settled_iff hc, settled_iff hth, rest_of_thread hc, rest_of_thread hth]
          exact ⟨hf, hm⟩
      · rw [settled_iff h0, settled_iff h1, rest_of_thread h0, rest_of_thread h1]
        exact hown

theorem Spends.descends (h : M.Spends budget load fresh measure I) :
    M.Descends I (retryRank (M.potential budget load) (M.Settled fresh) (M.rest measure)) :=
  h.retries.descends

end Calls

end Machine

namespace Table

variable {V : Type*} [DecidableEq ι] {M : Machine S (SetOp V) Pc} {index : ℤ → ι}

theorem stable {I : S → Prop} (h : M.Stable I) :
    (machine M index).Stable fun T => ∀ i, I (T.bucket i) where
  init hT i := h.init (hT i)
  step {T e T'} hI hs i := by
    have keep : ∀ {j : ι} {s : S}, M.step (T.bucket j) e s →
        I (Function.update T.bucket j s i) := by
      intro j s hs
      by_cases hi : i = j
      · subst hi
        rw [Function.update_self]
        exact h.step (hI i) hs
      · rw [Function.update_of_ne hi]
        exact hI i
    cases hs with
    | call t op s _ hs => exact keep hs
    | tau t s hs => exact keep hs
    | ret t r s hs => exact keep hs

theorem lockFree [Finite ι] [PartialOrder α] [WellFoundedLT α] {I : S → Prop}
    {rank : Finset Tid → S → α} (h : M.Descends I rank) : (machine M index).LockFree := by
  refine Machine.lockFree_of_ranks (fun T i s => rank T (s.bucket i)) (stable h.stable) ?_
  intro T s t s' hI ht hs
  cases hs with
  | tau t r hr =>
    have hlt := h.falls (hI (s.current t)) ht hr
    refine ⟨fun i => ?_, s.current t, ?_⟩
    · by_cases hi : i = s.current t
      · subst hi
        simpa only [Table.set, Function.update_self] using hlt.le
      · simp only [Table.set, Function.update_of_ne hi, le_refl]
    · simpa only [Table.set, Function.update_self] using hlt

end Table
