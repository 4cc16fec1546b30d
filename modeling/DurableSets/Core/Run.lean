import Mathlib.Order.ConditionallyCompleteLattice.Basic
import Mathlib.Data.Set.Basic
import Mathlib.Tactic.Common

abbrev Tid := ℕ

inductive Event (Op : Type*) where
  | call (t : Tid) (op : Op)
  | ret (t : Tid) (r : Bool)
  | tau (t : Tid)

namespace Event

variable {Op : Type*}

def tid : Event Op → Tid
  | call t _ => t
  | ret t _ => t
  | tau t => t

def Boundary (t : Tid) : Event Op → Prop
  | call u _ => u = t
  | ret u _ => u = t
  | tau _ => False

theorem tid_of_boundary {t : Tid} {e : Event Op} (h : e.Boundary t) : e.tid = t := by
  cases e <;> first | exact h | exact h.elim

end Event

/-- Threads that run calls `Op` one after the other over a shared state; `thread s t` is
the call that `t` is in and the point it has reached. -/
structure Machine (S Op Pc : Type*) where
  init : S → Prop
  step : S → Event Op → S → Prop
  thread : S → Tid → Option (Op × Pc)
  init_idle : ∀ {s t}, init s → thread s t = none
  step_other : ∀ {s e s' u}, step s e s' → u ≠ e.tid → thread s' u = thread s u
  step_call : ∀ {s t op s'}, step s (.call t op) s' →
    thread s t = none ∧ ∃ pc, thread s' t = some (op, pc)
  step_ret : ∀ {s t r s'}, step s (.ret t r) s' →
    (∃ op pc, thread s t = some (op, pc)) ∧ thread s' t = none
  step_tau : ∀ {s t s'}, step s (.tau t) s' →
    ∃ op pc pc', thread s t = some (op, pc) ∧ thread s' t = some (op, pc')

variable {S Op Pc : Type*}

structure Run (M : Machine S Op Pc) where
  state : ℕ → S
  event : ℕ → Event Op
  length : ℕ
  init : M.init (state 0)
  step : ∀ {m}, m < length → M.step (state m) (event m) (state (m + 1))

namespace Run

variable {M : Machine S Op Pc} {ρ : Run M} {t u : Tid} {op op' : Op} {pc pc' : Pc}
  {i i' j m n : ℕ} {r : Bool}

theorem stepwise {P : ℕ → Prop} (h0 : P 0) (hs : ∀ m, m < ρ.length → P m → P (m + 1)) :
    ∀ n ≤ ρ.length, P n := by
  intro n
  induction n with
  | zero => exact fun _ => h0
  | succ n ih => exact fun hn => hs n (by omega) (ih (by omega))

theorem invariant (ρ : Run M) {I : S → Prop} (h0 : ∀ s, M.init s → I s)
    (hs : ∀ s e s', I s → M.step s e s' → I s') : ∀ n ≤ ρ.length, I (ρ.state n) :=
  stepwise (h0 _ ρ.init) fun _ hm ih => hs _ _ _ ih (ρ.step hm)

/-- Thread `t` runs at moment `n` the call of `op` that it started with event `i`. -/
structure Active (ρ : Run M) (t : Tid) (op : Op) (i n : ℕ) : Prop where
  lt : i < n
  call : ρ.event i = .call t op
  quiet : ∀ j, i < j → j < n → ¬ (ρ.event j).Boundary t

/-- The call started with event `i` returned `r` with event `j`. -/
structure Completed (ρ : Run M) (t : Tid) (op : Op) (r : Bool) (i j : ℕ) : Prop where
  active : ρ.Active t op i j
  lt : j < ρ.length
  ret : ρ.event j = .ret t r

theorem Active.start (h : ρ.event n = .call t op) : ρ.Active t op n (n + 1) :=
  ⟨by omega, h, fun j h1 h2 => by omega⟩

theorem Active.succ (h : ρ.Active t op i n) (hb : ¬ (ρ.event n).Boundary t) :
    ρ.Active t op i (n + 1) := by
  refine ⟨by have := h.lt; omega, h.call, fun j h1 h2 => ?_⟩
  rcases Nat.lt_succ_iff_lt_or_eq.1 h2 with h2 | rfl
  · exact h.quiet j h1 h2
  · exact hb

theorem Active.prev (h : ρ.Active t op i n) (hm : i < m) (hn : m ≤ n) : ρ.Active t op i m :=
  ⟨hm, h.call, fun j h1 h2 => h.quiet j h1 (by omega)⟩

theorem Active.unique (h : ρ.Active t op i n) (h' : ρ.Active t op' i' n) :
    i = i' ∧ op = op' := by
  have key : ∀ {a b : ℕ} {p q : Op}, ρ.Active t p a n → ρ.Active t q b n → ¬ a < b := by
    intro a b p q ha hb hlt
    refine ha.quiet b hlt hb.lt ?_
    rw [hb.call]
    exact rfl
  have hi : i = i' := by
    have h1 := key h h'
    have h2 := key h' h
    omega
  subst hi
  have hc := h.call.symm.trans h'.call
  injection hc with _ hop
  exact ⟨rfl, hop⟩

theorem Active.same_thread (h : ρ.Active t op i n) (h' : ρ.Active u op' i m) :
    t = u ∧ op = op' := by
  have hc := h.call.symm.trans h'.call
  injection hc with h1 h2
  exact ⟨h1, h2⟩

/-- Facts about the calls in progress: established by the call event, kept by the thread's
own steps and by the steps of the others. -/
theorem active_inv (ρ : Run M) {F : ℕ → ℕ → Tid → Op → Pc → Prop}
    (hcall : ∀ {n t op pc}, n < ρ.length → ρ.event n = .call t op →
      M.thread (ρ.state n) t = none → M.thread (ρ.state (n + 1)) t = some (op, pc) →
      F n (n + 1) t op pc)
    (hown : ∀ {i n t op pc pc'}, n < ρ.length → ρ.Active t op i n → ρ.event n = .tau t →
      M.thread (ρ.state n) t = some (op, pc) → M.thread (ρ.state (n + 1)) t = some (op, pc') →
      F i n t op pc → F i (n + 1) t op pc')
    (hother : ∀ {i n t op pc}, n < ρ.length → ρ.Active t op i n → t ≠ (ρ.event n).tid →
      M.thread (ρ.state n) t = some (op, pc) → M.thread (ρ.state (n + 1)) t = some (op, pc) →
      F i n t op pc → F i (n + 1) t op pc) :
    ∀ n ≤ ρ.length, ∀ {t op pc}, M.thread (ρ.state n) t = some (op, pc) →
      ∃ i, ρ.Active t op i n ∧ F i n t op pc := by
  refine stepwise ?_ ?_
  · intro t op pc h
    rw [M.init_idle ρ.init] at h
    cases h
  · intro n hn ih t op pc h
    have hstep := ρ.step hn
    by_cases ht : t = (ρ.event n).tid
    · cases he : ρ.event n with
      | call u p =>
        rw [he] at hstep ht
        obtain rfl : t = u := ht
        obtain ⟨h0, pc1, h1⟩ := M.step_call hstep
        rw [h] at h1
        injection h1 with h1
        injection h1 with h1 h2
        subst h1
        exact ⟨n, Active.start he, hcall hn he h0 h⟩
      | ret u r =>
        rw [he] at hstep ht
        obtain rfl : t = u := ht
        rw [(M.step_ret hstep).2] at h
        cases h
      | tau u =>
        rw [he] at hstep ht
        obtain rfl : t = u := ht
        obtain ⟨p, pc0, pc1, h0, h1⟩ := M.step_tau hstep
        rw [h] at h1
        injection h1 with h1
        injection h1 with h1 h2
        subst h1
        obtain ⟨i, ha, hF⟩ := ih h0
        refine ⟨i, ha.succ ?_, hown hn ha he h0 h hF⟩
        rw [he]
        exact id
    · have h0 := h
      rw [M.step_other hstep ht] at h0
      obtain ⟨i, ha, hF⟩ := ih h0
      exact ⟨i, ha.succ fun hb => ht (Event.tid_of_boundary hb).symm, hother hn ha ht h0 h hF⟩

theorem active_of_thread (ρ : Run M) (hn : n ≤ ρ.length)
    (h : M.thread (ρ.state n) t = some (op, pc)) : ∃ i, ρ.Active t op i n := by
  obtain ⟨i, hi, _⟩ := ρ.active_inv (F := fun _ _ _ _ _ => True) (fun _ _ _ _ => trivial)
    (fun _ _ _ _ _ _ => trivial) (fun _ _ _ _ _ _ => trivial) n hn h
  exact ⟨i, hi⟩

theorem Active.thread (h : ρ.Active t op i n) (hn : n ≤ ρ.length) :
    ∃ pc, M.thread (ρ.state n) t = some (op, pc) := by
  obtain ⟨k, rfl⟩ : ∃ k, n = i + 1 + k := ⟨n - (i + 1), by have := h.lt; omega⟩
  induction k with
  | zero =>
    have hstep := ρ.step (m := i) (by omega)
    rw [h.call] at hstep
    exact (M.step_call hstep).2
  | succ k ih =>
    obtain ⟨pc, hpc⟩ := ih (h.prev (by omega) (by omega)) (by omega)
    have hb := h.quiet (i + 1 + k) (by omega) (by omega)
    have hstep := ρ.step (m := i + 1 + k) (by omega)
    by_cases ht : t = (ρ.event (i + 1 + k)).tid
    · cases he : ρ.event (i + 1 + k) with
      | call u p =>
        rw [he] at hb ht
        exact absurd ht.symm hb
      | ret u r =>
        rw [he] at hb ht
        exact absurd ht.symm hb
      | tau u =>
        rw [he] at hstep ht
        obtain rfl : t = u := ht
        obtain ⟨p, pc0, pc1, h0, h1⟩ := M.step_tau hstep
        rw [hpc] at h0
        injection h0 with h0
        injection h0 with h0 h2
        subst h0
        exact ⟨pc1, h1⟩
    · exact ⟨pc, (M.step_other hstep ht).trans hpc⟩

theorem Active.or_completed (h : ρ.Active t op i m) :
    ∀ n, m ≤ n → n ≤ ρ.length →
      ρ.Active t op i n ∨ ∃ r j, m ≤ j ∧ j < n ∧ ρ.Completed t op r i j := by
  intro n hn
  induction n, hn using Nat.le_induction with
  | base => exact fun _ => Or.inl h
  | succ n hmn ih =>
    intro hn
    rcases ih (by omega) with ha | ⟨r, j, h1, h2, hc⟩
    · by_cases hb : (ρ.event n).Boundary t
      · have hstep := ρ.step (m := n) (by omega)
        obtain ⟨pc, hpc⟩ := ha.thread (by omega)
        cases he : ρ.event n with
        | call u p =>
          rw [he] at hb hstep
          obtain rfl : u = t := hb
          rw [(M.step_call hstep).1] at hpc
          cases hpc
        | ret u r =>
          rw [he] at hb
          obtain rfl : u = t := hb
          exact Or.inr ⟨r, n, hmn, by omega, ha, by omega, he⟩
        | tau u =>
          rw [he] at hb
          exact hb.elim
      · exact Or.inl (ha.succ hb)
    · exact Or.inr ⟨r, j, h1, by omega, hc⟩

theorem Active.discharge {α : Type*} {duty : Pc → Option α} {P : ℕ → α → Prop}
    (hstep : ∀ {n t op pc pc' x}, n < ρ.length → M.thread (ρ.state n) t = some (op, pc) →
      M.thread (ρ.state (n + 1)) t = some (op, pc') → ρ.event n = .tau t →
      duty pc = some x → duty pc' = some x ∨ P n x)
    {x : α} (hm : i < m) (ht : M.thread (ρ.state m) t = some (op, pc)) (hd : duty pc = some x) :
    ∀ n, m ≤ n → n ≤ ρ.length → ρ.Active t op i n →
      (∃ pc', M.thread (ρ.state n) t = some (op, pc') ∧ duty pc' = some x) ∨
        ∃ j, m ≤ j ∧ j < n ∧ P j x := by
  intro n hn
  induction n, hn using Nat.le_induction with
  | base => exact fun _ _ => Or.inl ⟨pc, ht, hd⟩
  | succ n hmn ih =>
    intro hn ha
    rcases ih (by omega) (ha.prev (by omega) (by omega)) with ⟨pc1, ht1, hd1⟩ | ⟨j, h1, h2, h3⟩
    · obtain ⟨pc2, ht2⟩ := ha.thread hn
      have hstep' := ρ.step (m := n) (by omega)
      by_cases htid : t = (ρ.event n).tid
      · have hb := ha.quiet n (by omega) (by omega)
        cases he : ρ.event n with
        | call u p =>
          rw [he] at hb htid
          exact absurd htid.symm hb
        | ret u r =>
          rw [he] at hb htid
          exact absurd htid.symm hb
        | tau u =>
          rw [he] at htid
          obtain rfl : t = u := htid
          rcases hstep (by omega) ht1 ht2 he hd1 with h | h
          · exact Or.inl ⟨pc2, ht2, h⟩
          · exact Or.inr ⟨n, hmn, by omega, h⟩
      · exact Or.inl ⟨pc1, (M.step_other hstep' htid).trans ht1, hd1⟩
    · exact Or.inr ⟨j, h1, by omega, h3⟩

section Grabs

variable {α : Type*} {g : Pc → Option α} {fin : Op → Pc → Prop} {a b : ℕ} {x y : α}

/-- In the step from moment `a` the call started with event `i` gets hold of `x`. -/
def Grabs (ρ : Run M) (g : Pc → Option α) (i a : ℕ) (x : α) : Prop :=
  a < ρ.length ∧ ∃ t op pc pc', ρ.event a = .tau t ∧ ρ.Active t op i a ∧
    M.thread (ρ.state a) t = some (op, pc) ∧ M.thread (ρ.state (a + 1)) t = some (op, pc') ∧
    g pc = none ∧ g pc' = some x

/-- The call has got hold of nothing yet, or of one thing only. -/
def Holding (ρ : Run M) (g : Pc → Option α) (fin : Op → Pc → Prop) (i n : ℕ) (op : Op)
    (pc : Pc) : Prop :=
  (g pc = none ∧ ¬ fin op pc ∧ ∀ a x, a < n → ¬ ρ.Grabs g i a x) ∨
    ∃ x, (g pc = some x ∨ (g pc = none ∧ fin op pc)) ∧ ∃ a, a < n ∧ ρ.Grabs g i a x ∧
      ∀ b y, b < n → ρ.Grabs g i b y → b = a ∧ y = x

theorem Grabs.event (h : ρ.Grabs g i a x) (ha : ρ.Active t op i n) : ρ.event a = .tau t := by
  obtain ⟨_, u, p, _, _, he, hu, _⟩ := h
  obtain ⟨rfl, _⟩ := ha.same_thread hu
  exact he

theorem Grabs.thread (h : ρ.Grabs g i a x) (ha : ρ.Active t op i n) :
    ∃ pc pc', M.thread (ρ.state a) t = some (op, pc) ∧
      M.thread (ρ.state (a + 1)) t = some (op, pc') ∧ g pc = none ∧ g pc' = some x := by
  obtain ⟨_, u, p, pc, pc', _, hu, h1, h2, h3, h4⟩ := h
  obtain ⟨rfl, rfl⟩ := ha.same_thread hu
  exact ⟨pc, pc', h1, h2, h3, h4⟩

theorem Grabs.lt (h : ρ.Grabs g i a x) : i < a := by
  obtain ⟨_, _, _, _, _, _, ha, _⟩ := h
  exact ha.lt

theorem Holding.keep (h : ρ.Holding g fin i n op pc) (hg : g pc' = g pc)
    (hf : fin op pc' ↔ fin op pc) (hn : ∀ y, ¬ ρ.Grabs g i n y) :
    ρ.Holding g fin i (n + 1) op pc' := by
  have old : ∀ {b y}, b < n + 1 → ρ.Grabs g i b y → b < n := by
    intro b y hb hy
    rcases Nat.lt_succ_iff_lt_or_eq.1 hb with hb | rfl
    · exact hb
    · exact absurd hy (hn y)
  unfold Holding at h ⊢
  rw [hg, hf]
  rcases h with ⟨h1, h2, h3⟩ | ⟨x, h1, a, ha, h2, h3⟩
  · exact Or.inl ⟨h1, h2, fun a y hb hy => h3 a y (old hb hy) hy⟩
  · exact Or.inr ⟨x, h1, a, by omega, h2, fun b y hb hy => h3 b y (old hb hy) hy⟩

theorem holding_run (ρ : Run M)
    (hcall : ∀ {n t op pc}, n < ρ.length → ρ.event n = .call t op →
      M.thread (ρ.state (n + 1)) t = some (op, pc) → g pc = none ∧ ¬ fin op pc)
    (hnew : ∀ {n t op pc pc'}, n < ρ.length → ρ.event n = .tau t →
      M.thread (ρ.state n) t = some (op, pc) → M.thread (ρ.state (n + 1)) t = some (op, pc') →
      ¬ fin op pc ∧ (g pc = none → ¬ fin op pc') ∧
      ∀ x, g pc = some x → g pc' = some x ∨ (g pc' = none ∧ fin op pc')) :
    ∀ n ≤ ρ.length, ∀ {t op pc}, M.thread (ρ.state n) t = some (op, pc) →
      ∃ i, ρ.Active t op i n ∧ ρ.Holding g fin i n op pc := by
  refine ρ.active_inv (F := fun i n _ op pc => ρ.Holding g fin i n op pc) ?_ ?_ ?_
  · intro n t op pc hn he _ ht
    obtain ⟨h1, h2⟩ := hcall hn he ht
    exact Or.inl ⟨h1, h2, fun a x ha h => by have := h.lt; omega⟩
  · intro i n t op pc pc' hn ha he ht ht' h
    obtain ⟨hfin, hnone, hsome⟩ := hnew hn he ht ht'
    have hgrab : ∀ y, ρ.Grabs g i n y → g pc = none ∧ g pc' = some y := by
      intro y hy
      obtain ⟨pc1, pc2, h1, h2, h3, h4⟩ := hy.thread ha
      obtain ⟨_, rfl⟩ := Prod.mk.inj (Option.some.inj (ht.symm.trans h1))
      obtain ⟨_, rfl⟩ := Prod.mk.inj (Option.some.inj (ht'.symm.trans h2))
      exact ⟨h3, h4⟩
    rcases h with ⟨h1, h2, h3⟩ | ⟨x, h1, a, hlt, h2, h3⟩
    · cases hg : g pc' with
      | none =>
        refine Or.inl ⟨hg, hnone h1, fun a y hlt hy => ?_⟩
        rcases Nat.lt_succ_iff_lt_or_eq.1 hlt with hlt | rfl
        · exact h3 a y hlt hy
        · exact absurd (hg.symm.trans (hgrab y hy).2) nofun
      | some x =>
        refine Or.inr ⟨x, Or.inl hg, n, by omega, ⟨hn, t, op, pc, pc', he, ha, ht, ht', h1, hg⟩, ?_⟩
        intro b y hlt hy
        rcases Nat.lt_succ_iff_lt_or_eq.1 hlt with hlt | rfl
        · exact absurd hy (h3 b y hlt)
        · exact ⟨rfl, Option.some.inj ((hgrab y hy).2.symm.trans hg)⟩
    · have hx : g pc = some x := h1.resolve_right fun h => hfin h.2
      refine Or.inr ⟨x, hsome x hx, a, by omega, h2, fun b y hb hy => ?_⟩
      rcases Nat.lt_succ_iff_lt_or_eq.1 hb with hb | rfl
      · exact h3 b y hb hy
      · exact absurd (hx.symm.trans (hgrab y hy).1) nofun
  · intro i n t op pc hn ha hne ht ht' h
    refine h.keep rfl Iff.rfl fun y hy => hne ?_
    rw [hy.event ha]
    exact rfl

theorem Grabs.same_call (h : ρ.Grabs g i a x) (h' : ρ.Grabs g j a y) : i = j := by
  obtain ⟨_, t, op, _, _, he, ha, _⟩ := h
  obtain ⟨_, u, p, _, _, he', ha', _⟩ := h'
  obtain rfl : t = u := by
    have h := he.symm.trans he'
    injection h
  exact (ha.unique ha').1

theorem Grabs.before (h : ρ.Grabs g i a x) (hc : ρ.Completed t op r i j) : a < j := by
  have he := h.event hc.active
  obtain ⟨_, _, _, _, _, _, ha, _⟩ := h
  obtain ⟨rfl, rfl⟩ := ha.same_thread hc.active
  by_contra hlt
  rcases Nat.lt_or_eq_of_le (not_lt.1 hlt) with hlt | rfl
  · refine ha.quiet j hc.active.lt hlt ?_
    rw [hc.ret]
    exact rfl
  · have := he.symm.trans hc.ret
    cases this

theorem grabs_once (hrun : ∀ n ≤ ρ.length, ∀ {t op pc}, M.thread (ρ.state n) t = some (op, pc) →
      ∃ i, ρ.Active t op i n ∧ ρ.Holding g fin i n op pc)
    (h : ρ.Grabs g i a x) (h' : ρ.Grabs g i b y) (hab : a ≤ b) : a = b ∧ x = y := by
  have ⟨hb, t, op, pc, pc', he, ha, _, ht', _, hg⟩ := h'
  have hact : ρ.Active t op i (b + 1) := by
    refine ha.succ ?_
    rw [he]
    exact id
  obtain ⟨i', ha', hold⟩ := hrun (b + 1) hb ht'
  obtain ⟨rfl, _⟩ := ha'.unique hact
  rcases hold with ⟨h1, _, _⟩ | ⟨z, _, c, _, _, huniq⟩
  · exact absurd (h1.symm.trans hg) nofun
  · obtain ⟨rfl, rfl⟩ := huniq a x (by omega) h
    obtain ⟨rfl, rfl⟩ := huniq b y (by omega) h'
    exact ⟨rfl, rfl⟩

theorem grabs_unique (ρ : Run M)
    (hlt : ∀ {i j a b x}, ρ.Grabs g i a x → ρ.Grabs g j b x → ¬ a < b)
    (h : ρ.Grabs g i a x) (h' : ρ.Grabs g j b x) : i = j ∧ a = b := by
  have h1 := hlt h h'
  have h2 := hlt h' h
  obtain rfl : a = b := by omega
  exact ⟨h.same_call h', rfl⟩

end Grabs

end Run

theorem exists_last {P : ℕ → Prop} (h0 : ¬ P 0) :
    ∀ {n}, P n → ∃ l, l < n ∧ ¬ P l ∧ ∀ m, l < m → m ≤ n → P m := by
  intro n
  induction n with
  | zero => exact fun h => absurd h h0
  | succ n ih =>
    intro hn
    by_cases h : P n
    · obtain ⟨l, h1, h2, h3⟩ := ih h
      refine ⟨l, by omega, h2, fun m hl hm => ?_⟩
      rcases Nat.le_succ_iff.1 hm with hm | rfl
      · exact h3 m hl hm
      · exact hn
    · refine ⟨n, by omega, h, fun m hl hm => ?_⟩
      obtain rfl : m = n + 1 := by omega
      exact hn
