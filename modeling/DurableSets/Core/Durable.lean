import DurableSets.Core.Linearizable
import Mathlib.Order.MinMax

/-! Runs that end in a crash. The sets that explain the answers of the calls need not be those
that the memory shows: a call which the crash interrupts may count or not. -/

variable {S Pc V : Type*} {M : Machine S (SetOp V) Pc}

namespace SetOp

variable {A B : Set ℤ} {op : SetOp V} {k : ℤ} {r : Bool}

theorem Effect.mem_iff (h : op.Effect A B) (hk : k ≠ op.key) : k ∈ B ↔ k ∈ A := by
  cases op with
  | insert k' v =>
    rw [h.2, Set.mem_insert_iff]
    exact or_iff_right hk
  | remove k' =>
    rw [h.2, Set.mem_sdiff, Set.mem_singleton_iff]
    exact and_iff_left hk
  | contains k' => exact h.elim

theorem Effect.flips (h : op.Effect A B) : ¬ (op.key ∈ B ↔ op.key ∈ A) := by
  cases op with
  | insert k v =>
    intro he
    exact h.1 (he.1 (h.2 ▸ Set.mem_insert k A))
  | remove k =>
    intro he
    have := he.2 h.1
    rw [h.2] at this
    exact this.2 rfl
  | contains k => exact h.elim

theorem Effect.congr {A' B' : Set ℤ} (h : op.Effect A B) (hA : op.key ∈ A' ↔ op.key ∈ A)
    (hB : op.key ∈ B' ↔ op.key ∈ B) (hother : ∀ k, k ≠ op.key → (k ∈ B' ↔ k ∈ A')) :
    op.Effect A' B' := by
  cases op with
  | insert k v =>
    obtain ⟨h1, h2⟩ := h
    refine ⟨fun hm => h1 (hA.1 hm), Set.ext fun x => ?_⟩
    rw [Set.mem_insert_iff]
    by_cases hx : x = k
    · subst hx
      refine iff_of_true (hB.2 ?_) (Or.inl rfl)
      rw [h2]
      exact Set.mem_insert x A
    · rw [hother x hx, or_iff_right hx]
  | remove k =>
    obtain ⟨h1, h2⟩ := h
    refine ⟨hA.2 h1, Set.ext fun x => ?_⟩
    rw [Set.mem_sdiff, Set.mem_singleton_iff]
    by_cases hx : x = k
    · subst hx
      refine iff_of_false (fun hm => ?_) fun hm => hm.2 rfl
      have hm' := hB.1 hm
      rw [h2] at hm'
      exact hm'.2 rfl
    · rw [hother x hx, and_iff_left hx]
  | contains k => exact h.elim

theorem Answer.mono {took took' : Prop} {saw saw' : (Set ℤ → Prop) → Prop}
    (h : op.Answer took saw r) (ht : took' ↔ took)
    (hs : ∀ Q : Prop → Prop, saw (fun A => Q (op.key ∈ A)) → saw' fun A => Q (op.key ∈ A)) :
    op.Answer took' saw' r := by
  cases op with
  | insert k v => exact h.imp (And.imp_right ht.2) (And.imp_right (And.imp (mt ht.1) (hs id)))
  | remove k => exact h.imp (And.imp_right ht.2) (And.imp_right (And.imp (mt ht.1) (hs Not)))
  | contains k => exact hs (fun q => r = true ↔ q) h

-- the answers that rest on the key being in the set, and on its absence
def SawIn (r : Bool) : SetOp V → Prop
  | insert _ _ => r = false
  | remove _ => False
  | contains _ => r = true

def SawOut (r : Bool) : SetOp V → Prop
  | insert _ _ => False
  | remove _ => r = false
  | contains _ => r = false

theorem Answer.of_saw {took : Prop} {saw saw' : (Set ℤ → Prop) → Prop} (h : op.Answer took saw r)
    (hin : op.SawIn r → saw' (op.key ∈ ·)) (hout : op.SawOut r → saw' (op.key ∉ ·)) :
    op.Answer took saw' r := by
  cases op with
  | insert k v => exact h.imp id fun h => ⟨h.1, h.2.1, hin h.1⟩
  | remove k => exact h.imp id fun h => ⟨h.1, h.2.1, hout h.1⟩
  | contains k =>
    cases r with
    | true =>
      change saw' fun A => true = true ↔ k ∈ A
      simp only [true_iff]
      exact hin rfl
    | false =>
      change saw' fun A => false = true ↔ k ∈ A
      simp only [Bool.false_eq_true, false_iff]
      exact hout rfl

end SetOp

namespace Run

variable {ρ : Run M} {A : ℕ → Set ℤ} {lin : ℕ → Option ℕ} {R : Set ℤ} {abs : S → Set ℤ}
  {i j l m n : ℕ} {t : Tid} {op : SetOp V} {k : ℤ} {r : Bool}

/-- The sets `A 0`, `A 1`, … explain the answers of the calls; `lin` is as in a linearization. -/
structure Explains (ρ : Run M) (A : ℕ → Set ℤ) (lin : ℕ → Option ℕ) : Prop where
  start : A 0 = ∅
  effect : ∀ {i m}, lin i = some m → i < m ∧ m < ρ.length ∧
    ∃ t op, ρ.Active t op i (m + 1) ∧ op.Effect (A m) (A (m + 1))
  distinct : ∀ {i j m}, lin i = some m → lin j = some m → i = j
  only : ∀ {m}, m < ρ.length → A (m + 1) ≠ A m → ∃ i, lin i = some m
  answer : ∀ {t op r i j}, ρ.Completed t op r i j →
    op.Answer (lin i ≠ none) (fun P => ∃ m, i < m ∧ m ≤ j ∧ P (A m)) r

theorem Linearization.explains (h : ρ.Linearization abs lin) :
    ρ.Explains (fun m => abs (ρ.state m)) lin :=
  ⟨h.start, h.effect, h.distinct, h.only, h.answer⟩

theorem Explains.linearization (h : ρ.Explains (fun m => abs (ρ.state m)) lin) :
    ρ.Linearization abs lin :=
  ⟨h.start, h.effect, h.distinct, h.only, h.answer⟩

theorem Explains.congr {B : ℕ → Set ℤ} (h : ρ.Explains A lin) (hAB : ∀ m ≤ ρ.length, B m = A m) :
    ρ.Explains B lin := by
  refine ⟨(hAB 0 (Nat.zero_le _)).trans h.start, ?_, h.distinct, ?_, ?_⟩
  · intro i m hi
    have he := h.effect hi
    rwa [hAB m he.2.1.le, hAB (m + 1) he.2.1]
  · intro m hm hne
    rw [hAB m hm.le, hAB (m + 1) hm] at hne
    exact h.only hm hne
  · intro t op r i j hc
    refine (h.answer hc).mono Iff.rfl ?_
    rintro Q ⟨m, h1, h2, hQ⟩
    refine ⟨m, h1, h2, ?_⟩
    rw [hAB m (h2.trans hc.lt.le)]
    exact hQ

/-- A crash at the end of the run may leave the set `R`: every call that has returned counts,
and each call that still runs has taken effect, takes effect with the crash or never does. -/
def DurablyLinearizable (ρ : Run M) (R : Set ℤ) : Prop :=
  ∃ A lin, ρ.Explains A lin ∧
    (∀ k ∈ R \ A ρ.length, ∃ t v i, ρ.Active t (.insert k v) i ρ.length ∧ lin i = none) ∧
    ∀ k ∈ A ρ.length \ R, ∃ t i, ρ.Active t (.remove k) i ρ.length ∧ lin i = none

theorem Active.not_taken {done : S → Tid → Prop}
    (hone : ∀ m, m < ρ.length → OneEffect M abs done (ρ.state m) (ρ.state (m + 1)))
    (hflip : ∀ {i m}, lin i = some m → ρ.Flip done i m) (ha : ρ.Active t op i ρ.length)
    (hd : ¬ done (ρ.state ρ.length) t) : lin i = none := by
  cases hl : lin i with
  | none => rfl
  | some m =>
    have hf := hflip hl
    exact absurd (hf.done_later hone hf.2.1 le_rfl ha) hd

/-- The change of `k` in the step from moment `l` was made by a call that is still running, it
was the last one, and the calls on `k` that have returned can be explained without it. -/
structure Undoable (ρ : Run M) (A : ℕ → Set ℤ) (lin : ℕ → Option ℕ) (k : ℤ) (l : ℕ) : Prop where
  change : ∃ i t op, lin i = some l ∧ op.key = k ∧ ρ.Active t op i ρ.length
  last : ∀ m, l < m → m ≤ ρ.length → (k ∈ A m ↔ k ∈ A (l + 1))
  answer : ∀ {t op r i j}, ρ.Completed t op r i j → op.key = k →
    op.Answer (lin i ≠ none) (fun P => ∃ m, i < m ∧ m ≤ j ∧ P (A (min m l))) r

theorem answer_cut {took : Prop}
    (h : op.Answer took (fun P => ∃ m, i < m ∧ m ≤ j ∧ P (A m)) r) (hi : i < l)
    (hin : op.SawIn r → op.key ∉ A l → ∃ m, i < m ∧ m ≤ j ∧ m ≤ l ∧ op.key ∈ A m)
    (hout : op.SawOut r → op.key ∈ A l → ∃ m, i < m ∧ m ≤ j ∧ m ≤ l ∧ op.key ∉ A m) :
    op.Answer took (fun P => ∃ m, i < m ∧ m ≤ j ∧ P (A (min m l))) r := by
  rcases Nat.lt_or_ge l j with hlj | hjl
  · refine h.of_saw (fun hr => ?_) fun hr => ?_
    · by_cases hk : op.key ∈ A l
      · exact ⟨l, hi, hlj.le, by rwa [min_self]⟩
      · obtain ⟨m, h1, h2, h3, h4⟩ := hin hr hk
        exact ⟨m, h1, h2, by rwa [min_eq_left h3]⟩
    · by_cases hk : op.key ∈ A l
      · obtain ⟨m, h1, h2, h3, h4⟩ := hout hr hk
        exact ⟨m, h1, h2, by rwa [min_eq_left h3]⟩
      · exact ⟨l, hi, hlj.le, by rwa [min_self]⟩
  · refine h.mono Iff.rfl ?_
    rintro Q ⟨m, h1, h2, hQ⟩
    exact ⟨m, h1, h2, by rwa [min_eq_left (h2.trans hjl)]⟩

theorem Undoable.lt (h : ρ.Undoable A lin k l) (hA : ρ.Explains A lin) : l < ρ.length := by
  obtain ⟨i, _, _, hi, _⟩ := h.change
  exact (hA.effect hi).2.1

def undone (A : ℕ → Set ℤ) (cut : ℤ → Option ℕ) (m : ℕ) : Set ℤ :=
  {k | k ∈ A ((cut k).elim m (min m))}

theorem mem_undone_none {cut : ℤ → Option ℕ} (h : cut k = none) : k ∈ undone A cut m ↔ k ∈ A m := by
  change k ∈ A ((cut k).elim m (min m)) ↔ _
  rw [h]
  exact Iff.rfl

theorem mem_undone {cut : ℤ → Option ℕ} (h : cut k = some l) :
    k ∈ undone A cut m ↔ k ∈ A (min m l) := by
  change k ∈ A ((cut k).elim m (min m)) ↔ _
  rw [h, Option.elim, min_comm]

def Undo (ρ : Run M) (lin : ℕ → Option ℕ) (cut : ℤ → Option ℕ) (i : ℕ) : Prop :=
  ∃ t op l, ρ.event i = .call t op ∧ cut op.key = some l ∧ lin i = some l

section Undo

variable {cut : ℤ → Option ℕ}

theorem Explains.undone_effect (h : ρ.Explains A lin)
    (hcut : ∀ k l, cut k = some l → ρ.Undoable A lin k l) (hi : lin i = some m)
    (hno : ¬ ρ.Undo lin cut i) : i < m ∧ m < ρ.length ∧
      ∃ t op, ρ.Active t op i (m + 1) ∧ op.Effect (undone A cut m) (undone A cut (m + 1)) := by
  obtain ⟨him, hm, t, op, ha, heff⟩ := h.effect hi
  refine ⟨him, hm, t, op, ha, ?_⟩
  have own : ∀ l, cut op.key = some l → m < l := by
    intro l hl
    have hne : m ≠ l := by
      rintro rfl
      exact hno ⟨t, op, m, ha.call, hl, hi⟩
    by_contra hlt
    have hlast := (hcut _ _ hl).last
    exact heff.flips ((hlast (m + 1) (by omega) hm).trans (hlast m (by omega) hm.le).symm)
  refine heff.congr ?_ ?_ fun k hk => ?_
  · cases hc : cut op.key with
    | none => exact mem_undone_none hc
    | some l =>
      rw [mem_undone hc, min_eq_left (own l hc).le]
  · cases hc : cut op.key with
    | none => exact mem_undone_none hc
    | some l =>
      rw [mem_undone hc, min_eq_left (own l hc)]
  · cases hc : cut k with
    | none =>
      rw [mem_undone_none hc, mem_undone_none hc]
      exact heff.mem_iff hk
    | some l =>
      rw [mem_undone hc, mem_undone hc]
      rcases Nat.lt_or_ge m l with hlt | hge
      · rw [min_eq_left hlt.le, min_eq_left (Nat.succ_le_of_lt hlt)]
        exact heff.mem_iff hk
      · rw [min_eq_right hge, min_eq_right (by omega)]

theorem Explains.undone_only (h : ρ.Explains A lin) (hm : m < ρ.length)
    (hne : undone A cut (m + 1) ≠ undone A cut m) :
    ∃ i, lin i = some m ∧ ¬ ρ.Undo lin cut i := by
  obtain ⟨k, hk⟩ : ∃ k, ¬ (k ∈ undone A cut (m + 1) ↔ k ∈ undone A cut m) := by
    by_contra hno
    push Not at hno
    exact hne (Set.ext hno)
  have hA : ¬ (k ∈ A (m + 1) ↔ k ∈ A m) ∧ ∀ l, cut k = some l → m < l := by
    cases hc : cut k with
    | none =>
      rw [mem_undone_none hc, mem_undone_none hc] at hk
      refine ⟨hk, fun l hl => ?_⟩
      cases hl
    | some l =>
      rw [mem_undone hc, mem_undone hc] at hk
      rcases Nat.lt_or_ge m l with hlt | hge
      · rw [min_eq_left hlt.le, min_eq_left (Nat.succ_le_of_lt hlt)] at hk
        refine ⟨hk, fun l' hl => ?_⟩
        obtain rfl := Option.some.inj hl
        exact hlt
      · rw [min_eq_right hge, min_eq_right (by omega)] at hk
        exact absurd Iff.rfl hk
  obtain ⟨i, hi⟩ := h.only hm fun he => hA.1 (by rw [he])
  refine ⟨i, hi, ?_⟩
  rintro ⟨t, op, l, he, hc, hl⟩
  obtain ⟨_, _, t', op', ha, heff⟩ := h.effect hi
  have hcall := he.symm.trans ha.call
  injection hcall with _ hop
  subst hop
  have hkey : k = op.key := by
    by_contra hne
    exact hA.1 (heff.mem_iff hne)
  have hlt := hA.2 l (by rw [hkey]; exact hc)
  have := Option.some.inj (hi.symm.trans hl)
  omega

theorem Active.not_completed (ha : ρ.Active t op i ρ.length) {u : Tid} {op' : SetOp V}
    (hc : ρ.Completed u op' r i j) : False := by
  obtain ⟨rfl, _⟩ := ha.same_thread hc.active
  refine ha.quiet j hc.active.lt hc.lt ?_
  rw [hc.ret]
  exact rfl

theorem Explains.undo (h : ρ.Explains A lin)
    (hcut : ∀ k l, cut k = some l → ρ.Undoable A lin k l) :
    ∃ lin', ρ.Explains (undone A cut) lin' := by
  classical
  let lin' : ℕ → Option ℕ := fun i => if ρ.Undo lin cut i then none else lin i
  have hlin : ∀ {i m}, lin' i = some m ↔ lin i = some m ∧ ¬ ρ.Undo lin cut i := by
    intro i m
    by_cases hu : ρ.Undo lin cut i
    · simp [lin', hu]
    · simp [lin', hu]
  refine ⟨lin', ?_, ?_, ?_, ?_, ?_⟩
  · ext k
    cases hc : cut k with
    | none => rw [mem_undone_none hc, h.start]
    | some l => rw [mem_undone hc, Nat.zero_min, h.start]
  · intro i m hi
    obtain ⟨hi, hno⟩ := hlin.1 hi
    exact h.undone_effect hcut hi hno
  · exact fun hi hj => h.distinct (hlin.1 hi).1 (hlin.1 hj).1
  · intro m hm hne
    obtain ⟨i, hi⟩ := h.undone_only hm hne
    exact ⟨i, hlin.2 hi⟩
  · intro t op r i j hc
    have hno : ¬ ρ.Undo lin cut i := by
      rintro ⟨t', op', l, he, hcut', hl⟩
      obtain ⟨i', t0, op0, hl', _, ha⟩ := (hcut _ _ hcut').change
      obtain rfl := h.distinct hl' hl
      exact ha.not_completed hc
    have htook : lin' i ≠ none ↔ lin i ≠ none := by simp [lin', hno]
    cases hk : cut op.key with
    | none =>
      refine (h.answer hc).mono htook ?_
      rintro Q ⟨m, h1, h2, hQ⟩
      refine ⟨m, h1, h2, ?_⟩
      change Q (op.key ∈ undone A cut m)
      rwa [propext (mem_undone_none hk)]
    | some l =>
      refine ((hcut _ _ hk).answer hc rfl).mono htook ?_
      rintro Q ⟨m, h1, h2, hQ⟩
      refine ⟨m, h1, h2, ?_⟩
      change Q (op.key ∈ undone A cut m)
      rwa [propext (mem_undone hk)]

end Undo

end Run
