import DurableSets.Core.Run
import Mathlib.Data.Set.Insert

def INT_MAX : ℤ := 2147483647

def INT_MIN : ℤ := -2147483648

inductive SetOp (V : Type*) where
  | insert (key : ℤ) (value : V)
  | remove (key : ℤ)
  | contains (key : ℤ)
deriving DecidableEq

namespace SetOp

variable {V : Type*}

def key : SetOp V → ℤ
  | insert k _ => k
  | remove k => k
  | contains k => k

def IsInsert : SetOp V → Prop
  | insert _ _ => True
  | _ => False

def IsRemove : SetOp V → Prop
  | remove _ => True
  | _ => False

def IsContains : SetOp V → Prop
  | contains _ => True
  | _ => False

theorem IsInsert.not_contains {op : SetOp V} (h : op.IsInsert) : ¬ op.IsContains := by
  cases op with
  | insert k v => exact id
  | remove k => exact h.elim
  | contains k => exact h.elim

theorem IsRemove.not_contains {op : SetOp V} (h : op.IsRemove) : ¬ op.IsContains := by
  cases op with
  | insert k v => exact h.elim
  | remove k => exact id
  | contains k => exact h.elim

/-- What a call that takes effect does to the set. -/
def Effect : SetOp V → Set ℤ → Set ℤ → Prop
  | insert k _, A, B => k ∉ A ∧ B = Insert.insert k A
  | remove k, A, B => k ∈ A ∧ B = A \ {k}
  | contains _, _, _ => False

/-- The answer `r` of a call, given whether it took effect and which sets it overlapped. -/
def Answer (took : Prop) (saw : (Set ℤ → Prop) → Prop) (r : Bool) : SetOp V → Prop
  | insert k _ => (r = true ∧ took) ∨ (r = false ∧ ¬ took ∧ saw (k ∈ ·))
  | remove k => (r = true ∧ took) ∨ (r = false ∧ ¬ took ∧ saw (k ∉ ·))
  | contains k => saw fun A => r = true ↔ k ∈ A

end SetOp

variable {S Pc V : Type*} {M : Machine S (SetOp V) Pc}

namespace Run

def During (ρ : Run M) (i n : ℕ) (P : S → Prop) : Prop := ∃ m, i < m ∧ m ≤ n ∧ P (ρ.state m)

theorem During.mono {ρ : Run M} {i n n' : ℕ} {P : S → Prop} (h : ρ.During i n P)
    (hn : n ≤ n') : ρ.During i n' P := by
  obtain ⟨m, h1, h2, h3⟩ := h
  exact ⟨m, h1, h2.trans hn, h3⟩

theorem During.imp {ρ : Run M} {i n : ℕ} {P Q : S → Prop} (h : ρ.During i n P)
    (hi : ∀ s, P s → Q s) : ρ.During i n Q := by
  obtain ⟨m, h1, h2, h3⟩ := h
  exact ⟨m, h1, h2, hi _ h3⟩

theorem During.now {ρ : Run M} {i n : ℕ} {P : S → Prop} (hi : i < n) (h : P (ρ.state n)) :
    ρ.During i n P := ⟨n, hi, le_rfl, h⟩

/-- `lin i` is the moment at which the call started with event `i` changes the set, if it
does. Every change is such a moment of exactly one call; the other answers hold at some
moment of their call. -/
structure Linearization (ρ : Run M) (abs : S → Set ℤ) (lin : ℕ → Option ℕ) : Prop where
  start : abs (ρ.state 0) = ∅
  effect : ∀ {i m}, lin i = some m → i < m ∧ m < ρ.length ∧
    ∃ t op, ρ.Active t op i (m + 1) ∧ op.Effect (abs (ρ.state m)) (abs (ρ.state (m + 1)))
  distinct : ∀ {i j m}, lin i = some m → lin j = some m → i = j
  only : ∀ {m}, m < ρ.length → abs (ρ.state (m + 1)) ≠ abs (ρ.state m) → ∃ i, lin i = some m
  answer : ∀ {t op r i j}, ρ.Completed t op r i j →
    op.Answer (lin i ≠ none) (fun P => ρ.During i j fun s => P (abs s)) r

def Linearizable (ρ : Run M) (abs : S → Set ℤ) : Prop := ∃ lin, ρ.Linearization abs lin

section Construction

variable {ρ : Run M} {abs : S → Set ℤ} {done : S → Tid → Prop}

/-- The call started with event `i` takes effect in the step from moment `m`. -/
def Flip (ρ : Run M) (done : S → Tid → Prop) (i m : ℕ) : Prop :=
  i < m ∧ m < ρ.length ∧ ∃ t op, ρ.Active t op i (m + 1) ∧
    ¬ done (ρ.state m) t ∧ done (ρ.state (m + 1)) t

/-- In one step either nothing takes effect, or exactly one running call does. -/
def OneEffect (M : Machine S (SetOp V) Pc) (abs : S → Set ℤ) (done : S → Tid → Prop)
    (s s' : S) : Prop :=
  (abs s' = abs s ∧ ∀ t op pc pc', M.thread s t = some (op, pc) →
    M.thread s' t = some (op, pc') → (done s' t ↔ done s t)) ∨
  ∃ t op pc pc', M.thread s t = some (op, pc) ∧ M.thread s' t = some (op, pc') ∧
    ¬ done s t ∧ done s' t ∧ op.Effect (abs s) (abs s') ∧
    ∀ u op pc pc', u ≠ t → M.thread s u = some (op, pc) → M.thread s' u = some (op, pc') →
      (done s' u ↔ done s u)

theorem done_succ (hone : ∀ m, m < ρ.length → OneEffect M abs done (ρ.state m) (ρ.state (m + 1)))
    {t : Tid} {op : SetOp V} {i m : ℕ} (ha : ρ.Active t op i (m + 1)) (hi : i < m)
    (hm : m < ρ.length) (hd : done (ρ.state m) t) : done (ρ.state (m + 1)) t := by
  obtain ⟨pc, hpc⟩ := (ha.prev hi (by omega)).thread (by omega)
  obtain ⟨pc', hpc'⟩ := ha.thread (by omega)
  rcases hone m hm with ⟨_, h⟩ | ⟨u, _, _, _, _, _, hnd, _, _, h⟩
  · exact (h _ _ _ _ hpc hpc').2 hd
  · have hu : t ≠ u := by
      rintro rfl
      exact hnd hd
    exact (h _ _ _ _ hu hpc hpc').2 hd

theorem done_mono (hone : ∀ m, m < ρ.length → OneEffect M abs done (ρ.state m) (ρ.state (m + 1)))
    {t : Tid} {op : SetOp V} {i m : ℕ} (hi : i < m) (hd : done (ρ.state m) t) :
    ∀ n, m ≤ n → n ≤ ρ.length → ρ.Active t op i n → done (ρ.state n) t := by
  intro n hmn
  induction n, hmn using Nat.le_induction with
  | base => exact fun _ _ => hd
  | succ n hmn ih =>
    intro hn ha
    exact done_succ hone ha (by omega) (by omega) (ih (by omega) (ha.prev (by omega) (by omega)))

theorem flip_unique
    (hone : ∀ m, m < ρ.length → OneEffect M abs done (ρ.state m) (ρ.state (m + 1)))
    {i m m' : ℕ} (h : ρ.Flip done i m) (h' : ρ.Flip done i m') : m = m' := by
  have key : ∀ {a b : ℕ}, ρ.Flip done i a → ρ.Flip done i b → ¬ a < b := by
    rintro a b ⟨ha, hal, t, op, hact, _, hd⟩ ⟨hb, hbl, u, p, hactu, hnd, _⟩ hlt
    obtain ⟨rfl, rfl⟩ := hact.same_thread hactu
    exact hnd (done_mono hone (by omega) hd b hlt (by omega) (hactu.prev (by omega) (by omega)))
  have h1 := key h h'
  have h2 := key h' h
  omega

theorem flip_of_done
    (hcall : ∀ n t op, n < ρ.length → ρ.event n = .call t op → ¬ done (ρ.state (n + 1)) t)
    {t : Tid} {op : SetOp V} {i : ℕ} :
    ∀ n, n ≤ ρ.length → ρ.Active t op i n → done (ρ.state n) t → ∃ m, m < n ∧ ρ.Flip done i m := by
  intro n
  induction n with
  | zero => exact fun _ ha => absurd ha.lt (by omega)
  | succ n ih =>
    intro hn ha hd
    rcases Nat.lt_succ_iff_lt_or_eq.1 ha.lt with hi | rfl
    · by_cases hd0 : done (ρ.state n) t
      · obtain ⟨m, hm, hf⟩ := ih (by omega) (ha.prev hi (by omega)) hd0
        exact ⟨m, by omega, hf⟩
      · exact ⟨n, by omega, hi, by omega, t, op, ha, hd0, hd⟩
    · exact absurd hd (hcall i t op (by omega) ha.call)

theorem flip_effect
    (hone : ∀ m, m < ρ.length → OneEffect M abs done (ρ.state m) (ρ.state (m + 1)))
    {i m : ℕ} (h : ρ.Flip done i m) : ∃ t op, ρ.Active t op i (m + 1) ∧
      op.Effect (abs (ρ.state m)) (abs (ρ.state (m + 1))) := by
  obtain ⟨hi, hm, t, op, ha, hnd, hd⟩ := h
  obtain ⟨pc, hpc⟩ := (ha.prev hi (by omega)).thread (by omega)
  obtain ⟨pc', hpc'⟩ := ha.thread (by omega)
  rcases hone m hm with ⟨_, h⟩ | ⟨u, p, q, q', hu, hu', _, _, he, h⟩
  · exact absurd ((h _ _ _ _ hpc hpc').1 hd) hnd
  · by_cases htu : t = u
    · subst htu
      rw [hpc] at hu
      injection hu with hu
      injection hu with hu _
      subst hu
      exact ⟨t, op, ha, he⟩
    · exact absurd ((h _ _ _ _ htu hpc hpc').1 hd) hnd

theorem flip_of_change
    (hone : ∀ m, m < ρ.length → OneEffect M abs done (ρ.state m) (ρ.state (m + 1)))
    {m : ℕ} (hm : m < ρ.length) (hne : abs (ρ.state (m + 1)) ≠ abs (ρ.state m)) :
    ∃ i, ρ.Flip done i m := by
  rcases hone m hm with ⟨h, _⟩ | ⟨t, op, pc, pc', ht, ht', hnd, hd, _, _⟩
  · exact absurd h hne
  · obtain ⟨i, ha⟩ := ρ.active_of_thread (by omega) ht
    refine ⟨i, ha.lt, hm, t, op, ha.succ ?_, hnd, hd⟩
    intro hb
    have hstep := ρ.step hm
    have htid := Event.tid_of_boundary hb
    cases he : ρ.event m with
    | call u p =>
      rw [he] at hstep hb
      obtain rfl : u = t := hb
      rw [(M.step_call hstep).1] at ht
      cases ht
    | ret u r =>
      rw [he] at hstep hb
      obtain rfl : u = t := hb
      rw [(M.step_ret hstep).2] at ht'
      cases ht'
    | tau u =>
      rw [he] at hb
      exact hb

theorem flip_call (hone : ∀ m, m < ρ.length → OneEffect M abs done (ρ.state m) (ρ.state (m + 1)))
    {i i' m : ℕ} (h : ρ.Flip done i m) (h' : ρ.Flip done i' m) : i = i' := by
  obtain ⟨hi, hm, t, op, ha, hnd, hd⟩ := h
  obtain ⟨hi', _, u, op', ha', hnd', hd'⟩ := h'
  obtain ⟨pc, hpc⟩ := (ha.prev hi (by omega)).thread (by omega)
  obtain ⟨pc', hpc'⟩ := ha.thread (by omega)
  obtain ⟨qc, hqc⟩ := (ha'.prev hi' (by omega)).thread (by omega)
  obtain ⟨qc', hqc'⟩ := ha'.thread (by omega)
  rcases hone m hm with ⟨_, h⟩ | ⟨w, _, _, _, _, _, _, _, _, h⟩
  · exact absurd ((h _ _ _ _ hpc hpc').1 hd) hnd
  · by_cases htw : t = w
    · by_cases huw : u = w
      · subst htw
        subst huw
        exact (ha.unique ha').1
      · exact absurd ((h _ _ _ _ huw hqc hqc').1 hd') hnd'
    · exact absurd ((h _ _ _ _ htw hpc hpc').1 hd) hnd

-- a call that still runs and is not done has not taken effect
theorem Flip.done_later {i m : ℕ} {t : Tid} {op : SetOp V} {n : ℕ}
    (hone : ∀ m, m < ρ.length → OneEffect M abs done (ρ.state m) (ρ.state (m + 1)))
    (h : ρ.Flip done i m) (hm : m < n) (hn : n ≤ ρ.length) (ha : ρ.Active t op i n) :
    done (ρ.state n) t := by
  obtain ⟨hi, _, u, p, hu, _, hd⟩ := h
  obtain ⟨rfl, rfl⟩ := hu.same_thread ha
  exact done_mono hone (by omega) hd n hm hn ha

theorem linearization_of (done : S → Tid → Prop) (hstart : abs (ρ.state 0) = ∅)
    (hone : ∀ m, m < ρ.length → OneEffect M abs done (ρ.state m) (ρ.state (m + 1)))
    (hcall : ∀ n t op, n < ρ.length → ρ.event n = .call t op → ¬ done (ρ.state (n + 1)) t)
    (hret : ∀ {t op r i j}, ρ.Completed t op r i j →
      op.Answer (done (ρ.state j) t) (fun P => ρ.During i j fun s => P (abs s)) r) :
    ∃ lin, ρ.Linearization abs lin ∧ ∀ {i m}, lin i = some m → ρ.Flip done i m := by
  classical
  let lin : ℕ → Option ℕ := fun i => if h : ∃ m, ρ.Flip done i m then some h.choose else none
  have hlin : ∀ {i m}, lin i = some m ↔ ρ.Flip done i m := by
    intro i m
    by_cases h : ∃ m, ρ.Flip done i m
    · simp only [lin, dif_pos h, Option.some.injEq]
      constructor
      · rintro rfl
        exact h.choose_spec
      · exact fun hf => flip_unique hone h.choose_spec hf
    · simp only [lin, dif_neg h]
      exact ⟨fun h' => (by cases h'), fun hf => absurd ⟨m, hf⟩ h⟩
  refine ⟨lin, ⟨hstart, ?_, ?_, ?_, ?_⟩, hlin.1⟩
  · intro i m h
    have hf := hlin.1 h
    exact ⟨hf.1, hf.2.1, flip_effect hone hf⟩
  · intro i j m hi hj
    exact flip_call hone (hlin.1 hi) (hlin.1 hj)
  · intro m hm hne
    obtain ⟨i, hf⟩ := flip_of_change hone hm hne
    exact ⟨i, hlin.2 hf⟩
  · intro t op r i j hc
    have hiff : lin i ≠ none ↔ done (ρ.state j) t := by
      rw [Option.ne_none_iff_exists']
      constructor
      · rintro ⟨m, hm⟩
        obtain ⟨hi, hml, u, p, ha, _, hd⟩ := hlin.1 hm
        obtain ⟨rfl, rfl⟩ := ha.same_thread hc.active
        have hmj : m < j := by
          by_contra hge
          exact ha.quiet j hc.active.lt (by omega) (by rw [hc.ret]; exact rfl)
        exact done_mono hone (by omega) hd j hmj hc.lt.le hc.active
      · intro hd
        obtain ⟨m, _, hf⟩ := flip_of_done hcall j hc.lt.le hc.active hd
        exact ⟨m, hlin.2 hf⟩
    rw [propext hiff]
    exact hret hc

/-- A run is linearizable when a predicate `done` on the running calls records which of
them has changed the set. -/
theorem linearizable_of (done : S → Tid → Prop) (hstart : abs (ρ.state 0) = ∅)
    (hone : ∀ m, m < ρ.length → OneEffect M abs done (ρ.state m) (ρ.state (m + 1)))
    (hcall : ∀ n t op, n < ρ.length → ρ.event n = .call t op → ¬ done (ρ.state (n + 1)) t)
    (hret : ∀ {t op r i j}, ρ.Completed t op r i j →
      op.Answer (done (ρ.state j) t) (fun P => ρ.During i j fun s => P (abs s)) r) :
    ρ.Linearizable abs := by
  obtain ⟨lin, h, _⟩ := linearization_of done hstart hone hcall hret
  exact ⟨lin, h⟩

end Construction

end Run
