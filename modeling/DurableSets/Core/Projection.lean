import DurableSets.Core.Durable
import Mathlib.Data.Nat.Count

/-! Runs of one machine seen through a map of its states: some events are picked out, which the
other machine makes as well, and the rest leave the image of the state as it is. -/

namespace Run

variable {S S' Op Pc Pc' : Type*} {M : Machine S Op Pc} {N : Machine S' Op Pc'} {ρ : Run M}
  {ρ' : Run N} {f : S → S'} {vis : ℕ → Prop} {i j k m n : ℕ} {t : Tid} {op : Op} {r : Bool}

open Classical in
noncomputable def pos (vis : ℕ → Prop) (m : ℕ) : ℕ := Nat.count vis m

theorem pos_succ (h : vis m) : pos vis (m + 1) = pos vis m + 1 := by
  classical
  simp [pos, Nat.count_succ, h]

theorem pos_succ_of_not (h : ¬ vis m) : pos vis (m + 1) = pos vis m := by
  classical
  simp [pos, Nat.count_succ, h]

theorem pos_mono (vis : ℕ → Prop) (h : m ≤ n) : pos vis m ≤ pos vis n := by
  classical
  exact Nat.count_monotone vis h

theorem pos_lt (hv : vis m) (h : m < n) : pos vis m < pos vis n := by
  have := pos_mono vis (Nat.succ_le_of_lt h)
  rw [Nat.succ_eq_add_one, pos_succ hv] at this
  omega

theorem lt_of_pos (h : pos vis m < pos vis n) : m < n := by
  by_contra hle
  exact absurd (pos_mono vis (not_lt.1 hle)) (not_le.2 h)

theorem pos_injective (hm : vis m) (hn : vis n) (h : pos vis m = pos vis n) : m = n := by
  rcases Nat.lt_trichotomy m n with hlt | he | hlt
  · exact absurd h (pos_lt hm hlt).ne
  · exact he
  · exact absurd h.symm (pos_lt hn hlt).ne

theorem exists_pos : ∀ {n}, k < pos vis n → ∃ m, m < n ∧ vis m ∧ pos vis m = k := by
  intro n
  induction n with
  | zero =>
    intro h
    classical
    simp [pos] at h
  | succ n ih =>
    intro h
    by_cases hv : vis n
    · rw [pos_succ hv] at h
      rcases Nat.lt_succ_iff_lt_or_eq.1 h with h | rfl
      · obtain ⟨m, hm, hvm, he⟩ := ih h
        exact ⟨m, by omega, hvm, he⟩
      · exact ⟨n, by omega, hv, rfl⟩
    · rw [pos_succ_of_not hv] at h
      obtain ⟨m, hm, hvm, he⟩ := ih h
      exact ⟨m, by omega, hvm, he⟩

/-- `ρ'` is made of the events of `ρ` in `vis`. -/
structure Projects (ρ : Run M) (f : S → S') (vis : ℕ → Prop) (ρ' : Run N) : Prop where
  length : ρ'.length = pos vis ρ.length
  state : ∀ {m}, m ≤ ρ.length → ρ'.state (pos vis m) = f (ρ.state m)
  event : ∀ {m}, m < ρ.length → vis m → ρ'.event (pos vis m) = ρ.event m

theorem image_congr (hnot : ∀ m, m < ρ.length → ¬ vis m → f (ρ.state (m + 1)) = f (ρ.state m))
    (hn : n ≤ ρ.length) (he : pos vis m = pos vis n) (h : m ≤ n) :
    f (ρ.state n) = f (ρ.state m) := by
  induction n, h using Nat.le_induction with
  | base => rfl
  | succ n hmn ih =>
    have hv : ¬ vis n := by
      intro hv
      have : pos vis n < pos vis (n + 1) := pos_lt hv (Nat.lt_succ_self n)
      have := pos_mono vis hmn
      omega
    rw [pos_succ_of_not hv] at he
    exact (hnot n (by omega) hv).trans (ih (by omega) he)

theorem exists_projects (ρ : Run M) (N : Machine S' Op Pc') (f : S → S') (vis : ℕ → Prop)
    (h0 : N.init (f (ρ.state 0)))
    (hvis : ∀ m, m < ρ.length → vis m →
      N.step (f (ρ.state m)) (ρ.event m) (f (ρ.state (m + 1))))
    (hnot : ∀ m, m < ρ.length → ¬ vis m → f (ρ.state (m + 1)) = f (ρ.state m)) :
    ∃ ρ' : Run N, ρ.Projects f vis ρ' := by
  classical
  have hex : ∀ k, k ≤ pos vis ρ.length → ∃ m, m ≤ ρ.length ∧ pos vis m = k := by
    intro k hk
    rcases Nat.lt_or_eq_of_le hk with hk | rfl
    · obtain ⟨m, hm, _, he⟩ := exists_pos hk
      exact ⟨m, hm.le, he⟩
    · exact ⟨ρ.length, le_rfl, rfl⟩
  let st : ℕ → S' := fun k =>
    if h : ∃ m, m ≤ ρ.length ∧ pos vis m = k then f (ρ.state h.choose) else f (ρ.state 0)
  let ev : ℕ → Event Op := fun k =>
    if h : ∃ m, m < ρ.length ∧ vis m ∧ pos vis m = k then ρ.event h.choose else ρ.event 0
  have hst : ∀ {m}, m ≤ ρ.length → st (pos vis m) = f (ρ.state m) := by
    intro m hm
    have h : ∃ m', m' ≤ ρ.length ∧ pos vis m' = pos vis m := ⟨m, hm, rfl⟩
    simp only [st, dif_pos h]
    obtain ⟨hle, he⟩ := h.choose_spec
    rcases le_total h.choose m with hc | hc
    · exact (image_congr hnot hm he hc).symm
    · exact image_congr hnot hle he.symm hc
  have hev : ∀ {m}, m < ρ.length → vis m → ev (pos vis m) = ρ.event m := by
    intro m hm hv
    have h : ∃ m', m' < ρ.length ∧ vis m' ∧ pos vis m' = pos vis m := ⟨m, hm, hv, rfl⟩
    simp only [ev, dif_pos h]
    obtain ⟨_, hv', he⟩ := h.choose_spec
    rw [pos_injective hv' hv he]
  have hz : pos vis 0 = 0 := by simp [pos]
  refine ⟨⟨st, ev, pos vis ρ.length, ?_, ?_⟩, rfl, hst, hev⟩
  · have := hst (Nat.zero_le ρ.length)
    rw [hz] at this
    rw [this]
    exact h0
  · intro k hk
    obtain ⟨m, hm, hv, rfl⟩ := exists_pos hk
    rw [hst hm.le, hev hm hv, ← pos_succ hv, hst hm]
    exact hvis m hm hv

namespace Projects

theorem active (h : ρ.Projects f vis ρ') (hv : vis i) (ha : ρ.Active t op i n)
    (hn : n ≤ ρ.length) : ρ'.Active t op (pos vis i) (pos vis n) := by
  have hi := ha.lt
  refine ⟨pos_lt hv hi, (h.event (by omega) hv).trans ha.call, fun k h1 h2 hb => ?_⟩
  obtain ⟨m, hm, hvm, rfl⟩ := exists_pos h2
  rw [h.event (by omega) hvm] at hb
  exact ha.quiet m (lt_of_pos h1) hm hb

theorem completed (h : ρ.Projects f vis ρ') (hv : vis i) (hvj : vis j)
    (hc : ρ.Completed t op r i j) : ρ'.Completed t op r (pos vis i) (pos vis j) :=
  ⟨h.active hv hc.active hc.lt.le, by rw [h.length]; exact pos_lt hvj hc.lt,
    (h.event hc.lt hvj).trans hc.ret⟩

theorem active_of (h : ρ.Projects f vis ρ') (hi : ρ.event i = .call t op) (hin : i < n)
    (hn : n ≤ ρ.length) (hv : vis i) (ha : ρ'.Active t op (pos vis i) (pos vis n))
    (hret : ∀ {r j}, ρ.Completed t op r i j → vis j) : ρ.Active t op i n := by
  rcases (Active.start hi).or_completed n hin hn with h' | ⟨r, j, h1, h2, hc⟩
  · exact h'
  · have hvj := hret hc
    refine absurd ?_ (ha.quiet (pos vis j) (pos_lt hv h1) (pos_lt hvj h2))
    rw [h.event hc.lt hvj, hc.ret]
    exact rfl

end Projects

end Run

section Parts

variable {S S' Pc Pc' V ι : Type*} {M : Machine S (SetOp V) Pc} {N : Machine S' (SetOp V) Pc'}
  {index : ℤ → ι} {f : ι → S → S'} {abs : S → Set ℤ} {abs' : S' → Set ℤ} {ρ : Run M}
  {vis : ι → ℕ → Prop} {part : ι → Run N} {A : ι → ℕ → Set ℤ} {lin : ι → ℕ → Option ℕ}
  {i m m' : ℕ} {k : ℤ} {R : Set ℤ}

namespace Run

/-- Each event of `ρ` belongs to one part at most, and the calls on a key to the part of the
key. -/
structure Parts (ρ : Run M) (index : ℤ → ι) (f : ι → S → S') (vis : ι → ℕ → Prop)
    (part : ι → Run N) : Prop where
  projects : ∀ b, ρ.Projects (f b) (vis b) (part b)
  apart : ∀ {b c m}, vis b m → vis c m → b = c
  call : ∀ {m t op}, m < ρ.length → ρ.event m = .call t op → vis (index op.key) m
  ret : ∀ {t op r i j}, ρ.Completed t op r i j → vis (index op.key) j

def joined (index : ℤ → ι) (vis : ι → ℕ → Prop) (A : ι → ℕ → Set ℤ) (m : ℕ) : Set ℤ :=
  {k | k ∈ A (index k) (pos (vis (index k)) m)}

def PartLin (ρ : Run M) (index : ℤ → ι) (vis : ι → ℕ → Prop) (lin : ι → ℕ → Option ℕ)
    (i m : ℕ) : Prop :=
  i < ρ.length ∧ m < ρ.length ∧ ∃ t op, ρ.event i = .call t op ∧ vis (index op.key) m ∧
    lin (index op.key) (pos (vis (index op.key)) i) = some (pos (vis (index op.key)) m)

theorem PartLin.unique (hm : ρ.PartLin index vis lin i m) (hm' : ρ.PartLin index vis lin i m') :
    m = m' := by
  obtain ⟨_, _, t, op, he, hv, hl⟩ := hm
  obtain ⟨_, _, t', op', he', hv', hl'⟩ := hm'
  have hc := he.symm.trans he'
  injection hc with _ hop
  subst hop
  exact pos_injective hv hv' (Option.some.inj (hl.symm.trans hl'))

theorem Parts.effect (h : ρ.Parts index f vis part)
    (hlin : ∀ b, (part b).Explains (A b) (lin b)) (hm : ρ.PartLin index vis lin i m) :
    i < m ∧ m < ρ.length ∧ ∃ t op, ρ.Active t op i (m + 1) ∧
      op.Effect (joined index vis A m) (joined index vis A (m + 1)) := by
  obtain ⟨hi, hml, t, op, he, hv, hl⟩ := hm
  have hp := h.projects (index op.key)
  have hvi := h.call hi he
  obtain ⟨hlt, _, t', op', ha, heff⟩ := (hlin _).effect hl
  have him := lt_of_pos hlt
  have hc := ((hp.event hi hvi).trans he).symm.trans ha.call
  injection hc with h1 h2
  subst h1 h2
  rw [← pos_succ hv] at ha heff
  refine ⟨him, hml, t, op, hp.active_of he (by omega) hml hvi ha h.ret,
    heff.congr Iff.rfl Iff.rfl fun k hk => ?_⟩
  change k ∈ A (index k) _ ↔ k ∈ A (index k) _
  by_cases hx : index k = index op.key
  · rw [hx]
    exact heff.mem_iff hk
  · rw [pos_succ_of_not fun hvk => hx (h.apart hvk hv)]

theorem Parts.only (h : ρ.Parts index f vis part) (hlin : ∀ b, (part b).Explains (A b) (lin b))
    (hm : m < ρ.length) (hne : joined index vis A (m + 1) ≠ joined index vis A m) :
    ∃ i, ρ.PartLin index vis lin i m := by
  obtain ⟨k, hk⟩ : ∃ k, ¬ (k ∈ A (index k) (pos (vis (index k)) (m + 1)) ↔
      k ∈ A (index k) (pos (vis (index k)) m)) := by
    by_contra hno
    push Not at hno
    exact hne (Set.ext hno)
  have hp := h.projects (index k)
  have hv : vis (index k) m := by
    by_contra hv
    rw [pos_succ_of_not hv] at hk
    exact hk Iff.rfl
  rw [pos_succ hv] at hk
  obtain ⟨i', hi'⟩ := (hlin _).only (by rw [hp.length]; exact pos_lt hv hm) fun he =>
    hk (by rw [he])
  obtain ⟨hlt, _, t, op, ha, _⟩ := (hlin _).effect hi'
  obtain ⟨i, hi, hvi, rfl⟩ := exists_pos hlt
  have he : ρ.event i = .call t op := (hp.event (hi.trans hm) hvi).symm.trans ha.call
  have hb := h.apart hvi (h.call (hi.trans hm) he)
  exact ⟨i, hi.trans hm, hm, t, op, he, hb ▸ hv, hb ▸ hi'⟩

theorem Parts.took (h : ρ.Parts index f vis part)
    (hlin : ∀ b, (part b).Explains (A b) (lin b)) (hi : i < ρ.length) {t : Tid} {op : SetOp V}
    (he : ρ.event i = .call t op) : (∃ m, ρ.PartLin index vis lin i m) ↔
      lin (index op.key) (pos (vis (index op.key)) i) ≠ none := by
  rw [Option.ne_none_iff_exists']
  constructor
  · rintro ⟨m, _, _, t', op', he', _, hl⟩
    have hcall := he'.symm.trans he
    injection hcall with _ hop
    subst hop
    exact ⟨_, hl⟩
  · rintro ⟨k, hk⟩
    obtain ⟨_, hkl, _⟩ := (hlin _).effect hk
    rw [(h.projects _).length] at hkl
    obtain ⟨m, hm, hvm, rfl⟩ := exists_pos hkl
    exact ⟨m, hi, hm, t, op, he, hvm, hk⟩

theorem Parts.answer (h : ρ.Parts index f vis part)
    (hlin : ∀ b, (part b).Explains (A b) (lin b)) {t : Tid} {op : SetOp V} {r : Bool} {j : ℕ}
    (hc : ρ.Completed t op r i j) : op.Answer (∃ m, ρ.PartLin index vis lin i m)
      (fun P => ∃ m, i < m ∧ m ≤ j ∧ P (joined index vis A m)) r := by
  have hil : i < ρ.length := hc.active.lt.trans hc.lt
  have hvi := h.call hil hc.active.call
  refine ((hlin _).answer ((h.projects _).completed hvi (h.ret hc) hc)).mono
    (h.took hlin hil hc.active.call) ?_
  rintro Q ⟨k, h1, h2, hQ⟩
  rcases Nat.lt_or_eq_of_le h2 with h2 | rfl
  · obtain ⟨m, hm, _, rfl⟩ := exists_pos h2
    exact ⟨m, lt_of_pos h1, hm.le, hQ⟩
  · exact ⟨j, hc.active.lt, le_rfl, hQ⟩

theorem Parts.explains (h : ρ.Parts index f vis part)
    (hlin : ∀ b, (part b).Explains (A b) (lin b)) :
    ∃ L, ρ.Explains (joined index vis A) L ∧
      ∀ i, L i = none ↔ ¬ ∃ m, ρ.PartLin index vis lin i m := by
  classical
  let L : ℕ → Option ℕ := fun i =>
    if hx : ∃ m, ρ.PartLin index vis lin i m then some hx.choose else none
  have hnone : ∀ i, L i = none ↔ ¬ ∃ m, ρ.PartLin index vis lin i m := by
    intro i
    by_cases hx : ∃ m, ρ.PartLin index vis lin i m
    · simp [L, hx]
    · simp [L, hx]
  have hL : ∀ {i m}, L i = some m ↔ ρ.PartLin index vis lin i m := by
    intro i m
    by_cases hx : ∃ m, ρ.PartLin index vis lin i m
    · simp only [L, dif_pos hx, Option.some.injEq]
      constructor
      · rintro rfl
        exact hx.choose_spec
      · exact fun hf => hx.choose_spec.unique hf
    · rw [(hnone i).2 hx]
      exact ⟨fun h' => (by cases h'), fun hf => absurd ⟨m, hf⟩ hx⟩
  refine ⟨L, ⟨?_, ?_, ?_, ?_, ?_⟩, hnone⟩
  · ext k
    change k ∈ A (index k) _ ↔ _
    have hz : pos (vis (index k)) 0 = 0 := by simp [pos]
    rw [hz, (hlin _).start]
  · exact fun hm => h.effect hlin (hL.1 hm)
  · intro i j m hi hj
    obtain ⟨hil, _, t, op, he, hv, hl⟩ := hL.1 hi
    obtain ⟨hjl, _, t', op', he', hv', hl'⟩ := hL.1 hj
    have hb := h.apart hv hv'
    have hvi := h.call hil he
    have hvj := h.call hjl he'
    rw [← hb] at hl' hvj
    exact pos_injective hvi hvj ((hlin _).distinct hl hl')
  · intro m hm hne
    obtain ⟨i, hi⟩ := h.only hlin hm hne
    exact ⟨i, hL.2 hi⟩
  · intro t op r i j hc
    have htook : L i ≠ none ↔ ∃ m, ρ.PartLin index vis lin i m := by rw [Ne, hnone, not_not]
    rw [propext htook]
    exact h.answer hlin hc

theorem Parts.index_call (h : ρ.Parts index f vis part) {t : Tid} {op : SetOp V} {i' : ℕ} {b : ι}
    (hi : i' < (part b).length) (he : (part b).event i' = .call t op) : b = index op.key := by
  have hp := h.projects b
  rw [hp.length] at hi
  obtain ⟨i, hil, hvi, rfl⟩ := exists_pos hi
  exact h.apart hvi (h.call hil ((hp.event hil hvi).symm.trans he))

theorem Parts.index_of_mem (h : ρ.Parts index f vis part) {b : ι} {A : ℕ → Set ℤ}
    {lin : ℕ → Option ℕ} (hb : (part b).Explains A lin) :
    ∀ m ≤ (part b).length, k ∈ A m → index k = b := by
  intro m
  induction m with
  | zero =>
    intro _ hk
    rw [hb.start] at hk
    exact hk.elim
  | succ m ih =>
    intro hm hk
    by_cases hch : A (m + 1) = A m
    · exact ih (by omega) (hch ▸ hk)
    · obtain ⟨i, hi⟩ := hb.only hm hch
      obtain ⟨him, _, t, op, ha, heff⟩ := hb.effect hi
      by_cases hkey : k = op.key
      · rw [hkey]
        exact (h.index_call (by omega) ha.call).symm
      · exact ih (by omega) ((heff.mem_iff hkey).1 hk)

theorem Parts.linearizable (h : ρ.Parts index f vis part)
    (hpart : ∀ b, (part b).Linearizable abs')
    (habs : ∀ m ≤ ρ.length, abs (ρ.state m) = {k | ∃ b, k ∈ abs' (f b (ρ.state m))}) :
    ρ.Linearizable abs := by
  choose lin hlin using hpart
  obtain ⟨L, hL, _⟩ := h.explains fun b => (hlin b).explains
  refine ⟨L, (hL.congr fun m hm => ?_).linearization⟩
  rw [habs m hm]
  ext k
  change _ ↔ k ∈ abs' ((part (index k)).state (pos (vis (index k)) m))
  rw [(h.projects (index k)).state hm]
  refine ⟨?_, fun hk => ⟨_, hk⟩⟩
  rintro ⟨b, hk⟩
  have hp := h.projects b
  rw [← hp.state hm] at hk
  have hb := h.index_of_mem (hlin b).explains _ (by rw [hp.length]; exact pos_mono _ hm) hk
  rwa [hb, ← hp.state hm]

theorem Parts.active_end (h : ρ.Parts index f vis part) {t : Tid} {op : SetOp V} {i' : ℕ}
    {b : ι} (ha : (part b).Active t op i' (part b).length) :
    ∃ i, pos (vis b) i = i' ∧ b = index op.key ∧ ρ.Active t op i ρ.length := by
  have hp := h.projects b
  rw [hp.length] at ha
  obtain ⟨i, hi, hvi, rfl⟩ := exists_pos ha.lt
  have he : ρ.event i = .call t op := (hp.event hi hvi).symm.trans ha.call
  have hb := h.apart hvi (h.call hi he)
  exact ⟨i, rfl, hb, hp.active_of he hi le_rfl hvi ha fun hc => hb ▸ h.ret hc⟩

theorem Parts.durablyLinearizable (h : ρ.Parts index f vis part) {B : ι → Set ℤ}
    (hpart : ∀ b, (part b).DurablyLinearizable (B b)) :
    ρ.DurablyLinearizable {k | ∃ b, k ∈ B b} := by
  choose A lin hlin hmore hless using hpart
  obtain ⟨L, hL, hnone⟩ := h.explains hlin
  have hidle : ∀ {t op i}, ρ.Active t op i ρ.length →
      lin (index op.key) (pos (vis (index op.key)) i) = none → L i = none := by
    intro t op i ha hl
    rw [hnone, h.took hlin ha.lt ha.call, not_not]
    exact hl
  have hlen : ∀ k, k ∈ joined index vis A ρ.length ↔ k ∈ A (index k) (part (index k)).length := by
    intro k
    rw [(h.projects _).length]
    exact Iff.rfl
  refine ⟨_, L, hL, ?_, ?_⟩
  · rintro k ⟨⟨b, hk⟩, hno⟩
    have hnb : k ∉ A b (part b).length := by
      intro hm
      have hb := h.index_of_mem (hlin b) _ le_rfl hm
      subst hb
      exact hno ((hlen k).2 hm)
    obtain ⟨t, v, i', ha, hl⟩ := hmore b k ⟨hk, hnb⟩
    obtain ⟨i, rfl, rfl, ha'⟩ := h.active_end ha
    exact ⟨t, v, i, ha', hidle ha' hl⟩
  · rintro k ⟨hk, hno⟩
    obtain ⟨t, i', ha, hl⟩ := hless (index k) k ⟨(hlen k).1 hk, fun hm => hno ⟨_, hm⟩⟩
    obtain ⟨i, rfl, _, ha'⟩ := h.active_end ha
    exact ⟨t, i, ha', hidle ha' hl⟩

/-- The steps of `ρ` are steps of `N` on the image of the state, or steps inside a call that leave
the image as it is. -/
structure Simulates (ρ : Run M) (N : Machine S' (SetOp V) Pc') (f : S → S') : Prop where
  init : N.init (f (ρ.state 0))
  step : ∀ {m}, m < ρ.length → N.step (f (ρ.state m)) (ρ.event m) (f (ρ.state (m + 1))) ∨
    (f (ρ.state (m + 1)) = f (ρ.state m) ∧ ∃ t, ρ.event m = .tau t)

variable {f : S → S'}

theorem Simulates.exists_parts (h : ρ.Simulates N f) : ∃ vis, ∃ part : Unit → Run N,
    ρ.Parts (fun _ => ()) (fun _ => f) vis part := by
  let vis : ℕ → Prop := fun m => N.step (f (ρ.state m)) (ρ.event m) (f (ρ.state (m + 1)))
  obtain ⟨ρ', hp⟩ := exists_projects ρ N f vis h.init (fun _ _ hv => hv)
    fun m hm hv => ((h.step hm).resolve_left hv).1
  have hvis : ∀ {m}, m < ρ.length → (∀ t, ρ.event m ≠ .tau t) → vis m := by
    intro m hm hno
    refine (h.step hm).resolve_right fun ⟨_, ht⟩ => ?_
    obtain ⟨t, ht⟩ := ht
    exact hno t ht
  refine ⟨fun _ => vis, fun _ => ρ', fun _ => hp, fun _ _ => rfl, fun hm he => hvis hm fun u hu => ?_,
    fun hc => hvis hc.lt fun u hu => ?_⟩
  · cases he.symm.trans hu
  · cases hc.ret.symm.trans hu

theorem Simulates.linearizable (h : ρ.Simulates N f) (hN : ∀ ρ' : Run N, ρ'.Linearizable abs') :
    ρ.Linearizable fun s => abs' (f s) := by
  obtain ⟨vis, part, hp⟩ := h.exists_parts
  exact hp.linearizable (fun b => hN (part b)) fun m _ =>
    Set.ext fun k => (exists_const Unit).symm

theorem Simulates.durablyLinearizable (h : ρ.Simulates N f) (Leaves : S' → Set ℤ → Prop)
    (hN : ∀ (ρ' : Run N) R, Leaves (ρ'.state ρ'.length) R → ρ'.DurablyLinearizable R)
    (hR : Leaves (f (ρ.state ρ.length)) R) : ρ.DurablyLinearizable R := by
  obtain ⟨vis, part, hp⟩ := h.exists_parts
  have hpart : ∀ b, (part b).DurablyLinearizable R := by
    intro b
    refine hN _ _ ?_
    rw [(hp.projects b).length, (hp.projects b).state le_rfl]
    exact hR
  have hd := hp.durablyLinearizable hpart
  rwa [show {k | ∃ _ : Unit, k ∈ R} = R from Set.ext fun k => exists_const Unit] at hd

end Run

end Parts
