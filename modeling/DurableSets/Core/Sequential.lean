import DurableSets.Core.Linearizable
import DurableSets.Core.Progress

namespace SetOp

variable {V : Type*} {op : SetOp V} {A B : Set ℤ}

-- the call answers true on the set A, and leaves the set op.apply A behind
def Accepts : SetOp V → Set ℤ → Prop
  | insert k _, A => k ∉ A
  | remove k, A => k ∈ A
  | contains k, A => k ∈ A

def apply : SetOp V → Set ℤ → Set ℤ
  | insert k _, A => Insert.insert k A
  | remove k, A => A \ {k}
  | contains _, A => A

theorem Effect.accepts (h : op.Effect A B) : op.Accepts A := by
  cases op with
  | insert k v => exact h.1
  | remove k => exact h.1
  | contains k => exact h.elim

theorem Effect.eq_apply (h : op.Effect A B) : B = op.apply A := by
  cases op with
  | insert k v => exact h.2
  | remove k => exact h.2
  | contains k => exact h.elim

theorem apply_of_not_accepts (h : ¬ op.Accepts A) : op.apply A = A := by
  cases op with
  | insert k v => exact Set.insert_eq_of_mem (not_not.1 h)
  | remove k => exact Set.sdiff_singleton_eq_self h
  | contains k => rfl

-- the answers of the calls on the set A, which leave the set B behind
def Answers : List (SetOp V) → List Bool → Set ℤ → Set ℤ → Prop
  | [], [], A, B => B = A
  | op :: ops, r :: rs, A, B => (r = true ↔ op.Accepts A) ∧ Answers ops rs (op.apply A) B
  | _, _, _, _ => False

end SetOp

namespace Machine

variable {S Op Pc V : Type*}

def Tau (M : Machine S Op Pc) (t : Tid) (s s' : S) : Prop := M.step s (.tau t) s'

def Ends (M : Machine S Op Pc) (t : Tid) (P : Bool → S → Prop) (s : S) : Prop :=
  ∃ r s', M.step s (.ret t r) s' ∧ P r s'

-- thread t alone makes the calls one after the other: P holds all the time and Q between the
-- calls, each call returns whatever it does, and it returns what the set returns
def Behaves (M : Machine S (SetOp V) Pc) (enter : S → SetOp V → S) (t : Tid) (P : S → Prop)
    (Q : Set ℤ → S → Prop) : List (SetOp V) → Set ℤ → S → Prop
  | [], A, s => P s ∧ Q A s
  | op :: ops, A, s => P s ∧ Q A s ∧
      (∀ s', Relation.ReflTransGen (M.Tau t) (enter s op) s' → P s') ∧
      Inevitable (M.Tau t) (M.Ends t fun r s' =>
        (r = true ↔ op.Accepts A) ∧ M.Behaves enter t P Q ops (op.apply A) s') (enter s op)

-- thread t alone has made the calls, with these answers
def Performs (M : Machine S (SetOp V) Pc) (enter : S → SetOp V → S) (t : Tid) :
    List (SetOp V) → S → List Bool → S → Prop
  | [], s, [], s' => s' = s
  | op :: ops, s, r :: rs, s' => ∃ s1 s2, Relation.ReflTransGen (M.Tau t) (enter s op) s1 ∧
      M.step s1 (.ret t r) s2 ∧ M.Performs enter t ops s2 rs s'
  | _, _, _, _ => False

theorem tau_of_change {M : Machine S Op Pc} {s s' : S} {e : Event Op} {t : Tid} {op : Op}
    {pc pc' : Pc} (hs : M.step s e s') (h : M.thread s t = some (op, pc))
    (h' : M.thread s' t = some (op, pc')) (hne : pc' ≠ pc) : e = .tau t := by
  have htid : t = e.tid := by
    by_contra hn
    have he := (M.step_other hs hn).symm.trans h'
    exact hne (Prod.mk.inj (Option.some.inj (h.symm.trans he))).2.symm
  cases e with
  | call u op1 =>
    obtain rfl : t = u := htid
    exact absurd (h.symm.trans (M.step_call hs).1) nofun
  | ret u r =>
    obtain rfl : t = u := htid
    exact absurd (h'.symm.trans (M.step_ret hs).2) nofun
  | tau u =>
    obtain rfl : t = u := htid
    rfl

theorem Returns.ends {M : Machine S Op Pc} {t : Tid} {I : S → Prop} {P : Bool → S → Prop} {s : S}
    (h : M.Returns t s) (hI : I s) (busy : ∀ s, I s → M.thread s t ≠ none)
    (keep : ∀ s s', I s → M.Tau t s s' → I s')
    (done : ∀ s r s', I s → M.step s (.ret t r) s' → P r s') :
    Inevitable (M.Tau t) (M.Ends t P) s := by
  induction h with
  | here h => exact absurd h (busy _ hI)
  | @later s can all ih =>
    by_cases hr : ∃ r s', M.step s (.ret t r) s'
    · obtain ⟨r, s', hs⟩ := hr
      exact Inevitable.here ⟨r, s', hs, done s r s' hI hs⟩
    · refine Inevitable.later ?_ fun s' hs => ih s' (Or.inl hs) (keep s s' hI hs)
      obtain ⟨s', hs | hs⟩ := can
      · exact ⟨s', hs⟩
      · exact absurd ⟨_, s', hs.choose_spec⟩ hr

theorem reach_inv {M : Machine S Op Pc} {t : Tid} {I : S → Prop} {s s' : S}
    (h : Relation.ReflTransGen (M.Tau t) s s') (hI : I s)
    (keep : ∀ s s', I s → M.Tau t s s' → I s') : I s' := by
  induction h with
  | refl => exact hI
  | tail _ hs ih => exact keep _ _ ih hs

-- what holds between the calls that thread t makes alone, and what holds during one of them
structure Serves (M : Machine S (SetOp V) Pc) (enter : S → SetOp V → S) (t : Tid)
    (ok : SetOp V → Prop) (P : S → Prop) (idle : Set ℤ → S → Prop)
    (busy : Set ℤ → SetOp V → S → Prop) : Prop where
  call : ∀ {A s op}, idle A s → ok op →
    M.step s (.call t op) (enter s op) ∧ busy A op (enter s op)
  tau : ∀ {A op s s'}, busy A op s → M.Tau t s s' → busy A op s'
  ret : ∀ {A op s r s'}, busy A op s → M.step s (.ret t r) s' →
    (r = true ↔ op.Accepts A) ∧ idle (op.apply A) s'
  running : ∀ {A op s}, busy A op s → M.thread s t ≠ none
  returns : ∀ {A op s}, busy A op s → M.Returns t s
  during : ∀ {A op s}, busy A op s → P s
  between : ∀ {A s}, idle A s → P s

section Serves

variable {M : Machine S (SetOp V) Pc} {enter : S → SetOp V → S} {t : Tid} {ok : SetOp V → Prop}
  {P : S → Prop} {idle : Set ℤ → S → Prop} {busy : Set ℤ → SetOp V → S → Prop}

theorem Serves.ends (h : Serves M enter t ok P idle busy) {A : Set ℤ} {op : SetOp V} {s : S}
    (hb : busy A op s) : Inevitable (M.Tau t) (M.Ends t fun r s' =>
      (r = true ↔ op.Accepts A) ∧ idle (op.apply A) s') s :=
  (h.returns hb).ends (I := busy A op) hb (fun _ h' => h.running h') (fun _ _ h' hs => h.tau h' hs)
    fun _ _ _ h' hs => h.ret h' hs

theorem Serves.reach (h : Serves M enter t ok P idle busy) {A : Set ℤ} {op : SetOp V} {s s' : S}
    (hb : busy A op s) (hr : Relation.ReflTransGen (M.Tau t) s s') : busy A op s' :=
  reach_inv hr hb fun _ _ h' hs => h.tau h' hs

theorem Serves.behaves (h : Serves M enter t ok P idle busy) {Q : Set ℤ → S → Prop}
    (hQ : ∀ {A s}, idle A s → Q A s) : ∀ (ops : List (SetOp V)) (A : Set ℤ) (s : S),
      (∀ op ∈ ops, ok op) → idle A s → M.Behaves enter t P Q ops A s := by
  intro ops
  induction ops with
  | nil => exact fun A s _ hI => ⟨h.between hI, hQ hI⟩
  | cons op ops ih =>
    intro A s hok hI
    have hb := (h.call hI (hok op List.mem_cons_self)).2
    refine ⟨h.between hI, hQ hI, fun s' hr => h.during (h.reach hb hr), (h.ends hb).mono ?_⟩
    rintro s1 ⟨r, s', hs, hr, hI'⟩
    exact ⟨r, s', hs, hr, ih _ s' (fun o ho => hok o (List.mem_cons_of_mem op ho)) hI'⟩

theorem Serves.performs (h : Serves M enter t ok P idle busy) : ∀ {ops : List (SetOp V)}
    {rs : List Bool} {A : Set ℤ} {s s' : S}, (∀ op ∈ ops, ok op) → idle A s →
      M.Performs enter t ops s rs s' → ∃ B, SetOp.Answers ops rs A B ∧ idle B s' := by
  intro ops
  induction ops with
  | nil =>
    intro rs A s s' _ hI hp
    cases rs with
    | nil =>
      obtain rfl : s' = s := hp
      exact ⟨A, rfl, hI⟩
    | cons r rs => exact hp.elim
  | cons op ops ih =>
    intro rs A s s' hok hI hp
    cases rs with
    | nil => exact hp.elim
    | cons r rs =>
      obtain ⟨s1, s2, hr, hs, hp⟩ := hp
      have hb := h.reach (h.call hI (hok op List.mem_cons_self)).2 hr
      obtain ⟨hacc, hI'⟩ := h.ret hb hs
      obtain ⟨B, hB, hI'⟩ := ih (fun o ho => hok o (List.mem_cons_of_mem op ho)) hI' hp
      exact ⟨B, ⟨hacc, hB⟩, hI'⟩

theorem Serves.guard {P' : S → Prop} (h : Serves M enter t ok P idle busy)
    (during : ∀ {A op s}, busy A op s → P' s) (between : ∀ {A s}, idle A s → P' s) :
    Serves M enter t ok P' idle busy :=
  { h with during, between }

-- the call comes to a state in which P fails, or it gets stuck or returns the wrong answer
def GoesWrong (M : Machine S (SetOp V) Pc) (enter : S → SetOp V → S) (t : Tid) (P : S → Prop)
    (op : SetOp V) (A : Set ℤ) (s : S) : Prop :=
  ∃ s', Relation.ReflTransGen (M.Tau t) (enter s op) s' ∧ (¬ P s' ∨
    ((∀ u, ¬ M.Tau t s' u) ∧ ∀ r u, M.step s' (.ret t r) u → ¬ (r = true ↔ op.Accepts A)))

theorem not_behaves_of_goesWrong {Q : Set ℤ → S → Prop} {op : SetOp V} {ops : List (SetOp V)}
    {A : Set ℤ} {s : S} (last : ∀ {s r s' u}, M.step s (.ret t r) s' → ¬ M.Tau t s u)
    (h : M.GoesWrong enter t P op A s) : ¬ M.Behaves enter t P Q (op :: ops) A s := by
  rintro ⟨_, _, hP, hev⟩
  obtain ⟨s', hr, hw | ⟨stop, hw⟩⟩ := h
  · exact hw (hP s' hr)
  · obtain ⟨r, u, hs, hacc, _⟩ := hev.last hr (fun _ _ ⟨_, _, hs, _⟩ => last hs) stop
    exact hw r u hs hacc

theorem Serves.behaves_iff (h : Serves M enter t ok P idle busy) {Q : Set ℤ → S → Prop}
    (hQ : ∀ {A s}, idle A s → Q A s)
    (last : ∀ {s r s' u}, M.step s (.ret t r) s' → ¬ M.Tau t s u)
    (wrong : ∀ {A s op}, idle A s → ¬ ok op → M.GoesWrong enter t P op A s) :
    ∀ (ops : List (SetOp V)) (A : Set ℤ) (s : S), idle A s →
      (M.Behaves enter t P Q ops A s ↔ ∀ op ∈ ops, ok op) := by
  refine fun ops A s hI => ⟨fun hb => ?_, fun hok => h.behaves hQ ops A s hok hI⟩
  induction ops generalizing A s with
  | nil => exact fun op hm => nomatch hm
  | cons op ops ih =>
    have hop : ok op := by
      by_contra hno
      exact not_behaves_of_goesWrong last (wrong hI hno) hb
    obtain ⟨s1, hr, r, s2, hs, _, hb⟩ := hb.2.2.2.reach
    have hI' := (h.ret (h.reach (h.call hI hop).2 hr) hs).2
    intro o ho
    rcases List.mem_cons.1 ho with rfl | ho
    · exact hop
    · exact ih _ s2 hI' hb o ho

end Serves

end Machine

namespace Run

variable {S Op Pc V : Type*} {M : Machine S Op Pc} {t : Tid}

def nil (M : Machine S Op Pc) {s : S} (h : M.init s) : Run M where
  state _ := s
  event _ := .tau 0
  length := 0
  init := h
  step hm := absurd hm (Nat.not_lt_zero _)

def snoc (ρ : Run M) (e : Event Op) (s : S) (h : M.step (ρ.state ρ.length) e s) : Run M where
  state m := if m ≤ ρ.length then ρ.state m else s
  event m := if m < ρ.length then ρ.event m else e
  length := ρ.length + 1
  init := by
    rw [if_pos (Nat.zero_le _)]
    exact ρ.init
  step {m} hm := by
    rcases Nat.lt_succ_iff_lt_or_eq.1 hm with hlt | rfl
    · rw [if_pos hlt.le, if_pos hlt, if_pos (Nat.succ_le_of_lt hlt)]
      exact ρ.step hlt
    · rw [if_pos le_rfl, if_neg (lt_irrefl _), if_neg (by omega)]
      exact h

def calls (ρ : Run M) (n : ℕ) : List Op :=
  (List.range n).filterMap fun m => match ρ.event m with
    | .call _ op => some op
    | _ => none

-- ρ' goes on where ρ ends, with steps of thread t that make the calls ops
structure Extends (t : Tid) (ops : List Op) (ρ ρ' : Run M) : Prop where
  le : ρ.length ≤ ρ'.length
  state : ∀ m ≤ ρ.length, ρ'.state m = ρ.state m
  event : ∀ m < ρ.length, ρ'.event m = ρ.event m
  tid : ∀ m, ρ.length ≤ m → m < ρ'.length → (ρ'.event m).tid = t
  calls : ρ'.calls ρ'.length = ρ.calls ρ.length ++ ops

theorem calls_congr {ρ ρ' : Run M} {n : ℕ} (h : ∀ m < n, ρ'.event m = ρ.event m) :
    ρ'.calls n = ρ.calls n := by
  unfold calls
  refine List.filterMap_congr fun m hm => ?_
  rw [h m (List.mem_range.1 hm)]

theorem calls_succ (ρ : Run M) (n : ℕ) : ρ.calls (n + 1) = ρ.calls n ++
    ((match ρ.event n with
      | .call _ op => some op
      | _ => none : Option Op).toList) := by
  unfold calls
  rw [List.range_succ, List.filterMap_append]
  congr 1

theorem Extends.refl (t : Tid) (ρ : Run M) : Extends t [] ρ ρ :=
  ⟨le_rfl, fun _ _ => rfl, fun _ _ => rfl, fun m h1 h2 => by omega, (List.append_nil _).symm⟩

theorem Extends.trans {ρ ρ' ρ'' : Run M} {ops ops' : List Op} (h : Extends t ops ρ ρ')
    (h' : Extends t ops' ρ' ρ'') : Extends t (ops ++ ops') ρ ρ'' := by
  refine ⟨h.le.trans h'.le, fun m hm => (h'.state m (hm.trans h.le)).trans (h.state m hm),
    fun m hm => (h'.event m (hm.trans_le h.le)).trans (h.event m hm), fun m h1 h2 => ?_, ?_⟩
  · by_cases hm : m < ρ'.length
    · rw [h'.event m hm]
      exact h.tid m h1 hm
    · exact h'.tid m (not_lt.1 hm) h2
  · rw [h'.calls, h.calls, List.append_assoc]

theorem extends_snoc (ρ : Run M) {e : Event Op} {s : S} (h : M.step (ρ.state ρ.length) e s)
    (he : e.tid = t) :
    Extends t (match e with
      | .call _ op => [op]
      | _ => []) ρ (ρ.snoc e s h) ∧ (ρ.snoc e s h).state (ρ.snoc e s h).length = s := by
  have hev : ∀ m < ρ.length, (ρ.snoc e s h).event m = ρ.event m := fun m hm => if_pos hm
  have hlast : (ρ.snoc e s h).event ρ.length = e := if_neg (lt_irrefl _)
  refine ⟨⟨ρ.length.le_succ, fun m hm => if_pos hm, hev, fun m h1 h2 => ?_, ?_⟩, ?_⟩
  · obtain rfl : m = ρ.length := by
      have : m < ρ.length + 1 := h2
      omega
    rw [hlast]
    exact he
  · change (ρ.snoc e s h).calls (ρ.length + 1) = _
    rw [calls_succ, hlast, calls_congr hev]
    cases e <;> rfl
  · exact if_neg (by change ¬ ρ.length + 1 ≤ ρ.length; omega)

theorem extends_tau (ρ : Run M) {s : S}
    (h : Relation.ReflTransGen (M.Tau t) (ρ.state ρ.length) s) :
    ∃ ρ' : Run M, Extends t [] ρ ρ' ∧ ρ'.state ρ'.length = s := by
  induction h with
  | refl => exact ⟨ρ, Extends.refl t ρ, rfl⟩
  | tail _ hs ih =>
    obtain ⟨ρ1, hx, h1⟩ := ih
    have hs : M.step (ρ1.state ρ1.length) (.tau t) _ := h1 ▸ hs
    obtain ⟨hx', h2⟩ := extends_snoc (t := t) ρ1 hs rfl
    exact ⟨_, hx.trans hx', h2⟩

-- the calls can be made, and the last state is one that they are known to lead to
theorem exists_extends {M : Machine S (SetOp V) Pc} {enter : S → SetOp V → S}
    {ok : SetOp V → Prop} {P : S → Prop} {idle : Set ℤ → S → Prop}
    {busy : Set ℤ → SetOp V → S → Prop} (h : M.Serves enter t ok P idle busy) :
    ∀ (ops : List (SetOp V)) (A : Set ℤ) (ρ : Run M), (∀ op ∈ ops, ok op) →
      idle A (ρ.state ρ.length) → ∃ ρ' : Run M, Extends t ops ρ ρ' ∧
        idle (ops.foldl (fun A op => op.apply A) A) (ρ'.state ρ'.length) := by
  intro ops
  induction ops with
  | nil => exact fun A ρ _ hI => ⟨ρ, Extends.refl t ρ, hI⟩
  | cons op ops ih =>
    intro A ρ hok hI
    obtain ⟨hs, hb⟩ := h.call hI (hok op List.mem_cons_self)
    obtain ⟨hx1, h1⟩ := extends_snoc (t := t) ρ hs rfl
    obtain ⟨s2, hr, r, s3, hs3, _, hI3⟩ := (h.ends hb).reach
    obtain ⟨ρ2, hx2, h2⟩ := extends_tau _ (h1 ▸ hr)
    have hs3 : M.step (ρ2.state ρ2.length) (.ret t r) s3 := h2 ▸ hs3
    obtain ⟨hx3, h3⟩ := extends_snoc (t := t) ρ2 hs3 rfl
    obtain ⟨ρ4, hx4, h4⟩ := ih (op.apply A) _ (fun o ho => hok o (List.mem_cons_of_mem op ho))
      (h3 ▸ hI3)
    exact ⟨ρ4, ((hx1.trans hx2).trans hx3).trans hx4, h4⟩

end Run
