import DurableSets.Core.Sequential
import Mathlib.Algebra.Order.Group.Unbundled.Int
import Mathlib.Data.Int.Init

/-! An array of sets of one kind, and the set that it is as a whole: a call goes to the element
that its key is assigned to. -/

namespace SetOp

variable {V : Type*} {xs ys : List (SetOp V)} {a b : SetOp V} {A B B' : Set ℤ} {rs rs' : List Bool}

theorem accepts_apply (h : a.key ≠ b.key) : b.Accepts (a.apply A) ↔ b.Accepts A := by
  cases a <;> cases b <;> simp_all [Accepts, apply, key, Ne.symm]

theorem apply_comm (h : a.key ≠ b.key) : b.apply (a.apply A) = a.apply (b.apply A) := by
  ext k
  cases a <;> cases b <;> simp only [apply, Set.mem_insert_iff, Set.mem_sdiff,
    Set.mem_singleton_iff] <;> grind [key]

theorem Answers.unique {ops : List (SetOp V)} (h : Answers ops rs A B) (h' : Answers ops rs' A B') :
    rs = rs' ∧ B = B' := by
  induction ops generalizing A rs rs' with
  | nil =>
    cases rs <;> cases rs' <;> first | exact ⟨rfl, Eq.trans h h'.symm⟩ | exact h.elim | exact h'.elim
  | cons op ops ih =>
    cases rs with
    | nil => exact h.elim
    | cons r rs =>
      cases rs' with
      | nil => exact h'.elim
      | cons r' rs' =>
        obtain ⟨rfl, hB⟩ := ih h.2 h'.2
        have : r = r' := Bool.eq_iff_iff.2 (h.1.trans h'.1.symm)
        exact ⟨by rw [this], hB⟩

theorem Answers.swap (hk : a.key ≠ b.key) (h : Answers (xs ++ a :: b :: ys) rs A B)
    (h' : Answers (xs ++ b :: a :: ys) rs' A B') :
    B' = B ∧ ∃ us r1 r2 vs, us.length = xs.length ∧ rs = us ++ r1 :: r2 :: vs ∧
      rs' = us ++ r2 :: r1 :: vs := by
  induction xs generalizing A rs rs' with
  | nil =>
    obtain _ | ⟨r1, _ | ⟨r2, vs⟩⟩ := rs
    · exact h.elim
    · exact h.2.elim
    obtain _ | ⟨r1', _ | ⟨r2', vs'⟩⟩ := rs'
    · exact h'.elim
    · exact h'.2.elim
    obtain ⟨h1, h2, h3⟩ := h
    obtain ⟨h1', h2', h3'⟩ := h'
    rw [accepts_apply hk] at h2
    rw [accepts_apply hk.symm] at h2'
    rw [← apply_comm hk] at h3'
    obtain ⟨rfl, hB⟩ := h3.unique h3'
    have e1 : r1 = r2' := Bool.eq_iff_iff.2 (h1.trans h2'.symm)
    have e2 : r2 = r1' := Bool.eq_iff_iff.2 (h2.trans h1'.symm)
    subst e1 e2
    exact ⟨hB.symm, [], r1, r2, vs, rfl, rfl, rfl⟩
  | cons x xs ih =>
    cases rs with
    | nil => exact h.elim
    | cons r rs =>
      cases rs' with
      | nil => exact h'.elim
      | cons r' rs' =>
        have e : r = r' := Bool.eq_iff_iff.2 (h.1.trans h'.1.symm)
        subst e
        obtain ⟨hB, us, r1, r2, vs, hl, rfl, rfl⟩ := ih h.2 h'.2
        exact ⟨hB, r :: us, r1, r2, vs, congrArg (· + 1) hl, rfl, rfl⟩

end SetOp

-- the elements of the array, and the one that each thread has entered last
structure Table (ι S : Type*) where
  bucket : ι → S
  current : Tid → ι

namespace Table

section Part

variable {ι V : Type*} {index : ℤ → ι} {A : Set ℤ} {op : SetOp V} {i : ι}

def part (index : ℤ → ι) (i : ι) (A : Set ℤ) : Set ℤ := {k | k ∈ A ∧ index k = i}

theorem part_empty : part index i ∅ = ∅ := Set.eq_empty_of_forall_notMem fun _ hk => hk.1

theorem accepts_part : op.Accepts (part index (index op.key) A) ↔ op.Accepts A := by
  cases op <;> simp [SetOp.Accepts, SetOp.key, part]

theorem apply_part_self :
    op.apply (part index (index op.key) A) = part index (index op.key) (op.apply A) := by
  ext k
  cases op with
  | insert k' v =>
    simp only [SetOp.apply, SetOp.key, part, Set.mem_insert_iff, Set.mem_ofPred_eq]
    grind
  | remove k' =>
    simp only [SetOp.apply, SetOp.key, part, Set.mem_sdiff, Set.mem_singleton_iff, Set.mem_ofPred_eq]
    grind
  | contains k' => rfl

theorem apply_part_of_ne (h : i ≠ index op.key) : part index i (op.apply A) = part index i A := by
  ext k
  cases op with
  | insert k' v =>
    simp only [SetOp.apply, SetOp.key, part, Set.mem_insert_iff, Set.mem_ofPred_eq] at *
    grind
  | remove k' =>
    simp only [SetOp.apply, SetOp.key, part, Set.mem_sdiff, Set.mem_singleton_iff,
      Set.mem_ofPred_eq] at *
    grind
  | contains k' => rfl

end Part

variable {ι S Pc V : Type*} [DecidableEq ι]

def set (T : Table ι S) (i : ι) (s : S) : Table ι S :=
  { T with bucket := Function.update T.bucket i s }

def enter (index : ℤ → ι) (t : Tid) (enter : S → SetOp V → S) (T : Table ι S) (op : SetOp V) :
    Table ι S where
  bucket := Function.update T.bucket (index op.key) (enter (T.bucket (index op.key)) op)
  current := Function.update T.current t (index op.key)

inductive Step (M : Machine S (SetOp V) Pc) (index : ℤ → ι) (T : Table ι S) :
    Event (SetOp V) → Table ι S → Prop where
  | call (t : Tid) (op : SetOp V) (s : S) (idle : M.thread (T.bucket (T.current t)) t = none)
    (h : M.step (T.bucket (index op.key)) (.call t op) s) :
    Step M index T (.call t op) ⟨Function.update T.bucket (index op.key) s,
      Function.update T.current t (index op.key)⟩
  | tau (t : Tid) (s : S) (h : M.step (T.bucket (T.current t)) (.tau t) s) :
    Step M index T (.tau t) (T.set (T.current t) s)
  | ret (t : Tid) (r : Bool) (s : S) (h : M.step (T.bucket (T.current t)) (.ret t r) s) :
    Step M index T (.ret t r) (T.set (T.current t) s)

-- a thread is in the element that it has entered last, or in none
def machine (M : Machine S (SetOp V) Pc) (index : ℤ → ι) :
    Machine (Table ι S) (SetOp V) Pc where
  init T := ∀ i, M.init (T.bucket i)
  step := Step M index
  thread T t := M.thread (T.bucket (T.current t)) t
  init_idle h := M.init_idle (h _)
  step_other := by
    intro T e T' u h hu
    have other : ∀ {i : ι} {s : S}, M.step (T.bucket i) e s →
        M.thread (Function.update T.bucket i s (T.current u)) u =
          M.thread (T.bucket (T.current u)) u := by
      intro i s hs
      by_cases hi : T.current u = i
      · subst hi
        rw [Function.update_self]
        exact M.step_other hs hu
      · rw [Function.update_of_ne hi]
    cases h with
    | call t op s idle h =>
      have hu : u ≠ t := hu
      change M.thread (Function.update T.bucket _ s (Function.update T.current t _ u)) u = _
      rw [Function.update_of_ne hu]
      exact other h
    | tau t s h => exact other h
    | ret t r s h => exact other h
  step_call := by
    intro T t op T' h
    cases h with
    | call t op s idle h =>
      refine ⟨idle, ?_⟩
      obtain ⟨_, pc, hpc⟩ := M.step_call h
      refine ⟨pc, ?_⟩
      simp only [Function.update_self]
      exact hpc
  step_ret := by
    intro T t r T' h
    cases h with
    | ret t r s h =>
      refine ⟨(M.step_ret h).1, ?_⟩
      simp only [Table.set, Function.update_self]
      exact (M.step_ret h).2
  step_tau := by
    intro T t T' h
    cases h with
    | tau t s h =>
      obtain ⟨op, pc, pc', h1, h2⟩ := M.step_tau h
      refine ⟨op, pc, pc', h1, ?_⟩
      simp only [Table.set, Function.update_self]
      exact h2

section Serves

variable {M : Machine S (SetOp V) Pc} {enter : S → SetOp V → S} {t : Tid} {ok : SetOp V → Prop}
  {P : S → Prop} {idle : Set ℤ → S → Prop} {busy : Set ℤ → SetOp V → S → Prop} {T T' : Table ι S}
  {s : S} {index : ℤ → ι}

def Idle (index : ℤ → ι) (idle : Set ℤ → S → Prop) (A : Set ℤ) (T : Table ι S) : Prop :=
  ∀ i, idle (part index i A) (T.bucket i)

structure Busy (index : ℤ → ι) (t : Tid) (idle : Set ℤ → S → Prop)
    (busy : Set ℤ → SetOp V → S → Prop) (A : Set ℤ) (op : SetOp V) (T : Table ι S) : Prop where
  current : T.current t = index op.key
  here : busy (part index (index op.key) A) op (T.bucket (index op.key))
  other : ∀ i, i ≠ index op.key → idle (part index i A) (T.bucket i)

theorem solo_inv (h : (machine M index).Solo t T T') :
    ∃ s, M.Solo t (T.bucket (T.current t)) s ∧ T' = T.set (T.current t) s := by
  rcases h with h | ⟨r, h⟩
  · cases h with
    | tau t s h => exact ⟨s, Or.inl h, rfl⟩
  · cases h with
    | ret t r s h => exact ⟨s, Or.inr ⟨r, h⟩, rfl⟩

theorem solo_of (h : M.Solo t (T.bucket (T.current t)) s) :
    (machine M index).Solo t T (T.set (T.current t) s) := by
  rcases h with h | ⟨r, h⟩
  · exact Or.inl (Step.tau t s h)
  · exact Or.inr ⟨r, Step.ret t r s h⟩

theorem returns (h : M.Returns t s) (hs : T.bucket (T.current t) = s) :
    (machine M index).Returns t T := by
  induction h generalizing T with
  | here h => exact Inevitable.here (by rw [← hs] at h; exact h)
  | later can _ ih =>
    subst hs
    obtain ⟨s', hs'⟩ := can
    refine Inevitable.later ⟨_, solo_of hs'⟩ fun T' hT' => ?_
    obtain ⟨s1, h1, rfl⟩ := solo_inv hT'
    exact ih s1 h1 (Function.update_self _ _ _)

theorem serves (h : M.Serves enter t ok P idle busy)
    (hi : ∀ {A s}, idle A s → M.thread s t = none) :
    (machine M index).Serves (Table.enter index t enter) t ok (fun T => ∀ i, P (T.bucket i))
      (Idle index idle) (Busy index t idle busy) where
  call {A T op} hT hok := by
    obtain ⟨hs, hb⟩ := h.call (hT (index op.key)) hok
    refine ⟨Step.call t op _ (hi (hT _)) hs, Function.update_self _ _ _, ?_, fun i hne => ?_⟩
    · simp only [Table.enter, Function.update_self]
      exact hb
    · simp only [Table.enter, Function.update_of_ne hne]
      exact hT i
  tau {A op T T'} hb hs := by
    cases hs with
    | tau t s hs =>
      rw [hb.current] at hs ⊢
      refine ⟨hb.current, ?_, fun i hne => ?_⟩
      · simp only [Table.set, Function.update_self]
        exact h.tau hb.here hs
      · simp only [Table.set, Function.update_of_ne hne]
        exact hb.other i hne
  ret {A op T r T'} hb hs := by
    cases hs with
    | ret t r s hs =>
      rw [hb.current] at hs ⊢
      obtain ⟨hr, hs'⟩ := h.ret hb.here hs
      refine ⟨hr.trans accepts_part, fun i => ?_⟩
      by_cases hne : i = index op.key
      · subst hne
        simp only [Table.set, Function.update_self]
        exact apply_part_self ▸ hs'
      · simp only [Table.set, Function.update_of_ne hne]
        exact (apply_part_of_ne hne).symm ▸ hb.other i hne
  running {A op T} hb he := by
    have he : M.thread (T.bucket (T.current t)) t = none := he
    rw [hb.current] at he
    exact h.running hb.here he
  returns {A op T} hb := by
    refine returns (h.returns hb.here) ?_
    rw [hb.current]
  during {A op T} hb i := by
    by_cases hne : i = index op.key
    · subst hne
      exact h.during hb.here
    · exact h.between (hb.other i hne)
  between hT i := h.between (hT i)

-- the keys of each element, in increasing order, are the members of the set assigned to it
def Holds (index : ℤ → ι) (Keys : S → List ℤ → Prop) (A : Set ℤ) (T : Table ι S) : Prop :=
  ∀ i, ∃ ks, Keys (T.bucket i) ks ∧ ks.Pairwise (· < ·) ∧ ∀ k, k ∈ ks ↔ k ∈ A ∧ index k = i

-- the array is one set for the calls that thread t makes alone: it behaves as one, and two
-- neighbouring calls on different elements can change places
structure OneSet (M : Machine S (SetOp V) Pc) (index : ℤ → ι) (enter : S → SetOp V → S) (t : Tid)
    (ok : SetOp V → Prop) (P : S → Prop) (Keys : S → List ℤ → Prop) (T : Table ι S) : Prop where
  behaves : ∀ ops, (∀ op ∈ ops, ok op) → (machine M index).Behaves (Table.enter index t enter) t
    (fun T => ∀ i, P (T.bucket i)) (Holds index Keys) ops ∅ T
  swaps : ∀ xs a b ys rs rs' T1 T2, (∀ op ∈ xs ++ a :: b :: ys, ok op) →
    index a.key ≠ index b.key →
    (machine M index).Performs (Table.enter index t enter) t (xs ++ a :: b :: ys) T rs T1 →
    (machine M index).Performs (Table.enter index t enter) t (xs ++ b :: a :: ys) T rs' T2 →
    (∃ us r1 r2 vs, us.length = xs.length ∧ rs = us ++ r1 :: r2 :: vs ∧
      rs' = us ++ r2 :: r1 :: vs) ∧
    ∀ i, ∃ ks, Keys (T1.bucket i) ks ∧ Keys (T2.bucket i) ks

theorem holds_unique {ks ks' : List ℤ} {A : Set ℤ} (h : ks.Pairwise (· < ·))
    (h' : ks'.Pairwise (· < ·)) (hm : ∀ k, k ∈ ks ↔ k ∈ A) (hm' : ∀ k, k ∈ ks' ↔ k ∈ A) :
    ks = ks' := by
  refine List.Perm.eq_of_pairwise (fun a b _ _ h1 h2 => absurd h1 (lt_asymm h2)) h h' ?_
  refine (List.perm_ext_iff_of_nodup (h.imp fun h => h.ne) (h'.imp fun h => h.ne)).2 fun k => ?_
  rw [hm, hm']

theorem oneSet (h : M.Serves enter t ok P idle busy)
    (hi : ∀ {A s}, idle A s → M.thread s t = none) {Keys : S → List ℤ → Prop}
    (hkeys : ∀ {A s}, idle A s → ∃ ks, Keys s ks ∧ ks.Pairwise (· < ·) ∧ ∀ k, k ∈ ks ↔ k ∈ A)
    (h0 : ∀ i, idle ∅ (T.bucket i)) : OneSet M index enter t ok P Keys T where
  behaves ops hok := by
    refine (serves h hi).behaves (fun hA i => hkeys (hA i)) ops ∅ T hok fun i => ?_
    rw [part_empty]
    exact h0 i
  swaps xs a b ys rs rs' T1 T2 hok hne hp hp' := by
    have he : Idle index idle ∅ T := fun i => by
      rw [part_empty]
      exact h0 i
    have hok' : ∀ op ∈ xs ++ b :: a :: ys, ok op := fun op hop => hok op (by
      simp only [List.mem_append, List.mem_cons] at hop ⊢
      tauto)
    obtain ⟨B, hB, hI⟩ := (serves h hi).performs hok he hp
    obtain ⟨B', hB', hI'⟩ := (serves h hi).performs hok' he hp'
    obtain ⟨rfl, hrs⟩ := hB.swap (fun hk => hne (congrArg index hk)) hB'
    refine ⟨hrs, fun i => ?_⟩
    obtain ⟨ks, hks, hlt, hm⟩ := hkeys (hI i)
    obtain ⟨ks', hks', hlt', hm'⟩ := hkeys (hI' i)
    exact ⟨ks, hks, holds_unique hlt hlt' hm hm' ▸ hks'⟩

end Serves

end Table
