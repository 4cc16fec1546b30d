import DurableSets.Core.Buckets
import DurableSets.Core.Projection
import DurableSets.Core.Schedule

/-! The runs of an array, and the runs that they are of each element. -/

namespace Table

variable {ι S Pc V : Type*} [DecidableEq ι] {M : Machine S (SetOp V) Pc} {index : ℤ → ι}
  {ρ : Run (machine M index)} {T T' : Table ι S} {b : ι} {i j m n : ℕ} {t : Tid} {op : SetOp V}
  {r : Bool} {k : ℤ} {abs : S → Set ℤ}

def place (index : ℤ → ι) (T : Table ι S) : Event (SetOp V) → ι
  | .call _ op => index op.key
  | .ret t _ => T.current t
  | .tau t => T.current t

def visits (ρ : Run (machine M index)) (b : ι) (m : ℕ) : Prop :=
  place index (ρ.state m) (ρ.event m) = b

theorem step_place {e : Event (SetOp V)} (h : Step M index T e T') :
    M.step (T.bucket (place index T e)) e (T'.bucket (place index T e)) ∧
      ∀ b, b ≠ place index T e → T'.bucket b = T.bucket b := by
  cases h with
  | call t op s _ h =>
    refine ⟨?_, fun b hb => Function.update_of_ne hb _ _⟩
    simp only [place, Function.update_self]
    exact h
  | tau t s h =>
    refine ⟨?_, fun b hb => Function.update_of_ne hb _ _⟩
    simp only [place, Table.set, Function.update_self]
    exact h
  | ret t r s h =>
    refine ⟨?_, fun b hb => Function.update_of_ne hb _ _⟩
    simp only [place, Table.set, Function.update_self]
    exact h

theorem current_call (h : Step M index T (.call t op) T') : T'.current t = index op.key := by
  cases h with
  | call _ _ s _ _ => exact Function.update_self _ _ _

theorem current_keep {e : Event (SetOp V)} (h : Step M index T e T') (he : ∀ op, e ≠ .call t op) :
    T'.current t = T.current t := by
  cases h with
  | call u op s _ _ =>
    have hu : t ≠ u := by
      rintro rfl
      exact he op rfl
    exact Function.update_of_ne hu _ _
  | tau u s h => rfl
  | ret u r s h => rfl

theorem current_run (ρ : Run (machine M index)) (hn : n ≤ ρ.length) (ha : ρ.Active t op i n) :
    (ρ.state n).current t = index op.key := by
  obtain ⟨pc, hpc⟩ := ha.thread hn
  have hF := ρ.active_inv (F := fun _ n t op _ => (ρ.state n).current t = index op.key)
    (fun {n t op pc} hn he _ _ => current_call (M := M) (he ▸ ρ.step hn))
    (fun {i n t op pc pc'} hn _ he _ _ h => ?_)
    (fun {i n t op pc} hn _ hne _ _ h => ?_) n hn hpc
  · exact hF.choose_spec.2
  · refine (current_keep (ρ.step hn) fun p hp => ?_).trans h
    cases he.symm.trans hp
  · refine (current_keep (ρ.step hn) fun p hp => hne ?_).trans h
    rw [hp]
    rfl

theorem projects_bucket (ρ : Run (machine M index)) (b : ι) :
    ∃ ρ' : Run M, ρ.Projects (fun T => T.bucket b) (visits ρ b) ρ' := by
  refine Run.exists_projects ρ M _ _ (ρ.init b) ?_ ?_
  · rintro m hm rfl
    exact (step_place (ρ.step hm)).1
  · exact fun m hm hv => (step_place (ρ.step hm)).2 b (Ne.symm hv)

theorem exists_parts (ρ : Run (machine M index)) :
    ∃ part : ι → Run M, ρ.Parts index (fun b T => T.bucket b) (visits ρ) part := by
  choose part hpart using projects_bucket ρ
  refine ⟨part, hpart, fun h h' => h.symm.trans h', fun {m t op} _ he => ?_,
    fun {t op r i j} hc => ?_⟩
  · unfold visits
    rw [he]
    rfl
  · unfold visits
    rw [hc.ret]
    exact current_run ρ hc.lt.le hc.active

def keys (abs : S → Set ℤ) (T : Table ι S) : Set ℤ := {k | ∃ b, k ∈ abs (T.bucket b)}

theorem linearizable (hlin : ∀ ρ : Run M, ρ.Linearizable abs) (ρ : Run (machine M index)) :
    ρ.Linearizable (keys abs) := by
  obtain ⟨part, hpart⟩ := exists_parts ρ
  exact hpart.linearizable (fun b => hlin (part b)) fun m hm => rfl

theorem durablyLinearizable (Leaves : S → Set ℤ → Prop)
    (hdur : ∀ (ρ : Run M) R, Leaves (ρ.state ρ.length) R → ρ.DurablyLinearizable R)
    (ρ : Run (machine M index)) (R : ι → Set ℤ)
    (hR : ∀ b, Leaves ((ρ.state ρ.length).bucket b) (R b)) :
    ρ.DurablyLinearizable {k | ∃ b, k ∈ R b} := by
  obtain ⟨part, hpart⟩ := exists_parts ρ
  refine hpart.durablyLinearizable fun b => hdur (part b) (R b) ?_
  have hp := hpart.projects b
  rw [hp.length, hp.state le_rfl]
  exact hR b

section Schedule

variable {C : Type*} {ex : S → C → Option (Event (SetOp V) × S)} {tid : C → Tid}
  {called : C → Option ℤ} {I : S → Prop} {e : Event (SetOp V)} {c : C} {cs : List C}

-- commands of one element that start a call, with its key, or go on with one
structure Executes (M : Machine S (SetOp V) Pc) (ex : S → C → Option (Event (SetOp V) × S))
    (tid : C → Tid) (called : C → Option ℤ) (I : S → Prop) : Prop where
  sound : ∀ {s c e s'}, I s → ex s c = some (e, s') → M.step s e s' ∧ I s'
  call : ∀ {s c e s' k}, ex s c = some (e, s') → called c = some k →
    ∃ op, e = .call (tid c) op ∧ op.key = k
  other : ∀ {s c e s'}, ex s c = some (e, s') → called c = none →
    e = .tau (tid c) ∨ ∃ r, e = .ret (tid c) r

def exec (M : Machine S (SetOp V) Pc) (index : ℤ → ι)
    (ex : S → C → Option (Event (SetOp V) × S)) (tid : C → Tid) (called : C → Option ℤ)
    (T : Table ι S) (c : C) : Option (Event (SetOp V) × Table ι S) :=
  match called c with
  | some k =>
    if (M.thread (T.bucket (T.current (tid c))) (tid c)).isNone then
      (ex (T.bucket (index k)) c).map fun r => (r.1, ⟨Function.update T.bucket (index k) r.2,
        Function.update T.current (tid c) (index k)⟩)
    else none
  | none => (ex (T.bucket (T.current (tid c))) c).map fun r =>
      (r.1, T.set (T.current (tid c)) r.2)

theorem Executes.step (h : Executes M ex tid called I) (hI : ∀ b, I (T.bucket b))
    (hx : Table.exec M index ex tid called T c = some (e, T')) :
    Step M index T e T' ∧ ∀ b, I (T'.bucket b) := by
  have kept : ∀ {i s}, I s → ∀ b, I (Function.update T.bucket i s b) := by
    intro i s hs b
    by_cases hb : b = i
    · rw [hb, Function.update_self]
      exact hs
    · rw [Function.update_of_ne hb]
      exact hI b
  cases hc : called c with
  | some k =>
    simp only [Table.exec, hc] at hx
    split at hx
    · next idle =>
      obtain ⟨⟨e', s'⟩, hr, he⟩ := Option.map_eq_some_iff.1 hx
      obtain ⟨rfl, rfl⟩ := Prod.mk.inj he
      obtain ⟨op, rfl, rfl⟩ := h.call hr hc
      obtain ⟨hs, hs'⟩ := h.sound (hI _) hr
      exact ⟨Step.call _ op s' (Option.isNone_iff_eq_none.1 idle) hs, kept hs'⟩
    · cases hx
  | none =>
    simp only [Table.exec, hc] at hx
    obtain ⟨⟨e', s'⟩, hr, he⟩ := Option.map_eq_some_iff.1 hx
    obtain ⟨rfl, rfl⟩ := Prod.mk.inj he
    obtain ⟨hs, hs'⟩ := h.sound (hI _) hr
    rcases h.other hr hc with rfl | ⟨r, rfl⟩
    · exact ⟨Step.tau _ s' hs, kept hs'⟩
    · exact ⟨Step.ret _ r s' hs, kept hs'⟩

variable (index cs) in
theorem Executes.exists_play (h : Executes M ex tid called I)
    (h0 : ∀ b, M.init (T.bucket b)) (hI : ∀ b, I (T.bucket b))
    (hp : (play (Table.exec M index ex tid called) T cs).isSome = true) :
    ∃ ρ : Run (machine M index), Plays (Table.exec M index ex tid called) T cs ρ := by
  obtain ⟨T', hT⟩ := Option.isSome_iff_exists.1 hp
  exact exists_run (M := machine M index) (I := fun T => ∀ b, I (T.bucket b))
    (fun hI hx => h.step hI hx) h0 hI hT

end Schedule

end Table
