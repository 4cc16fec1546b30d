import DurableSets.Core.Schedule
import DurableSets.SOFT.ListMemory

namespace SOFT.List

variable {V : Type} {σ σ' : Store V} {s s' : State V} {e : Event (SetOp V)} {t : Tid} {x : Loc}
  {p : PLoc} {slot : ℕ} {op : SetOp V} {pc pc' : Pc} {zero : V}

theorem Flow.ownsP_new (h : Flow σ op pc pc') (hp : pc'.ownsP = some p) : pc.ownsP = some p ∨
    ∃ d st c, pc = .allocPNode d st c ∧ pc' = .pnodeAlloc d st c p := by
  cases h with
  | findStop _ _ h =>
    exfalso
    cases op with
    | insert k v =>
      simp only [afterFind] at h
      split at h
      · split at h <;> obtain rfl := Option.some.inj h <;> cases hp
      · obtain rfl := Option.some.inj h
        cases hp
    | remove k =>
      simp only [afterFind] at h
      split at h
      · obtain rfl := Option.some.inj h
        cases hp
      · split at h <;> obtain rfl := Option.some.inj h <;> cases hp
    | contains k => cases h
  | trimLost => exact absurd ((afterTrim_quiet _ _ _).2.2.1.symm.trans hp) (by rintro ⟨⟩)
  | trimFree => exact absurd ((afterTrim_quiet _ _ _).2.2.1.symm.trans hp) (by rintro ⟨⟩)
  | allocPNode =>
    obtain rfl := Option.some.inj hp
    exact Or.inr ⟨_, _, _, rfl, rfl⟩
  | _ => first | exact Or.inl hp | cases hp

-- a step fills in a slot for the new PNode and the key of its call, and stores to the PNode of
-- a node
inductive Stores (σ : Store V) (op : SetOp V) (pc : Pc) : Store V → Prop where
  | same : Stores σ op pc σ
  | take (n : Loc) : Stores σ op pc (σ.take n)
  | give (n : Loc) : Stores σ op pc (σ.give n)
  | takeP (p : PLoc) : Stores σ op pc (σ.takeP p)
  | giveP (p : PLoc) : Stores σ op pc (σ.giveP p)
  | link (n : Loc) (q : Ptr) : Stores σ op pc (σ.setNext n q)
  | fill {n : Loc} {m : Node V} {p : PLoc} (ho : pc.ownsP = some p) (hm : m.pptr = some p)
      (hk : m.key = op.key) : Stores σ op pc (σ.write n m)
  | pnode {n : Loc} {p : PLoc} (l : Line (PNode V)) (hp : (σ.node n).pptr = some p) :
      Stores σ op pc (σ.setLine p l)

theorem stores_next (hn : next σ op slot pc = some (σ', pc')) : Stores σ op pc σ' := by
  cases pc with
  | createStart r n | createKey r n | createValue r n | createEnd r n | destroyStore r d st n =>
    simp only [next] at hn
    obtain ⟨p, hp, rfl, _⟩ := storeP_inv hn
    exact .pnode _ hp
  | createFlush r n | destroyFlush r d st n =>
    simp only [next] at hn
    obtain ⟨p, hp, rfl, _⟩ := barrier_inv hn
    exact .pnode _ hp
  | insertCas r n p | markCas d st n p | deleteCas r d st n p =>
    rcases stateCas_cases (Option.some.inj hn) with ⟨_, rfl, _⟩ | ⟨rfl, _⟩
    · exact .link n _
    · exact .same
  | trimCas c prev st curr succ =>
    simp only [next] at hn
    split at hn <;> obtain ⟨rfl, _⟩ := Prod.mk.inj (Option.some.inj hn)
    · exact .link prev succ
    · exact .same
  | trimFree c prev st curr =>
    obtain ⟨p, _, he⟩ := Option.map_eq_some_iff.1 hn
    obtain ⟨rfl, _⟩ := Prod.mk.inj he
    exact .giveP p
  | allocPNode pred st curr =>
    obtain ⟨rfl, _⟩ := Prod.mk.inj (Option.some.inj hn)
    exact .takeP slot
  | allocNode pred st curr p v =>
    obtain ⟨rfl, _⟩ := Prod.mk.inj (Option.some.inj hn)
    exact .take slot
  | initNode pred st curr n p v =>
    cases op with
    | insert k w =>
      obtain ⟨rfl, _⟩ := Prod.mk.inj (Option.some.inj hn)
      exact .fill rfl rfl rfl
    | _ => cases hn
  | initNext pred st curr n p =>
    obtain ⟨rfl, _⟩ := Prod.mk.inj (Option.some.inj hn)
    exact .link n _
  | linkCas pred st curr n p =>
    simp only [next] at hn
    split at hn <;> obtain ⟨rfl, _⟩ := Prod.mk.inj (Option.some.inj hn)
    · exact .link pred _
    · exact .same
  | lostNode n p =>
    obtain ⟨rfl, _⟩ := Prod.mk.inj (Option.some.inj hn)
    exact .give n
  | lostPNode p =>
    obtain ⟨rfl, _⟩ := Prod.mk.inj (Option.some.inj hn)
    exact .giveP p
  | _ =>
    have read : σ' = σ := by
      simp only [next] at hn
      grind [Option.map_eq_some_iff]
    exact read ▸ .same

theorem Stores.pptr (h : Stores σ op pc σ') (x : Loc) :
    (σ'.node x).pptr = (σ.node x).pptr ∨ ∃ p, pc.ownsP = some p ∧ (σ'.node x).pptr = some p := by
  cases h with
  | link n q => exact Or.inl (setNext_data σ n q x).2.1
  | @fill n m p ho hm =>
    rw [node_write]
    split
    · exact Or.inr ⟨p, ho, hm⟩
    · exact Or.inl rfl
  | _ => exact Or.inl rfl

theorem Stores.pline (h : Stores σ op pc σ') (p : PLoc) :
    σ'.pline p = σ.pline p ∨ ∃ x, (σ.node x).pptr = some p := by
  cases h with
  | @pnode n q l hq =>
    by_cases he : p = q
    · exact Or.inr ⟨n, he ▸ hq⟩
    · exact Or.inl (Function.update_of_ne he _ _)
  | _ => exact Or.inl rfl

theorem Stores.key (h : Stores σ op pc σ') (x : Loc) :
    (σ'.node x).key = (σ.node x).key ∨ (σ'.node x).key = op.key := by
  cases h with
  | link n q => exact Or.inl (setNext_data σ n q x).1
  | fill _ _ hk =>
    rw [node_write]
    split
    · exact Or.inr hk
    · exact Or.inl rfl
  | _ => exact Or.inl rfl

inductive Command (V : Type) where
  | call (t : Tid) (op : SetOp V)
  | ret (t : Tid)
  | step (t : Tid) (slot : ℕ)

def Command.tid : Command V → Tid
  | .call t _ => t
  | .ret t => t
  | .step t _ => t

def writesTo (s : State V) (p : PLoc) (t : Tid) : Bool :=
  match s.thread t with
  | some (_, pc) => pc.writes.any fun x => (s.store.node x).pptr == some p
  | none => false

def grants (s : State V) (t : Tid) (slot : ℕ) : Bool :=
  match s.thread t with
  | some (_, .allocPNode _ _ _) =>
    s.store.pavail slot && (List.range 2).all (fun u => !writesTo s slot u) && slot < 16
  | some (_, .allocNode _ _ _ _ _) => s.store.avail slot
  | _ => true

-- schedules of the threads 0 and 1, in slots below 16
def exec (s : State V) : Command V → Option (Event (SetOp V) × State V)
  | .call t op =>
    if t < 2 ∧ (s.thread t).isNone ∧ op.key < INT_MAX then
      some (.call t op, s.goto s.store t (some (op, start op)))
    else none
  | .ret t =>
    match s.thread t with
    | some (_, .ret r) => some (.ret t r, s.goto s.store t none)
    | _ => none
  | .step t slot =>
    if grants s t slot then
      (s.thread t).bind fun c =>
        (next s.store c.1 slot c.2).map fun r => (.tau t, s.goto r.1 t (some (c.1, r.2)))
    else none

def Few (s : State V) : Prop := ∀ u, 2 ≤ u → s.thread u = none

theorem Few.lt (h : Few s) {c : SetOp V × Pc} (ht : s.thread t = some c) : t < 2 := by
  by_contra hge
  exact absurd ((h t (not_lt.1 hge)).symm.trans ht) nofun

theorem Few.recyclable (h : Few s) (ha : s.store.pavail p = true)
    (hw : (List.range 2).all (fun u => !writesTo s p u) = true) : s.Recyclable p := by
  refine ⟨ha, fun t op pc x ht hx hp => ?_⟩
  have := List.all_eq_true.1 hw t (List.mem_range.2 (h.lt ht))
  simp [writesTo, ht, hx, hp] at this

theorem exec_step (hf : Few s) {c : Command V} (h : exec s c = some (e, s')) :
    Step s e s' ∧ e.tid = c.tid ∧ c.tid < 2 := by
  cases c with
  | call t op =>
    simp only [exec] at h
    split at h
    · next hc =>
      obtain ⟨rfl, rfl⟩ := Prod.mk.inj (Option.some.inj h)
      exact ⟨Step.call t op (Option.isNone_iff_eq_none.1 hc.2.1) hc.2.2, rfl, hc.1⟩
    · cases h
  | ret t =>
    simp only [exec] at h
    split at h
    · next op r ht =>
      obtain ⟨rfl, rfl⟩ := Prod.mk.inj (Option.some.inj h)
      exact ⟨Step.ret t op r ht, rfl, hf.lt ht⟩
    · cases h
  | step t slot =>
    simp only [exec] at h
    split at h
    · next hg =>
      obtain ⟨⟨op, pc⟩, ht, h⟩ := Option.bind_eq_some_iff.1 h
      obtain ⟨⟨σ, pc'⟩, hn, h⟩ := Option.map_eq_some_iff.1 h
      obtain ⟨rfl, rfl⟩ := Prod.mk.inj h
      refine ⟨Step.tau t op pc pc' slot σ ht hn ?_ ?_, rfl, hf.lt ht⟩
      · rintro d st c rfl
        simp only [grants, ht, Bool.and_eq_true] at hg
        exact hf.recyclable hg.1.1 hg.1.2
      · rintro d st c q v rfl
        simpa [grants, ht] using hg
    · cases h

theorem exec_tau (h : exec s (.step t slot) = some (e, s')) : e = .tau t := by
  simp only [exec] at h
  split at h
  · obtain ⟨⟨op, pc⟩, _, h⟩ := Option.bind_eq_some_iff.1 h
    obtain ⟨_, _, h⟩ := Option.map_eq_some_iff.1 h
    exact (Prod.mk.inj h).1.symm
  · cases h

theorem Few.exec (hf : Few s) {c : Command V} (h : exec s c = some (e, s')) : Few s' := by
  obtain ⟨hs, he, hc⟩ := exec_step hf h
  intro u hu
  refine ((machine V).step_other hs ?_).trans (hf u hu)
  rintro rfl
  exact absurd (he ▸ hc) (not_lt.2 hu)

-- nothing has happened to the slots from 16 on
structure Low (zero : V) (s : State V) : Prop where
  owns : ∀ {t op pc p}, s.thread t = some (op, pc) → pc.ownsP = some p → p < 16
  pptr : ∀ {x p}, (s.store.node x).pptr = some p → p < 16
  pline : ∀ p, 16 ≤ p → s.store.pline p = ⟨⟨false, false, false, 0, zero⟩, []⟩

theorem low_initial (zero : V) : Low zero (initial zero) := by
  refine ⟨nofun, fun {x p} h => ?_, fun _ _ => rfl⟩
  simp only [initial, initialStore] at h
  split at h
  · cases h
  · split at h <;> cases h

theorem Low.goto (h : Low zero s) {a : Option (SetOp V × Pc)}
    (ha : ∀ op pc, a = some (op, pc) → pc.ownsP = none) : Low zero (s.goto s.store t a) := by
  refine ⟨fun {u op pc p} hu ho => ?_, h.pptr, h.pline⟩
  by_cases he : u = t
  · subst he
    rw [goto_thread_self] at hu
    exact absurd ((ha _ _ hu).symm.trans ho) nofun
  · rw [goto_thread_other _ _ _ he] at hu
    exact h.owns hu ho

theorem Low.tau (h : Low zero s) (ht : s.thread t = some (op, pc))
    (hn : next s.store op slot pc = some (σ, pc'))
    (hs : ∀ d st c, pc = .allocPNode d st c → slot < 16) :
    Low zero (s.goto σ t (some (op, pc'))) := by
  refine ⟨fun {u op1 pc1 p} hu ho => ?_, fun {x p} hp => ?_, fun p hp => ?_⟩
  · by_cases he : u = t
    · subst he
      rw [goto_thread_self] at hu
      obtain ⟨rfl, rfl⟩ := Prod.mk.inj (Option.some.inj hu)
      rcases (flow_of_next hn).ownsP_new ho with ho | ⟨d, st, c, rfl, rfl⟩
      · exact h.owns ht ho
      · obtain ⟨_, he⟩ := Prod.mk.inj (Option.some.inj hn)
        injection he with _ _ _ he
        exact he ▸ hs d st c rfl
    · rw [goto_thread_other _ _ _ he] at hu
      exact h.owns hu ho
  · rcases (stores_next hn).pptr x with he | ⟨q, ho, he⟩
    · exact h.pptr (he.symm.trans hp)
    · obtain rfl := Option.some.inj (he.symm.trans hp)
      exact h.owns ht ho
  · rcases (stores_next hn).pline p with he | ⟨x, hx⟩
    · exact he.trans (h.pline p hp)
    · exact absurd (h.pptr hx) (not_lt.2 hp)

theorem Low.exec (h : Low zero s) {c : Command V} (hx : exec s c = some (e, s')) : Low zero s' := by
  cases c with
  | call t op =>
    simp only [List.exec] at hx
    split at hx
    · obtain ⟨_, rfl⟩ := Prod.mk.inj (Option.some.inj hx)
      refine h.goto fun op1 pc1 he => ?_
      obtain ⟨rfl, rfl⟩ := Prod.mk.inj (Option.some.inj he)
      exact (start_quiet op).2.2.1
    · cases hx
  | ret t =>
    simp only [List.exec] at hx
    split at hx
    · obtain ⟨_, rfl⟩ := Prod.mk.inj (Option.some.inj hx)
      refine h.goto fun op1 pc1 he => ?_
      cases he
    · cases hx
  | step t slot =>
    simp only [List.exec] at hx
    split at hx
    · next hg =>
      obtain ⟨⟨op, pc⟩, ht, hx⟩ := Option.bind_eq_some_iff.1 hx
      obtain ⟨⟨σ, pc'⟩, hn, hx⟩ := Option.map_eq_some_iff.1 hx
      obtain ⟨_, rfl⟩ := Prod.mk.inj hx
      refine h.tau ht hn ?_
      rintro d st c rfl
      simp only [grants, ht, Bool.and_eq_true, decide_eq_true_eq] at hg
      exact hg.2
    · cases hx

theorem exists_play (zero : V) (cs : List (Command V))
    (h : (play exec (initial zero) cs).isSome = true) :
    ∃ ρ : Run (machine V), Plays exec (initial zero) cs ρ ∧
      ∀ n ≤ ρ.length, Few (ρ.state n) ∧ Low zero (ρ.state n) := by
  obtain ⟨s', hs'⟩ := Option.isSome_iff_exists.1 h
  obtain ⟨ρ, hρ⟩ := exists_run (M := machine V) (I := Few)
    (fun hf h => ⟨(exec_step hf h).1, hf.exec h⟩) ⟨zero, rfl⟩ (fun _ _ => rfl) hs'
  refine ⟨ρ, hρ, ρ.stepwise ?_ fun m hm ih => ?_⟩
  · rw [← Option.some.inj (hρ.state (Nat.zero_le _))]
    exact ⟨fun _ _ => rfl, low_initial zero⟩
  · have hx := hρ.exec (by rw [← hρ.length]; exact hm)
    exact ⟨ih.1.exec hx, ih.2.exec hx⟩

def steps (t : Tid) (n : ℕ) (slot : ℕ) : List (Command V) := List.replicate n (.step t slot)

-- a call that runs alone for n steps, in the slots it gets
def alone (t : Tid) (op : SetOp V) (n : ℕ) (slot : ℕ) : List (Command V) :=
  [[.call t op], steps t n slot, [.ret t]].flatten

end SOFT.List
