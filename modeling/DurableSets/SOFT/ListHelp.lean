import DurableSets.SOFT.ListHistory

namespace SOFT.List

open Chain

variable {V : Type} {σ σ' : Store V} {R R' W W' : Set Loc} {x y n c d : Loc} {p : PLoc}
  {slot : ℕ} {op : SetOp V} {pc pc' : Pc} {st : NodeState} {s s' : State V} {t u : Tid}

theorem tau_inv {op' : SetOp V} (hs : Step s (.tau t) s') (ht : s.thread t = some (op, pc))
    (ht' : s'.thread t = some (op', pc')) :
    ∃ slot σ, next s.store op slot pc = some (σ, pc') ∧
      (∀ pred st curr, pc = .allocPNode pred st curr → s.Recyclable slot) ∧
      (∀ pred st curr p v, pc = .allocNode pred st curr p v → s.store.avail slot = true) ∧
      s' = s.goto σ t (some (op, pc')) := by
  cases hs with
  | tau _ op1 pc1 pc2 slot σ h hn hp ha =>
    rw [ht] at h
    obtain ⟨rfl, rfl⟩ := Prod.mk.inj (Option.some.inj h)
    rw [goto_thread_self] at ht'
    obtain ⟨rfl, rfl⟩ := Prod.mk.inj (Option.some.inj ht')
    exact ⟨slot, σ, hn, hp, ha, rfl⟩

theorem call_inv {op' : SetOp V} (hs : Step s (.call t op') s')
    (ht : s'.thread t = some (op, pc)) :
    pc = start op ∧ op.key < INT_MAX ∧ s'.store = s.store := by
  cases hs with
  | call _ _ idle hk =>
    rw [goto_thread_self] at ht
    obtain ⟨rfl, rfl⟩ := Prod.mk.inj (Option.some.inj ht)
    exact ⟨rfl, hk, rfl⟩

theorem ret_inv {r : Bool} (hs : Step s (.ret t r) s') :
    ∃ op, s.thread t = some (op, .ret r) ∧ s'.store = s.store := by
  cases hs with
  | ret _ op _ ht => exact ⟨op, ht, rfl⟩

structure Helped (s : State V) : Prop where
  inserter : ∀ {x}, InList s.store x → (s.store.node x).next.state = .intendToInsert →
    ∃ t op pc, s.thread t = some (op, pc) ∧ pc.inserts = some x
  remover : ∀ {x}, InList s.store x → (s.store.node x).next.state = .intendToDelete →
    ∃ t op pc, s.thread t = some (op, pc) ∧ pc.removes = some x
  apartI : Apart s Pc.inserts
  apartD : Apart s Pc.removes

theorem winner_inv {r : Bool} (h : winner r n = some x) : r = true ∧ n = x := by
  cases r with
  | true => exact ⟨rfl, Option.some.inj h⟩
  | false => cases h

theorem Fit.inserts (f : Fit σ R W op pc) (h : pc.inserts = some x) :
    op.IsInsert ∧ x ∈ pc.refs ∧ rank σ x = (op.key : ℤ) := by
  have hl := f.loc
  have hf := f.fits
  cases pc with
  | createStart r n => exact ⟨hf, by simp [Pc.refs, (winner_inv h).2], (winner_inv h).2 ▸ hl⟩
  | createKey r n => exact ⟨hf, by simp [Pc.refs, (winner_inv h).2], (winner_inv h).2 ▸ hl.1⟩
  | createValue r n => exact ⟨hf, by simp [Pc.refs, (winner_inv h).2], (winner_inv h).2 ▸ hl.1⟩
  | createEnd r n => exact ⟨hf, by simp [Pc.refs, (winner_inv h).2], (winner_inv h).2 ▸ hl.1⟩
  | createFlush r n => exact ⟨hf, by simp [Pc.refs, (winner_inv h).2], (winner_inv h).2 ▸ hl.1⟩
  | insertTest r n => exact ⟨hf, by simp [Pc.refs, (winner_inv h).2], (winner_inv h).2 ▸ hl.1⟩
  | insertLoad r n => exact ⟨hf, by simp [Pc.refs, (winner_inv h).2], (winner_inv h).2 ▸ hl.1⟩
  | insertCas r n q => exact ⟨hf, by simp [Pc.refs, (winner_inv h).2], (winner_inv h).2 ▸ hl.1⟩
  | _ => cases h

theorem TrimOk.removes {t : TrimCtx} (h : TrimOk σ op t d st n) (hf : t.Fits op)
    (hr : t.removes n = some x) : op.IsRemove ∧ n = x ∧ rank σ x = (op.key : ℤ) ∧
      2 ≤ (σ.node x).next.state.age := by
  obtain ⟨rfl, rfl⟩ := TrimCtx.removes_inv hr
  obtain ⟨_, _, hd, hk⟩ := h
  have hd : (σ.node n).next.state = .deleted := hd
  refine ⟨hf, rfl, hk, ?_⟩
  rw [hd]
  decide

theorem Fit.removes (f : Fit σ R W op pc) (h : pc.removes = some x) :
    op.IsRemove ∧ x ∈ pc.refs ∧ rank σ x = (op.key : ℤ) ∧ 2 ≤ (σ.node x).next.state.age := by
  have hl := f.loc
  have hf := f.fits
  have trim : ∀ {t : TrimCtx} {d : Loc} {st : NodeState} {n : Loc}, TrimOk σ op t d st n →
      t.Fits op → t.removes n = some x → n ∈ pc.refs →
      op.IsRemove ∧ x ∈ pc.refs ∧ rank σ x = (op.key : ℤ) ∧ 2 ≤ (σ.node x).next.state.age := by
    intro t d st n hok hf hr hmem
    obtain ⟨h1, rfl, h2⟩ := hok.removes hf hr
    exact ⟨h1, hmem, h2⟩
  cases pc with
  | destroyStore r d st n =>
    obtain ⟨_, rfl⟩ := winner_inv h
    exact ⟨hf, by simp [Pc.refs], hl.2.2⟩
  | destroyFlush r d st n =>
    obtain ⟨_, rfl⟩ := winner_inv h
    exact ⟨hf, by simp [Pc.refs], hl.1.2.2⟩
  | deleteTest r d st n =>
    obtain ⟨_, rfl⟩ := winner_inv h
    exact ⟨hf, by simp [Pc.refs], hl.1.2.2⟩
  | deleteLoad r d st n =>
    obtain ⟨_, rfl⟩ := winner_inv h
    exact ⟨hf, by simp [Pc.refs], hl.1.2.2⟩
  | deleteCas r d st n q =>
    obtain ⟨_, rfl⟩ := winner_inv h
    exact ⟨hf, by simp [Pc.refs], hl.1.2.2⟩
  | trimLoad t d st n => exact trim hl hf h (by simp [Pc.refs])
  | trimCas t d st n q => exact trim hl.1 hf h (by simp [Pc.refs])
  | trimFree t d st n => exact trim hl hf h (by simp [Pc.refs])
  | _ => cases h

theorem Flow.removes_over (f : Fit σ R W op pc) (h : Flow σ op pc pc')
    (hx : pc.removes = some x) :
    pc'.removes = some x ∨ (pc' = .ret true ∧ (σ.node x).next.state = .deleted) := by
  rcases h.removes_keep hx with h1 | ⟨h1, d, st, rfl | ⟨q, rfl⟩⟩
  · exact Or.inl h1
  · exact Or.inr ⟨h1, f.loc.2.2.1⟩
  · exact Or.inr ⟨h1, f.loc.1.2.2.1⟩

theorem Helped.step_tau (hi : Inv s) (h : Helped s) (ht : s.thread t = some (op, pc))
    (hn : next s.store op slot pc = some (σ, pc')) :
    Helped (s.goto σ t (some (op, pc'))) := by
  have f := hi.fit ht
  have flow := flow_of_next hn
  have tau := tau_cases (R := s.roots) (fun n ho => (f.owned n ho).1) hn
  have ht' := goto_thread_self s σ t (some (op, pc'))
  have hlive : ∀ {x}, InList s.store x → s.store.heap.Live s.roots x :=
    fun hx => hi.mem.chain.good.live_of_linked hx.1
  refine ⟨?_, ?_, ?_, ?_⟩
  · intro x hx hst
    change (σ.node x).next.state = .intendToInsert at hst
    rcases tau.inList hi.mem f hx with hx | ⟨⟨d, st, c, p, rfl, _, rfl⟩, _⟩
    · have hst0 : (s.store.node x).next.state = .intendToInsert := by
        rcases tau.state f (hlive hx) with h | ⟨q, a, b, adv, _, hb⟩
        · exact h.symm.trans hst
        · rw [hb] at hst
          subst hst
          cases adv
      obtain ⟨u, op1, pc1, hu, hins⟩ := h.inserter hx hst0
      by_cases he : u = t
      · subst he
        obtain ⟨rfl, rfl⟩ := Prod.mk.inj (Option.some.inj (ht.symm.trans hu))
        rcases flow.inserts_keep hins with h | ⟨_, h⟩
        · exact ⟨u, op, pc', ht', h⟩
        · exact absurd hst0 h
      · exact ⟨u, op1, pc1, (goto_thread_other _ _ _ he).trans hu, hins⟩
    · exact ⟨t, op, _, ht', rfl⟩
  · intro x hx hst
    change (σ.node x).next.state = .intendToDelete at hst
    rcases tau.inList hi.mem f hx with hx | ⟨_, hnew⟩
    · rcases tau.state f (hlive hx) with hsame | ⟨q, a, b, adv, _, hb⟩
      · have hst0 := hsame.symm.trans hst
        obtain ⟨u, op1, pc1, hu, hrem⟩ := h.remover hx hst0
        by_cases he : u = t
        · subst he
          obtain ⟨rfl, rfl⟩ := Prod.mk.inj (Option.some.inj (ht.symm.trans hu))
          rcases flow.removes_over f hrem with h | ⟨_, h⟩
          · exact ⟨u, op, pc', ht', h⟩
          · rw [hst0] at h
            cases h
        · exact ⟨u, op1, pc1, (goto_thread_other _ _ _ he).trans hu, hrem⟩
      · rw [hb] at hst
        subst hst
        cases adv
        exact ⟨t, op, _, ht', rfl⟩
    · exact absurd (hnew.symm.trans hst) nofun
  · refine h.apartI.goto fun op1 pc1 x ha hx u op2 pc2 he hu hx' => ?_
    obtain ⟨rfl, rfl⟩ := Prod.mk.inj (Option.some.inj ha)
    rcases flow.inserts_new hx with hx | ⟨d, st, c, p, rfl, _⟩
    · exact he (h.apartI hu ht hx' hx)
    · have fu := hi.fit hu
      exact (f.owned x rfl).1 (fu.refs x (fu.inserts hx').2.1)
  · refine h.apartD.goto fun op1 pc1 x ha hx u op2 pc2 he hu hx' => ?_
    obtain ⟨rfl, rfl⟩ := Prod.mk.inj (Option.some.inj ha)
    rcases flow.removes_new hx with hx | ⟨d, st, q, rfl, hq⟩
    · exact he (h.apartD hu ht hx' hx)
    · have hage := ((hi.fit hu).removes hx').2.2.2
      rw [hq] at hage
      exact absurd hage (by simp [Ptr.createRef, NodeState.age])

theorem start_helps (op : SetOp V) : (start op).inserts = none ∧ (start op).removes = none := by
  cases op <;> exact ⟨rfl, rfl⟩

theorem Helped.step_idle (h : Helped s) (a : Option (SetOp V × Pc))
    (hold : ∀ op pc, s.thread t = some (op, pc) → pc.inserts = none ∧ pc.removes = none)
    (hnew : ∀ op pc, a = some (op, pc) → pc.inserts = none ∧ pc.removes = none) :
    Helped (s.goto s.store t a) := by
  have keep : ∀ {u op pc x}, s.thread u = some (op, pc) →
      pc.inserts = some x ∨ pc.removes = some x → (s.goto s.store t a).thread u = some (op, pc) := by
    intro u op pc x hu hx
    refine (goto_thread_other _ _ _ ?_).trans hu
    rintro rfl
    obtain ⟨h1, h2⟩ := hold op pc hu
    simp [h1, h2] at hx
  refine ⟨fun hx hst => ?_, fun hx hst => ?_, h.apartI.goto ?_, h.apartD.goto ?_⟩
  · obtain ⟨u, op, pc, hu, hins⟩ := h.inserter hx hst
    exact ⟨u, op, pc, keep hu (Or.inl hins), hins⟩
  · obtain ⟨u, op, pc, hu, hrem⟩ := h.remover hx hst
    exact ⟨u, op, pc, keep hu (Or.inr hrem), hrem⟩
  · exact fun op pc x ha hx => absurd ((hnew op pc ha).1.symm.trans hx) nofun
  · exact fun op pc x ha hx => absurd ((hnew op pc ha).2.symm.trans hx) nofun

theorem Helped.step (hi : Inv s) (h : Helped s) {e : Event (SetOp V)} (hs : Step s e s') :
    Helped s' := by
  cases hs with
  | call t op idle hk =>
    refine h.step_idle _ (fun op1 pc1 h => ?_) fun op1 pc1 ha => ?_
    · rw [idle] at h
      cases h
    · obtain ⟨rfl, rfl⟩ := Prod.mk.inj (Option.some.inj ha)
      exact start_helps _
  | ret t op r ht =>
    refine h.step_idle none (fun op1 pc1 h => ?_) fun _ _ h => nomatch h
    obtain ⟨rfl, rfl⟩ := Prod.mk.inj (Option.some.inj (ht.symm.trans h))
    exact ⟨rfl, rfl⟩
  | tau t op pc pc' slot σ ht hn hp ha => exact h.step_tau hi ht hn

theorem helped_initial (zero : V) : Helped (initial zero) := by
  have hno : ∀ {x}, ¬ InList (initial zero).store x := fun hx => initial_owner zero (Or.inl hx)
  refine ⟨fun hx => absurd hx hno, fun hx => absurd hx hno, ?_, ?_⟩ <;>
    exact fun _ _ _ _ _ _ _ ht => nomatch ht

theorem helped_run (ρ : Run (machine V)) : ∀ n ≤ ρ.length, Helped (ρ.state n) := by
  refine ρ.stepwise ?_ fun m hm h => h.step (inv_run ρ m hm.le) (ρ.step hm)
  obtain ⟨zero, h⟩ := ρ.init
  rw [h]
  exact helped_initial zero

def Used (s : State V) (x : Loc) : Prop :=
  s.store.avail x = false ∧ ∀ t op pc, s.thread t = some (op, pc) → pc.owns ≠ some x

theorem Inv.used (hi : Inv s) (hx : InList s.store x) : Used s x := by
  have hl := hi.mem.chain.good.live_of_linked hx.1
  refine ⟨?_, fun t op pc ht ho => ((hi.fit ht).owned x ho).1 hl⟩
  cases ha : s.store.avail x with
  | false => rfl
  | true => exact absurd hl (hi.mem.chain.fresh ha)

theorem used_idle {a : Option (SetOp V × Pc)} (h : Used s x)
    (ha : ∀ op pc, a = some (op, pc) → pc.owns = none) : Used (s.goto s.store t a) x := by
  refine ⟨h.1, fun u op pc hu ho => ?_⟩
  by_cases he : u = t
  · subst he
    rw [goto_thread_self] at hu
    exact absurd ((ha op pc hu).symm.trans ho) nofun
  · rw [goto_thread_other _ _ _ he] at hu
    exact h.2 u op pc hu ho

theorem Used.step (hi : Inv s) {e : Event (SetOp V)} (hs : Step s e s') (h : Used s x) :
    Used s' x := by
  cases hs with
  | call t op idle hk =>
    refine used_idle h fun op1 pc1 ha => ?_
    obtain ⟨rfl, rfl⟩ := Prod.mk.inj (Option.some.inj ha)
    exact (start_quiet _).2.1
  | ret t op r ht => exact used_idle h fun _ _ h => nomatch h
  | tau t op pc pc' slot σ ht hn hp ha =>
    obtain ⟨R', W', ok⟩ := tau_ok hi ht hn hp ha
    refine ⟨(ok.effect.kept hi.mem).avail (h.2 t op pc ht) h.1, fun u op1 pc1 hu ho => ?_⟩
    by_cases he : u = t
    · subst he
      rw [goto_thread_self] at hu
      obtain ⟨rfl, rfl⟩ := Prod.mk.inj (Option.some.inj hu)
      rcases ok.owns x ho with ho | ho
      · exact h.2 u op pc ht ho
      · exact absurd (h.1.symm.trans ho) Bool.false_ne_true
    · rw [goto_thread_other _ _ _ he] at hu
      exact h.2 u op1 pc1 hu ho

theorem Used.evolves (hi : Inv s) {e : Event (SetOp V)} (hs : Step s e s') (h : Used s x) :
    Evolves (s.store.node x) (s'.store.node x) := by
  cases hs with
  | call t op idle hk => exact Evolves.refl _
  | ret t op r ht => exact Evolves.refl _
  | tau t op pc pc' slot σ ht hn hp ha =>
    obtain ⟨R', W', ok⟩ := tau_ok hi ht hn hp ha
    have k := ok.effect.kept hi.mem
    by_cases hl : s.store.heap.Live s.roots x
    · exact k.evolves hl
    · have hnode : σ.node x = s.store.node x := k.node (h.2 t op pc ht) hl
      change Evolves (s.store.node x) (σ.node x)
      rw [hnode]
      exact Evolves.refl _

theorem Inv.stays (hi : Inv s) {e : Event (SetOp V)} (hs : Step s e s')
    (hx : InList s.store x) :
    InList s'.store x ∨ (s'.store.node x).next.state = .deleted := by
  have he := (hi.used hx).evolves hi hs
  cases hs with
  | call t op idle hk => exact Or.inl hx
  | ret t op r ht => exact Or.inl hx
  | tau t op pc pc' slot σ ht hn hp ha =>
    have f := hi.fit ht
    have tau := tau_cases (R := s.roots) (fun n ho => (f.owned n ho).1) hn
    rcases tau.keeps hi.mem f hx with h | ⟨hd, _⟩
    · exact Or.inl h
    · right
      rw [he.next hd]
      exact hd

theorem Inv.joins (hi : Inv s) {e : Event (SetOp V)} (hs : Step s e s')
    (hx : InList s'.store x) :
    InList s.store x ∨ ((s'.store.node x).next.state = .intendToInsert ∧
      ∃ t op pc pc', e = .tau t ∧ s.thread t = some (op, pc) ∧ s'.thread t = some (op, pc') ∧
        pc.owns = some x ∧ pc.inserts = none ∧ pc'.inserts = some x) := by
  cases hs with
  | call t op idle hk => exact Or.inl hx
  | ret t op r ht => exact Or.inl hx
  | tau t op pc pc' slot σ ht hn hp ha =>
    have f := hi.fit ht
    have tau := tau_cases (R := s.roots) (fun n ho => (f.owned n ho).1) hn
    rcases tau.inList hi.mem f hx with h | ⟨⟨d, st, c, p, rfl, _, rfl⟩, hst⟩
    · exact Or.inl h
    · exact Or.inr ⟨hst, t, op, _, _, rfl, ht, goto_thread_self _ _ _ _, rfl, rfl, rfl⟩

variable {ρ : Run (machine V)} {i j m m' : ℕ}

def Joined (ρ : Run (machine V)) (m : ℕ) (x : Loc) : Prop :=
  ∃ j, j ≤ m ∧ InList (ρ.state j).store x

def stateAt (ρ : Run (machine V)) (m : ℕ) (x : Loc) : NodeState :=
  ((ρ.state m).store.node x).next.state

theorem Joined.mono (h : Joined ρ m x) (hm : m ≤ m') : Joined ρ m' x := by
  obtain ⟨j, hj, hx⟩ := h
  exact ⟨j, hj.trans hm, hx⟩

theorem joined_run (h : Joined ρ m x) (hm : m ≤ ρ.length) : Used (ρ.state m) x ∧
    (InList (ρ.state m).store x ∨ stateAt ρ m x = .deleted) := by
  obtain ⟨j, hj, hx⟩ := h
  induction m, hj using Nat.le_induction with
  | base => exact ⟨(inv_run ρ j hm).used hx, Or.inl hx⟩
  | succ m hj ih =>
    obtain ⟨hu, h⟩ := ih (by omega)
    have hi := inv_run ρ m (by omega)
    have hs := ρ.step (m := m) (by omega)
    refine ⟨hu.step hi hs, ?_⟩
    rcases h with h | hd
    · exact hi.stays hs h
    · right
      have := (hu.evolves hi hs).next hd
      exact (congrArg Ptr.state this).trans hd

theorem Joined.evolves (h : Joined ρ m x) (hm : m < ρ.length) :
    Evolves ((ρ.state m).store.node x) ((ρ.state (m + 1)).store.node x) :=
  (joined_run h hm.le).1.evolves (inv_run ρ m hm.le) (ρ.step hm)

theorem Joined.age (h : Joined ρ m x) (hm : m ≤ m') (hl : m' ≤ ρ.length) :
    (stateAt ρ m x).age ≤ (stateAt ρ m' x).age := by
  induction m', hm using Nat.le_induction with
  | base => exact le_rfl
  | succ m' hm ih => exact (ih (by omega)).trans ((h.mono hm).evolves (by omega)).age

theorem grab_link {op' : SetOp V} (hi : Inv s) (hs : Step s (.tau t) s')
    (ht : s.thread t = some (op, pc)) (ht' : s'.thread t = some (op', pc'))
    (h0 : pc.inserts = none) (h1 : pc'.inserts = some x) :
    pc.owns = some x ∧ InList s'.store x := by
  obtain ⟨slot, σ, hn, _, _, rfl⟩ := tau_inv hs ht ht'
  have f := hi.fit ht
  rcases (flow_of_next hn).inserts_new h1 with h | ⟨d, st, c, p, rfl, hq⟩
  · exact absurd (h0.symm.trans h) nofun
  · simp only [next, if_pos hq] at hn
    obtain ⟨rfl, rfl⟩ := Prod.mk.inj (Option.some.inj hn)
    have hfresh := (f.owned x rfl).1
    refine ⟨rfl, ((linkCas_splice f hq).linked hi.mem.chain.good).2 (Or.inr rfl), ?_, ?_⟩
    · exact fun e => hfresh (e ▸ hi.mem.chain.head_live)
    · exact fun e => hfresh (e ▸ hi.mem.chain.tail_live)

theorem grab_mark {op' : SetOp V} (hi : Inv s) (hs : Step s (.tau t) s')
    (ht : s.thread t = some (op, pc)) (ht' : s'.thread t = some (op', pc'))
    (h0 : pc.removes = none) (h1 : pc'.removes = some x) :
    (s.store.node x).next.state = .inserted ∧ InList s.store x := by
  obtain ⟨slot, σ, hn, _, _, rfl⟩ := tau_inv hs ht ht'
  have f := hi.fit ht
  rcases (flow_of_next hn).removes_new h1 with h | ⟨d, st, q, rfl, hq⟩
  · exact absurd (h0.symm.trans h) nofun
  · have hst : (s.store.node x).next.state = .inserted := congrArg Ptr.state hq
    refine ⟨hst, hi.mem.inList_of_alive (f.writes x rfl) fun hd => ?_⟩
    have hd : (s.store.node x).next.state = .deleted := hd
    rw [hst] at hd
    cases hd

theorem linked_once {a b : ℕ} (h : ρ.Grabs Pc.inserts i a x) (h' : ρ.Grabs Pc.inserts j b x) :
    ¬ a < b := by
  intro hab
  obtain ⟨ha, t, op, pc, pc', he, _, ht, ht', h0, h1⟩ := h
  obtain ⟨hb, u, op', qc, qc', he', _, hu, hu', h0', h1'⟩ := h'
  have hs := ρ.step ha
  have hs' := ρ.step hb
  rw [he] at hs
  rw [he'] at hs'
  have hx := (grab_link (inv_run ρ a ha.le) hs ht ht' h0 h1).2
  have hown := (grab_link (inv_run ρ b hb.le) hs' hu hu' h0' h1').1
  exact (joined_run ⟨a + 1, hab, hx⟩ hb.le).1.2 u op' qc hu hown

theorem marked_once {a b : ℕ} (h : ρ.Grabs Pc.removes i a x) (h' : ρ.Grabs Pc.removes j b x) :
    ¬ a < b := by
  intro hab
  obtain ⟨ha, t, op, pc, pc', he, _, ht, ht', h0, h1⟩ := h
  obtain ⟨hb, u, op', qc, qc', he', _, hu, hu', h0', h1'⟩ := h'
  have hs := ρ.step ha
  have hs' := ρ.step hb
  rw [he] at hs
  rw [he'] at hs'
  have hx := (grab_mark (inv_run ρ a ha.le) hs ht ht' h0 h1).2
  have hage : 2 ≤ (stateAt ρ (a + 1) x).age := (((inv_run ρ (a + 1) ha).fit ht').removes h1).2.2.2
  have hst : stateAt ρ b x = .inserted := (grab_mark (inv_run ρ b hb.le) hs' hu hu' h0' h1').1
  have hj : Joined ρ (a + 1) x := ⟨a, by omega, hx⟩
  have := hj.age hab hb.le
  rw [hst] at this
  exact absurd (hage.trans this) (by decide)

theorem joined_grabs : ∀ m ≤ ρ.length, Joined ρ m x →
    ∃ i a, a < m ∧ ρ.Grabs Pc.inserts i a x := by
  have none0 : ¬ Joined ρ 0 x := by
    rintro ⟨j, hj, hx⟩
    obtain rfl : j = 0 := by omega
    obtain ⟨zero, h⟩ := ρ.init
    rw [h] at hx
    exact initial_owner zero (Or.inl hx)
  refine ρ.stepwise (fun h => absurd h none0) fun m hm ih h => ?_
  have lift : Joined ρ m x → ∃ i a, a < m + 1 ∧ ρ.Grabs Pc.inserts i a x := by
    intro h
    obtain ⟨i, a, ha, hg⟩ := ih h
    exact ⟨i, a, by omega, hg⟩
  obtain ⟨j, hj, hx⟩ := h
  rcases Nat.lt_or_eq_of_le hj with hj | rfl
  · exact lift ⟨j, by omega, hx⟩
  · rcases (inv_run ρ m hm.le).joins (ρ.step hm) hx with hx | ⟨_, t, op, pc, pc', he, ht, ht', _, h⟩
    · exact lift ⟨m, le_rfl, hx⟩
    · obtain ⟨i, hact⟩ := ρ.active_of_thread hm.le ht
      exact ⟨i, m, by omega, hm, t, op, pc, pc', he, hact, ht, ht', h⟩

theorem Inv.marks (hi : Inv s) {e : Event (SetOp V)} (hs : Step s e s')
    (hx : InList s.store x) (h0 : (s.store.node x).next.state = .inserted)
    (h1 : (s'.store.node x).next.state ≠ .inserted) :
    ∃ t op pc pc', e = .tau t ∧ s.thread t = some (op, pc) ∧ s'.thread t = some (op, pc') ∧
      pc.removes = none ∧ pc'.removes = some x := by
  cases hs with
  | call t op idle hk => exact absurd h0 h1
  | ret t op r ht => exact absurd h0 h1
  | tau t op pc pc' slot σ ht hn hp ha =>
    have f := hi.fit ht
    have tau := tau_cases (R := s.roots) (fun n ho => (f.owned n ho).1) hn
    rcases tau.state f (hi.mem.chain.good.live_of_linked hx.1) with h | ⟨q, a, b, adv, ha, _⟩
    · exact absurd (h.trans h0) h1
    · rw [h0] at ha
      subst ha
      cases adv
      exact ⟨t, op, _, _, rfl, ht, goto_thread_self _ _ _ _, rfl, rfl⟩

theorem marked_grabs : ∀ m ≤ ρ.length, Joined ρ m x → 2 ≤ (stateAt ρ m x).age →
    ∃ i a, a < m ∧ ρ.Grabs Pc.removes i a x := by
  refine ρ.stepwise ?_ fun m hm ih hj hage => ?_
  · intro h _
    obtain ⟨i, a, ha, _⟩ := joined_grabs 0 (by omega) h
    omega
  · have hi := inv_run ρ m hm.le
    have hs := ρ.step hm
    have joined : Joined ρ m x := by
      obtain ⟨j, hj, hx⟩ := hj
      rcases Nat.lt_or_eq_of_le hj with hj | rfl
      · exact ⟨j, by omega, hx⟩
      · rcases hi.joins hs hx with hx | ⟨hst, _⟩
        · exact ⟨m, le_rfl, hx⟩
        · have hst : stateAt ρ (m + 1) x = .intendToInsert := hst
          rw [hst] at hage
          exact absurd hage (by decide)
    by_cases hold : 2 ≤ (stateAt ρ m x).age
    · obtain ⟨i, a, ha, hg⟩ := ih joined hold
      exact ⟨i, a, by omega, hg⟩
    · have hst : stateAt ρ m x = .inserted ∧ stateAt ρ (m + 1) x ≠ .inserted := by
        rcases (joined.evolves hm).state with h | h
        · have h : stateAt ρ (m + 1) x = stateAt ρ m x := h
          rw [h] at hage
          exact absurd hage hold
        · have h : (stateAt ρ (m + 1) x).age = (stateAt ρ m x).age + 1 := h
          refine ⟨NodeState.age_injective ?_, fun he => ?_⟩
          · change _ = 1
            omega
          · rw [he] at hage
            exact absurd hage (by decide)
      have hin := (joined_run joined hm.le).2.resolve_right fun hd => by
        rw [hst.1] at hd
        cases hd
      obtain ⟨t, op, pc, pc', he, ht, ht', h⟩ := hi.marks hs hin hst.1 hst.2
      obtain ⟨i, hact⟩ := ρ.active_of_thread hm.le ht
      exact ⟨i, m, by omega, hm, t, op, pc, pc', he, hact, ht, ht', h⟩

def Added (op : SetOp V) (pc : Pc) : Prop := op.IsInsert ∧ pc = .ret true

def Erasing (op : SetOp V) (pc : Pc) : Prop := op.IsRemove ∧ pc = .ret true

theorem Flow.not_ret (h : Flow σ op pc pc') {r : Bool} : pc ≠ .ret r := by
  cases h <;> exact fun h => nomatch h

theorem insert_not_contains (h : op.IsInsert) (h' : op.IsRemove ∨ op.IsContains) : False := by
  cases op <;> simp_all [SetOp.IsInsert, SetOp.IsRemove, SetOp.IsContains]

theorem remove_not_contains (h : op.IsRemove) (h' : op.IsContains) : False := by
  cases op <;> simp_all [SetOp.IsRemove, SetOp.IsContains]

theorem afterTrim_added {t : TrimCtx} (hf : t.Fits op) : ¬ Added op (afterTrim d st t) := by
  cases t with
  | inFind s => exact fun h => nomatch h.2
  | inRemove => exact fun h => insert_not_contains h.1 (Or.inl hf)

theorem Flow.added (f : Fit σ R W op pc) (h : Flow σ op pc pc') (h0 : pc.inserts = none) :
    ¬ Added op pc' := by
  rintro ⟨hop, rfl⟩
  have hf := f.fits
  generalize hz : Pc.ret true = z at h
  cases h with
  | findStop _ _ h => exact (afterFind_quiet h).2.2 hz.symm
  | trimLost => exact afterTrim_added hf ⟨hop, hz.symm⟩
  | trimFree => exact afterTrim_added hf ⟨hop, hz.symm⟩
  | insertDone h =>
    obtain rfl := Pc.ret.inj hz
    cases h0
  | containsStop le => exact insert_not_contains hop (Or.inr hf)
  | _ => cases hz

theorem Flow.erasing (f : Fit σ R W op pc) (h : Flow σ op pc pc') (h0 : pc.removes = none) :
    ¬ Erasing op pc' := by
  rintro ⟨hop, rfl⟩
  have hf := f.fits
  generalize hz : Pc.ret true = z at h
  cases h with
  | findStop _ _ h => exact (afterFind_quiet h).2.2 hz.symm
  | @trimLost t =>
    cases t with
    | inFind s => cases hz
    | inRemove => cases h0
  | @trimFree t =>
    cases t with
    | inFind s => cases hz
    | inRemove => cases h0
  | insertDone h => exact insert_not_contains hf (Or.inl hop)
  | containsStop le => exact remove_not_contains hop hf
  | _ => cases hz

theorem inserting_run (ρ : Run (machine V)) : ∀ n ≤ ρ.length, ∀ {t op pc},
    (ρ.state n).thread t = some (op, pc) →
      ∃ i, ρ.Active t op i n ∧ ρ.Holding Pc.inserts Added i n op pc := by
  refine ρ.holding_run ?_ ?_
  · intro n t op pc hn he ht
    have hs := ρ.step hn
    rw [he] at hs
    obtain ⟨rfl, _, _⟩ := call_inv hs ht
    exact ⟨(start_helps op).1, fun h => by cases op <;> cases h.2⟩
  · intro n t op pc pc' hn he ht ht'
    have hs := ρ.step hn
    rw [he] at hs
    obtain ⟨slot, σ, hnext, _⟩ := tau_inv hs ht ht'
    have flow := flow_of_next hnext
    have f := (inv_run ρ n hn.le).fit ht
    refine ⟨fun h => flow.not_ret h.2, flow.added f, fun x hx => ?_⟩
    rcases flow.inserts_keep hx with h | ⟨rfl, _⟩
    · exact Or.inl h
    · exact Or.inr ⟨rfl, (f.inserts hx).1, rfl⟩

theorem removing_run (ρ : Run (machine V)) : ∀ n ≤ ρ.length, ∀ {t op pc},
    (ρ.state n).thread t = some (op, pc) →
      ∃ i, ρ.Active t op i n ∧ ρ.Holding Pc.removes Erasing i n op pc := by
  refine ρ.holding_run ?_ ?_
  · intro n t op pc hn he ht
    have hs := ρ.step hn
    rw [he] at hs
    obtain ⟨rfl, _, _⟩ := call_inv hs ht
    exact ⟨(start_helps op).2, fun h => by cases op <;> cases h.2⟩
  · intro n t op pc pc' hn he ht ht'
    have hs := ρ.step hn
    rw [he] at hs
    obtain ⟨slot, σ, hnext, _⟩ := tau_inv hs ht ht'
    have flow := flow_of_next hnext
    have f := (inv_run ρ n hn.le).fit ht
    refine ⟨fun h => flow.not_ret h.2, flow.erasing f, fun x hx => ?_⟩
    rcases flow.removes_keep hx with h | ⟨rfl, _⟩
    · exact Or.inl h
    · exact Or.inr ⟨rfl, (f.removes hx).1, rfl⟩

end SOFT.List
