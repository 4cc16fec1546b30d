import DurableSets.SOFT.SkipListTrail

namespace SOFT.SkipList

open Chain

variable {V : Type} {σ σ' : Store V} {L L' : Set Cursor} {x y p n c d slot : Loc}
  {i j l m G level : ℕ} {op : SetOp V} {pc pc' : Pc} {path : Path} {q : Ptr} {k : ℤ}
  {st : NodeState} {s s' : State V} {t u : Tid}

def Pc.inserts (pc : Pc) : Option Loc :=
  match pc.pending with
  | some (n, _ + 1) => some n
  | _ => none

def FindCtx.removes : FindCtx → Option Loc
  | .inInsert _ _ => none
  | .inRemove n => some n

def StateCtx.removes (n : Loc) : StateCtx → Option Loc
  | .delete true => some n
  | _ => none

def Pc.removes : Pc → Option Loc
  | .findDown c _ _ _ => c.removes
  | .findLoad c _ _ _ _ _ _ => c.removes
  | .findCas c _ _ _ _ _ _ => c.removes
  | .stateTest c n => c.removes n
  | .stateLoad c n => c.removes n
  | .stateCas c n _ => c.removes n
  | .destroyStore r n => (StateCtx.delete r).removes n
  | .destroyFlush r n => (StateCtx.delete r).removes n
  | .removeFree n => some n
  | _ => none

theorem inserts_iff : pc.inserts = some x ↔ ∃ i, pc.pending = some (x, i + 1) := by
  unfold Pc.inserts
  constructor
  · intro h
    split at h
    · next n i hp =>
      obtain rfl := Option.some.inj h
      exact ⟨i, hp⟩
    · cases h
  · rintro ⟨i, h⟩
    rw [h]

theorem inserts_congr (h : pc'.pending = pc.pending) : pc'.inserts = pc.inserts := by
  unfold Pc.inserts
  rw [h]

theorem inserts_none (h : pc.pending = none) : pc.inserts = none := by
  unfold Pc.inserts
  rw [h]

theorem inserts_owns (h : pc.inserts = some x) : pc.owns = some x := by
  obtain ⟨i, h⟩ := inserts_iff.1 h
  exact owns_of_pending h

theorem pending_insert (hp : pc.pending = some (n, i)) (hf : pc.Fits op) : op.IsInsert := by
  cases pc with
  | findDown c l p path =>
    cases c with
    | inInsert n' i' => exact hf
    | inRemove n' => cases hp
  | findLoad c l p st d s path =>
    cases c with
    | inInsert n' i' => exact hf
    | inRemove n' => cases hp
  | findCas c l p st d s path =>
    cases c with
    | inInsert n' i' => exact hf
    | inRemove n' => cases hp
  | stateTest c m =>
    cases c with
    | insert c => exact hf
    | _ => cases hp
  | stateLoad c m =>
    cases c with
    | insert c => exact hf
    | _ => cases hp
  | stateCas c m q =>
    cases c with
    | insert c => exact hf
    | _ => cases hp
  | _ => first | exact hf | cases hp

theorem FindCtx.pending_rank {c : FindCtx} (h : c.Ok σ op) (hp : c.pending = some (n, i)) :
    rank σ n = (op.key : ℤ) := by
  cases c with
  | inInsert n' i' =>
    obtain ⟨rfl, rfl⟩ := Prod.mk.inj (Option.some.inj hp)
    exact h.1
  | inRemove n' => cases hp

theorem InsertCtx.pending_rank {c : InsertCtx} (h : InsertOk σ op p c)
    (hp : c.pending p = some (n, i)) : rank σ n = (op.key : ℤ) := by
  cases c with
  | found => cases hp
  | linked path =>
    obtain ⟨rfl, rfl⟩ := Prod.mk.inj (Option.some.inj hp)
    exact h.1

theorem StateCtx.pending_rank {c : StateCtx} (h : StateOk σ op p c)
    (hp : c.pending p = some (n, i)) : rank σ n = (op.key : ℤ) := by
  cases c with
  | insert c => exact c.pending_rank h hp
  | _ => cases hp

theorem pending_rank (hp : pc.pending = some (n, i + 1)) (hl : Local σ op pc) :
    rank σ n = (op.key : ℤ) := by
  cases pc with
  | findDown c l p path => exact c.pending_rank hl.2.2.2 hp
  | findLoad c l p st d s path => exact c.pending_rank hl.2.2.2.1 hp
  | findCas c l p st d s path => exact c.pending_rank hl.2.2.2.1 hp
  | helpStore c m => exact c.pending_rank hl hp
  | helpFlush c m => exact c.pending_rank hl hp
  | stateTest c m => exact c.pending_rank hl hp
  | stateLoad c m => exact c.pending_rank hl hp
  | stateCas c m q => exact c.pending_rank hl hp
  | upperLoad path m l =>
    obtain ⟨rfl, rfl⟩ := Prod.mk.inj (Option.some.inj hp)
    exact UpperOk.rank hl
  | upperCas path m l q =>
    obtain ⟨rfl, rfl⟩ := Prod.mk.inj (Option.some.inj hp)
    exact hl.1.rank
  | upperLink path m l =>
    obtain ⟨rfl, rfl⟩ := Prod.mk.inj (Option.some.inj hp)
    exact hl.1.rank
  | _ => cases hp

theorem Fit.inserts (hm : MemInv σ G L) (f : Fit σ L op pc) (h : pc.inserts = some x) :
    op.IsInsert ∧ (x, 0) ∈ L ∧ rank σ x = (op.key : ℤ) := by
  obtain ⟨i, h⟩ := inserts_iff.1 h
  exact ⟨pending_insert h f.fits, hm.base (f.refs _ (base_of_pending h)), pending_rank h f.loc⟩

theorem StateCtx.removes_inv {c : StateCtx} (h : c.removes n = some x) : c = .delete true ∧ n = x := by
  cases c with
  | insert c => cases h
  | mark => cases h
  | delete r =>
    cases r with
    | true => exact ⟨rfl, Option.some.inj h⟩
    | false => cases h

theorem FindCtx.removes_inv {c : FindCtx} (h : c.removes = some x) : c = .inRemove x := by
  cases c with
  | inInsert n i => cases h
  | inRemove n => exact congrArg _ (Option.some.inj h)

theorem dead_age (h : σ.dead 0 x) : 2 ≤ (σ.stateAt 0 x).age := by
  have h : σ.stateAt 0 x = .deleted := h
  rw [h]
  decide

theorem Fit.removes (f : Fit σ L op pc) (h : pc.removes = some x) :
    op.IsRemove ∧ (x, 0) ∈ L ∧ rank σ x = (op.key : ℤ) ∧ 2 ≤ (σ.stateAt 0 x).age := by
  have find : ∀ {c : FindCtx}, c.removes = some x → c.Fits op → c.Ok σ op →
      (∀ r ∈ c.refs, r ∈ pc.refs) →
      op.IsRemove ∧ (x, 0) ∈ L ∧ rank σ x = (op.key : ℤ) ∧ 2 ≤ (σ.stateAt 0 x).age := by
    intro c hc hf ho hr
    obtain rfl := FindCtx.removes_inv hc
    exact ⟨hf, f.refs _ (hr (x, 0) (by simp [FindCtx.refs])), ho.1, dead_age ho.2⟩
  have state : ∀ {c : StateCtx} {n : Loc}, c.removes n = some x → (c = .delete true → op.IsRemove) →
      StateOk σ op n c → (n, 0) ∈ pc.refs →
      op.IsRemove ∧ (x, 0) ∈ L ∧ rank σ x = (op.key : ℤ) ∧ 2 ≤ (σ.stateAt 0 x).age := by
    intro c n hc hf ho hr
    obtain ⟨rfl, rfl⟩ := StateCtx.removes_inv hc
    exact ⟨hf rfl, f.refs _ hr, ho.1, ho.2⟩
  have hf := f.fits
  have hl := f.loc
  cases pc with
  | findDown c l p path =>
    exact find h hf hl.2.2.2 fun r hr => by simp [Pc.refs, hr]
  | findLoad c l p st d s path =>
    exact find h hf hl.2.2.2.1 fun r hr => by simp [Pc.refs, hr]
  | findCas c l p st d s path =>
    exact find h hf hl.2.2.2.1 fun r hr => by simp [Pc.refs, hr]
  | stateTest c n => exact state h (fun e => by subst e; exact hf) hl (c.mem_refs n)
  | stateLoad c n => exact state h (fun e => by subst e; exact hf) hl (c.mem_refs n)
  | stateCas c n q => exact state h (fun e => by subst e; exact hf) hl (c.mem_refs n)
  | destroyStore r n => exact state (c := .delete r) h (fun _ => hf) hl (by simp [Pc.refs])
  | destroyFlush r n => exact state (c := .delete r) h (fun _ => hf) hl (by simp [Pc.refs])
  | removeFree n =>
    obtain rfl := Option.some.inj h
    exact ⟨hf, f.refs _ (by simp [Pc.refs]), hl.1, dead_age hl.2⟩
  | _ => cases h

theorem upper_inserts (σ : Store V) (path : Path) (n : Loc) (h : i = 0 → False) :
    (upper σ path n i).inserts = some n ∨ upper σ path n i = .ret true := by
  obtain ⟨i, rfl⟩ := Nat.exists_eq_succ_of_ne_zero h
  unfold upper
  split
  · exact Or.inl rfl
  · exact Or.inr rfl

theorem upper_inserts_inv (h : (upper σ path n i).inserts = some x) : x = n := by
  rcases upper_pending σ path n i with hp | hp
  · rw [inserts_none hp] at h
    cases h
  · obtain ⟨j, hj⟩ := inserts_iff.1 h
    exact (Prod.mk.inj (Option.some.inj (hj.symm.trans hp))).1

theorem findDone_removes (c : FindCtx) (e : Entry) (path : Path) (l : ℕ) :
    (findDone c e path l).removes = c.removes := by
  rcases l with _ | l <;> cases c <;> rfl

theorem upper_removes (σ : Store V) (path : Path) (n : Loc) (l : ℕ) :
    (upper σ path n l).removes = none := by
  unfold upper
  split <;> rfl

theorem mark_removes (n : Loc) (l : ℕ) : (mark n l).removes = none := by
  cases l <;> rfl

theorem searchDone_quiet (σ : Store V) (op : SetOp V) (e : Entry) (st : NodeState) (path : Path)
    (l : ℕ) : (searchDone σ op e st path l).inserts = none ∧
      (searchDone σ op e st path l).removes = none ∧
      searchDone σ op e st path l ≠ .ret true := by
  cases l with
  | zero =>
    cases op with
    | insert k v =>
      simp only [searchDone, afterSearch]
      split
      · split <;> exact ⟨rfl, rfl, by rintro ⟨⟩⟩
      · exact ⟨rfl, rfl, by rintro ⟨⟩⟩
    | remove k =>
      simp only [searchDone, afterSearch]
      split
      · exact ⟨rfl, rfl, by rintro ⟨⟩⟩
      · split
        · exact ⟨rfl, rfl, by rintro ⟨⟩⟩
        · refine ⟨inserts_none (mark_pending _ _), mark_removes _ _, ?_⟩
          generalize (σ.node e.succ).topLevel - 1 = l
          cases l <;> rintro ⟨⟩
    | contains k => exact ⟨rfl, rfl, by rintro ⟨⟩⟩
  | succ l => exact ⟨rfl, rfl, by rintro ⟨⟩⟩

theorem afterState_inserts_inv {c : StateCtx} {won : Bool}
    (h : (afterState σ n won c).inserts = some x) : ∃ path, c = .insert (.linked path) ∧ x = n := by
  cases c with
  | insert c =>
    cases c with
    | found => cases h
    | linked path => exact ⟨path, rfl, upper_inserts_inv h⟩
  | mark => cases h
  | delete r => cases r <;> cases h

theorem inserts_keep (f : Fit σ L op pc) (hn : next σ op slot level pc = some (σ', pc'))
    (hx : pc.inserts = some x) :
    pc'.inserts = some x ∨ (pc' = .ret true ∧ σ'.stateAt 0 x ≠ .intendToInsert) := by
  have own : ∀ {y i}, pc.pending = some (y, i) → x = y ∧ i ≠ 0 := by
    intro y i hp
    obtain ⟨j, hj⟩ := inserts_iff.1 hx
    obtain ⟨rfl, rfl⟩ := Prod.mk.inj (Option.some.inj (hj.symm.trans hp))
    exact ⟨rfl, by omega⟩
  have congr : pc'.pending = pc.pending → pc'.inserts = some x := fun h =>
    (inserts_congr h).trans hx
  have linked : ∀ {c : StateCtx} {n : Loc}, pc.pending = c.pending n →
      ∃ path, c = .insert (.linked path) ∧ x = n := by
    intro c n hp
    obtain ⟨j, hj⟩ := inserts_iff.1 hx
    rw [hp] at hj
    cases c with
    | insert c =>
      cases c with
      | found => cases hj
      | linked path => exact ⟨path, rfl, (Prod.mk.inj (Option.some.inj hj)).1.symm⟩
    | _ => cases hj
  cases act_of_next hn with
  | findSame => exact Or.inl (congr (findDone_pending _ _ _ _))
  | findWon => exact Or.inl (congr (findDone_pending _ _ _ _))
  | @stateDone c n hs =>
    obtain ⟨path, rfl, rfl⟩ := linked rfl
    rcases upper_inserts (i := 1) σ path x (by decide) with h | h
    · exact Or.inl h
    · exact Or.inr ⟨h, hs⟩
  | @stateWon c n q hq =>
    obtain ⟨path, rfl, rfl⟩ := linked rfl
    rcases upper_inserts (i := 1) σ path x (by decide) with h | h
    · exact Or.inl h
    · refine Or.inr ⟨h, ?_⟩
      rw [stateAt_setNext_self]
      rintro ⟨⟩
  | linkWon => exact absurd rfl (own rfl).2
  | lostFree => exact absurd rfl (own rfl).2
  | upperOut =>
    obtain ⟨rfl, _⟩ := own rfl
    exact Or.inr ⟨rfl, f.loc.risen⟩
  | upperFail =>
    obtain ⟨rfl, _⟩ := own rfl
    exact Or.inr ⟨rfl, f.loc.1.risen⟩
  | @upperLink path n i e he hq =>
    obtain ⟨rfl, hi⟩ := own rfl
    have hpos := f.loc.1.pos
    rcases upper_inserts (i := i + 1) σ path x (by omega) with h | h
    · exact Or.inl h
    · refine Or.inr ⟨h, ?_⟩
      rw [stateAt_setNext_other σ _ fun e => by have := (Prod.mk.inj e).2; omega]
      exact f.loc.1.risen
  | _ => first | exact Or.inl hx | cases hx

theorem inserts_new (f : Fit σ L op pc) (hn : next σ op slot level pc = some (σ', pc'))
    (hx : pc'.inserts = some x) : pc.inserts = some x ∨
      ∃ path, pc = .linkCas path x ∧ pc' = .helpStore (.linked path) x := by
  have congr : pc'.pending = pc.pending → pc.inserts = some x := fun h =>
    (inserts_congr h).symm.trans hx
  cases act_of_next hn with
  | searchStop => exact absurd ((searchDone_quiet _ _ _ _ _ _).1.symm.trans hx) nofun
  | findSame => exact Or.inl (congr (findDone_pending _ _ _ _))
  | findWon => exact Or.inl (congr (findDone_pending _ _ _ _))
  | stateDone =>
    obtain ⟨path, rfl, rfl⟩ := afterState_inserts_inv hx
    exact Or.inl rfl
  | stateWon =>
    obtain ⟨path, rfl, rfl⟩ := afterState_inserts_inv hx
    exact Or.inl rfl
  | @linkWon path n e he hq =>
    obtain rfl : n = x := Option.some.inj hx
    exact Or.inr ⟨path, rfl, rfl⟩
  | @upperLink path n i e he hq =>
    obtain ⟨i, rfl⟩ := Nat.exists_eq_add_of_le' f.loc.1.pos
    obtain rfl := upper_inserts_inv hx
    exact Or.inl rfl
  | markSkip => exact absurd ((inserts_none (mark_pending _ _)).symm.trans hx) nofun
  | markWon => exact absurd ((inserts_none (mark_pending _ _)).symm.trans hx) nofun
  | _ => first | exact Or.inl hx | cases hx

theorem afterState_removes (σ : Store V) (n : Loc) (won : Bool) (r : Bool) :
    (afterState σ n won (.delete r)).removes = (StateCtx.delete r).removes n := by
  cases r <;> rfl

theorem removes_keep (f : Fit σ L op pc) (hn : next σ op slot level pc = some (σ', pc'))
    (hx : pc.removes = some x) : pc'.removes = some x ∨ (pc' = .ret true ∧ σ.dead 0 x) := by
  cases act_of_next hn with
  | findSame => exact Or.inl ((findDone_removes _ _ _ _).trans hx)
  | findWon => exact Or.inl ((findDone_removes _ _ _ _).trans hx)
  | stateDone hs =>
    obtain ⟨rfl, rfl⟩ := StateCtx.removes_inv hx
    exact Or.inl rfl
  | stateWon hq =>
    obtain ⟨rfl, rfl⟩ := StateCtx.removes_inv hx
    exact Or.inl rfl
  | @removeFree n =>
    obtain rfl : n = x := Option.some.inj hx
    exact Or.inr ⟨rfl, f.loc.2⟩
  | _ => first | exact Or.inl hx | cases hx

theorem removes_new (hn : next σ op slot level pc = some (σ', pc')) (hx : pc'.removes = some x) :
    pc.removes = some x ∨
      ∃ q, pc = .stateCas .mark x q ∧ pc' = .destroyStore true x ∧ σ.stateAt 0 x = .inserted := by
  have upper : ∀ {σ : Store V} {path n l}, (upper σ path n l).removes = some x → False :=
    fun h => nomatch (upper_removes _ _ _ _).symm.trans h
  cases act_of_next hn with
  | searchStop => exact absurd ((searchDone_quiet _ _ _ _ _ _).2.1.symm.trans hx) nofun
  | findSame => exact Or.inl ((findDone_removes _ _ _ _).symm.trans hx)
  | findWon => exact Or.inl ((findDone_removes _ _ _ _).symm.trans hx)
  | @stateDone c n hs =>
    cases c with
    | insert c =>
      cases c with
      | found => cases hx
      | linked path => exact (upper hx).elim
    | mark => cases hx
    | delete r => exact Or.inl ((afterState_removes _ _ _ r).symm.trans hx)
  | @stateWon c n q hq =>
    cases c with
    | insert c =>
      cases c with
      | found => cases hx
      | linked path => exact (upper hx).elim
    | mark =>
      obtain rfl : n = x := Option.some.inj hx
      exact Or.inr ⟨q, rfl, rfl, congrArg Ptr.state hq⟩
    | delete r => exact Or.inl ((afterState_removes _ _ _ r).symm.trans hx)
  | upperLink => exact (upper hx).elim
  | markSkip => exact absurd ((mark_removes _ _).symm.trans hx) nofun
  | markWon => exact absurd ((mark_removes _ _).symm.trans hx) nofun
  | _ => first | exact Or.inl hx | cases hx

structure Helped (s : State V) : Prop where
  inserter : ∀ {x}, InList s.store x → s.store.stateAt 0 x = .intendToInsert →
    ∃ t op pc, s.thread t = some (op, pc) ∧ pc.inserts = some x
  remover : ∀ {x}, InList s.store x → s.store.stateAt 0 x = .intendToDelete →
    ∃ t op pc, s.thread t = some (op, pc) ∧ pc.removes = some x
  apart : ∀ {t u op op' pc pc' x}, s.thread t = some (op, pc) → s.thread u = some (op', pc') →
    pc.removes = some x → pc'.removes = some x → t = u

theorem Inv.apart_inserts (hi : Inv 1 s) {op' : SetOp V} (ht : s.thread t = some (op, pc))
    (hu : s.thread u = some (op', pc')) (hx : pc.inserts = some x) (hx' : pc'.inserts = some x) :
    t = u := hi.apart ht hu (inserts_owns hx) (inserts_owns hx')

theorem Helped.step_tau (hi : Inv 1 s) (h : Helped s) (ht : s.thread t = some (op, pc))
    (hn : next s.store op slot level pc = some (σ, pc')) :
    Helped (s.goto σ t (some (op, pc'))) := by
  have f := hi.fit ht
  have tau := tau_cases f hn
  have ht' := goto_thread_self s σ t (some (op, pc'))
  have hlive : ∀ {x}, InList s.store x → (x, 0) ∈ s.live := fun hx =>
    hi.mem.live_of_linked hx.1
  refine ⟨?_, ?_, ?_⟩
  · intro x hx hst
    change σ.stateAt 0 x = .intendToInsert at hst
    rcases tau.linked_or hi.mem f hx.1 with hl | ⟨⟨path, rfl, rfl⟩, _⟩
    · have hx0 : InList s.store x := ⟨hl, hx.2⟩
      have hst0 : s.store.stateAt 0 x = .intendToInsert := by
        rcases tau.state_or (hlive hx0) with h | ⟨c, q, _, _, _, hb⟩
        · exact h.symm.trans hst
        · rw [hb] at hst
          cases c <;> cases hst
      obtain ⟨u, op1, pc1, hu, hins⟩ := h.inserter hx0 hst0
      by_cases he : u = t
      · subst he
        obtain ⟨rfl, rfl⟩ := Prod.mk.inj (Option.some.inj (ht.symm.trans hu))
        rcases inserts_keep f hn hins with h | ⟨_, h⟩
        · exact ⟨u, op, pc', ht', h⟩
        · exact absurd hst h
      · exact ⟨u, op1, pc1, (goto_thread_other _ _ _ he).trans hu, hins⟩
    · exact ⟨t, op, _, ht', rfl⟩
  · intro x hx hst
    change σ.stateAt 0 x = .intendToDelete at hst
    rcases tau.linked_or hi.mem f hx.1 with hl | ⟨_, hnew⟩
    · have hx0 : InList s.store x := ⟨hl, hx.2⟩
      rcases tau.state_or (hlive hx0) with hsame | ⟨c, q, rfl, rfl, _, hb⟩
      · have hst0 := hsame.symm.trans hst
        obtain ⟨u, op1, pc1, hu, hrem⟩ := h.remover hx0 hst0
        by_cases he : u = t
        · subst he
          obtain ⟨rfl, rfl⟩ := Prod.mk.inj (Option.some.inj (ht.symm.trans hu))
          rcases removes_keep f hn hrem with h | ⟨_, h⟩
          · exact ⟨u, op, pc', ht', h⟩
          · exact absurd (hst0.symm.trans h) (by decide)
        · exact ⟨u, op1, pc1, (goto_thread_other _ _ _ he).trans hu, hrem⟩
      · rw [hb] at hst
        cases c with
        | mark => exact ⟨t, op, _, ht', rfl⟩
        | _ => cases hst
    · exact absurd (hnew.symm.trans hst) (by decide)
  · have old : ∀ {x}, pc'.removes = some x → ∀ {u op1 pc1}, u ≠ t →
        s.thread u = some (op1, pc1) → pc1.removes ≠ some x := by
      intro x hx u op1 pc1 he hu hx'
      rcases removes_new hn hx with hx | ⟨q, _, _, hst⟩
      · exact he (h.apart hu ht hx' hx)
      · have hage := ((hi.fit hu).removes hx').2.2.2
        rw [hst] at hage
        exact absurd hage (by decide)
    intro u w op1 op2 pc1 pc2 x hu hw hx hx'
    by_cases he : u = t <;> by_cases he' : w = t
    · rw [he, he']
    · subst he
      rw [goto_thread_self] at hu
      rw [goto_thread_other _ _ _ he'] at hw
      obtain ⟨rfl, rfl⟩ := Prod.mk.inj (Option.some.inj hu)
      exact absurd hx' (old hx he' hw)
    · subst he'
      rw [goto_thread_self] at hw
      rw [goto_thread_other _ _ _ he] at hu
      obtain ⟨rfl, rfl⟩ := Prod.mk.inj (Option.some.inj hw)
      exact absurd hx (old hx' he hu)
    · rw [goto_thread_other _ _ _ he] at hu
      rw [goto_thread_other _ _ _ he'] at hw
      exact h.apart hu hw hx hx'

theorem start_helps (op : SetOp V) : (start op).inserts = none ∧ (start op).removes = none := by
  cases op <;> exact ⟨rfl, rfl⟩

theorem Helped.step_idle (h : Helped s) (a : Option (SetOp V × Pc))
    (hold : ∀ op pc, s.thread t = some (op, pc) → pc.inserts = none ∧ pc.removes = none)
    (hnew : ∀ op pc, a = some (op, pc) → pc.inserts = none ∧ pc.removes = none) :
    Helped (s.goto s.store t a) := by
  have keep : ∀ {u op pc x}, s.thread u = some (op, pc) →
      pc.inserts = some x ∨ pc.removes = some x → (s.goto s.store t a).thread u = some (op, pc) := by
    intro u op pc x hu hx
    refine (goto_thread_other _ _ _ ?_).trans hu
    rintro rfl
    obtain ⟨h1, h2⟩ := hold op pc hu
    simp [h1, h2] at hx
  have back : ∀ {u op pc x}, (s.goto s.store t a).thread u = some (op, pc) →
      pc.removes = some x → s.thread u = some (op, pc) := by
    intro u op pc x hu hx
    refine (goto_thread_other s s.store a ?_).symm.trans hu
    rintro rfl
    rw [goto_thread_self] at hu
    exact absurd ((hnew op pc hu).2.symm.trans hx) nofun
  refine ⟨fun hx hst => ?_, fun hx hst => ?_, fun hu hw hx hx' =>
    h.apart (back hu hx) (back hw hx') hx hx'⟩
  · obtain ⟨u, op, pc, hu, hins⟩ := h.inserter hx hst
    exact ⟨u, op, pc, keep hu (Or.inl hins), hins⟩
  · obtain ⟨u, op, pc, hu, hrem⟩ := h.remover hx hst
    exact ⟨u, op, pc, keep hu (Or.inr hrem), hrem⟩

theorem Helped.step (hi : Inv 1 s) (h : Helped s) {e : Event (SetOp V)} (hs : Step s e s') :
    Helped s' := by
  cases hs with
  | call t op idle hk =>
    refine h.step_idle _ (fun op1 pc1 h => ?_) fun op1 pc1 ha => ?_
    · rw [idle] at h
      cases h
    · obtain ⟨rfl, rfl⟩ := Prod.mk.inj (Option.some.inj ha)
      exact start_helps _
  | ret t op r ht =>
    refine h.step_idle none (fun op1 pc1 h => ?_) fun _ _ h => nomatch h
    obtain ⟨rfl, rfl⟩ := Prod.mk.inj (Option.some.inj (ht.symm.trans h))
    exact ⟨rfl, rfl⟩
  | tau t op pc pc' slot level σ ht hn ha => exact h.step_tau hi ht hn

theorem initial_inList (zero : V) : ¬ InList (initial zero).store x := by
  rintro ⟨hx, hh, ht⟩
  have hx := (initial_live zero ((inv_initial zero (G := 1) (by decide) (by decide)).mem.live_of_linked
    hx)).1
  exact hx.elim hh ht

theorem helped_initial (zero : V) : Helped (initial zero) :=
  ⟨fun hx => absurd hx (initial_inList zero), fun hx => absurd hx (initial_inList zero),
    fun ht => nomatch ht⟩

theorem helped_run (ρ : Run (machine V)) (clean : Clean ρ) :
    ∀ n ≤ ρ.length, Helped (ρ.state n) := by
  refine ρ.stepwise ?_ fun m hm h => h.step (inv_run ρ clean m hm.le) (ρ.step hm)
  obtain ⟨zero, h⟩ := ρ.init
  rw [h]
  exact helped_initial zero

end SOFT.SkipList
