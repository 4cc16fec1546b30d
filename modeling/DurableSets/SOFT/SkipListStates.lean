import DurableSets.SOFT.SkipListLinearizable
import DurableSets.SOFT.SkipListSchedule

namespace SOFT.SkipList

open Chain

variable {V : Type} {σ σ' : Store V} {L L' : Set Cursor} {x n slot : Loc} {i j m G level : ℕ}
  {op : SetOp V} {pc pc' : Pc} {s s' : State V} {t : Tid} {ρ : Run (machine V)}

def State.Unlinked (s : State V) (x : Loc) : Prop :=
  ∃ t op pc, s.thread t = some (op, pc) ∧ pc.pending = some (x, 0)

theorem private_state (f : Fit σ L op pc) (hm : MemInv σ 1 L) (hp : pc.pending = some (x, 0))
    (hn : next σ op slot level pc = some (σ', pc')) :
    σ'.stateAt 0 x = σ.stateAt 0 x ∨ σ'.stateAt 0 x = .intendToInsert := by
  have hx : (x, 0) ∉ L := f.fresh _ hp
  have live : ∀ {p q} {i : ℕ}, (p, i) ∈ L →
      (σ.setNext p i q).stateAt 0 x = σ.stateAt 0 x := fun hl =>
    stateAt_setNext_other σ _ fun he => hx ((Prod.mk.inj he).1 ▸ hm.base hl)
  have data : ∀ {n a}, a.next = (σ.node n).next →
      (σ.write n a).stateAt 0 x = σ.stateAt 0 x := by
    intro n a ha
    unfold Store.stateAt
    rw [node_write]
    split
    · next he => rw [ha, he]
    · rfl
  have filled : ∀ {n i q}, (σ.setNext n i (Ptr.addr q (if i = 0 then .intendToInsert
      else .inserted))).stateAt 0 x = σ.stateAt 0 x ∨ (σ.setNext n i (Ptr.addr q (if i = 0 then
      .intendToInsert else .inserted))).stateAt 0 x = .intendToInsert := by
    intro n i q
    by_cases he : (x, 0) = (n, i)
    · obtain ⟨rfl, rfl⟩ := Prod.mk.inj he
      exact Or.inr (stateAt_setNext_self σ x 0 _)
    · exact Or.inl (stateAt_setNext_other σ _ he)
  cases act_of_next hn with
  | createStart => exact Or.inl (data rfl)
  | createKey => exact Or.inl (data rfl)
  | createValue => exact Or.inl (data rfl)
  | createTopLevel => exact Or.inl (data rfl)
  | createValidity => exact Or.inl (data rfl)
  | lostStore => exact Or.inl (data rfl)
  | helpStore => exact Or.inl (data rfl)
  | destroyStore => exact Or.inl (data rfl)
  | initNext => exact filled
  | initLast => exact filled
  | linkWon he => exact Or.inl (live (f.refs _ (Path.get_refs (i := 0) he).1))
  | @findWon c i p => exact Or.inl (live (f.refs (p, i) (by simp [Pc.refs])))
  | @stateWon c n => exact Or.inl (live (f.refs (n, 0) (c.mem_refs n)))
  | helpFlush => exact Or.inl (sameBase_flush σ _ x).state
  | destroyFlush => exact Or.inl (sameBase_flush σ _ x).state
  | upperWon => exact Or.inl (sameBase_above f.loc.1.pos x).state
  | upperLink => exact Or.inl (sameBase_above f.loc.1.pos x).state
  | markWon => exact Or.inl (sameBase_above f.loc.2 x).state
  | _ => exact Or.inl rfl

theorem pending_zero (hi : Inv G s) (ht : s.thread t = some (op, pc)) (ho : pc.owns = some x)
    (hx : (x, 0) ∉ s.live) : pc.pending = some (x, 0) := by
  obtain ⟨i, hp⟩ := pending_of_owns ho
  cases i with
  | zero => exact hp
  | succ i => exact absurd (hi.mem.base ((hi.fit ht).refs _ (base_of_pending hp))) hx

theorem aged_of_deleted {st : NodeState} (h : SOFT.Moves st .deleted) : 2 ≤ st.age := by
  cases h
  decide

section Step

variable {e : Event (SetOp V)} (hi : Inv 1 s) (clean : s.Clean s') (hs : Step s e s')

include hi clean hs

theorem Inv.frame (hx : (x, 0) ∉ s.live) (hno : ¬ s.Unlinked x) :
    s'.store.line x = s.store.line x := by
  cases hs with
  | call t op idle hk => rfl
  | ret t op r ht => rfl
  | tau t op pc pc' slot level σ ht hn ha =>
    obtain ⟨L', e, _⟩ := tau_ok hi ht (hi.tidy_one (.tau t) t op pc rfl ht) hn ha clean
    refine (e.kept hi.mem).line (fun ho => hno ⟨t, op, pc, ht, ?_⟩) hx
    exact pending_zero hi ht ho hx

theorem Inv.frame_state (hx : (x, 0) ∉ s.live) (hno : ¬ s.Unlinked x) :
    s'.store.stateAt 0 x = s.store.stateAt 0 x :=
  congrArg (fun l => (l.cur.next 0).state) (hi.frame clean hs hx hno)

theorem Inv.evolves_of (hno : ¬ s.Unlinked x) :
    Evolves (s.store.node x) (s'.store.node x) := by
  by_cases hx : (x, 0) ∈ s.live
  · exact hi.evolves clean hs hx
  · have same : s'.store.node x = s.store.node x := congrArg Line.cur (hi.frame clean hs hx hno)
    rw [same]
    exact Evolves.refl _

theorem Inv.state_or (hx : (x, 0) ∈ s.live) :
    s'.store.stateAt 0 x = s.store.stateAt 0 x ∨
      (InList s.store x ∧ SOFT.Moves (s.store.stateAt 0 x) (s'.store.stateAt 0 x)) := by
  cases hs with
  | call t op idle hk => exact Or.inl rfl
  | ret t op r ht => exact Or.inl rfl
  | tau t op pc pc' slot level σ ht hn ha =>
    have f := hi.fit ht
    refine ((tau_cases f hn).state_or hx).imp_right ?_
    rintro ⟨c, q, rfl, _, h0, h1⟩
    have ho : StateOk s.store op x c := f.loc
    refine ⟨hi.mem.inList f.key hx (fun hd => ?_) ho.rank, ?_⟩
    · have hd := h0.symm.trans hd
      cases c <;> cases hd
    · change SOFT.Moves _ (σ.stateAt 0 x)
      rw [h0, h1]
      cases c
      · exact .insert
      · exact .intend
      · exact .delete

theorem Inv.state_unlinked (hno : ¬ InList s.store x) :
    s'.store.stateAt 0 x = s.store.stateAt 0 x ∨ s'.store.stateAt 0 x = .intendToInsert := by
  by_cases hx : (x, 0) ∈ s.live
  · exact Or.inl ((hi.state_or clean hs hx).resolve_right fun h => hno h.1)
  · by_cases hu : s.Unlinked x
    · cases hs with
      | call t op idle hk => exact Or.inl rfl
      | ret t op r ht => exact Or.inl rfl
      | tau t op pc pc' slot level σ ht hn ha =>
        obtain ⟨u, op1, pc1, htu, hp⟩ := hu
        by_cases he : u = t
        · subst he
          obtain ⟨rfl, rfl⟩ := Prod.mk.inj (Option.some.inj (ht.symm.trans htu))
          exact private_state (hi.fit ht) hi.mem hp hn
        · obtain ⟨L', e, _⟩ := tau_ok hi ht (hi.tidy_one (.tau t) t op pc rfl ht) hn ha clean
          refine Or.inl (congrArg (fun l => (l.cur.next 0).state) ((e.kept hi.mem).line ?_ hx))
          exact fun ho => he (hi.apart htu ht (owns_of_pending hp) ho)
    · exact Or.inl (hi.frame_state clean hs hx hu)

theorem Inv.unlinked_step (hu : s'.Unlinked x) : s.Unlinked x ∨
    (s.store.avail x = true ∧ s'.store.avail x = false) := by
  obtain ⟨u, op1, pc1, hu, hp⟩ := hu
  by_cases he : u = e.tid
  · subst he
    cases hs with
    | call t op idle hk =>
      have hu := (goto_thread_self s s.store t _).symm.trans hu
      obtain ⟨rfl, rfl⟩ := Prod.mk.inj (Option.some.inj hu)
      rw [start_pending] at hp
      cases hp
    | ret t op r ht =>
      exact absurd ((goto_thread_self s s.store t none).symm.trans hu) nofun
    | tau t op pc pc' slot level σ ht hn ha =>
      have hu := (goto_thread_self s σ t _).symm.trans hu
      obtain ⟨rfl, rfl⟩ := Prod.mk.inj (Option.some.inj hu)
      obtain ⟨L', e, f', hown⟩ :=
        tau_ok hi ht (hi.tidy_one (.tau t) t op pc rfl ht) hn ha clean
      rcases hown x (owns_of_pending hp) with ho | ⟨hav, _⟩
      · have hx : (x, 0) ∉ s.live := fun hl => f'.fresh _ hp ((e.kept hi.mem).subset hl)
        exact Or.inl ⟨t, op, pc, ht, pending_zero hi ht ho hx⟩
      · exact Or.inr ⟨hav, f'.avail x hp⟩
  · exact Or.inl ⟨u, op1, pc1, ((machine V).step_other hs he).symm.trans hu, hp⟩

theorem Inv.marked_step (hno : ¬ s.Unlinked x)
    (hm : 2 ≤ (s.store.stateAt 0 x).age → 1 ≤ i → i < (s.store.node x).topLevel →
      s.store.dead i x)
    (hage : 2 ≤ (s'.store.stateAt 0 x).age) (h1 : 1 ≤ i) (hlt : i < (s'.store.node x).topLevel) :
    s'.store.dead i x := by
  have hi' := hi.step (hi.tidy_one e) clean hs
  have ev := hi.evolves_of clean hs hno
  by_cases hx' : (x, 0) ∈ s'.live
  · exact hi'.mem.marked hx' hage h1 hlt
  · have aged : 2 ≤ (s.store.stateAt 0 x).age := by
      by_cases hx : (x, 0) ∈ s.live
      · rcases hi.state_or clean hs hx with h | ⟨hin, h⟩
        · exact h ▸ hage
        · have hd := (hi.stays clean hs hin).resolve_left fun h =>
            hx' (hi'.mem.live_of_linked h.1)
          exact aged_of_deleted (hd ▸ h)
      · exact hi.frame_state clean hs hx hno ▸ hage
    rw [ev.topLevel] at hlt
    have hd : s.store.dead i x := hm aged h1 hlt
    exact (congrArg Ptr.state (ev.next i hd)).trans hd

end Step

section Joined

variable (ρ) in
def Joined (m : ℕ) (x : Loc) : Prop := ∃ j ≤ m, ((ρ.state j).store.level 0).Linked x

theorem Joined.mono (h : Joined ρ m x) (hm : m ≤ n) : Joined ρ n x := by
  obtain ⟨j, hj, hx⟩ := h
  exact ⟨j, hj.trans hm, hx⟩

variable (never : NeverRecycled ρ)

include never

theorem Joined.taken (h : Joined ρ m x) (hm : m ≤ ρ.length) :
    x = head ∨ x = tail ∨ Used ρ m x := by
  obtain ⟨j, hj, hx⟩ := h
  have tr := tracked_run never j (hj.trans hm)
  refine (tr.live (tr.inv.mem.live_of_linked hx)).imp_right (Or.imp_right ?_)
  rintro ⟨i, hi, ha⟩
  exact ⟨i, hi.trans_le hj, ha⟩

theorem Joined.not_allocates (h : Joined ρ m x) (hm : m < ρ.length) : ¬ Allocates ρ m x := by
  intro ha
  have tr := tracked_run never m hm.le
  have sentinel : ¬ (x = head ∨ x = tail) := by
    intro hx
    exact absurd ((tr.sentinel hx).symm.trans ha.1) nofun
  rcases h.taken never hm.le with hx | hx | ⟨j, hj, hu⟩
  · exact sentinel (Or.inl hx)
  · exact sentinel (Or.inr hx)
  · exact never x j m hj hm hu ha

theorem not_unlinked_run : ∀ m ≤ ρ.length, ∀ x, Joined ρ m x → ¬ (ρ.state m).Unlinked x := by
  refine Run.stepwise ?_ fun m hm ih => ?_
  · rintro x _ ⟨t, op, pc, ht, _⟩
    exact absurd (((machine V).init_idle ρ.init).symm.trans ht) nofun
  · rintro x ⟨j, hj, hx⟩ ⟨t, op, pc, ht, hp⟩
    have clean := clean_of_neverRecycled never
    have hi := inv_run ρ clean (m + 1) hm
    have hfresh := (hi.fit ht).fresh _ hp
    have joined : Joined ρ m x := by
      rcases Nat.lt_or_eq_of_le hj with hj | rfl
      · exact ⟨j, Nat.lt_succ_iff.1 hj, hx⟩
      · exact absurd (hi.mem.live_of_linked hx) hfresh
    rcases (inv_run ρ clean m hm.le).unlinked_step (clean m hm) (ρ.step hm) ⟨t, op, pc, ht, hp⟩ with
      hu | ha
    · exact ih x joined hu
    · exact joined.not_allocates never hm ha

theorem Joined.evolves (h : Joined ρ m x) (hm : m < ρ.length) :
    Evolves ((ρ.state m).store.node x) ((ρ.state (m + 1)).store.node x) :=
  have clean := clean_of_neverRecycled never
  (inv_run ρ clean m hm.le).evolves_of (clean m hm) (ρ.step hm)
    (not_unlinked_run never m hm.le x h)

theorem Joined.state_or (h : Joined ρ m x) (hm : m < ρ.length) :
    stateAt ρ (m + 1) x = stateAt ρ m x ∨ SOFT.Moves (stateAt ρ m x) (stateAt ρ (m + 1) x) :=
  (h.evolves never hm).age.imp_right moves_of_age

end Joined

variable (ρ) in
structure StatesMove : Prop where
  sentinels : ∀ {m}, m ≤ ρ.length → stateAt ρ m head = .inserted ∧ stateAt ρ m tail = .inserted
  -- a slot that was never linked is not moved on, and newNode is in INTEND_TO_INSERT when it is
  before : ∀ {m x}, m < ρ.length → ¬ Joined ρ (m + 1) x →
    stateAt ρ (m + 1) x = stateAt ρ m x ∨ stateAt ρ (m + 1) x = .intendToInsert
  first : ∀ {m x}, m < ρ.length → ¬ Joined ρ m x → Joined ρ (m + 1) x →
    stateAt ρ (m + 1) x = .intendToInsert
  move : ∀ {m x}, m < ρ.length → Joined ρ m x →
    stateAt ρ (m + 1) x = stateAt ρ m x ∨ SOFT.Moves (stateAt ρ m x) (stateAt ρ (m + 1) x)
  upper : ∀ {m x i}, m ≤ ρ.length → 1 ≤ i →
    (ρ.state m).store.stateAt i x = .inserted ∨ (ρ.state m).store.stateAt i x = .deleted
  marked : ∀ {m x i}, m ≤ ρ.length →
    stateAt ρ m x = .intendToDelete ∨ stateAt ρ m x = .deleted → 1 ≤ i →
    i < ((ρ.state m).store.node x).topLevel → (ρ.state m).store.stateAt i x = .deleted

theorem before_run (clean : Clean ρ) (hm : m < ρ.length) (hno : ¬ Joined ρ (m + 1) x) :
    stateAt ρ (m + 1) x = stateAt ρ m x ∨ stateAt ρ (m + 1) x = .intendToInsert :=
  (inv_run ρ clean m hm.le).state_unlinked (clean m hm) (ρ.step hm) fun h =>
    hno ⟨m, Nat.le_add_right m 1, h.1⟩

theorem first_run (clean : Clean ρ) (hm : m < ρ.length) (hno : ¬ Joined ρ m x)
    (hj : Joined ρ (m + 1) x) : stateAt ρ (m + 1) x = .intendToInsert := by
  obtain ⟨j, hj, hx⟩ := hj
  rcases Nat.lt_or_eq_of_le hj with hj | rfl
  · exact absurd ⟨j, Nat.lt_succ_iff.1 hj, hx⟩ hno
  · exact ((inv_run ρ clean m hm.le).linked_step (ρ.step hm) hx).resolve_left fun h =>
      hno ⟨m, le_rfl, h⟩

theorem marked_run (never : NeverRecycled ρ) : ∀ m ≤ ρ.length, ∀ x,
    2 ≤ (stateAt ρ m x).age → Joined ρ m x ∧ ∀ i, 1 ≤ i →
      i < ((ρ.state m).store.node x).topLevel → (ρ.state m).store.dead i x := by
  have clean := clean_of_neverRecycled never
  refine Run.stepwise ?_ fun m hm ih => ?_
  · intro x hx
    obtain ⟨zero, h⟩ := ρ.init
    unfold stateAt at hx
    rw [h] at hx
    change 2 ≤ ((initialStore zero).stateAt 0 x).age at hx
    rw [initial_state] at hx
    exact absurd hx (by decide)
  · intro x hx
    by_cases hj : Joined ρ m x
    · refine ⟨hj.mono (Nat.le_add_right m 1), fun i h1 hlt => ?_⟩
      exact (inv_run ρ clean m hm.le).marked_step (clean m hm) (ρ.step hm)
        (not_unlinked_run never m hm.le x hj) (fun h => (ih x h).2 i) hx h1 hlt
    · exfalso
      have young : stateAt ρ (m + 1) x ≠ .intendToInsert := by
        intro h
        rw [h] at hx
        exact absurd hx (by decide)
      by_cases hj' : Joined ρ (m + 1) x
      · exact young (first_run clean hm hj hj')
      · have same := (before_run clean hm hj').resolve_right young
        exact hj (ih x (same ▸ hx)).1

theorem states_move (never : NeverRecycled ρ) : StatesMove ρ where
  sentinels {m} hm := by
    have hi := (inv_run ρ (clean_of_neverRecycled never) m hm).mem
    exact ⟨hi.head_state 0, congrArg Ptr.state (hi.tail_next 0)⟩
  before := before_run (clean_of_neverRecycled never)
  first := first_run (clean_of_neverRecycled never)
  move hm hj := hj.state_or never hm
  upper hm h1 := (inv_run ρ (clean_of_neverRecycled never) _ hm).mem.upper h1
  marked {m x i} hm hs := (marked_run never m hm x (by rcases hs with h | h <;> rw [h] <;> decide)).2 i

theorem softSkipList_linearizable (ρ : Run (machine V)) (never : NeverRecycled ρ) :
    ρ.Linearizable State.abs ∧ StatesMove ρ :=
  ⟨linearizable_run ρ (clean_of_neverRecycled never), states_move never⟩

def insertContains : List (Command ℕ) :=
  [[.call 0 (.insert 5 0)], steps 0 42, [.alloc 0 2 2], steps 0 16, [.ret 0, .call 0 (.contains 5)],
    steps 0 40, [.ret 0]].flatten

theorem softSkipList_linearizable_insert : ∃ ρ : Run (machine ℕ),
    (ρ.state 102).thread 0 = some (.contains 5, .ret true) ∧
      ρ.Linearizable State.abs ∧ StatesMove ρ := by
  obtain ⟨ρ, hρ, _⟩ := exists_play 0 exec (fun h => h) insertContains (by decide +kernel)
  have never : NeverRecycled ρ := neverRecycled_of_plays (fun h => h) hρ (by decide +kernel)
  have found := hρ.holds 102 (P := fun s =>
    s.thread 0 = some (.contains 5, .ret true)) (by decide +kernel)
  exact ⟨ρ, of_decide_eq_true found, softSkipList_linearizable ρ never⟩

end SOFT.SkipList
