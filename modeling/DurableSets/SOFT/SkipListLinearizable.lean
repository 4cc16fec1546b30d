import DurableSets.SOFT.SkipListHelp

namespace SOFT.SkipList

open Chain

variable {V : Type} {σ σ' : Store V} {L L' : Set Cursor} {x y p n c d slot : Loc}
  {i j l m G level : ℕ} {op : SetOp V} {pc pc' : Pc} {path : Path} {q : Ptr} {k : ℤ}
  {st : NodeState} {s s' : State V} {t u : Tid} {ρ : Run (machine V)}

def Added (op : SetOp V) (pc : Pc) : Prop := op.IsInsert ∧ pc = .ret true

def Erasing (op : SetOp V) (pc : Pc) : Prop := op.IsRemove ∧ pc = .ret true

-- its node has gone on from the state that the call gave it
def Took (σ : Store V) (op : SetOp V) (pc : Pc) : Prop :=
  (∃ x, pc.inserts = some x ∧ σ.stateAt 0 x ≠ .intendToInsert) ∨
    (∃ x, pc.removes = some x ∧ σ.stateAt 0 x = .deleted) ∨ Added op pc ∨ Erasing op pc

theorem insert_not_remove (h : op.IsInsert) (h' : op.IsRemove) : False := by
  cases op with
  | remove k => exact h
  | _ => exact h'

theorem took_inserts (hm : MemInv σ G L) (f : Fit σ L op pc) (h : pc.inserts = some x) :
    Took σ op pc ↔ σ.stateAt 0 x ≠ .intendToInsert := by
  constructor
  · rintro (⟨y, hy, hs⟩ | ⟨y, hy, _⟩ | h' | h')
    · obtain rfl := Option.some.inj (h.symm.trans hy)
      exact hs
    · exact (insert_not_remove (f.inserts hm h).1 (f.removes hy).1).elim
    · rw [h'.2] at h
      cases h
    · rw [h'.2] at h
      cases h
  · exact fun hs => Or.inl ⟨x, h, hs⟩

theorem took_removes (hm : MemInv σ G L) (f : Fit σ L op pc) (h : pc.removes = some x) :
    Took σ op pc ↔ σ.stateAt 0 x = .deleted := by
  constructor
  · rintro (⟨y, hy, _⟩ | ⟨y, hy, hs⟩ | h' | h')
    · exact (insert_not_remove (f.inserts hm hy).1 (f.removes h).1).elim
    · obtain rfl := Option.some.inj (h.symm.trans hy)
      exact hs
    · rw [h'.2] at h
      cases h
    · rw [h'.2] at h
      cases h
  · exact fun hs => Or.inr (Or.inl ⟨x, h, hs⟩)

theorem took_none (h : pc.inserts = none) (h' : pc.removes = none) :
    Took σ op pc ↔ Added op pc ∨ Erasing op pc := by
  unfold Took
  rw [h, h']
  simp

theorem took_congr (hsi : ∀ x, pc.inserts = some x → (σ'.stateAt 0 x = .intendToInsert ↔
      σ.stateAt 0 x = .intendToInsert))
    (hsr : ∀ x, pc.removes = some x → (σ'.stateAt 0 x = .deleted ↔ σ.stateAt 0 x = .deleted)) :
    Took σ' op pc ↔ Took σ op pc := by
  unfold Took
  refine or_congr (exists_congr fun x => and_congr_right fun hx => not_congr (hsi x hx)) ?_
  exact or_congr (exists_congr fun x => and_congr_right fun hx => hsr x hx) Iff.rfl

def State.done (s : State V) (t : Tid) : Prop :=
  ∃ op pc, s.thread t = some (op, pc) ∧ Took s.store op pc

theorem done_iff (ht : s.thread t = some (op, pc)) : s.done t ↔ Took s.store op pc := by
  constructor
  · rintro ⟨op1, pc1, h, hd⟩
    obtain ⟨rfl, rfl⟩ := Prod.mk.inj (Option.some.inj (ht.symm.trans h))
    exact hd
  · exact fun hd => ⟨op, pc, ht, hd⟩

-- what the set depends on: which nodes have left INTEND_TO_INSERT and which have come to DELETED
def Quiet (s s' : State V) (x : Loc) : Prop :=
  (s'.store.stateAt 0 x = .intendToInsert ↔ s.store.stateAt 0 x = .intendToInsert) ∧
  (s'.store.stateAt 0 x = .deleted ↔ s.store.stateAt 0 x = .deleted)

theorem quiet_of_eq (h : s'.store.stateAt 0 x = s.store.stateAt 0 x) : Quiet s s' x := by
  unfold Quiet
  rw [h]
  exact ⟨Iff.rfl, Iff.rfl⟩

theorem Inv.stays (hi : Inv 1 s) {e : Event (SetOp V)} (clean : s.Clean s') (hs : Step s e s')
    (hx : InList s.store x) : InList s'.store x ∨ s'.store.stateAt 0 x = .deleted :=
  ((hi.base_change clean hs).stays hi.mem.good hx.1).imp_left fun h => ⟨h, hx.2⟩

theorem Inv.linked_step (hi : Inv 1 s) {e : Event (SetOp V)} (hs : Step s e s')
    (hx : (s'.store.level 0).Linked x) :
    (s.store.level 0).Linked x ∨ s'.store.stateAt 0 x = .intendToInsert := by
  cases hs with
  | call t op idle hk => exact Or.inl hx
  | ret t op r ht => exact Or.inl hx
  | tau t op pc pc' slot level σ ht hn ha =>
    have f := hi.fit ht
    exact ((tau_cases f hn).linked_or hi.mem f hx).imp_right fun h => h.2

theorem Inv.joins (hi : Inv 1 s) {e : Event (SetOp V)} (hs : Step s e s')
    (hx : InList s'.store x) : InList s.store x ∨ s'.store.stateAt 0 x = .intendToInsert :=
  (hi.linked_step hs hx.1).imp_left fun h => ⟨h, hx.2⟩

theorem mem_abs_step (hi : Inv 1 s) {e : Event (SetOp V)} (clean : s.Clean s')
    (hs : Step s e s') : k ∈ s'.abs ↔ ∃ x, InList s.store x ∧
      (s'.store.stateAt 0 x ≠ .intendToInsert ∧ s'.store.stateAt 0 x ≠ .deleted) ∧
      (s.store.node x).key = k := by
  have hev : ∀ {x}, InList s.store x → Evolves (s.store.node x) (s'.store.node x) :=
    fun hx => hi.evolves clean hs (hi.mem.live_of_linked hx.1)
  rw [mem_abs]
  constructor
  · rintro ⟨x, hx, hv, hk⟩
    have hx := (hi.joins hs hx).resolve_right hv.1
    exact ⟨x, hx, hv, (hev hx).key.symm.trans hk⟩
  · rintro ⟨x, hx, hv, hk⟩
    exact ⟨x, (hi.stays clean hs hx).resolve_right hv.2, hv, (hev hx).key.trans hk⟩

theorem abs_quiet (hi : Inv 1 s) {e : Event (SetOp V)} (clean : s.Clean s') (hs : Step s e s')
    (h : ∀ x, InList s.store x → Quiet s s' x) : s'.abs = s.abs := by
  ext k
  rw [mem_abs_step hi clean hs, mem_abs]
  refine exists_congr fun x => and_congr_right fun hx => and_congr_left fun _ => ?_
  rw [ne_eq, ne_eq, (h x hx).1, (h x hx).2]

theorem abs_inserted (hi : Inv 1 s) {e : Event (SetOp V)} (clean : s.Clean s')
    (hs : Step s e s') (hx : InList s.store x)
    (h0 : s.store.stateAt 0 x = .intendToInsert) (h1 : s'.store.stateAt 0 x = .inserted)
    (h : ∀ y, InList s.store y → y ≠ x → Quiet s s' y) :
    (s.store.node x).key ∉ s.abs ∧ s'.abs = insert (s.store.node x).key s.abs := by
  refine ⟨hi.not_mem_abs hx (rank_inList hx) (Or.inl h0), ?_⟩
  ext k
  rw [mem_abs_step hi clean hs, Set.mem_insert_iff, mem_abs]
  constructor
  · rintro ⟨y, hy, hv, hk⟩
    by_cases he : y = x
    · exact Or.inl (he ▸ hk.symm)
    · have hq := h y hy he
      exact Or.inr ⟨y, hy, ⟨fun h => hv.1 (hq.1.2 h), fun h => hv.2 (hq.2.2 h)⟩, hk⟩
  · rintro (rfl | ⟨y, hy, hv, hk⟩)
    · refine ⟨x, hx, ?_, rfl⟩
      rw [h1]
      decide
    · have hq := h y hy fun he => hv.1 (he ▸ h0)
      exact ⟨y, hy, ⟨fun h => hv.1 (hq.1.1 h), fun h => hv.2 (hq.2.1 h)⟩, hk⟩

theorem abs_deleted (hi : Inv 1 s) {e : Event (SetOp V)} (clean : s.Clean s')
    (hs : Step s e s') (hx : InList s.store x)
    (h0 : s.store.stateAt 0 x = .intendToDelete) (h1 : s'.store.stateAt 0 x = .deleted)
    (h : ∀ y, InList s.store y → y ≠ x → Quiet s s' y) :
    (s.store.node x).key ∈ s.abs ∧ s'.abs = s.abs \ {(s.store.node x).key} := by
  refine ⟨mem_abs.2 ⟨x, hx, ?_, rfl⟩, ?_⟩
  · rw [h0]
    decide
  · ext k
    rw [mem_abs_step hi clean hs, Set.mem_sdiff, Set.mem_singleton_iff, mem_abs]
    constructor
    · rintro ⟨y, hy, hv, hk⟩
      have hne : y ≠ x := fun he => hv.2 (he ▸ h1)
      have hq := h y hy hne
      refine ⟨⟨y, hy, ⟨fun h => hv.1 (hq.1.2 h), fun h => hv.2 (hq.2.2 h)⟩, hk⟩, fun he => hne ?_⟩
      exact hi.eq_of_key hy hx (hk.trans he)
    · rintro ⟨⟨y, hy, hv, hk⟩, hne⟩
      have hq := h y hy fun he => hne (he ▸ hk.symm)
      exact ⟨y, hy, ⟨fun h => hv.1 (hq.1.1 h), fun h => hv.2 (hq.2.1 h)⟩, hk⟩

theorem next_not_ret {r : Bool} (hn : next σ op slot level pc = some (σ', pc')) : pc ≠ .ret r := by
  rintro rfl
  cases hn

theorem ret_true (f : Fit σ L op pc) (hn : next σ op slot level pc = some (σ', pc'))
    (h : pc' = .ret true) : (∃ x, pc.inserts = some x) ∨ (∃ x, pc.removes = some x) ∨
      op.IsContains := by
  have upper : ∀ path {n i}, 1 ≤ i → (Pc.upperLoad path n i).inserts = some n := by
    intro path n i hi
    obtain ⟨i, rfl⟩ := Nat.exists_eq_add_of_le' hi
    rfl
  have state : ∀ {c : StateCtx} {n : Loc} {won : Bool}, afterState σ n won c = .ret true →
      ∃ path, c = .insert (.linked path) := by
    intro c n won h
    cases c with
    | insert c =>
      cases c with
      | found => cases h
      | linked path => exact ⟨path, rfl⟩
    | mark => cases h
    | delete r => cases r <;> cases h
  have find : ∀ {c : FindCtx} {e : Entry} {path l}, findDone c e path l ≠ .ret true := by
    intro c e path l
    rcases l with _ | l <;> cases c <;> rintro ⟨⟩
  have marked : ∀ {n l}, mark n l ≠ .ret true := by
    intro n l
    cases l <;> rintro ⟨⟩
  cases act_of_next hn with
  | searchStop => exact absurd h (searchDone_quiet _ _ _ _ _ _).2.2
  | findSame => exact absurd h find
  | findWon => exact absurd h find
  | @stateDone c n hs =>
    obtain ⟨path, rfl⟩ := state h
    exact Or.inl ⟨n, rfl⟩
  | @stateWon c n q hq =>
    obtain ⟨path, rfl⟩ := state h
    exact Or.inl ⟨n, rfl⟩
  | @upperOut path n i out => exact Or.inl ⟨n, upper path f.loc.pos⟩
  | @upperFail path n i q e he hq => exact Or.inl ⟨n, upper path f.loc.1.pos⟩
  | @upperLink path n i e he hq => exact Or.inl ⟨n, upper path f.loc.1.pos⟩
  | markSkip => exact absurd h marked
  | markWon => exact absurd h marked
  | @removeFree n => exact Or.inr (Or.inl ⟨n, rfl⟩)
  | containsFound => exact Or.inr (Or.inr f.fits)
  | _ => cases h

theorem linked_state (hm : MemInv σ 1 L) (f : Fit σ L op (.linkCas path n))
    (hn : next σ op slot level (.linkCas path n) = some (σ', .helpStore (.linked path) n)) :
    σ'.stateAt 0 n = .intendToInsert := by
  obtain ⟨e, he, hr⟩ := Option.map_eq_some_iff.1 hn
  split at hr
  · next hq =>
    obtain ⟨rfl, _⟩ := Prod.mk.inj hr
    exact (link_splice hm f he hq).2
  · cases (Prod.mk.inj hr).2

theorem done_other {e : Event (SetOp V)} (hs : Step s e s') (he : u ≠ e.tid)
    (hsi : ∀ {op pc x}, s.thread u = some (op, pc) → pc.inserts = some x →
      (s'.store.stateAt 0 x = .intendToInsert ↔ s.store.stateAt 0 x = .intendToInsert))
    (hsr : ∀ {op pc x}, s.thread u = some (op, pc) → pc.removes = some x →
      (s'.store.stateAt 0 x = .deleted ↔ s.store.stateAt 0 x = .deleted))
    (hu : s.thread u = some (op, pc)) (hu' : s'.thread u = some (op, pc')) :
    s'.done u ↔ s.done u := by
  have hsame := ((machine V).step_other hs he).symm.trans hu'
  obtain ⟨_, rfl⟩ := Prod.mk.inj (Option.some.inj (hu.symm.trans hsame))
  rw [done_iff hu, done_iff hu']
  exact took_congr (fun x hx => hsi hu hx) fun x hx => hsr hu hx

theorem oneEffect_quiet {e : Event (SetOp V)} (hi : Inv 1 s) (clean : s.Clean s')
    (hs : Step s e s') (h : ∀ x, (x, 0) ∈ s.live → Quiet s s' x)
    (hown : ∀ op pc pc', s.thread e.tid = some (op, pc) → s'.thread e.tid = some (op, pc') →
      (Took s'.store op pc' ↔ Took s.store op pc)) :
    Run.OneEffect (machine V) State.abs State.done s s' := by
  have habs := abs_quiet hi clean hs fun x hx => h x (hi.mem.live_of_linked hx.1)
  refine Or.inl ⟨habs, fun u op pc pc' hu hu' => ?_⟩
  by_cases he : u = e.tid
  · subst he
    have hu : s.thread e.tid = some (op, pc) := hu
    have hu' : s'.thread e.tid = some (op, pc') := hu'
    rw [done_iff hu, done_iff hu']
    exact hown op pc pc' hu hu'
  · exact done_other hs he (fun hu hx => (h _ ((hi.fit hu).inserts hi.mem hx).2.1).1)
      (fun hu hx => (h _ ((hi.fit hu).removes hx).2.1).2) hu hu'

theorem took_own (hi : Inv 1 s) (clean : s.Clean s') (hs : Step s (.tau t) s')
    (ht : s.thread t = some (op, pc)) (ht' : s'.thread t = some (op, pc'))
    (h : ∀ x, (x, 0) ∈ s.live → Quiet s s' x) : Took s'.store op pc' ↔ Took s.store op pc := by
  have hi' := hi.step (hi.tidy_one _) clean hs
  obtain ⟨slot, level, σ, hn, _, he⟩ := tau_inv hs ht ht'
  have hσ : s'.store = σ := by rw [he]; rfl
  have f := hi.fit ht
  have f' := hi'.fit ht'
  cases hins : pc.inserts with
  | some x =>
    have hq := h x (f.inserts hi.mem hins).2.1
    rw [took_inserts hi.mem f hins]
    rcases inserts_keep f hn hins with h' | ⟨rfl, hst⟩
    · rw [took_inserts hi'.mem f' h']
      exact not_congr hq.1
    · rw [← hσ] at hst
      exact iff_of_true (Or.inr (Or.inr (Or.inl ⟨(f.inserts hi.mem hins).1, rfl⟩)))
        ((not_congr hq.1).1 hst)
  | none =>
    cases hrem : pc.removes with
    | some x =>
      have hq := h x (f.removes hrem).2.1
      rw [took_removes hi.mem f hrem]
      rcases removes_keep f hn hrem with h' | ⟨rfl, hst⟩
      · rw [took_removes hi'.mem f' h']
        exact hq.2
      · exact iff_of_true (Or.inr (Or.inr (Or.inr ⟨(f.removes hrem).1, rfl⟩))) hst
    | none =>
      rw [took_none hins hrem]
      have noRet : pc' = .ret true → op.IsContains := by
        intro hr
        rcases ret_true f hn hr with ⟨x, hx⟩ | ⟨x, hx⟩ | h
        · exact absurd (hins.symm.trans hx) nofun
        · exact absurd (hrem.symm.trans hx) nofun
        · exact h
      refine iff_of_false ?_ ?_
      · rintro (⟨x, hx, hst⟩ | ⟨x, hx, hst⟩ | ⟨hop, hr⟩ | ⟨hop, hr⟩)
        · rcases inserts_new f hn hx with hx' | ⟨path, rfl, rfl⟩
          · exact absurd (hins.symm.trans hx') nofun
          · exact hst (hσ ▸ linked_state hi.mem f hn)
        · rcases removes_new hn hx with hx' | ⟨q, rfl, rfl, hst0⟩
          · exact absurd (hrem.symm.trans hx') nofun
          · have hl : (x, 0) ∈ s.live := (f.refs (x, 0) (by simp [Pc.refs, StateCtx.refs]))
            exact absurd (hst0.symm.trans ((h x hl).2.1 hst)) (by decide)
        · exact not_contains_of_insert hop (noRet hr)
        · exact not_contains_of_remove hop (noRet hr)
      · rintro (h' | h') <;> exact next_not_ret hn h'.2

theorem oneEffect_moved (hs : Step s (.tau t) s') {op' : SetOp V} {pc1 pc1' : Pc}
    (hu : s.thread u = some (op', pc1)) (hu' : s'.thread u = some (op', pc1'))
    (h0 : ¬ Took s.store op' pc1) (h1 : Took s'.store op' pc1') (he : op'.Effect s.abs s'.abs)
    (hsi : ∀ {v op pc x}, v ≠ u → s.thread v = some (op, pc) → pc.inserts = some x →
      (s'.store.stateAt 0 x = .intendToInsert ↔ s.store.stateAt 0 x = .intendToInsert))
    (hsr : ∀ {v op pc x}, v ≠ u → s.thread v = some (op, pc) → pc.removes = some x →
      (s'.store.stateAt 0 x = .deleted ↔ s.store.stateAt 0 x = .deleted))
    (hown : t ≠ u → ∀ op pc pc', s.thread t = some (op, pc) → s'.thread t = some (op, pc') →
      (Took s'.store op pc' ↔ Took s.store op pc)) :
    Run.OneEffect (machine V) State.abs State.done s s' := by
  refine Or.inr ⟨u, op', pc1, pc1', hu, hu', ?_, ?_, he, fun v op pc pc' hne hv hv' => ?_⟩
  · rw [done_iff hu]
    exact h0
  · rw [done_iff hu']
    exact h1
  · by_cases hvt : v = t
    · subst hvt
      have hv : s.thread v = some (op, pc) := hv
      have hv' : s'.thread v = some (op, pc') := hv'
      rw [done_iff hv, done_iff hv']
      exact hown hne op pc pc' hv hv'
    · exact done_other hs hvt (fun hv hx => hsi hne hv hx) (fun hv hx => hsr hne hv hx) hv hv'

theorem other_pc (hs : Step s (.tau t) s') (ht : s.thread t = some (op, pc))
    (ht' : s'.thread t = some (op, pc')) {v : Tid} {op1 : SetOp V} {qc : Pc}
    (hv : s.thread v = some (op1, qc)) :
    ∃ qc', s'.thread v = some (op1, qc') ∧ (v ≠ t → qc' = qc) ∧ (v = t → qc = pc ∧ qc' = pc') := by
  by_cases he : v = t
  · subst he
    obtain ⟨rfl, rfl⟩ := Prod.mk.inj (Option.some.inj (ht.symm.trans hv))
    exact ⟨pc', ht', fun h => absurd rfl h, fun _ => ⟨rfl, rfl⟩⟩
  · exact ⟨qc, ((machine V).step_other hs he).trans hv, fun _ => rfl, fun h => absurd h he⟩

section Moved

variable (hi : Inv 1 s) (clean : s.Clean s') (hh : Helped s) (hs : Step s (.tau t) s')
  (hq : ∀ y, (y, 0) ∈ s.live → y ≠ n → Quiet s s' y)

include hi clean hh hs hq

theorem oneEffect_insert {c : InsertCtx}
    (ht : s.thread t = some (op, .stateCas (.insert c) n q))
    (ht' : s'.thread t = some (op, afterState s.store n true (.insert c)))
    (h0 : s.store.stateAt 0 n = .intendToInsert) (h1 : s'.store.stateAt 0 n = .inserted) :
    Run.OneEffect (machine V) State.abs State.done s s' := by
  have hi' := hi.step (hi.tidy_one _) clean hs
  obtain ⟨slot, level, σ, hn, _, he⟩ := tau_inv hs ht ht'
  have f := hi.fit ht
  have ho : StateOk s.store op n (.insert c) := f.loc
  have hnl : (n, 0) ∈ s.live := f.refs _ ((StateCtx.insert c).mem_refs n)
  have hin : InList s.store n := by
    refine hi.mem.inList f.key hnl (fun hd => ?_) ho.rank
    exact absurd (h0.symm.trans hd) (by decide)
  obtain ⟨u, op', pc1, hu, hins⟩ := hh.inserter hin h0
  obtain ⟨pc1', hu', hne, heq⟩ := other_pc hs ht ht' hu
  have fu := hi.fit hu
  obtain ⟨hop, _, hrank⟩ := fu.inserts hi.mem hins
  obtain ⟨hno, habs⟩ := abs_inserted hi clean hs hin h0 h1 fun y hy hne =>
    hq y (hi.mem.live_of_linked hy.1) hne
  have took : Took s'.store op' pc1' := by
    have keep : pc1'.inserts = some n ∨ pc1' = .ret true := by
      by_cases hut : u = t
      · obtain ⟨rfl, rfl⟩ := heq hut
        exact (inserts_keep f hn hins).imp_right fun h => h.1
      · rw [hne hut]
        exact Or.inl hins
    rcases keep with h | rfl
    · rw [took_inserts hi'.mem (hi'.fit hu') h, h1]
      decide
    · exact Or.inr (Or.inr (Or.inl ⟨hop, rfl⟩))
  refine oneEffect_moved hs hu hu' ?_ took ?_ ?_ ?_ ?_
  · rw [took_inserts hi.mem fu hins]
    exact not_not.2 h0
  · rw [key_of_rank hrank] at hno habs
    cases op' with
    | insert k v => exact ⟨hno, habs⟩
    | _ => exact hop.elim
  · intro v op1 qc x hvu hv hx
    refine (hq x ((hi.fit hv).inserts hi.mem hx).2.1 ?_).1
    rintro rfl
    exact hvu (hi.apart_inserts hv hu hx hins)
  · intro v op1 qc x hvu hv hx
    refine (hq x ((hi.fit hv).removes hx).2.1 ?_).2
    rintro rfl
    have hage := ((hi.fit hv).removes hx).2.2.2
    rw [h0] at hage
    exact absurd hage (by decide)
  · intro htu op1 qc qc' hv hv'
    obtain ⟨rfl, rfl⟩ := Prod.mk.inj (Option.some.inj (ht.symm.trans hv))
    obtain ⟨_, rfl⟩ := Prod.mk.inj (Option.some.inj (ht'.symm.trans hv'))
    cases c with
    | found =>
      rw [took_none rfl rfl, took_none rfl rfl]
      refine iff_of_false ?_ ?_ <;> rintro (h | h) <;> cases h.2
    | linked path => exact absurd (hi.apart_inserts ht hu rfl hins) htu

theorem oneEffect_delete {r : Bool}
    (ht : s.thread t = some (op, .stateCas (.delete r) n q))
    (ht' : s'.thread t = some (op, afterState s.store n true (.delete r)))
    (h0 : s.store.stateAt 0 n = .intendToDelete) (h1 : s'.store.stateAt 0 n = .deleted) :
    Run.OneEffect (machine V) State.abs State.done s s' := by
  have hi' := hi.step (hi.tidy_one _) clean hs
  obtain ⟨slot, level, σ, hn, _, he⟩ := tau_inv hs ht ht'
  have f := hi.fit ht
  have ho : StateOk s.store op n (.delete r) := f.loc
  have hnl : (n, 0) ∈ s.live := f.refs _ ((StateCtx.delete r).mem_refs n)
  have hin : InList s.store n := by
    refine hi.mem.inList f.key hnl (fun hd => ?_) ho.rank
    exact absurd (h0.symm.trans hd) (by decide)
  obtain ⟨u, op', pc1, hu, hrem⟩ := hh.remover hin h0
  obtain ⟨pc1', hu', hne, heq⟩ := other_pc hs ht ht' hu
  have fu := hi.fit hu
  obtain ⟨hop, _, hrank, _⟩ := fu.removes hrem
  obtain ⟨hno, habs⟩ := abs_deleted hi clean hs hin h0 h1 fun y hy hne =>
    hq y (hi.mem.live_of_linked hy.1) hne
  have took : Took s'.store op' pc1' := by
    have keep : pc1'.removes = some n ∨ pc1' = .ret true := by
      by_cases hut : u = t
      · obtain ⟨rfl, rfl⟩ := heq hut
        exact (removes_keep f hn hrem).imp_right fun h => h.1
      · rw [hne hut]
        exact Or.inl hrem
    rcases keep with h | rfl
    · rw [took_removes hi'.mem (hi'.fit hu') h]
      exact h1
    · exact Or.inr (Or.inr (Or.inr ⟨hop, rfl⟩))
  refine oneEffect_moved hs hu hu' ?_ took ?_ ?_ ?_ ?_
  · rw [took_removes hi.mem fu hrem, h0]
    decide
  · rw [key_of_rank hrank] at hno habs
    cases op' with
    | remove k => exact ⟨hno, habs⟩
    | _ => exact hop.elim
  · intro v op1 qc x hvu hv hx
    by_cases he : x = n
    · subst he
      rw [h0, h1]
      decide
    · exact (hq x ((hi.fit hv).inserts hi.mem hx).2.1 he).1
  · intro v op1 qc x hvu hv hx
    refine (hq x ((hi.fit hv).removes hx).2.1 ?_).2
    rintro rfl
    exact hvu (hh.apart hv hu hx hrem)
  · intro htu op1 qc qc' hv hv'
    obtain ⟨rfl, rfl⟩ := Prod.mk.inj (Option.some.inj (ht.symm.trans hv))
    obtain ⟨_, rfl⟩ := Prod.mk.inj (Option.some.inj (ht'.symm.trans hv'))
    cases r with
    | false =>
      rw [took_none rfl rfl, took_none rfl rfl]
      refine iff_of_false ?_ ?_ <;> rintro (h | h) <;> cases h.2
    | true => exact absurd (hh.apart ht hu rfl hrem) htu

end Moved

theorem start_took : ¬ Took σ op (start op) := by
  rw [took_none (start_helps op).1 (start_helps op).2]
  rintro (h | h) <;> cases op <;> cases h.2

theorem oneEffect_step {e : Event (SetOp V)} (hi : Inv 1 s) (clean : s.Clean s') (hh : Helped s)
    (hs : Step s e s') : Run.OneEffect (machine V) State.abs State.done s s' := by
  have same : s'.store = s.store → ∀ x, (x, 0) ∈ s.live → Quiet s s' x := by
    intro h x _
    refine quiet_of_eq ?_
    rw [h]
  have hs' := hs
  cases hs with
  | call t op idle hk =>
    refine oneEffect_quiet hi clean hs' (same rfl) fun op1 pc1 pc2 h => ?_
    exact absurd (idle.symm.trans h) nofun
  | ret t op r ht =>
    refine oneEffect_quiet hi clean hs' (same rfl) fun op1 pc1 pc2 _ h => ?_
    exact absurd ((goto_thread_self s s.store t none).symm.trans h) nofun
  | tau t op pc pc' slot level σ ht hn ha =>
    have f := hi.fit ht
    have ht' := goto_thread_self s σ t (some (op, pc'))
    have tau := tau_cases f hn
    have quiet : (∀ x, (x, 0) ∈ s.live → Quiet s (s.goto σ t (some (op, pc'))) x) →
        Run.OneEffect (machine V) State.abs State.done s (s.goto σ t (some (op, pc'))) := by
      intro hq
      refine oneEffect_quiet hi clean hs' hq fun op1 pc1 pc2 h h' => ?_
      obtain ⟨rfl, rfl⟩ := Prod.mk.inj (Option.some.inj (ht.symm.trans h))
      exact took_own hi clean hs' h h' hq
    by_cases hst : ∃ c n q, pc = .stateCas c n q ∧ pc' = afterState s.store n true c ∧
        s.store.stateAt 0 n = c.expected ∧ σ.stateAt 0 n = c.newState
    · obtain ⟨c, n, q, rfl, rfl, h0, h1⟩ := hst
      have hrest : ∀ y, (y, 0) ∈ s.live → y ≠ n →
          Quiet s (s.goto σ t (some (op, afterState s.store n true c))) y := by
        intro y hy hne
        rcases tau.state_or hy with h | ⟨_, _, h, _⟩
        · exact quiet_of_eq h
        · cases h
          exact absurd rfl hne
      cases c with
      | insert c => exact oneEffect_insert hi clean hh hs' hrest ht ht' h0 h1
      | mark =>
        refine quiet fun x hx => ?_
        by_cases he : x = n
        · subst he
          refine ⟨iff_of_false ?_ ?_, iff_of_false ?_ ?_⟩
          · exact fun h => nomatch h1.symm.trans h
          · exact fun h => nomatch h0.symm.trans h
          · exact fun h => nomatch h1.symm.trans h
          · exact fun h => nomatch h0.symm.trans h
        · exact hrest x hx he
      | delete r => exact oneEffect_delete hi clean hh hs' hrest ht ht' h0 h1
    · refine quiet fun x hx => ?_
      rcases tau.state_or hx with h | ⟨c, q, h1, h2, h3, h4⟩
      · exact quiet_of_eq h
      · exact absurd ⟨c, x, q, h1, h2, h3, h4⟩ hst

theorem initial_abs (zero : V) : (initial zero).abs = ∅ := by
  ext k
  rw [mem_abs]
  refine iff_of_false ?_ id
  rintro ⟨x, hx, _⟩
  exact initial_inList zero hx

theorem answer_ret {r : Bool} (clean : Clean ρ) (hc : ρ.Completed t op r i j) :
    op.Answer ((ρ.state j).done t) (fun P => ρ.During i j fun s => P s.abs) r := by
  obtain ⟨ht, tr⟩ := ret_run ρ clean hc
  have hd : (ρ.state j).done t ↔ Added op (.ret r) ∨ Erasing op (.ret r) :=
    (done_iff ht).trans (took_none rfl rfl)
  have hno : r = false → ¬ (ρ.state j).done t := by
    rintro rfl h
    rcases hd.1 h with h | h <;> exact nomatch h.2
  cases op with
  | insert k v =>
    cases r with
    | true => exact Or.inl ⟨rfl, hd.2 (Or.inl ⟨trivial, rfl⟩)⟩
    | false => exact Or.inr ⟨rfl, hno rfl, tr rfl⟩
  | remove k =>
    cases r with
    | true => exact Or.inl ⟨rfl, hd.2 (Or.inr ⟨trivial, rfl⟩)⟩
    | false => exact Or.inr ⟨rfl, hno rfl, tr rfl⟩
  | contains k => exact tr

theorem linearizable_run (ρ : Run (machine V)) (clean : Clean ρ) : ρ.Linearizable State.abs := by
  refine Run.linearizable_of State.done ?_ ?_ ?_ (answer_ret clean)
  · obtain ⟨zero, h⟩ := ρ.init
    rw [h]
    exact initial_abs zero
  · exact fun m hm => oneEffect_step (inv_run ρ clean m hm.le) (clean m hm)
      (helped_run ρ clean m hm.le) (ρ.step hm)
  · intro n t op hn he hd
    have hs := ρ.step hn
    rw [he] at hs
    obtain ⟨op1, pc, ht, htook⟩ := hd
    obtain ⟨rfl, _, _⟩ := call_inv hs ht
    exact start_took htook

end SOFT.SkipList
