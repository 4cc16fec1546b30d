import DurableSets.LinkFree.ListSchedule

namespace LinkFree.List

open Chain

variable {V : Type} {σ σ' : Store V} {R R' : Set Loc} {x y p n c slot : Loc} {op : SetOp V}
  {pc pc' : Pc} {s s' : State V} {k : ℤ}

theorem MemInv.mem_abs (hm : MemInv s.store s.roots) :
    k ∈ s.abs ↔ k < INT_MAX ∧ Holds s.store.heap (k : WithBot ℤ) := by
  constructor
  · rintro ⟨x, hh, ht, hl, hd, rfl⟩
    have hr : s.store.heap.rank x = ((s.store.node x).key : ℤ) := rank_of_ne _ hh
    have hb := hm.bounded (hm.good.live_of_linked hl) ht
    rw [rank_of_ne _ hh] at hb
    exact ⟨WithBot.coe_lt_coe.1 hb, x, hl, hd, hr⟩
  · rintro ⟨hk, x, hl, hd, hr⟩
    have hh : x ≠ head := by
      rintro rfl
      have : rank s.store head = (k : WithBot ℤ) := hr
      simp at this
    refine ⟨x, hh, ?_, hl, hd, key_of_rank hr⟩
    rintro rfl
    have := hm.tail_rank.symm.trans hr
    exact absurd (WithBot.coe_injective this) (ne_of_gt hk)

theorem abs_congr (hm : MemInv s.store s.roots) (hm' : MemInv s'.store s'.roots)
    (h : ∀ k : WithBot ℤ, Holds s'.store.heap k ↔ Holds s.store.heap k) : s'.abs = s.abs := by
  ext k
  rw [hm'.mem_abs, hm.mem_abs, h]

theorem mem_abs_of_found {ρ : Run (machine V)} {i j : ℕ} (hj : j ≤ ρ.length) (hk : k < INT_MAX)
    (h : Found (heaps ρ) (k : WithBot ℤ) i j x) : ρ.During i j fun s => k ∈ s.abs := by
  obtain ⟨m, h1, h2, h3, h4, h5⟩ := h
  exact ⟨m, h1, h2, (inv_run ρ m (by omega)).mem.mem_abs.2 ⟨hk, x, h3, h4, h5⟩⟩

theorem not_mem_abs_of_absent {ρ : Run (machine V)} {i j : ℕ} (hj : j ≤ ρ.length)
    (h : Absent ρ k i j) : ρ.During i j fun s => k ∉ s.abs := by
  rcases h with ⟨m, h1, h2, h3⟩ | ⟨x, ⟨m, h1, h2, h3, h4, h5⟩, _⟩
  · refine ⟨m, h1, h2, fun hk => ?_⟩
    obtain ⟨_, x, hl, _, hr⟩ := (inv_run ρ m (by omega)).mem.mem_abs.1 hk
    exact h3 x hl hr
  · refine ⟨m, h1, h2, fun hk => ?_⟩
    obtain ⟨_, y, hl, hd, hr⟩ := (inv_run ρ m (by omega)).mem.mem_abs.1 hk
    obtain rfl := (sorted_run ρ (by omega : m ≤ ρ.length)).eq_of_rank h3 hl (h5.trans hr.symm)
    exact hd h4

def Pc.took (op : SetOp V) : Pc → Prop
  | .validLoad .linked _ => True
  | .validStore .linked _ _ => True
  | .insertLoad r _ => op.IsInsert ∧ r = true
  | .insertFlush r _ => op.IsInsert ∧ r = true
  | .insertStore r _ => op.IsInsert ∧ r = true
  | .deleteLoad (.trim .inRemove _) _ => True
  | .deleteFlush (.trim .inRemove _) _ => True
  | .deleteStore (.trim .inRemove _) _ => True
  | .trimLoad .inRemove _ _ => True
  | .trimCas .inRemove _ _ _ => True
  | .trimFree .inRemove _ _ => True
  | .ret r _ => ¬ op.IsContains ∧ r = true
  | _ => False

theorem afterDelete_took (op : SetOp V) (n : Loc) (d : DeleteCtx) :
    (afterDelete n d).took op ↔ ∃ p, d = .trim .inRemove p := by
  cases d with
  | trim t p =>
    cases t with
    | inFind => exact iff_of_false id (by rintro ⟨_, ⟨⟩⟩)
    | inRemove => exact iff_of_true trivial ⟨p, rfl⟩
  | contains => exact iff_of_false (fun h => Bool.false_ne_true h.2) (by rintro ⟨_, ⟨⟩⟩)

theorem afterTrim_took (p n : Loc) {t : TrimCtx} (hf : t.Fits op) :
    (afterTrim p n t).took op ↔ t = .inRemove := by
  cases t with
  | inFind => exact iff_of_false id (by rintro ⟨⟩)
  | inRemove => exact iff_of_true ⟨SetOp.IsRemove.not_contains hf, rfl⟩ rfl

theorem afterValid_took (n : Loc) {d : ValidCtx} (hf : d.Fits op) :
    (afterValid n d).took op ↔ d = .linked := by
  cases d with
  | found => exact iff_of_false (fun h => Bool.false_ne_true h.2) (by rintro ⟨⟩)
  | linked => exact iff_of_true ⟨hf, rfl⟩ rfl
  | lost => exact iff_of_false id (by rintro ⟨⟩)
  | removing p q => exact iff_of_false id (by rintro ⟨⟩)
  | contains => exact iff_of_false (fun h => SetOp.IsInsert.not_contains h.1 hf) (by rintro ⟨⟩)

theorem ret_took {r : Bool} (n : Loc) (hf : op.IsInsert ∨ (op.IsContains ∧ r = true)) :
    (Pc.ret r n).took op ↔ op.IsInsert ∧ r = true := by
  rcases hf with h | ⟨h, rfl⟩
  · exact ⟨fun hr => ⟨h, hr.2⟩, fun hr => ⟨h.not_contains, hr.2⟩⟩
  · exact iff_of_false (fun hr => hr.1 h) fun hr => hr.1.not_contains h

theorem afterFind_took (h : afterFind σ p c op = some pc) : ¬ pc.took op := by
  cases op with
  | insert k v =>
    simp only [afterFind] at h
    split at h <;> obtain rfl := Option.some.inj h <;> exact id
  | remove k =>
    simp only [afterFind] at h
    split at h <;> obtain rfl := Option.some.inj h
    · exact id
    · exact fun h => Bool.false_ne_true h.2
  | contains k => cases h

theorem took_step (hf : pc.Fits op) (hn : next σ op slot pc = some (σ', pc'))
    (hl : ∀ p c n, pc = .linkCas p c n → (σ.node p).next ≠ Ptr.addr c)
    (hk : ∀ p n q, pc = .markCas p n q → (σ.node n).next ≠ q) : pc'.took op ↔ pc.took op := by
  cases pc with
  | find =>
    simp only [next] at hn
    split at hn
    · obtain ⟨rfl, rfl⟩ := Prod.mk.inj (Option.some.inj hn)
      exact Iff.rfl
    · cases hn
  | findTest p c =>
    simp only [next] at hn
    split at hn
    · obtain ⟨rfl, rfl⟩ := Prod.mk.inj (Option.some.inj hn)
      exact Iff.rfl
    · split at hn
      · obtain ⟨q, ha, he⟩ := Option.map_eq_some_iff.1 hn
        obtain ⟨rfl, rfl⟩ := Prod.mk.inj he
        exact iff_of_false (afterFind_took ha) id
      · obtain ⟨rfl, rfl⟩ := Prod.mk.inj (Option.some.inj hn)
        exact Iff.rfl
  | findNext p c =>
    simp only [next] at hn
    obtain ⟨d, _, he⟩ := Option.map_eq_some_iff.1 hn
    obtain ⟨rfl, rfl⟩ := Prod.mk.inj he
    exact Iff.rfl
  | deleteLoad d n =>
    simp only [next] at hn
    split at hn <;> obtain ⟨rfl, rfl⟩ := Prod.mk.inj (Option.some.inj hn)
    · rw [afterDelete_took]
      rcases d with ⟨_ | _, p⟩ | _ <;> simp [Pc.took]
    · rcases d with ⟨_ | _, p⟩ | _ <;> exact Iff.rfl
  | deleteFlush d n =>
    obtain ⟨rfl, rfl⟩ := Prod.mk.inj (Option.some.inj hn)
    rcases d with ⟨_ | _, p⟩ | _ <;> exact Iff.rfl
  | deleteStore d n =>
    obtain ⟨rfl, rfl⟩ := Prod.mk.inj (Option.some.inj hn)
    rw [afterDelete_took]
    rcases d with ⟨_ | _, p⟩ | _ <;> simp [Pc.took]
  | trimLoad t p n =>
    obtain ⟨rfl, rfl⟩ := Prod.mk.inj (Option.some.inj hn)
    cases t <;> exact Iff.rfl
  | trimCas t p n q =>
    simp only [next] at hn
    split at hn <;> obtain ⟨rfl, rfl⟩ := Prod.mk.inj (Option.some.inj hn)
    · cases t <;> exact Iff.rfl
    · rw [afterTrim_took p n hf]
      cases t <;> simp [Pc.took]
  | trimFree t p n =>
    obtain ⟨rfl, rfl⟩ := Prod.mk.inj (Option.some.inj hn)
    rw [afterTrim_took p n hf]
    cases t <;> simp [Pc.took]
  | validLoad d n =>
    simp only [next] at hn
    split at hn <;> obtain ⟨rfl, rfl⟩ := Prod.mk.inj (Option.some.inj hn)
    · rw [afterValid_took n hf]
      cases d <;> simp [Pc.took]
    · cases d <;> exact Iff.rfl
  | validStore d n old =>
    obtain ⟨rfl, rfl⟩ := Prod.mk.inj (Option.some.inj hn)
    rw [afterValid_took n hf]
    cases d <;> simp [Pc.took]
  | insertLoad b n =>
    simp only [next] at hn
    split at hn <;> obtain ⟨rfl, rfl⟩ := Prod.mk.inj (Option.some.inj hn)
    · exact ret_took n hf
    · exact Iff.rfl
  | insertStore b n =>
    obtain ⟨rfl, rfl⟩ := Prod.mk.inj (Option.some.inj hn)
    exact ret_took n hf
  | initValue p c n =>
    cases op with
    | insert k v =>
      obtain ⟨rfl, rfl⟩ := Prod.mk.inj (Option.some.inj hn)
      exact Iff.rfl
    | remove k => cases hn
    | contains k => cases hn
  | linkCas p c n =>
    simp only [next, if_neg (hl p c n rfl)] at hn
    obtain ⟨rfl, rfl⟩ := Prod.mk.inj (Option.some.inj hn)
    exact Iff.rfl
  | markCas p n q =>
    simp only [next, if_neg (hk p n q rfl)] at hn
    obtain ⟨rfl, rfl⟩ := Prod.mk.inj (Option.some.inj hn)
    exact Iff.rfl
  | containsHead =>
    simp only [next] at hn
    split at hn
    · obtain ⟨rfl, rfl⟩ := Prod.mk.inj (Option.some.inj hn)
      exact Iff.rfl
    · cases hn
  | containsWalk c =>
    simp only [next] at hn
    split at hn
    · obtain ⟨d, _, he⟩ := Option.map_eq_some_iff.1 hn
      obtain ⟨rfl, rfl⟩ := Prod.mk.inj he
      exact Iff.rfl
    · split at hn
      · obtain ⟨rfl, rfl⟩ := Prod.mk.inj (Option.some.inj hn)
        simp [Pc.took]
      · split at hn <;> obtain ⟨rfl, rfl⟩ := Prod.mk.inj (Option.some.inj hn) <;> exact Iff.rfl
  | ret b n => cases hn
  | _ =>
    obtain ⟨rfl, rfl⟩ := Prod.mk.inj (Option.some.inj hn)
    exact Iff.rfl

theorem abs_link (hi : Inv s) {t : Tid} (ht : s.thread t = some (op, .linkCas p c n))
    (hnext : (s.store.node p).next = Ptr.addr c) (hi' : Inv s')
    (hσ : s'.store = s.store.write p { s.store.node p with next := Ptr.addr n }) :
    op.key ∉ s.abs ∧ s'.abs = insert op.key s.abs := by
  have f := hi.fit ht
  have g : Sorted s.store.heap s.roots := ⟨hi.mem.good, hi.mem.ordered⟩
  have hpl := f.refs p (by simp [Pc.refs])
  have hfresh := f.fresh n rfl
  obtain ⟨hg, _, _, _, hu, hnn⟩ := f.loc
  have hnh : n ≠ head := by
    rintro rfl
    exact hfresh hi.mem.head_live
  have sp := link_splice hpl hnext hfresh hnn
  rw [← hσ] at sp
  have hrn : s'.store.heap.rank n = (op.key : ℤ) := by
    change rank s'.store n = _
    rw [hσ, next_rank, rank_of_ne _ hnh, hu.1]
  refine ⟨fun hk => ?_, ?_⟩
  · obtain ⟨_, x, hl, _, hr⟩ := hi.mem.mem_abs.1 hk
    exact g.gap (g.good.alive hpl (alive_of_addr hnext)) (succ_of_addr hnext) hg.1 hg.2 x hl hr
  · ext k
    rw [Set.mem_insert_iff, hi'.mem.mem_abs, hi.mem.mem_abs, holds_splice g sp, hrn,
      WithBot.coe_inj]
    constructor
    · rintro ⟨hk, h | h⟩
      · exact Or.inr ⟨hk, h⟩
      · exact Or.inl h
    · rintro (rfl | ⟨hk, h⟩)
      · exact ⟨f.key, Or.inr rfl⟩
      · exact ⟨hk, Or.inl h⟩

theorem abs_mark {q : Ptr} (hi : Inv s) {t : Tid} (ht : s.thread t = some (op, .markCas p n q))
    (hnext : (s.store.node n).next = q) (hi' : Inv s')
    (hσ : s'.store = s.store.write n { s.store.node n with next := q.mark }) :
    op.key ∈ s.abs ∧ s'.abs = s.abs \ {op.key} := by
  have f := hi.fit ht
  have g : Sorted s.store.heap s.roots := ⟨hi.mem.good, hi.mem.ordered⟩
  have hnl := f.refs n (by simp [Pc.refs])
  obtain ⟨_, hrn, _, hum⟩ := f.loc
  have hal : ¬ s.store.heap.dead n := by
    change ¬ (s.store.node n).next.marked = true
    rw [hnext, hum]
    exact Bool.false_ne_true
  have hlink := g.good.alive hnl hal
  have st : Heap.Steady s.store.heap s'.store.heap s.roots := by
    rw [hσ]
    exact touch_steady (evolves_write rfl rfl (fun h => absurd h hal)
      (fun h => by rw [← hnext]; exact h) id) (by rw [hnext]; rfl)
  have hd : ∀ y, s.store.heap.Linked y → (s'.store.heap.dead y ↔ s.store.heap.dead y ∨ y = n) := by
    intro y _
    change (s'.store.node y).next.marked = true ↔ (s.store.node y).next.marked = true ∨ y = n
    rw [hσ, node_next]
    by_cases he : y = n
    · simp [he, Ptr.mark]
    · simp [he]
  refine ⟨hi.mem.mem_abs.2 ⟨f.key, n, hlink, hal, hrn⟩, ?_⟩
  ext k
  have hrn' : s.store.heap.rank n = (op.key : ℤ) := hrn
  rw [Set.mem_sdiff, Set.mem_singleton_iff, hi'.mem.mem_abs, hi.mem.mem_abs, holds_kill g st hlink hd,
    hrn', and_assoc, ne_eq, WithBot.coe_inj]

theorem abs_trim {t : TrimCtx} {q : Ptr} (hi : Inv s) {u : Tid}
    (ht : s.thread u = some (op, .trimCas t p n q))
    (hnext : (s.store.node p).next = Ptr.addr n) (hi' : Inv s')
    (hσ : s'.store = s.store.write p { s.store.node p with next := q }) : s'.abs = s.abs := by
  have f := hi.fit ht
  have g : Sorted s.store.heap s.roots := ⟨hi.mem.good, hi.mem.ordered⟩
  have hpl := f.refs p (by simp [Pc.refs])
  obtain ⟨_, hum, hsn⟩ := f.loc
  obtain ⟨d, _, hd⟩ := unlink_succ hi.mem hpl hnext hsn
  refine abs_congr hi.mem hi'.mem fun k => ?_
  rw [hσ]
  exact holds_bypass g (unlink_bypass hi.mem hpl hnext hum hsn hd)

theorem abs_frame (hi : Inv s) (hi' : Inv s')
    (h : ∀ x, s.store.heap.Live s.roots x → (s'.store.node x).next = (s.store.node x).next ∧
      (s'.store.node x).key = (s.store.node x).key) : s'.abs = s.abs := by
  have g : Sorted s.store.heap s.roots := ⟨hi.mem.good, hi.mem.ordered⟩
  have hd : ∀ x, s.store.heap.Live s.roots x → (s'.store.heap.dead x ↔ s.store.heap.dead x) := by
    intro x hx
    change (s'.store.node x).next.marked = true ↔ (s.store.node x).next.marked = true
    rw [(h x hx).1]
  have st : Heap.Steady s.store.heap s'.store.heap s.roots :=
    ⟨rfl, fun hx => congrArg Ptr.ref (h _ hx).1, fun hx => rank_congr (h _ hx).2,
      fun hx => (hd _ hx).2⟩
  exact abs_congr hi.mem hi'.mem fun k =>
    holds_steady g st fun x hx => hd x (g.good.live_of_linked hx)

def State.done (s : State V) (t : Tid) : Prop :=
  ∃ op pc, s.thread t = some (op, pc) ∧ pc.took op

theorem done_iff {t : Tid} (ht : s.thread t = some (op, pc)) : s.done t ↔ pc.took op := by
  constructor
  · rintro ⟨op1, pc1, h, hd⟩
    obtain ⟨rfl, rfl⟩ := Prod.mk.inj (Option.some.inj (ht.symm.trans h))
    exact hd
  · exact fun hd => ⟨op, pc, ht, hd⟩

theorem done_congr {t : Tid} (h : s'.thread t = s.thread t) : s'.done t ↔ s.done t := by
  unfold State.done
  rw [h]

theorem start_took : ¬ (start op).took op := by cases op <;> exact id

theorem oneEffect_idle (M : Machine (State V) (SetOp V) Pc) {t : Tid}
    (habs : s'.abs = s.abs) (hother : ∀ u, u ≠ t → s'.thread u = s.thread u)
    (hM : ∀ s t, M.thread s t = s.thread t)
    (hself : ∀ op pc pc', s.thread t = some (op, pc) → s'.thread t = some (op, pc') →
      (pc'.took op ↔ pc.took op)) : Run.OneEffect M State.abs State.done s s' := by
  refine Or.inl ⟨habs, fun u op pc pc' hu hu' => ?_⟩
  rw [hM] at hu hu'
  by_cases he : u = t
  · subst he
    rw [done_iff hu, done_iff hu']
    exact hself op pc pc' hu hu'
  · exact done_congr (hother u he)

theorem oneEffect_took {t : Tid} {σ : Store V} (ht : s.thread t = some (op, pc))
    (h0 : ¬ pc.took op) (h1 : pc'.took op)
    (he : op.Effect s.abs (s.goto σ t (some (op, pc'))).abs) :
    Run.OneEffect (machine V) State.abs State.done s (s.goto σ t (some (op, pc'))) := by
  have ht' := goto_thread_self s σ t (some (op, pc'))
  refine Or.inr ⟨t, op, pc, pc', ht, ht', ?_, ?_, he, ?_⟩
  · rw [done_iff ht]
    exact h0
  · rw [done_iff ht']
    exact h1
  · exact fun u _ _ _ hne _ _ => done_congr (goto_thread_other _ _ _ hne)

theorem oneEffect_tau {t : Tid} {σ : Store V} (hi : Inv s) (ht : s.thread t = some (op, pc))
    (hn : next s.store op slot pc = some (σ, pc')) (hi' : Inv (s.goto σ t (some (op, pc')))) :
    Run.OneEffect (machine V) State.abs State.done s (s.goto σ t (some (op, pc'))) := by
  have f := hi.fit ht
  have quiet : (s.goto σ t (some (op, pc'))).abs = s.abs →
      (pc'.took op ↔ pc.took op) →
      Run.OneEffect (machine V) State.abs State.done s (s.goto σ t (some (op, pc'))) := by
    intro habs htook
    refine oneEffect_idle _ habs (fun u hu => goto_thread_other _ _ _ hu) (fun _ _ => rfl) ?_
    intro op1 pc1 pc2 h h'
    rw [goto_thread_self] at h'
    obtain ⟨rfl, rfl⟩ := Prod.mk.inj (Option.some.inj (ht.symm.trans h))
    obtain ⟨_, rfl⟩ := Prod.mk.inj (Option.some.inj h')
    exact htook
  rcases tau_cases f.fresh hn with ⟨p, c, n, rfl, hnext, rfl⟩ | ⟨p, n, q, rfl, hnext, rfl⟩ |
    ⟨c, p, n, q, rfl, hnext, rfl⟩ | ⟨hquiet, hframe⟩
  · simp only [next, if_pos hnext] at hn
    obtain ⟨_, rfl⟩ := Prod.mk.inj (Option.some.inj hn)
    refine oneEffect_took ht id trivial ?_
    have hins : op.IsInsert := f.fits
    have := abs_link hi ht hnext hi' rfl
    cases op with
    | insert k v => exact this
    | _ => exact hins.elim
  · simp only [next, if_pos hnext] at hn
    obtain ⟨_, rfl⟩ := Prod.mk.inj (Option.some.inj hn)
    refine oneEffect_took ht id trivial ?_
    have hrem : op.IsRemove := f.fits
    have := abs_mark hi ht hnext hi' rfl
    cases op with
    | remove k => exact this
    | _ => exact hrem.elim
  · refine quiet (abs_trim hi ht hnext hi' rfl) (took_step f.fits hn ?_ ?_)
    · exact fun _ _ _ h => by cases h
    · exact fun _ _ _ h => by cases h
  · exact quiet (abs_frame hi hi' hframe) (took_step f.fits hn
      (fun p c n h hnext => hquiet p (by rw [h]; exact ⟨rfl, hnext⟩))
      (fun p n q h hnext => hquiet n (by rw [h]; exact ⟨rfl, hnext⟩)))

theorem oneEffect_step {e : Event (SetOp V)} (hi : Inv s) (hs : Step s e s') :
    Run.OneEffect (machine V) State.abs State.done s s' := by
  have hi' := hi.step hs
  cases hs with
  | call t op idle hk =>
    refine oneEffect_idle _ ?_ (fun u hu => goto_thread_other _ _ _ hu) (fun _ _ => rfl) ?_
    · exact abs_frame hi hi' fun _ _ => ⟨rfl, rfl⟩
    · intro op1 pc1 pc2 h
      rw [idle] at h
      cases h
  | ret t op r n ht =>
    refine oneEffect_idle _ ?_ (fun u hu => goto_thread_other _ _ _ hu) (fun _ _ => rfl) ?_
    · exact abs_frame hi hi' fun _ _ => ⟨rfl, rfl⟩
    · intro op1 pc1 pc2 _ h
      rw [goto_thread_self] at h
      cases h
  | tau t op pc pc' slot σ ht hn hs => exact oneEffect_tau hi ht hn hi'

theorem initial_abs (zero : V) (junk : Uchar) : (initial zero junk).abs = ∅ := by
  ext k
  simp only [State.abs, Set.mem_ofPred_eq, Set.mem_empty_iff_false, iff_false]
  rintro ⟨x, hh, ht, hl, _⟩
  exact (initial_live zero junk ⟨head, Or.inl rfl, hl⟩).elim hh ht

theorem answer_ret {ρ : Run (machine V)} {t : Tid} {r : Bool} {i j : ℕ}
    (hc : ρ.Completed t op r i j) :
    op.Answer ((ρ.state j).done t) (fun P => ρ.During i j fun s => P s.abs) r := by
  obtain ⟨x, ht, hk, tr⟩ := ret_run ρ hc
  have hj := hc.lt.le
  have hd : (ρ.state j).done t ↔ ¬ op.IsContains ∧ r = true := done_iff ht
  have hno : r = false → ¬ (ρ.state j).done t := by
    rintro rfl h
    exact Bool.false_ne_true (hd.1 h).2
  cases op with
  | insert k v =>
    cases r with
    | true => exact Or.inl ⟨rfl, hd.2 ⟨id, rfl⟩⟩
    | false => exact Or.inr ⟨rfl, hno rfl, mem_abs_of_found hj hk tr.1⟩
  | remove k =>
    cases r with
    | true => exact Or.inl ⟨rfl, hd.2 ⟨id, rfl⟩⟩
    | false => exact Or.inr ⟨rfl, hno rfl, not_mem_abs_of_absent hj tr⟩
  | contains k =>
    cases r with
    | true =>
      obtain ⟨m, h1, h2, h⟩ := mem_abs_of_found hj hk tr.1
      exact ⟨m, h1, h2, iff_of_true rfl h⟩
    | false =>
      obtain ⟨m, h1, h2, h⟩ := not_mem_abs_of_absent hj tr
      exact ⟨m, h1, h2, iff_of_false Bool.false_ne_true h⟩

theorem linkFreeList_linearizable (ρ : Run (machine V)) : ρ.Linearizable State.abs := by
  refine Run.linearizable_of State.done ?_ ?_ ?_ answer_ret
  · obtain ⟨zero, junk, h⟩ := ρ.init
    rw [h]
    exact initial_abs zero junk
  · exact fun m hm => oneEffect_step (inv_run ρ m hm.le) (ρ.step hm)
  · intro n t op hn he hd
    have hs := ρ.step hn
    rw [he] at hs
    obtain ⟨op1, pc, ht, htook⟩ := hd
    obtain ⟨rfl, _, _⟩ := call_inv hs ht
    exact start_took htook

section Reused

open Reuse

-- thread 0 stands on the node of 1, whose next leads to slot 3: with 10 in it, 5 is overtaken
def overtaken : List (Command ℕ) :=
  [inserts 1 1 0 2 0, inserts 1 3 0 3 1, inserts 1 5 0 4 2, [.call 0 (.contains 5)], steps 0 1,
    removes 1 1, removes 1 3, inserts 1 10 0 3 1, steps 0 2, [.ret 0]].flatten

def holdsFive (s : State ℕ) : Bool :=
  (s.thread 0).isNone || (walk s 8 head).any (has s 5)

theorem linkFreeList_not_linearizable :
    ∃ ρ : Run (Reuse.machine ℕ), ¬ ρ.Linearizable State.abs := by
  obtain ⟨ρ, hρ, _⟩ := exists_play 0 (guarded holdsFive exec) (fun h => (guarded_inv h).2)
    overtaken (by decide +kernel)
  have ret := of_decide_eq_true (hρ.holds 110 (P := fun s =>
    s.thread 0 = some (.contains 5, .ret false 3)) (by decide +kernel))
  have hc : ρ.Completed 0 (.contains 5) false 60 110 := completed (fun h => (guarded_inv h).2) hρ
    (by decide) (by decide +kernel) (by decide +kernel) ret (by decide +kernel)
  refine ⟨ρ, fun ⟨lin, h⟩ => ?_⟩
  obtain ⟨m, h1, h2, hm⟩ := h.answer hc
  have hlt := hc.lt
  obtain ⟨pc, ht⟩ := (hc.active.prev h1 h2).thread (by omega)
  have htest := (guarded_inv (hρ.exec (n := m) (by rw [← hρ.length]; omega))).1
  have ht : (ρ.state m).thread 0 = some (.contains 5, pc) := ht
  rw [holdsFive, ht, Option.isNone_some, Bool.false_or] at htest
  exact absurd (hm.2 (abs_of_walk htest)) nofun

end Reused

end LinkFree.List
