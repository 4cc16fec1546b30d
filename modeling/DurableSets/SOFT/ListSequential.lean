import DurableSets.Core.Path
import DurableSets.Core.Sequential
import DurableSets.SOFT.ListLinearizable
import DurableSets.SOFT.ListProgress

namespace SOFT.List

open Chain

variable {V : Type} {σ σ' : Store V} {s s' : State V} {t : Tid} {op : SetOp V} {pc pc' : Pc}
  {slot : ℕ} {x n p c d : Loc} {A : Set ℤ} {R W : Set Loc} {k : ℤ} {st : NodeState} {q : Ptr}

-- what the call has learnt about the set that it started on
def Told (σ : Store V) (A : Set ℤ) (op : SetOp V) : Pc → Prop
  | .trimLoad t d st n => t = .inRemove ∧ (σ.node d).next = Ptr.addr n st
  | .trimCas t d st n _ => t = .inRemove ∧ (σ.node d).next = Ptr.addr n st
  | .trimFree t _ _ _ => t = .inRemove
  | .createStart r _ => r = true
  | .createKey r _ => r = true
  | .createValue r _ => r = true
  | .createEnd r _ => r = true
  | .createFlush r _ => r = true
  | .insertTest r _ => r = true
  | .insertLoad r _ => r = true
  | .insertCas r _ _ => r = true
  | .markTest d st n => (σ.node d).next = Ptr.addr n st ∧ (σ.node n).next.state = .inserted
  | .markLoad d st n => (σ.node d).next = Ptr.addr n st ∧ (σ.node n).next.state = .inserted
  | .markCas d st n q => (σ.node d).next = Ptr.addr n st ∧ (σ.node n).next.state = .inserted ∧
      (σ.node n).next = q
  | .destroyStore r d st n => r = true ∧ (σ.node d).next = Ptr.addr n st
  | .destroyFlush r d st n => r = true ∧ (σ.node d).next = Ptr.addr n st
  | .deleteTest r d st n => r = true ∧ (σ.node d).next = Ptr.addr n st
  | .deleteLoad r d st n => r = true ∧ (σ.node d).next = Ptr.addr n st
  | .deleteCas r d st n _ => r = true ∧ (σ.node d).next = Ptr.addr n st
  | .containsWalk c => ∃ p, σ.heap.Linked p ∧ (σ.node p).next.ref = some c ∧
      rank σ p < (op.key : ℤ)
  | .ret r => ¬ (Added op (.ret r) ∨ Erasing op (.ret r)) → (r = true ↔ op.Accepts A)
  | _ => True

structure Alone (A : Set ℤ) (s : State V) (t : Tid) (op : SetOp V) (pc : Pc) : Prop where
  sane : Sane s
  helped : Helped s
  only : ∀ u, u ≠ t → s.thread u = none
  thread : s.thread t = some (op, pc)
  fresh : Fresh s.store pc
  settled : ∀ x, s.store.heap.Linked x → s.store.heap.dead x → pc.removes = some x
  effect : (Took s.store op pc ∧ op.Effect A s.abs) ∨ (¬ Took s.store op pc ∧ s.abs = A)
  told : Told s.store A op pc

structure Settled (A : Set ℤ) (s : State V) : Prop where
  sane : Sane s
  helped : Helped s
  idle : ∀ u, s.thread u = none
  alive : ∀ x, s.store.heap.Linked x → ¬ s.store.heap.dead x
  abs : s.abs = A

theorem Alone.thread_eq {u : Tid} {op1 : SetOp V} {pc1 : Pc} (h : Alone A s t op pc)
    (hu : s.thread u = some (op1, pc1)) : u = t ∧ op1 = op ∧ pc1 = pc := by
  obtain rfl : u = t := by
    by_contra hne
    exact nomatch (h.only u hne).symm.trans hu
  obtain ⟨h1, h2⟩ := Prod.mk.inj (Option.some.inj (hu.symm.trans h.thread))
  exact ⟨rfl, h1, h2⟩

theorem Alone.inserted (h : Alone A s t op pc) (hx : InList s.store x)
    (hi : pc.inserts ≠ some x) (hr : pc.removes ≠ some x) :
    (s.store.node x).next.state = .inserted := by
  cases hst : (s.store.node x).next.state with
  | intendToInsert =>
    obtain ⟨u, op1, pc1, hu, hins⟩ := h.helped.inserter hx hst
    obtain ⟨_, _, rfl⟩ := h.thread_eq hu
    exact absurd hins hi
  | inserted => rfl
  | intendToDelete =>
    obtain ⟨u, op1, pc1, hu, hrem⟩ := h.helped.remover hx hst
    obtain ⟨_, _, rfl⟩ := h.thread_eq hu
    exact absurd hrem hr
  | deleted => exact absurd (h.settled x hx.1 hst) hr

theorem Settled.inserted (h : Settled A s) (hx : InList s.store x) :
    (s.store.node x).next.state = .inserted := by
  cases hst : (s.store.node x).next.state with
  | intendToInsert =>
    obtain ⟨u, op1, pc1, hu, _⟩ := h.helped.inserter hx hst
    exact nomatch (h.idle u).symm.trans hu
  | inserted => rfl
  | intendToDelete =>
    obtain ⟨u, op1, pc1, hu, _⟩ := h.helped.remover hx hst
    exact nomatch (h.idle u).symm.trans hu
  | deleted => exact absurd hst (h.alive x hx.1)

theorem inList_of_rank (hi : Inv s) (hx : s.store.heap.Linked x)
    (hr : rank s.store x = (k : ℤ)) (hk : k < INT_MAX) : InList s.store x := by
  refine ⟨hx, ne_head_of_rank hr, ?_⟩
  rintro rfl
  have := key_of_rank hr
  rw [hi.mem.chain.tail_key] at this
  omega

theorem mem_iff_of_next (hi : Inv s) (hp : s.store.heap.Linked p)
    (hc : (s.store.node p).next.ref = some c) (hk : k < INT_MAX)
    (lt : rank s.store p < (k : WithBot ℤ)) (le : (k : WithBot ℤ) ≤ rank s.store c) :
    k ∈ s.abs ↔ (s.store.node c).key = k ∧ NodeState.Visible (s.store.node c).next.state := by
  have hcl : s.store.heap.Linked c := hp.tail hc
  have sorted : Sorted s.store.heap s.roots := ⟨hi.mem.chain.good, hi.mem.chain.ordered⟩
  rw [mem_abs]
  constructor
  · rintro ⟨x, hx, hv, rfl⟩
    have hr := rank_of_ne s.store hx.2.1
    have he : rank s.store c = ((s.store.node x).key : ℤ) := by
      by_contra hne
      exact sorted.gap hp hc lt (lt_of_le_of_ne le (Ne.symm hne)) x hx.1 hr
    obtain rfl : x = c := sorted.eq_of_rank hx.1 hcl (hr.trans he.symm)
    exact ⟨rfl, hv⟩
  · rintro ⟨rfl, hv⟩
    have hne : c ≠ head := by
      rintro rfl
      rw [rank_head] at le
      exact absurd le (not_le.2 (WithBot.bot_lt_coe _))
    exact ⟨c, inList_of_rank hi hcl (rank_of_ne _ hne) hk, hv, rfl⟩

def Pc.swings : Pc → Option Loc
  | .linkCas d _ _ _ _ => some d
  | .trimCas _ d _ _ _ => some d
  | .insertCas _ n _ => some n
  | .markCas _ _ n _ => some n
  | .deleteCas _ _ _ n _ => some n
  | _ => none

theorem node_kept (f : Fit σ R W op pc) (hn : next σ op slot pc = some (σ', pc'))
    (hx : σ.heap.Live R x) (hs : pc.swings ≠ some x) : (σ'.node x).next = (σ.node x).next := by
  have tau : Tau σ R pc σ' pc' := tau_cases (fun n ho => (f.owned n ho).1) hn
  cases tau with
  | link d st c n p h =>
    rw [setNext_next, if_neg]
    rintro rfl
    exact hs rfl
  | unlink t d st n q h =>
    rw [setNext_next, if_neg]
    rintro rfl
    exact hs rfl
  | @advance _ _ n q a b adv h =>
    rw [setNext_next, if_neg]
    rintro rfl
    cases adv <;> exact hs rfl
  | still h => rw [h x hx]

theorem ne_of_ranks (h1 : rank σ d < (k : ℤ)) (h2 : rank σ n = (k : ℤ)) : n ≠ d := by
  rintro rfl
  exact absurd h1 (not_lt.2 h2.ge)

theorem Alone.state_eq (h : Alone A s t op pc) (hi : pc.inserts = none) (hr : pc.removes = none)
    (hne : ∀ r, pc ≠ .ret r) : s.abs = A := by
  refine (h.effect.resolve_left fun hT => ?_).2
  rcases (took_none hi hr).1 hT.1 with ha | he
  · exact hne _ ha.2
  · exact hne _ he.2

theorem settled_step (h : Alone A s t op pc) (hn : next s.store op slot pc = some (σ, pc'))
    (hs : Step s (.tau t) (s.goto σ t (some (op, pc')))) (hl : σ.heap.Linked x)
    (hd : σ.heap.dead x) : pc'.removes = some x := by
  have hi := h.sane.1
  have hi' : Inv (s.goto σ t (some (op, pc'))) := hi.step hs
  have f := hi.fit h.thread
  have tau : Tau s.store s.roots pc σ pc' := tau_cases (fun n ho => (f.owned n ho).1) hn
  have hd : (σ.node x).next.state = .deleted := hd
  have hx : InList σ x := by
    refine ⟨hl, ?_, ?_⟩
    · rintro rfl
      cases hi'.mem.chain.head_state.symm.trans hd
    · rintro rfl
      cases (congrArg Ptr.state hi'.mem.chain.tail_next).symm.trans hd
  rcases tau.inList hi.mem f hx with hx | ⟨_, hst⟩
  · rcases tau.state f (hi.mem.chain.good.live_of_linked hx.1) with he | ⟨q, a, b, adv, _, hb⟩
    · have hold := h.settled x hx.1 (he.symm.trans hd)
      rcases (flow_of_next hn).removes_keep hold with hk | ⟨rfl, d, st, rfl | ⟨q, rfl⟩⟩
      · exact hk
      · exact absurd hx.1 (f.retired x rfl).2.1
      · simp only [next, if_pos h.told.2] at hn
        cases (Prod.mk.inj (Option.some.inj hn)).2
    · rw [hb] at hd
      subst hd
      cases adv with
      | delete r d st n q =>
        obtain ⟨rfl, _⟩ := h.told
        rfl
  · cases hst.symm.trans hd

theorem effect_step (h : Alone A s t op pc) (hs : Step s (.tau t) s')
    (ht' : s'.thread t = some (op, pc')) :
    (Took s'.store op pc' ∧ op.Effect A s'.abs) ∨ (¬ Took s'.store op pc' ∧ s'.abs = A) := by
  have hd := done_iff h.thread
  have hd' := done_iff ht'
  rcases oneEffect_step h.sane.1 h.helped hs with ⟨ha, hk⟩ |
    ⟨u, op1, pc1, pc2, hu, _, hnd, hdn, he, _⟩
  · have hk := hk t op pc pc' h.thread ht'
    rw [hd, hd'] at hk
    rw [hk, ha]
    exact h.effect
  · obtain ⟨rfl, rfl, rfl⟩ := h.thread_eq hu
    rw [hd] at hnd
    rw [hd'] at hdn
    have hA := (h.effect.resolve_left fun h => hnd h.1).2
    exact Or.inl ⟨hdn, hA ▸ he⟩

theorem Alone.prev_linked (h : Alone A s t op (.findLoad d st c)) : s.store.heap.Linked d := by
  have f := h.sane.1.fit h.thread
  have hadj : (s.store.node d).next = Ptr.addr c st := h.fresh
  refine h.sane.1.mem.chain.good.alive (f.refs d (by simp [Pc.refs])) fun hdead => f.loc.2.1 ?_
  exact (congrArg Ptr.state hadj).symm.trans hdead

theorem gap_mem (h : Alone A s t op (.findLoad d st c)) (hk : op.key ≤ (s.store.node c).key) :
    (op.key ∈ A ↔ (s.store.node c).key = op.key) ∧
      ((s.store.node c).key = op.key → (s.store.node c).next.state = .inserted) := by
  have hi := h.sane.1
  have f := hi.fit h.thread
  have hd := h.prev_linked
  have hs : s.store.heap.succ d = some c := succ_of_addr h.fresh
  have hle : ((op.key : ℤ) : WithBot ℤ) ≤ rank s.store c := by
    rw [rank_of_ne _ f.loc.2.2]
    exact WithBot.coe_le_coe.2 hk
  have hins : (s.store.node c).key = op.key → (s.store.node c).next.state = .inserted := by
    intro he
    refine h.inserted (inList_of_rank hi (hd.tail hs) ?_ f.key) nofun nofun
    rw [rank_of_ne _ f.loc.2.2, he]
  refine ⟨?_, hins⟩
  rw [← h.state_eq rfl rfl nofun, mem_iff_of_next hi hd hs f.key f.loc.1 hle]
  exact ⟨And.left, fun he => ⟨he, Or.inl (hins he)⟩⟩

theorem afterFind_told (h : Alone A s t op (.findLoad d st c))
    (hk : op.key ≤ (s.store.node c).key)
    (hn : afterFind s.store d st c (s.store.node c).next.state op = some pc') :
    Told s.store A op pc' := by
  obtain ⟨hmem, hins⟩ := gap_mem h hk
  cases op with
  | insert k v =>
    simp only [afterFind] at hn
    split at hn
    · next he =>
      rw [if_pos (by rw [hins he]; decide)] at hn
      obtain rfl := Option.some.inj hn
      exact fun _ => ⟨(by rintro ⟨⟩), fun hA => absurd (hmem.2 he) hA⟩
    · obtain rfl := Option.some.inj hn
      trivial
  | remove k =>
    simp only [afterFind] at hn
    split at hn
    · next he =>
      obtain rfl := Option.some.inj hn
      exact fun _ => ⟨(by rintro ⟨⟩), fun hA => absurd (hmem.1 hA) he⟩
    · next he =>
      have hst := hins (not_ne_iff.1 he)
      rw [if_neg (by rw [hst]; decide)] at hn
      obtain rfl := Option.some.inj hn
      exact ⟨h.fresh, hst⟩
  | contains k => cases hn

theorem walk_told (h : Alone A s t op (.containsWalk c)) (le : op.key ≤ (s.store.node c).key) :
    Told s.store A op (.ret ((s.store.node c).key == op.key &&
      ((s.store.node c).next.state == .inserted ||
        (s.store.node c).next.state == .intendToDelete))) := by
  have hi := h.sane.1
  have f := hi.fit h.thread
  obtain ⟨p, hp, hadj, hr⟩ := h.told
  have hle : ((op.key : ℤ) : WithBot ℤ) ≤ rank s.store c := by
    rw [rank_of_ne _ f.loc]
    exact WithBot.coe_le_coe.2 le
  have hmem := mem_iff_of_next hi hp hadj f.key hr hle
  rw [h.state_eq rfl rfl nofun] at hmem
  have hcon : op.IsContains := f.fits
  intro _
  cases op with
  | contains k =>
    change _ ↔ (SetOp.contains k : SetOp V).key ∈ A
    rw [hmem]
    simp [NodeState.Visible, SetOp.key]
  | _ => exact hcon.elim

theorem told_step (h : Alone A s t op pc) (hn : next s.store op slot pc = some (σ, pc')) :
    Told σ A op pc' := by
  have hi := h.sane.1
  have f := hi.fit h.thread
  have hT := h.told
  have kept : ∀ {x}, x ∈ pc.refs → pc.swings ≠ some x →
      (σ.node x).next = (s.store.node x).next := fun hx hs => node_kept f hn (f.refs _ hx) hs
  cases pc with
  | find =>
    obtain ⟨c, _, he⟩ := Option.map_eq_some_iff.1 hn
    obtain ⟨rfl, rfl⟩ := Prod.mk.inj he
    trivial
  | findLoad d st c =>
    simp only [next] at hn
    split at hn
    · split at hn
      · next hk =>
        obtain ⟨z, hz, he⟩ := Option.map_eq_some_iff.1 hn
        obtain ⟨rfl, rfl⟩ := Prod.mk.inj he
        exact afterFind_told h hk hz
      · obtain ⟨e, _, he⟩ := Option.map_eq_some_iff.1 hn
        obtain ⟨rfl, rfl⟩ := Prod.mk.inj he
        trivial
    · next hdead =>
      cases h.settled c (h.prev_linked.tail (succ_of_addr h.fresh)) (not_not.1 hdead)
  | trimLoad u d st n =>
    obtain ⟨rfl, rfl⟩ := Prod.mk.inj (Option.some.inj hn)
    exact hT
  | trimCas u d st n q =>
    simp only [next, if_pos hT.2] at hn
    obtain ⟨_, rfl⟩ := Prod.mk.inj (Option.some.inj hn)
    exact hT.1
  | trimFree u d st n =>
    obtain rfl := hT
    obtain ⟨p, _, he⟩ := Option.map_eq_some_iff.1 hn
    obtain ⟨_, rfl⟩ := Prod.mk.inj he
    exact fun hne => absurd (Or.inr ⟨f.fits, rfl⟩) hne
  | linkCas d st c n p =>
    simp only [next, if_pos (show (s.store.node d).next = Ptr.addr c st from h.fresh)] at hn
    obtain ⟨_, rfl⟩ := Prod.mk.inj (Option.some.inj hn)
    exact rfl
  | initNode d st c n p v =>
    cases op with
    | insert k v =>
      obtain ⟨_, rfl⟩ := Prod.mk.inj (Option.some.inj hn)
      trivial
    | _ => cases hn
  | lostNode n p => exact h.fresh.elim
  | lostPNode p => exact h.fresh.elim
  | createStart r n =>
    simp only [next] at hn
    obtain ⟨p, _, _, rfl⟩ := storeP_inv hn
    exact hT
  | createKey r n =>
    simp only [next] at hn
    obtain ⟨p, _, _, rfl⟩ := storeP_inv hn
    exact hT
  | createValue r n =>
    simp only [next] at hn
    obtain ⟨p, _, _, rfl⟩ := storeP_inv hn
    exact hT
  | createEnd r n =>
    simp only [next] at hn
    obtain ⟨p, _, _, rfl⟩ := storeP_inv hn
    exact hT
  | createFlush r n =>
    simp only [next] at hn
    obtain ⟨p, _, _, rfl⟩ := barrier_inv hn
    exact hT
  | insertTest r n =>
    simp only [next] at hn
    split at hn <;> obtain ⟨_, rfl⟩ := Prod.mk.inj (Option.some.inj hn)
    · exact hT
    · obtain rfl := hT
      exact fun hne => absurd (Or.inl ⟨f.fits, rfl⟩) hne
  | insertLoad r n =>
    obtain ⟨_, rfl⟩ := Prod.mk.inj (Option.some.inj hn)
    exact hT
  | insertCas r n q =>
    rcases stateCas_cases (Option.some.inj hn) with ⟨_, _, rfl⟩ | ⟨_, rfl⟩ <;> exact hT
  | markTest d st n =>
    simp only [next, if_pos (show (s.store.node n).next.getState = .inserted from hT.2)] at hn
    obtain ⟨rfl, rfl⟩ := Prod.mk.inj (Option.some.inj hn)
    exact hT
  | markLoad d st n =>
    obtain ⟨rfl, rfl⟩ := Prod.mk.inj (Option.some.inj hn)
    exact ⟨hT.1, hT.2, rfl⟩
  | markCas d st n q =>
    have hk := kept (x := d) (by simp [Pc.refs])
      fun he => ne_of_ranks f.loc.1 f.loc.2.2.1 (Option.some.inj he)
    obtain ⟨hadj, hst, hq⟩ := hT
    have hnext : (s.store.node n).next = q.createRef .inserted := by
      rw [← hq, ← hst]
      rfl
    simp only [next, stateCas, if_pos hnext] at hn
    obtain ⟨_, rfl⟩ := Prod.mk.inj (Option.some.inj hn)
    exact ⟨rfl, hk.trans hadj⟩
  | destroyStore r d st n =>
    have hk := kept (x := d) (by simp [Pc.refs]) (by rintro ⟨⟩)
    simp only [next] at hn
    obtain ⟨p, _, _, rfl⟩ := storeP_inv hn
    exact ⟨hT.1, hk.trans hT.2⟩
  | destroyFlush r d st n =>
    have hk := kept (x := d) (by simp [Pc.refs]) (by rintro ⟨⟩)
    simp only [next] at hn
    obtain ⟨p, _, _, rfl⟩ := barrier_inv hn
    exact ⟨hT.1, hk.trans hT.2⟩
  | deleteTest r d st n =>
    obtain ⟨rfl, hadj⟩ := hT
    simp only [next, if_true] at hn
    split at hn <;> obtain ⟨rfl, rfl⟩ := Prod.mk.inj (Option.some.inj hn) <;>
      exact ⟨rfl, hadj⟩
  | deleteLoad r d st n =>
    obtain ⟨rfl, rfl⟩ := Prod.mk.inj (Option.some.inj hn)
    exact hT
  | deleteCas r d st n q =>
    have hk := kept (x := d) (by simp [Pc.refs])
      fun he => ne_of_ranks f.loc.1.1 f.loc.1.2.2.1 (Option.some.inj he)
    rcases stateCas_cases (Option.some.inj hn) with ⟨_, _, rfl⟩ | ⟨_, rfl⟩ <;>
      exact ⟨hT.1, hk.trans hT.2⟩
  | containsHead =>
    obtain ⟨c, hc, he⟩ := Option.map_eq_some_iff.1 hn
    obtain ⟨rfl, rfl⟩ := Prod.mk.inj he
    refine ⟨head, Heap.Reach.refl _, hc, ?_⟩
    rw [rank_head]
    exact WithBot.bot_lt_coe _
  | containsWalk c =>
    simp only [next] at hn
    split at hn
    · next hlt =>
      obtain ⟨e, hs, he⟩ := Option.map_eq_some_iff.1 hn
      obtain ⟨rfl, rfl⟩ := Prod.mk.inj he
      obtain ⟨p, hp, hadj, _⟩ := hT
      refine ⟨c, hp.tail hadj, hs, ?_⟩
      rw [rank_of_ne _ f.loc]
      exact WithBot.coe_lt_coe.2 hlt
    · next hge =>
      obtain ⟨rfl, rfl⟩ := Prod.mk.inj (Option.some.inj hn)
      exact walk_told h (not_lt.1 hge)
  | ret r => cases hn
  | _ =>
    obtain ⟨_, rfl⟩ := Prod.mk.inj (Option.some.inj hn)
    trivial

theorem Alone.step (h : Alone A s t op pc) (hs : (machine V).Tau t s s') :
    ∃ pc', Alone A s' t op pc' := by
  have hs : Step s (.tau t) s' := hs
  cases id hs with
  | tau _ op1 pc1 pc' slot σ ht hn hp ha =>
    obtain ⟨rfl, rfl⟩ := Prod.mk.inj (Option.some.inj (h.thread.symm.trans ht))
    have ht' := goto_thread_self s σ t (some (op, pc'))
    exact ⟨pc', h.sane.step hs, h.helped.step h.sane.1 hs,
      fun u hu => (goto_thread_other _ _ _ hu).trans (h.only u hu), ht',
      (step_fresh (h.sane.1.fit ht) hn h.fresh).1,
      fun x hx hd => settled_step h hn hs hx hd, effect_step h hs ht', told_step h hn⟩

def enter (t : Tid) (s : State V) (op : SetOp V) : State V :=
  s.goto s.store t (some (op, start op))

theorem Settled.alone (h : Settled A s) (hk : op.key < INT_MAX) (t : Tid) :
    Alone A (enter t s op) t op (start op) := by
  have hs : Step s (.call t op) (enter t s op) := Step.call t op (h.idle t) hk
  refine ⟨h.sane.step hs, h.helped.step h.sane.1 hs,
    fun u hu => (goto_thread_other _ _ _ hu).trans (h.idle u), goto_thread_self _ _ _ _, ?_, ?_,
    Or.inr ⟨start_took, h.abs⟩, ?_⟩
  · cases op <;> trivial
  · exact fun x hx hd => absurd hd (h.alive x hx)
  · cases op <;> trivial

theorem Alone.ret {r : Bool} (h : Alone A s t op pc) (hs : Step s (.ret t r) s') :
    (r = true ↔ op.Accepts A) ∧ Settled (op.apply A) s' := by
  cases id hs with
  | ret _ op1 _ ht =>
    obtain ⟨rfl, rfl⟩ := Prod.mk.inj (Option.some.inj (h.thread.symm.trans ht))
    have hd : ∀ x, s.store.heap.Linked x → ¬ s.store.heap.dead x := fun x hx hdx =>
      absurd (h.settled x hx hdx) nofun
    have idle : ∀ u, (s.goto s.store t none).thread u = none := by
      intro u
      by_cases hu : u = t
      · rw [hu]
        exact goto_thread_self _ _ _ _
      · exact (goto_thread_other _ _ _ hu).trans (h.only u hu)
    have settled : ∀ {B}, s.abs = B → Settled B (s.goto s.store t none) := fun hB =>
      ⟨h.sane.step hs, h.helped.step h.sane.1 hs, idle, hd, hB⟩
    rcases h.effect with ⟨hT, he⟩ | ⟨hT, hA⟩
    · obtain rfl : r = true := by
        rcases (took_none rfl rfl).1 hT with ha | ha <;> exact Pc.ret.inj ha.2
      exact ⟨⟨fun _ => he.accepts, fun _ => rfl⟩, settled he.eq_apply⟩
    · have hno : ¬ (Added op (.ret r) ∨ Erasing op (.ret r)) := (took_none rfl rfl).not.1 hT
      have hacc := h.told hno
      refine ⟨hacc, settled (hA.trans ?_)⟩
      cases op with
      | contains k => rfl
      | insert k v =>
        refine (SetOp.apply_of_not_accepts fun ha => hno (Or.inl ⟨trivial, ?_⟩)).symm
        rw [hacc.2 ha]
      | remove k =>
        refine (SetOp.apply_of_not_accepts fun ha => hno (Or.inr ⟨trivial, ?_⟩)).symm
        rw [hacc.2 ha]

def Guarded (s : State V) : Prop :=
  s.store.heap.Linked tail ∧ ¬ s.store.heap.dead head ∧ ¬ s.store.heap.dead tail

theorem Inv.guarded (h : Inv s) : Guarded s := by
  refine ⟨h.mem.chain.tail_linked, fun hd => ?_, fun hd => ?_⟩
  · have hd : (s.store.node head).next.state = .deleted := hd
    exact nomatch h.mem.chain.head_state.symm.trans hd
  · have hd : (s.store.node tail).next.state = .deleted := hd
    exact nomatch (congrArg Ptr.state h.mem.chain.tail_next).symm.trans hd

def Busy (t : Tid) (A : Set ℤ) (op : SetOp V) (s : State V) : Prop := ∃ pc, Alone A s t op pc

theorem serves (V : Type) (t : Tid) : (machine V).Serves (enter t) t
    (fun op => op.key < INT_MAX) Guarded Settled (Busy t) where
  call h hk := ⟨Step.call t _ (h.idle t) hk, _, h.alone hk t⟩
  tau := fun ⟨_, h⟩ hs => h.step hs
  ret := fun ⟨_, h⟩ hs => h.ret hs
  running := fun ⟨_, h⟩ he => nomatch h.thread.symm.trans he
  returns := fun ⟨_, h⟩ => h.sane.returns
  during := fun ⟨_, h⟩ => h.sane.1.guarded
  between h := h.sane.1.guarded

def Keys (s : State V) (ks : List ℤ) : Prop :=
  ∃ xs, s.store.heap.Path head xs tail ∧ xs.map (fun x => (s.store.node x).key) = ks

theorem Settled.keys (h : Settled A s) :
    ∃ ks, Keys s ks ∧ ks.Pairwise (· < ·) ∧ ∀ k, k ∈ ks ↔ k ∈ A := by
  have hm := h.sane.1.mem.chain
  have hnil : s.store.heap.succ tail = none := by
    change (s.store.node tail).next.ref = none
    rw [hm.tail_next]
  obtain ⟨xs, hp, hs, hx⟩ := Heap.exists_path_ordered hm.ordered
    (Heap.Live.root hm.good.head_root) hm.tail_linked (show head ≠ tail by decide) hnil
  have hr : ∀ x ∈ xs, s.store.heap.rank x = ((s.store.node x).key : WithBot ℤ) := fun x hm =>
    rank_of_ne _ ((hx x).1 hm).2.1
  refine ⟨_, ⟨xs, hp, rfl⟩, ?_, fun k => ?_⟩
  · rw [List.pairwise_map] at hs ⊢
    refine hs.imp_of_mem fun {x y} hx hy hlt => ?_
    rw [hr x hx, hr y hy] at hlt
    exact WithBot.coe_lt_coe.1 hlt
  · rw [← h.abs, mem_abs, List.mem_map]
    constructor
    · rintro ⟨x, hm, rfl⟩
      have hin : InList s.store x := (hx x).1 hm
      exact ⟨x, hin, Or.inl (h.inserted hin), rfl⟩
    · rintro ⟨x, hin, _, rfl⟩
      exact ⟨x, (hx x).2 hin, rfl⟩

theorem initial_settled (zero : V) : Settled ∅ (initial zero) := by
  refine ⟨⟨inv_initial zero, bounded_initial zero⟩, helped_initial zero, fun _ => rfl,
    fun x _ hd => ?_, initial_abs zero⟩
  have hd : ((initial zero).store.node x).next.state = .deleted := hd
  rw [initial_node] at hd
  split at hd
  · cases hd
  · cases hd

end SOFT.List
