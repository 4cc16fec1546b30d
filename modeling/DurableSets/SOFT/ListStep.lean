import DurableSets.SOFT.ListInv

namespace SOFT.List

open Chain

variable {V : Type} {σ σ' : Store V} {R R' W W' : Set Loc} {x y n c d : Loc} {p q : PLoc}
  {op : SetOp V} {pc : Pc} {st : NodeState} {h : Option Loc} {hp : Option PLoc}

-- how a node that others refer to may change in one step
structure Evolves (a b : Node V) : Prop where
  key : b.key = a.key
  pptr : b.pptr = a.pptr
  stamp : b.stamp = a.stamp
  next : a.next.state = .deleted → b.next = a.next
  state : b.next.state = a.next.state ∨ b.next.state.age = a.next.state.age + 1

theorem Evolves.refl (a : Node V) : Evolves a a := ⟨rfl, rfl, rfl, fun _ => rfl, Or.inl rfl⟩

theorem Evolves.age {a b : Node V} (e : Evolves a b) : a.next.state.age ≤ b.next.state.age := by
  rcases e.state with h | h
  · rw [h]
  · omega

def PFree (σ : Store V) (W : Set Loc) (p : PLoc) : Prop :=
  ∀ x, Owner σ W x → (σ.node x).pptr ≠ some p

structure Kept (σ : Store V) (R W : Set Loc) (h : Option Loc) (hp : Option PLoc)
    (R' W' : Set Loc) (σ' : Store V) : Prop where
  roots : R ⊆ R'
  writers : W ⊆ W'
  evolves : ∀ {x}, σ.heap.Live R x → Evolves (σ.node x) (σ'.node x)
  node : ∀ {x}, h ≠ some x → ¬ σ.heap.Live R x → σ'.node x = σ.node x
  avail : ∀ {x}, h ≠ some x → σ.avail x = false → σ'.avail x = false
  unlinked : ∀ {x}, σ.heap.Live R x → ¬ σ.heap.Linked x → ¬ σ'.heap.Linked x
  fresh : ∀ {x}, h ≠ some x → ¬ σ.heap.Live R x → ¬ σ'.heap.Live R' x
  progress : ∀ {x p}, Owner σ W x → (σ.node x).pptr = some p →
    Progress (σ.node x).stamp (σ.pline p) (σ'.pline p)
  pline : ∀ {p}, PFree σ W p → σ'.pline p = σ.pline p
  pavail : ∀ {p}, hp ≠ some p → σ.pavail p = false → σ'.pavail p = false
  free : ∀ {p}, hp ≠ some p → PFree σ W p → PFree σ' W' p

theorem evolves_setNext {r : Ptr} (hn : (σ.node d).next.state = .deleted → r = (σ.node d).next)
    (ha : r.state = (σ.node d).next.state ∨ r.state.age = (σ.node d).next.state.age + 1) :
    Evolves (σ.node x) ((σ.setNext d r).node x) := by
  obtain ⟨h1, h2, h3⟩ := setNext_data σ d r x
  refine ⟨h1, h2, h3, fun hx => ?_, ?_⟩
  · rw [setNext_next]
    split
    · next he =>
      subst he
      exact hn hx
    · rfl
  · rw [setNext_next]
    split
    · next he =>
      subst he
      exact ha
    · exact Or.inl rfl

theorem Effect.kept (hm : MemInv σ R W) (e : Effect σ R W h hp R' W' σ') :
    Kept σ R W h hp R' W' σ' := by
  have g := hm.chain.good
  cases e with
  | idle =>
    exact ⟨subset_rfl, subset_rfl, fun _ => Evolves.refl _, fun _ _ => rfl, fun _ => id,
      fun _ => id, fun _ => id, fun _ _ => Progress.refl _ _, fun _ => rfl, fun _ => id,
      fun _ => id⟩
  | pnode x p l _ _ owner pptr progress fits =>
    refine ⟨subset_rfl, subset_rfl, fun _ => Evolves.refl _, fun _ _ => rfl, fun _ => id,
      fun _ => id, fun _ => id, ?_, ?_, fun _ => id, fun _ => id⟩
    · intro y q hy hq
      by_cases he : q = p
      · subst he
        obtain rfl := hm.pnode.inj owner hy pptr hq
        rw [pline_setLine_self]
        exact progress
      · rw [pline_setLine_other σ l he]
        exact Progress.refl _ _
    · intro q hq
      refine pline_setLine_other σ l ?_
      rintro rfl
      exact hq x owner pptr
  | priv x m _ fresh =>
    have st := priv_steady (m := m) fresh
    have hnode : ∀ {y}, σ.heap.Live R y → (σ.write x m).node y = σ.node y := fun hy =>
      node_write_other σ m fun e => fresh (e ▸ hy)
    refine ⟨subset_rfl, subset_rfl, fun hy => ?_, fun hy _ => ?_, fun _ => id, ?_, ?_,
      fun _ _ => Progress.refl _ _, fun _ => rfl, fun _ => id, ?_⟩
    · rw [hnode hy]
      exact Evolves.refl _
    · exact node_write_other σ m fun e => hy (congrArg some e.symm)
    · exact fun _ hy hl => hy ((st.linked g).1 hl)
    · exact fun _ hy hl => hy (st.live.1 hl)
    · intro q _ hq y hy
      have hy' : Owner σ W y := hy.imp_left fun hy => ⟨(st.linked g).1 hy.1, hy.2⟩
      rw [hnode (hm.owner_live hy')]
      exact hq y hy'
  | link d n c p st live next alive fresh unavail new_next lt gt bounded pptr free taken unused =>
    have sp := link_splice live next alive fresh new_next nofun
    have hdata := setNext_data σ d (Ptr.addr n st)
    refine ⟨Set.subset_insert _ _, subset_rfl, fun _ => ?_, ?_, fun _ => id, ?_, ?_,
      fun _ _ => Progress.refl _ _, fun _ => rfl, fun _ => id, ?_⟩
    · refine evolves_setNext (fun hd => ?_) (Or.inl ?_)
      · rw [next] at hd
        exact absurd hd alive
      · rw [next]
        rfl
    · intro y _ hy
      exact node_write_other σ _ fun e => hy (e ▸ live)
    · intro y hl hy hy'
      rcases (sp.linked g).1 hy' with hy' | rfl
      · exact hy hy'
      · exact fresh hl
    · rintro y hn hy ⟨r, rfl | hr, hr'⟩
      · rcases sp.reach_from_new hr' with rfl | hr'
        · exact hn rfl
        · have hc := sp.pred.succ sp.pred_succ
          rcases sp.reach_or hc hr' with h | ⟨rfl, _⟩
          · exact hy (hc.reach h)
          · exact hn rfl
      · rcases sp.live_or ⟨r, hr, hr'⟩ with h | rfl
        · exact hy h
        · exact hn rfl
    · intro q hq hfree y hy
      rw [(hdata y).2.1]
      rcases hy with hy | hy
      · rcases (sp.linked g).1 hy.1 with hl | rfl
        · exact hfree y (Or.inl ⟨hl, hy.2⟩)
        · rw [pptr]
          exact fun e => hq e
      · exact hfree y (Or.inr hy)
  | advance x r s _ _ owner next age fits =>
    have halive : r.state ≠ .deleted := by
      intro hd
      rw [hd] at age
      cases s <;> simp [NodeState.age] at age
    have st := advance_steady (R := R) (s := s) next halive
    refine ⟨subset_rfl, subset_rfl, fun _ => ?_, ?_, fun _ => id, ?_, ?_,
      fun _ _ => Progress.refl _ _, fun _ => rfl, fun _ => id, ?_⟩
    · refine evolves_setNext (fun hd => ?_) (Or.inr ?_)
      · rw [next] at hd
        exact absurd hd halive
      · rw [next]
        exact age
    · intro y _ hy
      exact node_write_other σ _ fun e => hy (e ▸ hm.owner_live owner)
    · exact fun _ hy hl => hy ((st.linked g).1 hl)
    · exact fun _ hy hl => hy (st.live.1 hl)
    · intro q _ hq y hy
      rw [(setNext_data σ x _ y).2.1]
      exact hq y (hy.imp_left fun hy => ⟨(st.linked g).1 hy.1, hy.2⟩)
  | unlink d c succ _ _ live root next alive dead succ_next =>
    have hc := live.succ (succ_of_addr next)
    obtain ⟨e, he⟩ := unlink_succ hm.chain hc dead
    have bp := unlink_bypass hm.chain live next alive dead he (succ_next.symm.trans he)
    have hlink := @unlink_linked V σ R
    refine ⟨subset_rfl, Set.subset_insert _ _, fun _ => ?_, ?_, fun _ => id, ?_, ?_,
      fun _ _ => Progress.refl _ _, fun _ => rfl, fun _ => id, ?_⟩
    · refine evolves_setNext (fun hd => ?_) (Or.inl ?_)
      · rw [next] at hd
        exact absurd hd alive
      · rw [next]
        rfl
    · intro y _ hy
      exact node_write_other σ _ fun e => hy (e ▸ live)
    · exact fun _ hy hl => hy ((hlink hm.chain live next alive dead succ_next).1 hl).1
    · exact fun _ hy hl => hy (bp.live_of' hl)
    · intro q _ hq y hy
      rw [(setNext_data σ d _ y).2.1]
      rcases hy with hy | rfl | hy
      · exact hq y (Or.inl ⟨((hlink hm.chain live next alive dead succ_next).1 hy.1).1, hy.2⟩)
      · refine hq y (Or.inl ⟨?_, hm.chain.ne_head_of_dead dead, hm.chain.ne_tail_of_dead dead⟩)
        exact (g.alive live (alive_of_addr next alive)).tail (succ_of_addr next)
      · exact hq y (Or.inr hy)
  | take x _ _ avail =>
    refine ⟨subset_rfl, subset_rfl, fun _ => Evolves.refl _, fun _ _ => rfl, ?_, fun _ => id,
      fun _ => id, fun _ _ => Progress.refl _ _, fun _ => rfl, fun _ => id, fun _ => id⟩
    intro y _ hy
    by_cases he : y = x
    · simp [Store.take, he]
    · simpa [Store.take, he] using hy
  | give x _ fresh =>
    refine ⟨subset_rfl, subset_rfl, fun _ => Evolves.refl _, fun _ _ => rfl, ?_, fun _ => id,
      fun _ => id, fun _ _ => Progress.refl _ _, fun _ => rfl, fun _ => id, fun _ => id⟩
    intro y hn hy
    have he : y ≠ x := fun e => hn (congrArg some e.symm)
    simpa [Store.give, he] using hy
  | takeP p _ _ avail free =>
    refine ⟨subset_rfl, subset_rfl, fun _ => Evolves.refl _, fun _ _ => rfl, fun _ => id,
      fun _ => id, fun _ => id, fun _ _ => Progress.refl _ _, fun _ => rfl, ?_, fun _ => id⟩
    intro q _ hq
    by_cases he : q = p
    · simp [Store.takeP, he]
    · simpa [Store.takeP, he] using hq
  | giveP p _ idle free =>
    refine ⟨subset_rfl, subset_rfl, fun _ => Evolves.refl _, fun _ _ => rfl, fun _ => id,
      fun _ => id, fun _ => id, fun _ _ => Progress.refl _ _, fun _ => rfl, ?_, fun _ => id⟩
    intro q hne hq
    have he : q ≠ p := fun e => hne (congrArg some e.symm)
    simpa [Store.giveP, he] using hq

-- the slots a call holds alone: newNode and newPNode before they are linked
def Pc.owns : Pc → Option Loc
  | .initNode _ _ _ n _ _ => some n
  | .initNext _ _ _ n _ => some n
  | .linkCas _ _ _ n _ => some n
  | .lostNode n _ => some n
  | _ => none

def Pc.ownsP : Pc → Option PLoc
  | .pnodeAlloc _ _ _ p => some p
  | .allocNode _ _ _ p _ => some p
  | .initNode _ _ _ _ p _ => some p
  | .initNext _ _ _ _ p => some p
  | .linkCas _ _ _ _ p => some p
  | .lostNode _ p => some p
  | .lostPNode p => some p
  | _ => none

def Gap (σ : Store V) (op : SetOp V) (d : Loc) (st : NodeState) (c : Loc) : Prop :=
  rank σ d < (op.key : ℤ) ∧ ((op.key : ℤ) : WithBot ℤ) < rank σ c ∧ st ≠ .deleted

def TrimCtx.Ok (σ : Store V) (op : SetOp V) (n : Loc) : TrimCtx → Prop
  | .inFind s => (σ.node n).next.ref = some s
  | .inRemove => rank σ n = (op.key : ℤ)

def TrimOk (σ : Store V) (op : SetOp V) (t : TrimCtx) (d : Loc) (st : NodeState) (n : Loc) :
    Prop := rank σ d < (op.key : ℤ) ∧ st ≠ .deleted ∧ σ.heap.dead n ∧ t.Ok σ op n

def Filled (σ : Store V) (op : SetOp V) (n : Loc) (p : PLoc) : Prop :=
  (σ.node n).key = op.key ∧ (∀ k v, op = .insert k v → (σ.node n).value = v) ∧
    (σ.node n).pptr = some p ∧ Spare (σ.node n).pValidity (σ.pline p)

def AtPNode (σ : Store V) (n : Loc) (P : Stamp V → Line (PNode V) → Prop) : Prop :=
  ∃ p, (σ.node n).pptr = some p ∧ P (σ.node n).stamp (σ.pline p)

def Started (s : Stamp V) (l : Line (PNode V)) : Prop := l.cur.validStart = s.validity

def Keyed (s : Stamp V) (l : Line (PNode V)) : Prop := Started s l ∧ l.cur.key = s.key

def Valued (s : Stamp V) (l : Line (PNode V)) : Prop := Keyed s l ∧ l.cur.value = s.value

def Ended (s : Stamp V) (l : Line (PNode V)) : Prop := Created s l.cur

def Durable (s : Stamp V) (l : Line (PNode V)) : Prop := l.All (Created s)

def Erased (s : Stamp V) (l : Line (PNode V)) : Prop := l.cur.deleted = s.validity

def Gone (s : Stamp V) (l : Line (PNode V)) : Prop := l.All (Destroyed s)

def InsertOk (σ : Store V) (op : SetOp V) (n : Loc) : Prop := rank σ n = (op.key : ℤ) ∧
  ((σ.node n).next.state = .intendToInsert → AtPNode σ n Durable)

def MarkOk (σ : Store V) (op : SetOp V) (d : Loc) (st : NodeState) (n : Loc) : Prop :=
  rank σ d < (op.key : ℤ) ∧ st ≠ .deleted ∧ rank σ n = (op.key : ℤ) ∧
    1 ≤ (σ.node n).next.state.age

def DestroyOk (σ : Store V) (op : SetOp V) (d : Loc) (st : NodeState) (n : Loc) : Prop :=
  rank σ d < (op.key : ℤ) ∧ st ≠ .deleted ∧ rank σ n = (op.key : ℤ) ∧
    2 ≤ (σ.node n).next.state.age

def DeleteOk (σ : Store V) (op : SetOp V) (d : Loc) (st : NodeState) (n : Loc) : Prop :=
  DestroyOk σ op d st n ∧ ((σ.node n).next.state = .intendToDelete → AtPNode σ n Gone)

def Local (σ : Store V) (op : SetOp V) : Pc → Prop
  | .find => True
  | .findLoad d st c => rank σ d < (op.key : ℤ) ∧ st ≠ .deleted ∧ c ≠ head
  | .trimLoad t d st n => TrimOk σ op t d st n
  | .trimCas t d st n q => TrimOk σ op t d st n ∧ q = (σ.node n).next.createRef st
  | .trimFree t d st n => TrimOk σ op t d st n
  | .allocPNode d st c => Gap σ op d st c
  | .pnodeAlloc d st c p => Gap σ op d st c ∧ ∃ v, Spare v (σ.pline p)
  | .allocNode d st c p v => Gap σ op d st c ∧ Spare v (σ.pline p)
  | .initNode d st c _ p v => Gap σ op d st c ∧ Spare v (σ.pline p)
  | .initNext d st c n p => Gap σ op d st c ∧ Filled σ op n p
  | .linkCas d st c n p => Gap σ op d st c ∧ Filled σ op n p ∧
      (σ.node n).next = Ptr.addr c .intendToInsert
  | .lostNode _ p => ∃ v, Spare v (σ.pline p)
  | .lostPNode p => ∃ v, Spare v (σ.pline p)
  | .createStart _ n => rank σ n = (op.key : ℤ)
  | .createKey _ n => rank σ n = (op.key : ℤ) ∧ AtPNode σ n Started
  | .createValue _ n => rank σ n = (op.key : ℤ) ∧ AtPNode σ n Keyed
  | .createEnd _ n => rank σ n = (op.key : ℤ) ∧ AtPNode σ n Valued
  | .createFlush _ n => rank σ n = (op.key : ℤ) ∧ AtPNode σ n Ended
  | .insertTest _ n => InsertOk σ op n
  | .insertLoad _ n => InsertOk σ op n
  | .insertCas _ n _ => InsertOk σ op n
  | .markTest d st n => MarkOk σ op d st n
  | .markLoad d st n => MarkOk σ op d st n
  | .markCas d st n _ => MarkOk σ op d st n
  | .destroyStore _ d st n => DestroyOk σ op d st n
  | .destroyFlush _ d st n => DestroyOk σ op d st n ∧ AtPNode σ n Erased
  | .deleteTest _ d st n => DeleteOk σ op d st n
  | .deleteLoad _ d st n => DeleteOk σ op d st n
  | .deleteCas _ d st n _ => DeleteOk σ op d st n
  | .containsHead => True
  | .containsWalk c => c ≠ head
  | .ret _ => True

theorem Kept.rank_eq (k : Kept σ R W h hp R' W' σ') (hx : σ.heap.Live R x) :
    rank σ' x = rank σ x := rank_congr (k.evolves hx).key

theorem Kept.next (k : Kept σ R W h hp R' W' σ') (hx : σ.heap.Live R x) (hd : σ.heap.dead x) :
    (σ'.node x).next = (σ.node x).next := (k.evolves hx).next hd

theorem Kept.dead (k : Kept σ R W h hp R' W' σ') (hx : σ.heap.Live R x) (hd : σ.heap.dead x) :
    σ'.heap.dead x := by
  change (σ'.node x).next.state = .deleted
  rw [k.next hx hd]
  exact hd

theorem Kept.gap (k : Kept σ R W h hp R' W' σ') (hd : σ.heap.Live R d) (hc : σ.heap.Live R c)
    (hg : Gap σ op d st c) : Gap σ' op d st c := by
  unfold Gap
  rw [k.rank_eq hd, k.rank_eq hc]
  exact hg

theorem Kept.trimOk (k : Kept σ R W h hp R' W' σ') {t : TrimCtx} (hd : σ.heap.Live R d)
    (hn : σ.heap.Live R n) (ho : TrimOk σ op t d st n) : TrimOk σ' op t d st n := by
  obtain ⟨h1, h2, h3, h4⟩ := ho
  refine ⟨(k.rank_eq hd).symm ▸ h1, h2, k.dead hn h3, ?_⟩
  cases t with
  | inFind s => exact (congrArg Ptr.ref (k.next hn h3)).trans h4
  | inRemove => exact (k.rank_eq hn).trans h4

theorem Kept.atPNode (k : Kept σ R W h hp R' W' σ') {P : Stamp V → Line (PNode V) → Prop}
    (hP : ∀ {s a b}, Progress s a b → P s a → P s b) (hl : σ.heap.Live R n) (ho : Owner σ W n)
    (hn : AtPNode σ n P) : AtPNode σ' n P := by
  obtain ⟨p, h1, h2⟩ := hn
  have e := k.evolves hl
  refine ⟨p, e.pptr.trans h1, ?_⟩
  rw [e.stamp]
  exact hP (k.progress ho h1) h2

theorem started_progress {s : Stamp V} {a b : Line (PNode V)} (h : Progress s a b)
    (ha : Started s a) : Started s b := h.validStart ha

theorem keyed_progress {s : Stamp V} {a b : Line (PNode V)} (h : Progress s a b)
    (ha : Keyed s a) : Keyed s b := ⟨h.validStart ha.1, h.key ha.2⟩

theorem valued_progress {s : Stamp V} {a b : Line (PNode V)} (h : Progress s a b)
    (ha : Valued s a) : Valued s b := ⟨keyed_progress h ha.1, h.value ha.2⟩

theorem ended_progress {s : Stamp V} {a b : Line (PNode V)} (h : Progress s a b)
    (ha : Ended s a) : Ended s b :=
  ⟨h.validStart ha.1, h.validEnd ha.2.1, h.key ha.2.2.1, h.value ha.2.2.2⟩

theorem Kept.insertOk (k : Kept σ R W h hp R' W' σ') (hm : MemInv σ R W) (hk : op.key < INT_MAX)
    (hn : σ.heap.Live R n) (ho : InsertOk σ op n) : InsertOk σ' op n := by
  refine ⟨(k.rank_eq hn).trans ho.1, fun hs => ?_⟩
  have hs0 : (σ.node n).next.state = .intendToInsert := by
    refine NodeState.age_injective (le_antisymm ?_ (Nat.zero_le _))
    have := (k.evolves hn).age
    rwa [hs] at this
  have hl : σ.heap.Linked n := hm.chain.good.alive hn fun hd => by
    have hd : (σ.node n).next.state = .deleted := hd
    rw [hs0] at hd
    cases hd
  exact k.atPNode (fun h => h.created) hn (Or.inl (hm.chain.inList_of_rank hk ho.1 hl))
    (ho.2 hs0)

theorem Kept.markOk (k : Kept σ R W h hp R' W' σ') (hd : σ.heap.Live R d)
    (hn : σ.heap.Live R n) (ho : MarkOk σ op d st n) : MarkOk σ' op d st n := by
  obtain ⟨h1, h2, h3, h4⟩ := ho
  exact ⟨(k.rank_eq hd).symm ▸ h1, h2, (k.rank_eq hn).trans h3, h4.trans (k.evolves hn).age⟩

theorem Kept.destroyOk (k : Kept σ R W h hp R' W' σ') (hd : σ.heap.Live R d)
    (hn : σ.heap.Live R n) (ho : DestroyOk σ op d st n) : DestroyOk σ' op d st n := by
  obtain ⟨h1, h2, h3, h4⟩ := ho
  exact ⟨(k.rank_eq hd).symm ▸ h1, h2, (k.rank_eq hn).trans h3, h4.trans (k.evolves hn).age⟩

theorem Kept.deleteOk (k : Kept σ R W h hp R' W' σ') (hm : MemInv σ R W) (hk : op.key < INT_MAX)
    (hd : σ.heap.Live R d) (hn : σ.heap.Live R n) (ho : DeleteOk σ op d st n) :
    DeleteOk σ' op d st n := by
  refine ⟨k.destroyOk hd hn ho.1, fun hs => ?_⟩
  have hs0 : (σ.node n).next.state = .intendToDelete := by
    refine NodeState.age_injective (le_antisymm ?_ ho.1.2.2.2)
    have := (k.evolves hn).age
    rwa [hs] at this
  have hl : σ.heap.Linked n := hm.chain.good.alive hn fun hd => by
    have hd : (σ.node n).next.state = .deleted := hd
    rw [hs0] at hd
    cases hd
  exact k.atPNode (fun h => h.destroyed) hn
    (Or.inl (hm.chain.inList_of_rank hk ho.1.2.2.1 hl)) (ho.2 hs0)

theorem Kept.local (k : Kept σ R W h hp R' W' σ') (hm : MemInv σ R W) (hk : op.key < INT_MAX)
    (hr : ∀ r ∈ pc.refs, σ.heap.Live R r) (hw : ∀ n, pc.writes = some n → Owner σ W n)
    (ho : ∀ n, pc.owns = some n → σ'.node n = σ.node n)
    (hop : ∀ p, pc.ownsP = some p → σ'.pline p = σ.pline p) (hl : Local σ op pc) :
    Local σ' op pc := by
  have rk : ∀ r ∈ pc.refs, rank σ' r = rank σ r := fun r hr' => k.rank_eq (hr r hr')
  have gap : ∀ {d st c}, d ∈ pc.refs → c ∈ pc.refs → Gap σ op d st c → Gap σ' op d st c :=
    fun hd hc => k.gap (hr _ hd) (hr _ hc)
  have at' : ∀ {n} {P : Stamp V → Line (PNode V) → Prop},
      (∀ {s a b}, Progress s a b → P s a → P s b) → n ∈ pc.refs → pc.writes = some n →
      AtPNode σ n P → AtPNode σ' n P :=
    fun hP hn hw' => k.atPNode hP (hr _ hn) (hw _ hw')
  cases pc with
  | find => trivial
  | findLoad d st c =>
    refine ⟨?_, hl.2⟩
    rw [rk d (by simp [Pc.refs])]
    exact hl.1
  | trimLoad t d st n => exact k.trimOk (hr d (by simp [Pc.refs])) (hr n (by simp [Pc.refs])) hl
  | trimCas t d st n q =>
    have hn := hr n (by simp [Pc.refs])
    refine ⟨k.trimOk (hr d (by simp [Pc.refs])) hn hl.1, ?_⟩
    rw [k.next hn hl.1.2.2.1]
    exact hl.2
  | trimFree t d st n => exact k.trimOk (hr d (by simp [Pc.refs])) (hr n (by simp [Pc.refs])) hl
  | allocPNode d st c => exact gap (by simp [Pc.refs]) (by simp [Pc.refs]) hl
  | pnodeAlloc d st c p =>
    refine ⟨gap (by simp [Pc.refs]) (by simp [Pc.refs]) hl.1, ?_⟩
    rw [hop p rfl]
    exact hl.2
  | allocNode d st c p v =>
    refine ⟨gap (by simp [Pc.refs]) (by simp [Pc.refs]) hl.1, ?_⟩
    rw [hop p rfl]
    exact hl.2
  | initNode d st c n p v =>
    refine ⟨gap (by simp [Pc.refs]) (by simp [Pc.refs]) hl.1, ?_⟩
    rw [hop p rfl]
    exact hl.2
  | initNext d st c n p =>
    refine ⟨gap (by simp [Pc.refs]) (by simp [Pc.refs]) hl.1, ?_⟩
    unfold Filled
    rw [hop p rfl, ho n rfl]
    exact hl.2
  | linkCas d st c n p =>
    refine ⟨gap (by simp [Pc.refs]) (by simp [Pc.refs]) hl.1, ?_⟩
    unfold Filled
    rw [hop p rfl, ho n rfl]
    exact hl.2
  | lostNode n p =>
    change ∃ v, Spare v (σ'.pline p)
    rw [hop p rfl]
    exact hl
  | lostPNode p =>
    change ∃ v, Spare v (σ'.pline p)
    rw [hop p rfl]
    exact hl
  | createStart r n => exact (rk n (by simp [Pc.refs])).trans hl
  | createKey r n =>
    exact ⟨(rk n (by simp [Pc.refs])).trans hl.1,
      at' started_progress (by simp [Pc.refs]) rfl hl.2⟩
  | createValue r n =>
    exact ⟨(rk n (by simp [Pc.refs])).trans hl.1, at' keyed_progress (by simp [Pc.refs]) rfl hl.2⟩
  | createEnd r n =>
    exact ⟨(rk n (by simp [Pc.refs])).trans hl.1, at' valued_progress (by simp [Pc.refs]) rfl hl.2⟩
  | createFlush r n =>
    exact ⟨(rk n (by simp [Pc.refs])).trans hl.1, at' ended_progress (by simp [Pc.refs]) rfl hl.2⟩
  | insertTest r n => exact k.insertOk hm hk (hr n (by simp [Pc.refs])) hl
  | insertLoad r n => exact k.insertOk hm hk (hr n (by simp [Pc.refs])) hl
  | insertCas r n q => exact k.insertOk hm hk (hr n (by simp [Pc.refs])) hl
  | markTest d st n => exact k.markOk (hr d (by simp [Pc.refs])) (hr n (by simp [Pc.refs])) hl
  | markLoad d st n => exact k.markOk (hr d (by simp [Pc.refs])) (hr n (by simp [Pc.refs])) hl
  | markCas d st n q => exact k.markOk (hr d (by simp [Pc.refs])) (hr n (by simp [Pc.refs])) hl
  | destroyStore r d st n =>
    exact k.destroyOk (hr d (by simp [Pc.refs])) (hr n (by simp [Pc.refs])) hl
  | destroyFlush r d st n =>
    exact ⟨k.destroyOk (hr d (by simp [Pc.refs])) (hr n (by simp [Pc.refs])) hl.1,
      at' (fun h => h.deleted) (by simp [Pc.refs]) rfl hl.2⟩
  | deleteTest r d st n =>
    exact k.deleteOk hm hk (hr d (by simp [Pc.refs])) (hr n (by simp [Pc.refs])) hl
  | deleteLoad r d st n =>
    exact k.deleteOk hm hk (hr d (by simp [Pc.refs])) (hr n (by simp [Pc.refs])) hl
  | deleteCas r d st n q =>
    exact k.deleteOk hm hk (hr d (by simp [Pc.refs])) (hr n (by simp [Pc.refs])) hl
  | containsHead => trivial
  | containsWalk c => exact hl
  | ret r => trivial

end SOFT.List
