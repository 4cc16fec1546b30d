import DurableSets.Core.History
import DurableSets.SOFT.ListRun

namespace SOFT.List

open Chain

variable {V : Type} {σ σ' : Store V} {R R' W W' : Set Loc} {x y n c d : Loc} {p : PLoc}
  {slot : ℕ} {op : SetOp V} {pc pc' : Pc} {st : NodeState} {q : Ptr}

theorem change_of_eq {H H' : Heap Loc (WithBot ℤ)} (he : H' = H) : Change H H' R := by
  subst he
  exact Change.steady ⟨rfl, fun _ => rfl, fun _ => rfl, fun _ => id⟩

theorem age_alive {a b : NodeState} (h : b.age = a.age + 1) : a ≠ .deleted := by
  rintro rfl
  cases b <;> simp [NodeState.age] at h

theorem Effect.change {h : Option Loc} {hp : Option PLoc} (hm : MemInv σ R W)
    (e : Effect σ R W h hp R' W' σ') : Change σ.heap σ'.heap R := by
  cases e with
  | idle => exact change_of_eq rfl
  | pnode x p l _ _ owner pptr progress fits => exact change_of_eq rfl
  | priv x m _ fresh => exact Change.steady (priv_steady fresh)
  | link d n c p st live next alive fresh unavail new_next lt gt bounded pptr free taken unused =>
    exact Change.splice d n c (link_splice live next alive fresh new_next nofun)
  | advance x q s _ _ owner next age fits =>
    exact Change.steady (advance_steady next (age_alive age))
  | unlink d c succ _ _ live root next alive dead succ_next =>
    obtain ⟨e, he⟩ := unlink_succ hm.chain (live.succ (succ_of_addr next)) dead
    exact Change.bypass d c e
      (unlink_bypass hm.chain live next alive dead he (succ_next.symm.trans he))
  | take x _ _ avail => exact change_of_eq rfl
  | give x _ fresh => exact change_of_eq rfl
  | takeP p _ _ avail free => exact change_of_eq rfl
  | giveP p _ idle free => exact change_of_eq rfl

theorem Inv.change {s s' : State V} (hi : Inv s) {e : Event (SetOp V)} (hs : Step s e s') :
    Change s.store.heap s'.store.heap s.roots := by
  cases hs with
  | call t op idle hk => exact change_of_eq rfl
  | ret t op r ht => exact change_of_eq rfl
  | tau t op pc pc' slot σ ht hn hp ha =>
    obtain ⟨R', W', ok⟩ := tau_ok hi ht hn hp ha
    exact ok.effect.change hi.mem

def heaps (ρ : Run (machine V)) (m : ℕ) : Heap Loc (WithBot ℤ) := (ρ.state m).store.heap

theorem sorted_run (ρ : Run (machine V)) {m : ℕ} (hm : m ≤ ρ.length) :
    Sorted (heaps ρ m) (ρ.state m).roots :=
  ⟨(inv_run ρ m hm).mem.chain.good, (inv_run ρ m hm).mem.chain.ordered⟩

theorem change_run (ρ : Run (machine V)) {m : ℕ} (hm : m < ρ.length) :
    Change (heaps ρ m) (heaps ρ (m + 1)) (ρ.state m).roots :=
  (inv_run ρ m hm.le).change (ρ.step hm)

-- the compare-and-swaps of a state, with the states before and after and where a success leads
inductive Advances : Pc → Loc → Ptr → NodeState → NodeState → Pc → Prop
  | insert (r : Bool) (n : Loc) (q : Ptr) :
    Advances (.insertCas r n q) n q .intendToInsert .inserted (.insertTest r n)
  | mark (d : Loc) (st : NodeState) (n : Loc) (q : Ptr) :
    Advances (.markCas d st n q) n q .inserted .intendToDelete (.destroyStore true d st n)
  | delete (r : Bool) (d : Loc) (st : NodeState) (n : Loc) (q : Ptr) :
    Advances (.deleteCas r d st n q) n q .intendToDelete .deleted (.deleteTest r d st n)

theorem stateCas_cases {a b : NodeState} {won lost : Pc}
    (h : stateCas σ n q a b won lost = (σ', pc')) :
    ((σ.node n).next = q.createRef a ∧ σ' = σ.setNext n (q.createRef b) ∧ pc' = won) ∨
      (σ' = σ ∧ pc' = lost) := by
  unfold stateCas at h
  split at h
  · next hn =>
    obtain ⟨rfl, rfl⟩ := Prod.mk.inj h
    exact Or.inl ⟨hn, rfl, rfl⟩
  · obtain ⟨rfl, rfl⟩ := Prod.mk.inj h
    exact Or.inr ⟨rfl, rfl⟩

inductive Tau (σ : Store V) (R : Set Loc) : Pc → Store V → Pc → Prop
  | link (d : Loc) (st : NodeState) (c n : Loc) (p : PLoc)
    (hn : (σ.node d).next = Ptr.addr c st) :
    Tau σ R (.linkCas d st c n p) (σ.setNext d (Ptr.addr n st)) (.createStart true n)
  | unlink (t : TrimCtx) (d : Loc) (st : NodeState) (n : Loc) (q : Ptr)
    (hn : (σ.node d).next = Ptr.addr n st) :
    Tau σ R (.trimCas t d st n q) (σ.setNext d q) (.trimFree t d st n)
  | advance {pc pc' : Pc} {n : Loc} {q : Ptr} {a b : NodeState} (adv : Advances pc n q a b pc')
    (hn : (σ.node n).next = q.createRef a) : Tau σ R pc (σ.setNext n (q.createRef b)) pc'
  | still {pc pc' : Pc} {σ' : Store V} (h : ∀ x, σ.heap.Live R x → σ'.node x = σ.node x) :
    Tau σ R pc σ' pc'

theorem tau_cases (fresh : ∀ n, pc.owns = some n → ¬ σ.heap.Live R n)
    (hn : next σ op slot pc = some (σ', pc')) : Tau σ R pc σ' pc' := by
  have still : ∀ {σ' : Store V} {pc'}, σ'.node = σ.node → Tau σ R pc σ' pc' := fun h =>
    Tau.still fun x _ => congrFun h x
  have same : ∀ {o : Option Pc}, o.map (fun z => (σ, z)) = some (σ', pc') → σ'.node = σ.node := by
    intro o ho
    obtain ⟨z, _, he⟩ := Option.map_eq_some_iff.1 ho
    obtain ⟨rfl, _⟩ := Prod.mk.inj he
    rfl
  have priv : ∀ {n m pc'}, pc.owns = some n → Tau σ R pc (σ.write n m) pc' := fun ho =>
    Tau.still fun x hx => node_write_other σ _ fun e => fresh _ ho (e ▸ hx)
  cases pc with
  | find =>
    simp only [next] at hn
    obtain ⟨c, _, he⟩ := Option.map_eq_some_iff.1 hn
    obtain ⟨rfl, rfl⟩ := Prod.mk.inj he
    exact still rfl
  | findLoad d st c =>
    simp only [next] at hn
    split at hn
    · split at hn
      · exact still (same hn)
      · obtain ⟨c, _, he⟩ := Option.map_eq_some_iff.1 hn
        obtain ⟨rfl, rfl⟩ := Prod.mk.inj he
        exact still rfl
    · obtain ⟨c, _, he⟩ := Option.map_eq_some_iff.1 hn
      obtain ⟨rfl, rfl⟩ := Prod.mk.inj he
      exact still rfl
  | trimCas t d st n q =>
    simp only [next] at hn
    split at hn <;> obtain ⟨rfl, rfl⟩ := Prod.mk.inj (Option.some.inj hn)
    · next hnext => exact Tau.unlink t d st n q hnext
    · exact still rfl
  | trimFree t d st n =>
    simp only [next] at hn
    obtain ⟨c, _, he⟩ := Option.map_eq_some_iff.1 hn
    obtain ⟨rfl, rfl⟩ := Prod.mk.inj he
    exact still rfl
  | initNode d st c n p v =>
    cases op with
    | insert k v =>
      obtain ⟨rfl, rfl⟩ := Prod.mk.inj (Option.some.inj hn)
      exact priv rfl
    | remove k => cases hn
    | contains k => cases hn
  | initNext d st c n p =>
    obtain ⟨rfl, rfl⟩ := Prod.mk.inj (Option.some.inj hn)
    exact priv rfl
  | linkCas d st c n p =>
    simp only [next] at hn
    split at hn <;> obtain ⟨rfl, rfl⟩ := Prod.mk.inj (Option.some.inj hn)
    · next hnext => exact Tau.link d st c n p hnext
    · exact still rfl
  | insertTest r n =>
    simp only [next] at hn
    split at hn <;> obtain ⟨rfl, rfl⟩ := Prod.mk.inj (Option.some.inj hn) <;> exact still rfl
  | insertCas r n q =>
    rcases stateCas_cases (Option.some.inj hn) with ⟨h1, rfl, rfl⟩ | ⟨rfl, rfl⟩
    · exact Tau.advance (Advances.insert r n q) h1
    · exact still rfl
  | markTest d st n =>
    simp only [next] at hn
    split at hn <;> obtain ⟨rfl, rfl⟩ := Prod.mk.inj (Option.some.inj hn) <;> exact still rfl
  | markCas d st n q =>
    rcases stateCas_cases (Option.some.inj hn) with ⟨h1, rfl, rfl⟩ | ⟨rfl, rfl⟩
    · exact Tau.advance (Advances.mark d st n q) h1
    · exact still rfl
  | deleteTest r d st n =>
    simp only [next] at hn
    split at hn
    · obtain ⟨rfl, rfl⟩ := Prod.mk.inj (Option.some.inj hn)
      exact still rfl
    · split at hn <;> obtain ⟨rfl, rfl⟩ := Prod.mk.inj (Option.some.inj hn) <;> exact still rfl
  | deleteCas r d st n q =>
    rcases stateCas_cases (Option.some.inj hn) with ⟨h1, rfl, rfl⟩ | ⟨rfl, rfl⟩
    · exact Tau.advance (Advances.delete r d st n q) h1
    · exact still rfl
  | containsHead =>
    simp only [next] at hn
    obtain ⟨c, _, he⟩ := Option.map_eq_some_iff.1 hn
    obtain ⟨rfl, rfl⟩ := Prod.mk.inj he
    exact still rfl
  | containsWalk c =>
    simp only [next] at hn
    split at hn
    · obtain ⟨c, _, he⟩ := Option.map_eq_some_iff.1 hn
      obtain ⟨rfl, rfl⟩ := Prod.mk.inj he
      exact still rfl
    · obtain ⟨rfl, rfl⟩ := Prod.mk.inj (Option.some.inj hn)
      exact still rfl
  | ret r => cases hn
  | createStart r n =>
    simp only [next] at hn
    obtain ⟨p, _, rfl, rfl⟩ := storeP_inv hn
    exact still rfl
  | createKey r n =>
    simp only [next] at hn
    obtain ⟨p, _, rfl, rfl⟩ := storeP_inv hn
    exact still rfl
  | createValue r n =>
    simp only [next] at hn
    obtain ⟨p, _, rfl, rfl⟩ := storeP_inv hn
    exact still rfl
  | createEnd r n =>
    simp only [next] at hn
    obtain ⟨p, _, rfl, rfl⟩ := storeP_inv hn
    exact still rfl
  | createFlush r n =>
    simp only [next] at hn
    obtain ⟨p, _, rfl, rfl⟩ := barrier_inv hn
    exact still rfl
  | destroyStore r d st n =>
    simp only [next] at hn
    obtain ⟨p, _, rfl, rfl⟩ := storeP_inv hn
    exact still rfl
  | destroyFlush r d st n =>
    simp only [next] at hn
    obtain ⟨p, _, rfl, rfl⟩ := barrier_inv hn
    exact still rfl
  | _ =>
    obtain ⟨rfl, rfl⟩ := Prod.mk.inj (Option.some.inj hn)
    exact still rfl

theorem still_steady (h : ∀ x, σ.heap.Live R x → σ'.node x = σ.node x) :
    Heap.Steady σ.heap σ'.heap R where
  head := rfl
  succ hx := congrArg (fun n => n.next.ref) (h _ hx)
  rank hx := rank_congr (congrArg Node.key (h _ hx))
  dead {x} hx hd := by
    change (σ'.node x).next.state = .deleted
    rw [h x hx]
    exact hd

theorem Advances.state {a b : NodeState} (h : Advances pc n q a b pc') : b.age = a.age + 1 := by
  cases h <;> rfl

theorem Advances.mem_refs {a b : NodeState} (h : Advances pc n q a b pc') : n ∈ pc.refs := by
  cases h <;> simp [Pc.refs]

theorem trim_linked {t : TrimCtx} (hm : MemInv σ R W) (f : Fit σ R W op (.trimCas t d st n q))
    (hn : (σ.node d).next = Ptr.addr n st) :
    (σ.setNext d q).heap.Linked x ↔ σ.heap.Linked x ∧ x ≠ n := by
  obtain ⟨⟨_, hst, hd, _⟩, rfl⟩ := f.loc
  exact unlink_linked hm.chain (f.refs d (by simp [Pc.refs])) hn hst hd rfl

theorem linkCas_splice (f : Fit σ R W op (.linkCas d st c n p))
    (hn : (σ.node d).next = Ptr.addr c st) :
    Heap.Splice σ.heap (σ.setNext d (Ptr.addr n st)).heap R d n c := by
  obtain ⟨hg, _, hnn⟩ := f.loc
  exact link_splice (f.refs d (by simp [Pc.refs])) hn hg.2.2 (f.owned n rfl).1 hnn nofun

theorem Tau.state (f : Fit σ R W op pc) (h : Tau σ R pc σ' pc') (hx : σ.heap.Live R x) :
    (σ'.node x).next.state = (σ.node x).next.state ∨
      ∃ q a b, Advances pc x q a b pc' ∧ (σ.node x).next.state = a ∧
        (σ'.node x).next.state = b := by
  cases h with
  | link d st c n p hn =>
    left
    rw [setNext_next]
    split
    · next he => rw [he, hn]; rfl
    · rfl
  | unlink t d st n q hn =>
    left
    obtain ⟨_, rfl⟩ := f.loc
    rw [setNext_next]
    split
    · next he => rw [he, hn]; rfl
    · rfl
  | @advance _ _ n q a b adv hn =>
    by_cases he : x = n
    · subst he
      refine Or.inr ⟨q, a, b, adv, congrArg Ptr.state hn, ?_⟩
      rw [setNext_next, if_pos rfl]
      rfl
    · left
      rw [setNext_next, if_neg he]
  | still h => exact Or.inl (congrArg (fun n => n.next.state) (h x hx))

theorem Tau.inList (hm : MemInv σ R W) (f : Fit σ R W op pc) (h : Tau σ R pc σ' pc')
    (hx : InList σ' x) : InList σ x ∨
      (∃ d st c p, pc = .linkCas d st c x p ∧ (σ.node d).next = Ptr.addr c st ∧
        pc' = .createStart true x) ∧ (σ'.node x).next.state = .intendToInsert := by
  have g := hm.chain.good
  cases h with
  | link d st c n p hn =>
    have sp := linkCas_splice f hn
    rcases (sp.linked g).1 hx.1 with hl | rfl
    · exact Or.inl ⟨hl, hx.2⟩
    · refine Or.inr ⟨⟨d, st, c, p, rfl, hn, rfl⟩, ?_⟩
      have hne : x ≠ d := fun e => (f.owned x rfl).1 (e ▸ sp.pred)
      rw [setNext_next, if_neg hne, f.loc.2.2]
      rfl
  | unlink t d st n q hn => exact Or.inl ⟨((trim_linked hm f hn).1 hx.1).1, hx.2⟩
  | advance adv hn =>
    exact Or.inl ⟨((advance_steady hn (age_alive adv.state)).linked g).1 hx.1, hx.2⟩
  | still h => exact Or.inl ⟨((still_steady h).linked g).1 hx.1, hx.2⟩

theorem Tau.keeps (hm : MemInv σ R W) (f : Fit σ R W op pc) (h : Tau σ R pc σ' pc')
    (hx : InList σ x) : InList σ' x ∨
      ((σ.node x).next.state = .deleted ∧ pc'.retires = some x) := by
  have g := hm.chain.good
  cases h with
  | link d st c n p hn => exact Or.inl ⟨((linkCas_splice f hn).linked g).2 (Or.inl hx.1), hx.2⟩
  | unlink t d st n q hn =>
    by_cases he : x = n
    · exact Or.inr ⟨he ▸ f.loc.1.2.2.1, congrArg some he.symm⟩
    · exact Or.inl ⟨(trim_linked hm f hn).2 ⟨hx.1, he⟩, hx.2⟩
  | advance adv hn =>
    exact Or.inl ⟨((advance_steady hn (age_alive adv.state)).linked g).2 hx.1, hx.2⟩
  | still h => exact Or.inl ⟨((still_steady h).linked g).2 hx.1, hx.2⟩

inductive Flow (σ : Store V) (op : SetOp V) : Pc → Pc → Prop
  | find {c : Loc} (h : (σ.node head).next.ref = some c) :
    Flow σ op .find (.findLoad head (σ.node head).next.state c)
  | findStop {d c : Loc} {st : NodeState} {pc' : Pc} (alive : (σ.node c).next.state ≠ .deleted)
    (le : op.key ≤ (σ.node c).key)
    (h : afterFind σ d st c (σ.node c).next.state op = some pc') : Flow σ op (.findLoad d st c) pc'
  | findNext {d c e : Loc} {st : NodeState} (lt : (σ.node c).key < op.key)
    (h : (σ.node c).next.ref = some e) :
    Flow σ op (.findLoad d st c) (.findLoad c (σ.node c).next.state e)
  | findTrim {d c e : Loc} {st : NodeState} (dead : (σ.node c).next.state = .deleted)
    (h : (σ.node c).next.ref = some e) :
    Flow σ op (.findLoad d st c) (.trimLoad (.inFind e) d st c)
  | trimLoad {t : TrimCtx} {d n : Loc} {st : NodeState} :
    Flow σ op (.trimLoad t d st n) (.trimCas t d st n ((σ.node n).next.createRef st))
  | trimWon {t : TrimCtx} {d n : Loc} {st : NodeState} {q : Ptr} :
    Flow σ op (.trimCas t d st n q) (.trimFree t d st n)
  | trimLost {t : TrimCtx} {d n : Loc} {st : NodeState} {q : Ptr} :
    Flow σ op (.trimCas t d st n q) (afterTrim d st t)
  | trimFree {t : TrimCtx} {d n : Loc} {st : NodeState} :
    Flow σ op (.trimFree t d st n) (afterTrim d st t)
  | allocPNode {d c : Loc} {st : NodeState} {p : PLoc} :
    Flow σ op (.allocPNode d st c) (.pnodeAlloc d st c p)
  | pnodeAlloc {d c : Loc} {st : NodeState} {p : PLoc} {v : Bool} :
    Flow σ op (.pnodeAlloc d st c p) (.allocNode d st c p v)
  | allocNode {d c n : Loc} {st : NodeState} {p : PLoc} {v : Bool} :
    Flow σ op (.allocNode d st c p v) (.initNode d st c n p v)
  | initNode {d c n : Loc} {st : NodeState} {p : PLoc} {v : Bool} :
    Flow σ op (.initNode d st c n p v) (.initNext d st c n p)
  | initNext {d c n : Loc} {st : NodeState} {p : PLoc} :
    Flow σ op (.initNext d st c n p) (.linkCas d st c n p)
  | linkWon {d c n : Loc} {st : NodeState} {p : PLoc} (h : (σ.node d).next = Ptr.addr c st) :
    Flow σ op (.linkCas d st c n p) (.createStart true n)
  | linkLost {d c n : Loc} {st : NodeState} {p : PLoc} :
    Flow σ op (.linkCas d st c n p) (.lostNode n p)
  | lostNode {n : Loc} {p : PLoc} : Flow σ op (.lostNode n p) (.lostPNode p)
  | lostPNode {p : PLoc} : Flow σ op (.lostPNode p) .find
  | createStart {r : Bool} {n : Loc} : Flow σ op (.createStart r n) (.createKey r n)
  | createKey {r : Bool} {n : Loc} : Flow σ op (.createKey r n) (.createValue r n)
  | createValue {r : Bool} {n : Loc} : Flow σ op (.createValue r n) (.createEnd r n)
  | createEnd {r : Bool} {n : Loc} : Flow σ op (.createEnd r n) (.createFlush r n)
  | createFlush {r : Bool} {n : Loc} : Flow σ op (.createFlush r n) (.insertTest r n)
  | insertTest {r : Bool} {n : Loc} : Flow σ op (.insertTest r n) (.insertLoad r n)
  | insertDone {r : Bool} {n : Loc} (h : (σ.node n).next.state ≠ .intendToInsert) :
    Flow σ op (.insertTest r n) (.ret r)
  | insertLoad {r : Bool} {n : Loc} :
    Flow σ op (.insertLoad r n) (.insertCas r n (σ.node n).next)
  | insertCas {r : Bool} {n : Loc} {q : Ptr} : Flow σ op (.insertCas r n q) (.insertTest r n)
  | markTest {d n : Loc} {st : NodeState} : Flow σ op (.markTest d st n) (.markLoad d st n)
  | markHelp {d n : Loc} {st : NodeState} :
    Flow σ op (.markTest d st n) (.destroyStore false d st n)
  | markLoad {d n : Loc} {st : NodeState} :
    Flow σ op (.markLoad d st n) (.markCas d st n (σ.node n).next)
  | markWon {d n : Loc} {st : NodeState} {q : Ptr} (h : (σ.node n).next = q.createRef .inserted) :
    Flow σ op (.markCas d st n q) (.destroyStore true d st n)
  | markLost {d n : Loc} {st : NodeState} {q : Ptr} :
    Flow σ op (.markCas d st n q) (.markTest d st n)
  | destroyStore {r : Bool} {d n : Loc} {st : NodeState} :
    Flow σ op (.destroyStore r d st n) (.destroyFlush r d st n)
  | destroyFlush {r : Bool} {d n : Loc} {st : NodeState} :
    Flow σ op (.destroyFlush r d st n) (.deleteTest r d st n)
  | deleteTest {r : Bool} {d n : Loc} {st : NodeState} :
    Flow σ op (.deleteTest r d st n) (.deleteLoad r d st n)
  | deleteDone {d n : Loc} {st : NodeState} (h : (σ.node n).next.state ≠ .intendToDelete) :
    Flow σ op (.deleteTest true d st n) (.trimLoad .inRemove d st n)
  | deleteHelp {d n : Loc} {st : NodeState} (h : (σ.node n).next.state ≠ .intendToDelete) :
    Flow σ op (.deleteTest false d st n) (.ret false)
  | deleteLoad {r : Bool} {d n : Loc} {st : NodeState} :
    Flow σ op (.deleteLoad r d st n) (.deleteCas r d st n (σ.node n).next)
  | deleteCas {r : Bool} {d n : Loc} {st : NodeState} {q : Ptr} :
    Flow σ op (.deleteCas r d st n q) (.deleteTest r d st n)
  | containsHead {c : Loc} (h : (σ.node head).next.ref = some c) :
    Flow σ op .containsHead (.containsWalk c)
  | containsNext {c e : Loc} (lt : (σ.node c).key < op.key) (h : (σ.node c).next.ref = some e) :
    Flow σ op (.containsWalk c) (.containsWalk e)
  | containsStop {c : Loc} (le : op.key ≤ (σ.node c).key) :
    Flow σ op (.containsWalk c) (.ret ((σ.node c).key == op.key &&
      ((σ.node c).next.state == .inserted || (σ.node c).next.state == .intendToDelete)))

theorem flow_of_map {o : Option Loc} {g : Loc → Pc}
    (h : o.map (fun c => (σ, g c)) = some (σ', pc')) : ∃ c, o = some c ∧ g c = pc' := by
  obtain ⟨c, hc, he⟩ := Option.map_eq_some_iff.1 h
  exact ⟨c, hc, (Prod.mk.inj he).2⟩

theorem flow_of_next (hn : next σ op slot pc = some (σ', pc')) : Flow σ op pc pc' := by
  cases pc with
  | find =>
    obtain ⟨c, hc, rfl⟩ := flow_of_map hn
    exact Flow.find hc
  | findLoad d st c =>
    simp only [next] at hn
    split at hn
    · next hs =>
      split at hn
      · next hk =>
        obtain ⟨z, hz, he⟩ := Option.map_eq_some_iff.1 hn
        obtain ⟨rfl, rfl⟩ := Prod.mk.inj he
        exact Flow.findStop hs hk hz
      · next hk =>
        obtain ⟨e, he, rfl⟩ := flow_of_map hn
        exact Flow.findNext (not_le.1 hk) he
    · next hs =>
      obtain ⟨e, he, rfl⟩ := flow_of_map hn
      exact Flow.findTrim (not_not.1 hs) he
  | trimCas t d st n q =>
    simp only [next] at hn
    split at hn <;> obtain ⟨rfl, rfl⟩ := Prod.mk.inj (Option.some.inj hn)
    · exact Flow.trimWon
    · exact Flow.trimLost
  | trimFree t d st n =>
    obtain ⟨p, _, he⟩ := Option.map_eq_some_iff.1 hn
    obtain ⟨rfl, rfl⟩ := Prod.mk.inj he
    exact Flow.trimFree
  | initNode d st c n p v =>
    cases op with
    | insert k v =>
      obtain ⟨rfl, rfl⟩ := Prod.mk.inj (Option.some.inj hn)
      exact Flow.initNode
    | remove k => cases hn
    | contains k => cases hn
  | linkCas d st c n p =>
    simp only [next] at hn
    split at hn <;> obtain ⟨rfl, rfl⟩ := Prod.mk.inj (Option.some.inj hn)
    · next h => exact Flow.linkWon h
    · exact Flow.linkLost
  | createStart r n =>
    simp only [next] at hn
    obtain ⟨p, _, rfl, rfl⟩ := storeP_inv hn
    exact Flow.createStart
  | createKey r n =>
    simp only [next] at hn
    obtain ⟨p, _, rfl, rfl⟩ := storeP_inv hn
    exact Flow.createKey
  | createValue r n =>
    simp only [next] at hn
    obtain ⟨p, _, rfl, rfl⟩ := storeP_inv hn
    exact Flow.createValue
  | createEnd r n =>
    simp only [next] at hn
    obtain ⟨p, _, rfl, rfl⟩ := storeP_inv hn
    exact Flow.createEnd
  | createFlush r n =>
    simp only [next] at hn
    obtain ⟨p, _, rfl, rfl⟩ := barrier_inv hn
    exact Flow.createFlush
  | insertTest r n =>
    simp only [next] at hn
    split at hn <;> obtain ⟨rfl, rfl⟩ := Prod.mk.inj (Option.some.inj hn)
    · exact Flow.insertTest
    · next h => exact Flow.insertDone h
  | insertCas r n q =>
    rcases stateCas_cases (Option.some.inj hn) with ⟨_, _, rfl⟩ | ⟨_, rfl⟩ <;> exact Flow.insertCas
  | markTest d st n =>
    simp only [next] at hn
    split at hn <;> obtain ⟨rfl, rfl⟩ := Prod.mk.inj (Option.some.inj hn)
    · exact Flow.markTest
    · exact Flow.markHelp
  | markCas d st n q =>
    rcases stateCas_cases (Option.some.inj hn) with ⟨h, _, rfl⟩ | ⟨_, rfl⟩
    · exact Flow.markWon h
    · exact Flow.markLost
  | destroyStore r d st n =>
    simp only [next] at hn
    obtain ⟨p, _, rfl, rfl⟩ := storeP_inv hn
    exact Flow.destroyStore
  | destroyFlush r d st n =>
    simp only [next] at hn
    obtain ⟨p, _, rfl, rfl⟩ := barrier_inv hn
    exact Flow.destroyFlush
  | deleteTest r d st n =>
    simp only [next] at hn
    split at hn
    · obtain ⟨rfl, rfl⟩ := Prod.mk.inj (Option.some.inj hn)
      exact Flow.deleteTest
    · next h =>
      cases r with
      | true =>
        obtain ⟨rfl, rfl⟩ := Prod.mk.inj (Option.some.inj hn)
        exact Flow.deleteDone h
      | false =>
        obtain ⟨rfl, rfl⟩ := Prod.mk.inj (Option.some.inj hn)
        exact Flow.deleteHelp h
  | deleteCas r d st n q =>
    rcases stateCas_cases (Option.some.inj hn) with ⟨_, _, rfl⟩ | ⟨_, rfl⟩ <;> exact Flow.deleteCas
  | containsHead =>
    obtain ⟨c, hc, rfl⟩ := flow_of_map hn
    exact Flow.containsHead hc
  | containsWalk c =>
    simp only [next] at hn
    split at hn
    · next h =>
      obtain ⟨e, he, rfl⟩ := flow_of_map hn
      exact Flow.containsNext h he
    · next h =>
      obtain ⟨rfl, rfl⟩ := Prod.mk.inj (Option.some.inj hn)
      exact Flow.containsStop (not_lt.1 h)
  | ret r => cases hn
  | trimLoad t d st n =>
    obtain ⟨rfl, rfl⟩ := Prod.mk.inj (Option.some.inj hn)
    exact Flow.trimLoad
  | insertLoad r n =>
    obtain ⟨rfl, rfl⟩ := Prod.mk.inj (Option.some.inj hn)
    exact Flow.insertLoad
  | markLoad d st n =>
    obtain ⟨rfl, rfl⟩ := Prod.mk.inj (Option.some.inj hn)
    exact Flow.markLoad
  | deleteLoad r d st n =>
    obtain ⟨rfl, rfl⟩ := Prod.mk.inj (Option.some.inj hn)
    exact Flow.deleteLoad
  | _ =>
    obtain ⟨rfl, rfl⟩ := Prod.mk.inj (Option.some.inj hn)
    constructor

def winner (r : Bool) (n : Loc) : Option Loc := if r then some n else none

def TrimCtx.removes (n : Loc) : TrimCtx → Option Loc
  | .inFind _ => none
  | .inRemove => some n

def Pc.inserts : Pc → Option Loc
  | .createStart r n => winner r n
  | .createKey r n => winner r n
  | .createValue r n => winner r n
  | .createEnd r n => winner r n
  | .createFlush r n => winner r n
  | .insertTest r n => winner r n
  | .insertLoad r n => winner r n
  | .insertCas r n _ => winner r n
  | _ => none

def Pc.removes : Pc → Option Loc
  | .destroyStore r _ _ n => winner r n
  | .destroyFlush r _ _ n => winner r n
  | .deleteTest r _ _ n => winner r n
  | .deleteLoad r _ _ n => winner r n
  | .deleteCas r _ _ n _ => winner r n
  | .trimLoad t _ _ n => t.removes n
  | .trimCas t _ _ n _ => t.removes n
  | .trimFree t _ _ n => t.removes n
  | _ => none

theorem afterFind_quiet {cs : NodeState} (h : afterFind σ d st c cs op = some pc') :
    pc'.inserts = none ∧ pc'.removes = none ∧ pc' ≠ .ret true := by
  cases op with
  | insert k v =>
    simp only [afterFind] at h
    split at h
    · split at h <;> obtain rfl := Option.some.inj h <;> exact ⟨rfl, rfl, (by rintro ⟨⟩)⟩
    · obtain rfl := Option.some.inj h
      exact ⟨rfl, rfl, (by rintro ⟨⟩)⟩
  | remove k =>
    simp only [afterFind] at h
    split at h
    · obtain rfl := Option.some.inj h
      exact ⟨rfl, rfl, (by rintro ⟨⟩)⟩
    · split at h <;> obtain rfl := Option.some.inj h <;> exact ⟨rfl, rfl, (by rintro ⟨⟩)⟩
  | contains k => cases h

theorem afterTrim_inserts (d : Loc) (st : NodeState) (t : TrimCtx) :
    (afterTrim d st t).inserts = none ∧ (afterTrim d st t).removes = none := by
  cases t <;> exact ⟨rfl, rfl⟩

theorem Flow.inserts_new (h : Flow σ op pc pc') (hx : pc'.inserts = some x) :
    pc.inserts = some x ∨
      ∃ d st c p, pc = .linkCas d st c x p ∧ (σ.node d).next = Ptr.addr c st := by
  cases h with
  | findStop _ _ h => exact absurd ((afterFind_quiet h).1.symm.trans hx) nofun
  | linkWon h =>
    obtain rfl := Option.some.inj hx
    exact Or.inr ⟨_, _, _, _, rfl, h⟩
  | trimLost => exact absurd ((afterTrim_inserts _ _ _).1.symm.trans hx) nofun
  | trimFree => exact absurd ((afterTrim_inserts _ _ _).1.symm.trans hx) nofun
  | _ => first | exact Or.inl hx | cases hx

theorem Flow.inserts_keep (h : Flow σ op pc pc') (hx : pc.inserts = some x) :
    pc'.inserts = some x ∨ (pc' = .ret true ∧ (σ.node x).next.state ≠ .intendToInsert) := by
  cases h with
  | @insertDone r n h =>
    cases r with
    | true =>
      obtain rfl := Option.some.inj hx
      exact Or.inr ⟨rfl, h⟩
    | false => cases hx
  | _ => first | exact Or.inl hx | cases hx

theorem Flow.removes_new (h : Flow σ op pc pc') (hx : pc'.removes = some x) :
    pc.removes = some x ∨
      ∃ d st q, pc = .markCas d st x q ∧ (σ.node x).next = q.createRef .inserted := by
  cases h with
  | findStop _ _ h => exact absurd ((afterFind_quiet h).2.1.symm.trans hx) nofun
  | markWon h =>
    obtain rfl := Option.some.inj hx
    exact Or.inr ⟨_, _, _, rfl, h⟩
  | trimLost => exact absurd ((afterTrim_inserts _ _ _).2.symm.trans hx) nofun
  | trimFree => exact absurd ((afterTrim_inserts _ _ _).2.symm.trans hx) nofun
  | _ => exact Or.inl hx

theorem TrimCtx.removes_inv {t : TrimCtx} (h : t.removes n = some x) : t = .inRemove ∧ n = x := by
  cases t with
  | inFind s => cases h
  | inRemove => exact ⟨rfl, Option.some.inj h⟩

theorem Flow.removes_keep (h : Flow σ op pc pc') (hx : pc.removes = some x) :
    pc'.removes = some x ∨ (pc' = .ret true ∧ ∃ d st, pc = .trimFree .inRemove d st x ∨
      ∃ q, pc = .trimCas .inRemove d st x q) := by
  cases h with
  | @trimLost t d n st q =>
    obtain ⟨rfl, rfl⟩ := TrimCtx.removes_inv hx
    exact Or.inr ⟨rfl, d, st, Or.inr ⟨q, rfl⟩⟩
  | @trimFree t d n st =>
    obtain ⟨rfl, rfl⟩ := TrimCtx.removes_inv hx
    exact Or.inr ⟨rfl, d, st, Or.inl rfl⟩
  | _ => first | exact Or.inl hx | cases hx

end SOFT.List
