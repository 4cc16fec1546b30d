import DurableSets.Core.History
import DurableSets.SOFT.SkipListRun

namespace SOFT.SkipList

open Chain

variable {V : Type} {σ σ' : Store V} {L L' : Set Cursor} {x y p n c d slot : Loc}
  {i j m G level : ℕ} {op : SetOp V} {pc pc' : Pc} {path : Path} {q : Ptr} {k : ℤ}
  {st : NodeState} {e : Entry} {s s' : State V} {t : Tid} {ρ : Run (machine V)}

theorem Inv.change (hi : Inv G s) {e : Event (SetOp V)} (tidy : s.Tidy G e) (clean : s.Clean s')
    (hs : Step s e s') : ∃ L', Tower.Change s.store.tower s'.store.tower G s.live L' := by
  cases hs with
  | call t op idle hk => exact ⟨_, Tower.Change.steady (steady_of_eq rfl)⟩
  | ret t op r ht => exact ⟨_, Tower.Change.steady (steady_of_eq rfl)⟩
  | tau t op pc pc' slot level σ ht hn ha =>
    obtain ⟨L', e, _⟩ := tau_ok hi ht (tidy t op pc rfl ht) hn ha clean
    exact ⟨L', e.change hi.mem⟩

theorem Inv.base_change (hi : Inv 1 s) {e : Event (SetOp V)} (clean : s.Clean s')
    (hs : Step s e s') :
    Change (s.store.level 0) (s'.store.level 0) (Tower.floor s.live 0) := by
  obtain ⟨L', ch⟩ := hi.change (hi.tidy_one _) clean hs
  exact ch.level (live_closed _) Nat.one_pos

theorem Inv.evolves (hi : Inv 1 s) {e : Event (SetOp V)} (clean : s.Clean s') (hs : Step s e s')
    (hx : (x, i) ∈ s.live) : Evolves (s.store.node x) (s'.store.node x) := by
  cases hs with
  | call t op idle hk => exact Evolves.refl _
  | ret t op r ht => exact Evolves.refl _
  | tau t op pc pc' slot level σ ht hn ha =>
    obtain ⟨L', e, _⟩ := tau_ok hi ht (hi.tidy_one (.tau t) t op pc rfl ht) hn ha clean
    exact (e.kept hi.mem).evolves hx

def heaps (ρ : Run (machine V)) (m : ℕ) : Heap Loc (WithBot ℤ) := (ρ.state m).store.level 0

def roots (ρ : Run (machine V)) (m : ℕ) : Set Loc := Tower.floor (ρ.state m).live 0

theorem sorted_run (clean : Clean ρ) (hm : m ≤ ρ.length) : Sorted (heaps ρ m) (roots ρ m) :=
  ⟨(inv_run ρ clean m hm).mem.good, (inv_run ρ clean m hm).mem.ordered⟩

theorem change_run (clean : Clean ρ) (hm : m < ρ.length) :
    Change (heaps ρ m) (heaps ρ (m + 1)) (roots ρ m) :=
  (inv_run ρ clean m hm.le).base_change (clean m hm) (ρ.step hm)

theorem live_run (hx : (x, 0) ∈ (ρ.state m).live) : (heaps ρ m).Live (roots ρ m) x :=
  Heap.Live.root hx

theorem mem_live_of_linked (clean : Clean ρ) (hm : m ≤ ρ.length) (hx : (heaps ρ m).Linked x) :
    (x, 0) ∈ (ρ.state m).live := (inv_run ρ clean m hm).mem.live_of_linked hx

def InList (σ : Store V) (x : Loc) : Prop := (σ.level 0).Linked x ∧ x ≠ head ∧ x ≠ tail

theorem key_of_rank (h : rank σ x = (k : WithBot ℤ)) : (σ.node x).key = k := by
  unfold rank at h
  split at h
  · simp at h
  · exact WithBot.coe_injective h

theorem rank_inList (hx : InList σ x) : rank σ x = ((σ.node x).key : ℤ) := rank_of_ne σ hx.2.1

theorem MemInv.inList (hm : MemInv σ 1 L) (hk : k < INTPTR_MAX) (hx : (x, i) ∈ L)
    (hd : ¬ σ.dead i x) (hr : rank σ x = (k : WithBot ℤ)) : InList σ x := by
  refine ⟨hm.linked_of_alive (hm.base hx) Nat.one_pos (hm.alive_below hx (Nat.zero_le i) hd),
    ne_head_of_le hr.ge, ?_⟩
  rintro rfl
  rw [hm.tail_rank] at hr
  exact hk.ne (WithBot.coe_injective hr).symm

def SameBase (σ σ' : Store V) (x : Loc) : Prop :=
  (σ'.node x).next 0 = (σ.node x).next 0 ∧ (σ'.node x).key = (σ.node x).key

theorem SameBase.refl (σ : Store V) (x : Loc) : SameBase σ σ x := ⟨rfl, rfl⟩

theorem SameBase.state (h : SameBase σ σ' x) : σ'.stateAt 0 x = σ.stateAt 0 x :=
  congrArg Ptr.state h.1

theorem sameBase_flush (σ : Store V) (n x : Loc) : SameBase σ (σ.flush n) x :=
  ⟨congrFun (touch_same (same_flush σ n) x).next 0, (touch_same (same_flush σ n) x).key⟩

theorem sameBase_write {a : Node V} (hk : a.key = (σ.node n).key)
    (hn : a.next 0 = (σ.node n).next 0) (x : Loc) : SameBase σ (σ.write n a) x := by
  unfold SameBase
  rw [node_write]
  split
  · next h => exact h ▸ ⟨hn, hk⟩
  · exact ⟨rfl, rfl⟩

theorem sameBase_other {a : Node V} (h : x ≠ n) : SameBase σ (σ.write n a) x := by
  unfold SameBase
  rw [node_write_other σ a h]
  exact ⟨rfl, rfl⟩

theorem sameBase_setNext (h : (x, 0) ≠ (p, i)) : SameBase σ (σ.setNext p i q) x :=
  ⟨next_setNext_other σ q h, (setNext_data σ p i q x).key⟩

theorem sameBase_above (h : 1 ≤ i) (x : Loc) : SameBase σ (σ.setNext p i q) x :=
  sameBase_setNext fun e => by
    have := (Prod.mk.inj e).2
    omega

inductive Tau (σ : Store V) (L : Set Cursor) : Pc → Store V → Pc → Prop
  | link (path : Path) (n : Loc) (e : Entry) (he : path[0]? = some e)
    (hq : (σ.node e.pred).next 0 = e.succs) : Tau σ L (.linkCas path n)
      (σ.setNext e.pred 0 (Ptr.addr n e.predState)) (.helpStore (.linked path) n)
  | state (c : StateCtx) (n : Loc) (q : Ptr) (hq : (σ.node n).next 0 = q.createRef c.expected) :
    Tau σ L (.stateCas c n q) (σ.setNext n 0 (q.createRef c.newState)) (afterState σ n true c)
  | unlink (c : FindCtx) (p : Loc) (st : NodeState) (d s : Loc) (path : Path)
    (hq : (σ.node p).next 0 = Ptr.addr d st) : Tau σ L (.findCas c 0 p st d s path)
      (σ.setNext p 0 (Ptr.addr s st)) (findDone c ⟨p, s, st⟩ path 0)
  | still {pc pc' : Pc} {σ' : Store V} (h : ∀ x, (x, 0) ∈ L → SameBase σ σ' x) : Tau σ L pc σ' pc'

theorem tau_cases (f : Fit σ L op pc) (hn : next σ op slot level pc = some (σ', pc')) :
    Tau σ L pc σ' pc' := by
  have priv : ∀ {n a pc'}, pc.pending = some (n, 0) → Tau σ L pc (σ.write n a) pc' := fun hp =>
    .still fun x hx => sameBase_other fun e => f.fresh _ hp (e ▸ hx)
  cases act_of_next hn with
  | @findWon c i p d s st path hq =>
    cases i with
    | zero => exact .unlink c p st d s path hq
    | succ i => exact .still fun x _ => sameBase_above (Nat.le_add_left 1 i) x
  | helpStore => exact .still fun x _ => sameBase_write (by rfl) (by rfl) x
  | helpFlush => exact .still fun x _ => sameBase_flush σ _ x
  | destroyStore => exact .still fun x _ => sameBase_write (by rfl) (by rfl) x
  | destroyFlush => exact .still fun x _ => sameBase_flush σ _ x
  | @stateWon c n q hq => exact .state c n q hq
  | @linkWon path n e he hq => exact .link path n e he hq
  | createStart => exact priv rfl
  | createKey => exact priv rfl
  | createValue => exact priv rfl
  | createTopLevel => exact priv rfl
  | createValidity => exact priv rfl
  | initNext => exact priv rfl
  | initLast => exact priv rfl
  | lostStore => exact priv rfl
  | upperWon => exact .still fun x _ => sameBase_above f.loc.1.pos x
  | upperLink => exact .still fun x _ => sameBase_above f.loc.1.pos x
  | markWon => exact .still fun x _ => sameBase_above f.loc.2 x
  | _ => exact .still fun x _ => ⟨rfl, rfl⟩

theorem link_splice (hm : MemInv σ 1 L) (f : Fit σ L op (.linkCas path n))
    (he : path[0]? = some e) (hq : (σ.node e.pred).next 0 = e.succs) :
    Heap.Splice (σ.level 0) ((σ.setNext e.pred 0 (Ptr.addr n e.predState)).level 0)
      (Tower.floor L 0) e.pred n e.succ ∧
    (σ.setNext e.pred 0 (Ptr.addr n e.predState)).stateAt 0 n = .intendToInsert := by
  have ho : NextOk σ op path n (σ.node n).topLevel := f.loc
  have hfresh : (n, 0) ∉ L := f.fresh _ rfl
  have hel : (e.pred, 0) ∈ L := f.refs _ (Path.get_refs (i := 0) he).1
  have hnh : n ≠ head := by
    rintro rfl
    exact hfresh hm.head_mem
  have hrank : rank σ n = (op.key : ℤ) := rank_eq_of_key ho.init.key hnh
  obtain ⟨e', he', hfill⟩ := ho.filled 0 ho.pos
  obtain rfl := Option.some.inj (he.symm.trans he')
  have sp := join_splice (G := 1) hel hq (ho.init.gap.levels.tag he).1 hfresh
    (fun j h => by omega) (ref_of_addr hfill) fun _ => ⟨alive_of_addr hfill (by rintro ⟨⟩), by
      rw [hrank]
      exact ho.init.gap.levels.below e (List.mem_of_getElem? he), by
      rw [hrank]
      exact ho.init.gap.gap e he⟩
  exact ⟨sp.level hm.sound.closed Nat.one_pos,
    (stateAt_move (q := Ptr.addr n e.predState) (state_of_addr hq)).trans (state_of_addr hfill)⟩

theorem unlink_bypass {c : FindCtx} (hm : MemInv σ 1 L) (f : Fit σ L op (.findCas c 0 p st d y path))
    (hq : (σ.node p).next 0 = Ptr.addr d st) :
    Heap.Bypass (σ.level 0) ((σ.setNext p 0 (Ptr.addr y st)).level 0) (Tower.floor L 0) p d y := by
  obtain ⟨_, _, _, _, ht, _, hds⟩ := f.loc
  exact (swing_bypass hm (f.refs (p, 0) (by simp [Pc.refs])) hq ht.1 hds).level hm.sound.closed

theorem state_steady {c : StateCtx} (hm : MemInv σ 1 L)
    (hq : (σ.node n).next 0 = q.createRef c.expected) : Heap.Steady (σ.level 0)
      ((σ.setNext n 0 (q.createRef c.newState)).level 0) (Tower.floor L 0) := by
  refine (word_steady (h := none) ?_ (Or.inl ?_)).level hm.sound.closed 0
  · unfold Store.dead Store.stateAt
    rw [hq]
    cases c <;> rintro ⟨⟩
  · rw [hq]
    rfl

theorem still_steady (hc : σ.tower.Closed L) (h : ∀ x, (x, 0) ∈ L → SameBase σ σ' x) :
    Heap.Steady (σ.level 0) (σ'.level 0) (Tower.floor L 0) where
  head := rfl
  succ hx := congrArg Ptr.ref (h _ (hc.live_iff.1 hx)).1
  rank hx := rank_congr (h _ (hc.live_iff.1 hx)).2
  dead hx hd := (h _ (hc.live_iff.1 hx)).state.trans hd

theorem Tau.state_or (h : Tau σ L pc σ' pc') (hx : (x, 0) ∈ L) :
    σ'.stateAt 0 x = σ.stateAt 0 x ∨ ∃ c q, pc = .stateCas c x q ∧ pc' = afterState σ x true c ∧
      σ.stateAt 0 x = c.expected ∧ σ'.stateAt 0 x = c.newState := by
  cases h with
  | link path n e he hq =>
    exact Or.inl (stateAt_move (q := Ptr.addr n e.predState) (state_of_addr hq))
  | unlink c p st d s path hq =>
    exact Or.inl (stateAt_move (q := Ptr.addr s st) (state_of_addr hq))
  | state c n q hq =>
    by_cases he : x = n
    · subst he
      exact Or.inr ⟨c, q, rfl, rfl, congrArg Ptr.state hq, stateAt_setNext_self σ x 0 _⟩
    · exact Or.inl (stateAt_setNext_other σ _ fun e => he (Prod.mk.inj e).1)
  | still h => exact Or.inl (h x hx).state

theorem Tau.linked_or (hm : MemInv σ 1 L) (f : Fit σ L op pc) (h : Tau σ L pc σ' pc') (hx : (σ'.level 0).Linked x) : (σ.level 0).Linked x ∨
    (∃ path, pc = .linkCas path x ∧ pc' = .helpStore (.linked path) x) ∧
      σ'.stateAt 0 x = .intendToInsert := by
  cases h with
  | link path n e he hq =>
    obtain ⟨sp, hst⟩ := link_splice hm f he hq
    rcases (sp.linked hm.good).1 hx with hx | rfl
    · exact Or.inl hx
    · exact Or.inr ⟨⟨path, rfl, rfl⟩, hst⟩
  | unlink c p st d s path hq => exact Or.inl (((unlink_bypass hm f hq).linked hm.good).1 hx).1
  | state c n q hq => exact Or.inl (((state_steady hm hq).linked hm.good).1 hx)
  | still h => exact Or.inl (((still_steady hm.sound.closed h).linked hm.good).1 hx)

theorem Tau.mem_or (hm : MemInv σ 1 L) (f : Fit σ L op pc) (h : Tau σ L pc σ' pc')
    (ch : Tower.Change σ.tower σ'.tower 1 L L') (hx : (x, 0) ∈ L') : (x, 0) ∈ L ∨
      ∃ path, pc = .linkCas path x ∧ pc' = .helpStore (.linked path) x := by
  by_cases hl : (x, 0) ∈ L
  · exact Or.inl hl
  · rcases h.linked_or hm f (ch.linked_new hm.sound Nat.one_pos hx hl) with h | h
    · exact Or.inl (hm.live_of_linked h)
    · exact Or.inr h.1

end SOFT.SkipList
