import DurableSets.SOFT.List

namespace SOFT.List

open Chain

variable {V : Type} {σ σ' : Store V} {R R' W W' : Set Loc} {x y n c d : Loc} {p q : PLoc}
  {op : SetOp V} {pc : Pc} {st : NodeState}

theorem node_write (σ : Store V) (x : Loc) (m : Node V) (y : Loc) :
    (σ.write x m).node y = if y = x then m else σ.node y := by
  simp only [Store.write, Function.update_apply]

theorem node_write_other (σ : Store V) (m : Node V) (h : y ≠ x) :
    (σ.write x m).node y = σ.node y := by rw [node_write, if_neg h]

theorem setNext_next (σ : Store V) (x : Loc) (q : Ptr) (y : Loc) :
    ((σ.setNext x q).node y).next = if y = x then q else (σ.node y).next := by
  rw [Store.setNext, node_write]
  split <;> rfl

theorem setNext_data (σ : Store V) (x : Loc) (q : Ptr) (y : Loc) :
    ((σ.setNext x q).node y).key = (σ.node y).key ∧
      ((σ.setNext x q).node y).pptr = (σ.node y).pptr ∧
      ((σ.setNext x q).node y).stamp = (σ.node y).stamp := by
  rw [Store.setNext, node_write]
  split
  · next h => rw [h]; exact ⟨rfl, rfl, rfl⟩
  · exact ⟨rfl, rfl, rfl⟩

@[simp] theorem setNext_pline (σ : Store V) (x : Loc) (q : Ptr) :
    (σ.setNext x q).pline = σ.pline := rfl

@[simp] theorem setNext_pavail (σ : Store V) (x : Loc) (q : Ptr) :
    (σ.setNext x q).pavail = σ.pavail := rfl

@[simp] theorem setNext_avail (σ : Store V) (x : Loc) (q : Ptr) :
    (σ.setNext x q).avail = σ.avail := rfl

@[simp] theorem pline_setLine_self (σ : Store V) (p : PLoc) (l : Line (PNode V)) :
    (σ.setLine p l).pline p = l := by simp [Store.setLine]

theorem pline_setLine_other (σ : Store V) (l : Line (PNode V)) (h : q ≠ p) :
    (σ.setLine p l).pline q = σ.pline q := by simp [Store.setLine, h]

theorem rank_of_ne (σ : Store V) (h : x ≠ head) : rank σ x = ((σ.node x).key : ℤ) := by
  simp [rank, h]

@[simp] theorem rank_head (σ : Store V) : rank σ head = ⊥ := by simp [rank]

theorem rank_congr (h : (σ'.node x).key = (σ.node x).key) : rank σ' x = rank σ x := by
  simp only [rank, h]

theorem ne_head_of_rank {k : ℤ} (h : rank σ x = k) : x ≠ head := by
  rintro rfl
  simp at h

theorem key_of_rank {k : ℤ} (h : rank σ x = k) : (σ.node x).key = k := by
  unfold rank at h
  split at h
  · simp at h
  · exact WithBot.coe_injective h

theorem ne_head_of_lt {k : ℤ} (h : (k : WithBot ℤ) < rank σ x) : x ≠ head := by
  rintro rfl
  simp at h

structure ChainInv (σ : Store V) (R : Set Loc) : Prop where
  good : σ.heap.Good R
  ordered : σ.heap.Ordered R
  head_state : (σ.node head).next.state = .inserted
  tail_linked : σ.heap.Linked tail
  tail_next : (σ.node tail).next = ⟨none, .inserted⟩
  tail_key : (σ.node tail).key = INT_MAX
  complete : ∀ {x}, σ.heap.Live R x → x ≠ tail → (σ.node x).next.ref ≠ none
  bounded : ∀ {x}, σ.heap.Live R x → x ≠ tail → rank σ x < INT_MAX
  fresh : ∀ {x}, σ.avail x = true → ¬ σ.heap.Live R x

def InList (σ : Store V) (x : Loc) : Prop := σ.heap.Linked x ∧ x ≠ head ∧ x ≠ tail

-- a node whose PNode nobody else may get
def Owner (σ : Store V) (W : Set Loc) (x : Loc) : Prop := InList σ x ∨ x ∈ W

structure PNodeInv (σ : Store V) (W : Set Loc) : Prop where
  owned : ∀ {x}, Owner σ W x → ∃ p, (σ.node x).pptr = some p ∧
    Matches (σ.node x).stamp (σ.pline p) (σ.node x).next.state
  inj : ∀ {x y p}, Owner σ W x → Owner σ W y → (σ.node x).pptr = some p →
    (σ.node y).pptr = some p → x = y
  taken : ∀ {x p}, InList σ x → (σ.node x).pptr = some p → σ.pavail p = false
  idle : ∀ {p}, σ.pavail p = true → ∃ v, Spare v (σ.pline p)
  valid : ∀ {p c}, c ∈ (σ.pline p).contents → c.isValid = true →
    ∃ x, InList σ x ∧ (σ.node x).pptr = some p ∧ (σ.node x).next.state ≠ .deleted

structure MemInv (σ : Store V) (R W : Set Loc) : Prop where
  chain : ChainInv σ R
  pnode : PNodeInv σ W
  writers : ∀ {x}, x ∈ W → x ∈ R ∧ x ≠ head ∧ x ≠ tail

namespace ChainInv

theorem reroot (h : ChainInv σ R) (hh : head ∈ R') (hR : ∀ r ∈ R', σ.heap.Live R r) :
    ChainInv σ R' where
  good := h.good.reroot hh hR
  ordered := Heap.Ordered.reroot h.ordered hR
  head_state := h.head_state
  tail_linked := h.tail_linked
  tail_next := h.tail_next
  tail_key := h.tail_key
  complete hx := h.complete (hx.mono hR)
  bounded hx := h.bounded (hx.mono hR)
  fresh ha hx := h.fresh ha (hx.mono hR)

theorem head_live (h : ChainInv σ R) : σ.heap.Live R head := Heap.Live.root h.good.head_root

theorem head_alive (h : ChainInv σ R) : ¬ σ.heap.dead head := by
  intro hd
  have hd : (σ.node head).next.state = .deleted := hd
  rw [h.head_state] at hd
  cases hd

theorem succ_ne_head (h : ChainInv σ R) (hx : σ.heap.Live R x) (hs : σ.heap.succ x = some y) :
    y ≠ head := by
  rintro rfl
  have hlt : rank σ x < rank σ head := h.ordered hx hs
  simp at hlt

theorem tail_live (h : ChainInv σ R) : σ.heap.Live R tail := h.good.live_of_linked h.tail_linked

theorem ne_tail_of_dead (h : ChainInv σ R) (hd : σ.heap.dead x) : x ≠ tail := by
  rintro rfl
  have hd : (σ.node tail).next.state = .deleted := hd
  rw [h.tail_next] at hd
  cases hd

theorem ne_head_of_dead (h : ChainInv σ R) (hd : σ.heap.dead x) : x ≠ head := by
  rintro rfl
  exact h.head_alive hd

theorem tail_rank (h : ChainInv σ R) : rank σ tail = INT_MAX := by
  rw [rank_of_ne σ (by decide), h.tail_key]

theorem ne_tail_of_rank (h : ChainInv σ R) {k : ℤ} (hk : k < INT_MAX) (hx : rank σ x ≤ k) :
    x ≠ tail := by
  rintro rfl
  rw [h.tail_rank] at hx
  exact absurd (WithBot.coe_le_coe.1 hx) (not_le.2 hk)

theorem inList_of_rank (h : ChainInv σ R) (hk : op.key < INT_MAX) (hx : rank σ x = (op.key : ℤ))
    (hl : σ.heap.Linked x) : InList σ x :=
  ⟨hl, ne_head_of_rank hx, h.ne_tail_of_rank hk hx.le⟩

end ChainInv

namespace MemInv

theorem reroot (h : MemInv σ R W) (hh : head ∈ R') (hR : ∀ r ∈ R', σ.heap.Live R r)
    (hW : ∀ x ∈ W', Owner σ W x) (hWR : ∀ x ∈ W', x ∈ R') : MemInv σ R' W' := by
  have hO : ∀ {x}, Owner σ W' x → Owner σ W x := fun hx => hx.elim Or.inl (hW _)
  refine ⟨h.chain.reroot hh hR, ⟨fun hx => h.pnode.owned (hO hx),
    fun hx hy => h.pnode.inj (hO hx) (hO hy), h.pnode.taken, h.pnode.idle, h.pnode.valid⟩, ?_⟩
  intro x hx
  refine ⟨hWR x hx, ?_⟩
  rcases hW x hx with hx | hx
  · exact hx.2
  · exact (h.writers hx).2

theorem owner_live (h : MemInv σ R W) (hx : Owner σ W x) : σ.heap.Live R x :=
  hx.elim (fun hx => h.chain.good.live_of_linked hx.1) fun hx => Heap.Live.root (h.writers hx).1

theorem owner_ne (h : MemInv σ R W) (hx : Owner σ W x) : x ≠ head ∧ x ≠ tail :=
  hx.elim (fun hx => hx.2) fun hx => (h.writers hx).2

theorem inList_of_alive (h : MemInv σ R W) (hx : Owner σ W x) (hd : ¬ σ.heap.dead x) :
    InList σ x := ⟨h.chain.good.alive (h.owner_live hx) hd, h.owner_ne hx⟩

end MemInv

-- the slot is the one that the acting thread holds alone; then the roots, the writers and the
-- memory after
inductive Effect (σ : Store V) (R W : Set Loc) :
    Option Loc → Option PLoc → Set Loc → Set Loc → Store V → Prop where
  | idle (h : Option Loc) (hp : Option PLoc) : Effect σ R W h hp R W σ
  | pnode (x : Loc) (p : PLoc) (l : Line (PNode V)) (h : Option Loc) (hp : Option PLoc)
    (owner : Owner σ W x) (pptr : (σ.node x).pptr = some p)
    (progress : Progress (σ.node x).stamp (σ.pline p) l)
    (fits : Matches (σ.node x).stamp l (σ.node x).next.state) :
    Effect σ R W h hp R W (σ.setLine p l)
  | priv (x : Loc) (m : Node V) (hp : Option PLoc) (fresh : ¬ σ.heap.Live R x) :
    Effect σ R W (some x) hp R W (σ.write x m)
  | link (d n c : Loc) (p : PLoc) (st : NodeState) (live : σ.heap.Live R d)
    (next : (σ.node d).next = Ptr.addr c st) (alive : st ≠ .deleted)
    (fresh : ¬ σ.heap.Live R n) (unavail : σ.avail n = false)
    (new_next : (σ.node n).next = Ptr.addr c .intendToInsert)
    (lt : rank σ d < (σ.node n).key) (gt : ((σ.node n).key : WithBot ℤ) < rank σ c)
    (bounded : (σ.node n).key < INT_MAX) (pptr : (σ.node n).pptr = some p)
    (free : ∀ x, Owner σ W x → (σ.node x).pptr ≠ some p) (taken : σ.pavail p = false)
    (unused : Spare (σ.node n).pValidity (σ.pline p)) :
    Effect σ R W (some n) (some p) (insert n R) W (σ.setNext d (Ptr.addr n st))
  | advance (x : Loc) (q : Ptr) (s : NodeState) (h : Option Loc) (hp : Option PLoc)
    (owner : Owner σ W x) (next : (σ.node x).next = q) (age : s.age = q.state.age + 1)
    (fits : ∀ p, (σ.node x).pptr = some p → Matches (σ.node x).stamp (σ.pline p) s) :
    Effect σ R W h hp R W (σ.setNext x (q.createRef s))
  | unlink (d c : Loc) (succ : Ptr) (h : Option Loc) (hp : Option PLoc)
    (live : σ.heap.Live R d) (root : c ∈ R) (next : (σ.node d).next = Ptr.addr c succ.state)
    (alive : succ.state ≠ .deleted) (dead : σ.heap.dead c)
    (succ_next : (σ.node c).next.ref = succ.ref) :
    Effect σ R W h hp R (insert c W) (σ.setNext d succ)
  | take (x : Loc) (h : Option Loc) (hp : Option PLoc) (avail : σ.avail x = true) :
    Effect σ R W h hp R W (σ.take x)
  | give (x : Loc) (hp : Option PLoc) (fresh : ¬ σ.heap.Live R x) :
    Effect σ R W (some x) hp R W (σ.give x)
  | takeP (p : PLoc) (h : Option Loc) (hp : Option PLoc) (avail : σ.pavail p = true)
    (free : ∀ x, Owner σ W x → (σ.node x).pptr ≠ some p) : Effect σ R W h hp R W (σ.takeP p)
  | giveP (p : PLoc) (h : Option Loc) (idle : ∃ v, Spare v (σ.pline p))
    (free : ∀ x, InList σ x → (σ.node x).pptr ≠ some p) :
    Effect σ R W h (some p) R W (σ.giveP p)

theorem pnode_pnodeInv (h : MemInv σ R W) {l : Line (PNode V)} (owner : Owner σ W x)
    (pptr : (σ.node x).pptr = some p)
    (fits : Matches (σ.node x).stamp l (σ.node x).next.state) :
    PNodeInv (σ.setLine p l) W := by
  refine ⟨?_, h.pnode.inj, h.pnode.taken, ?_, ?_⟩
  · intro y hy
    obtain ⟨q, hq, hm⟩ := h.pnode.owned hy
    refine ⟨q, hq, ?_⟩
    by_cases he : q = p
    · subst he
      obtain rfl := h.pnode.inj owner hy pptr hq
      rw [pline_setLine_self]
      exact fits
    · rw [pline_setLine_other σ l he]
      exact hm
  · intro q hq
    by_cases he : q = p
    · subst he
      -- the slot was freed while the writer was late: then the node is deleted
      by_cases hd : (σ.node x).next.state = .deleted
      · rw [hd] at fits
        rw [pline_setLine_self]
        exact ⟨_, spare_of_deleted fits⟩
      · have := h.pnode.taken (h.inList_of_alive owner hd) pptr
        exact absurd (this.symm.trans hq) Bool.false_ne_true
    · rw [pline_setLine_other σ l he]
      exact h.pnode.idle hq
  · intro q c hc hv
    by_cases he : q = p
    · subst he
      rw [pline_setLine_self] at hc
      by_cases hd : (σ.node x).next.state = .deleted
      · rw [hd] at fits
        exact absurd hv (fits.not_isValid hc)
      · exact ⟨x, h.inList_of_alive owner hd, pptr, hd⟩
    · rw [pline_setLine_other σ l he] at hc
      exact h.pnode.valid hc hv

theorem priv_steady {m : Node V} (fresh : ¬ σ.heap.Live R x) :
    Heap.Steady σ.heap (σ.write x m).heap R := by
  have hnode : ∀ {y}, σ.heap.Live R y → (σ.write x m).node y = σ.node y := fun hy =>
    node_write_other σ m fun e => fresh (e ▸ hy)
  refine ⟨rfl, fun hy => ?_, fun hy => rank_congr (congrArg Node.key (hnode hy)), fun hy hd => ?_⟩
  · exact congrArg (fun n => n.next.ref) (hnode hy)
  · change ((σ.write x m).node _).next.state = .deleted
    rw [hnode hy]
    exact hd

theorem priv_memInv {m : Node V} (h : MemInv σ R W) (fresh : ¬ σ.heap.Live R x) :
    MemInv (σ.write x m) R W := by
  have st := priv_steady (m := m) fresh
  have g := h.chain.good
  have hnode : ∀ {y}, σ.heap.Live R y → (σ.write x m).node y = σ.node y := fun hy =>
    node_write_other σ m fun e => fresh (e ▸ hy)
  have hlive : ∀ {y}, (σ.write x m).heap.Live R y ↔ σ.heap.Live R y := st.live
  have hin : ∀ {y}, InList (σ.write x m) y ↔ InList σ y := and_congr_left fun _ => st.linked g
  have hown : ∀ {y}, Owner (σ.write x m) W y → Owner σ W y := fun hy => hy.imp_left hin.1
  have hownl : ∀ {y}, Owner (σ.write x m) W y → σ.heap.Live R y := fun hy => h.owner_live (hown hy)
  have hinl : ∀ {y}, InList σ y → σ.heap.Live R y := fun hy => g.live_of_linked hy.1
  refine ⟨⟨st.good g, st.ordered h.chain.ordered, ?_, (st.linked g).2 h.chain.tail_linked, ?_, ?_,
    ?_, ?_, ?_⟩, ⟨?_, ?_, ?_, h.pnode.idle, ?_⟩, h.writers⟩
  · rw [hnode h.chain.head_live]
    exact h.chain.head_state
  · rw [hnode h.chain.tail_live]
    exact h.chain.tail_next
  · rw [hnode h.chain.tail_live]
    exact h.chain.tail_key
  · intro y hy ht
    rw [hnode (hlive.1 hy)]
    exact h.chain.complete (hlive.1 hy) ht
  · intro y hy ht
    exact lt_of_eq_of_lt (st.rank (hlive.1 hy)) (h.chain.bounded (hlive.1 hy) ht)
  · exact fun ha hy => h.chain.fresh ha (hlive.1 hy)
  · intro y hy
    rw [hnode (hownl hy)]
    exact h.pnode.owned (hown hy)
  · intro y z q hy hz hpy hpz
    rw [hnode (hownl hy)] at hpy
    rw [hnode (hownl hz)] at hpz
    exact h.pnode.inj (hown hy) (hown hz) hpy hpz
  · intro y q hy hq
    rw [hnode (hinl (hin.1 hy))] at hq
    exact h.pnode.taken (hin.1 hy) hq
  · intro q c hc hv
    obtain ⟨y, hy, h1, h2⟩ := h.pnode.valid hc hv
    refine ⟨y, hin.2 hy, ?_⟩
    rw [hnode (hinl hy)]
    exact ⟨h1, h2⟩

/-! ### The next word of a node that others refer to is replaced -/

section SetNext

variable {r : Ptr}

theorem setNext_rank (σ : Store V) (d : Loc) (r : Ptr) (y : Loc) :
    rank (σ.setNext d r) y = rank σ y := rank_congr (setNext_data σ d r y).1

theorem alive_of_addr (h : (σ.node d).next = Ptr.addr c st) (hs : st ≠ .deleted) :
    ¬ σ.heap.dead d := by
  change ¬ (σ.node d).next.state = .deleted
  rw [h]
  exact hs

theorem addr_of_ref (h : (σ.node x).next.ref = some c) :
    (σ.node x).next = Ptr.addr c (σ.node x).next.state := by
  rcases hq : (σ.node x).next with ⟨r, a⟩
  rw [hq] at h
  obtain rfl : r = some c := h
  rfl

theorem succ_of_addr (h : (σ.node d).next = Ptr.addr c st) : σ.heap.succ d = some c := by
  change (σ.node d).next.ref = some c
  rw [h]
  rfl

theorem setNext_tail (h : ChainInv σ R) (hd : (σ.node d).next.ref ≠ none) :
    ((σ.setNext d r).node tail).next = ⟨none, .inserted⟩ := by
  rw [setNext_next]
  split
  · next he =>
    rw [← he, h.tail_next] at hd
    exact absurd rfl hd
  · exact h.tail_next

theorem setNext_complete (h : ChainInv σ R) (hr : r.ref ≠ none) (hy : σ.heap.Live R y)
    (ht : y ≠ tail) : ((σ.setNext d r).node y).next.ref ≠ none := by
  rw [setNext_next]
  split
  · exact hr
  · exact h.complete hy ht

theorem link_splice {s : NodeState} (live : σ.heap.Live R d)
    (next : (σ.node d).next = Ptr.addr c st) (alive : st ≠ .deleted) (fresh : ¬ σ.heap.Live R n)
    (new_next : (σ.node n).next = Ptr.addr c s) (new_alive : s ≠ .deleted) :
    Heap.Splice σ.heap (σ.setNext d (Ptr.addr n st)).heap R d n c := by
  have hne : n ≠ d := fun e => fresh (e ▸ live)
  have hnext := setNext_next σ d (Ptr.addr n st)
  refine ⟨rfl, live, alive_of_addr next alive, succ_of_addr next, fresh, ?_, ?_, ?_, ?_, ?_, ?_⟩
  · exact (congrArg Ptr.ref (hnext d)).trans (by rw [if_pos rfl]; rfl)
  · exact (congrArg Ptr.ref (hnext n)).trans (by rw [if_neg hne, new_next]; rfl)
  · change ¬ (((σ.setNext d (Ptr.addr n st)).node n).next.state = .deleted)
    rw [hnext, if_neg hne, new_next]
    exact new_alive
  · intro y _ hy
    exact (congrArg Ptr.ref (hnext y)).trans (by rw [if_neg hy]; rfl)
  · exact fun _ => setNext_rank σ d _ _
  · intro y _
    change ((σ.setNext d (Ptr.addr n st)).node y).next.state = .deleted ↔
      (σ.node y).next.state = .deleted
    rw [hnext]
    split
    · next he => rw [he, next]; exact Iff.rfl
    · exact Iff.rfl

theorem unlink_bypass (h : ChainInv σ R) {e : Loc} (live : σ.heap.Live R d)
    (next : (σ.node d).next = Ptr.addr c r.state) (alive : r.state ≠ .deleted)
    (dead : σ.heap.dead c) (succ_next : σ.heap.succ c = some e) (hr : r.ref = some e) :
    Heap.Bypass σ.heap (σ.setNext d r).heap R d c e := by
  have hnext := setNext_next σ d r
  refine ⟨rfl, live, alive_of_addr next alive, succ_of_addr next, Heap.Reach.single succ_next, ?_,
    ?_, ?_, ?_, ?_⟩
  · intro y hy
    rw [h.good.between_single (live.succ (succ_of_addr next)) succ_next hy]
    exact dead
  · exact (congrArg Ptr.ref (hnext d)).trans (by rw [if_pos rfl]; exact hr)
  · intro y _ hy
    exact (congrArg Ptr.ref (hnext y)).trans (by rw [if_neg hy]; rfl)
  · exact fun _ => setNext_rank σ d _ _
  · intro y _
    change ((σ.setNext d r).node y).next.state = .deleted ↔ (σ.node y).next.state = .deleted
    rw [hnext]
    split
    · next he => rw [he, next]; exact Iff.rfl
    · exact Iff.rfl

theorem unlink_succ (h : ChainInv σ R) (live : σ.heap.Live R c) (dead : σ.heap.dead c) :
    ∃ e, σ.heap.succ c = some e :=
  Option.ne_none_iff_exists'.1 (h.complete live (h.ne_tail_of_dead dead))

theorem unlink_linked (h : ChainInv σ R) (live : σ.heap.Live R d)
    (next : (σ.node d).next = Ptr.addr c r.state) (alive : r.state ≠ .deleted)
    (dead : σ.heap.dead c) (succ_next : (σ.node c).next.ref = r.ref) :
    (σ.setNext d r).heap.Linked y ↔ σ.heap.Linked y ∧ y ≠ c := by
  have hc := live.succ (succ_of_addr next)
  obtain ⟨e, he⟩ := unlink_succ h hc dead
  have bp := unlink_bypass h live next alive dead he (succ_next.symm.trans he)
  rw [bp.linked h.good]
  refine and_congr_right fun _ => not_congr ⟨h.good.between_single hc he, ?_⟩
  rintro rfl
  refine ⟨Heap.Reach.refl _, Heap.Reach.single he, ?_⟩
  rintro rfl
  exact h.good.acyclic hc he (Heap.Reach.refl _)

theorem advance_steady {s : NodeState} (hs : (σ.node x).next = r) (hd : r.state ≠ .deleted) :
    Heap.Steady σ.heap (σ.setNext x (r.createRef s)).heap R where
  head := rfl
  succ {y} _ := by
    change ((σ.setNext x (r.createRef s)).node y).next.ref = (σ.node y).next.ref
    rw [setNext_next]
    split
    · next he => rw [he, hs]; rfl
    · rfl
  rank {y} _ := setNext_rank σ x _ y
  dead {y} _ hy := by
    change ((σ.setNext x (r.createRef s)).node y).next.state = .deleted
    rw [setNext_next]
    split
    · next he =>
      subst he
      have hy : (σ.node y).next.state = .deleted := hy
      rw [hs] at hy
      exact absurd hy hd
    · exact hy

theorem PNodeInv.setNext (h : PNodeInv σ W) {W' : Set Loc}
    (hown : ∀ {y}, Owner (σ.setNext d r) W' y → Owner σ W y)
    (hin : ∀ {y}, InList (σ.setNext d r) y → InList σ y)
    (hstate : ∀ {y}, Owner σ W y → y = d → r.state = (σ.node d).next.state ∨
      ∀ p, (σ.node d).pptr = some p → Matches (σ.node d).stamp (σ.pline p) r.state)
    (hkeep : ∀ {y p c}, InList σ y → (σ.node y).pptr = some p →
      (σ.node y).next.state ≠ .deleted → c ∈ (σ.pline p).contents → c.isValid = true →
      InList (σ.setNext d r) y ∧ ((σ.setNext d r).node y).next.state ≠ .deleted) :
    PNodeInv (σ.setNext d r) W' := by
  have hdata := setNext_data σ d r
  refine ⟨?_, ?_, ?_, h.idle, ?_⟩
  · intro y hy
    obtain ⟨p, hp, hm⟩ := h.owned (hown hy)
    refine ⟨p, (hdata y).2.1.trans hp, ?_⟩
    rw [(hdata y).2.2, setNext_pline, setNext_next]
    split
    · next he =>
      rcases hstate (hown hy) he with h1 | h1
      · rw [h1, ← he]
        exact hm
      · subst he
        exact h1 p hp
    · exact hm
  · intro y z p hy hz hpy hpz
    rw [(hdata y).2.1] at hpy
    rw [(hdata z).2.1] at hpz
    exact h.inj (hown hy) (hown hz) hpy hpz
  · intro y p hy hp
    rw [(hdata y).2.1] at hp
    exact h.taken (hin hy) hp
  · intro p c hc hv
    obtain ⟨y, hy, hp, hs⟩ := h.valid hc hv
    obtain ⟨h1, h2⟩ := hkeep hy hp hs hc hv
    exact ⟨y, h1, (hdata y).2.1.trans hp, h2⟩

theorem advance_memInv {s : NodeState} (h : MemInv σ R W) (owner : Owner σ W x)
    (next : (σ.node x).next = r) (age : s.age = r.state.age + 1)
    (fits : ∀ p, (σ.node x).pptr = some p → Matches (σ.node x).stamp (σ.pline p) s) :
    MemInv (σ.setNext x (r.createRef s)) R W := by
  have halive : r.state ≠ .deleted := by
    intro hd
    rw [hd] at age
    cases s <;> simp [NodeState.age] at age
  have g := h.chain.good
  have st := advance_steady (R := R) (s := s) next halive
  have hne := h.owner_ne owner
  have hin : ∀ {y}, InList (σ.setNext x (r.createRef s)) y ↔ InList σ y :=
    and_congr_left fun _ => st.linked g
  refine ⟨⟨st.good g, st.ordered h.chain.ordered, ?_, (st.linked g).2 h.chain.tail_linked, ?_, ?_,
    ?_, ?_, ?_⟩, h.pnode.setNext (fun hy => hy.imp_left hin.1) hin.1 (fun _ _ => Or.inr fits) ?_,
    h.writers⟩
  · rw [setNext_next, if_neg hne.1.symm]
    exact h.chain.head_state
  · rw [setNext_next, if_neg hne.2.symm]
    exact h.chain.tail_next
  · exact (setNext_data σ x _ tail).1.trans h.chain.tail_key
  · intro y hy ht
    refine setNext_complete h.chain ?_ (st.live.1 hy) ht
    change r.ref ≠ none
    rw [← next]
    exact h.chain.complete (h.owner_live owner) hne.2
  · intro y hy ht
    exact lt_of_eq_of_lt (st.rank (st.live.1 hy)) (h.chain.bounded (st.live.1 hy) ht)
  · exact fun ha hy => h.chain.fresh ha (st.live.1 hy)
  · intro y p c hy hp hs hc hv
    refine ⟨hin.2 hy, ?_⟩
    rw [setNext_next]
    split
    · next he =>
      subst he
      intro hs'
      have hs' : s = .deleted := hs'
      subst hs'
      exact (fits p hp).not_isValid hc hv
    · exact hs

theorem unlink_memInv (h : MemInv σ R W) (live : σ.heap.Live R d) (root : c ∈ R)
    (next : (σ.node d).next = Ptr.addr c r.state) (alive : r.state ≠ .deleted)
    (dead : σ.heap.dead c) (succ_next : (σ.node c).next.ref = r.ref) :
    MemInv (σ.setNext d r) R (insert c W) := by
  have hc := live.succ (succ_of_addr next)
  obtain ⟨e, he⟩ := unlink_succ h.chain hc dead
  have bp := unlink_bypass h.chain live next alive dead he (succ_next.symm.trans he)
  have g := h.chain.good
  have hlink := @unlink_linked V σ R
  have hin : ∀ {y}, InList (σ.setNext d r) y → InList σ y := fun hy =>
    ⟨((hlink h.chain live next alive dead succ_next).1 hy.1).1, hy.2⟩
  have hclink : InList σ c :=
    ⟨(g.alive live (alive_of_addr next alive)).tail (succ_of_addr next),
      h.chain.ne_head_of_dead dead, h.chain.ne_tail_of_dead dead⟩
  have hown : ∀ {y}, Owner (σ.setNext d r) (insert c W) y → Owner σ W y := by
    rintro y (hy | rfl | hy)
    · exact Or.inl (hin hy)
    · exact Or.inl hclink
    · exact Or.inr hy
  have hrn : r.ref ≠ none := by
    rw [← succ_next]
    exact h.chain.complete hc hclink.2.2
  refine ⟨⟨bp.good g, bp.ordered h.chain.ordered, ?_, ?_, ?_, ?_, ?_, ?_, ?_⟩,
    h.pnode.setNext hown hin ?_ ?_, ?_⟩
  · rw [setNext_next]
    split
    · next he => rw [← he] at next; exact (congrArg Ptr.state next).symm.trans h.chain.head_state
    · exact h.chain.head_state
  · exact (hlink h.chain live next alive dead succ_next).2 ⟨h.chain.tail_linked, hclink.2.2.symm⟩
  · refine setNext_tail h.chain ?_
    rw [next]
    exact Option.some_ne_none _
  · exact (setNext_data σ d _ tail).1.trans h.chain.tail_key
  · exact fun hy ht => setNext_complete h.chain hrn (bp.live_of' hy) ht
  · intro y hy ht
    rw [setNext_rank]
    exact h.chain.bounded (bp.live_of' hy) ht
  · exact fun ha hy => h.chain.fresh ha (bp.live_of' hy)
  · exact fun _ _ => Or.inl (congrArg Ptr.state next).symm
  · intro y p m hy _ hs _ _
    have hne : y ≠ c := by
      rintro rfl
      exact hs dead
    refine ⟨⟨(hlink h.chain live next alive dead succ_next).2 ⟨hy.1, hne⟩, hy.2⟩, ?_⟩
    rw [setNext_next]
    split
    · exact alive
    · exact hs
  · rintro y (rfl | hy)
    · exact ⟨root, hclink.2⟩
    · exact h.writers hy

theorem link_memInv (h : MemInv σ R W) (live : σ.heap.Live R d)
    (next : (σ.node d).next = Ptr.addr c st) (alive : st ≠ .deleted) (fresh : ¬ σ.heap.Live R n)
    (unavail : σ.avail n = false) (new_next : (σ.node n).next = Ptr.addr c .intendToInsert)
    (lt : rank σ d < (σ.node n).key) (gt : ((σ.node n).key : WithBot ℤ) < rank σ c)
    (bounded : (σ.node n).key < INT_MAX) (pptr : (σ.node n).pptr = some p)
    (free : ∀ x, Owner σ W x → (σ.node x).pptr ≠ some p) (taken : σ.pavail p = false)
    (unused : Spare (σ.node n).pValidity (σ.pline p)) :
    MemInv (σ.setNext d (Ptr.addr n st)) (insert n R) W := by
  have g := h.chain.good
  have sp := link_splice live next alive fresh new_next nofun
  have hne : n ≠ d := fun e => fresh (e ▸ live)
  have hnh : n ≠ head := fun e => fresh (e ▸ h.chain.head_live)
  have hnt : n ≠ tail := fun e => fresh (e ▸ h.chain.tail_live)
  have hrn : rank σ n = ((σ.node n).key : ℤ) := rank_of_ne σ hnh
  have hnext := setNext_next σ d (Ptr.addr n st)
  have hdata := setNext_data σ d (Ptr.addr n st)
  have hlive : ∀ {y}, (σ.setNext d (Ptr.addr n st)).heap.Live (insert n R) y →
      σ.heap.Live R y ∨ y = n := by
    rintro y ⟨r, rfl | hr, hy⟩
    · rcases sp.reach_from_new hy with rfl | hy
      · exact Or.inr rfl
      · have hc := sp.pred.succ sp.pred_succ
        rcases sp.reach_or hc hy with hy | ⟨rfl, _⟩
        · exact Or.inl (hc.reach hy)
        · exact Or.inr rfl
    · exact sp.live_or ⟨r, hr, hy⟩
  have hin : ∀ {y}, InList (σ.setNext d (Ptr.addr n st)) y → InList σ y ∨ y = n := fun hy =>
    ((sp.linked g).1 hy.1).imp_left fun hl => ⟨hl, hy.2⟩
  have hown : ∀ {y}, Owner (σ.setNext d (Ptr.addr n st)) W y → Owner σ W y ∨ y = n := by
    rintro y (hy | hy)
    · exact (hin hy).imp_left Or.inl
    · exact Or.inl (Or.inr hy)
  have hstate : ∀ y, y ≠ n → ((σ.setNext d (Ptr.addr n st)).node y).next.state =
      (σ.node y).next.state := by
    intro y _
    rw [hnext]
    split
    · next he => rw [he, next]; rfl
    · rfl
  have hnstate : ((σ.setNext d (Ptr.addr n st)).node n).next = Ptr.addr c .intendToInsert := by
    rw [hnext, if_neg hne, new_next]
  refine ⟨⟨sp.good g, sp.ordered h.chain.ordered ?_ ?_, ?_, (sp.linked g).2
    (Or.inl h.chain.tail_linked), ?_, ?_, ?_, ?_, ?_⟩, ⟨?_, ?_, ?_, h.pnode.idle, ?_⟩, ?_⟩
  · exact lt_of_lt_of_eq lt (hrn.symm.trans (setNext_rank σ d _ n).symm)
  · exact lt_of_eq_of_lt ((setNext_rank σ d _ n).trans hrn) gt
  · exact (hstate head hnh.symm).trans h.chain.head_state
  · refine setNext_tail h.chain ?_
    rw [next]
    exact Option.some_ne_none _
  · exact (hdata tail).1.trans h.chain.tail_key
  · intro y hy ht
    rcases hlive hy with hy | rfl
    · exact setNext_complete h.chain (Option.some_ne_none _) hy ht
    · rw [hnstate]
      exact Option.some_ne_none _
  · intro y hy ht
    rw [setNext_rank]
    rcases hlive hy with hy | rfl
    · exact h.chain.bounded hy ht
    · rw [hrn]
      exact WithBot.coe_lt_coe.2 bounded
  · intro y ha hy
    rcases hlive hy with hy | rfl
    · exact h.chain.fresh ha hy
    · exact absurd (unavail.symm.trans ha) Bool.false_ne_true
  · intro y hy
    rcases hown hy with hy | rfl
    · obtain ⟨q, hq, hm⟩ := h.pnode.owned hy
      have hyn : y ≠ n := fun e => fresh (e ▸ h.owner_live hy)
      refine ⟨q, (hdata y).2.1.trans hq, ?_⟩
      rw [(hdata y).2.2, hstate y hyn]
      exact hm
    · refine ⟨p, (hdata y).2.1.trans pptr, ?_⟩
      rw [(hdata y).2.2, hnstate]
      exact matches_of_spare unused
  · intro y z q hy hz hpy hpz
    rw [(hdata y).2.1] at hpy
    rw [(hdata z).2.1] at hpz
    rcases hown hy with hy' | rfl <;> rcases hown hz with hz' | rfl
    · exact h.pnode.inj hy' hz' hpy hpz
    · rw [pptr] at hpz
      obtain rfl := Option.some.inj hpz
      exact absurd hpy (free y hy')
    · rw [pptr] at hpy
      obtain rfl := Option.some.inj hpy
      exact absurd hpz (free z hz')
    · rfl
  · intro y q hy hq
    rw [(hdata y).2.1] at hq
    rcases hin hy with hy | rfl
    · exact h.pnode.taken hy hq
    · rw [pptr] at hq
      obtain rfl := Option.some.inj hq
      exact taken
  · intro q m hm hv
    obtain ⟨y, hy, hq, hs⟩ := h.pnode.valid hm hv
    have hyn : y ≠ n := fun e => fresh (e ▸ g.live_of_linked hy.1)
    exact ⟨y, ⟨(sp.linked g).2 (Or.inl hy.1), hy.2⟩, (hdata y).2.1.trans hq,
      (hstate y hyn).symm ▸ hs⟩
  · exact fun hy => ⟨Or.inr (h.writers hy).1, (h.writers hy).2⟩

end SetNext

theorem take_memInv (h : MemInv σ R W) : MemInv (σ.take x) R W := by
  refine ⟨⟨h.chain.good, h.chain.ordered, h.chain.head_state, h.chain.tail_linked,
    h.chain.tail_next, h.chain.tail_key, h.chain.complete, h.chain.bounded, ?_⟩,
    ⟨h.pnode.owned, h.pnode.inj, h.pnode.taken, h.pnode.idle, h.pnode.valid⟩, h.writers⟩
  intro y hy
  refine h.chain.fresh ?_
  by_cases he : y = x
  · subst he
    simp [Store.take] at hy
  · simpa [Store.take, he] using hy

theorem give_memInv (h : MemInv σ R W) (fresh : ¬ σ.heap.Live R x) :
    MemInv (σ.give x) R W := by
  refine ⟨⟨h.chain.good, h.chain.ordered, h.chain.head_state, h.chain.tail_linked,
    h.chain.tail_next, h.chain.tail_key, h.chain.complete, h.chain.bounded, ?_⟩,
    ⟨h.pnode.owned, h.pnode.inj, h.pnode.taken, h.pnode.idle, h.pnode.valid⟩, h.writers⟩
  intro y hy
  by_cases he : y = x
  · subst he
    exact fresh
  · exact h.chain.fresh (by simpa [Store.give, he] using hy)

theorem takeP_memInv (h : MemInv σ R W) : MemInv (σ.takeP p) R W := by
  refine ⟨⟨h.chain.good, h.chain.ordered, h.chain.head_state, h.chain.tail_linked,
    h.chain.tail_next, h.chain.tail_key, h.chain.complete, h.chain.bounded, h.chain.fresh⟩,
    ⟨h.pnode.owned, h.pnode.inj, ?_, ?_, h.pnode.valid⟩, h.writers⟩
  · intro y q hy hq
    have := h.pnode.taken hy hq
    by_cases he : q = p
    · simp [Store.takeP, he]
    · simpa [Store.takeP, he] using this
  · intro q hq
    refine h.pnode.idle ?_
    by_cases he : q = p
    · subst he
      simp [Store.takeP] at hq
    · simpa [Store.takeP, he] using hq

theorem giveP_memInv (h : MemInv σ R W) (idle : ∃ v, Spare v (σ.pline p))
    (free : ∀ x, InList σ x → (σ.node x).pptr ≠ some p) : MemInv (σ.giveP p) R W := by
  refine ⟨⟨h.chain.good, h.chain.ordered, h.chain.head_state, h.chain.tail_linked,
    h.chain.tail_next, h.chain.tail_key, h.chain.complete, h.chain.bounded, h.chain.fresh⟩,
    ⟨h.pnode.owned, h.pnode.inj, ?_, ?_, h.pnode.valid⟩, h.writers⟩
  · intro y q hy hq
    have := h.pnode.taken hy hq
    by_cases he : q = p
    · subst he
      exact absurd hq (free y hy)
    · simpa [Store.giveP, he] using this
  · intro q hq
    by_cases he : q = p
    · subst he
      exact idle
    · exact h.pnode.idle (by simpa [Store.giveP, he] using hq)

theorem Effect.memInv {h : Option Loc} {hp : Option PLoc} (hm : MemInv σ R W)
    (e : Effect σ R W h hp R' W' σ') : MemInv σ' R' W' := by
  cases e with
  | idle => exact hm
  | pnode x p l _ _ owner pptr progress fits =>
    exact ⟨⟨hm.chain.good, hm.chain.ordered, hm.chain.head_state, hm.chain.tail_linked,
      hm.chain.tail_next, hm.chain.tail_key, hm.chain.complete, hm.chain.bounded, hm.chain.fresh⟩,
      pnode_pnodeInv hm owner pptr fits, hm.writers⟩
  | priv x m _ fresh => exact priv_memInv hm fresh
  | link d n c p st live next alive fresh unavail new_next lt gt bounded pptr free taken unused =>
    exact link_memInv hm live next alive fresh unavail new_next lt gt bounded pptr free taken unused
  | advance x q s _ _ owner next age fits => exact advance_memInv hm owner next age fits
  | unlink d c succ _ _ live root next alive dead succ_next =>
    exact unlink_memInv hm live root next alive dead succ_next
  | take x _ _ avail => exact take_memInv hm
  | give x _ fresh => exact give_memInv hm fresh
  | takeP p _ _ avail free => exact takeP_memInv hm
  | giveP p _ idle free => exact giveP_memInv hm idle free

end SOFT.List
