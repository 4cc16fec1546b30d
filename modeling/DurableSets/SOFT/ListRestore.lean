import DurableSets.SOFT.ListRecover
import DurableSets.SOFT.ListRun

namespace SOFT.List

open Chain

variable {V : Type}

-- an image that recovery() can make a list of
structure Clear (image : PLoc → PNode V) : Prop where
  whole : ∀ {p}, (image p).validEnd ≠ (image p).deleted → (image p).isValid = true
  unique : ∀ {p q}, (image p).isValid = true → (image q).isValid = true →
    (image p).key = (image q).key → p = q
  bounded : ∀ {p}, (image p).isValid = true → (image p).key < INT_MAX

structure Kindred (o c : PNode V) : Prop where
  validStart : c.validStart = o.validStart ∨ c.validStart = o.validEnd
  validEnd : c.validEnd = o.validEnd
  deleted : c.deleted = o.deleted
  key : c.key = o.key
  value : c.value = o.value

def Stands (image : PLoc → PNode V) (σ : Store V) (p : PLoc) (x : Loc) : Prop :=
  (image p).isValid = true ∧ (σ.node x).pptr = some p ∧
    (σ.node x).stamp = ⟨(image p).validStart, (image p).key, (image p).value⟩

def RecoveryPc.pending : RecoveryPc → Option Loc
  | .retry n _ => some n
  | .search n _ _ _ _ => some n
  | .link n _ _ _ _ => some n
  | _ => none

def Pending (image : PLoc → PNode V) (σ : Store V) (todo : List PLoc) (n : Loc) : Prop :=
  ¬ σ.heap.Linked n ∧ σ.avail n = false ∧
    ∃ p, p ∉ todo ∧ Stands image σ p n ∧ ∀ y, InList σ y → (σ.node y).pptr ≠ some p

def Before (σ : Store V) (n pred : Loc) (st : NodeState) (curr : Loc) : Prop :=
  σ.heap.Linked pred ∧ (σ.node pred).next = Ptr.addr curr st ∧ rank σ pred < (σ.node n).key

def RecoveryLocal (image : PLoc → PNode V) (σ : Store V) : RecoveryPc → Prop
  | .scan _ => True
  | .reset p _ => ¬ (image p).isValid = true
  | .free p _ => ¬ (image p).isValid = true ∧ (σ.pnode p).validStart = (σ.pnode p).validEnd
  | .retry _ _ => True
  | .search n pred st curr _ => Before σ n pred st curr
  | .link n pred st curr _ => Before σ n pred st curr ∧
      ((σ.node n).key : WithBot ℤ) < rank σ curr ∧ (σ.node n).next = Ptr.addr curr .inserted
  | .failed => False

structure Restoring (image : PLoc → PNode V) (σ : Store V) (pc : RecoveryPc) : Prop where
  nodup : pc.todo.Nodup
  kindred : ∀ {p c}, c ∈ (σ.pline p).contents → Kindred (image p) c
  solid : σ.heap.Solid
  state : ∀ {x}, σ.heap.Linked x → (σ.node x).next.state = .inserted
  tail_linked : σ.heap.Linked tail
  tail_next : (σ.node tail).next = ⟨none, .inserted⟩
  tail_key : (σ.node tail).key = INT_MAX
  complete : ∀ {x}, σ.heap.Linked x → x ≠ tail → (σ.node x).next.ref ≠ none
  node : ∀ {x}, InList σ x → ∃ p, p ∉ pc.todo ∧ Stands image σ p x
  done : ∀ {p}, (image p).isValid = true → p ∈ pc.todo ∨
    ∃ x, (InList σ x ∨ pc.pending = some x) ∧ (σ.node x).pptr = some p
  avail : ∀ {x}, σ.avail x = true → ¬ σ.heap.Linked x
  pavail : ∀ {p}, σ.pavail p = true → ¬ (image p).isValid = true ∧
    (σ.pnode p).validStart = (σ.pnode p).validEnd
  pending : ∀ {n}, pc.pending = some n → Pending image σ pc.todo n
  loc : RecoveryLocal image σ pc

variable {σ σ' : Store V} {zero : V} {image image' : PLoc → PNode V} {pc pc' : RecoveryPc}
  {x y n d c : Loc} {p : PLoc} {slot : Loc} {todo slots : List PLoc} {m : Node V}
  {st : NodeState} {bump : PLoc → Bool}

theorem Kindred.refl (o : PNode V) : Kindred o o := ⟨Or.inl rfl, rfl, rfl, rfl, rfl⟩

theorem isValid_iff {c : PNode V} :
    c.isValid = true ↔ c.validStart = c.validEnd ∧ c.validEnd ≠ c.deleted := by
  simp [PNode.isValid]

theorem Kindred.isValid {o c : PNode V} (hw : o.validEnd ≠ o.deleted → o.isValid = true)
    (h : Kindred o c) : c.isValid = true ↔ o.isValid = true := by
  rw [isValid_iff, h.validEnd, h.deleted]
  constructor
  · exact fun hc => hw hc.2
  · intro ho
    obtain ⟨h1, h2⟩ := isValid_iff.1 ho
    rcases h.validStart with hs | hs
    · exact ⟨hs.trans h1, h2⟩
    · exact ⟨hs, h2⟩

theorem Kindred.eq {o c : PNode V} (h : Kindred o c) (ho : o.isValid = true) : c = o := by
  obtain ⟨h1, h2, h3, h4, h5⟩ := h
  have hs := h1.elim id fun h => h.trans (isValid_iff.1 ho).1.symm
  cases c
  cases o
  simp_all

theorem Clear.kindred (hs : Clear image) (h : ∀ p, Kindred (image p) (image' p)) : Clear image' := by
  have hv : ∀ p, (image' p).isValid = true ↔ (image p).isValid = true := fun p =>
    (h p).isValid hs.whole
  refine ⟨fun {p} hp => ?_, fun {p q} hp hq hk => ?_, fun {p} hp => ?_⟩
  · rw [(h p).validEnd, (h p).deleted] at hp
    exact (hv p).2 (hs.whole hp)
  · rw [(h p).key, (h q).key] at hk
    exact hs.unique ((hv p).1 hp) ((hv q).1 hq) hk
  · rw [(h p).key]
    exact hs.bounded ((hv p).1 hp)

theorem Stands.key (h : Stands image σ p x) : (σ.node x).key = (image p).key :=
  congrArg Stamp.key h.2.2

theorem Stands.congr (h : Stands image σ p x) (hp : (σ'.node x).pptr = (σ.node x).pptr)
    (hs : (σ'.node x).stamp = (σ.node x).stamp) : Stands image σ' p x :=
  ⟨h.1, hp.trans h.2.1, hs.trans h.2.2⟩

structure Off (σ σ' : Store V) (x : Loc) (m : Node V) : Prop where
  node : σ'.node = (σ.write x m).node
  avail : ∀ {y}, σ'.avail y = true → σ.avail y = true
  pline : σ'.pline = σ.pline
  pavail : σ'.pavail = σ.pavail

theorem Off.other (o : Off σ σ' x m) (h : y ≠ x) : σ'.node y = σ.node y := by
  rw [o.node]
  exact node_write_other σ m h

theorem Off.self (o : Off σ σ' x m) : σ'.node x = m := by
  rw [o.node, node_write, if_pos rfl]

theorem Off.kept (o : Off σ σ' x m) (hx : ¬ σ.heap.Linked x) (hy : σ.heap.Linked y) :
    σ'.node y = σ.node y := by
  refine o.other ?_
  rintro rfl
  exact hx hy

theorem Off.steady (o : Off σ σ' x m) (hx : ¬ σ.heap.Linked x) :
    Heap.Steady σ.heap σ'.heap {σ.heap.head} := by
  have hnode : ∀ {y}, σ.heap.Live {σ.heap.head} y → σ'.node y = σ.node y := fun hy =>
    o.kept hx (Heap.live_singleton.1 hy)
  refine ⟨rfl, fun hy => congrArg (fun a => a.next.ref) (hnode hy),
    fun hy => rank_congr (congrArg Node.key (hnode hy)), fun hy hd => ?_⟩
  change (σ'.node _).next.state = .deleted
  rw [hnode hy]
  exact hd

namespace Restoring

variable (h : Restoring image σ pc)

include h

theorem valid_iff (hs : Clear image) {c : PNode V} (hc : c ∈ (σ.pline p).contents) :
    c.isValid = true ↔ (image p).isValid = true := (h.kindred hc).isValid hs.whole

theorem read (ht : pc'.todo = pc.todo) (hp : pc'.pending = pc.pending)
    (hl : RecoveryLocal image σ pc') : Restoring image σ pc' := by
  obtain ⟨h1, h2, h3, h4, h5, h6, h7, h8, h9, h10, h11, h12, h13, _⟩ := h
  exact ⟨ht ▸ h1, h2, h3, h4, h5, h6, h7, h8, ht ▸ h9, by rw [ht, hp]; exact h10, h11, h12,
    by rw [ht, hp]; exact h13, hl⟩

theorem off (o : Off σ σ' x m) (hx : ¬ σ.heap.Linked x) (hn : pc'.todo.Nodup)
    (hsub : ∀ p, p ∈ pc'.todo → p ∈ pc.todo)
    (hdone : ∀ {p}, (image p).isValid = true →
      (p ∈ pc.todo ∨ ∃ y, pc.pending = some y ∧ (σ.node y).pptr = some p) →
      p ∈ pc'.todo ∨ (pc'.pending = some x ∧ m.pptr = some p))
    (hp : ∀ {n}, pc'.pending = some n → Pending image σ' pc'.todo n)
    (hl : RecoveryLocal image σ' pc') : Restoring image σ' pc' := by
  have hlink : ∀ {y}, σ'.heap.Linked y ↔ σ.heap.Linked y := (o.steady hx).linked h.solid.good
  have hnode : ∀ {y}, σ.heap.Linked y → σ'.node y = σ.node y := o.kept hx
  have hin : ∀ {y}, InList σ' y ↔ InList σ y := and_congr_left fun _ => hlink
  refine ⟨hn, ?_, (o.steady hx).solid h.solid fun y hy hd => h.solid.alive hy ?_, ?_,
    hlink.2 h.tail_linked, ?_, ?_, ?_, ?_, ?_, ?_, ?_, hp, hl⟩
  · rw [o.pline]
    exact h.kindred
  · change (σ'.node y).next.state = .deleted at hd
    rw [hnode hy] at hd
    exact hd
  · intro y hy
    rw [hnode (hlink.1 hy)]
    exact h.state (hlink.1 hy)
  · rw [hnode h.tail_linked]
    exact h.tail_next
  · rw [hnode h.tail_linked]
    exact h.tail_key
  · intro y hy ht
    rw [hnode (hlink.1 hy)]
    exact h.complete (hlink.1 hy) ht
  · intro y hy
    obtain ⟨p, hp, hs⟩ := h.node (hin.1 hy)
    have he := hnode (hin.1 hy).1
    exact ⟨p, fun hm => hp (hsub p hm),
      hs.congr (congrArg Node.pptr he) (congrArg Node.stamp he)⟩
  · intro p hv
    have hrest := hdone hv
    rcases h.done hv with hp | ⟨y, hy | hy, hp⟩
    · exact (hrest (Or.inl hp)).imp_right fun ⟨h1, h2⟩ => ⟨x, Or.inr h1, by rw [o.self, h2]⟩
    · refine Or.inr ⟨y, Or.inl (hin.2 hy), ?_⟩
      rw [hnode hy.1]
      exact hp
    · exact (hrest (Or.inr ⟨y, hy, hp⟩)).imp_right fun ⟨h1, h2⟩ =>
        ⟨x, Or.inr h1, by rw [o.self, h2]⟩
  · exact fun hy hl => h.avail (o.avail hy) (hlink.1 hl)
  · rw [o.pavail]
    unfold Store.pnode
    rw [o.pline]
    exact h.pavail

theorem plines {a : PLoc → Bool} {l : PLoc → Line (PNode V)} (hn : pc'.todo.Nodup)
    (hk : ∀ {p c}, c ∈ (l p).contents → Kindred (image p) c)
    (hsub : ∀ p, p ∈ pc'.todo → p ∈ pc.todo)
    (hdone : ∀ {p}, (image p).isValid = true → p ∈ pc.todo → p ∈ pc'.todo)
    (ha : ∀ {p}, a p = true → ¬ (image p).isValid = true ∧
      (l p).cur.validStart = (l p).cur.validEnd)
    (h0 : pc.pending = none) (h1 : pc'.pending = none)
    (hl : RecoveryLocal image { σ with pline := l, pavail := a } pc') :
    Restoring image { σ with pline := l, pavail := a } pc' := by
  refine ⟨hn, hk, h.solid, h.state, h.tail_linked, h.tail_next, h.tail_key, h.complete, ?_, ?_,
    h.avail, ha, fun hp => absurd (h1.symm.trans hp) nofun, hl⟩
  · intro x hx
    obtain ⟨p, hp, hs⟩ := h.node hx
    exact ⟨p, fun hm => hp (hsub p hm), hs⟩
  · intro p hv
    rcases h.done hv with hp | ⟨x, hx | hx, hp⟩
    · exact Or.inl (hdone hv hp)
    · exact Or.inr ⟨x, Or.inl hx, hp⟩
    · exact absurd (h0.symm.trans hx) nofun

theorem linkStep (hp : pc.pending = some n) (hp' : pc'.pending = none) (ht : pc'.todo = pc.todo)
    (hb : Before σ n d st c) (hlt : ((σ.node n).key : WithBot ℤ) < rank σ c)
    (hnn : (σ.node n).next = Ptr.addr c .inserted)
    (hl : RecoveryLocal image (σ.setNext d (Ptr.addr n .inserted)) pc') :
    Restoring image (σ.setNext d (Ptr.addr n .inserted)) pc' := by
  obtain ⟨hnl, hav, p, hptodo, hstands, hsole⟩ := h.pending hp
  obtain ⟨hd, hdn, hrd⟩ := hb
  obtain rfl : st = .inserted := (congrArg Ptr.state hdn).symm.trans (h.state hd)
  have hnh : n ≠ head := by
    rintro rfl
    exact hnl (Heap.Reach.refl _)
  have hnt : n ≠ tail := by
    rintro rfl
    exact hnl h.tail_linked
  have hdt : d ≠ tail := by
    rintro rfl
    rw [h.tail_next] at hdn
    cases hdn
  have sp := link_splice (Heap.live_singleton.2 hd) hdn nofun
    (fun hl => hnl (Heap.live_singleton.1 hl)) hnn nofun
  have hlink : ∀ {y}, (σ.setNext d (Ptr.addr n .inserted)).heap.Linked y ↔
      σ.heap.Linked y ∨ y = n := sp.linked h.solid.good
  have hin : ∀ {y}, InList (σ.setNext d (Ptr.addr n .inserted)) y ↔ InList σ y ∨ y = n := by
    intro y
    unfold InList
    rw [hlink, or_and_right]
    refine or_congr_right ⟨And.left, ?_⟩
    rintro rfl
    exact ⟨rfl, hnh, hnt⟩
  have hdata := setNext_data σ d (Ptr.addr n .inserted)
  have hnext := setNext_next σ d (Ptr.addr n .inserted)
  have hrank := setNext_rank σ d (Ptr.addr n .inserted)
  have hrn : rank σ n = ((σ.node n).key : ℤ) := rank_of_ne σ hnh
  refine ⟨ht ▸ h.nodup, h.kindred, sp.solid h.solid ?_ ?_, ?_, hlink.2 (Or.inl h.tail_linked), ?_,
    (hdata tail).1.trans h.tail_key, ?_, ?_, ?_, ?_, h.pavail,
    fun hp => absurd (hp'.symm.trans hp) nofun, hl⟩
  · exact lt_of_lt_of_eq hrd (hrn.symm.trans (hrank n).symm)
  · exact lt_of_eq_of_lt ((hrank n).trans hrn) hlt
  · intro y hy
    rw [hnext]
    split
    · rfl
    · rcases hlink.1 hy with hy | rfl
      · exact h.state hy
      · rw [hnn]
        rfl
  · rw [hnext, if_neg (Ne.symm hdt)]
    exact h.tail_next
  · intro y hy hyt
    rw [hnext]
    split
    · exact Option.some_ne_none _
    · rcases hlink.1 hy with hy | rfl
      · exact h.complete hy hyt
      · rw [hnn]
        exact Option.some_ne_none _
  · intro y hy
    rcases hin.1 hy with hy | rfl
    · obtain ⟨q, hq, hs⟩ := h.node hy
      exact ⟨q, ht ▸ hq, hs.congr (hdata y).2.1 (hdata y).2.2⟩
    · exact ⟨p, ht ▸ hptodo, hstands.congr (hdata y).2.1 (hdata y).2.2⟩
  · intro q hv
    rcases h.done hv with hq | ⟨x, hx | hx, hq⟩
    · exact Or.inl (ht ▸ hq)
    · exact Or.inr ⟨x, Or.inl (hin.2 (Or.inl hx)), (hdata x).2.1.trans hq⟩
    · obtain rfl := Option.some.inj (hp.symm.trans hx)
      exact Or.inr ⟨n, Or.inl (hin.2 (Or.inr rfl)), (hdata n).2.1.trans hq⟩
  · intro y hy hyl
    rcases hlink.1 hyl with hyl | rfl
    · exact h.avail hy hyl
    · exact absurd (hav.symm.trans hy) Bool.false_ne_true

end Restoring

theorem recovered_iff : (image p).recovered = true ↔ (image p).isValid = true := by
  rw [PNode.recovered_eq]

theorem Before.succ (h : Before σ n d st c) : σ.heap.succ d = some c := congrArg Ptr.ref h.2.1

theorem Before.curr (h : Before σ n d st c) : σ.heap.Linked c := h.1.tail h.succ

theorem restoring_step (hs : Clear image) (h : Restoring image σ pc) (ha : σ.avail slot = true)
    (hn : recoveryNext σ slot pc = some (σ', pc')) : Restoring image σ' pc' := by
  cases pc with
  | scan todo =>
    cases todo with
    | nil => cases hn
    | cons p todo =>
      have hv : (σ.pnode p).recovered = true ↔ (image p).isValid = true := by
        rw [PNode.recovered_eq]
        exact h.valid_iff hs List.mem_cons_self
      have hnd := List.nodup_cons.1 h.nodup
      simp only [recoveryNext] at hn
      split at hn
      · next hr =>
        obtain ⟨rfl, rfl⟩ := Prod.mk.inj (Option.some.inj hn)
        have hp := hv.1 hr
        have he : σ.pnode p = image p := (h.kindred List.mem_cons_self).eq hp
        have hx := h.avail ha
        have o : Off σ ((σ.take slot).write slot (recoveredNode p (σ.pnode p))) slot
            (recoveredNode p (σ.pnode p)) := by
          refine ⟨rfl, fun {y} hy => ?_, rfl, rfl⟩
          by_cases hys : y = slot
          · exact hys ▸ ha
          · exact (Function.update_of_ne hys _ _).symm.trans hy
        have hin : ∀ {y}, InList ((σ.take slot).write slot (recoveredNode p (σ.pnode p))) y →
            InList σ y := fun hy => ⟨((o.steady hx).linked h.solid.good).1 hy.1, hy.2⟩
        refine h.off o hx hnd.2 (fun q hq => List.mem_cons_of_mem _ hq) ?_ ?_ trivial
        · rintro q _ (hq | ⟨y, hy, _⟩)
          · rcases List.mem_cons.1 hq with rfl | hq
            · exact Or.inr ⟨rfl, rfl⟩
            · exact Or.inl hq
          · cases hy
        · intro n hn
          obtain rfl := Option.some.inj hn
          refine ⟨fun hl => hx (((o.steady hx).linked h.solid.good).1 hl), ?_, p, hnd.1, ⟨hp, ?_, ?_⟩,
            fun y hy hpy => ?_⟩
          · exact Function.update_self _ _ _
          · rw [o.self]
            rfl
          · rw [o.self, he]
            rfl
          · rw [o.kept hx (hin hy).1] at hpy
            obtain ⟨q, hq, hst⟩ := h.node (hin hy)
            obtain rfl := Option.some.inj (hpy.symm.trans hst.2.1)
            exact hq List.mem_cons_self
      · next hr =>
        obtain ⟨rfl, rfl⟩ := Prod.mk.inj (Option.some.inj hn)
        exact h.read rfl rfl fun hp => hr (hv.2 hp)
  | reset p todo =>
    obtain ⟨rfl, rfl⟩ := Prod.mk.inj (Option.some.inj hn)
    have hloc : ¬ (image p).isValid = true := h.loc
    refine h.plines h.nodup ?_ (fun q hq => hq) (fun _ hq => hq) ?_ rfl rfl ⟨hloc, ?_⟩
    · intro q c hc
      rw [Function.update_apply] at hc
      split at hc
      · next he =>
        subst he
        rcases Line.mem_write.1 hc with rfl | hc
        · obtain ⟨_, k2, k3, k4, k5⟩ := h.kindred (p := q) List.mem_cons_self
          exact ⟨Or.inr k2, k2, k3, k4, k5⟩
        · exact h.kindred hc
      · exact h.kindred hc
    · intro q hq
      refine ⟨(h.pavail hq).1, ?_⟩
      rw [Function.update_apply]
      split
      · rfl
      · exact (h.pavail hq).2
    · change (Function.update σ.pline p _ p).cur.validStart =
        (Function.update σ.pline p _ p).cur.validEnd
      rw [Function.update_self]
      rfl
  | free p todo =>
    obtain ⟨rfl, rfl⟩ := Prod.mk.inj (Option.some.inj hn)
    obtain ⟨h1, h2⟩ := h.loc
    refine h.plines (List.nodup_cons.1 h.nodup).2 h.kindred
      (fun q hq => List.mem_cons_of_mem _ hq) ?_ ?_ rfl rfl trivial
    · intro q hv hq
      refine (List.mem_cons.1 hq).resolve_left ?_
      rintro rfl
      exact h1 hv
    · intro q hq
      by_cases he : q = p
      · subst he
        exact ⟨h1, h2⟩
      · exact h.pavail ((Function.update_of_ne he _ _).symm.trans hq)
  | retry n todo =>
    simp only [recoveryNext] at hn
    obtain ⟨c, hc, he⟩ := Option.map_eq_some_iff.1 hn
    obtain ⟨rfl, rfl⟩ := Prod.mk.inj he
    refine h.read rfl rfl ⟨Heap.Reach.refl _, addr_of_ref hc, ?_⟩
    rw [rank_head]
    exact WithBot.bot_lt_coe _
  | search n d st c todo =>
    have hb : Before σ n d st c := h.loc
    obtain ⟨hnl, hav, p, hptodo, hstands, hsole⟩ := h.pending rfl
    have hc := hb.curr
    have hch : c ≠ head := by
      rintro rfl
      have hlt : rank σ d < rank σ head := h.solid.ordered (Heap.live_singleton.2 hb.1) hb.succ
      simp at hlt
    have hrc := rank_of_ne σ hch
    simp only [recoveryNext] at hn
    split at hn
    · next hd => exact absurd hd (h.solid.alive hc)
    · split at hn
      · next hk =>
        obtain ⟨e, he, heq⟩ := Option.map_eq_some_iff.1 hn
        obtain ⟨rfl, rfl⟩ := Prod.mk.inj heq
        refine h.read rfl rfl ⟨hc, addr_of_ref he, ?_⟩
        rw [hrc]
        exact WithBot.coe_lt_coe.2 hk
      · next hk =>
        split at hn
        · next he =>
          -- the slot of that node has the key, and so it is the slot in hand
          exfalso
          rw [hstands.key] at he
          by_cases hct : c = tail
          · subst hct
            rw [h.tail_key] at he
            exact absurd (hs.bounded hstands.1) (not_lt.2 he.le)
          · obtain ⟨q, _, hq⟩ := h.node ⟨hc, hch, hct⟩
            rw [hq.key] at he
            obtain rfl := hs.unique hq.1 hstands.1 he
            exact hsole c ⟨hc, hch, hct⟩ hq.2.1
        · next he =>
          obtain ⟨rfl, rfl⟩ := Prod.mk.inj (Option.some.inj hn)
          have o : Off σ (σ.setNext n (Ptr.addr c .inserted)) n
              { σ.node n with next := Ptr.addr c .inserted } := ⟨rfl, id, rfl, rfl⟩
          have hlink : ∀ {y}, (σ.setNext n (Ptr.addr c .inserted)).heap.Linked y ↔
              σ.heap.Linked y := (o.steady hnl).linked h.solid.good
          have hrank : ∀ y, rank (σ.setNext n (Ptr.addr c .inserted)) y = rank σ y :=
            setNext_rank σ n _
          have hkey := (setNext_data σ n (Ptr.addr c .inserted) n).1
          refine h.off o hnl h.nodup (fun _ hq => hq) ?_ ?_ ⟨⟨hlink.2 hb.1, ?_, ?_⟩, ?_, ?_⟩
          · rintro q _ (hq | ⟨y, hy, hq⟩)
            · exact Or.inl hq
            · obtain rfl := Option.some.inj hy
              exact Or.inr ⟨rfl, hq⟩
          · intro y hy
            obtain rfl := Option.some.inj hy
            have hdata := setNext_data σ n (Ptr.addr c .inserted)
            refine ⟨fun hl => hnl (hlink.1 hl), hav, p, hptodo,
              hstands.congr (hdata n).2.1 (hdata n).2.2, fun z hz => ?_⟩
            rw [(hdata z).2.1]
            exact hsole z ⟨hlink.1 hz.1, hz.2⟩
          · rw [o.kept hnl hb.1]
            exact hb.2.1
          · rw [hrank, hkey]
            exact hb.2.2
          · rw [hrank, hkey, hrc]
            exact WithBot.coe_lt_coe.2 (lt_of_le_of_ne (not_lt.1 hk) (Ne.symm he))
          · rw [setNext_next, if_pos rfl]
  | link n d st c todo =>
    obtain ⟨hb, hlt, hnn⟩ := h.loc
    simp only [recoveryNext, if_pos hb.2.1] at hn
    obtain ⟨rfl, rfl⟩ := Prod.mk.inj (Option.some.inj hn)
    exact h.linkStep rfl rfl rfl hb hlt hnn trivial
  | failed => cases hn

theorem initial_linked_iff (zero : V) :
    (initial zero).store.heap.Linked x ↔ x = head ∨ x = tail := by
  constructor
  · exact fun hl => initial_live zero ⟨head, Or.inl rfl, hl⟩
  · rintro (rfl | rfl)
    · exact Heap.Reach.refl _
    · exact (inv_initial zero).mem.chain.tail_linked

theorem initial_solid (zero : V) : (initial zero).store.heap.Solid := by
  have hi := (inv_initial zero).mem.chain
  have hR : ∀ r ∈ ({head} : Set Loc), (initial zero).store.heap.Live (initial zero).roots r := by
    rintro r rfl
    exact hi.head_live
  refine ⟨hi.good.reroot rfl hR, Heap.Ordered.reroot hi.ordered hR, fun {x} _ hd => ?_⟩
  have hd : ((initial zero).store.node x).next.state = .deleted := hd
  rw [initial_node] at hd
  split at hd <;> cases hd

theorem restoring_start (hn : slots.Nodup) (hv : ∀ p, (image p).isValid = true → p ∈ slots)
    (hb : ∀ p, bump p = true → ¬ (image p).isValid = true ∧
      (image p).validStart = (image p).validEnd) :
    Restoring image (restore zero image bump) (.scan slots) := by
  have hi := (inv_initial zero).mem.chain
  have hlink : ∀ {x}, (restore zero image bump).heap.Linked x ↔ x = head ∨ x = tail :=
    initial_linked_iff zero
  have hin : ∀ {x}, ¬ InList (restore zero image bump) x := fun hx =>
    (hlink.1 hx.1).elim hx.2.1 hx.2.2
  refine ⟨hn, ?_, initial_solid zero, ?_, hi.tail_linked, hi.tail_next, hi.tail_key, ?_,
    fun hx => absurd hx hin, fun hp => Or.inl (hv _ hp), ?_, fun hp => hb _ hp, nofun, trivial⟩
  · intro p c hc
    obtain rfl : c = image p := List.mem_singleton.1 hc
    exact Kindred.refl _
  · intro x _
    exact (congrArg Ptr.state (initial_node zero x)).trans (by split <;> rfl)
  · intro x hx
    exact hi.complete (hi.good.live_of_linked hx)
  · exact fun hx hl => hi.fresh hx (hi.good.live_of_linked hl)

theorem Restoring.inv (hs : Clear image) (h : Restoring image σ (.scan [])) :
    Inv ⟨σ, fun _ => none⟩ := by
  have hroots : ∀ {x}, x ∈ State.roots ⟨σ, fun _ => none⟩ → x = head := by
    rintro x (hx | ⟨t, op, pc, ht, _⟩)
    · exact hx
    · cases ht
  have hlive : ∀ {x}, σ.heap.Live (State.roots ⟨σ, fun _ => none⟩) x → σ.heap.Linked x := by
    rintro x ⟨r, hr, hx⟩
    obtain rfl := hroots hr
    exact hx
  have hR : ∀ r ∈ State.roots ⟨σ, fun _ => none⟩, σ.heap.Live {σ.heap.head} r := by
    intro r hr
    obtain rfl := hroots hr
    exact Heap.Live.root rfl
  have howner : ∀ {x}, Owner σ (State.writers ⟨σ, fun _ => none⟩) x → InList σ x := by
    rintro x (hx | ⟨t, op, pc, ht, _⟩)
    · exact hx
    · cases ht
  have hkey : ∀ {x p}, InList σ x → (σ.node x).pptr = some p → Stands image σ p x := by
    intro x p hx hp
    obtain ⟨q, _, hq⟩ := h.node hx
    obtain rfl := Option.some.inj (hp.symm.trans hq.2.1)
    exact hq
  refine ⟨⟨⟨h.solid.good.reroot (head_mem_roots _) hR, Heap.Ordered.reroot h.solid.ordered hR,
    h.state (Heap.Reach.refl _), h.tail_linked, h.tail_next, h.tail_key,
    fun hx => h.complete (hlive hx), ?_, fun hx hl => h.avail hx (hlive hl)⟩, ⟨?_, ?_, ?_, ?_, ?_⟩,
    ?_⟩, nofun, ?_, ?_, ?_⟩
  · intro x hx ht
    by_cases hh : x = head
    · rw [hh, rank_head]
      exact WithBot.bot_lt_coe _
    · obtain ⟨p, _, hp⟩ := h.node ⟨hlive hx, hh, ht⟩
      rw [rank_of_ne σ hh, hp.key]
      exact WithBot.coe_lt_coe.2 (hs.bounded hp.1)
  · intro x hx
    obtain ⟨p, _, hp⟩ := h.node (howner hx)
    refine ⟨p, hp.2.1, ?_⟩
    rw [h.state (howner hx).1, hp.2.2]
    intro c hc
    obtain rfl := (h.kindred hc).eq hp.1
    obtain ⟨h1, h2⟩ := isValid_iff.1 hp.1
    refine ⟨⟨rfl, h1.symm, rfl, rfl⟩, ?_⟩
    change (image p).deleted = !(image p).validStart
    rw [h1]
    exact Bool.eq_not_of_ne (Ne.symm h2)
  · intro x y p hx hy hxp hyp
    have h1 := hkey (howner hx) hxp
    have h2 := hkey (howner hy) hyp
    refine h.solid.eq_of_rank (howner hx).1 (howner hy).1 ?_
    change rank σ x = rank σ y
    rw [rank_of_ne σ (howner hx).2.1, rank_of_ne σ (howner hy).2.1, h1.key, h2.key]
  · intro x p hx hp
    by_contra hne
    exact (h.pavail (Bool.eq_true_of_not_eq_false hne)).1 (hkey hx hp).1
  · intro p hp
    obtain ⟨h1, h2⟩ := h.pavail hp
    have hk := h.kindred (p := p) List.mem_cons_self
    have heq : (image p).validEnd = (image p).deleted := by
      by_contra hne
      exact h1 (hs.whole hne)
    refine ⟨!(σ.pnode p).validEnd, ⟨?_, ?_, ?_⟩, fun c hc => ?_⟩
    · rw [Bool.not_not]
      exact h2
    · rw [Bool.not_not]
      rfl
    · rw [Bool.not_not]
      exact hk.deleted.trans (heq.symm.trans hk.validEnd.symm)
    · have hc := h.kindred hc
      rw [Bool.not_not]
      exact ⟨hc.validEnd.trans hk.validEnd.symm,
        hc.deleted.trans (heq.symm.trans hk.validEnd.symm)⟩
  · intro p c hc hv
    have hp := (h.valid_iff hs hc).1 hv
    rcases h.done hp with hm | ⟨x, hx | hx, hxp⟩
    · cases hm
    · refine ⟨x, hx, hxp, ?_⟩
      rw [h.state hx.1]
      decide
    · cases hx
  · rintro x ⟨t, op, pc, ht, _⟩
    cases ht
  all_goals exact fun _ _ _ _ _ _ _ ht => nomatch ht

end SOFT.List
