import DurableSets.LinkFree.ListRun
import Mathlib.Logic.Relation

namespace LinkFree.List

open Chain

variable {V : Type}

-- the next access of recover() and of the quickInsert it calls; todo are the slots of the
-- chunks that it has still to look at, failed is an assertion
inductive RecoverPc where
  | scan (todo : List Loc)
  | resetNext (n : Loc) (todo : List Loc)
  | validLoad (n : Loc) (todo : List Loc)
  | validStore (n : Loc) (oldMetaData : Uchar) (todo : List Loc)
  | free (n : Loc) (todo : List Loc)
  | retry (newNode : Loc) (todo : List Loc)
  | search (newNode pred curr : Loc) (todo : List Loc)
  | link (newNode pred curr : Loc) (todo : List Loc)
  | failed
deriving DecidableEq

def recoverNext (σ : Store V) : RecoverPc → Option (Store V × RecoverPc)
  | .scan [] => none
  | .scan (n :: todo) =>
    if (σ.node n).next = Ptr.null ∧ isValid (σ.node n).metaData = true then some (σ, .scan todo)
    else if isValid (σ.node n).metaData = false ∨ (σ.node n).isMarked = true then
      some (σ, .resetNext n todo)
    else some (σ, .retry n todo)
  | .resetNext n todo =>
    some (σ.write n { σ.node n with next := Ptr.null.mark }, .validLoad n todo)
  | .validLoad n todo =>
    if isValid (σ.node n).metaData then some (σ, .free n todo)
    else some (σ, .validStore n (σ.node n).metaData todo)
  | .validStore n old todo =>
    some (σ.write n { σ.node n with metaData := makeValid old }, .free n todo)
  | .free n todo => some (σ.give n, .scan todo)
  | .retry n todo => (σ.node head).next.ref.map fun c => (σ, .search n head c todo)
  | .search n pred curr todo =>
    if (σ.node curr).isMarked then some (σ, .failed)
    else if (σ.node curr).key < (σ.node n).key then
      (σ.node curr).next.ref.map fun c => (σ, .search n curr c todo)
    else if (σ.node curr).key = (σ.node n).key then some (σ, .failed)
    else some (σ.write n { σ.node n with next := Ptr.addr curr }, .link n pred curr todo)
  | .link n pred curr todo =>
    if (σ.node pred).next = Ptr.addr curr then
      some (σ.write pred { σ.node pred with next := Ptr.addr n }, .scan todo)
    else some (σ, .retry n todo)
  | .failed => none

def Recovers (a b : Store V × RecoverPc) : Prop := recoverNext a.1 a.2 = some b

def Left (σ : Store V) (image : Loc → Node V) : Prop :=
  ∀ x, x ≠ head → x ≠ tail → image x ∈ (σ.line x).contents

def restart (zero : V) (junk : Uchar) (image : Loc → Node V) (bump : Loc → Bool) : Store V where
  line x := if x = head ∨ x = tail then (initialStore zero junk).line x else ⟨image x, []⟩
  avail := bump

structure Chunks (zero : V) (image : Loc → Node V) (slots : List Loc) (bump : Loc → Bool) :
    Prop where
  nodup : slots.Nodup
  inner : ∀ x ∈ slots, x ≠ head ∧ x ≠ tail
  outside : ∀ x, x ≠ head → x ≠ tail → x ∉ slots → bump x = true
  unused : ∀ x, bump x = true → x ≠ head ∧ x ≠ tail ∧
    image x = ⟨0#8, false, false, 0, zero, Ptr.null⟩

-- a slot that recover() takes for a member of the set
def Alive (image : Loc → Node V) (x : Loc) : Prop :=
  x ≠ head ∧ x ≠ tail ∧ (image x).recovered = true

def Interrupted (slots : List Loc) (image image' : Loc → Node V) : Prop :=
  ∃ zero junk bump σ pc, Chunks zero image slots bump ∧
    Relation.ReflTransGen Recovers (restart zero junk image bump, .scan slots) (σ, pc) ∧
    Left σ image'

structure Clear (image : Loc → Node V) : Prop where
  unique : ∀ {x y}, Alive image x → Alive image y → (image x).key = (image y).key → x = y
  bounded : ∀ {x}, Alive image x → (image x).key < INT_MAX
  unflagged : ∀ {x}, Alive image x → (image x).deleteFlag = false

def Same (o a : Node V) : Prop :=
  a.recovered = o.recovered ∧ (o.recovered = true → a.key = o.key ∧ a.value = o.value ∧
    a.deleteFlag = o.deleteFlag)

def RecoverPc.todo : RecoverPc → List Loc
  | .scan todo => todo
  | .resetNext n todo => n :: todo
  | .validLoad n todo => n :: todo
  | .validStore n _ todo => n :: todo
  | .free n todo => n :: todo
  | .retry n todo => n :: todo
  | .search n _ _ todo => n :: todo
  | .link n _ _ todo => n :: todo
  | .failed => []

def RecoverLocal (image : Loc → Node V) (σ : Store V) : RecoverPc → Prop
  | .scan _ => True
  | .resetNext n _ => ¬ (image n).recovered = true
  | .validLoad n _ => ¬ (image n).recovered = true ∧ (σ.node n).next.marked = true
  | .validStore n _ _ => ¬ (image n).recovered = true ∧ (σ.node n).next.marked = true
  | .free n _ => ¬ (image n).recovered = true ∧ isValid (σ.node n).metaData = true
  | .retry n _ => (image n).recovered = true
  | .search n pred curr _ => (image n).recovered = true ∧ σ.heap.Linked pred ∧
      (σ.node pred).next = Ptr.addr curr ∧ rank σ pred < ((image n).key : ℤ)
  | .link n pred curr _ => (image n).recovered = true ∧ σ.heap.Linked pred ∧
      (σ.node pred).next = Ptr.addr curr ∧ rank σ pred < ((image n).key : ℤ) ∧
      (((image n).key : ℤ) : WithBot ℤ) < rank σ curr ∧ (σ.node n).next = Ptr.addr curr
  | .failed => False

structure Recovering (zero : V) (junk : Uchar) (image : Loc → Node V) (σ : Store V)
    (pc : RecoverPc) : Prop where
  nodup : pc.todo.Nodup
  inner : ∀ x ∈ pc.todo, x ≠ head ∧ x ≠ tail
  same : ∀ {x a}, x ≠ head → x ≠ tail → a ∈ (σ.line x).contents → Same (image x) a
  atHead : ∀ {a}, a ∈ (σ.line head).contents → ∃ q,
    a = { (initialStore zero junk).node head with next := q }
  atTail : σ.line tail = (initialStore zero junk).line tail
  solid : σ.heap.Solid
  linked : ∀ {x}, σ.heap.Linked x ↔ x = head ∨ x = tail ∨ (Alive image x ∧ x ∉ pc.todo)
  complete : ∀ {x}, σ.heap.Linked x → x ≠ tail → (σ.node x).next.ref ≠ none
  avail : ∀ {x}, σ.avail x = true → ¬ Alive image x ∧ x ≠ head ∧ x ≠ tail ∧
    isValid (σ.node x).metaData = true
  loc : RecoverLocal image σ pc

variable {σ σ' : Store V} {zero : V} {junk : Uchar} {image image' : Loc → Node V}
  {pc pc' : RecoverPc} {x y n p c : Loc} {todo : List Loc}

theorem Same.refl (o : Node V) : Same o o := ⟨rfl, fun _ => ⟨rfl, rfl, rfl⟩⟩

theorem Same.setNext {o a : Node V} (h : Same o a) (hr : o.recovered = true) (c : Loc) :
    Same o { a with next := Ptr.addr c } := by
  refine ⟨?_, h.2⟩
  have ha := (recovered_iff.1 (h.1.trans hr)).1
  rw [hr]
  exact recovered_iff.2 ⟨ha, rfl, nofun⟩

theorem same_of_marked {o a : Node V} (hl : ¬ o.recovered = true) (ha : a.next.marked = true) :
    Same o a := by
  refine ⟨?_, fun hr => absurd hr hl⟩
  rw [Bool.eq_false_iff.2 hl, Bool.eq_false_iff]
  exact not_recovered_of_marked ha

theorem steady_off {l : Line (Node V)} (hx : ¬ σ.heap.Linked x) :
    Heap.Steady σ.heap (σ.setLine x l).heap {σ.heap.head} := by
  have hnode : ∀ {y}, σ.heap.Live {σ.heap.head} y → (σ.setLine x l).node y = σ.node y := by
    intro y hy
    rw [node_setLine, if_neg]
    rintro rfl
    exact hx (Heap.live_singleton.1 hy)
  refine ⟨rfl, fun hy => congrArg (fun m => m.next.ref) (hnode hy),
    fun hy => rank_congr (congrArg Node.key (hnode hy)), fun hy hd => ?_⟩
  change ((σ.setLine x l).node _).next.marked = true
  rw [hnode hy]
  exact hd

namespace Recovering

variable (h : Recovering zero junk image σ pc)

include h

theorem node_same (hh : x ≠ head) (ht : x ≠ tail) : Same (image x) (σ.node x) :=
  h.same hh ht List.mem_cons_self

theorem key_eq (hx : Alive image x) : (σ.node x).key = (image x).key :=
  ((h.node_same hx.1 hx.2.1).2 hx.2.2).1

theorem not_linked (hx : x ∈ pc.todo) : ¬ σ.heap.Linked x := by
  obtain ⟨hh, ht⟩ := h.inner x hx
  rw [h.linked]
  simp [hh, ht, hx]

theorem tail_node : (σ.node tail).next = Ptr.null ∧ (σ.node tail).key = INT_MAX := by
  unfold Store.node
  rw [h.atTail]
  exact ⟨rfl, rfl⟩

theorem read (ht : pc'.todo = pc.todo) (hl : RecoverLocal image σ pc') :
    Recovering zero junk image σ pc' := by
  obtain ⟨h1, h2, h3, h4, h5, h6, h7, h8, h9, _⟩ := h
  exact ⟨ht ▸ h1, ht ▸ h2, h3, h4, h5, h6, ht ▸ h7, h8, h9, hl⟩

theorem off {l : Line (Node V)} (hx : x ∈ pc.todo) (hs : ∀ a ∈ l.contents, Same (image x) a)
    (hv : isValid (σ.node x).metaData = true → isValid l.cur.metaData = true)
    (ht : pc'.todo = pc.todo) (hl : RecoverLocal image (σ.setLine x l) pc') :
    Recovering zero junk image (σ.setLine x l) pc' := by
  have hxl := h.not_linked hx
  have st := steady_off (l := l) hxl
  have hline : ∀ {y}, σ.heap.Linked y → (σ.setLine x l).line y = σ.line y := by
    intro y hy
    refine line_setLine_other σ l ?_
    rintro rfl
    exact hxl hy
  have hnode : ∀ {y}, σ.heap.Linked y → (σ.setLine x l).node y = σ.node y := fun hy =>
    congrArg Line.cur (hline hy)
  have hlink : ∀ {y}, (σ.setLine x l).heap.Linked y ↔ σ.heap.Linked y := st.linked h.solid.good
  obtain ⟨hxh, hxt⟩ := h.inner x hx
  refine ⟨ht ▸ h.nodup, ht ▸ h.inner, ?_, ?_, ?_, ?_, ?_, ?_, ?_, hl⟩
  · intro y a hyh hyt ha
    by_cases he : y = x
    · subst he
      rw [line_setLine_self] at ha
      exact hs a ha
    · rw [line_setLine_other σ l he] at ha
      exact h.same hyh hyt ha
  · rw [line_setLine_other σ l (Ne.symm hxh)]
    exact h.atHead
  · rw [line_setLine_other σ l (Ne.symm hxt)]
    exact h.atTail
  · refine st.solid h.solid fun y hy hd => h.solid.alive hy ?_
    change ((σ.setLine x l).node y).next.marked = true at hd
    rw [hnode hy] at hd
    exact hd
  · intro y
    rw [hlink, h.linked, ht]
  · intro y hy hyt
    rw [hnode (hlink.1 hy)]
    exact h.complete (hlink.1 hy) hyt
  · intro y hy
    obtain ⟨h1, h2, h3, h4⟩ := h.avail hy
    refine ⟨h1, h2, h3, ?_⟩
    rw [node_setLine]
    split
    · next he => exact hv (he ▸ h4)
    · exact h4

theorem drop (ht : pc.todo = n :: pc'.todo) (hn : ¬ Alive image n)
    (hl : RecoverLocal image σ pc') : Recovering zero junk image σ pc' := by
  obtain ⟨h1, h2, h3, h4, h5, h6, h7, h8, h9, _⟩ := h
  rw [ht] at h1 h2
  refine ⟨(List.nodup_cons.1 h1).2, fun x hx => h2 x (List.mem_cons_of_mem _ hx), h3, h4, h5, h6,
    fun {x} => ?_, h8, h9, hl⟩
  rw [h7, ht]
  refine or_congr_right (or_congr_right (and_congr_right fun hx => ?_))
  rw [List.mem_cons, not_or, and_iff_right]
  rintro rfl
  exact hn hx

theorem linkStep (ht : pc.todo = n :: pc'.todo)
    (hr : (image n).recovered = true) (hp : σ.heap.Linked p) (hpn : (σ.node p).next = Ptr.addr c)
    (h1 : rank σ p < ((image n).key : ℤ)) (h2 : (((image n).key : ℤ) : WithBot ℤ) < rank σ c)
    (hnn : (σ.node n).next = Ptr.addr c)
    (hl : RecoverLocal image (σ.write p { σ.node p with next := Ptr.addr n }) pc') :
    Recovering zero junk image (σ.write p { σ.node p with next := Ptr.addr n }) pc' := by
  have hmem : n ∈ pc.todo := ht ▸ List.mem_cons_self
  have hnl := h.not_linked hmem
  obtain ⟨hnh, hnt⟩ := h.inner n hmem
  have hlive : Alive image n := ⟨hnh, hnt, hr⟩
  have hpl : σ.heap.Live {σ.heap.head} p := Heap.live_singleton.2 hp
  have hfresh : ¬ σ.heap.Live {σ.heap.head} n := fun hl => hnl (Heap.live_singleton.1 hl)
  have sp := link_splice hpl hpn hfresh hnn
  have hrank := next_rank σ p (Ptr.addr n) n
  have hrn : rank σ n = ((image n).key : ℤ) := by rw [rank_of_ne σ hnh, h.key_eq hlive]
  have hlink : ∀ {y}, (σ.write p { σ.node p with next := Ptr.addr n }).heap.Linked y ↔
      σ.heap.Linked y ∨ y = n := sp.linked h.solid.good
  have hpt : p ≠ tail := by
    rintro rfl
    rw [h.tail_node.1] at hpn
    cases hpn
  have hnode := node_next σ p (Ptr.addr n)
  have hnd := h.nodup
  have hin := h.inner
  rw [ht] at hnd hin
  rw [List.nodup_cons] at hnd
  refine ⟨hnd.2, fun x hx => hin x (List.mem_cons_of_mem _ hx), ?_, ?_, ?_, ?_, ?_, ?_, ?_, hl⟩
  · intro y a hyh hyt ha
    by_cases he : y = p
    · subst he
      rw [line_write_self, Line.mem_write] at ha
      rcases ha with rfl | ha
      · refine (h.node_same hyh hyt).setNext ?_ n
        rcases h.linked.1 hp with h | h | h
        · exact absurd h hyh
        · exact absurd h hyt
        · exact h.1.2.2
      · exact h.same hyh hyt ha
    · rw [line_write_other σ _ he] at ha
      exact h.same hyh hyt ha
  · intro a ha
    by_cases he : head = p
    · subst he
      rw [line_write_self, Line.mem_write] at ha
      rcases ha with rfl | ha
      · obtain ⟨q, hq⟩ := h.atHead List.mem_cons_self
        exact ⟨Ptr.addr n, by rw [Store.node, hq]⟩
      · exact h.atHead ha
    · rw [line_write_other σ _ he] at ha
      exact h.atHead ha
  · rw [line_write_other σ _ (Ne.symm hpt)]
    exact h.atTail
  · refine sp.solid h.solid ?_ ?_
    · exact lt_of_lt_of_eq h1 (hrn.symm.trans hrank.symm)
    · exact lt_of_eq_of_lt (hrank.trans hrn) h2
  · intro y
    rw [hlink, h.linked, ht]
    by_cases he : y = n
    · subst he
      simp [hlive, hnd.1]
    · simp [he]
  · intro y hy hyt
    rw [hnode]
    split
    · rintro ⟨⟩
    · rcases hlink.1 hy with hy | rfl
      · exact h.complete hy hyt
      · rw [hnn]
        rintro ⟨⟩
  · intro y hy
    obtain ⟨a1, a2, a3, a4⟩ := h.avail hy
    refine ⟨a1, a2, a3, ?_⟩
    rw [(next_key σ p (Ptr.addr n) y).2.2]
    exact a4

end Recovering

theorem recovering_step (hc : Clear image) (h : Recovering zero junk image σ pc)
    (hn : recoverNext σ pc = some (σ', pc')) : Recovering zero junk image σ' pc' := by
  cases pc with
  | scan todo =>
    cases todo with
    | nil => cases hn
    | cons n todo =>
      obtain ⟨hh, ht⟩ := h.inner n List.mem_cons_self
      have hs := (h.node_same hh ht).1
      simp only [recoverNext] at hn
      split at hn
      · next he =>
        obtain ⟨rfl, rfl⟩ := Prod.mk.inj (Option.some.inj hn)
        refine h.drop rfl (fun ha => ?_) trivial
        rw [ha.2.2, recovered_iff] at hs
        exact hs.2.2 he.1
      · next he =>
        split at hn
        · next hr =>
          obtain ⟨rfl, rfl⟩ := Prod.mk.inj (Option.some.inj hn)
          refine h.read rfl fun ha => ?_
          rw [ha, recovered_iff] at hs
          rcases hr with hr | hr
          · exact Bool.false_ne_true (hr.symm.trans hs.1)
          · exact Bool.false_ne_true (hs.2.1.symm.trans hr)
        · next hr =>
          obtain ⟨rfl, rfl⟩ := Prod.mk.inj (Option.some.inj hn)
          refine h.read rfl ?_
          change (image n).recovered = true
          rw [← hs, Node.recovered, if_neg he, if_neg hr]
  | resetNext n todo =>
    obtain ⟨rfl, rfl⟩ := Prod.mk.inj (Option.some.inj hn)
    obtain ⟨hh, ht⟩ := h.inner n List.mem_cons_self
    have hl : ¬ (image n).recovered = true := h.loc
    refine h.off List.mem_cons_self (fun a ha => ?_) id rfl ⟨hl, ?_⟩
    · rcases Line.mem_write.1 ha with rfl | ha
      · exact same_of_marked hl rfl
      · exact h.same hh ht ha
    · rw [node_setLine, if_pos rfl]
      rfl
  | validLoad n todo =>
    simp only [recoverNext] at hn
    split at hn <;> obtain ⟨rfl, rfl⟩ := Prod.mk.inj (Option.some.inj hn)
    · next hv => exact h.read rfl ⟨h.loc.1, hv⟩
    · exact h.read rfl h.loc
  | validStore n old todo =>
    obtain ⟨rfl, rfl⟩ := Prod.mk.inj (Option.some.inj hn)
    obtain ⟨hh, ht⟩ := h.inner n List.mem_cons_self
    obtain ⟨hl, hm⟩ := h.loc
    refine h.off List.mem_cons_self (fun a ha => ?_) (fun _ => isValid_makeValid old) rfl ⟨hl, ?_⟩
    · rcases Line.mem_write.1 ha with rfl | ha
      · exact same_of_marked hl hm
      · exact h.same hh ht ha
    · rw [node_setLine, if_pos rfl]
      exact isValid_makeValid old
  | free n todo =>
    obtain ⟨rfl, rfl⟩ := Prod.mk.inj (Option.some.inj hn)
    obtain ⟨hh, ht⟩ := h.inner n List.mem_cons_self
    obtain ⟨hl, hv⟩ := h.loc
    have hd : Recovering zero junk image σ (.scan todo) :=
      h.drop rfl (fun ha => hl ha.2.2) trivial
    obtain ⟨h1, h2, h3, h4, h5, h6, h7, h8, h9, _⟩ := hd
    refine ⟨h1, h2, h3, h4, h5, h6, h7, h8, fun {x} hx => ?_, trivial⟩
    by_cases he : x = n
    · subst he
      exact ⟨fun ha => hl ha.2.2, hh, ht, hv⟩
    · exact h9 ((Function.update_of_ne he _ _).symm.trans hx)
  | retry n todo =>
    simp only [recoverNext] at hn
    obtain ⟨c, hs, he⟩ := Option.map_eq_some_iff.1 hn
    obtain ⟨rfl, rfl⟩ := Prod.mk.inj he
    have hh : σ.heap.Linked head := Heap.Reach.refl _
    refine h.read rfl ⟨h.loc, hh, addr_of_alive (h.solid.alive hh) hs, ?_⟩
    rw [rank_head]
    exact WithBot.bot_lt_coe _
  | search n p c todo =>
    obtain ⟨hr, hp, hpn, hlt⟩ := h.loc
    obtain ⟨hnh, hnt⟩ := h.inner n List.mem_cons_self
    have hn' : Alive image n := ⟨hnh, hnt, hr⟩
    have hkey := h.key_eq hn'
    have hc' : σ.heap.Linked c := hp.tail (congrArg Ptr.ref hpn)
    have hch : c ≠ head := by
      rintro rfl
      have := h.solid.ordered (Heap.live_singleton.2 hp) (congrArg Ptr.ref hpn)
      change rank σ p < rank σ head at this
      simp at this
    have hrc := rank_of_ne σ hch
    simp only [recoverNext] at hn
    split at hn
    · next hd => exact absurd hd (h.solid.alive hc')
    · split at hn
      · next hk =>
        obtain ⟨d, hs, he⟩ := Option.map_eq_some_iff.1 hn
        obtain ⟨rfl, rfl⟩ := Prod.mk.inj he
        refine h.read rfl ⟨hr, hc', addr_of_alive (h.solid.alive hc') hs, ?_⟩
        rw [hrc, ← hkey]
        exact WithBot.coe_lt_coe.2 hk
      · next hk =>
        split at hn
        · next he =>
          -- the key of a node of the list is that of no other slot
          exfalso
          rcases h.linked.1 hc' with rfl | rfl | ⟨ha, htodo⟩
          · exact hch rfl
          · have := hc.bounded hn'
            rw [h.tail_node.2, hkey] at he
            omega
          · rw [h.key_eq ha, hkey] at he
            exact htodo (hc.unique ha hn' he ▸ List.mem_cons_self)
        · next he =>
          obtain ⟨rfl, rfl⟩ := Prod.mk.inj (Option.some.inj hn)
          have hne : ∀ {y}, σ.heap.Linked y → y ≠ n := by
            rintro y hy rfl
            exact h.not_linked List.mem_cons_self hy
          have hnode : ∀ {y}, σ.heap.Linked y →
              (σ.write n { σ.node n with next := Ptr.addr c }).node y = σ.node y := fun hy => by
            rw [node_write, if_neg (hne hy)]
          have hrank : ∀ {y}, σ.heap.Linked y →
              rank (σ.write n { σ.node n with next := Ptr.addr c }) y = rank σ y := fun hy =>
            rank_congr (congrArg Node.key (hnode hy))
          refine h.off List.mem_cons_self (fun a ha => ?_) id rfl
            ⟨hr, ((steady_off (h.not_linked List.mem_cons_self)).linked h.solid.good).2 hp, ?_, ?_,
              ?_, ?_⟩
          · rcases Line.mem_write.1 ha with rfl | ha
            · exact (h.node_same hnh hnt).setNext hr c
            · exact h.same hnh hnt ha
          · exact (congrArg Node.next (hnode hp)).trans hpn
          · exact lt_of_eq_of_lt (hrank hp) hlt
          · refine lt_of_lt_of_eq ?_ (hrank hc').symm
            rw [hrc, ← hkey]
            exact WithBot.coe_lt_coe.2 (lt_of_le_of_ne (not_lt.1 hk) (Ne.symm he))
          · rw [node_setLine, if_pos rfl]
            rfl
  | link n p c todo =>
    obtain ⟨hr, hp, hpn, h1, h2, hnn⟩ := h.loc
    simp only [recoverNext, if_pos hpn] at hn
    obtain ⟨rfl, rfl⟩ := Prod.mk.inj (Option.some.inj hn)
    exact h.linkStep rfl hr hp hpn h1 h2 hnn trivial
  | failed => cases hn

theorem recovering_run {a b : Store V × RecoverPc} (hc : Clear image)
    (h : Recovering zero junk image a.1 a.2) (hr : Relation.ReflTransGen Recovers a b) :
    Recovering zero junk image b.1 b.2 := by
  induction hr with
  | refl => exact h
  | tail _ hs ih => exact recovering_step hc ih hs

theorem recovering_line (h : Recovering zero junk image σ pc)
    (hn : recoverNext σ pc = some (σ', pc')) (hx : x ∉ pc.todo) (hd : ¬ Alive image x)
    (hh : x ≠ head) (ht : x ≠ tail) : σ'.line x = σ.line x ∧ x ∉ pc'.todo := by
  have wrote : ∀ {n m}, n ∈ pc.todo → (σ.write n m).line x = σ.line x := by
    intro n m hm
    refine line_write_other σ _ ?_
    rintro rfl
    exact hx hm
  have linked : ∀ {p m}, σ.heap.Linked p → (σ.write p m).line x = σ.line x := by
    intro p m hp
    refine line_write_other σ _ ?_
    rintro rfl
    rcases h.linked.1 hp with he | he | he
    · exact hh he
    · exact ht he
    · exact hd he.1
  cases pc with
  | scan todo =>
    cases todo with
    | nil => cases hn
    | cons n todo =>
      simp only [recoverNext] at hn
      split at hn
      · obtain ⟨rfl, rfl⟩ := Prod.mk.inj (Option.some.inj hn)
        exact ⟨rfl, fun hm => hx (List.mem_cons_of_mem _ hm)⟩
      · split at hn <;> obtain ⟨rfl, rfl⟩ := Prod.mk.inj (Option.some.inj hn) <;> exact ⟨rfl, hx⟩
  | resetNext n todo =>
    obtain ⟨rfl, rfl⟩ := Prod.mk.inj (Option.some.inj hn)
    exact ⟨wrote List.mem_cons_self, hx⟩
  | validLoad n todo =>
    simp only [recoverNext] at hn
    split at hn <;> obtain ⟨rfl, rfl⟩ := Prod.mk.inj (Option.some.inj hn) <;> exact ⟨rfl, hx⟩
  | validStore n old todo =>
    obtain ⟨rfl, rfl⟩ := Prod.mk.inj (Option.some.inj hn)
    exact ⟨wrote List.mem_cons_self, hx⟩
  | free n todo =>
    obtain ⟨rfl, rfl⟩ := Prod.mk.inj (Option.some.inj hn)
    exact ⟨rfl, fun hm => hx (List.mem_cons_of_mem _ hm)⟩
  | retry n todo =>
    obtain ⟨c, _, he⟩ := Option.map_eq_some_iff.1 hn
    obtain ⟨rfl, rfl⟩ := Prod.mk.inj he
    exact ⟨rfl, hx⟩
  | search n p c todo =>
    simp only [recoverNext] at hn
    split at hn
    · obtain ⟨rfl, rfl⟩ := Prod.mk.inj (Option.some.inj hn)
      exact ⟨rfl, List.not_mem_nil⟩
    · split at hn
      · obtain ⟨d, _, he⟩ := Option.map_eq_some_iff.1 hn
        obtain ⟨rfl, rfl⟩ := Prod.mk.inj he
        exact ⟨rfl, hx⟩
      · split at hn <;> obtain ⟨rfl, rfl⟩ := Prod.mk.inj (Option.some.inj hn)
        · exact ⟨rfl, List.not_mem_nil⟩
        · exact ⟨wrote List.mem_cons_self, hx⟩
  | link n p c todo =>
    simp only [recoverNext] at hn
    split at hn <;> obtain ⟨rfl, rfl⟩ := Prod.mk.inj (Option.some.inj hn)
    · exact ⟨linked h.loc.2.1, fun hm => hx (List.mem_cons_of_mem _ hm)⟩
    · exact ⟨rfl, hx⟩
  | failed => cases hn

theorem outside_run {a b : Store V × RecoverPc} (hc : Clear image)
    (h : Recovering zero junk image a.1 a.2) (hr : Relation.ReflTransGen Recovers a b)
    (hx : x ∉ a.2.todo) (hd : ¬ Alive image x) (hh : x ≠ head) (ht : x ≠ tail) :
    b.1.line x = a.1.line x ∧ x ∉ b.2.todo := by
  induction hr with
  | refl => exact ⟨rfl, hx⟩
  | tail hr hs ih =>
    have := recovering_line (recovering_run hc h hr) hs ih.2 hd hh ht
    exact ⟨this.1.trans ih.1, this.2⟩

theorem initial_solid (zero : V) (junk : Uchar) : (initial zero junk).store.heap.Solid := by
  have hi := (inv_initial zero junk).mem
  have hR : ∀ r ∈ ({head} : Set Loc),
      (initial zero junk).store.heap.Live (initial zero junk).roots r := by
    rintro r rfl
    exact hi.head_live
  refine ⟨hi.good.reroot rfl hR, Heap.Ordered.reroot hi.ordered hR, fun {x} _ hd => ?_⟩
  have hd : ((initial zero junk).store.node x).next.marked = true := hd
  rw [initial_node] at hd
  split at hd <;> cases hd

theorem initial_linked_iff (zero : V) (junk : Uchar) :
    (initial zero junk).store.heap.Linked x ↔ x = head ∨ x = tail := by
  constructor
  · exact fun hl => initial_live zero junk ⟨head, Or.inl rfl, hl⟩
  · rintro (rfl | rfl)
    · exact Heap.Reach.refl _
    · exact (inv_initial zero junk).mem.tail_linked

theorem restart_sentinel (zero : V) (junk : Uchar) (image : Loc → Node V) (bump : Loc → Bool)
    (hx : x = head ∨ x = tail) :
    (restart zero junk image bump).node x = (initial zero junk).store.node x :=
  congrArg Line.cur (if_pos hx)

theorem restart_steady (zero : V) (junk : Uchar) (image : Loc → Node V) (bump : Loc → Bool) :
    Heap.Steady (initial zero junk).store.heap (restart zero junk image bump).heap
      {(initial zero junk).store.heap.head} := by
  have hnode : ∀ {x}, (initial zero junk).store.heap.Live {(initial zero junk).store.heap.head} x →
      (restart zero junk image bump).node x = (initial zero junk).store.node x := fun hx =>
    restart_sentinel zero junk image bump
      ((initial_linked_iff zero junk).1 (Heap.live_singleton.1 hx))
  exact ⟨rfl, fun hx => congrArg (fun m => m.next.ref) (hnode hx),
    fun hx => rank_congr (congrArg Node.key (hnode hx)),
    fun hx hd => absurd hd ((initial_solid zero junk).alive (Heap.live_singleton.1 hx))⟩

theorem restart_linked (zero : V) (junk : Uchar) (image : Loc → Node V) (bump : Loc → Bool) :
    (restart zero junk image bump).heap.Linked x ↔ x = head ∨ x = tail :=
  ((restart_steady zero junk image bump).linked (initial_solid zero junk).good).trans
    (initial_linked_iff zero junk)

theorem restart_solid (zero : V) (junk : Uchar) (image : Loc → Node V) (bump : Loc → Bool) :
    (restart zero junk image bump).heap.Solid := by
  refine (restart_steady zero junk image bump).solid (initial_solid zero junk) fun x hx hd => ?_
  have hd : ((restart zero junk image bump).node x).next.marked = true := hd
  rw [restart_sentinel zero junk image bump ((initial_linked_iff zero junk).1 hx)] at hd
  exact (initial_solid zero junk).alive hx hd

theorem recovering_start (junk : Uchar) {slots : List Loc} {bump : Loc → Bool}
    (h : Chunks zero image slots bump) :
    Recovering zero junk image (restart zero junk image bump) (.scan slots) := by
  have hline : ∀ {x}, x = head ∨ x = tail →
      (restart zero junk image bump).line x = (initial zero junk).store.line x := fun hx => if_pos hx
  have hslot : ∀ {x}, x ≠ head → x ≠ tail →
      (restart zero junk image bump).line x = ⟨image x, []⟩ := fun hh ht =>
    if_neg (not_or.2 ⟨hh, ht⟩)
  have hlinked : ∀ {x}, (restart zero junk image bump).heap.Linked x ↔ x = head ∨ x = tail :=
    restart_linked zero junk image bump
  have hunused : ∀ {x}, bump x = true → ¬ Alive image x := by
    rintro x hx ⟨_, _, hr⟩
    rw [(h.unused x hx).2.2, recovered_iff] at hr
    exact hr.2.2 rfl
  refine ⟨h.nodup, h.inner, fun {x a} hh ht ha => ?_, fun {a} ha => ?_, hline (Or.inr rfl),
    restart_solid zero junk image bump, fun {x} => ?_, fun {x} hx ht => ?_, fun {x} hx => ?_,
    trivial⟩
  · rw [hslot hh ht] at ha
    obtain rfl : a = image x := (List.mem_singleton.1 ha)
    exact Same.refl _
  · rw [hline (Or.inl rfl), Line.mem_contents, initial_older] at ha
    obtain rfl := ha.resolve_right List.not_mem_nil
    exact ⟨_, rfl⟩
  · rw [hlinked]
    refine or_congr_right (or_iff_left ?_).symm
    rintro ⟨hx, hmem⟩
    exact hunused (h.outside x hx.1 hx.2.1 hmem) hx
  · rcases hlinked.1 hx with rfl | rfl
    · rw [restart_sentinel zero junk image bump (Or.inl rfl), initial_node]
      exact nofun
    · exact absurd rfl ht
  · obtain ⟨h1, h2, h3⟩ := h.unused x hx
    refine ⟨hunused hx, h1, h2, ?_⟩
    rw [Store.node, hslot h1 h2, h3]
    change isValid 0#8 = true
    decide

def Unflagged (σ : Store V) : Prop :=
  ∀ x, ∀ a ∈ (σ.line x).contents, a.recovered = true → a.deleteFlag = false

theorem Recovering.contents (h : Recovering zero junk image σ (.scan [])) {a : Node V}
    (hx : σ.heap.Linked x) (ha : a ∈ (σ.line x).contents) :
    (Alive image x ∧ Same (image x) a) ∨
      (a.insertFlag = false ∧ a.deleteFlag = false ∧ a.key = (σ.node x).key ∧
        a.value = (σ.node x).value) := by
  rcases h.linked.1 hx with rfl | rfl | ⟨hlive, _⟩
  · obtain ⟨q, rfl⟩ := h.atHead ha
    obtain ⟨r, hr⟩ : ∃ r, σ.node head = { (initialStore zero junk).node head with next := r } :=
      h.atHead List.mem_cons_self
    refine Or.inr ⟨rfl, rfl, ?_, ?_⟩ <;> rw [hr]
  · rw [h.atTail] at ha
    obtain rfl := List.mem_singleton.1 ha
    refine Or.inr ⟨rfl, rfl, ?_, ?_⟩ <;> rw [Store.node, h.atTail]
  · exact Or.inl ⟨hlive, h.same hlive.1 hlive.2.1 ha⟩

theorem Recovering.unflagged (hc : Clear image) (h : Recovering zero junk image σ (.scan [])) :
    Unflagged σ := by
  intro x a ha hr
  by_cases hx : σ.heap.Linked x
  · rcases h.contents hx ha with ⟨hl, hs⟩ | ⟨_, hf, _⟩
    · exact (hs.2 hl.2.2).2.2.trans (hc.unflagged hl)
    · exact hf
  · have hh : x ≠ head := fun e => hx (h.linked.2 (Or.inl e))
    have ht : x ≠ tail := fun e => hx (h.linked.2 (Or.inr (Or.inl e)))
    have hl : Alive image x := ⟨hh, ht, (h.same hh ht ha).1.symm.trans hr⟩
    exact absurd (h.linked.2 (Or.inr (Or.inr ⟨hl, List.not_mem_nil⟩))) hx

theorem Recovering.memInv (hc : Clear image) (h : Recovering zero junk image σ (.scan [])) :
    MemInv σ {head} := by
  have hlive : ∀ {x}, σ.heap.Live {head} x ↔ σ.heap.Linked x := Heap.live_singleton
  have hdead : ∀ {x}, σ.heap.Live {head} x → ¬ σ.heap.dead x := fun hx => h.solid.alive (hlive.1 hx)
  have hself : ∀ x, σ.node x ∈ (σ.line x).contents := fun _ => List.mem_cons_self
  have hkey : ∀ {x a}, Alive image x → a ∈ (σ.line x).contents →
      a.key = (σ.node x).key ∧ a.value = (σ.node x).value := by
    intro x a hx ha
    obtain ⟨h1, h2, _⟩ := (h.same hx.1 hx.2.1 ha).2 hx.2.2
    obtain ⟨h3, h4, _⟩ := (h.same hx.1 hx.2.1 (hself x)).2 hx.2.2
    exact ⟨h1.trans h3.symm, h2.trans h4.symm⟩
  refine ⟨h.solid.good, h.solid.ordered, h.solid.alive (Heap.Reach.refl _),
    h.linked.2 (Or.inr (Or.inl rfl)), h.tail_node.1, h.tail_node.2,
    fun hx => h.complete (hlive.1 hx), fun {x} hx ht => ?_, fun hx hd => absurd hd (hdead hx),
    fun {x} hx hf => ?_, fun {x} hx hf => ?_, fun {x a} ha hr => ?_, fun {x} hx => ?_⟩
  · rcases h.linked.1 (hlive.1 hx) with rfl | rfl | ⟨hl, _⟩
    · rw [rank_head]
      exact WithBot.bot_lt_coe _
    · exact absurd rfl ht
    · rw [rank_of_ne σ hl.1, h.key_eq hl]
      exact WithBot.coe_lt_coe.2 (hc.bounded hl)
  · rcases h.contents (hlive.1 hx) (hself x) with ⟨hl, _⟩ | ⟨hf', _⟩
    · intro a ha
      obtain ⟨h1, h2, h3⟩ := recovered_iff.1 ((h.same hl.1 hl.2.1 ha).1.trans hl.2.2)
      refine ⟨h1, fun he => h3 ?_, (hkey hl ha).1, (hkey hl ha).2,
        fun hm => absurd (h2.symm.trans hm) Bool.false_ne_true⟩
      rcases hq : a.next with ⟨r, m⟩
      rw [hq] at he h2
      obtain rfl : r = none := he
      obtain rfl : m = false := h2
      rfl
    · exact absurd (hf'.symm.trans hf) Bool.false_ne_true
  · rcases h.contents (hlive.1 hx) (hself x) with ⟨hl, hs⟩ | ⟨_, hf', _⟩
    · exact absurd (((hs.2 hl.2.2).2.2.trans (hc.unflagged hl)).symm.trans hf) Bool.false_ne_true
    · exact absurd (hf'.symm.trans hf) Bool.false_ne_true
  · by_cases hx : σ.heap.Linked x
    · refine ⟨hx, ?_⟩
      rcases h.contents hx ha with ⟨hl, _⟩ | ⟨_, _, hk⟩
      · exact hkey hl ha
      · exact hk
    · have hh : x ≠ head := fun e => hx (h.linked.2 (Or.inl e))
      have ht : x ≠ tail := fun e => hx (h.linked.2 (Or.inr (Or.inl e)))
      have hl : Alive image x := ⟨hh, ht, (h.same hh ht ha).1.symm.trans hr⟩
      exact absurd (h.linked.2 (Or.inr (Or.inr ⟨hl, List.not_mem_nil⟩))) hx
  · obtain ⟨h1, h2, h3, h4⟩ := h.avail hx
    refine ⟨h4, fun hl => ?_⟩
    rcases h.linked.1 hl with e | e | e
    · exact h2 e
    · exact h3 e
    · exact h1 e.1

theorem Recovering.inv (hc : Clear image) (h : Recovering zero junk image σ (.scan [])) :
    Inv ⟨σ, fun _ => none⟩ := by
  have hroots : ∀ r ∈ (⟨σ, fun _ => none⟩ : State V).roots, σ.heap.Live {head} r := by
    rintro r (rfl | ⟨t, op, pc, ht, _⟩)
    · exact Heap.Live.root rfl
    · cases ht
  exact ⟨(h.memInv hc).reroot (head_mem_roots _) hroots, fun ht => (nomatch ht),
    fun ht => (nomatch ht)⟩

theorem Effect.unflagged {R R' : Set Loc} {o : Option Loc} (hm : MemInv σ R)
    (e : Effect σ R o R' σ') (hu : Unflagged σ) : Unflagged σ' := by
  have relink : ∀ {p c q}, σ.heap.Live R p → (σ.node p).next = Ptr.addr c →
      Unflagged (σ.write p { σ.node p with next := q }) := by
    intro p c q hp hn x a ha hr
    by_cases he : x = p
    · subst he
      rw [line_write_self, Line.mem_write] at ha
      rcases ha with rfl | ha
      · rw [Bool.eq_false_iff]
        exact fun hf => alive_of_addr hn (hm.deleteFlag hp hf).cur
      · exact hu _ _ ha hr
    · rw [line_write_other σ _ he] at ha
      exact hu _ _ ha hr
  cases e with
  | idle => exact hu
  | touch x l _ live ev ref sub valid hi hd alive atTail =>
    intro y a ha hr
    by_cases he : y = x
    · subst he
      rw [line_setLine_self] at ha
      rcases sub a ha with rfl | ha
      · rw [Bool.eq_false_iff]
        exact fun hf => not_recovered_of_marked (hd hf).cur hr
      · exact hu _ _ ha hr
    · rw [line_setLine_other σ l he] at ha
      exact hu _ _ ha hr
  | priv x m fresh unavail lost =>
    intro y a ha hr
    by_cases he : y = x
    · subst he
      rw [line_write_self, Line.mem_write] at ha
      rcases ha with rfl | ha
      · exact absurd hr lost
      · exact hu _ _ ha hr
    · rw [line_write_other σ _ he] at ha
      exact hu _ _ ha hr
  | link p n c live next => exact relink live next
  | unlink p c succ _ live next => exact relink live next
  | take x => exact hu
  | give x => exact hu

variable {s s' : State V}

theorem unflagged_step (hi : Inv s) (hu : Unflagged s.store) {e : Event (SetOp V)}
    (hs : Step s e s') : Unflagged s'.store := by
  cases hs with
  | call t op idle hk => exact hu
  | ret t op r n ht => exact hu
  | tau t op pc pc' slot σ ht hn hs =>
    obtain ⟨R', e, _⟩ := tau_ok hi ht hn hs
    exact e.unflagged hi.mem hu

theorem unflagged_initial (zero : V) (junk : Uchar) : Unflagged (initial zero junk).store := by
  intro x a ha _
  rw [Line.mem_contents, initial_older] at ha
  obtain rfl : a = (initial zero junk).store.node x := ha.resolve_right List.not_mem_nil
  simp only [initial, initialStore, Store.node]
  split
  · rfl
  · split <;> rfl

theorem clear_of_left (hi : Inv s) (hu : Unflagged s.store) (hl : Left s.store image) :
    Clear image := by
  have hrec : ∀ {x}, Alive image x → s.store.heap.Linked x ∧
      (image x).key = (s.store.node x).key := by
    intro x hx
    obtain ⟨h1, h2, _⟩ := hi.mem.recovered (hl x hx.1 hx.2.1) hx.2.2
    exact ⟨h1, h2⟩
  refine ⟨fun {x y} hx hy he => ?_, fun {x} hx => ?_, fun {x} hx =>
    hu x _ (hl x hx.1 hx.2.1) hx.2.2⟩
  · obtain ⟨h1, h2⟩ := hrec hx
    obtain ⟨h3, h4⟩ := hrec hy
    refine Heap.Ordered.eq_of_rank hi.mem.ordered hi.mem.head_live h1 h3 ?_
    change rank s.store x = rank s.store y
    rw [rank_of_ne _ hx.1, rank_of_ne _ hy.1, ← h2, ← h4, he]
  · obtain ⟨h1, h2⟩ := hrec hx
    have := hi.mem.bounded (hi.mem.good.live_of_linked h1) hx.2.1
    rw [rank_of_ne _ hx.1, ← h2] at this
    exact WithBot.coe_lt_coe.1 this

end LinkFree.List
