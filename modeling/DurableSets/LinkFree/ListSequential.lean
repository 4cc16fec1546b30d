import DurableSets.Core.Path
import DurableSets.Core.Sequential
import DurableSets.LinkFree.ListDurable
import DurableSets.LinkFree.ListProgress

namespace LinkFree.List

open Chain

variable {V : Type} {σ σ' : Store V} {s s' : State V} {t : Tid} {op : SetOp V} {pc pc' : Pc}
  {slot x n p c : Loc} {A : Set ℤ} {R : Set Loc} {k : ℤ}

def Pc.unlinks : Pc → Option Loc
  | .deleteLoad (.trim .inRemove _) n => some n
  | .deleteFlush (.trim .inRemove _) n => some n
  | .deleteStore (.trim .inRemove _) n => some n
  | .trimLoad .inRemove _ n => some n
  | .trimCas .inRemove _ n _ => some n
  | _ => none

def DeleteCtx.Told (σ : Store V) (n : Loc) : DeleteCtx → Prop
  | .trim .inRemove p => (σ.node p).next = Ptr.addr n
  | _ => False

def ValidCtx.Told (σ : Store V) (A : Set ℤ) (k : ℤ) (n : Loc) : ValidCtx → Prop
  | .removing p _ => (σ.node p).next = Ptr.addr n
  | .found => k ∈ A
  | .contains => k ∈ A
  | _ => True

-- what the call has learnt about the set that it started on
def Told (σ : Store V) (A : Set ℤ) (op : SetOp V) : Pc → Prop
  | .findNext p n => p = n
  | .deleteLoad c n => c.Told σ n
  | .deleteFlush c n => c.Told σ n
  | .deleteStore c n => c.Told σ n
  | .trimLoad c p n => c = .inRemove ∧ (σ.node p).next = Ptr.addr n
  | .trimCas c p n _ => c = .inRemove ∧ (σ.node p).next = Ptr.addr n
  | .trimFree c _ _ => c = .inRemove
  | .validLoad c n => c.Told σ A op.key n
  | .validStore c n _ => c.Told σ A op.key n
  | .insertLoad r _ => op.IsContains ∨ r = false → op.key ∈ A
  | .insertFlush r _ => op.IsContains ∨ r = false → op.key ∈ A
  | .insertStore r _ => op.IsContains ∨ r = false → op.key ∈ A
  | .removeLoad p n => (σ.node p).next = Ptr.addr n
  | .markCas p n _ => (σ.node p).next = Ptr.addr n
  | .containsWalk c => ∃ p, σ.heap.Linked p ∧ (σ.node p).next = Ptr.addr c ∧
      rank σ p < (op.key : ℤ)
  | .ret r _ => op.IsContains ∨ r = false → (r = true ↔ op.Accepts A)
  | _ => True

structure Alone (A : Set ℤ) (s : State V) (t : Tid) (op : SetOp V) (pc : Pc) : Prop where
  sane : Sane s
  thread : s.thread t = some (op, pc)
  fresh : Fresh s.store pc
  settled : ∀ x, s.store.heap.Linked x → s.store.heap.dead x → pc.unlinks = some x
  effect : (pc.took op ∧ op.Effect A s.abs) ∨ (¬ pc.took op ∧ s.abs = A)
  told : Told s.store A op pc

structure Settled (A : Set ℤ) (s : State V) (t : Tid) : Prop where
  sane : Sane s
  idle : s.thread t = none
  alive : ∀ x, s.store.heap.Linked x → ¬ s.store.heap.dead x
  abs : s.abs = A

theorem mem_iff_of_next (hi : Inv s) (hd : ∀ x, s.store.heap.Linked x → ¬ s.store.heap.dead x)
    (hp : s.store.heap.Linked p) (hc : (s.store.node p).next = Ptr.addr c) (hk : k < INT_MAX)
    (lt : rank s.store p < (k : WithBot ℤ)) (le : (k : WithBot ℤ) ≤ rank s.store c) :
    k ∈ s.abs ↔ (s.store.node c).key = k := by
  have hs : s.store.heap.succ p = some c := succ_of_addr hc
  have hcl : s.store.heap.Linked c := hp.tail hs
  have sorted : Sorted s.store.heap s.roots := ⟨hi.mem.good, hi.mem.ordered⟩
  rw [hi.mem.mem_abs]
  constructor
  · rintro ⟨_, x, hx, _, hr⟩
    by_contra hne
    refine sorted.gap hp hs lt (lt_of_le_of_ne le fun he => hne (key_of_rank he.symm)) x hx hr
  · rintro rfl
    refine ⟨hk, c, hcl, hd c hcl, rank_of_ne _ ?_⟩
    rintro rfl
    rw [rank_head] at le
    exact absurd le (not_le.2 (WithBot.bot_lt_coe _))

theorem linked_of_next (hm : MemInv σ R) (hl : σ.heap.Live R p)
    (h : (σ.node p).next = Ptr.addr c) : σ.heap.Linked p :=
  hm.good.alive hl (alive_of_addr h)

theorem unlinks_next (hn : next σ op slot pc = some (σ', pc')) (hs : ¬ pc.swings σ p)
    (ht : Told σ A op pc) (hx : pc.unlinks = some x)
    (hp : ∀ c p' n q, pc = .trimCas c p' n q → p = p') : pc'.unlinks = some x := by
  cases pc with
  | deleteLoad c n =>
    cases c with
    | trim c d =>
      cases c with
      | inFind => cases hx
      | inRemove =>
        simp only [next] at hn
        split at hn <;> obtain ⟨_, rfl⟩ := Prod.mk.inj (Option.some.inj hn) <;> exact hx
    | contains => cases hx
  | deleteFlush c n =>
    cases c with
    | trim c d =>
      cases c with
      | inFind => cases hx
      | inRemove =>
        obtain ⟨_, rfl⟩ := Prod.mk.inj (Option.some.inj hn)
        exact hx
    | contains => cases hx
  | deleteStore c n =>
    cases c with
    | trim c d =>
      cases c with
      | inFind => cases hx
      | inRemove =>
        obtain ⟨_, rfl⟩ := Prod.mk.inj (Option.some.inj hn)
        exact hx
    | contains => cases hx
  | trimLoad c d n =>
    cases c with
    | inFind => cases hx
    | inRemove =>
      obtain ⟨_, rfl⟩ := Prod.mk.inj (Option.some.inj hn)
      exact hx
  | trimCas c d n q => exact absurd ⟨hp c d n q rfl, ht.2⟩ hs
  | _ => cases hx

theorem settled_step (hi : Inv s) (ht : s.thread t = some (op, pc)) (hT : Told s.store A op pc)
    (h : ∀ x, s.store.heap.Linked x → s.store.heap.dead x → pc.unlinks = some x)
    (hn : next s.store op slot pc = some (σ, pc')) (hl : σ.heap.Linked x) (hd : σ.heap.dead x) :
    pc'.unlinks = some x := by
  have f := hi.fit ht
  have hm := hi.mem
  rcases tau_cases f.fresh hn with ⟨p, c, n, rfl, hnext, rfl⟩ | ⟨p, n, q, rfl, hnext, rfl⟩ |
    ⟨d, p, n, q, rfl, hnext, rfl⟩ | ⟨hquiet, hframe⟩
  · have sp := link_splice (f.refs p (by simp [Pc.refs])) hnext (f.fresh n rfl) f.loc.2.2.2.2.2
    rcases (sp.linked hm.good).1 hl with hx | rfl
    · exact absurd (h x hx ((sp.dead (hm.good.live_of_linked hx)).1 hd)) (by rintro ⟨⟩)
    · exact absurd hd sp.new_alive'
  · by_cases hxn : x = n
    · subst hxn
      simp only [next, if_pos hnext] at hn
      obtain ⟨_, rfl⟩ := Prod.mk.inj (Option.some.inj hn)
      rfl
    · have st := mark_steady (R := s.roots) f.loc.2.2.2 hnext
      have hx := (st.linked hm.good).1 hl
      have hd : ((s.store.write n _).node x).next.marked = true := hd
      rw [node_write, if_neg hxn] at hd
      exact absurd (h x hx hd) (by rintro ⟨⟩)
  · obtain ⟨hum, hsn⟩ := f.loc.2
    obtain ⟨hx, hne⟩ := (unlink_linked hm (f.refs p (by simp [Pc.refs])) hnext hum hsn).1 hl
    have hd : ((s.store.write p { s.store.node p with next := q }).node x).next.marked = true := hd
    rw [node_next] at hd
    split at hd
    · exact absurd (hum.symm.trans hd) (by decide)
    · have hx' := h x hx hd
      obtain ⟨rfl, _⟩ := hT
      exact absurd (Option.some.inj hx').symm hne
  · have hx := ((frame_steady hframe).linked hm.good).1 hl
    have hd : (σ.node x).next.marked = true := hd
    rw [(hframe x (hm.good.live_of_linked hx)).1] at hd
    have hu := h x hx hd
    cases pc with
    | trimCas c p n q => exact unlinks_next hn (hquiet p) hT hu fun _ _ _ _ he => by injection he
    | _ => exact unlinks_next hn (hquiet head) hT hu fun _ _ _ _ he => by cases he

theorem effect_step (h : Alone A s t op pc) (hs : Step s (.tau t) s')
    (ht' : s'.thread t = some (op, pc')) :
    (pc'.took op ∧ op.Effect A s'.abs) ∨ (¬ pc'.took op ∧ s'.abs = A) := by
  have hd := done_iff h.thread
  have hd' := done_iff ht'
  rcases oneEffect_step h.sane.1 hs with ⟨ha, hk⟩ | ⟨u, op1, pc1, pc2, hu, hu', hnd, hdn, he, _⟩
  · have hk := hk t op pc pc' h.thread ht'
    rw [hd, hd'] at hk
    rw [hk, ha]
    exact h.effect
  · obtain rfl : u = t := by
      by_contra hne
      have hsame : s'.thread u = s.thread u := (machine V).step_other hs hne
      exact hnd ((done_congr hsame).1 hdn)
    obtain ⟨rfl, rfl⟩ := Prod.mk.inj (Option.some.inj (h.thread.symm.trans hu))
    rw [hd] at hnd
    rw [hd'] at hdn
    have hA := (h.effect.resolve_left fun h => hnd h.1).2
    exact Or.inl ⟨hdn, hA ▸ he⟩

theorem afterFind_told (hi : Inv s) (ht : s.thread t = some (op, .findTest p c))
    (hadj : (s.store.node p).next = Ptr.addr c)
    (hd : ∀ x, s.store.heap.Linked x → ¬ s.store.heap.dead x)
    (hk : op.key ≤ (s.store.node c).key) (hn : afterFind s.store p c op = some pc') :
    Told s.store s.abs op pc' := by
  have f := hi.fit ht
  have hp := linked_of_next hi.mem (f.refs p (by simp [Pc.refs])) hadj
  have hle : ((op.key : ℤ) : WithBot ℤ) ≤ rank s.store c := by
    rw [rank_of_ne _ f.loc.2]
    exact WithBot.coe_le_coe.2 hk
  have hmem := mem_iff_of_next hi hd hp hadj f.key f.loc.1 hle
  cases op with
  | insert k v =>
    simp only [afterFind] at hn
    split at hn
    · next he =>
      obtain rfl := Option.some.inj hn
      exact hmem.2 he
    · obtain rfl := Option.some.inj hn
      trivial
  | remove k =>
    simp only [afterFind] at hn
    split at hn
    · obtain rfl := Option.some.inj hn
      exact hadj
    · next he =>
      obtain rfl := Option.some.inj hn
      exact fun _ => ⟨(by rintro ⟨⟩), fun h => absurd (hmem.1 h) he⟩
  | contains k => cases hn

theorem afterValid_told {c : ValidCtx} (hf : c.Fits op) (h : c.Told σ A op.key n) :
    Told σ A op (afterValid n c) := by
  cases c with
  | linked =>
    have hins : op.IsInsert := hf
    cases op with
    | insert k v => exact fun h => h.elim (fun h => h.elim) nofun
    | _ => exact hins.elim
  | found => exact fun _ => h
  | lost => trivial
  | removing p succ => exact h
  | contains => exact fun _ => h

theorem ret_told {r : Bool} (hf : op.IsInsert ∨ (op.IsContains ∧ r = true))
    (h : op.IsContains ∨ r = false → op.key ∈ A) : Told σ A op (.ret r n) := by
  intro hr
  have hk := h hr
  cases op with
  | insert k v =>
    obtain rfl := hr.resolve_left id
    exact ⟨nofun, fun hn => absurd hk hn⟩
  | remove k => exact hf.elim (fun h => h.elim) fun h => h.1.elim
  | contains k =>
    obtain rfl := (hf.resolve_left id).2
    exact ⟨fun _ => hk, fun _ => rfl⟩

theorem walk_told (hi : Inv s) (ht : s.thread t = some (op, .containsWalk c))
    (hp : s.store.heap.Linked p) (hadj : (s.store.node p).next = Ptr.addr c)
    (hr : rank s.store p < (op.key : ℤ))
    (hd : ∀ x, s.store.heap.Linked x → ¬ s.store.heap.dead x)
    (hn : next s.store op slot (.containsWalk c) = some (σ, pc')) : Told σ s.abs op pc' := by
  have f := hi.fit ht
  have hc : c ≠ head := f.loc
  have hcl : s.store.heap.Linked c := hp.tail (succ_of_addr hadj)
  simp only [next] at hn
  split at hn
  · next hlt =>
    obtain ⟨d, hs, he⟩ := Option.map_eq_some_iff.1 hn
    obtain ⟨rfl, rfl⟩ := Prod.mk.inj he
    refine ⟨c, hcl, addr_of_alive (hd c hcl) hs, ?_⟩
    rw [rank_of_ne _ hc]
    exact WithBot.coe_lt_coe.2 hlt
  · next hge =>
    have hle : ((op.key : ℤ) : WithBot ℤ) ≤ rank s.store c := by
      rw [rank_of_ne _ hc]
      exact WithBot.coe_le_coe.2 (not_lt.1 hge)
    have hmem := mem_iff_of_next hi hd hp hadj f.key hr hle
    have hcon : op.IsContains := f.fits
    split at hn
    · next hne =>
      obtain ⟨rfl, rfl⟩ := Prod.mk.inj (Option.some.inj hn)
      cases op with
      | contains k => exact fun _ => ⟨(by rintro ⟨⟩), fun h => absurd (hmem.1 h) hne⟩
      | _ => exact hcon.elim
    · next he =>
      split at hn
      · next hmk => exact absurd hmk (hd c hcl)
      · obtain ⟨rfl, rfl⟩ := Prod.mk.inj (Option.some.inj hn)
        exact hmem.2 (not_ne_iff.1 he)

theorem next_kept (f : Fit σ R op pc) (hn : next σ op slot pc = some (σ', pc'))
    (hp : σ.heap.Live R p) (hs : ¬ pc.swings σ p) : (σ'.node p).next = (σ.node p).next :=
  (next_frame hn (fun ho => f.fresh p ho hp) hs).1

theorem told_step (h : Alone A s t op pc) (hn : next s.store op slot pc = some (σ, pc')) :
    Told σ A op pc' := by
  have hi := h.sane.1
  have f := hi.fit h.thread
  have hm := hi.mem
  have hT := h.told
  have kept : ∀ {p}, p ∈ pc.refs → ¬ pc.swings s.store p → (σ.node p).next = (s.store.node p).next :=
    fun hp hs => next_kept f hn (f.refs _ hp) hs
  cases pc with
  | find =>
    simp only [next] at hn
    split at hn
    · obtain ⟨rfl, rfl⟩ := Prod.mk.inj (Option.some.inj hn)
      trivial
    · cases hn
  | findTest p c =>
    have hd : ∀ x, s.store.heap.Linked x → ¬ s.store.heap.dead x := fun x hx hdx =>
      absurd (h.settled x hx hdx) (by rintro ⟨⟩)
    have hA := (h.effect.resolve_left fun h => h.1).2
    have hp := linked_of_next hm (f.refs p (by simp [Pc.refs])) h.fresh
    simp only [next] at hn
    split at hn
    · next hmk => exact absurd hmk (hd c (hp.tail (succ_of_addr h.fresh)))
    · split at hn
      · next hk =>
        obtain ⟨pc1, ha, he⟩ := Option.map_eq_some_iff.1 hn
        obtain ⟨rfl, rfl⟩ := Prod.mk.inj he
        exact hA ▸ afterFind_told hi h.thread h.fresh hd hk ha
      · obtain ⟨rfl, rfl⟩ := Prod.mk.inj (Option.some.inj hn)
        exact rfl
  | findNext p n =>
    obtain ⟨d, hs, he⟩ := Option.map_eq_some_iff.1 hn
    obtain ⟨rfl, rfl⟩ := Prod.mk.inj he
    trivial
  | deleteLoad c n =>
    cases c with
    | trim c d =>
      cases c with
      | inFind => exact hT.elim
      | inRemove =>
        simp only [next] at hn
        split at hn <;> obtain ⟨rfl, rfl⟩ := Prod.mk.inj (Option.some.inj hn)
        · exact ⟨rfl, hT⟩
        · exact hT
    | contains => exact hT.elim
  | deleteFlush c n =>
    cases c with
    | trim c d =>
      cases c with
      | inFind => exact hT.elim
      | inRemove =>
        have hk := kept (p := d) (by simp [Pc.refs, DeleteCtx.refs]) id
        obtain ⟨_, rfl⟩ := Prod.mk.inj (Option.some.inj hn)
        exact hk.trans hT
    | contains => exact hT.elim
  | deleteStore c n =>
    cases c with
    | trim c d =>
      cases c with
      | inFind => exact hT.elim
      | inRemove =>
        have hk := kept (p := d) (by simp [Pc.refs, DeleteCtx.refs]) id
        obtain ⟨_, rfl⟩ := Prod.mk.inj (Option.some.inj hn)
        exact ⟨rfl, hk.trans hT⟩
    | contains => exact hT.elim
  | trimLoad c p n =>
    obtain ⟨rfl, rfl⟩ := Prod.mk.inj (Option.some.inj hn)
    exact hT
  | trimCas c p n q =>
    simp only [next, if_pos hT.2] at hn
    obtain ⟨_, rfl⟩ := Prod.mk.inj (Option.some.inj hn)
    exact hT.1
  | trimFree c p n =>
    obtain rfl := hT
    obtain ⟨_, rfl⟩ := Prod.mk.inj (Option.some.inj hn)
    have hrem : op.IsRemove := f.fits
    cases op with
    | remove k => exact fun h => h.elim (fun h => h.elim) (by rintro ⟨⟩)
    | _ => exact hrem.elim
  | validLoad c n =>
    simp only [next] at hn
    split at hn <;> obtain ⟨rfl, rfl⟩ := Prod.mk.inj (Option.some.inj hn)
    · exact afterValid_told f.fits hT
    · exact hT
  | validStore c n old =>
    have hk : ∀ p q, c = .removing p q → (σ.node p).next = (s.store.node p).next := by
      rintro p q rfl
      exact kept (by simp [Pc.refs, ValidCtx.refs]) id
    obtain ⟨_, rfl⟩ := Prod.mk.inj (Option.some.inj hn)
    refine afterValid_told f.fits ?_
    cases c with
    | removing p q => exact (hk p q rfl).trans hT
    | _ => exact hT
  | insertLoad r n =>
    simp only [next] at hn
    split at hn <;> obtain ⟨rfl, rfl⟩ := Prod.mk.inj (Option.some.inj hn)
    · exact ret_told f.fits hT
    · exact hT
  | insertFlush r n =>
    obtain ⟨_, rfl⟩ := Prod.mk.inj (Option.some.inj hn)
    exact hT
  | insertStore r n =>
    obtain ⟨_, rfl⟩ := Prod.mk.inj (Option.some.inj hn)
    exact ret_told f.fits hT
  | removeLoad p n =>
    obtain ⟨rfl, rfl⟩ := Prod.mk.inj (Option.some.inj hn)
    exact hT
  | markCas p n q =>
    have hne : p ≠ n := by
      rintro rfl
      exact absurd f.loc.1 (not_lt.2 f.loc.2.1.ge)
    have hk := kept (p := p) (by simp [Pc.refs]) fun h => hne h.1
    simp only [next, if_pos (show (s.store.node n).next = q from h.fresh)] at hn
    obtain ⟨_, rfl⟩ := Prod.mk.inj (Option.some.inj hn)
    exact hk.trans hT
  | containsHead =>
    simp only [next] at hn
    split at hn
    · next c hc =>
      obtain ⟨rfl, rfl⟩ := Prod.mk.inj (Option.some.inj hn)
      refine ⟨head, Heap.Reach.refl _, hc, ?_⟩
      rw [rank_head]
      exact WithBot.bot_lt_coe _
    · cases hn
  | containsWalk c =>
    have hd : ∀ x, s.store.heap.Linked x → ¬ s.store.heap.dead x := fun x hx hdx =>
      absurd (h.settled x hx hdx) (by rintro ⟨⟩)
    have hA := (h.effect.resolve_left fun h => h.1).2
    obtain ⟨p, hp, hadj, hr⟩ := hT
    exact hA ▸ walk_told hi h.thread hp hadj hr hd hn
  | linkCas p c n =>
    simp only [next, if_pos (show (s.store.node p).next = Ptr.addr c from h.fresh)] at hn
    obtain ⟨_, rfl⟩ := Prod.mk.inj (Option.some.inj hn)
    trivial
  | initValue p c n =>
    cases op with
    | insert k v =>
      obtain ⟨_, rfl⟩ := Prod.mk.inj (Option.some.inj hn)
      trivial
    | _ => cases hn
  | ret r n => cases hn
  | _ =>
    obtain ⟨_, rfl⟩ := Prod.mk.inj (Option.some.inj hn)
    trivial

theorem Alone.step (h : Alone A s t op pc) (hs : (machine V).Tau t s s') :
    ∃ pc', Alone A s' t op pc' := by
  have hs : Step s (.tau t) s' := hs
  cases id hs with
  | tau _ op1 pc1 pc' slot σ ht hn hrec =>
    obtain ⟨rfl, rfl⟩ := Prod.mk.inj (Option.some.inj (h.thread.symm.trans ht))
    have ht' := goto_thread_self s σ t (some (op, pc'))
    exact ⟨pc', h.sane.step hs, ht', (step_fresh (h.sane.1.fit ht) hn h.fresh).1,
      fun x hx hd => settled_step h.sane.1 ht h.told h.settled hn hx hd, effect_step h hs ht',
      told_step h hn⟩

def enter (t : Tid) (s : State V) (op : SetOp V) : State V :=
  s.goto s.store t (some (op, start op))

theorem Settled.alone (h : Settled A s t) (hk : op.key < INT_MAX) :
    Alone A (enter t s op) t op (start op) := by
  refine ⟨h.sane.step (Step.call t op h.idle hk), goto_thread_self _ _ _ _, ?_, ?_,
    Or.inr ⟨start_took, h.abs⟩, ?_⟩
  · cases op <;> trivial
  · exact fun x hx hd => absurd hd (h.alive x hx)
  · cases op <;> trivial

theorem Alone.ret {r : Bool} (h : Alone A s t op pc) (hs : Step s (.ret t r) s') :
    (r = true ↔ op.Accepts A) ∧ Settled (op.apply A) s' t := by
  cases id hs with
  | ret _ op1 _ n ht =>
    obtain ⟨rfl, rfl⟩ := Prod.mk.inj (Option.some.inj (h.thread.symm.trans ht))
    have hsane := h.sane.step hs
    have hd : ∀ x, s.store.heap.Linked x → ¬ s.store.heap.dead x := fun x hx hdx =>
      absurd (h.settled x hx hdx) nofun
    rcases h.effect with ⟨⟨_, rfl⟩, he⟩ | ⟨hnt, hA⟩
    · exact ⟨⟨fun _ => he.accepts, fun _ => rfl⟩, hsane, goto_thread_self _ _ _ _, hd, he.eq_apply⟩
    · have hr : op.IsContains ∨ r = false := by
        by_contra hne
        obtain ⟨h1, h2⟩ := not_or.1 hne
        exact hnt ⟨h1, by simpa using h2⟩
      have hacc := h.told hr
      refine ⟨hacc, hsane, goto_thread_self _ _ _ _, hd, ?_⟩
      refine hA.trans ?_
      rcases hr with hc | rfl
      · cases op with
        | contains k => rfl
        | _ => exact hc.elim
      · exact (SetOp.apply_of_not_accepts fun h => absurd (hacc.2 h) nofun).symm

def Guarded (s : State V) : Prop :=
  s.store.heap.Linked tail ∧ ¬ s.store.heap.dead head ∧ ¬ s.store.heap.dead tail

theorem Inv.guarded (h : Inv s) : Guarded s :=
  ⟨h.mem.tail_linked, h.mem.head_alive, fun hd => h.mem.ne_tail_of_dead hd rfl⟩

def Busy (t : Tid) (A : Set ℤ) (op : SetOp V) (s : State V) : Prop := ∃ pc, Alone A s t op pc

theorem serves (V : Type) (t : Tid) : (machine V).Serves (enter t) t
    (fun op => op.key < INT_MAX) Guarded (fun A s => Settled A s t) (Busy t) where
  call h hk := ⟨Step.call t _ h.idle hk, _, h.alone hk⟩
  tau := fun ⟨_, h⟩ hs => h.step hs
  ret := fun ⟨_, h⟩ hs => h.ret hs
  running := fun ⟨_, h⟩ he => nomatch h.thread.symm.trans he
  returns := fun ⟨_, h⟩ => h.sane.returns
  during := fun ⟨_, h⟩ => h.sane.1.guarded
  between h := h.sane.1.guarded

def Keys (s : State V) (ks : List ℤ) : Prop :=
  ∃ xs, s.store.heap.Path head xs tail ∧ xs.map (fun x => (s.store.node x).key) = ks

theorem Settled.keys (h : Settled A s t) :
    ∃ ks, Keys s ks ∧ ks.Pairwise (· < ·) ∧ ∀ k, k ∈ ks ↔ k ∈ A := by
  have hm := h.sane.1.mem
  have hnil : s.store.heap.succ tail = none := by
    change (s.store.node tail).next.ref = none
    rw [hm.tail_next]
    rfl
  obtain ⟨xs, hp, hs, hx⟩ := Heap.exists_path_ordered hm.ordered
    (Heap.Live.root hm.good.head_root) hm.tail_linked (show head ≠ tail by decide) hnil
  have hr : ∀ x ∈ xs, s.store.heap.rank x = ((s.store.node x).key : WithBot ℤ) := fun x hm =>
    rank_of_ne _ ((hx x).1 hm).2.1
  refine ⟨_, ⟨xs, hp, rfl⟩, ?_, fun k => ?_⟩
  · rw [List.pairwise_map] at hs ⊢
    refine hs.imp_of_mem fun {x y} hx hy hlt => ?_
    rw [hr x hx, hr y hy] at hlt
    exact WithBot.coe_lt_coe.1 hlt
  · rw [← h.abs, List.mem_map]
    constructor
    · rintro ⟨x, hm, rfl⟩
      obtain ⟨hl, hh, ht⟩ := (hx x).1 hm
      exact ⟨x, hh, ht, hl, h.alive x hl, rfl⟩
    · rintro ⟨x, hh, ht, hl, _, rfl⟩
      exact ⟨x, (hx x).2 ⟨hl, hh, ht⟩, rfl⟩

theorem initial_settled (zero : V) (junk : Uchar) (t : Tid) :
    Settled ∅ (initial zero junk) t := by
  refine ⟨⟨inv_initial zero junk, bounded_initial zero junk⟩, rfl, fun x _ hd => ?_,
    initial_abs zero junk⟩
  have hd : ((initial zero junk).store.node x).next.marked = true := hd
  rw [initial_node] at hd
  split at hd <;> cases hd

end LinkFree.List
