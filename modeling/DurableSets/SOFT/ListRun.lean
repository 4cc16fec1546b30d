import DurableSets.SOFT.ListStep

namespace SOFT.List

open Chain

variable {V : Type} {σ σ' : Store V} {R R' W W' : Set Loc} {x y n c d : Loc} {p q : PLoc}
  {slot : ℕ} {op : SetOp V} {pc pc' : Pc} {st : NodeState}

def Pc.retires : Pc → Option Loc
  | .trimFree _ _ _ n => some n
  | _ => none

def Pc.gives (σ : Store V) (pc : Pc) : Option PLoc :=
  pc.ownsP <|> pc.retires.bind fun n => (σ.node n).pptr

def TrimCtx.Fits (op : SetOp V) : TrimCtx → Prop
  | .inFind _ => ¬ op.IsContains
  | .inRemove => op.IsRemove

def Pc.Fits (op : SetOp V) : Pc → Prop
  | .find => ¬ op.IsContains
  | .findLoad _ _ _ => ¬ op.IsContains
  | .trimLoad t _ _ _ => t.Fits op
  | .trimCas t _ _ _ _ => t.Fits op
  | .trimFree t _ _ _ => t.Fits op
  | .markTest _ _ _ => op.IsRemove
  | .markLoad _ _ _ => op.IsRemove
  | .markCas _ _ _ _ => op.IsRemove
  | .destroyStore _ _ _ _ => op.IsRemove
  | .destroyFlush _ _ _ _ => op.IsRemove
  | .deleteTest _ _ _ _ => op.IsRemove
  | .deleteLoad _ _ _ _ => op.IsRemove
  | .deleteCas _ _ _ _ _ => op.IsRemove
  | .containsHead => op.IsContains
  | .containsWalk _ => op.IsContains
  | .ret _ => True
  | _ => op.IsInsert

theorem not_contains_of_insert (h : op.IsInsert) : ¬ op.IsContains := by
  cases op <;> simp_all [SetOp.IsInsert, SetOp.IsContains]

structure Fit (σ : Store V) (R W : Set Loc) (op : SetOp V) (pc : Pc) : Prop where
  refs : ∀ r ∈ pc.refs, σ.heap.Live R r
  key : op.key < INT_MAX
  fits : pc.Fits op
  loc : Local σ op pc
  writes : ∀ n, pc.writes = some n → Owner σ W n
  owned : ∀ n, pc.owns = some n → ¬ σ.heap.Live R n ∧ σ.avail n = false
  ownedP : ∀ p, pc.ownsP = some p → PFree σ W p ∧ σ.pavail p = false
  retired : ∀ n, pc.retires = some n → n ∈ W ∧ ¬ σ.heap.Linked n ∧
    ∀ p, (σ.node n).pptr = some p → σ.pavail p = false

-- a step of a call: its effect, what the call knows after it, where its references come
-- from, and that the slots it starts to hold were held by nobody
structure StepOk (σ : Store V) (R W : Set Loc) (op : SetOp V) (pc : Pc) (σ' : Store V)
    (pc' : Pc) (R' W' : Set Loc) : Prop where
  effect : Effect σ R W pc.owns (pc.gives σ) R' W' σ'
  fit : Fit σ' R' W' op pc'
  refs : ∀ r ∈ pc'.refs, (∃ q ∈ head :: pc.refs, σ.heap.Reach q r) ∨
    (σ'.heap.Linked r ∧ pc' = .createStart true r)
  owns : ∀ n, pc'.owns = some n → pc.owns = some n ∨ σ.avail n = true
  ownsP : ∀ p, pc'.ownsP = some p → pc.ownsP = some p ∨ σ.pavail p = true
  retires : ∀ n, pc'.retires = some n → pc.retires = some n ∨ σ.heap.Linked n

def Steps (σ : Store V) (R W : Set Loc) (op : SetOp V) (pc : Pc) (σ' : Store V) (pc' : Pc) :
    Prop := ∃ R' W', StepOk σ R W op pc σ' pc' R' W'

theorem live_of_refs (hm : MemInv σ R W) (f : Fit σ R W op pc) {r : Loc}
    (h : ∃ q ∈ head :: pc.refs, σ.heap.Reach q r) : σ.heap.Live R r := by
  obtain ⟨q, hq, hr⟩ := h
  rcases List.mem_cons.1 hq with rfl | hq
  · exact hm.chain.head_live.reach hr
  · exact (f.refs q hq).reach hr

theorem ref_self {r : Loc} (h : r ∈ pc.refs) : ∃ q ∈ head :: pc.refs, σ.heap.Reach q r :=
  ⟨r, List.mem_cons_of_mem _ h, Heap.Reach.refl r⟩

theorem ref_next {r : Loc} (h : n ∈ pc.refs) (hs : (σ.node n).next.ref = some r) :
    ∃ q ∈ head :: pc.refs, σ.heap.Reach q r :=
  ⟨n, List.mem_cons_of_mem _ h, Heap.Reach.single hs⟩

theorem Fit.idle (f : Fit σ R W op pc) (hm : MemInv σ R W)
    (hr : ∀ r ∈ pc'.refs, ∃ q ∈ head :: pc.refs, σ.heap.Reach q r) (hl : Local σ op pc')
    (hf : pc'.Fits op) (hw : ∀ n, pc'.writes = some n → Owner σ W n)
    (ho : ∀ n, pc'.owns = some n → pc.owns = some n)
    (hp : ∀ p, pc'.ownsP = some p → pc.ownsP = some p)
    (ht : ∀ n, pc'.retires = some n → pc.retires = some n) : Steps σ R W op pc σ pc' :=
  ⟨R, W, Effect.idle _ _, ⟨fun r h => live_of_refs hm f (hr r h), f.key, hf, hl, hw,
    fun n h => f.owned n (ho n h), fun p h => f.ownedP p (hp p h),
    fun n h => f.retired n (ht n h)⟩, fun r h => Or.inl (hr r h), fun n h => Or.inl (ho n h),
    fun p h => Or.inl (hp p h), fun n h => Or.inl (ht n h)⟩

theorem Fit.act (f : Fit σ R W op pc) (hm : MemInv σ R W)
    (e : Effect σ R W pc.owns (pc.gives σ) R W σ')
    (hR : ∀ x, σ.heap.Live R x → σ'.heap.Live R x)
    (hr : ∀ r ∈ pc'.refs, ∃ q ∈ head :: pc.refs, σ.heap.Reach q r) (hl : Local σ' op pc')
    (hf : pc'.Fits op) (hw : ∀ n, pc'.writes = some n → Owner σ' W n)
    (ho : pc'.owns = none) (hp : pc'.ownsP = none) (ht : pc'.retires = none) :
    Steps σ R W op pc σ' pc' := by
  refine ⟨R, W, e, ⟨fun r h => hR r (live_of_refs hm f (hr r h)), f.key, hf, hl, hw, ?_, ?_, ?_⟩,
    fun r h => Or.inl (hr r h), ?_, ?_, ?_⟩ <;> intro z hz <;> simp_all

/-! ### The steps of find and trim -/

theorem Fit.step_find (hm : MemInv σ R W) (f : Fit σ R W op .find)
    (hn : next σ op slot .find = some (σ', pc')) : Steps σ R W op .find σ' pc' := by
  simp only [next] at hn
  obtain ⟨c, hc, he⟩ := Option.map_eq_some_iff.1 hn
  obtain ⟨rfl, rfl⟩ := Prod.mk.inj he
  have hs : σ.heap.succ head = some c := hc
  refine f.idle hm ?_ ⟨?_, ?_, hm.chain.succ_ne_head hm.chain.head_live hs⟩ f.fits
    (fun _ h => by cases h) (fun _ h => by cases h) (fun _ h => by cases h) (fun _ h => by cases h)
  · intro r hr
    simp only [Pc.refs, List.mem_cons, List.not_mem_nil, or_false] at hr
    refine ⟨head, List.mem_cons_self, ?_⟩
    rcases hr with rfl | rfl
    · exact Heap.Reach.refl _
    · exact Heap.Reach.single hs
  · rw [rank_head]
    exact WithBot.bot_lt_coe _
  · rw [hm.chain.head_state]
    exact fun h => by cases h

theorem afterFind_ok (hm : MemInv σ R W) (f : Fit σ R W op (.findLoad d st c))
    (hs : (σ.node c).next.state ≠ .deleted)
    (ha : afterFind σ d st c (σ.node c).next.state op = some pc') (hk : op.key ≤ (σ.node c).key) :
    Steps σ R W op (.findLoad d st c) σ pc' := by
  have hcl := f.refs c (by simp [Pc.refs])
  obtain ⟨hd, hst, hch⟩ : rank σ d < (op.key : ℤ) ∧ st ≠ .deleted ∧ c ≠ head := f.loc
  have hrc := rank_of_ne σ hch
  have hown : (σ.node c).key = op.key → Owner σ W c := fun he =>
    Or.inl (hm.chain.inList_of_rank f.key (hrc.trans (congrArg _ he))
      (hm.chain.good.alive hcl hs))
  have hgap : (σ.node c).key ≠ op.key → Gap σ op d st c := fun hne =>
    ⟨hd, by rw [hrc]; exact WithBot.coe_lt_coe.2 (lt_of_le_of_ne hk (Ne.symm hne)), hst⟩
  cases op with
  | insert k v =>
    simp only [afterFind] at ha
    split at ha
    · next he =>
      split at ha <;> obtain rfl := Option.some.inj ha
      · exact f.idle hm (fun r h => by simp [Pc.refs] at h) trivial trivial
          (fun _ h => by cases h) (fun _ h => by cases h) (fun _ h => by cases h)
          (fun _ h => by cases h)
      · refine f.idle hm (fun r h => ref_self ?_) (hrc.trans (congrArg _ he)) trivial ?_
          (fun _ h => by cases h) (fun _ h => by cases h) (fun _ h => by cases h)
        · simp only [Pc.refs, List.mem_cons, List.not_mem_nil, or_false] at h ⊢
          exact Or.inr h
        · intro m hm'
          obtain rfl : c = m := Option.some.inj hm'
          exact hown he
    · next he =>
      obtain rfl := Option.some.inj ha
      exact f.idle hm (fun r h => ref_self h) (hgap he) trivial (fun _ h => by cases h)
        (fun _ h => by cases h) (fun _ h => by cases h) (fun _ h => by cases h)
  | remove k =>
    simp only [afterFind] at ha
    have hret : Steps σ R W (.remove k) (.findLoad d st c) σ (.ret false) :=
      f.idle hm (fun r h => by simp [Pc.refs] at h) trivial trivial (fun _ h => by cases h)
        (fun _ h => by cases h) (fun _ h => by cases h) (fun _ h => by cases h)
    split at ha
    · obtain rfl := Option.some.inj ha
      exact hret
    · next he =>
      split at ha <;> obtain rfl := Option.some.inj ha
      · exact hret
      · next hst' =>
        refine f.idle hm (fun r h => ref_self h) ⟨hd, hst, hrc.trans (congrArg _ (not_not.1 he)), ?_⟩
          trivial ?_ (fun _ h => by cases h) (fun _ h => by cases h) (fun _ h => by cases h)
        · rw [not_or] at hst'
          cases hc : (σ.node c).next.state <;> simp_all [NodeState.age]
        · intro m hm'
          obtain rfl : c = m := Option.some.inj hm'
          exact hown (not_not.1 he)
  | contains k => cases ha

theorem Fit.step_findLoad (hm : MemInv σ R W) (f : Fit σ R W op (.findLoad d st c))
    (hn : next σ op slot (.findLoad d st c) = some (σ', pc')) :
    Steps σ R W op (.findLoad d st c) σ' pc' := by
  have hcl := f.refs c (by simp [Pc.refs])
  obtain ⟨hd, hst, hch⟩ : rank σ d < (op.key : ℤ) ∧ st ≠ .deleted ∧ c ≠ head := f.loc
  simp only [next] at hn
  split at hn
  · next hs =>
    split at hn
    · next hk =>
      obtain ⟨q, ha, he⟩ := Option.map_eq_some_iff.1 hn
      obtain ⟨rfl, rfl⟩ := Prod.mk.inj he
      exact afterFind_ok hm f hs ha hk
    · next hk =>
      obtain ⟨e, hce, he⟩ := Option.map_eq_some_iff.1 hn
      obtain ⟨rfl, rfl⟩ := Prod.mk.inj he
      refine f.idle hm ?_ ⟨?_, hs, hm.chain.succ_ne_head hcl hce⟩ f.fits
        (fun _ h => by cases h) (fun _ h => by cases h) (fun _ h => by cases h) (fun _ h => by cases h)
      · intro r hr
        simp only [Pc.refs, List.mem_cons, List.not_mem_nil, or_false] at hr
        rcases hr with rfl | rfl
        · exact ref_self (by simp [Pc.refs])
        · exact ref_next (by simp [Pc.refs]) hce
      · rw [rank_of_ne σ hch]
        exact WithBot.coe_lt_coe.2 (not_le.1 hk)
  · next hs =>
    obtain ⟨e, hce, he⟩ := Option.map_eq_some_iff.1 hn
    obtain ⟨rfl, rfl⟩ := Prod.mk.inj he
    refine f.idle hm ?_ ⟨hd, hst, not_not.1 hs, hce⟩ f.fits (fun _ h => by cases h)
      (fun _ h => by cases h) (fun _ h => by cases h) (fun _ h => by cases h)
    intro r hr
    simp only [Pc.refs, TrimCtx.refs, List.mem_cons, List.not_mem_nil, or_false] at hr
    rcases hr with rfl | rfl | rfl
    · exact ref_self (by simp [Pc.refs])
    · exact ref_self (by simp [Pc.refs])
    · exact ref_next (by simp [Pc.refs]) hce

theorem Fit.step_trimLoad {t : TrimCtx} (hm : MemInv σ R W) (f : Fit σ R W op (.trimLoad t d st n))
    (hn : next σ op slot (.trimLoad t d st n) = some (σ', pc')) :
    Steps σ R W op (.trimLoad t d st n) σ' pc' := by
  obtain ⟨rfl, rfl⟩ := Prod.mk.inj (Option.some.inj hn)
  refine f.idle hm ?_ ⟨f.loc, rfl⟩ f.fits (fun _ h => nomatch h)
    (fun _ h => nomatch h) (fun _ h => nomatch h) (fun _ h => nomatch h)
  intro r hr
  simp only [Pc.refs, Ptr.createRef, List.mem_cons, List.mem_append, Option.mem_toList] at hr
  rcases hr with rfl | rfl | hr | hr
  · exact ref_self (by simp [Pc.refs])
  · exact ref_self (by simp [Pc.refs])
  · exact ref_self (by simp [Pc.refs, hr])
  · exact ref_next (by simp [Pc.refs]) hr

theorem afterTrim_refs {t : TrimCtx} {r : Loc} (h : r ∈ (afterTrim d st t).refs) :
    r = d ∨ r ∈ t.refs := by
  cases t with
  | inFind s => simpa [afterTrim, Pc.refs, TrimCtx.refs] using h
  | inRemove => simp [afterTrim, Pc.refs] at h

theorem afterTrim_local {t : TrimCtx} (hc : ChainInv σ R) (hn : σ.heap.Live R n)
    (h : TrimOk σ op t d st n) : Local σ op (afterTrim d st t) := by
  cases t with
  | inFind s => exact ⟨h.1, h.2.1, hc.succ_ne_head hn h.2.2.2⟩
  | inRemove => trivial

theorem local_giveP (p : PLoc) (h : Local σ op pc) : Local (σ.giveP p) op pc := by
  cases pc <;> exact h

theorem afterTrim_fits {t : TrimCtx} (h : t.Fits op) : (afterTrim d st t).Fits op := by
  cases t with
  | inFind s => exact h
  | inRemove => trivial

theorem afterTrim_quiet (d : Loc) (st : NodeState) (t : TrimCtx) :
    (afterTrim d st t).writes = none ∧ (afterTrim d st t).owns = none ∧
      (afterTrim d st t).ownsP = none ∧ (afterTrim d st t).retires = none := by
  cases t <;> exact ⟨rfl, rfl, rfl, rfl⟩

theorem Fit.step_trimCas {t : TrimCtx} {r : Ptr} (hm : MemInv σ R W)
    (f : Fit σ R W op (.trimCas t d st n r)) (hroot : ∀ x ∈ (Pc.trimCas t d st n r).refs, x ∈ R)
    (hn : next σ op slot (.trimCas t d st n r) = some (σ', pc')) :
    Steps σ R W op (.trimCas t d st n r) σ' pc' := by
  have hdl := f.refs d (by simp [Pc.refs])
  have hnl := f.refs n (by simp [Pc.refs])
  obtain ⟨hok, rfl⟩ := f.loc
  simp only [next] at hn
  split at hn
  · next hnext =>
    obtain ⟨rfl, rfl⟩ := Prod.mk.inj (Option.some.inj hn)
    have halive := alive_of_addr hnext hok.2.1
    have hnlink : σ.heap.Linked n := (hm.chain.good.alive hdl halive).tail (succ_of_addr hnext)
    have e := Effect.unlink (W := W) d n ((σ.node n).next.createRef st)
      (Pc.trimCas t d st n ((σ.node n).next.createRef st)).owns
      ((Pc.trimCas t d st n ((σ.node n).next.createRef st)).gives σ)
      hdl (hroot n (by simp [Pc.refs])) hnext hok.2.1 hok.2.2.1 rfl
    have k := e.kept hm
    have hin : InList σ n :=
      ⟨hnlink, hm.chain.ne_head_of_dead hok.2.2.1, hm.chain.ne_tail_of_dead hok.2.2.1⟩
    refine ⟨R, insert n W, e, ⟨?_, f.key, f.fits, k.trimOk hdl hnl hok, (fun _ h => by cases h),
      (fun _ h => by cases h), (fun _ h => by cases h), ?_⟩, fun r hr => Or.inl (ref_self ?_),
      (fun _ h => by cases h), (fun _ h => by cases h), ?_⟩
    · intro r hr
      refine Heap.Live.root (hroot r ?_)
      simp only [Pc.refs, List.mem_cons, List.mem_append] at hr ⊢
      tauto
    · intro m hm'
      obtain rfl : n = m := Option.some.inj hm'
      refine ⟨Set.mem_insert _ _, ?_, fun p hp => ?_⟩
      · exact fun h => ((unlink_linked (r := (σ.node n).next.createRef st) hm.chain hdl hnext
          hok.2.1 hok.2.2.1 rfl).1 h).2 rfl
      · rw [(setNext_data σ d _ n).2.1] at hp
        exact hm.pnode.taken hin hp
    · simp only [Pc.refs, List.mem_cons, List.mem_append] at hr ⊢
      tauto
    · intro m hm'
      obtain rfl : n = m := Option.some.inj hm'
      exact Or.inr hnlink
  · obtain ⟨rfl, rfl⟩ := Prod.mk.inj (Option.some.inj hn)
    obtain ⟨h1, h2, h3, h4⟩ := afterTrim_quiet d st t
    refine f.idle hm (fun r hr => ref_self ?_) (afterTrim_local hm.chain hnl hok)
      (afterTrim_fits f.fits) ?_ ?_ ?_ ?_
    · rcases afterTrim_refs hr with rfl | hr <;> simp_all [Pc.refs]
    · simp [h1]
    · simp [h2]
    · simp [h3]
    · simp [h4]

theorem Fit.step_trimFree {t : TrimCtx} (hm : MemInv σ R W) (f : Fit σ R W op (.trimFree t d st n))
    (hn : next σ op slot (.trimFree t d st n) = some (σ', pc')) :
    Steps σ R W op (.trimFree t d st n) σ' pc' := by
  have hnl := f.refs n (by simp [Pc.refs])
  simp only [next] at hn
  obtain ⟨p, hp, he⟩ := Option.map_eq_some_iff.1 hn
  obtain ⟨rfl, rfl⟩ := Prod.mk.inj he
  obtain ⟨hW, hlink, _⟩ := f.retired n rfl
  obtain ⟨q, hq, hmatch⟩ := hm.pnode.owned (Or.inr hW)
  obtain rfl := Option.some.inj (hp.symm.trans hq)
  have hst : (σ.node n).next.state = .deleted := f.loc.2.2.1
  rw [hst] at hmatch
  have hgives : (Pc.trimFree t d st n).gives σ = some p := by simp [Pc.gives, Pc.ownsP, Pc.retires, hp]
  have e : Effect σ R W (Pc.trimFree t d st n).owns ((Pc.trimFree t d st n).gives σ) R W
      (σ.giveP p) := by
    rw [hgives]
    refine Effect.giveP p _ ⟨_, spare_of_deleted hmatch⟩ fun y hy hyp => ?_
    obtain rfl := hm.pnode.inj (Or.inl hy) (Or.inr hW) hyp hp
    exact hlink hy.1
  obtain ⟨h1, h2, h3, h4⟩ := afterTrim_quiet d st t
  refine f.act hm e (fun _ h => h) (fun r hr => ref_self ?_)
    (local_giveP p (afterTrim_local hm.chain hnl f.loc)) (afterTrim_fits f.fits) ?_ h2 h3 h4
  · rcases afterTrim_refs hr with rfl | hr <;> simp_all [Pc.refs]
  · simp [h1]

theorem Fit.step_allocPNode (hm : MemInv σ R W) (f : Fit σ R W op (.allocPNode d st c))
    (hs : σ.pavail slot = true ∧ PFree σ W slot)
    (hn : next σ op slot (.allocPNode d st c) = some (σ', pc')) :
    Steps σ R W op (.allocPNode d st c) σ' pc' := by
  obtain ⟨rfl, rfl⟩ := Prod.mk.inj (Option.some.inj hn)
  refine ⟨R, W, Effect.takeP slot _ _ hs.1 hs.2, ⟨f.refs, f.key, f.fits,
    ⟨f.loc, hm.pnode.idle hs.1⟩, (fun _ h => nomatch h), (fun _ h => nomatch h), ?_,
    (fun _ h => nomatch h)⟩, fun r hr => Or.inl (ref_self hr), (fun _ h => nomatch h), ?_,
    (fun _ h => nomatch h)⟩
  · intro p hp
    obtain rfl : slot = p := Option.some.inj hp
    exact ⟨hs.2, by simp [Store.takeP]⟩
  · intro p hp
    obtain rfl : slot = p := Option.some.inj hp
    exact Or.inr hs.1

theorem Fit.step_pnodeAlloc (hm : MemInv σ R W) (f : Fit σ R W op (.pnodeAlloc d st c p))
    (hn : next σ op slot (.pnodeAlloc d st c p) = some (σ', pc')) :
    Steps σ R W op (.pnodeAlloc d st c p) σ' pc' := by
  obtain ⟨rfl, rfl⟩ := Prod.mk.inj (Option.some.inj hn)
  obtain ⟨hg, v, hv⟩ := f.loc
  refine f.idle hm (fun r hr => ref_self hr) ⟨hg, ?_⟩ f.fits (fun _ h => nomatch h)
    (fun _ h => nomatch h) (fun _ h => h) (fun _ h => nomatch h)
  have hbit : (σ.pnode p).alloc = v := by
    change (!(σ.pline p).cur.validStart) = v
    rw [hv.1.1, Bool.not_not]
  rw [hbit]
  exact hv

theorem Fit.step_allocNode {v : Bool} (hm : MemInv σ R W)
    (f : Fit σ R W op (.allocNode d st c p v)) (hs : σ.avail slot = true)
    (hn : next σ op slot (.allocNode d st c p v) = some (σ', pc')) :
    Steps σ R W op (.allocNode d st c p v) σ' pc' := by
  obtain ⟨rfl, rfl⟩ := Prod.mk.inj (Option.some.inj hn)
  refine ⟨R, W, Effect.take slot _ _ hs, ⟨f.refs, f.key, f.fits, f.loc, (fun _ h => nomatch h), ?_,
    f.ownedP, (fun _ h => nomatch h)⟩, fun r hr => Or.inl (ref_self hr), ?_,
    fun p hp => Or.inl hp, (fun _ h => nomatch h)⟩
  · intro m hm'
    obtain rfl : slot = m := Option.some.inj hm'
    exact ⟨hm.chain.fresh hs, by simp [Store.take]⟩
  · intro m hm'
    obtain rfl : slot = m := Option.some.inj hm'
    exact Or.inr hs

theorem Fit.priv (f : Fit σ R W op pc) (hm : MemInv σ R W) {m : Node V} (ho : pc.owns = some n)
    (ho' : pc'.owns = some n) (hp : pc'.ownsP = pc.ownsP) (hr : pc.refs = [d, c])
    (hr' : pc'.refs = [d, c]) (hw : pc'.writes = none) (ht : pc'.retires = none)
    (hf : pc'.Fits op) (hg : Gap σ op d st c)
    (hl : Gap (σ.write n m) op d st c → (σ.write n m).node n = m → Local (σ.write n m) op pc') :
    Steps σ R W op pc (σ.write n m) pc' := by
  obtain ⟨hfresh, hav⟩ := f.owned n ho
  have e : Effect σ R W pc.owns (pc.gives σ) R W (σ.write n m) := by
    rw [ho]
    exact Effect.priv n m _ hfresh
  have k := e.kept hm
  have hst := priv_steady (m := m) hfresh
  have hdl := f.refs d (by simp [hr])
  have hcl := f.refs c (by simp [hr])
  refine ⟨R, W, e, ⟨fun r h => hst.live.2 (f.refs r ?_), f.key, hf, ?_, ?_, ?_, ?_, ?_⟩,
    fun r h => Or.inl (ref_self ?_), fun m h => Or.inl ?_, fun p h => Or.inl (hp ▸ h), ?_⟩
  · rwa [hr, ← hr']
  · exact hl (k.gap hdl hcl hg) (by rw [node_write, if_pos rfl])
  · simp [hw]
  · intro z hz
    obtain rfl : n = z := Option.some.inj (ho'.symm.trans hz)
    exact ⟨fun h => hfresh (hst.live.1 h), hav⟩
  · intro q hq
    obtain ⟨h1, h2⟩ := f.ownedP q (hp ▸ hq)
    refine ⟨fun y hy => ?_, h2⟩
    have hy' : Owner σ W y := hy.imp_left fun hy => ⟨(hst.linked hm.chain.good).1 hy.1, hy.2⟩
    have hne : y ≠ n := fun e => hfresh (e ▸ hm.owner_live hy')
    rw [node_write_other σ m hne]
    exact h1 y hy'
  · simp [ht]
  · rwa [hr, ← hr']
  · exact ho.trans (ho'.symm.trans h)
  · simp [ht]

theorem Fit.step_initNode {v : Bool} (hm : MemInv σ R W)
    (f : Fit σ R W op (.initNode d st c n p v))
    (hn : next σ op slot (.initNode d st c n p v) = some (σ', pc')) :
    Steps σ R W op (.initNode d st c n p v) σ' pc' := by
  obtain ⟨hg, hv⟩ := f.loc
  cases op with
  | insert k val =>
    obtain ⟨rfl, rfl⟩ := Prod.mk.inj (Option.some.inj hn)
    refine f.priv hm rfl rfl rfl rfl rfl rfl rfl f.fits hg fun hg' hself => ⟨hg', ?_⟩
    unfold Filled
    rw [hself]
    refine ⟨rfl, fun k' v' h => ?_, rfl, hv⟩
    injection h
  | remove k => cases hn
  | contains k => cases hn

theorem Fit.step_initNext (hm : MemInv σ R W) (f : Fit σ R W op (.initNext d st c n p))
    (hn : next σ op slot (.initNext d st c n p) = some (σ', pc')) :
    Steps σ R W op (.initNext d st c n p) σ' pc' := by
  obtain ⟨hg, hfill⟩ := f.loc
  obtain ⟨rfl, rfl⟩ := Prod.mk.inj (Option.some.inj hn)
  refine f.priv hm rfl rfl rfl rfl rfl rfl rfl f.fits hg fun hg' hself => ⟨hg', ?_⟩
  unfold Filled
  rw [hself]
  exact ⟨hfill, rfl⟩

theorem Fit.step_linkCas (hm : MemInv σ R W) (f : Fit σ R W op (.linkCas d st c n p))
    (hn : next σ op slot (.linkCas d st c n p) = some (σ', pc')) :
    Steps σ R W op (.linkCas d st c n p) σ' pc' := by
  have hdl := f.refs d (by simp [Pc.refs])
  obtain ⟨hfresh, hav⟩ := f.owned n rfl
  obtain ⟨hfree, hpav⟩ := f.ownedP p rfl
  obtain ⟨hg, ⟨hkey, hval, hpptr, hun⟩, hnn⟩ := f.loc
  simp only [next] at hn
  split at hn
  · next hnext =>
    obtain ⟨rfl, rfl⟩ := Prod.mk.inj (Option.some.inj hn)
    have hnh : n ≠ head := fun e => hfresh (e ▸ hm.chain.head_live)
    have hnt : n ≠ tail := fun e => hfresh (e ▸ hm.chain.tail_live)
    have sp := link_splice hdl hnext hg.2.2 hfresh hnn (by rintro ⟨⟩)
    have hlink : (σ.setNext d (Ptr.addr n st)).heap.Linked n :=
      (sp.linked hm.chain.good).2 (Or.inr rfl)
    have e : Effect σ R W (Pc.linkCas d st c n p).owns ((Pc.linkCas d st c n p).gives σ)
        (insert n R) W (σ.setNext d (Ptr.addr n st)) :=
      Effect.link d n c p st hdl hnext hg.2.2 hfresh hav hnn (by rw [hkey]; exact hg.1)
        (by rw [hkey]; exact hg.2.1) (by rw [hkey]; exact f.key) hpptr hfree hpav hun
    refine ⟨insert n R, W, e, ⟨?_, f.key, f.fits, ?_, ?_, (fun _ h => by cases h),
      (fun _ h => by cases h), (fun _ h => by cases h)⟩, ?_, (fun _ h => by cases h),
      (fun _ h => by cases h), (fun _ h => by cases h)⟩
    · intro r hr
      obtain rfl : r = n := by simpa [Pc.refs] using hr
      exact Heap.Live.root (Set.mem_insert _ _)
    · change rank _ n = _
      rw [setNext_rank, rank_of_ne σ hnh, hkey]
    · intro m hm'
      obtain rfl : n = m := Option.some.inj hm'
      exact Or.inl ⟨hlink, hnh, hnt⟩
    · intro r hr
      obtain rfl : r = n := by simpa [Pc.refs] using hr
      exact Or.inr ⟨hlink, rfl⟩
  · obtain ⟨rfl, rfl⟩ := Prod.mk.inj (Option.some.inj hn)
    exact f.idle hm (fun r h => by simp [Pc.refs] at h) ⟨_, hun⟩ f.fits (fun _ h => by cases h)
      (fun _ h => h) (fun _ h => h) (fun _ h => by cases h)

theorem Fit.step_lostNode (f : Fit σ R W op (.lostNode n p))
    (hn : next σ op slot (.lostNode n p) = some (σ', pc')) :
    Steps σ R W op (.lostNode n p) σ' pc' := by
  obtain ⟨rfl, rfl⟩ := Prod.mk.inj (Option.some.inj hn)
  obtain ⟨hfresh, hav⟩ := f.owned n rfl
  refine ⟨R, W, Effect.give n _ hfresh, ⟨fun r h => by simp [Pc.refs] at h, f.key, f.fits, f.loc,
    (fun _ h => nomatch h), (fun _ h => nomatch h), f.ownedP, (fun _ h => nomatch h)⟩,
    fun r h => by simp [Pc.refs] at h, (fun _ h => nomatch h), fun p hp => Or.inl hp,
    (fun _ h => nomatch h)⟩

theorem Fit.step_lostPNode (hm : MemInv σ R W) (f : Fit σ R W op (.lostPNode p))
    (hn : next σ op slot (.lostPNode p) = some (σ', pc')) :
    Steps σ R W op (.lostPNode p) σ' pc' := by
  obtain ⟨rfl, rfl⟩ := Prod.mk.inj (Option.some.inj hn)
  obtain ⟨hfree, hpav⟩ := f.ownedP p rfl
  have e : Effect σ R W (Pc.lostPNode p).owns ((Pc.lostPNode p).gives σ) R W (σ.giveP p) :=
    Effect.giveP p _ f.loc fun y hy => hfree y (Or.inl hy)
  exact f.act hm e (fun _ h => h) (fun r h => by simp [Pc.refs] at h) trivial
    (not_contains_of_insert f.fits) (fun _ h => nomatch h) rfl rfl rfl

theorem Fit.line (f : Fit σ R W op pc) (hm : MemInv σ R W) {l : Line (PNode V)}
    (hw : pc.writes = some n) (hp : (σ.node n).pptr = some p)
    (hpr : Progress (σ.node n).stamp (σ.pline p) l)
    (hfit : Matches (σ.node n).stamp l (σ.node n).next.state) (hr : pc'.refs = pc.refs)
    (hw' : pc'.writes = some n ∨ pc'.writes = none)
    (ho : pc'.owns = none) (hop : pc'.ownsP = none) (ht : pc'.retires = none) (hf : pc'.Fits op)
    (hl : Kept σ R W pc.owns (pc.gives σ) R W (σ.setLine p l) → Local (σ.setLine p l) op pc') :
    Steps σ R W op pc (σ.setLine p l) pc' := by
  have hown := f.writes n hw
  have e : Effect σ R W pc.owns (pc.gives σ) R W (σ.setLine p l) :=
    Effect.pnode n p l _ _ hown hp hpr hfit
  refine f.act hm e (fun _ h => h) (fun r h => ref_self (hr ▸ h)) (hl (e.kept hm)) hf ?_ ho hop ht
  intro m hm'
  rcases hw' with hw' | hw'
  · obtain rfl : n = m := Option.some.inj (hw'.symm.trans hm')
    exact hown
  · rw [hw'] at hm'
    cases hm'

theorem storeP_inv {g : Node V → PNode V → PNode V} (hn : storeP σ n g pc' = some (σ', pc)) :
    ∃ p, (σ.node n).pptr = some p ∧
      σ' = σ.setLine p ((σ.pline p).write (g (σ.node n) (σ.pline p).cur)) ∧ pc = pc' := by
  obtain ⟨p, hp, he⟩ := Option.map_eq_some_iff.1 hn
  obtain ⟨rfl, rfl⟩ := Prod.mk.inj he
  exact ⟨p, hp, rfl, rfl⟩

theorem barrier_inv (hn : barrier σ n pc' = some (σ', pc)) :
    ∃ p, (σ.node n).pptr = some p ∧ σ' = σ.setLine p (σ.pline p).flush ∧ pc = pc' := by
  obtain ⟨p, hp, he⟩ := Option.map_eq_some_iff.1 hn
  obtain ⟨rfl, rfl⟩ := Prod.mk.inj he
  exact ⟨p, hp, rfl, rfl⟩

theorem Fit.matches (f : Fit σ R W op pc) (hm : MemInv σ R W) (hw : pc.writes = some n)
    (hp : (σ.node n).pptr = some p) :
    Matches (σ.node n).stamp (σ.pline p) (σ.node n).next.state := by
  obtain ⟨q, hq, h⟩ := hm.pnode.owned (f.writes n hw)
  obtain rfl := Option.some.inj (hp.symm.trans hq)
  exact h

theorem atPNode_self {P : Stamp V → Line (PNode V) → Prop} {l : Line (PNode V)}
    (hp : (σ.node n).pptr = some p) (h : P (σ.node n).stamp l) : AtPNode (σ.setLine p l) n P := by
  refine ⟨p, hp, ?_⟩
  rw [pline_setLine_self]
  exact h

theorem atPNode_line {P : Stamp V → Line (PNode V) → Prop} (hp : (σ.node n).pptr = some p)
    (h : AtPNode σ n P) : P (σ.node n).stamp (σ.pline p) := by
  obtain ⟨q, hq, h⟩ := h
  obtain rfl := Option.some.inj (hp.symm.trans hq)
  exact h

theorem Fit.step_createStart {r : Bool} (hm : MemInv σ R W) (f : Fit σ R W op (.createStart r n))
    (hn : next σ op slot (.createStart r n) = some (σ', pc')) :
    Steps σ R W op (.createStart r n) σ' pc' := by
  simp only [next] at hn
  obtain ⟨p, hp, rfl, rfl⟩ := storeP_inv hn
  have hfill : Fills (σ.node n).stamp (σ.pline p).cur
      { (σ.pline p).cur with validStart := (σ.node n).pValidity } :=
    ⟨Or.inr rfl, Or.inl rfl, Or.inl rfl, Or.inl rfl, Or.inl rfl⟩
  refine f.line hm rfl hp hfill.progress
    (hfill.matches_create rfl (Or.inl rfl) (f.matches hm rfl hp)) rfl (Or.inl rfl) rfl rfl rfl
    f.fits fun _ => ⟨f.loc, atPNode_self hp rfl⟩

theorem Fit.step_createKey {r : Bool} (hm : MemInv σ R W) (f : Fit σ R W op (.createKey r n))
    (hn : next σ op slot (.createKey r n) = some (σ', pc')) :
    Steps σ R W op (.createKey r n) σ' pc' := by
  simp only [next] at hn
  obtain ⟨p, hp, rfl, rfl⟩ := storeP_inv hn
  have hfill : Fills (σ.node n).stamp (σ.pline p).cur
      { (σ.pline p).cur with key := (σ.node n).key } :=
    ⟨Or.inl rfl, Or.inl rfl, Or.inr rfl, Or.inl rfl, Or.inl rfl⟩
  refine f.line hm rfl hp hfill.progress
    (hfill.matches_create rfl (Or.inl rfl) (f.matches hm rfl hp)) rfl (Or.inl rfl) rfl rfl rfl
    f.fits fun _ => ⟨f.loc.1, atPNode_self hp ⟨?_, rfl⟩⟩
  exact atPNode_line hp f.loc.2

theorem Fit.step_createValue {r : Bool} (hm : MemInv σ R W) (f : Fit σ R W op (.createValue r n))
    (hn : next σ op slot (.createValue r n) = some (σ', pc')) :
    Steps σ R W op (.createValue r n) σ' pc' := by
  simp only [next] at hn
  obtain ⟨p, hp, rfl, rfl⟩ := storeP_inv hn
  have hfill : Fills (σ.node n).stamp (σ.pline p).cur
      { (σ.pline p).cur with value := (σ.node n).value } :=
    ⟨Or.inl rfl, Or.inl rfl, Or.inl rfl, Or.inr rfl, Or.inl rfl⟩
  refine f.line hm rfl hp hfill.progress
    (hfill.matches_create rfl (Or.inl rfl) (f.matches hm rfl hp)) rfl (Or.inl rfl) rfl rfl rfl
    f.fits fun _ => ⟨f.loc.1, atPNode_self hp ⟨?_, rfl⟩⟩
  exact atPNode_line hp f.loc.2

theorem Fit.step_createEnd {r : Bool} (hm : MemInv σ R W) (f : Fit σ R W op (.createEnd r n))
    (hn : next σ op slot (.createEnd r n) = some (σ', pc')) :
    Steps σ R W op (.createEnd r n) σ' pc' := by
  simp only [next] at hn
  obtain ⟨p, hp, rfl, rfl⟩ := storeP_inv hn
  have hfill : Fills (σ.node n).stamp (σ.pline p).cur
      { (σ.pline p).cur with validEnd := (σ.node n).pValidity } :=
    ⟨Or.inl rfl, Or.inr rfl, Or.inl rfl, Or.inl rfl, Or.inl rfl⟩
  obtain ⟨⟨h1, h2⟩, h3⟩ := atPNode_line hp f.loc.2
  have hc : Created (σ.node n).stamp
      { (σ.pline p).cur with validEnd := (σ.node n).pValidity } := ⟨h1, rfl, h2, h3⟩
  exact f.line hm rfl hp hfill.progress
    (hfill.matches_create rfl (Or.inr hc) (f.matches hm rfl hp)) rfl (Or.inl rfl) rfl rfl rfl
    f.fits fun _ => ⟨f.loc.1, atPNode_self hp hc⟩

theorem Fit.step_createFlush {r : Bool} (hm : MemInv σ R W) (f : Fit σ R W op (.createFlush r n))
    (hn : next σ op slot (.createFlush r n) = some (σ', pc')) :
    Steps σ R W op (.createFlush r n) σ' pc' := by
  simp only [next] at hn
  obtain ⟨p, hp, rfl, rfl⟩ := barrier_inv hn
  exact f.line hm rfl hp (progress_flush _ _) (matches_flush (f.matches hm rfl hp)) rfl
    (Or.inr rfl) rfl rfl rfl f.fits
    fun _ => ⟨f.loc.1, fun _ => atPNode_self hp (Line.all_flush (atPNode_line hp f.loc.2))⟩

theorem destroyed_age {s : NodeState} (h : 2 ≤ s.age) : s = .intendToDelete ∨ s = .deleted := by
  cases s <;> simp_all [NodeState.age]

theorem Matches.created {s : Stamp V} {l : Line (PNode V)} {a : NodeState}
    (h : Matches s l a) (ha : 2 ≤ a.age) : l.All (Created s) := by
  rcases destroyed_age ha with rfl | rfl
  · exact h
  · exact Line.All.imp h fun _ hc => hc.1

theorem Fit.step_destroyStore {r : Bool} (hm : MemInv σ R W)
    (f : Fit σ R W op (.destroyStore r d st n))
    (hn : next σ op slot (.destroyStore r d st n) = some (σ', pc')) :
    Steps σ R W op (.destroyStore r d st n) σ' pc' := by
  simp only [next] at hn
  obtain ⟨p, hp, rfl, rfl⟩ := storeP_inv hn
  have hfill : Fills (σ.node n).stamp (σ.pline p).cur
      { (σ.pline p).cur with deleted := (σ.node n).pValidity } :=
    ⟨Or.inl rfl, Or.inl rfl, Or.inl rfl, Or.inl rfl, Or.inr rfl⟩
  exact f.line hm rfl hp hfill.progress
    (hfill.matches_destroy (destroyed_age f.loc.2.2.2) (f.matches hm rfl hp)) rfl (Or.inl rfl)
    rfl rfl rfl f.fits fun _ => ⟨f.loc, atPNode_self hp rfl⟩

theorem Fit.step_destroyFlush {r : Bool} (hm : MemInv σ R W)
    (f : Fit σ R W op (.destroyFlush r d st n))
    (hn : next σ op slot (.destroyFlush r d st n) = some (σ', pc')) :
    Steps σ R W op (.destroyFlush r d st n) σ' pc' := by
  simp only [next] at hn
  obtain ⟨p, hp, rfl, rfl⟩ := barrier_inv hn
  have hmat := f.matches hm rfl hp
  refine f.line hm rfl hp (progress_flush _ _) (matches_flush hmat) rfl (Or.inr rfl) rfl rfl rfl
    f.fits fun _ => ⟨f.loc.1, fun _ => atPNode_self hp (Line.all_flush ⟨?_, ?_⟩)⟩
  · exact (Matches.created hmat f.loc.1.2.2.2).cur
  · exact atPNode_line hp f.loc.2

theorem Fit.cas (f : Fit σ R W op pc) (hm : MemInv σ R W) {r : Ptr} {a b : NodeState}
    {won lost : Pc} (hs : stateCas σ n r a b won lost = (σ', pc'))
    (hmem : n ∈ pc.refs) (hrank : rank σ n = (op.key : ℤ)) (hab : b.age = a.age + 1)
    (hfit : ∀ p, (σ.node n).pptr = some p → (σ.node n).next.state = a → Owner σ W n →
      Matches (σ.node n).stamp (σ.pline p) a → Matches (σ.node n).stamp (σ.pline p) b)
    (hwon : won.refs ⊆ pc.refs) (hlost : lost.refs ⊆ pc.refs)
    (hq : ∀ z, (z = won ∨ z = lost) → z.owns = none ∧ z.ownsP = none ∧ z.retires = none ∧
      z.Fits op)
    (hww : ∀ m, won.writes = some m → m = n)
    (hwl : ∀ m, lost.writes = some m → pc.writes = some m)
    (hlw : (σ.node n).next.state = a → ∀ σ', Kept σ R W pc.owns (pc.gives σ) R W σ' →
      (σ'.node n).next.state = b → Local σ' op won)
    (hll : Local σ op lost) : Steps σ R W op pc σ' pc' := by
  have hnl := f.refs n hmem
  unfold stateCas at hs
  split at hs
  · next hnext =>
    obtain ⟨rfl, rfl⟩ := Prod.mk.inj hs
    have hst : (σ.node n).next.state = a := congrArg Ptr.state hnext
    have halive : ¬ σ.heap.dead n := by
      intro hd
      have hd : (σ.node n).next.state = .deleted := hd
      rw [hst] at hd
      subst hd
      cases b <;> simp [NodeState.age] at hab
    have hown : Owner σ W n :=
      Or.inl (hm.chain.inList_of_rank f.key hrank (hm.chain.good.alive hnl halive))
    have e : Effect σ R W pc.owns (pc.gives σ) R W (σ.setNext n (r.createRef b)) := by
      have := Effect.advance (W := W) (R := R) n (r.createRef a) b pc.owns (pc.gives σ) hown hnext
        hab fun p hp => ?_
      · exact this
      · obtain ⟨q, hq', hmat⟩ := hm.pnode.owned hown
        obtain rfl := Option.some.inj (hp.symm.trans hq')
        rw [hst] at hmat
        exact hfit p hp hst hown hmat
    have hsteady : Heap.Steady σ.heap (σ.setNext n (r.createRef b)).heap R := by
      have := advance_steady (R := R) (s := b) hnext (r := r.createRef a) fun hd => ?_
      · exact this
      · have hd : a = .deleted := hd
        exact halive (hst.trans hd)
    obtain ⟨h1, h2, h3, h4⟩ := hq _ (Or.inl rfl)
    refine f.act hm e (fun x hx => hsteady.live.2 hx) (fun z hz => ref_self (hwon hz)) ?_ h4 ?_
      h1 h2 h3
    · refine hlw hst _ (e.kept hm) ?_
      rw [setNext_next, if_pos rfl]
      rfl
    · intro m hm'
      obtain rfl := hww m hm'
      exact hown.imp_left fun hy => ⟨(hsteady.linked hm.chain.good).2 hy.1, hy.2⟩
  · obtain ⟨rfl, rfl⟩ := Prod.mk.inj hs
    obtain ⟨h1, h2, h3, h4⟩ := hq _ (Or.inr rfl)
    refine f.idle hm (fun z hz => ref_self (hlost hz)) hll h4 (fun m hm' => f.writes m (hwl m hm'))
      ?_ ?_ ?_ <;> intro z hz <;> simp_all

theorem Fit.step_insertTest {r : Bool} (hm : MemInv σ R W) (f : Fit σ R W op (.insertTest r n))
    (hn : next σ op slot (.insertTest r n) = some (σ', pc')) :
    Steps σ R W op (.insertTest r n) σ' pc' := by
  simp only [next] at hn
  split at hn
  · obtain ⟨rfl, rfl⟩ := Prod.mk.inj (Option.some.inj hn)
    exact f.idle hm (fun r h => ref_self h) f.loc f.fits (fun _ h => nomatch h)
      (fun _ h => nomatch h) (fun _ h => nomatch h) (fun _ h => nomatch h)
  · obtain ⟨rfl, rfl⟩ := Prod.mk.inj (Option.some.inj hn)
    exact f.idle hm (fun r h => by simp [Pc.refs] at h) trivial trivial (fun _ h => nomatch h)
      (fun _ h => nomatch h) (fun _ h => nomatch h) (fun _ h => nomatch h)

theorem Fit.step_insertLoad {r : Bool} (hm : MemInv σ R W) (f : Fit σ R W op (.insertLoad r n))
    (hn : next σ op slot (.insertLoad r n) = some (σ', pc')) :
    Steps σ R W op (.insertLoad r n) σ' pc' := by
  obtain ⟨rfl, rfl⟩ := Prod.mk.inj (Option.some.inj hn)
  refine f.idle hm ?_ f.loc f.fits (fun _ h => nomatch h) (fun _ h => nomatch h)
    (fun _ h => nomatch h) (fun _ h => nomatch h)
  intro z hz
  simp only [Pc.refs, List.mem_cons, Option.mem_toList] at hz
  rcases hz with rfl | hz
  · exact ref_self (by simp [Pc.refs])
  · exact ref_next (by simp [Pc.refs]) hz

theorem Fit.step_insertCas {r : Bool} {w : Ptr} (hm : MemInv σ R W)
    (f : Fit σ R W op (.insertCas r n w))
    (hn : next σ op slot (.insertCas r n w) = some (σ', pc')) :
    Steps σ R W op (.insertCas r n w) σ' pc' := by
  have hs := Option.some.inj hn
  have hnl := f.refs n (by simp [Pc.refs])
  have hquiet : ∀ z : Pc, z = .insertTest r n → z.owns = none ∧ z.ownsP = none ∧
      z.retires = none ∧ z.Fits op := by
    rintro z rfl
    exact ⟨rfl, rfl, rfl, f.fits⟩
  refine f.cas hm hs (by simp [Pc.refs]) f.loc.1 rfl ?_ (by simp [Pc.refs]) (by simp [Pc.refs])
    (fun z hz => hquiet z (or_self_iff.1 hz)) (fun _ h => by cases h) (fun _ h => by cases h) ?_ f.loc
  · exact fun p hp hst _ hmat => matches_inserted hmat (atPNode_line hp (f.loc.2 hst))
  · intro _ σ' k hst
    refine ⟨(k.rank_eq hnl).trans f.loc.1, fun h => ?_⟩
    rw [hst] at h
    cases h

theorem Fit.step_markTest (hm : MemInv σ R W) (f : Fit σ R W op (.markTest d st n))
    (hn : next σ op slot (.markTest d st n) = some (σ', pc')) :
    Steps σ R W op (.markTest d st n) σ' pc' := by
  simp only [next] at hn
  split at hn
  · obtain ⟨rfl, rfl⟩ := Prod.mk.inj (Option.some.inj hn)
    exact f.idle hm (fun r h => ref_self h) f.loc f.fits f.writes
      (fun _ h => nomatch h) (fun _ h => nomatch h) (fun _ h => nomatch h)
  · next hst =>
    obtain ⟨rfl, rfl⟩ := Prod.mk.inj (Option.some.inj hn)
    obtain ⟨h1, h2, h3, h4⟩ := f.loc
    refine f.idle hm (fun r h => ref_self h) ⟨h1, h2, h3, ?_⟩ f.fits f.writes
      (fun _ h => nomatch h) (fun _ h => nomatch h) (fun _ h => nomatch h)
    cases hs : (σ.node n).next.state <;> simp_all [NodeState.age, Ptr.getState]

theorem Fit.step_markLoad (hm : MemInv σ R W) (f : Fit σ R W op (.markLoad d st n))
    (hn : next σ op slot (.markLoad d st n) = some (σ', pc')) :
    Steps σ R W op (.markLoad d st n) σ' pc' := by
  obtain ⟨rfl, rfl⟩ := Prod.mk.inj (Option.some.inj hn)
  refine f.idle hm ?_ f.loc f.fits f.writes (fun _ h => nomatch h)
    (fun _ h => nomatch h) (fun _ h => nomatch h)
  intro z hz
  simp only [Pc.refs, List.mem_cons, Option.mem_toList] at hz
  rcases hz with rfl | rfl | hz
  · exact ref_self (by simp [Pc.refs])
  · exact ref_self (by simp [Pc.refs])
  · exact ref_next (by simp [Pc.refs]) hz

theorem Fit.step_markCas {w : Ptr} (hm : MemInv σ R W) (f : Fit σ R W op (.markCas d st n w))
    (hn : next σ op slot (.markCas d st n w) = some (σ', pc')) :
    Steps σ R W op (.markCas d st n w) σ' pc' := by
  have hs := Option.some.inj hn
  have hdl := f.refs d (by simp [Pc.refs])
  have hnl := f.refs n (by simp [Pc.refs])
  obtain ⟨h1, h2, h3, h4⟩ := f.loc
  refine f.cas hm hs (by simp [Pc.refs]) h3 rfl
    (fun p _ _ _ hmat => matches_intendToDelete hmat) (by simp [Pc.refs]) (by simp [Pc.refs]) ?_
    (fun m h => (Option.some.inj h).symm) (fun _ h => h) ?_ f.loc
  · rintro z (rfl | rfl) <;> exact ⟨rfl, rfl, rfl, f.fits⟩
  · intro _ σ' k hst
    refine ⟨(k.rank_eq hdl).symm ▸ h1, h2, (k.rank_eq hnl).trans h3, ?_⟩
    rw [hst]
    exact le_refl 2

theorem Fit.step_deleteTest {r : Bool} (hm : MemInv σ R W)
    (f : Fit σ R W op (.deleteTest r d st n))
    (hn : next σ op slot (.deleteTest r d st n) = some (σ', pc')) :
    Steps σ R W op (.deleteTest r d st n) σ' pc' := by
  simp only [next] at hn
  split at hn
  · obtain ⟨rfl, rfl⟩ := Prod.mk.inj (Option.some.inj hn)
    exact f.idle hm (fun r h => ref_self h) f.loc f.fits (fun _ h => by cases h)
      (fun _ h => by cases h) (fun _ h => by cases h) (fun _ h => by cases h)
  · next hst =>
    obtain ⟨h1, h2, h3, h4⟩ := f.loc.1
    have hdead : (σ.node n).next.state = .deleted := (destroyed_age h4).resolve_left hst
    split at hn
    · obtain ⟨rfl, rfl⟩ := Prod.mk.inj (Option.some.inj hn)
      refine f.idle hm (fun r h => ref_self ?_) ⟨h1, h2, hdead, h3⟩ f.fits (fun _ h => by cases h)
        (fun _ h => by cases h) (fun _ h => by cases h) (fun _ h => by cases h)
      simpa [Pc.refs, TrimCtx.refs] using h
    · obtain ⟨rfl, rfl⟩ := Prod.mk.inj (Option.some.inj hn)
      exact f.idle hm (fun r h => by simp [Pc.refs] at h) trivial trivial (fun _ h => by cases h)
        (fun _ h => by cases h) (fun _ h => by cases h) (fun _ h => by cases h)

theorem Fit.step_deleteLoad {r : Bool} (hm : MemInv σ R W)
    (f : Fit σ R W op (.deleteLoad r d st n))
    (hn : next σ op slot (.deleteLoad r d st n) = some (σ', pc')) :
    Steps σ R W op (.deleteLoad r d st n) σ' pc' := by
  obtain ⟨rfl, rfl⟩ := Prod.mk.inj (Option.some.inj hn)
  refine f.idle hm ?_ f.loc f.fits (fun _ h => nomatch h) (fun _ h => nomatch h)
    (fun _ h => nomatch h) (fun _ h => nomatch h)
  intro z hz
  simp only [Pc.refs, List.mem_cons, Option.mem_toList] at hz
  rcases hz with rfl | rfl | hz
  · exact ref_self (by simp [Pc.refs])
  · exact ref_self (by simp [Pc.refs])
  · exact ref_next (by simp [Pc.refs]) hz

theorem Fit.step_deleteCas {r : Bool} {w : Ptr} (hm : MemInv σ R W)
    (f : Fit σ R W op (.deleteCas r d st n w))
    (hn : next σ op slot (.deleteCas r d st n w) = some (σ', pc')) :
    Steps σ R W op (.deleteCas r d st n w) σ' pc' := by
  have hs := Option.some.inj hn
  have hdl := f.refs d (by simp [Pc.refs])
  have hnl := f.refs n (by simp [Pc.refs])
  obtain ⟨h1, h2, h3, h4⟩ := f.loc.1
  have hquiet : ∀ z : Pc, z = .deleteTest r d st n → z.owns = none ∧ z.ownsP = none ∧
      z.retires = none ∧ z.Fits op := by
    rintro z rfl
    exact ⟨rfl, rfl, rfl, f.fits⟩
  refine f.cas hm hs (by simp [Pc.refs]) h3 rfl ?_ (by simp [Pc.refs]) (by simp [Pc.refs])
    (fun z hz => hquiet z (or_self_iff.1 hz)) (fun _ h => by cases h) (fun _ h => by cases h) ?_ f.loc
  · exact fun p hp hst _ _ => atPNode_line hp (f.loc.2 hst)
  · intro _ σ' k hst
    refine ⟨⟨(k.rank_eq hdl).symm ▸ h1, h2, (k.rank_eq hnl).trans h3, ?_⟩, fun h => ?_⟩
    · rw [hst]
      decide
    · rw [hst] at h
      cases h

theorem Fit.step_containsHead (hm : MemInv σ R W) (f : Fit σ R W op .containsHead)
    (hn : next σ op slot .containsHead = some (σ', pc')) :
    Steps σ R W op .containsHead σ' pc' := by
  simp only [next] at hn
  obtain ⟨c, hc, he⟩ := Option.map_eq_some_iff.1 hn
  obtain ⟨rfl, rfl⟩ := Prod.mk.inj he
  have hs : σ.heap.succ head = some c := hc
  refine f.idle hm ?_ (hm.chain.succ_ne_head hm.chain.head_live hs) f.fits (fun _ h => nomatch h)
    (fun _ h => nomatch h) (fun _ h => nomatch h) (fun _ h => nomatch h)
  intro r hr
  obtain rfl : r = c := by simpa [Pc.refs] using hr
  exact ⟨head, List.mem_cons_self, Heap.Reach.single hs⟩

theorem Fit.step_containsWalk (hm : MemInv σ R W) (f : Fit σ R W op (.containsWalk c))
    (hn : next σ op slot (.containsWalk c) = some (σ', pc')) :
    Steps σ R W op (.containsWalk c) σ' pc' := by
  have hcl := f.refs c (by simp [Pc.refs])
  simp only [next] at hn
  split at hn
  · obtain ⟨d, hd, he⟩ := Option.map_eq_some_iff.1 hn
    obtain ⟨rfl, rfl⟩ := Prod.mk.inj he
    refine f.idle hm ?_ (hm.chain.succ_ne_head hcl hd) f.fits (fun _ h => by cases h)
      (fun _ h => by cases h) (fun _ h => by cases h) (fun _ h => by cases h)
    intro r hr
    obtain rfl : r = d := by simpa [Pc.refs] using hr
    exact ref_next (by simp [Pc.refs]) hd
  · obtain ⟨rfl, rfl⟩ := Prod.mk.inj (Option.some.inj hn)
    exact f.idle hm (fun r h => by simp [Pc.refs] at h) trivial trivial (fun _ h => by cases h)
      (fun _ h => by cases h) (fun _ h => by cases h) (fun _ h => by cases h)

theorem Fit.step (hm : MemInv σ R W) (f : Fit σ R W op pc) (hroot : ∀ r ∈ pc.refs, r ∈ R)
    (hp : ∀ d st c, pc = .allocPNode d st c → σ.pavail slot = true ∧ PFree σ W slot)
    (ha : ∀ d st c p v, pc = .allocNode d st c p v → σ.avail slot = true)
    (hn : next σ op slot pc = some (σ', pc')) : Steps σ R W op pc σ' pc' := by
  cases pc with
  | find => exact f.step_find hm hn
  | findLoad d st c => exact f.step_findLoad hm hn
  | trimLoad t d st n => exact f.step_trimLoad hm hn
  | trimCas t d st n w => exact f.step_trimCas hm hroot hn
  | trimFree t d st n => exact f.step_trimFree hm hn
  | allocPNode d st c => exact f.step_allocPNode hm (hp d st c rfl) hn
  | pnodeAlloc d st c p => exact f.step_pnodeAlloc hm hn
  | allocNode d st c p v => exact f.step_allocNode hm (ha d st c p v rfl) hn
  | initNode d st c n p v => exact f.step_initNode hm hn
  | initNext d st c n p => exact f.step_initNext hm hn
  | linkCas d st c n p => exact f.step_linkCas hm hn
  | lostNode n p => exact f.step_lostNode hn
  | lostPNode p => exact f.step_lostPNode hm hn
  | createStart r n => exact f.step_createStart hm hn
  | createKey r n => exact f.step_createKey hm hn
  | createValue r n => exact f.step_createValue hm hn
  | createEnd r n => exact f.step_createEnd hm hn
  | createFlush r n => exact f.step_createFlush hm hn
  | insertTest r n => exact f.step_insertTest hm hn
  | insertLoad r n => exact f.step_insertLoad hm hn
  | insertCas r n w => exact f.step_insertCas hm hn
  | markTest d st n => exact f.step_markTest hm hn
  | markLoad d st n => exact f.step_markLoad hm hn
  | markCas d st n w => exact f.step_markCas hm hn
  | destroyStore r d st n => exact f.step_destroyStore hm hn
  | destroyFlush r d st n => exact f.step_destroyFlush hm hn
  | deleteTest r d st n => exact f.step_deleteTest hm hn
  | deleteLoad r d st n => exact f.step_deleteLoad hm hn
  | deleteCas r d st n w => exact f.step_deleteCas hm hn
  | containsHead => exact f.step_containsHead hm hn
  | containsWalk c => exact f.step_containsWalk hm hn
  | ret r => cases hn

/-! ### The invariant of the list under any number of threads -/

def State.roots (s : State V) : Set Loc :=
  {r | r = head ∨ ∃ t op pc, s.thread t = some (op, pc) ∧ r ∈ pc.refs}

def State.writers (s : State V) : Set Loc :=
  {x | ∃ t op pc, s.thread t = some (op, pc) ∧ (pc.writes = some x ∨ pc.retires = some x)}

def Apart {β : Type} (s : State V) (g : Pc → Option β) : Prop :=
  ∀ ⦃t u op op' pc pc' b⦄, s.thread t = some (op, pc) → s.thread u = some (op', pc') →
    g pc = some b → g pc' = some b → t = u

structure Inv (s : State V) : Prop where
  mem : MemInv s.store s.roots s.writers
  fit : ∀ {t op pc}, s.thread t = some (op, pc) → Fit s.store s.roots s.writers op pc
  apart : Apart s Pc.owns
  apartP : Apart s Pc.ownsP
  apartR : Apart s Pc.retires

variable {s s' : State V} {t u : Tid}

theorem head_mem_roots (s : State V) : head ∈ s.roots := Or.inl rfl

theorem mem_roots (ht : s.thread t = some (op, pc)) {r : Loc} (hr : r ∈ pc.refs) :
    r ∈ s.roots := Or.inr ⟨t, op, pc, ht, hr⟩

theorem mem_writers (ht : s.thread t = some (op, pc)) (hw : pc.writes = some n) :
    n ∈ s.writers := ⟨t, op, pc, ht, Or.inl hw⟩

theorem retires_mem_writers (ht : s.thread t = some (op, pc)) (hw : pc.retires = some n) :
    n ∈ s.writers := ⟨t, op, pc, ht, Or.inr hw⟩

theorem writes_mem_refs (h : pc.writes = some n ∨ pc.retires = some n) : n ∈ pc.refs := by
  cases pc <;> simp_all [Pc.writes, Pc.retires, Pc.refs]

theorem roots_goto {a : Option (SetOp V × Pc)} {r : Loc} (hr : r ∈ (s.goto σ t a).roots) :
    r ∈ s.roots ∨ ∃ op pc, a = some (op, pc) ∧ r ∈ pc.refs := by
  rcases hr with hr | ⟨u, op, pc, hu, hr⟩
  · exact Or.inl (Or.inl hr)
  · by_cases he : u = t
    · subst he
      rw [goto_thread_self] at hu
      exact Or.inr ⟨op, pc, hu, hr⟩
    · rw [goto_thread_other _ _ _ he] at hu
      exact Or.inl (mem_roots hu hr)

theorem writers_goto {a : Option (SetOp V × Pc)} (hr : x ∈ (s.goto σ t a).writers) :
    x ∈ s.writers ∨ ∃ op pc, a = some (op, pc) ∧ (pc.writes = some x ∨ pc.retires = some x) := by
  obtain ⟨u, op, pc, hu, hr⟩ := hr
  by_cases he : u = t
  · subst he
    rw [goto_thread_self] at hu
    exact Or.inr ⟨op, pc, hu, hr⟩
  · rw [goto_thread_other _ _ _ he] at hu
    exact Or.inl ⟨u, op, pc, hu, hr⟩

theorem writers_subset_roots (h : x ∈ s.writers) : x ∈ s.roots := by
  obtain ⟨t, op, pc, ht, hw⟩ := h
  exact mem_roots ht (writes_mem_refs hw)

theorem gives_cases (h : pc.gives σ = some p) :
    pc.ownsP = some p ∨ ∃ n, pc.retires = some n ∧ (σ.node n).pptr = some p := by
  unfold Pc.gives at h
  cases ho : pc.ownsP with
  | some q => exact Or.inl (by simpa [ho] using h)
  | none =>
    refine Or.inr ?_
    cases hr : pc.retires with
    | none => simp [ho, hr] at h
    | some m => exact ⟨m, rfl, by simpa [ho, hr] using h⟩

theorem Fit.kept {h : Option Loc} {hp : Option PLoc} (f : Fit σ R W op pc) (hm : MemInv σ R W)
    (k : Kept σ R W h hp R' W' σ') (hroot : ∀ r ∈ pc.refs, r ∈ R)
    (hw : ∀ n, pc.writes = some n → n ∈ W) (hne : ∀ n, pc.owns = some n → h ≠ some n)
    (hnp : ∀ p, pc.ownsP = some p → hp ≠ some p)
    (hnr : ∀ n p, pc.retires = some n → (σ.node n).pptr = some p → hp ≠ some p) :
    Fit σ' R' W' op pc where
  refs r hr := Heap.Live.root (k.roots (hroot r hr))
  key := f.key
  fits := f.fits
  loc := k.local hm f.key f.refs f.writes (fun n hn => k.node (hne n hn) (f.owned n hn).1)
    (fun p hp => k.pline (f.ownedP p hp).1) f.loc
  writes n hn := Or.inr (k.writers (hw n hn))
  owned n hn := ⟨k.fresh (hne n hn) (f.owned n hn).1, k.avail (hne n hn) (f.owned n hn).2⟩
  ownedP p hp := ⟨k.free (hnp p hp) (f.ownedP p hp).1, k.pavail (hnp p hp) (f.ownedP p hp).2⟩
  retired n hn := by
    obtain ⟨h1, h2, h3⟩ := f.retired n hn
    have hl := f.refs n (writes_mem_refs (Or.inr hn))
    refine ⟨k.writers h1, k.unlinked hl h2, fun p hp => ?_⟩
    rw [(k.evolves hl).pptr] at hp
    exact k.pavail (hnr n p hn hp) (h3 p hp)

theorem Fit.reroot (f : Fit σ R W op pc) (hroot : ∀ r ∈ pc.refs, r ∈ R')
    (hR : ∀ r ∈ R', σ.heap.Live R r) (hW : ∀ x ∈ W', Owner σ W x)
    (hw : ∀ n, pc.writes = some n ∨ pc.retires = some n → n ∈ W') : Fit σ R' W' op pc where
  refs r hr := Heap.Live.root (hroot r hr)
  key := f.key
  fits := f.fits
  loc := f.loc
  writes n hn := Or.inr (hw n (Or.inl hn))
  owned n hn := ⟨fun h => (f.owned n hn).1 (h.mono hR), (f.owned n hn).2⟩
  ownedP p hp := ⟨fun x hx => (f.ownedP p hp).1 x (hx.elim Or.inl (hW x)), (f.ownedP p hp).2⟩
  retired n hn := ⟨hw n (Or.inr hn), (f.retired n hn).2⟩

theorem Apart.goto {β : Type} {g : Pc → Option β} {a : Option (SetOp V × Pc)} (h : Apart s g)
    (hnew : ∀ op pc b, a = some (op, pc) → g pc = some b → ∀ u op' pc', u ≠ t →
      s.thread u = some (op', pc') → g pc' ≠ some b) : Apart (s.goto σ t a) g := by
  intro u w op1 op2 pc1 pc2 b hu hw h1 h2
  by_cases he : u = t <;> by_cases he' : w = t
  · rw [he, he']
  · subst he
    rw [goto_thread_self] at hu
    rw [goto_thread_other _ _ _ he'] at hw
    exact absurd h2 (hnew op1 pc1 b hu h1 w op2 pc2 he' hw)
  · subst he'
    rw [goto_thread_self] at hw
    rw [goto_thread_other _ _ _ he] at hu
    exact absurd h1 (hnew op2 pc2 b hw h2 u op1 pc1 he hu)
  · rw [goto_thread_other _ _ _ he] at hu
    rw [goto_thread_other _ _ _ he'] at hw
    exact h hu hw h1 h2

theorem Inv.fit_other (h : Inv s) {op1 : SetOp V} {pc1 : Pc} (ht : s.thread t = some (op, pc))
    (hu : s.thread u = some (op1, pc1)) (he : u ≠ t)
    (k : Kept s.store s.roots s.writers pc.owns (pc.gives s.store) R' W' σ) :
    Fit σ R' W' op1 pc1 := by
  have fu := h.fit hu
  have ft := h.fit ht
  refine fu.kept h.mem k (fun r hr => mem_roots hu hr) (fun n hn => mem_writers hu hn)
    (fun n hn ho => he (h.apart hu ht hn ho)) (fun p hp hg => ?_) (fun n p hn hp hg => ?_)
  · rcases gives_cases hg with hg | ⟨m, hm, hg⟩
    · exact he (h.apartP hu ht hp hg)
    · exact (fu.ownedP p hp).1 m (Or.inr (ft.retired m hm).1) hg
  · rcases gives_cases hg with hg | ⟨m, hm, hg⟩
    · exact (ft.ownedP p hg).1 n (Or.inr (fu.retired n hn).1) hp
    · obtain rfl := h.mem.pnode.inj (Or.inr (fu.retired n hn).1) (Or.inr (ft.retired m hm).1) hp hg
      exact he (h.apartR hu ht hn hm)

theorem Inv.step_idle (h : Inv s) (a : Option (SetOp V × Pc))
    (hr : ∀ op pc, a = some (op, pc) → pc.refs = [])
    (hf : ∀ op pc, a = some (op, pc) → Fit s.store s.roots s.writers op pc)
    (ho : ∀ op pc, a = some (op, pc) → pc.owns = none ∧ pc.ownsP = none) :
    Inv (s.goto s.store t a) := by
  have hwr : ∀ op pc n, a = some (op, pc) → ¬ (pc.writes = some n ∨ pc.retires = some n) := by
    intro op pc n ha hw
    have := writes_mem_refs hw
    rw [hr op pc ha] at this
    cases this
  have hroots : ∀ r ∈ (s.goto s.store t a).roots, r ∈ s.roots := by
    intro r hr'
    rcases roots_goto hr' with hr' | ⟨op, pc, ha, hr'⟩
    · exact hr'
    · rw [hr op pc ha] at hr'
      cases hr'
  have hwriters : ∀ x ∈ (s.goto s.store t a).writers, x ∈ s.writers := by
    intro x hx
    rcases writers_goto hx with hx | ⟨op, pc, ha, hx⟩
    · exact hx
    · exact absurd hx (hwr op pc x ha)
  have hR : ∀ r ∈ (s.goto s.store t a).roots, s.store.heap.Live s.roots r :=
    fun r hr => Heap.Live.root (hroots r hr)
  have hW : ∀ x ∈ (s.goto s.store t a).writers, Owner s.store s.writers x :=
    fun x hx => Or.inr (hwriters x hx)
  refine ⟨h.mem.reroot (head_mem_roots _) hR hW fun _ => writers_subset_roots, ?_, ?_, ?_, ?_⟩
  · intro u op pc hu
    refine Fit.reroot ?_ (fun r hr => mem_roots hu hr) hR hW fun n hn => ⟨u, op, pc, hu, hn⟩
    by_cases he : u = t
    · subst he
      rw [goto_thread_self] at hu
      exact hf op pc hu
    · rw [goto_thread_other _ _ _ he] at hu
      exact h.fit hu
  · exact h.apart.goto fun op pc n ha hn => absurd ((ho op pc ha).1.symm.trans hn) nofun
  · exact h.apartP.goto fun op pc n ha hn => absurd ((ho op pc ha).2.symm.trans hn) nofun
  · exact h.apartR.goto fun op pc n ha hn => absurd (Or.inr hn) (hwr op pc n ha)

theorem Inv.step_tau (h : Inv s) (ht : s.thread t = some (op, pc))
    (ok : Steps s.store s.roots s.writers op pc σ pc') : Inv (s.goto σ t (some (op, pc'))) := by
  obtain ⟨R', W', ok⟩ := ok
  have e := ok.effect
  have f := ok.fit
  have k := e.kept h.mem
  have hR : ∀ r ∈ (s.goto σ t (some (op, pc'))).roots, σ.heap.Live R' r := by
    intro r hr
    rcases roots_goto hr with hr | ⟨op1, pc1, ha, hr⟩
    · exact Heap.Live.root (k.roots hr)
    · obtain ⟨rfl, rfl⟩ := Prod.mk.inj (Option.some.inj ha)
      exact f.refs r hr
  have hW : ∀ x ∈ (s.goto σ t (some (op, pc'))).writers, Owner σ W' x := by
    intro x hx
    rcases writers_goto hx with hx | ⟨op1, pc1, ha, hx⟩
    · exact Or.inr (k.writers hx)
    · obtain ⟨rfl, rfl⟩ := Prod.mk.inj (Option.some.inj ha)
      rcases hx with hx | hx
      · exact f.writes x hx
      · exact Or.inr (f.retired x hx).1
  refine ⟨(e.memInv h.mem).reroot (head_mem_roots _) hR hW fun _ => writers_subset_roots, ?_, ?_,
    ?_, ?_⟩
  · intro u op1 pc1 hu
    refine Fit.reroot ?_ (fun r hr => mem_roots hu hr) hR hW fun n hn => ⟨u, op1, pc1, hu, hn⟩
    by_cases he : u = t
    · subst he
      rw [goto_thread_self] at hu
      obtain ⟨rfl, rfl⟩ := Prod.mk.inj (Option.some.inj hu)
      exact f
    · rw [goto_thread_other _ _ _ he] at hu
      exact h.fit_other ht hu he k
  · refine h.apart.goto fun op1 pc1 n ha hn u op2 pc2 he hu hn' => ?_
    obtain ⟨rfl, rfl⟩ := Prod.mk.inj (Option.some.inj ha)
    rcases ok.owns n hn with hn | hn
    · exact he (h.apart hu ht hn' hn)
    · exact absurd (((h.fit hu).owned n hn').2.symm.trans hn) Bool.false_ne_true
  · refine h.apartP.goto fun op1 pc1 p ha hp u op2 pc2 he hu hp' => ?_
    obtain ⟨rfl, rfl⟩ := Prod.mk.inj (Option.some.inj ha)
    rcases ok.ownsP p hp with hp | hp
    · exact he (h.apartP hu ht hp' hp)
    · exact absurd (((h.fit hu).ownedP p hp').2.symm.trans hp) Bool.false_ne_true
  · refine h.apartR.goto fun op1 pc1 n ha hn u op2 pc2 he hu hn' => ?_
    obtain ⟨rfl, rfl⟩ := Prod.mk.inj (Option.some.inj ha)
    rcases ok.retires n hn with hn | hn
    · exact he (h.apartR hu ht hn' hn)
    · exact ((h.fit hu).retired n hn').2.1 hn

theorem start_refs (op : SetOp V) : (start op).refs = [] := by cases op <;> rfl

theorem start_quiet (op : SetOp V) : (start op).writes = none ∧ (start op).owns = none ∧
    (start op).ownsP = none ∧ (start op).retires = none := by
  cases op <;> exact ⟨rfl, rfl, rfl, rfl⟩

theorem start_fit (hk : op.key < INT_MAX) : Fit σ R W op (start op) := by
  obtain ⟨h1, h2, h3, h4⟩ := start_quiet op
  refine ⟨fun r h => ?_, hk, ?_, ?_, fun n h => ?_, fun n h => ?_, fun p h => ?_, fun n h => ?_⟩
  · rw [start_refs] at h
    cases h
  · cases op <;> simp [start, Pc.Fits, SetOp.IsContains]
  · cases op <;> trivial
  · exact absurd (h1.symm.trans h) nofun
  · exact absurd (h2.symm.trans h) nofun
  · exact absurd (h3.symm.trans h) nofun
  · exact absurd (h4.symm.trans h) nofun

theorem Recyclable.free (h : Inv s) (hp : s.Recyclable p) :
    s.store.pavail p = true ∧ PFree s.store s.writers p := by
  refine ⟨hp.1, ?_⟩
  rintro x (hx | ⟨t, op, pc, ht, hw | hr⟩) hxp
  · exact absurd ((h.mem.pnode.taken hx hxp).symm.trans hp.1) Bool.false_ne_true
  · exact hp.2 t op pc x ht hw hxp
  · exact absurd ((((h.fit ht).retired x hr).2.2 p hxp).symm.trans hp.1) Bool.false_ne_true

theorem tau_ok (h : Inv s) (ht : s.thread t = some (op, pc))
    (hn : next s.store op slot pc = some (σ, pc'))
    (hp : ∀ pred st curr, pc = .allocPNode pred st curr → s.Recyclable slot)
    (ha : ∀ pred st curr p v, pc = .allocNode pred st curr p v → s.store.avail slot = true) :
    Steps s.store s.roots s.writers op pc σ pc' :=
  (h.fit ht).step h.mem (fun _ hr => mem_roots ht hr)
    (fun d st c he => Recyclable.free h (hp d st c he)) ha hn

theorem Inv.step (h : Inv s) {e : Event (SetOp V)} (hs : Step s e s') : Inv s' := by
  cases hs with
  | call t op idle hk =>
    refine h.step_idle _ ?_ ?_ ?_ <;> intro op1 pc1 ha <;>
      obtain ⟨rfl, rfl⟩ := Prod.mk.inj (Option.some.inj ha)
    · exact start_refs _
    · exact start_fit hk
    · exact ⟨(start_quiet _).2.1, (start_quiet _).2.2.1⟩
  | ret t op r ht =>
    exact h.step_idle none (fun _ _ h => nomatch h) (fun _ _ h => nomatch h)
      (fun _ _ h => nomatch h)
  | tau t op pc pc' slot σ ht hn hp ha => exact h.step_tau ht (tau_ok h ht hn hp ha)

theorem initial_node (zero : V) (x : Loc) : ((initial zero).store.node x).next =
    if x = head then Ptr.addr tail .inserted else ⟨none, .inserted⟩ := by
  simp only [initial, initialStore]
  split
  · rfl
  · split <;> rfl

theorem initial_reach (zero : V) (h : (initial zero).store.heap.Reach x y) :
    y = x ∨ (x = head ∧ y = tail) := by
  induction h with
  | refl => exact Or.inl rfl
  | @tail b c hb hc ih =>
    have hc' : ((initial zero).store.node b).next.ref = some c := hc
    rw [initial_node] at hc'
    split at hc'
    · next he =>
      have hct : tail = c := Option.some.inj hc'
      rcases ih with ih | ⟨_, ih⟩
      · exact Or.inr ⟨ih ▸ he, hct.symm⟩
      · rw [ih] at he
        exact absurd he (by decide)
    · cases hc'

theorem initial_live (zero : V)
    (h : (initial zero).store.heap.Live (initial zero).roots x) : x = head ∨ x = tail := by
  obtain ⟨r, hr, h⟩ := h
  have hrh : r = head := by
    rcases hr with rfl | ⟨t, op, pc, ht, _⟩
    · rfl
    · cases ht
  subst hrh
  rcases initial_reach zero h with rfl | ⟨_, rfl⟩
  · exact Or.inl rfl
  · exact Or.inr rfl

theorem initial_owner (zero : V) : ¬ Owner (initial zero).store (initial zero).writers x := by
  rintro (⟨hl, hh, ht⟩ | ⟨t, op, pc, ht, _⟩)
  · exact (initial_live zero ⟨head, Or.inl rfl, hl⟩).elim hh ht
  · cases ht

theorem inv_initial (zero : V) : Inv (initial zero) := by
  have hlink : (initial zero).store.heap.Linked tail :=
    Heap.Reach.single (congrArg Ptr.ref (initial_node zero head))
  have hlive : ∀ {x}, (initial zero).store.heap.Live (initial zero).roots x →
      x = head ∨ x = tail := initial_live zero
  have howner : ∀ {x}, ¬ Owner (initial zero).store (initial zero).writers x :=
    initial_owner zero
  refine ⟨⟨⟨⟨Or.inl rfl, ?_, ?_⟩, ?_, ?_, hlink, ?_, rfl, ?_, ?_, ?_⟩,
    ⟨fun h => absurd h howner, fun h => absurd h howner, fun h => absurd (Or.inl h) howner, ?_, ?_⟩,
    ?_⟩, ?_, ?_, ?_, ?_⟩
  · intro x y _ hs hr
    have hs' : ((initial zero).store.node x).next.ref = some y := hs
    rw [initial_node] at hs'
    split at hs'
    · next he =>
      obtain rfl : tail = y := Option.some.inj hs'
      rcases initial_reach zero hr with h | ⟨h, _⟩
      · rw [he] at h
        exact absurd h (by decide)
      · exact absurd h (by decide)
    · cases hs'
  · intro x hx _
    rcases hlive hx with rfl | rfl
    · exact Heap.Reach.refl _
    · exact hlink
  · intro x y hx hs
    have hs' : ((initial zero).store.node x).next.ref = some y := hs
    rw [initial_node] at hs'
    split at hs'
    · next he =>
      subst he
      obtain rfl : tail = y := Option.some.inj hs'
      change rank (initial zero).store head < rank (initial zero).store tail
      rw [rank_head, rank_of_ne _ (by decide)]
      exact WithBot.bot_lt_coe _
    · cases hs'
  · rw [initial_node, if_pos rfl]
    rfl
  · rw [initial_node, if_neg (by decide)]
  · intro x hx ht
    rcases hlive hx with rfl | rfl
    · rw [initial_node]
      exact Option.some_ne_none _
    · exact absurd rfl ht
  · intro x hx ht
    rcases hlive hx with rfl | rfl
    · rw [rank_head]
      exact WithBot.bot_lt_coe _
    · exact absurd rfl ht
  · intro x ha hx
    rcases hlive hx with rfl | rfl <;> simp [initial, initialStore] at ha
  · intro p _
    refine ⟨true, spare_of_unused ?_⟩
    intro c hc
    obtain rfl : c = ⟨false, false, false, 0, zero⟩ := by
      simpa [Line.mem_contents, initial, initialStore] using hc
    exact ⟨rfl, rfl, rfl⟩
  · intro p c hc hv
    obtain rfl : c = ⟨false, false, false, 0, zero⟩ := by
      simpa [Line.mem_contents, initial, initialStore] using hc
    cases hv
  · rintro x ⟨t, op, pc, ht, _⟩
    cases ht
  · exact fun ht => by cases ht
  all_goals exact fun _ _ _ _ _ _ _ ht => by cases ht

theorem inv_run (ρ : Run (machine V)) : ∀ n ≤ ρ.length, Inv (ρ.state n) := by
  refine ρ.invariant ?_ fun _ _ _ h hs => h.step hs
  rintro s ⟨zero, rfl⟩
  exact inv_initial zero

end SOFT.List
