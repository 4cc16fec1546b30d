import DurableSets.LinkFree.ListInv

namespace LinkFree.List

open Chain

variable {V : Type} {σ σ' : Store V} {R R' : Set Loc} {x y p n c : Loc} {op : SetOp V} {pc : Pc}
  {h : Option Loc}

structure Kept (σ : Store V) (R : Set Loc) (h : Option Loc) (R' : Set Loc) (σ' : Store V) :
    Prop where
  roots : R ⊆ R'
  evolves : ∀ {x}, σ.heap.Live R x → Evolves (σ.line x) (σ'.line x)
  line : ∀ {x}, h ≠ some x → ¬ σ.heap.Live R x → σ'.line x = σ.line x
  avail : ∀ {x}, h ≠ some x → σ.avail x = false → σ'.avail x = false
  unlinked : ∀ {x}, σ.heap.Live R x → ¬ σ.heap.Linked x → ¬ σ'.heap.Linked x
  fresh : ∀ {x}, h ≠ some x → ¬ σ.heap.Live R x → ¬ σ'.heap.Live R' x

theorem evolves_setLine {l : Line (Node V)} (ev : Evolves (σ.line x) l) :
    Evolves (σ.line y) ((σ.setLine x l).line y) := by
  by_cases he : y = x
  · rw [he, line_setLine_self]
    exact ev
  · rw [line_setLine_other σ l he]
    exact Evolves.refl _

theorem Effect.kept (hm : MemInv σ R) (e : Effect σ R h R' σ') : Kept σ R h R' σ' := by
  cases e with
  | idle =>
    exact ⟨subset_rfl, fun _ => Evolves.refl _, fun _ _ => rfl, fun _ => id, fun _ => id,
      fun _ => id⟩
  | touch x l _ live ev ref sub valid hi hd alive atTail =>
    have st := touch_steady (R := R) ev ref
    refine ⟨subset_rfl, fun _ => evolves_setLine ev, ?_, fun _ => id, ?_, ?_⟩
    · intro y _ hy
      have he : y ≠ x := by
        rintro rfl
        exact hy live
      exact line_setLine_other σ l he
    · exact fun _ hy h => hy ((st.linked hm.good).1 h)
    · exact fun _ hy h => hy (st.live.1 h)
  | priv x m fresh unavail lost =>
    have st := priv_steady (m := m) fresh
    refine ⟨subset_rfl, ?_, ?_, fun _ => id, ?_, ?_⟩
    · intro y hy
      have he : y ≠ x := by
        rintro rfl
        exact fresh hy
      rw [line_write_other σ m he]
      exact Evolves.refl _
    · intro y hy _
      exact line_write_other σ m fun e => hy (congrArg some e.symm)
    · exact fun _ hy h => hy ((st.linked hm.good).1 h)
    · exact fun _ hy h => hy (st.live.1 h)
  | link p n c live next fresh unavail new_next lt gt bounded hi hd =>
    have sp := link_splice live next fresh new_next
    refine ⟨Set.subset_insert _ _, fun _ => ?_, ?_, fun _ => id, ?_, ?_⟩
    · exact evolves_setLine (evolves_next next (by simp [Ptr.addr]))
    · intro y _ hy
      exact line_write_other σ _ fun e => hy (e ▸ live)
    · intro y hl hy h
      rcases (sp.linked hm.good).1 h with h | rfl
      · exact hy h
      · exact fresh hl
    · rintro y hn hy ⟨r, rfl | hr, hr'⟩
      · rcases sp.reach_from_new hr' with rfl | hr'
        · exact hn rfl
        · have hc := sp.pred.succ sp.pred_succ
          rcases sp.reach_or hc hr' with h | ⟨rfl, _⟩
          · exact hy (hc.reach h)
          · exact hn rfl
      · rcases sp.live_or ⟨r, hr, hr'⟩ with h | rfl
        · exact hy h
        · exact hn rfl
  | unlink p c succ _ live next unmarked succ_next marked =>
    obtain ⟨d, hcd, hd⟩ := unlink_succ hm live next succ_next
    have bp := unlink_bypass hm live next unmarked succ_next hd
    refine ⟨subset_rfl, fun _ => ?_, ?_, fun _ => id, ?_, ?_⟩
    · exact evolves_setLine (evolves_next next (by rw [hd]; exact Option.some_ne_none _))
    · intro y _ hy
      exact line_write_other σ _ fun e => hy (e ▸ live)
    · exact fun _ hy h => hy ((unlink_linked hm live next unmarked succ_next).1 h).1
    · exact fun _ hy h => hy (bp.live_of' h)
  | take x _ avail fresh =>
    refine ⟨subset_rfl, fun _ => Evolves.refl _, fun _ _ => rfl, ?_, fun _ => id, fun _ => id⟩
    intro y _ hy
    by_cases he : y = x
    · simp [Store.take, he]
    · simpa [Store.take, he] using hy
  | give x linked valid =>
    refine ⟨subset_rfl, fun _ => Evolves.refl _, fun _ _ => rfl, ?_, fun _ => id, fun _ => id⟩
    intro y hn hy
    have he : y ≠ x := fun e => hn (congrArg some e.symm)
    simpa [Store.give, he] using hy

def Gap (σ : Store V) (op : SetOp V) (p c : Loc) : Prop :=
  rank σ p < (op.key : ℤ) ∧ ((op.key : ℤ) : WithBot ℤ) < rank σ c

def DeleteOk (σ : Store V) (op : SetOp V) (n : Loc) : DeleteCtx → Prop
  | .trim c p => rank σ p < (op.key : ℤ) ∧ σ.heap.dead n ∧
      (c = .inRemove → rank σ n = (op.key : ℤ))
  | .contains => σ.heap.dead n ∧ rank σ n = (op.key : ℤ)

def TrimOk (σ : Store V) (op : SetOp V) (c : TrimCtx) (p n : Loc) : Prop :=
  rank σ p < (op.key : ℤ) ∧ σ.heap.dead n ∧ AllMarked (σ.line n) ∧
    (c = .inRemove → rank σ n = (op.key : ℤ))

def ValidOk (σ : Store V) (op : SetOp V) (n : Loc) : ValidCtx → Prop
  | .found => rank σ n = (op.key : ℤ)
  | .linked => rank σ n = (op.key : ℤ)
  | .lost => (σ.node n).next.marked = true
  | .removing p succ => rank σ p < (op.key : ℤ) ∧ rank σ n = (op.key : ℤ) ∧ succ.marked = false
  | .contains => rank σ n = (op.key : ℤ)

def Unlinkable (σ : Store V) (op : SetOp V) (n : Loc) : Prop :=
  (σ.node n).key = op.key ∧ ∀ k v, op = .insert k v → (σ.node n).value = v

def Local (σ : Store V) (op : SetOp V) : Pc → Prop
  | .find => True
  | .findTest p c => rank σ p < (op.key : ℤ) ∧ c ≠ head
  | .findNext p n => rank σ p < (op.key : ℤ) ∧ (rank σ n < (op.key : ℤ) ∨ σ.heap.dead n)
  | .deleteLoad c n => DeleteOk σ op n c
  | .deleteFlush c n => DeleteOk σ op n c
  | .deleteStore c n => DeleteOk σ op n c ∧ AllMarked (σ.line n)
  | .trimLoad c p n => TrimOk σ op c p n
  | .trimCas c p n succ =>
    TrimOk σ op c p n ∧ succ.marked = false ∧ (σ.node n).next = succ.mark
  | .trimFree c p n => TrimOk σ op c p n
  | .validLoad c n => ValidOk σ op n c
  | .validStore c n _ => ValidOk σ op n c
  | .insertLoad _ n => rank σ n = (op.key : ℤ) ∧ isValid (σ.node n).metaData = true
  | .insertFlush _ n => rank σ n = (op.key : ℤ) ∧ isValid (σ.node n).metaData = true
  | .insertStore _ n => rank σ n = (op.key : ℤ) ∧ AllValid (σ.line n)
  | .alloc p c => Gap σ op p c
  | .flipLoad p c n => Gap σ op p c ∧ isValid (σ.node n).metaData = true
  | .flipStore p c _ old => Gap σ op p c ∧ isValid old = true
  | .initInsertFlag p c n => Gap σ op p c ∧ ¬ isValid (σ.node n).metaData = true
  | .initDeleteFlag p c n => Gap σ op p c ∧ ¬ isValid (σ.node n).metaData = true ∧
      (σ.node n).insertFlag = false
  | .initKey p c n => Gap σ op p c ∧ ¬ isValid (σ.node n).metaData = true ∧
      (σ.node n).insertFlag = false ∧ (σ.node n).deleteFlag = false
  | .initValue p c n => Gap σ op p c ∧ ¬ isValid (σ.node n).metaData = true ∧
      (σ.node n).insertFlag = false ∧ (σ.node n).deleteFlag = false ∧
      (σ.node n).key = op.key
  | .initNext p c n => Gap σ op p c ∧ ¬ isValid (σ.node n).metaData = true ∧
      (σ.node n).insertFlag = false ∧ (σ.node n).deleteFlag = false ∧ Unlinkable σ op n
  | .linkCas p c n => Gap σ op p c ∧ ¬ isValid (σ.node n).metaData = true ∧
      (σ.node n).insertFlag = false ∧ (σ.node n).deleteFlag = false ∧ Unlinkable σ op n ∧
      (σ.node n).next = Ptr.addr c
  | .lostStore _ => True
  | .lostFree n => (σ.node n).next.marked = true ∧ isValid (σ.node n).metaData = true
  | .removeLoad p n => rank σ p < (op.key : ℤ) ∧ rank σ n = (op.key : ℤ)
  | .markCas p n succ => rank σ p < (op.key : ℤ) ∧ rank σ n = (op.key : ℤ) ∧
      isValid (σ.node n).metaData = true ∧ succ.marked = false
  | .containsHead => True
  | .containsWalk c => c ≠ head
  | .ret _ _ => True

theorem Kept.rank_eq (k : Kept σ R h R' σ') (hx : σ.heap.Live R x) : rank σ' x = rank σ x :=
  rank_congr (k.evolves hx).key

theorem Kept.dead (k : Kept σ R h R' σ') (hx : σ.heap.Live R x) (hd : σ.heap.dead x) :
    σ'.heap.dead x := by
  change (σ'.line x).cur.next.marked = true
  rw [(k.evolves hx).next hd]
  exact hd

theorem Kept.next (k : Kept σ R h R' σ') (hx : σ.heap.Live R x) (hd : σ.heap.dead x) :
    (σ'.node x).next = (σ.node x).next := (k.evolves hx).next hd

theorem Kept.gap (k : Kept σ R h R' σ') (hp : σ.heap.Live R p) (hc : σ.heap.Live R c)
    (hg : Gap σ op p c) : Gap σ' op p c := by
  unfold Gap
  rw [k.rank_eq hp, k.rank_eq hc]
  exact hg

theorem Kept.deleteOk (k : Kept σ R h R' σ') {d : DeleteCtx}
    (hr : ∀ r ∈ d.refs n, σ.heap.Live R r) (ho : DeleteOk σ op n d) : DeleteOk σ' op n d := by
  cases d with
  | trim c p =>
    have hp := hr p (by simp [DeleteCtx.refs])
    have hn := hr n (by simp [DeleteCtx.refs])
    refine ⟨(k.rank_eq hp).symm ▸ ho.1, k.dead hn ho.2.1, fun hc => ?_⟩
    rw [k.rank_eq hn]
    exact ho.2.2 hc
  | contains =>
    have hn := hr n (by simp [DeleteCtx.refs])
    exact ⟨k.dead hn ho.1, (k.rank_eq hn).trans ho.2⟩

theorem Kept.trimOk (k : Kept σ R h R' σ') {t : TrimCtx} (hp : σ.heap.Live R p)
    (hn : σ.heap.Live R n) (ho : TrimOk σ op t p n) : TrimOk σ' op t p n := by
  refine ⟨(k.rank_eq hp).symm ▸ ho.1, k.dead hn ho.2.1, (k.evolves hn).marked ho.2.2.1, fun hc => ?_⟩
  rw [k.rank_eq hn]
  exact ho.2.2.2 hc

theorem Kept.validOk (k : Kept σ R h R' σ') {d : ValidCtx}
    (hr : ∀ r ∈ d.refs n, σ.heap.Live R r) (hl : d = .lost → σ'.line n = σ.line n)
    (ho : ValidOk σ op n d) : ValidOk σ' op n d := by
  cases d with
  | found => exact (k.rank_eq (hr n (by simp [ValidCtx.refs]))).trans ho
  | linked => exact (k.rank_eq (hr n (by simp [ValidCtx.refs]))).trans ho
  | lost =>
    change (σ'.line n).cur.next.marked = true
    rw [hl rfl]
    exact ho
  | removing p succ =>
    have hp := hr p (by simp [ValidCtx.refs])
    have hn := hr n (by simp [ValidCtx.refs])
    exact ⟨(k.rank_eq hp).symm ▸ ho.1, (k.rank_eq hn).trans ho.2.1, ho.2.2⟩
  | contains => exact (k.rank_eq (hr n (by simp [ValidCtx.refs]))).trans ho

theorem Kept.local (k : Kept σ R h R' σ') (hr : ∀ r ∈ pc.refs, σ.heap.Live R r)
    (ho : ∀ n, pc.owns = some n → σ'.line n = σ.line n) (hl : Local σ op pc) :
    Local σ' op pc := by
  have hnode : ∀ n, pc.owns = some n → σ'.node n = σ.node n := fun n hn => by
    simp only [Store.node, ho n hn]
  have rk : ∀ r ∈ pc.refs, rank σ' r = rank σ r := fun r h => k.rank_eq (hr r h)
  have va : ∀ r ∈ pc.refs, isValid (σ.node r).metaData = true →
      isValid (σ'.node r).metaData = true := fun r h => (k.evolves (hr r h)).valid
  cases pc with
  | find => trivial
  | findTest p c =>
    refine ⟨?_, hl.2⟩
    rw [rk p (by simp [Pc.refs])]
    exact hl.1
  | findNext p c =>
    refine ⟨(rk p (by simp [Pc.refs])).symm ▸ hl.1, ?_⟩
    rw [rk c (by simp [Pc.refs])]
    exact hl.2.imp_right (k.dead (hr c (by simp [Pc.refs])))
  | deleteLoad d n => exact k.deleteOk hr hl
  | deleteFlush d n => exact k.deleteOk hr hl
  | deleteStore d n =>
    have hn : σ.heap.Live R n := hr n (by cases d <;> simp [Pc.refs, DeleteCtx.refs])
    exact ⟨k.deleteOk hr hl.1, (k.evolves hn).marked hl.2⟩
  | trimLoad t p n =>
    exact k.trimOk (hr p (by simp [Pc.refs])) (hr n (by simp [Pc.refs])) hl
  | trimCas t p n succ =>
    have hn := hr n (by simp [Pc.refs])
    exact ⟨k.trimOk (hr p (by simp [Pc.refs])) hn hl.1, hl.2.1,
      (k.next hn hl.1.2.1).trans hl.2.2⟩
  | trimFree t p n =>
    exact k.trimOk (hr p (by simp [Pc.refs])) (hr n (by simp [Pc.refs])) hl
  | validLoad d n => exact k.validOk hr (fun e => ho n (by rw [e]; rfl)) hl
  | validStore d n old => exact k.validOk hr (fun e => ho n (by rw [e]; rfl)) hl
  | insertLoad r n =>
    have hn : n ∈ (Pc.insertLoad r n).refs := by simp [Pc.refs]
    exact ⟨(rk n hn).trans hl.1, va n hn hl.2⟩
  | insertFlush r n =>
    have hn : n ∈ (Pc.insertFlush r n).refs := by simp [Pc.refs]
    exact ⟨(rk n hn).trans hl.1, va n hn hl.2⟩
  | insertStore r n =>
    have hn : n ∈ (Pc.insertStore r n).refs := by simp [Pc.refs]
    exact ⟨(rk n hn).trans hl.1, (k.evolves (hr n hn)).allValid hl.2⟩
  | alloc p c => exact k.gap (hr p (by simp [Pc.refs])) (hr c (by simp [Pc.refs])) hl
  | flipLoad p c n =>
    refine ⟨k.gap (hr p (by simp [Pc.refs])) (hr c (by simp [Pc.refs])) hl.1, ?_⟩
    rw [hnode n rfl]
    exact hl.2
  | flipStore p c n old =>
    exact ⟨k.gap (hr p (by simp [Pc.refs])) (hr c (by simp [Pc.refs])) hl.1, hl.2⟩
  | initInsertFlag p c n =>
    refine ⟨k.gap (hr p (by simp [Pc.refs])) (hr c (by simp [Pc.refs])) hl.1, ?_⟩
    rw [hnode n rfl]
    exact hl.2
  | initDeleteFlag p c n =>
    refine ⟨k.gap (hr p (by simp [Pc.refs])) (hr c (by simp [Pc.refs])) hl.1, ?_⟩
    rw [hnode n rfl]
    exact hl.2
  | initKey p c n =>
    refine ⟨k.gap (hr p (by simp [Pc.refs])) (hr c (by simp [Pc.refs])) hl.1, ?_⟩
    rw [hnode n rfl]
    exact hl.2
  | initValue p c n =>
    refine ⟨k.gap (hr p (by simp [Pc.refs])) (hr c (by simp [Pc.refs])) hl.1, ?_⟩
    rw [hnode n rfl]
    exact hl.2
  | initNext p c n =>
    refine ⟨k.gap (hr p (by simp [Pc.refs])) (hr c (by simp [Pc.refs])) hl.1, ?_⟩
    unfold Unlinkable
    rw [hnode n rfl]
    exact hl.2
  | linkCas p c n =>
    refine ⟨k.gap (hr p (by simp [Pc.refs])) (hr c (by simp [Pc.refs])) hl.1, ?_⟩
    unfold Unlinkable
    rw [hnode n rfl]
    exact hl.2
  | lostStore n => trivial
  | lostFree n =>
    change (σ'.node n).next.marked = true ∧ isValid (σ'.node n).metaData = true
    rw [hnode n rfl]
    exact hl
  | removeLoad p n =>
    exact ⟨(rk p (by simp [Pc.refs])).symm ▸ hl.1, (rk n (by simp [Pc.refs])).trans hl.2⟩
  | markCas p n succ =>
    have hn : n ∈ (Pc.markCas p n succ).refs := by simp [Pc.refs]
    exact ⟨(rk p (by simp [Pc.refs])).symm ▸ hl.1, (rk n hn).trans hl.2.1, va n hn hl.2.2.1,
      hl.2.2.2⟩
  | containsHead => trivial
  | containsWalk c => exact hl
  | ret r n => trivial

end LinkFree.List
