import DurableSets.LinkFree.ListStep

namespace LinkFree.List

open Chain

variable {V : Type} {σ σ' : Store V} {R R' : Set Loc} {x y p n c slot : Loc} {op : SetOp V}
  {pc pc' : Pc}

def Pc.retires : Pc → Option Loc
  | .trimFree _ _ n => some n
  | _ => none

def Pc.holds (pc : Pc) : Option Loc := pc.owns <|> pc.retires

def TrimCtx.Fits (op : SetOp V) : TrimCtx → Prop
  | .inFind => ¬ op.IsContains
  | .inRemove => op.IsRemove

def DeleteCtx.Fits (op : SetOp V) : DeleteCtx → Prop
  | .trim c _ => c.Fits op
  | .contains => op.IsContains

def ValidCtx.Fits (op : SetOp V) : ValidCtx → Prop
  | .found => op.IsInsert
  | .linked => op.IsInsert
  | .lost => op.IsInsert
  | .removing _ _ => op.IsRemove
  | .contains => op.IsContains

def Pc.Fits (op : SetOp V) : Pc → Prop
  | .find => ¬ op.IsContains
  | .findTest _ _ => ¬ op.IsContains
  | .findNext _ _ => ¬ op.IsContains
  | .deleteLoad c _ => c.Fits op
  | .deleteFlush c _ => c.Fits op
  | .deleteStore c _ => c.Fits op
  | .trimLoad c _ _ => c.Fits op
  | .trimCas c _ _ _ => c.Fits op
  | .trimFree c _ _ => c.Fits op
  | .validLoad c _ => c.Fits op
  | .validStore c _ _ => c.Fits op
  | .insertLoad r _ => op.IsInsert ∨ (op.IsContains ∧ r = true)
  | .insertFlush r _ => op.IsInsert ∨ (op.IsContains ∧ r = true)
  | .insertStore r _ => op.IsInsert ∨ (op.IsContains ∧ r = true)
  | .removeLoad _ _ => op.IsRemove
  | .markCas _ _ _ => op.IsRemove
  | .containsHead => op.IsContains
  | .containsWalk _ => op.IsContains
  | .ret _ _ => True
  | _ => op.IsInsert

structure Fit (σ : Store V) (R : Set Loc) (op : SetOp V) (pc : Pc) : Prop where
  refs : ∀ r ∈ pc.refs, σ.heap.Live R r
  key : op.key < INT_MAX
  fits : pc.Fits op
  loc : Local σ op pc
  avail : ∀ n, pc.holds = some n → σ.avail n = false
  fresh : ∀ n, pc.owns = some n → ¬ σ.heap.Live R n
  retired : ∀ n, pc.retires = some n → ¬ σ.heap.Linked n

-- a step of a call: its effect, what the call knows after it, and that a slot it starts to
-- hold was held by nobody
def StepOk (σ : Store V) (R : Set Loc) (op : SetOp V) (pc : Pc) (σ' : Store V) (pc' : Pc) :
    Prop :=
  ∃ R', Effect σ R pc.holds R' σ' ∧ Fit σ' R' op pc' ∧
    ∀ n, pc'.holds = some n → pc.holds = some n ∨ σ.avail n = true ∨ σ.heap.Linked n

theorem Fit.stepOk_idle (f : Fit σ R op pc) (hr : ∀ r ∈ pc'.refs, σ.heap.Live R r)
    (hl : Local σ op pc') (hf : pc'.Fits op)
    (ho : pc'.holds = none ∨ (pc'.holds = pc.holds ∧ pc'.owns = pc.owns ∧
      pc'.retires = pc.retires)) : StepOk σ R op pc σ pc' := by
  refine ⟨R, Effect.idle _, ⟨hr, f.key, hf, hl, ?_, ?_, ?_⟩, ?_⟩
  · intro n hn
    rcases ho with ho | ho
    · rw [ho] at hn
      cases hn
    · exact f.avail n (ho.1 ▸ hn)
  · intro n hn
    rcases ho with ho | ho
    · simp [Pc.holds, hn] at ho
    · exact f.fresh n (ho.2.1 ▸ hn)
  · intro n hn
    rcases ho with ho | ho
    · simp [Pc.holds, hn] at ho
    · exact f.retired n (ho.2.2 ▸ hn)
  · intro n hn
    rcases ho with ho | ho
    · rw [ho] at hn
      cases hn
    · exact Or.inl (ho.1 ▸ hn)

theorem Fit.stepOk_touch (f : Fit σ R op pc)
    (e : Effect σ R pc.holds R σ') (hr : ∀ r ∈ pc'.refs, σ.heap.Live R r)
    (hR : ∀ x, σ.heap.Live R x → σ'.heap.Live R x) (hl : Local σ' op pc') (hf : pc'.Fits op)
    (ho : pc'.holds = none) : StepOk σ R op pc σ' pc' := by
  refine ⟨R, e, ⟨fun r h => hR r (hr r h), f.key, hf, hl, ?_, ?_, ?_⟩, ?_⟩
  · intro n hn
    rw [ho] at hn
    cases hn
  · intro n hn
    simp [Pc.holds, hn] at ho
  · intro n hn
    simp [Pc.holds, hn] at ho
  · intro n hn
    rw [ho] at hn
    cases hn

theorem effect_write (hm : MemInv σ R) (h : Option Loc) (live : σ.heap.Live R n) {m : Node V}
    (hk : m.key = (σ.node n).key) (hv : m.value = (σ.node n).value)
    (hn : m.next = (σ.node n).next)
    (hd : isValid (σ.node n).metaData = true → isValid m.metaData = true)
    (hi : m.insertFlag = (σ.node n).insertFlag ∨ AllValid (σ.line n))
    (hf : m.deleteFlag = (σ.node n).deleteFlag ∨ AllMarked (σ.line n)) :
    Effect σ R h R (σ.write n m) := by
  have ev : Evolves (σ.line n) ((σ.line n).write m) :=
    evolves_write hk hv (fun _ => hn) (fun hr => hn ▸ hr) hd
  refine Effect.touch n _ h live ev (by rw [Line.write_cur, hn]) ?_ ?_ ?_ ?_ ?_ ?_
  · exact fun a ha => Line.mem_write.1 ha
  · intro hmk
    rw [Line.write_cur, hn] at hmk
    exact hd (hm.valid live hmk)
  · intro hfl
    refine ev.allValid (hi.elim (fun hi => ?_) id)
    exact hm.insertFlag live (hi ▸ hfl)
  · intro hfl
    refine ev.marked (hf.elim (fun hf => ?_) id)
    exact hm.deleteFlag live (hf ▸ hfl)
  · rintro rfl
    rw [Line.write_cur, hn]
    exact hm.head_alive
  · rintro rfl
    rw [Line.write_cur, hn]
    exact hm.tail_next

theorem effect_flush (hm : MemInv σ R) (h : Option Loc) (live : σ.heap.Live R n) :
    Effect σ R h R (σ.flush n) := by
  have ev := evolves_flush (σ.line n)
  refine Effect.touch n _ h live ev rfl ?_ (hm.valid live) ?_ ?_ ?_ ?_
  · exact fun a ha => Or.inl (Line.mem_flush.1 ha)
  · exact fun hfl => ev.allValid (hm.insertFlag live hfl)
  · exact fun hfl => ev.marked (hm.deleteFlag live hfl)
  · rintro rfl
    exact hm.head_alive
  · rintro rfl
    exact hm.tail_next

theorem write_live {m : Node V} (hn : m.next = (σ.node n).next)
    (hx : σ.heap.Live R x) : (σ.write n m).heap.Live R x := by
  obtain ⟨r, hr, h⟩ := hx
  refine ⟨r, hr, (Heap.reach_congr fun y _ => ?_).2 h⟩
  change ((σ.write n m).node y).next.ref = (σ.node y).next.ref
  rw [node_write]
  split
  · next e => rw [e, hn]
  · rfl

theorem flush_live (hx : σ.heap.Live R x) : (σ.flush n).heap.Live R x := by
  obtain ⟨r, hr, h⟩ := hx
  refine ⟨r, hr, (Heap.reach_congr fun y _ => ?_).2 h⟩
  change ((σ.setLine n _).node y).next.ref = (σ.node y).next.ref
  rw [node_setLine]
  split
  · next e => rw [e]; rfl
  · rfl

theorem Fit.step_find (hm : MemInv σ R) (f : Fit σ R op .find)
    (hn : next σ op slot .find = some (σ', pc')) : StepOk σ R op .find σ' pc' := by
  have hh := hm.head_live
  simp only [next] at hn
  split at hn
  · next c hc =>
    obtain ⟨rfl, rfl⟩ := Prod.mk.inj (Option.some.inj hn)
    have hs : σ.heap.succ head = some c := congrArg Ptr.ref hc
    refine f.stepOk_idle ?_ ?_ f.fits (Or.inl rfl)
    · simp only [Pc.refs, List.mem_cons, List.not_mem_nil, or_false, forall_eq_or_imp, forall_eq]
      exact ⟨hh, hh.succ hs⟩
    · refine ⟨?_, hm.succ_ne_head hh hs⟩
      rw [rank_head]
      exact WithBot.bot_lt_coe _
  · cases hn

theorem afterFind_ok (f : Fit σ R op (.findTest p c))
    (ha : afterFind σ p c op = some pc') (hk : op.key ≤ (σ.node c).key) :
    StepOk σ R op (.findTest p c) σ pc' := by
  have hr := f.refs
  obtain ⟨hp, hc⟩ : rank σ p < (op.key : ℤ) ∧ c ≠ head := f.loc
  have hrc := rank_of_ne σ hc
  have hgap : (σ.node c).key ≠ op.key → Gap σ op p c := fun hne =>
    ⟨hp, by rw [hrc]; exact WithBot.coe_lt_coe.2 (lt_of_le_of_ne hk (Ne.symm hne))⟩
  cases op with
  | insert k v =>
    simp only [afterFind] at ha
    split at ha
    · next he =>
      obtain rfl := Option.some.inj ha
      refine f.stepOk_idle (fun r h => hr r ?_) (hrc.trans (congrArg _ he)) trivial (Or.inl rfl)
      simp only [Pc.refs, ValidCtx.refs, List.mem_cons, List.not_mem_nil, or_false] at h ⊢
      exact Or.inr h
    · next he =>
      obtain rfl := Option.some.inj ha
      exact f.stepOk_idle hr (hgap he) trivial (Or.inl rfl)
  | remove k =>
    simp only [afterFind] at ha
    split at ha
    · next he =>
      obtain rfl := Option.some.inj ha
      exact f.stepOk_idle hr ⟨hp, hrc.trans (congrArg _ he)⟩ trivial (Or.inl rfl)
    · obtain rfl := Option.some.inj ha
      exact f.stepOk_idle (fun r h => by simp [Pc.refs] at h) trivial trivial (Or.inl rfl)
  | contains k => cases ha

theorem Fit.step_findTest (f : Fit σ R op (.findTest p c))
    (hn : next σ op slot (.findTest p c) = some (σ', pc')) :
    StepOk σ R op (.findTest p c) σ' pc' := by
  have hr := f.refs
  obtain ⟨hp, hc⟩ : rank σ p < (op.key : ℤ) ∧ c ≠ head := f.loc
  simp only [next] at hn
  split at hn
  · next hmk =>
    obtain ⟨rfl, rfl⟩ := Prod.mk.inj (Option.some.inj hn)
    exact f.stepOk_idle hr ⟨hp, hmk, fun h => by cases h⟩ f.fits (Or.inl rfl)
  · split at hn
    · next hk =>
      obtain ⟨q, ha, he⟩ := Option.map_eq_some_iff.1 hn
      obtain ⟨rfl, rfl⟩ := Prod.mk.inj he
      exact afterFind_ok f ha hk
    · next hk =>
      obtain ⟨rfl, rfl⟩ := Prod.mk.inj (Option.some.inj hn)
      have hlt : rank σ c < (op.key : ℤ) := by
        rw [rank_of_ne σ hc]
        exact WithBot.coe_lt_coe.2 (not_le.1 hk)
      have hcl := hr c (by simp [Pc.refs])
      refine f.stepOk_idle ?_ ⟨hlt, Or.inl hlt⟩ f.fits (Or.inl rfl)
      simpa [Pc.refs] using hcl

theorem Fit.step_findNext (f : Fit σ R op (.findNext p c)) (hm : MemInv σ R)
    (hn : next σ op slot (.findNext p c) = some (σ', pc')) :
    StepOk σ R op (.findNext p c) σ' pc' := by
  have hr := f.refs
  simp only [next] at hn
  obtain ⟨d, hd, he⟩ := Option.map_eq_some_iff.1 hn
  obtain ⟨rfl, rfl⟩ := Prod.mk.inj he
  have hcl := hr c (by simp [Pc.refs])
  refine f.stepOk_idle ?_ ⟨f.loc.1, hm.succ_ne_head hcl hd⟩ f.fits (Or.inl rfl)
  simp only [Pc.refs, List.mem_cons, List.not_mem_nil, or_false, forall_eq_or_imp, forall_eq]
  exact ⟨hr p (by simp [Pc.refs]), hcl.succ hd⟩

theorem DeleteOk.dead {d : DeleteCtx} (h : DeleteOk σ op n d) : σ.heap.dead n := by
  cases d with
  | trim c p => exact h.2.1
  | contains => exact h.1

theorem DeleteCtx.mem_refs (d : DeleteCtx) (n : Loc) : n ∈ d.refs n := by
  cases d <;> simp [DeleteCtx.refs]

theorem afterDelete_local {d : DeleteCtx} (h : DeleteOk σ op n d) (ha : AllMarked (σ.line n)) :
    Local σ op (afterDelete n d) := by
  cases d with
  | trim c p => exact ⟨h.1, h.2.1, ha, h.2.2⟩
  | contains => trivial

theorem afterDelete_refs {d : DeleteCtx} (hr : ∀ r ∈ d.refs n, σ.heap.Live R r) :
    ∀ r ∈ (afterDelete n d).refs, σ.heap.Live R r := by
  cases d with
  | trim c p => exact hr
  | contains => exact fun r h => by simp [afterDelete, Pc.refs] at h

theorem afterDelete_fits {d : DeleteCtx} (h : d.Fits op) : (afterDelete n d).Fits op := by
  cases d with
  | trim c p => exact h
  | contains => trivial

theorem afterDelete_holds (n : Loc) (d : DeleteCtx) : (afterDelete n d).holds = none := by
  cases d <;> rfl

theorem afterDelete_owns (n : Loc) (d : DeleteCtx) : (afterDelete n d).owns = none := by
  cases d <;> rfl

theorem Fit.step_deleteLoad {d : DeleteCtx} (hm : MemInv σ R) (f : Fit σ R op (.deleteLoad d n))
    (hn : next σ op slot (.deleteLoad d n) = some (σ', pc')) :
    StepOk σ R op (.deleteLoad d n) σ' pc' := by
  simp only [next] at hn
  split at hn
  · next hfl =>
    obtain ⟨rfl, rfl⟩ := Prod.mk.inj (Option.some.inj hn)
    have hnl := f.refs n (d.mem_refs n)
    exact f.stepOk_idle (afterDelete_refs f.refs)
      (afterDelete_local f.loc (hm.deleteFlag hnl hfl)) (afterDelete_fits f.fits)
      (Or.inl (afterDelete_holds n d))
  · obtain ⟨rfl, rfl⟩ := Prod.mk.inj (Option.some.inj hn)
    exact f.stepOk_idle f.refs f.loc f.fits (Or.inl rfl)

theorem Fit.step_deleteFlush {d : DeleteCtx} (hm : MemInv σ R)
    (f : Fit σ R op (.deleteFlush d n))
    (hn : next σ op slot (.deleteFlush d n) = some (σ', pc')) :
    StepOk σ R op (.deleteFlush d n) σ' pc' := by
  simp only [next] at hn
  obtain ⟨rfl, rfl⟩ := Prod.mk.inj (Option.some.inj hn)
  have hnl := f.refs n (d.mem_refs n)
  have e := effect_flush hm (Pc.deleteFlush d n).holds hnl
  refine f.stepOk_touch e f.refs (fun _ => flush_live) ⟨?_, ?_⟩ f.fits rfl
  · exact (e.kept hm).deleteOk f.refs f.loc
  · change AllMarked ((σ.setLine n _).line n)
    rw [line_setLine_self]
    exact allMarked_flush f.loc.dead

theorem Fit.step_deleteStore {d : DeleteCtx} (hm : MemInv σ R)
    (f : Fit σ R op (.deleteStore d n))
    (hn : next σ op slot (.deleteStore d n) = some (σ', pc')) :
    StepOk σ R op (.deleteStore d n) σ' pc' := by
  simp only [next] at hn
  obtain ⟨rfl, rfl⟩ := Prod.mk.inj (Option.some.inj hn)
  have hnl := f.refs n (d.mem_refs n)
  have e := effect_write hm (Pc.deleteStore d n).holds hnl
    (m := { σ.node n with deleteFlag := true }) rfl rfl rfl id (Or.inl rfl) (Or.inr f.loc.2)
  refine f.stepOk_touch e (afterDelete_refs f.refs) (fun _ => write_live rfl) ?_
    (afterDelete_fits f.fits) (afterDelete_holds n d)
  refine (e.kept hm).local (afterDelete_refs f.refs) (fun m hm' => ?_)
    (afterDelete_local f.loc.1 f.loc.2)
  rw [afterDelete_owns] at hm'
  cases hm'

theorem afterTrim_local {t : TrimCtx} (h : TrimOk σ op t p n) :
    Local σ op (afterTrim p n t) := by
  cases t with
  | inFind => exact ⟨h.1, Or.inr h.2.1⟩
  | inRemove => trivial

theorem afterTrim_refs {t : TrimCtx} (hp : σ.heap.Live R p) (hn : σ.heap.Live R n) :
    ∀ r ∈ (afterTrim p n t).refs, σ.heap.Live R r := by
  cases t with
  | inFind => simpa [afterTrim, Pc.refs] using ⟨hp, hn⟩
  | inRemove => exact fun r h => by simp [afterTrim, Pc.refs] at h

theorem afterTrim_fits {t : TrimCtx} (h : t.Fits op) : (afterTrim p n t).Fits op := by
  cases t with
  | inFind => exact h
  | inRemove => trivial

theorem afterTrim_holds (p n : Loc) (t : TrimCtx) : (afterTrim p n t).holds = none := by
  cases t <;> rfl

theorem Fit.step_trimLoad {t : TrimCtx} (f : Fit σ R op (.trimLoad t p n))
    (hn : next σ op slot (.trimLoad t p n) = some (σ', pc')) :
    StepOk σ R op (.trimLoad t p n) σ' pc' := by
  simp only [next] at hn
  obtain ⟨rfl, rfl⟩ := Prod.mk.inj (Option.some.inj hn)
  have hd : (σ.node n).next.marked = true := f.loc.2.1
  have hnl := f.refs n (by simp [Pc.refs])
  refine f.stepOk_idle ?_ ⟨f.loc, rfl, ?_⟩ f.fits (Or.inl rfl)
  · intro r hr
    simp only [Pc.refs, ptrRefs, Ptr.getRef, List.mem_cons, Option.mem_toList] at hr
    rcases hr with rfl | rfl | hr
    · exact f.refs r (by simp [Pc.refs])
    · exact hnl
    · exact hnl.succ hr
  · cases hx : (σ.node n).next
    rw [hx] at hd
    simp_all [Ptr.getRef, Ptr.mark]

theorem Fit.step_trimCas {t : TrimCtx} {succ : Ptr} (hm : MemInv σ R)
    (f : Fit σ R op (.trimCas t p n succ)) (hroot : ∀ r ∈ (Pc.trimCas t p n succ).refs, r ∈ R)
    (hn : next σ op slot (.trimCas t p n succ) = some (σ', pc')) :
    StepOk σ R op (.trimCas t p n succ) σ' pc' := by
  have hpl := f.refs p (by simp [Pc.refs])
  have hnl := f.refs n (by simp [Pc.refs])
  obtain ⟨hok, hum, hsn⟩ := f.loc
  simp only [next] at hn
  split at hn
  · next hnext =>
    obtain ⟨rfl, rfl⟩ := Prod.mk.inj (Option.some.inj hn)
    have e := Effect.unlink p n succ (Pc.trimCas t p n succ).holds hpl hnext hum hsn hok.2.2.1
    have k := e.kept hm
    have hlink := hm.good.alive hpl (alive_of_addr hnext)
    have hnlink : σ.heap.Linked n := hlink.tail (succ_of_addr hnext)
    have hav : σ.avail n = false := by
      by_contra h
      exact (hm.avail (by simpa using h)).2 hnlink
    refine ⟨R, e, ⟨?_, f.key, f.fits, k.trimOk hpl hnl hok, ?_, ?_, ?_⟩, ?_⟩
    · intro r hr
      refine Heap.Live.root (hroot r ?_)
      simp only [Pc.refs, List.mem_cons, List.not_mem_nil, or_false] at hr ⊢
      exact hr.imp_right Or.inl
    · intro m hm'
      obtain rfl : n = m := Option.some.inj hm'
      exact hav
    · intro m hm'
      cases hm'
    · intro m hm'
      obtain rfl : n = m := Option.some.inj hm'
      exact fun h => ((unlink_linked hm hpl hnext hum hsn).1 h).2 rfl
    · intro m hm'
      obtain rfl : n = m := Option.some.inj hm'
      exact Or.inr (Or.inr hnlink)
  · obtain ⟨rfl, rfl⟩ := Prod.mk.inj (Option.some.inj hn)
    exact f.stepOk_idle (afterTrim_refs hpl hnl) (afterTrim_local hok) (afterTrim_fits f.fits)
      (Or.inl (afterTrim_holds p n t))

theorem Fit.step_trimFree {t : TrimCtx} (hm : MemInv σ R) (f : Fit σ R op (.trimFree t p n))
    (hn : next σ op slot (.trimFree t p n) = some (σ', pc')) :
    StepOk σ R op (.trimFree t p n) σ' pc' := by
  have hpl := f.refs p (by simp [Pc.refs])
  have hnl := f.refs n (by simp [Pc.refs])
  simp only [next] at hn
  obtain ⟨rfl, rfl⟩ := Prod.mk.inj (Option.some.inj hn)
  have e : Effect σ R (Pc.trimFree t p n).holds R (σ.give n) :=
    Effect.give n (f.retired n rfl) (hm.valid hnl f.loc.2.1)
  exact f.stepOk_touch e (afterTrim_refs hpl hnl) (fun _ h => h) (afterTrim_local f.loc)
    (afterTrim_fits f.fits) (afterTrim_holds p n t)

theorem ValidOk.rank {d : ValidCtx} (h : ValidOk σ op n d) (hd : d ≠ .lost) :
    rank σ n = (op.key : ℤ) := by
  cases d with
  | lost => exact absurd rfl hd
  | removing p succ => exact h.2.1
  | _ => exact h

theorem ValidCtx.mem_refs {d : ValidCtx} (n : Loc) (hd : d ≠ .lost) : n ∈ d.refs n := by
  cases d <;> simp_all [ValidCtx.refs]

theorem afterValid_local {d : ValidCtx} (h : ValidOk σ op n d)
    (hv : isValid (σ.node n).metaData = true) : Local σ op (afterValid n d) := by
  cases d with
  | found => exact ⟨h, hv⟩
  | linked => exact ⟨h, hv⟩
  | lost => exact ⟨h, hv⟩
  | removing p succ => exact ⟨h.1, h.2.1, hv, h.2.2⟩
  | contains => exact ⟨h, hv⟩

theorem afterValid_refs {d : ValidCtx} (hr : ∀ r ∈ d.refs n, σ.heap.Live R r) :
    ∀ r ∈ (afterValid n d).refs, σ.heap.Live R r := by
  cases d with
  | lost => exact fun r h => by simp [afterValid, Pc.refs] at h
  | _ => exact hr

theorem afterValid_fits {d : ValidCtx} (h : d.Fits op) : (afterValid n d).Fits op := by
  cases d with
  | lost => exact h
  | removing p succ => exact h
  | contains => exact Or.inr ⟨h, rfl⟩
  | _ => exact Or.inl h

theorem afterValid_holds {d : ValidCtx} (n : Loc) (hd : d ≠ .lost) :
    (afterValid n d).holds = none := by
  cases d <;> first | rfl | exact absurd rfl hd

theorem holds_validStore {d : ValidCtx} (n : Loc) (old : Uchar) (hd : d ≠ .lost) :
    (Pc.validStore d n old).holds = none := by
  cases d <;> first | rfl | exact absurd rfl hd

theorem Fit.step_validLoad {d : ValidCtx} (f : Fit σ R op (.validLoad d n))
    (hn : next σ op slot (.validLoad d n) = some (σ', pc')) :
    StepOk σ R op (.validLoad d n) σ' pc' := by
  simp only [next] at hn
  split at hn
  · next hv =>
    obtain ⟨rfl, rfl⟩ := Prod.mk.inj (Option.some.inj hn)
    refine f.stepOk_idle (afterValid_refs f.refs) (afterValid_local f.loc hv)
      (afterValid_fits f.fits) ?_
    by_cases hd : d = .lost
    · subst hd
      exact Or.inr ⟨rfl, rfl, rfl⟩
    · exact Or.inl (afterValid_holds n hd)
  · obtain ⟨rfl, rfl⟩ := Prod.mk.inj (Option.some.inj hn)
    refine f.stepOk_idle f.refs f.loc f.fits ?_
    by_cases hd : d = .lost
    · subst hd
      exact Or.inr ⟨rfl, rfl, rfl⟩
    · exact Or.inl (holds_validStore n _ hd)

theorem Fit.stepOk_priv (f : Fit σ R op pc) {m : Node V} (ho : pc.owns = some n)
    (ho' : pc'.owns = some n) (hlost : ¬ m.recovered = true)
    (hr : ∀ r ∈ pc'.refs, σ.heap.Live R r) (hf : pc'.Fits op)
    (hl : Local (σ.write n m) op pc') : StepOk σ R op pc (σ.write n m) pc' := by
  have hh : pc.holds = some n := by simp [Pc.holds, ho]
  have hh' : pc'.holds = some n := by simp [Pc.holds, ho']
  have hfresh := f.fresh n ho
  have hav := f.avail n hh
  have st := priv_steady (m := m) hfresh
  refine ⟨R, hh ▸ Effect.priv n m hfresh hav hlost,
    ⟨fun r h => st.live.2 (hr r h), f.key, hf, hl, ?_, ?_, ?_⟩, ?_⟩
  · intro k hk
    obtain rfl : n = k := Option.some.inj (hh'.symm.trans hk)
    exact hav
  · intro k hk
    obtain rfl : n = k := Option.some.inj (ho'.symm.trans hk)
    exact fun h => hfresh (st.live.1 h)
  · intro k hk
    cases pc' <;> simp_all [Pc.retires, Pc.owns]
  · intro k hk
    exact Or.inl (hh.trans (hh'.symm.trans hk))

theorem Fit.step_validStore {d : ValidCtx} {old : Uchar} (hm : MemInv σ R)
    (f : Fit σ R op (.validStore d n old))
    (hn : next σ op slot (.validStore d n old) = some (σ', pc')) :
    StepOk σ R op (.validStore d n old) σ' pc' := by
  simp only [next] at hn
  obtain ⟨rfl, rfl⟩ := Prod.mk.inj (Option.some.inj hn)
  have hval : isValid ((σ.write n { σ.node n with metaData := makeValid old }).node n).metaData =
      true := by
    rw [node_write, if_pos rfl]
    exact isValid_makeValid old
  by_cases hd : d = .lost
  · subst hd
    have hmk : (σ.node n).next.marked = true := f.loc
    refine f.stepOk_priv rfl rfl (not_recovered_of_marked hmk) (afterValid_refs f.refs) f.fits
      ⟨?_, hval⟩
    rw [node_write, if_pos rfl]
    exact hmk
  · have hnl := f.refs n (ValidCtx.mem_refs n hd)
    have e := effect_write hm (Pc.validStore d n old).holds hnl
      (m := { σ.node n with metaData := makeValid old }) rfl rfl rfl
      (fun _ => isValid_makeValid old) (Or.inl rfl) (Or.inl rfl)
    refine f.stepOk_touch e (afterValid_refs f.refs) (fun _ => write_live rfl) ?_
      (afterValid_fits f.fits) (afterValid_holds n hd)
    exact afterValid_local ((e.kept hm).validOk f.refs (fun h => absurd h hd) f.loc) hval

theorem Fit.step_insertLoad {r : Bool} (f : Fit σ R op (.insertLoad r n))
    (hn : next σ op slot (.insertLoad r n) = some (σ', pc')) :
    StepOk σ R op (.insertLoad r n) σ' pc' := by
  simp only [next] at hn
  split at hn
  · obtain ⟨rfl, rfl⟩ := Prod.mk.inj (Option.some.inj hn)
    exact f.stepOk_idle (fun r h => by simp [Pc.refs] at h) trivial trivial (Or.inl rfl)
  · obtain ⟨rfl, rfl⟩ := Prod.mk.inj (Option.some.inj hn)
    exact f.stepOk_idle f.refs f.loc f.fits (Or.inl rfl)

theorem Fit.step_insertFlush {r : Bool} (hm : MemInv σ R) (f : Fit σ R op (.insertFlush r n))
    (hn : next σ op slot (.insertFlush r n) = some (σ', pc')) :
    StepOk σ R op (.insertFlush r n) σ' pc' := by
  simp only [next] at hn
  obtain ⟨rfl, rfl⟩ := Prod.mk.inj (Option.some.inj hn)
  have hnl := f.refs n (by simp [Pc.refs])
  have e := effect_flush hm (Pc.insertFlush r n).holds hnl
  have htail := hm.ne_tail_of_rank f.key f.loc.1.le
  refine f.stepOk_touch e f.refs (fun _ => flush_live) ⟨?_, ?_⟩ f.fits rfl
  · exact ((e.kept hm).rank_eq hnl).trans f.loc.1
  · change AllValid ((σ.setLine n _).line n)
    rw [line_setLine_self]
    exact allValid_flush f.loc.2 (hm.complete hnl htail)

theorem Fit.step_insertStore {r : Bool} (hm : MemInv σ R) (f : Fit σ R op (.insertStore r n))
    (hn : next σ op slot (.insertStore r n) = some (σ', pc')) :
    StepOk σ R op (.insertStore r n) σ' pc' := by
  simp only [next] at hn
  obtain ⟨rfl, rfl⟩ := Prod.mk.inj (Option.some.inj hn)
  have hnl := f.refs n (by simp [Pc.refs])
  have e := effect_write hm (Pc.insertStore r n).holds hnl
    (m := { σ.node n with insertFlag := true }) rfl rfl rfl id (Or.inr f.loc.2) (Or.inl rfl)
  exact f.stepOk_touch e (fun r h => by simp [Pc.refs] at h) (fun _ => write_live rfl) trivial
    trivial rfl

theorem Fit.step_alloc (f : Fit σ R op (.alloc p c)) (hm : MemInv σ R)
    (hs : σ.avail slot = true ∧ ¬ σ.heap.Live R slot)
    (hn : next σ op slot (.alloc p c) = some (σ', pc')) :
    StepOk σ R op (.alloc p c) σ' pc' := by
  simp only [next] at hn
  obtain ⟨rfl, rfl⟩ := Prod.mk.inj (Option.some.inj hn)
  refine ⟨R, Effect.take slot _ hs.1 hs.2, ⟨f.refs, f.key, f.fits, ⟨f.loc, (hm.avail hs.1).1⟩,
    ?_, ?_, ?_⟩, ?_⟩
  · intro k hk
    obtain rfl : slot = k := Option.some.inj hk
    simp [Store.take]
  · intro k hk
    obtain rfl : slot = k := Option.some.inj hk
    exact hs.2
  · intro k hk
    cases hk
  · intro k hk
    obtain rfl : slot = k := Option.some.inj hk
    exact Or.inr (Or.inl hs.1)

theorem Fit.step_flipLoad (f : Fit σ R op (.flipLoad p c n))
    (hn : next σ op slot (.flipLoad p c n) = some (σ', pc')) :
    StepOk σ R op (.flipLoad p c n) σ' pc' := by
  simp only [next] at hn
  obtain ⟨rfl, rfl⟩ := Prod.mk.inj (Option.some.inj hn)
  exact f.stepOk_idle f.refs f.loc f.fits (Or.inr ⟨rfl, rfl, rfl⟩)

theorem Gap.priv {m : Node V} (hg : Gap σ op p c) (hn : ¬ σ.heap.Live R n)
    (hp : σ.heap.Live R p) (hc : σ.heap.Live R c) : Gap (σ.write n m) op p c := by
  have st := priv_steady (m := m) hn
  unfold Gap
  rw [show rank (σ.write n m) p = rank σ p from st.rank hp,
    show rank (σ.write n m) c = rank σ c from st.rank hc]
  exact hg

theorem Fit.stepOk_init (f : Fit σ R op pc) {m : Node V} (ho : pc.owns = some n)
    (ho' : pc'.owns = some n) (hr : pc.refs = [p, c]) (hr' : pc'.refs = [p, c])
    (hg : Gap σ op p c) (hv : ¬ isValid m.metaData = true) (hf : pc'.Fits op)
    (hl : Gap (σ.write n m) op p c → (σ.write n m).node n = m → Local (σ.write n m) op pc') :
    StepOk σ R op pc (σ.write n m) pc' := by
  have hpl := f.refs p (by simp [hr])
  have hcl := f.refs c (by simp [hr])
  refine f.stepOk_priv ho ho' (not_recovered_of_invalid hv) ?_ hf ?_
  · rw [hr', ← hr]
    exact f.refs
  · exact hl (hg.priv (f.fresh n ho) hpl hcl) (by rw [node_write, if_pos rfl])

theorem Fit.step_flipStore {old : Uchar} (f : Fit σ R op (.flipStore p c n old))
    (hn : next σ op slot (.flipStore p c n old) = some (σ', pc')) :
    StepOk σ R op (.flipStore p c n old) σ' pc' := by
  simp only [next] at hn
  obtain ⟨rfl, rfl⟩ := Prod.mk.inj (Option.some.inj hn)
  have hv : ¬ isValid (flipV1 old) = true := by
    rw [isValid_flipV1, f.loc.2]
    exact Bool.false_ne_true
  refine f.stepOk_init rfl rfl rfl rfl f.loc.1 hv f.fits fun hg hself => ⟨hg, ?_⟩
  rw [hself]
  exact hv

theorem Fit.step_initInsertFlag (f : Fit σ R op (.initInsertFlag p c n))
    (hn : next σ op slot (.initInsertFlag p c n) = some (σ', pc')) :
    StepOk σ R op (.initInsertFlag p c n) σ' pc' := by
  simp only [next] at hn
  obtain ⟨rfl, rfl⟩ := Prod.mk.inj (Option.some.inj hn)
  refine f.stepOk_init rfl rfl rfl rfl f.loc.1 f.loc.2 f.fits fun hg hself => ⟨hg, ?_⟩
  rw [hself]
  exact ⟨f.loc.2, rfl⟩

theorem Fit.step_initDeleteFlag (f : Fit σ R op (.initDeleteFlag p c n))
    (hn : next σ op slot (.initDeleteFlag p c n) = some (σ', pc')) :
    StepOk σ R op (.initDeleteFlag p c n) σ' pc' := by
  simp only [next] at hn
  obtain ⟨rfl, rfl⟩ := Prod.mk.inj (Option.some.inj hn)
  obtain ⟨hg, hv, hi⟩ := f.loc
  refine f.stepOk_init rfl rfl rfl rfl hg hv f.fits fun hg hself => ⟨hg, ?_⟩
  rw [hself]
  exact ⟨hv, hi, rfl⟩

theorem Fit.step_initKey (f : Fit σ R op (.initKey p c n))
    (hn : next σ op slot (.initKey p c n) = some (σ', pc')) :
    StepOk σ R op (.initKey p c n) σ' pc' := by
  simp only [next] at hn
  obtain ⟨rfl, rfl⟩ := Prod.mk.inj (Option.some.inj hn)
  obtain ⟨hg, hv, hi, hd⟩ := f.loc
  refine f.stepOk_init rfl rfl rfl rfl hg hv f.fits fun hg hself => ⟨hg, ?_⟩
  rw [hself]
  exact ⟨hv, hi, hd, rfl⟩

theorem Fit.step_initValue (f : Fit σ R op (.initValue p c n))
    (hn : next σ op slot (.initValue p c n) = some (σ', pc')) :
    StepOk σ R op (.initValue p c n) σ' pc' := by
  obtain ⟨hg, hv, hi, hd, hk⟩ := f.loc
  cases op with
  | insert k v =>
    simp only [next] at hn
    obtain ⟨rfl, rfl⟩ := Prod.mk.inj (Option.some.inj hn)
    refine f.stepOk_init rfl rfl rfl rfl hg hv f.fits fun hg hself => ⟨hg, ?_⟩
    unfold Unlinkable
    rw [hself]
    refine ⟨hv, hi, hd, hk, fun k' v' h => ?_⟩
    injection h
  | remove k => cases hn
  | contains k => cases hn

theorem Fit.step_initNext (f : Fit σ R op (.initNext p c n))
    (hn : next σ op slot (.initNext p c n) = some (σ', pc')) :
    StepOk σ R op (.initNext p c n) σ' pc' := by
  simp only [next] at hn
  obtain ⟨rfl, rfl⟩ := Prod.mk.inj (Option.some.inj hn)
  obtain ⟨hg, hv, hi, hd, hu⟩ := f.loc
  refine f.stepOk_init rfl rfl rfl rfl hg hv f.fits fun hg hself => ⟨hg, ?_⟩
  unfold Unlinkable
  rw [hself]
  exact ⟨hv, hi, hd, hu, rfl⟩

theorem Fit.step_linkCas (f : Fit σ R op (.linkCas p c n)) (hm : MemInv σ R)
    (hn : next σ op slot (.linkCas p c n) = some (σ', pc')) :
    StepOk σ R op (.linkCas p c n) σ' pc' := by
  have hpl := f.refs p (by simp [Pc.refs])
  have hfresh := f.fresh n rfl
  have hav := f.avail n rfl
  obtain ⟨hg, hv, hi, hd, hu, hnn⟩ := f.loc
  simp only [next] at hn
  split at hn
  · next hnext =>
    obtain ⟨rfl, rfl⟩ := Prod.mk.inj (Option.some.inj hn)
    have hne : n ≠ p := fun e => hfresh (e ▸ hpl)
    have hnh : n ≠ head := by
      rintro rfl
      exact hfresh hm.head_live
    have e : Effect σ R (some n) (insert n R) (σ.write p { σ.node p with next := Ptr.addr n }) :=
      Effect.link p n c hpl hnext hfresh hav hnn (by rw [hu.1]; exact hg.1)
        (by rw [hu.1]; exact hg.2) (by rw [hu.1]; exact f.key) hi hd
    refine ⟨insert n R, e, ⟨?_, f.key, f.fits, ?_, ?_, ?_, ?_⟩, ?_⟩
    · intro r hr
      obtain rfl : r = n := by simpa [Pc.refs, ValidCtx.refs] using hr
      exact Heap.Live.root (Set.mem_insert _ _)
    · change rank _ n = _
      rw [next_rank, rank_of_ne σ hnh, hu.1]
    · exact fun k hk => by cases hk
    · exact fun k hk => by cases hk
    · exact fun k hk => by cases hk
    · exact fun k hk => by cases hk
  · obtain ⟨rfl, rfl⟩ := Prod.mk.inj (Option.some.inj hn)
    exact f.stepOk_idle (fun r h => by simp [Pc.refs] at h) trivial f.fits
      (Or.inr ⟨rfl, rfl, rfl⟩)

theorem Fit.step_lostStore (f : Fit σ R op (.lostStore n))
    (hn : next σ op slot (.lostStore n) = some (σ', pc')) :
    StepOk σ R op (.lostStore n) σ' pc' := by
  simp only [next] at hn
  obtain ⟨rfl, rfl⟩ := Prod.mk.inj (Option.some.inj hn)
  refine f.stepOk_priv rfl rfl (not_recovered_of_marked rfl) (fun r h => ?_) f.fits ?_
  · simp [Pc.refs, ValidCtx.refs] at h
  · change ((σ.write n _).node n).next.marked = true
    rw [node_write, if_pos rfl]
    rfl

theorem Fit.step_lostFree (f : Fit σ R op (.lostFree n)) (hm : MemInv σ R)
    (hn : next σ op slot (.lostFree n) = some (σ', pc')) :
    StepOk σ R op (.lostFree n) σ' pc' := by
  simp only [next] at hn
  obtain ⟨rfl, rfl⟩ := Prod.mk.inj (Option.some.inj hn)
  have e : Effect σ R (Pc.lostFree n).holds R (σ.give n) :=
    Effect.give n (fun h => f.fresh n rfl (hm.good.live_of_linked h)) f.loc.2
  refine f.stepOk_touch e (fun r h => by simp [Pc.refs] at h) (fun _ h => h) trivial ?_ rfl
  intro h
  have := f.fits
  cases op <;> simp_all [Pc.Fits, SetOp.IsContains, SetOp.IsInsert]

theorem Fit.step_removeLoad (f : Fit σ R op (.removeLoad p n))
    (hn : next σ op slot (.removeLoad p n) = some (σ', pc')) :
    StepOk σ R op (.removeLoad p n) σ' pc' := by
  simp only [next] at hn
  obtain ⟨rfl, rfl⟩ := Prod.mk.inj (Option.some.inj hn)
  have hnl := f.refs n (by simp [Pc.refs])
  refine f.stepOk_idle ?_ ⟨f.loc.1, f.loc.2, rfl⟩ f.fits (Or.inl rfl)
  intro r hr
  simp only [Pc.refs, ValidCtx.refs, ptrRefs, Ptr.getRef, List.mem_cons, Option.mem_toList] at hr
  rcases hr with rfl | rfl | hr
  · exact f.refs r (by simp [Pc.refs])
  · exact hnl
  · exact hnl.succ hr

theorem Fit.step_markCas {succ : Ptr} (f : Fit σ R op (.markCas p n succ)) (hm : MemInv σ R)
    (hn : next σ op slot (.markCas p n succ) = some (σ', pc')) :
    StepOk σ R op (.markCas p n succ) σ' pc' := by
  have hpl := f.refs p (by simp [Pc.refs])
  have hnl := f.refs n (by simp [Pc.refs])
  obtain ⟨hp, hrn, hv, hum⟩ := f.loc
  simp only [next] at hn
  split at hn
  · next hnext =>
    obtain ⟨rfl, rfl⟩ := Prod.mk.inj (Option.some.inj hn)
    have hnh := ne_head_of_rank hrn
    have hnt := hm.ne_tail_of_rank f.key hrn.le
    have hal : ¬ (σ.line n).cur.next.marked = true := by
      change ¬ (σ.node n).next.marked = true
      rw [hnext, hum]
      exact Bool.false_ne_true
    have ev : Evolves (σ.line n) ((σ.line n).write { σ.node n with next := succ.mark }) :=
      evolves_write rfl rfl (fun h => absurd h hal) (fun h => by rw [← hnext]; exact h) id
    have e : Effect σ R (Pc.markCas p n succ).holds R
        (σ.write n { σ.node n with next := succ.mark }) :=
      Effect.touch n _ _ hnl ev (by rw [hnext]; rfl) (fun a ha => Line.mem_write.1 ha)
        (fun _ => hv) (fun h => ev.allValid (hm.insertFlag hnl h))
        (fun h => ev.marked (hm.deleteFlag hnl h)) (fun h => absurd h hnh)
        (fun h => absurd h hnt)
    have k := e.kept hm
    have st := touch_steady (R := R) ev (by rw [hnext]; rfl)
    have hrefs : ∀ r ∈ (Pc.deleteLoad (.trim .inRemove p) n).refs, σ.heap.Live R r := by
      intro r hr
      simp only [Pc.refs, DeleteCtx.refs, List.mem_cons, List.not_mem_nil, or_false] at hr
      rcases hr with rfl | rfl
      · exact hpl
      · exact hnl
    refine f.stepOk_touch e hrefs (fun x hx => st.live.2 hx) ⟨?_, ?_, fun _ => ?_⟩ f.fits rfl
    · exact (k.rank_eq hpl).symm ▸ hp
    · change ((σ.write n _).node n).next.marked = true
      rw [node_write, if_pos rfl]
      rfl
    · exact (k.rank_eq hnl).trans hrn
  · obtain ⟨rfl, rfl⟩ := Prod.mk.inj (Option.some.inj hn)
    refine f.stepOk_idle (fun r h => by simp [Pc.refs] at h) trivial ?_ (Or.inl rfl)
    intro h
    have := f.fits
    cases op <;> simp_all [Pc.Fits, SetOp.IsContains, SetOp.IsRemove]

theorem Fit.step_containsHead (f : Fit σ R op .containsHead) (hm : MemInv σ R)
    (hn : next σ op slot .containsHead = some (σ', pc')) :
    StepOk σ R op .containsHead σ' pc' := by
  simp only [next] at hn
  split at hn
  · next c hc =>
    obtain ⟨rfl, rfl⟩ := Prod.mk.inj (Option.some.inj hn)
    have hs : σ.heap.succ head = some c := congrArg Ptr.ref hc
    refine f.stepOk_idle ?_ (hm.succ_ne_head hm.head_live hs) f.fits (Or.inl rfl)
    intro r hr
    obtain rfl : r = c := by simpa [Pc.refs] using hr
    exact hm.head_live.succ hs
  · cases hn

theorem Fit.step_containsWalk (f : Fit σ R op (.containsWalk c)) (hm : MemInv σ R)
    (hn : next σ op slot (.containsWalk c) = some (σ', pc')) :
    StepOk σ R op (.containsWalk c) σ' pc' := by
  have hcl := f.refs c (by simp [Pc.refs])
  simp only [next] at hn
  split at hn
  · obtain ⟨d, hd, he⟩ := Option.map_eq_some_iff.1 hn
    obtain ⟨rfl, rfl⟩ := Prod.mk.inj he
    refine f.stepOk_idle ?_ (hm.succ_ne_head hcl hd) f.fits (Or.inl rfl)
    intro r hr
    obtain rfl : r = d := by simpa [Pc.refs] using hr
    exact hcl.succ hd
  · split at hn
    · obtain ⟨rfl, rfl⟩ := Prod.mk.inj (Option.some.inj hn)
      exact f.stepOk_idle (fun r h => by simp [Pc.refs] at h) trivial trivial (Or.inl rfl)
    · next hk =>
      have hrk : rank σ c = (op.key : ℤ) := by
        rw [rank_of_ne σ f.loc, not_not.1 hk]
      split at hn
      · next hmk =>
        obtain ⟨rfl, rfl⟩ := Prod.mk.inj (Option.some.inj hn)
        exact f.stepOk_idle f.refs ⟨hmk, hrk⟩ f.fits (Or.inl rfl)
      · obtain ⟨rfl, rfl⟩ := Prod.mk.inj (Option.some.inj hn)
        exact f.stepOk_idle f.refs hrk f.fits (Or.inl rfl)

theorem Fit.step (hm : MemInv σ R) (f : Fit σ R op pc) (hroot : ∀ r ∈ pc.refs, r ∈ R)
    (hs : ∀ p c, pc = .alloc p c → σ.avail slot = true ∧ ¬ σ.heap.Live R slot)
    (hn : next σ op slot pc = some (σ', pc')) : StepOk σ R op pc σ' pc' := by
  cases pc with
  | find => exact f.step_find hm hn
  | findTest p c => exact f.step_findTest hn
  | findNext p c => exact f.step_findNext hm hn
  | deleteLoad d n => exact f.step_deleteLoad hm hn
  | deleteFlush d n => exact f.step_deleteFlush hm hn
  | deleteStore d n => exact f.step_deleteStore hm hn
  | trimLoad t p n => exact f.step_trimLoad hn
  | trimCas t p n succ => exact f.step_trimCas hm hroot hn
  | trimFree t p n => exact f.step_trimFree hm hn
  | validLoad d n => exact f.step_validLoad hn
  | validStore d n old => exact f.step_validStore hm hn
  | insertLoad r n => exact f.step_insertLoad hn
  | insertFlush r n => exact f.step_insertFlush hm hn
  | insertStore r n => exact f.step_insertStore hm hn
  | alloc p c => exact f.step_alloc hm (hs p c rfl) hn
  | flipLoad p c n => exact f.step_flipLoad hn
  | flipStore p c n old => exact f.step_flipStore hn
  | initInsertFlag p c n => exact f.step_initInsertFlag hn
  | initDeleteFlag p c n => exact f.step_initDeleteFlag hn
  | initKey p c n => exact f.step_initKey hn
  | initValue p c n => exact f.step_initValue hn
  | initNext p c n => exact f.step_initNext hn
  | linkCas p c n => exact f.step_linkCas hm hn
  | lostStore n => exact f.step_lostStore hn
  | lostFree n => exact f.step_lostFree hm hn
  | removeLoad p n => exact f.step_removeLoad hn
  | markCas p n succ => exact f.step_markCas hm hn
  | containsHead => exact f.step_containsHead hm hn
  | containsWalk c => exact f.step_containsWalk hm hn
  | ret r n => cases hn

/-! ### The invariant of the list under any number of threads -/

structure Inv (s : State V) : Prop where
  mem : MemInv s.store s.roots
  fit : ∀ {t op pc}, s.thread t = some (op, pc) → Fit s.store s.roots op pc
  apart : ∀ {t u op op' pc pc' n}, s.thread t = some (op, pc) → s.thread u = some (op', pc') →
    pc.holds = some n → pc'.holds = some n → t = u

variable {s s' : State V} {t u : Tid}

theorem head_mem_roots (s : State V) : head ∈ s.roots := Or.inl rfl

theorem mem_roots (ht : s.thread t = some (op, pc)) {r : Loc} (hr : r ∈ pc.refs) :
    r ∈ s.roots := Or.inr ⟨t, op, pc, ht, hr⟩

theorem roots_goto {a : Option (SetOp V × Pc)} {r : Loc} (hr : r ∈ (s.goto σ t a).roots) :
    r ∈ s.roots ∨ ∃ op pc, a = some (op, pc) ∧ r ∈ pc.refs := by
  rcases hr with hr | ⟨u, op, pc, hu, hr⟩
  · exact Or.inl (Or.inl hr)
  · by_cases he : u = t
    · subst he
      rw [goto_thread_self] at hu
      exact Or.inr ⟨op, pc, hu, hr⟩
    · rw [goto_thread_other _ _ _ he] at hu
      exact Or.inl (mem_roots hu hr)

theorem Recyclable.not_live (hm : MemInv s.store s.roots) (h : s.Recyclable x) :
    ¬ s.store.heap.Live s.roots x := by
  refine hm.not_live_of_avail h.1 ?_
  rintro r (rfl | ⟨t, op, pc, ht, hr⟩) hne
  · exact absurd rfl hne
  · exact h.2 t op pc ht r hr

theorem owns_of_holds (h : pc.holds = some n) : pc.owns = some n ∨ pc.retires = some n := by
  cases ho : pc.owns with
  | none => simpa [Pc.holds, ho] using h
  | some m => exact Or.inl (by simpa [Pc.holds, ho] using h)

theorem holds_of_owns (h : pc.owns = some n) : pc.holds = some n := by simp [Pc.holds, h]

theorem Fit.kept {h : Option Loc} (f : Fit σ R op pc) (k : Kept σ R h R' σ')
    (hroot : ∀ r ∈ pc.refs, r ∈ R) (hne : ∀ n, pc.holds = some n → h ≠ some n) :
    Fit σ' R' op pc where
  refs r hr := Heap.Live.root (k.roots (hroot r hr))
  key := f.key
  fits := f.fits
  loc := k.local f.refs (fun n hn => k.line (hne n (holds_of_owns hn)) (f.fresh n hn)) f.loc
  avail n hn := k.avail (hne n hn) (f.avail n hn)
  fresh n hn := k.fresh (hne n (holds_of_owns hn)) (f.fresh n hn)
  retired n hn := by
    have hl : n ∈ pc.refs := by cases pc <;> simp_all [Pc.retires, Pc.refs]
    exact k.unlinked (f.refs n hl) (f.retired n hn)

theorem Fit.reroot (f : Fit σ R op pc) (hroot : ∀ r ∈ pc.refs, r ∈ R')
    (hR : ∀ r ∈ R', σ.heap.Live R r) : Fit σ R' op pc where
  refs r hr := Heap.Live.root (hroot r hr)
  key := f.key
  fits := f.fits
  loc := f.loc
  avail := f.avail
  fresh n hn h := f.fresh n hn (h.mono hR)
  retired := f.retired

theorem Inv.step_idle (h : Inv s) (a : Option (SetOp V × Pc))
    (hr : ∀ op pc, a = some (op, pc) → pc.refs = [])
    (hf : ∀ op pc, a = some (op, pc) → Fit s.store s.roots op pc)
    (ho : ∀ op pc, a = some (op, pc) → pc.holds = none) : Inv (s.goto s.store t a) := by
  have hroots : ∀ r ∈ (s.goto s.store t a).roots, r ∈ s.roots := by
    intro r hr'
    rcases roots_goto hr' with hr' | ⟨op, pc, ha, hr'⟩
    · exact hr'
    · rw [hr op pc ha] at hr'
      cases hr'
  have hR : ∀ r ∈ (s.goto s.store t a).roots, s.store.heap.Live s.roots r :=
    fun r hr => Heap.Live.root (hroots r hr)
  refine ⟨h.mem.reroot (head_mem_roots _) hR, ?_, ?_⟩
  · intro u op pc hu
    refine Fit.reroot ?_ (fun r hr => mem_roots hu hr) hR
    by_cases he : u = t
    · subst he
      rw [goto_thread_self] at hu
      exact hf op pc hu
    · rw [goto_thread_other _ _ _ he] at hu
      exact h.fit hu
  · intro u w op op' pc pc' n hu hw hpc hpc'
    by_cases he : u = t
    · subst he
      rw [goto_thread_self] at hu
      rw [ho op pc hu] at hpc
      cases hpc
    · by_cases he' : w = t
      · subst he'
        rw [goto_thread_self] at hw
        rw [ho op' pc' hw] at hpc'
        cases hpc'
      · rw [goto_thread_other _ _ _ he] at hu
        rw [goto_thread_other _ _ _ he'] at hw
        exact h.apart hu hw hpc hpc'

theorem roots_tau {h : Option Loc} (k : Kept s.store s.roots h R' σ) (f : Fit σ R' op pc') :
    ∀ r ∈ (s.goto σ t (some (op, pc'))).roots, σ.heap.Live R' r := by
  intro r hr
  rcases roots_goto hr with hr | ⟨op1, pc1, ha, hr⟩
  · exact Heap.Live.root (k.roots hr)
  · obtain ⟨rfl, rfl⟩ := Prod.mk.inj (Option.some.inj ha)
    exact f.refs r hr

theorem Inv.step_tau (h : Inv s) (ht : s.thread t = some (op, pc))
    (ok : StepOk s.store s.roots op pc σ pc') : Inv (s.goto σ t (some (op, pc'))) := by
  obtain ⟨R', e, f, hnew⟩ := ok
  have k := e.kept h.mem
  have hR := roots_tau (t := t) k f
  have hother : ∀ {u op1 pc1 n}, u ≠ t → s.thread u = some (op1, pc1) → pc1.holds = some n →
      pc.holds ≠ some n := fun hne hu hn hn' => hne (h.apart hu ht hn hn')
  have hapart : ∀ {u op1 pc1 n}, u ≠ t → s.thread u = some (op1, pc1) → pc1.holds = some n →
      pc'.holds ≠ some n := by
    intro u op1 pc1 n hne hu hn hn'
    have fu := h.fit hu
    rcases hnew n hn' with hn' | hn' | hn'
    · exact hother hne hu hn hn'
    · rw [fu.avail n hn] at hn'
      cases hn'
    · rcases owns_of_holds hn with ho | ho
      · exact fu.fresh n ho (h.mem.good.live_of_linked hn')
      · exact fu.retired n ho hn'
  refine ⟨(e.memInv h.mem).reroot (head_mem_roots _) hR, ?_, ?_⟩
  · intro u op1 pc1 hu
    refine Fit.reroot ?_ (fun r hr => mem_roots hu hr) hR
    by_cases he : u = t
    · subst he
      rw [goto_thread_self] at hu
      obtain ⟨rfl, rfl⟩ := Prod.mk.inj (Option.some.inj hu)
      exact f
    · rw [goto_thread_other _ _ _ he] at hu
      exact (h.fit hu).kept k (fun r hr => mem_roots hu hr) fun n hn => hother he hu hn
  · intro u w op1 op2 pc1 pc2 n hu hw hn1 hn2
    by_cases he : u = t <;> by_cases he' : w = t
    · rw [he, he']
    · subst he
      rw [goto_thread_self] at hu
      rw [goto_thread_other _ _ _ he'] at hw
      obtain ⟨rfl, rfl⟩ := Prod.mk.inj (Option.some.inj hu)
      exact absurd hn1 (hapart he' hw hn2)
    · subst he'
      rw [goto_thread_self] at hw
      rw [goto_thread_other _ _ _ he] at hu
      obtain ⟨rfl, rfl⟩ := Prod.mk.inj (Option.some.inj hw)
      exact absurd hn2 (hapart he hu hn1)
    · rw [goto_thread_other _ _ _ he] at hu
      rw [goto_thread_other _ _ _ he'] at hw
      exact h.apart hu hw hn1 hn2

theorem start_fit (hk : op.key < INT_MAX) : Fit σ R op (start op) := by
  have hrefs : (start op).refs = [] := by cases op <;> rfl
  have howns : (start op).owns = none := by cases op <;> rfl
  have hret : (start op).retires = none := by cases op <;> rfl
  refine ⟨fun r h => ?_, hk, ?_, ?_, fun n h => ?_, fun n h => ?_, fun n h => ?_⟩
  · rw [hrefs] at h
    cases h
  · cases op <;> simp [start, Pc.Fits, SetOp.IsContains]
  · cases op <;> trivial
  · simp [Pc.holds, howns, hret] at h
  · rw [howns] at h
    cases h
  · rw [hret] at h
    cases h

theorem tau_ok (h : Inv s) (ht : s.thread t = some (op, pc))
    (hn : next s.store op slot pc = some (σ, pc'))
    (hs : ∀ p c, pc = .alloc p c → s.Recyclable slot) :
    StepOk s.store s.roots op pc σ pc' :=
  (h.fit ht).step h.mem (fun _ hr => mem_roots ht hr)
    (fun p c he => ⟨(hs p c he).1, Recyclable.not_live h.mem (hs p c he)⟩) hn

theorem Inv.step (h : Inv s) {e : Event (SetOp V)} (hs : Step s e s') : Inv s' := by
  cases hs with
  | call t op idle hk =>
    refine h.step_idle _ ?_ ?_ ?_ <;> intro op1 pc1 ha <;>
      obtain ⟨rfl, rfl⟩ := Prod.mk.inj (Option.some.inj ha)
    · cases op <;> rfl
    · exact start_fit hk
    · cases op <;> rfl
  | ret t op r n ht =>
    exact h.step_idle none (fun _ _ h => nomatch h) (fun _ _ h => nomatch h)
      (fun _ _ h => nomatch h)
  | tau t op pc pc' slot σ ht hn hs => exact h.step_tau ht (tau_ok h ht hn hs)

theorem initial_node (zero : V) (junk : Uchar) (x : Loc) :
    ((initial zero junk).store.node x).next = if x = head then Ptr.addr tail else Ptr.null := by
  simp only [initial, initialStore, Store.node]
  split
  · rfl
  · split <;> rfl

theorem initial_older (zero : V) (junk : Uchar) (x : Loc) :
    ((initial zero junk).store.line x).older = [] := by
  simp only [initial, initialStore]
  split
  · rfl
  · split <;> rfl

theorem initial_reach (zero : V) (junk : Uchar) (h : (initial zero junk).store.heap.Reach x y) :
    y = x ∨ (x = head ∧ y = tail) := by
  induction h with
  | refl => exact Or.inl rfl
  | @tail b c hb hc ih =>
    have hc' : ((initial zero junk).store.node b).next.ref = some c := hc
    rw [initial_node] at hc'
    split at hc'
    · next he =>
      have hct : tail = c := Option.some.inj hc'
      rcases ih with ih | ⟨_, ih⟩
      · exact Or.inr ⟨ih ▸ he, hct.symm⟩
      · rw [ih] at he
        exact absurd he (by decide)
    · cases hc'

theorem initial_live (zero : V) (junk : Uchar)
    (h : (initial zero junk).store.heap.Live (initial zero junk).roots x) :
    x = head ∨ x = tail := by
  obtain ⟨r, hr, h⟩ := h
  have hrh : r = head := by
    rcases hr with rfl | ⟨t, op, pc, ht, _⟩
    · rfl
    · cases ht
  subst hrh
  rcases initial_reach zero junk h with rfl | ⟨_, rfl⟩
  · exact Or.inl rfl
  · exact Or.inr rfl

theorem inv_initial (zero : V) (junk : Uchar) : Inv (initial zero junk) := by
  have hlink : (initial zero junk).store.heap.Linked tail :=
    Heap.Reach.single (congrArg Ptr.ref (initial_node zero junk head))
  have hlive : ∀ {x}, (initial zero junk).store.heap.Live (initial zero junk).roots x →
      x = head ∨ x = tail := initial_live zero junk
  have hlinked : ∀ {x}, (initial zero junk).store.heap.Linked x → x = head ∨ x = tail :=
    fun h => hlive ⟨head, Or.inl rfl, h⟩
  have hflags : ∀ x, ((initial zero junk).store.node x).insertFlag = false ∧
      ((initial zero junk).store.node x).deleteFlag = false := by
    intro x
    simp only [initial, initialStore, Store.node]
    split
    · exact ⟨rfl, rfl⟩
    · split <;> exact ⟨rfl, rfl⟩
  have hdead : ∀ x, ¬ (initial zero junk).store.heap.dead x := by
    intro x
    change ¬ ((initial zero junk).store.node x).next.marked = true
    rw [initial_node]
    split <;> exact Bool.false_ne_true
  refine ⟨⟨⟨Or.inl rfl, ?_, ?_⟩, ?_, hdead _, hlink, ?_, rfl, ?_, ?_, ?_, ?_, ?_, ?_, ?_⟩, ?_, ?_⟩
  · intro x y _ hs hr
    have hs' : ((initial zero junk).store.node x).next.ref = some y := hs
    rw [initial_node] at hs'
    split at hs'
    · next he =>
      obtain rfl : tail = y := Option.some.inj hs'
      rcases initial_reach zero junk hr with h | ⟨h, _⟩
      · rw [he] at h
        exact absurd h (by decide)
      · exact absurd h (by decide)
    · cases hs'
  · intro x hx _
    rcases hlive hx with rfl | rfl
    · exact Heap.Reach.refl _
    · exact hlink
  · intro x y hx hs
    have hs' : ((initial zero junk).store.node x).next.ref = some y := hs
    rw [initial_node] at hs'
    split at hs'
    · next he =>
      subst he
      obtain rfl : tail = y := Option.some.inj hs'
      change rank (initial zero junk).store head < rank (initial zero junk).store tail
      rw [rank_head, rank_of_ne _ (by decide)]
      exact WithBot.bot_lt_coe _
    · cases hs'
  · rw [initial_node, if_neg (by decide)]
  · intro x hx ht
    rcases hlive hx with rfl | rfl
    · rw [initial_node]
      exact Option.some_ne_none _
    · exact absurd rfl ht
  · intro x hx ht
    rcases hlive hx with rfl | rfl
    · rw [rank_head]
      exact WithBot.bot_lt_coe _
    · exact absurd rfl ht
  · exact fun _ hd => absurd hd (hdead _)
  · intro x _ hf
    rw [(hflags x).1] at hf
    cases hf
  · intro x _ hf
    rw [(hflags x).2] at hf
    cases hf
  · intro x a ha hr
    rw [Line.mem_contents, initial_older] at ha
    obtain rfl : a = (initial zero junk).store.node x := ha.resolve_right List.not_mem_nil
    have hnn := (recovered_iff.1 hr).2.2
    rw [initial_node] at hnn
    split at hnn
    · next he =>
      subst he
      exact ⟨Heap.Reach.refl _, rfl, rfl⟩
    · exact absurd rfl hnn
  · intro x hx
    have hne : x ≠ head ∧ x ≠ tail := by simpa [initial, initialStore] using hx
    refine ⟨?_, fun h => (hlinked h).elim hne.1 hne.2⟩
    simp only [initial, initialStore, Store.node, if_neg hne.1, if_neg hne.2]
    decide
  · exact fun ht => by cases ht
  · exact fun ht => by cases ht

theorem inv_run (ρ : Run (machine V)) : ∀ n ≤ ρ.length, Inv (ρ.state n) := by
  refine ρ.invariant ?_ fun _ _ _ h hs => h.step hs
  rintro s ⟨zero, junk, rfl⟩
  exact inv_initial zero junk

end LinkFree.List
