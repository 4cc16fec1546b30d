import DurableSets.SOFT.SkipListStep

namespace SOFT.SkipList

open Chain

variable {V : Type} {σ σ' : Store V} {L L' : Set Cursor} {x y p n c d s slot : Loc}
  {i j G level : ℕ} {op : SetOp V} {pc pc' : Pc} {path : Path} {q : Ptr} {st : NodeState} {e : Entry}

def FindCtx.Fits (op : SetOp V) : FindCtx → Prop
  | .inInsert _ _ => op.IsInsert
  | .inRemove _ => op.IsRemove

def StateCtx.Fits (op : SetOp V) : StateCtx → Prop
  | .insert _ => op.IsInsert
  | .mark => op.IsRemove
  | .delete _ => op.IsRemove

def Pc.Fits (op : SetOp V) : Pc → Prop
  | .searchDown _ _ _ => ¬ op.IsContains
  | .searchTest _ _ _ _ _ => ¬ op.IsContains
  | .searchNext _ _ _ _ _ => ¬ op.IsContains
  | .findDown c _ _ _ => c.Fits op
  | .findLoad c _ _ _ _ _ _ => c.Fits op
  | .findCas c _ _ _ _ _ _ => c.Fits op
  | .stateTest c _ => c.Fits op
  | .stateLoad c _ => c.Fits op
  | .stateCas c _ _ => c.Fits op
  | .markLoad _ _ => op.IsRemove
  | .markCas _ _ _ => op.IsRemove
  | .destroyStore _ _ => op.IsRemove
  | .destroyFlush _ _ => op.IsRemove
  | .removeFree _ => op.IsRemove
  | .containsDown _ _ => op.IsContains
  | .containsTest _ _ _ => op.IsContains
  | .containsPass _ _ _ => op.IsContains
  | .containsNext _ _ _ => op.IsContains
  | .ret _ => True
  | _ => op.IsInsert

structure Fit (σ : Store V) (L : Set Cursor) (op : SetOp V) (pc : Pc) : Prop where
  refs : ∀ r ∈ pc.refs, r ∈ L
  key : op.key < INTPTR_MAX
  fits : pc.Fits op
  loc : Local σ op pc
  fresh : ∀ c, pc.pending = some c → c ∉ L
  avail : ∀ n, pc.pending = some (n, 0) → σ.avail n = false

-- a step of a call: its effect, what the call knows after it, and that a slot it starts to
-- own was owned by nobody
def StepOk (σ : Store V) (G : ℕ) (L : Set Cursor) (op : SetOp V) (pc : Pc) (σ' : Store V)
    (pc' : Pc) : Prop :=
  ∃ L', Effect σ G L pc.owns L' σ' ∧ Fit σ' L' op pc' ∧
    ∀ n, pc'.owns = some n → pc.owns = some n ∨ (σ.avail n = true ∧ (n, 0) ∉ L)

theorem owns_of_pending {c : Cursor} (h : pc.pending = some c) : pc.owns = some c.1 := by
  rw [Pc.owns, h]
  rfl

theorem pending_of_owns (h : pc.owns = some n) : ∃ i, pc.pending = some (n, i) := by
  obtain ⟨⟨m, i⟩, hc, rfl⟩ := Option.map_eq_some_iff.1 h
  exact ⟨i, hc⟩

theorem Fit.stepOk (f : Fit σ L op pc) (e : Effect σ G L pc.owns L σ')
    (hr : ∀ r ∈ pc'.refs, r ∈ L) (hf : pc'.Fits op) (hl : Local σ' op pc')
    (hp : pc'.pending = none ∨ (pc'.pending = pc.pending ∧ σ'.avail = σ.avail)) :
    StepOk σ G L op pc σ' pc' := by
  refine ⟨L, e, ⟨hr, f.key, hf, hl, ?_, ?_⟩, ?_⟩
  · intro c hc
    rcases hp with hp | hp
    · rw [hp] at hc
      cases hc
    · exact f.fresh c (hp.1 ▸ hc)
  · intro n hn
    rcases hp with hp | hp
    · rw [hp] at hn
      cases hn
    · rw [hp.2]
      exact f.avail n (hp.1 ▸ hn)
  · intro n hn
    rcases hp with hp | hp
    · rw [Pc.owns, hp] at hn
      cases hn
    · rw [Pc.owns, hp.1] at hn
      exact Or.inl hn

theorem Fit.stepOk_idle (f : Fit σ L op pc) (hr : ∀ r ∈ pc'.refs, r ∈ L) (hf : pc'.Fits op)
    (hl : Local σ op pc') (hp : pc'.pending = none ∨ pc'.pending = pc.pending) :
    StepOk σ G L op pc σ pc' :=
  f.stepOk (Effect.idle _) hr hf hl (hp.imp_right fun h => ⟨h, rfl⟩)

theorem rank_lt_of_key (h : (σ.node x).key < op.key) (hx : x ≠ head) :
    rank σ x < (op.key : ℤ) := by
  rw [rank_of_ne σ hx]
  exact WithBot.coe_lt_coe.2 h

theorem le_rank_of_key (h : op.key ≤ (σ.node x).key) (hx : x ≠ head) :
    ((op.key : ℤ) : WithBot ℤ) ≤ rank σ x := by
  rw [rank_of_ne σ hx]
  exact WithBot.coe_le_coe.2 h

theorem rank_eq_of_key (h : (σ.node x).key = op.key) (hx : x ≠ head) :
    rank σ x = (op.key : ℤ) := by
  rw [rank_of_ne σ hx, h]

theorem head_below (σ : Store V) (op : SetOp V) : rank σ head < (op.key : ℤ) := by
  rw [rank_head]
  exact WithBot.bot_lt_coe _

theorem ne_tail_of_rank (hm : MemInv σ G L) (hk : op.key < INTPTR_MAX)
    (h : rank σ n ≤ (op.key : ℤ)) : n ≠ tail := by
  rintro rfl
  rw [hm.tail_rank] at h
  exact absurd (WithBot.coe_le_coe.1 h) (not_le.2 hk)

theorem tagOk_of_alive (hm : MemInv σ G L) (hd : ¬ σ.dead i x) : TagOk i (σ.stateAt i x) :=
  ⟨hd, fun hi => (hm.upper hi).resolve_right hd⟩

theorem keepPath_ok (ho : PathOk σ op (i + 1) path) (hp : rank σ e.pred < (op.key : ℤ))
    (hc : ((op.key : ℤ) : WithBot ℤ) ≤ rank σ e.succ) (ht : TagOk i e.predState) :
    PathOk σ op i (keepPath op e path) := by
  cases op with
  | insert k v =>
    refine ⟨fun h => ?_, fun h => absurd trivial h, ?_, ?_, ?_⟩
    · have := ho.length h
      simp only [keepPath, List.length_cons]
      omega
    · simp only [keepPath, List.mem_cons, forall_eq_or_imp]
      exact ⟨hp, ho.below⟩
    · simp only [keepPath, List.mem_cons, forall_eq_or_imp]
      exact ⟨hc, ho.above⟩
    · intro j e' he
      cases j with
      | zero =>
        obtain rfl : e = e' := by simpa [keepPath] using he
        exact ht
      | succ j =>
        rw [show i + (j + 1) = i + 1 + j by omega]
        exact ho.tag (by simpa [keepPath] using he)
  | remove k =>
    obtain rfl := ho.none id
    exact ⟨fun h => h.elim, ho.none, ho.below, ho.above, nofun⟩
  | contains k =>
    obtain rfl := ho.none id
    exact ⟨fun h => h.elim, ho.none, ho.below, ho.above, nofun⟩

theorem keepPath_refs (ho : PathOk σ op (i + 1) path) (hp : (e.pred, i) ∈ L) (hc : (e.succ, i) ∈ L)
    (hr : ∀ r ∈ Path.refs (i + 1) path, r ∈ L) :
    ∀ r ∈ Path.refs i (keepPath op e path), r ∈ L := by
  have hnil : ¬ op.IsInsert → ∀ r ∈ Path.refs i path, r ∈ L := by
    intro h r hr
    rw [ho.none h] at hr
    cases hr
  cases op with
  | insert k v =>
    simp only [keepPath, Path.refs, List.mem_cons, forall_eq_or_imp]
    exact ⟨hp, hc, hr⟩
  | remove k => exact hnil id
  | contains k => exact hnil id

theorem pathOk_nil (σ : Store V) (op : SetOp V) : PathOk σ op MAX_LEVEL [] := by
  refine ⟨fun _ => by simp, fun _ => rfl, fun e h => ?_, fun e h => ?_, fun h => ?_⟩
  · cases h
  · cases h
  · simp at h

theorem keepPath_eq {c : FindCtx} (h : c.Fits op) : c.keepPath e path = keepPath op e path := by
  cases c with
  | inInsert n i =>
    cases op with
    | insert k v => rfl
    | _ => exact False.elim h
  | inRemove n =>
    cases op with
    | remove k => rfl
    | _ => exact False.elim h

theorem retry_local (σ : Store V) (op : SetOp V) : Local σ op retry :=
  ⟨by decide, head_below σ op, pathOk_nil σ op⟩

theorem retry_refs (hm : MemInv σ G L) : ∀ r ∈ retry.refs, r ∈ L := by
  simp only [retry, Pc.refs, Path.refs, List.mem_singleton, forall_eq]
  exact hm.sound.head_mem (by decide)

theorem mark_refs (hn : (n, 0) ∈ L) : ∀ r ∈ (mark n i).refs, r ∈ L := by
  cases i <;> simpa [mark, Pc.refs, StateCtx.refs] using hn

theorem mark_fits (hf : op.IsRemove) : (mark n i).Fits op := by
  cases i <;> exact hf

theorem mark_local (h : MarkOk σ op n i) : Local σ op (mark n i) := by
  cases i with
  | zero => exact h
  | succ i => exact ⟨h, Nat.le_add_left 1 i⟩

theorem mark_pending (n : Loc) (i : ℕ) : (mark n i).pending = none := by
  cases i <;> rfl

theorem markOk_below (h : MarkOk σ op n i) (hd : σ.dead i n) : MarkOk σ op n (i - 1) := by
  refine ⟨h.rank, (Nat.sub_le i 1).trans_lt h.lt, fun j hj hlt => ?_, h.risen⟩
  by_cases he : j = i
  · exact he ▸ hd
  · exact h.above j (by omega) hlt

theorem afterSearch_ok (hm : MemInv σ G L) (f : Fit σ L op (.searchTest 0 p st c path))
    (hk : op.key ≤ (σ.node c).key) : StepOk σ G L op (.searchTest 0 p st c path) σ
      (afterSearch σ op ⟨p, c, st⟩ (σ.stateAt 0 c) path) := by
  obtain ⟨_, hp, hpath, ht, hc⟩ := f.loc
  have hpl := f.refs (p, 0) (by simp [Pc.refs])
  have hcl := f.refs (c, 0) (by simp [Pc.refs])
  cases op with
  | insert k v =>
    simp only [afterSearch]
    split
    · next he =>
      split
      · exact f.stepOk_idle (fun r h => by cases h) trivial trivial (Or.inl rfl)
      · refine f.stepOk_idle ?_ trivial (rank_eq_of_key he hc) (Or.inl rfl)
        simpa [Pc.refs, InsertCtx.refs] using hcl
    · next he =>
      refine f.stepOk_idle ?_ trivial ⟨?_, ?_⟩ (Or.inl rfl)
      · exact keepPath_refs hpath hpl hcl fun r h => f.refs r (by simp [Pc.refs, h])
      · exact keepPath_ok hpath hp (le_rank_of_key hk hc) ht
      · intro e h
        obtain rfl : (⟨p, c, st⟩ : Entry) = e := by simpa [keepPath] using h
        refine lt_of_le_of_ne (le_rank_of_key hk hc) fun h => he ?_
        rw [rank_of_ne σ hc] at h
        exact (WithBot.coe_injective h).symm
  | remove k =>
    simp only [afterSearch]
    split
    · exact f.stepOk_idle (fun r h => by cases h) trivial trivial (Or.inl rfl)
    · next he =>
      split
      · exact f.stepOk_idle (fun r h => by cases h) trivial trivial (Or.inl rfl)
      · next ho =>
        have hl := (hm.level hcl).1
        refine f.stepOk_idle (mark_refs hcl) (mark_fits trivial) (mark_local ⟨?_, ?_, ?_, ?_⟩)
          (Or.inl (mark_pending _ _))
        · exact rank_eq_of_key (not_ne_iff.1 he) hc
        · exact Nat.sub_one_lt_of_lt hl
        · exact fun j h1 h2 => absurd h1 (by omega)
        · exact fun h => ho (isOut_iff.2 (Or.inr h))
  | contains k => exact f.stepOk_idle (fun r h => by cases h) trivial trivial (Or.inl rfl)

theorem Fit.step_search (hm : MemInv σ G L) (f : Fit σ L op (.searchTest i p st s path))
    (hk : op.key ≤ (σ.node s).key) : StepOk σ G L op (.searchTest i p st s path) σ
      (searchDone σ op ⟨p, s, st⟩ (σ.stateAt i s) path i) := by
  obtain ⟨hi, hp, hpath, ht, hs⟩ := f.loc
  have hpl := f.refs (p, i) (by simp [Pc.refs])
  have hsl := f.refs (s, i) (by simp [Pc.refs])
  cases i with
  | zero => exact afterSearch_ok hm f hk
  | succ i =>
    refine f.stepOk_idle ?_ f.fits ?_ (Or.inl rfl)
    · simp only [searchDone, Pc.refs, List.mem_cons, forall_eq_or_imp]
      refine ⟨hm.sound.closed.down hpl, keepPath_refs hpath hpl hsl fun r h => ?_⟩
      exact f.refs r (by simp [Pc.refs, h])
    · exact ⟨by omega, hp, keepPath_ok hpath hp (le_rank_of_key hk hs) ht⟩

theorem FindCtx.retry_refs {c : FindCtx} (hm : MemInv σ G L) (hc : ∀ r ∈ c.refs, r ∈ L) :
    ∀ r ∈ c.retry.refs, r ∈ L := by
  simp only [FindCtx.retry, Pc.refs, Path.refs, List.append_nil, List.mem_cons, forall_eq_or_imp]
  exact ⟨hm.sound.head_mem (by decide), hc⟩

theorem FindCtx.retry_local {c : FindCtx} (hc : c.Ok σ op) : Local σ op c.retry :=
  ⟨by decide, head_below σ op, pathOk_nil σ op, hc⟩

theorem afterFind_refs {c : FindCtx} (hc : ∀ r ∈ c.refs, r ∈ L)
    (hr : ∀ r ∈ Path.refs 0 path, r ∈ L) : ∀ r ∈ (afterFind c path).refs, r ∈ L := by
  cases c with
  | inInsert n i =>
    simp only [afterFind, Pc.refs, List.mem_cons, forall_eq_or_imp]
    exact ⟨hc _ (by simp [FindCtx.refs]), hr⟩
  | inRemove n => exact hc

theorem afterFind_local {c : FindCtx} (hc : c.Ok σ op) (hp : PathOk σ op 0 path) :
    Local σ op (afterFind c path) := by
  cases c with
  | inInsert n i => exact ⟨hp, hc.1, hc.2.1, hc.2.2.1, hc.2.2.2⟩
  | inRemove n => exact hc

theorem afterFind_fits {c : FindCtx} (hc : c.Fits op) : (afterFind c path).Fits op := by
  cases c <;> exact hc

theorem afterFind_pending (c : FindCtx) (path : Path) : (afterFind c path).pending = c.pending := by
  cases c <;> rfl

theorem findDone_refs {c : FindCtx} (hm : MemInv σ G L) (hf : c.Fits op)
    (hpath : PathOk σ op (i + 1) path) (hp : (e.pred, i) ∈ L) (hd : (e.succ, i) ∈ L)
    (hc : ∀ r ∈ c.refs, r ∈ L) (hr : ∀ r ∈ Path.refs (i + 1) path, r ∈ L) :
    ∀ r ∈ (findDone c e path i).refs, r ∈ L := by
  have hk := keepPath_refs hpath hp hd hr
  rw [← keepPath_eq hf] at hk
  cases i with
  | zero => exact afterFind_refs hc hk
  | succ i =>
    simp only [findDone, Pc.refs, List.mem_cons, List.mem_append, forall_eq_or_imp]
    exact ⟨hm.sound.closed.down hp, fun r h => h.elim (hc r) (hk r)⟩

theorem findDone_local {c : FindCtx} (hf : c.Fits op) (hi : i < MAX_LEVEL)
    (hpath : PathOk σ op (i + 1) path) (hp : rank σ e.pred < (op.key : ℤ))
    (hd : ((op.key : ℤ) : WithBot ℤ) ≤ rank σ e.succ) (ht : TagOk i e.predState) (hc : c.Ok σ op) :
    Local σ op (findDone c e path i) := by
  have hk := keepPath_ok hpath hp hd ht
  rw [← keepPath_eq hf] at hk
  cases i with
  | zero => exact afterFind_local hc hk
  | succ i => exact ⟨by omega, hp, hk, hc⟩

theorem findDone_fits {c : FindCtx} (hf : c.Fits op) : (findDone c e path i).Fits op := by
  cases i with
  | zero => exact afterFind_fits hf
  | succ i => exact hf

theorem findDone_pending (c : FindCtx) (e : Entry) (path : Path) (i : ℕ) :
    (findDone c e path i).pending = c.pending := by
  cases i with
  | zero => exact afterFind_pending _ _
  | succ i => rfl

theorem Fit.step_findWon {c : FindCtx} (hm : MemInv σ G L)
    (f : Fit σ L op (.findCas c i p st d s path)) (hq : (σ.node p).next i = Ptr.addr d st) :
    StepOk σ G L op (.findCas c i p st d s path) (σ.setNext p i (Ptr.addr s st))
      (findDone c ⟨p, s, st⟩ path i) := by
  obtain ⟨hi, hp, hpath, hc, ht, hle, hds⟩ := f.loc
  have hpl := f.refs (p, i) (by simp [Pc.refs])
  have hsl := f.refs (s, i) (by simp [Pc.refs])
  have hcl : ∀ r ∈ c.refs, r ∈ L := fun r h => f.refs r (by simp [Pc.refs, h])
  have hrest : ∀ r ∈ Path.refs (i + 1) path, r ∈ L := fun r h => f.refs r (by simp [Pc.refs, h])
  have ef : Effect σ G L (Pc.findCas c i p st d s path).owns L (σ.setNext p i (Ptr.addr s st)) :=
    Effect.swing p d s i st _ hpl hq ht.1 hds
  have k := ef.kept hm
  refine f.stepOk ef (findDone_refs hm f.fits hpath hpl hsl hcl hrest) (findDone_fits f.fits) ?_
    (Or.inr ⟨findDone_pending _ _ _ _, rfl⟩)
  exact findDone_local f.fits hi (k.pathOk hrest hpath) ((k.rank_eq hpl).trans_lt hp)
    (hle.trans_eq (k.rank_eq hsl).symm) ht (k.findOk hcl hc)

theorem Fit.stepOk_priv (hm : MemInv σ G L) (f : Fit σ L op pc) {m : Node V}
    (hp : pc.pending = some (n, 0)) (hp' : pc'.pending = some (n, 0))
    (upper : ∀ i, 1 ≤ i → (m.next i).state = .inserted ∨ (m.next i).state = .deleted)
    (hr : ∀ r ∈ pc'.refs, r ∈ L) (hf : pc'.Fits op)
    (hl : Kept σ L (some n) L (σ.write n m) → (σ.write n m).node n = m →
      Local (σ.write n m) op pc') : StepOk σ G L op pc (σ.write n m) pc' := by
  have e : Effect σ G L (some n) L (σ.write n m) :=
    Effect.priv n m (f.fresh _ hp) (f.avail n hp) upper
  refine f.stepOk (owns_of_pending hp ▸ e) hr hf ?_ (Or.inr ⟨hp'.trans hp.symm, rfl⟩)
  exact hl (e.kept hm) (node_write_self σ n m)

theorem filled_setNext {st : NodeState} (he : path[i]? = some e) (h : Filled σ path n i)
    (hst : st = if i = 0 then .intendToInsert else .inserted) :
    Filled (σ.setNext n i (Ptr.addr e.succ st)) path n (i + 1) := by
  intro j hj
  rw [next_setNext]
  by_cases hji : j = i
  · subst hji
    refine ⟨e, he, ?_⟩
    rw [if_pos ⟨rfl, rfl⟩, hst]
  · rw [if_neg fun h => hji h.2]
    exact h j (by omega)

theorem initNext_upper (hm : MemInv σ G L) (hst : st = if i = 0 then .intendToInsert else .inserted)
    (j : ℕ) (hj : 1 ≤ j) : (((σ.node n).setNext i (Ptr.addr x st)).next j).state = .inserted ∨
      (((σ.node n).setNext i (Ptr.addr x st)).next j).state = .deleted := by
  rw [Node.next_setNext]
  split
  · next he => exact Or.inl (hst.trans (if_neg (by omega)))
  · exact hm.upper hj

theorem Fit.step_initNext (hm : MemInv σ G L) (f : Fit σ L op (.initNext path n i))
    (he : path[i]? = some e) (hst : st = if i = 0 then .intendToInsert else .inserted)
    (hp : pc'.pending = some (n, 0)) (hr : pc'.refs = Path.refs 0 path) (hf : pc'.Fits op)
    (hl : NextOk (σ.setNext n i (Ptr.addr e.succ st)) op path n (i + 1) →
      Local (σ.setNext n i (Ptr.addr e.succ st)) op pc') :
    StepOk σ G L op (.initNext path n i) (σ.setNext n i (Ptr.addr e.succ st)) pc' := by
  obtain ⟨ho, hlt⟩ := f.loc
  have hd := setNext_data σ n i (Ptr.addr e.succ st) n
  refine f.stepOk_priv hm rfl hp (initNext_upper hm hst) (hr ▸ f.refs) hf fun k _ => hl ?_
  refine ⟨⟨k.gapOk f.refs ho.init.gap, hd.key.trans ho.init.key⟩, ?_, ?_, filled_setNext he ho.filled hst⟩
  · exact ho.pos.trans_eq hd.topLevel.symm
  · exact hd.topLevel.trans_le ho.le

theorem Fit.step_alloc (hm : MemInv σ G L) (f : Fit σ L op (.alloc path))
    (hs : σ.avail slot = true ∧ 1 ≤ level ∧ level ≤ MAX_LEVEL) (hl : (slot, 0) ∉ L) :
    StepOk σ G L op (.alloc path) (σ.take slot) (.allocTest path slot level) := by
  have e : Effect σ G L (Pc.alloc path).owns L (σ.take slot) := Effect.take slot _
  refine ⟨L, e, ⟨f.refs, f.key, f.fits, ⟨(e.kept hm).gapOk f.refs f.loc, hs.2⟩, ?_, ?_⟩, ?_⟩
  · intro c hc
    obtain rfl := Option.some.inj hc
    exact hl
  · intro n hn
    obtain rfl : slot = n := congrArg Prod.fst (Option.some.inj hn)
    simp [Store.take]
  · intro n hn
    obtain rfl : slot = n := Option.some.inj hn
    exact Or.inr ⟨hs.1, hl⟩

theorem Fit.step_lostFree (hm : MemInv σ G L) (f : Fit σ L op (.lostFree n)) :
    StepOk σ G L op (.lostFree n) (σ.give n) retry := by
  have hins : op.IsInsert := f.fits
  refine f.stepOk (Effect.give n _ (Or.inl rfl)) (retry_refs hm) ?_ (retry_local _ op) (Or.inl rfl)
  cases op with
  | insert k v => exact id
  | _ => exact hins.elim

theorem upper_refs (hp : (n, i) ∈ L) (hr : ∀ r ∈ Path.refs 0 path, r ∈ L) :
    ∀ r ∈ (upper σ path n (i + 1)).refs, r ∈ L := by
  unfold upper
  split
  · simp only [Pc.refs, List.mem_cons, forall_eq_or_imp]
    exact ⟨hp, hr⟩
  · exact fun r h => by cases h

theorem upper_fits (hf : op.IsInsert) : (upper σ path n i).Fits op := by
  unfold upper
  split
  · exact hf
  · trivial

theorem upper_local (hp : PathOk σ op 0 path) (hr : rank σ n = (op.key : ℤ))
    (hs : σ.stateAt 0 n ≠ .intendToInsert) : Local σ op (upper σ path n (i + 1)) := by
  unfold upper
  split
  · next h => exact ⟨hp, hr, Nat.le_add_left 1 i, h, hs⟩
  · trivial

theorem upper_pending (σ : Store V) (path : Path) (n : Loc) (i : ℕ) :
    (upper σ path n i).pending = none ∨ (upper σ path n i).pending = some (n, i) := by
  unfold upper
  split
  · exact Or.inr rfl
  · exact Or.inl rfl

theorem upper_congr (h : (σ'.node n).topLevel = (σ.node n).topLevel) :
    upper σ' path n i = upper σ path n i := by
  simp only [upper, h]

theorem StateOk.rank {c : StateCtx} (h : StateOk σ op n c) : rank σ n = (op.key : ℤ) := by
  cases c with
  | insert c =>
    cases c with
    | found => exact h
    | linked path => exact h.1
  | mark => exact MarkOk.rank h
  | delete r => exact h.1

theorem afterState_refs {c : StateCtx} {won : Bool} (hm : MemInv σ G L) (hr : ∀ r ∈ c.refs n, r ∈ L) :
    ∀ r ∈ (afterState σ' n won c).refs, r ∈ L := by
  have hn := hr (n, 0) (c.mem_refs n)
  cases c with
  | insert c =>
    cases c with
    | found => exact fun r h => by cases h
    | linked path =>
      exact upper_refs hn fun r h => hr r (by simp [StateCtx.refs, InsertCtx.refs, h])
  | mark => exact hr
  | delete r =>
    simp only [afterState]
    split
    · exact FindCtx.retry_refs hm hr
    · exact fun r h => by cases h

theorem afterState_fits {c : StateCtx} {won : Bool} (hf : c.Fits op) :
    (afterState σ n won c).Fits op := by
  cases c with
  | insert c =>
    cases c with
    | found => trivial
    | linked path => exact upper_fits hf
  | mark => exact hf
  | delete r =>
    simp only [afterState]
    split
    · exact hf
    · trivial

theorem afterState_pending (σ : Store V) (n : Loc) (won : Bool) (c : StateCtx) :
    (afterState σ n won c).pending = none ∨ (afterState σ n won c).pending = c.pending n := by
  cases c with
  | insert c =>
    cases c with
    | found => exact Or.inl rfl
    | linked path => exact upper_pending σ path n 1
  | mark => exact Or.inl rfl
  | delete r =>
    simp only [afterState]
    split <;> exact Or.inl rfl

theorem afterState_local {c : StateCtx} {won : Bool} (h : StateOk σ op n c)
    (hs : σ.stateAt 0 n ≠ c.expected) : Local σ op (afterState σ n won c) := by
  cases c with
  | insert c =>
    cases c with
    | found => trivial
    | linked path => exact upper_local h.2 h.1 hs
  | mark =>
    refine ⟨h.rank, ?_⟩
    have hr : σ.stateAt 0 n ≠ .intendToInsert := MarkOk.risen h
    change σ.stateAt 0 n ≠ .inserted at hs
    cases he : σ.stateAt 0 n <;> simp_all [NodeState.age]
  | delete r =>
    simp only [afterState]
    split
    · refine FindCtx.retry_local ⟨h.1, ?_⟩
      change σ.stateAt 0 n = .deleted
      have ha : 2 ≤ (σ.stateAt 0 n).age := h.2
      change σ.stateAt 0 n ≠ .intendToDelete at hs
      cases he : σ.stateAt 0 n <;> simp_all [NodeState.age]
    · trivial

theorem afterState_congr {won : Bool} {c : StateCtx}
    (h : (σ'.node n).topLevel = (σ.node n).topLevel) :
    afterState σ' n won c = afterState σ n won c := by
  cases c with
  | insert c =>
    cases c with
    | found => rfl
    | linked path => exact upper_congr h
  | mark => rfl
  | delete r => rfl

theorem expected_age (c : StateCtx) : c.newState.age = c.expected.age + 1 := by
  cases c <;> rfl

theorem Fit.step_stateWon {c : StateCtx} (hm : MemInv σ G L) (f : Fit σ L op (.stateCas c n q))
    (hq : (σ.node n).next 0 = q.createRef c.expected) :
    StepOk σ G L op (.stateCas c n q) (σ.setNext n 0 (q.createRef c.newState))
      (afterState σ n true c) := by
  have ho : StateOk σ op n c := f.loc
  have hr : ∀ r ∈ c.refs n, r ∈ L := f.refs
  have hn := hr (n, 0) (c.mem_refs n)
  have hs : σ.stateAt 0 n = c.expected := congrArg Ptr.state hq
  have ef : Effect σ G L (Pc.stateCas c n q).owns L (σ.setNext n 0 (q.createRef c.newState)) := by
    refine Effect.word n 0 _ _ hn ?_ (Or.inl ?_) (fun _ => ?_) (fun h => absurd h (by decide)) ?_
      (ne_head_of_le ho.rank.ge) (ne_tail_of_rank hm f.key ho.rank.le)
    · unfold Store.dead
      rw [hs]
      cases c <;> nofun
    · rw [hq]
      rfl
    · rw [hs]
      exact expected_age c
    · cases c with
      | insert c => exact fun h => absurd h (by decide : ¬ 2 ≤ NodeState.age .inserted)
      | mark => exact fun _ j hj hlt => ho.above j hj hlt
      | delete r =>
        intro _ j hj hlt
        refine hm.marked hn ?_ hj hlt
        rw [hs]
        exact le_rfl
  have k := ef.kept hm
  have hs' : (σ.setNext n 0 (q.createRef c.newState)).stateAt 0 n = c.newState :=
    stateAt_setNext_self σ n 0 _
  rw [← afterState_congr (σ := σ) (k.topLevel hn)]
  refine f.stepOk ef (afterState_refs hm hr) (afterState_fits f.fits) ?_
    ((afterState_pending _ n true c).imp_right fun h => ⟨h, rfl⟩)
  refine afterState_local (k.stateOk hr ho) ?_
  rw [hs']
  cases c <;> nofun

-- the two conditions that insert does not test when it links newNode at an upper level
def Pc.Tidy (G : ℕ) (σ : Store V) : Pc → Prop
  | .upperLink path n i => i < G → ∀ e, path[i]? = some e →
      (σ.node e.pred).next i = e.succs → ¬ σ.dead i n ∧ rank σ n < rank σ e.succ
  | _ => True

theorem Fit.step_linkWon (hm : MemInv σ G L) (f : Fit σ L op (.linkCas path n))
    (he : path[0]? = some e) (hq : (σ.node e.pred).next 0 = e.succs) :
    StepOk σ G L op (.linkCas path n) (σ.setNext e.pred 0 (Ptr.addr n e.predState))
      (.helpStore (.linked path) n) := by
  have ho : NextOk σ op path n (σ.node n).topLevel := f.loc
  have hins : op.IsInsert := f.fits
  have hel : (e.pred, 0) ∈ L := f.refs _ (Path.get_refs (i := 0) he).1
  have hfresh : (n, 0) ∉ L := f.fresh _ rfl
  have hnh : n ≠ head := by
    rintro rfl
    exact hfresh hm.head_mem
  have hrank : rank σ n = (op.key : ℤ) := rank_eq_of_key ho.init.key hnh
  obtain ⟨e', he', hfill⟩ := ho.filled 0 ho.pos
  obtain rfl := Option.some.inj (he.symm.trans he')
  have hdead : ∀ j < (σ.node n).topLevel, ¬ σ.dead j n := by
    intro j hj
    obtain ⟨e', _, h⟩ := ho.filled j hj
    refine alive_of_addr h ?_
    split <;> nofun
  have ef : Effect σ G L (Pc.linkCas path n).owns (insert (n, 0) L)
      (σ.setNext e.pred 0 (Ptr.addr n e.predState)) := by
    refine Effect.join e.pred n e.succ 0 e.predState hel hq (ho.init.gap.levels.tag he).1 hfresh
      (fun j h => by omega) (ref_of_addr hfill) ho.pos (fun _ => ⟨hdead 0 ho.pos, ?_, ?_⟩)
      (fun _ => ⟨ho.le, state_of_addr hfill, hdead⟩) fun h => absurd h (by decide)
    · rw [hrank]
      exact ho.init.gap.levels.below e (List.mem_of_getElem? he)
    · rw [hrank]
      exact ho.init.gap.gap e he
  have k := ef.kept hm
  have hp : (Pc.helpStore (.linked path) n).pending = some (n, 1) := rfl
  refine ⟨_, ef, ⟨?_, f.key, hins, ⟨?_, k.pathOk f.refs ho.init.gap.levels⟩, ?_, ?_⟩, ?_⟩
  · simp only [Pc.refs, InsertCtx.refs, List.mem_cons, forall_eq_or_imp]
    exact ⟨Set.mem_insert _ _, fun r h => Set.mem_insert_of_mem _ (f.refs r h)⟩
  · rw [rank_setNext]
    exact hrank
  · intro c hc hcl
    obtain rfl := Option.some.inj (hp.symm.trans hc)
    rcases Set.mem_insert_iff.1 hcl with h | h
    · cases (Prod.mk.inj h).2
    · exact hfresh (hm.base h)
  · intro m hm'
    cases (Prod.mk.inj (Option.some.inj (hp.symm.trans hm'))).2
  · exact fun m hm' => Or.inl hm'

theorem Fit.step_upperWon (hm : MemInv σ G L) (f : Fit σ L op (.upperCas path n i q))
    (he : path[i]? = some e) (hq : (σ.node n).next i = q) :
    StepOk σ G L op (.upperCas path n i q) (σ.setNext n i e.succs) (.upperLink path n i) := by
  obtain ⟨ho, hs⟩ := f.loc
  have hpos := ho.pos
  have hnl : (n, i - 1) ∈ L := f.refs _ (by simp [Pc.refs])
  have hrest : ∀ r ∈ Path.refs 0 path, r ∈ L := fun r h => f.refs r (by simp [Pc.refs, h])
  have hst : e.succs.state = .inserted := (ho.levels.tag he).2 (by omega)
  have ef : Effect σ G L (Pc.upperCas path n i q).owns L (σ.setNext n i e.succs) := by
    refine Effect.word n i _ _ (hm.base hnl) ?_ (Or.inr ⟨rfl, f.fresh _ rfl, hpos⟩)
      (fun h => absurd h (by omega)) (fun _ => Or.inl hst) ?_ (ne_head_of_le ho.rank.ge)
      (ne_tail_of_rank hm f.key ho.rank.le)
    · unfold Store.dead Store.stateAt
      rw [hq, hs]
      rintro ⟨⟩
    · rw [hst]
      exact fun h => absurd h (by decide)
  refine f.stepOk ef f.refs f.fits ⟨(ef.kept hm).upperOk hnl hrest ho, fun e' he' => ?_⟩
    (Or.inr ⟨rfl, rfl⟩)
  obtain rfl := Option.some.inj (he.symm.trans he')
  rw [next_setNext_self]
  rfl

theorem Fit.step_upperLink (hm : MemInv σ G L) (f : Fit σ L op (.upperLink path n i))
    (tidy : (Pc.upperLink path n i).Tidy G σ) (he : path[i]? = some e)
    (hq : (σ.node e.pred).next i = e.succs) :
    StepOk σ G L op (.upperLink path n i) (σ.setNext e.pred i (Ptr.addr n .inserted))
      (upper σ path n (i + 1)) := by
  obtain ⟨ho, href⟩ := f.loc
  have hpos := ho.pos
  have hnl : (n, i - 1) ∈ L := f.refs _ (by simp [Pc.refs])
  have hrest : ∀ r ∈ Path.refs 0 path, r ∈ L := fun r h => f.refs r (by simp [Pc.refs, h])
  have hst : e.predState = .inserted := (ho.levels.tag he).2 (by omega)
  have hel : (e.pred, i) ∈ L := by
    have := (Path.get_refs (i := 0) he).1
    rw [Nat.zero_add] at this
    exact hrest _ this
  have hfresh : (n, i) ∉ L := f.fresh _ rfl
  have ef : Effect σ G L (Pc.upperLink path n i).owns (insert (n, i) L)
      (σ.setNext e.pred i (Ptr.addr n .inserted)) := by
    refine Effect.join e.pred n e.succ i .inserted hel (hst ▸ hq) (by rintro ⟨⟩) hfresh ?_ (href e he) ho.lt
      ?_ (fun h => absurd h (by omega)) fun _ => ho.risen
    · rintro j rfl
      exact hnl
    · intro hi
      refine ⟨(tidy hi e he hq).1, ?_, (tidy hi e he hq).2⟩
      rw [ho.rank]
      exact ho.levels.below e (List.mem_of_getElem? he)
  have k := ef.kept hm
  refine ⟨_, ef, ⟨?_, f.key, upper_fits f.fits, ?_, ?_, ?_⟩, ?_⟩
  · exact upper_refs (Set.mem_insert _ _) fun r h => Set.mem_insert_of_mem _ (hrest r h)
  · rw [← upper_congr (σ := σ) (k.topLevel hnl)]
    exact upper_local (k.pathOk hrest ho.levels) ((rank_setNext _ _ _ _ _).trans ho.rank)
      (k.risen hnl ho.risen)
  · intro c hc hcl
    rcases upper_pending σ path n (i + 1) with h | h
    · rw [h] at hc
      cases hc
    · rw [h] at hc
      obtain rfl := Option.some.inj hc
      rcases Set.mem_insert_iff.1 hcl with h | h
      · have := (Prod.mk.inj h).2
        omega
      · exact hfresh (hm.sound.closed.down h)
  · intro m hm'
    rcases upper_pending σ path n (i + 1) with h | h
    · rw [h] at hm'
      cases hm'
    · rw [h] at hm'
      have := (Prod.mk.inj (Option.some.inj hm')).2
      omega
  · intro m hm'
    obtain ⟨j, hj⟩ := pending_of_owns hm'
    rcases upper_pending σ path n (i + 1) with h | h
    · rw [h] at hj
      cases hj
    · obtain ⟨rfl, _⟩ := Prod.mk.inj (Option.some.inj (h.symm.trans hj))
      exact Or.inl rfl

theorem Fit.step_markWon (hm : MemInv σ G L) (f : Fit σ L op (.markCas n i q))
    (hq : (σ.node n).next i = q.createRef .inserted) :
    StepOk σ G L op (.markCas n i q) (σ.setNext n i (q.createRef .deleted)) (mark n (i - 1)) := by
  obtain ⟨ho, hpos⟩ := f.loc
  have hnl : (n, 0) ∈ L := f.refs _ (by simp [Pc.refs])
  have ef : Effect σ G L (Pc.markCas n i q).owns L (σ.setNext n i (q.createRef .deleted)) := by
    refine Effect.word n i _ _ hnl ?_ (Or.inl ?_) (fun h => absurd h (by omega))
      (fun _ => Or.inr rfl) (fun _ => ho.above) (ne_head_of_le ho.rank.ge)
      (ne_tail_of_rank hm f.key ho.rank.le)
    · unfold Store.dead Store.stateAt
      rw [hq]
      rintro ⟨⟩
    · rw [hq]
      rfl
  refine f.stepOk ef (mark_refs hnl) (mark_fits f.fits) (mark_local ?_) (Or.inl (mark_pending n _))
  exact markOk_below ((ef.kept hm).markOk hnl ho) (stateAt_setNext_self σ n i _)

theorem Fit.step_searchDown (hm : MemInv σ G L) (f : Fit σ L op (.searchDown i p path))
    (hs : ((σ.node p).next i).ref = some s) :
    StepOk σ G L op (.searchDown i p path) σ (.searchTest i p .inserted s path) := by
  obtain ⟨hi, hp, hpath⟩ := f.loc
  have hpl := f.refs (p, i) (by simp [Pc.refs])
  refine f.stepOk_idle ?_ f.fits ⟨hi, hp, hpath, ⟨(by rintro ⟨⟩), fun _ => rfl⟩, hm.succ_ne_head hpl hs⟩
    (Or.inl rfl)
  simp only [Pc.refs, List.mem_cons, forall_eq_or_imp]
  exact ⟨hpl, hm.right hpl hs, fun r h => f.refs r (by simp [Pc.refs, h])⟩

theorem Fit.step_searchGo (hm : MemInv σ G L) (f : Fit σ L op (.searchTest i p st s path))
    (alive : ¬ σ.dead i s) (lt : (σ.node s).key < op.key) :
    StepOk σ G L op (.searchTest i p st s path) σ
      (.searchNext i s (σ.stateAt i s) s path) := by
  obtain ⟨hi, hp, hpath, ht, hs⟩ := f.loc
  have hr := rank_lt_of_key lt hs
  refine f.stepOk_idle ?_ f.fits ⟨hi, hr, hpath, tagOk_of_alive hm alive, Or.inl hr⟩ (Or.inl rfl)
  have hsl := f.refs (s, i) (by simp [Pc.refs])
  simp only [Pc.refs, List.mem_cons, forall_eq_or_imp]
  exact ⟨hsl, hsl, fun r h => f.refs r (by simp [Pc.refs, h])⟩

theorem Fit.step_searchNext (hm : MemInv σ G L) (f : Fit σ L op (.searchNext i p st s path))
    (hs : ((σ.node s).next i).ref = some d) :
    StepOk σ G L op (.searchNext i p st s path) σ (.searchTest i p st d path) := by
  obtain ⟨hi, hp, hpath, ht, _⟩ := f.loc
  have hsl := f.refs (s, i) (by simp [Pc.refs])
  refine f.stepOk_idle ?_ f.fits ⟨hi, hp, hpath, ht, hm.succ_ne_head hsl hs⟩ (Or.inl rfl)
  simp only [Pc.refs, List.mem_cons, forall_eq_or_imp]
  exact ⟨f.refs _ (by simp [Pc.refs]), hm.right hsl hs, fun r h => f.refs r (by simp [Pc.refs, h])⟩

theorem Fit.step_retry {c : FindCtx} (hm : MemInv σ G L) (f : Fit σ L op pc) (hf : c.Fits op)
    (hc : c.Ok σ op) (hr : ∀ r ∈ c.refs, r ∈ L) (hp : c.pending = pc.pending) :
    StepOk σ G L op pc σ c.retry :=
  f.stepOk_idle (FindCtx.retry_refs hm hr) hf (FindCtx.retry_local hc) (Or.inr hp)

theorem Fit.step_findDown {c : FindCtx} (hm : MemInv σ G L) (f : Fit σ L op (.findDown c i p path))
    (alive : ¬ σ.dead i p) (hs : ((σ.node p).next i).ref = some s) :
    StepOk σ G L op (.findDown c i p path) σ (.findLoad c i p (σ.stateAt i p) s s path) := by
  obtain ⟨hi, hp, hpath, hc⟩ := f.loc
  have hpl := f.refs (p, i) (by simp [Pc.refs])
  have hsl := hm.right hpl hs
  refine f.stepOk_idle ?_ f.fits ⟨hi, hp, hpath, hc, tagOk_of_alive hm alive,
    hm.succ_ne_head hpl hs, Tower.DeadPath.refl⟩ (Or.inr rfl)
  simp only [Pc.refs, List.mem_cons, forall_eq_or_imp]
  exact ⟨hpl, hsl, hsl, fun r h => f.refs r (by
    simp only [Pc.refs, List.mem_cons]
    exact Or.inr h)⟩

theorem Fit.step_findSkip {c : FindCtx} (hm : MemInv σ G L)
    (f : Fit σ L op (.findLoad c i p st d s path)) (dead : σ.dead i s)
    (hs : ((σ.node s).next i).ref = some x) :
    StepOk σ G L op (.findLoad c i p st d s path) σ (.findLoad c i p st d x path) := by
  obtain ⟨hi, hp, hpath, hc, ht, _, hds⟩ := f.loc
  have hsl := f.refs (s, i) (by simp [Pc.refs])
  refine f.stepOk_idle ?_ f.fits ⟨hi, hp, hpath, hc, ht, hm.succ_ne_head hsl hs,
    hds.tail dead hs⟩ (Or.inr rfl)
  simp only [Pc.refs, List.mem_cons, forall_eq_or_imp]
  refine ⟨f.refs _ (by simp [Pc.refs]), f.refs _ (by simp [Pc.refs]), hm.right hsl hs,
    fun r h => f.refs r ?_⟩
  simp only [Pc.refs, List.mem_cons]
  exact Or.inr (Or.inr (Or.inr h))

theorem Fit.step_findSame {c : FindCtx} (hm : MemInv σ G L)
    (f : Fit σ L op (.findLoad c i p st s s path)) (le : op.key ≤ (σ.node s).key) :
    StepOk σ G L op (.findLoad c i p st s s path) σ (findDone c ⟨p, s, st⟩ path i) := by
  obtain ⟨hi, hp, hpath, hc, ht, hsh, _⟩ := f.loc
  refine f.stepOk_idle ?_ (findDone_fits f.fits)
    (findDone_local f.fits hi hpath hp (le_rank_of_key le hsh) ht hc)
    (Or.inr (findDone_pending _ _ _ _))
  exact findDone_refs hm f.fits hpath (f.refs _ (by simp [Pc.refs])) (f.refs _ (by simp [Pc.refs]))
    (fun r h => f.refs r (by simp [Pc.refs, h])) fun r h => f.refs r (by simp [Pc.refs, h])

theorem Fit.step_findGo {c : FindCtx} (hm : MemInv σ G L)
    (f : Fit σ L op (.findLoad c i p st d s path)) (alive : ¬ σ.dead i s)
    (lt : (σ.node s).key < op.key) (hs : ((σ.node s).next i).ref = some x) :
    StepOk σ G L op (.findLoad c i p st d s path) σ
      (.findLoad c i s (σ.stateAt i s) x x path) := by
  obtain ⟨hi, _, hpath, hc, _, hsh, _⟩ := f.loc
  have hsl := f.refs (s, i) (by simp [Pc.refs])
  have hxl := hm.right hsl hs
  refine f.stepOk_idle ?_ f.fits ⟨hi, rank_lt_of_key lt hsh, hpath, hc, tagOk_of_alive hm alive,
    hm.succ_ne_head hsl hs, Tower.DeadPath.refl⟩ (Or.inr rfl)
  simp only [Pc.refs, List.mem_cons, forall_eq_or_imp]
  refine ⟨hsl, hxl, hxl, fun r h => f.refs r ?_⟩
  simp only [Pc.refs, List.mem_cons]
  exact Or.inr (Or.inr (Or.inr h))

theorem Fit.step_stateDone {c : StateCtx} (hm : MemInv σ G L) (f : Fit σ L op (.stateTest c n))
    (hs : σ.stateAt 0 n ≠ c.expected) :
    StepOk σ G L op (.stateTest c n) σ (afterState σ n false c) :=
  f.stepOk_idle (afterState_refs hm f.refs) (afterState_fits f.fits) (afterState_local f.loc hs)
    (afterState_pending σ n false c)

theorem Fit.step_markSkip (f : Fit σ L op (.markLoad n i)) (dead : σ.dead i n) :
    StepOk σ G L op (.markLoad n i) σ (mark n (i - 1)) :=
  f.stepOk_idle (mark_refs (f.refs _ (by simp [Pc.refs]))) (mark_fits f.fits)
    (mark_local (markOk_below f.loc.1 dead)) (Or.inl (mark_pending n _))

theorem Fit.step_containsDown (hm : MemInv σ G L) (f : Fit σ L op (.containsDown i p))
    (hs : ((σ.node p).next i).ref = some s) :
    StepOk σ G L op (.containsDown i p) σ (.containsTest i p s) := by
  have hpl := f.refs (p, i) (by simp [Pc.refs])
  refine f.stepOk_idle ?_ f.fits ⟨f.loc.1, fun _ => f.loc.2, hm.succ_ne_head hpl hs⟩ (Or.inl rfl)
  simpa [Pc.refs] using ⟨hpl, hm.right hpl hs⟩

theorem Fit.step_containsStep (hm : MemInv σ G L) (f : Fit σ L op (.containsTest (i + 1) p s)) :
    StepOk σ G L op (.containsTest (i + 1) p s) σ (.containsDown i p) := by
  have hpl := f.refs (p, i + 1) (by simp [Pc.refs])
  refine f.stepOk_idle ?_ f.fits ⟨(Nat.le_succ i).trans_lt f.loc.1, f.loc.2.1 (by omega)⟩
    (Or.inl rfl)
  simpa [Pc.refs] using hm.sound.closed.down hpl

theorem Fit.step_containsNext (hm : MemInv σ G L) (f : Fit σ L op (.containsNext i p s))
    (hs : ((σ.node s).next i).ref = some d) :
    StepOk σ G L op (.containsNext i p s) σ (.containsTest i p d) := by
  have hsl := f.refs (s, i) (by simp [Pc.refs])
  refine f.stepOk_idle ?_ f.fits ⟨f.loc.1, f.loc.2.1, hm.succ_ne_head hsl hs⟩ (Or.inl rfl)
  simpa [Pc.refs] using ⟨f.refs (p, i) (by simp [Pc.refs]), hm.right hsl hs⟩

theorem Fit.step_containsSkip (f : Fit σ L op (.containsTest i p s))
    (skip : (σ.node s).key < op.key ∨ isOut (σ.stateAt i s) = true) (hm : MemInv σ G L) :
    StepOk σ G L op (.containsTest i p s) σ (.containsPass i p s) := by
  obtain ⟨hi, hp, hs⟩ := f.loc
  refine f.stepOk_idle f.refs f.fits ⟨hi, fun h => ⟨hp h, ?_⟩, hs⟩ (Or.inl rfl)
  refine skip.imp (fun hlt => rank_lt_of_key hlt hs) fun ho => ?_
  refine (isOut_iff.1 ho).resolve_right fun he => ?_
  rcases hm.upper (x := s) h with hu | hu <;> rw [he] at hu <;> cases hu

theorem Fit.step_containsGo (f : Fit σ L op (.containsPass i p s))
    (inn : ¬ isOut (σ.stateAt i s) = true) :
    StepOk σ G L op (.containsPass i p s) σ (.containsNext i s s) := by
  obtain ⟨hi, hp, hs⟩ := f.loc
  have hsl := f.refs (s, i) (by simp [Pc.refs])
  refine f.stepOk_idle ?_ f.fits ⟨hi, fun h => ?_, hs⟩ (Or.inl rfl)
  · simpa [Pc.refs] using hsl
  · exact (hp h).2.resolve_right fun hd => inn (isOut_iff.2 (Or.inl hd))

theorem Fit.stepOk_touch (hm : MemInv σ G L) (f : Fit σ L op pc) {l : Line (Node V)}
    (hn : (n, 0) ∈ L) (same : Same (σ.node n) l.cur) (hr : ∀ r ∈ pc'.refs, r ∈ L)
    (hf : pc'.Fits op) (hl : Kept σ L pc.owns L (σ.setLine n l) → Local (σ.setLine n l) op pc')
    (hp : pc'.pending = pc.pending) : StepOk σ G L op pc (σ.setLine n l) pc' := by
  have e : Effect σ G L pc.owns L (σ.setLine n l) := Effect.touch n l _ hn same
  exact f.stepOk e hr hf (hl (e.kept hm)) (Or.inr ⟨hp, rfl⟩)

theorem same_of_flag {m : Node V} (h : SameData (σ.node n) m) (hn : m.next = (σ.node n).next) :
    Same (σ.node n) ((σ.line n).write m).cur := ⟨h, hn⟩

theorem same_flush (σ : Store V) (n : Loc) : Same (σ.node n) (σ.line n).flush.cur :=
  Same.refl _

theorem Fit.step_help {c : InsertCtx} (hm : MemInv σ G L) (f : Fit σ L op (.helpStore c n)) :
    StepOk σ G L op (.helpStore c n)
      (σ.write n { σ.node n with validEnd := (σ.node n).pValidity }) (.helpFlush c n) :=
  f.stepOk_touch hm (f.refs _ (c.mem_refs n)) (same_of_flag ⟨rfl, rfl, rfl, rfl⟩ rfl) f.refs f.fits
    (fun k => k.insertOk f.refs f.loc) rfl

theorem Fit.step_helpFlush {c : InsertCtx} (hm : MemInv σ G L) (f : Fit σ L op (.helpFlush c n)) :
    StepOk σ G L op (.helpFlush c n) (σ.flush n) (.stateTest (.insert c) n) :=
  f.stepOk_touch hm (f.refs _ (c.mem_refs n)) (same_flush σ n) f.refs f.fits
    (fun k => k.insertOk f.refs f.loc) rfl

theorem Fit.step_destroy {r : Bool} (hm : MemInv σ G L) (f : Fit σ L op (.destroyStore r n)) :
    StepOk σ G L op (.destroyStore r n)
      (σ.write n { σ.node n with deleted := (σ.node n).pValidity }) (.destroyFlush r n) :=
  f.stepOk_touch hm (f.refs (n, 0) (by simp [Pc.refs])) (same_of_flag ⟨rfl, rfl, rfl, rfl⟩ rfl)
    f.refs f.fits (fun k => k.deleteOk (f.refs (n, 0) (by simp [Pc.refs])) f.loc) rfl

theorem Fit.step_destroyFlush {r : Bool} (hm : MemInv σ G L) (f : Fit σ L op (.destroyFlush r n)) :
    StepOk σ G L op (.destroyFlush r n) (σ.flush n) (.stateTest (.delete r) n) :=
  f.stepOk_touch hm (f.refs (n, 0) (by simp [Pc.refs])) (same_flush σ n) f.refs f.fits
    (fun k => k.deleteOk (f.refs (n, 0) (by simp [Pc.refs])) f.loc) rfl

theorem Fit.step (hm : MemInv σ G L) (f : Fit σ L op pc) (tidy : pc.Tidy G σ)
    (slots : ∀ path, pc = .alloc path →
      (σ.avail slot = true ∧ 1 ≤ level ∧ level ≤ MAX_LEVEL) ∧ (slot, 0) ∉ L)
    (hn : next σ op slot level pc = some (σ', pc')) : StepOk σ G L op pc σ' pc' := by
  have hupper : ∀ {x i}, 1 ≤ i → ¬ isOut (σ.stateAt i x) = true → σ.stateAt i x = .inserted :=
    fun hi ho => (hm.upper hi).resolve_right fun h => ho (isOut_iff.2 (Or.inl h))
  cases act_of_next hn with
  | searchDown hs => exact f.step_searchDown hm hs
  | searchSkip dead =>
    obtain ⟨hi, hp, hpath, ht, _⟩ := f.loc
    exact f.stepOk_idle f.refs f.fits ⟨hi, hp, hpath, ht, Or.inr dead⟩ (Or.inl rfl)
  | searchStop alive le => exact f.step_search hm le
  | searchGo alive lt => exact f.step_searchGo hm alive lt
  | searchNext hs => exact f.step_searchNext hm hs
  | findLost dead =>
    exact f.step_retry hm f.fits f.loc.2.2.2 (fun r h => f.refs r (by simp [Pc.refs, h])) rfl
  | findDown alive hs => exact f.step_findDown hm alive hs
  | findSkip dead hs => exact f.step_findSkip hm dead hs
  | findSame alive le => exact f.step_findSame hm le
  | findCut alive le ne =>
    obtain ⟨hi, hp, hpath, hc, ht, hsh, hds⟩ := f.loc
    exact f.stepOk_idle f.refs f.fits ⟨hi, hp, hpath, hc, ht, le_rank_of_key le hsh, hds⟩
      (Or.inr rfl)
  | findGo alive lt hs => exact f.step_findGo hm alive lt hs
  | findWon hq => exact f.step_findWon hm hq
  | findFail hq =>
    exact f.step_retry hm f.fits f.loc.2.2.2.1 (fun r h => f.refs r (by simp [Pc.refs, h])) rfl
  | helpStore => exact f.step_help hm
  | helpFlush => exact f.step_helpFlush hm
  | stateTest hs => exact f.stepOk_idle f.refs f.fits f.loc (Or.inr rfl)
  | stateDone hs => exact f.step_stateDone hm hs
  | stateLoad => exact f.stepOk_idle f.refs f.fits f.loc (Or.inr rfl)
  | stateWon hq => exact f.step_stateWon hm hq
  | stateFail hq => exact f.stepOk_idle f.refs f.fits f.loc (Or.inr rfl)
  | alloc => exact f.step_alloc hm (slots _ rfl).1 (slots _ rfl).2
  | allocTest => exact f.stepOk_idle f.refs f.fits f.loc (Or.inr rfl)
  | createStart =>
    exact f.stepOk_priv hm rfl rfl (fun _ => hm.upper) f.refs f.fits fun k _ =>
      ⟨k.gapOk f.refs f.loc.1, f.loc.2⟩
  | createKey =>
    exact f.stepOk_priv hm rfl rfl (fun _ => hm.upper) f.refs f.fits fun k hn =>
      ⟨⟨k.gapOk f.refs f.loc.1, congrArg Node.key hn⟩, f.loc.2⟩
  | createValue hop =>
    exact f.stepOk_priv hm rfl rfl (fun _ => hm.upper) f.refs f.fits fun k hn =>
      ⟨⟨k.gapOk f.refs f.loc.1.gap, (congrArg Node.key hn).trans f.loc.1.key⟩, f.loc.2⟩
  | createTopLevel =>
    obtain ⟨ho, h1, h2⟩ := f.loc
    refine f.stepOk_priv hm rfl rfl (fun _ => hm.upper) f.refs f.fits fun k hn => ?_
    exact ⟨⟨k.gapOk f.refs ho.gap, (congrArg Node.key hn).trans ho.key⟩,
      h1.trans_eq (congrArg Node.topLevel hn).symm, (congrArg Node.topLevel hn).trans_le h2,
      fun j hj => absurd hj (Nat.not_lt_zero j)⟩
  | createValidity =>
    have ho := f.loc
    refine f.stepOk_priv hm rfl rfl (fun _ => hm.upper) f.refs f.fits fun k hn => ?_
    have htop := congrArg Node.topLevel hn
    exact ⟨⟨⟨k.gapOk f.refs ho.init.gap, (congrArg Node.key hn).trans ho.init.key⟩,
      ho.pos.trans_eq htop.symm, htop.trans_le ho.le, fun j hj => absurd hj (Nat.not_lt_zero j)⟩,
      ho.pos.trans_eq htop.symm⟩
  | initNext he lt =>
    refine f.step_initNext hm he rfl rfl rfl f.fits fun h => ⟨h, ?_⟩
    exact lt.trans_eq (setNext_data σ _ _ _ _).topLevel.symm
  | initLast he le =>
    refine f.step_initNext hm he rfl rfl rfl f.fits fun h => ?_
    refine ⟨h.init, h.pos, h.le, fun j hj => h.filled j (hj.trans_le ?_)⟩
    exact (setNext_data σ _ _ _ _).topLevel.trans_le le
  | linkWon he hq => exact f.step_linkWon hm he hq
  | linkFail he hq => exact f.stepOk_idle (fun r h => by cases h) f.fits trivial (Or.inr rfl)
  | lostStore =>
    exact f.stepOk_priv hm rfl rfl (fun _ => hm.upper) (fun r h => by cases h) f.fits fun _ _ =>
      trivial
  | lostFree => exact f.step_lostFree hm
  | upperOut out => exact f.stepOk_idle (fun r h => by cases h) trivial trivial (Or.inl rfl)
  | upperSame inn he hq =>
    refine f.stepOk_idle f.refs f.fits ⟨f.loc, fun e' he' => ?_⟩ (Or.inr rfl)
    obtain rfl := Option.some.inj (he.symm.trans he')
    exact congrArg Ptr.ref hq
  | upperLoad inn he hq =>
    exact f.stepOk_idle f.refs f.fits ⟨f.loc, hupper f.loc.pos inn⟩ (Or.inr rfl)
  | upperWon he hq => exact f.step_upperWon hm he hq
  | upperFail he hq => exact f.stepOk_idle (fun r h => by cases h) trivial trivial (Or.inl rfl)
  | upperLink he hq => exact f.step_upperLink hm tidy he hq
  | upperLost he hq =>
    obtain ⟨ho, _⟩ := f.loc
    refine f.step_retry hm f.fits ⟨ho.rank, ho.pos, ho.lt, ho.risen⟩ (fun r h => ?_) rfl
    obtain rfl := List.mem_singleton.1 h
    exact f.refs _ (by simp [Pc.refs])
  | markSkip dead => exact f.step_markSkip dead
  | markLoad alive => exact f.stepOk_idle f.refs f.fits f.loc (Or.inl rfl)
  | markWon hq => exact f.step_markWon hm hq
  | markFail hq => exact f.stepOk_idle f.refs f.fits f.loc (Or.inl rfl)
  | destroyStore => exact f.step_destroy hm
  | destroyFlush => exact f.step_destroyFlush hm
  | removeFree =>
    exact f.stepOk (Effect.give _ _ (Or.inr (f.refs _ (by simp [Pc.refs])))) (fun r h => by cases h)
      trivial trivial (Or.inl rfl)
  | containsDown hs => exact f.step_containsDown hm hs
  | containsSkip skip => exact f.step_containsSkip skip hm
  | containsFound inn eq => exact f.stepOk_idle (fun r h => by cases h) trivial trivial (Or.inl rfl)
  | containsEnd inn lt => exact f.stepOk_idle (fun r h => by cases h) trivial trivial (Or.inl rfl)
  | containsStep inn lt => exact f.step_containsStep hm
  | containsOut out =>
    exact f.stepOk_idle f.refs f.fits ⟨f.loc.1, fun h => (f.loc.2.1 h).1, f.loc.2.2⟩ (Or.inl rfl)
  | containsGo inn => exact f.step_containsGo inn
  | containsNext hs => exact f.step_containsNext hm hs

end SOFT.SkipList
