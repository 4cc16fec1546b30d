import DurableSets.LinkFree.SkipListStep

namespace LinkFree.SkipList

open Chain

variable {V : Type} {σ σ' : Store V} {L L' : Set Cursor} {x y p n c d slot : Loc}
  {i j G level : ℕ} {op : SetOp V} {pc pc' : Pc} {path : Path} {q : Ptr}

def FindCtx.Fits (op : SetOp V) : FindCtx → Prop
  | .inInsert _ _ => op.IsInsert
  | .inRemove _ => op.IsRemove

def DeleteCtx.Fits (op : SetOp V) : DeleteCtx → Prop
  | .find c _ _ _ _ => c.Fits op
  | .remove _ => op.IsRemove
  | .contains => op.IsContains

def ValidCtx.Fits (op : SetOp V) : ValidCtx → Prop
  | .removing => op.IsRemove
  | .contains => op.IsContains
  | _ => op.IsInsert

def InsertCtx.Fits (op : SetOp V) : InsertCtx → Prop
  | .contains => op.IsContains
  | _ => op.IsInsert

def Pc.Fits (op : SetOp V) : Pc → Prop
  | .searchDown _ _ _ => ¬ op.IsContains
  | .searchTest _ _ _ _ => ¬ op.IsContains
  | .searchNext _ _ _ _ => ¬ op.IsContains
  | .findDown c _ _ _ => c.Fits op
  | .findLoad c _ _ _ _ _ => c.Fits op
  | .findCas c _ _ _ _ _ => c.Fits op
  | .deleteLoad c _ => c.Fits op
  | .deleteFlush c _ => c.Fits op
  | .deleteStore c _ => c.Fits op
  | .validLoad c _ => c.Fits op
  | .validStore c _ _ => c.Fits op
  | .insertLoad c _ => c.Fits op
  | .insertFlush c _ => c.Fits op
  | .insertStore c _ => c.Fits op
  | .markLoad _ _ => op.IsRemove
  | .markCas _ _ _ => op.IsRemove
  | .removeFree _ => op.IsRemove
  | .containsDown _ _ => op.IsContains
  | .containsTest _ _ _ => op.IsContains
  | .containsPass _ _ _ => op.IsContains
  | .containsNext _ _ _ => op.IsContains
  | .ret _ => True
  | _ => op.IsInsert

structure Fit (σ : Store V) (L : Set Cursor) (op : SetOp V) (pc : Pc) : Prop where
  refs : ∀ r ∈ pc.refs, r ∈ L
  key : op.key < INT_MAX
  fits : pc.Fits op
  loc : Local σ op pc
  fresh : ∀ c, pc.pending = some c → c ∉ L
  avail : ∀ n, pc.pending = some (n, 0) → σ.avail n = false

-- a step of a call: its effect, what the call knows after it, and that a slot it starts to
-- own was owned by nobody
def StepOk (σ : Store V) (G : ℕ) (L : Set Cursor) (op : SetOp V) (pc : Pc) (σ' : Store V)
    (pc' : Pc) : Prop :=
  ∃ L', Effect σ G L pc.owns L' σ' ∧ Fit σ' L' op pc' ∧
    ∀ n, pc'.owns = some n → pc.owns = some n ∨ (σ.avail n = true ∧ (n, 0) ∉ L)

theorem owns_of_pending {c : Cursor} (h : pc.pending = some c) : pc.owns = some c.1 := by
  rw [pc.owns_eq, h]
  rfl

theorem pending_of_owns (h : pc.owns = some n) : ∃ i, pc.pending = some (n, i) := by
  rw [pc.owns_eq] at h
  obtain ⟨⟨m, i⟩, hc, rfl⟩ := Option.map_eq_some_iff.1 h
  exact ⟨i, hc⟩

theorem Fit.stepOk (f : Fit σ L op pc) (e : Effect σ G L pc.owns L σ')
    (hr : ∀ r ∈ pc'.refs, r ∈ L) (hf : pc'.Fits op) (hl : Local σ' op pc')
    (hp : pc'.pending = none ∨ (pc'.pending = pc.pending ∧ σ'.avail = σ.avail)) :
    StepOk σ G L op pc σ' pc' := by
  refine ⟨L, e, ⟨hr, f.key, hf, hl, ?_, ?_⟩, ?_⟩
  · intro c hc
    rcases hp with hp | hp
    · rw [hp] at hc
      cases hc
    · exact f.fresh c (hp.1 ▸ hc)
  · intro n hn
    rcases hp with hp | hp
    · rw [hp] at hn
      cases hn
    · rw [hp.2]
      exact f.avail n (hp.1 ▸ hn)
  · intro n hn
    rcases hp with hp | hp
    · rw [pc'.owns_eq, hp] at hn
      cases hn
    · rw [pc'.owns_eq, hp.1, ← pc.owns_eq] at hn
      exact Or.inl hn

theorem Fit.stepOk_idle (f : Fit σ L op pc) (hr : ∀ r ∈ pc'.refs, r ∈ L) (hf : pc'.Fits op)
    (hl : Local σ op pc') (hp : pc'.pending = none ∨ pc'.pending = pc.pending) :
    StepOk σ G L op pc σ pc' :=
  f.stepOk (Effect.idle _) hr hf hl (hp.imp_right fun h => ⟨h, rfl⟩)

theorem effect_write (hm : MemInv σ G L) (h : Option Loc) (live : (n, 0) ∈ L) {m : Node V}
    (hk : m.key = (σ.node n).key) (ht : m.topLevel = (σ.node n).topLevel)
    (hn : m.next = (σ.node n).next)
    (hd : isValid (σ.node n).metaData = true → isValid m.metaData = true)
    (hi : m.insertFlag = (σ.node n).insertFlag ∨ AllValid (σ.line n))
    (hf : m.deleteFlag = (σ.node n).deleteFlag ∨ AllMarked (σ.line n)) :
    Effect σ G L h L (σ.write n m) := by
  have ev : Evolves (σ.line n) ((σ.line n).write m) :=
    evolves_write hk ht (fun i _ => congrFun hn i) hd
  refine Effect.touch n _ h live ev (fun i => Or.inl ?_) ?_ ?_ ?_ ?_ (fun _ => hn) <;>
    simp only [Line.write_cur, hn]
  · intro hfl
    refine ev.allValid (hi.elim (fun hi => ?_) id)
    exact hm.insertFlag live (hi ▸ hfl)
  · intro hfl
    refine ev.marked (hf.elim (fun hf => ?_) id)
    exact hm.deleteFlag live (hf ▸ hfl)
  · exact fun i j hij hj hd => hm.topDown live hij hj hd
  · rintro rfl i
    exact hm.head_alive i

theorem effect_flush (hm : MemInv σ G L) (h : Option Loc) (live : (n, 0) ∈ L) :
    Effect σ G L h L (σ.flush n) := by
  have ev := evolves_flush (σ.line n)
  refine Effect.touch n _ h live ev (fun i => Or.inl rfl) ?_ ?_ ?_ ?_ fun _ => rfl
  · exact fun hfl => ev.allValid (hm.insertFlag live hfl)
  · exact fun hfl => ev.marked (hm.deleteFlag live hfl)
  · exact fun i j hij hj hd => hm.topDown live hij hj hd
  · rintro rfl i
    exact hm.head_alive i

theorem effect_next (hm : MemInv σ G L) (h : Option Loc) (live : (n, 0) ∈ L)
    (halive : ¬ σ.dead i n) (ref : q.ref = ((σ.node n).next i).ref ∨ (h = some n ∧ (n, i) ∉ L))
    (above : q.marked = true → ∀ j, i < j → j < (σ.node n).topLevel → σ.dead j n)
    (lt : i < (σ.node n).topLevel) (hh : n ≠ head) (ht : n ≠ tail) :
    Effect σ G L h L (σ.setNext n i q) := by
  have ev : Evolves (σ.line n) ((σ.line n).write ((σ.node n).setNext i q)) :=
    evolves_setNext halive q
  have hset : ∀ j, ((σ.node n).setNext i q).next j = if j = i then q else (σ.node n).next j := by
    intro j
    simp [Node.setNext, Function.update_apply]
  refine Effect.touch n _ h live ev ?_ ?_ ?_ ?_ (fun e => absurd e hh) (fun e => absurd e ht) <;>
    simp only [Line.write_cur, hset]
  · intro j
    split
    · next e => exact e ▸ ref
    · exact Or.inl rfl
  · exact fun hfl => ev.allValid (hm.insertFlag live hfl)
  · exact fun hfl => ev.marked (hm.deleteFlag live hfl)
  · intro a b hab hb
    split
    · next e =>
      subst e
      intro hq
      split
      · exact hq
      · exact above hq b (by omega) hb
    · intro hd
      have hdb := hm.topDown live hab hb hd
      split
      · next e =>
        subst e
        exact absurd hdb halive
      · exact hdb

theorem rank_lt_of_key (h : (σ.node x).key < op.key) (hx : x ≠ head) :
    rank σ x < (op.key : ℤ) := by
  rw [rank_of_ne σ hx]
  exact WithBot.coe_lt_coe.2 h

theorem le_rank_of_key (h : op.key ≤ (σ.node x).key) (hx : x ≠ head) :
    ((op.key : ℤ) : WithBot ℤ) ≤ rank σ x := by
  rw [rank_of_ne σ hx]
  exact WithBot.coe_le_coe.2 h

theorem rank_eq_of_key (h : (σ.node x).key = op.key) (hx : x ≠ head) :
    rank σ x = (op.key : ℤ) := by
  rw [rank_of_ne σ hx, h]

theorem head_below (σ : Store V) (op : SetOp V) : rank σ head < (op.key : ℤ) := by
  rw [rank_head]
  exact WithBot.bot_lt_coe _

theorem keepPath_ok (ho : PathOk σ op (i + 1) path) (hp : rank σ p < (op.key : ℤ))
    (hc : ((op.key : ℤ) : WithBot ℤ) ≤ rank σ c) : PathOk σ op i (keepPath op p c path) := by
  cases op with
  | insert k v =>
    refine ⟨fun h => ?_, fun h => absurd trivial h, ?_, ?_⟩
    · have := ho.length h
      simp only [keepPath, List.length_cons]
      omega
    · simp only [keepPath, List.mem_cons, forall_eq_or_imp]
      exact ⟨hp, ho.below⟩
    · simp only [keepPath, List.mem_cons, forall_eq_or_imp]
      exact ⟨hc, ho.above⟩
  | remove k => exact ⟨fun h => h.elim, ho.none, ho.below, ho.above⟩
  | contains k => exact ⟨fun h => h.elim, ho.none, ho.below, ho.above⟩

theorem keepPath_refs (ho : PathOk σ op (i + 1) path) (hp : (p, i) ∈ L) (hc : (c, i) ∈ L)
    (hr : ∀ r ∈ Path.refs (i + 1) path, r ∈ L) :
    ∀ r ∈ Path.refs i (keepPath op p c path), r ∈ L := by
  have hnil : ¬ op.IsInsert → ∀ r ∈ Path.refs i path, r ∈ L := by
    intro h r hr
    rw [ho.none h] at hr
    cases hr
  cases op with
  | insert k v =>
    simp only [keepPath, Path.refs, List.mem_cons, forall_eq_or_imp]
    exact ⟨hp, hc, hr⟩
  | remove k => exact hnil id
  | contains k => exact hnil id

theorem pathOk_nil (σ : Store V) (op : SetOp V) : PathOk σ op MAX_LEVEL [] := by
  refine ⟨fun _ => by simp, fun _ => rfl, fun e h => ?_, fun e h => ?_⟩ <;> cases h

theorem retry_local (σ : Store V) (op : SetOp V) : Local σ op retry :=
  ⟨by decide, head_below σ op, pathOk_nil σ op⟩

theorem retry_refs (hm : MemInv σ G L) : ∀ r ∈ retry.refs, r ∈ L := by
  simp only [retry, Pc.refs, Path.refs, List.mem_singleton, forall_eq]
  exact hm.sound.head_mem (by decide)

theorem Fit.step_searchDown {path : Path} (hm : MemInv σ G L)
    (f : Fit σ L op (.searchDown i p path))
    (hn : next σ op slot level (.searchDown i p path) = some (σ', pc')) :
    StepOk σ G L op (.searchDown i p path) σ' pc' := by
  simp only [next] at hn
  obtain ⟨s, hs, he⟩ := Option.map_eq_some_iff.1 hn
  obtain ⟨rfl, rfl⟩ := Prod.mk.inj he
  have hp := f.refs (p, i) (by simp [Pc.refs])
  refine f.stepOk_idle ?_ f.fits ⟨f.loc.1, f.loc.2.1, f.loc.2.2, hm.succ_ne_head hp hs⟩ (Or.inl rfl)
  simp only [Pc.refs, List.mem_cons, forall_eq_or_imp]
  exact ⟨hp, hm.right hp hs, fun r h => f.refs r (by simp [Pc.refs, h])⟩

theorem afterSearch_ok (f : Fit σ L op (.searchTest 0 p c path))
    (hk : op.key ≤ (σ.node c).key) :
    StepOk σ G L op (.searchTest 0 p c path) σ (afterSearch σ op p c path) := by
  obtain ⟨_, hp, hpath, hc⟩ := f.loc
  have hpl := f.refs (p, 0) (by simp [Pc.refs])
  have hcl := f.refs (c, 0) (by simp [Pc.refs])
  cases op with
  | insert k v =>
    simp only [afterSearch]
    split
    · next he =>
      refine f.stepOk_idle ?_ trivial (rank_eq_of_key he hc) (Or.inl rfl)
      simpa [Pc.refs, ValidCtx.refs] using hcl
    · next he =>
      refine f.stepOk_idle ?_ trivial ⟨?_, ?_⟩ (Or.inl rfl)
      · exact keepPath_refs hpath hpl hcl fun r h => f.refs r (by simp [Pc.refs, h])
      · exact keepPath_ok hpath hp (le_rank_of_key hk hc)
      · intro e h
        obtain rfl : (p, c) = e := by simpa [keepPath] using h
        refine lt_of_le_of_ne (le_rank_of_key hk hc) fun h => he ?_
        rw [rank_of_ne σ hc] at h
        exact (WithBot.coe_injective h).symm
  | remove k =>
    simp only [afterSearch]
    split
    · next he =>
      refine f.stepOk_idle ?_ trivial (rank_eq_of_key he hc) (Or.inl rfl)
      simpa [Pc.refs, ValidCtx.refs] using hcl
    · exact f.stepOk_idle (fun r h => by cases h) trivial trivial (Or.inl rfl)
  | contains k => exact f.stepOk_idle (fun r h => by cases h) trivial trivial (Or.inl rfl)

theorem Fit.step_searchTest (hm : MemInv σ G L) (f : Fit σ L op (.searchTest i p c path))
    (hn : next σ op slot level (.searchTest i p c path) = some (σ', pc')) :
    StepOk σ G L op (.searchTest i p c path) σ' pc' := by
  obtain ⟨hi, hp, hpath, hc⟩ := f.loc
  have hpl := f.refs (p, i) (by simp [Pc.refs])
  have hcl := f.refs (c, i) (by simp [Pc.refs])
  have hrest : ∀ r ∈ Path.refs (i + 1) path, r ∈ L := fun r h => f.refs r (by simp [Pc.refs, h])
  simp only [next] at hn
  split at hn
  · next hmk =>
    obtain ⟨rfl, rfl⟩ := Prod.mk.inj (Option.some.inj hn)
    exact f.stepOk_idle f.refs f.fits ⟨hi, hp, hpath, Or.inr hmk⟩ (Or.inl rfl)
  · split at hn
    · next hk =>
      obtain ⟨rfl, rfl⟩ := Prod.mk.inj (Option.some.inj hn)
      cases i with
      | zero => exact afterSearch_ok f hk
      | succ i =>
        refine f.stepOk_idle ?_ f.fits ?_ (Or.inl rfl)
        · simp only [searchDone, Pc.refs, List.mem_cons, forall_eq_or_imp]
          exact ⟨hm.sound.closed.down hpl, keepPath_refs hpath hpl hcl hrest⟩
        · exact ⟨by omega, hp, keepPath_ok hpath hp (le_rank_of_key hk hc)⟩
    · next hk =>
      obtain ⟨rfl, rfl⟩ := Prod.mk.inj (Option.some.inj hn)
      have hlt := (rank_lt_of_key (not_le.1 hk) hc : rank σ c < (op.key : ℤ))
      refine f.stepOk_idle ?_ f.fits ⟨hi, hlt, hpath, Or.inl hlt⟩ (Or.inl rfl)
      simp only [Pc.refs, List.mem_cons, forall_eq_or_imp]
      exact ⟨hcl, hcl, hrest⟩

theorem Fit.step_searchNext (hm : MemInv σ G L) (f : Fit σ L op (.searchNext i p c path))
    (hn : next σ op slot level (.searchNext i p c path) = some (σ', pc')) :
    StepOk σ G L op (.searchNext i p c path) σ' pc' := by
  simp only [next] at hn
  obtain ⟨s, hs, he⟩ := Option.map_eq_some_iff.1 hn
  obtain ⟨rfl, rfl⟩ := Prod.mk.inj he
  have hcl := f.refs (c, i) (by simp [Pc.refs])
  refine f.stepOk_idle ?_ f.fits ⟨f.loc.1, f.loc.2.1, f.loc.2.2.1, hm.succ_ne_head hcl hs⟩
    (Or.inl rfl)
  simp only [Pc.refs, List.mem_cons, forall_eq_or_imp]
  exact ⟨f.refs (p, i) (by simp [Pc.refs]), hm.right hcl hs,
    fun r h => f.refs r (by simp [Pc.refs, h])⟩

theorem keepPath_eq {c : FindCtx} {d : Loc} (h : c.Fits op) :
    c.keepPath p d path = keepPath op p d path := by
  cases c with
  | inInsert n i =>
    cases op with
    | insert k v => rfl
    | _ => exact False.elim h
  | inRemove n =>
    cases op with
    | remove k => rfl
    | _ => exact False.elim h

theorem FindCtx.retry_refs {c : FindCtx} (hm : MemInv σ G L) (hc : ∀ r ∈ c.refs, r ∈ L) :
    ∀ r ∈ c.retry.refs, r ∈ L := by
  simp only [FindCtx.retry, Pc.refs, Path.refs, List.append_nil, List.mem_cons, forall_eq_or_imp]
  exact ⟨hm.sound.head_mem (by decide), hc⟩

theorem FindCtx.retry_local {c : FindCtx} (hc : c.Ok σ op) : Local σ op c.retry :=
  ⟨by decide, head_below σ op, pathOk_nil σ op, hc⟩

theorem afterFind_refs {c : FindCtx} (hc : ∀ r ∈ c.refs, r ∈ L)
    (hr : ∀ r ∈ Path.refs 0 path, r ∈ L) : ∀ r ∈ (afterFind c path).refs, r ∈ L := by
  cases c with
  | inInsert n i =>
    simp only [afterFind, Pc.refs, List.mem_cons, forall_eq_or_imp]
    exact ⟨hc _ (by simp [FindCtx.refs]), hr⟩
  | inRemove n => exact hc

theorem afterFind_local {c : FindCtx} (hc : c.Ok σ op) (hp : PathOk σ op 0 path) :
    Local σ op (afterFind c path) := by
  cases c with
  | inInsert n i => exact ⟨hp, hc.1, hc.2.1, hc.2.2⟩
  | inRemove n => exact hc

theorem afterFind_fits {c : FindCtx} (hc : c.Fits op) : (afterFind c path).Fits op := by
  cases c <;> exact hc

theorem afterFind_pending (c : FindCtx) (path : Path) : (afterFind c path).pending = c.pending := by
  cases c <;> rfl

theorem findDone_refs {c : FindCtx} (hm : MemInv σ G L) (hf : c.Fits op)
    (hpath : PathOk σ op (i + 1) path) (hp : (p, i) ∈ L) (hd : (d, i) ∈ L)
    (hc : ∀ r ∈ c.refs, r ∈ L) (hr : ∀ r ∈ Path.refs (i + 1) path, r ∈ L) :
    ∀ r ∈ (findDone c p d path i).refs, r ∈ L := by
  have hk := keepPath_refs hpath hp hd hr
  rw [← keepPath_eq hf] at hk
  cases i with
  | zero => exact afterFind_refs hc hk
  | succ i =>
    simp only [findDone, Pc.refs, List.mem_cons, List.mem_append, forall_eq_or_imp]
    exact ⟨hm.sound.closed.down hp, fun r h => h.elim (hc r) (hk r)⟩

theorem findDone_local {c : FindCtx} (hf : c.Fits op) (hi : i < MAX_LEVEL)
    (hpath : PathOk σ op (i + 1) path) (hp : rank σ p < (op.key : ℤ))
    (hd : ((op.key : ℤ) : WithBot ℤ) ≤ rank σ d) (hc : c.Ok σ op) :
    Local σ op (findDone c p d path i) := by
  have hk := keepPath_ok hpath hp hd
  rw [← keepPath_eq hf] at hk
  cases i with
  | zero => exact afterFind_local hc hk
  | succ i => exact ⟨by omega, hp, hk, hc⟩

theorem findDone_fits {c : FindCtx} (hf : c.Fits op) : (findDone c p d path i).Fits op := by
  cases i with
  | zero => exact afterFind_fits hf
  | succ i => exact hf

theorem findDone_pending (c : FindCtx) (p d : Loc) (path : Path) (i : ℕ) :
    (findDone c p d path i).pending = c.pending := by
  cases i with
  | zero => exact afterFind_pending _ _
  | succ i => rfl

theorem Fit.step_findDown {c : FindCtx} (hm : MemInv σ G L) (f : Fit σ L op (.findDown c i p path))
    (hn : next σ op slot level (.findDown c i p path) = some (σ', pc')) :
    StepOk σ G L op (.findDown c i p path) σ' pc' := by
  obtain ⟨hi, hp, hpath, hc⟩ := f.loc
  have hpl := f.refs (p, i) (by simp [Pc.refs])
  have hrest : ∀ r ∈ c.refs ++ Path.refs (i + 1) path, r ∈ L := fun r h =>
    f.refs r (List.mem_cons_of_mem _ h)
  simp only [next] at hn
  split at hn
  · obtain ⟨rfl, rfl⟩ := Prod.mk.inj (Option.some.inj hn)
    exact f.stepOk_idle (FindCtx.retry_refs hm fun r h => hrest r (List.mem_append_left _ h)) f.fits
      (FindCtx.retry_local hc) (Or.inr rfl)
  · obtain ⟨s, hs, he⟩ := Option.map_eq_some_iff.1 hn
    obtain ⟨rfl, rfl⟩ := Prod.mk.inj he
    have hsl := hm.right hpl hs
    refine f.stepOk_idle ?_ f.fits ⟨hi, hp, hpath, hc, hm.succ_ne_head hpl hs, DeadPath.refl⟩
      (Or.inr rfl)
    simp only [Pc.refs, List.mem_cons, forall_eq_or_imp]
    exact ⟨hpl, hsl, hsl, hrest⟩

theorem Fit.step_findLoad {c : FindCtx} {s : Loc} (hm : MemInv σ G L)
    (f : Fit σ L op (.findLoad c i p d s path))
    (hn : next σ op slot level (.findLoad c i p d s path) = some (σ', pc')) :
    StepOk σ G L op (.findLoad c i p d s path) σ' pc' := by
  obtain ⟨hi, hp, hpath, hc, hsh, hds⟩ := f.loc
  have hpl := f.refs (p, i) (by simp [Pc.refs])
  have hdl := f.refs (d, i) (by simp [Pc.refs])
  have hsl := f.refs (s, i) (by simp [Pc.refs])
  have hrest : ∀ r ∈ c.refs ++ Path.refs (i + 1) path, r ∈ L := fun r h =>
    f.refs r (by simp only [Pc.refs, List.mem_cons]; exact Or.inr (Or.inr (Or.inr h)))
  simp only [next] at hn
  split at hn
  · next hmk =>
    obtain ⟨e, hs, he⟩ := Option.map_eq_some_iff.1 hn
    obtain ⟨rfl, rfl⟩ := Prod.mk.inj he
    have hel := hm.right hsl hs
    have heh := hm.succ_ne_head hsl hs
    by_cases h0 : i = 0
    · subst h0
      rw [if_pos rfl]
      refine f.stepOk_idle ?_ f.fits ⟨hp, heh, hds, hmk, hs, hpath, hc⟩ (Or.inr rfl)
      simp only [Pc.refs, DeleteCtx.refs, List.mem_cons, forall_eq_or_imp]
      exact ⟨hpl, hdl, hel, hsl, hrest⟩
    · rw [if_neg h0]
      refine f.stepOk_idle ?_ f.fits ⟨hi, hp, hpath, hc, heh,
        hds.tail hmk (fun h => absurd h h0) hs⟩ (Or.inr rfl)
      simp only [Pc.refs, List.mem_cons, forall_eq_or_imp]
      exact ⟨hpl, hdl, hel, hrest⟩
  · split at hn
    · next hk =>
      obtain ⟨rfl, rfl⟩ := Prod.mk.inj (Option.some.inj hn)
      have hle := (le_rank_of_key hk hsh : ((op.key : ℤ) : WithBot ℤ) ≤ rank σ s)
      split
      · refine f.stepOk_idle ?_ (findDone_fits f.fits) (findDone_local f.fits hi hpath hp hle hc)
          (Or.inr (findDone_pending _ _ _ _ _))
        exact findDone_refs hm f.fits hpath hpl hsl (fun r h => hrest r (List.mem_append_left _ h))
          fun r h => hrest r (List.mem_append_right _ h)
      · exact f.stepOk_idle f.refs f.fits ⟨hi, hp, hpath, hc, hle, hds⟩ (Or.inr rfl)
    · next hk =>
      obtain ⟨e, hs, he⟩ := Option.map_eq_some_iff.1 hn
      obtain ⟨rfl, rfl⟩ := Prod.mk.inj he
      have hel := hm.right hsl hs
      refine f.stepOk_idle ?_ f.fits ⟨hi, rank_lt_of_key (not_le.1 hk) hsh, hpath, hc,
        hm.succ_ne_head hsl hs, DeadPath.refl⟩ (Or.inr rfl)
      simp only [Pc.refs, List.mem_cons, forall_eq_or_imp]
      exact ⟨hsl, hel, hel, hrest⟩

theorem Fit.step_findCas {c : FindCtx} {s : Loc} (hm : MemInv σ G L)
    (f : Fit σ L op (.findCas c i p d s path))
    (hn : next σ op slot level (.findCas c i p d s path) = some (σ', pc')) :
    StepOk σ G L op (.findCas c i p d s path) σ' pc' := by
  obtain ⟨hi, hp, hpath, hc, hle, hds⟩ := f.loc
  have hpl := f.refs (p, i) (by simp [Pc.refs])
  have hsl := f.refs (s, i) (by simp [Pc.refs])
  have hcl : ∀ r ∈ c.refs, r ∈ L := fun r h => f.refs r (by simp [Pc.refs, h])
  have hrest : ∀ r ∈ Path.refs (i + 1) path, r ∈ L := fun r h => f.refs r (by simp [Pc.refs, h])
  simp only [next] at hn
  split at hn
  · next hnext =>
    obtain ⟨rfl, rfl⟩ := Prod.mk.inj (Option.some.inj hn)
    have e : Effect σ G L (Pc.findCas c i p d s path).owns L (σ.setNext p i (Ptr.addr s)) :=
      Effect.swing p d s i _ hpl hnext hds
    have k := e.kept hm
    refine f.stepOk e (findDone_refs hm f.fits hpath hpl hsl hcl hrest) (findDone_fits f.fits) ?_
      (Or.inr ⟨findDone_pending _ _ _ _ _, rfl⟩)
    exact findDone_local f.fits hi (k.pathOk hrest hpath) ((k.rank_eq hpl).trans_lt hp)
      (hle.trans_eq (k.rank_eq hsl).symm) (k.findOk hcl hc)
  · obtain ⟨rfl, rfl⟩ := Prod.mk.inj (Option.some.inj hn)
    exact f.stepOk_idle (FindCtx.retry_refs hm hcl) f.fits (FindCtx.retry_local hc) (Or.inr rfl)

theorem DeleteCtx.mem_refs (d : DeleteCtx) (n : Loc) : (n, 0) ∈ d.refs n := by
  cases d <;> simp [DeleteCtx.refs]

theorem DeleteOk.dead {d : DeleteCtx} (h : DeleteOk σ op n d) : σ.dead 0 n := by
  cases d with
  | find c pred predNext succNext path => exact h.2.2.2.1
  | remove r => exact h.2
  | contains => exact h.2

theorem afterDelete_refs {d : DeleteCtx} (hm : MemInv σ G L) (hr : ∀ r ∈ d.refs n, r ∈ L) :
    ∀ r ∈ (afterDelete n d).refs, r ∈ L := by
  cases d with
  | find c pred predNext succNext path =>
    simp only [DeleteCtx.refs, List.mem_cons, forall_eq_or_imp] at hr
    simp only [afterDelete, Pc.refs, List.mem_cons, forall_eq_or_imp]
    exact ⟨hr.1, hr.2.1, hr.2.2.1, hr.2.2.2.2⟩
  | remove r =>
    simp only [afterDelete]
    split
    · exact FindCtx.retry_refs hm hr
    · exact fun r h => by cases h
  | contains => exact fun r h => by cases h

theorem afterDelete_local {d : DeleteCtx} (h : DeleteOk σ op n d) (ha : AllMarked (σ.line n)) :
    Local σ op (afterDelete n d) := by
  cases d with
  | find c pred predNext succNext path =>
    obtain ⟨hp, hs, hd, hn, hnext, hpath, hf⟩ := h
    exact ⟨by decide, hp, hpath, hf, hs, hd.tail hn (fun _ => ha) hnext⟩
  | remove r =>
    simp only [afterDelete]
    split
    · exact FindCtx.retry_local h
    · trivial
  | contains => trivial

theorem afterDelete_fits {d : DeleteCtx} (h : d.Fits op) : (afterDelete n d).Fits op := by
  cases d with
  | find c pred predNext succNext path => exact h
  | remove r =>
    simp only [afterDelete]
    split
    · exact h
    · trivial
  | contains => trivial

theorem afterDelete_pending (n : Loc) (d : DeleteCtx) :
    (afterDelete n d).pending = none ∨ (afterDelete n d).pending = d.pending := by
  cases d with
  | find c pred predNext succNext path => exact Or.inr rfl
  | remove r =>
    simp only [afterDelete]
    split <;> exact Or.inl rfl
  | contains => exact Or.inl rfl

theorem Fit.step_deleteLoad {d : DeleteCtx} (hm : MemInv σ G L) (f : Fit σ L op (.deleteLoad d n))
    (hn : next σ op slot level (.deleteLoad d n) = some (σ', pc')) :
    StepOk σ G L op (.deleteLoad d n) σ' pc' := by
  simp only [next] at hn
  split at hn
  · next hfl =>
    obtain ⟨rfl, rfl⟩ := Prod.mk.inj (Option.some.inj hn)
    have hnl := f.refs _ (d.mem_refs n)
    exact f.stepOk_idle (afterDelete_refs hm f.refs) (afterDelete_fits f.fits)
      (afterDelete_local f.loc (hm.deleteFlag hnl hfl)) (afterDelete_pending n d)
  · obtain ⟨rfl, rfl⟩ := Prod.mk.inj (Option.some.inj hn)
    exact f.stepOk_idle f.refs f.fits f.loc (Or.inr rfl)

theorem Fit.step_deleteFlush {d : DeleteCtx} (hm : MemInv σ G L)
    (f : Fit σ L op (.deleteFlush d n))
    (hn : next σ op slot level (.deleteFlush d n) = some (σ', pc')) :
    StepOk σ G L op (.deleteFlush d n) σ' pc' := by
  simp only [next] at hn
  obtain ⟨rfl, rfl⟩ := Prod.mk.inj (Option.some.inj hn)
  have hnl := f.refs _ (d.mem_refs n)
  have e := effect_flush hm (Pc.deleteFlush d n).owns hnl
  refine f.stepOk e f.refs f.fits ⟨?_, ?_⟩ (Or.inr ⟨rfl, rfl⟩)
  · exact (e.kept hm).deleteOk hm.sound.closed f.refs f.loc
  · change AllMarked ((σ.setLine n _).line n)
    rw [line_setLine_self]
    exact Line.all_flush f.loc.dead

theorem Fit.step_deleteStore {d : DeleteCtx} (hm : MemInv σ G L)
    (f : Fit σ L op (.deleteStore d n))
    (hn : next σ op slot level (.deleteStore d n) = some (σ', pc')) :
    StepOk σ G L op (.deleteStore d n) σ' pc' := by
  simp only [next] at hn
  obtain ⟨rfl, rfl⟩ := Prod.mk.inj (Option.some.inj hn)
  have hnl := f.refs _ (d.mem_refs n)
  have e := effect_write hm (Pc.deleteStore d n).owns hnl
    (m := { σ.node n with deleteFlag := true }) rfl rfl rfl id (Or.inl rfl) (Or.inr f.loc.2)
  have k := e.kept hm
  refine f.stepOk e (afterDelete_refs hm f.refs) (afterDelete_fits f.fits) ?_
    ((afterDelete_pending n d).imp_right fun h => ⟨h, rfl⟩)
  exact afterDelete_local (k.deleteOk hm.sound.closed f.refs f.loc.1)
    ((k.evolves hnl).marked f.loc.2)

theorem persist_write (hm : MemInv σ G L) (fresh : (n, 0) ∉ L) {m : Node V}
    (hn : m.next 0 = (σ.node n).next 0) (hd : (m.next 0).marked = true)
    (hr : (m.next 0).ref ≠ none) : AllMarked ((σ.line n).write m) := by
  have hl : ¬ (σ.level 0).Linked n := fun h => fresh (hm.live_of_linked h)
  rw [hn] at hr
  exact (hm.persist hl (hn.symm ▸ hd : ((σ.node n).next 0).marked = true) hr).write hd

theorem Fit.stepOk_priv (hm : MemInv σ G L) (f : Fit σ L op pc) {m : Node V}
    (hp : pc.pending = some (n, 0)) (hp' : pc'.pending = some (n, 0))
    (persist : (m.next 0).marked = true → (m.next 0).ref ≠ none →
      AllMarked ((σ.line n).write m))
    (hr : ∀ r ∈ pc'.refs, r ∈ L) (hf : pc'.Fits op)
    (hl : Kept σ L (some n) L (σ.write n m) → (σ.write n m).node n = m →
      Local (σ.write n m) op pc') : StepOk σ G L op pc (σ.write n m) pc' := by
  have e : Effect σ G L (some n) L (σ.write n m) :=
    Effect.priv n m (f.fresh _ hp) (f.avail n hp) persist
  refine f.stepOk (owns_of_pending hp ▸ e) hr hf ?_ (Or.inr ⟨hp'.trans hp.symm, rfl⟩)
  exact hl (e.kept hm) (node_write_self σ n m)

theorem Fit.step_flipLoad (f : Fit σ L op (.flipLoad path n j))
    (hn : next σ op slot level (.flipLoad path n j) = some (σ', pc')) :
    StepOk σ G L op (.flipLoad path n j) σ' pc' := by
  simp only [next] at hn
  obtain ⟨rfl, rfl⟩ := Prod.mk.inj (Option.some.inj hn)
  exact f.stepOk_idle f.refs f.fits f.loc (Or.inr rfl)

theorem Fit.step_flipStore {old : Uchar} (hm : MemInv σ G L) (f : Fit σ L op (.flipStore path n j old))
    (hn : next σ op slot level (.flipStore path n j old) = some (σ', pc')) :
    StepOk σ G L op (.flipStore path n j old) σ' pc' := by
  simp only [next] at hn
  obtain ⟨rfl, rfl⟩ := Prod.mk.inj (Option.some.inj hn)
  refine f.stepOk_priv hm rfl rfl (persist_write hm (f.fresh _ rfl) rfl) f.refs f.fits ?_
  exact fun k _ => ⟨k.gapOk f.refs f.loc.1, f.loc.2⟩

theorem Fit.step_initInsertFlag (hm : MemInv σ G L) (f : Fit σ L op (.initInsertFlag path n j))
    (hn : next σ op slot level (.initInsertFlag path n j) = some (σ', pc')) :
    StepOk σ G L op (.initInsertFlag path n j) σ' pc' := by
  simp only [next] at hn
  obtain ⟨rfl, rfl⟩ := Prod.mk.inj (Option.some.inj hn)
  refine f.stepOk_priv hm rfl rfl (persist_write hm (f.fresh _ rfl) rfl) f.refs f.fits ?_
  intro k hself
  refine ⟨k.gapOk f.refs f.loc.1, ?_, f.loc.2⟩
  rw [hself]

theorem Fit.step_initDeleteFlag (hm : MemInv σ G L) (f : Fit σ L op (.initDeleteFlag path n j))
    (hn : next σ op slot level (.initDeleteFlag path n j) = some (σ', pc')) :
    StepOk σ G L op (.initDeleteFlag path n j) σ' pc' := by
  simp only [next] at hn
  obtain ⟨rfl, rfl⟩ := Prod.mk.inj (Option.some.inj hn)
  refine f.stepOk_priv hm rfl rfl (persist_write hm (f.fresh _ rfl) rfl) f.refs f.fits ?_
  intro k hself
  refine ⟨k.gapOk f.refs f.loc.1, ?_, ?_, f.loc.2.2⟩ <;> rw [hself]
  exact f.loc.2.1

theorem Fit.step_initKey (hm : MemInv σ G L) (f : Fit σ L op (.initKey path n j))
    (hn : next σ op slot level (.initKey path n j) = some (σ', pc')) :
    StepOk σ G L op (.initKey path n j) σ' pc' := by
  simp only [next] at hn
  obtain ⟨rfl, rfl⟩ := Prod.mk.inj (Option.some.inj hn)
  refine f.stepOk_priv hm rfl rfl (persist_write hm (f.fresh _ rfl) rfl) f.refs f.fits ?_
  intro k hself
  refine ⟨⟨k.gapOk f.refs f.loc.1, ?_, ?_, ?_⟩, f.loc.2.2.2⟩ <;> rw [hself]
  · exact f.loc.2.1
  · exact f.loc.2.2.1

theorem Fit.step_initValue (hm : MemInv σ G L) (f : Fit σ L op (.initValue path n j))
    (hn : next σ op slot level (.initValue path n j) = some (σ', pc')) :
    StepOk σ G L op (.initValue path n j) σ' pc' := by
  cases op with
  | insert k v =>
    simp only [next] at hn
    obtain ⟨rfl, rfl⟩ := Prod.mk.inj (Option.some.inj hn)
    refine f.stepOk_priv hm rfl rfl (persist_write hm (f.fresh _ rfl) rfl) f.refs f.fits ?_
    intro k hself
    refine ⟨⟨k.gapOk f.refs f.loc.1.gap, ?_, ?_, ?_⟩, f.loc.2⟩ <;> rw [hself]
    · exact f.loc.1.insertFlag
    · exact f.loc.1.deleteFlag
    · exact f.loc.1.key
  | remove k => cases hn
  | contains k => cases hn

theorem Fit.step_initTopLevel (hm : MemInv σ G L) (f : Fit σ L op (.initTopLevel path n j))
    (hn : next σ op slot level (.initTopLevel path n j) = some (σ', pc')) :
    StepOk σ G L op (.initTopLevel path n j) σ' pc' := by
  simp only [next] at hn
  obtain ⟨rfl, rfl⟩ := Prod.mk.inj (Option.some.inj hn)
  refine f.stepOk_priv hm rfl rfl (persist_write hm (f.fresh _ rfl) rfl) f.refs f.fits ?_
  intro k hself
  refine ⟨⟨⟨k.gapOk f.refs f.loc.1.gap, ?_, ?_, ?_⟩, ?_, ?_, fun a ha => by omega⟩, ?_⟩ <;>
    rw [hself]
  · exact f.loc.1.insertFlag
  · exact f.loc.1.deleteFlag
  · exact f.loc.1.key
  · exact f.loc.2.1
  · exact f.loc.2.2
  · exact f.loc.2.1

theorem filled_setNext {e : Loc × Loc} (he : path[i]? = some e) (h : Filled σ path n i) :
    Filled (σ.setNext n i (Ptr.addr e.2)) path n (i + 1) := by
  intro j hj
  rw [next_setNext]
  by_cases hji : j = i
  · subst hji
    exact ⟨e, he, if_pos ⟨rfl, rfl⟩⟩
  · rw [if_neg fun h => hji h.2]
    exact h j (by omega)

theorem Fit.step_initNext (hm : MemInv σ G L) (f : Fit σ L op (.initNext path n i))
    (hn : next σ op slot level (.initNext path n i) = some (σ', pc')) :
    StepOk σ G L op (.initNext path n i) σ' pc' := by
  obtain ⟨ho, hlt⟩ := f.loc
  simp only [next] at hn
  obtain ⟨e, he, hn⟩ := Option.map_eq_some_iff.1 hn
  obtain ⟨rfl, hpc⟩ := Prod.mk.inj hn
  have hf := setNext_fields σ n i (Ptr.addr e.2) n
  have ok : Kept σ L (some n) L (σ.setNext n i (Ptr.addr e.2)) →
      NextOk (σ.setNext n i (Ptr.addr e.2)) op path n (i + 1) := by
    intro k
    refine ⟨⟨k.gapOk ?_ ho.init.gap, ?_, ?_, ?_⟩, ?_, ?_, filled_setNext he ho.filled⟩
    · exact f.refs
    · rw [hf.2.2.2.1]
      exact ho.init.insertFlag
    · rw [hf.2.2.2.2]
      exact ho.init.deleteFlag
    · rw [hf.1]
      exact ho.init.key
    · rw [hf.2.1]
      exact ho.pos
    · rw [hf.2.1]
      exact ho.le
  have persist : ((((σ.node n).setNext i (Ptr.addr e.2)).next 0).marked = true →
      (((σ.node n).setNext i (Ptr.addr e.2)).next 0).ref ≠ none →
      AllMarked ((σ.line n).write ((σ.node n).setNext i (Ptr.addr e.2)))) := by
    by_cases h0 : i = 0
    · intro hd
      simp [Node.setNext, h0, Ptr.addr] at hd
    · exact persist_write hm (f.fresh _ rfl) (by simp [Node.setNext, Ne.symm h0])
  subst hpc
  split
  · next hlt' =>
    refine f.stepOk_priv hm rfl rfl persist f.refs f.fits fun k _ => ⟨ok k, ?_⟩
    change i + 1 < ((σ.setNext n i (Ptr.addr e.2)).node n).topLevel
    rw [hf.2.1]
    exact hlt'
  · next hlt' =>
    refine f.stepOk_priv hm rfl rfl persist f.refs f.fits fun k _ => ?_
    change NextOk (σ.setNext n i (Ptr.addr e.2)) op path n
      ((σ.setNext n i (Ptr.addr e.2)).node n).topLevel
    rw [hf.2.1, show (σ.node n).topLevel = i + 1 by omega]
    exact ok k

theorem Fit.step_lostStore (hm : MemInv σ G L) (f : Fit σ L op (.lostStore n))
    (hn : next σ op slot level (.lostStore n) = some (σ', pc')) :
    StepOk σ G L op (.lostStore n) σ' pc' := by
  simp only [next] at hn
  obtain ⟨rfl, rfl⟩ := Prod.mk.inj (Option.some.inj hn)
  refine f.stepOk_priv hm rfl rfl ?_ (fun r h => nomatch h) f.fits fun _ _ => trivial
  intro _ hr
  simp [Node.setNext, Ptr.null, Ptr.mark] at hr

theorem Fit.step_lostFree (hm : MemInv σ G L) (f : Fit σ L op (.lostFree n))
    (hn : next σ op slot level (.lostFree n) = some (σ', pc')) :
    StepOk σ G L op (.lostFree n) σ' pc' := by
  simp only [next] at hn
  obtain ⟨rfl, rfl⟩ := Prod.mk.inj (Option.some.inj hn)
  have hins : op.IsInsert := f.fits
  refine f.stepOk (Effect.give n _ (Or.inl rfl)) (retry_refs hm) ?_ (retry_local _ op) (Or.inl rfl)
  cases op with
  | insert k v => exact id
  | _ => exact hins.elim

theorem Fit.step_alloc (hm : MemInv σ G L) (f : Fit σ L op (.alloc path))
    (hs : σ.avail slot = true ∧ 1 ≤ level ∧ level ≤ MAX_LEVEL) (hl : (slot, 0) ∉ L)
    (hn : next σ op slot level (.alloc path) = some (σ', pc')) :
    StepOk σ G L op (.alloc path) σ' pc' := by
  simp only [next] at hn
  obtain ⟨rfl, rfl⟩ := Prod.mk.inj (Option.some.inj hn)
  have e : Effect σ G L (Pc.alloc path).owns L (σ.take slot) := Effect.take slot _
  refine ⟨L, e, ⟨f.refs, f.key, f.fits, ⟨(e.kept hm).gapOk f.refs f.loc, hs.2⟩, ?_, ?_⟩, ?_⟩
  · intro c hc
    obtain rfl := Option.some.inj hc
    exact hl
  · intro n hn
    obtain rfl : slot = n := congrArg Prod.fst (Option.some.inj hn)
    simp [Store.take]
  · intro n hn
    obtain rfl : slot = n := Option.some.inj hn
    exact Or.inr ⟨hs.1, hl⟩

theorem ValidCtx.mem_refs {d : ValidCtx} (n : Loc) (hd : d ≠ .lost) : (n, 0) ∈ d.refs n := by
  cases d <;> simp_all [ValidCtx.refs]

theorem afterValid_refs {d : ValidCtx} (hr : ∀ r ∈ d.refs n, r ∈ L) :
    ∀ r ∈ (afterValid σ n d).refs, r ∈ L := by
  cases d with
  | lost => exact fun r h => nomatch h
  | _ => exact hr

theorem afterValid_fits {d : ValidCtx} (h : d.Fits op) : (afterValid σ n d).Fits op := by
  cases d <;> exact h

theorem afterValid_pending (σ : Store V) (n : Loc) (d : ValidCtx) :
    (afterValid σ n d).pending = d.pending n := by
  cases d <;> rfl

theorem afterValid_local {d : ValidCtx} (hm : MemInv σ G L) (hr : ∀ r ∈ d.refs n, r ∈ L)
    (h : ValidOk σ op n d) (hv : isValid (σ.node n).metaData = true) :
    Local σ op (afterValid σ n d) := by
  cases d with
  | found => exact ⟨h, hv⟩
  | linked path => exact ⟨h, hv⟩
  | lost => trivial
  | removing =>
    have ht := (hm.level (hr (n, 0) (by simp [ValidCtx.refs]))).1
    exact ⟨h, by omega, fun j h1 h2 => by omega⟩
  | contains => exact ⟨h, hv⟩

theorem Fit.step_validLoad {d : ValidCtx} (hm : MemInv σ G L) (f : Fit σ L op (.validLoad d n))
    (hn : next σ op slot level (.validLoad d n) = some (σ', pc')) :
    StepOk σ G L op (.validLoad d n) σ' pc' := by
  simp only [next] at hn
  split at hn
  · next hv =>
    obtain ⟨rfl, rfl⟩ := Prod.mk.inj (Option.some.inj hn)
    exact f.stepOk_idle (afterValid_refs f.refs) (afterValid_fits f.fits)
      (afterValid_local hm f.refs f.loc hv) (Or.inr (afterValid_pending σ n d))
  · obtain ⟨rfl, rfl⟩ := Prod.mk.inj (Option.some.inj hn)
    exact f.stepOk_idle f.refs f.fits f.loc (Or.inr rfl)

theorem afterValid_write (σ : Store V) (n : Loc) (a : Uchar) (d : ValidCtx) :
    afterValid (σ.write n { σ.node n with metaData := a }) n d = afterValid σ n d := by
  cases d <;> simp only [afterValid, node_write_self]

theorem Fit.step_validStore {d : ValidCtx} {old : Uchar} (hm : MemInv σ G L)
    (f : Fit σ L op (.validStore d n old))
    (hn : next σ op slot level (.validStore d n old) = some (σ', pc')) :
    StepOk σ G L op (.validStore d n old) σ' pc' := by
  simp only [next] at hn
  obtain ⟨rfl, rfl⟩ := Prod.mk.inj (Option.some.inj hn)
  by_cases hd : d = .lost
  · subst hd
    exact f.stepOk_priv hm rfl rfl (persist_write hm (f.fresh _ rfl) rfl) (afterValid_refs f.refs)
      f.fits fun _ _ => trivial
  · have hnl := f.refs _ (ValidCtx.mem_refs n hd)
    have e := effect_write hm (Pc.validStore d n old).owns hnl
      (m := { σ.node n with metaData := makeValid old }) rfl rfl rfl
      (fun _ => isValid_makeValid old) (Or.inl rfl) (Or.inl rfl)
    rw [← afterValid_write σ n (makeValid old) d]
    refine f.stepOk e (afterValid_refs f.refs) (afterValid_fits f.fits) ?_
      (Or.inr ⟨afterValid_pending _ n d, rfl⟩)
    refine afterValid_local (e.memInv hm) f.refs ((e.kept hm).validOk f.refs f.loc) ?_
    rw [node_write_self]
    exact isValid_makeValid old

theorem InsertOk.rank {d : InsertCtx} (h : InsertOk σ op n d) : rank σ n = (op.key : ℤ) := by
  cases d with
  | linked path => exact h.1
  | found => exact h
  | contains => exact h

theorem upper_refs (hp : (n, i) ∈ L) (hr : ∀ r ∈ Path.refs 0 path, r ∈ L) :
    ∀ r ∈ (upper σ path n (i + 1)).refs, r ∈ L := by
  unfold upper
  split
  · simp only [Pc.refs, List.mem_cons, forall_eq_or_imp]
    exact ⟨hp, hr⟩
  · exact fun r h => by cases h

theorem upper_fits (hf : op.IsInsert) : (upper σ path n i).Fits op := by
  unfold upper
  split
  · exact hf
  · trivial

theorem upper_local (hp : PathOk σ op 0 path) (hr : rank σ n = (op.key : ℤ)) :
    Local σ op (upper σ path n (i + 1)) := by
  unfold upper
  split
  · next h => exact ⟨hp, hr, by omega, h⟩
  · trivial

theorem upper_pending (σ : Store V) (path : Path) (n : Loc) (i : ℕ) :
    (upper σ path n i).pending = none ∨ (upper σ path n i).pending = some (n, i) := by
  unfold upper
  split
  · exact Or.inr rfl
  · exact Or.inl rfl

theorem afterInsert_refs {d : InsertCtx} (hr : ∀ r ∈ d.refs n, r ∈ L) :
    ∀ r ∈ (afterInsert σ n d).refs, r ∈ L := by
  cases d with
  | linked path =>
    exact upper_refs (hr (n, 0) (by simp [InsertCtx.refs]))
      fun r h => hr r (by simp [InsertCtx.refs, h])
  | found => exact fun r h => by cases h
  | contains => exact fun r h => by cases h

theorem afterInsert_fits {d : InsertCtx} (h : d.Fits op) : (afterInsert σ n d).Fits op := by
  cases d with
  | linked path => exact upper_fits h
  | found => trivial
  | contains => trivial

theorem afterInsert_local {d : InsertCtx} (h : InsertOk σ op n d) :
    Local σ op (afterInsert σ n d) := by
  cases d with
  | linked path => exact upper_local h.2 h.1
  | found => trivial
  | contains => trivial

theorem afterInsert_pending (σ : Store V) (n : Loc) (d : InsertCtx) :
    (afterInsert σ n d).pending = none ∨ (afterInsert σ n d).pending = d.pending n := by
  cases d with
  | linked path => exact upper_pending σ path n 1
  | found => exact Or.inl rfl
  | contains => exact Or.inl rfl

theorem Fit.step_insertLoad {d : InsertCtx} (f : Fit σ L op (.insertLoad d n))
    (hn : next σ op slot level (.insertLoad d n) = some (σ', pc')) :
    StepOk σ G L op (.insertLoad d n) σ' pc' := by
  simp only [next] at hn
  split at hn
  · obtain ⟨rfl, rfl⟩ := Prod.mk.inj (Option.some.inj hn)
    exact f.stepOk_idle (afterInsert_refs f.refs) (afterInsert_fits f.fits)
      (afterInsert_local f.loc.1) (afterInsert_pending σ n d)
  · obtain ⟨rfl, rfl⟩ := Prod.mk.inj (Option.some.inj hn)
    exact f.stepOk_idle f.refs f.fits f.loc (Or.inr rfl)

theorem Fit.step_insertFlush {d : InsertCtx} (hm : MemInv σ G L)
    (f : Fit σ L op (.insertFlush d n))
    (hn : next σ op slot level (.insertFlush d n) = some (σ', pc')) :
    StepOk σ G L op (.insertFlush d n) σ' pc' := by
  simp only [next] at hn
  obtain ⟨rfl, rfl⟩ := Prod.mk.inj (Option.some.inj hn)
  have e := effect_flush hm (Pc.insertFlush d n).owns (f.refs _ (d.mem_refs n))
  refine f.stepOk e f.refs f.fits ⟨(e.kept hm).insertOk f.refs f.loc.1, ?_⟩ (Or.inr ⟨rfl, rfl⟩)
  change AllValid ((σ.setLine n _).line n)
  rw [line_setLine_self]
  exact Line.all_flush f.loc.2

theorem afterInsert_write (σ : Store V) (n : Loc) (d : InsertCtx) :
    afterInsert (σ.write n { σ.node n with insertFlag := true }) n d = afterInsert σ n d := by
  cases d <;> simp only [afterInsert, upper, node_write_self]

theorem Fit.step_insertStore {d : InsertCtx} (hm : MemInv σ G L)
    (f : Fit σ L op (.insertStore d n))
    (hn : next σ op slot level (.insertStore d n) = some (σ', pc')) :
    StepOk σ G L op (.insertStore d n) σ' pc' := by
  simp only [next] at hn
  obtain ⟨rfl, rfl⟩ := Prod.mk.inj (Option.some.inj hn)
  have e := effect_write hm (Pc.insertStore d n).owns (f.refs _ (d.mem_refs n))
    (m := { σ.node n with insertFlag := true }) rfl rfl rfl id (Or.inr f.loc.2) (Or.inl rfl)
  rw [← afterInsert_write σ n d]
  exact f.stepOk e (afterInsert_refs f.refs) (afterInsert_fits f.fits)
    (afterInsert_local ((e.kept hm).insertOk f.refs f.loc.1))
    ((afterInsert_pending _ n d).imp_right fun h => ⟨h, rfl⟩)

-- the two conditions that insert does not test when it links newNode at an upper level
def Pc.Tidy (G : ℕ) (σ : Store V) : Pc → Prop
  | .upperLink path n i => i < G → ∀ e, path[i]? = some e →
      (σ.node e.1).next i = Ptr.addr e.2 → ¬ σ.dead i n ∧ rank σ n < rank σ e.2
  | _ => True

theorem Fit.step_linkCas (hm : MemInv σ G L) (f : Fit σ L op (.linkCas path n))
    (hn : next σ op slot level (.linkCas path n) = some (σ', pc')) :
    StepOk σ G L op (.linkCas path n) σ' pc' := by
  have ho : NextOk σ op path n (σ.node n).topLevel := f.loc
  have hins : op.IsInsert := f.fits
  simp only [next] at hn
  obtain ⟨e, he, hn⟩ := Option.map_eq_some_iff.1 hn
  have hel : (e.1, 0) ∈ L := by
    have := (Path.get_refs (i := 0) he).1
    exact f.refs _ this
  split at hn
  · next hnext =>
    obtain ⟨rfl, rfl⟩ := Prod.mk.inj hn
    have hfresh : (n, 0) ∉ L := f.fresh _ rfl
    have hnh : n ≠ head := by
      rintro rfl
      exact hfresh (hm.sound.head_mem (by decide))
    have hrank : rank σ n = (op.key : ℤ) := rank_eq_of_key ho.init.key hnh
    obtain ⟨e', he', hfill⟩ := ho.filled 0 ho.pos
    obtain rfl := Option.some.inj (he.symm.trans he')
    have hdead : ∀ j < (σ.node n).topLevel, ¬ σ.dead j n := by
      intro j hj
      obtain ⟨e', _, h⟩ := ho.filled j hj
      exact dead_of_addr h
    have ef : Effect σ G L (Pc.linkCas path n).owns (insert (n, 0) L)
        (σ.setNext e.1 0 (Ptr.addr n)) := by
      refine Effect.join e.1 n e.2 0 hel hnext hfresh (fun j h => by omega) (ref_of_addr hfill) ho.pos
        (fun _ => ⟨hdead 0 ho.pos, ?_, ?_⟩)
        fun _ => ⟨ho.le, ho.init.insertFlag, ho.init.deleteFlag, hdead⟩
      · rw [hrank]
        exact ho.init.gap.levels.below e (List.mem_of_getElem? he)
      · rw [hrank]
        exact ho.init.gap.gap e he
    have k := ef.kept hm
    have hp : (Pc.validLoad (.linked path) n).pending = some (n, 1) := rfl
    refine ⟨_, ef, ⟨?_, f.key, hins, ⟨?_, k.pathOk f.refs ho.init.gap.levels⟩, ?_, ?_⟩, ?_⟩
    · simp only [Pc.refs, ValidCtx.refs, List.mem_cons, forall_eq_or_imp]
      exact ⟨Set.mem_insert _ _, fun r h => Set.mem_insert_of_mem _ (f.refs r h)⟩
    · rw [rank_setNext]
      exact hrank
    · intro c hc hcl
      obtain rfl := Option.some.inj (hp.symm.trans hc)
      rcases Set.mem_insert_iff.1 hcl with h | h
      · cases (Prod.mk.inj h).2
      · exact hfresh (hm.base h)
    · intro m hm'
      cases (Prod.mk.inj (Option.some.inj (hp.symm.trans hm'))).2
    · exact fun m hm' => Or.inl hm'
  · obtain ⟨rfl, rfl⟩ := Prod.mk.inj hn
    exact f.stepOk_idle (fun r h => by cases h) hins trivial (Or.inr rfl)

theorem UpperOk.ne_head (h : UpperOk σ op path n i) : n ≠ head := ne_head_of_le h.rank.ge

theorem ne_tail_of_rank (hm : MemInv σ G L) (hk : op.key < INT_MAX)
    (h : rank σ n ≤ (op.key : ℤ)) : n ≠ tail := by
  rintro rfl
  rw [hm.tail_rank] at h
  exact absurd (WithBot.coe_le_coe.1 h) (not_le.2 hk)

theorem Fit.step_upperLoad (f : Fit σ L op (.upperLoad path n i))
    (hn : next σ op slot level (.upperLoad path n i) = some (σ', pc')) :
    StepOk σ G L op (.upperLoad path n i) σ' pc' := by
  simp only [next] at hn
  split at hn
  · obtain ⟨rfl, rfl⟩ := Prod.mk.inj (Option.some.inj hn)
    exact f.stepOk_idle (fun r h => nomatch h) trivial trivial (Or.inl rfl)
  · next hmk =>
    obtain ⟨e, he, hn⟩ := Option.map_eq_some_iff.1 hn
    obtain ⟨rfl, rfl⟩ := Prod.mk.inj hn
    split
    · next hnext =>
      refine f.stepOk_idle f.refs f.fits ⟨f.loc, fun e' he' => ?_⟩ (Or.inr rfl)
      obtain rfl := Option.some.inj (he.symm.trans he')
      exact ref_of_addr hnext
    · exact f.stepOk_idle f.refs f.fits ⟨f.loc, by simpa [Ptr.isMarked] using hmk⟩ (Or.inr rfl)

theorem Fit.step_upperCas (hm : MemInv σ G L) (f : Fit σ L op (.upperCas path n i q))
    (hn : next σ op slot level (.upperCas path n i q) = some (σ', pc')) :
    StepOk σ G L op (.upperCas path n i q) σ' pc' := by
  obtain ⟨ho, hq⟩ := f.loc
  have hnl : (n, i - 1) ∈ L := f.refs _ (by simp [Pc.refs])
  have hrest : ∀ r ∈ Path.refs 0 path, r ∈ L := fun r h => f.refs r (by simp [Pc.refs, h])
  simp only [next] at hn
  obtain ⟨e, he, hn⟩ := Option.map_eq_some_iff.1 hn
  split at hn
  · next hnext =>
    obtain ⟨rfl, rfl⟩ := Prod.mk.inj hn
    have halive : ¬ σ.dead i n := by
      unfold Store.dead
      rw [hnext, hq]
      exact Bool.false_ne_true
    have ef : Effect σ G L (Pc.upperCas path n i q).owns L (σ.setNext n i (Ptr.addr e.2)) :=
      effect_next hm _ (hm.base hnl) halive (Or.inr ⟨rfl, f.fresh _ rfl⟩) (fun h => by cases h) ho.lt
        ho.ne_head (ne_tail_of_rank hm f.key ho.rank.le)
    refine f.stepOk ef f.refs f.fits ⟨(ef.kept hm).upperOk hnl hrest ho, fun e' he' => ?_⟩
      (Or.inr ⟨rfl, rfl⟩)
    obtain rfl := Option.some.inj (he.symm.trans he')
    rw [next_setNext_self]
    rfl
  · obtain ⟨rfl, rfl⟩ := Prod.mk.inj hn
    exact f.stepOk_idle (fun r h => by cases h) trivial trivial (Or.inl rfl)

theorem Fit.step_upperLink (hm : MemInv σ G L) (f : Fit σ L op (.upperLink path n i))
    (tidy : (Pc.upperLink path n i).Tidy G σ)
    (hn : next σ op slot level (.upperLink path n i) = some (σ', pc')) :
    StepOk σ G L op (.upperLink path n i) σ' pc' := by
  obtain ⟨ho, href⟩ := f.loc
  have hpos := ho.pos
  have hnl : (n, i - 1) ∈ L := f.refs _ (by simp [Pc.refs])
  have hrest : ∀ r ∈ Path.refs 0 path, r ∈ L := fun r h => f.refs r (by simp [Pc.refs, h])
  simp only [next] at hn
  obtain ⟨e, he, hn⟩ := Option.map_eq_some_iff.1 hn
  split at hn
  · next hnext =>
    obtain ⟨rfl, rfl⟩ := Prod.mk.inj hn
    have hel : (e.1, i) ∈ L := by
      have := (Path.get_refs (i := 0) he).1
      rw [Nat.zero_add] at this
      exact hrest _ this
    have hfresh : (n, i) ∉ L := f.fresh _ rfl
    have ef : Effect σ G L (Pc.upperLink path n i).owns (insert (n, i) L)
        (σ.setNext e.1 i (Ptr.addr n)) := by
      refine Effect.join e.1 n e.2 i hel hnext hfresh ?_ (href e he) ho.lt ?_ ?_
      · rintro j rfl
        exact hnl
      · intro hi
        refine ⟨(tidy hi e he hnext).1, ?_, (tidy hi e he hnext).2⟩
        rw [ho.rank]
        exact ho.levels.below e (List.mem_of_getElem? he)
      · exact fun h => by omega
    have k := ef.kept hm
    refine ⟨_, ef, ⟨?_, f.key, upper_fits f.fits, ?_, ?_, ?_⟩, ?_⟩
    · exact upper_refs (Set.mem_insert _ _) fun r h => Set.mem_insert_of_mem _ (hrest r h)
    · rw [show upper σ path n (i + 1) = upper (σ.setNext e.1 i (Ptr.addr n)) path n (i + 1) by
        simp only [upper, (setNext_fields σ e.1 i (Ptr.addr n) n).2.1]]
      exact upper_local (k.pathOk hrest ho.levels) ((rank_setNext _ _ _ _ _).trans ho.rank)
    · intro c hc hcl
      rcases upper_pending σ path n (i + 1) with h | h
      · rw [h] at hc
        cases hc
      · rw [h] at hc
        obtain rfl := Option.some.inj hc
        rcases Set.mem_insert_iff.1 hcl with h | h
        · have := (Prod.mk.inj h).2
          omega
        · exact hfresh (hm.sound.closed.down h)
    · intro m hm'
      rcases upper_pending σ path n (i + 1) with h | h
      · rw [h] at hm'
        cases hm'
      · rw [h] at hm'
        have := (Prod.mk.inj (Option.some.inj hm')).2
        omega
    · intro m hm'
      obtain ⟨j, hj⟩ := pending_of_owns hm'
      rcases upper_pending σ path n (i + 1) with h | h
      · rw [h] at hj
        cases hj
      · obtain ⟨rfl, _⟩ := Prod.mk.inj (Option.some.inj (h.symm.trans hj))
        exact Or.inl rfl
  · obtain ⟨rfl, rfl⟩ := Prod.mk.inj hn
    refine f.stepOk_idle (FindCtx.retry_refs hm ?_) f.fits
      (FindCtx.retry_local ⟨ho.rank, ho.pos, ho.lt⟩) (Or.inr rfl)
    simpa [FindCtx.refs] using hnl

theorem marked_refs {r : Bool} (hn : (n, 0) ∈ L) : ∀ c ∈ (marked n r i).refs, c ∈ L := by
  cases i <;> simpa [marked, Pc.refs, DeleteCtx.refs] using hn

theorem marked_fits {r : Bool} (hf : op.IsRemove) : (marked n r i).Fits op := by
  cases i <;> exact hf

theorem marked_local {r : Bool} (h : MarkOk σ op n i) (hd : σ.dead i n) :
    Local σ op (marked n r i) := by
  cases i with
  | zero => exact ⟨h.rank, hd⟩
  | succ i =>
    refine ⟨h.rank, by have := h.lt; omega, fun j hj hlt => ?_⟩
    by_cases he : j = i + 1
    · exact he ▸ hd
    · exact h.above j (by omega) hlt

theorem marked_pending (n : Loc) (r : Bool) (i : ℕ) : (marked n r i).pending = none := by
  cases i <;> rfl

theorem Fit.step_markLoad (f : Fit σ L op (.markLoad n i))
    (hn : next σ op slot level (.markLoad n i) = some (σ', pc')) :
    StepOk σ G L op (.markLoad n i) σ' pc' := by
  have hnl : (n, 0) ∈ L := f.refs _ (by simp [Pc.refs])
  simp only [next] at hn
  split at hn
  · next hmk =>
    obtain ⟨rfl, rfl⟩ := Prod.mk.inj (Option.some.inj hn)
    exact f.stepOk_idle (marked_refs hnl) (marked_fits f.fits) (marked_local f.loc hmk)
      (Or.inl (marked_pending n false i))
  · next hmk =>
    obtain ⟨rfl, rfl⟩ := Prod.mk.inj (Option.some.inj hn)
    exact f.stepOk_idle f.refs f.fits ⟨f.loc, by simpa [Ptr.isMarked] using hmk⟩ (Or.inl rfl)

theorem Fit.step_markCas (hm : MemInv σ G L) (f : Fit σ L op (.markCas n i q))
    (hn : next σ op slot level (.markCas n i q) = some (σ', pc')) :
    StepOk σ G L op (.markCas n i q) σ' pc' := by
  obtain ⟨ho, hq⟩ := f.loc
  have hnl : (n, 0) ∈ L := f.refs _ (by simp [Pc.refs])
  simp only [next] at hn
  split at hn
  · next hnext =>
    obtain ⟨rfl, rfl⟩ := Prod.mk.inj (Option.some.inj hn)
    have halive : ¬ σ.dead i n := by
      unfold Store.dead
      rw [hnext, hq]
      exact Bool.false_ne_true
    have ef : Effect σ G L (Pc.markCas n i q).owns L (σ.setNext n i q.mark) :=
      effect_next hm _ hnl halive (Or.inl (by rw [hnext]; rfl)) (fun _ => ho.above) ho.lt
        (ne_head_of_le ho.rank.ge) (ne_tail_of_rank hm f.key ho.rank.le)
    refine f.stepOk ef (marked_refs hnl) (marked_fits f.fits)
      (marked_local ((ef.kept hm).markOk hnl ho) ?_) (Or.inl (marked_pending n true i))
    unfold Store.dead
    rw [next_setNext_self]
    rfl
  · obtain ⟨rfl, rfl⟩ := Prod.mk.inj (Option.some.inj hn)
    exact f.stepOk_idle f.refs f.fits ho (Or.inl rfl)

theorem Fit.step_removeFree (f : Fit σ L op (.removeFree n))
    (hn : next σ op slot level (.removeFree n) = some (σ', pc')) :
    StepOk σ G L op (.removeFree n) σ' pc' := by
  simp only [next] at hn
  obtain ⟨rfl, rfl⟩ := Prod.mk.inj (Option.some.inj hn)
  exact f.stepOk (Effect.give n _ (Or.inr (f.refs _ (by simp [Pc.refs])))) (fun r h => nomatch h)
    trivial trivial (Or.inl rfl)

theorem Fit.step_containsDown (hm : MemInv σ G L) (f : Fit σ L op (.containsDown i p))
    (hn : next σ op slot level (.containsDown i p) = some (σ', pc')) :
    StepOk σ G L op (.containsDown i p) σ' pc' := by
  simp only [next] at hn
  obtain ⟨s, hs, he⟩ := Option.map_eq_some_iff.1 hn
  obtain ⟨rfl, rfl⟩ := Prod.mk.inj he
  have hp := f.refs (p, i) (by simp [Pc.refs])
  refine f.stepOk_idle ?_ f.fits ⟨f.loc.1, f.loc.2, hm.succ_ne_head hp hs⟩ (Or.inl rfl)
  simp only [Pc.refs, List.mem_cons, List.not_mem_nil, or_false, forall_eq_or_imp, forall_eq]
  exact ⟨hp, hm.right hp hs⟩

theorem Fit.step_containsTest (hm : MemInv σ G L) (f : Fit σ L op (.containsTest i p c))
    (hn : next σ op slot level (.containsTest i p c) = some (σ', pc')) :
    StepOk σ G L op (.containsTest i p c) σ' pc' := by
  obtain ⟨hi, hp, hc⟩ := f.loc
  have hpl := f.refs (p, i) (by simp [Pc.refs])
  have hcl := f.refs (c, i) (by simp [Pc.refs])
  simp only [next] at hn
  split at hn
  · next h =>
    obtain ⟨rfl, rfl⟩ := Prod.mk.inj (Option.some.inj hn)
    exact f.stepOk_idle f.refs f.fits ⟨hi, hp, h.imp_left fun h => rank_lt_of_key h hc⟩ (Or.inl rfl)
  · split at hn
    · next hk =>
      obtain ⟨rfl, rfl⟩ := Prod.mk.inj (Option.some.inj hn)
      refine f.stepOk_idle ?_ f.fits (rank_eq_of_key hk hc) (Or.inl rfl)
      simpa [Pc.refs, ValidCtx.refs] using hm.base hcl
    · cases i with
      | zero =>
        obtain ⟨rfl, rfl⟩ := Prod.mk.inj (Option.some.inj hn)
        exact f.stepOk_idle (fun r h => by cases h) trivial trivial (Or.inl rfl)
      | succ i =>
        obtain ⟨rfl, rfl⟩ := Prod.mk.inj (Option.some.inj hn)
        refine f.stepOk_idle ?_ f.fits ⟨by omega, hp⟩ (Or.inl rfl)
        simpa [Pc.refs] using hm.sound.closed.down hpl

theorem Fit.step_containsPass (hm : MemInv σ G L) (f : Fit σ L op (.containsPass i p c))
    (hn : next σ op slot level (.containsPass i p c) = some (σ', pc')) :
    StepOk σ G L op (.containsPass i p c) σ' pc' := by
  obtain ⟨hi, hp, hc⟩ := f.loc
  have hpl := f.refs (p, i) (by simp [Pc.refs])
  have hcl := f.refs (c, i) (by simp [Pc.refs])
  simp only [next] at hn
  split at hn
  · next hmk =>
    split at hn
    · next hk =>
      obtain ⟨rfl, rfl⟩ := Prod.mk.inj (Option.some.inj hn)
      obtain ⟨rfl, hk⟩ := hk
      have hch : c ≠ head := by
        rintro rfl
        exact hm.head_alive 0 hmk
      refine f.stepOk_idle ?_ f.fits ⟨rank_eq_of_key hk hch, hmk⟩ (Or.inl rfl)
      simpa [Pc.refs, DeleteCtx.refs] using hcl
    · obtain ⟨rfl, rfl⟩ := Prod.mk.inj (Option.some.inj hn)
      exact f.stepOk_idle f.refs f.fits ⟨hi, hp, Or.inr hmk⟩ (Or.inl rfl)
  · next hmk =>
    obtain ⟨rfl, rfl⟩ := Prod.mk.inj (Option.some.inj hn)
    have hlt := hc.resolve_right hmk
    refine f.stepOk_idle ?_ f.fits ⟨hi, hlt, Or.inl hlt⟩ (Or.inl rfl)
    simp only [Pc.refs, List.mem_cons, List.not_mem_nil, or_false, forall_eq_or_imp, forall_eq]
    exact ⟨hcl, hcl⟩

theorem Fit.step_containsNext (hm : MemInv σ G L) (f : Fit σ L op (.containsNext i p c))
    (hn : next σ op slot level (.containsNext i p c) = some (σ', pc')) :
    StepOk σ G L op (.containsNext i p c) σ' pc' := by
  simp only [next] at hn
  obtain ⟨s, hs, he⟩ := Option.map_eq_some_iff.1 hn
  obtain ⟨rfl, rfl⟩ := Prod.mk.inj he
  have hcl := f.refs (c, i) (by simp [Pc.refs])
  refine f.stepOk_idle ?_ f.fits ⟨f.loc.1, f.loc.2.1, hm.succ_ne_head hcl hs⟩ (Or.inl rfl)
  simp only [Pc.refs, List.mem_cons, List.not_mem_nil, or_false, forall_eq_or_imp, forall_eq]
  exact ⟨f.refs (p, i) (by simp [Pc.refs]), hm.right hcl hs⟩

theorem Fit.step (hm : MemInv σ G L) (f : Fit σ L op pc) (tidy : pc.Tidy G σ)
    (hs : ∀ path, pc = .alloc path →
      (σ.avail slot = true ∧ 1 ≤ level ∧ level ≤ MAX_LEVEL) ∧ (slot, 0) ∉ L)
    (hn : next σ op slot level pc = some (σ', pc')) : StepOk σ G L op pc σ' pc' := by
  cases pc with
  | searchDown i p path => exact f.step_searchDown hm hn
  | searchTest i p c path => exact f.step_searchTest hm hn
  | searchNext i p c path => exact f.step_searchNext hm hn
  | findDown c i p path => exact f.step_findDown hm hn
  | findLoad c i p d s path => exact f.step_findLoad hm hn
  | findCas c i p d s path => exact f.step_findCas hm hn
  | deleteLoad d n => exact f.step_deleteLoad hm hn
  | deleteFlush d n => exact f.step_deleteFlush hm hn
  | deleteStore d n => exact f.step_deleteStore hm hn
  | validLoad d n => exact f.step_validLoad hm hn
  | validStore d n old => exact f.step_validStore hm hn
  | insertLoad d n => exact f.step_insertLoad hn
  | insertFlush d n => exact f.step_insertFlush hm hn
  | insertStore d n => exact f.step_insertStore hm hn
  | alloc path => exact f.step_alloc hm (hs path rfl).1 (hs path rfl).2 hn
  | flipLoad path n l => exact f.step_flipLoad hn
  | flipStore path n l old => exact f.step_flipStore hm hn
  | initInsertFlag path n l => exact f.step_initInsertFlag hm hn
  | initDeleteFlag path n l => exact f.step_initDeleteFlag hm hn
  | initKey path n l => exact f.step_initKey hm hn
  | initValue path n l => exact f.step_initValue hm hn
  | initTopLevel path n l => exact f.step_initTopLevel hm hn
  | initNext path n i => exact f.step_initNext hm hn
  | linkCas path n => exact f.step_linkCas hm hn
  | lostStore n => exact f.step_lostStore hm hn
  | lostFree n => exact f.step_lostFree hm hn
  | upperLoad path n i => exact f.step_upperLoad hn
  | upperCas path n i q => exact f.step_upperCas hm hn
  | upperLink path n i => exact f.step_upperLink hm tidy hn
  | markLoad n i => exact f.step_markLoad hn
  | markCas n i q => exact f.step_markCas hm hn
  | removeFree n => exact f.step_removeFree hn
  | containsDown i p => exact f.step_containsDown hm hn
  | containsTest i p c => exact f.step_containsTest hm hn
  | containsPass i p c => exact f.step_containsPass hm hn
  | containsNext i p c => exact f.step_containsNext hm hn
  | ret r => cases hn

end LinkFree.SkipList
