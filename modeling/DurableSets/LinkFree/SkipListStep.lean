import DurableSets.LinkFree.SkipListInv

namespace LinkFree.SkipList

open Chain

variable {V : Type} {σ σ' : Store V} {L L' : Set Cursor} {x y p n c d : Loc} {i j G : ℕ}
  {op : SetOp V} {pc : Pc} {h : Option Loc} {path : Path} {k : ℤ}

structure Kept (σ : Store V) (L : Set Cursor) (h : Option Loc) (L' : Set Cursor)
    (σ' : Store V) : Prop where
  subset : L ⊆ L'
  evolves : ∀ {x i}, (x, i) ∈ L → Evolves (σ.line x) (σ'.line x)
  line : ∀ {x}, h ≠ some x → (x, 0) ∉ L → σ'.line x = σ.line x
  ref : ∀ {x i}, h ≠ some x → (x, 0) ∈ L → (x, i) ∉ L →
    ((σ'.node x).next i).ref = ((σ.node x).next i).ref
  avail : ∀ {x}, h ≠ some x → (x, 0) ∉ L → σ.avail x = false → σ'.avail x = false
  fresh : ∀ {x i}, h ≠ some x → (x, i) ∉ L → (x, i) ∉ L'

theorem kept_setNext (hm : MemInv σ G L) (hp : (p, i) ∈ L) (hd : ¬ σ.dead i p) (q : Ptr)
    (hL : L ⊆ L') (fresh : ∀ {x i}, h ≠ some x → (x, i) ∉ L → (x, i) ∉ L') :
    Kept σ L h L' (σ.setNext p i q) := by
  refine ⟨hL, fun _ => evolves_setLine (evolves_setNext hd q), ?_, ?_, fun _ _ => id, fresh⟩
  · intro x _ hx
    have he : x ≠ p := by
      rintro rfl
      exact hx (hm.base hp)
    exact line_write_other σ _ he
  · intro x j _ _ hx
    exact ref_setNext σ q fun e => hx (e ▸ hp)

theorem Effect.kept (hm : MemInv σ G L) (e : Effect σ G L h L' σ') : Kept σ L h L' σ' := by
  cases e with
  | idle =>
    exact ⟨subset_rfl, fun _ => Evolves.refl _, fun _ _ => rfl, fun _ _ _ => rfl, fun _ _ => id,
      fun _ => id⟩
  | touch x l _ live ev ref =>
    refine ⟨subset_rfl, fun _ => evolves_setLine ev, ?_, ?_, fun _ _ => id, fun _ => id⟩
    · intro y _ hy
      have he : y ≠ x := by
        rintro rfl
        exact hy live
      exact line_setLine_other σ l he
    · intro y i hh _ _
      by_cases he : y = x
      · subst he
        rw [node_setLine_self]
        exact (ref i).resolve_right fun h => hh h.1
      · rw [node_setLine_other σ l he]
  | priv x m fresh unavail persist =>
    have hne : ∀ {y}, some x ≠ some y → y ≠ x := fun hy e => hy (congrArg some e.symm)
    refine ⟨subset_rfl, ?_, ?_, ?_, fun _ _ => id, fun _ => id⟩
    · intro y i hy
      have he : y ≠ x := by
        rintro rfl
        exact fresh (hm.base hy)
      rw [line_write_other σ m he]
      exact Evolves.refl _
    · exact fun hy _ => line_write_other σ m (hne hy)
    · intro y i hy _ _
      rw [node_write_other σ m (hne hy)]
  | join p n c i live next fresh base new_next level tidy fields =>
    refine kept_setNext hm live (dead_of_addr next) _ (Set.subset_insert _ _) ?_
    intro y j hy hL hL'
    rcases Set.mem_insert_iff.1 hL' with he | hL'
    · exact hy (congrArg some (Prod.mk.inj he).1.symm)
    · exact hL hL'
  | swing p c d i _ live next path =>
    exact kept_setNext hm live (dead_of_addr next) _ subset_rfl fun _ => id
  | take x =>
    refine ⟨subset_rfl, fun _ => Evolves.refl _, fun _ _ => rfl, fun _ _ _ => rfl, ?_, fun _ => id⟩
    intro y _ _ hy
    by_cases he : y = x
    · simp [Store.take, he]
    · simpa [Store.take, he] using hy
  | give x _ held =>
    refine ⟨subset_rfl, fun _ => Evolves.refl _, fun _ _ => rfl, fun _ _ _ => rfl, ?_, fun _ => id⟩
    intro y hn hl hy
    have he : y ≠ x := by
      rintro rfl
      exact held.elim hn hl
    simpa [Store.give, he] using hy

theorem Kept.rank_eq (k : Kept σ L h L' σ') (hx : (x, i) ∈ L) : rank σ' x = rank σ x :=
  rank_congr (k.evolves hx).key

theorem Kept.dead (k : Kept σ L h L' σ') (hx : (x, i) ∈ L) (hd : σ.dead j x) : σ'.dead j x := by
  change ((σ'.line x).cur.next j).marked = true
  rw [(k.evolves hx).next j hd]
  exact hd

theorem Kept.next (k : Kept σ L h L' σ') (hx : (x, i) ∈ L) (hd : σ.dead j x) :
    (σ'.node x).next j = (σ.node x).next j := (k.evolves hx).next j hd

theorem Kept.topLevel (k : Kept σ L h L' σ') (hx : (x, i) ∈ L) :
    (σ'.node x).topLevel = (σ.node x).topLevel := (k.evolves hx).topLevel

theorem Kept.deadPath (k : Kept σ L h L' σ') (hc : σ.tower.Closed L) (hx : (c, i) ∈ L)
    (hp : DeadPath σ i c d) : DeadPath σ' i c d := by
  induction hp with
  | refl => exact DeadPath.refl
  | @tail d e hp hd flushed hs ih =>
    have hdl : (d, i) ∈ L := hc.reach hx hp.reach
    refine ih.tail (k.dead hdl hd) (fun hi => (k.evolves hdl).marked (flushed hi)) ?_
    rw [k.next hdl hd]
    exact hs

-- the nodes on both sides of the searched key at the levels from i on; only insert keeps them
structure PathOk (σ : Store V) (op : SetOp V) (i : ℕ) (path : Path) : Prop where
  length : op.IsInsert → i + path.length = MAX_LEVEL
  none : ¬ op.IsInsert → path = []
  below : ∀ e ∈ path, rank σ e.1 < (op.key : ℤ)
  above : ∀ e ∈ path, ((op.key : ℤ) : WithBot ℤ) ≤ rank σ e.2

structure GapOk (σ : Store V) (op : SetOp V) (path : Path) : Prop where
  levels : PathOk σ op 0 path
  gap : ∀ e, path[0]? = some e → ((op.key : ℤ) : WithBot ℤ) < rank σ e.2

def FindCtx.Ok (σ : Store V) (op : SetOp V) : FindCtx → Prop
  | .inInsert n i => rank σ n = (op.key : ℤ) ∧ 1 ≤ i ∧ i < (σ.node n).topLevel
  | .inRemove n => rank σ n = (op.key : ℤ) ∧ σ.dead 0 n

def DeleteOk (σ : Store V) (op : SetOp V) (n : Loc) : DeleteCtx → Prop
  | .find c pred predNext succNext path => rank σ pred < (op.key : ℤ) ∧ succNext ≠ head ∧
      DeadPath σ 0 predNext n ∧ σ.dead 0 n ∧ ((σ.node n).next 0).ref = some succNext ∧
      PathOk σ op 1 path ∧ c.Ok σ op
  | .remove _ => rank σ n = (op.key : ℤ) ∧ σ.dead 0 n
  | .contains => rank σ n = (op.key : ℤ) ∧ σ.dead 0 n

def ValidOk (σ : Store V) (op : SetOp V) (n : Loc) : ValidCtx → Prop
  | .linked path => rank σ n = (op.key : ℤ) ∧ PathOk σ op 0 path
  | .lost => True
  | _ => rank σ n = (op.key : ℤ)

def InsertOk (σ : Store V) (op : SetOp V) (n : Loc) : InsertCtx → Prop
  | .linked path => rank σ n = (op.key : ℤ) ∧ PathOk σ op 0 path
  | _ => rank σ n = (op.key : ℤ)

structure UpperOk (σ : Store V) (op : SetOp V) (path : Path) (n : Loc) (i : ℕ) : Prop where
  levels : PathOk σ op 0 path
  rank : rank σ n = (op.key : ℤ)
  pos : 1 ≤ i
  lt : i < (σ.node n).topLevel

structure MarkOk (σ : Store V) (op : SetOp V) (n : Loc) (i : ℕ) : Prop where
  rank : rank σ n = (op.key : ℤ)
  lt : i < (σ.node n).topLevel
  above : ∀ j, i < j → j < (σ.node n).topLevel → σ.dead j n

def Filled (σ : Store V) (path : Path) (n : Loc) (i : ℕ) : Prop :=
  ∀ j < i, ∃ e, path[j]? = some e ∧ (σ.node n).next j = Ptr.addr e.2

structure InitOk (σ : Store V) (op : SetOp V) (path : Path) (n : Loc) : Prop where
  gap : GapOk σ op path
  insertFlag : (σ.node n).insertFlag = false
  deleteFlag : (σ.node n).deleteFlag = false
  key : (σ.node n).key = op.key

structure NextOk (σ : Store V) (op : SetOp V) (path : Path) (n : Loc) (i : ℕ) : Prop where
  init : InitOk σ op path n
  pos : 1 ≤ (σ.node n).topLevel
  le : (σ.node n).topLevel ≤ MAX_LEVEL
  filled : Filled σ path n i

def Local (σ : Store V) (op : SetOp V) : Pc → Prop
  | .searchDown i pred path => i < MAX_LEVEL ∧ rank σ pred < (op.key : ℤ) ∧
      PathOk σ op (i + 1) path
  | .searchTest i pred succ path => i < MAX_LEVEL ∧ rank σ pred < (op.key : ℤ) ∧
      PathOk σ op (i + 1) path ∧ succ ≠ head
  | .searchNext i pred succ path => i < MAX_LEVEL ∧ rank σ pred < (op.key : ℤ) ∧
      PathOk σ op (i + 1) path ∧ (rank σ succ < (op.key : ℤ) ∨ σ.dead i succ)
  | .findDown c i pred path => i < MAX_LEVEL ∧ rank σ pred < (op.key : ℤ) ∧
      PathOk σ op (i + 1) path ∧ c.Ok σ op
  | .findLoad c i pred predNext succ path => i < MAX_LEVEL ∧ rank σ pred < (op.key : ℤ) ∧
      PathOk σ op (i + 1) path ∧ c.Ok σ op ∧ succ ≠ head ∧ DeadPath σ i predNext succ
  | .findCas c i pred predNext succ path => i < MAX_LEVEL ∧ rank σ pred < (op.key : ℤ) ∧
      PathOk σ op (i + 1) path ∧ c.Ok σ op ∧ ((op.key : ℤ) : WithBot ℤ) ≤ rank σ succ ∧
      DeadPath σ i predNext succ
  | .deleteLoad c n => DeleteOk σ op n c
  | .deleteFlush c n => DeleteOk σ op n c
  | .deleteStore c n => DeleteOk σ op n c ∧ AllMarked (σ.line n)
  | .validLoad c n => ValidOk σ op n c
  | .validStore c n _ => ValidOk σ op n c
  | .insertLoad c n => InsertOk σ op n c ∧ isValid (σ.node n).metaData = true
  | .insertFlush c n => InsertOk σ op n c ∧ isValid (σ.node n).metaData = true
  | .insertStore c n => InsertOk σ op n c ∧ AllValid (σ.line n)
  | .alloc path => GapOk σ op path
  | .flipLoad path _ l => GapOk σ op path ∧ 1 ≤ l ∧ l ≤ MAX_LEVEL
  | .flipStore path _ l _ => GapOk σ op path ∧ 1 ≤ l ∧ l ≤ MAX_LEVEL
  | .initInsertFlag path _ l => GapOk σ op path ∧ 1 ≤ l ∧ l ≤ MAX_LEVEL
  | .initDeleteFlag path n l => GapOk σ op path ∧ (σ.node n).insertFlag = false ∧
      1 ≤ l ∧ l ≤ MAX_LEVEL
  | .initKey path n l => GapOk σ op path ∧ (σ.node n).insertFlag = false ∧
      (σ.node n).deleteFlag = false ∧ 1 ≤ l ∧ l ≤ MAX_LEVEL
  | .initValue path n l => InitOk σ op path n ∧ 1 ≤ l ∧ l ≤ MAX_LEVEL
  | .initTopLevel path n l => InitOk σ op path n ∧ 1 ≤ l ∧ l ≤ MAX_LEVEL
  | .initNext path n i => NextOk σ op path n i ∧ i < (σ.node n).topLevel
  | .linkCas path n => NextOk σ op path n (σ.node n).topLevel
  | .lostStore _ => True
  | .lostFree _ => True
  | .upperLoad path n i => UpperOk σ op path n i
  | .upperCas path n i q => UpperOk σ op path n i ∧ q.marked = false
  | .upperLink path n i => UpperOk σ op path n i ∧
      ∀ e, path[i]? = some e → ((σ.node n).next i).ref = some e.2
  | .markLoad n i => MarkOk σ op n i
  | .markCas n i q => MarkOk σ op n i ∧ q.marked = false
  | .removeFree n => rank σ n = (op.key : ℤ) ∧ σ.dead 0 n
  | .containsDown i pred => i < MAX_LEVEL ∧ rank σ pred < (op.key : ℤ)
  | .containsTest i pred curr => i < MAX_LEVEL ∧ rank σ pred < (op.key : ℤ) ∧ curr ≠ head
  | .containsPass i pred curr => i < MAX_LEVEL ∧ rank σ pred < (op.key : ℤ) ∧
      (rank σ curr < (op.key : ℤ) ∨ σ.dead i curr)
  | .containsNext i pred curr => i < MAX_LEVEL ∧ rank σ pred < (op.key : ℤ) ∧
      (rank σ curr < (op.key : ℤ) ∨ σ.dead i curr)
  | .ret _ => True

def FindCtx.pending : FindCtx → Option Cursor
  | .inInsert n i => some (n, i)
  | .inRemove _ => none

def DeleteCtx.pending : DeleteCtx → Option Cursor
  | .find c _ _ _ _ => c.pending
  | _ => none

def ValidCtx.pending (n : Loc) : ValidCtx → Option Cursor
  | .linked _ => some (n, 1)
  | .lost => some (n, 0)
  | _ => none

def InsertCtx.pending (n : Loc) : InsertCtx → Option Cursor
  | .linked _ => some (n, 1)
  | _ => none

def Pc.pending : Pc → Option Cursor
  | .findDown c _ _ _ => c.pending
  | .findLoad c _ _ _ _ _ => c.pending
  | .findCas c _ _ _ _ _ => c.pending
  | .deleteLoad c _ => c.pending
  | .deleteFlush c _ => c.pending
  | .deleteStore c _ => c.pending
  | .validLoad c n => c.pending n
  | .validStore c n _ => c.pending n
  | .insertLoad c n => c.pending n
  | .insertFlush c n => c.pending n
  | .insertStore c n => c.pending n
  | .flipLoad _ n _ => some (n, 0)
  | .flipStore _ n _ _ => some (n, 0)
  | .initInsertFlag _ n _ => some (n, 0)
  | .initDeleteFlag _ n _ => some (n, 0)
  | .initKey _ n _ => some (n, 0)
  | .initValue _ n _ => some (n, 0)
  | .initTopLevel _ n _ => some (n, 0)
  | .initNext _ n _ => some (n, 0)
  | .linkCas _ n => some (n, 0)
  | .lostStore n => some (n, 0)
  | .lostFree n => some (n, 0)
  | .upperLoad _ n i => some (n, i)
  | .upperCas _ n i _ => some (n, i)
  | .upperLink _ n i => some (n, i)
  | _ => none

theorem FindCtx.owns_eq (c : FindCtx) : c.owns = c.pending.map Prod.fst := by cases c <;> rfl

theorem Pc.owns_eq (pc : Pc) : pc.owns = pc.pending.map Prod.fst := by
  have hd : ∀ d : DeleteCtx, d.owns = d.pending.map Prod.fst := by
    rintro (⟨c, _⟩ | _ | _)
    · exact c.owns_eq
    · rfl
    · rfl
  have hv : ∀ (d : ValidCtx) n, d.owns n = (d.pending n).map Prod.fst := by
    rintro (_ | _ | _ | _ | _) n <;> rfl
  have hi : ∀ (d : InsertCtx) n, d.owns n = (d.pending n).map Prod.fst := by
    rintro (_ | _ | _) n <;> rfl
  cases pc <;> simp [Pc.owns, Pc.pending, FindCtx.owns_eq, hd, hv, hi]

theorem Path.mem_refs {e : Loc × Loc} (he : e ∈ path) :
    ∃ j, (e.1, j) ∈ Path.refs i path ∧ (e.2, j) ∈ Path.refs i path := by
  induction path generalizing i with
  | nil => cases he
  | cons a path ih =>
    rcases List.mem_cons.1 he with rfl | he
    · exact ⟨i, by simp [Path.refs]⟩
    · obtain ⟨j, h1, h2⟩ := ih (i := i + 1) he
      exact ⟨j, by simp [Path.refs, h1], by simp [Path.refs, h2]⟩

theorem Path.get_refs {e : Loc × Loc} (he : path[j]? = some e) :
    (e.1, i + j) ∈ Path.refs i path ∧ (e.2, i + j) ∈ Path.refs i path := by
  induction path generalizing i j with
  | nil => simp at he
  | cons a path ih =>
    cases j with
    | zero =>
      obtain rfl : a = e := by simpa using he
      simp [Path.refs]
    | succ j =>
      obtain ⟨h1, h2⟩ := ih (i := i + 1) (j := j) (by simpa using he)
      rw [show i + 1 + j = i + (j + 1) by omega] at h1 h2
      exact ⟨by simp [Path.refs, h1], by simp [Path.refs, h2]⟩

theorem Kept.pathOk (k : Kept σ L h L' σ') (hr : ∀ r ∈ Path.refs i path, r ∈ L)
    (ho : PathOk σ op i path) : PathOk σ' op i path := by
  refine ⟨ho.length, ho.none, fun e he => ?_, fun e he => ?_⟩
  · obtain ⟨j, h1, _⟩ := Path.mem_refs (i := i) he
    rw [k.rank_eq (hr _ h1)]
    exact ho.below e he
  · obtain ⟨j, _, h2⟩ := Path.mem_refs (i := i) he
    rw [k.rank_eq (hr _ h2)]
    exact ho.above e he

theorem Kept.gapOk (k : Kept σ L h L' σ') (hr : ∀ r ∈ Path.refs 0 path, r ∈ L)
    (ho : GapOk σ op path) : GapOk σ' op path := by
  refine ⟨k.pathOk hr ho.levels, fun e he => ?_⟩
  rw [k.rank_eq (hr _ (Path.get_refs (i := 0) he).2)]
  exact ho.gap e he

theorem Kept.findOk (k : Kept σ L h L' σ') {c : FindCtx} (hr : ∀ r ∈ c.refs, r ∈ L)
    (ho : c.Ok σ op) : c.Ok σ' op := by
  cases c with
  | inInsert n i =>
    have hn := hr (n, i - 1) (by simp [FindCtx.refs])
    refine ⟨(k.rank_eq hn).trans ho.1, ho.2.1, ?_⟩
    rw [k.topLevel hn]
    exact ho.2.2
  | inRemove n =>
    have hn := hr (n, 0) (by simp [FindCtx.refs])
    exact ⟨(k.rank_eq hn).trans ho.1, k.dead hn ho.2⟩

theorem Kept.deleteOk (k : Kept σ L h L' σ') (hc : σ.tower.Closed L) {d : DeleteCtx}
    (hr : ∀ r ∈ d.refs n, r ∈ L) (ho : DeleteOk σ op n d) : DeleteOk σ' op n d := by
  cases d with
  | find c pred predNext succNext path =>
    obtain ⟨hp, hs, hd, hn, hnext, hpath, hf⟩ := ho
    have hpl := hr (pred, 0) (by simp [DeleteCtx.refs])
    have hnl := hr (n, 0) (by simp [DeleteCtx.refs])
    refine ⟨(k.rank_eq hpl).trans_lt hp, hs, ?_, k.dead hnl hn, ?_, ?_, ?_⟩
    · exact k.deadPath hc (hr (predNext, 0) (by simp [DeleteCtx.refs])) hd
    · rw [k.next hnl hn]
      exact hnext
    · exact k.pathOk (fun r h => hr r (by simp [DeleteCtx.refs, h])) hpath
    · exact k.findOk (fun r h => hr r (by simp [DeleteCtx.refs, h])) hf
  | remove r =>
    have hn := hr (n, 0) (by simp [DeleteCtx.refs])
    exact ⟨(k.rank_eq hn).trans ho.1, k.dead hn ho.2⟩
  | contains =>
    have hn := hr (n, 0) (by simp [DeleteCtx.refs])
    exact ⟨(k.rank_eq hn).trans ho.1, k.dead hn ho.2⟩

theorem Kept.validOk (k : Kept σ L h L' σ') {d : ValidCtx} (hr : ∀ r ∈ d.refs n, r ∈ L)
    (ho : ValidOk σ op n d) : ValidOk σ' op n d := by
  cases d with
  | linked path =>
    refine ⟨(k.rank_eq (hr (n, 0) (by simp [ValidCtx.refs]))).trans ho.1, k.pathOk ?_ ho.2⟩
    exact fun r h => hr r (by simp [ValidCtx.refs, h])
  | lost => trivial
  | found => exact (k.rank_eq (hr (n, 0) (by simp [ValidCtx.refs]))).trans ho
  | removing => exact (k.rank_eq (hr (n, 0) (by simp [ValidCtx.refs]))).trans ho
  | contains => exact (k.rank_eq (hr (n, 0) (by simp [ValidCtx.refs]))).trans ho

theorem InsertCtx.mem_refs (d : InsertCtx) (n : Loc) : (n, 0) ∈ d.refs n := by
  cases d <;> simp [InsertCtx.refs]

theorem Kept.insertOk (k : Kept σ L h L' σ') {d : InsertCtx} (hr : ∀ r ∈ d.refs n, r ∈ L)
    (ho : InsertOk σ op n d) : InsertOk σ' op n d := by
  have hn := k.rank_eq (hr (n, 0) (d.mem_refs n))
  cases d with
  | linked path =>
    refine ⟨hn.trans ho.1, k.pathOk ?_ ho.2⟩
    exact fun r h => hr r (by simp [InsertCtx.refs, h])
  | found => exact hn.trans ho
  | contains => exact hn.trans ho

theorem Kept.upperOk (k : Kept σ L h L' σ') (hn : (n, j) ∈ L)
    (hr : ∀ r ∈ Path.refs 0 path, r ∈ L) (ho : UpperOk σ op path n i) :
    UpperOk σ' op path n i := by
  refine ⟨k.pathOk hr ho.levels, (k.rank_eq hn).trans ho.rank, ho.pos, ?_⟩
  rw [k.topLevel hn]
  exact ho.lt

theorem Kept.markOk (k : Kept σ L h L' σ') (hn : (n, j) ∈ L) (ho : MarkOk σ op n i) :
    MarkOk σ' op n i := by
  have ht := k.topLevel hn
  refine ⟨(k.rank_eq hn).trans ho.rank, ht ▸ ho.lt, fun j hj hlt => ?_⟩
  exact k.dead hn (ho.above j hj (ht ▸ hlt))

theorem Kept.initOk (k : Kept σ L h L' σ') (hr : ∀ r ∈ Path.refs 0 path, r ∈ L)
    (hn : σ'.node n = σ.node n) (ho : InitOk σ op path n) : InitOk σ' op path n := by
  refine ⟨k.gapOk hr ho.gap, ?_, ?_, ?_⟩ <;> rw [hn]
  · exact ho.insertFlag
  · exact ho.deleteFlag
  · exact ho.key

theorem Kept.nextOk (k : Kept σ L h L' σ') (hr : ∀ r ∈ Path.refs 0 path, r ∈ L)
    (hn : σ'.node n = σ.node n) (ho : NextOk σ op path n i) : NextOk σ' op path n i := by
  refine ⟨k.initOk hr hn ho.init, ?_, ?_, ?_⟩
  · exact hn ▸ ho.pos
  · exact hn ▸ ho.le
  · unfold Filled
    rw [hn]
    exact ho.filled

-- the call keeps what it knows when another one moves; line and ref say that newNode is left alone
theorem Kept.local (k : Kept σ L h L' σ') (hc : σ.tower.Closed L) (hr : ∀ r ∈ pc.refs, r ∈ L)
    (line : ∀ n, pc.pending = some (n, 0) → σ'.line n = σ.line n)
    (ref : ∀ n i, pc.pending = some (n, i) → 1 ≤ i →
      ((σ'.node n).next i).ref = ((σ.node n).next i).ref)
    (hl : Local σ op pc) : Local σ' op pc := by
  have hnode : ∀ n, pc.pending = some (n, 0) → σ'.node n = σ.node n := fun n hn => by
    simp only [Store.node, line n hn]
  have rk : ∀ {x i}, (x, i) ∈ pc.refs → rank σ x < (op.key : ℤ) → rank σ' x < (op.key : ℤ) :=
    fun hx h => (k.rank_eq (hr _ hx)).trans_lt h
  have skip : ∀ {x i j}, (x, i) ∈ pc.refs → rank σ x < (op.key : ℤ) ∨ σ.dead j x →
      rank σ' x < (op.key : ℤ) ∨ σ'.dead j x := fun hx h => h.imp (rk hx) (k.dead (hr _ hx))
  cases pc with
  | searchDown i pred path =>
    exact ⟨hl.1, rk (i := i) (by simp [Pc.refs]) hl.2.1,
      k.pathOk (fun r h => hr r (by simp [Pc.refs, h])) hl.2.2⟩
  | searchTest i pred succ path =>
    exact ⟨hl.1, rk (i := i) (by simp [Pc.refs]) hl.2.1,
      k.pathOk (fun r h => hr r (by simp [Pc.refs, h])) hl.2.2.1, hl.2.2.2⟩
  | searchNext i pred succ path =>
    exact ⟨hl.1, rk (i := i) (by simp [Pc.refs]) hl.2.1,
      k.pathOk (fun r h => hr r (by simp [Pc.refs, h])) hl.2.2.1,
      skip (i := i) (by simp [Pc.refs]) hl.2.2.2⟩
  | findDown c i pred path =>
    exact ⟨hl.1, rk (i := i) (by simp [Pc.refs]) hl.2.1,
      k.pathOk (fun r h => hr r (by simp [Pc.refs, h])) hl.2.2.1,
      k.findOk (fun r h => hr r (by simp [Pc.refs, h])) hl.2.2.2⟩
  | findLoad c i pred predNext succ path =>
    obtain ⟨h1, h2, h3, h4, h5, h6⟩ := hl
    exact ⟨h1, rk (i := i) (by simp [Pc.refs]) h2,
      k.pathOk (fun r h => hr r (by simp [Pc.refs, h])) h3,
      k.findOk (fun r h => hr r (by simp [Pc.refs, h])) h4, h5,
      k.deadPath hc (hr (predNext, i) (by simp [Pc.refs])) h6⟩
  | findCas c i pred predNext succ path =>
    obtain ⟨h1, h2, h3, h4, h5, h6⟩ := hl
    exact ⟨h1, rk (i := i) (by simp [Pc.refs]) h2,
      k.pathOk (fun r h => hr r (by simp [Pc.refs, h])) h3,
      k.findOk (fun r h => hr r (by simp [Pc.refs, h])) h4,
      h5.trans_eq (k.rank_eq (hr (succ, i) (by simp [Pc.refs]))).symm,
      k.deadPath hc (hr (predNext, i) (by simp [Pc.refs])) h6⟩
  | deleteLoad d n => exact k.deleteOk hc hr hl
  | deleteFlush d n => exact k.deleteOk hc hr hl
  | deleteStore d n =>
    have hn : (n, 0) ∈ L := hr (n, 0) (by cases d <;> simp [Pc.refs, DeleteCtx.refs])
    exact ⟨k.deleteOk hc hr hl.1, (k.evolves hn).marked hl.2⟩
  | validLoad d n => exact k.validOk hr hl
  | validStore d n old => exact k.validOk hr hl
  | insertLoad d n => exact ⟨k.insertOk hr hl.1, (k.evolves (hr _ (d.mem_refs n))).valid hl.2⟩
  | insertFlush d n => exact ⟨k.insertOk hr hl.1, (k.evolves (hr _ (d.mem_refs n))).valid hl.2⟩
  | insertStore d n =>
    exact ⟨k.insertOk hr hl.1, (k.evolves (hr _ (d.mem_refs n))).allValid hl.2⟩
  | alloc path => exact k.gapOk hr hl
  | flipLoad path n l => exact ⟨k.gapOk hr hl.1, hl.2⟩
  | flipStore path n l old => exact ⟨k.gapOk hr hl.1, hl.2⟩
  | initInsertFlag path n l => exact ⟨k.gapOk hr hl.1, hl.2⟩
  | initDeleteFlag path n l =>
    refine ⟨k.gapOk hr hl.1, ?_⟩
    rw [hnode n rfl]
    exact hl.2
  | initKey path n l =>
    refine ⟨k.gapOk hr hl.1, ?_⟩
    rw [hnode n rfl]
    exact hl.2
  | initValue path n l => exact ⟨k.initOk hr (hnode n rfl) hl.1, hl.2⟩
  | initTopLevel path n l => exact ⟨k.initOk hr (hnode n rfl) hl.1, hl.2⟩
  | initNext path n i =>
    refine ⟨k.nextOk hr (hnode n rfl) hl.1, ?_⟩
    rw [hnode n rfl]
    exact hl.2
  | linkCas path n =>
    change NextOk σ' op path n (σ'.node n).topLevel
    rw [hnode n rfl]
    exact k.nextOk hr (hnode n rfl) hl
  | lostStore n => trivial
  | lostFree n => trivial
  | upperLoad path n i =>
    exact k.upperOk (hr (n, i - 1) (by simp [Pc.refs])) (fun r h => hr r (by simp [Pc.refs, h])) hl
  | upperCas path n i q =>
    exact ⟨k.upperOk (hr (n, i - 1) (by simp [Pc.refs])) (fun r h => hr r (by simp [Pc.refs, h]))
      hl.1, hl.2⟩
  | upperLink path n i =>
    refine ⟨k.upperOk (hr (n, i - 1) (by simp [Pc.refs])) (fun r h => hr r (by simp [Pc.refs, h]))
      hl.1, fun e he => ?_⟩
    rw [ref n i rfl hl.1.pos]
    exact hl.2 e he
  | markLoad n i => exact k.markOk (hr (n, 0) (by simp [Pc.refs])) hl
  | markCas n i q => exact ⟨k.markOk (hr (n, 0) (by simp [Pc.refs])) hl.1, hl.2⟩
  | removeFree n =>
    have hn := hr (n, 0) (by simp [Pc.refs])
    exact ⟨(k.rank_eq hn).trans hl.1, k.dead hn hl.2⟩
  | containsDown i pred => exact ⟨hl.1, rk (i := i) (by simp [Pc.refs]) hl.2⟩
  | containsTest i pred curr => exact ⟨hl.1, rk (i := i) (by simp [Pc.refs]) hl.2.1, hl.2.2⟩
  | containsPass i pred curr =>
    exact ⟨hl.1, rk (i := i) (by simp [Pc.refs]) hl.2.1, skip (i := i) (by simp [Pc.refs]) hl.2.2⟩
  | containsNext i pred curr =>
    exact ⟨hl.1, rk (i := i) (by simp [Pc.refs]) hl.2.1, skip (i := i) (by simp [Pc.refs]) hl.2.2⟩
  | ret r => trivial

end LinkFree.SkipList
