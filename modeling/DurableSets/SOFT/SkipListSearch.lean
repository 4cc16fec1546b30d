import DurableSets.Core.Sequential
import DurableSets.SOFT.SkipListSchedule

namespace SOFT.SkipList

open Chain

variable {V : Type} {σ τ υ : Store V} {x y p c d : Loc} {i j fuel G : ℕ} {key : ℤ}
  {st st' : NodeState} {e : Entry} {L : Set Cursor} {op : SetOp V}

-- preds[i], succs[i] and succStates[i] of the levels that a search has been through
abbrev Answer := List (Entry × NodeState)

-- the inner loops of find at level i, which end with predNext and the answer of the level; none
-- stands for a null pointer that is followed, or for more than fuel rounds
def findLevel (σ : Store V) (key : ℤ) (i : ℕ) :
    ℕ → Loc → NodeState → Loc → Loc → Option (Loc × Entry × NodeState)
  | 0, _, _, _, _ => none
  | fuel + 1, pred, predState, predNext, succ =>
    let succNext := (σ.node succ).next i
    if succNext.getState = .deleted then
      succNext.ref.bind fun s => findLevel σ key i fuel pred predState predNext s
    else if key ≤ (σ.node succ).key then
      some (predNext, ⟨pred, succ, predState⟩, succNext.getState)
    else succNext.ref.bind fun s => findLevel σ key i fuel succ succNext.getState s s

-- the levels below i; the answer is missing when find has to start again
def findLevels (key : ℤ) (fuel : ℕ) :
    ℕ → Store V → Loc → Answer → Option (Store V × Option Answer)
  | 0, σ, _, path => some (σ, some path)
  | i + 1, σ, pred, path =>
    let predNext := (σ.node pred).next i
    if predNext.getState = .deleted then some (σ, none)
    else predNext.ref.bind fun s =>
      (findLevel σ key i fuel pred predNext.getState s s).bind fun (predNext, e, succState) =>
        if predNext = e.succ then findLevels key fuel i σ e.pred ((e, succState) :: path)
        else if (σ.node e.pred).next i = Ptr.addr predNext e.predState then
          findLevels key fuel i (σ.setNext e.pred i (Ptr.addr e.succ e.predState)) e.pred
            ((e, succState) :: path)
        else some (σ, none)

def foundAt (σ : Store V) (key : ℤ) : Answer → Bool
  | [] => false
  | a :: _ => (σ.node a.1.succ).key = key

def find (key : ℤ) : ℕ → Store V → Option (Store V × Bool × Answer)
  | 0, _ => none
  | fuel + 1, σ =>
    (findLevels key fuel MAX_LEVEL σ head []).bind fun (σ, r) =>
      match r with
      | some path => some (σ, foundAt σ key path, path)
      | none => find key fuel σ

def noCleanupLevel (σ : Store V) (key : ℤ) (i : ℕ) :
    ℕ → Loc → NodeState → Loc → Option (Entry × NodeState)
  | 0, _, _, _ => none
  | fuel + 1, pred, predState, succ =>
    let succState := ((σ.node succ).next i).getState
    if succState = .deleted then
      ((σ.node succ).next i).ref.bind fun s => noCleanupLevel σ key i fuel pred predState s
    else if key ≤ (σ.node succ).key then some (⟨pred, succ, predState⟩, succState)
    else ((σ.node succ).next i).ref.bind fun s => noCleanupLevel σ key i fuel succ succState s

def noCleanupLevels (σ : Store V) (key : ℤ) (fuel : ℕ) : ℕ → Loc → Answer → Option Answer
  | 0, _, path => some path
  | i + 1, pred, path =>
    -- predState is read off a pointer whose tag getRef has removed
    ((σ.node pred).next i).ref.bind fun s =>
      (noCleanupLevel σ key i fuel pred .inserted s).bind fun (e, succState) =>
        noCleanupLevels σ key fuel i e.pred ((e, succState) :: path)

def findNoCleanup (σ : Store V) (key : ℤ) (fuel : ℕ) : Option (Bool × Answer) :=
  (noCleanupLevels σ key fuel MAX_LEVEL head []).map fun path => (foundAt σ key path, path)

def Moves (op : SetOp V) (a b : Store V × Pc) : Prop :=
  ∀ slot level, next a.1 op slot level a.2 = some b

def shown (op : SetOp V) (path : Answer) : Path :=
  match op with
  | .insert _ _ => path.map Prod.fst
  | _ => []

theorem keepPath_shown (op : SetOp V) (a : Entry × NodeState) (path : Answer) :
    keepPath op a.1 (shown op path) = shown op (a :: path) := by
  cases op <;> rfl

section Moves

variable {a b : Store V × Pc} {pc pc' : Pc} {path : Path} {r : Answer}

theorem step_moves (h : Relation.ReflTransGen (Moves op) a b)
    (hn : Moves op (σ, pc) a) : Relation.ReflTransGen (Moves op) (σ, pc) b :=
  Relation.ReflTransGen.head hn h

theorem noCleanupLevel_moves (h : noCleanupLevel σ op.key i fuel x st y = some (e, st')) :
    Relation.ReflTransGen (Moves op) (σ, .searchTest i x st y path)
      (σ, searchDone σ op e st' path i) := by
  induction fuel generalizing x st y with
  | zero => cases h
  | succ fuel ih =>
    simp only [noCleanupLevel] at h
    split at h
    · next hd =>
      obtain ⟨z, hz, h⟩ := Option.bind_eq_some_iff.1 h
      have hnext : Relation.ReflTransGen (Moves op) (σ, .searchNext i x st y path) _ :=
        step_moves (ih h) fun _ _ => Option.map_eq_some_iff.2 ⟨z, hz, rfl⟩
      exact step_moves hnext fun _ _ => by simp only [next, if_pos hd]
    · next hd =>
      split at h
      · next hk =>
        obtain ⟨rfl, rfl⟩ := Prod.mk.inj (Option.some.inj h)
        refine step_moves Relation.ReflTransGen.refl fun _ _ => ?_
        simp only [next, if_neg hd, if_pos hk]
      · next hk =>
        obtain ⟨z, hz, h⟩ := Option.bind_eq_some_iff.1 h
        have hnext : Relation.ReflTransGen (Moves op)
            (σ, .searchNext i y ((σ.node y).next i).getState y path) _ :=
          step_moves (ih h) fun _ _ => Option.map_eq_some_iff.2 ⟨z, hz, rfl⟩
        exact step_moves hnext fun _ _ => by simp only [next, if_neg hd, if_neg hk]

theorem noCleanupLevels_moves {r path : Answer}
    (h : noCleanupLevels σ op.key fuel (i + 1) x path = some r) :
    ∃ e st rest, r = (e, st) :: rest ∧
      Relation.ReflTransGen (Moves op) (σ, .searchDown i x (shown op path))
        (σ, afterSearch σ op e st (shown op rest)) := by
  induction i generalizing x path with
  | zero =>
    obtain ⟨z, hz, h⟩ := Option.bind_eq_some_iff.1 h
    obtain ⟨⟨e, st⟩, hl, h⟩ := Option.bind_eq_some_iff.1 h
    refine ⟨e, st, path, (Option.some.inj h).symm, ?_⟩
    exact step_moves (noCleanupLevel_moves hl) fun _ _ => Option.map_eq_some_iff.2 ⟨z, hz, rfl⟩
  | succ i ih =>
    obtain ⟨z, hz, h⟩ := Option.bind_eq_some_iff.1 h
    obtain ⟨⟨e, st⟩, hl, h⟩ := Option.bind_eq_some_iff.1 h
    obtain ⟨e', st', rest, hr, hw⟩ := ih h
    refine ⟨e', st', rest, hr, ?_⟩
    rw [← keepPath_shown op (e, st)] at hw
    exact step_moves ((noCleanupLevel_moves hl).trans hw) fun _ _ => Option.map_eq_some_iff.2 ⟨z, hz, rfl⟩

theorem findNoCleanup_moves {r : Bool × Answer} (h : findNoCleanup σ op.key fuel = some r) :
    ∃ e st rest, r.2 = (e, st) :: rest ∧ Relation.ReflTransGen (Moves op) (σ, retry)
      (σ, afterSearch σ op e st (shown op rest)) := by
  obtain ⟨path, hp, rfl⟩ := Option.map_eq_some_iff.1 h
  have hw := noCleanupLevels_moves hp
  have hnil : shown op [] = [] := by cases op <;> rfl
  rw [hnil] at hw
  exact hw

theorem findLevel_moves {u : FindCtx} {d' : Loc}
    (h : findLevel σ op.key i fuel x st d y = some (d', e, st')) :
    Relation.ReflTransGen (Moves op) (σ, .findLoad u i x st d y path)
      (σ, if d' = e.succ then findDone u e path i
        else .findCas u i e.pred e.predState d' e.succ path) := by
  induction fuel generalizing x st d y with
  | zero => cases h
  | succ fuel ih =>
    simp only [findLevel] at h
    split at h
    · next hd =>
      obtain ⟨z, hz, h⟩ := Option.bind_eq_some_iff.1 h
      refine step_moves (ih h) fun _ _ => ?_
      simp only [next, if_pos hd]
      exact Option.map_eq_some_iff.2 ⟨z, hz, rfl⟩
    · next hd =>
      split at h
      · next hk =>
        cases h
        refine step_moves Relation.ReflTransGen.refl fun _ _ => ?_
        simp only [next, if_neg hd, if_pos hk]
      · next hk =>
        obtain ⟨z, hz, h⟩ := Option.bind_eq_some_iff.1 h
        refine step_moves (ih h) fun _ _ => ?_
        simp only [next, if_neg hd, if_neg hk]
        exact Option.map_eq_some_iff.2 ⟨z, hz, rfl⟩

-- where find goes on, before the levels below i and after the last of them
def beforeLevels (u : FindCtx) (x : Loc) (path : Path) : ℕ → Pc
  | 0 => afterFind u path
  | i + 1 => .findDown u i x path

def afterLevels (u : FindCtx) (op : SetOp V) : Option Answer → Pc
  | some path => afterFind u (shown op path)
  | none => u.retry

theorem findDone_eq (u : FindCtx) (e : Entry) (path : Path) (i : ℕ) :
    findDone u e path i = beforeLevels u e.pred (u.keepPath e path) i := by
  cases i <;> rfl

theorem findLevels_moves {u : FindCtx} (hf : u.Fits op) {path : Answer} {r : Option Answer}
    (h : findLevels op.key fuel i σ x path = some (τ, r)) :
    Relation.ReflTransGen (Moves op) (σ, beforeLevels u x (shown op path) i)
      (τ, afterLevels u op r) := by
  induction i generalizing σ x path with
  | zero =>
    cases h
    exact Relation.ReflTransGen.refl
  | succ i ih =>
    simp only [findLevels] at h
    split at h
    · next hd =>
      cases h
      exact step_moves Relation.ReflTransGen.refl fun _ _ => if_pos hd
    · next hd =>
      obtain ⟨z, hz, h⟩ := Option.bind_eq_some_iff.1 h
      obtain ⟨⟨d, e, st⟩, hl, h⟩ := Option.bind_eq_some_iff.1 h
      have done : findDone u e (shown op path) i =
          beforeLevels u e.pred (shown op ((e, st) :: path)) i := by
        rw [findDone_eq, keepPath_eq hf, ← keepPath_shown op (e, st)]
      have walk : Relation.ReflTransGen (Moves op)
          (σ, .findLoad u i x ((σ.node x).next i).getState z z (shown op path)) _ :=
        findLevel_moves hl
      rw [done] at walk
      refine step_moves (walk.trans ?_)
        fun _ _ => (if_neg hd).trans (Option.map_eq_some_iff.2 ⟨z, hz, rfl⟩)
      split at h
      · next he =>
        rw [if_pos he]
        exact ih h
      · next he =>
        rw [if_neg he]
        split at h
        · next hc =>
          refine step_moves (ih h) fun _ _ => ?_
          simp only [next, if_pos hc, done]
        · next hc =>
          cases h
          refine step_moves Relation.ReflTransGen.refl fun _ _ => ?_
          simp only [next, if_neg hc]
          rfl

theorem find_moves {u : FindCtx} (hf : u.Fits op) {r : Bool × Answer}
    (h : find op.key fuel σ = some (τ, r)) :
    Relation.ReflTransGen (Moves op) (σ, u.retry) (τ, afterFind u (shown op r.2)) := by
  induction fuel generalizing σ with
  | zero => cases h
  | succ fuel ih =>
    obtain ⟨⟨υ, a⟩, hl, h⟩ := Option.bind_eq_some_iff.1 h
    have walk := findLevels_moves hf hl
    have hnil : shown op [] = [] := by cases op <;> rfl
    rw [hnil] at walk
    refine Relation.ReflTransGen.trans walk ?_
    cases a with
    | some path =>
      cases h
      exact Relation.ReflTransGen.refl
    | none => exact ih h

end Moves

-- nodes that are DELETED at a level are unlinked there, and nothing else happens
structure Swept (σ τ : Store V) : Prop where
  data : ∀ y, SameData (σ.node y) (τ.node y)
  state : ∀ i y, τ.stateAt i y = σ.stateAt i y
  kept : ∀ {i y}, (σ.level i).Linked y → ¬ σ.dead i y → (τ.level i).Linked y
  old : ∀ {i y}, (τ.level i).Linked y → (σ.level i).Linked y

theorem Swept.refl (σ : Store V) : Swept σ σ :=
  ⟨fun _ => SameData.refl _, fun _ _ => rfl, fun h _ => h, id⟩

theorem Swept.dead_iff (h : Swept σ τ) : τ.dead i y ↔ σ.dead i y := by
  unfold Store.dead
  rw [h.state]

theorem Swept.trans (h : Swept σ τ) (k : Swept τ υ) : Swept σ υ where
  data y := ⟨(k.data y).key.trans (h.data y).key, (k.data y).value.trans (h.data y).value,
    (k.data y).pValidity.trans (h.data y).pValidity, (k.data y).topLevel.trans (h.data y).topLevel⟩
  state i y := (k.state i y).trans (h.state i y)
  kept hl hd := k.kept (h.kept hl hd) fun hd' => hd (h.dead_iff.1 hd')
  old hl := h.old (k.old hl)

theorem pass_dead (hp : σ.tower.DeadPath i c d) (hr : (σ.level i).Reach c x)
    (hd : ¬ σ.dead i x) : (σ.level i).Reach d x := by
  induction hp with
  | refl => exact hr
  | @tail d e _ dead hs ih =>
    refine ih.succ_of_ne ?_ hs
    rintro rfl
    exact hd dead

theorem swept_setNext (hn : (σ.node p).next i = Ptr.addr c st) (alive : st ≠ .deleted)
    (hp : σ.tower.DeadPath i c d) : Swept σ (σ.setNext p i (Ptr.addr d st)) := by
  have hstate : ∀ j y, (σ.setNext p i (Ptr.addr d st)).stateAt j y = σ.stateAt j y :=
    fun j y => stateAt_move (state_of_addr hn)
  have succ : ∀ {j y}, (y, j) ≠ (p, i) →
      ((σ.setNext p i (Ptr.addr d st)).level j).succ y = (σ.level j).succ y :=
    fun h => ref_setNext σ _ h
  have here : ((σ.setNext p i (Ptr.addr d st)).level i).succ p = some d :=
    congrArg Ptr.ref (next_setNext_self σ p i _)
  have there : (σ.level i).succ p = some c := ref_of_addr hn
  have hpd : ¬ σ.dead i p := alive_of_addr hn alive
  have path : ∀ {e}, σ.tower.DeadPath i c e →
      (σ.setNext p i (Ptr.addr d st)).tower.DeadPath i c e := by
    intro e he
    induction he with
    | refl => exact Tower.DeadPath.refl
    | @tail a b _ dead hs ih =>
      have hne : (a, i) ≠ (p, i) := fun h => hpd ((Prod.mk.inj h).1 ▸ dead)
      exact ih.tail ((hstate i a).trans dead) ((succ hne).trans hs)
  have kept : ∀ {j a y}, (σ.level j).Reach a y → ¬ σ.dead j y →
      ((σ.setNext p i (Ptr.addr d st)).level j).Reach a y := by
    intro j a y hl hd
    induction hl using Relation.ReflTransGen.head_induction_on with
    | refl => exact Heap.Reach.refl _
    | @head a b hab _ ih =>
      by_cases he : (a, j) = (p, i)
      · obtain ⟨rfl, rfl⟩ := Prod.mk.inj he
        obtain rfl : c = b := Option.some.inj (there.symm.trans hab)
        have hd' : ¬ (σ.setNext a j (Ptr.addr d st)).dead j y := fun h =>
          hd ((hstate j y).symm.trans h)
        exact Heap.Reach.head here (pass_dead (path hp) ih hd')
      · exact Heap.Reach.head ((succ he).trans hab) ih
  have old : ∀ {j a y}, ((σ.setNext p i (Ptr.addr d st)).level j).Reach a y →
      (σ.level j).Reach a y := by
    intro j a y hl
    induction hl with
    | refl => exact Heap.Reach.refl _
    | @tail b e _ hab ih =>
      by_cases he : (b, j) = (p, i)
      · obtain ⟨rfl, rfl⟩ := Prod.mk.inj he
        obtain rfl : d = e := Option.some.inj (here.symm.trans hab)
        exact (Heap.Reach.tail ih there).trans hp.reach
      · exact Heap.Reach.tail ih ((succ he).symm.trans hab)
  exact ⟨setNext_data σ p i _, hstate, kept, old⟩

theorem findLevel_congr (hn : ∀ y, (τ.node y).next i = (σ.node y).next i)
    (hk : ∀ y, (τ.node y).key = (σ.node y).key) (d : Loc) :
    findLevel τ key i fuel p st d x = findLevel σ key i fuel p st d x := by
  induction fuel generalizing p st d x with
  | zero => rfl
  | succ fuel ih => simp only [findLevel, hn, hk, ih]

-- the answer a of level i is the truth, and d is what find reads at the predecessor
structure Holds (σ : Store V) (L : Set Cursor) (i : ℕ) (d : Loc) (a : Entry × NodeState) :
    Prop where
  live : (a.1.pred, i) ∈ L
  next : (σ.node a.1.pred).next i = Ptr.addr d a.1.predState
  alive : a.1.predState ≠ .deleted
  path : σ.tower.DeadPath i d a.1.succ
  succState : σ.stateAt i a.1.succ = a.2

theorem level_agree (hm : MemInv σ G L) (hk : key ≤ INTPTR_MAX) (hp : (p, i) ∈ L)
    (hn : (σ.node p).next i = Ptr.addr d st) (hst : st ≠ .deleted)
    (hds : σ.tower.DeadPath i d x) : ∃ N d' a, Holds σ L i d' a ∧ ∀ fuel, N ≤ fuel →
      noCleanupLevel σ key i fuel p st x = some a ∧
      findLevel σ key i fuel p st d x = some (d', a) := by
  have hx : (x, i) ∈ L := hm.sound.closed.reach (hm.right hp (ref_of_addr hn)) hds.reach
  have hr : (σ.level i).Reach x tail := hm.sound.ends hx
  induction hr using Relation.ReflTransGen.head_induction_on generalizing p d st with
  | refl =>
    have ht : ¬ ((σ.node tail).next i).getState = .deleted := by
      rw [hm.tail_next]
      nofun
    have hle : key ≤ (σ.node tail).key := hm.tail_key ▸ hk
    refine ⟨1, d, (⟨p, tail, st⟩, σ.stateAt i tail), ⟨hp, hn, hst, hds, rfl⟩, fun fuel hf => ?_⟩
    obtain ⟨fuel, rfl⟩ := Nat.exists_eq_add_of_le' hf
    exact ⟨by simp only [noCleanupLevel, if_neg ht, if_pos hle]; rfl,
      by simp only [findLevel, if_neg ht, if_pos hle]; rfl⟩
  | @head x y hxy _ ih =>
    have hy : ((σ.node x).next i).ref = some y := hxy
    have hyl : (y, i) ∈ L := hm.right hx hy
    by_cases hd : ((σ.node x).next i).getState = .deleted
    · obtain ⟨N, d', a, ha, h⟩ := ih hp hn hst (hds.tail hd hxy) hyl
      refine ⟨N + 1, d', a, ha, fun fuel hf => ?_⟩
      obtain ⟨fuel, rfl⟩ := Nat.exists_eq_add_of_le' (by omega : 1 ≤ fuel)
      simp only [noCleanupLevel, findLevel, if_pos hd, hy, Option.bind_some]
      exact h fuel (by omega)
    · by_cases hle : key ≤ (σ.node x).key
      · refine ⟨1, d, (⟨p, x, st⟩, σ.stateAt i x), ⟨hp, hn, hst, hds, rfl⟩, fun fuel hf => ?_⟩
        obtain ⟨fuel, rfl⟩ := Nat.exists_eq_add_of_le' hf
        exact ⟨by simp only [noCleanupLevel, if_neg hd, if_pos hle]; rfl,
          by simp only [findLevel, if_neg hd, if_pos hle]; rfl⟩
      · have hxn : (σ.node x).next i = Ptr.addr y ((σ.node x).next i).getState := by
          cases hq : (σ.node x).next i with
          | mk r s =>
            rw [hq] at hy
            obtain rfl : r = some y := hy
            rfl
        obtain ⟨N, d', a, ha, h⟩ := ih hx hxn hd Tower.DeadPath.refl hyl
        refine ⟨N + 1, d', a, ha, fun fuel hf => ?_⟩
        obtain ⟨fuel, rfl⟩ := Nat.exists_eq_add_of_le' (by omega : 1 ≤ fuel)
        simp only [noCleanupLevel, findLevel, if_neg hd, if_neg hle, hy, Option.bind_some]
        exact h fuel (by omega)

theorem inserted_down (hm : MemInv σ G L) (hx : (x, i + 1) ∈ L) (hd : ¬ σ.dead (i + 1) x) :
    σ.stateAt i x = .inserted := by
  cases i with
  | zero => exact hm.inserted_below hx le_rfl hd
  | succ i =>
    exact (hm.upper (Nat.le_add_left 1 i)).resolve_right (hm.alive_below hx (Nat.le_succ _) hd)

-- the tags and states of the answers from level i on are those of the nodes
def Truthful (σ : Store V) (i : ℕ) (path : Answer) : Prop := ∀ j a, path[j]? = some a →
  σ.stateAt (i + j) a.1.pred = a.1.predState ∧ σ.stateAt (i + j) a.1.succ = a.2

theorem Truthful.cons {a : Entry × NodeState} {path : Answer} (h : Truthful σ (i + 1) path)
    (ha : Holds σ L i d a) : Truthful σ i (a :: path) := by
  intro j b hj
  cases j with
  | zero =>
    obtain rfl : a = b := by simpa using hj
    exact ⟨state_of_addr ha.next, ha.succState⟩
  | succ j =>
    rw [show i + (j + 1) = i + 1 + j by omega]
    exact h j b (by simpa using hj)

theorem deadPath_congr (hs : ∀ y, τ.stateAt i y = σ.stateAt i y)
    (hn : ∀ y, (τ.node y).next i = (σ.node y).next i) (h : σ.tower.DeadPath i c d) :
    τ.tower.DeadPath i c d := by
  induction h with
  | refl => exact Tower.DeadPath.refl
  | @tail b e _ dead hbe ih =>
    exact ih.tail ((hs b).trans dead) ((congrArg Ptr.ref (hn b)).trans hbe)

theorem find_level (path : Answer) {a : Entry × NodeState} {N : ℕ} (hτ : Swept σ τ)
    (low : ∀ j < i + 1, ∀ y, (τ.node y).next j = (σ.node y).next j)
    (hx : (σ.node x).next i = Ptr.addr y .inserted) (ha : Holds σ L i d a)
    (hl : ∀ fuel, N ≤ fuel → findLevel σ key i fuel x .inserted y y = some (d, a)) :
    ∃ τ', Swept σ τ' ∧ (∀ j < i, ∀ y, (τ'.node y).next j = (σ.node y).next j) ∧
      ∀ fuel, N ≤ fuel →
        findLevels key fuel (i + 1) τ x path = findLevels key fuel i τ' a.1.pred (a :: path) := by
  have here := low i (Nat.lt_succ_self i)
  have level : ∀ fuel, N ≤ fuel → findLevel τ key i fuel x .inserted y y = some (d, a) :=
    fun fuel hf => (findLevel_congr here (fun y => (hτ.data y).key) y).trans (hl fuel hf)
  have enter : ∀ fuel, findLevels key fuel (i + 1) τ x path =
      (findLevel τ key i fuel x .inserted y y).bind fun (predNext, e, succState) =>
        if predNext = e.succ then findLevels key fuel i τ e.pred ((e, succState) :: path)
        else if (τ.node e.pred).next i = Ptr.addr predNext e.predState then
          findLevels key fuel i (τ.setNext e.pred i (Ptr.addr e.succ e.predState)) e.pred
            ((e, succState) :: path)
        else some (τ, none) := by
    intro fuel
    simp only [findLevels, here, hx]
    rfl
  by_cases hd : d = a.1.succ
  · refine ⟨τ, hτ, fun j hj => low j (by omega), fun fuel hf => ?_⟩
    rw [enter, level fuel hf]
    exact if_pos hd
  · have hcas : (τ.node a.1.pred).next i = Ptr.addr d a.1.predState := (here _).trans ha.next
    have swept := swept_setNext hcas ha.alive (deadPath_congr (hτ.state i) here ha.path)
    refine ⟨_, hτ.trans swept, fun j hj z => ?_, fun fuel hf => ?_⟩
    · rw [next_setNext_other τ _ fun e => absurd (Prod.mk.inj e).2 hj.ne]
      exact low j (by omega) z
    · rw [enter, level fuel hf]
      exact (if_neg hd).trans (if_pos hcas)

theorem levels_agree (hm : MemInv σ G L) (hk : key ≤ INTPTR_MAX) (path : Answer)
    (hi : i ≤ MAX_LEVEL) (hτ : Swept σ τ)
    (low : ∀ j < i, ∀ y, (τ.node y).next j = (σ.node y).next j)
    (hx : ∀ j, i = j + 1 → (x, j) ∈ L ∧ σ.stateAt j x = .inserted) (hxt : x ≠ tail)
    (hp : Truthful σ i path) (hl : i + path.length = MAX_LEVEL) : ∃ N r υ, Swept σ υ ∧
      Truthful σ 0 r ∧ r.length = MAX_LEVEL ∧ ∀ fuel, N ≤ fuel →
      noCleanupLevels σ key fuel i x path = some r ∧
      findLevels key fuel i τ x path = some (υ, some r) := by
  induction i generalizing x path τ with
  | zero => exact ⟨0, path, τ, hτ, hp, by omega, fun fuel _ => ⟨rfl, rfl⟩⟩
  | succ i ih =>
    obtain ⟨hxl, hxs⟩ := hx i rfl
    obtain ⟨y, hy⟩ := hm.sound.succ_ne_none hxl hxt
    have hy : ((σ.node x).next i).ref = some y := hy
    have hxn : (σ.node x).next i = Ptr.addr y .inserted := by
      rw [Ptr.addr, ← hy, ← hxs]
      rfl
    obtain ⟨N, d, a, ha, h1⟩ := level_agree hm hk hxl hxn nofun Tower.DeadPath.refl
    have down : ∀ j, i = j + 1 → (a.1.pred, j) ∈ L ∧ σ.stateAt j a.1.pred = .inserted := by
      rintro j rfl
      exact ⟨hm.sound.closed.down ha.live,
        inserted_down hm ha.live (alive_of_addr ha.next ha.alive)⟩
    obtain ⟨τ', hτ', low', hfind⟩ := find_level path hτ low hxn ha
      fun fuel hf => (h1 fuel hf).2
    obtain ⟨M, r, υ, hυ, hr, hlen, h2⟩ := ih (a :: path) (by omega) hτ' low' down
      (hm.ne_tail_of_addr ha.next) (hp.cons ha) (by simp only [List.length_cons]; omega)
    refine ⟨N + M, r, υ, hυ, hr, hlen, fun fuel hf => ?_⟩
    obtain ⟨h3, h4⟩ := h2 fuel (by omega)
    constructor
    · simp only [noCleanupLevels, hy, Option.bind_some, (h1 fuel (by omega)).1]
      exact h3
    · rw [hfind fuel (by omega)]
      exact h4

-- both searches finish with the same answer, whose tags are those of the nodes, and find only
-- unlinks nodes that are DELETED
structure Agree (σ : Store V) (key : ℤ) (N : ℕ) (found : Bool) (path : Answer) (τ : Store V) :
    Prop where
  noCleanup : ∀ fuel, N ≤ fuel → findNoCleanup σ key fuel = some (found, path)
  find : ∀ fuel, N ≤ fuel → find key fuel σ = some (τ, found, path)
  length : path.length = MAX_LEVEL
  truthful : Truthful σ 0 path
  swept : Swept σ τ

theorem MemInv.agree (hm : MemInv σ G L) (hk : key ≤ INTPTR_MAX) :
    ∃ N found path τ, Agree σ key N found path τ := by
  obtain ⟨N, r, τ, hτ, hr, hlen, h⟩ := levels_agree (i := MAX_LEVEL) (x := head) hm hk []
    le_rfl (Swept.refl σ) (fun _ _ _ => rfl) (fun j hj => ⟨hm.sound.head_mem (by omega),
      hm.head_state j⟩) (by decide) (fun j a h => nomatch (show ([] : Answer)[j]? = some a from h))
    rfl
  have hfound : foundAt τ key r = foundAt σ key r := by
    cases r with
    | nil => rfl
    | cons a r => simp only [foundAt, (hτ.data _).key]
  refine ⟨N + 1, foundAt σ key r, r, τ, fun fuel hf => ?_, fun fuel hf => ?_, hlen, hr, hτ⟩
  · rw [findNoCleanup, (h fuel (by omega)).1]
    rfl
  · obtain ⟨fuel, rfl⟩ := Nat.exists_eq_add_of_le' (by omega : 1 ≤ fuel)
    rw [SkipList.find, (h fuel (by omega)).2, ← hfound]
    rfl

theorem softSkipList_searches_agree (ρ : Run (machine V)) (never : NeverRecycled ρ) {n : ℕ}
    (hn : n ≤ ρ.length) (hk : key ≤ INTPTR_MAX) :
    ∃ N found path τ, Agree (ρ.state n).store key N found path τ :=
  (inv_run ρ (clean_of_neverRecycled never) n hn).mem.agree hk

-- the node of 5 in slot 3 has height 3; the remove of 5 has deleted it and not yet unlinked it
def deletedLinked : List (Command ℕ) :=
  [[.call 0 (.insert 3 30)], steps 0 42, [.alloc 0 2 2], steps 0 16, [.ret 0],
    [.call 0 (.insert 5 50)], steps 0 44, [.alloc 0 3 3], steps 0 19, [.ret 0],
    [.call 0 (.insert 7 70)], steps 0 44, [.alloc 0 4 1], steps 0 13, [.ret 0],
    [.call 1 (.remove 5)], steps 1 56].flatten

def linkedDeleted (σ : Store ℕ) : Bool :=
  (σ.node 2).next 0 == Ptr.addr 3 .inserted && (σ.node 2).next 1 == Ptr.addr 3 .inserted &&
    (σ.node head).next 2 == Ptr.addr 3 .inserted &&
    (List.range 3).all fun i => σ.stateAt i 3 == .deleted

def takesOut (r : Store ℕ × Bool × Answer) : Bool :=
  r.2.1 && (r.1.node 2).next 0 == Ptr.addr 4 .inserted &&
    (r.1.node 2).next 1 == Ptr.addr tail .inserted &&
    (r.1.node head).next 2 == Ptr.addr tail .inserted

theorem softSkipList_searches_agree_deleted : ∃ ρ : Run (machine ℕ), NeverRecycled ρ ∧
    (ρ.state ρ.length).thread 1 = some (.remove 5, (FindCtx.inRemove 3).retry) ∧
    linkedDeleted (ρ.state ρ.length).store = true ∧
    (find 7 8 (ρ.state ρ.length).store).any takesOut = true ∧
    ∃ N found path τ, Agree (ρ.state ρ.length).store 7 N found path τ := by
  obtain ⟨ρ, hρ, _⟩ := exists_play 0 exec id deletedLinked (by decide +kernel)
  have never : NeverRecycled ρ := neverRecycled_of_plays id hρ (by decide +kernel)
  have last := hρ.last (P := fun s =>
    decide (s.thread 1 = some (.remove 5, (FindCtx.inRemove 3).retry)) && linkedDeleted s.store &&
      (find 7 8 s.store).any takesOut) (by decide +kernel)
  simp only [Bool.and_eq_true, decide_eq_true_eq, and_assoc] at last
  obtain ⟨ht, hlinked, hfind⟩ := last
  exact ⟨ρ, never, ht, hlinked, hfind, softSkipList_searches_agree ρ never le_rfl (by decide)⟩

end SOFT.SkipList
