import DurableSets.LinkFree.SkipListAlone

namespace LinkFree.SkipList

open Chain

variable {V : Type} {σ σ' : Store V} {x y p c : Loc} {i fuel : ℕ} {key : ℤ} {path : Path}
  {s : State V} {A : Set ℤ} {op : SetOp V}

def flushDelete (σ : Store V) (n : Loc) : Store V :=
  if (σ.node n).deleteFlag then σ
  else (σ.flush n).write n { (σ.flush n).node n with deleteFlag := true }

-- the inner loops of find at level i; none stands for a null pointer that is followed, or for
-- more than fuel rounds
def findLevel (key : ℤ) (i : ℕ) :
    ℕ → Store V → Loc → Loc → Loc → Option (Store V × Loc × Loc × Loc)
  | 0, _, _, _, _ => none
  | fuel + 1, σ, pred, predNext, succ =>
    let succNext := (σ.node succ).next i
    if succNext.isMarked then
      succNext.ref.bind fun s =>
        findLevel key i fuel (if i = 0 then flushDelete σ succ else σ) pred predNext s
    else if key ≤ (σ.node succ).key then some (σ, pred, predNext, succ)
    else succNext.ref.bind fun s => findLevel key i fuel σ succ s s

-- the levels below i; the path is missing when find has to start again
def findLevels (key : ℤ) (fuel : ℕ) : ℕ → Store V → Loc → Path → Option (Store V × Option Path)
  | 0, σ, _, path => some (σ, some path)
  | i + 1, σ, pred, path =>
    if ((σ.node pred).next i).isMarked then some (σ, none)
    else ((σ.node pred).next i).ref.bind fun s =>
      (findLevel key i fuel σ pred s s).bind fun (σ, pred, predNext, succ) =>
        if predNext = succ then findLevels key fuel i σ pred ((pred, succ) :: path)
        else if (σ.node pred).next i = Ptr.addr predNext then
          findLevels key fuel i (σ.setNext pred i (Ptr.addr succ)) pred ((pred, succ) :: path)
        else some (σ, none)

def foundAt (σ : Store V) (key : ℤ) : List Loc → Bool
  | [] => false
  | succ :: _ => (σ.node succ).key = key

def find (key : ℤ) : ℕ → Store V → Option (Store V × Bool × Path)
  | 0, _ => none
  | fuel + 1, σ =>
    (findLevels key fuel MAX_LEVEL σ head []).bind fun (σ, r) =>
      match r with
      | some path => some (σ, foundAt σ key (path.map Prod.snd), path)
      | none => find key fuel σ

def noCleanupLevel (σ : Store V) (key : ℤ) (i : ℕ) : ℕ → Loc → Loc → Option (Loc × Loc)
  | 0, _, _ => none
  | fuel + 1, pred, succ =>
    let succNext := (σ.node succ).next i
    if succNext.isMarked then succNext.ref.bind fun s => noCleanupLevel σ key i fuel pred s
    else if key ≤ (σ.node succ).key then some (pred, succ)
    else succNext.ref.bind fun s => noCleanupLevel σ key i fuel succ s

def noCleanupLevels (σ : Store V) (key : ℤ) (fuel : ℕ) : ℕ → Loc → Path → Option Path
  | 0, _, path => some path
  | i + 1, pred, path =>
    ((σ.node pred).next i).ref.bind fun s =>
      (noCleanupLevel σ key i fuel pred s).bind fun (pred, succ) =>
        noCleanupLevels σ key fuel i pred ((pred, succ) :: path)

def findNoCleanup (σ : Store V) (key : ℤ) (fuel : ℕ) : Option (Bool × Path) :=
  (noCleanupLevels σ key fuel MAX_LEVEL head []).map fun path =>
    (foundAt σ key (path.map Prod.snd), path)

def succsNoCleanupLevels (σ : Store V) (key : ℤ) (fuel : ℕ) :
    ℕ → Loc → List Loc → Option (List Loc)
  | 0, _, succs => some succs
  | i + 1, pred, succs =>
    ((σ.node pred).next i).ref.bind fun s =>
      (noCleanupLevel σ key i fuel pred s).bind fun (pred, succ) =>
        succsNoCleanupLevels σ key fuel i pred (succ :: succs)

def findSuccsNoCleanup (σ : Store V) (key : ℤ) (fuel : ℕ) : Option (Bool × List Loc) :=
  (succsNoCleanupLevels σ key fuel MAX_LEVEL head []).map fun succs =>
    (foundAt σ key succs, succs)

theorem succsNoCleanupLevels_eq (σ : Store V) (key : ℤ) (fuel : ℕ) (i : ℕ) (pred : Loc)
    (path : Path) : succsNoCleanupLevels σ key fuel i pred (path.map Prod.snd) =
      (noCleanupLevels σ key fuel i pred path).map fun path => path.map Prod.snd := by
  induction i generalizing pred path with
  | zero => rfl
  | succ i ih =>
    simp only [succsNoCleanupLevels, noCleanupLevels, Option.map_bind]
    refine Option.bind_congr fun a _ => ?_
    rw [Function.comp_apply, Option.map_bind]
    exact Option.bind_congr fun e _ => ih e.1 (e :: path)

theorem findSuccsNoCleanup_eq (σ : Store V) (key : ℤ) (fuel : ℕ) :
    findSuccsNoCleanup σ key fuel =
      (findNoCleanup σ key fuel).map fun r => (r.1, r.2.map Prod.snd) := by
  unfold findSuccsNoCleanup findNoCleanup
  rw [show ([] : List Loc) = ([] : Path).map Prod.snd from rfl, succsNoCleanupLevels_eq,
    Option.map_map, Option.map_map]
  rfl

def Moves (op : SetOp V) (a b : Store V × Pc) : Prop :=
  ∃ slot level, next a.1 op slot level a.2 = some b

section Moves

variable {a : Store V × Pc} {pc pc' : Pc}

theorem moves_of (h : next σ op 0 0 pc = some a) : Moves op (σ, pc) a := ⟨0, 0, h⟩

theorem noCleanupLevel_moves (h : noCleanupLevel σ op.key i fuel x y = some (p, c)) :
    Relation.ReflTransGen (Moves op) (σ, .searchTest i x y path)
      (σ, searchDone σ op p c path i) := by
  induction fuel generalizing x y with
  | zero => cases h
  | succ fuel ih =>
    simp only [noCleanupLevel] at h
    split at h
    · next hmk =>
      obtain ⟨z, hz, h⟩ := Option.bind_eq_some_iff.1 h
      refine Relation.ReflTransGen.head (moves_of (by simp only [next, if_pos hmk]; rfl)) ?_
      exact Relation.ReflTransGen.head (moves_of (by simp only [next, hz]; rfl)) (ih h)
    · next hmk =>
      split at h
      · next hk =>
        obtain ⟨rfl, rfl⟩ := Prod.mk.inj (Option.some.inj h)
        exact Relation.ReflTransGen.single (moves_of (by simp only [next, if_neg hmk, if_pos hk]))
      · next hk =>
        obtain ⟨z, hz, h⟩ := Option.bind_eq_some_iff.1 h
        refine Relation.ReflTransGen.head
          (moves_of (by simp only [next, if_neg hmk, if_neg hk]; rfl)) ?_
        exact Relation.ReflTransGen.head (moves_of (by simp only [next, hz]; rfl)) (ih h)

theorem noCleanupLevels_moves {r : Path}
    (h : noCleanupLevels σ op.key fuel (i + 1) x path = some r) (hop : op.IsInsert) :
    ∃ p c rest, r = (p, c) :: rest ∧
      Relation.ReflTransGen (Moves op) (σ, .searchDown i x path)
        (σ, afterSearch σ op p c rest) := by
  induction i generalizing x path with
  | zero =>
    obtain ⟨z, hz, h⟩ := Option.bind_eq_some_iff.1 h
    obtain ⟨⟨p, c⟩, hl, h⟩ := Option.bind_eq_some_iff.1 h
    refine ⟨p, c, path, (Option.some.inj h).symm, ?_⟩
    exact Relation.ReflTransGen.head (moves_of (by simp only [next, hz]; rfl))
      (noCleanupLevel_moves hl)
  | succ i ih =>
    obtain ⟨z, hz, h⟩ := Option.bind_eq_some_iff.1 h
    obtain ⟨⟨p, c⟩, hl, h⟩ := Option.bind_eq_some_iff.1 h
    obtain ⟨p', c', rest, hr, hw⟩ := ih h
    refine ⟨p', c', rest, hr, Relation.ReflTransGen.head
      (moves_of (by simp only [next, hz]; rfl)) ((noCleanupLevel_moves hl).trans ?_)⟩
    cases op with
    | insert k v => exact hw
    | _ => exact hop.elim

theorem findNoCleanup_moves {r : Bool × Path} (h : findNoCleanup σ op.key fuel = some r)
    (hop : op.IsInsert) : ∃ p c rest, r.2 = (p, c) :: rest ∧
      Relation.ReflTransGen (Moves op) (σ, retry) (σ, afterSearch σ op p c rest) := by
  obtain ⟨path, hp, rfl⟩ := Option.map_eq_some_iff.1 h
  exact noCleanupLevels_moves hp hop

theorem flushDelete_moves (σ : Store V) (n : Loc) (e : DeleteCtx) :
    Relation.ReflTransGen (Moves op) (σ, .deleteLoad e n) (flushDelete σ n, afterDelete n e) := by
  unfold flushDelete
  split
  · next hf => exact Relation.ReflTransGen.single (moves_of (by simp only [next, if_pos hf]))
  · next hf =>
    refine Relation.ReflTransGen.head (moves_of (by simp only [next, if_neg hf]; rfl)) ?_
    exact Relation.ReflTransGen.head (moves_of rfl) (Relation.ReflTransGen.single (moves_of rfl))

theorem findLevel_moves {e : FindCtx} {d y' d' : Loc}
    (h : findLevel op.key i fuel σ x d y = some (σ', p, d', y')) :
    Relation.ReflTransGen (Moves op) (σ, .findLoad e i x d y path)
      (σ', if d' = y' then findDone e p y' path i else .findCas e i p d' y' path) := by
  induction fuel generalizing σ x d y with
  | zero => cases h
  | succ fuel ih =>
    simp only [findLevel] at h
    split at h
    · next hmk =>
      obtain ⟨z, hz, h⟩ := Option.bind_eq_some_iff.1 h
      by_cases h0 : i = 0
      · subst h0
        rw [if_pos rfl] at h
        refine Relation.ReflTransGen.head
          (moves_of (by simp only [next, if_pos hmk, hz, Option.map_some, if_true]; rfl)) ?_
        exact (flushDelete_moves σ y _).trans (ih h)
      · rw [if_neg h0] at h
        refine Relation.ReflTransGen.head (moves_of (by
          simp only [next, if_pos hmk, hz, Option.map_some]
          rw [if_neg h0])) (ih h)
    · next hmk =>
      split at h
      · next hk =>
        cases h
        exact Relation.ReflTransGen.single (moves_of (by simp only [next, if_neg hmk, if_pos hk]))
      · next hk =>
        obtain ⟨z, hz, h⟩ := Option.bind_eq_some_iff.1 h
        exact Relation.ReflTransGen.head
          (moves_of (by simp only [next, if_neg hmk, if_neg hk, hz]; rfl)) (ih h)

def afterLevels (e : FindCtx) : Option Path → Pc
  | some path => afterFind e path
  | none => e.retry

theorem findLevels_moves {n : Loc} {l : ℕ} {r : Option Path}
    (h : findLevels op.key fuel (i + 1) σ x path = some (σ', r)) :
    Relation.ReflTransGen (Moves op) (σ, .findDown (.inInsert n l) i x path)
      (σ', afterLevels (.inInsert n l) r) := by
  induction i generalizing σ x path with
  | zero =>
    simp only [findLevels] at h
    split at h
    · next hmk =>
      cases h
      exact Relation.ReflTransGen.single (moves_of (by simp only [next, if_pos hmk]; rfl))
    · next hmk =>
      obtain ⟨z, hz, h⟩ := Option.bind_eq_some_iff.1 h
      obtain ⟨⟨τ, p, d, y⟩, hl, h⟩ := Option.bind_eq_some_iff.1 h
      refine Relation.ReflTransGen.head
        (moves_of (by simp only [next, if_neg hmk, hz]; rfl)) ((findLevel_moves hl).trans ?_)
      simp only at h
      split at h
      · next hd =>
        cases h
        rw [if_pos hd]
        exact Relation.ReflTransGen.refl
      · next hd =>
        rw [if_neg hd]
        refine Relation.ReflTransGen.single ?_
        split at h
        · next hc =>
          cases h
          exact moves_of (by simp only [next, if_pos hc]; rfl)
        · next hc =>
          cases h
          exact moves_of (by simp only [next, if_neg hc]; rfl)
  | succ i ih =>
    rw [findLevels] at h
    split at h
    · next hmk =>
      cases h
      exact Relation.ReflTransGen.single (moves_of (by simp only [next, if_pos hmk]; rfl))
    · next hmk =>
      obtain ⟨z, hz, h⟩ := Option.bind_eq_some_iff.1 h
      obtain ⟨⟨τ, p, d, y⟩, hl, h⟩ := Option.bind_eq_some_iff.1 h
      refine Relation.ReflTransGen.head
        (moves_of (by simp only [next, if_neg hmk, hz]; rfl)) ((findLevel_moves hl).trans ?_)
      simp only at h
      split at h
      · next hd =>
        rw [if_pos hd]
        exact ih h
      · next hd =>
        rw [if_neg hd]
        split at h
        · next hc =>
          exact Relation.ReflTransGen.head (moves_of (by simp only [next, if_pos hc]; rfl)) (ih h)
        · next hc =>
          cases h
          exact Relation.ReflTransGen.single (moves_of (by simp only [next, if_neg hc]; rfl))

theorem find_moves {n : Loc} {l : ℕ} {r : Bool × Path} (h : find op.key fuel σ = some (σ', r)) :
    Relation.ReflTransGen (Moves op) (σ, (FindCtx.inInsert n l).retry)
      (σ', afterFind (.inInsert n l) r.2) := by
  induction fuel generalizing σ with
  | zero => cases h
  | succ fuel ih =>
    obtain ⟨⟨τ, a⟩, hl, h⟩ := Option.bind_eq_some_iff.1 h
    refine (findLevels_moves hl).trans ?_
    cases a with
    | some path =>
      cases h
      exact Relation.ReflTransGen.refl
    | none => exact ih h

end Moves

structure Neighbours (σ : Store V) (key : ℤ) (i : ℕ) (p c : Loc) : Prop where
  linked : (σ.level i).Linked p
  next : (σ.node p).next i = Ptr.addr c
  below : rank σ p < (key : WithBot ℤ)
  above : key ≤ (σ.node c).key

theorem level_agree {L : Set Cursor} (hm : MemInv σ MAX_LEVEL L)
    (alive : ∀ {x}, (σ.level i).Linked x → ¬ σ.dead i x) (hi : i < MAX_LEVEL)
    (hk : key ≤ INT_MAX) (hx : (σ.level i).Linked x) (hs : (σ.node x).next i = Ptr.addr y)
    (hlt : rank σ x < (key : WithBot ℤ)) : ∃ N p c, Neighbours σ key i p c ∧ ∀ fuel, N ≤ fuel →
      noCleanupLevel σ key i fuel x y = some (p, c) ∧
      findLevel key i fuel σ x y y = some (σ, p, c, c) := by
  have hy : (σ.level i).Linked y := Heap.Reach.tail hx (ref_of_addr hs)
  have hr : (σ.level i).Reach y tail := hm.sound.ends (hm.live_of_linked_at hi hy)
  induction hr using Relation.ReflTransGen.head_induction_on generalizing x with
  | refl =>
    have hmk : ¬ ((σ.node tail).next i).isMarked = true := alive hy
    have hle : key ≤ (σ.node tail).key := hm.tail_key ▸ hk
    refine ⟨1, x, tail, ⟨hx, hs, hlt, hle⟩, fun fuel hf => ?_⟩
    obtain ⟨fuel, rfl⟩ := Nat.exists_eq_add_of_le' hf
    exact ⟨by simp only [noCleanupLevel, if_neg hmk, if_pos hle],
      by simp only [findLevel, if_neg hmk, if_pos hle]⟩
  | @head y z hyz _ ih =>
    have hmk : ¬ ((σ.node y).next i).isMarked = true := alive hy
    have hz : ((σ.node y).next i).ref = some z := hyz
    by_cases hle : key ≤ (σ.node y).key
    · refine ⟨1, x, y, ⟨hx, hs, hlt, hle⟩, fun fuel hf => ?_⟩
      obtain ⟨fuel, rfl⟩ := Nat.exists_eq_add_of_le' hf
      exact ⟨by simp only [noCleanupLevel, if_neg hmk, if_pos hle],
        by simp only [findLevel, if_neg hmk, if_pos hle]⟩
    · have hyh : y ≠ head := hm.succ_ne_head (hm.live_of_linked_at hi hx) (ref_of_addr hs)
      have hlt' : rank σ y < (key : WithBot ℤ) := by
        rw [rank_of_ne σ hyh]
        exact WithBot.coe_lt_coe.2 (not_le.1 hle)
      obtain ⟨N, p, c, hn, h⟩ := ih hy (addr_of_alive (alive hy) hz) hlt' (Heap.Reach.tail hy hyz)
      refine ⟨N + 1, p, c, hn, fun fuel hf => ?_⟩
      obtain ⟨fuel, rfl⟩ := Nat.exists_eq_add_of_le' (by omega : 1 ≤ fuel)
      simp only [noCleanupLevel, findLevel, if_neg hmk, if_neg hle, hz, Option.bind_some]
      exact h fuel (by omega)

def Around (σ : Store V) (key : ℤ) (i : ℕ) (path : Path) : Prop :=
  ∀ j e, path[j]? = some e → Neighbours σ key (i + j) e.1 e.2

theorem Around.cons {e : Loc × Loc} (h : Around σ key (i + 1) path)
    (he : Neighbours σ key i e.1 e.2) : Around σ key i (e :: path) := by
  intro j a hj
  cases j with
  | zero =>
    obtain rfl : e = a := by simpa using hj
    exact he
  | succ j =>
    have := h j a (by simpa using hj)
    rwa [show i + 1 + j = i + (j + 1) by omega] at this

theorem Whole.levels_agree (h : Whole A s) (hk : key ≤ INT_MAX) (hi : i ≤ MAX_LEVEL)
    (hx : i ≠ 0 → (s.store.level (i - 1)).Linked x) (hlt : rank s.store x < (key : WithBot ℤ))
    (hp : Around s.store key i path) (hl : i + path.length = MAX_LEVEL) : ∃ N r,
      Around s.store key 0 r ∧ r.length = MAX_LEVEL ∧ ∀ fuel, N ≤ fuel →
      noCleanupLevels s.store key fuel i x path = some r ∧
      findLevels key fuel i s.store x path = some (s.store, some r) := by
  have hm := h.inv.inv.mem
  induction i generalizing x path with
  | zero => exact ⟨0, path, hp, by omega, fun fuel _ => ⟨rfl, rfl⟩⟩
  | succ i ih =>
    have hxl : (s.store.level i).Linked x := hx (Nat.succ_ne_zero i)
    have hxd := h.alive hi hxl
    have hxt : x ≠ tail := by
      rintro rfl
      rw [hm.tail_rank] at hlt
      exact absurd (WithBot.coe_lt_coe.1 hlt) (not_lt.2 hk)
    obtain ⟨y, hy⟩ := hm.sound.succ_ne_none (hm.live_of_linked_at hi hxl) hxt
    have hxy := addr_of_alive hxd hy
    obtain ⟨N, p, c, hn, h1⟩ := level_agree hm (fun hx => h.alive hi hx) hi hk hxl hxy hlt
    have hpl := hm.live_of_linked_at hi hn.linked
    obtain ⟨M, r, hr, hlen, h2⟩ := ih (x := p) (by omega)
      (fun h0 => (linked_below hm hi hpl (h.alive hi hn.linked) (Nat.sub_le i 1)).1) hn.below
      (hp.cons (e := (p, c)) hn) (by simp only [List.length_cons]; omega)
    refine ⟨N + M, r, hr, hlen, fun fuel hf => ?_⟩
    obtain ⟨h3, h4⟩ := h1 fuel (by omega)
    obtain ⟨h5, h6⟩ := h2 fuel (by omega)
    have hmk : ¬ ((s.store.node x).next i).isMarked = true := hxd
    have href : ((s.store.node x).next i).ref = some y := hy
    constructor
    · simp only [noCleanupLevels, href, Option.bind_some, h3]
      exact h5
    · rw [findLevels, if_neg hmk, href, Option.bind_some, h4, Option.bind_some]
      exact (if_pos rfl).trans h6

theorem Whole.search_agree (h : Whole A s) (hk : key ≤ INT_MAX) : ∃ N found path,
    path.length = MAX_LEVEL ∧ Around s.store key 0 path ∧ ∀ fuel, N ≤ fuel →
      findNoCleanup s.store key fuel = some (found, path) ∧
      findSuccsNoCleanup s.store key fuel = some (found, path.map Prod.snd) ∧
      find key fuel s.store = some (s.store, found, path) := by
  have hlt : rank s.store head < (key : WithBot ℤ) := by
    rw [rank_head]
    exact WithBot.bot_lt_coe _
  obtain ⟨N, r, hr, hlen, hN⟩ := h.levels_agree (i := MAX_LEVEL) (x := head) hk le_rfl
    (fun _ => Heap.Reach.refl _) hlt (fun j e he => nomatch (show ([] : Path)[j]? = some e from he))
    rfl
  refine ⟨N + 1, foundAt s.store key (r.map Prod.snd), r, hlen, hr, fun fuel hf => ?_⟩
  have clean : findNoCleanup s.store key fuel =
      some (foundAt s.store key (r.map Prod.snd), r) := by
    rw [findNoCleanup, (hN fuel (by omega)).1]
    rfl
  refine ⟨clean, ?_, ?_⟩
  · rw [findSuccsNoCleanup_eq, clean]
    rfl
  · obtain ⟨fuel, rfl⟩ := Nat.exists_eq_add_of_le' (by omega : 1 ≤ fuel)
    rw [find, (hN fuel (by omega)).2]
    rfl

end LinkFree.SkipList
