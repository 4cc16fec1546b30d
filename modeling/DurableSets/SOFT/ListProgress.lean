import DurableSets.Core.Progress
import DurableSets.SOFT.ListRun

namespace SOFT.List

open Chain

variable {V : Type} {σ σ' : Store V} {R W : Set Loc} {x y n c d : Loc} {slot : ℕ}
  {op : SetOp V} {pc pc' : Pc} {s s' : State V} {t : Tid} {st : NodeState}

/-! ### How far a call still has to go -/

def left (σ : Store V) (x : Loc) : ℕ := (INT_MAX - (σ.node x).key).toNat

def ahead (σ : Store V) (n : Loc) : ℕ :=
  match (σ.node n).next.ref with
  | some d => 2 * left σ d + 2
  | none => 0

def TrimCtx.walk (σ : Store V) : TrimCtx → ℕ
  | .inFind s => 2 * left σ s + 2
  | .inRemove => 0

-- what is left of the list for the traversal that the call is in
def Pc.walk (σ : Store V) : Pc → ℕ
  | .find => ahead σ head
  | .findLoad _ _ c => 2 * left σ c + 1
  | .trimLoad t _ _ _ => t.walk σ
  | .trimCas t _ _ _ _ => t.walk σ
  | .trimFree t _ _ _ => t.walk σ
  | .containsHead => ahead σ head
  | .containsWalk c => 2 * left σ c + 1
  | _ => 0

-- a state loop that tests for the state a: at its test, and at a compare-and-swap from p
def testWeight (σ : Store V) (n : Loc) (a : NodeState) : ℕ :=
  if (σ.node n).next.state = a then 4 else 1

def casWeight (σ : Store V) (n : Loc) (p : Ptr) (a : NodeState) : ℕ :=
  if (σ.node n).next.state = a ∧ (σ.node n).next ≠ p.createRef a then 5 else 2

-- the steps to the next turn of the traversal, or after it
def Pc.weight (σ : Store V) : Pc → ℕ
  | .trimLoad _ _ _ _ => 4
  | .trimCas _ _ _ _ _ => 3
  | .trimFree _ _ _ _ => 2
  | .allocPNode _ _ _ => 30
  | .pnodeAlloc _ _ _ _ => 29
  | .allocNode _ _ _ _ _ => 28
  | .initNode _ _ _ _ _ _ => 27
  | .initNext _ _ _ _ _ => 26
  | .linkCas _ _ _ _ _ => 25
  | .lostNode _ _ => 24
  | .lostPNode _ => 23
  | .createStart _ _ => 10
  | .createKey _ _ => 9
  | .createValue _ _ => 8
  | .createEnd _ _ => 7
  | .createFlush _ _ => 6
  | .insertTest _ n => testWeight σ n .intendToInsert
  | .insertLoad _ _ => 3
  | .insertCas _ n p => casWeight σ n p .intendToInsert
  | .markTest _ _ n => 13 + testWeight σ n .inserted
  | .markLoad _ _ _ => 16
  | .markCas _ _ n p => 13 + casWeight σ n p .inserted
  | .destroyStore _ _ _ _ => 12
  | .destroyFlush _ _ _ _ => 11
  | .deleteTest _ _ _ n => 5 + testWeight σ n .intendToDelete
  | .deleteLoad _ _ _ _ => 8
  | .deleteCas _ _ _ n p => 5 + casWeight σ n p .intendToDelete
  | _ => 0

def measure (σ : Store V) (pc : Pc) : ℕ := 32 * pc.walk σ + pc.weight σ

theorem testWeight_le (σ : Store V) (n : Loc) (a : NodeState) : testWeight σ n a ≤ 4 := by
  unfold testWeight
  split <;> omega

theorem testWeight_pos (σ : Store V) (n : Loc) (a : NodeState) : 1 ≤ testWeight σ n a := by
  unfold testWeight
  split <;> omega

theorem casWeight_self (σ : Store V) (n : Loc) (a : NodeState) :
    casWeight σ n (σ.node n).next a = 2 := by
  refine if_neg fun h => h.2 ?_
  rw [← h.1]
  rfl

theorem stateCas_weight {p : Ptr} {a b : NodeState} (won lost : Pc) (hab : a ≠ b) :
    (∃ σ', stateCas σ n p a b won lost = (σ', won) ∧
      testWeight σ' n a < casWeight σ n p a) ∨
    (stateCas σ n p a b won lost = (σ, lost) ∧ testWeight σ n a < casWeight σ n p a) := by
  unfold stateCas
  split
  · next h =>
    refine Or.inl ⟨_, rfl, ?_⟩
    have h1 : testWeight (σ.setNext n (p.createRef b)) n a = 1 := by
      refine if_neg fun h => hab ?_
      rw [setNext_next, if_pos rfl] at h
      exact h.symm
    have h2 : casWeight σ n p a = 2 := if_neg fun h' => h'.2 h
    omega
  · next h =>
    refine Or.inr ⟨rfl, ?_⟩
    unfold testWeight casWeight
    by_cases hs : (σ.node n).next.state = a
    · rw [if_pos hs, if_pos ⟨hs, h⟩]
      omega
    · rw [if_neg hs, if_neg fun h => hs h.1]
      omega

theorem left_congr (h : (σ'.node x).key = (σ.node x).key) : left σ' x = left σ x := by
  unfold left
  rw [h]

theorem left_lt (hm : MemInv σ R W) (hx : σ.heap.Live R x) (hh : x ≠ head)
    (hs : (σ.node x).next.ref = some d) : left σ d < left σ x := by
  have hlt : rank σ x < rank σ d := hm.chain.ordered hx hs
  have hdh := hm.chain.succ_ne_head hx hs
  rw [rank_of_ne σ hh, rank_of_ne σ hdh] at hlt
  have hlt : (σ.node x).key < (σ.node d).key := WithBot.coe_lt_coe.1 hlt
  have hle : (σ.node d).key ≤ INT_MAX := by
    by_cases ht : d = tail
    · rw [ht, hm.chain.tail_key]
    · have hb := hm.chain.bounded (hx.succ hs) ht
      rw [rank_of_ne σ hdh] at hb
      exact (WithBot.coe_lt_coe.1 hb).le
  unfold left
  omega

theorem ahead_some (hs : (σ.node n).next.ref = some d) : ahead σ n = 2 * left σ d + 2 := by
  simp only [ahead, hs]

theorem walk_setNext (σ : Store V) (d : Loc) (q : Ptr) (t : TrimCtx) :
    t.walk (σ.setNext d q) = t.walk σ := by
  cases t with
  | inFind s => simp only [TrimCtx.walk, left_congr (setNext_data σ d q s).1]
  | inRemove => rfl

theorem afterTrim_measure (σ : Store V) (d : Loc) (st : NodeState) (t : TrimCtx) :
    measure σ (afterTrim d st t) ≤ 32 * t.walk σ := by
  cases t with
  | inFind s =>
    simp only [afterTrim, measure, Pc.walk, Pc.weight, TrimCtx.walk]
    omega
  | inRemove => simp [afterTrim, measure, Pc.walk, Pc.weight]

theorem afterFind_measure {cs : NodeState} (h : afterFind σ d st c cs op = some pc') :
    measure σ pc' < 32 := by
  have hw := testWeight_le σ c .inserted
  cases op with
  | insert k v =>
    simp only [afterFind] at h
    split at h
    · split at h <;> obtain rfl := Option.some.inj h <;> simp [measure, Pc.walk, Pc.weight]
    · obtain rfl := Option.some.inj h
      simp [measure, Pc.walk, Pc.weight]
  | remove k =>
    simp only [afterFind] at h
    split at h
    · obtain rfl := Option.some.inj h
      simp [measure, Pc.walk, Pc.weight]
    · split at h <;> obtain rfl := Option.some.inj h <;> simp only [measure, Pc.walk, Pc.weight] <;>
        omega
  | contains k => cases h

theorem step_measure (hm : MemInv σ R W) (f : Fit σ R W op pc)
    (hn : next σ op slot pc = some (σ', pc')) : pc' = .find ∨ measure σ' pc' < measure σ pc := by
  cases pc with
  | find =>
    right
    simp only [next] at hn
    obtain ⟨c, hc, he⟩ := Option.map_eq_some_iff.1 hn
    obtain ⟨rfl, rfl⟩ := Prod.mk.inj he
    have := ahead_some hc
    simp only [measure, Pc.walk, Pc.weight]
    omega
  | findLoad d st c =>
    right
    have hc : c ≠ head := f.loc.2.2
    have hlt : ∀ {e}, (σ.node c).next.ref = some e → left σ e < left σ c := fun he =>
      left_lt hm (f.refs c (by simp [Pc.refs])) hc he
    simp only [next] at hn
    split at hn
    · split at hn
      · obtain ⟨q, ha, he⟩ := Option.map_eq_some_iff.1 hn
        obtain ⟨rfl, rfl⟩ := Prod.mk.inj he
        have := afterFind_measure ha
        simp only [measure, Pc.walk, Pc.weight] at this ⊢
        omega
      · obtain ⟨e, he, hp⟩ := Option.map_eq_some_iff.1 hn
        obtain ⟨rfl, rfl⟩ := Prod.mk.inj hp
        have := hlt he
        simp only [measure, Pc.walk, Pc.weight]
        omega
    · obtain ⟨e, he, hp⟩ := Option.map_eq_some_iff.1 hn
      obtain ⟨rfl, rfl⟩ := Prod.mk.inj hp
      have := hlt he
      simp only [measure, Pc.walk, Pc.weight, TrimCtx.walk]
      omega
  | trimLoad u d st n =>
    right
    obtain ⟨rfl, rfl⟩ := Prod.mk.inj (Option.some.inj hn)
    simp only [measure, Pc.walk, Pc.weight]
    omega
  | trimCas u d st n q =>
    right
    simp only [next] at hn
    split at hn <;> obtain ⟨rfl, rfl⟩ := Prod.mk.inj (Option.some.inj hn)
    · simp only [measure, Pc.walk, Pc.weight, walk_setNext]
      omega
    · refine (afterTrim_measure σ d st u).trans_lt ?_
      simp only [measure, Pc.walk, Pc.weight]
      omega
  | trimFree u d st n =>
    right
    simp only [next] at hn
    obtain ⟨p, _, he⟩ := Option.map_eq_some_iff.1 hn
    obtain ⟨rfl, rfl⟩ := Prod.mk.inj he
    have hw : u.walk (σ.giveP p) = u.walk σ := by cases u <;> rfl
    refine (afterTrim_measure _ d st u).trans_lt ?_
    simp only [measure, Pc.walk, Pc.weight, hw]
    omega
  | initNode d st c n p v =>
    right
    simp only [next] at hn
    split at hn
    · obtain ⟨rfl, rfl⟩ := Prod.mk.inj (Option.some.inj hn)
      simp only [measure, Pc.walk, Pc.weight]
      omega
    · cases hn
  | linkCas d st c n p =>
    right
    simp only [next] at hn
    split at hn <;> obtain ⟨rfl, rfl⟩ := Prod.mk.inj (Option.some.inj hn) <;>
      simp only [measure, Pc.walk, Pc.weight] <;> omega
  | lostPNode p =>
    obtain ⟨rfl, rfl⟩ := Prod.mk.inj (Option.some.inj hn)
    exact Or.inl rfl
  | createFlush r n =>
    right
    simp only [next, barrier] at hn
    obtain ⟨p, _, he⟩ := Option.map_eq_some_iff.1 hn
    obtain ⟨rfl, rfl⟩ := Prod.mk.inj he
    have := testWeight_le (σ.flushP p) n .intendToInsert
    simp only [measure, Pc.walk, Pc.weight]
    omega
  | insertTest r n =>
    right
    have := testWeight_pos σ n .intendToInsert
    simp only [next] at hn
    split at hn <;> obtain ⟨rfl, rfl⟩ := Prod.mk.inj (Option.some.inj hn)
    · next hs =>
      have : testWeight σ n .intendToInsert = 4 := if_pos hs
      simp only [measure, Pc.walk, Pc.weight]
      omega
    · simp only [measure, Pc.walk, Pc.weight]
      omega
  | insertLoad r n =>
    right
    obtain ⟨rfl, rfl⟩ := Prod.mk.inj (Option.some.inj hn)
    have := casWeight_self σ n .intendToInsert
    simp only [measure, Pc.walk, Pc.weight]
    omega
  | insertCas r n p =>
    right
    simp only [next, Option.some.injEq] at hn
    rcases stateCas_weight (σ := σ) (n := n) (p := p) (.insertTest r n)
      (.insertTest r n) (by decide : NodeState.intendToInsert ≠ .inserted) with
      ⟨σ1, he, hlt⟩ | ⟨he, hlt⟩ <;> rw [he] at hn <;> obtain ⟨rfl, rfl⟩ := Prod.mk.inj hn <;>
      simp only [measure, Pc.walk, Pc.weight] <;> omega
  | markTest d st n =>
    right
    simp only [next] at hn
    split at hn <;> obtain ⟨rfl, rfl⟩ := Prod.mk.inj (Option.some.inj hn)
    · next hs =>
      have : testWeight σ n .inserted = 4 := if_pos hs
      simp only [measure, Pc.walk, Pc.weight]
      omega
    · simp only [measure, Pc.walk, Pc.weight]
      omega
  | markLoad d st n =>
    right
    obtain ⟨rfl, rfl⟩ := Prod.mk.inj (Option.some.inj hn)
    have := casWeight_self σ n .inserted
    simp only [measure, Pc.walk, Pc.weight]
    omega
  | markCas d st n p =>
    right
    simp only [next, Option.some.injEq] at hn
    rcases stateCas_weight (σ := σ) (n := n) (p := p) (.destroyStore true d st n)
      (.markTest d st n) (by decide : NodeState.inserted ≠ .intendToDelete) with
      ⟨σ1, he, hlt⟩ | ⟨he, hlt⟩ <;> rw [he] at hn <;> obtain ⟨rfl, rfl⟩ := Prod.mk.inj hn <;>
      simp only [measure, Pc.walk, Pc.weight] <;> omega
  | destroyFlush r d st n =>
    right
    simp only [next, barrier] at hn
    obtain ⟨p, _, he⟩ := Option.map_eq_some_iff.1 hn
    obtain ⟨rfl, rfl⟩ := Prod.mk.inj he
    have := testWeight_le (σ.flushP p) n .intendToDelete
    simp only [measure, Pc.walk, Pc.weight]
    omega
  | deleteTest r d st n =>
    right
    simp only [next] at hn
    split at hn
    · next hs =>
      obtain ⟨rfl, rfl⟩ := Prod.mk.inj (Option.some.inj hn)
      have : testWeight σ n .intendToDelete = 4 := if_pos hs
      simp only [measure, Pc.walk, Pc.weight]
      omega
    · split at hn <;> obtain ⟨rfl, rfl⟩ := Prod.mk.inj (Option.some.inj hn) <;>
        simp only [measure, Pc.walk, Pc.weight, TrimCtx.walk] <;> omega
  | deleteLoad r d st n =>
    right
    obtain ⟨rfl, rfl⟩ := Prod.mk.inj (Option.some.inj hn)
    have := casWeight_self σ n .intendToDelete
    simp only [measure, Pc.walk, Pc.weight]
    omega
  | deleteCas r d st n p =>
    right
    simp only [next, Option.some.injEq] at hn
    rcases stateCas_weight (σ := σ) (n := n) (p := p) (.deleteTest r d st n)
      (.deleteTest r d st n) (by decide : NodeState.intendToDelete ≠ .deleted) with
      ⟨σ1, he, hlt⟩ | ⟨he, hlt⟩ <;> rw [he] at hn <;> obtain ⟨rfl, rfl⟩ := Prod.mk.inj hn <;>
      simp only [measure, Pc.walk, Pc.weight] <;> omega
  | containsHead =>
    right
    simp only [next] at hn
    obtain ⟨c, hc, he⟩ := Option.map_eq_some_iff.1 hn
    obtain ⟨rfl, rfl⟩ := Prod.mk.inj he
    have := ahead_some hc
    simp only [measure, Pc.walk, Pc.weight]
    omega
  | containsWalk c =>
    right
    simp only [next] at hn
    split at hn
    · obtain ⟨d, hd, he⟩ := Option.map_eq_some_iff.1 hn
      obtain ⟨rfl, rfl⟩ := Prod.mk.inj he
      have := left_lt hm (f.refs c (by simp [Pc.refs])) f.loc hd
      simp only [measure, Pc.walk, Pc.weight]
      omega
    · obtain ⟨rfl, rfl⟩ := Prod.mk.inj (Option.some.inj hn)
      simp only [measure, Pc.walk, Pc.weight]
      omega
  | ret r => cases hn
  | createStart r n | createKey r n | createValue r n | createEnd r n | destroyStore r d st n =>
    right
    simp only [next, storeP] at hn
    obtain ⟨p, _, he⟩ := Option.map_eq_some_iff.1 hn
    obtain ⟨rfl, rfl⟩ := Prod.mk.inj he
    simp only [measure, Pc.walk, Pc.weight]
    omega
  | _ =>
    right
    obtain ⟨rfl, rfl⟩ := Prod.mk.inj (Option.some.inj hn)
    simp only [measure, Pc.walk, Pc.weight]
    omega

def TrimCtx.Fresh (σ : Store V) (d : Loc) (st : NodeState) : TrimCtx → Prop
  | .inFind s => (σ.node d).next = Ptr.addr s st
  | .inRemove => True

def Fresh (σ : Store V) : Pc → Prop
  | .findLoad d st c => (σ.node d).next = Ptr.addr c st
  | .trimLoad (.inFind _) d st n => (σ.node d).next = Ptr.addr n st
  | .trimCas (.inFind _) d st n _ => (σ.node d).next = Ptr.addr n st
  | .trimFree t d st _ => t.Fresh σ d st
  | .allocPNode d st c => (σ.node d).next = Ptr.addr c st
  | .pnodeAlloc d st c _ => (σ.node d).next = Ptr.addr c st
  | .allocNode d st c _ _ => (σ.node d).next = Ptr.addr c st
  | .initNode d st c _ _ _ => (σ.node d).next = Ptr.addr c st
  | .initNext d st c _ _ => (σ.node d).next = Ptr.addr c st
  | .linkCas d st c _ _ => (σ.node d).next = Ptr.addr c st
  | .lostNode _ _ => False
  | .lostPNode _ => False
  | _ => True

theorem afterTrim_fresh {u : TrimCtx} (h : u.Fresh σ d st) :
    Fresh σ (afterTrim d st u) ∧ afterTrim d st u ≠ .find := by
  cases u with
  | inFind s => exact ⟨h, nofun⟩
  | inRemove => exact ⟨trivial, nofun⟩

theorem step_fresh (f : Fit σ R W op pc) (hn : next σ op slot pc = some (σ', pc'))
    (h : Fresh σ pc) : Fresh σ' pc' ∧ pc' ≠ .find := by
  cases pc with
  | find =>
    simp only [next] at hn
    obtain ⟨c, hc, he⟩ := Option.map_eq_some_iff.1 hn
    obtain ⟨rfl, rfl⟩ := Prod.mk.inj he
    exact ⟨addr_of_ref hc, (by rintro ⟨⟩)⟩
  | findLoad d st c =>
    simp only [next] at hn
    split at hn
    · split at hn
      · obtain ⟨q, ha, he⟩ := Option.map_eq_some_iff.1 hn
        obtain ⟨rfl, rfl⟩ := Prod.mk.inj he
        cases op with
        | insert k v =>
          simp only [afterFind] at ha
          split at ha
          · split at ha <;> obtain rfl := Option.some.inj ha <;> exact ⟨trivial, (by rintro ⟨⟩)⟩
          · obtain rfl := Option.some.inj ha
            exact ⟨h, (by rintro ⟨⟩)⟩
        | remove k =>
          simp only [afterFind] at ha
          split at ha
          · obtain rfl := Option.some.inj ha
            exact ⟨trivial, (by rintro ⟨⟩)⟩
          · split at ha <;> obtain rfl := Option.some.inj ha <;> exact ⟨trivial, (by rintro ⟨⟩)⟩
        | contains k => cases ha
      · obtain ⟨e, hs, he⟩ := Option.map_eq_some_iff.1 hn
        obtain ⟨rfl, rfl⟩ := Prod.mk.inj he
        exact ⟨addr_of_ref hs, (by rintro ⟨⟩)⟩
    · obtain ⟨e, _, he⟩ := Option.map_eq_some_iff.1 hn
      obtain ⟨rfl, rfl⟩ := Prod.mk.inj he
      exact ⟨h, (by rintro ⟨⟩)⟩
  | trimLoad u d st n =>
    obtain ⟨rfl, rfl⟩ := Prod.mk.inj (Option.some.inj hn)
    cases u with
    | inFind s => exact ⟨h, (by rintro ⟨⟩)⟩
    | inRemove => exact ⟨trivial, (by rintro ⟨⟩)⟩
  | trimCas u d st n q =>
    obtain ⟨⟨_, _, _, hctx⟩, hq⟩ := f.loc
    simp only [next] at hn
    split at hn <;> obtain ⟨rfl, rfl⟩ := Prod.mk.inj (Option.some.inj hn)
    · refine ⟨?_, (by rintro ⟨⟩)⟩
      cases u with
      | inFind s =>
        change ((σ.setNext d q).node d).next = Ptr.addr s st
        have hctx : (σ.node n).next.ref = some s := hctx
        rw [setNext_next, if_pos rfl, hq]
        simp only [Ptr.createRef, Ptr.addr, hctx]
      | inRemove => trivial
    · next hne =>
      refine afterTrim_fresh ?_
      cases u with
      | inFind s => exact absurd h hne
      | inRemove => trivial
  | trimFree u d st n =>
    simp only [next] at hn
    obtain ⟨p, _, he⟩ := Option.map_eq_some_iff.1 hn
    obtain ⟨rfl, rfl⟩ := Prod.mk.inj he
    refine afterTrim_fresh ?_
    cases u with
    | inFind s => exact h
    | inRemove => trivial
  | allocPNode d st c =>
    obtain ⟨rfl, rfl⟩ := Prod.mk.inj (Option.some.inj hn)
    exact ⟨h, (by rintro ⟨⟩)⟩
  | pnodeAlloc d st c p =>
    obtain ⟨rfl, rfl⟩ := Prod.mk.inj (Option.some.inj hn)
    exact ⟨h, (by rintro ⟨⟩)⟩
  | allocNode d st c p v =>
    obtain ⟨rfl, rfl⟩ := Prod.mk.inj (Option.some.inj hn)
    exact ⟨h, (by rintro ⟨⟩)⟩
  | initNode d st c n p v =>
    have hne : d ≠ n := by
      rintro rfl
      exact (f.owned d rfl).1 (f.refs d (by simp [Pc.refs]))
    simp only [next] at hn
    split at hn
    · obtain ⟨rfl, rfl⟩ := Prod.mk.inj (Option.some.inj hn)
      refine ⟨?_, (by rintro ⟨⟩)⟩
      change (Function.update σ.node n _ d).next = _
      rw [Function.update_of_ne hne]
      exact h
    · cases hn
  | initNext d st c n p =>
    have hne : d ≠ n := by
      rintro rfl
      exact (f.owned d rfl).1 (f.refs d (by simp [Pc.refs]))
    obtain ⟨rfl, rfl⟩ := Prod.mk.inj (Option.some.inj hn)
    refine ⟨?_, (by rintro ⟨⟩)⟩
    change ((σ.setNext n _).node d).next = _
    rw [setNext_next, if_neg hne]
    exact h
  | linkCas d st c n p =>
    have h : (σ.node d).next = Ptr.addr c st := h
    simp only [next, if_pos h] at hn
    obtain ⟨rfl, rfl⟩ := Prod.mk.inj (Option.some.inj hn)
    exact ⟨trivial, (by rintro ⟨⟩)⟩
  | lostNode n p => exact h.elim
  | lostPNode p => exact h.elim
  | ret r => cases hn
  | createStart r n | createKey r n | createValue r n | createEnd r n | destroyStore r d st n =>
    simp only [next, storeP] at hn
    obtain ⟨p, _, he⟩ := Option.map_eq_some_iff.1 hn
    obtain ⟨rfl, rfl⟩ := Prod.mk.inj he
    exact ⟨trivial, (by rintro ⟨⟩)⟩
  | createFlush r n | destroyFlush r d st n =>
    simp only [next, barrier] at hn
    obtain ⟨p, _, he⟩ := Option.map_eq_some_iff.1 hn
    obtain ⟨rfl, rfl⟩ := Prod.mk.inj he
    exact ⟨trivial, (by rintro ⟨⟩)⟩
  | insertCas r n p | markCas d st n p | deleteCas r d st n p =>
    simp only [next, stateCas, Option.some.injEq] at hn
    split at hn <;> obtain ⟨rfl, rfl⟩ := Prod.mk.inj hn <;> exact ⟨trivial, (by rintro ⟨⟩)⟩
  | insertTest r n | markTest d st n =>
    simp only [next] at hn
    split at hn <;> obtain ⟨rfl, rfl⟩ := Prod.mk.inj (Option.some.inj hn) <;>
      exact ⟨trivial, (by rintro ⟨⟩)⟩
  | deleteTest r d st n =>
    simp only [next] at hn
    split at hn
    · obtain ⟨rfl, rfl⟩ := Prod.mk.inj (Option.some.inj hn)
      exact ⟨trivial, (by rintro ⟨⟩)⟩
    · split at hn <;> obtain ⟨rfl, rfl⟩ := Prod.mk.inj (Option.some.inj hn) <;>
        exact ⟨trivial, (by rintro ⟨⟩)⟩
  | containsHead =>
    simp only [next] at hn
    obtain ⟨c, _, he⟩ := Option.map_eq_some_iff.1 hn
    obtain ⟨rfl, rfl⟩ := Prod.mk.inj he
    exact ⟨trivial, (by rintro ⟨⟩)⟩
  | containsWalk c =>
    simp only [next] at hn
    split at hn
    · obtain ⟨e, _, he⟩ := Option.map_eq_some_iff.1 hn
      obtain ⟨rfl, rfl⟩ := Prod.mk.inj he
      exact ⟨trivial, (by rintro ⟨⟩)⟩
    · obtain ⟨rfl, rfl⟩ := Prod.mk.inj (Option.some.inj hn)
      exact ⟨trivial, (by rintro ⟨⟩)⟩
  | _ =>
    obtain ⟨rfl, rfl⟩ := Prod.mk.inj (Option.some.inj hn)
    exact ⟨trivial, (by rintro ⟨⟩)⟩

/-! ### A call that is left alone returns -/

def Store.Untouched (σ : Store V) (z : ℕ) : Prop :=
  σ.avail z = true ∧ σ.pavail z = true ∧ ∀ x, (σ.node x).pptr ≠ some z

def Bounded (s : State V) : Prop := ∃ N : ℕ, ∀ z : ℕ, N ≤ z → s.store.Untouched z

theorem bounded_initial (zero : V) : Bounded (initial zero) := by
  refine ⟨2, fun z hz => ⟨?_, rfl, fun x => ?_⟩⟩
  · have h0 : z ≠ head := by rintro rfl; exact absurd hz (by decide)
    have h1 : z ≠ tail := by rintro rfl; exact absurd hz (by decide)
    simp [initial, initialStore, h0, h1]
  · simp only [initial, initialStore]
    split
    · rintro ⟨⟩
    · split <;> rintro ⟨⟩

namespace Store.Untouched

variable {z : ℕ}

theorem setNext (h : σ.Untouched z) (x : Loc) (q : Ptr) : (σ.setNext x q).Untouched z := by
  refine ⟨h.1, h.2.1, fun y => ?_⟩
  rw [(setNext_data σ x q y).2.1]
  exact h.2.2 y

theorem write (h : σ.Untouched z) {m : Node V} (hm : m.pptr ≠ some z) :
    (σ.write x m).Untouched z := by
  refine ⟨h.1, h.2.1, fun y => ?_⟩
  rw [node_write]
  split
  · exact hm
  · exact h.2.2 y

theorem take (h : σ.Untouched z) (hz : z ≠ slot) : (σ.take slot).Untouched z :=
  ⟨(Function.update_of_ne hz _ _).trans h.1, h.2.1, h.2.2⟩

theorem takeP (h : σ.Untouched z) (hz : z ≠ slot) : (σ.takeP slot).Untouched z :=
  ⟨h.1, (Function.update_of_ne hz _ _).trans h.2.1, h.2.2⟩

theorem give (h : σ.Untouched z) (x : Loc) : (σ.give x).Untouched z := by
  refine ⟨?_, h.2.1, h.2.2⟩
  change Function.update σ.avail x true z = true
  rw [Function.update_apply]
  split
  · rfl
  · exact h.1

theorem giveP (h : σ.Untouched z) (p : PLoc) : (σ.giveP p).Untouched z := by
  refine ⟨h.1, ?_, h.2.2⟩
  change Function.update σ.pavail p true z = true
  rw [Function.update_apply]
  split
  · rfl
  · exact h.2.1

theorem next (h : σ.Untouched z) (hz : z ≠ slot) (ho : pc.ownsP ≠ some z)
    (hn : next σ op slot pc = some (σ', pc')) : σ'.Untouched z := by
  cases pc with
  | find | containsHead | trimFree _ _ _ _ =>
    simp only [List.next] at hn
    obtain ⟨c, _, he⟩ := Option.map_eq_some_iff.1 hn
    obtain ⟨rfl, rfl⟩ := Prod.mk.inj he
    first | exact h | exact h.giveP c
  | findLoad d st c =>
    simp only [List.next] at hn
    split at hn
    · split at hn <;> obtain ⟨_, _, he⟩ := Option.map_eq_some_iff.1 hn <;>
        obtain ⟨rfl, rfl⟩ := Prod.mk.inj he <;> exact h
    · obtain ⟨_, _, he⟩ := Option.map_eq_some_iff.1 hn
      obtain ⟨rfl, rfl⟩ := Prod.mk.inj he
      exact h
  | trimCas u d st n q =>
    simp only [List.next] at hn
    split at hn <;> obtain ⟨rfl, rfl⟩ := Prod.mk.inj (Option.some.inj hn)
    · exact h.setNext d q
    · exact h
  | linkCas d st c n p =>
    simp only [List.next] at hn
    split at hn <;> obtain ⟨rfl, rfl⟩ := Prod.mk.inj (Option.some.inj hn)
    · exact h.setNext d _
    · exact h
  | initNode d st c n p v =>
    simp only [List.next] at hn
    split at hn
    · obtain ⟨rfl, rfl⟩ := Prod.mk.inj (Option.some.inj hn)
      exact h.write ho
    · cases hn
  | initNext d st c n p =>
    obtain ⟨rfl, rfl⟩ := Prod.mk.inj (Option.some.inj hn)
    exact h.setNext n _
  | allocPNode d st c =>
    obtain ⟨rfl, rfl⟩ := Prod.mk.inj (Option.some.inj hn)
    exact h.takeP hz
  | allocNode d st c p v =>
    obtain ⟨rfl, rfl⟩ := Prod.mk.inj (Option.some.inj hn)
    exact h.take hz
  | lostNode n p =>
    obtain ⟨rfl, rfl⟩ := Prod.mk.inj (Option.some.inj hn)
    exact h.give n
  | lostPNode p =>
    obtain ⟨rfl, rfl⟩ := Prod.mk.inj (Option.some.inj hn)
    exact h.giveP p
  | createStart r n | createKey r n | createValue r n | createEnd r n | destroyStore r d st n =>
    simp only [List.next, storeP] at hn
    obtain ⟨p, _, he⟩ := Option.map_eq_some_iff.1 hn
    obtain ⟨rfl, rfl⟩ := Prod.mk.inj he
    exact h
  | createFlush r n | destroyFlush r d st n =>
    simp only [List.next, barrier] at hn
    obtain ⟨p, _, he⟩ := Option.map_eq_some_iff.1 hn
    obtain ⟨rfl, rfl⟩ := Prod.mk.inj he
    exact h
  | insertCas r n p | markCas d st n p | deleteCas r d st n p =>
    simp only [List.next, stateCas, Option.some.injEq] at hn
    split at hn <;> obtain ⟨rfl, rfl⟩ := Prod.mk.inj hn
    · exact h.setNext n _
    · exact h
  | insertTest r n | markTest d st n =>
    simp only [List.next] at hn
    split at hn <;> obtain ⟨rfl, rfl⟩ := Prod.mk.inj (Option.some.inj hn) <;> exact h
  | deleteTest r d st n =>
    simp only [List.next] at hn
    split at hn
    · obtain ⟨rfl, rfl⟩ := Prod.mk.inj (Option.some.inj hn)
      exact h
    · split at hn <;> obtain ⟨rfl, rfl⟩ := Prod.mk.inj (Option.some.inj hn) <;> exact h
  | containsWalk c =>
    simp only [List.next] at hn
    split at hn
    · obtain ⟨_, _, he⟩ := Option.map_eq_some_iff.1 hn
      obtain ⟨rfl, rfl⟩ := Prod.mk.inj he
      exact h
    · obtain ⟨rfl, rfl⟩ := Prod.mk.inj (Option.some.inj hn)
      exact h
  | ret r => cases hn
  | _ =>
    obtain ⟨rfl, rfl⟩ := Prod.mk.inj (Option.some.inj hn)
    exact h

end Store.Untouched

theorem Bounded.step (h : Bounded s) (hi : Inv s) {e : Event (SetOp V)} (hs : Step s e s') :
    Bounded s' := by
  cases hs with
  | call t op idle hk => exact h
  | ret t op r ht => exact h
  | tau t op pc pc' slot σ ht hn hp ha =>
    obtain ⟨N, hN⟩ := h
    refine ⟨N + slot + 1, fun z hz => (hN z (by omega)).next (by omega) (fun ho => ?_) hn⟩
    exact absurd (((hi.fit ht).ownedP z ho).2.symm.trans (hN z (by omega)).2.1) Bool.false_ne_true

theorem bounded_run (ρ : Run (machine V)) : ∀ n ≤ ρ.length, Bounded (ρ.state n) := by
  refine Run.stepwise ?_ fun m hm h => h.step (inv_run ρ m hm.le) (ρ.step hm)
  obtain ⟨zero, h⟩ := ρ.init
  rw [h]
  exact bounded_initial zero

theorem Bounded.recyclable (h : Bounded s) :
    ∃ z : ℕ, s.Recyclable z ∧ s.store.avail z = true := by
  obtain ⟨N, hN⟩ := h
  obtain ⟨h1, h2, h3⟩ := hN N le_rfl
  exact ⟨N, ⟨h2, fun t op pc x _ _ => h3 x⟩, h1⟩

theorem next_enabled (hm : MemInv σ R W) (f : Fit σ R W op pc) (hret : ∀ r, pc ≠ .ret r)
    (slot : ℕ) : ∃ σ' pc', next σ op slot pc = some (σ', pc') := by
  have ahead : ∀ {x}, σ.heap.Live R x → x ≠ tail → ∃ d, (σ.node x).next.ref = some d :=
    fun hx ht => Option.ne_none_iff_exists'.1 (hm.chain.complete hx ht)
  have key : ∀ {x}, x ≠ head → (σ.node x).key < op.key → x ≠ tail := fun hh hlt =>
    hm.chain.ne_tail_of_rank f.key (by
      rw [rank_of_ne σ hh]
      exact WithBot.coe_le_coe.2 hlt.le)
  have pptr : ∀ {x}, pc.writes = some x → ∃ p, (σ.node x).pptr = some p := fun hw =>
    (hm.pnode.owned (f.writes _ hw)).imp fun _ h => h.1
  cases pc with
  | find | containsHead =>
    obtain ⟨c, hc⟩ := ahead hm.chain.head_live (by decide)
    exact ⟨_, _, by simp only [next, hc]; rfl⟩
  | findLoad d st c =>
    have hf : ¬ op.IsContains := f.fits
    have hcl := f.refs c (by simp [Pc.refs])
    simp only [next]
    split
    · split
      · cases op with
        | insert k v =>
          simp only [afterFind]
          split
          · split <;> exact ⟨_, _, rfl⟩
          · exact ⟨_, _, rfl⟩
        | remove k =>
          simp only [afterFind]
          split
          · exact ⟨_, _, rfl⟩
          · split <;> exact ⟨_, _, rfl⟩
        | contains k => exact absurd trivial hf
      · next hlt =>
        obtain ⟨e, he⟩ := ahead hcl (key f.loc.2.2 (not_le.1 hlt))
        exact ⟨_, _, by rw [he]; rfl⟩
    · next hd =>
      obtain ⟨e, he⟩ := ahead hcl (hm.chain.ne_tail_of_dead (not_not.1 hd))
      exact ⟨_, _, by rw [he]; rfl⟩
  | trimCas u d st n q => simp only [next]; split <;> exact ⟨_, _, rfl⟩
  | trimFree u d st n =>
    obtain ⟨p, hp, _⟩ := hm.pnode.owned (Or.inr (f.retired n rfl).1)
    exact ⟨_, _, by simp only [next, hp]; rfl⟩
  | initNode d st c n p v =>
    have hf : op.IsInsert := f.fits
    cases op with
    | insert k v => exact ⟨_, _, rfl⟩
    | _ => exact hf.elim
  | linkCas d st c n p => simp only [next]; split <;> exact ⟨_, _, rfl⟩
  | createStart r n | createKey r n | createValue r n | createEnd r n | destroyStore r d st n =>
    obtain ⟨p, hp⟩ := pptr rfl
    exact ⟨_, _, by simp only [next, storeP, hp]; rfl⟩
  | createFlush r n | destroyFlush r d st n =>
    obtain ⟨p, hp⟩ := pptr rfl
    exact ⟨_, _, by simp only [next, barrier, hp]; rfl⟩
  | insertTest r n | markTest d st n => simp only [next]; split <;> exact ⟨_, _, rfl⟩
  | deleteTest r d st n =>
    simp only [next]
    split
    · exact ⟨_, _, rfl⟩
    · split <;> exact ⟨_, _, rfl⟩
  | containsWalk c =>
    simp only [next]
    split
    · next hlt =>
      obtain ⟨e, he⟩ := ahead (f.refs c (by simp [Pc.refs])) (key f.loc hlt)
      exact ⟨_, _, by rw [he]; rfl⟩
    · exact ⟨_, _, rfl⟩
  | ret r => exact absurd rfl (hret r)
  | _ => exact ⟨_, _, rfl⟩

def Sane (s : State V) : Prop := Inv s ∧ Bounded s

theorem Sane.step (h : Sane s) {e : Event (SetOp V)} (hs : Step s e s') : Sane s' :=
  ⟨h.1.step hs, h.2.step h.1 hs⟩

theorem Sane.solo (h : Sane s) (hs : (machine V).Solo t s s') : Sane s' := by
  rcases hs with hs | ⟨r, hs⟩ <;> exact h.step hs

theorem Sane.can (h : Sane s) (t : Tid) :
    s.thread t = none ∨ ∃ s', (machine V).Solo t s s' := by
  cases ht : s.thread t with
  | none => exact Or.inl rfl
  | some a =>
    obtain ⟨op, pc⟩ := a
    by_cases hret : ∃ r, pc = .ret r
    · obtain ⟨r, rfl⟩ := hret
      exact Or.inr ⟨_, Or.inr ⟨r, Step.ret t op r ht⟩⟩
    · obtain ⟨slot, hp, ha⟩ := h.2.recyclable
      obtain ⟨σ, pc', hn⟩ := next_enabled h.1.mem (h.1.fit ht) (fun r e => hret ⟨r, e⟩) slot
      exact Or.inr ⟨_, Or.inl (Step.tau t op pc pc' slot σ ht hn (fun _ _ _ _ => hp)
        fun _ _ _ _ _ _ => ha)⟩

def rest (t : Tid) (s : State V) : ℕ :=
  match s.thread t with
  | some (_, pc) => measure s.store pc
  | none => 0

theorem Sane.solo_cases (h : Sane s) (hs : (machine V).Solo t s s') :
    s'.thread t = none ∨ ∃ op pc pc' slot, s.thread t = some (op, pc) ∧
      s'.thread t = some (op, pc') ∧ next s.store op slot pc = some (s'.store, pc') ∧
      (pc' = .find ∨ rest t s' < rest t s) := by
  rcases hs with hs | ⟨r, hs⟩
  · cases hs with
    | tau _ op pc pc' slot σ ht hn _ _ =>
      have ht' := goto_thread_self s σ t (some (op, pc'))
      refine Or.inr ⟨op, pc, pc', slot, ht, ht', hn, ?_⟩
      simp only [rest, ht, ht']
      exact step_measure h.1.mem (h.1.fit ht) hn
  · cases hs with
    | ret _ op _ ht => exact Or.inl (goto_thread_self _ _ _ _)

theorem Sane.returns_fresh (h : Sane s) (ht : s.thread t = some (op, pc))
    (hf : Fresh s.store pc) : (machine V).Returns t s := by
  refine inevitable_of_measure (rest t) (I := fun s => Sane s ∧
    ∀ op pc, s.thread t = some (op, pc) → Fresh s.store pc) (fun s h => h.1.can t) ?_
    ⟨h, fun op' pc' ht' => ?_⟩
  · rintro s s' ⟨h, hf⟩ hs
    rcases h.solo_cases hs with hd | ⟨op, pc, pc', slot, ht, ht', hn, hlt⟩
    · exact Or.inl (Inevitable.here hd)
    · obtain ⟨hf', hne⟩ := step_fresh (h.1.fit ht) hn (hf op pc ht)
      refine Or.inr ⟨⟨h.solo hs, fun op1 pc1 h1 => ?_⟩, hlt.resolve_left hne⟩
      obtain ⟨_, rfl⟩ := Prod.mk.inj (Option.some.inj (ht'.symm.trans h1))
      exact hf'
  · obtain ⟨_, rfl⟩ := Prod.mk.inj (Option.some.inj (ht.symm.trans ht'))
    exact hf

theorem Sane.returns (h : Sane s) : (machine V).Returns t s := by
  refine inevitable_of_measure (rest t) (fun s h => h.can t) ?_ h
  intro s s' h hs
  rcases h.solo_cases hs with hd | ⟨op, pc, pc', slot, ht, ht', hn, rfl | hlt⟩
  · exact Or.inl (Inevitable.here hd)
  · exact Or.inl ((h.solo hs).returns_fresh ht' trivial)
  · exact Or.inr ⟨h.solo hs, hlt⟩

theorem softList_returns (ρ : Run (machine V)) (t : Tid) :
    (machine V).Returns t (ρ.state ρ.length) :=
  Sane.returns ⟨inv_run ρ ρ.length le_rfl, bounded_run ρ ρ.length le_rfl⟩

end SOFT.List
