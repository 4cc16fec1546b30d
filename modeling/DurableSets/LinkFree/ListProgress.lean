import DurableSets.Core.Progress
import DurableSets.LinkFree.ListSchedule

namespace LinkFree.List

open Chain

variable {V : Type} {σ σ' : Store V} {R : Set Loc} {x y p n c d slot : Loc} {op : SetOp V}
  {pc pc' : Pc} {s s' : State V} {t : Tid}

/-! ### How far a call still has to go -/

-- what a node's key leaves to the largest one
def left (σ : Store V) (x : Loc) : ℕ := (INT_MAX - (σ.node x).key).toNat

def ahead (σ : Store V) (n : Loc) : ℕ :=
  match (σ.node n).next.ref with
  | some d => 2 * left σ d + 2
  | none => 0

def DeleteCtx.walk (σ : Store V) (n : Loc) : DeleteCtx → ℕ
  | .trim .inFind _ => ahead σ n
  | _ => 0

def TrimCtx.walk (σ : Store V) (n : Loc) : TrimCtx → ℕ
  | .inFind => ahead σ n
  | .inRemove => 0

-- what is left of the list for the traversal that the call is in
def Pc.walk (σ : Store V) : Pc → ℕ
  | .find => ahead σ head
  | .findTest _ c => 2 * left σ c + 1
  | .findNext _ n => ahead σ n
  | .deleteLoad c n => c.walk σ n
  | .deleteFlush c n => c.walk σ n
  | .deleteStore c n => c.walk σ n
  | .trimLoad c _ n => c.walk σ n
  | .trimCas c _ n _ => c.walk σ n
  | .trimFree c _ n => c.walk σ n
  | .containsHead => ahead σ head
  | .containsWalk c => 2 * left σ c + 1
  | _ => 0

def ValidCtx.weight : ValidCtx → ℕ
  | .removing _ _ => 13
  | _ => 4

-- the steps to the next turn of the traversal, or after it
def Pc.weight : Pc → ℕ
  | .deleteLoad _ _ => 7
  | .deleteFlush _ _ => 6
  | .deleteStore _ _ => 5
  | .trimLoad _ _ _ => 4
  | .trimCas _ _ _ _ => 3
  | .trimFree _ _ _ => 2
  | .findNext _ _ => 1
  | .alloc _ _ => 20
  | .flipLoad _ _ _ => 19
  | .flipStore _ _ _ _ => 18
  | .initInsertFlag _ _ _ => 17
  | .initDeleteFlag _ _ _ => 16
  | .initKey _ _ _ => 15
  | .initValue _ _ _ => 14
  | .initNext _ _ _ => 13
  | .linkCas _ _ _ => 12
  | .lostStore _ => 11
  | .removeLoad _ _ => 20
  | .validLoad c _ => c.weight + 1
  | .validStore c _ _ => c.weight
  | .markCas _ _ _ => 12
  | .lostFree _ => 3
  | .insertLoad _ _ => 3
  | .insertFlush _ _ => 2
  | .insertStore _ _ => 1
  | _ => 0

def measure (σ : Store V) (pc : Pc) : ℕ := 32 * pc.walk σ + pc.weight

theorem left_congr (h : (σ'.node x).key = (σ.node x).key) : left σ' x = left σ x := by
  unfold left
  rw [h]

theorem ahead_congr (hn : (σ'.node n).next.ref = (σ.node n).next.ref)
    (hk : ∀ d, (σ'.node d).key = (σ.node d).key) : ahead σ' n = ahead σ n := by
  unfold ahead
  rw [hn]
  split
  · rw [left_congr (hk _)]
  · rfl

theorem left_lt (hm : MemInv σ R) (hx : σ.heap.Live R x) (hh : x ≠ head)
    (hs : (σ.node x).next.ref = some d) : left σ d < left σ x := by
  have hlt : rank σ x < rank σ d := hm.ordered hx hs
  have hdh := hm.succ_ne_head hx hs
  rw [rank_of_ne σ hh, rank_of_ne σ hdh] at hlt
  have hlt : (σ.node x).key < (σ.node d).key := WithBot.coe_lt_coe.1 hlt
  have hle : (σ.node d).key ≤ INT_MAX := by
    by_cases ht : d = tail
    · rw [ht, hm.tail_key]
    · have hb := hm.bounded (hx.succ hs) ht
      rw [rank_of_ne σ hdh] at hb
      exact (WithBot.coe_lt_coe.1 hb).le
  unfold left
  omega

theorem ahead_le (hm : MemInv σ R) (hx : σ.heap.Live R x) (hh : x ≠ head) :
    ahead σ x ≤ 2 * left σ x := by
  unfold ahead
  split
  · next d hd => have := left_lt hm hx hh hd; omega
  · omega

theorem ahead_some (hs : (σ.node n).next.ref = some d) : ahead σ n = 2 * left σ d + 2 := by
  simp only [ahead, hs]

theorem key_write {m : Node V} (hk : m.key = (σ.node n).key) (x : Loc) :
    ((σ.write n m).node x).key = (σ.node x).key := by
  rw [node_write]
  split
  · next h => rw [h, hk]
  · rfl

theorem walk_flush (σ : Store V) (n m : Loc) (c : DeleteCtx) :
    c.walk (σ.flush m) n = c.walk σ n := by
  rcases c with ⟨_ | _, _⟩ | _
  · exact ahead_congr (by rw [node_flush]) fun d => by rw [node_flush]
  · rfl
  · rfl

theorem afterDelete_measure (σ : Store V) (n : Loc) (c : DeleteCtx) :
    measure σ (afterDelete n c) ≤ 32 * c.walk σ n + 4 := by
  rcases c with ⟨_ | _, _⟩ | _
  · exact le_rfl
  · exact le_rfl
  · exact Nat.zero_le _

theorem afterTrim_measure (σ : Store V) (p n : Loc) (c : TrimCtx) :
    measure σ (afterTrim p n c) ≤ 32 * c.walk σ n + 1 := by
  cases c with
  | inFind => exact le_rfl
  | inRemove => exact Nat.zero_le _

theorem afterValid_measure (σ : Store V) (n : Loc) (c : ValidCtx) :
    measure σ (afterValid n c) < c.weight := by
  cases c with
  | removing p q => exact Nat.lt_succ_self 12
  | _ => exact Nat.lt_succ_self 3

theorem afterFind_measure (σ : Store V) (p c : Loc) (h : afterFind σ p c op = some pc') :
    measure σ pc' < 32 := by
  cases op with
  | insert k v =>
    simp only [afterFind] at h
    split at h <;> obtain rfl := Option.some.inj h
    · exact (by decide : 5 < 32)
    · exact (by decide : 20 < 32)
  | remove k =>
    simp only [afterFind] at h
    split at h <;> obtain rfl := Option.some.inj h
    · exact (by decide : 20 < 32)
    · exact (by decide : 0 < 32)
  | contains k => cases h

theorem step_measure (hm : MemInv σ R) (f : Fit σ R op pc)
    (hn : next σ op slot pc = some (σ', pc')) : pc' = .find ∨ measure σ' pc' < measure σ pc := by
  cases pc with
  | find =>
    right
    simp only [next] at hn
    split at hn
    · next c hc =>
      obtain ⟨rfl, rfl⟩ := Prod.mk.inj (Option.some.inj hn)
      have := ahead_some (congrArg Ptr.ref hc)
      simp only [measure, Pc.walk, Pc.weight]
      omega
    · cases hn
  | findTest p c =>
    right
    have hc : c ≠ head := f.loc.2
    have hle := ahead_le hm (f.refs c (by simp [Pc.refs])) hc
    simp only [next] at hn
    split at hn
    · obtain ⟨rfl, rfl⟩ := Prod.mk.inj (Option.some.inj hn)
      simp only [measure, Pc.walk, Pc.weight, DeleteCtx.walk]
      omega
    · split at hn
      · obtain ⟨q, ha, he⟩ := Option.map_eq_some_iff.1 hn
        obtain ⟨rfl, rfl⟩ := Prod.mk.inj he
        have := afterFind_measure σ p c ha
        simp only [measure, Pc.walk, Pc.weight] at this ⊢
        omega
      · obtain ⟨rfl, rfl⟩ := Prod.mk.inj (Option.some.inj hn)
        simp only [measure, Pc.walk, Pc.weight]
        omega
  | findNext p n =>
    right
    simp only [next] at hn
    obtain ⟨d, hd, he⟩ := Option.map_eq_some_iff.1 hn
    obtain ⟨rfl, rfl⟩ := Prod.mk.inj he
    have := ahead_some hd
    simp only [measure, Pc.walk, Pc.weight]
    omega
  | deleteLoad c n =>
    right
    simp only [next] at hn
    split at hn <;> obtain ⟨rfl, rfl⟩ := Prod.mk.inj (Option.some.inj hn)
    · refine (afterDelete_measure σ n c).trans_lt ?_
      simp only [measure, Pc.walk, Pc.weight]
      omega
    · simp only [measure, Pc.walk, Pc.weight]
      omega
  | deleteFlush c n =>
    right
    obtain ⟨rfl, rfl⟩ := Prod.mk.inj (Option.some.inj hn)
    simp only [measure, Pc.walk, Pc.weight, walk_flush]
    omega
  | deleteStore c n =>
    right
    obtain ⟨rfl, rfl⟩ := Prod.mk.inj (Option.some.inj hn)
    have hw : c.walk (σ.write n { σ.node n with deleteFlag := true }) n = c.walk σ n := by
      rcases c with ⟨_ | _, _⟩ | _
      · refine ahead_congr ?_ (key_write rfl)
        rw [node_write, if_pos rfl]
      · rfl
      · rfl
    refine (afterDelete_measure _ n c).trans_lt ?_
    simp only [measure, Pc.walk, Pc.weight, hw]
    omega
  | trimLoad c p n =>
    right
    obtain ⟨rfl, rfl⟩ := Prod.mk.inj (Option.some.inj hn)
    simp only [measure, Pc.walk, Pc.weight]
    omega
  | trimCas c p n q =>
    right
    simp only [next] at hn
    split at hn <;> obtain ⟨rfl, rfl⟩ := Prod.mk.inj (Option.some.inj hn)
    · next hnext =>
      have hne : n ≠ p := by
        rintro rfl
        exact alive_of_addr hnext f.loc.1.2.1
      have hw : c.walk (σ.write p { σ.node p with next := q }) n = c.walk σ n := by
        cases c with
        | inFind =>
          refine ahead_congr ?_ (key_write rfl)
          rw [node_write, if_neg hne]
        | inRemove => rfl
      simp only [measure, Pc.walk, Pc.weight, hw]
      omega
    · refine (afterTrim_measure σ p n c).trans_lt ?_
      simp only [measure, Pc.walk, Pc.weight]
      omega
  | trimFree c p n =>
    right
    obtain ⟨rfl, rfl⟩ := Prod.mk.inj (Option.some.inj hn)
    have hw : c.walk (σ.give n) n = c.walk σ n := by cases c <;> rfl
    refine (afterTrim_measure _ p n c).trans_lt ?_
    simp only [measure, Pc.walk, Pc.weight, hw]
    omega
  | validLoad c n =>
    right
    have := afterValid_measure σ n c
    simp only [next] at hn
    split at hn <;> obtain ⟨rfl, rfl⟩ := Prod.mk.inj (Option.some.inj hn) <;>
      simp only [measure, Pc.walk, Pc.weight] at this ⊢ <;> omega
  | validStore c n old =>
    right
    obtain ⟨rfl, rfl⟩ := Prod.mk.inj (Option.some.inj hn)
    have := afterValid_measure (σ.write n { σ.node n with metaData := makeValid old }) n c
    simp only [measure, Pc.walk, Pc.weight] at this ⊢
    omega
  | insertLoad r n =>
    right
    simp only [next] at hn
    split at hn <;> obtain ⟨rfl, rfl⟩ := Prod.mk.inj (Option.some.inj hn) <;>
      simp only [measure, Pc.walk, Pc.weight] <;> omega
  | initValue p c n =>
    right
    simp only [next] at hn
    split at hn
    · obtain ⟨rfl, rfl⟩ := Prod.mk.inj (Option.some.inj hn)
      simp only [measure, Pc.walk, Pc.weight]
      omega
    · cases hn
  | linkCas p c n =>
    right
    simp only [next] at hn
    split at hn <;> obtain ⟨rfl, rfl⟩ := Prod.mk.inj (Option.some.inj hn) <;>
      simp only [measure, Pc.walk, Pc.weight, ValidCtx.weight] <;> omega
  | lostFree n =>
    obtain ⟨rfl, rfl⟩ := Prod.mk.inj (Option.some.inj hn)
    exact Or.inl rfl
  | markCas p n q =>
    simp only [next] at hn
    split at hn <;> obtain ⟨rfl, rfl⟩ := Prod.mk.inj (Option.some.inj hn)
    · right
      simp only [measure, Pc.walk, Pc.weight, DeleteCtx.walk]
      omega
    · exact Or.inl rfl
  | containsHead =>
    right
    simp only [next] at hn
    split at hn
    · next c hc =>
      obtain ⟨rfl, rfl⟩ := Prod.mk.inj (Option.some.inj hn)
      have := ahead_some (congrArg Ptr.ref hc)
      simp only [measure, Pc.walk, Pc.weight]
      omega
    · cases hn
  | containsWalk c =>
    right
    simp only [next] at hn
    split at hn
    · obtain ⟨d, hd, he⟩ := Option.map_eq_some_iff.1 hn
      obtain ⟨rfl, rfl⟩ := Prod.mk.inj he
      have := left_lt hm (f.refs c (by simp [Pc.refs])) f.loc hd
      simp only [measure, Pc.walk, Pc.weight]
      omega
    · split at hn
      · obtain ⟨rfl, rfl⟩ := Prod.mk.inj (Option.some.inj hn)
        simp only [measure, Pc.walk, Pc.weight]
        omega
      · split at hn <;> obtain ⟨rfl, rfl⟩ := Prod.mk.inj (Option.some.inj hn) <;>
          simp only [measure, Pc.walk, Pc.weight, DeleteCtx.walk, ValidCtx.weight] <;> omega
  | ret r n => cases hn
  | _ =>
    right
    obtain ⟨rfl, rfl⟩ := Prod.mk.inj (Option.some.inj hn)
    simp only [measure, Pc.walk, Pc.weight, ValidCtx.weight]
    omega

/-! ### A search that nobody disturbs -/

def Fresh (σ : Store V) : Pc → Prop
  | .findTest p c => (σ.node p).next = Ptr.addr c
  | .findNext p n => ∀ d, (σ.node n).next.ref = some d → (σ.node p).next = Ptr.addr d
  | .deleteLoad (.trim .inFind p) n => (σ.node p).next = Ptr.addr n
  | .deleteFlush (.trim .inFind p) n => (σ.node p).next = Ptr.addr n
  | .deleteStore (.trim .inFind p) n => (σ.node p).next = Ptr.addr n
  | .trimLoad .inFind p n => (σ.node p).next = Ptr.addr n
  | .trimCas .inFind p n _ => (σ.node p).next = Ptr.addr n
  | .trimFree .inFind p n => ∀ d, (σ.node n).next.ref = some d → (σ.node p).next = Ptr.addr d
  | .alloc p c => (σ.node p).next = Ptr.addr c
  | .flipLoad p c _ => (σ.node p).next = Ptr.addr c
  | .flipStore p c _ _ => (σ.node p).next = Ptr.addr c
  | .initInsertFlag p c _ => (σ.node p).next = Ptr.addr c
  | .initDeleteFlag p c _ => (σ.node p).next = Ptr.addr c
  | .initKey p c _ => (σ.node p).next = Ptr.addr c
  | .initValue p c _ => (σ.node p).next = Ptr.addr c
  | .initNext p c _ => (σ.node p).next = Ptr.addr c
  | .linkCas p c _ => (σ.node p).next = Ptr.addr c
  | .removeLoad _ n => ¬ σ.heap.dead n
  | .validLoad (.removing _ q) n => (σ.node n).next = q
  | .validStore (.removing _ q) n _ => (σ.node n).next = q
  | .markCas _ n q => (σ.node n).next = q
  | .lostStore _ => False
  | .validLoad .lost _ => False
  | .validStore .lost _ _ => False
  | .lostFree _ => False
  | _ => True

theorem next_write {m : Node V} (hn : m.next = (σ.node n).next) (x : Loc) :
    ((σ.write n m).node x).next = (σ.node x).next := by
  rw [node_write]
  split
  · next h => rw [h, hn]
  · rfl

theorem next_flush (σ : Store V) (n x : Loc) : ((σ.flush n).node x).next = (σ.node x).next := by
  rw [node_flush]

theorem afterDelete_fresh {c : DeleteCtx} (h : Fresh σ (.deleteLoad c n))
    (hn : ∀ x, (σ'.node x).next = (σ.node x).next) :
    Fresh σ' (afterDelete n c) ∧ afterDelete n c ≠ .find := by
  rcases c with ⟨_ | _, p⟩ | _
  · exact ⟨(hn p).trans h, nofun⟩
  · exact ⟨trivial, nofun⟩
  · exact ⟨trivial, nofun⟩

theorem afterValid_fresh {c : ValidCtx} (h : Fresh σ (.validLoad c n))
    (hn : ∀ x, (σ'.node x).next = (σ.node x).next) :
    Fresh σ' (afterValid n c) ∧ afterValid n c ≠ .find := by
  cases c with
  | removing p q => exact ⟨(hn n).trans h, nofun⟩
  | lost => exact h.elim
  | _ => exact ⟨trivial, nofun⟩

theorem priv_next {m : Node V} (f : Fit σ R op pc) (hp : p ∈ pc.refs) (ho : pc.owns = some n)
    (h : (σ.node p).next = Ptr.addr c) : ((σ.write n m).node p).next = Ptr.addr c := by
  rw [node_write, if_neg, h]
  rintro rfl
  exact f.fresh p ho (f.refs p hp)

theorem step_fresh (f : Fit σ R op pc) (hn : next σ op slot pc = some (σ', pc'))
    (h : Fresh σ pc) : Fresh σ' pc' ∧ pc' ≠ .find := by
  cases pc with
  | find =>
    simp only [next] at hn
    split at hn
    · next c hc =>
      obtain ⟨rfl, rfl⟩ := Prod.mk.inj (Option.some.inj hn)
      exact ⟨hc, (by rintro ⟨⟩)⟩
    · cases hn
  | findTest p c =>
    have h : (σ.node p).next = Ptr.addr c := h
    simp only [next] at hn
    split at hn
    · obtain ⟨rfl, rfl⟩ := Prod.mk.inj (Option.some.inj hn)
      exact ⟨h, (by rintro ⟨⟩)⟩
    · next hd =>
      split at hn
      · obtain ⟨q, ha, he⟩ := Option.map_eq_some_iff.1 hn
        obtain ⟨rfl, rfl⟩ := Prod.mk.inj he
        cases op with
        | insert k v =>
          simp only [afterFind] at ha
          split at ha <;> obtain rfl := Option.some.inj ha
          · exact ⟨trivial, (by rintro ⟨⟩)⟩
          · exact ⟨h, (by rintro ⟨⟩)⟩
        | remove k =>
          simp only [afterFind] at ha
          split at ha <;> obtain rfl := Option.some.inj ha
          · exact ⟨hd, (by rintro ⟨⟩)⟩
          · exact ⟨trivial, (by rintro ⟨⟩)⟩
        | contains k => cases ha
      · obtain ⟨rfl, rfl⟩ := Prod.mk.inj (Option.some.inj hn)
        exact ⟨fun d hs => addr_of_alive hd hs, (by rintro ⟨⟩)⟩
  | findNext p n =>
    simp only [next] at hn
    obtain ⟨d, hd, he⟩ := Option.map_eq_some_iff.1 hn
    obtain ⟨rfl, rfl⟩ := Prod.mk.inj he
    exact ⟨h d hd, (by rintro ⟨⟩)⟩
  | deleteLoad c n =>
    simp only [next] at hn
    split at hn <;> obtain ⟨rfl, rfl⟩ := Prod.mk.inj (Option.some.inj hn)
    · exact afterDelete_fresh h fun _ => rfl
    · rcases c with ⟨_ | _, p⟩ | _ <;> exact ⟨h, (by rintro ⟨⟩)⟩
  | deleteFlush c n =>
    obtain ⟨rfl, rfl⟩ := Prod.mk.inj (Option.some.inj hn)
    refine ⟨?_, (by rintro ⟨⟩)⟩
    rcases c with ⟨_ | _, p⟩ | _
    · exact (next_flush σ n p).trans h
    · trivial
    · trivial
  | deleteStore c n =>
    obtain ⟨rfl, rfl⟩ := Prod.mk.inj (Option.some.inj hn)
    refine afterDelete_fresh (σ := σ) ?_ (next_write rfl)
    rcases c with ⟨_ | _, p⟩ | _ <;> exact h
  | trimLoad c p n =>
    obtain ⟨rfl, rfl⟩ := Prod.mk.inj (Option.some.inj hn)
    refine ⟨?_, (by rintro ⟨⟩)⟩
    cases c with
    | inFind => exact h
    | inRemove => trivial
  | trimCas c p n q =>
    obtain ⟨hok, hq, hsn⟩ := f.loc
    simp only [next] at hn
    split at hn <;> obtain ⟨rfl, rfl⟩ := Prod.mk.inj (Option.some.inj hn)
    · next hnext =>
      refine ⟨?_, (by rintro ⟨⟩)⟩
      cases c with
      | inFind =>
        intro d hd
        have hne : n ≠ p := by
          rintro rfl
          exact alive_of_addr hnext hok.2.1
        rw [node_next, if_neg hne, hsn] at hd
        rw [node_next, if_pos rfl]
        rcases q with ⟨r, m⟩
        have hr : r = some d := hd
        have hm : m = false := hq
        rw [hr, hm]
        rfl
      | inRemove => trivial
    · next hnext =>
      cases c with
      | inFind => exact absurd h hnext
      | inRemove => exact ⟨trivial, (by rintro ⟨⟩)⟩
  | trimFree c p n =>
    obtain ⟨rfl, rfl⟩ := Prod.mk.inj (Option.some.inj hn)
    cases c with
    | inFind => exact ⟨h, (by rintro ⟨⟩)⟩
    | inRemove => exact ⟨trivial, (by rintro ⟨⟩)⟩
  | validLoad c n =>
    simp only [next] at hn
    split at hn <;> obtain ⟨rfl, rfl⟩ := Prod.mk.inj (Option.some.inj hn)
    · exact afterValid_fresh h fun _ => rfl
    · refine ⟨?_, (by rintro ⟨⟩)⟩
      cases c with
      | removing p q => exact h
      | lost => exact h
      | _ => trivial
  | validStore c n old =>
    obtain ⟨rfl, rfl⟩ := Prod.mk.inj (Option.some.inj hn)
    refine afterValid_fresh (σ := σ) ?_ (next_write rfl)
    cases c with
    | removing p q => exact h
    | lost => exact h
    | _ => trivial
  | insertLoad r n =>
    simp only [next] at hn
    split at hn <;> obtain ⟨rfl, rfl⟩ := Prod.mk.inj (Option.some.inj hn) <;>
      exact ⟨trivial, (by rintro ⟨⟩)⟩
  | insertFlush r n =>
    obtain ⟨rfl, rfl⟩ := Prod.mk.inj (Option.some.inj hn)
    exact ⟨trivial, (by rintro ⟨⟩)⟩
  | insertStore r n =>
    obtain ⟨rfl, rfl⟩ := Prod.mk.inj (Option.some.inj hn)
    exact ⟨trivial, (by rintro ⟨⟩)⟩
  | alloc p c =>
    obtain ⟨rfl, rfl⟩ := Prod.mk.inj (Option.some.inj hn)
    exact ⟨h, (by rintro ⟨⟩)⟩
  | flipLoad p c n =>
    obtain ⟨rfl, rfl⟩ := Prod.mk.inj (Option.some.inj hn)
    exact ⟨h, (by rintro ⟨⟩)⟩
  | initValue p c n =>
    simp only [next] at hn
    split at hn
    · obtain ⟨rfl, rfl⟩ := Prod.mk.inj (Option.some.inj hn)
      exact ⟨priv_next f (by simp [Pc.refs]) rfl h, (by rintro ⟨⟩)⟩
    · cases hn
  | linkCas p c n =>
    have h : (σ.node p).next = Ptr.addr c := h
    simp only [next, if_pos h] at hn
    obtain ⟨rfl, rfl⟩ := Prod.mk.inj (Option.some.inj hn)
    exact ⟨trivial, (by rintro ⟨⟩)⟩
  | lostStore n => exact h.elim
  | lostFree n => exact h.elim
  | removeLoad p n =>
    obtain ⟨rfl, rfl⟩ := Prod.mk.inj (Option.some.inj hn)
    have h : ¬ (σ.node n).next.marked = true := h
    refine ⟨?_, (by rintro ⟨⟩)⟩
    change (σ.node n).next = (σ.node n).next.getRef
    cases hq : (σ.node n).next
    simp_all [Ptr.getRef]
  | markCas p n q =>
    have h : (σ.node n).next = q := h
    simp only [next, if_pos h] at hn
    obtain ⟨rfl, rfl⟩ := Prod.mk.inj (Option.some.inj hn)
    exact ⟨trivial, (by rintro ⟨⟩)⟩
  | containsHead =>
    simp only [next] at hn
    split at hn
    · obtain ⟨rfl, rfl⟩ := Prod.mk.inj (Option.some.inj hn)
      exact ⟨trivial, (by rintro ⟨⟩)⟩
    · cases hn
  | containsWalk c =>
    simp only [next] at hn
    split at hn
    · obtain ⟨d, _, he⟩ := Option.map_eq_some_iff.1 hn
      obtain ⟨rfl, rfl⟩ := Prod.mk.inj he
      exact ⟨trivial, (by rintro ⟨⟩)⟩
    · split at hn
      · obtain ⟨rfl, rfl⟩ := Prod.mk.inj (Option.some.inj hn)
        exact ⟨trivial, (by rintro ⟨⟩)⟩
      · split at hn <;> obtain ⟨rfl, rfl⟩ := Prod.mk.inj (Option.some.inj hn) <;>
          exact ⟨trivial, (by rintro ⟨⟩)⟩
  | ret r n => cases hn
  | _ =>
    obtain ⟨rfl, rfl⟩ := Prod.mk.inj (Option.some.inj hn)
    exact ⟨priv_next f (by simp [Pc.refs]) rfl h, (by rintro ⟨⟩)⟩

/-! ### A call that is left alone returns -/

def Bounded (s : State V) : Prop :=
  ∃ N : ℕ, ∀ x : ℕ, N ≤ x → s.store.avail x = true ∧ ¬ s.store.heap.Live s.roots x

theorem bounded_initial (zero : V) (junk : Uchar) : Bounded (initial zero junk) := by
  refine ⟨2, fun x hx => ⟨?_, fun h => ?_⟩⟩
  · have h0 : x ≠ head := by rintro rfl; exact absurd hx (by decide)
    have h1 : x ≠ tail := by rintro rfl; exact absurd hx (by decide)
    simp [initial, initialStore, h0, h1]
  · rcases initial_live zero junk h with rfl | rfl <;> exact absurd hx (by decide)

theorem Effect.avail {h : Option Loc} {R' : Set Loc} (e : Effect σ R h R' σ') :
    ∃ y : ℕ, ∀ x : ℕ, y < x → σ.avail x = true → σ'.avail x = true := by
  cases e with
  | take y =>
    refine ⟨y, fun x hx ha => ?_⟩
    simpa [Store.take, show x ≠ y by omega] using ha
  | give y =>
    refine ⟨0, fun x _ ha => ?_⟩
    by_cases hx : x = y
    · simp [Store.give, hx]
    · simpa [Store.give, hx] using ha
  | _ => exact ⟨0, fun _ _ ha => ha⟩

theorem Bounded.step_roots {R' : Set Loc} (h : Bounded s)
    (hR : ∀ r ∈ R', s.store.heap.Live s.roots r) :
    ∃ N : ℕ, ∀ x : ℕ, N ≤ x → s.store.avail x = true ∧ ¬ s.store.heap.Live R' x := by
  obtain ⟨N, hN⟩ := h
  exact ⟨N, fun x hx => ⟨(hN x hx).1, fun hl => (hN x hx).2 (hl.mono hR)⟩⟩

theorem Bounded.step (h : Bounded s) (hi : Inv s) {e : Event (SetOp V)} (hs : Step s e s') :
    Bounded s' := by
  cases hs with
  | call t op idle hk =>
    refine h.step_roots fun r hr => Heap.Live.root ?_
    rcases roots_goto hr with hr | ⟨op1, pc1, ha, hr⟩
    · exact hr
    · obtain ⟨rfl, rfl⟩ := Prod.mk.inj (Option.some.inj ha)
      cases op <;> simp [start, Pc.refs] at hr
  | ret t op r n ht =>
    refine h.step_roots fun r hr => Heap.Live.root ?_
    rcases roots_goto hr with hr | ⟨_, _, ha, _⟩
    · exact hr
    · cases ha
  | tau t op pc pc' slot σ ht hn hs =>
    obtain ⟨R', e, f, _⟩ := tau_ok hi ht hn hs
    have k := e.kept hi.mem
    obtain ⟨N, hN⟩ := h
    obtain ⟨y, hy⟩ := e.avail
    refine ⟨N + y + 1 + ((pc.holds.getD 0 : ℕ) + 1), fun x hx => ?_⟩
    have hx0 := hN x (by omega)
    refine ⟨hy x (by omega) hx0.1, fun hl => ?_⟩
    refine k.fresh (x := x) (fun ho => ?_) hx0.2 (hl.mono (roots_tau k f))
    rw [ho, Option.getD_some] at hx
    omega

theorem bounded_run (ρ : Run (machine V)) : ∀ n ≤ ρ.length, Bounded (ρ.state n) := by
  refine Run.stepwise ?_ fun m hm h => h.step (inv_run ρ m hm.le) (ρ.step hm)
  obtain ⟨zero, junk, h⟩ := ρ.init
  rw [h]
  exact bounded_initial zero junk

theorem Bounded.recyclable (h : Bounded s) : ∃ x, s.Recyclable x := by
  obtain ⟨N, hN⟩ := h
  refine ⟨N, (hN N le_rfl).1, fun t op pc ht r hr hx => (hN N le_rfl).2 ?_⟩
  exact ⟨r, mem_roots ht hr, hx⟩

theorem next_enabled (hm : MemInv σ R) (f : Fit σ R op pc) (hret : ∀ r n, pc ≠ .ret r n)
    (slot : Loc) : ∃ σ' pc', next σ op slot pc = some (σ', pc') := by
  have headNext : ∃ c, (σ.node head).next = Ptr.addr c := by
    obtain ⟨c, hc⟩ := Option.ne_none_iff_exists'.1
      (hm.complete hm.head_live (by decide : head ≠ tail))
    exact ⟨c, addr_of_alive hm.head_alive hc⟩
  have ahead : ∀ {x}, σ.heap.Live R x → rank σ x < (op.key : ℤ) ∨ σ.heap.dead x →
      ∃ d, (σ.node x).next.ref = some d := by
    intro x hx h
    refine Option.ne_none_iff_exists'.1 (hm.complete hx ?_)
    exact h.elim (fun h => hm.ne_tail_of_rank f.key h.le) hm.ne_tail_of_dead
  cases pc with
  | find =>
    obtain ⟨c, hc⟩ := headNext
    exact ⟨_, _, by simp only [next, hc]; rfl⟩
  | containsHead =>
    obtain ⟨c, hc⟩ := headNext
    exact ⟨_, _, by simp only [next, hc]; rfl⟩
  | findTest p c =>
    have hf : ¬ op.IsContains := f.fits
    simp only [next]
    split
    · exact ⟨_, _, rfl⟩
    · split
      · cases op with
        | insert k v => simp only [afterFind]; split <;> exact ⟨_, _, rfl⟩
        | remove k => simp only [afterFind]; split <;> exact ⟨_, _, rfl⟩
        | contains k => exact absurd trivial hf
      · exact ⟨_, _, rfl⟩
  | findNext p n =>
    obtain ⟨d, hd⟩ := ahead (f.refs n (by simp [Pc.refs])) f.loc.2
    exact ⟨_, _, by simp only [next, hd]; rfl⟩
  | containsWalk c =>
    simp only [next]
    split
    · next hlt =>
      have hr : rank σ c < (op.key : ℤ) := by
        rw [rank_of_ne σ f.loc]
        exact WithBot.coe_lt_coe.2 hlt
      obtain ⟨d, hd⟩ := ahead (f.refs c (by simp [Pc.refs])) (Or.inl hr)
      exact ⟨_, _, by rw [hd]; rfl⟩
    · split
      · exact ⟨_, _, rfl⟩
      · split <;> exact ⟨_, _, rfl⟩
  | initValue p c n =>
    have hf : op.IsInsert := f.fits
    cases op with
    | insert k v => exact ⟨_, _, rfl⟩
    | _ => exact hf.elim
  | ret r n => exact absurd rfl (hret r n)
  | deleteLoad c n => simp only [next]; split <;> exact ⟨_, _, rfl⟩
  | trimCas c p n q => simp only [next]; split <;> exact ⟨_, _, rfl⟩
  | validLoad c n => simp only [next]; split <;> exact ⟨_, _, rfl⟩
  | insertLoad r n => simp only [next]; split <;> exact ⟨_, _, rfl⟩
  | linkCas p c n => simp only [next]; split <;> exact ⟨_, _, rfl⟩
  | markCas p n q => simp only [next]; split <;> exact ⟨_, _, rfl⟩
  | _ => exact ⟨_, _, rfl⟩

def Sane (s : State V) : Prop := Inv s ∧ Bounded s

theorem Sane.step (h : Sane s) {e : Event (SetOp V)} (hs : Step s e s') : Sane s' :=
  ⟨h.1.step hs, h.2.step h.1 hs⟩

theorem Sane.solo (h : Sane s) (hs : (machine V).Solo t s s') : Sane s' := by
  rcases hs with hs | ⟨r, hs⟩ <;> exact h.step hs

theorem Sane.can (h : Sane s) (t : Tid) :
    s.thread t = none ∨ ∃ s', (machine V).Solo t s s' := by
  cases ht : s.thread t with
  | none => exact Or.inl rfl
  | some a =>
    obtain ⟨op, pc⟩ := a
    by_cases hret : ∃ r n, pc = .ret r n
    · obtain ⟨r, n, rfl⟩ := hret
      exact Or.inr ⟨_, Or.inr ⟨r, Step.ret t op r n ht⟩⟩
    · obtain ⟨slot, hslot⟩ := h.2.recyclable
      obtain ⟨σ, pc', hn⟩ := next_enabled h.1.mem (h.1.fit ht)
        (fun r n e => hret ⟨r, n, e⟩) slot
      exact Or.inr ⟨_, Or.inl (Step.tau t op pc pc' slot σ ht hn fun _ _ _ => hslot)⟩

def rest (t : Tid) (s : State V) : ℕ :=
  match s.thread t with
  | some (_, pc) => measure s.store pc
  | none => 0

theorem Sane.solo_cases (h : Sane s) (hs : (machine V).Solo t s s') :
    s'.thread t = none ∨ ∃ op pc pc' slot, s.thread t = some (op, pc) ∧
      s'.thread t = some (op, pc') ∧ next s.store op slot pc = some (s'.store, pc') ∧
      (pc' = .find ∨ rest t s' < rest t s) := by
  rcases hs with hs | ⟨r, hs⟩
  · cases hs with
    | tau _ op pc pc' slot σ ht hn hs =>
      have ht' := goto_thread_self s σ t (some (op, pc'))
      refine Or.inr ⟨op, pc, pc', slot, ht, ht', hn, ?_⟩
      simp only [rest, ht, ht']
      exact step_measure h.1.mem (h.1.fit ht) hn
  · cases hs with
    | ret _ op _ n ht => exact Or.inl (goto_thread_self _ _ _ _)

theorem Sane.returns_fresh (h : Sane s) (ht : s.thread t = some (op, pc))
    (hf : Fresh s.store pc) : (machine V).Returns t s := by
  refine inevitable_of_measure (rest t) (I := fun s => Sane s ∧
    ∀ op pc, s.thread t = some (op, pc) → Fresh s.store pc) (fun s h => h.1.can t) ?_
    ⟨h, fun op' pc' ht' => ?_⟩
  · rintro s s' ⟨h, hf⟩ hs
    rcases h.solo_cases hs with hd | ⟨op, pc, pc', slot, ht, ht', hn, hlt⟩
    · exact Or.inl (Inevitable.here hd)
    · obtain ⟨hf', hne⟩ := step_fresh (h.1.fit ht) hn (hf op pc ht)
      refine Or.inr ⟨⟨h.solo hs, fun op1 pc1 h1 => ?_⟩, hlt.resolve_left hne⟩
      obtain ⟨_, rfl⟩ := Prod.mk.inj (Option.some.inj (ht'.symm.trans h1))
      exact hf'
  · obtain ⟨_, rfl⟩ := Prod.mk.inj (Option.some.inj (ht.symm.trans ht'))
    exact hf

theorem Sane.returns (h : Sane s) : (machine V).Returns t s := by
  refine inevitable_of_measure (rest t) (fun s h => h.can t) ?_ h
  intro s s' h hs
  rcases h.solo_cases hs with hd | ⟨op, pc, pc', slot, ht, ht', hn, rfl | hlt⟩
  · exact Or.inl (Inevitable.here hd)
  · exact Or.inl ((h.solo hs).returns_fresh ht' trivial)
  · exact Or.inr ⟨h.solo hs, hlt⟩

theorem linkFreeList_returns (ρ : Run (machine V)) (t : Tid) :
    (machine V).Returns t (ρ.state ρ.length) :=
  Sane.returns ⟨inv_run ρ ρ.length le_rfl, bounded_run ρ ρ.length le_rfl⟩

section Reused

open Reuse

-- slot 3 is used by an insert that loses its compare-and-swap: thread 0 comes to it from the
-- node of 1, and there is no next node
def derailed : List (Command ℕ) :=
  [inserts 1 1 0 2 0, inserts 1 3 0 3 1, inserts 1 7 0 4 2, [.call 0 (.contains 9)], steps 0 1,
    removes 1 1, removes 1 3, [.call 1 (.insert 5 0)], steps 1 2, [.alloc 1 3], steps 1 7,
    inserts 2 6 0 5 0, steps 1 2, steps 0 1].flatten

theorem linkFreeList_never_returns : ∃ (ρ : Run (Reuse.machine ℕ)) (t : Tid),
    ¬ (Reuse.machine ℕ).Returns t (ρ.state ρ.length) := by
  obtain ⟨ρ, hρ, _⟩ := exists_play 0 exec id derailed (by decide +kernel)
  have last := hρ.last (P := fun s =>
    decide (s.thread 0 = some (.contains 9, .containsWalk 3)) &&
      decide ((s.store.node 3).key < 9) && decide ((s.store.node 3).next.ref = none))
    (by decide +kernel)
  simp only [Bool.and_eq_true, decide_eq_true_eq, and_assoc] at last
  obtain ⟨ht, hk, hn⟩ := last
  have stuck : ∀ s', ¬ (Reuse.machine ℕ).Solo 0 (ρ.state ρ.length) s' := by
    rintro s' (hs | ⟨r, hs⟩)
    · cases hs with
      | tau _ op pc pc' slot σ h hnext _ =>
        obtain ⟨rfl, rfl⟩ := Prod.mk.inj (Option.some.inj (ht.symm.trans h))
        have hk : ((ρ.state ρ.length).store.node 3).key < (SetOp.contains 9 : SetOp ℕ).key := hk
        simp [next, hk, hn] at hnext
    · cases hs with
      | ret _ op _ n h => cases ht.symm.trans h
  refine ⟨ρ, 0, fun h => ?_⟩
  cases h with
  | here h => cases ht.symm.trans h
  | later can _ => exact can.elim stuck

end Reused

end LinkFree.List
