import DurableSets.Core.Sequential
import DurableSets.SOFT.SkipListLevels

namespace SOFT.SkipList

open Chain

variable {V : Type} {σ τ υ : Store V} {x y p c d s : Loc} {i j l fuel : ℕ} {k : ℤ} {w : V}
  {st : NodeState} {us vs ws xs as bs : List Loc} {op : SetOp V} {path : Path}

structure Alike (a b : Node V) : Prop extends SameData a b where
  validStart : b.validStart = a.validStart
  validEnd : b.validEnd = a.validEnd
  deleted : b.deleted = a.deleted

theorem Alike.refl (a : Node V) : Alike a a := ⟨SameData.refl a, rfl, rfl, rfl⟩

theorem Alike.trans {a b c : Node V} (h : Alike a b) (k : Alike b c) : Alike a c :=
  ⟨⟨k.key.trans h.key, k.value.trans h.value, k.pValidity.trans h.pValidity,
    k.topLevel.trans h.topLevel⟩, k.validStart.trans h.validStart, k.validEnd.trans h.validEnd,
    k.deleted.trans h.deleted⟩

theorem alike_setNext (σ : Store V) (p : Loc) (i : ℕ) (q : Ptr) (y : Loc) :
    Alike (σ.node y) ((σ.setNext p i q).node y) := by
  refine ⟨setNext_data σ p i q y, ?_, ?_, ?_⟩ <;>
    (unfold Store.setNext; rw [node_write]; split)
  all_goals first
    | rfl
    | next he => rw [he]; rfl

theorem node_setNext_other (σ : Store V) (i : ℕ) (q : Ptr) (h : y ≠ x) :
    (σ.setNext x i q).node y = σ.node y := node_write_other σ _ h

theorem node_flush (σ : Store V) (n y : Loc) : (σ.flush n).node y = σ.node y := by
  change (σ.setLine n _).node y = _
  rw [node_setLine]
  split
  · next h => rw [h]; rfl
  · rfl

theorem create_moves (path : Path) (x : Loc) (l : ℕ) : ∃ τ,
    Relation.ReflTransGen (Moves (.insert k w)) (σ, .allocTest path x l)
      (τ, .initNext path x 0) ∧ (∀ y ≠ x, τ.node y = σ.node y) ∧ τ.avail = σ.avail ∧
    τ.node x = { σ.node x with validStart := !(σ.node x).validStart, key := k, value := w,
                               topLevel := l, pValidity := !(σ.node x).validStart } := by
  refine ⟨_, .head (fun _ _ => rfl) (.head (fun _ _ => rfl) (.head (fun _ _ => rfl)
    (.head (fun _ _ => rfl) (.head (fun _ _ => rfl) (.head (fun _ _ => rfl) .refl))))),
    fun y hy => ?_, rfl, ?_⟩
  · simp only [node_write_other _ _ hy]
  · simp only [node_write_self]
    rfl

theorem initNext_moves (op : SetOp V) {E : ℕ → Entry} (hpath : ∀ j < l, path[j]? = some (E j))
    (hi : i < l) (top : (σ.node x).topLevel = l) : ∃ τ,
    Relation.ReflTransGen (Moves op) (σ, .initNext path x i) (τ, .linkCas path x) ∧
    (∀ y ≠ x, τ.node y = σ.node y) ∧ τ.avail = σ.avail ∧ Alike (σ.node x) (τ.node x) ∧
    (∀ j < i, (τ.node x).next j = (σ.node x).next j) ∧ ∀ j, i ≤ j → j < l →
      (τ.node x).next j = Ptr.addr (E j).succ (if j = 0 then .intendToInsert else .inserted) := by
  obtain ⟨m, hm⟩ := Nat.exists_eq_add_of_lt hi
  induction m generalizing σ i with
  | zero =>
    refine ⟨σ.setNext x i (Ptr.addr (E i).succ (if i = 0 then .intendToInsert else .inserted)),
      .head (fun _ _ => ?_) .refl, fun y hy => node_setNext_other σ _ _ hy, rfl,
      alike_setNext σ x i _ x, fun j hj => ?_, fun j h1 h2 => ?_⟩
    · simp only [next, hpath i hi, Option.map_some]
      rw [if_neg (show ¬ i + 1 < (σ.node x).topLevel by omega)]
    · exact next_setNext_other σ _ fun e => hj.ne (Prod.mk.inj e).2
    · obtain rfl : j = i := by omega
      exact next_setNext_self σ x j _
  | succ m ih =>
    have hl : i + 1 < (σ.node x).topLevel := by omega
    have h0 := alike_setNext σ x i
      (Ptr.addr (E i).succ (if i = 0 then .intendToInsert else .inserted)) x
    obtain ⟨τ, hw, ho, ha, hk, hlow, hup⟩ := ih (i := i + 1)
      (σ := σ.setNext x i (Ptr.addr (E i).succ (if i = 0 then .intendToInsert else .inserted)))
      (by omega) (h0.topLevel.trans top) (by omega)
    refine ⟨τ, .head (fun _ _ => ?_) hw, fun y hy => (ho y hy).trans (node_setNext_other σ _ _ hy),
      ha, h0.trans hk, fun j hj => ?_, fun j h1 h2 => ?_⟩
    · simp only [next, hpath i hi, Option.map_some]
      rw [if_pos hl]
    · rw [hlow j (by omega)]
      exact next_setNext_other σ _ fun e => hj.ne (Prod.mk.inj e).2
    · by_cases he : j = i
      · rw [he, hlow i (Nat.lt_succ_self i)]
        exact next_setNext_self σ x i _
      · exact hup j (by omega) h2

structure Born (σ τ : Store V) (as bs : List Loc) (k : ℤ) (w : V) (x : Loc) (l : ℕ) : Prop where
  other : ∀ y ≠ x, τ.node y = σ.node y
  avail : τ.avail = (σ.take x).avail
  key : (τ.node x).key = k
  value : (τ.node x).value = w
  topLevel : (τ.node x).topLevel = l
  flipped : (τ.node x).validStart = !(σ.node x).validStart
  start : (τ.node x).validStart = (τ.node x).pValidity
  kept : (τ.node x).deleted = !(τ.node x).pValidity
  next_zero : (τ.node x).next 0 = Ptr.addr (σ.succ 0 bs) .intendToInsert
  next : ∀ j, 1 ≤ j → j < l → (τ.node x).next j = Ptr.addr (σ.succ j bs) .inserted

theorem born_moves (h : Free (σ.node x)) (hl : 1 ≤ l)
    (hpath : ∀ j < l, path[j]? = some (σ.entry as bs j)) : ∃ τ, Born σ τ as bs k w x l ∧
      Relation.ReflTransGen (Moves (.insert k w)) (σ.take x, .allocTest path x l)
        (τ, .linkCas path x) := by
  obtain ⟨τ, hw, ho, ha, hx⟩ := create_moves (σ := σ.take x) (k := k) (w := w) path x l
  have top : (τ.node x).topLevel = l := by rw [hx]
  obtain ⟨υ, hw', ho', ha', hk, _, hup⟩ := initNext_moves (.insert k w) hpath hl top
  have start : (τ.node x).validStart = !(σ.node x).validStart := by
    rw [hx]
    rfl
  have valid : (τ.node x).pValidity = !(σ.node x).validStart := by
    rw [hx]
    rfl
  refine ⟨υ, ?_, hw.trans hw'⟩
  exact {
    other := fun y hy => (ho' y hy).trans (ho y hy)
    avail := ha'.trans ha
    key := hk.key.trans (by rw [hx])
    value := hk.value.trans (by rw [hx])
    topLevel := hk.topLevel.trans top
    flipped := hk.validStart.trans start
    start := by rw [hk.validStart, hk.pValidity, start, valid]
    kept := by
      rw [hk.deleted, hk.pValidity, valid, hx, Bool.not_not]
      exact h.destroyed
    next_zero := hup 0 le_rfl hl
    next := fun j h1 h2 => (hup j (Nat.zero_le j) h2).trans
      (by rw [if_neg (Nat.one_le_iff_ne_zero.1 h1)]; rfl) }

structure Stage (σ τ : Store V) (as bs : List Loc) (k : ℤ) (w : V) (x : Loc) (l i : ℕ) :
    Prop where
  other : ∀ y ≠ x, Alike (σ.node y) (τ.node y)
  linked : ∀ j < i, (τ.node (σ.pred j as)).next j = Ptr.addr x .inserted
  same : ∀ y ≠ x, ∀ j, (j < i → y ≠ σ.pred j as) → (τ.node y).next j = (σ.node y).next j
  avail : τ.avail = (σ.take x).avail
  key : (τ.node x).key = k
  value : (τ.node x).value = w
  topLevel : (τ.node x).topLevel = l
  flipped : (τ.node x).validStart = !(σ.node x).validStart
  start : (τ.node x).validStart = (τ.node x).pValidity
  helped : (τ.node x).validEnd = (τ.node x).pValidity
  kept : (τ.node x).deleted = !(τ.node x).pValidity
  next : ∀ j < l, (τ.node x).next j = Ptr.addr (σ.succ j bs) .inserted

theorem stateCas_moves (op : SetOp V) {u : StateCtx} {n : Loc}
    (h : (σ.node n).next 0 = Ptr.addr y u.expected) :
    Relation.ReflTransGen (Moves op) (σ, .stateTest u n)
      (σ.setNext n 0 (Ptr.addr y u.newState), afterState σ n true u) := by
  refine .head (b := (σ, .stateLoad u n)) (fun _ _ => ?_) (.head (fun _ _ => rfl)
    (.head (fun _ _ => ?_) .refl))
  · simp only [next]
    rw [h]
    exact if_pos rfl
  · simp only [next]
    rw [h]
    exact if_pos rfl

theorem Represents.pred_next (h : Represents σ (as ++ bs)) (hi : i < MAX_LEVEL) :
    (σ.node (σ.pred i as)).next i = Ptr.addr (σ.succ i bs) .inserted := (h.level hi).after.next

theorem pred_ne (hx : x ∉ as) (hxh : x ≠ head) (i : ℕ) : σ.pred i as ≠ x := by
  rintro rfl
  rcases Represents.pred_carried σ i as with he | hm
  · exact hxh he
  · exact hx (mem_tall.1 hm).1

theorem link_moves (op : SetOp V) (h : Represents σ (as ++ bs)) (b : Born σ τ as bs k w x l)
    (hx : x ∉ as) (hxh : x ≠ head) (hpath : path[0]? = some (σ.entry as bs 0)) : ∃ υ,
      Stage σ υ as bs k w x l 1 ∧
      Relation.ReflTransGen (Moves op) (τ, .linkCas path x) (υ, upper υ path x 1) := by
  have hp : σ.pred 0 as ≠ x := pred_ne hx hxh 0
  have cas : (τ.node (σ.pred 0 as)).next 0 = (σ.entry as bs 0).succs := by
    rw [b.other _ hp]
    exact h.pred_next (by decide)
  let α := τ.setNext (σ.pred 0 as) 0 (Ptr.addr x .inserted)
  let β := (α.write x { α.node x with validEnd := (α.node x).pValidity }).flush x
  have hα : α.node x = τ.node x := node_setNext_other τ 0 _ hp.symm
  have hβ : β.node x = { τ.node x with validEnd := (τ.node x).pValidity } := by
    rw [node_flush, node_write_self, hα]
  have hβ' : ∀ y ≠ x, β.node y = α.node y := fun y hy => by
    rw [node_flush, node_write_other _ _ hy]
  have zero : (β.node x).next 0 = Ptr.addr (σ.succ 0 bs) .intendToInsert := by
    rw [hβ]
    exact b.next_zero
  have state := stateCas_moves op (u := .insert (.linked path)) zero
  refine ⟨β.setNext x 0 (Ptr.addr (σ.succ 0 bs) .inserted), ?_, ?_⟩
  · have hd := alike_setNext β x 0 (Ptr.addr (σ.succ 0 bs) .inserted) x
    rw [hβ] at hd
    have there : ∀ y ≠ x, (β.setNext x 0 (Ptr.addr (σ.succ 0 bs) .inserted)).node y = α.node y :=
      fun y hy => (node_setNext_other β 0 _ hy).trans (hβ' y hy)
    exact {
      other := fun y hy => by
        rw [there y hy, ← b.other y hy]
        exact alike_setNext τ _ 0 _ y
      linked := fun j hj => by
        obtain rfl := Nat.lt_one_iff.1 hj
        rw [there _ hp]
        exact next_setNext_self τ _ 0 _
      same := fun y hy j hj => by
        rw [there y hy, ← b.other y hy]
        refine next_setNext_other τ _ fun e => ?_
        obtain ⟨rfl, rfl⟩ := Prod.mk.inj e
        exact hj one_pos rfl
      avail := b.avail
      key := hd.key.trans b.key
      value := hd.value.trans b.value
      topLevel := hd.topLevel.trans b.topLevel
      flipped := hd.validStart.trans b.flipped
      start := by rw [hd.validStart, hd.pValidity]; exact b.start
      helped := by rw [hd.validEnd, hd.pValidity]
      kept := by rw [hd.deleted, hd.pValidity]; exact b.kept
      next := fun j hj => by
        rw [next_setNext]
        split
        · next he =>
          rw [he.2]
        · next he =>
          rw [hβ]
          exact b.next j (Nat.one_le_iff_ne_zero.2 fun h0 => he ⟨rfl, h0⟩) hj }
  · have up : upper β path x 1 = upper (β.setNext x 0 (Ptr.addr (σ.succ 0 bs) .inserted)) path x 1 := by
      unfold upper
      rw [(setNext_data β x 0 (Ptr.addr (σ.succ 0 bs) .inserted) x).topLevel]
    rw [← up]
    refine .head (b := (α, .helpStore (.linked path) x)) (fun _ _ => ?_) (.head (fun _ _ => rfl)
      (.head (fun _ _ => rfl) state))
    simp only [next, hpath, Option.map_some]
    exact congrArg some (if_pos cas)

theorem upper_moves (op : SetOp V) (h : Represents σ (as ++ bs)) (hl : l ≤ MAX_LEVEL) (hi : 1 ≤ i)
    (hil : i ≤ l) (st : Stage σ τ as bs k w x l i) (hx : x ∉ as) (hxh : x ≠ head)
    (hpath : ∀ j < l, path[j]? = some (σ.entry as bs j)) : ∃ υ,
      Stage σ υ as bs k w x l l ∧
      Relation.ReflTransGen (Moves op) (τ, upper τ path x i) (υ, .ret true) := by
  obtain ⟨m, rfl⟩ := Nat.exists_eq_add_of_le hil
  induction m generalizing τ i with
  | zero =>
    refine ⟨τ, st, ?_⟩
    rw [upper, if_neg (by rw [st.topLevel]; omega)]
  | succ m ih =>
    have hlt : i < i + (m + 1) := by omega
    have hp : σ.pred i as ≠ x := pred_ne hx hxh i
    have own : (τ.node x).next i = (σ.entry as bs i).succs := st.next i hlt
    have cas : (τ.node (σ.pred i as)).next i = (σ.entry as bs i).succs := by
      rw [st.same _ hp i fun h => absurd h (lt_irrefl i)]
      exact h.pred_next (hlt.trans_le hl)
    let α := τ.setNext (σ.pred i as) i (Ptr.addr x .inserted)
    have hα : α.node x = τ.node x := node_setNext_other τ i _ hp.symm
    have st' : Stage σ α as bs k w x (i + 1 + m) (i + 1) := by
      rw [show i + 1 + m = i + (m + 1) by omega]
      exact {
        other := fun y hy => (st.other y hy).trans (alike_setNext τ _ i _ y)
        linked := fun j hj => by
          rw [next_setNext]
          split
          · rfl
          · next he =>
            refine st.linked j ?_
            have : j ≠ i := by
              rintro rfl
              exact he ⟨rfl, rfl⟩
            omega
        same := fun y hy j hj => by
          have hne : (y, j) ≠ (σ.pred i as, i) := by
            intro e
            obtain ⟨rfl, rfl⟩ := Prod.mk.inj e
            exact hj (Nat.lt_succ_self j) rfl
          exact (next_setNext_other τ _ hne).trans (st.same y hy j fun h => hj (by omega))
        avail := st.avail
        key := by rw [hα]; exact st.key
        value := by rw [hα]; exact st.value
        topLevel := by rw [hα]; exact st.topLevel
        flipped := by rw [hα]; exact st.flipped
        start := by rw [hα]; exact st.start
        helped := by rw [hα]; exact st.helped
        kept := by rw [hα]; exact st.kept
        next := by rw [hα]; exact st.next }
    have hpath' : ∀ j < i + 1 + m, path[j]? = some (σ.entry as bs j) :=
      fun j hj => hpath j (by omega)
    obtain ⟨υ, su, hw⟩ := ih (i := i + 1) (by omega) (by omega) (by omega) st' hpath'
    rw [show i + (m + 1) = i + 1 + m by omega]
    refine ⟨υ, su, ?_⟩
    have up : upper α path x (i + 1) = upper τ path x (i + 1) := by
      unfold upper
      rw [hα]
    rw [up] at hw
    rw [upper, if_pos (by rw [st.topLevel]; exact hlt)]
    refine .head (b := (τ, .upperLink path x i)) (fun _ _ => ?_) (.head (b := (α, _))
      (fun _ _ => ?_) hw)
    · have inn : ¬ isOut ((τ.node x).next i).getState = true := by
        rw [own]
        rintro ⟨⟩
      simp only [next, if_neg inn, hpath i hlt, Option.map_some]
      rw [if_pos own]
    · simp only [next, hpath i hlt, Option.map_some]
      exact congrArg some (if_pos cas)

theorem tall_congr (i : ℕ) (h : ∀ y ∈ xs, (τ.node y).topLevel = (σ.node y).topLevel) :
    τ.tall i xs = σ.tall i xs := List.filter_congr fun y hy => by rw [h y hy]

theorem Alike.live {a b : Node V} (h : Alike a b) (ha : Live a) : Live b :=
  ⟨h.topLevel ▸ ha.low, h.topLevel ▸ ha.high, h.key ▸ ha.below,
    h.validStart.trans (ha.start.trans h.pValidity.symm),
    h.validEnd.trans (ha.helped.trans h.pValidity.symm),
    by rw [h.deleted, h.pValidity]; exact ha.kept⟩

theorem Alike.free {a b : Node V} (h : Alike a b) (ha : Free a) : Free b :=
  ⟨h.validEnd.trans (ha.helped.trans h.validStart.symm),
    h.deleted.trans (ha.destroyed.trans h.validStart.symm)⟩

theorem Represents.left_nodup (h : Represents σ (as ++ bs)) (i : ℕ) :
    (head :: σ.tall i as).Nodup := by
  refine List.nodup_cons.2 ⟨fun hm => ?_, (List.nodup_append.1 h.nodup).1.filter _⟩
  exact (h.proper head (List.mem_append_left bs (mem_tall.1 hm).1)).1 rfl

theorem sorted_insert {f g : Loc → ℤ} (h : ((as ++ bs).map f).Pairwise (· < ·))
    (hfg : ∀ y ∈ as ++ bs, g y = f y) (left : ∀ y ∈ as, f y < g x) (right : ∀ y ∈ bs, g x < f y) :
    ((as ++ x :: bs).map g).Pairwise (· < ·) := by
  rw [← List.map_congr_left hfg, List.map_append] at h
  obtain ⟨ha, hb, hab⟩ := List.pairwise_append.1 h
  rw [List.map_append, List.map_cons]
  refine List.pairwise_append.2 ⟨ha, List.pairwise_cons.2 ⟨?_, hb⟩, ?_⟩
  · rintro _ hm
    obtain ⟨y, hy, rfl⟩ := List.mem_map.1 hm
    rw [hfg y (List.mem_append_right as hy)]
    exact right y hy
  · rintro _ hm b hb'
    rcases List.mem_cons.1 hb' with rfl | hb'
    · obtain ⟨y, hy, rfl⟩ := List.mem_map.1 hm
      rw [hfg y (List.mem_append_left bs hy)]
      exact left y hy
    · exact hab _ hm b hb'

theorem Stage.levels (st : Stage σ τ as bs k w x l l) (h : Represents σ (as ++ bs))
    (hx : x ∉ as ++ bs) (hxh : x ≠ head) (hi : i < MAX_LEVEL) :
    Links τ i head (τ.tall i (as ++ x :: bs)) := by
  have other : ∀ {y}, y ∈ as ++ bs → y ≠ x := fun hy e => hx (e ▸ hy)
  have top : ∀ y ∈ as ++ bs, (τ.node y).topLevel = (σ.node y).topLevel :=
    fun y hy => (st.other y (other hy)).topLevel
  have ha : τ.tall i as = σ.tall i as := tall_congr i fun y hy => top y (List.mem_append_left bs hy)
  have hb : τ.tall i bs = σ.tall i bs := tall_congr i fun y hy => top y (List.mem_append_right as hy)
  have apart : ∀ y ∈ σ.tall i bs, (τ.node y).next i = (σ.node y).next i := by
    intro y hy
    have hy := (mem_tall.1 hy).1
    refine st.same y (other (List.mem_append_right as hy)) i fun _ e => ?_
    rcases Represents.pred_carried σ i as with he | hm
    · exact (h.proper y (List.mem_append_right as hy)).1 (e.trans he)
    · exact (List.nodup_append.1 h.nodup).2.2 _ (mem_tall.1 hm).1 y hy e.symm
  rw [tall_append, ha]
  by_cases hl : i < l
  · have hxb : τ.tall i (x :: bs) = x :: σ.tall i bs := by
      rw [← hb]
      exact List.filter_cons_of_pos (by rw [st.topLevel]; exact decide_eq_true hl)
    rw [hxb]
    refine (h.level hi).replace ⟨st.linked i hl, ?_⟩ (h.left_nodup i) fun y hy hne => ?_
    · exact (h.level hi).after.relink (st.next i hl) apart
    · refine st.same y ?_ i fun _ => hne
      rcases List.mem_cons.1 hy with rfl | hy
      · exact hxh.symm
      · exact other (List.mem_append_left bs (mem_tall.1 hy).1)
  · have hxb : τ.tall i (x :: bs) = σ.tall i bs := by
      rw [← hb]
      exact List.filter_cons_of_neg (by rw [st.topLevel]; exact fun h => hl (of_decide_eq_true h))
    rw [hxb]
    refine (h.level hi).congr fun y hy => st.same y ?_ i fun h => absurd h hl
    rcases List.mem_cons.1 hy with rfl | hy
    · exact hxh.symm
    · rw [← tall_append] at hy
      exact other (mem_tall.1 hy).1

theorem Represents.fresh (h : Represents σ xs) (ha : σ.avail x = true) :
    x ∉ xs ∧ x ≠ head ∧ x ≠ tail := by
  have taken : ∀ {P : Prop}, (P → x ∈ xs ∨ x = head ∨ x = tail) → ¬ P := fun hP p => by
    rw [h.taken x (hP p)] at ha
    cases ha
  exact ⟨taken Or.inl, taken fun e => Or.inr (Or.inl e), taken fun e => Or.inr (Or.inr e)⟩

theorem mem_insert_middle {y : Loc} : y ∈ as ++ x :: bs ↔ y = x ∨ y ∈ as ++ bs := by
  simp only [List.mem_append, List.mem_cons]
  tauto

theorem Stage.represents (st : Stage σ τ as bs k w x l l) (h : Represents σ (as ++ bs))
    (hc : Cut σ k as bs) (hk : ∀ y ∈ bs, (σ.node y).key ≠ k) (hlt : k < INTPTR_MAX)
    (hl : 1 ≤ l) (hm : l ≤ MAX_LEVEL) (ha : σ.avail x = true) :
    Represents τ (as ++ x :: bs) := by
  obtain ⟨hx, hxh, hxt⟩ := h.fresh ha
  have other : ∀ {y}, y ∈ as ++ bs → y ≠ x := fun hy e => hx (e ▸ hy)
  have tailNe : ∀ j, tail ≠ σ.pred j as := by
    intro j e
    rcases Represents.pred_carried σ j as with he | hm
    · exact absurd (e.trans he) (by decide)
    · exact (h.proper tail (List.mem_append_left bs (e ▸ (mem_tall.1 hm).1))).2 rfl
  have avail : ∀ y, τ.avail y = if y = x then false else σ.avail y := by
    intro y
    rw [st.avail]
    exact Function.update_apply _ _ _ _
  exact {
    sorted := by
      refine sorted_insert h.sorted (fun y hy => (st.other y (other hy)).key) ?_ ?_
      · intro y hy
        rw [st.key]
        exact hc.left y hy
      · intro y hy
        rw [st.key]
        exact (hc.right y hy).lt_of_ne fun e => hk y hy e.symm
    proper := fun y hy => by
      rcases mem_insert_middle.1 hy with rfl | hy
      · exact ⟨hxh, hxt⟩
      · exact h.proper y hy
    live := fun y hy => by
      rcases mem_insert_middle.1 hy with rfl | hy
      · exact ⟨st.topLevel ▸ hl, st.topLevel ▸ hm, st.key ▸ hlt, st.start, st.helped, st.kept⟩
      · exact (st.other y (other hy)).live (h.live y hy)
    levels := fun i hi => st.levels h hx hxh hi
    taken := fun y hy => by
      rw [avail]
      split
      · rfl
      · next hne =>
        refine h.taken y (hy.imp_left fun hy => ?_)
        exact (mem_insert_middle.1 hy).resolve_left hne
    free := fun y hy h1 h2 => by
      have hne : y ≠ x := fun e => hy (mem_insert_middle.2 (Or.inl e))
      obtain ⟨hav, hf⟩ := h.free y (fun hm => hy (mem_insert_middle.2 (Or.inr hm))) h1 h2
      rw [avail, if_neg hne]
      exact ⟨hav, (st.other y hne).free hf⟩
    tail_next := fun j => (st.same tail hxt.symm j fun _ => tailNe j).trans (h.tail_next j)
    tail_key := (st.other tail hxt.symm).key.trans h.tail_key }

structure Marked (σ τ : Store V) (bs : List Loc) (b : Loc) (i : ℕ) : Prop where
  other : ∀ y ≠ b, τ.node y = σ.node y
  avail : τ.avail = σ.avail
  alike : Alike (σ.node b) (τ.node b)
  low : ∀ j < i, (τ.node b).next j = (σ.node b).next j
  high : ∀ j, i ≤ j → j < (σ.node b).topLevel →
    (τ.node b).next j = Ptr.addr (σ.succ j bs) .deleted

theorem Represents.own_next {b : Loc} (h : Represents σ (as ++ b :: bs))
    (hi : i < (σ.node b).topLevel) :
    σ.tall i (b :: bs) = b :: σ.tall i bs ∧
      (σ.node b).next i = Ptr.addr (σ.succ i bs) .inserted := by
  have hb : σ.tall i (b :: bs) = b :: σ.tall i bs :=
    List.filter_cons_of_pos (decide_eq_true hi)
  have hm := (h.live b (List.mem_append_right as List.mem_cons_self)).high
  have hl := h.level (hi.trans_le hm)
  rw [hb] at hl
  exact ⟨hb, hl.after.2.next⟩

theorem markUpper_moves (op : SetOp V) {b : Loc} (h : Represents σ (as ++ b :: bs))
    (hi : i < (σ.node b).topLevel) (m : Marked σ τ bs b (i + 1)) : ∃ υ, Marked σ υ bs b 1 ∧
      Relation.ReflTransGen (Moves op) (τ, mark b i) (υ, .stateTest .mark b) := by
  induction i generalizing τ with
  | zero => exact ⟨τ, m, .refl⟩
  | succ i ih =>
    have own : (τ.node b).next (i + 1) = Ptr.addr (σ.succ (i + 1) bs) .inserted :=
      (m.low (i + 1) (Nat.lt_succ_self _)).trans (h.own_next hi).2
    let α := τ.setNext b (i + 1) (Ptr.addr (σ.succ (i + 1) bs) .deleted)
    have high : ∀ j, i + 1 ≤ j → j < (σ.node b).topLevel →
        (α.node b).next j = Ptr.addr (σ.succ j bs) .deleted := by
      intro j h1 h2
      rw [next_setNext]
      split
      · next he => rw [he.2]
      · next he =>
        have hne : j ≠ i + 1 := fun e => he ⟨rfl, e⟩
        exact m.high j (by omega) h2
    have m' : Marked σ α bs b (i + 1) :=
      ⟨fun y hy => (node_setNext_other τ _ _ hy).trans (m.other y hy), m.avail,
        m.alike.trans (alike_setNext τ b _ _ b),
        fun j hj => (next_setNext_other τ _ fun e => absurd (Prod.mk.inj e).2 hj.ne).trans
          (m.low j (by omega)), high⟩
    obtain ⟨υ, mu, hw⟩ := ih (by omega) m'
    refine ⟨υ, mu, .head (b := (τ, .markCas b (i + 1) ((τ.node b).next (i + 1)))) (fun _ _ => ?_)
      (.head (b := (α, mark b i)) (fun _ _ => ?_) hw)⟩
    · have hd : ¬ ((τ.node b).next (i + 1)).getState = .deleted := by
        rw [own]
        exact nofun
      exact if_neg hd
    · simp only [next]
      rw [own]
      exact if_pos rfl

structure Condemned (σ τ : Store V) (bs : List Loc) (b : Loc) : Prop where
  other : ∀ y ≠ b, τ.node y = σ.node y
  avail : τ.avail = σ.avail
  data : SameData (σ.node b) (τ.node b)
  free : Free (τ.node b)
  next : ∀ j < (σ.node b).topLevel, (τ.node b).next j = Ptr.addr (σ.succ j bs) .deleted

theorem condemn_moves (op : SetOp V) {b : Loc} (h : Represents σ (as ++ b :: bs))
    (m : Marked σ τ bs b 1) : ∃ υ, Condemned σ υ bs b ∧ Relation.ReflTransGen (Moves op) (τ, .stateTest .mark b)
      (υ, (FindCtx.inRemove b).retry) := by
  have hlive := h.live b (List.mem_append_right as List.mem_cons_self)
  have zero : (τ.node b).next 0 = Ptr.addr (σ.succ 0 bs) .inserted :=
    (m.low 0 one_pos).trans (h.own_next hlive.low).2
  let α := τ.setNext b 0 (Ptr.addr (σ.succ 0 bs) .intendToDelete)
  let β := (α.write b { α.node b with deleted := (α.node b).pValidity }).flush b
  have hα : Alike (σ.node b) (α.node b) := m.alike.trans (alike_setNext τ b 0 _ b)
  have hβ : β.node b = { α.node b with deleted := (α.node b).pValidity } := by
    rw [node_flush, node_write_self]
  have own : (β.node b).next 0 = Ptr.addr (σ.succ 0 bs) .intendToDelete := by
    rw [hβ]
    exact next_setNext_self τ b 0 _
  have hγ := alike_setNext β b 0 (Ptr.addr (σ.succ 0 bs) .deleted) b
  rw [hβ] at hγ
  refine ⟨β.setNext b 0 (Ptr.addr (σ.succ 0 bs) .deleted), ?_, ?_⟩
  · refine ⟨fun y hy => ?_, m.avail, ?_, ?_, fun j hj => ?_⟩
    · rw [node_setNext_other β 0 _ hy, node_flush, node_write_other _ _ hy,
        node_setNext_other τ 0 _ hy, m.other y hy]
    · exact ⟨hγ.key.trans hα.key, hγ.value.trans hα.value, hγ.pValidity.trans hα.pValidity,
        hγ.topLevel.trans hα.topLevel⟩
    · refine ⟨?_, ?_⟩
      · rw [hγ.validEnd, hγ.validStart]
        exact hα.validEnd.trans (hlive.helped.trans (hlive.start.symm.trans hα.validStart.symm))
      · rw [hγ.deleted, hγ.validStart]
        exact hα.pValidity.trans (hlive.start.symm.trans hα.validStart.symm)
    · rw [next_setNext]
      split
      · next he => rw [he.2]
      · next he =>
        have hne : j ≠ 0 := fun e => he ⟨rfl, e⟩
        rw [hβ]
        refine (next_setNext_other τ _ fun e => hne (Prod.mk.inj e).2).trans ?_
        exact m.high j (Nat.one_le_iff_ne_zero.2 hne) hj
  · have mark := stateCas_moves op (u := .mark) zero
    have delete := stateCas_moves op (u := .delete true) own
    exact mark.trans (.head (fun _ _ => rfl) (.head (fun _ _ => rfl) delete))

structure Cutoff (σ τ υ : Store V) (as bs : List Loc) (b : Loc) (i : ℕ) : Prop where
  alike : ∀ y, Alike (τ.node y) (υ.node y)
  avail : υ.avail = τ.avail
  cut : ∀ j, i ≤ j → j < (σ.node b).topLevel →
    (υ.node (σ.pred j as)).next j = Ptr.addr (σ.succ j bs) .inserted
  same : ∀ y j, (i ≤ j → j < (σ.node b).topLevel → y ≠ σ.pred j as) →
    (υ.node y).next j = (τ.node y).next j

theorem walk_find (fuel : ℕ) (h : Links σ i p (vs ++ ws))
    (same : ∀ v ∈ vs, (τ.node v).next i = (σ.node v).next i)
    (hv : ∀ v ∈ vs, (τ.node v).key < k) :
    findLevel τ k i (fuel + vs.length) p .inserted ((vs ++ ws).headD tail)
        ((vs ++ ws).headD tail) =
      findLevel τ k i fuel (vs.getLastD p) .inserted (ws.headD tail) (ws.headD tail) := by
  induction vs generalizing p with
  | nil => rfl
  | cons v vs ih =>
    have hn := (same v List.mem_cons_self).trans h.2.next
    have hlt := hv v List.mem_cons_self
    have step : findLevel τ k i (fuel + (v :: vs).length) p .inserted v v =
        findLevel τ k i (fuel + vs.length) v .inserted ((vs ++ ws).headD tail)
          ((vs ++ ws).headD tail) := by
      simp only [List.length_cons, ← Nat.add_assoc, findLevel, hn, if_neg (not_le.2 hlt)]
      rfl
    rw [List.getLastD_cons]
    exact step.trans (ih h.2 (fun w hw => same w (List.mem_cons_of_mem v hw))
      fun w hw => hv w (List.mem_cons_of_mem v hw))

theorem Condemned.key {b : Loc} (m : Condemned σ τ bs b) (y : Loc) :
    (τ.node y).key = (σ.node y).key := by
  by_cases hy : y = b
  · rw [hy, m.data.key]
  · rw [m.other y hy]

theorem stop_find (fuel : ℕ) {b : Loc} (h : Represents σ (as ++ b :: bs))
    (hc : Cut σ k as (b :: bs)) (hk : k < INTPTR_MAX) (m : Condemned σ τ bs b) (hi : i < MAX_LEVEL)
    (key : ∀ y, (υ.node y).key = (τ.node y).key)
    (same : ∀ y, (υ.node y).next i = (τ.node y).next i) : σ.succ i bs ≠ b ∧
      findLevel υ k i (fuel + 1) p .inserted d (σ.succ i bs) =
        some (d, ⟨p, σ.succ i bs, .inserted⟩, .inserted) := by
  have hne : σ.succ i bs ≠ b := by
    intro e
    rcases headD_cases (σ.tall i bs) with he | hm
    · have ht := h.proper b (List.mem_append_right as List.mem_cons_self)
      exact ht.2 (e.symm.trans he)
    · have hb := (List.nodup_append.1 h.nodup).2.1
      exact (List.nodup_cons.1 hb).1 (e ▸ (mem_tall.1 hm).1)
  have h' : Represents σ ((as ++ [b]) ++ bs) := by
    rw [List.append_assoc]
    exact h
  have state : ((υ.node (σ.succ i bs)).next i).getState = .inserted := by
    rw [same, m.other _ hne]
    exact h'.succ_state hi
  have hle : k ≤ (υ.node (σ.succ i bs)).key := by
    rw [key, m.key]
    rcases headD_cases (σ.tall i bs) with he | hm
    · unfold Store.succ
      rw [he, h.tail_key]
      exact hk.le
    · exact hc.right _ (List.mem_cons_of_mem b (mem_tall.1 hm).1)
  refine ⟨hne, ?_⟩
  simp only [findLevel, state, if_pos hle]
  rfl

theorem find_cutoff {b : Loc} (h : Represents σ (as ++ b :: bs)) (hc : Cut σ k as (b :: bs))
    (hk : k < INTPTR_MAX) (m : Condemned σ τ bs b) (hi : i < MAX_LEVEL)
    (u : Cutoff σ τ υ as bs b (i + 1)) (hx : x = head ∨ x ∈ σ.tall i as)
    (hf : as.length + 2 ≤ fuel) (path : Answer) : ∃ υ', Cutoff σ τ υ' as bs b i ∧
      findLevels k fuel (i + 1) υ x path = findLevels k fuel i υ' (σ.pred i as)
        ((⟨σ.pred i as, σ.succ i bs, .inserted⟩, .inserted) :: path) := by
  obtain ⟨vs, hl, hlast, hsub⟩ := h.walk hi hx
  have hlen := hsub.length_le.trans (List.length_filter_le _ _)
  obtain ⟨fuel, rfl⟩ := Nat.exists_eq_add_of_le' (show vs.length + 2 ≤ fuel by omega)
  have key : ∀ y, (υ.node y).key = (τ.node y).key := fun y => (u.alike y).key
  have same : ∀ y, (υ.node y).next i = (τ.node y).next i :=
    fun y => u.same y i fun h1 => absurd h1 (by omega)
  have notLeft : ∀ y, y = head ∨ y ∈ as → y ≠ b := by
    rintro y hy rfl
    rcases hy with rfl | hy
    · exact (h.proper head (List.mem_append_right as List.mem_cons_self)).1 rfl
    · exact (List.nodup_append.1 h.nodup).2.2 _ hy _ List.mem_cons_self rfl
  have there : ∀ y, y = head ∨ y ∈ as → (υ.node y).next i = (σ.node y).next i :=
    fun y hy => (same y).trans (by rw [m.other y (notLeft y hy)])
  have hvs : ∀ v ∈ vs, v ∈ as := fun v hv => (mem_tall.1 (hsub.subset hv)).1
  have walk := walk_find (fuel + 2) (k := k) (τ := υ) hl
    (fun v hv => there v (Or.inr (hvs v hv))) fun v hv => by
      rw [key, m.key]
      exact hc.left v (hvs v hv)
  rw [hlast] at walk
  have start := (there x (hx.imp_right fun hm => (mem_tall.1 hm).1)).trans hl.next
  have enter : findLevels k (fuel + 2 + vs.length) (i + 1) υ x path =
      (findLevel υ k i (fuel + 2 + vs.length) x .inserted ((vs ++ σ.tall i (b :: bs)).headD tail)
          ((vs ++ σ.tall i (b :: bs)).headD tail)).bind fun r =>
        if r.1 = r.2.1.succ then
          findLevels k (fuel + 2 + vs.length) i υ r.2.1.pred (r.2 :: path)
        else if (υ.node r.2.1.pred).next i = Ptr.addr r.1 r.2.1.predState then
          findLevels k (fuel + 2 + vs.length) i
            (υ.setNext r.2.1.pred i (Ptr.addr r.2.1.succ r.2.1.predState)) r.2.1.pred (r.2 :: path)
        else some (υ, none) := by
    simp only [findLevels, start]
    rfl
  rw [show fuel + (vs.length + 2) = fuel + 2 + vs.length by omega, enter, walk]
  by_cases ht : i < (σ.node b).topLevel
  · obtain ⟨hb, _⟩ := h.own_next ht
    obtain ⟨hne, stop⟩ := stop_find fuel (p := σ.pred i as) (d := b) h hc hk m hi key same
    have own : (υ.node b).next i = Ptr.addr (σ.succ i bs) .deleted := (same b).trans (m.next i ht)
    have skip : findLevel υ k i (fuel + 2) (σ.pred i as) .inserted b b =
        findLevel υ k i (fuel + 1) (σ.pred i as) .inserted b (σ.succ i bs) := by
      rw [findLevel]
      simp only [own]
      rfl
    have cas : (υ.node (σ.pred i as)).next i = Ptr.addr b .inserted := by
      rw [there _ ((Represents.pred_carried σ i as).imp_right fun hm => (mem_tall.1 hm).1)]
      have := h.pred_next hi
      unfold Store.succ at this
      rw [this, hb]
      rfl
    refine ⟨υ.setNext (σ.pred i as) i (Ptr.addr (σ.succ i bs) .inserted), ?_, ?_⟩
    · refine ⟨fun y => (u.alike y).trans (alike_setNext υ _ i _ y), u.avail, fun j h1 h2 => ?_,
        fun y j hj => ?_⟩
      · rw [next_setNext]
        split
        · next he => rw [he.2]
        · next he =>
          refine u.cut j (Nat.lt_of_le_of_ne h1 ?_) h2
          rintro rfl
          exact he ⟨rfl, rfl⟩
      · have hne : (y, j) ≠ (σ.pred i as, i) := by
          intro e
          obtain ⟨rfl, rfl⟩ := Prod.mk.inj e
          exact hj le_rfl ht rfl
        exact (next_setNext_other υ _ hne).trans (u.same y j fun h1 => hj (by omega))
    · rw [hb, List.headD_cons, skip, stop]
      exact (if_neg hne.symm).trans (if_pos cas)
  · have hb : σ.tall i (b :: bs) = σ.tall i bs :=
      List.filter_cons_of_neg fun h => ht (of_decide_eq_true h)
    obtain ⟨_, stop⟩ := stop_find (fuel + 1) (p := σ.pred i as) (d := σ.succ i bs) h hc hk m hi
      key same
    refine ⟨υ, ⟨u.alike, u.avail, fun j h1 h2 => u.cut j ?_ h2, fun y j hj => u.same y j
      fun h1 => hj (by omega)⟩, ?_⟩
    · refine Nat.lt_of_le_of_ne h1 ?_
      rintro rfl
      exact ht h2
    · rw [hb]
      change (findLevel υ k i (fuel + 2) (σ.pred i as) .inserted (σ.succ i bs)
        (σ.succ i bs)).bind _ = _
      rw [stop]
      exact if_pos rfl

theorem find_levels {b : Loc} (h : Represents σ (as ++ b :: bs)) (hc : Cut σ k as (b :: bs))
    (hk : k < INTPTR_MAX) (m : Condemned σ τ bs b) (hi : i ≤ MAX_LEVEL)
    (u : Cutoff σ τ υ as bs b i) (hx : ∀ j, i = j + 1 → x = head ∨ x ∈ σ.tall j as)
    (hf : as.length + 2 ≤ fuel) (path : Answer) : ∃ υ' r, Cutoff σ τ υ' as bs b 0 ∧
      findLevels k fuel i υ x path = some (υ', some r) := by
  induction i generalizing υ x path with
  | zero => exact ⟨υ, path, u, rfl⟩
  | succ i ih =>
    obtain ⟨υ1, u1, h1⟩ := find_cutoff h hc hk m hi u (hx i rfl) hf path
    have down : ∀ j, i = j + 1 → σ.pred i as = head ∨ σ.pred i as ∈ σ.tall j as := by
      rintro j rfl
      exact (Represents.pred_carried σ _ as).imp_right tall_down
    obtain ⟨υ2, r, u2, h2⟩ := ih (by omega) u1 down
      ((⟨σ.pred i as, σ.succ i bs, .inserted⟩, .inserted) :: path)
    exact ⟨υ2, r, u2, h1.trans h2⟩

theorem unlink_moves (op : SetOp V) {b : Loc} (h : Represents σ (as ++ b :: bs))
    (hc : Cut σ op.key as (b :: bs)) (hk : op.key < INTPTR_MAX) (hr : op.IsRemove) (m : Condemned σ τ bs b) : ∃ υ,
      Cutoff σ τ υ as bs b 0 ∧ Relation.ReflTransGen (Moves op) (τ, (FindCtx.inRemove b).retry)
        (υ.give b, .ret true) := by
  have none : Cutoff σ τ τ as bs b MAX_LEVEL := by
    refine ⟨fun y => Alike.refl _, rfl, fun j h1 h2 => ?_, fun y j _ => rfl⟩
    have := (h.live b (List.mem_append_right as List.mem_cons_self)).high
    omega
  obtain ⟨υ, r, u, hfind⟩ := find_levels (x := head) h hc hk m le_rfl none
    (fun _ _ => Or.inl rfl) le_rfl []
  have hfind : find op.key (as.length + 2 + 1) τ = some (υ, foundAt υ op.key r, r) := by
    rw [find, hfind]
    rfl
  refine ⟨υ, u, (find_moves (u := .inRemove b) hr hfind).trans ?_⟩
  exact .head (fun _ _ => rfl) .refl

theorem Cutoff.levels {b : Loc} (u : Cutoff σ τ υ as bs b 0) (m : Condemned σ τ bs b)
    (h : Represents σ (as ++ b :: bs)) (hi : i < MAX_LEVEL) :
    Links υ i head (υ.tall i (as ++ bs)) := by
  have apart : ∀ {y}, y ∈ as ++ bs → y ≠ b := by
    rintro y hy rfl
    exact (List.nodup_cons.1 (List.nodup_middle.1 h.nodup)).1 hy
  have hbh : head ≠ b := fun e =>
    (h.proper b (List.mem_append_right as List.mem_cons_self)).1 e.symm
  have top : ∀ y ∈ as ++ bs, (υ.node y).topLevel = (σ.node y).topLevel :=
    fun y hy => (u.alike y).topLevel.trans (by rw [m.other y (apart hy)])
  have ha : υ.tall i as = σ.tall i as := tall_congr i fun y hy => top y (List.mem_append_left bs hy)
  have hb : υ.tall i bs = σ.tall i bs := tall_congr i fun y hy => top y (List.mem_append_right as hy)
  have same : ∀ y, y = head ∨ y ∈ as ++ bs → (i < (σ.node b).topLevel → y ≠ σ.pred i as) →
      (υ.node y).next i = (σ.node y).next i := by
    intro y hy hp
    refine (u.same y i fun _ => hp).trans ?_
    rcases hy with rfl | hy
    · rw [m.other _ hbh]
    · rw [m.other y (apart hy)]
  have right : ∀ y ∈ bs, y ≠ σ.pred i as := by
    rintro y hy rfl
    rcases Represents.pred_carried σ i as with he | hm
    · exact (h.proper _ (List.mem_append_right as (List.mem_cons_of_mem b hy))).1 he
    · exact (List.nodup_append.1 h.nodup).2.2 _ (mem_tall.1 hm).1 _ (List.mem_cons_of_mem b hy) rfl
  have hl := h.level hi
  rw [tall_append, ha, hb]
  by_cases ht : i < (σ.node b).topLevel
  · rw [(h.own_next ht).1] at hl
    refine hl.replace ?_ (h.left_nodup i) fun y hy hne => same y ?_ fun _ => hne
    · refine hl.after.2.relink (u.cut i (Nat.zero_le i) ht) fun y hy => ?_
      have hy := (mem_tall.1 hy).1
      exact same y (Or.inr (List.mem_append_right as hy)) fun _ => right y hy
    · exact (List.mem_cons.1 hy).imp_right fun hm => List.mem_append_left bs (mem_tall.1 hm).1
  · rw [show σ.tall i (b :: bs) = σ.tall i bs from
      List.filter_cons_of_neg fun h => ht (of_decide_eq_true h)] at hl
    refine hl.congr fun y hy => same y ?_ fun h => absurd h ht
    rw [← tall_append] at hy
    exact (List.mem_cons.1 hy).imp_right fun hm => (mem_tall.1 hm).1

theorem Cutoff.alike_of_ne {b : Loc} (u : Cutoff σ τ υ as bs b 0) (m : Condemned σ τ bs b)
    (hy : y ≠ b) : Alike (σ.node y) (υ.node y) := m.other y hy ▸ u.alike y

theorem Cutoff.represents {b : Loc} (u : Cutoff σ τ υ as bs b 0) (m : Condemned σ τ bs b)
    (h : Represents σ (as ++ b :: bs)) : Represents (υ.give b) (as ++ bs) := by
  have hb := h.proper b (List.mem_append_right as List.mem_cons_self)
  have apart : ∀ {y}, y ∈ as ++ bs → y ≠ b := by
    rintro y hy rfl
    exact (List.nodup_cons.1 (List.nodup_middle.1 h.nodup)).1 hy
  have old : ∀ {y}, y ∈ as ++ bs → y ∈ as ++ b :: bs := fun hy => mem_insert_middle.2 (Or.inr hy)
  have alike : ∀ y ≠ b, Alike (σ.node y) (υ.node y) := fun _ hy => u.alike_of_ne m hy
  have avail : ∀ y, (υ.give b).avail y = if y = b then true else σ.avail y := by
    intro y
    rw [← m.avail, ← u.avail]
    exact Function.update_apply _ _ _ _
  have tailNe : ∀ j, tail ≠ σ.pred j as := by
    intro j e
    rcases Represents.pred_carried σ j as with he | hm
    · exact absurd (e.trans he) (by decide)
    · exact (h.proper tail (List.mem_append_left _ (e ▸ (mem_tall.1 hm).1))).2 rfl
  exact {
    sorted := by
      have hs := h.sorted.sublist (((List.sublist_cons_self b bs).append_left as).map _)
      rwa [← List.map_congr_left fun y hy => (alike y (apart hy)).key] at hs
    proper := fun y hy => h.proper y (old hy)
    live := fun y hy => (alike y (apart hy)).live (h.live y (old hy))
    levels := fun i hi => (u.levels m h hi).congr fun _ _ => rfl
    taken := fun y hy => by
      have hne : y ≠ b := by
        rintro rfl
        rcases hy with hy | hy | hy
        · exact apart hy rfl
        · exact hb.1 hy
        · exact hb.2 hy
      rw [avail, if_neg hne]
      exact h.taken y (hy.imp_left old)
    free := fun y hy h1 h2 => by
      rw [avail]
      split
      · next he => exact ⟨rfl, he ▸ (u.alike b).free m.free⟩
      · next hne =>
        obtain ⟨hav, hf⟩ := h.free y (fun hm => (mem_insert_middle.1 hm).elim hne hy) h1 h2
        exact ⟨hav, (alike y hne).free hf⟩
    tail_next := fun j => (u.same tail j fun _ _ => tailNe j).trans
      ((m.other tail hb.2.symm) ▸ h.tail_next j)
    tail_key := (alike tail hb.2.symm).key.trans h.tail_key }

-- what a call that returns r does to the nodes that are in the set
def Turns (σ τ : Store V) (xs ys : List Loc) : SetOp V → Bool → Prop
  | .insert k w, true => (∀ x ∈ xs, (σ.node x).key ≠ k) ∧ ∃ as bs x, xs = as ++ bs ∧
      ys = as ++ x :: bs ∧ x ∉ xs ∧ (τ.node x).key = k ∧ (τ.node x).value = w ∧
      (τ.node x).validStart = !(σ.node x).validStart
  | .insert k _, false => ys = xs ∧ ∃ x ∈ xs, (σ.node x).key = k
  | .remove k, true => ∃ as bs x, xs = as ++ x :: bs ∧ ys = as ++ bs ∧ (σ.node x).key = k
  | .remove k, false => ys = xs ∧ ∀ x ∈ xs, (σ.node x).key ≠ k
  | .contains k, r => ys = xs ∧ (r = true ↔ ∃ x ∈ xs, (σ.node x).key = k)

-- of the nodes that stay in the set only the pointers are written
def Keeps (σ τ : Store V) (xs ys : List Loc) : Prop :=
  ∀ x ∈ xs, x ∈ ys → Alike (σ.node x) (τ.node x)

theorem Keeps.refl (σ : Store V) (xs ys : List Loc) : Keeps σ σ xs ys :=
  fun _ _ _ => Alike.refl _

-- the point of a call from which it comes to its return with the store and the nodes in order
def Done (σ : Store V) (xs : List Loc) (op : SetOp V) (b : Store V × Pc) : Prop :=
  ∃ τ ys r, Turns σ τ xs ys op r ∧ Keeps σ τ xs ys ∧ Represents τ ys ∧
    Relation.ReflTransGen (Moves op) b (τ, .ret r)

theorem Done.of_moves {b c : Store V × Pc} (h : Done σ xs op c)
    (hw : Relation.ReflTransGen (Moves op) b c) : Done σ xs op b := by
  obtain ⟨τ, ys, r, ht, hkeep, hr, hw'⟩ := h
  exact ⟨τ, ys, r, ht, hkeep, hr, hw.trans hw'⟩

theorem Cut.absent (hc : Cut σ k as bs) (h : ∀ x ∈ bs, (σ.node x).key ≠ k) :
    ∀ x ∈ as ++ bs, (σ.node x).key ≠ k := by
  intro x hx
  rcases List.mem_append.1 hx with hx | hx
  · exact (hc.left x hx).ne
  · exact h x hx

theorem done_contains (h : Represents σ (as ++ bs)) (hc : Cut σ k as bs)
    (hk : k < INTPTR_MAX) : Done σ (as ++ bs) (.contains k) (σ, start (V := V) (.contains k)) := by
  obtain ⟨r, hr, hw⟩ := contains_moves (.contains k) (i := MAX_LEVEL - 1) (x := head) h hc hk
    (by decide) (Or.inl rfl)
  refine ⟨σ, as ++ bs, r, ⟨rfl, hr.trans ?_⟩, Keeps.refl _ _ _, h, hw⟩
  constructor
  · rintro ⟨x, hx, he⟩
    exact ⟨x, List.mem_append_right as hx, he⟩
  · rintro ⟨x, hx, he⟩
    refine ⟨x, (List.mem_append.1 hx).resolve_left fun hx => ?_, he⟩
    exact (hc.left x hx).ne he

theorem done_remove (h : Represents σ (as ++ bs)) (hc : Cut σ k as bs)
    (hk : k < INTPTR_MAX) : Done σ (as ++ bs) (.remove k) (σ, start (V := V) (.remove k)) := by
  obtain ⟨rest, _, hw⟩ := search_moves (.remove k) h hc hk
  refine Done.of_moves ?_ hw
  by_cases he : (σ.node (σ.succ 0 bs)).key = k
  · obtain ⟨b, ws, rfl⟩ : ∃ b ws, bs = b :: ws := by
      cases bs with
      | nil =>
        obtain ⟨x, hx, _⟩ := (h.found_iff hc hk).1 he
        cases hx
      | cons b ws => exact ⟨b, ws, rfl⟩
    have hb : σ.succ 0 (b :: ws) = b := by
      unfold Store.succ
      rw [h.tall_zero]
      rfl
    rw [hb] at he
    have hl := h.live b (List.mem_append_right as List.mem_cons_self)
    have whole : Marked σ σ ws b ((σ.node b).topLevel - 1 + 1) :=
      ⟨fun _ _ => rfl, rfl, Alike.refl _, fun _ _ => rfl, fun j h1 h2 => by omega⟩
    obtain ⟨τ, m, h1⟩ := markUpper_moves (.remove k) (i := (σ.node b).topLevel - 1) h
      (by have := hl.low; omega) whole
    obtain ⟨υ, u, h2⟩ := condemn_moves (.remove k) h m
    obtain ⟨ρ, v, h3⟩ := unlink_moves (.remove k) h hc hk trivial u
    refine ⟨ρ.give b, as ++ ws, true, ⟨as, ws, b, rfl, rfl, he⟩, fun y _ hy => ?_,
      v.represents u h, ?_⟩
    · refine v.alike_of_ne u ?_
      rintro rfl
      exact (List.nodup_cons.1 (List.nodup_middle.1 h.nodup)).1 hy
    have found : afterSearch σ (.remove k) (σ.entry as (b :: ws) 0) .inserted
        (shown (V := V) (.remove k) rest) = mark b ((σ.node b).topLevel - 1) := by
      simp only [afterSearch, Store.entry, hb, he]
      exact (if_neg (not_not.2 rfl)).trans (if_neg (by rintro ⟨⟩))
    rw [found]
    exact h1.trans (h2.trans h3)
  · refine ⟨σ, as ++ bs, false, ⟨rfl, hc.absent fun x hx hx' => he ?_⟩, Keeps.refl _ _ _, h, ?_⟩
    · exact (h.found_iff hc hk).2 ⟨x, hx, hx'⟩
    · rw [afterSearch, if_pos (show (σ.node (σ.entry as bs 0).succ).key ≠ k from he)]

def Store.entries (σ : Store V) (as bs : List Loc) : Path :=
  (List.range MAX_LEVEL).map (σ.entry as bs)

theorem entries_get (σ : Store V) (as bs : List Loc) (hj : j < MAX_LEVEL) :
    (σ.entries as bs)[j]? = some (σ.entry as bs j) := by
  simp [Store.entries, hj]

theorem insert_found (h : Represents σ (as ++ bs)) (hc : Cut σ k as bs) (hk : k < INTPTR_MAX)
    (w : V) : Done σ (as ++ bs) (.insert k w) (σ, start (.insert k w)) ∨
      ((∀ x ∈ bs, (σ.node x).key ≠ k) ∧ Relation.ReflTransGen (Moves (.insert k w))
        (σ, start (.insert k w)) (σ, .alloc (σ.entries as bs))) := by
  obtain ⟨rest, hr, hw⟩ := search_moves (.insert k w) h hc hk
  have hw : Relation.ReflTransGen (Moves (.insert k w)) (σ, start (.insert k w)) _ := hw
  by_cases he : (σ.node (σ.succ 0 bs)).key = k
  · obtain ⟨x, hx, hkx⟩ := (h.found_iff hc hk).1 he
    refine Or.inl ⟨σ, as ++ bs, false, ⟨rfl, x, List.mem_append_right as hx, hkx⟩,
      Keeps.refl _ _ _, h, ?_⟩
    rwa [afterSearch, if_pos (show (σ.node (σ.entry as bs 0).succ).key = k from he),
      if_pos (by rintro ⟨⟩)] at hw
  · refine Or.inr ⟨fun x hx hkx => he ((h.found_iff hc hk).2 ⟨x, hx, hkx⟩), ?_⟩
    rw [afterSearch, if_neg (show ¬ (σ.node (σ.entry as bs 0).succ).key = k from he)] at hw
    have path : keepPath (.insert k w) (σ.entry as bs 0) (shown (.insert k w) rest) =
        σ.entries as bs := by
      have := keepPath_shown (.insert k w) (σ.entry as bs 0, .inserted) rest
      rw [this, ← hr]
      simp [shown, Store.answer, Store.entries]
    rwa [path] at hw

theorem insert_moves (h : Represents σ (as ++ bs)) (hc : Cut σ k as bs) (hk : k < INTPTR_MAX)
    (hne : ∀ x ∈ bs, (σ.node x).key ≠ k) (ha : σ.avail x = true) (hl : 1 ≤ l)
    (hm : l ≤ MAX_LEVEL) : Done σ (as ++ bs) (.insert k w)
      (σ.take x, .allocTest (σ.entries as bs) x l) := by
  obtain ⟨hx, hxh, hxt⟩ := h.fresh ha
  have hxa : x ∉ as := fun hm => hx (List.mem_append_left bs hm)
  have hpath : ∀ j < l, (σ.entries as bs)[j]? = some (σ.entry as bs j) :=
    fun j hj => entries_get σ as bs (hj.trans_le hm)
  obtain ⟨τ, born, h1⟩ := born_moves (k := k) (w := w) (h.free x hx hxh hxt).2 hl hpath
  obtain ⟨υ, st, h2⟩ := link_moves (.insert k w) h born hxa hxh (hpath 0 hl)
  obtain ⟨ρ, st, h3⟩ := upper_moves (.insert k w) h hm le_rfl hl st hxa hxh hpath
  refine ⟨ρ, as ++ x :: bs, true, ⟨hc.absent hne, as, bs, x, rfl, rfl, hx, st.key, st.value,
    st.flipped⟩, fun y hy _ => st.other y ?_, st.represents h hc hne hk hl hm ha,
    h1.trans (h2.trans h3)⟩
  rintro rfl
  exact hx hy

def enter (t : Tid) (s : State V) (op : SetOp V) : State V :=
  s.goto s.store t (some (op, start op))

-- all the levels are what they should be, and nothing is left of the nodes that were removed
structure Exact (s : State V) (xs : List Loc) : Prop where
  idle : ∀ u, s.thread u = none
  proper : ∀ x ∈ xs, x ≠ head ∧ x ≠ tail
  heights : ∀ x ∈ xs, 1 ≤ (s.store.node x).topLevel ∧ (s.store.node x).topLevel ≤ MAX_LEVEL
  levels : ∀ i < MAX_LEVEL, (s.store.level i).Path head
    (xs.filter fun x => i < (s.store.node x).topLevel) tail
  last : ∀ i < MAX_LEVEL, (s.store.level i).succ tail = none
  sorted : ∀ i < MAX_LEVEL, ((xs.filter fun x => i < (s.store.node x).topLevel).map
    fun x => (s.store.node x).key).Pairwise (· < ·)
  inserted : ∀ x ∈ xs, ∀ i < (s.store.node x).topLevel, s.store.stateAt i x = .inserted
  valid : ∀ x ∈ xs, (s.store.node x).isValid = true
  removed : ∀ x, x ∉ xs → x ≠ head → x ≠ tail →
    (s.store.node x).validStart = (s.store.node x).validEnd ∧
      (s.store.node x).validEnd = (s.store.node x).deleted

-- thread t alone makes the calls one after the other: each returns whatever it does, and
-- between two of them everything is exact
def Maintains (t : Tid) : List (SetOp V) → List Loc → State V → Prop
  | [], xs, s => Exact s xs
  | op :: ops, xs, s => Exact s xs ∧
      Inevitable ((machine V).Tau t) ((machine V).Ends t fun r s' =>
        ∃ ys, Turns s.store s'.store xs ys op r ∧ Keeps s.store s'.store xs ys ∧
          Maintains t ops ys s') (enter t s op)

theorem Represents.exact {s : State V} (h : Represents s.store xs) (idle : ∀ u, s.thread u = none) :
    Exact s xs where
  idle := idle
  proper := h.proper
  heights x hx := ⟨(h.live x hx).low, (h.live x hx).high⟩
  levels i hi := (h.levels i hi).path
  last i _ := congrArg Ptr.ref (h.tail_next i)
  sorted i _ := h.sorted.sublist (List.filter_sublist.map _)
  inserted x hx i hi := (h.levels i (hi.trans_le (h.live x hx).high)).state x
    (List.mem_cons_of_mem head (mem_tall.2 ⟨hx, hi⟩))
  valid x hx := by
    have hl := h.live x hx
    rw [Node.isValid, hl.start, hl.helped, hl.kept]
    cases (s.store.node x).pValidity <;> rfl
  removed x hx h1 h2 := by
    have hf := (h.free x hx h1 h2).2
    exact ⟨hf.helped.symm, hf.helped.trans hf.destroyed.symm⟩

section Machine

variable {s : State V} {t : Tid} {pc pc' : Pc} {P : State V → Prop} {ops : List (SetOp V)}

theorem goto_goto (c c' : Option (SetOp V × Pc)) :
    (s.goto σ t c).goto τ t c' = s.goto τ t c' := by simp [State.goto]

theorem tau_goto {s' : State V} (hs : (machine V).Tau t (s.goto σ t (some (op, pc))) s') :
    ∃ slot level τ pc', next σ op slot level pc = some (τ, pc') ∧
      (∀ path, pc = .alloc path → σ.avail slot = true ∧ 1 ≤ level ∧ level ≤ MAX_LEVEL) ∧
      s' = s.goto τ t (some (op, pc')) := by
  have hs : Step _ (.tau t) s' := hs
  cases hs with
  | tau _ op1 pc1 pc' slot level τ h hn ha =>
    obtain ⟨rfl, rfl⟩ := Prod.mk.inj (Option.some.inj ((goto_thread_self s σ t _).symm.trans h))
    exact ⟨slot, level, τ, pc', hn, ha, goto_goto _ _⟩

theorem inevitable_of_moves {b c : Store V × Pc} (hw : Relation.ReflTransGen (Moves op) b c)
    (h : Inevitable ((machine V).Tau t) P (s.goto c.1 t (some (op, c.2)))) :
    Inevitable ((machine V).Tau t) P (s.goto b.1 t (some (op, b.2))) := by
  induction hw using Relation.ReflTransGen.head_induction_on with
  | refl => exact h
  | @head b c hb _ ih =>
    obtain ⟨τ, pc'⟩ := c
    have choose : ∀ path, b.2 ≠ .alloc path := by
      intro path he
      have h0 := hb 0 0
      have h1 := hb 1 0
      rw [he] at h0 h1
      have := (Prod.mk.inj (Option.some.inj (h0.trans h1.symm))).2
      exact absurd (Pc.allocTest.inj this).2.1 (by decide)
    refine Inevitable.later ⟨_, Step.tau t op b.2 pc' 0 0 τ (goto_thread_self _ _ _ _) (hb 0 0)
      fun path he => absurd he (choose path)⟩ fun s' hs => ?_
    obtain ⟨slot, level, τ', pc1, hn, _, rfl⟩ := tau_goto hs
    obtain ⟨rfl, rfl⟩ := Prod.mk.inj (Option.some.inj ((hb slot level).symm.trans hn))
    exact ih

theorem inevitable_of_done {b : Store V × Pc} (h : Done σ xs op b)
    (idle : ∀ u ≠ t, s.thread u = none)
    (rest : ∀ ys s', (∀ u, s'.thread u = none) → Represents s'.store ys → Maintains t ops ys s') :
    Inevitable ((machine V).Tau t) ((machine V).Ends t fun r s' =>
      ∃ ys, Turns σ s'.store xs ys op r ∧ Keeps σ s'.store xs ys ∧ Maintains t ops ys s')
        (s.goto b.1 t (some (op, b.2))) := by
  obtain ⟨τ, ys, r, ht, hkeep, hr, hw⟩ := h
  refine inevitable_of_moves hw (Inevitable.here ⟨r, _, Step.ret t op r (goto_thread_self _ _ _ _),
    ys, ht, hkeep, rest ys _ (fun u => ?_) hr⟩)
  by_cases hu : u = t
  · rw [hu]
    exact goto_thread_self _ _ _ _
  · rw [goto_thread_other _ _ _ hu, goto_thread_other _ _ _ hu]
    exact idle u hu

-- some slot is free, and the call goes on with whichever it gets and with any height
theorem inevitable_of_alloc (h : Represents σ xs)
    (hd : ∀ slot level, σ.avail slot = true → 1 ≤ level → level ≤ MAX_LEVEL →
      Inevitable ((machine V).Tau t) P
        (s.goto (σ.take slot) t (some (op, .allocTest path slot level)))) :
    Inevitable ((machine V).Tau t) P (s.goto σ t (some (op, .alloc path))) := by
  obtain ⟨x, hx⟩ := Infinite.exists_notMem_finset (head :: tail :: xs).toFinset
  simp only [List.mem_toFinset, List.mem_cons, not_or] at hx
  have ha := (h.free x hx.2.2 hx.1 hx.2.1).1
  refine Inevitable.later ⟨_, Step.tau t op _ _ x 1 _ (goto_thread_self _ _ _ _) rfl
    fun _ _ => ⟨ha, le_rfl, by decide⟩⟩ fun s' hs => ?_
  obtain ⟨slot, level, τ, pc', hn, hal, rfl⟩ := tau_goto hs
  obtain ⟨rfl, rfl⟩ := Prod.mk.inj (Option.some.inj hn)
  obtain ⟨h1, h2, h3⟩ := hal _ rfl
  exact hd slot level h1 h2 h3

theorem maintains (t : Tid) : ∀ (ops : List (SetOp V)) (xs : List Loc) (s : State V),
    (∀ op ∈ ops, op.key < INTPTR_MAX) → (∀ u, s.thread u = none) → Represents s.store xs →
      Maintains t ops xs s := by
  intro ops
  induction ops with
  | nil => exact fun xs s _ idle h => h.exact idle
  | cons op ops ih =>
    intro xs s hk idle h
    have key := hk op List.mem_cons_self
    have rest : ∀ ys s', (∀ u, s'.thread u = none) → Represents s'.store ys →
        Maintains t ops ys s' :=
      fun ys s' => ih ys s' fun o ho => hk o (List.mem_cons_of_mem op ho)
    refine ⟨h.exact idle, ?_⟩
    obtain ⟨as, bs, rfl, hc⟩ := exists_cut h.sorted op.key
    cases op with
    | contains k => exact inevitable_of_done (done_contains h hc key) (fun u _ => idle u) rest
    | remove k => exact inevitable_of_done (done_remove h hc key) (fun u _ => idle u) rest
    | insert k w =>
      rcases insert_found h hc key w with hd | ⟨hne, hw⟩
      · exact inevitable_of_done hd (fun u _ => idle u) rest
      · refine inevitable_of_moves hw (inevitable_of_alloc h fun slot level ha h1 h2 => ?_)
        exact inevitable_of_done (insert_moves h hc key hne ha h1 h2) (fun u _ => idle u) rest

end Machine

theorem initial_represents (zero : V) : Represents (initialStore zero) [] where
  sorted := List.Pairwise.nil
  proper := nofun
  live := nofun
  levels i _ := initial_next zero head i
  taken x hx := by
    rcases hx with hx | rfl | rfl
    · cases hx
    · rfl
    · rfl
  free x _ h1 h2 := by
    have hn : (initialStore zero).node x =
        ⟨0, zero, false, false, false, false, 0, fun _ => ⟨none, .inserted⟩⟩ := by
      simp only [initialStore, Store.node, if_neg h1, if_neg h2]
    refine ⟨?_, ?_⟩
    · change (!(x == head || x == tail)) = true
      simp [h1, h2]
    · rw [hn]
      exact ⟨rfl, rfl⟩
  tail_next i := initial_next zero tail i
  tail_key := rfl

theorem softSkipList_levels_exact (zero : V) (t : Tid) (ops : List (SetOp V))
    (hk : ∀ op ∈ ops, op.key < INTPTR_MAX) : Maintains t ops [] (initial zero) :=
  maintains t ops [] (initial zero) hk (fun _ => rfl) (initial_represents zero)

theorem softSkipList_levels_exact_four :
    Maintains 0 [.insert 3 7, .insert 1 8, .remove 3, .contains 1] [] (initial (0 : ℕ)) :=
  softSkipList_levels_exact 0 0 _ (by decide)

end SOFT.SkipList
