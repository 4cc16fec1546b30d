import DurableSets.SOFT.SkipListStates

namespace SOFT.SkipList

open Chain

variable {V : Type} {σ σ' : Store V} {L L' : Set Cursor} {l l' : Line (Node V)} {a : Node V}
  {x n slot : Loc} {i level : ℕ} {op : SetOp V} {pc pc' : Pc} {q : Ptr} {v : Bool}
  {s s' : State V} {t : Tid} {ρ : Run (machine V)}

def Ended (l : Line (Node V)) : Prop := l.cur.validEnd = l.cur.pValidity

def AllEnded (l : Line (Node V)) : Prop := l.All fun c => c.validEnd = l.cur.pValidity

def Removed (l : Line (Node V)) : Prop := l.cur.deleted = l.cur.pValidity

def AllRemoved (l : Line (Node V)) : Prop := l.All fun c => c.deleted = l.cur.pValidity

def Clear (l : Line (Node V)) : Prop :=
  l.All fun c => c.validEnd = l.cur.validEnd ∧ c.deleted = l.cur.validEnd

-- alloc turns its validity over
def Spare (l : Line (Node V)) : Prop := Clear l ∧ l.cur.validStart = l.cur.validEnd

def Begun (l : Line (Node V)) (v : Bool) : Prop :=
  Clear l ∧ l.cur.validEnd = (!v) ∧ l.cur.validStart = v

structure Persist (l : Line (Node V)) : Prop where
  start : l.cur.validStart = l.cur.pValidity
  whole : l.All fun c => c.validEnd = l.cur.pValidity →
    c.validStart = l.cur.pValidity ∧ c.key = l.cur.key ∧ c.value = l.cur.value
  young : (l.cur.next 0).state.age ≤ 1 → l.All fun c => c.deleted = !l.cur.pValidity
  helped : 1 ≤ (l.cur.next 0).state.age → AllEnded l
  gone : (l.cur.next 0).state = .deleted → AllRemoved l

theorem Clear.not_valid (h : Clear l) {c : Node V} (hc : c ∈ l.contents) : c.isValid = false := by
  obtain ⟨h1, h2⟩ := h c hc
  simp [Node.isValid, h1, h2]

theorem Persist.spare (h : Persist l) (hd : (l.cur.next 0).state = .deleted) : Spare l := by
  have ended := h.helped (by rw [hd]; decide)
  have hcur : l.cur.validEnd = l.cur.pValidity := ended.cur
  refine ⟨fun c hc => ⟨?_, ?_⟩, h.start.trans hcur.symm⟩
  · exact (ended c hc).trans hcur.symm
  · exact (h.gone hd c hc).trans hcur.symm

theorem Persist.valid (h : Persist l) {c : Node V} (hc : c ∈ l.contents)
    (hv : c.isValid = true) : c.key = l.cur.key ∧ c.value = l.cur.value ∧
      (l.cur.next 0).state ≠ .deleted := by
  have hne : (l.cur.next 0).state ≠ .deleted := by
    intro hd
    rw [(h.spare hd).1.not_valid hc] at hv
    cases hv
  have ended : c.validEnd = l.cur.pValidity := by
    by_contra hend
    have hage : (l.cur.next 0).state.age ≤ 1 := by
      by_contra hage
      exact hend (h.helped (by omega) c hc)
    have hdel : c.deleted = !l.cur.pValidity := h.young hage c hc
    simp only [Node.isValid, Bool.and_eq_true, bne_iff_ne, ne_eq, hdel] at hv
    exact hv.2 (by cases hb : c.validEnd <;> cases hp : l.cur.pValidity <;> simp_all)
  exact ⟨(h.whole c hc ended).2.1, (h.whole c hc ended).2.2, hne⟩

theorem Persist.inserted (h : Persist l) (hs : (l.cur.next 0).state = .inserted) {c : Node V}
    (hc : c ∈ l.contents) : c.isValid = true ∧ c.key = l.cur.key ∧ c.value = l.cur.value := by
  have ended : c.validEnd = l.cur.pValidity := h.helped (by rw [hs]; decide) c hc
  have hdel : c.deleted = !l.cur.pValidity := h.young (by rw [hs]; decide) c hc
  obtain ⟨h1, h2, h3⟩ := h.whole c hc ended
  refine ⟨?_, h2, h3⟩
  simp [Node.isValid, h1, ended, hdel]

theorem Begun.persist (h : Begun l l.cur.pValidity)
    (hs : (l.cur.next 0).state = .intendToInsert) : Persist l := by
  obtain ⟨hc, he, hv⟩ := h
  refine ⟨hv, fun c hm hend => ?_, fun _ c hm => ?_, fun hage => ?_, fun hd => ?_⟩
  · rw [(hc c hm).1, he] at hend
    exact absurd hend (by simp)
  · exact (hc c hm).2.trans he
  · rw [hs] at hage
    exact absurd hage (by decide)
  · exact absurd (hs.symm.trans hd) nofun

inductive Touch (l : Line (Node V)) : Line (Node V) → Prop
  | still : Touch l l
  | flush : Touch l l.flush
  | write (a : Node V) (data : SameData l.cur a) (start : a.validStart = l.cur.validStart)
    (ends : a.validEnd = l.cur.validEnd ∨ a.validEnd = l.cur.pValidity)
    (del : a.deleted = l.cur.deleted ∨
      (a.deleted = l.cur.pValidity ∧ 2 ≤ (a.next 0).state.age))
    (age : (l.cur.next 0).state.age ≤ (a.next 0).state.age)
    (helped : 1 ≤ (a.next 0).state.age → 1 ≤ (l.cur.next 0).state.age ∨ AllEnded l)
    (gone : (a.next 0).state = .deleted → (l.cur.next 0).state = .deleted ∨ AllRemoved l) :
    Touch l (l.write a)

namespace Touch

theorem ended (h : Touch l l') (he : Ended l) : Ended l' := by
  cases h with
  | still => exact he
  | flush => exact he
  | write a data start ends =>
    change a.validEnd = a.pValidity
    rw [data.pValidity]
    exact ends.elim (fun h => h.trans he) id

theorem allEnded (h : Touch l l') (he : AllEnded l) : AllEnded l' := by
  have hcur := h.ended he.cur
  cases h with
  | still => exact he
  | flush => exact Line.all_flush hcur
  | write a data =>
    refine Line.All.write (fun c hc => ?_) hcur
    exact (he c hc).trans data.pValidity.symm

theorem removed (h : Touch l l') (he : Removed l) : Removed l' := by
  cases h with
  | still => exact he
  | flush => exact he
  | write a data start ends del =>
    change a.deleted = a.pValidity
    rw [data.pValidity]
    exact del.elim (fun h => h.trans he) fun h => h.1

theorem allRemoved (h : Touch l l') (he : AllRemoved l) : AllRemoved l' := by
  have hcur := h.removed he.cur
  cases h with
  | still => exact he
  | flush => exact Line.all_flush hcur
  | write a data =>
    refine Line.All.write (fun c hc => ?_) hcur
    exact (he c hc).trans data.pValidity.symm

theorem persist (h : Touch l l') (p : Persist l) : Persist l' := by
  have hend := fun he => h.allEnded he
  have hrem := fun he => h.allRemoved he
  cases h with
  | still => exact p
  | flush =>
    exact ⟨p.start, Line.all_flush p.whole.cur, fun h => Line.all_flush (p.young h).cur,
      fun h => Line.all_flush (p.helped h).cur, fun h => Line.all_flush (p.gone h).cur⟩
  | write a data start ends del age helped gone =>
    have hstart : a.validStart = a.pValidity := by rw [start, p.start, data.pValidity]
    refine ⟨hstart, ?_, fun hage => ?_, fun hage => ?_, fun hd => ?_⟩
    · refine Line.All.write (fun c hc hv => ?_) fun _ => ⟨hstart, rfl, rfl⟩
      have hw := p.whole c hc (hv.trans data.pValidity)
      exact ⟨hw.1.trans data.pValidity.symm, hw.2.1.trans data.key.symm,
        hw.2.2.trans data.value.symm⟩
    · have hold := p.young (age.trans hage)
      have hsame : (!l.cur.pValidity) = !a.pValidity := by rw [data.pValidity]
      refine Line.All.write (fun c hc => (hold c hc).trans hsame) ?_
      rcases del with h | ⟨_, h⟩
      · exact h.trans (hold.cur.trans hsame)
      · have hage : (a.next 0).state.age ≤ 1 := hage
        omega
    · exact hend ((helped hage).elim p.helped id)
    · exact hrem ((gone hd).elim p.gone id)

end Touch

/-! ### What a call knows of the flags -/

def StateCtx.Knows (l : Line (Node V)) : StateCtx → Prop
  | .insert _ => AllEnded l
  | .mark => True
  | .delete _ => AllRemoved l

def Pc.Knows (σ : Store V) : Pc → Prop
  | .helpFlush _ n => Ended (σ.line n)
  | .stateTest c n => c.Knows (σ.line n)
  | .stateLoad c n => c.Knows (σ.line n)
  | .stateCas c n _ => c.Knows (σ.line n)
  | .destroyFlush _ n => Removed (σ.line n)
  | .allocTest _ n _ => Spare (σ.line n)
  | .createStart _ n _ v => Spare (σ.line n) ∧ v = !(σ.node n).validStart
  | .createKey _ n _ v => Begun (σ.line n) v
  | .createValue _ n _ v => Begun (σ.line n) v
  | .createTopLevel _ n _ v => Begun (σ.line n) v
  | .createValidity _ n v => Begun (σ.line n) v
  | .initNext _ n _ => Begun (σ.line n) (σ.node n).pValidity
  | .linkCas _ n => Begun (σ.line n) (σ.node n).pValidity
  | .lostStore n => Begun (σ.line n) (σ.node n).pValidity
  | .lostFree n => Spare (σ.line n)
  | _ => True

inductive Pc.Private (x : Loc) : Pc → Prop
  | allocTest {path l} : Private x (.allocTest path x l)
  | createStart {path l v} : Private x (.createStart path x l v)
  | createKey {path l v} : Private x (.createKey path x l v)
  | createValue {path l v} : Private x (.createValue path x l v)
  | createTopLevel {path l v} : Private x (.createTopLevel path x l v)
  | createValidity {path v} : Private x (.createValidity path x v)
  | initNext {path i} : Private x (.initNext path x i)
  | linkCas {path} : Private x (.linkCas path x)
  | lostStore : Private x (.lostStore x)
  | lostFree : Private x (.lostFree x)

theorem private_of_pending (hp : pc.pending = some (x, 0)) (f : Fit σ L op pc) : pc.Private x := by
  have fresh : (x, 0) ∉ pc.refs := fun h => f.fresh _ hp (f.refs _ h)
  have find : ∀ {c : FindCtx}, c.pending = some (x, 0) → (x, 0) ∈ c.refs := by
    intro c hc
    cases c with
    | inInsert n i =>
      obtain ⟨rfl, rfl⟩ := Prod.mk.inj (Option.some.inj hc)
      simp [FindCtx.refs]
    | inRemove n => cases hc
  have state : ∀ {c : StateCtx} {n}, c.pending n = some (x, 0) → False := by
    intro c n hc
    cases c with
    | insert c => cases c <;> cases hc
    | mark => cases hc
    | delete r => cases hc
  cases pc with
  | findDown c i p path => exact absurd (by simp [Pc.refs, find hp]) fresh
  | findLoad c i p st d y path => exact absurd (by simp [Pc.refs, find hp]) fresh
  | findCas c i p st d y path => exact absurd (by simp [Pc.refs, find hp]) fresh
  | helpStore c n => exact (state (c := .insert c) hp).elim
  | helpFlush c n => exact (state (c := .insert c) hp).elim
  | stateTest c n => exact (state hp).elim
  | stateLoad c n => exact (state hp).elim
  | stateCas c n q => exact (state hp).elim
  | upperLoad path n i =>
    cases hp
    exact absurd (by simp [Pc.refs]) fresh
  | upperCas path n i q =>
    cases hp
    exact absurd (by simp [Pc.refs]) fresh
  | upperLink path n i =>
    cases hp
    exact absurd (by simp [Pc.refs]) fresh
  | allocTest path n l =>
    cases hp
    exact .allocTest
  | createStart path n l v =>
    cases hp
    exact .createStart
  | createKey path n l v =>
    cases hp
    exact .createKey
  | createValue path n l v =>
    cases hp
    exact .createValue
  | createTopLevel path n l v =>
    cases hp
    exact .createTopLevel
  | createValidity path n v =>
    cases hp
    exact .createValidity
  | initNext path n i =>
    cases hp
    exact .initNext
  | linkCas path n =>
    cases hp
    exact .linkCas
  | lostStore n =>
    cases hp
    exact .lostStore
  | lostFree n =>
    cases hp
    exact .lostFree
  | _ => cases hp

theorem Pc.Private.knows (h : pc.Private x) (hl : σ'.line x = σ.line x) (kn : pc.Knows σ) :
    pc.Knows σ' := by
  cases h <;> simpa only [Pc.Knows, Store.node, hl] using kn

theorem touch_setNext {p : Loc} (hs : i = 0 → q.state = σ.stateAt 0 p) (x : Loc) :
    Touch (σ.line x) ((σ.setNext p i q).line x) := by
  by_cases he : x = p
  · subst he
    have same : (((σ.node x).setNext i q).next 0).state = σ.stateAt 0 x := by
      rw [Node.next_setNext]
      split
      · next h => exact hs h.symm
      · rfl
    unfold Store.setNext
    rw [line_write_self]
    refine .write _ (sameData_setNext _ i q) rfl (Or.inl rfl) (Or.inl rfl) ?_ (fun h => ?_) fun h => ?_
    · exact (congrArg NodeState.age same).ge
    · exact Or.inl ((congrArg NodeState.age same) ▸ h)
    · exact Or.inl (same.symm.trans h)
  · unfold Store.setNext
    rw [line_write_other σ _ he]
    exact .still

theorem touch_write {a : Node V} (h : x = n → Touch (σ.line n) ((σ.line n).write a)) :
    Touch (σ.line x) ((σ.write n a).line x) := by
  by_cases he : x = n
  · subst he
    rw [line_write_self]
    exact h rfl
  · rw [line_write_other σ _ he]
    exact .still

theorem touch_flush (σ : Store V) (n x : Loc) : Touch (σ.line x) ((σ.flush n).line x) := by
  unfold Store.flush
  by_cases he : x = n
  · subst he
    rw [line_setLine_self]
    exact .flush
  · rw [line_setLine_other σ _ he]
    exact .still

theorem touch_step (f : Fit σ L op pc) (kn : pc.Knows σ)
    (hn : next σ op slot level pc = some (σ', pc')) (hx : (x, 0) ∈ L) :
    Touch (σ.line x) (σ'.line x) := by
  have priv : ∀ {n a}, pc.pending = some (n, 0) → Touch (σ.line x) ((σ.write n a).line x) :=
    fun hp => touch_write fun he => absurd (he ▸ hx) (f.fresh _ hp)
  cases act_of_next hn with
  | findWon hq =>
    refine touch_setNext (fun he => ?_) x
    subst he
    exact (state_of_addr hq).symm
  | @helpStore c n =>
    refine touch_write fun _ => .write _ ⟨rfl, rfl, rfl, rfl⟩ rfl (Or.inr rfl) (Or.inl rfl) le_rfl
      Or.inl Or.inl
  | @helpFlush c n => exact touch_flush σ n x
  | @stateWon c n q hq =>
    by_cases he : x = n
    · subst he
      have h0 : ((σ.node x).next 0).state = c.expected := congrArg Ptr.state hq
      have h1 : (((σ.node x).setNext 0 (q.createRef c.newState)).next 0).state = c.newState := by
        rw [Node.next_setNext, if_pos rfl]
        rfl
      unfold Store.setNext
      rw [line_write_self]
      have h0 : ((σ.line x).cur.next 0).state = c.expected := h0
      refine .write _ (sameData_setNext _ 0 _) rfl (Or.inl rfl) (Or.inl rfl) ?_ (fun _ => ?_)
        fun hd => ?_
      · rw [h0, h1]
        cases c <;> simp [StateCtx.expected, StateCtx.newState, NodeState.age]
      · cases c with
        | insert c => exact Or.inr kn
        | mark => exact Or.inl (by rw [h0]; decide)
        | delete r => exact Or.inl (by rw [h0]; simp [StateCtx.expected, NodeState.age])
      · rw [h1] at hd
        cases c with
        | insert c => cases hd
        | mark => cases hd
        | delete r => exact Or.inr kn
    · unfold Store.setNext
      rw [line_write_other σ _ he]
      exact .still
  | createStart => exact priv rfl
  | createKey => exact priv rfl
  | createValue => exact priv rfl
  | createTopLevel => exact priv rfl
  | createValidity => exact priv rfl
  | initNext => exact priv rfl
  | initLast => exact priv rfl
  | lostStore => exact priv rfl
  | linkWon he hq => exact touch_setNext (fun _ => (state_of_addr hq).symm) x
  | upperWon =>
    have := f.loc.1.pos
    exact touch_setNext (fun h => by omega) x
  | upperLink =>
    have := f.loc.1.pos
    exact touch_setNext (fun h => by omega) x
  | markWon =>
    have := f.loc.2
    exact touch_setNext (fun h => by omega) x
  | @destroyStore r n =>
    have hage : 2 ≤ ((σ.node n).next 0).state.age := f.loc.2
    exact touch_write fun _ => .write _ ⟨rfl, rfl, rfl, rfl⟩ rfl (Or.inl rfl)
      (Or.inr ⟨rfl, hage⟩) le_rfl Or.inl Or.inl
  | destroyFlush => exact touch_flush σ _ x
  | _ => exact .still

theorem clear_write (h : Clear l) (a : Node V) (he : a.validEnd = l.cur.validEnd)
    (hd : a.deleted = l.cur.deleted) : Clear (l.write a) := by
  refine Line.All.write (fun c hc => ?_) ⟨rfl, (hd.trans h.cur.2).trans he.symm⟩
  exact ⟨(h c hc).1.trans he.symm, (h c hc).2.trans he.symm⟩

theorem sentinel_step (hm : MemInv σ 1 L) (f : Fit σ L op pc)
    (hn : next σ op slot level pc = some (σ', pc')) (hx : x = head ∨ x = tail)
    (hc : Clear (σ.line x)) : Clear (σ'.line x) := by
  have live : (x, 0) ∈ L := by
    rcases hx with rfl | rfl
    · exact hm.head_mem
    · exact hm.tail_mem
  have data : ∀ {n a}, a.validEnd = (σ.node n).validEnd → a.deleted = (σ.node n).deleted →
      Clear ((σ.write n a).line x) := by
    intro n a he hd
    by_cases hxn : x = n
    · subst hxn
      rw [line_write_self]
      exact clear_write hc a he hd
    · rw [line_write_other σ _ hxn]
      exact hc
  have priv : ∀ {n a}, pc.pending = some (n, 0) → Clear ((σ.write n a).line x) := by
    intro n a hp
    have hne : x ≠ n := by
      rintro rfl
      exact f.fresh _ hp live
    rw [line_write_other σ _ hne]
    exact hc
  have flush : ∀ n, Clear ((σ.flush n).line x) := by
    intro n
    by_cases hxn : x = n
    · subst hxn
      unfold Store.flush
      rw [line_setLine_self]
      exact Line.all_flush hc.cur
    · unfold Store.flush
      rw [line_setLine_other σ _ hxn]
      exact hc
  have other : ∀ {n a}, rank σ n = (op.key : ℤ) → Clear ((σ.write n a).line x) := by
    intro n a hr
    rw [line_write_other σ _ ?_]
    · exact hc
    · rintro rfl
      rcases hx with rfl | rfl
      · exact ne_head_of_le hr.ge rfl
      · exact absurd (WithBot.coe_injective (hm.tail_rank.symm.trans hr)) f.key.ne'
  cases act_of_next hn with
  | findWon => exact data rfl rfl
  | @helpStore c n => exact other (StateOk.rank (c := .insert c) f.loc)
  | helpFlush => exact flush _
  | stateWon => exact data rfl rfl
  | createStart => exact priv rfl
  | createKey => exact data rfl rfl
  | createValue => exact data rfl rfl
  | createTopLevel => exact data rfl rfl
  | createValidity => exact data rfl rfl
  | initNext => exact data rfl rfl
  | initLast => exact data rfl rfl
  | linkWon => exact data rfl rfl
  | lostStore => exact priv rfl
  | upperWon => exact data rfl rfl
  | upperLink => exact data rfl rfl
  | markWon => exact data rfl rfl
  | destroyStore => exact other f.loc.1
  | destroyFlush => exact flush _
  | _ => exact hc

theorem begun_write (h : Begun l v) (a : Node V) (he : a.validEnd = l.cur.validEnd)
    (hd : a.deleted = l.cur.deleted) (hs : a.validStart = l.cur.validStart) :
    Begun (l.write a) v := by
  refine ⟨Line.All.write (fun c hc => ?_) ⟨rfl, ?_⟩, he.trans h.2.1, hs.trans h.2.2⟩
  · exact ⟨(h.1 c hc).1.trans he.symm, (h.1 c hc).2.trans he.symm⟩
  · exact (hd.trans h.1.cur.2).trans he.symm

theorem mark_knows (n : Loc) (i : ℕ) : (mark n i).Knows σ := by
  cases i <;> trivial

theorem searchDone_knows (τ : Store V) (e : Entry) (t : NodeState) (path : Path) (i : ℕ) :
    (searchDone τ op e t path i).Knows σ := by
  cases i with
  | zero =>
    cases op with
    | insert k v =>
      simp only [searchDone, afterSearch]
      split
      · split <;> trivial
      · trivial
    | remove k =>
      simp only [searchDone, afterSearch]
      split
      · trivial
      · split
        · trivial
        · exact mark_knows _ _
    | contains k => trivial
  | succ i => trivial

theorem findDone_knows (c : FindCtx) (e : Entry) (path : Path) (i : ℕ) :
    (findDone c e path i).Knows σ := by
  cases i <;> cases c <;> trivial

theorem afterState_knows (τ : Store V) (n : Loc) (won : Bool) (c : StateCtx) :
    (afterState τ n won c).Knows σ := by
  cases c with
  | insert c =>
    cases c with
    | found => trivial
    | linked path =>
      simp only [afterState, upper]
      split <;> trivial
  | mark => trivial
  | delete r => cases r <;> trivial

theorem knows_step (kn : pc.Knows σ) (hn : next σ op slot level pc = some (σ', pc'))
    (hsp : ∀ path, pc = .alloc path → Spare (σ.line slot)) : pc'.Knows σ' := by
  have begun : ∀ {n a} {v : Bool}, Begun (σ.line n) v → a.validEnd = (σ.node n).validEnd →
      a.deleted = (σ.node n).deleted → a.validStart = (σ.node n).validStart →
      Begun ((σ.write n a).line n) v := by
    intro n a v h he hd hs
    rw [line_write_self]
    exact begun_write h a he hd hs
  cases act_of_next hn with
  | searchStop => exact searchDone_knows _ _ _ _ _
  | findSame => exact findDone_knows _ _ _ _
  | findWon => exact findDone_knows _ _ _ _
  | @helpStore c n =>
    change Ended ((σ.write n _).line n)
    rw [line_write_self]
    rfl
  | @helpFlush c n =>
    change AllEnded ((σ.setLine n _).line n)
    rw [line_setLine_self]
    exact Line.all_flush kn
  | stateTest => exact kn
  | stateDone => exact afterState_knows _ _ _ _
  | stateLoad => exact kn
  | stateWon => exact afterState_knows _ _ _ _
  | stateFail => exact kn
  | alloc => exact hsp _ rfl
  | allocTest => exact ⟨kn, rfl⟩
  | @createStart path n l v =>
    obtain ⟨⟨hc, hs⟩, rfl⟩ := kn
    change Begun ((σ.write n _).line n) _
    rw [line_write_self]
    exact ⟨clear_write hc _ rfl rfl, by rw [Bool.not_not]; exact hs.symm, rfl⟩
  | createKey => exact begun kn rfl rfl rfl
  | createValue => exact begun kn rfl rfl rfl
  | createTopLevel => exact begun kn rfl rfl rfl
  | @createValidity path n v =>
    change Begun _ ((σ.write n _).node n).pValidity
    rw [node_write_self]
    exact begun kn rfl rfl rfl
  | initNext =>
    change Begun _ ((σ.setNext _ _ _).node _).pValidity
    rw [(setNext_data σ _ _ _ _).pValidity]
    exact begun kn rfl rfl rfl
  | initLast =>
    change Begun _ ((σ.setNext _ _ _).node _).pValidity
    rw [(setNext_data σ _ _ _ _).pValidity]
    exact begun kn rfl rfl rfl
  | linkFail => exact kn
  | @lostStore n =>
    obtain ⟨hc, he, _⟩ := kn
    change Spare ((σ.write n _).line n)
    rw [line_write_self]
    exact ⟨clear_write hc _ rfl rfl, he.symm⟩
  | upperLink =>
    unfold upper
    split <;> trivial
  | markSkip => exact mark_knows _ _
  | markWon => exact mark_knows _ _
  | @destroyStore r n =>
    change Removed ((σ.write n _).line n)
    rw [line_write_self]
    rfl
  | @destroyFlush r n =>
    change AllRemoved ((σ.setLine n _).line n)
    rw [line_setLine_self]
    exact Line.all_flush kn
  | _ => trivial

theorem StateCtx.Knows.touch {c : StateCtx} (h : c.Knows l) (t : Touch l l') : c.Knows l' := by
  cases c with
  | insert c => exact t.allEnded h
  | mark => trivial
  | delete r => exact t.allRemoved h

theorem knows_other (f : Fit σ L op pc) (ht : ∀ x, (x, 0) ∈ L → Touch (σ.line x) (σ'.line x))
    (hp : ∀ x, (x, 0) ∉ L → pc.owns = some x → σ'.line x = σ.line x) (kn : pc.Knows σ) :
    pc.Knows σ' := by
  by_cases hx : ∃ x, pc.pending = some (x, 0)
  · obtain ⟨x, hx⟩ := hx
    exact (private_of_pending hx f).knows (hp x (f.fresh _ hx) (owns_of_pending hx)) kn
  · cases pc with
    | helpFlush c n => exact (ht n (f.refs _ (c.mem_refs n))).ended kn
    | stateTest c n => exact StateCtx.Knows.touch kn (ht n (f.refs _ (c.mem_refs n)))
    | stateLoad c n => exact StateCtx.Knows.touch kn (ht n (f.refs _ (c.mem_refs n)))
    | stateCas c n q => exact StateCtx.Knows.touch kn (ht n (f.refs _ (c.mem_refs n)))
    | destroyFlush r n => exact (ht n (f.refs (n, 0) (by simp [Pc.refs]))).removed kn
    | _ => first | trivial | exact absurd ⟨_, rfl⟩ hx

/-! ### What NVRAM may hold over a run -/

structure Saved (s : State V) : Prop where
  sentinel : ∀ {x}, x = head ∨ x = tail → Clear (s.store.line x)
  live : ∀ {x}, (x, 0) ∈ s.live → x ≠ head → x ≠ tail → Persist (s.store.line x)
  spare : ∀ {x}, (x, 0) ∉ s.live → ¬ s.Unlinked x → Spare (s.store.line x)
  knows : ∀ {t op pc}, s.thread t = some (op, pc) → pc.Knows s.store

theorem Pc.Knows.clear (h : pc.Knows σ) (hp : pc.pending = some (x, 0)) (f : Fit σ L op pc) :
    Clear (σ.line x) := by
  cases private_of_pending hp f with
  | allocTest => exact h.1
  | createStart => exact h.1.1
  | createKey => exact h.1
  | createValue => exact h.1
  | createTopLevel => exact h.1
  | createValidity => exact h.1
  | initNext => exact h.1
  | linkCas => exact h.1
  | lostStore => exact h.1
  | lostFree => exact h.1

theorem Saved.clear (h : Saved s) (hi : Inv 1 s) (hx : (x, 0) ∉ s.live) :
    Clear (s.store.line x) := by
  by_cases hu : s.Unlinked x
  · obtain ⟨t, op, pc, ht, hp⟩ := hu
    exact (h.knows ht).clear hp (hi.fit ht)
  · exact (h.spare hx hu).1

theorem Inv.left (hi : Inv 1 s) {e : Event (SetOp V)} (clean : s.Clean s') (hs : Step s e s')
    (hx : (x, 0) ∈ s.live) (hx' : (x, 0) ∉ s'.live) : s'.store.dead 0 x := by
  have hi' := hi.step (hi.tidy_one e) clean hs
  by_cases hd : s.store.dead 0 x
  · exact (congrArg Ptr.state ((hi.evolves clean hs hx).next 0 hd)).trans hd
  · have hl := hi.mem.linked_of_alive hx Nat.one_pos hd
    refine ((hi.base_change clean hs).stays hi.mem.good hl).resolve_left fun h => hx' ?_
    exact hi'.mem.live_of_linked h

theorem released (hm : MemInv σ 1 L) (f : Fit σ L op pc) (kn : pc.Knows σ)
    (hp : pc.pending = some (x, 0)) (hn : next σ op slot level pc = some (σ', pc')) :
    pc'.pending = some (x, 0) ∨ Spare (σ'.line x) ∨ (σ'.level 0).Linked x := by
  cases private_of_pending hp f with
  | linkCas =>
    cases act_of_next hn with
    | linkWon he hq =>
      exact Or.inr (Or.inr (((link_splice hm f he hq).1.linked hm.good).2 (Or.inr rfl)))
    | linkFail => exact Or.inl rfl
  | lostFree =>
    cases act_of_next hn with
    | lostFree => exact Or.inr (Or.inl kn)
  | initNext => cases act_of_next hn <;> exact Or.inl rfl
  | _ =>
    cases act_of_next hn
    exact Or.inl rfl

theorem joined_persist {path : Path} (hm : MemInv σ 1 L) (f : Fit σ L op (.linkCas path x))
    (kn : (Pc.linkCas path x).Knows σ)
    (hn : next σ op slot level (.linkCas path x) = some (σ', .helpStore (.linked path) x)) :
    Persist (σ'.line x) := by
  have hst := linked_state hm f hn
  cases act_of_next hn with
  | @linkWon _ _ e he hq =>
    have hne : x ≠ e.pred := fun h => f.fresh _ rfl (h ▸ f.refs _ (Path.get_refs (i := 0) he).1)
    have same : (σ.setNext e.pred 0 (Ptr.addr x e.predState)).line x = σ.line x :=
      line_write_other σ _ hne
    unfold Store.stateAt Store.node at hst
    rw [same] at hst ⊢
    exact kn.persist hst

theorem Inv.live_step (hi : Inv 1 s) {e : Event (SetOp V)} (clean : s.Clean s') (hs : Step s e s')
    (hx : (x, 0) ∈ s'.live) : (x, 0) ∈ s.live ∨
      ∃ op path slot level, s.thread e.tid = some (op, .linkCas path x) ∧
        next s.store op slot level (.linkCas path x) =
          some (s'.store, .helpStore (.linked path) x) := by
  cases hs with
  | call t op idle hk =>
    refine Or.inl (live_goto hi.mem subset_rfl (fun op1 pc1 ha => ?_) hx)
    obtain ⟨rfl, rfl⟩ := Prod.mk.inj (Option.some.inj ha)
    exact (start_fit hi.mem hk).refs
  | ret t op r ht =>
    refine Or.inl (live_goto hi.mem subset_rfl (fun op1 pc1 ha => ?_) hx)
    cases ha
  | tau t op pc pc' slot level σ ht hn ha =>
    have f := hi.fit ht
    obtain ⟨L', e, f', _⟩ := tau_ok hi ht (hi.tidy_one (.tau t) t op pc rfl ht) hn ha clean
    have hx' : (x, 0) ∈ L' := by
      refine live_goto (e.memInv hi.mem) (e.kept hi.mem).subset (fun op1 pc1 ha => ?_) hx
      obtain ⟨rfl, rfl⟩ := Prod.mk.inj (Option.some.inj ha)
      exact f'.refs
    refine ((tau_cases f hn).mem_or hi.mem f (e.change hi.mem) hx').imp_right ?_
    rintro ⟨path, rfl, rfl⟩
    exact ⟨op, path, slot, level, ht, hn⟩

section Step

variable {e : Event (SetOp V)} (h : Saved s) (hi : Inv 1 s) (clean : s.Clean s') (hs : Step s e s')

include h hi hs

theorem Saved.touch (hx : (x, 0) ∈ s.live) : Touch (s.store.line x) (s'.store.line x) := by
  cases hs with
  | call t op idle hk => exact .still
  | ret t op r ht => exact .still
  | tau t op pc pc' slot level σ ht hn ha => exact touch_step (hi.fit ht) (h.knows ht) hn hx

include clean

theorem Saved.step_live (hx : (x, 0) ∈ s'.live) (h1 : x ≠ head) (h2 : x ≠ tail) :
    Persist (s'.store.line x) := by
  by_cases hl : (x, 0) ∈ s.live
  · exact (h.touch hi hs hl).persist (h.live hl h1 h2)
  · obtain ⟨op, path, slot, level, ht, hn⟩ := (hi.live_step clean hs hx).resolve_left hl
    exact joined_persist hi.mem (hi.fit ht) (h.knows ht) hn

omit clean in
theorem Saved.step_sentinel (hx : x = head ∨ x = tail) : Clear (s'.store.line x) := by
  cases hs with
  | call t op idle hk => exact h.sentinel hx
  | ret t op r ht => exact h.sentinel hx
  | tau t op pc pc' slot level σ ht hn ha =>
    exact sentinel_step hi.mem (hi.fit ht) hn hx (h.sentinel hx)

theorem Saved.step_spare (hx : (x, 0) ∉ s'.live) (hu : ¬ s'.Unlinked x) :
    Spare (s'.store.line x) := by
  have hi' := hi.step (hi.tidy_one e) clean hs
  by_cases hl : (x, 0) ∈ s.live
  · have h1 : x ≠ head := by
      rintro rfl
      exact hx hi'.mem.head_mem
    have h2 : x ≠ tail := by
      rintro rfl
      exact hx hi'.mem.tail_mem
    exact ((h.touch hi hs hl).persist (h.live hl h1 h2)).spare (hi.left clean hs hl hx)
  · by_cases hno : s.Unlinked x
    · obtain ⟨u, op1, pc1, hu1, hp⟩ := hno
      by_cases he : u = e.tid
      · subst he
        cases hs with
        | call t op idle hk => exact absurd (idle.symm.trans hu1) nofun
        | ret t op r ht =>
          obtain ⟨rfl, rfl⟩ := Prod.mk.inj (Option.some.inj (ht.symm.trans hu1))
          cases hp
        | tau t op pc pc' slot level σ ht hn ha =>
          obtain ⟨rfl, rfl⟩ := Prod.mk.inj (Option.some.inj (ht.symm.trans hu1))
          rcases released hi.mem (hi.fit ht) (h.knows ht) hp hn with hp' | hsp | hlk
          · exact absurd ⟨t, op, pc', goto_thread_self s σ t _, hp'⟩ hu
          · exact hsp
          · exact absurd (hi'.mem.live_of_linked hlk) hx
      · exact absurd ⟨u, op1, pc1, ((machine V).step_other hs he).trans hu1, hp⟩ hu
    · rw [hi.frame clean hs hl hno]
      exact h.spare hl hno

theorem Saved.step_knows {u : Tid} (hu : s'.thread u = some (op, pc)) : pc.Knows s'.store := by
  have same : ∀ {t : Tid} {a : Option (SetOp V × Pc)}, (∀ op pc, a = some (op, pc) →
      pc.Knows s.store) → (s.goto s.store t a).thread u = some (op, pc) → pc.Knows s.store := by
    intro t a ha hu
    by_cases he : u = t
    · subst he
      exact ha op pc ((goto_thread_self s s.store u a).symm.trans hu)
    · exact h.knows ((goto_thread_other s s.store a he).symm.trans hu)
  cases hs with
  | call t op1 idle hk =>
    refine same (fun op pc ha => ?_) hu
    obtain ⟨rfl, rfl⟩ := Prod.mk.inj (Option.some.inj ha)
    cases op1 <;> trivial
  | ret t op1 r ht =>
    refine same (fun op pc ha => ?_) hu
    cases ha
  | tau t op1 pc1 pc' slot level σ ht hn ha =>
    have f := hi.fit ht
    by_cases he : u = t
    · subst he
      obtain ⟨rfl, rfl⟩ := Prod.mk.inj (Option.some.inj ((goto_thread_self s σ u _).symm.trans hu))
      refine knows_step (h.knows ht) hn fun path hp => h.spare ?_ ?_
      · refine clean slot (ha path hp).1 ?_
        subst hp
        simp only [next] at hn
        obtain ⟨rfl, rfl⟩ := Prod.mk.inj (Option.some.inj hn)
        simp [State.goto, Store.take]
      · rintro ⟨w, op2, pc2, hw, hown⟩
        have := (ha path hp).1.symm.trans ((hi.fit hw).avail slot hown)
        cases this
    · have hu := (goto_thread_other s σ _ he).symm.trans hu
      obtain ⟨L', e, _⟩ := tau_ok hi ht (hi.tidy_one (.tau t) t op1 pc1 rfl ht) hn ha clean
      refine knows_other (hi.fit hu) (fun x hx => touch_step f (h.knows ht) hn hx) ?_ (h.knows hu)
      exact fun x hx ho => (e.kept hi.mem).line (fun ho' => he (hi.apart hu ht ho ho')) hx

theorem Saved.step : Saved s' :=
  ⟨h.step_sentinel hi hs, h.step_live hi clean hs, h.step_spare hi clean hs,
    h.step_knows hi clean hs⟩

end Step

theorem initial_spare (zero : V) (x : Loc) : Spare ((initial zero).store.line x) := by
  have flags : ∀ {l : Line (Node V)}, l.older = [] → l.cur.validStart = l.cur.validEnd →
      l.cur.deleted = l.cur.validEnd → Spare l := by
    intro l ho hs hd
    refine ⟨fun c hc => ?_, hs⟩
    obtain rfl : c = l.cur := by simpa [ho] using hc
    exact ⟨rfl, hd⟩
  simp only [initial, initialStore]
  split
  · exact flags rfl rfl rfl
  · split <;> exact flags rfl rfl rfl

theorem saved_initial (zero : V) : Saved (initial zero) where
  sentinel _ := (initial_spare zero _).1
  live hx h1 h2 := absurd (initial_live zero hx).1 (not_or.2 ⟨h1, h2⟩)
  spare _ _ := initial_spare zero _
  knows ht := nomatch ht

theorem saved_run (ρ : Run (machine V)) (clean : Clean ρ) : ∀ n ≤ ρ.length, Saved (ρ.state n) := by
  refine ρ.stepwise ?_ fun m hm h => h.step (inv_run ρ clean m hm.le) (clean m hm) (ρ.step hm)
  obtain ⟨zero, h⟩ := ρ.init
  rw [h]
  exact saved_initial zero

end SOFT.SkipList
