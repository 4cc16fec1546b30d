import DurableSets.SOFT.SkipListInv

namespace SOFT

theorem isOut_iff {s : NodeState} : isOut s = true ↔ s = .deleted ∨ s = .intendToInsert := by
  cases s <;> decide

end SOFT

namespace SOFT.SkipList

open Chain

variable {V : Type} {σ σ' : Store V} {L L' : Set Cursor} {x y p n c d slot : Loc}
  {i j G level : ℕ} {op : SetOp V} {pc pc' : Pc} {h : Option Loc} {path : Path} {st : NodeState}

inductive Act (σ : Store V) (op : SetOp V) (slot : Loc) (level : ℕ) : Pc → Store V → Pc → Prop where
  | searchDown {i : ℕ} {p s : Loc} {path : Path} (hs : ((σ.node p).next i).ref = some s) :
    Act σ op slot level (.searchDown i p path) σ (.searchTest i p .inserted s path)
  | searchSkip {i : ℕ} {p s : Loc} {st : NodeState} {path : Path} (dead : σ.dead i s) :
    Act σ op slot level (.searchTest i p st s path) σ (.searchNext i p st s path)
  | searchStop {i : ℕ} {p s : Loc} {st : NodeState} {path : Path} (alive : ¬ σ.dead i s)
    (le : op.key ≤ (σ.node s).key) : Act σ op slot level (.searchTest i p st s path) σ
      (searchDone σ op ⟨p, s, st⟩ (σ.stateAt i s) path i)
  | searchGo {i : ℕ} {p s : Loc} {st : NodeState} {path : Path} (alive : ¬ σ.dead i s)
    (lt : (σ.node s).key < op.key) :
    Act σ op slot level (.searchTest i p st s path) σ (.searchNext i s (σ.stateAt i s) s path)
  | searchNext {i : ℕ} {p s e : Loc} {st : NodeState} {path : Path}
    (hs : ((σ.node s).next i).ref = some e) :
    Act σ op slot level (.searchNext i p st s path) σ (.searchTest i p st e path)
  | findLost {c : FindCtx} {i : ℕ} {p : Loc} {path : Path} (dead : σ.dead i p) :
    Act σ op slot level (.findDown c i p path) σ c.retry
  | findDown {c : FindCtx} {i : ℕ} {p s : Loc} {path : Path} (alive : ¬ σ.dead i p)
    (hs : ((σ.node p).next i).ref = some s) :
    Act σ op slot level (.findDown c i p path) σ (.findLoad c i p (σ.stateAt i p) s s path)
  | findSkip {c : FindCtx} {i : ℕ} {p d s e : Loc} {st : NodeState} {path : Path}
    (dead : σ.dead i s) (hs : ((σ.node s).next i).ref = some e) :
    Act σ op slot level (.findLoad c i p st d s path) σ (.findLoad c i p st d e path)
  | findSame {c : FindCtx} {i : ℕ} {p s : Loc} {st : NodeState} {path : Path}
    (alive : ¬ σ.dead i s) (le : op.key ≤ (σ.node s).key) :
    Act σ op slot level (.findLoad c i p st s s path) σ (findDone c ⟨p, s, st⟩ path i)
  | findCut {c : FindCtx} {i : ℕ} {p d s : Loc} {st : NodeState} {path : Path}
    (alive : ¬ σ.dead i s) (le : op.key ≤ (σ.node s).key) (ne : d ≠ s) :
    Act σ op slot level (.findLoad c i p st d s path) σ (.findCas c i p st d s path)
  | findGo {c : FindCtx} {i : ℕ} {p d s e : Loc} {st : NodeState} {path : Path}
    (alive : ¬ σ.dead i s) (lt : (σ.node s).key < op.key)
    (hs : ((σ.node s).next i).ref = some e) :
    Act σ op slot level (.findLoad c i p st d s path) σ (.findLoad c i s (σ.stateAt i s) e e path)
  | findWon {c : FindCtx} {i : ℕ} {p d s : Loc} {st : NodeState} {path : Path}
    (hq : (σ.node p).next i = Ptr.addr d st) :
    Act σ op slot level (.findCas c i p st d s path) (σ.setNext p i (Ptr.addr s st))
      (findDone c ⟨p, s, st⟩ path i)
  | findFail {c : FindCtx} {i : ℕ} {p d s : Loc} {st : NodeState} {path : Path}
    (hq : (σ.node p).next i ≠ Ptr.addr d st) :
    Act σ op slot level (.findCas c i p st d s path) σ c.retry
  | helpStore {c : InsertCtx} {n : Loc} : Act σ op slot level (.helpStore c n)
      (σ.write n { σ.node n with validEnd := (σ.node n).pValidity }) (.helpFlush c n)
  | helpFlush {c : InsertCtx} {n : Loc} :
    Act σ op slot level (.helpFlush c n) (σ.flush n) (.stateTest (.insert c) n)
  | stateTest {c : StateCtx} {n : Loc} (hs : σ.stateAt 0 n = c.expected) :
    Act σ op slot level (.stateTest c n) σ (.stateLoad c n)
  | stateDone {c : StateCtx} {n : Loc} (hs : σ.stateAt 0 n ≠ c.expected) :
    Act σ op slot level (.stateTest c n) σ (afterState σ n false c)
  | stateLoad {c : StateCtx} {n : Loc} :
    Act σ op slot level (.stateLoad c n) σ (.stateCas c n ((σ.node n).next 0))
  | stateWon {c : StateCtx} {n : Loc} {q : Ptr} (hq : (σ.node n).next 0 = q.createRef c.expected) :
    Act σ op slot level (.stateCas c n q) (σ.setNext n 0 (q.createRef c.newState))
      (afterState σ n true c)
  | stateFail {c : StateCtx} {n : Loc} {q : Ptr} (hq : (σ.node n).next 0 ≠ q.createRef c.expected) :
    Act σ op slot level (.stateCas c n q) σ (.stateTest c n)
  | alloc {path : Path} :
    Act σ op slot level (.alloc path) (σ.take slot) (.allocTest path slot level)
  | allocTest {path : Path} {n : Loc} {l : ℕ} :
    Act σ op slot level (.allocTest path n l) σ (.createStart path n l (σ.node n).alloc)
  | createStart {path : Path} {n : Loc} {l : ℕ} {v : Bool} :
    Act σ op slot level (.createStart path n l v) (σ.write n { σ.node n with validStart := v })
      (.createKey path n l v)
  | createKey {path : Path} {n : Loc} {l : ℕ} {v : Bool} :
    Act σ op slot level (.createKey path n l v) (σ.write n { σ.node n with key := op.key })
      (.createValue path n l v)
  | createValue {path : Path} {n : Loc} {l : ℕ} {v : Bool} {k : ℤ} {w : V}
    (hop : op = .insert k w) :
    Act σ op slot level (.createValue path n l v) (σ.write n { σ.node n with value := w })
      (.createTopLevel path n l v)
  | createTopLevel {path : Path} {n : Loc} {l : ℕ} {v : Bool} :
    Act σ op slot level (.createTopLevel path n l v) (σ.write n { σ.node n with topLevel := l })
      (.createValidity path n v)
  | createValidity {path : Path} {n : Loc} {v : Bool} :
    Act σ op slot level (.createValidity path n v) (σ.write n { σ.node n with pValidity := v })
      (.initNext path n 0)
  | initNext {path : Path} {n : Loc} {i : ℕ} {e : Entry} (he : path[i]? = some e)
    (lt : i + 1 < (σ.node n).topLevel) : Act σ op slot level (.initNext path n i)
      (σ.setNext n i (Ptr.addr e.succ (if i = 0 then .intendToInsert else .inserted)))
      (.initNext path n (i + 1))
  | initLast {path : Path} {n : Loc} {i : ℕ} {e : Entry} (he : path[i]? = some e)
    (le : (σ.node n).topLevel ≤ i + 1) : Act σ op slot level (.initNext path n i)
      (σ.setNext n i (Ptr.addr e.succ (if i = 0 then .intendToInsert else .inserted)))
      (.linkCas path n)
  | linkWon {path : Path} {n : Loc} {e : Entry} (he : path[0]? = some e)
    (hq : (σ.node e.pred).next 0 = e.succs) : Act σ op slot level (.linkCas path n)
      (σ.setNext e.pred 0 (Ptr.addr n e.predState)) (.helpStore (.linked path) n)
  | linkFail {path : Path} {n : Loc} {e : Entry} (he : path[0]? = some e)
    (hq : (σ.node e.pred).next 0 ≠ e.succs) :
    Act σ op slot level (.linkCas path n) σ (.lostStore n)
  | lostStore {n : Loc} : Act σ op slot level (.lostStore n)
      (σ.write n { σ.node n with validStart := !(σ.node n).pValidity }) (.lostFree n)
  | lostFree {n : Loc} : Act σ op slot level (.lostFree n) (σ.give n) retry
  | upperOut {path : Path} {n : Loc} {i : ℕ} (out : isOut (σ.stateAt i n) = true) :
    Act σ op slot level (.upperLoad path n i) σ (.ret true)
  | upperSame {path : Path} {n : Loc} {i : ℕ} {e : Entry} (inn : ¬ isOut (σ.stateAt i n) = true)
    (he : path[i]? = some e) (hq : (σ.node n).next i = e.succs) :
    Act σ op slot level (.upperLoad path n i) σ (.upperLink path n i)
  | upperLoad {path : Path} {n : Loc} {i : ℕ} {e : Entry} (inn : ¬ isOut (σ.stateAt i n) = true)
    (he : path[i]? = some e) (hq : (σ.node n).next i ≠ e.succs) :
    Act σ op slot level (.upperLoad path n i) σ (.upperCas path n i ((σ.node n).next i))
  | upperWon {path : Path} {n : Loc} {i : ℕ} {q : Ptr} {e : Entry} (he : path[i]? = some e)
    (hq : (σ.node n).next i = q) :
    Act σ op slot level (.upperCas path n i q) (σ.setNext n i e.succs) (.upperLink path n i)
  | upperFail {path : Path} {n : Loc} {i : ℕ} {q : Ptr} {e : Entry} (he : path[i]? = some e)
    (hq : (σ.node n).next i ≠ q) : Act σ op slot level (.upperCas path n i q) σ (.ret true)
  | upperLink {path : Path} {n : Loc} {i : ℕ} {e : Entry} (he : path[i]? = some e)
    (hq : (σ.node e.pred).next i = e.succs) : Act σ op slot level (.upperLink path n i)
      (σ.setNext e.pred i (Ptr.addr n .inserted)) (upper σ path n (i + 1))
  | upperLost {path : Path} {n : Loc} {i : ℕ} {e : Entry} (he : path[i]? = some e)
    (hq : (σ.node e.pred).next i ≠ e.succs) :
    Act σ op slot level (.upperLink path n i) σ (FindCtx.inInsert n i).retry
  | markSkip {n : Loc} {i : ℕ} (dead : σ.dead i n) :
    Act σ op slot level (.markLoad n i) σ (mark n (i - 1))
  | markLoad {n : Loc} {i : ℕ} (alive : ¬ σ.dead i n) :
    Act σ op slot level (.markLoad n i) σ (.markCas n i ((σ.node n).next i))
  | markWon {n : Loc} {i : ℕ} {q : Ptr} (hq : (σ.node n).next i = q.createRef .inserted) :
    Act σ op slot level (.markCas n i q) (σ.setNext n i (q.createRef .deleted)) (mark n (i - 1))
  | markFail {n : Loc} {i : ℕ} {q : Ptr} (hq : (σ.node n).next i ≠ q.createRef .inserted) :
    Act σ op slot level (.markCas n i q) σ (.markLoad n i)
  | destroyStore {r : Bool} {n : Loc} : Act σ op slot level (.destroyStore r n)
      (σ.write n { σ.node n with deleted := (σ.node n).pValidity }) (.destroyFlush r n)
  | destroyFlush {r : Bool} {n : Loc} :
    Act σ op slot level (.destroyFlush r n) (σ.flush n) (.stateTest (.delete r) n)
  | removeFree {n : Loc} : Act σ op slot level (.removeFree n) (σ.give n) (.ret true)
  | containsDown {i : ℕ} {p s : Loc} (hs : ((σ.node p).next i).ref = some s) :
    Act σ op slot level (.containsDown i p) σ (.containsTest i p s)
  | containsSkip {i : ℕ} {p s : Loc}
    (skip : (σ.node s).key < op.key ∨ isOut (σ.stateAt i s) = true) :
    Act σ op slot level (.containsTest i p s) σ (.containsPass i p s)
  | containsFound {i : ℕ} {p s : Loc} (inn : ¬ isOut (σ.stateAt i s) = true)
    (eq : (σ.node s).key = op.key) : Act σ op slot level (.containsTest i p s) σ (.ret true)
  | containsEnd {p s : Loc} (inn : ¬ isOut (σ.stateAt 0 s) = true)
    (lt : op.key < (σ.node s).key) : Act σ op slot level (.containsTest 0 p s) σ (.ret false)
  | containsStep {i : ℕ} {p s : Loc} (inn : ¬ isOut (σ.stateAt (i + 1) s) = true)
    (lt : op.key < (σ.node s).key) :
    Act σ op slot level (.containsTest (i + 1) p s) σ (.containsDown i p)
  | containsOut {i : ℕ} {p s : Loc} (out : isOut (σ.stateAt i s) = true) :
    Act σ op slot level (.containsPass i p s) σ (.containsNext i p s)
  | containsGo {i : ℕ} {p s : Loc} (inn : ¬ isOut (σ.stateAt i s) = true) :
    Act σ op slot level (.containsPass i p s) σ (.containsNext i s s)
  | containsNext {i : ℕ} {p s e : Loc} (hs : ((σ.node s).next i).ref = some e) :
    Act σ op slot level (.containsNext i p s) σ (.containsTest i p e)

theorem act_of_next (hn : next σ op slot level pc = some (σ', pc')) :
    Act σ op slot level pc σ' pc' := by
  cases pc with
  | searchDown i p path =>
    obtain ⟨s, hs, he⟩ := Option.map_eq_some_iff.1 hn
    obtain ⟨rfl, rfl⟩ := Prod.mk.inj he
    exact .searchDown hs
  | searchTest i p st s path =>
    simp only [next] at hn
    split at hn
    · next hd =>
      obtain ⟨rfl, rfl⟩ := Prod.mk.inj (Option.some.inj hn)
      exact .searchSkip hd
    · next hd =>
      split at hn <;> obtain ⟨rfl, rfl⟩ := Prod.mk.inj (Option.some.inj hn)
      · next hk => exact .searchStop hd hk
      · next hk => exact .searchGo hd (not_le.1 hk)
  | searchNext i p st s path =>
    obtain ⟨e, hs, he⟩ := Option.map_eq_some_iff.1 hn
    obtain ⟨rfl, rfl⟩ := Prod.mk.inj he
    exact .searchNext hs
  | findDown c i p path =>
    simp only [next] at hn
    split at hn
    · next hd =>
      obtain ⟨rfl, rfl⟩ := Prod.mk.inj (Option.some.inj hn)
      exact .findLost hd
    · next hd =>
      obtain ⟨s, hs, he⟩ := Option.map_eq_some_iff.1 hn
      obtain ⟨rfl, rfl⟩ := Prod.mk.inj he
      exact .findDown hd hs
  | findLoad c i p st d s path =>
    simp only [next] at hn
    split at hn
    · next hd =>
      obtain ⟨e, hs, he⟩ := Option.map_eq_some_iff.1 hn
      obtain ⟨rfl, rfl⟩ := Prod.mk.inj he
      exact .findSkip hd hs
    · next hd =>
      split at hn
      · next hk =>
        obtain ⟨rfl, rfl⟩ := Prod.mk.inj (Option.some.inj hn)
        split
        · next he =>
          subst he
          exact .findSame hd hk
        · next he => exact .findCut hd hk he
      · next hk =>
        obtain ⟨e, hs, he⟩ := Option.map_eq_some_iff.1 hn
        obtain ⟨rfl, rfl⟩ := Prod.mk.inj he
        exact .findGo hd (not_le.1 hk) hs
  | findCas c i p st d s path =>
    simp only [next] at hn
    split at hn <;> obtain ⟨rfl, rfl⟩ := Prod.mk.inj (Option.some.inj hn)
    · next hq => exact .findWon hq
    · next hq => exact .findFail hq
  | stateTest c n =>
    simp only [next] at hn
    split at hn <;> obtain ⟨rfl, rfl⟩ := Prod.mk.inj (Option.some.inj hn)
    · next hs => exact .stateTest hs
    · next hs => exact .stateDone hs
  | stateCas c n q =>
    simp only [next] at hn
    split at hn <;> obtain ⟨rfl, rfl⟩ := Prod.mk.inj (Option.some.inj hn)
    · next hq => exact .stateWon hq
    · next hq => exact .stateFail hq
  | createValue path n l v =>
    cases op with
    | insert k w =>
      obtain ⟨rfl, rfl⟩ := Prod.mk.inj (Option.some.inj hn)
      exact .createValue rfl
    | remove k => cases hn
    | contains k => cases hn
  | initNext path n i =>
    obtain ⟨e, he, hr⟩ := Option.map_eq_some_iff.1 hn
    obtain ⟨rfl, rfl⟩ := Prod.mk.inj hr
    by_cases hlt : i + 1 < (σ.node n).topLevel
    · rw [if_pos hlt]
      exact .initNext he hlt
    · rw [if_neg hlt]
      exact .initLast he (not_lt.1 hlt)
  | linkCas path n =>
    obtain ⟨e, he, hr⟩ := Option.map_eq_some_iff.1 hn
    clear hn
    split at hr <;> obtain ⟨rfl, rfl⟩ := Prod.mk.inj hr
    · next hq => exact .linkWon he hq
    · next hq => exact .linkFail he hq
  | upperLoad path n i =>
    simp only [next] at hn
    split at hn
    · next ho =>
      obtain ⟨rfl, rfl⟩ := Prod.mk.inj (Option.some.inj hn)
      exact .upperOut ho
    · next ho =>
      obtain ⟨e, he, hn⟩ := Option.map_eq_some_iff.1 hn
      obtain ⟨rfl, rfl⟩ := Prod.mk.inj hn
      split
      · next hq => exact .upperSame ho he hq
      · next hq => exact .upperLoad ho he hq
  | upperCas path n i q =>
    obtain ⟨e, he, hr⟩ := Option.map_eq_some_iff.1 hn
    clear hn
    split at hr <;> obtain ⟨rfl, rfl⟩ := Prod.mk.inj hr
    · next hq => exact .upperWon he hq
    · next hq => exact .upperFail he hq
  | upperLink path n i =>
    obtain ⟨e, he, hr⟩ := Option.map_eq_some_iff.1 hn
    clear hn
    split at hr <;> obtain ⟨rfl, rfl⟩ := Prod.mk.inj hr
    · next hq => exact .upperLink he hq
    · next hq => exact .upperLost he hq
  | markLoad n i =>
    simp only [next] at hn
    split at hn <;> obtain ⟨rfl, rfl⟩ := Prod.mk.inj (Option.some.inj hn)
    · next hd => exact .markSkip hd
    · next hd => exact .markLoad hd
  | markCas n i q =>
    simp only [next] at hn
    split at hn <;> obtain ⟨rfl, rfl⟩ := Prod.mk.inj (Option.some.inj hn)
    · next hq => exact .markWon hq
    · next hq => exact .markFail hq
  | containsDown i p =>
    obtain ⟨s, hs, he⟩ := Option.map_eq_some_iff.1 hn
    obtain ⟨rfl, rfl⟩ := Prod.mk.inj he
    exact .containsDown hs
  | containsTest i p s =>
    simp only [next] at hn
    split at hn
    · next h =>
      obtain ⟨rfl, rfl⟩ := Prod.mk.inj (Option.some.inj hn)
      exact .containsSkip h
    · next h =>
      obtain ⟨hlt, ho⟩ := not_or.1 h
      split at hn
      · next hk =>
        obtain ⟨rfl, rfl⟩ := Prod.mk.inj (Option.some.inj hn)
        exact .containsFound ho hk
      · next hk =>
        have hlt := lt_of_le_of_ne (not_lt.1 hlt) (Ne.symm hk)
        cases i <;> obtain ⟨rfl, rfl⟩ := Prod.mk.inj (Option.some.inj hn)
        · exact .containsEnd ho hlt
        · exact .containsStep ho hlt
  | containsPass i p s =>
    simp only [next] at hn
    split at hn <;> obtain ⟨rfl, rfl⟩ := Prod.mk.inj (Option.some.inj hn)
    · next ho => exact .containsOut ho
    · next ho => exact .containsGo ho
  | containsNext i p s =>
    obtain ⟨e, hs, he⟩ := Option.map_eq_some_iff.1 hn
    obtain ⟨rfl, rfl⟩ := Prod.mk.inj he
    exact .containsNext hs
  | ret r => cases hn
  | _ =>
    obtain ⟨rfl, rfl⟩ := Prod.mk.inj (Option.some.inj hn)
    constructor

structure Kept (σ : Store V) (L : Set Cursor) (h : Option Loc) (L' : Set Cursor)
    (σ' : Store V) : Prop where
  subset : L ⊆ L'
  evolves : ∀ {x i}, (x, i) ∈ L → Evolves (σ.node x) (σ'.node x)
  line : ∀ {x}, h ≠ some x → (x, 0) ∉ L → σ'.line x = σ.line x
  ref : ∀ {x i}, h ≠ some x → (x, 0) ∈ L → (x, i) ∉ L →
    ((σ'.node x).next i).ref = ((σ.node x).next i).ref
  avail : ∀ {x}, h ≠ some x → (x, 0) ∉ L → σ.avail x = false → σ'.avail x = false
  fresh : ∀ {x i}, h ≠ some x → (x, i) ∉ L → (x, i) ∉ L'

theorem kept_setNext {q : Ptr} (hm : MemInv σ G L) (hp : (p, i) ∈ L) (hd : ¬ σ.dead i p)
    (hs : σ.stateAt i p = q.state) (hL : L ⊆ L')
    (fresh : ∀ {x i}, h ≠ some x → (x, i) ∉ L → (x, i) ∉ L') :
    Kept σ L h L' (σ.setNext p i q) := by
  refine ⟨hL, fun _ => evolves_setNext hd ?_ _, ?_, ?_, fun _ _ => id, fresh⟩
  · rintro rfl
    exact Or.inl hs.symm
  · intro x _ hx
    have he : x ≠ p := by
      rintro rfl
      exact hx (hm.base hp)
    exact line_write_other σ _ he
  · intro x j _ _ hx
    exact ref_setNext σ q fun e => hx (e ▸ hp)

theorem Effect.kept (hm : MemInv σ G L) (e : Effect σ G L h L' σ') : Kept σ L h L' σ' := by
  cases e with
  | idle =>
    exact ⟨subset_rfl, fun _ => Evolves.refl _, fun _ _ => rfl, fun _ _ _ => rfl, fun _ _ => id,
      fun _ => id⟩
  | touch x l _ live same =>
    refine ⟨subset_rfl, fun _ => (touch_same same _).evolves, ?_, ?_, fun _ _ => id, fun _ => id⟩
    · intro y _ hy
      have he : y ≠ x := by
        rintro rfl
        exact hy live
      exact line_setLine_other σ l he
    · intro y i _ _ _
      rw [(touch_same same y).next]
  | priv x m fresh unavail upper =>
    have hne : ∀ {y}, some x ≠ some y → y ≠ x := fun hy e => hy (congrArg some e.symm)
    refine ⟨subset_rfl, ?_, ?_, ?_, fun _ _ => id, fun _ => id⟩
    · intro y i hy
      have he : y ≠ x := by
        rintro rfl
        exact fresh (hm.base hy)
      rw [node_write_other σ m he]
      exact Evolves.refl _
    · exact fun hy _ => line_write_other σ m (hne hy)
    · intro y i hy _ _
      rw [node_write_other σ m (hne hy)]
  | word x i q _ live alive ref age upper above ne_head ne_tail =>
    refine ⟨subset_rfl, fun _ => evolves_setNext alive ?_ _, ?_, ?_, fun _ _ => id, fun _ => id⟩
    · exact fun h => Or.inr (age h)
    · intro y _ hy
      have he : y ≠ x := by
        rintro rfl
        exact hy live
      exact line_write_other σ _ he
    · intro y j hh _ _
      by_cases he : (y, j) = (x, i)
      · obtain ⟨rfl, rfl⟩ := Prod.mk.inj he
        rw [next_setNext_self]
        exact ref.resolve_right fun h => hh h.1
      · exact ref_setNext σ q he
  | join p n c i st live next alive fresh base new_next level tidy first risen =>
    refine kept_setNext hm live (alive_of_addr next alive) (state_of_addr next)
      (Set.subset_insert _ _) ?_
    intro y j hy hL hL'
    rcases Set.mem_insert_iff.1 hL' with he | hL'
    · exact hy (congrArg some (Prod.mk.inj he).1.symm)
    · exact hL hL'
  | swing p c d i st _ live next alive path =>
    exact kept_setNext hm live (alive_of_addr next alive) (state_of_addr next) subset_rfl
      fun _ => id
  | take x =>
    refine ⟨subset_rfl, fun _ => Evolves.refl _, fun _ _ => rfl, fun _ _ _ => rfl, ?_, fun _ => id⟩
    intro y _ _ hy
    by_cases he : y = x
    · simp [Store.take, he]
    · simpa [Store.take, he] using hy
  | give x _ held =>
    refine ⟨subset_rfl, fun _ => Evolves.refl _, fun _ _ => rfl, fun _ _ _ => rfl, ?_, fun _ => id⟩
    intro y hn hl hy
    have he : y ≠ x := by
      rintro rfl
      exact held.elim hn hl
    simpa [Store.give, he] using hy

namespace Kept

variable (k : Kept σ L h L' σ')

include k

theorem rank_eq (hx : (x, i) ∈ L) : rank σ' x = rank σ x := rank_congr (k.evolves hx).key

theorem next (hx : (x, i) ∈ L) (hd : σ.dead j x) : (σ'.node x).next j = (σ.node x).next j :=
  (k.evolves hx).next j hd

theorem dead (hx : (x, i) ∈ L) (hd : σ.dead j x) : σ'.dead j x := by
  unfold Store.dead Store.stateAt
  rw [k.next hx hd]
  exact hd

theorem topLevel (hx : (x, i) ∈ L) : (σ'.node x).topLevel = (σ.node x).topLevel :=
  (k.evolves hx).topLevel

theorem age (hx : (x, i) ∈ L) : (σ.stateAt 0 x).age ≤ (σ'.stateAt 0 x).age := by
  rcases (k.evolves hx).age with h | h
  · exact (congrArg NodeState.age h).ge
  · exact (Nat.le_succ _).trans_eq h.symm

theorem risen (hx : (x, i) ∈ L) (h : σ.stateAt 0 x ≠ .intendToInsert) :
    σ'.stateAt 0 x ≠ .intendToInsert := by
  intro he
  have := k.age hx
  rw [he] at this
  exact h (NodeState.age_injective (Nat.le_zero.1 this))

theorem deadPath (hc : σ.tower.Closed L) (hx : (c, i) ∈ L) (hp : σ.tower.DeadPath i c d) :
    σ'.tower.DeadPath i c d := by
  induction hp with
  | refl => exact Tower.DeadPath.refl
  | @tail d e hp hd hs ih =>
    have hdl : (d, i) ∈ L := hc.reach hx hp.reach
    exact ih.tail (k.dead hdl hd) ((congrArg Ptr.ref (k.next hdl hd)).trans hs)

end Kept

-- the states that a search can ascribe to a node at level i
def TagOk (i : ℕ) (st : NodeState) : Prop := st ≠ .deleted ∧ (1 ≤ i → st = .inserted)

-- the nodes on both sides of the searched key at the levels from i on; only insert keeps them
structure PathOk (σ : Store V) (op : SetOp V) (i : ℕ) (path : Path) : Prop where
  length : op.IsInsert → i + path.length = MAX_LEVEL
  none : ¬ op.IsInsert → path = []
  below : ∀ e ∈ path, rank σ e.pred < (op.key : ℤ)
  above : ∀ e ∈ path, ((op.key : ℤ) : WithBot ℤ) ≤ rank σ e.succ
  tag : ∀ {j e}, path[j]? = some e → TagOk (i + j) e.predState

structure GapOk (σ : Store V) (op : SetOp V) (path : Path) : Prop where
  levels : PathOk σ op 0 path
  gap : ∀ e, path[0]? = some e → ((op.key : ℤ) : WithBot ℤ) < rank σ e.succ

def FindCtx.Ok (σ : Store V) (op : SetOp V) : FindCtx → Prop
  | .inInsert n i => rank σ n = (op.key : ℤ) ∧ 1 ≤ i ∧ i < (σ.node n).topLevel ∧
      σ.stateAt 0 n ≠ .intendToInsert
  | .inRemove n => rank σ n = (op.key : ℤ) ∧ σ.dead 0 n

def InsertOk (σ : Store V) (op : SetOp V) (n : Loc) : InsertCtx → Prop
  | .found => rank σ n = (op.key : ℤ)
  | .linked path => rank σ n = (op.key : ℤ) ∧ PathOk σ op 0 path

structure MarkOk (σ : Store V) (op : SetOp V) (n : Loc) (i : ℕ) : Prop where
  rank : rank σ n = (op.key : ℤ)
  lt : i < (σ.node n).topLevel
  above : ∀ j, i < j → j < (σ.node n).topLevel → σ.dead j n
  risen : σ.stateAt 0 n ≠ .intendToInsert

def DeleteOk (σ : Store V) (op : SetOp V) (n : Loc) : Prop :=
  rank σ n = (op.key : ℤ) ∧ 2 ≤ (σ.stateAt 0 n).age

def StateOk (σ : Store V) (op : SetOp V) (n : Loc) : StateCtx → Prop
  | .insert c => InsertOk σ op n c
  | .mark => MarkOk σ op n 0
  | .delete _ => DeleteOk σ op n

structure UpperOk (σ : Store V) (op : SetOp V) (path : Path) (n : Loc) (i : ℕ) : Prop where
  levels : PathOk σ op 0 path
  rank : rank σ n = (op.key : ℤ)
  pos : 1 ≤ i
  lt : i < (σ.node n).topLevel
  risen : σ.stateAt 0 n ≠ .intendToInsert

def Filled (σ : Store V) (path : Path) (n : Loc) (i : ℕ) : Prop :=
  ∀ j < i, ∃ e, path[j]? = some e ∧
    (σ.node n).next j = Ptr.addr e.succ (if j = 0 then .intendToInsert else .inserted)

structure InitOk (σ : Store V) (op : SetOp V) (path : Path) (n : Loc) : Prop where
  gap : GapOk σ op path
  key : (σ.node n).key = op.key

structure NextOk (σ : Store V) (op : SetOp V) (path : Path) (n : Loc) (i : ℕ) : Prop where
  init : InitOk σ op path n
  pos : 1 ≤ (σ.node n).topLevel
  le : (σ.node n).topLevel ≤ MAX_LEVEL
  filled : Filled σ path n i

def Local (σ : Store V) (op : SetOp V) : Pc → Prop
  | .searchDown i pred path => i < MAX_LEVEL ∧ rank σ pred < (op.key : ℤ) ∧
      PathOk σ op (i + 1) path
  | .searchTest i pred st succ path => i < MAX_LEVEL ∧ rank σ pred < (op.key : ℤ) ∧
      PathOk σ op (i + 1) path ∧ TagOk i st ∧ succ ≠ head
  | .searchNext i pred st succ path => i < MAX_LEVEL ∧ rank σ pred < (op.key : ℤ) ∧
      PathOk σ op (i + 1) path ∧ TagOk i st ∧ (rank σ succ < (op.key : ℤ) ∨ σ.dead i succ)
  | .findDown c i pred path => i < MAX_LEVEL ∧ rank σ pred < (op.key : ℤ) ∧
      PathOk σ op (i + 1) path ∧ c.Ok σ op
  | .findLoad c i pred st predNext succ path => i < MAX_LEVEL ∧ rank σ pred < (op.key : ℤ) ∧
      PathOk σ op (i + 1) path ∧ c.Ok σ op ∧ TagOk i st ∧ succ ≠ head ∧
      σ.tower.DeadPath i predNext succ
  | .findCas c i pred st predNext succ path => i < MAX_LEVEL ∧ rank σ pred < (op.key : ℤ) ∧
      PathOk σ op (i + 1) path ∧ c.Ok σ op ∧ TagOk i st ∧
      ((op.key : ℤ) : WithBot ℤ) ≤ rank σ succ ∧ σ.tower.DeadPath i predNext succ
  | .helpStore c n => InsertOk σ op n c
  | .helpFlush c n => InsertOk σ op n c
  | .stateTest c n => StateOk σ op n c
  | .stateLoad c n => StateOk σ op n c
  | .stateCas c n _ => StateOk σ op n c
  | .alloc path => GapOk σ op path
  | .allocTest path _ l => GapOk σ op path ∧ 1 ≤ l ∧ l ≤ MAX_LEVEL
  | .createStart path _ l _ => GapOk σ op path ∧ 1 ≤ l ∧ l ≤ MAX_LEVEL
  | .createKey path _ l _ => GapOk σ op path ∧ 1 ≤ l ∧ l ≤ MAX_LEVEL
  | .createValue path n l _ => InitOk σ op path n ∧ 1 ≤ l ∧ l ≤ MAX_LEVEL
  | .createTopLevel path n l _ => InitOk σ op path n ∧ 1 ≤ l ∧ l ≤ MAX_LEVEL
  | .createValidity path n _ => NextOk σ op path n 0
  | .initNext path n i => NextOk σ op path n i ∧ i < (σ.node n).topLevel
  | .linkCas path n => NextOk σ op path n (σ.node n).topLevel
  | .lostStore _ => True
  | .lostFree _ => True
  | .upperLoad path n i => UpperOk σ op path n i
  | .upperCas path n i q => UpperOk σ op path n i ∧ q.state = .inserted
  | .upperLink path n i => UpperOk σ op path n i ∧
      ∀ e, path[i]? = some e → ((σ.node n).next i).ref = some e.succ
  | .markLoad n i => MarkOk σ op n i ∧ 1 ≤ i
  | .markCas n i _ => MarkOk σ op n i ∧ 1 ≤ i
  | .destroyStore _ n => DeleteOk σ op n
  | .destroyFlush _ n => DeleteOk σ op n
  | .removeFree n => rank σ n = (op.key : ℤ) ∧ σ.dead 0 n
  | .containsDown i pred => i < MAX_LEVEL ∧ rank σ pred < (op.key : ℤ)
  -- at level 0 pred is not used any more
  | .containsTest i pred curr => i < MAX_LEVEL ∧ (1 ≤ i → rank σ pred < (op.key : ℤ)) ∧
      curr ≠ head
  | .containsPass i pred curr => i < MAX_LEVEL ∧ (1 ≤ i → rank σ pred < (op.key : ℤ) ∧
      (rank σ curr < (op.key : ℤ) ∨ σ.dead i curr)) ∧ curr ≠ head
  | .containsNext i pred curr => i < MAX_LEVEL ∧ (1 ≤ i → rank σ pred < (op.key : ℤ)) ∧
      curr ≠ head
  | .ret _ => True

theorem Path.mem_refs {e : Entry} (he : e ∈ path) :
    ∃ j, (e.pred, j) ∈ Path.refs i path ∧ (e.succ, j) ∈ Path.refs i path := by
  induction path generalizing i with
  | nil => cases he
  | cons a path ih =>
    rcases List.mem_cons.1 he with rfl | he
    · exact ⟨i, by simp [Path.refs]⟩
    · obtain ⟨j, h1, h2⟩ := ih (i := i + 1) he
      exact ⟨j, by simp [Path.refs, h1], by simp [Path.refs, h2]⟩

theorem Path.get_refs {e : Entry} (he : path[j]? = some e) :
    (e.pred, i + j) ∈ Path.refs i path ∧ (e.succ, i + j) ∈ Path.refs i path := by
  induction path generalizing i j with
  | nil => simp at he
  | cons a path ih =>
    cases j with
    | zero =>
      obtain rfl : a = e := by simpa using he
      simp [Path.refs]
    | succ j =>
      obtain ⟨h1, h2⟩ := ih (i := i + 1) (j := j) (by simpa using he)
      rw [show i + 1 + j = i + (j + 1) by omega] at h1 h2
      exact ⟨by simp [Path.refs, h1], by simp [Path.refs, h2]⟩

theorem InsertCtx.mem_refs (c : InsertCtx) (n : Loc) : (n, 0) ∈ c.refs n := by
  cases c <;> simp [InsertCtx.refs]

theorem StateCtx.mem_refs (c : StateCtx) (n : Loc) : (n, 0) ∈ c.refs n := by
  cases c <;> simp [StateCtx.refs, InsertCtx.mem_refs]

namespace Kept

variable (k : Kept σ L h L' σ')

include k

theorem pathOk (hr : ∀ r ∈ Path.refs i path, r ∈ L) (ho : PathOk σ op i path) :
    PathOk σ' op i path := by
  refine ⟨ho.length, ho.none, fun e he => ?_, fun e he => ?_, ho.tag⟩
  · obtain ⟨j, h1, _⟩ := Path.mem_refs (i := i) he
    rw [k.rank_eq (hr _ h1)]
    exact ho.below e he
  · obtain ⟨j, _, h2⟩ := Path.mem_refs (i := i) he
    rw [k.rank_eq (hr _ h2)]
    exact ho.above e he

theorem gapOk (hr : ∀ r ∈ Path.refs 0 path, r ∈ L) (ho : GapOk σ op path) : GapOk σ' op path := by
  refine ⟨k.pathOk hr ho.levels, fun e he => ?_⟩
  rw [k.rank_eq (hr _ (Path.get_refs (i := 0) he).2)]
  exact ho.gap e he

theorem findOk {c : FindCtx} (hr : ∀ r ∈ c.refs, r ∈ L) (ho : c.Ok σ op) : c.Ok σ' op := by
  cases c with
  | inInsert n i =>
    have hn := hr (n, i - 1) (by simp [FindCtx.refs])
    obtain ⟨h1, h2, h3, h4⟩ := ho
    exact ⟨(k.rank_eq hn).trans h1, h2, h3.trans_eq (k.topLevel hn).symm, k.risen hn h4⟩
  | inRemove n =>
    have hn := hr (n, 0) (by simp [FindCtx.refs])
    exact ⟨(k.rank_eq hn).trans ho.1, k.dead hn ho.2⟩

theorem insertOk {c : InsertCtx} (hr : ∀ r ∈ c.refs n, r ∈ L) (ho : InsertOk σ op n c) :
    InsertOk σ' op n c := by
  have hn := k.rank_eq (hr (n, 0) (c.mem_refs n))
  cases c with
  | found => exact hn.trans ho
  | linked path =>
    exact ⟨hn.trans ho.1, k.pathOk (fun r h => hr r (by simp [InsertCtx.refs, h])) ho.2⟩

theorem markOk (hn : (n, j) ∈ L) (ho : MarkOk σ op n i) : MarkOk σ' op n i := by
  have ht := k.topLevel hn
  refine ⟨(k.rank_eq hn).trans ho.rank, ht ▸ ho.lt, fun j hj hlt => ?_, k.risen hn ho.risen⟩
  exact k.dead hn (ho.above j hj (ht ▸ hlt))

theorem deleteOk (hn : (n, j) ∈ L) (ho : DeleteOk σ op n) : DeleteOk σ' op n :=
  ⟨(k.rank_eq hn).trans ho.1, ho.2.trans (k.age hn)⟩

theorem stateOk {c : StateCtx} (hr : ∀ r ∈ c.refs n, r ∈ L) (ho : StateOk σ op n c) :
    StateOk σ' op n c := by
  have hn := hr (n, 0) (c.mem_refs n)
  cases c with
  | insert c => exact k.insertOk hr ho
  | mark => exact k.markOk hn ho
  | delete r => exact k.deleteOk hn ho

theorem upperOk (hn : (n, j) ∈ L) (hr : ∀ r ∈ Path.refs 0 path, r ∈ L)
    (ho : UpperOk σ op path n i) : UpperOk σ' op path n i := by
  refine ⟨k.pathOk hr ho.levels, (k.rank_eq hn).trans ho.rank, ho.pos, ?_, k.risen hn ho.risen⟩
  rw [k.topLevel hn]
  exact ho.lt

theorem initOk (hr : ∀ r ∈ Path.refs 0 path, r ∈ L) (hn : σ'.node n = σ.node n)
    (ho : InitOk σ op path n) : InitOk σ' op path n :=
  ⟨k.gapOk hr ho.gap, (congrArg Node.key hn).trans ho.key⟩

theorem nextOk (hr : ∀ r ∈ Path.refs 0 path, r ∈ L) (hn : σ'.node n = σ.node n)
    (ho : NextOk σ op path n i) : NextOk σ' op path n i := by
  refine ⟨k.initOk hr hn ho.init, ?_, ?_, ?_⟩
  · exact hn ▸ ho.pos
  · exact hn ▸ ho.le
  · unfold Filled
    rw [hn]
    exact ho.filled

end Kept

-- the call keeps what it knows when another one moves; line and ref say that newNode is left alone
theorem Kept.local (k : Kept σ L h L' σ') (hc : σ.tower.Closed L) (hr : ∀ r ∈ pc.refs, r ∈ L)
    (line : ∀ n, pc.pending = some (n, 0) → σ'.line n = σ.line n)
    (ref : ∀ n i, pc.pending = some (n, i) → 1 ≤ i →
      ((σ'.node n).next i).ref = ((σ.node n).next i).ref)
    (hl : Local σ op pc) : Local σ' op pc := by
  have hnode : ∀ n, pc.pending = some (n, 0) → σ'.node n = σ.node n := fun n hn => by
    simp only [Store.node, line n hn]
  have rk : ∀ {x i}, (x, i) ∈ pc.refs → rank σ x < (op.key : ℤ) → rank σ' x < (op.key : ℤ) :=
    fun hx h => (k.rank_eq (hr _ hx)).trans_lt h
  have skip : ∀ {x i j}, (x, i) ∈ pc.refs → rank σ x < (op.key : ℤ) ∨ σ.dead j x →
      rank σ' x < (op.key : ℤ) ∨ σ'.dead j x := fun hx h => h.imp (rk hx) (k.dead (hr _ hx))
  cases pc with
  | searchDown i pred path =>
    exact ⟨hl.1, rk (i := i) (by simp [Pc.refs]) hl.2.1,
      k.pathOk (fun r h => hr r (by simp [Pc.refs, h])) hl.2.2⟩
  | searchTest i pred st succ path =>
    exact ⟨hl.1, rk (i := i) (by simp [Pc.refs]) hl.2.1,
      k.pathOk (fun r h => hr r (by simp [Pc.refs, h])) hl.2.2.1, hl.2.2.2⟩
  | searchNext i pred st succ path =>
    exact ⟨hl.1, rk (i := i) (by simp [Pc.refs]) hl.2.1,
      k.pathOk (fun r h => hr r (by simp [Pc.refs, h])) hl.2.2.1, hl.2.2.2.1,
      skip (i := i) (by simp [Pc.refs]) hl.2.2.2.2⟩
  | findDown c i pred path =>
    exact ⟨hl.1, rk (i := i) (by simp [Pc.refs]) hl.2.1,
      k.pathOk (fun r h => hr r (by simp [Pc.refs, h])) hl.2.2.1,
      k.findOk (fun r h => hr r (by simp [Pc.refs, h])) hl.2.2.2⟩
  | findLoad c i pred st predNext succ path =>
    obtain ⟨h1, h2, h3, h4, h5, h6, h7⟩ := hl
    exact ⟨h1, rk (i := i) (by simp [Pc.refs]) h2,
      k.pathOk (fun r h => hr r (by simp [Pc.refs, h])) h3,
      k.findOk (fun r h => hr r (by simp [Pc.refs, h])) h4, h5, h6,
      k.deadPath hc (hr (predNext, i) (by simp [Pc.refs])) h7⟩
  | findCas c i pred st predNext succ path =>
    obtain ⟨h1, h2, h3, h4, h5, h6, h7⟩ := hl
    exact ⟨h1, rk (i := i) (by simp [Pc.refs]) h2,
      k.pathOk (fun r h => hr r (by simp [Pc.refs, h])) h3,
      k.findOk (fun r h => hr r (by simp [Pc.refs, h])) h4, h5,
      h6.trans_eq (k.rank_eq (hr (succ, i) (by simp [Pc.refs]))).symm,
      k.deadPath hc (hr (predNext, i) (by simp [Pc.refs])) h7⟩
  | helpStore c n => exact k.insertOk hr hl
  | helpFlush c n => exact k.insertOk hr hl
  | stateTest c n => exact k.stateOk hr hl
  | stateLoad c n => exact k.stateOk hr hl
  | stateCas c n q => exact k.stateOk hr hl
  | alloc path => exact k.gapOk hr hl
  | allocTest path n l => exact ⟨k.gapOk hr hl.1, hl.2⟩
  | createStart path n l v => exact ⟨k.gapOk hr hl.1, hl.2⟩
  | createKey path n l v => exact ⟨k.gapOk hr hl.1, hl.2⟩
  | createValue path n l v => exact ⟨k.initOk hr (hnode n rfl) hl.1, hl.2⟩
  | createTopLevel path n l v => exact ⟨k.initOk hr (hnode n rfl) hl.1, hl.2⟩
  | createValidity path n v => exact k.nextOk hr (hnode n rfl) hl
  | initNext path n i =>
    refine ⟨k.nextOk hr (hnode n rfl) hl.1, ?_⟩
    rw [hnode n rfl]
    exact hl.2
  | linkCas path n =>
    change NextOk σ' op path n (σ'.node n).topLevel
    rw [hnode n rfl]
    exact k.nextOk hr (hnode n rfl) hl
  | lostStore n => trivial
  | lostFree n => trivial
  | upperLoad path n i =>
    exact k.upperOk (hr (n, i - 1) (by simp [Pc.refs])) (fun r h => hr r (by simp [Pc.refs, h])) hl
  | upperCas path n i q =>
    exact ⟨k.upperOk (hr (n, i - 1) (by simp [Pc.refs])) (fun r h => hr r (by simp [Pc.refs, h]))
      hl.1, hl.2⟩
  | upperLink path n i =>
    refine ⟨k.upperOk (hr (n, i - 1) (by simp [Pc.refs])) (fun r h => hr r (by simp [Pc.refs, h]))
      hl.1, fun e he => ?_⟩
    rw [ref n i rfl hl.1.pos]
    exact hl.2 e he
  | markLoad n i => exact ⟨k.markOk (hr (n, 0) (by simp [Pc.refs])) hl.1, hl.2⟩
  | markCas n i q => exact ⟨k.markOk (hr (n, 0) (by simp [Pc.refs])) hl.1, hl.2⟩
  | destroyStore r n => exact k.deleteOk (hr (n, 0) (by simp [Pc.refs])) hl
  | destroyFlush r n => exact k.deleteOk (hr (n, 0) (by simp [Pc.refs])) hl
  | removeFree n =>
    have hn := hr (n, 0) (by simp [Pc.refs])
    exact ⟨(k.rank_eq hn).trans hl.1, k.dead hn hl.2⟩
  | containsDown i pred => exact ⟨hl.1, rk (i := i) (by simp [Pc.refs]) hl.2⟩
  | containsTest i pred curr =>
    exact ⟨hl.1, fun h => rk (i := i) (by simp [Pc.refs]) (hl.2.1 h), hl.2.2⟩
  | containsPass i pred curr =>
    exact ⟨hl.1, fun h => ⟨rk (i := i) (by simp [Pc.refs]) (hl.2.1 h).1,
      skip (i := i) (by simp [Pc.refs]) (hl.2.1 h).2⟩, hl.2.2⟩
  | containsNext i pred curr =>
    exact ⟨hl.1, fun h => rk (i := i) (by simp [Pc.refs]) (hl.2.1 h), hl.2.2⟩
  | ret r => trivial

end SOFT.SkipList
