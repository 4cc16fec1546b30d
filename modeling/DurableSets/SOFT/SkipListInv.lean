import DurableSets.SOFT.SkipList

namespace SOFT.SkipList

open Chain

variable {V : Type} {σ σ' : Store V} {L L' : Set Cursor} {x y p n c d : Loc} {i j G : ℕ}
  {q : Ptr} {l : Line (Node V)} {m a b : Node V} {h : Option Loc} {st : NodeState}

structure SameData (a b : Node V) : Prop where
  key : b.key = a.key
  value : b.value = a.value
  pValidity : b.pValidity = a.pValidity
  topLevel : b.topLevel = a.topLevel

structure Same (a b : Node V) : Prop extends SameData a b where
  next : b.next = a.next

structure Evolves (a b : Node V) : Prop extends SameData a b where
  next : ∀ i, (a.next i).state = .deleted → b.next i = a.next i
  age : (b.next 0).state = (a.next 0).state ∨ (b.next 0).state.age = (a.next 0).state.age + 1

theorem SameData.refl (a : Node V) : SameData a a := ⟨rfl, rfl, rfl, rfl⟩

theorem Same.refl (a : Node V) : Same a a := ⟨SameData.refl a, rfl⟩

theorem Same.evolves (h : Same a b) : Evolves a b where
  toSameData := h.toSameData
  next i _ := congrFun h.next i
  age := Or.inl (by rw [h.next])

theorem Evolves.refl (a : Node V) : Evolves a a := (Same.refl a).evolves

theorem sameData_setNext (a : Node V) (i : ℕ) (q : Ptr) : SameData a (a.setNext i q) :=
  ⟨rfl, rfl, rfl, rfl⟩

theorem Node.next_setNext (a : Node V) (i : ℕ) (q : Ptr) (j : ℕ) :
    (a.setNext i q).next j = if j = i then q else a.next j := by
  simp [Node.setNext, Function.update_apply]

def Store.dead (σ : Store V) (i : ℕ) (x : Loc) : Prop := σ.stateAt i x = .deleted

@[simp] theorem line_setLine_self (σ : Store V) (x : Loc) (l : Line (Node V)) :
    (σ.setLine x l).line x = l := by simp [Store.setLine]

theorem line_setLine_other (σ : Store V) (l : Line (Node V)) (h : y ≠ x) :
    (σ.setLine x l).line y = σ.line y := by simp [Store.setLine, h]

theorem node_setLine (σ : Store V) (x : Loc) (l : Line (Node V)) (y : Loc) :
    (σ.setLine x l).node y = if y = x then l.cur else σ.node y := by
  unfold Store.node
  split
  · next h => rw [h, line_setLine_self]
  · next h => rw [line_setLine_other σ l h]

theorem line_write_self (σ : Store V) (x : Loc) (m : Node V) :
    (σ.write x m).line x = (σ.line x).write m := line_setLine_self _ _ _

theorem line_write_other (σ : Store V) (m : Node V) (h : y ≠ x) :
    (σ.write x m).line y = σ.line y := line_setLine_other _ _ h

theorem node_write (σ : Store V) (x : Loc) (m : Node V) (y : Loc) :
    (σ.write x m).node y = if y = x then m else σ.node y := node_setLine _ _ _ _

theorem node_write_self (σ : Store V) (x : Loc) (m : Node V) : (σ.write x m).node x = m := by
  rw [node_write, if_pos rfl]

theorem node_write_other (σ : Store V) (m : Node V) (h : y ≠ x) :
    (σ.write x m).node y = σ.node y := by rw [node_write, if_neg h]

theorem next_setNext (σ : Store V) (x : Loc) (i : ℕ) (q : Ptr) (y : Loc) (j : ℕ) :
    ((σ.setNext x i q).node y).next j = if y = x ∧ j = i then q else (σ.node y).next j := by
  unfold Store.setNext
  rw [node_write]
  by_cases h : y = x
  · subst h
    simp [Node.next_setNext]
  · simp [h]

theorem next_setNext_other (σ : Store V) (q : Ptr) (h : (y, j) ≠ (x, i)) :
    ((σ.setNext x i q).node y).next j = (σ.node y).next j := by
  rw [next_setNext, if_neg fun e => h (Prod.ext e.1 e.2)]

theorem next_setNext_self (σ : Store V) (x : Loc) (i : ℕ) (q : Ptr) :
    ((σ.setNext x i q).node x).next i = q := by rw [next_setNext, if_pos ⟨rfl, rfl⟩]

theorem setNext_data (σ : Store V) (x : Loc) (i : ℕ) (q : Ptr) (y : Loc) :
    SameData (σ.node y) ((σ.setNext x i q).node y) := by
  unfold Store.setNext
  rw [node_write]
  split
  · next h =>
    subst h
    exact sameData_setNext _ i q
  · exact SameData.refl _

theorem rank_of_ne (σ : Store V) (h : x ≠ head) : rank σ x = ((σ.node x).key : ℤ) := by
  simp [rank, h]

@[simp] theorem rank_head (σ : Store V) : rank σ head = ⊥ := by simp [rank]

theorem rank_congr (h : (σ'.node x).key = (σ.node x).key) : rank σ' x = rank σ x := by
  simp only [rank, h]

theorem rank_setNext (σ : Store V) (p : Loc) (i : ℕ) (q : Ptr) (y : Loc) :
    rank (σ.setNext p i q) y = rank σ y := rank_congr (setNext_data σ p i q y).key

theorem ne_head_of_le {k : ℤ} (h : (k : WithBot ℤ) ≤ rank σ x) : x ≠ head := by
  rintro rfl
  simp at h

theorem state_of_addr (h : (σ.node x).next i = Ptr.addr y st) : σ.stateAt i x = st := by
  unfold Store.stateAt
  rw [h]
  rfl

theorem ref_of_addr (h : (σ.node x).next i = Ptr.addr y st) :
    ((σ.node x).next i).ref = some y := by
  rw [h]
  rfl

theorem alive_of_addr (h : (σ.node x).next i = Ptr.addr y st) (hst : st ≠ .deleted) :
    ¬ σ.dead i x := by
  unfold Store.dead
  rw [state_of_addr h]
  exact hst

theorem stateAt_move (h : σ.stateAt i p = q.state) :
    (σ.setNext p i q).stateAt j y = σ.stateAt j y := by
  unfold Store.stateAt at h ⊢
  rw [next_setNext]
  split
  · next e =>
    obtain ⟨rfl, rfl⟩ := e
    exact h.symm
  · rfl

theorem stateAt_setNext_other (σ : Store V) (q : Ptr) (h : (y, j) ≠ (x, i)) :
    (σ.setNext x i q).stateAt j y = σ.stateAt j y := by
  unfold Store.stateAt
  rw [next_setNext_other σ q h]

theorem stateAt_setNext_self (σ : Store V) (x : Loc) (i : ℕ) (q : Ptr) :
    (σ.setNext x i q).stateAt i x = q.state := by
  unfold Store.stateAt
  rw [next_setNext_self]

theorem evolves_setNext (hp : ¬ σ.dead i p)
    (ha : i = 0 → q.state = σ.stateAt 0 p ∨ q.state.age = (σ.stateAt 0 p).age + 1) (y : Loc) :
    Evolves (σ.node y) ((σ.setNext p i q).node y) := by
  refine ⟨setNext_data σ p i q y, fun j hj => ?_, ?_⟩
  · refine next_setNext_other σ q fun e => hp ?_
    obtain ⟨rfl, rfl⟩ := Prod.mk.inj e
    exact hj
  · rw [next_setNext]
    split
    · next e =>
      obtain ⟨rfl, he⟩ := e
      exact ha he.symm
    · exact Or.inl rfl

structure MemInv (σ : Store V) (G : ℕ) (L : Set Cursor) : Prop where
  sound : σ.tower.Sound MAX_LEVEL G L
  pos : 0 < G
  le : G ≤ MAX_LEVEL
  level : ∀ {x i}, (x, i) ∈ L → i < (σ.node x).topLevel ∧ (σ.node x).topLevel ≤ MAX_LEVEL
  ne_head : ∀ {x i}, (x, i) ∈ L → ((σ.node x).next i).ref ≠ some head
  topDown : ∀ {x i j}, (x, 0) ∈ L → i ≤ j → j < (σ.node x).topLevel → σ.dead i x → σ.dead j x
  marked : ∀ {x i}, (x, 0) ∈ L → 2 ≤ (σ.stateAt 0 x).age → 1 ≤ i → i < (σ.node x).topLevel →
    σ.dead i x
  upper : ∀ {x i}, 1 ≤ i → σ.stateAt i x = .inserted ∨ σ.stateAt i x = .deleted
  risen : ∀ {x i}, (x, i) ∈ L → 1 ≤ i → σ.stateAt 0 x ≠ .intendToInsert
  head_state : ∀ i, σ.stateAt i head = .inserted
  tail_next : ∀ i, (σ.node tail).next i = ⟨none, .inserted⟩
  tail_key : (σ.node tail).key = INTPTR_MAX

namespace MemInv

theorem mono (hm : MemInv σ G L) (hc : σ.tower.Closed L') (hL : L' ⊆ L)
    (hh : ∀ {i}, i < MAX_LEVEL → (head, i) ∈ L') : MemInv σ G L' where
  sound := hm.sound.mono hc hL hh hm.le
  pos := hm.pos
  le := hm.le
  level hx := hm.level (hL hx)
  ne_head hx := hm.ne_head (hL hx)
  topDown hx := hm.topDown (hL hx)
  marked hx := hm.marked (hL hx)
  upper := hm.upper
  risen hx := hm.risen (hL hx)
  head_state := hm.head_state
  tail_next := hm.tail_next
  tail_key := hm.tail_key

theorem good (hm : MemInv σ G L) : (σ.level 0).Good (Tower.floor L 0) := hm.sound.good hm.pos

theorem ordered (hm : MemInv σ G L) : (σ.level 0).Ordered (Tower.floor L 0) :=
  hm.sound.ordered hm.pos

theorem base (hm : MemInv σ G L) (hx : (x, i) ∈ L) : (x, 0) ∈ L :=
  hm.sound.closed.lower hx (Nat.zero_le i)

theorem head_mem (hm : MemInv σ G L) : (head, 0) ∈ L := hm.sound.head_mem (by decide)

theorem tail_mem (hm : MemInv σ G L) : (tail, 0) ∈ L := hm.sound.tail_mem hm.head_mem

theorem live_of_linked (hm : MemInv σ G L) (hx : (σ.level 0).Linked x) : (x, 0) ∈ L :=
  hm.sound.closed.live_iff.1 (hm.good.live_of_linked hx)

theorem linked_of_alive (hm : MemInv σ G L) (hx : (x, i) ∈ L) (hi : i < G) (hd : ¬ σ.dead i x) :
    (σ.level i).Linked x := (hm.sound.good hi).alive (Heap.Live.root hx) hd

theorem alive_below (hm : MemInv σ G L) (hx : (x, i) ∈ L) (hj : j ≤ i) (hd : ¬ σ.dead i x) :
    ¬ σ.dead j x := fun h => hd (hm.topDown (hm.base hx) hj (hm.level hx).1 h)

theorem inserted_below (hm : MemInv σ G L) (hx : (x, i) ∈ L) (hi : 1 ≤ i) (hd : ¬ σ.dead i x) :
    σ.stateAt 0 x = .inserted := by
  have h1 := hm.risen hx hi
  have h2 : ¬ 2 ≤ (σ.stateAt 0 x).age := fun h => hd (hm.marked (hm.base hx) h hi (hm.level hx).1)
  cases hs : σ.stateAt 0 x <;> simp_all [NodeState.age]

theorem right (hm : MemInv σ G L) (hx : (x, i) ∈ L) (hs : ((σ.node x).next i).ref = some y) :
    (y, i) ∈ L := hm.sound.closed.right hx hs

theorem succ_ne_head (hm : MemInv σ G L) (hx : (x, i) ∈ L)
    (hs : ((σ.node x).next i).ref = some y) : y ≠ head := by
  rintro rfl
  exact hm.ne_head hx hs

theorem head_alive (hm : MemInv σ G L) (i : ℕ) : ¬ σ.dead i head := by
  unfold Store.dead
  rw [hm.head_state]
  exact nofun

theorem tail_state (hm : MemInv σ G L) (i : ℕ) : σ.stateAt i tail = .inserted := by
  unfold Store.stateAt
  rw [hm.tail_next]

theorem ne_tail_of_addr (hm : MemInv σ G L) (next : (σ.node p).next i = Ptr.addr c st) :
    p ≠ tail := by
  rintro rfl
  rw [hm.tail_next] at next
  cases next

theorem ne_tail_of_dead (hm : MemInv σ G L) (hd : σ.dead i x) : x ≠ tail := by
  rintro rfl
  unfold Store.dead at hd
  rw [hm.tail_state] at hd
  cases hd

theorem tail_rank (hm : MemInv σ G L) : rank σ tail = INTPTR_MAX := by
  rw [rank_of_ne σ (by decide), hm.tail_key]

end MemInv

-- the slot that the acting thread holds; then the readers and the memory after the step
inductive Effect (σ : Store V) (G : ℕ) (L : Set Cursor) :
    Option Loc → Set Cursor → Store V → Prop where
  | idle (h : Option Loc) : Effect σ G L h L σ
  | touch (x : Loc) (l : Line (Node V)) (h : Option Loc) (live : (x, 0) ∈ L)
    (same : Same (σ.node x) l.cur) : Effect σ G L h L (σ.setLine x l)
  | priv (x : Loc) (m : Node V) (fresh : (x, 0) ∉ L) (unavail : σ.avail x = false)
    (upper : ∀ i, 1 ≤ i → (m.next i).state = .inserted ∨ (m.next i).state = .deleted) :
    Effect σ G L (some x) L (σ.write x m)
  | word (x : Loc) (i : ℕ) (q : Ptr) (h : Option Loc) (live : (x, 0) ∈ L) (alive : ¬ σ.dead i x)
    (ref : q.ref = ((σ.node x).next i).ref ∨ (h = some x ∧ (x, i) ∉ L ∧ 1 ≤ i))
    (age : i = 0 → q.state.age = (σ.stateAt 0 x).age + 1)
    (upper : 1 ≤ i → q.state = .inserted ∨ q.state = .deleted)
    (above : 2 ≤ q.state.age → ∀ j, i < j → j < (σ.node x).topLevel → σ.dead j x)
    (ne_head : x ≠ head) (ne_tail : x ≠ tail) : Effect σ G L h L (σ.setNext x i q)
  | join (p n c : Loc) (i : ℕ) (st : NodeState) (live : (p, i) ∈ L)
    (next : (σ.node p).next i = Ptr.addr c st) (alive : st ≠ .deleted)
    (fresh : (n, i) ∉ L) (base : ∀ j, i = j + 1 → (n, j) ∈ L)
    (new_next : ((σ.node n).next i).ref = some c) (level : i < (σ.node n).topLevel)
    (tidy : i < G → ¬ σ.dead i n ∧ rank σ p < rank σ n ∧ rank σ n < rank σ c)
    (first : i = 0 → (σ.node n).topLevel ≤ MAX_LEVEL ∧ σ.stateAt 0 n = .intendToInsert ∧
      ∀ j < (σ.node n).topLevel, ¬ σ.dead j n)
    (risen : 1 ≤ i → σ.stateAt 0 n ≠ .intendToInsert) :
    Effect σ G L (some n) (insert (n, i) L) (σ.setNext p i (Ptr.addr n st))
  | swing (p c d : Loc) (i : ℕ) (st : NodeState) (h : Option Loc) (live : (p, i) ∈ L)
    (next : (σ.node p).next i = Ptr.addr c st) (alive : st ≠ .deleted)
    (path : σ.tower.DeadPath i c d) : Effect σ G L h L (σ.setNext p i (Ptr.addr d st))
  | take (x : Loc) (h : Option Loc) : Effect σ G L h L (σ.take x)
  | give (x : Loc) (h : Option Loc) (held : h = some x ∨ (x, 0) ∈ L) :
    Effect σ G L h L (σ.give x)

theorem tower_congr (h : ∀ y, Same (σ.node y) (σ'.node y)) : σ'.tower = σ.tower := by
  have hr : rank σ' = rank σ := by
    funext y
    exact rank_congr (h y).key
  simp only [Store.tower, Store.stateAt, fun y => (h y).next, hr]

theorem touch_same (same : Same (σ.node x) l.cur) (y : Loc) :
    Same (σ.node y) ((σ.setLine x l).node y) := by
  rw [node_setLine]
  split
  · next he => exact he ▸ same
  · exact Same.refl _

theorem steady_of_eq (h : σ'.tower = σ.tower) : Tower.Steady σ.tower σ'.tower L := by
  rw [h]
  exact ⟨rfl, rfl, fun _ => rfl, fun _ => rfl, fun _ => id⟩

theorem priv_steady (hm : MemInv σ G L) (fresh : (x, 0) ∉ L) :
    Tower.Steady σ.tower (σ.write x m).tower L := by
  have hn : ∀ {y i}, (y, i) ∈ L → (σ.write x m).node y = σ.node y := fun hy =>
    node_write_other σ m fun e => fresh (e ▸ hm.base hy)
  refine ⟨rfl, rfl, fun {y i} hy => ?_, fun {y i} hy => ?_, fun {y i} hy hd => ?_⟩
  · change (((σ.write x m).node y).next i).ref = ((σ.node y).next i).ref
    rw [hn hy]
  · exact rank_congr (by rw [hn hy])
  · change (((σ.write x m).node y).next i).state = .deleted
    rw [hn hy]
    exact hd

theorem ref_setNext (σ : Store V) (q : Ptr) (h : (y, j) ≠ (p, i)) :
    (((σ.setNext p i q).node y).next j).ref = ((σ.node y).next j).ref := by
  rw [next_setNext_other σ q h]

theorem word_steady (alive : ¬ σ.dead i x)
    (ref : q.ref = ((σ.node x).next i).ref ∨ (h = some x ∧ (x, i) ∉ L ∧ 1 ≤ i)) :
    Tower.Steady σ.tower (σ.setNext x i q).tower L where
  head := rfl
  tail := rfl
  succ {y j} hy := by
    change (((σ.setNext x i q).node y).next j).ref = ((σ.node y).next j).ref
    by_cases he : (y, j) = (x, i)
    · obtain ⟨rfl, rfl⟩ := Prod.mk.inj he
      rw [next_setNext_self]
      exact ref.resolve_right fun h => h.2.1 hy
    · exact ref_setNext σ q he
  rank _ := rank_setNext σ x i q _
  dead {y j} _ hd := by
    refine (stateAt_setNext_other σ q fun he => alive ?_).trans hd
    obtain ⟨rfl, rfl⟩ := Prod.mk.inj he
    exact hd

theorem join_splice (live : (p, i) ∈ L) (next : (σ.node p).next i = Ptr.addr c st)
    (alive : st ≠ .deleted) (fresh : (n, i) ∉ L) (base : ∀ j, i = j + 1 → (n, j) ∈ L)
    (new_next : ((σ.node n).next i).ref = some c)
    (tidy : i < G → ¬ σ.dead i n ∧ rank σ p < rank σ n ∧ rank σ n < rank σ c) :
    Tower.Splice σ.tower (σ.setNext p i (Ptr.addr n st)).tower G L i p n c where
  head := rfl
  tail := rfl
  pred := live
  pred_alive := alive_of_addr next alive
  pred_succ := ref_of_addr next
  fresh := fresh
  base := base
  pred_succ' := congrArg Ptr.ref (next_setNext_self σ p i _)
  new_succ' := by
    refine (ref_setNext σ _ fun e => ?_).trans new_next
    exact fresh (e ▸ live)
  succ _ hne := ref_setNext σ _ hne
  rank _ := rank_setNext σ p i _ _
  dead _ := by
    change (σ.setNext p i _).stateAt _ _ = .deleted ↔ σ.stateAt _ _ = .deleted
    rw [stateAt_move (state_of_addr next)]
  tidy hi := by
    refine ⟨fun h => (tidy hi).1 ((stateAt_move (state_of_addr next)).symm.trans h), ?_, ?_⟩
    · exact (tidy hi).2.1.trans_eq (rank_setNext σ p i _ n).symm
    · exact (rank_setNext σ p i _ n).trans_lt (tidy hi).2.2

theorem swing_bypass (hm : MemInv σ G L) (live : (p, i) ∈ L)
    (next : (σ.node p).next i = Ptr.addr c st) (alive : st ≠ .deleted)
    (path : σ.tower.DeadPath i c d) :
    Tower.Bypass σ.tower (σ.setNext p i (Ptr.addr d st)).tower L i p c d where
  head := rfl
  tail := rfl
  pred := live
  pred_alive := alive_of_addr next alive
  pred_succ := ref_of_addr next
  path := path.reach
  gone hb := path.between hm.sound (hm.right live (ref_of_addr next)) hb
  pred_succ' := congrArg Ptr.ref (next_setNext_self σ p i _)
  succ _ hne := ref_setNext σ _ hne
  rank _ := rank_setNext σ p i _ _
  dead _ := by
    change (σ.setNext p i _).stateAt _ _ = .deleted ↔ σ.stateAt _ _ = .deleted
    rw [stateAt_move (state_of_addr next)]

theorem Effect.change (hm : MemInv σ G L) (e : Effect σ G L h L' σ') :
    Tower.Change σ.tower σ'.tower G L L' := by
  cases e with
  | idle => exact Tower.Change.steady (steady_of_eq rfl)
  | touch x l _ live same => exact Tower.Change.steady (steady_of_eq (tower_congr (touch_same same)))
  | priv x m fresh => exact Tower.Change.steady (priv_steady hm fresh)
  | word x i q _ live alive ref => exact Tower.Change.steady (word_steady alive ref)
  | join p n c i st live next alive fresh base new_next level tidy =>
    exact Tower.Change.splice i p n c (join_splice live next alive fresh base new_next tidy)
  | swing p c d i st _ live next alive path =>
    exact Tower.Change.bypass i p c d (swing_bypass hm live next alive path)
  | take x => exact Tower.Change.steady (steady_of_eq (tower_congr fun _ => Same.refl _))
  | give x => exact Tower.Change.steady (steady_of_eq (tower_congr fun _ => Same.refl _))

theorem MemInv.congr (hm : MemInv σ G L) (h : ∀ y, Same (σ.node y) (σ'.node y)) :
    MemInv σ' G L := by
  have hs : ∀ i y, σ'.stateAt i y = σ.stateAt i y := fun i y => by
    simp only [Store.stateAt, (h y).next]
  refine ⟨tower_congr h ▸ hm.sound, hm.pos, hm.le, ?_, ?_, ?_, ?_, ?_, ?_, ?_, ?_, ?_⟩ <;>
    simp only [Store.dead, hs, fun y => (h y).next, fun y => (h y).topLevel, fun y => (h y).key]
  · exact hm.level
  · exact hm.ne_head
  · exact hm.topDown
  · exact hm.marked
  · exact hm.upper
  · exact hm.risen
  · exact hm.head_state
  · exact hm.tail_next
  · exact hm.tail_key

theorem priv_memInv (hm : MemInv σ G L) (fresh : (x, 0) ∉ L)
    (upper : ∀ i, 1 ≤ i → (m.next i).state = .inserted ∨ (m.next i).state = .deleted) :
    MemInv (σ.write x m) G L := by
  have hn : ∀ {y i}, (y, i) ∈ L → (σ.write x m).node y = σ.node y := fun hy =>
    node_write_other σ m fun e => fresh (e ▸ hm.base hy)
  have hs : ∀ {y i}, (y, i) ∈ L → ∀ j, (σ.write x m).stateAt j y = σ.stateAt j y := fun hy j => by
    simp only [Store.stateAt, hn hy]
  refine ⟨(priv_steady hm fresh).sound hm.sound, hm.pos, hm.le, ?_, ?_, ?_, ?_, ?_, ?_, ?_, ?_, ?_⟩
  · intro y i hy
    rw [hn hy]
    exact hm.level hy
  · intro y i hy
    rw [hn hy]
    exact hm.ne_head hy
  · intro y i j hy hij hj hd
    unfold Store.dead at hd ⊢
    rw [hs hy] at hd ⊢
    rw [hn hy] at hj
    exact hm.topDown hy hij hj hd
  · intro y i hy ha hi hlt
    unfold Store.dead
    rw [hs hy] at ha ⊢
    rw [hn hy] at hlt
    exact hm.marked hy ha hi hlt
  · intro y i hi
    unfold Store.stateAt
    rw [node_write]
    split
    · exact upper i hi
    · exact hm.upper hi
  · intro y i hy hi
    rw [hs hy]
    exact hm.risen hy hi
  · intro i
    rw [hs hm.head_mem]
    exact hm.head_state i
  · intro i
    rw [hn hm.tail_mem]
    exact hm.tail_next i
  · rw [hn hm.tail_mem]
    exact hm.tail_key

theorem word_memInv (hm : MemInv σ G L) (alive : ¬ σ.dead i x)
    (ref : q.ref = ((σ.node x).next i).ref ∨ (h = some x ∧ (x, i) ∉ L ∧ 1 ≤ i))
    (age : i = 0 → q.state.age = (σ.stateAt 0 x).age + 1)
    (upper : 1 ≤ i → q.state = .inserted ∨ q.state = .deleted)
    (above : 2 ≤ q.state.age → ∀ j, i < j → j < (σ.node x).topLevel → σ.dead j x)
    (ne_head : x ≠ head) (ne_tail : x ≠ tail) : MemInv (σ.setNext x i q) G L := by
  have st := word_steady (L := L) alive ref
  have hdead : ∀ {y j}, σ.dead j y → (σ.setNext x i q).dead j y := by
    intro y j hd
    refine (stateAt_setNext_other σ q fun he => alive ?_).trans hd
    obtain ⟨rfl, rfl⟩ := Prod.mk.inj he
    exact hd
  have hother : ∀ {y j}, (y, j) ≠ (x, i) → (σ.setNext x i q).stateAt j y = σ.stateAt j y :=
    fun he => stateAt_setNext_other σ q he
  have htop : ∀ y, ((σ.setNext x i q).node y).topLevel = (σ.node y).topLevel :=
    fun y => (setNext_data σ x i q y).topLevel
  refine ⟨st.sound hm.sound, hm.pos, hm.le, ?_, ?_, ?_, ?_, ?_, ?_, ?_, ?_, ?_⟩
  · intro y j hy
    rw [htop]
    exact hm.level hy
  · intro y j hy
    have hr : (((σ.setNext x i q).node y).next j).ref = ((σ.node y).next j).ref := st.succ hy
    rw [hr]
    exact hm.ne_head hy
  · intro y a b hy hab hb hd
    rw [htop] at hb
    by_cases he : (y, a) = (x, i)
    · obtain ⟨rfl, rfl⟩ := Prod.mk.inj he
      rcases Nat.lt_or_eq_of_le hab with hlt | rfl
      · refine hdead (above ?_ b hlt hb)
        have hq : q.state = .deleted := (stateAt_setNext_self σ y a q).symm.trans hd
        rw [hq]
        decide
      · exact hd
    · have hd : σ.stateAt a y = .deleted := (hother he).symm.trans hd
      exact hdead (hm.topDown hy hab hb hd)
  · intro y j hy ha hj hlt
    rw [htop] at hlt
    by_cases he : (y, 0) = (x, i)
    · obtain ⟨rfl, rfl⟩ := Prod.mk.inj he
      rw [stateAt_setNext_self] at ha
      exact hdead (above ha j hj hlt)
    · rw [hother he] at ha
      exact hdead (hm.marked hy ha hj hlt)
  · intro y j hj
    by_cases he : (y, j) = (x, i)
    · obtain ⟨rfl, rfl⟩ := Prod.mk.inj he
      rw [stateAt_setNext_self]
      exact upper hj
    · rw [hother he]
      exact hm.upper hj
  · intro y j hy hj hs
    by_cases he : (y, 0) = (x, i)
    · obtain ⟨rfl, rfl⟩ := Prod.mk.inj he
      rw [stateAt_setNext_self] at hs
      have := age rfl
      rw [hs] at this
      cases this
    · rw [hother he] at hs
      exact hm.risen hy hj hs
  · intro j
    rw [hother fun e => ne_head (Prod.mk.inj e).1.symm]
    exact hm.head_state j
  · intro j
    rw [next_setNext_other σ q fun e => ne_tail (Prod.mk.inj e).1.symm]
    exact hm.tail_next j
  · rw [(setNext_data σ x i q tail).key]
    exact hm.tail_key

-- a live pointer is moved; what is left to say is who is read
theorem setNext_memInv (hm : MemInv σ G L) (hs : σ.stateAt i p = q.state) (hpt : p ≠ tail)
    (sound : (σ.setNext p i q).tower.Sound MAX_LEVEL G L')
    (new : ∀ {y j}, (y, j) ∈ L' → (y, j) ∈ L ∨ (j < (σ.node y).topLevel ∧
      (σ.node y).topLevel ≤ MAX_LEVEL ∧ (y, j) ≠ (p, i) ∧ ((σ.node y).next j).ref ≠ some head ∧
      (1 ≤ j → σ.stateAt 0 y ≠ .intendToInsert)))
    (first : ∀ {y}, (y, 0) ∈ L' → (y, 0) ∈ L ∨ (σ.stateAt 0 y = .intendToInsert ∧
      ∀ j < (σ.node y).topLevel, ¬ σ.dead j y))
    (ne_head : q.ref ≠ some head) : MemInv (σ.setNext p i q) G L' := by
  have hst : ∀ {j y}, (σ.setNext p i q).stateAt j y = σ.stateAt j y := stateAt_move hs
  have htop : ∀ y, ((σ.setNext p i q).node y).topLevel = (σ.node y).topLevel :=
    fun y => (setNext_data σ p i q y).topLevel
  refine ⟨sound, hm.pos, hm.le, ?_, ?_, ?_, ?_, ?_, ?_, ?_, ?_, ?_⟩
  · intro y j hy
    rw [htop]
    rcases new hy with hy | hy
    · exact hm.level hy
    · exact ⟨hy.1, hy.2.1⟩
  · intro y j hy
    by_cases he : (y, j) = (p, i)
    · obtain ⟨rfl, rfl⟩ := Prod.mk.inj he
      rw [next_setNext_self]
      exact ne_head
    · rw [ref_setNext σ q he]
      rcases new hy with hy | hy
      · exact hm.ne_head hy
      · exact hy.2.2.2.1
  · intro y a b hy hab hb hd
    unfold Store.dead at hd ⊢
    rw [hst] at hd ⊢
    rw [htop] at hb
    rcases first hy with hy | hy
    · exact hm.topDown hy hab hb hd
    · exact absurd hd (hy.2 a (by omega))
  · intro y j hy ha hj hlt
    unfold Store.dead
    rw [hst] at ha ⊢
    rw [htop] at hlt
    rcases first hy with hy | hy
    · exact hm.marked hy ha hj hlt
    · rw [hy.1] at ha
      exact absurd ha (by decide)
  · intro y j hj
    rw [hst]
    exact hm.upper hj
  · intro y j hy hj
    rw [hst]
    rcases new hy with hy | hy
    · exact hm.risen hy hj
    · exact hy.2.2.2.2 hj
  · intro j
    rw [hst]
    exact hm.head_state j
  · intro j
    rw [next_setNext_other σ q fun e => hpt (Prod.mk.inj e).1.symm]
    exact hm.tail_next j
  · rw [(setNext_data σ p i q tail).key]
    exact hm.tail_key

theorem join_memInv (hm : MemInv σ G L) (live : (p, i) ∈ L)
    (next : (σ.node p).next i = Ptr.addr c st) (alive : st ≠ .deleted)
    (fresh : (n, i) ∉ L) (base : ∀ j, i = j + 1 → (n, j) ∈ L)
    (new_next : ((σ.node n).next i).ref = some c) (level : i < (σ.node n).topLevel)
    (tidy : i < G → ¬ σ.dead i n ∧ rank σ p < rank σ n ∧ rank σ n < rank σ c)
    (first : i = 0 → (σ.node n).topLevel ≤ MAX_LEVEL ∧ σ.stateAt 0 n = .intendToInsert ∧
      ∀ j < (σ.node n).topLevel, ¬ σ.dead j n)
    (risen : 1 ≤ i → σ.stateAt 0 n ≠ .intendToInsert) :
    MemInv (σ.setNext p i (Ptr.addr n st)) G (insert (n, i) L) := by
  have sp := join_splice live next alive fresh base new_next tidy
  have htop : (σ.node n).topLevel ≤ MAX_LEVEL := by
    cases i with
    | zero => exact (first rfl).1
    | succ j => exact (hm.level (base j rfl)).2
  have hnh : n ≠ head := fun e => fresh (e ▸ hm.sound.head_mem (by omega))
  refine setNext_memInv hm (state_of_addr next) (hm.ne_tail_of_addr next) (sp.sound hm.sound)
    ?_ ?_ ?_
  · intro y j hy
    refine (Set.mem_insert_iff.1 hy).symm.imp_right fun e => ?_
    obtain ⟨rfl, rfl⟩ := Prod.mk.inj e
    refine ⟨level, htop, fun e => fresh (e ▸ live), ?_, risen⟩
    rw [new_next, ← ref_of_addr next]
    exact hm.ne_head live
  · intro y hy
    refine (Set.mem_insert_iff.1 hy).symm.imp_right fun e => ?_
    obtain ⟨rfl, rfl⟩ := Prod.mk.inj e
    exact (first rfl).2
  · exact fun e => hnh (Option.some.inj e)

theorem swing_memInv (hm : MemInv σ G L) (live : (p, i) ∈ L)
    (next : (σ.node p).next i = Ptr.addr c st) (alive : st ≠ .deleted)
    (path : σ.tower.DeadPath i c d) : MemInv (σ.setNext p i (Ptr.addr d st)) G L := by
  have hc := hm.right live (ref_of_addr next)
  have hdh : d ≠ head := by
    cases path with
    | refl => exact hm.succ_ne_head live (ref_of_addr next)
    | tail h _ hs => exact hm.succ_ne_head (hm.sound.closed.reach hc h.reach) hs
  exact setNext_memInv hm (state_of_addr next) (hm.ne_tail_of_addr next)
    ((swing_bypass hm live next alive path).sound hm.sound) Or.inl Or.inl
    fun e => hdh (Option.some.inj e)

theorem Effect.memInv (hm : MemInv σ G L) (e : Effect σ G L h L' σ') : MemInv σ' G L' := by
  cases e with
  | idle => exact hm
  | touch x l _ live same => exact hm.congr (touch_same same)
  | priv x m fresh unavail upper => exact priv_memInv hm fresh upper
  | word x i q _ live alive ref age upper above ne_head ne_tail =>
    exact word_memInv hm alive ref age upper above ne_head ne_tail
  | join p n c i st live next alive fresh base new_next level tidy first risen =>
    exact join_memInv hm live next alive fresh base new_next level tidy first risen
  | swing p c d i st _ live next alive path => exact swing_memInv hm live next alive path
  | take x => exact hm.congr fun _ => Same.refl _
  | give x => exact hm.congr fun _ => Same.refl _

end SOFT.SkipList
