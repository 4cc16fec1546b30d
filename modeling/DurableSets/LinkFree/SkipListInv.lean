import DurableSets.LinkFree.SkipList

namespace LinkFree.SkipList

open Chain

variable {V : Type} {σ σ' : Store V} {L L' : Set Cursor} {x y p n c d : Loc} {i j G : ℕ}
  {q : Ptr} {l : Line (Node V)} {m : Node V} {h : Option Loc}

def AllMarked (l : Line (Node V)) : Prop := l.All fun c => (c.next 0).marked = true

def AllValid (l : Line (Node V)) : Prop := l.All fun c => isValid c.metaData = true

-- how the line of a node that others refer to may change
structure Evolves (a b : Line (Node V)) : Prop where
  key : b.cur.key = a.cur.key
  topLevel : b.cur.topLevel = a.cur.topLevel
  next : ∀ i, (a.cur.next i).marked = true → b.cur.next i = a.cur.next i
  valid : isValid a.cur.metaData = true → isValid b.cur.metaData = true
  marked : AllMarked a → AllMarked b
  allValid : AllValid a → AllValid b

theorem Evolves.refl (a : Line (Node V)) : Evolves a a :=
  ⟨rfl, rfl, fun _ _ => rfl, id, id, id⟩

theorem evolves_write (hk : m.key = l.cur.key) (ht : m.topLevel = l.cur.topLevel)
    (hn : ∀ i, (l.cur.next i).marked = true → m.next i = l.cur.next i)
    (hd : isValid l.cur.metaData = true → isValid m.metaData = true) : Evolves l (l.write m) where
  key := hk
  topLevel := ht
  next := hn
  valid := hd
  marked h := h.write (by rw [hn 0 h.cur]; exact h.cur)
  allValid h := h.write (hd h.cur)

theorem evolves_flush (l : Line (Node V)) : Evolves l l.flush where
  key := rfl
  topLevel := rfl
  next _ _ := rfl
  valid := id
  marked h := Line.All.flush h
  allValid h := Line.All.flush h

def Store.dead (σ : Store V) (i : ℕ) (x : Loc) : Prop := ((σ.node x).next i).marked = true

@[simp] theorem line_setLine_self (σ : Store V) (x : Loc) (l : Line (Node V)) :
    (σ.setLine x l).line x = l := by simp [Store.setLine]

theorem line_setLine_other (σ : Store V) (l : Line (Node V)) (h : y ≠ x) :
    (σ.setLine x l).line y = σ.line y := by simp [Store.setLine, h]

theorem node_setLine (σ : Store V) (x : Loc) (l : Line (Node V)) (y : Loc) :
    (σ.setLine x l).node y = if y = x then l.cur else σ.node y := by
  unfold Store.node
  split
  · next h => rw [h, line_setLine_self]
  · next h => rw [line_setLine_other σ l h]

theorem node_setLine_self (σ : Store V) (x : Loc) (l : Line (Node V)) :
    (σ.setLine x l).node x = l.cur := by rw [node_setLine, if_pos rfl]

theorem node_setLine_other (σ : Store V) (l : Line (Node V)) (h : y ≠ x) :
    (σ.setLine x l).node y = σ.node y := by rw [node_setLine, if_neg h]

theorem line_write_self (σ : Store V) (x : Loc) (m : Node V) :
    (σ.write x m).line x = (σ.line x).write m := line_setLine_self _ _ _

theorem line_write_other (σ : Store V) (m : Node V) (h : y ≠ x) :
    (σ.write x m).line y = σ.line y := line_setLine_other _ _ h

theorem node_write (σ : Store V) (x : Loc) (m : Node V) (y : Loc) :
    (σ.write x m).node y = if y = x then m else σ.node y := node_setLine _ _ _ _

theorem node_write_self (σ : Store V) (x : Loc) (m : Node V) : (σ.write x m).node x = m := by
  rw [node_write, if_pos rfl]

theorem node_write_other (σ : Store V) (m : Node V) (h : y ≠ x) :
    (σ.write x m).node y = σ.node y := by rw [node_write, if_neg h]

theorem next_setNext (σ : Store V) (x : Loc) (i : ℕ) (q : Ptr) (y : Loc) (j : ℕ) :
    ((σ.setNext x i q).node y).next j = if y = x ∧ j = i then q else (σ.node y).next j := by
  unfold Store.setNext
  rw [node_write]
  by_cases h : y = x
  · subst h
    simp [Node.setNext, Function.update_apply]
  · simp [h]

theorem next_setNext_other (σ : Store V) (q : Ptr) (h : ¬ (y = x ∧ j = i)) :
    ((σ.setNext x i q).node y).next j = (σ.node y).next j := by rw [next_setNext, if_neg h]

theorem next_setNext_self (σ : Store V) (x : Loc) (i : ℕ) (q : Ptr) :
    ((σ.setNext x i q).node x).next i = q := by rw [next_setNext, if_pos ⟨rfl, rfl⟩]

theorem setNext_fields (σ : Store V) (x : Loc) (i : ℕ) (q : Ptr) (y : Loc) :
    ((σ.setNext x i q).node y).key = (σ.node y).key ∧
    ((σ.setNext x i q).node y).topLevel = (σ.node y).topLevel ∧
    ((σ.setNext x i q).node y).metaData = (σ.node y).metaData ∧
    ((σ.setNext x i q).node y).insertFlag = (σ.node y).insertFlag ∧
    ((σ.setNext x i q).node y).deleteFlag = (σ.node y).deleteFlag := by
  unfold Store.setNext
  rw [node_write]
  split
  · next h => subst h; exact ⟨rfl, rfl, rfl, rfl, rfl⟩
  · exact ⟨rfl, rfl, rfl, rfl, rfl⟩

theorem rank_of_ne (σ : Store V) (h : x ≠ head) : rank σ x = ((σ.node x).key : ℤ) := by
  simp [rank, h]

@[simp] theorem rank_head (σ : Store V) : rank σ head = ⊥ := by simp [rank]

theorem rank_congr (h : (σ'.node x).key = (σ.node x).key) : rank σ' x = rank σ x := by
  simp only [rank, h]

theorem rank_setNext (σ : Store V) (p : Loc) (i : ℕ) (q : Ptr) (y : Loc) :
    rank (σ.setNext p i q) y = rank σ y := rank_congr (setNext_fields σ p i q y).1

theorem ne_head_of_le {k : ℤ} (h : (k : WithBot ℤ) ≤ rank σ x) : x ≠ head := by
  rintro rfl
  simp at h

theorem dead_of_addr (h : (σ.node x).next i = Ptr.addr y) : ¬ σ.dead i x := by
  unfold Store.dead
  rw [h]
  exact Bool.false_ne_true

theorem ref_of_addr (h : (σ.node x).next i = Ptr.addr y) : ((σ.node x).next i).ref = some y := by
  rw [h]
  rfl

theorem evolves_setNext (hp : ¬ σ.dead i p) (q : Ptr) :
    Evolves (σ.line p) ((σ.line p).write ((σ.node p).setNext i q)) := by
  refine evolves_write rfl rfl (fun j hj => ?_) id
  refine Function.update_of_ne ?_ _ _
  rintro rfl
  exact hp hj

theorem evolves_setLine (ev : Evolves (σ.line x) l) :
    Evolves (σ.line y) ((σ.setLine x l).line y) := by
  by_cases he : y = x
  · rw [he, line_setLine_self]
    exact ev
  · rw [line_setLine_other σ l he]
    exact Evolves.refl _

-- from c to d over marked nodes, at level 0 over nodes whose mark is in NVRAM
inductive DeadPath (σ : Store V) (i : ℕ) (c : Loc) : Loc → Prop where
  | refl : DeadPath σ i c c
  | tail {d e : Loc} (h : DeadPath σ i c d) (dead : σ.dead i d)
    (flushed : i = 0 → AllMarked (σ.line d)) (next : ((σ.node d).next i).ref = some e) :
    DeadPath σ i c e

theorem DeadPath.reach (h : DeadPath σ i c d) : (σ.level i).Reach c d := by
  induction h with
  | refl => exact Heap.Reach.refl c
  | tail _ _ _ hs ih => exact ih.tail hs

theorem DeadPath.between (hs : σ.tower.Sound MAX_LEVEL G L) (hc : (c, i) ∈ L)
    (h : DeadPath σ i c d) (hb : (σ.level i).Between c d x) :
    σ.dead i x ∧ (i = 0 → AllMarked (σ.line x)) := by
  induction h with
  | refl => exact absurd (hs.antisymm (hs.closed.reach hc hb.1) hb.2.1 hb.1) hb.2.2
  | @tail d e hd dead flushed next ih =>
    by_cases he : x = d
    · subst he
      exact ⟨dead, flushed⟩
    · rcases Heap.Reach.total hb.1 hd.reach with h | h
      · exact ih ⟨hb.1, h, he⟩
      · have hex := h.succ_of_ne (Ne.symm he) next
        exact absurd (hs.antisymm (hs.closed.reach hc hb.1) hb.2.1 hex) hb.2.2

structure MemInv (σ : Store V) (G : ℕ) (L : Set Cursor) : Prop where
  sound : σ.tower.Sound MAX_LEVEL G L
  pos : 0 < G
  le : G ≤ MAX_LEVEL
  level : ∀ {x i}, (x, i) ∈ L → i < (σ.node x).topLevel ∧ (σ.node x).topLevel ≤ MAX_LEVEL
  ne_head : ∀ {x i}, (x, i) ∈ L → ((σ.node x).next i).ref ≠ some head
  topDown : ∀ {x i j}, (x, 0) ∈ L → i ≤ j → j < (σ.node x).topLevel → σ.dead i x → σ.dead j x
  head_alive : ∀ i, ¬ σ.dead i head
  tail_next : ∀ i, (σ.node tail).next i = Ptr.null
  tail_key : (σ.node tail).key = INT_MAX
  insertFlag : ∀ {x}, (x, 0) ∈ L → (σ.node x).insertFlag = true → AllValid (σ.line x)
  deleteFlag : ∀ {x}, (x, 0) ∈ L → (σ.node x).deleteFlag = true → AllMarked (σ.line x)
  persist : ∀ {x}, ¬ (σ.level 0).Linked x → σ.dead 0 x → ((σ.node x).next 0).ref ≠ none →
    AllMarked (σ.line x)

namespace MemInv

theorem mono (hm : MemInv σ G L) (hc : σ.tower.Closed L') (hL : L' ⊆ L)
    (hh : ∀ {i}, i < MAX_LEVEL → (head, i) ∈ L') : MemInv σ G L' where
  sound := hm.sound.mono hc hL hh hm.le
  pos := hm.pos
  le := hm.le
  level hx := hm.level (hL hx)
  ne_head hx := hm.ne_head (hL hx)
  topDown hx := hm.topDown (hL hx)
  head_alive := hm.head_alive
  tail_next := hm.tail_next
  tail_key := hm.tail_key
  insertFlag hx := hm.insertFlag (hL hx)
  deleteFlag hx := hm.deleteFlag (hL hx)
  persist := hm.persist

theorem good (hm : MemInv σ G L) : (σ.level 0).Good (Tower.floor L 0) := hm.sound.good hm.pos

theorem ordered (hm : MemInv σ G L) : (σ.level 0).Ordered (Tower.floor L 0) :=
  hm.sound.ordered hm.pos

theorem base (hm : MemInv σ G L) (hx : (x, i) ∈ L) : (x, 0) ∈ L :=
  hm.sound.closed.lower hx (Nat.zero_le i)

theorem live_of_linked (hm : MemInv σ G L) (hx : (σ.level 0).Linked x) : (x, 0) ∈ L :=
  hm.sound.closed.live_iff.1 (hm.good.live_of_linked hx)

theorem linked_of_alive (hm : MemInv σ G L) (hx : (x, i) ∈ L) (hi : i < G) (hd : ¬ σ.dead i x) :
    (σ.level i).Linked x := (hm.sound.good hi).alive (Heap.Live.root hx) hd

theorem alive_below (hm : MemInv σ G L) (hx : (x, i) ∈ L) (hj : j ≤ i) (hd : ¬ σ.dead i x) :
    ¬ σ.dead j x := fun h => hd (hm.topDown (hm.base hx) hj (hm.level hx).1 h)

theorem right (hm : MemInv σ G L) (hx : (x, i) ∈ L) (hs : ((σ.node x).next i).ref = some y) :
    (y, i) ∈ L := hm.sound.closed.right hx hs

theorem succ_ne_head (hm : MemInv σ G L) (hx : (x, i) ∈ L)
    (hs : ((σ.node x).next i).ref = some y) : y ≠ head := by
  rintro rfl
  exact hm.ne_head hx hs

theorem ne_tail_of_dead (hm : MemInv σ G L) (hd : σ.dead i x) : x ≠ tail := by
  rintro rfl
  unfold Store.dead at hd
  rw [hm.tail_next] at hd
  cases hd

theorem tail_rank (hm : MemInv σ G L) : rank σ tail = INT_MAX := by
  rw [rank_of_ne σ (by decide), hm.tail_key]

end MemInv

-- the slot that the acting thread holds; then the readers and the memory after the step
inductive Effect (σ : Store V) (G : ℕ) (L : Set Cursor) :
    Option Loc → Set Cursor → Store V → Prop where
  | idle (h : Option Loc) : Effect σ G L h L σ
  | touch (x : Loc) (l : Line (Node V)) (h : Option Loc) (live : (x, 0) ∈ L)
    (evolves : Evolves (σ.line x) l)
    (ref : ∀ i, (l.cur.next i).ref = ((σ.node x).next i).ref ∨ (h = some x ∧ (x, i) ∉ L))
    (insertFlag : l.cur.insertFlag = true → AllValid l)
    (deleteFlag : l.cur.deleteFlag = true → AllMarked l)
    (topDown : ∀ i j, i ≤ j → j < (σ.node x).topLevel → (l.cur.next i).marked = true →
      (l.cur.next j).marked = true)
    (alive : x = head → ∀ i, ¬ (l.cur.next i).marked = true)
    (atTail : x = tail → l.cur.next = (σ.node x).next) :
    Effect σ G L h L (σ.setLine x l)
  | priv (x : Loc) (m : Node V) (fresh : (x, 0) ∉ L) (unavail : σ.avail x = false)
    (persist : (m.next 0).marked = true → (m.next 0).ref ≠ none →
      AllMarked ((σ.line x).write m)) : Effect σ G L (some x) L (σ.write x m)
  | join (p n c : Loc) (i : ℕ) (live : (p, i) ∈ L) (next : (σ.node p).next i = Ptr.addr c)
    (fresh : (n, i) ∉ L) (base : ∀ j, i = j + 1 → (n, j) ∈ L)
    (new_next : ((σ.node n).next i).ref = some c) (level : i < (σ.node n).topLevel)
    (tidy : i < G → ¬ σ.dead i n ∧ rank σ p < rank σ n ∧ rank σ n < rank σ c)
    (fields : i = 0 → (σ.node n).topLevel ≤ MAX_LEVEL ∧ (σ.node n).insertFlag = false ∧
      (σ.node n).deleteFlag = false ∧ ∀ j < (σ.node n).topLevel, ¬ σ.dead j n) :
    Effect σ G L (some n) (insert (n, i) L) (σ.setNext p i (Ptr.addr n))
  | swing (p c d : Loc) (i : ℕ) (h : Option Loc) (live : (p, i) ∈ L)
    (next : (σ.node p).next i = Ptr.addr c) (path : DeadPath σ i c d) :
    Effect σ G L h L (σ.setNext p i (Ptr.addr d))
  | take (x : Loc) (h : Option Loc) : Effect σ G L h L (σ.take x)
  | give (x : Loc) (h : Option Loc) (held : h = some x ∨ (x, 0) ∈ L) :
    Effect σ G L h L (σ.give x)

theorem tower_congr (h : σ'.line = σ.line) : σ'.tower = σ.tower := by
  have hn : ∀ y, σ'.node y = σ.node y := fun y => by simp only [Store.node, h]
  have hr : rank σ' = rank σ := by
    funext y
    exact rank_congr (by rw [hn])
  simp only [Store.tower, hn, hr]

theorem steady_of_eq (h : σ'.tower = σ.tower) : Tower.Steady σ.tower σ'.tower L := by
  rw [h]
  exact ⟨rfl, rfl, fun _ => rfl, fun _ => rfl, fun _ => id⟩

theorem touch_steady (ev : Evolves (σ.line x) l)
    (ref : ∀ i, (l.cur.next i).ref = ((σ.node x).next i).ref ∨ (h = some x ∧ (x, i) ∉ L)) :
    Tower.Steady σ.tower (σ.setLine x l).tower L where
  head := rfl
  tail := rfl
  succ {y i} hy := by
    change (((σ.setLine x l).node y).next i).ref = ((σ.node y).next i).ref
    rw [node_setLine]
    split
    · next he =>
      subst he
      exact (ref i).resolve_right fun h => h.2 hy
    · rfl
  rank {y _} _ := by
    refine rank_congr ?_
    rw [node_setLine]
    split
    · next he => rw [he]; exact ev.key
    · rfl
  dead {y i} _ hd := by
    change (((σ.setLine x l).node y).next i).marked = true
    rw [node_setLine]
    split
    · next he =>
      subst he
      rw [ev.next i hd]
      exact hd
    · exact hd

theorem priv_steady (hm : MemInv σ G L) (fresh : (x, 0) ∉ L) :
    Tower.Steady σ.tower (σ.write x m).tower L := by
  have hn : ∀ {y i}, (y, i) ∈ L → (σ.write x m).node y = σ.node y := fun hy =>
    node_write_other σ m fun e => fresh (e ▸ hm.base hy)
  refine ⟨rfl, rfl, fun {y i} hy => ?_, fun {y i} hy => ?_, fun {y i} hy hd => ?_⟩
  · change (((σ.write x m).node y).next i).ref = ((σ.node y).next i).ref
    rw [hn hy]
  · exact rank_congr (by rw [hn hy])
  · change (((σ.write x m).node y).next i).marked = true
    rw [hn hy]
    exact hd

theorem dead_setNext (hp : ¬ σ.dead i p) (hq : q.marked = false) :
    (σ.setNext p i q).dead j y ↔ σ.dead j y := by
  unfold Store.dead
  rw [next_setNext]
  split
  · next h =>
    obtain ⟨rfl, rfl⟩ := h
    exact iff_of_false (by rw [hq]; exact Bool.false_ne_true) hp
  · exact Iff.rfl

theorem ref_setNext (σ : Store V) (q : Ptr) (h : (y, j) ≠ (p, i)) :
    (((σ.setNext p i q).node y).next j).ref = ((σ.node y).next j).ref := by
  rw [next_setNext_other σ q fun e => h (Prod.ext e.1 e.2)]

theorem join_splice (live : (p, i) ∈ L) (next : (σ.node p).next i = Ptr.addr c)
    (fresh : (n, i) ∉ L) (base : ∀ j, i = j + 1 → (n, j) ∈ L)
    (new_next : ((σ.node n).next i).ref = some c)
    (tidy : i < G → ¬ σ.dead i n ∧ rank σ p < rank σ n ∧ rank σ n < rank σ c) :
    Tower.Splice σ.tower (σ.setNext p i (Ptr.addr n)).tower G L i p n c where
  head := rfl
  tail := rfl
  pred := live
  pred_alive := dead_of_addr next
  pred_succ := ref_of_addr next
  fresh := fresh
  base := base
  pred_succ' := congrArg Ptr.ref (next_setNext_self σ p i _)
  new_succ' := by
    refine (ref_setNext σ _ fun e => ?_).trans new_next
    exact fresh (e ▸ live)
  succ _ hne := ref_setNext σ _ hne
  rank _ := rank_setNext σ p i _ _
  dead _ := dead_setNext (dead_of_addr next) rfl
  tidy hi := by
    refine ⟨fun h => (tidy hi).1 ((dead_setNext (dead_of_addr next) rfl).1 h), ?_, ?_⟩
    · exact (tidy hi).2.1.trans_eq (rank_setNext σ p i _ n).symm
    · exact (rank_setNext σ p i _ n).trans_lt (tidy hi).2.2

theorem swing_bypass (hm : MemInv σ G L) (live : (p, i) ∈ L)
    (next : (σ.node p).next i = Ptr.addr c) (path : DeadPath σ i c d) :
    Tower.Bypass σ.tower (σ.setNext p i (Ptr.addr d)).tower L i p c d where
  head := rfl
  tail := rfl
  pred := live
  pred_alive := dead_of_addr next
  pred_succ := ref_of_addr next
  path := path.reach
  gone hb := (path.between hm.sound (hm.right live (ref_of_addr next)) hb).1
  pred_succ' := congrArg Ptr.ref (next_setNext_self σ p i _)
  succ _ hne := ref_setNext σ _ hne
  rank _ := rank_setNext σ p i _ _
  dead _ := dead_setNext (dead_of_addr next) rfl

theorem Effect.change (hm : MemInv σ G L) (e : Effect σ G L h L' σ') :
    Tower.Change σ.tower σ'.tower G L L' := by
  cases e with
  | idle => exact Tower.Change.steady (steady_of_eq rfl)
  | touch x l _ live ev ref => exact Tower.Change.steady (touch_steady ev ref)
  | priv x m fresh => exact Tower.Change.steady (priv_steady hm fresh)
  | join p n c i live next fresh base new_next level tidy fields =>
    exact Tower.Change.splice i p n c (join_splice live next fresh base new_next tidy)
  | swing p c d i _ live next path =>
    exact Tower.Change.bypass i p c d (swing_bypass hm live next path)
  | take x => exact Tower.Change.steady (steady_of_eq (tower_congr rfl))
  | give x => exact Tower.Change.steady (steady_of_eq (tower_congr rfl))

theorem touch_memInv (hm : MemInv σ G L) (live : (x, 0) ∈ L) (ev : Evolves (σ.line x) l)
    (ref : ∀ i, (l.cur.next i).ref = ((σ.node x).next i).ref ∨ (h = some x ∧ (x, i) ∉ L))
    (insertFlag : l.cur.insertFlag = true → AllValid l)
    (deleteFlag : l.cur.deleteFlag = true → AllMarked l)
    (topDown : ∀ i j, i ≤ j → j < (σ.node x).topLevel → (l.cur.next i).marked = true →
      (l.cur.next j).marked = true)
    (alive : x = head → ∀ i, ¬ (l.cur.next i).marked = true)
    (atTail : x = tail → l.cur.next = (σ.node x).next) : MemInv (σ.setLine x l) G L := by
  have st := touch_steady (L := L) ev ref
  have hlink : ∀ {y}, ((σ.setLine x l).level 0).Linked y ↔ (σ.level 0).Linked y :=
    (st.level hm.sound.closed 0).linked hm.good
  have hself := node_setLine_self σ x l
  have hother := fun {y : Loc} (he : y ≠ x) => node_setLine_other σ l he
  refine ⟨st.sound hm.sound, hm.pos, hm.le, ?_, ?_, ?_, ?_, ?_, ?_, ?_, ?_, ?_⟩
  · intro y i hy
    by_cases he : y = x
    · subst he
      rw [hself, ev.topLevel]
      exact hm.level hy
    · rw [hother he]
      exact hm.level hy
  · intro y i hy
    by_cases he : y = x
    · subst he
      rw [hself, (ref i).resolve_right fun h => h.2 hy]
      exact hm.ne_head hy
    · rw [hother he]
      exact hm.ne_head hy
  · intro y i j hy hij hj hd
    unfold Store.dead at hd ⊢
    by_cases he : y = x
    · subst he
      rw [hself] at hj hd ⊢
      rw [ev.topLevel] at hj
      exact topDown i j hij hj hd
    · rw [hother he] at hj hd ⊢
      exact hm.topDown hy hij hj hd
  · intro i hd
    unfold Store.dead at hd
    by_cases he : head = x
    · subst he
      rw [hself] at hd
      exact alive rfl i hd
    · rw [hother he] at hd
      exact hm.head_alive i hd
  · intro i
    by_cases he : tail = x
    · subst he
      rw [hself, atTail rfl]
      exact hm.tail_next i
    · rw [hother he]
      exact hm.tail_next i
  · by_cases he : tail = x
    · subst he
      rw [hself, ev.key]
      exact hm.tail_key
    · rw [hother he]
      exact hm.tail_key
  · intro y hy hf
    by_cases he : y = x
    · subst he
      rw [hself] at hf
      rw [line_setLine_self]
      exact insertFlag hf
    · rw [hother he] at hf
      rw [line_setLine_other σ l he]
      exact hm.insertFlag hy hf
  · intro y hy hf
    by_cases he : y = x
    · subst he
      rw [hself] at hf
      rw [line_setLine_self]
      exact deleteFlag hf
    · rw [hother he] at hf
      rw [line_setLine_other σ l he]
      exact hm.deleteFlag hy hf
  · intro y hy hd hr
    rw [hlink] at hy
    by_cases he : y = x
    · subst he
      have hd0 : σ.dead 0 y := by
        by_contra hd0
        exact hy (hm.linked_of_alive live hm.pos hd0)
      rw [hself, (ref 0).resolve_right fun h => h.2 live] at hr
      rw [line_setLine_self]
      exact ev.marked (hm.persist hy hd0 hr)
    · unfold Store.dead at hd
      rw [hother he] at hd hr
      rw [line_setLine_other σ l he]
      exact hm.persist hy hd hr

theorem priv_memInv (hm : MemInv σ G L) (fresh : (x, 0) ∉ L)
    (persist : (m.next 0).marked = true → (m.next 0).ref ≠ none →
      AllMarked ((σ.line x).write m)) : MemInv (σ.write x m) G L := by
  have st := priv_steady (m := m) hm fresh
  have hlink : ∀ {y}, ((σ.write x m).level 0).Linked y ↔ (σ.level 0).Linked y :=
    (st.level hm.sound.closed 0).linked hm.good
  have hne : ∀ {y i}, (y, i) ∈ L → y ≠ x := fun hy e => fresh (e ▸ hm.base hy)
  have hn : ∀ {y i}, (y, i) ∈ L → (σ.write x m).node y = σ.node y := fun hy =>
    node_write_other σ m (hne hy)
  have hl : ∀ {y i}, (y, i) ∈ L → (σ.write x m).line y = σ.line y := fun hy =>
    line_write_other σ m (hne hy)
  have hhead : (head, 0) ∈ L := hm.sound.head_mem (by decide)
  have htail : (tail, 0) ∈ L := hm.sound.tail_mem hhead
  refine ⟨st.sound hm.sound, hm.pos, hm.le, ?_, ?_, ?_, ?_, ?_, ?_, ?_, ?_, ?_⟩
  · intro y i hy
    rw [hn hy]
    exact hm.level hy
  · intro y i hy
    rw [hn hy]
    exact hm.ne_head hy
  · intro y i j hy hij hj hd
    unfold Store.dead at hd ⊢
    rw [hn hy] at hj hd ⊢
    exact hm.topDown hy hij hj hd
  · intro i
    unfold Store.dead
    rw [hn hhead]
    exact hm.head_alive i
  · intro i
    rw [hn htail]
    exact hm.tail_next i
  · rw [hn htail]
    exact hm.tail_key
  · intro y hy hf
    rw [hn hy] at hf
    rw [hl hy]
    exact hm.insertFlag hy hf
  · intro y hy hf
    rw [hn hy] at hf
    rw [hl hy]
    exact hm.deleteFlag hy hf
  · intro y hy hd hr
    rw [hlink] at hy
    unfold Store.dead at hd
    by_cases he : y = x
    · subst he
      rw [node_write_self] at hd hr
      rw [line_write_self]
      exact persist hd hr
    · rw [node_write_other σ m he] at hd hr
      rw [line_write_other σ m he]
      exact hm.persist hy hd hr

-- a live pointer is moved; what is left to say is who is read and who is unlinked
theorem setNext_memInv (hm : MemInv σ G L) (live : (p, i) ∈ L) (hp : ¬ σ.dead i p)
    (hpt : p ≠ tail) (hq : q.marked = false)
    (sound : (σ.setNext p i q).tower.Sound MAX_LEVEL G L')
    (new : ∀ {y j}, (y, j) ∈ L' → (y, j) ∈ L ∨ (j < (σ.node y).topLevel ∧
      (σ.node y).topLevel ≤ MAX_LEVEL ∧ (y, j) ≠ (p, i) ∧ ((σ.node y).next j).ref ≠ some head))
    (fields : ∀ {y}, (y, 0) ∈ L' → (y, 0) ∈ L ∨ ((σ.node y).insertFlag = false ∧
      (σ.node y).deleteFlag = false ∧ ∀ j < (σ.node y).topLevel, ¬ σ.dead j y))
    (ne_head : q.ref ≠ some head)
    (unlinked : ∀ {y}, ¬ ((σ.setNext p i q).level 0).Linked y → ¬ (σ.level 0).Linked y ∨
      AllMarked (σ.line y)) : MemInv (σ.setNext p i q) G L' := by
  have hf := setNext_fields σ p i q
  have hdead : ∀ {j y}, (σ.setNext p i q).dead j y ↔ σ.dead j y := dead_setNext hp hq
  have ev : ∀ y, Evolves (σ.line y) ((σ.setNext p i q).line y) := fun y =>
    evolves_setLine (evolves_setNext hp q)
  refine ⟨sound, hm.pos, hm.le, ?_, ?_, ?_, ?_, ?_, ?_, ?_, ?_, ?_⟩
  · intro y j hy
    rw [(hf y).2.1]
    rcases new hy with hy | hy
    · exact hm.level hy
    · exact ⟨hy.1, hy.2.1⟩
  · intro y j hy
    by_cases he : (y, j) = (p, i)
    · obtain ⟨rfl, rfl⟩ := Prod.mk.inj he
      rw [next_setNext_self]
      exact ne_head
    · rw [ref_setNext σ q he]
      rcases new hy with hy | hy
      · exact hm.ne_head hy
      · exact hy.2.2.2
  · intro y a b hy hab hb hd
    rw [hdead] at hd ⊢
    rw [(hf y).2.1] at hb
    rcases fields hy with hy | hy
    · exact hm.topDown hy hab hb hd
    · exact absurd hd (hy.2.2 a (by omega))
  · exact fun j hd => hm.head_alive j (hdead.1 hd)
  · intro j
    rw [next_setNext_other σ q fun e => hpt e.1.symm]
    exact hm.tail_next j
  · rw [(hf tail).1]
    exact hm.tail_key
  · intro y hy hfl
    rw [(hf y).2.2.2.1] at hfl
    rcases fields hy with hy | hy
    · exact (ev y).allValid (hm.insertFlag hy hfl)
    · rw [hy.1] at hfl
      cases hfl
  · intro y hy hfl
    rw [(hf y).2.2.2.2] at hfl
    rcases fields hy with hy | hy
    · exact (ev y).marked (hm.deleteFlag hy hfl)
    · rw [hy.2.1] at hfl
      cases hfl
  · intro y hy hd hr
    rw [hdead] at hd
    refine (ev y).marked ((unlinked hy).elim (fun hy => hm.persist hy hd ?_) id)
    by_cases he : (y, 0) = (p, i)
    · obtain ⟨rfl, rfl⟩ := Prod.mk.inj he
      exact absurd hd hp
    · rw [ref_setNext σ q he] at hr
      exact hr

theorem MemInv.ne_tail_of_addr (hm : MemInv σ G L) (next : (σ.node p).next i = Ptr.addr c) :
    p ≠ tail := by
  rintro rfl
  rw [hm.tail_next] at next
  cases next

theorem join_memInv (hm : MemInv σ G L) (live : (p, i) ∈ L)
    (next : (σ.node p).next i = Ptr.addr c)
    (fresh : (n, i) ∉ L) (base : ∀ j, i = j + 1 → (n, j) ∈ L)
    (new_next : ((σ.node n).next i).ref = some c) (level : i < (σ.node n).topLevel)
    (tidy : i < G → ¬ σ.dead i n ∧ rank σ p < rank σ n ∧ rank σ n < rank σ c)
    (fields : i = 0 → (σ.node n).topLevel ≤ MAX_LEVEL ∧ (σ.node n).insertFlag = false ∧
      (σ.node n).deleteFlag = false ∧ ∀ j < (σ.node n).topLevel, ¬ σ.dead j n) :
    MemInv (σ.setNext p i (Ptr.addr n)) G (insert (n, i) L) := by
  have sp := join_splice live next fresh base new_next tidy
  have ch := Tower.Change.splice i p n c sp
  have htop : (σ.node n).topLevel ≤ MAX_LEVEL := by
    cases i with
    | zero => exact (fields rfl).1
    | succ j => exact (hm.level (base j rfl)).2
  have hnh : n ≠ head := fun e => fresh (e ▸ hm.sound.head_mem (by omega))
  have hp := dead_of_addr next
  refine setNext_memInv hm live hp (hm.ne_tail_of_addr next) rfl (sp.sound hm.sound) ?_ ?_ ?_ ?_
  · intro y j hy
    refine (Set.mem_insert_iff.1 hy).symm.imp_right fun e => ?_
    obtain ⟨rfl, rfl⟩ := Prod.mk.inj e
    refine ⟨level, htop, fun e => fresh (e ▸ live), ?_⟩
    rw [new_next, ← ref_of_addr next]
    exact hm.ne_head live
  · intro y hy
    refine (Set.mem_insert_iff.1 hy).symm.imp_right fun e => ?_
    obtain ⟨rfl, rfl⟩ := Prod.mk.inj e
    exact (fields rfl).2
  · exact fun e => hnh (Option.some.inj e)
  · intro y hy
    refine Or.inl fun h => hy ?_
    by_cases hi : i = 0
    · subst hi
      exact ((sp.level hm.sound.closed hm.pos).linked hm.good).2 (Or.inl h)
    · exact ((sp.steady hm.sound.closed (Ne.symm hi)).linked hm.good).2 h

theorem swing_memInv (hm : MemInv σ G L) (live : (p, i) ∈ L)
    (next : (σ.node p).next i = Ptr.addr c) (path : DeadPath σ i c d) :
    MemInv (σ.setNext p i (Ptr.addr d)) G L := by
  have bp := swing_bypass hm live next path
  have hc := hm.right live (ref_of_addr next)
  have hdh : d ≠ head := by
    cases path with
    | refl => exact hm.succ_ne_head live (ref_of_addr next)
    | tail h _ _ hs => exact hm.succ_ne_head (hm.sound.closed.reach hc h.reach) hs
  refine setNext_memInv hm live (dead_of_addr next) (hm.ne_tail_of_addr next) rfl
    (bp.sound hm.sound) Or.inl Or.inl (fun e => hdh (Option.some.inj e)) ?_
  intro y hy
  by_cases hi : i = 0
  · subst hi
    by_cases hb : (σ.level 0).Between c d y
    · exact Or.inr ((path.between hm.sound hc hb).2 rfl)
    · exact Or.inl fun h => hy (((bp.level hm.sound.closed).linked hm.good).2 ⟨h, hb⟩)
  · exact Or.inl fun h => hy (((bp.steady hm.sound.closed (Ne.symm hi)).linked hm.good).2 h)

theorem MemInv.congr (hm : MemInv σ G L) (h : σ'.line = σ.line) : MemInv σ' G L := by
  have ht := tower_congr h
  have hn : σ'.node = σ.node := by
    funext y
    simp only [Store.node, h]
  obtain ⟨h1, h2, h3, h4, h5, h6, h7, h8, h9, h10, h11, h12⟩ := hm
  refine ⟨ht ▸ h1, h2, h3, ?_, ?_, ?_, ?_, ?_, ?_, ?_, ?_, ?_⟩ <;>
    simp only [Store.dead, Store.level, ht, hn, h]
  · exact h4
  · exact h5
  · exact h6
  · exact h7
  · exact h8
  · exact h9
  · exact h10
  · exact h11
  · exact h12

theorem Effect.memInv (hm : MemInv σ G L) (e : Effect σ G L h L' σ') : MemInv σ' G L' := by
  cases e with
  | idle => exact hm
  | touch x l _ live ev ref hi hd topDown alive atTail =>
    exact touch_memInv hm live ev ref hi hd topDown alive atTail
  | priv x m fresh unavail persist => exact priv_memInv hm fresh persist
  | join p n c i live next fresh base new_next level tidy fields =>
    exact join_memInv hm live next fresh base new_next level tidy fields
  | swing p c d i _ live next path => exact swing_memInv hm live next path
  | take x => exact hm.congr rfl
  | give x => exact hm.congr rfl

end LinkFree.SkipList
