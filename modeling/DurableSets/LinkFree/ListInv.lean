import DurableSets.LinkFree.List

namespace LinkFree.List

open Chain

variable {V : Type} {σ σ' : Store V} {R : Set Loc} {x y p n c : Loc} {op : SetOp V} {pc : Pc}

def AllMarked (l : Line (Node V)) : Prop := l.All fun c => c.next.marked = true

-- what a FLUSH of a valid linked node leaves behind
def AllValid (l : Line (Node V)) : Prop := l.All fun c =>
  isValid c.metaData = true ∧ c.next.ref ≠ none ∧ c.key = l.cur.key ∧ c.value = l.cur.value ∧
    (c.next.marked = true → l.cur.next.marked = true)

-- how the line of a node that others refer to may change
structure Evolves (a b : Line (Node V)) : Prop where
  key : b.cur.key = a.cur.key
  value : b.cur.value = a.cur.value
  next : a.cur.next.marked = true → b.cur.next = a.cur.next
  valid : isValid a.cur.metaData = true → isValid b.cur.metaData = true
  marked : AllMarked a → AllMarked b
  allValid : AllValid a → AllValid b

theorem Evolves.refl (a : Line (Node V)) : Evolves a a :=
  ⟨rfl, rfl, fun _ => rfl, id, id, id⟩

theorem evolves_write {l : Line (Node V)} {m : Node V} (hk : m.key = l.cur.key)
    (hv : m.value = l.cur.value) (hn : l.cur.next.marked = true → m.next = l.cur.next)
    (hr : l.cur.next.ref ≠ none → m.next.ref ≠ none)
    (hd : isValid l.cur.metaData = true → isValid m.metaData = true) :
    Evolves l (l.write m) where
  key := hk
  value := hv
  next := hn
  valid := hd
  marked h := h.write (by rw [hn h.cur]; exact h.cur)
  allValid h := by
    intro a ha
    rcases Line.mem_write.1 ha with rfl | ha
    · exact ⟨hd h.cur.1, hr h.cur.2.1, rfl, rfl, id⟩
    · obtain ⟨h1, h2, h3, h4, h5⟩ := h a ha
      refine ⟨h1, h2, h3.trans hk.symm, h4.trans hv.symm, fun hm => ?_⟩
      have hcur := h5 hm
      rw [Line.write_cur, hn hcur]
      exact hcur

theorem evolves_flush (l : Line (Node V)) : Evolves l l.flush where
  key := rfl
  value := rfl
  next _ := rfl
  valid := id
  marked h := Line.All.flush h
  allValid h := Line.all_flush h.cur

theorem allMarked_flush {l : Line (Node V)} (h : l.cur.next.marked = true) :
    AllMarked l.flush := Line.all_flush h

theorem allValid_flush {l : Line (Node V)} (hv : isValid l.cur.metaData = true)
    (hn : l.cur.next.ref ≠ none) : AllValid l.flush :=
  Line.all_flush ⟨hv, hn, rfl, rfl, id⟩

theorem recovered_iff {m : Node V} : m.recovered = true ↔
    isValid m.metaData = true ∧ m.next.marked = false ∧ m.next ≠ Ptr.null := by
  unfold Node.recovered Node.isMarked Ptr.isMarked
  by_cases h1 : m.next = Ptr.null <;> by_cases h2 : isValid m.metaData = true <;>
    by_cases h3 : m.next.marked = true <;> simp_all [Ptr.null]

theorem not_recovered_of_marked {m : Node V} (h : m.next.marked = true) :
    ¬ m.recovered = true := fun hr => by simp [(recovered_iff.1 hr).2.1] at h

theorem not_recovered_of_invalid {m : Node V} (h : ¬ isValid m.metaData = true) :
    ¬ m.recovered = true := fun hr => h (recovered_iff.1 hr).1

theorem recovered_of_allValid {l : Line (Node V)} {a : Node V} (h : AllValid l)
    (hm : ¬ l.cur.next.marked = true) (ha : a ∈ l.contents) :
    a.recovered = true ∧ a.key = l.cur.key ∧ a.value = l.cur.value := by
  obtain ⟨h1, h2, h3, h4, h5⟩ := h a ha
  refine ⟨recovered_iff.2 ⟨h1, by simpa using fun hx => hm (h5 hx), fun hx => ?_⟩, h3, h4⟩
  rw [hx] at h2
  exact h2 rfl

@[simp] theorem line_setLine_self (σ : Store V) (x : Loc) (l : Line (Node V)) :
    (σ.setLine x l).line x = l := by simp [Store.setLine]

theorem line_setLine_other (σ : Store V) (l : Line (Node V)) (h : y ≠ x) :
    (σ.setLine x l).line y = σ.line y := by simp [Store.setLine, h]

theorem node_setLine (σ : Store V) (x : Loc) (l : Line (Node V)) (y : Loc) :
    (σ.setLine x l).node y = if y = x then l.cur else σ.node y := by
  unfold Store.node
  split
  · next h => rw [h, line_setLine_self]
  · next h => rw [line_setLine_other σ l h]

@[simp] theorem avail_setLine (σ : Store V) (x : Loc) (l : Line (Node V)) :
    (σ.setLine x l).avail = σ.avail := rfl

@[simp] theorem line_write_self (σ : Store V) (x : Loc) (m : Node V) :
    (σ.write x m).line x = (σ.line x).write m := line_setLine_self _ _ _

theorem line_write_other (σ : Store V) (m : Node V) (h : y ≠ x) :
    (σ.write x m).line y = σ.line y := line_setLine_other _ _ h

theorem node_write (σ : Store V) (x : Loc) (m : Node V) (y : Loc) :
    (σ.write x m).node y = if y = x then m else σ.node y := node_setLine _ _ _ _

@[simp] theorem avail_write (σ : Store V) (x : Loc) (m : Node V) :
    (σ.write x m).avail = σ.avail := rfl

theorem rank_of_ne (σ : Store V) (h : x ≠ head) : rank σ x = ((σ.node x).key : ℤ) := by
  simp [rank, h]

@[simp] theorem rank_head (σ : Store V) : rank σ head = ⊥ := by simp [rank]

theorem rank_congr (h : (σ'.line x).cur.key = (σ.line x).cur.key) : rank σ' x = rank σ x := by
  simp only [rank, Store.node, h]

theorem ne_head_of_rank (h : rank σ x = (op.key : ℤ)) : x ≠ head := by
  rintro rfl
  simp at h

theorem key_of_rank {k : ℤ} (h : rank σ x = k) : (σ.node x).key = k := by
  unfold rank at h
  split at h
  · simp at h
  · exact WithBot.coe_injective h

theorem ne_head_of_lt {k : ℤ} (h : (k : WithBot ℤ) < rank σ x) : x ≠ head := by
  rintro rfl
  simp at h

structure MemInv (σ : Store V) (R : Set Loc) : Prop where
  good : σ.heap.Good R
  ordered : σ.heap.Ordered R
  head_alive : ¬ σ.heap.dead head
  tail_linked : σ.heap.Linked tail
  tail_next : (σ.node tail).next = Ptr.null
  tail_key : (σ.node tail).key = INT_MAX
  complete : ∀ {x}, σ.heap.Live R x → x ≠ tail → (σ.node x).next.ref ≠ none
  bounded : ∀ {x}, σ.heap.Live R x → x ≠ tail → rank σ x < INT_MAX
  valid : ∀ {x}, σ.heap.Live R x → σ.heap.dead x → isValid (σ.node x).metaData = true
  insertFlag : ∀ {x}, σ.heap.Live R x → (σ.node x).insertFlag = true → AllValid (σ.line x)
  deleteFlag : ∀ {x}, σ.heap.Live R x → (σ.node x).deleteFlag = true → AllMarked (σ.line x)
  recovered : ∀ {x a}, a ∈ (σ.line x).contents → a.recovered = true →
    σ.heap.Linked x ∧ a.key = (σ.node x).key ∧ a.value = (σ.node x).value
  avail : ∀ {x}, σ.avail x = true → isValid (σ.node x).metaData = true ∧ ¬ σ.heap.Linked x

namespace MemInv

theorem reroot {R' : Set Loc} (h : MemInv σ R) (hh : head ∈ R')
    (hR : ∀ r ∈ R', σ.heap.Live R r) : MemInv σ R' where
  good := h.good.reroot hh hR
  ordered := Heap.Ordered.reroot h.ordered hR
  head_alive := h.head_alive
  tail_linked := h.tail_linked
  tail_next := h.tail_next
  tail_key := h.tail_key
  complete hx := h.complete (hx.mono hR)
  bounded hx := h.bounded (hx.mono hR)
  valid hx := h.valid (hx.mono hR)
  insertFlag hx := h.insertFlag (hx.mono hR)
  deleteFlag hx := h.deleteFlag (hx.mono hR)
  recovered := h.recovered
  avail := h.avail

theorem head_live (h : MemInv σ R) : σ.heap.Live R head := Heap.Live.root h.good.head_root

theorem succ_ne_head (h : MemInv σ R) (hx : σ.heap.Live R x) (hs : σ.heap.succ x = some y) :
    y ≠ head := by
  rintro rfl
  have := h.ordered hx hs
  change rank σ x < rank σ head at this
  simp at this

theorem tail_live (h : MemInv σ R) : σ.heap.Live R tail :=
  h.good.live_of_linked h.tail_linked

theorem ne_tail_of_dead (h : MemInv σ R) (hd : σ.heap.dead x) : x ≠ tail := by
  rintro rfl
  have : (σ.node tail).next.marked = true := hd
  rw [h.tail_next] at this
  cases this

theorem tail_rank (h : MemInv σ R) : rank σ tail = INT_MAX := by
  rw [rank_of_ne σ (by decide), h.tail_key]

theorem ne_tail_of_rank (h : MemInv σ R) (hk : op.key < INT_MAX) (hx : rank σ x ≤ (op.key : ℤ)) :
    x ≠ tail := by
  rintro rfl
  rw [h.tail_rank] at hx
  exact absurd (WithBot.coe_le_coe.1 hx) (not_le.2 hk)

theorem not_live_of_avail (h : MemInv σ R) (ha : σ.avail x = true)
    (hr : ∀ r ∈ R, r ≠ head → ¬ σ.heap.Reach r x) : ¬ σ.heap.Live R x := by
  rintro ⟨r, hr', hx⟩
  by_cases hh : r = head
  · subst hh
    exact (h.avail ha).2 hx
  · exact hr r hr' hh hx

end MemInv

-- the slot is the one that the acting thread holds alone; then the roots and the memory after
inductive Effect (σ : Store V) (R : Set Loc) : Option Loc → Set Loc → Store V → Prop where
  | idle (h : Option Loc) : Effect σ R h R σ
  | touch (x : Loc) (l : Line (Node V)) (h : Option Loc) (live : σ.heap.Live R x)
    (evolves : Evolves (σ.line x) l) (ref : l.cur.next.ref = (σ.node x).next.ref)
    (sub : ∀ a ∈ l.contents, a = l.cur ∨ a ∈ (σ.line x).contents)
    (valid : l.cur.next.marked = true → isValid l.cur.metaData = true)
    (insertFlag : l.cur.insertFlag = true → AllValid l)
    (deleteFlag : l.cur.deleteFlag = true → AllMarked l)
    (alive : x = head → ¬ l.cur.next.marked = true)
    (atTail : x = tail → l.cur.next = Ptr.null) :
    Effect σ R h R (σ.setLine x l)
  | priv (x : Loc) (m : Node V) (fresh : ¬ σ.heap.Live R x) (unavail : σ.avail x = false)
    (lost : ¬ m.recovered = true) : Effect σ R (some x) R (σ.write x m)
  | link (p n c : Loc) (live : σ.heap.Live R p) (next : (σ.node p).next = Ptr.addr c)
    (fresh : ¬ σ.heap.Live R n) (unavail : σ.avail n = false)
    (new_next : (σ.node n).next = Ptr.addr c) (lt : rank σ p < (σ.node n).key)
    (gt : ((σ.node n).key : WithBot ℤ) < rank σ c) (bounded : (σ.node n).key < INT_MAX)
    (insertFlag : (σ.node n).insertFlag = false) (deleteFlag : (σ.node n).deleteFlag = false) :
    Effect σ R (some n) (insert n R) (σ.write p { σ.node p with next := Ptr.addr n })
  | unlink (p c : Loc) (succ : Ptr) (h : Option Loc) (live : σ.heap.Live R p)
    (next : (σ.node p).next = Ptr.addr c) (unmarked : succ.marked = false)
    (succ_next : (σ.node c).next = succ.mark) (marked : AllMarked (σ.line c)) :
    Effect σ R h R (σ.write p { σ.node p with next := succ })
  | take (x : Loc) (h : Option Loc) (avail : σ.avail x = true) (fresh : ¬ σ.heap.Live R x) :
    Effect σ R h R (σ.take x)
  | give (x : Loc) (linked : ¬ σ.heap.Linked x)
    (valid : isValid (σ.node x).metaData = true) : Effect σ R (some x) R (σ.give x)

section Write

variable {l : Line (Node V)}

theorem touch_steady (ev : Evolves (σ.line x) l)
    (ref : l.cur.next.ref = (σ.node x).next.ref) :
    Heap.Steady σ.heap
      (σ.setLine x l).heap R where
  head := rfl
  succ {y} _ := by
    change (Store.node _ y).next.ref = (σ.node y).next.ref
    rw [node_setLine]
    split
    · next h => rw [h, ref]
    · rfl
  rank {y} _ := by
    apply rank_congr
    by_cases h : y = x
    · rw [h, line_setLine_self]
      exact ev.key
    · rw [line_setLine_other σ l h]
  dead {y} _ hd := by
    change (Store.node _ y).next.marked = true
    rw [node_setLine]
    split
    · next h =>
      subst h
      rw [ev.next hd]
      exact hd
    · exact hd

theorem touch_memInv (h : MemInv σ R) (live : σ.heap.Live R x)
    (ev : Evolves (σ.line x) l) (ref : l.cur.next.ref = (σ.node x).next.ref)
    (sub : ∀ a ∈ l.contents, a = l.cur ∨ a ∈ (σ.line x).contents)
    (valid : l.cur.next.marked = true → isValid l.cur.metaData = true)
    (hi : l.cur.insertFlag = true → AllValid l) (hd : l.cur.deleteFlag = true → AllMarked l)
    (alive : x = head → ¬ l.cur.next.marked = true)
    (atTail : x = tail → l.cur.next = Ptr.null) :
    MemInv (σ.setLine x l) R := by
  have st := touch_steady (R := R) ev ref
  have hnode := node_setLine σ x l
  refine ⟨st.good h.good, st.ordered h.ordered, ?_, (st.linked h.good).2 h.tail_linked, ?_, ?_,
    ?_, ?_, ?_, ?_, ?_, ?_, ?_⟩
  · change ¬ (Store.node _ head).next.marked = true
    rw [hnode]
    split
    · next he => exact alive he.symm
    · exact h.head_alive
  · rw [hnode]
    split
    · next he => exact atTail he.symm
    · exact h.tail_next
  · rw [hnode]
    split
    · next he => rw [ev.key, ← he]; exact h.tail_key
    · exact h.tail_key
  · intro y hy ht
    rw [hnode]
    split
    · next he => rw [ref, ← he]; exact h.complete (st.live.1 hy) ht
    · exact h.complete (st.live.1 hy) ht
  · intro y hy ht
    have := st.rank (st.live.1 hy)
    exact lt_of_eq_of_lt this (h.bounded (st.live.1 hy) ht)
  · intro y hy hdy
    have hdy : (Store.node _ y).next.marked = true := hdy
    rw [hnode] at hdy ⊢
    split at hdy
    · next he => simpa [he] using valid hdy
    · next he => simpa [he] using h.valid (st.live.1 hy) hdy
  · intro y hy hf
    rw [hnode] at hf
    split at hf
    · next he => rw [he, line_setLine_self]; exact hi hf
    · next he => rw [line_setLine_other σ l he]; exact h.insertFlag (st.live.1 hy) hf
  · intro y hy hf
    rw [hnode] at hf
    split at hf
    · next he => rw [he, line_setLine_self]; exact hd hf
    · next he => rw [line_setLine_other σ l he]; exact h.deleteFlag (st.live.1 hy) hf
  · intro y a ha hr
    by_cases he : y = x
    · subst he
      rw [st.linked h.good, hnode, if_pos rfl]
      rw [line_setLine_self] at ha
      rcases sub a ha with rfl | ha
      · have hm := (recovered_iff.1 hr).2.1
        refine ⟨h.good.alive live fun hdead => ?_, rfl, rfl⟩
        rw [ev.next hdead] at hm
        exact absurd (hm.symm.trans hdead) (by simp)
      · have := h.recovered ha hr
        exact ⟨this.1, this.2.1.trans ev.key.symm, this.2.2.trans ev.value.symm⟩
    · rw [st.linked h.good, hnode, if_neg he]
      rw [line_setLine_other σ l he] at ha
      exact h.recovered ha hr
  · intro y hy
    have := h.avail hy
    rw [st.linked h.good, hnode]
    refine ⟨?_, this.2⟩
    split
    · next he => subst he; exact ev.valid this.1
    · exact this.1

theorem priv_steady {m : Node V} (fresh : ¬ σ.heap.Live R x) :
    Heap.Steady σ.heap (σ.write x m).heap R where
  head := rfl
  succ {y} hy := by
    have : y ≠ x := fun e => fresh (e ▸ hy)
    change ((σ.write x m).node y).next.ref = _
    simp only [Store.node, line_write_other σ m this]
    rfl
  rank {y} hy := by
    have : y ≠ x := fun e => fresh (e ▸ hy)
    exact rank_congr (by rw [line_write_other σ m this])
  dead {y} hy hd := by
    have : y ≠ x := fun e => fresh (e ▸ hy)
    change ((σ.write x m).node y).next.marked = true
    simp only [Store.node, line_write_other σ m this]
    exact hd

theorem priv_memInv {m : Node V} (h : MemInv σ R) (fresh : ¬ σ.heap.Live R x)
    (unavail : σ.avail x = false) (lost : ¬ m.recovered = true) :
    MemInv (σ.write x m) R := by
  have st := priv_steady (m := m) fresh
  have hne : ∀ {y}, (σ.write x m).heap.Live R y → y ≠ x := fun hy e => fresh (e ▸ st.live.1 hy)
  have hline : ∀ {y}, (σ.write x m).heap.Live R y → (σ.write x m).line y = σ.line y :=
    fun hy => line_write_other σ m (hne hy)
  have hnode : ∀ {y}, (σ.write x m).heap.Live R y → (σ.write x m).node y = σ.node y :=
    fun hy => by simp only [Store.node, hline hy]
  have hheadL : (σ.write x m).heap.Live R head := st.live.2 h.head_live
  have htailL : (σ.write x m).heap.Live R tail := st.live.2 h.tail_live
  refine ⟨st.good h.good, st.ordered h.ordered, ?_, (st.linked h.good).2 h.tail_linked, ?_, ?_,
    ?_, ?_, ?_, ?_, ?_, ?_, ?_⟩
  · change ¬ ((σ.write x m).node head).next.marked = true
    rw [hnode hheadL]
    exact h.head_alive
  · rw [hnode htailL]
    exact h.tail_next
  · rw [hnode htailL]
    exact h.tail_key
  · intro y hy ht
    rw [hnode hy]
    exact h.complete (st.live.1 hy) ht
  · intro y hy ht
    exact lt_of_eq_of_lt (st.rank (st.live.1 hy)) (h.bounded (st.live.1 hy) ht)
  · intro y hy hd
    have hd : ((σ.write x m).node y).next.marked = true := hd
    rw [hnode hy] at hd ⊢
    exact h.valid (st.live.1 hy) hd
  · intro y hy hf
    rw [hnode hy] at hf
    rw [hline hy]
    exact h.insertFlag (st.live.1 hy) hf
  · intro y hy hf
    rw [hnode hy] at hf
    rw [hline hy]
    exact h.deleteFlag (st.live.1 hy) hf
  · intro y a ha hr
    by_cases he : y = x
    · subst he
      rw [line_write_self, Line.mem_write] at ha
      rcases ha with rfl | ha
      · exact absurd hr lost
      · exact absurd (h.good.live_of_linked (h.recovered ha hr).1) fresh
    · rw [line_write_other σ m he] at ha
      rw [st.linked h.good]
      simpa only [Store.node, line_write_other σ m he] using h.recovered ha hr
  · intro y hy
    have he : y ≠ x := by
      rintro rfl
      rw [avail_write, unavail] at hy
      cases hy
    rw [st.linked h.good]
    simpa only [Store.node, line_write_other σ m he] using h.avail (x := y) hy

end Write

section Link

variable {succ : Ptr}

theorem node_next (σ : Store V) (p : Loc) (q : Ptr) (y : Loc) :
    ((σ.write p { σ.node p with next := q }).node y).next =
      if y = p then q else (σ.node y).next := by
  rw [node_write]
  split <;> rfl

theorem next_rank (σ : Store V) (p : Loc) (q : Ptr) (y : Loc) :
    rank (σ.write p { σ.node p with next := q }) y = rank σ y := by
  apply rank_congr
  by_cases h : y = p
  · rw [h, line_write_self]
    rfl
  · rw [line_write_other σ _ h]

theorem addr_of_alive (hd : ¬ σ.heap.dead n) (hs : (σ.node n).next.ref = some c) :
    (σ.node n).next = Ptr.addr c := by
  have hd : ¬ (σ.node n).next.marked = true := hd
  rcases hq : (σ.node n).next with ⟨r, m⟩
  rw [hq] at hd hs
  simp_all [Ptr.addr]

theorem alive_of_addr (h : (σ.node p).next = Ptr.addr c) : ¬ σ.heap.dead p := by
  change ¬ (σ.node p).next.marked = true
  rw [h]
  exact Bool.false_ne_true

theorem succ_of_addr (h : (σ.node p).next = Ptr.addr c) : σ.heap.succ p = some c := by
  change (σ.node p).next.ref = some c
  rw [h]
  rfl

theorem evolves_next (h : (σ.node p).next = Ptr.addr c) {q : Ptr} (hq : q.ref ≠ none) :
    Evolves (σ.line p) ((σ.line p).write { σ.node p with next := q }) := by
  refine evolves_write rfl rfl (fun hm => ?_) (fun _ => hq) id
  exact absurd hm (alive_of_addr h)

theorem next_fields (h : MemInv σ R) (live : σ.heap.Live R p)
    (hp : (σ.node p).next = Ptr.addr c) {q : Ptr} (hq : q.ref ≠ none) (hm : q.marked = false)
    {y : Loc} (hy : σ.heap.Live R y) (σ' : Store V)
    (hσ : σ' = σ.write p { σ.node p with next := q }) :
    (y ≠ tail → (σ'.node y).next.ref ≠ none) ∧
      (σ'.heap.dead y → isValid (σ'.node y).metaData = true) ∧
      ((σ'.node y).insertFlag = true → AllValid (σ'.line y)) ∧
      ((σ'.node y).deleteFlag = true → AllMarked (σ'.line y)) := by
  subst hσ
  have ev := evolves_next hp hq
  by_cases he : y = p
  · subst he
    refine ⟨fun _ => ?_, fun hd => ?_, fun hf => ?_, fun hf => ?_⟩
    · rw [node_next, if_pos rfl]
      exact hq
    · have hd : ((σ.write y { σ.node y with next := q }).node y).next.marked = true := hd
      rw [node_next, if_pos rfl, hm] at hd
      cases hd
    · rw [line_write_self]
      rw [node_write, if_pos rfl] at hf
      exact ev.allValid (h.insertFlag live hf)
    · rw [line_write_self]
      rw [node_write, if_pos rfl] at hf
      exact ev.marked (h.deleteFlag live hf)
  · have hl := line_write_other σ { σ.node p with next := q } he
    have hn : (σ.write p { σ.node p with next := q }).node y = σ.node y := by
      rw [node_write, if_neg he]
    rw [hn, hl]
    refine ⟨h.complete hy, fun hd => h.valid hy ?_, h.insertFlag hy, h.deleteFlag hy⟩
    have hd : ((σ.write p { σ.node p with next := q }).node y).next.marked = true := hd
    rw [hn] at hd
    exact hd

theorem next_recovered (h : MemInv σ R) (live : σ.heap.Live R p)
    (hp : (σ.node p).next = Ptr.addr c) {q : Ptr} {a : Node V}
    (ha : a ∈ ((σ.write p { σ.node p with next := q }).line y).contents)
    (hr : a.recovered = true) : σ.heap.Linked y ∧ a.key = (σ.node y).key ∧
      a.value = (σ.node y).value := by
  by_cases he : y = p
  · subst he
    rw [line_write_self, Line.mem_write] at ha
    rcases ha with rfl | ha
    · exact ⟨h.good.alive live (alive_of_addr hp), rfl, rfl⟩
    · exact h.recovered ha hr
  · rw [line_write_other σ _ he] at ha
    exact h.recovered ha hr

theorem next_key (σ : Store V) (p : Loc) (q : Ptr) (y : Loc) :
    ((σ.write p { σ.node p with next := q }).node y).key = (σ.node y).key ∧
      ((σ.write p { σ.node p with next := q }).node y).value = (σ.node y).value ∧
      ((σ.write p { σ.node p with next := q }).node y).metaData = (σ.node y).metaData := by
  rw [node_write]
  split
  · next h => rw [h]; exact ⟨rfl, rfl, rfl⟩
  · exact ⟨rfl, rfl, rfl⟩

theorem link_splice (live : σ.heap.Live R p) (next : (σ.node p).next = Ptr.addr c)
    (fresh : ¬ σ.heap.Live R n) (new_next : (σ.node n).next = Ptr.addr c) :
    Heap.Splice σ.heap (σ.write p { σ.node p with next := Ptr.addr n }).heap R p n c := by
  have hne : n ≠ p := fun e => fresh (e ▸ live)
  have hnext := node_next σ p (Ptr.addr n)
  refine ⟨rfl, live, alive_of_addr next, succ_of_addr next, fresh, ?_, ?_, ?_, ?_, ?_, ?_⟩
  · exact (congrArg Ptr.ref (hnext p)).trans (by rw [if_pos rfl]; rfl)
  · exact (congrArg Ptr.ref (hnext n)).trans (by rw [if_neg hne, new_next]; rfl)
  · change ¬ (((σ.write p { σ.node p with next := Ptr.addr n }).node n).next.marked = true)
    rw [hnext, if_neg hne, new_next]
    exact Bool.false_ne_true
  · intro y _ hy
    exact (congrArg Ptr.ref (hnext y)).trans (by rw [if_neg hy]; rfl)
  · exact fun _ => next_rank σ p _ _
  · intro y _
    change ((σ.write p { σ.node p with next := Ptr.addr n }).node y).next.marked = true ↔
      (σ.node y).next.marked = true
    rw [hnext]
    split
    · next he => rw [he, next]; exact Iff.rfl
    · exact Iff.rfl

theorem link_memInv (h : MemInv σ R) (live : σ.heap.Live R p)
    (next : (σ.node p).next = Ptr.addr c) (fresh : ¬ σ.heap.Live R n)
    (unavail : σ.avail n = false) (new_next : (σ.node n).next = Ptr.addr c)
    (lt : rank σ p < (σ.node n).key) (gt : ((σ.node n).key : WithBot ℤ) < rank σ c)
    (bounded : (σ.node n).key < INT_MAX) (hi : (σ.node n).insertFlag = false)
    (hd : (σ.node n).deleteFlag = false) :
    MemInv (σ.write p { σ.node p with next := Ptr.addr n }) (insert n R) := by
  have sp := link_splice live next fresh new_next
  have hne : n ≠ p := fun e => fresh (e ▸ live)
  have hnh : n ≠ head := fun e => fresh (e ▸ h.head_live)
  have hrn : rank σ n = ((σ.node n).key : ℤ) := rank_of_ne σ hnh
  have hnode : (σ.write p { σ.node p with next := Ptr.addr n }).node n = σ.node n := by
    rw [node_write, if_neg hne]
  have hlive : ∀ {y}, (σ.write p { σ.node p with next := Ptr.addr n }).heap.Live (insert n R) y →
      σ.heap.Live R y ∨ y = n := by
    rintro y ⟨r, rfl | hr, hy⟩
    · rcases sp.reach_from_new hy with rfl | hy
      · exact Or.inr rfl
      · have hc := sp.pred.succ sp.pred_succ
        rcases sp.reach_or hc hy with hy | ⟨rfl, _⟩
        · exact Or.inl (hc.reach hy)
        · exact Or.inr rfl
    · exact sp.live_or ⟨r, hr, hy⟩
  have hf := fun {y : Loc} (hy : σ.heap.Live R y) =>
    next_fields h live next (q := Ptr.addr n) (by simp [Ptr.addr]) rfl hy _ rfl
  have hkey := next_key σ p (Ptr.addr n)
  refine ⟨sp.good h.good, sp.ordered h.ordered ?_ ?_, ?_, ?_, ?_, ?_, ?_, ?_, ?_, ?_, ?_, ?_, ?_⟩
  · exact lt_of_lt_of_eq lt (hrn.symm.trans (next_rank σ p _ n).symm)
  · exact lt_of_eq_of_lt ((next_rank σ p _ n).trans hrn) gt
  · exact fun hx => h.head_alive ((sp.dead h.head_live).1 hx)
  · exact (sp.linked h.good).2 (Or.inl h.tail_linked)
  · rw [node_next]
    split
    · next he =>
      rw [← he, h.tail_next] at next
      cases next
    · exact h.tail_next
  · rw [(hkey tail).1]
    exact h.tail_key
  · intro y hy ht
    rcases hlive hy with hy | rfl
    · exact (hf hy).1 ht
    · rw [hnode, new_next]
      exact Option.some_ne_none _
  · intro y hy ht
    rw [next_rank]
    rcases hlive hy with hy | rfl
    · exact h.bounded hy ht
    · rw [hrn]
      exact WithBot.coe_lt_coe.2 bounded
  · intro y hy hdy
    rcases hlive hy with hy | rfl
    · exact (hf hy).2.1 hdy
    · exact absurd hdy sp.new_alive'
  · intro y hy hfl
    rcases hlive hy with hy | rfl
    · exact (hf hy).2.2.1 hfl
    · rw [hnode, hi] at hfl
      cases hfl
  · intro y hy hfl
    rcases hlive hy with hy | rfl
    · exact (hf hy).2.2.2 hfl
    · rw [hnode, hd] at hfl
      cases hfl
  · intro y a ha hr
    obtain ⟨h1, h2, h3⟩ := next_recovered h live next ha hr
    rw [(hkey y).1, (hkey y).2.1, sp.linked h.good]
    exact ⟨Or.inl h1, h2, h3⟩
  · intro y hy
    have := h.avail (x := y) hy
    rw [(hkey y).2.2, sp.linked h.good]
    refine ⟨this.1, fun hx => ?_⟩
    rcases hx with hx | rfl
    · exact this.2 hx
    · rw [avail_write, unavail] at hy
      cases hy

theorem unlink_succ (h : MemInv σ R) (live : σ.heap.Live R p)
    (next : (σ.node p).next = Ptr.addr c) (succ_next : (σ.node c).next = succ.mark) :
    ∃ d, σ.heap.succ c = some d ∧ succ.ref = some d := by
  have hc : σ.heap.dead c := by
    change (σ.node c).next.marked = true
    rw [succ_next]
    rfl
  have := h.complete (live.succ (succ_of_addr next)) (h.ne_tail_of_dead hc)
  obtain ⟨d, hd⟩ := Option.ne_none_iff_exists'.1 this
  refine ⟨d, hd, ?_⟩
  rw [succ_next] at hd
  exact hd

theorem unlink_bypass {d : Loc} (h : MemInv σ R) (live : σ.heap.Live R p)
    (next : (σ.node p).next = Ptr.addr c) (unmarked : succ.marked = false)
    (succ_next : (σ.node c).next = succ.mark) (hd : succ.ref = some d) :
    Heap.Bypass σ.heap (σ.write p { σ.node p with next := succ }).heap R p c d := by
  have hcd : σ.heap.succ c = some d := by
    change (σ.node c).next.ref = some d
    rw [succ_next]
    exact hd
  have hnext := node_next σ p succ
  refine ⟨rfl, live, alive_of_addr next, succ_of_addr next, Heap.Reach.single hcd, ?_, ?_, ?_, ?_, ?_⟩
  · intro y hy
    rw [h.good.between_single (live.succ (succ_of_addr next)) hcd hy]
    change (σ.node c).next.marked = true
    rw [succ_next]
    rfl
  · exact (congrArg Ptr.ref (hnext p)).trans (by rw [if_pos rfl]; exact hd)
  · intro y _ hy
    exact (congrArg Ptr.ref (hnext y)).trans (by rw [if_neg hy]; rfl)
  · exact fun _ => next_rank σ p _ _
  · intro y _
    change ((σ.write p { σ.node p with next := succ }).node y).next.marked = true ↔
      (σ.node y).next.marked = true
    rw [hnext]
    split
    · next he => rw [he, next, unmarked]; exact Iff.rfl
    · exact Iff.rfl

theorem unlink_linked (h : MemInv σ R) (live : σ.heap.Live R p)
    (next : (σ.node p).next = Ptr.addr c) (unmarked : succ.marked = false)
    (succ_next : (σ.node c).next = succ.mark) :
    (σ.write p { σ.node p with next := succ }).heap.Linked y ↔ σ.heap.Linked y ∧ y ≠ c := by
  obtain ⟨d, hcd, hd⟩ := unlink_succ h live next succ_next
  have bp := unlink_bypass h live next unmarked succ_next hd
  have hc := live.succ (succ_of_addr next)
  rw [bp.linked h.good]
  refine and_congr_right fun _ => not_congr ⟨h.good.between_single hc hcd, ?_⟩
  rintro rfl
  refine ⟨Heap.Reach.refl _, Heap.Reach.single hcd, ?_⟩
  rintro rfl
  exact h.good.acyclic hc hcd (Heap.Reach.refl _)

theorem unlink_memInv (h : MemInv σ R) (live : σ.heap.Live R p)
    (next : (σ.node p).next = Ptr.addr c) (unmarked : succ.marked = false)
    (succ_next : (σ.node c).next = succ.mark) (marked : AllMarked (σ.line c)) :
    MemInv (σ.write p { σ.node p with next := succ }) R := by
  obtain ⟨d, hcd, hd⟩ := unlink_succ h live next succ_next
  have bp := unlink_bypass h live next unmarked succ_next hd
  have hlink := @unlink_linked V σ R
  have hf := fun {y : Loc} (hy : σ.heap.Live R y) =>
    next_fields h live next (q := succ) (by rw [hd]; exact Option.some_ne_none _) unmarked hy _ rfl
  have hkey := next_key σ p succ
  have hcdead : σ.heap.dead c := marked.cur
  refine ⟨bp.good h.good, bp.ordered h.ordered, ?_, ?_, ?_, ?_, ?_, ?_, ?_, ?_, ?_, ?_, ?_⟩
  · exact fun hx => h.head_alive ((bp.dead h.head_live).1 hx)
  · exact (hlink h live next unmarked succ_next).2
      ⟨h.tail_linked, fun e => h.ne_tail_of_dead hcdead e.symm⟩
  · rw [node_next]
    split
    · next he =>
      rw [← he, h.tail_next] at next
      cases next
    · exact h.tail_next
  · rw [(hkey tail).1]
    exact h.tail_key
  · exact fun hy ht => (hf (bp.live_of' hy)).1 ht
  · intro y hy ht
    rw [next_rank]
    exact h.bounded (bp.live_of' hy) ht
  · exact fun hy hdy => (hf (bp.live_of' hy)).2.1 hdy
  · exact fun hy hfl => (hf (bp.live_of' hy)).2.2.1 hfl
  · exact fun hy hfl => (hf (bp.live_of' hy)).2.2.2 hfl
  · intro y a ha hr
    obtain ⟨h1, h2, h3⟩ := next_recovered h live next ha hr
    rw [(hkey y).1, (hkey y).2.1, hlink h live next unmarked succ_next]
    refine ⟨⟨h1, ?_⟩, h2, h3⟩
    rintro rfl
    have hyp : y ≠ p := by
      rintro rfl
      exact alive_of_addr next hcdead
    rw [line_write_other σ _ hyp] at ha
    exact not_recovered_of_marked (marked a ha) hr
  · intro y hy
    have := h.avail (x := y) hy
    rw [(hkey y).2.2, hlink h live next unmarked succ_next]
    exact ⟨this.1, fun hx => this.2 hx.1⟩

end Link

theorem take_memInv (h : MemInv σ R) : MemInv (σ.take x) R := by
  refine ⟨h.good, h.ordered, h.head_alive, h.tail_linked, h.tail_next, h.tail_key, h.complete,
    h.bounded, h.valid, h.insertFlag, h.deleteFlag, h.recovered, ?_⟩
  intro y hy
  have : σ.avail y = true := by
    by_cases he : y = x
    · subst he
      simp [Store.take] at hy
    · simpa [Store.take, he] using hy
  exact h.avail this

theorem give_memInv (h : MemInv σ R) (linked : ¬ σ.heap.Linked x)
    (valid : isValid (σ.node x).metaData = true) : MemInv (σ.give x) R := by
  refine ⟨h.good, h.ordered, h.head_alive, h.tail_linked, h.tail_next, h.tail_key, h.complete,
    h.bounded, h.valid, h.insertFlag, h.deleteFlag, h.recovered, ?_⟩
  intro y hy
  by_cases he : y = x
  · subst he
    exact ⟨valid, linked⟩
  · exact h.avail (by simpa [Store.give, he] using hy)

theorem Effect.memInv {h : Option Loc} {R' : Set Loc} (hm : MemInv σ R)
    (e : Effect σ R h R' σ') : MemInv σ' R' := by
  cases e with
  | idle => exact hm
  | touch x l h live ev ref sub valid hi hd alive atTail =>
    exact touch_memInv hm live ev ref sub valid hi hd alive atTail
  | priv x m fresh unavail lost => exact priv_memInv hm fresh unavail lost
  | link p n c live next fresh unavail new_next lt gt bounded hi hd =>
    exact link_memInv hm live next fresh unavail new_next lt gt bounded hi hd
  | unlink p c succ h live next unmarked succ_next marked =>
    exact unlink_memInv hm live next unmarked succ_next marked
  | take x h avail fresh => exact take_memInv hm
  | give x linked valid => exact give_memInv hm linked valid

end LinkFree.List
