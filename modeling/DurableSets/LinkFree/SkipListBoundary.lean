import DurableSets.LinkFree.SkipListSequential

namespace LinkFree.SkipList

open Chain

variable {V : Type} {σ σ' : Store V} {s s' : State V} {t : Tid} {op : SetOp V} {pc pc' : Pc}
  {n x p q c d : Loc} {i : ℕ} {A : Set ℤ} {a b : Store V × Pc} {k : ℤ} {r : Bool} {path : Path}

def Plain (op : SetOp V) (a b : Store V × Pc) : Prop :=
  (∀ path, a.2 ≠ .alloc path) ∧ next a.1 op 0 0 a.2 = some b

theorem goto_goto (c c' : Option (SetOp V × Pc)) :
    (s.goto σ t c).goto σ' t c' = s.goto σ' t c' := by simp [State.goto]

theorem tau_of_plain (h : Relation.ReflTransGen (Plain op) a b) :
    Relation.ReflTransGen ((machine V).Tau t) (s.goto a.1 t (some (op, a.2)))
      (s.goto b.1 t (some (op, b.2))) := by
  refine h.lift (fun a => s.goto a.1 t (some (op, a.2))) ?_
  rintro ⟨σ, pc⟩ ⟨σ', pc'⟩ ⟨hne, hn⟩
  have hs : Step (s.goto σ t (some (op, pc))) (.tau t) _ :=
    Step.tau t op pc pc' 0 0 σ' (goto_thread_self _ _ _ _) hn fun d he => absurd he (hne d)
  rwa [goto_goto] at hs

theorem step_plain (h : Relation.ReflTransGen (Plain op) a b) (hn : next σ op 0 0 pc = some a)
    (hne : ∀ path, pc ≠ .alloc path) : Relation.ReflTransGen (Plain op) (σ, pc) b :=
  Relation.ReflTransGen.head ⟨hne, hn⟩ h

theorem goesWrong_of_stop (h : Relation.ReflTransGen (Plain op) (s.store, start op) (σ, pc))
    (stop : ∀ slot level, next σ op slot level pc = none)
    (wrong : ∀ r, pc = .ret r → ¬ (r = true ↔ op.Accepts A)) :
    (machine V).GoesWrong (enter t) t Guarded op A s := by
  have ht := goto_thread_self s σ t (some (op, pc))
  refine ⟨_, tau_of_plain h, Or.inr ⟨fun u hu => ?_, fun r u hr => ?_⟩⟩
  · have hu : Step _ (.tau t) u := hu
    cases hu with
    | tau _ op1 pc1 pc2 slot level σ2 h1 hn _ =>
      obtain ⟨rfl, rfl⟩ := Prod.mk.inj (Option.some.inj (ht.symm.trans h1))
      exact nomatch (stop slot level).symm.trans hn
  · have hr : Step _ (.ret t r) u := hr
    cases hr with
    | ret _ op1 _ h1 =>
      obtain ⟨rfl, rfl⟩ := Prod.mk.inj (Option.some.inj (ht.symm.trans h1))
      exact wrong r rfl

theorem validLoad_plain (op : SetOp V) (σ : Store V) (e : ValidCtx) (n : Loc) : ∃ σ',
    Relation.ReflTransGen (Plain op) (σ, .validLoad e n) (σ', afterValid σ n e) ∧
      (σ'.node n).next = (σ.node n).next := by
  by_cases hv : isValid (σ.node n).metaData = true
  · exact ⟨σ, step_plain Relation.ReflTransGen.refl (by simp only [next, if_pos hv]) (by rintro _ ⟨⟩), rfl⟩
  · have store : ∀ old, Relation.ReflTransGen (Plain op) (σ, .validStore e n old)
        (σ.write n { σ.node n with metaData := makeValid old }, afterValid σ n e) := fun old =>
      step_plain Relation.ReflTransGen.refl rfl (by rintro _ ⟨⟩)
    refine ⟨_, step_plain (store (σ.node n).metaData) (by simp only [next, if_neg hv]) (by rintro _ ⟨⟩), ?_⟩
    rw [node_write_self]

theorem insertLoad_plain (op : SetOp V) (σ : Store V) (e : InsertCtx) (n : Loc) : ∃ σ',
    Relation.ReflTransGen (Plain op) (σ, .insertLoad e n) (σ', afterInsert σ n e) := by
  by_cases hf : (σ.node n).insertFlag = true
  · exact ⟨σ, step_plain Relation.ReflTransGen.refl (by simp only [next, if_pos hf]) (by rintro _ ⟨⟩)⟩
  · have store : Relation.ReflTransGen (Plain op) (σ.flush n, .insertStore e n)
        ((σ.flush n).write n { (σ.flush n).node n with insertFlag := true },
          afterInsert (σ.flush n) n e) :=
      step_plain Relation.ReflTransGen.refl rfl (by rintro _ ⟨⟩)
    have hafter : afterInsert (σ.flush n) n e = afterInsert σ n e := by
      cases e with
      | linked path => simp only [afterInsert, upper, node_flush]
      | _ => rfl
    rw [hafter] at store
    have flush : Relation.ReflTransGen (Plain op) (σ, .insertFlush e n) _ :=
      step_plain store rfl (by rintro _ ⟨⟩)
    exact ⟨_, step_plain flush (by simp only [next, if_neg hf]) (by rintro _ ⟨⟩)⟩

theorem Whole.key_lt (h : Whole A s) (hi : i < MAX_LEVEL) (hl : (s.store.level i).Linked x)
    (hh : x ≠ head) (ht : x ≠ tail) : (s.store.node x).key < INT_MAX := by
  have hm := h.inv.inv.mem
  obtain ⟨hl0, _⟩ := linked_below hm hi (hm.live_of_linked_at hi hl) (h.alive hi hl) (Nat.zero_le i)
  have hb := h.inv.inv.one.mem.bounded hl0 ht
  rw [rank_of_ne _ hh] at hb
  exact WithBot.coe_lt_coe.1 hb

theorem Whole.notMem (h : Whole A s) (hk : INT_MAX ≤ k) : k ∉ A := by
  rw [← h.abs]
  rintro ⟨x, hh, ht, hl, _, rfl⟩
  exact absurd (h.key_lt (by decide) hl hh ht) (not_lt.2 hk)

theorem Whole.tail_linked (h : Whole A s) (hi : i < MAX_LEVEL) :
    (s.store.level i).Linked tail ∧ ¬ s.store.dead i tail :=
  have hg := h.inv.guarded i hi
  ⟨hg.1, hg.2.2⟩

theorem Whole.to_tail (h : Whole A s) (hi : i < MAX_LEVEL) {P : Loc → Prop} (htail : P tail)
    (pass : ∀ c d, (s.store.level i).Linked c → ¬ s.store.dead i c →
      (s.store.node c).key < INT_MAX → ((s.store.node c).next i).ref = some d →
      P d → P c)
    (hx : (s.store.level i).Linked x) (hs : ((s.store.node x).next i).ref = some c) : P c := by
  have hm := h.inv.inv.mem
  have hcl : (s.store.level i).Linked c := Heap.Reach.tail hx hs
  have hr : (s.store.level i).Reach c tail := hm.sound.ends (hm.live_of_linked_at hi hcl)
  induction hr using Relation.ReflTransGen.head_induction_on generalizing x with
  | refl => exact htail
  | @head c d hcd _ ih =>
    have hcd : ((s.store.node c).next i).ref = some d := hcd
    have hch : c ≠ head := hm.succ_ne_head (hm.live_of_linked_at hi hx) hs
    have hct : c ≠ tail := by
      rintro rfl
      rw [hm.tail_next i] at hcd
      cases hcd
    exact pass c d hcl (h.alive hi hcl) (h.key_lt hi hcl hch hct) hcd
      (ih hcl hcd (Heap.Reach.tail hcl hcd))

theorem Whole.succ (h : Whole A s) (hi : i < MAX_LEVEL) (hl : (s.store.level i).Linked x)
    (ht : x ≠ tail) : ∃ c, ((s.store.node x).next i).ref = some c :=
  h.inv.inv.mem.sound.succ_ne_none (h.inv.inv.mem.live_of_linked_at hi hl) ht

theorem ne_tail_of_succ {L : Set Cursor} {G : ℕ} (hm : MemInv σ G L)
    (h : ((σ.node x).next i).ref = some c) : x ≠ tail := by
  rintro rfl
  rw [hm.tail_next i] at h
  cases h

theorem Whole.search_level (h : Whole A s) (op : SetOp V) (hk : INT_MAX ≤ op.key)
    (hi : i < MAX_LEVEL) (hl : (s.store.level i).Linked x) (ht : x ≠ tail) (path : Path) :
    ∃ q, (s.store.level i).Linked q ∧ q ≠ tail ∧ Relation.ReflTransGen (Plain op)
      (s.store, .searchDown i x path) (s.store, .searchTest i q tail path) := by
  obtain ⟨c, hc⟩ := h.succ hi hl ht
  have walk := h.to_tail hi (P := fun c => ∀ p, (s.store.level i).Linked p → p ≠ tail → ∃ q,
    (s.store.level i).Linked q ∧ q ≠ tail ∧ Relation.ReflTransGen (Plain op)
      (s.store, .searchTest i p c path) (s.store, .searchTest i q tail path))
    (fun p hp hpt => ⟨p, hp, hpt, Relation.ReflTransGen.refl⟩)
    (fun c d hcl hd hlt hs ih p _ _ => ?_) hl hc x hl ht
  · obtain ⟨q, hq, hqt, hw⟩ := walk
    exact ⟨q, hq, hqt, step_plain hw (Option.map_eq_some_iff.2 ⟨c, hc, rfl⟩) nofun⟩
  · obtain ⟨q, hq, hqt, hw⟩ := ih c hcl (ne_tail_of_succ h.inv.inv.mem hs)
    have step : Relation.ReflTransGen (Plain op) (s.store, .searchNext i c c path) _ :=
      step_plain hw (Option.map_eq_some_iff.2 ⟨d, hs, rfl⟩) nofun
    refine ⟨q, hq, hqt, step_plain step ?_ nofun⟩
    simp only [next]
    rw [if_neg (show ¬ ((s.store.node c).next i).isMarked = true from hd),
      if_neg (not_le.2 (hlt.trans_le hk))]

theorem Whole.contains_tail (h : Whole A s) (op : SetOp V) (hk : INT_MAX ≤ op.key) : ∃ q,
    Relation.ReflTransGen (Plain op) (s.store, .containsDown (MAX_LEVEL - 1) head)
      (s.store, .containsTest (MAX_LEVEL - 1) q tail) := by
  have hi : MAX_LEVEL - 1 < MAX_LEVEL := by decide
  have hl : (s.store.level (MAX_LEVEL - 1)).Linked head := Heap.Reach.refl _
  obtain ⟨c, hc⟩ := h.succ hi hl (by decide)
  have walk := h.to_tail hi (P := fun c => ∀ p, ∃ q, Relation.ReflTransGen (Plain op)
    (s.store, .containsTest (MAX_LEVEL - 1) p c) (s.store, .containsTest (MAX_LEVEL - 1) q tail))
    (fun p => ⟨p, Relation.ReflTransGen.refl⟩) (fun c d _ hd hlt hs ih p => ?_) hl hc head
  · obtain ⟨q, hw⟩ := walk
    exact ⟨q, step_plain hw (Option.map_eq_some_iff.2 ⟨c, hc, rfl⟩) nofun⟩
  · obtain ⟨q, hw⟩ := ih c
    have step : Relation.ReflTransGen (Plain op) (s.store, .containsNext (MAX_LEVEL - 1) c c) _ :=
      step_plain hw (Option.map_eq_some_iff.2 ⟨d, hs, rfl⟩) nofun
    have pass : Relation.ReflTransGen (Plain op) (s.store, .containsPass (MAX_LEVEL - 1) p c) _ :=
      step_plain step (if_neg hd) nofun
    exact ⟨q, step_plain pass (if_pos (Or.inl (hlt.trans_le hk))) nofun⟩

-- behind the tail there is nothing to go on to
theorem Whole.lost (h : Whole A s) (hk : INT_MAX < op.key) :
    (machine V).GoesWrong (enter t) t Guarded op A s := by
  have hm := h.inv.inv.mem
  have hi : MAX_LEVEL - 1 < MAX_LEVEL := by decide
  have hkt : (s.store.node tail).key < op.key := hm.tail_key.trans_lt hk
  have hd := (h.tail_linked hi).2
  have hsearch : start op = retry → (machine V).GoesWrong (enter t) t Guarded op A s := by
    intro he
    obtain ⟨q, _, _, hq⟩ := h.search_level op hk.le hi (Heap.Reach.refl head) (by decide) []
    have hnext : Relation.ReflTransGen (Plain op) (s.store, start op)
        (s.store, .searchNext (MAX_LEVEL - 1) tail tail []) := by
      rw [he]
      refine hq.trans (step_plain Relation.ReflTransGen.refl ?_ (by rintro _ ⟨⟩))
      exact (if_neg hd).trans (if_neg (not_le.2 hkt))
    refine goesWrong_of_stop hnext (fun slot level => ?_) (by rintro _ ⟨⟩)
    simp only [next, hm.tail_next]
    rfl
  cases op with
  | insert k v => exact hsearch rfl
  | remove k => exact hsearch rfl
  | contains k =>
    obtain ⟨q, hq⟩ := h.contains_tail (.contains k) hk.le
    have step : Relation.ReflTransGen (Plain (.contains k : SetOp V))
        (s.store, .containsPass (MAX_LEVEL - 1) q tail)
        (s.store, .containsNext (MAX_LEVEL - 1) tail tail) :=
      step_plain Relation.ReflTransGen.refl (if_neg hd) (by rintro _ ⟨⟩)
    have pass : Relation.ReflTransGen (Plain (.contains k : SetOp V))
        (s.store, .containsTest (MAX_LEVEL - 1) q tail) _ :=
      step_plain step (if_pos (Or.inl hkt)) (by rintro _ ⟨⟩)
    refine goesWrong_of_stop (hq.trans pass) (fun slot level => ?_) (by rintro _ ⟨⟩)
    simp only [next, hm.tail_next]
    rfl

theorem Whole.search_tail (h : Whole A s) (op : SetOp V) (hk : op.key = INT_MAX)
    (hi : i < MAX_LEVEL) (hl : (s.store.level i).Linked x) (ht : x ≠ tail) (path : Path) :
    ∃ q rest, Relation.ReflTransGen (Plain op)
      (s.store, .searchDown i x path) (s.store, afterSearch s.store op q tail rest) := by
  have hm := h.inv.inv.mem
  have down : ∀ i < MAX_LEVEL, ∀ q path, Relation.ReflTransGen (Plain op)
      (s.store, .searchTest i q tail path) (s.store, searchDone s.store op q tail path i) := by
    intro i hi q path
    refine step_plain Relation.ReflTransGen.refl ?_ nofun
    simp only [next]
    rw [if_neg (show ¬ ((s.store.node tail).next i).isMarked = true from (h.tail_linked hi).2),
      if_pos (hm.tail_key.trans hk.symm).ge]
  induction i generalizing x path with
  | zero =>
    obtain ⟨q, _, _, hw⟩ := h.search_level op hk.ge hi hl ht path
    exact ⟨q, path, hw.trans (down 0 hi q path)⟩
  | succ i ih =>
    obtain ⟨q, hq, hqt, hw⟩ := h.search_level op hk.ge hi hl ht path
    have hq' := (linked_below hm hi (hm.live_of_linked_at hi hq) (h.alive hi hq) (Nat.le_succ i)).1
    obtain ⟨q', rest, hw'⟩ := ih (by omega) hq' hqt (keepPath op q tail path)
    exact ⟨q', rest, (hw.trans (down _ hi q path)).trans hw'⟩

-- the tail is taken for a node that holds the key
theorem Whole.fooled (h : Whole A s) (hk : op.key = INT_MAX) :
    (machine V).GoesWrong (enter t) t Guarded op A s := by
  have hm := h.inv.inv.mem
  have hi : MAX_LEVEL - 1 < MAX_LEVEL := by decide
  have hkt : (s.store.node tail).key = op.key := hm.tail_key.trans hk.symm
  have hno := h.notMem hk.ge
  cases op with
  | insert k v =>
    obtain ⟨q, rest, hq⟩ := h.search_tail (.insert k v) hk hi (Heap.Reach.refl head) (by decide) []
    have found : afterSearch s.store (.insert k v) q tail rest = .validLoad .found tail :=
      if_pos hkt
    rw [found] at hq
    obtain ⟨σ1, h1, _⟩ := validLoad_plain (.insert k v) s.store .found tail
    obtain ⟨σ2, h2⟩ := insertLoad_plain (.insert k v) σ1 .found tail
    refine goesWrong_of_stop (hq.trans (h1.trans h2)) (fun _ _ => rfl) ?_
    rintro r he hr
    cases he
    cases hr.2 hno
  | remove k =>
    obtain ⟨q, rest, hq⟩ := h.search_tail (.remove k) hk hi (Heap.Reach.refl head) (by decide) []
    have found : afterSearch s.store (.remove k) q tail rest = .validLoad .removing tail :=
      if_pos hkt
    rw [found] at hq
    obtain ⟨σ1, h1, hn1⟩ := validLoad_plain (.remove k) s.store .removing tail
    obtain ⟨hpos, hle⟩ := hm.level (hm.live_of_linked_at hi (h.tail_linked hi).1)
    generalize hj : (s.store.node tail).topLevel - 1 = j at hpos
    have hjm : j < MAX_LEVEL := by omega
    have hnext : (σ1.node tail).next j = Ptr.null := by rw [hn1, hm.tail_next]
    have hcas : Relation.ReflTransGen (Plain (.remove k : SetOp V)) (σ1, .markCas tail j Ptr.null)
        (σ1.setNext tail j Ptr.null.mark, marked tail true j) :=
      step_plain Relation.ReflTransGen.refl (if_pos hnext) (by rintro _ ⟨⟩)
    have hload : Relation.ReflTransGen (Plain (.remove k : SetOp V)) (σ1, .markLoad tail j)
        (σ1.setNext tail j Ptr.null.mark, marked tail true j) := by
      refine step_plain hcas ?_ (by rintro _ ⟨⟩)
      simp only [next, hnext]
      rfl
    have hafter : afterValid s.store tail .removing = .markLoad tail j := congrArg _ hj
    rw [hafter] at h1
    refine ⟨_, tau_of_plain (s := s) (t := t) (hq.trans (h1.trans hload)), Or.inl ?_⟩
    refine fun hg => (hg j hjm).2.2 ?_
    change (((σ1.setNext tail j Ptr.null.mark).node tail).next j).marked = true
    rw [next_setNext_self]
    rfl
  | contains k =>
    obtain ⟨q, hq⟩ := h.contains_tail (.contains k) hk.ge
    have found : Relation.ReflTransGen (Plain (.contains k : SetOp V))
        (s.store, .containsTest (MAX_LEVEL - 1) q tail) (s.store, .validLoad .contains tail) := by
      refine step_plain Relation.ReflTransGen.refl ?_ (by rintro _ ⟨⟩)
      exact (if_neg (not_or.2 ⟨hkt.ge.not_gt, (h.tail_linked hi).2⟩)).trans (if_pos hkt)
    obtain ⟨σ1, h1, _⟩ := validLoad_plain (.contains k) s.store .contains tail
    obtain ⟨σ2, h2⟩ := insertLoad_plain (.contains k) σ1 .contains tail
    refine goesWrong_of_stop ((hq.trans found).trans (h1.trans h2)) (fun _ _ => rfl) ?_
    rintro r he hr
    cases he
    exact hno (hr.1 rfl)

theorem ret_last {u : State V} (h : Step s (.ret t r) s') : ¬ Step s (.tau t) u := by
  intro hu
  cases h with
  | ret _ op _ ht =>
    cases hu with
    | tau _ op1 pc pc' slot level σ ht' hn _ =>
      obtain ⟨rfl, rfl⟩ := Prod.mk.inj (Option.some.inj (ht.symm.trans ht'))
      cases hn

theorem behaves_iff (zero : V) (junk : Uchar) (t : Tid) (ops : List (SetOp V)) :
    (machine V).Behaves (enter t) t Guarded (fun _ _ => True) ops ∅ (initial zero junk) ↔
      ∀ op ∈ ops, op.key < INT_MAX := by
  refine (serves V t).behaves_iff (fun _ => trivial) (fun hs => ret_last hs) (fun h hk => ?_) ops ∅
    _ (initial_whole zero junk)
  rcases (not_lt.1 hk).eq_or_lt with he | hlt
  · exact h.fooled he.symm
  · exact h.lost hlt

end LinkFree.SkipList
