import DurableSets.LinkFree.ListSequential

namespace LinkFree.List

open Chain

variable {V : Type} {σ σ' : Store V} {s s' : State V} {t : Tid} {op : SetOp V} {pc pc' : Pc}
  {n x p q c : Loc} {A : Set ℤ} {a b : Store V × Pc} {k : ℤ} {r : Bool}

def Moves (op : SetOp V) (a b : Store V × Pc) : Prop :=
  (∀ pred curr, a.2 ≠ .alloc pred curr) ∧ next a.1 op 0 a.2 = some b

theorem goto_goto (c c' : Option (SetOp V × Pc)) :
    (s.goto σ t c).goto σ' t c' = s.goto σ' t c' := by simp [State.goto]

theorem tau_of_moves (h : Relation.ReflTransGen (Moves op) a b) :
    Relation.ReflTransGen ((machine V).Tau t) (s.goto a.1 t (some (op, a.2)))
      (s.goto b.1 t (some (op, b.2))) := by
  refine h.lift (fun a => s.goto a.1 t (some (op, a.2))) ?_
  rintro ⟨σ, pc⟩ ⟨σ', pc'⟩ ⟨hne, hn⟩
  have hs : Step (s.goto σ t (some (op, pc))) (.tau t) _ :=
    Step.tau t op pc pc' 0 σ' (goto_thread_self _ _ _ _) hn fun d e he => absurd he (hne d e)
  rwa [goto_goto] at hs

theorem step_moves (h : Relation.ReflTransGen (Moves op) a b) (hn : next σ op 0 pc = some a)
    (hne : ∀ pred curr, pc ≠ .alloc pred curr) : Relation.ReflTransGen (Moves op) (σ, pc) b :=
  Relation.ReflTransGen.head ⟨hne, hn⟩ h

theorem goesWrong_of_stop (h : Relation.ReflTransGen (Moves op) (s.store, start op) (σ, pc))
    (stop : ∀ slot, next σ op slot pc = none)
    (wrong : ∀ r n, pc = .ret r n → ¬ (r = true ↔ op.Accepts A)) :
    (machine V).GoesWrong (enter t) t Guarded op A s := by
  have ht := goto_thread_self s σ t (some (op, pc))
  refine ⟨_, tau_of_moves h, Or.inr ⟨fun u hu => ?_, fun r u hr => ?_⟩⟩
  · have hu : Step _ (.tau t) u := hu
    cases hu with
    | tau _ op1 pc1 pc2 slot σ2 h1 hn _ =>
      obtain ⟨rfl, rfl⟩ := Prod.mk.inj (Option.some.inj (ht.symm.trans h1))
      exact nomatch (stop slot).symm.trans hn
  · have hr : Step _ (.ret t r) u := hr
    cases hr with
    | ret _ op1 _ n h1 =>
      obtain ⟨rfl, rfl⟩ := Prod.mk.inj (Option.some.inj (ht.symm.trans h1))
      exact wrong r n rfl

theorem validLoad_moves (op : SetOp V) (σ : Store V) (e : ValidCtx) (n : Loc) :
    ∃ σ', Relation.ReflTransGen (Moves op) (σ, .validLoad e n) (σ', afterValid n e) ∧
      (σ'.node n).next = (σ.node n).next := by
  by_cases hv : isValid (σ.node n).metaData = true
  · exact ⟨σ, step_moves Relation.ReflTransGen.refl (by simp only [next, if_pos hv]) (by rintro _ _ ⟨⟩), rfl⟩
  · have store : ∀ old, Relation.ReflTransGen (Moves op) (σ, .validStore e n old)
        (σ.write n { σ.node n with metaData := makeValid old }, afterValid n e) := fun old =>
      step_moves Relation.ReflTransGen.refl rfl (by rintro _ _ ⟨⟩)
    refine ⟨_, step_moves (store (σ.node n).metaData) (by simp only [next, if_neg hv]) (by rintro _ _ ⟨⟩), ?_⟩
    rw [node_write, if_pos rfl]

theorem insertLoad_moves (op : SetOp V) (σ : Store V) (r : Bool) (n : Loc) :
    ∃ σ', Relation.ReflTransGen (Moves op) (σ, .insertLoad r n) (σ', .ret r n) := by
  by_cases hf : (σ.node n).insertFlag = true
  · exact ⟨σ, step_moves Relation.ReflTransGen.refl (by simp only [next, if_pos hf]) (by rintro _ _ ⟨⟩)⟩
  · have store : ∀ σ : Store V, Relation.ReflTransGen (Moves op) (σ, .insertStore r n)
        (σ.write n { σ.node n with insertFlag := true }, .ret r n) := fun σ =>
      step_moves Relation.ReflTransGen.refl rfl (by rintro _ _ ⟨⟩)
    have flush : Relation.ReflTransGen (Moves op) (σ, .insertFlush r n) _ :=
      step_moves (store (σ.flush n)) rfl (by rintro _ _ ⟨⟩)
    exact ⟨_, step_moves flush (by simp only [next, if_neg hf]) (by rintro _ _ ⟨⟩)⟩

theorem Settled.key_lt (h : Settled A s t) (hl : s.store.heap.Linked x) (hh : x ≠ head)
    (ht : x ≠ tail) : (s.store.node x).key < INT_MAX := by
  have hb := h.sane.1.mem.bounded (h.sane.1.mem.good.live_of_linked hl) ht
  rw [rank_of_ne _ hh] at hb
  exact WithBot.coe_lt_coe.1 hb

theorem Settled.notMem (h : Settled A s t) (hk : INT_MAX ≤ k) : k ∉ A := by
  rw [← h.abs]
  rintro ⟨x, hh, ht, hl, _, rfl⟩
  exact absurd (h.key_lt hl hh ht) (not_lt.2 hk)

theorem Settled.next_ne_head (h : Settled A s t) (hl : s.store.heap.Linked x)
    (hs : s.store.heap.succ x = some c) : c ≠ head := by
  rintro rfl
  have hm := h.sane.1.mem
  have hlt : rank s.store x < rank s.store head := hm.ordered (hm.good.live_of_linked hl) hs
  rw [rank_head] at hlt
  exact absurd hlt not_lt_bot

theorem Settled.to_tail (h : Settled A s t) {P : Loc → Prop} (htail : P tail)
    (pass : ∀ c d, s.store.heap.Linked c → ¬ s.store.heap.dead c → c ≠ head →
      (s.store.node c).key < INT_MAX → s.store.heap.succ c = some d → P d → P c)
    (hc : s.store.heap.Linked c) (hh : c ≠ head) : P c := by
  have hm := h.sane.1.mem
  have hnil : s.store.heap.succ tail = none := by
    change (s.store.node tail).next.ref = none
    rw [hm.tail_next]
    rfl
  have hr : s.store.heap.Reach c tail := by
    rcases hc.total hm.tail_linked with hr | hr
    · exact hr
    · rcases hr.eq_or_succ with rfl | ⟨d, hd, _⟩
      · exact hr
      · exact nomatch hnil.symm.trans hd
  induction hr using Relation.ReflTransGen.head_induction_on with
  | refl => exact htail
  | @head c d hs _ ih =>
    have hct : c ≠ tail := by
      rintro rfl
      exact nomatch hnil.symm.trans hs
    exact pass c d hc (h.alive c hc) hh (h.key_lt hc hh hct) hs
      (ih (hc.tail hs) (h.next_ne_head hc hs))

theorem Settled.first (h : Settled A s t) :
    ∃ c, (s.store.node head).next = Ptr.addr c ∧ s.store.heap.Linked c ∧ c ≠ head := by
  have hm := h.sane.1.mem
  obtain ⟨c, hc⟩ := Option.ne_none_iff_exists'.1
    (hm.complete hm.head_live (by decide : head ≠ tail))
  exact ⟨c, addr_of_alive hm.head_alive hc, Heap.Reach.single hc,
    h.next_ne_head (Heap.Reach.refl _) hc⟩

theorem Settled.find_tail (h : Settled A s t) (op : SetOp V) (hk : INT_MAX ≤ op.key) :
    ∃ q, Relation.ReflTransGen (Moves op) (s.store, .find) (s.store, .findTest q tail) := by
  obtain ⟨c, hn, hl, hh⟩ := h.first
  have walk := h.to_tail (P := fun c => ∀ p, ∃ q,
    Relation.ReflTransGen (Moves op) (s.store, .findTest p c) (s.store, .findTest q tail))
    (fun p => ⟨p, Relation.ReflTransGen.refl⟩) (fun c d _ hd _ hlt hs ih p => ?_) hl hh
  · obtain ⟨q, hq⟩ := walk head
    exact ⟨q, step_moves hq (by simp only [next, hn, Ptr.addr]) (by rintro _ _ ⟨⟩)⟩
  · obtain ⟨q, hq⟩ := ih c
    have step : Relation.ReflTransGen (Moves op) (s.store, .findNext c c)
        (s.store, .findTest q tail) :=
      step_moves hq (Option.map_eq_some_iff.2 ⟨d, hs, rfl⟩) (by rintro _ _ ⟨⟩)
    refine ⟨q, step_moves step ?_ (by rintro _ _ ⟨⟩)⟩
    simp only [next]
    rw [if_neg (show ¬ (s.store.node c).isMarked = true from hd),
      if_neg (not_le.2 (hlt.trans_le hk))]

theorem Settled.contains_tail (h : Settled A s t) (op : SetOp V) (hk : INT_MAX ≤ op.key) :
    Relation.ReflTransGen (Moves op) (s.store, .containsHead) (s.store, .containsWalk tail) := by
  obtain ⟨c, hn, hl, hh⟩ := h.first
  have walk := h.to_tail (P := fun c =>
    Relation.ReflTransGen (Moves op) (s.store, .containsWalk c) (s.store, .containsWalk tail))
    Relation.ReflTransGen.refl (fun c d _ _ _ hlt hs ih => ?_) hl hh
  · exact step_moves walk (by simp only [next, hn, Ptr.addr]) (by rintro _ _ ⟨⟩)
  · refine step_moves ih ?_ (by rintro _ _ ⟨⟩)
    simp only [next, if_pos (hlt.trans_le hk)]
    exact Option.map_eq_some_iff.2 ⟨d, hs, rfl⟩

-- behind the tail there is nothing to go on to
theorem Settled.lost (h : Settled A s t) (hk : INT_MAX < op.key) :
    (machine V).GoesWrong (enter t) t Guarded op A s := by
  have hm := h.sane.1.mem
  have hkt : (s.store.node tail).key < op.key := hm.tail_key.trans_lt hk
  have hd : ¬ (s.store.node tail).isMarked = true := h.alive tail hm.tail_linked
  have hfind : start op = .find → (machine V).GoesWrong (enter t) t Guarded op A s := by
    intro he
    obtain ⟨q, hq⟩ := h.find_tail op hk.le
    have hnext : Relation.ReflTransGen (Moves op) (s.store, start op)
        (s.store, .findNext tail tail) := by
      rw [he]
      refine hq.trans (step_moves Relation.ReflTransGen.refl ?_ (by rintro _ _ ⟨⟩))
      simp only [next]
      rw [if_neg hd, if_neg (not_le.2 hkt)]
    refine goesWrong_of_stop hnext (fun slot => ?_) (by rintro _ _ ⟨⟩)
    simp only [next, hm.tail_next]
    rfl
  cases op with
  | insert k v => exact hfind rfl
  | remove k => exact hfind rfl
  | contains k =>
    refine goesWrong_of_stop (h.contains_tail (.contains k) hk.le) (fun slot => ?_) (by rintro _ _ ⟨⟩)
    simp only [next, if_pos hkt, hm.tail_next]
    rfl

-- the tail is taken for a node that holds the key
theorem Settled.fooled (h : Settled A s t) (hk : op.key = INT_MAX) :
    (machine V).GoesWrong (enter t) t Guarded op A s := by
  have hm := h.sane.1.mem
  have hkt : (s.store.node tail).key = op.key := hm.tail_key.trans hk.symm
  have hd : ¬ (s.store.node tail).isMarked = true := h.alive tail hm.tail_linked
  have hno := h.notMem hk.ge
  have found : ∀ q pc', afterFind s.store q tail op = some pc' →
      Relation.ReflTransGen (Moves op) (s.store, .findTest q tail) (s.store, pc') := by
    intro q pc' ha
    refine step_moves Relation.ReflTransGen.refl ?_ (by rintro _ _ ⟨⟩)
    simp only [next]
    rw [if_neg hd, if_pos hkt.ge, ha]
    rfl
  cases op with
  | insert k v =>
    obtain ⟨q, hq⟩ := h.find_tail (.insert k v) hk.ge
    obtain ⟨σ1, h1, _⟩ := validLoad_moves (.insert k v) s.store .found tail
    obtain ⟨σ2, h2⟩ := insertLoad_moves (.insert k v) σ1 false tail
    refine goesWrong_of_stop ((hq.trans (found q _ (if_pos hkt))).trans (h1.trans h2))
      (fun _ => rfl) ?_
    rintro r n he hr
    cases he
    cases hr.2 hno
  | remove k =>
    obtain ⟨q, hq⟩ := h.find_tail (.remove k) hk.ge
    obtain ⟨σ1, h1, hn1⟩ := validLoad_moves (.remove k) s.store (.removing q Ptr.null) tail
    have hload : Relation.ReflTransGen (Moves (.remove k : SetOp V)) (s.store, .removeLoad q tail)
        (s.store, .validLoad (.removing q Ptr.null) tail) := by
      refine step_moves Relation.ReflTransGen.refl ?_ (by rintro _ _ ⟨⟩)
      simp only [next, hm.tail_next]
      rfl
    have hcas : Relation.ReflTransGen (Moves (.remove k : SetOp V)) (σ1, .markCas q tail Ptr.null)
        (σ1.write tail { σ1.node tail with next := Ptr.null.mark },
          .deleteLoad (.trim .inRemove q) tail) := by
      refine step_moves Relation.ReflTransGen.refl ?_ (by rintro _ _ ⟨⟩)
      simp only [next, if_pos (hn1.trans hm.tail_next)]
    refine ⟨_, tau_of_moves (s := s) (t := t)
      (((hq.trans (found q _ (if_pos hkt))).trans hload).trans (h1.trans hcas)), Or.inl ?_⟩
    refine fun hg => hg.2.2 ?_
    change ((σ1.write tail _).node tail).next.marked = true
    rw [node_write, if_pos rfl]
    rfl
  | contains k =>
    have hwalk : Relation.ReflTransGen (Moves (.contains k : SetOp V)) (s.store, .containsWalk tail)
        (s.store, .validLoad .contains tail) := by
      refine step_moves Relation.ReflTransGen.refl ?_ (by rintro _ _ ⟨⟩)
      simp only [next]
      rw [if_neg hkt.ge.not_gt, if_neg (not_not.2 hkt), if_neg hd]
    obtain ⟨σ1, h1, _⟩ := validLoad_moves (.contains k) s.store .contains tail
    obtain ⟨σ2, h2⟩ := insertLoad_moves (.contains k) σ1 true tail
    refine goesWrong_of_stop (((h.contains_tail (.contains k) hk.ge).trans hwalk).trans
      (h1.trans h2)) (fun _ => rfl) ?_
    rintro r n he hr
    cases he
    exact hno (hr.1 rfl)

theorem ret_last {r : Bool} {u : State V} (h : Step s (.ret t r) s') : ¬ Step s (.tau t) u := by
  intro hu
  cases h with
  | ret _ op _ n ht =>
    cases hu with
    | tau _ op1 pc pc' slot σ ht' hn _ =>
      obtain ⟨rfl, rfl⟩ := Prod.mk.inj (Option.some.inj (ht.symm.trans ht'))
      cases hn

theorem behaves_iff (zero : V) (junk : Uchar) (t : Tid) (ops : List (SetOp V)) :
    (machine V).Behaves (enter t) t Guarded (fun _ _ => True) ops ∅ (initial zero junk) ↔
      ∀ op ∈ ops, op.key < INT_MAX := by
  refine (serves V t).behaves_iff (fun _ => trivial) (fun hs => ret_last hs) (fun h hk => ?_) ops ∅
    _ (initial_settled zero junk t)
  rcases (not_lt.1 hk).eq_or_lt with he | hlt
  · exact h.fooled he.symm
  · exact h.lost hlt

end LinkFree.List
