import DurableSets.SOFT.ListSequential

namespace SOFT.List

open Chain

variable {V : Type} {σ σ' : Store V} {s s' : State V} {t : Tid} {op : SetOp V} {pc pc' : Pc}
  {n x p q c : Loc} {A : Set ℤ} {a b : Store V × Pc} {k : ℤ} {r : Bool}

def Moves (op : SetOp V) (a b : Store V × Pc) : Prop :=
  (∀ pred st curr, a.2 ≠ .allocPNode pred st curr) ∧
    (∀ pred st curr m v, a.2 ≠ .allocNode pred st curr m v) ∧ next a.1 op 0 a.2 = some b

theorem goto_goto (c c' : Option (SetOp V × Pc)) :
    (s.goto σ t c).goto σ' t c' = s.goto σ' t c' := by simp [State.goto]

theorem tau_of_moves (h : Relation.ReflTransGen (Moves op) a b) :
    Relation.ReflTransGen ((machine V).Tau t) (s.goto a.1 t (some (op, a.2)))
      (s.goto b.1 t (some (op, b.2))) := by
  refine h.lift (fun a => s.goto a.1 t (some (op, a.2))) ?_
  rintro ⟨σ, pc⟩ ⟨σ', pc'⟩ ⟨hp, hne, hn⟩
  have hs : Step (s.goto σ t (some (op, pc))) (.tau t) _ :=
    Step.tau t op pc pc' 0 σ' (goto_thread_self _ _ _ _) hn (fun d st e he => absurd he (hp d st e))
      fun d st e m v he => absurd he (hne d st e m v)
  rwa [goto_goto] at hs

theorem step_moves (h : Relation.ReflTransGen (Moves op) a b) (hn : next σ op 0 pc = some a)
    (hp : ∀ pred st curr, pc ≠ .allocPNode pred st curr)
    (hne : ∀ pred st curr m v, pc ≠ .allocNode pred st curr m v) :
    Relation.ReflTransGen (Moves op) (σ, pc) b :=
  Relation.ReflTransGen.head ⟨hp, hne, hn⟩ h

def Upright (s : State V) : Prop := s.store.heap.Linked tail ∧
  (s.store.node head).next.state = .inserted ∧ (s.store.node tail).next.state = .inserted

theorem Inv.upright (h : Inv s) : Upright s :=
  ⟨h.mem.chain.tail_linked, h.mem.chain.head_state, congrArg Ptr.state h.mem.chain.tail_next⟩

theorem serves_upright (V : Type) (t : Tid) : (machine V).Serves (enter t) t
    (fun op => op.key < INT_MAX) Upright Settled (Busy t) :=
  (serves V t).guard (fun ⟨_, h⟩ => h.sane.1.upright) fun h => h.sane.1.upright

theorem goesWrong_of_stop (h : Relation.ReflTransGen (Moves op) (s.store, start op) (σ, pc))
    (stop : ∀ slot, next σ op slot pc = none)
    (wrong : ∀ r, pc = .ret r → ¬ (r = true ↔ op.Accepts A)) :
    (machine V).GoesWrong (enter t) t Upright op A s := by
  have ht := goto_thread_self s σ t (some (op, pc))
  refine ⟨_, tau_of_moves h, Or.inr ⟨fun u hu => ?_, fun r u hr => ?_⟩⟩
  · have hu : Step _ (.tau t) u := hu
    cases hu with
    | tau _ op1 pc1 pc2 slot σ2 h1 hn _ _ =>
      obtain ⟨rfl, rfl⟩ := Prod.mk.inj (Option.some.inj (ht.symm.trans h1))
      exact nomatch (stop slot).symm.trans hn
  · have hr : Step _ (.ret t r) u := hr
    cases hr with
    | ret _ op1 _ h1 =>
      obtain ⟨rfl, rfl⟩ := Prod.mk.inj (Option.some.inj (ht.symm.trans h1))
      exact wrong r rfl

theorem Settled.key_lt (h : Settled A s) (hl : s.store.heap.Linked x) (hh : x ≠ head)
    (ht : x ≠ tail) : (s.store.node x).key < INT_MAX := by
  have hm := h.sane.1.mem.chain
  have hb := hm.bounded (hm.good.live_of_linked hl) ht
  rw [rank_of_ne _ hh] at hb
  exact WithBot.coe_lt_coe.1 hb

theorem Settled.notMem (h : Settled A s) (hk : INT_MAX ≤ k) : k ∉ A := by
  rw [← h.abs, mem_abs]
  rintro ⟨x, ⟨hl, hh, ht⟩, _, rfl⟩
  exact absurd (h.key_lt hl hh ht) (not_lt.2 hk)

theorem Settled.next_ne_head (h : Settled A s) (hl : s.store.heap.Linked x)
    (hs : s.store.heap.succ x = some c) : c ≠ head := by
  rintro rfl
  have hm := h.sane.1.mem.chain
  have hlt : rank s.store x < rank s.store head := hm.ordered (hm.good.live_of_linked hl) hs
  rw [rank_head] at hlt
  exact absurd hlt not_lt_bot

theorem Settled.to_tail (h : Settled A s) {P : Loc → Prop} (htail : P tail)
    (pass : ∀ c d, s.store.heap.Linked c → ¬ s.store.heap.dead c → c ≠ head →
      (s.store.node c).key < INT_MAX → s.store.heap.succ c = some d → P d → P c)
    (hc : s.store.heap.Linked c) (hh : c ≠ head) : P c := by
  have hm := h.sane.1.mem.chain
  have hnil : s.store.heap.succ tail = none := by
    change (s.store.node tail).next.ref = none
    rw [hm.tail_next]
  have hr : s.store.heap.Reach c tail := by
    rcases hc.total hm.tail_linked with hr | hr
    · exact hr
    · rcases hr.eq_or_succ with rfl | ⟨d, hd, _⟩
      · exact hr
      · exact nomatch hnil.symm.trans hd
  induction hr using Relation.ReflTransGen.head_induction_on with
  | refl => exact htail
  | @head c d hs _ ih =>
    have hct : c ≠ tail := by
      rintro rfl
      exact nomatch hnil.symm.trans hs
    exact pass c d hc (h.alive c hc) hh (h.key_lt hc hh hct) hs
      (ih (hc.tail hs) (h.next_ne_head hc hs))

theorem Settled.first (h : Settled A s) :
    ∃ c, (s.store.node head).next.ref = some c ∧ s.store.heap.Linked c ∧ c ≠ head := by
  have hm := h.sane.1.mem.chain
  obtain ⟨c, hc⟩ := Option.ne_none_iff_exists'.1
    (hm.complete (Heap.Live.root hm.good.head_root) (by decide : head ≠ tail))
  exact ⟨c, hc, Heap.Reach.single hc, h.next_ne_head (Heap.Reach.refl _) hc⟩

theorem Settled.find_tail (h : Settled A s) (op : SetOp V) (hk : INT_MAX ≤ op.key) : ∃ q st,
    Relation.ReflTransGen (Moves op) (s.store, .find) (s.store, .findLoad q st tail) := by
  obtain ⟨c, hn, hl, hh⟩ := h.first
  have walk := h.to_tail (P := fun c => ∀ p st, ∃ q st',
    Relation.ReflTransGen (Moves op) (s.store, .findLoad p st c) (s.store, .findLoad q st' tail))
    (fun p st => ⟨p, st, Relation.ReflTransGen.refl⟩) (fun c d _ hd _ hlt hs ih p st => ?_) hl hh
  · obtain ⟨q, st, hq⟩ := walk head (s.store.node head).next.state
    exact ⟨q, st, step_moves hq (Option.map_eq_some_iff.2 ⟨c, hn, rfl⟩) nofun nofun⟩
  · obtain ⟨q, st', hq⟩ := ih c (s.store.node c).next.state
    refine ⟨q, st', step_moves hq ?_ nofun nofun⟩
    simp only [next]
    rw [if_pos (show (s.store.node c).next.state ≠ .deleted from hd),
      if_neg (not_le.2 (hlt.trans_le hk))]
    exact Option.map_eq_some_iff.2 ⟨d, hs, rfl⟩

theorem Settled.contains_tail (h : Settled A s) (op : SetOp V) (hk : INT_MAX ≤ op.key) :
    Relation.ReflTransGen (Moves op) (s.store, .containsHead) (s.store, .containsWalk tail) := by
  obtain ⟨c, hn, hl, hh⟩ := h.first
  have walk := h.to_tail (P := fun c =>
    Relation.ReflTransGen (Moves op) (s.store, .containsWalk c) (s.store, .containsWalk tail))
    Relation.ReflTransGen.refl (fun c d _ _ _ hlt hs ih => ?_) hl hh
  · exact step_moves walk (Option.map_eq_some_iff.2 ⟨c, hn, rfl⟩) nofun nofun
  · refine step_moves ih ?_ nofun nofun
    simp only [next, if_pos (hlt.trans_le hk)]
    exact Option.map_eq_some_iff.2 ⟨d, hs, rfl⟩

-- behind the tail there is nothing to go on to
theorem Settled.lost (h : Settled A s) (hk : INT_MAX < op.key) :
    (machine V).GoesWrong (enter t) t Upright op A s := by
  have hm := h.sane.1.mem.chain
  have hkt : (s.store.node tail).key < op.key := hm.tail_key.trans_lt hk
  have hfind : start op = .find → (machine V).GoesWrong (enter t) t Upright op A s := by
    intro he
    obtain ⟨q, st, hq⟩ := h.find_tail op hk.le
    rw [← he] at hq
    refine goesWrong_of_stop hq (fun slot => ?_) (by rintro _ ⟨⟩)
    simp only [next, hm.tail_next, if_pos (show NodeState.inserted ≠ .deleted by decide),
      if_neg (not_le.2 hkt)]
    rfl
  cases op with
  | insert k v => exact hfind rfl
  | remove k => exact hfind rfl
  | contains k =>
    refine goesWrong_of_stop (h.contains_tail (.contains k) hk.le) (fun slot => ?_) (by rintro _ ⟨⟩)
    simp only [next, if_pos hkt, hm.tail_next]
    rfl

-- the tail is taken for a node that holds the key
theorem Settled.fooled (h : Settled A s) (hk : op.key = INT_MAX) :
    (machine V).GoesWrong (enter t) t Upright op A s := by
  have hm := h.sane.1.mem.chain
  have hkt : (s.store.node tail).key = op.key := hm.tail_key.trans hk.symm
  have hno := h.notMem hk.ge
  have found : ∀ q st pc', afterFind s.store q st tail .inserted op = some pc' →
      Relation.ReflTransGen (Moves op) (s.store, .findLoad q st tail) (s.store, pc') := by
    intro q st pc' ha
    refine step_moves Relation.ReflTransGen.refl ?_ (by rintro _ _ _ ⟨⟩) (by rintro _ _ _ _ _ ⟨⟩)
    simp only [next, hm.tail_next, if_pos (show NodeState.inserted ≠ .deleted by decide),
      if_pos hkt.ge, ha]
    rfl
  cases op with
  | insert k v =>
    obtain ⟨q, st, hq⟩ := h.find_tail (.insert k v) hk.ge
    have hret := found q st (.ret false) ((if_pos hkt).trans rfl)
    refine goesWrong_of_stop (hq.trans hret) (fun _ => rfl) ?_
    rintro r he hr
    cases he
    cases hr.2 hno
  | remove k =>
    obtain ⟨q, st, hq⟩ := h.find_tail (.remove k) hk.ge
    have htest := found q st (.markTest q st tail) ((if_neg (not_not.2 hkt)).trans rfl)
    have hcas : Relation.ReflTransGen (Moves (.remove k : SetOp V))
        (s.store, .markCas q st tail ⟨none, .inserted⟩)
        (s.store.setNext tail ⟨none, .intendToDelete⟩, .destroyStore true q st tail) := by
      refine step_moves Relation.ReflTransGen.refl ?_ (by rintro _ _ _ ⟨⟩) (by rintro _ _ _ _ _ ⟨⟩)
      simp only [next, stateCas, hm.tail_next]
      rfl
    have hload : Relation.ReflTransGen (Moves (.remove k : SetOp V)) (s.store, .markLoad q st tail)
        _ := step_moves hcas (by simp only [next, hm.tail_next]) (by rintro _ _ _ ⟨⟩) (by rintro _ _ _ _ _ ⟨⟩)
    have hmark : Relation.ReflTransGen (Moves (.remove k : SetOp V)) (s.store, .markTest q st tail)
        _ := step_moves hload (by simp only [next, hm.tail_next]; rfl) (by rintro _ _ _ ⟨⟩) (by rintro _ _ _ _ _ ⟨⟩)
    refine ⟨_, tau_of_moves (s := s) (t := t) ((hq.trans htest).trans hmark), Or.inl ?_⟩
    intro hg
    have hi : ((s.store.setNext tail ⟨none, .intendToDelete⟩).node tail).next.state = .inserted :=
      hg.2.2
    rw [setNext_next, if_pos rfl] at hi
    cases hi
  | contains k =>
    have hret : Relation.ReflTransGen (Moves (.contains k : SetOp V)) (s.store, .containsWalk tail)
        (s.store, .ret true) := by
      refine step_moves Relation.ReflTransGen.refl ?_ (by rintro _ _ _ ⟨⟩) (by rintro _ _ _ _ _ ⟨⟩)
      simp only [next]
      rw [if_neg hkt.ge.not_gt, hkt, hm.tail_next]
      simp [Ptr.getState]
    refine goesWrong_of_stop ((h.contains_tail (.contains k) hk.ge).trans hret) (fun _ => rfl) ?_
    rintro r he hr
    cases he
    exact hno (hr.1 rfl)

theorem ret_last {u : State V} (h : Step s (.ret t r) s') : ¬ Step s (.tau t) u := by
  intro hu
  cases h with
  | ret _ op _ ht =>
    cases hu with
    | tau _ op1 pc pc' slot σ ht' hn _ _ =>
      obtain ⟨rfl, rfl⟩ := Prod.mk.inj (Option.some.inj (ht.symm.trans ht'))
      cases hn

theorem behaves_iff (zero : V) (t : Tid) (ops : List (SetOp V)) :
    (machine V).Behaves (enter t) t Upright (fun _ _ => True) ops ∅ (initial zero) ↔
      ∀ op ∈ ops, op.key < INT_MAX := by
  refine (serves_upright V t).behaves_iff (fun _ => trivial) (fun hs => ret_last hs)
    (fun h hk => ?_) ops ∅ _ (initial_settled zero)
  rcases (not_lt.1 hk).eq_or_lt with he | hlt
  · exact h.fooled he.symm
  · exact h.lost hlt

end SOFT.List
