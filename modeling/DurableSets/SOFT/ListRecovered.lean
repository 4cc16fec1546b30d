import DurableSets.SOFT.ListParallel
import DurableSets.SOFT.ListSequential

namespace SOFT.List

open Chain

variable {V : Type} {σ σ' : Store V} {s s' : State V} {t u : Tid} {op : SetOp V} {pc pc' : Pc}
  {slot : ℕ} {x : Loc} {p q : PLoc} {A : Set ℤ} {k : ℤ}

def Pc.creates : Pc → Bool
  | .allocPNode _ _ _ => true
  | .pnodeAlloc _ _ _ _ => true
  | .allocNode _ _ _ _ _ => true
  | .initNode _ _ _ _ _ _ => true
  | .initNext _ _ _ _ _ => true
  | .linkCas _ _ _ _ _ => true
  | .lostNode _ _ => true
  | .lostPNode _ => true
  | .createStart _ _ => true
  | .createKey _ _ => true
  | .createValue _ _ => true
  | .createEnd _ _ => true
  | .createFlush _ _ => true
  | .insertTest _ _ => true
  | .insertLoad _ _ => true
  | .insertCas _ _ _ => true
  | _ => false

theorem creates_afterTrim {d : Loc} {st : NodeState} {c : TrimCtx} :
    (afterTrim d st c).creates = false := by
  cases c <;> rfl

theorem remove_flow (h : Flow σ (.remove k) pc pc') (hc : pc.creates = false) :
    pc'.creates = false := by
  cases h with
  | findStop _ _ h =>
    simp only [afterFind] at h
    split at h
    · obtain rfl := Option.some.inj h
      rfl
    · split at h <;> obtain rfl := Option.some.inj h <;> rfl
  | trimLost | trimFree => exact creates_afterTrim
  | _ => first | rfl | cases hc

structure Stays (a b : PNode V) : Prop where
  validStart : b.validStart = a.validStart
  validEnd : b.validEnd = a.validEnd
  key : b.key = a.key

theorem Stays.refl (a : PNode V) : Stays a a := ⟨rfl, rfl, rfl⟩

theorem Stays.trans {a b c : PNode V} (h : Stays a b) (h' : Stays b c) : Stays a c :=
  ⟨h'.1.trans h.1, h'.2.trans h.2, h'.3.trans h.3⟩

theorem stays_setLine {l : Line (PNode V)} (h : Stays (σ.pnode p) l.cur) (q : PLoc) :
    Stays (σ.pnode q) ((σ.setLine p l).pnode q) := by
  unfold Store.setLine Store.pnode
  by_cases he : q = p
  · subst he
    simp only [Function.update_self]
    exact h
  · simp only [Function.update_of_ne he]
    exact Stays.refl _

theorem remove_stays (hn : next σ op slot pc = some (σ', pc')) (hc : pc.creates = false)
    (q : PLoc) : Stays (σ.pnode q) (σ'.pnode q) := by
  cases pc with
  | destroyStore r d st n =>
    simp only [next] at hn
    obtain ⟨p, _, rfl, _⟩ := storeP_inv hn
    refine stays_setLine ?_ q
    exact ⟨rfl, rfl, rfl⟩
  | destroyFlush r d st n =>
    simp only [next] at hn
    obtain ⟨p, _, rfl, _⟩ := barrier_inv hn
    refine stays_setLine ?_ q
    exact ⟨rfl, rfl, rfl⟩
  | _ =>
    first
    | exact absurd hc (fun e : true = false => by cases e)
    | have hp : σ'.pline = σ.pline := by
        simp only [next] at hn
        grind [Option.map_eq_some_iff, stateCas, Store.setNext, Store.write, Store.giveP]
      unfold Store.pnode
      rw [hp]
      exact Stays.refl _

theorem Settled.remove_destroys (h : Settled A s) (hx : InList s.store x)
    (hp : (s.store.node x).pptr = some p) (t : Tid) :
    Inevitable ((machine V).Tau t) ((machine V).Ends t fun r s' =>
      r = true ∧ (s'.store.pnode p).isDeleted = true)
      (enter t s (.remove (s.store.node x).key)) := by
  have hm := h.sane.1.mem
  have hr := rank_of_ne s.store hx.2.1
  have hk : (SetOp.remove (s.store.node x).key : SetOp V).key < INT_MAX := by
    have := hm.chain.bounded (hm.chain.good.live_of_linked hx.1) hx.2.2
    rw [hr] at this
    exact WithBot.coe_lt_coe.1 this
  have hkA : (s.store.node x).key ∈ A := by
    rw [← h.abs, mem_abs]
    exact ⟨x, hx, Or.inl (h.inserted hx), rfl⟩
  -- the PNode is that of a node in state INSERTED
  have hc : Created (s.store.node x).stamp (s.store.pnode p) := by
    obtain ⟨p', hp', hmatch⟩ := hm.pnode.owned (Or.inl hx)
    obtain rfl := Option.some.inj (hp.symm.trans hp')
    rw [h.inserted hx] at hmatch
    exact (hmatch.cur).1
  have ha : Alone A (enter t s (.remove (s.store.node x).key)) t (.remove (s.store.node x).key)
      (start (.remove (s.store.node x).key)) := h.alone hk t
  refine (ha.sane.returns).ends (I := fun s' => ∃ pc, Alone A s' t (.remove (s.store.node x).key) pc ∧
      pc.creates = false ∧ Stays (s.store.pnode p) (s'.store.pnode p))
    ⟨_, ha, rfl, Stays.refl _⟩ ?_ ?_ ?_
  · rintro s' ⟨pc, h', _⟩ he
    exact nomatch h'.thread.symm.trans he
  · rintro s1 s2 ⟨pc, h', hcr, hst⟩ hs
    obtain ⟨pc', h2⟩ := h'.step hs
    have hs : Step s1 (.tau t) s2 := hs
    cases id hs with
    | tau _ op1 pc1 pc2 slot σ ht hn _ _ =>
      obtain ⟨rfl, rfl⟩ := Prod.mk.inj (Option.some.inj (h'.thread.symm.trans ht))
      have ht2 := (goto_thread_self s1 σ t (some (_, pc2))).symm.trans h2.thread
      obtain rfl := (Prod.mk.inj (Option.some.inj ht2)).2
      exact ⟨pc2, h2, remove_flow (flow_of_next hn) hcr, hst.trans (remove_stays hn hcr p)⟩
  · rintro s1 r s2 ⟨pc, h', _, hst⟩ hs
    obtain ⟨hacc, hset⟩ := h'.ret hs
    have hstore : s2.store = s1.store := by
      cases id hs with
      | ret _ op1 _ ht => rfl
    refine ⟨hacc.2 hkA, ?_⟩
    obtain ⟨hc1, hc2, hc3, _⟩ := hc
    obtain ⟨hs1, hs2, hs3⟩ := hst
    rw [← hstore] at hs1 hs2 hs3
    have hv : ¬ (s2.store.pnode p).isValid = true := by
      intro hv
      obtain ⟨y, hy, hyp, _⟩ := hset.sane.1.mem.pnode.valid List.mem_cons_self hv
      obtain ⟨p', hp', hmatch⟩ := hset.sane.1.mem.pnode.owned (Or.inl hy)
      obtain rfl := Option.some.inj (hyp.symm.trans hp')
      rw [hset.inserted hy] at hmatch
      obtain ⟨_, _, hkey, _⟩ := (hmatch.cur).1
      have hmem : (s2.store.node y).key ∈ s2.abs := by
        rw [mem_abs]
        exact ⟨y, hy, Or.inl (hset.inserted hy), rfl⟩
      rw [hset.abs] at hmem
      exact hmem.2 (hkey.symm.trans (hs3.trans hc3))
    have he : (s2.store.pnode p).validStart = (s2.store.pnode p).validEnd :=
      (hs1.trans hc1).trans (hs2.trans hc2).symm
    simp_all [PNode.isValid, PNode.isDeleted]

namespace Parallel

variable {zero : V} {image : PLoc → PNode V} {fresh : PLoc → Bool} {slots : Tid → List PLoc}
  {s : Parallel.State V}

def recoveredKeys (image : PLoc → PNode V) (slots : Tid → List PLoc) : Set ℤ :=
  {k | ∃ t p, p ∈ slots t ∧ (image p).isValid = true ∧ (image p).key = k}

theorem Chunks.exists_slot (hc : Chunks zero image fresh slots) (h : (image p).isValid = true) :
    ∃ t, p ∈ slots t := by
  refine (hc.outside p).resolve_right fun he => ?_
  rw [he.2] at h
  cases h

theorem Chunks.clear (hc : Chunks zero image fresh slots) : Clear image := by
  refine ⟨fun {p} hne => ?_, fun {p q} hp hq he => ?_, fun {p} hp => ?_⟩
  · rcases hc.outside p with ⟨t, ht⟩ | ⟨_, he⟩
    · exact isValid_iff.2 ⟨hc.whole ht hne, hne⟩
    · rw [he] at hne
      exact absurd rfl hne
  · obtain ⟨t, ht⟩ := hc.exists_slot hp
    obtain ⟨u, hu⟩ := hc.exists_slot hq
    exact hc.unique ht hu hp hq he
  · obtain ⟨t, ht⟩ := hc.exists_slot hp
    exact (hc.bounded ht hp).2

theorem exists_above (l : List ℕ) : ∃ N, ∀ p ∈ l, p < N := by
  induction l with
  | nil => exact ⟨0, nofun⟩
  | cons a l ih =>
    obtain ⟨N, hN⟩ := ih
    refine ⟨max N (a + 1), fun p hp => ?_⟩
    rcases List.mem_cons.1 hp with rfl | hp
    · exact lt_of_lt_of_le (Nat.lt_succ_self p) (le_max_right _ _)
    · exact lt_of_lt_of_le (hN p hp) (le_max_left _ _)

theorem Chunks.exists_bound (hc : Chunks zero image fresh slots) :
    ∃ N, ∀ t, ∀ p ∈ slots t, p < N := by
  obtain ⟨n, hn⟩ := hc.finite
  have h : ∀ m, ∃ N, ∀ t < m, ∀ p ∈ slots t, p < N := by
    intro m
    induction m with
    | zero => exact ⟨0, fun t ht => absurd ht (Nat.not_lt_zero t)⟩
    | succ m ih =>
      obtain ⟨N, hN⟩ := ih
      obtain ⟨M, hM⟩ := exists_above (slots m)
      refine ⟨max N M, fun t ht p hp => ?_⟩
      rcases Nat.lt_succ_iff_lt_or_eq.1 ht with hlt | rfl
      · exact lt_of_lt_of_le (hN t hlt p hp) (le_max_left _ _)
      · exact lt_of_lt_of_le (hM p hp) (le_max_right _ _)
  obtain ⟨N, hN⟩ := h n
  refine ⟨N, fun t p hp => ?_⟩
  by_cases ht : t < n
  · exact hN t ht p hp
  · rw [hn t (not_lt.1 ht)] at hp
    cases hp

namespace Inv

theorem restoring (hc : Chunks zero image fresh slots) (h : Inv zero image slots s)
    (hd : ∀ t, s.pc t = .scan []) : Restoring image s.store (.scan []) where
  nodup := List.nodup_nil
  kindred := h.kindred
  solid := h.solid
  state := h.state
  tail_linked := h.tail_linked
  tail_next := h.tail_next
  tail_key := h.tail_key
  complete := h.complete
  node hx := by
    obtain ⟨t, p, _, _, hs⟩ := h.node hx
    exact ⟨p, List.not_mem_nil, hs⟩
  done {p} hp := by
    obtain ⟨t, ht⟩ := hc.exists_slot hp
    refine Or.inr ?_
    rcases h.done ht hp with hm | ⟨x, hx | hx, hxp⟩
    · rw [hd t] at hm
      cases hm
    · exact ⟨x, Or.inl hx, hxp⟩
    · rw [hd t] at hx
      cases hx
  avail hx := (h.avail hx).1
  pavail := h.pavail
  pending := nofun
  loc := trivial

theorem settled (hc : Chunks zero image fresh slots) (h : Inv zero image slots s)
    (hd : ∀ t, s.pc t = .scan []) :
    Settled (recoveredKeys image slots) (⟨s.store, fun _ => none⟩ : List.State V) := by
  have hi := (h.restoring hc hd).inv hc.clear
  refine ⟨⟨hi, ?_⟩, ⟨fun hx he => ?_, fun hx he => ?_, ?_, ?_⟩, fun _ => rfl,
    fun x hx => h.solid.alive hx, ?_⟩
  · obtain ⟨N, hN⟩ := h.unused
    obtain ⟨M, hM⟩ := hc.exists_bound
    refine ⟨max N M, fun z hz => ⟨hN z (by omega), ?_, fun x hx => ?_⟩⟩
    · refine (h.pfresh z).resolve_left fun ⟨t, ht⟩ => ?_
      exact absurd (hM t z ht) (not_lt.2 ((le_max_right N M).trans hz))
    · obtain ⟨t, ht⟩ := h.owned hx
      exact absurd (hM t z ht) (not_lt.2 ((le_max_right N M).trans hz))
  · exact nomatch (h.state hx.1).symm.trans he
  · exact nomatch (h.state hx.1).symm.trans he
  · exact fun _ _ _ _ _ _ _ ht => nomatch ht
  · exact fun _ _ _ _ _ _ _ ht => nomatch ht
  · ext k
    rw [mem_abs]
    constructor
    · rintro ⟨x, hx, _, rfl⟩
      obtain ⟨t, p, hp, _, hs⟩ := h.node hx
      exact ⟨t, p, hp, hs.1, hs.key.symm⟩
    · rintro ⟨t, p, hp, hv, rfl⟩
      rcases h.done hp hv with hm | ⟨x, hx | hx, hxp⟩
      · rw [hd t] at hm
        cases hm
      · obtain ⟨u, q, hq, _, hs⟩ := h.node hx
        obtain rfl := Option.some.inj (hxp.symm.trans hs.2.1)
        exact ⟨x, hx, Or.inl (h.state hx.1), hs.key⟩
      · rw [hd t] at hx
        cases hx

end Inv

theorem softList_parallel_recovery (hc : Chunks zero image fresh slots)
    (hr : Relation.ReflTransGen Step (initial zero image fresh slots) s) :
    (∀ t, s.pc t ≠ .scan [] →
      ∃ slot, s.store.avail slot = true ∧ next s.store slot (s.pc t) ≠ none) ∧
    ((∀ t, s.pc t = .scan []) →
      (∃ xs, s.store.heap.Path head xs tail ∧
        ((head :: xs ++ [tail]).map fun x => (s.store.node x).key).Pairwise (· < ·) ∧
        (s.store.node tail).key = INT_MAX ∧ (s.store.node tail).next.ref = none ∧
        (∀ x ∈ xs, (s.store.node x).next.state = .inserted ∧
          ∃ t p, p ∈ slots t ∧ (image p).isValid = true ∧ (s.store.node x).pptr = some p ∧
            s.store.pnode p = image p ∧ (s.store.node x).key = (image p).key ∧
            (s.store.node x).value = (image p).value ∧
            (s.store.node x).pValidity = (s.store.pnode p).validStart) ∧
        ∀ t, ∀ p ∈ slots t, (image p).isValid = true →
          ∃! x, x ∈ xs ∧ (s.store.node x).pptr = some p) ∧
      (∀ t, ∀ p ∈ slots t, ¬ (image p).isValid = true →
        (s.store.pnode p).validStart = (s.store.pnode p).validEnd ∧
        (s.store.pnode p).validEnd = (s.store.pnode p).deleted ∧
        (s.store.pnode p).isValid = false) ∧
      ∀ (u : Tid) (ops : List (SetOp V)) (rs : List Bool) (s' : List.State V),
        (∀ op ∈ ops, op.key < INT_MAX) →
        (List.machine V).Performs (enter u) u ops ⟨s.store, fun _ => none⟩ rs s' →
        ∃ A, SetOp.Answers ops rs (recoveredKeys image slots) A ∧
          (∀ k ∈ A, ∃ x, InList s'.store x ∧ (s'.store.node x).key = k) ∧
          ∀ x, InList s'.store x →
            Inevitable ((List.machine V).Tau u) ((List.machine V).Ends u fun r _ => r = true)
              (enter u s' (.contains (s'.store.node x).key)) ∧
            ∃ p, (s'.store.node x).pptr = some p ∧
              Inevitable ((List.machine V).Tau u) ((List.machine V).Ends u fun r s'' =>
                r = true ∧ (s''.store.pnode p).isDeleted = true)
                (enter u s' (.remove (s'.store.node x).key))) := by
  have h := (Inv.init hc).run hc hr
  refine ⟨fun t => h.exists_next hc, fun hd => ⟨?_, fun t p hp hv => ?_,
    fun u ops rs s' hok hperf => ?_⟩⟩
  · have hht : head ≠ tail := by decide
    obtain ⟨xs, hp, hs, hm⟩ := Heap.exists_path_ordered h.solid.ordered (Heap.Live.root rfl)
      h.tail_linked hht (congrArg Ptr.ref h.tail_next)
    have hin : ∀ x, x ∈ xs ↔ InList s.store x := hm
    have hbound : ∀ x ∈ xs, INT_MIN < (s.store.node x).key ∧ (s.store.node x).key < INT_MAX := by
      intro x hx
      obtain ⟨t, p, hp, _, hs⟩ := h.node ((hin x).1 hx)
      rw [hs.key]
      exact hc.bounded hp hs.1
    refine ⟨xs, hp, Heap.pairwise_ends ?_ (fun x hx => ?_) (fun x hx => ?_) ?_, h.tail_key,
      congrArg Ptr.ref h.tail_next, fun x hx => ?_, fun t p hp hv => ?_⟩
    · refine List.pairwise_map.2 ((List.pairwise_map.1 hs).imp_of_mem fun {x y} hx hy hlt => ?_)
      have hlt : rank s.store x < rank s.store y := hlt
      rw [rank_of_ne _ ((hin x).1 hx).2.1, rank_of_ne _ ((hin y).1 hy).2.1] at hlt
      exact WithBot.coe_lt_coe.1 hlt
    · rw [h.head_key]
      exact (hbound x hx).1
    · rw [h.tail_key]
      exact (hbound x hx).2
    · rw [h.head_key, h.tail_key]
      decide
    · obtain ⟨t, p, hp, _, hs⟩ := h.node ((hin x).1 hx)
      have he : s.store.pnode p = image p := (h.kindred List.mem_cons_self).eq hs.1
      refine ⟨h.state ((hin x).1 hx).1, t, p, hp, hs.1, hs.2.1, he, hs.key,
        congrArg Stamp.value hs.2.2, ?_⟩
      rw [he]
      exact congrArg Stamp.validity hs.2.2
    · rcases h.done hp hv with hm | ⟨x, hx | hx, hxp⟩
      · rw [hd t] at hm
        cases hm
      · refine ⟨x, ⟨(hin x).2 hx, hxp⟩, fun y hy => ?_⟩
        have hyl := (hin y).1 hy.1
        obtain ⟨_, q, _, _, hs⟩ := h.node hx
        obtain ⟨_, q', _, _, hs'⟩ := h.node hyl
        obtain rfl := Option.some.inj (hxp.symm.trans hs.2.1)
        obtain rfl := Option.some.inj (hy.2.symm.trans hs'.2.1)
        refine h.solid.eq_of_rank hyl.1 hx.1 ?_
        change rank s.store y = rank s.store x
        rw [rank_of_ne _ hyl.2.1, rank_of_ne _ hx.2.1, hs.key, hs'.key]
      · rw [hd t] at hx
        cases hx
  · have hk := h.kindred (p := p) List.mem_cons_self
    have hsp : (s.store.pnode p).validStart = (s.store.pnode p).validEnd :=
      h.spent hp hv (by rw [hd t]; exact List.not_mem_nil)
    have he : (s.store.pnode p).validEnd = (s.store.pnode p).deleted := by
      by_contra hne
      have hne : (image p).validEnd ≠ (image p).deleted := by rwa [← hk.validEnd, ← hk.deleted]
      exact hv (isValid_iff.2 ⟨hc.whole hp hne, hne⟩)
    exact ⟨hsp, he, by simp [PNode.isValid, he]⟩
  · obtain ⟨A, hans, hset⟩ := (serves V u).performs hok (h.settled hc hd) hperf
    have hmem : ∀ x, InList s'.store x → (s'.store.node x).key ∈ A := by
      intro x hx
      rw [← hset.abs, mem_abs]
      exact ⟨x, hx, Or.inl (hset.inserted hx), rfl⟩
    refine ⟨A, hans, fun k hk => ?_, fun x hx => ⟨?_, ?_⟩⟩
    · rw [← hset.abs, mem_abs] at hk
      obtain ⟨x, hx, _, he⟩ := hk
      exact ⟨x, hx, he⟩
    · have hm := hset.sane.1.mem.chain
      have hk : (SetOp.contains (s'.store.node x).key : SetOp V).key < INT_MAX := by
        have := hm.bounded (hm.good.live_of_linked hx.1) hx.2.2
        rw [rank_of_ne _ hx.2.1] at this
        exact WithBot.coe_lt_coe.1 this
      have hb : Busy u A (.contains (s'.store.node x).key)
          (enter u s' (.contains (s'.store.node x).key)) := ((serves V u).call hset hk).2
      refine ((serves V u).ends hb).mono ?_
      rintro s1 ⟨r, s2, hs, hacc, _⟩
      exact ⟨r, s2, hs, hacc.2 (hmem x hx)⟩
    · obtain ⟨p, hp, _⟩ := hset.sane.1.mem.pnode.owned (Or.inl hx)
      exact ⟨p, hp, hset.remove_destroys hx hp u⟩

def schedule (s : Parallel.State V) : List (Tid × Loc) → Option (Parallel.State V)
  | [] => some s
  | (t, slot) :: ts =>
    if s.store.avail slot then
      (next s.store slot (s.pc t)).bind fun r =>
        schedule ⟨r.1, Function.update s.pc t r.2⟩ ts
    else none

theorem run_of_schedule {s' : Parallel.State V} {ts : List (Tid × Loc)}
    (h : schedule s ts = some s') : Relation.ReflTransGen Step s s' := by
  induction ts generalizing s with
  | nil =>
    obtain rfl := Option.some.inj h
    exact Relation.ReflTransGen.refl
  | cons a ts ih =>
    simp only [schedule] at h
    split at h
    · next ha =>
      obtain ⟨r, hr, h⟩ := Option.bind_eq_some_iff.1 h
      exact Relation.ReflTransGen.head (.tau a.1 a.2 r.1 r.2 hr fun _ _ _ => ha) (ih h)
    · cases h

def pairImage (p : PLoc) : PNode ℕ :=
  if p = 0 then ⟨true, true, false, 5, 7⟩
  else if p = 1 then ⟨true, true, false, 4, 8⟩
  else if p = 2 then ⟨true, false, false, 6, 9⟩
  else ⟨false, false, false, 0, 0⟩

def pairFresh (p : PLoc) : Bool := decide (3 ≤ p)

def pairSlots (t : Tid) : List PLoc := if t = 0 then [0, 2] else if t = 1 then [1] else []

theorem chunks_pair : Chunks 0 pairImage pairFresh pairSlots where
  nodup t := by
    unfold pairSlots
    split
    · decide
    · split <;> decide
  apart ht hu := by grind [pairSlots]
  finite := ⟨2, fun t ht => by grind [pairSlots]⟩
  outside p := by
    by_cases h0 : p = 0
    · exact Or.inl ⟨0, by grind [pairSlots]⟩
    · by_cases h1 : p = 1
      · exact Or.inl ⟨1, by grind [pairSlots]⟩
      · by_cases h2 : p = 2
        · exact Or.inl ⟨0, by grind [pairSlots]⟩
        · exact Or.inr ⟨by grind [pairFresh], by grind [pairImage]⟩
  inside ht := by grind [pairSlots, pairFresh]
  whole ht hne := by grind [pairSlots, pairImage]
  unique ht hu hv hv' he := by grind [pairSlots, pairImage, PNode.isValid]
  bounded ht hv := by grind [pairSlots, pairImage, PNode.isValid, INT_MIN, INT_MAX]

-- both threads are before their CAS on the head, that of thread 1 fails; slot 2 is that of a
-- PNode that was half created
def pairOrder : List (Tid × Loc) :=
  [List.replicate 3 (0, 2), List.replicate 3 (1, 3), List.replicate 4 (0, 4),
    List.replicate 4 (1, 4), [(0, 4), (1, 4)], List.replicate 5 (1, 4),
    List.replicate 3 (0, 4)].flatten

theorem softList_parallel_recovery_two : ∃ s,
    schedule (initial 0 pairImage pairFresh pairSlots) pairOrder = some s ∧
    (∀ t, s.pc t = .scan []) ∧
    (∃ xs, s.store.heap.Path head xs tail ∧ (∀ x ∈ xs, (s.store.node x).next.state = .inserted) ∧
      ∀ t, ∀ p ∈ pairSlots t, (pairImage p).isValid = true →
        ∃! x, x ∈ xs ∧ (s.store.node x).pptr = some p) ∧
    ∀ t, ∀ p ∈ pairSlots t, ¬ (pairImage p).isValid = true →
      (s.store.pnode p).validStart = (s.store.pnode p).validEnd ∧
      (s.store.pnode p).validEnd = (s.store.pnode p).deleted ∧
      (s.store.pnode p).isValid = false := by
  obtain ⟨s, hs, hd⟩ : ∃ s, schedule (initial 0 pairImage pairFresh pairSlots) pairOrder = some s ∧
      ∀ t, s.pc t = .scan [] := by
    refine ⟨_, rfl, fun t => ?_⟩
    rcases t with _ | _ | t <;> rfl
  obtain ⟨⟨xs, hp, _, _, _, hx, hu⟩, hn, _⟩ :=
    (softList_parallel_recovery chunks_pair (run_of_schedule hs)).2 hd
  exact ⟨s, hs, hd, ⟨xs, hp, fun x hm => (hx x hm).1, hu⟩, hn⟩

end Parallel

end SOFT.List
