import DurableSets.Core.Path
import DurableSets.LinkFree.SkipListSearch

namespace LinkFree.SkipList

open Chain

variable {V : Type} {σ : Store V} {s s' : State V} {t : Tid} {op : SetOp V} {pc pc' : Pc}
  {x y : Loc} {i : ℕ} {A : Set ℤ}

theorem Told.not_fails (h : Told σ A op pc) : ¬ pc.Fails σ := by
  cases pc with
  | findDown e i p path =>
    cases e with
    | inInsert n l => exact h.elim
    | inRemove n => exact h
  | findCas e i p d z path =>
    cases e with
    | inInsert n l => exact h.elim
    | inRemove n => exact not_not.2 h.1
  | upperLink path n i => exact fun ⟨e, he, hne⟩ => hne (h.reaches i le_rfl e he)
  | lostFree n => exact h.elim
  | _ => exact id

theorem Alone.can (h : Alone A s t op pc) : ∃ s', (machine V).Solo t s s' := by
  by_cases hret : ∃ r, pc = .ret r
  · obtain ⟨r, rfl⟩ := hret
    exact ⟨_, Or.inr ⟨r, Step.ret t op r h.thread⟩⟩
  · obtain ⟨N, hN⟩ := h.bounded
    obtain ⟨σ, pc', hn⟩ := next_enabled h.inv.inv.one.mem h.fit (fun r e => hret ⟨r, e⟩) N 1
    exact ⟨_, Or.inl (Step.tau t op pc pc' N 1 σ h.thread hn fun _ _ =>
      ⟨(hN N le_rfl).1, by decide⟩)⟩

noncomputable def rest (t : Tid) (s : State V) : ℕ ×ₗ ℕ ×ₗ ℕ :=
  match s.thread t with
  | some (_, pc) => pc.way s.store
  | none => stage 0 0 0

theorem Alone.nearer (h : Alone A s t op pc) (hs : Step s (.tau t) s') :
    rest t s' < rest t s := by
  cases hs with
  | tau _ op1 pc1 pc' slot level σ ht hn ha =>
    obtain ⟨rfl, rfl⟩ := Prod.mk.inj (Option.some.inj (h.thread.symm.trans ht))
    unfold rest
    rw [ht, goto_thread_self]
    refine step_way h.inv.inv.one.mem h.fit hn (Told.not_fails h.told) ?_
    rintro n i q rfl
    exact h.told.2

theorem Alone.returns (h : Alone A s t op pc) : (machine V).Returns t s := by
  refine inevitable_of_measure (rest t) (I := fun s => ∃ pc, Alone A s t op pc) ?_ ?_ ⟨pc, h⟩
  · rintro s ⟨pc, h⟩
    exact Or.inr h.can
  · rintro s s' ⟨pc, h⟩ (hs | ⟨r, hs⟩)
    · exact Or.inr ⟨h.step hs, h.nearer hs⟩
    · exact Or.inl (Inevitable.here ((machine V).step_ret hs).2)

def Guarded (s : State V) : Prop :=
  ∀ i < MAX_LEVEL, (s.store.level i).Linked tail ∧ ¬ s.store.dead i head ∧ ¬ s.store.dead i tail

theorem Reclaimed.guarded (h : Reclaimed s) : Guarded s := fun i hi =>
  ⟨h.inv.mem.sound.ends (head_mem_live s hi), h.inv.mem.head_alive i,
    fun hd => h.inv.mem.ne_tail_of_dead hd rfl⟩

def Busy (t : Tid) (A : Set ℤ) (op : SetOp V) (s : State V) : Prop := ∃ pc, Alone A s t op pc

theorem serves (V : Type) (t : Tid) : (machine V).Serves (enter t) t
    (fun op => op.key < INT_MAX) Guarded Whole (Busy t) where
  call h hk := ⟨Step.call t _ (h.idle t) hk, _, h.alone t hk⟩
  tau := fun ⟨_, h⟩ hs => h.step hs
  ret := fun ⟨_, h⟩ hs => h.ret hs
  running := fun ⟨_, h⟩ he => nomatch h.thread.symm.trans he
  returns := fun ⟨_, h⟩ => h.returns
  during := fun ⟨_, h⟩ => h.inv.guarded
  between h := h.inv.guarded

-- the nodes of the set in the order of their keys: each level links those that are high enough
structure Exact (A : Set ℤ) (s : State V) (xs : List Loc) : Prop where
  sorted : ((xs ++ [tail]).map fun x => (s.store.node x).key).Pairwise (· < ·)
  keys : ∀ k, (∃ x ∈ xs, (s.store.node x).key = k) ↔ k ∈ A
  heights : ∀ x ∈ xs, 1 ≤ (s.store.node x).topLevel ∧ (s.store.node x).topLevel ≤ MAX_LEVEL
  unmarked : ∀ x ∈ xs, ∀ i < (s.store.node x).topLevel, ¬ s.store.dead i x
  levels : ∀ i < MAX_LEVEL,
    (s.store.level i).Path head (xs.filter fun x => i < (s.store.node x).topLevel) tail

theorem level_path {L : Set Cursor} (hm : MemInv σ MAX_LEVEL L) (hi : i < MAX_LEVEL) :
    ∃ xs, (σ.level i).Path head xs tail ∧ (xs.map (rank σ)).Pairwise (· < ·) ∧
      ∀ x, x ∈ xs ↔ (σ.level i).Linked x ∧ x ≠ head ∧ x ≠ tail := by
  have hh : (head, i) ∈ L := hm.sound.head_mem hi
  exact Heap.exists_path_ordered (hm.sound.ordered hi) (Heap.Live.root hh) (hm.sound.ends hh)
    (show head ≠ tail by decide) (hm.sound.tail_end (hm.sound.tail_mem hh))

theorem Whole.linked_iff (h : Whole A s) (hi : i < MAX_LEVEL) :
    (s.store.level i).Linked x ↔
      (s.store.level 0).Linked x ∧ i < (s.store.node x).topLevel := by
  have hm := h.inv.inv.mem
  constructor
  · intro hx
    have hxl := hm.live_of_linked_at hi hx
    exact ⟨(linked_below hm hi hxl (h.alive hi hx) (Nat.zero_le i)).1, (hm.level hxl).1⟩
  · exact fun hx => h.full hx.1 hx.2

theorem Whole.exact (h : Whole A s) : ∃ xs, Exact A s xs := by
  have hm := h.inv.inv.mem
  have h0 : 0 < MAX_LEVEL := by decide
  obtain ⟨xs, _, hs, hx⟩ := level_path hm h0
  have hrank : ∀ x ∈ xs, rank s.store x = ((s.store.node x).key : ℤ) := fun x hm =>
    rank_of_ne _ ((hx x).1 hm).2.1
  have hlevel : ∀ x ∈ xs, 0 < (s.store.node x).topLevel ∧ (s.store.node x).topLevel ≤ MAX_LEVEL :=
    fun x hxs => hm.level (hm.live_of_linked_at h0 ((hx x).1 hxs).1)
  refine ⟨xs, ?_, fun k => ?_, hlevel, fun x hxs i hi => ?_, fun i hi => ?_⟩
  · rw [List.map_append, List.pairwise_append]
    refine ⟨?_, List.pairwise_singleton _ _, fun a ha b hb => ?_⟩
    · rw [List.pairwise_map] at hs ⊢
      refine hs.imp_of_mem fun {x y} hx hy hlt => ?_
      rw [hrank x hx, hrank y hy] at hlt
      exact WithBot.coe_lt_coe.1 hlt
    · obtain ⟨x, hxs, rfl⟩ := List.mem_map.1 ha
      obtain rfl := List.mem_singleton.1 hb
      have hb := h.inv.inv.one.mem.bounded ((hx x).1 hxs).1 ((hx x).1 hxs).2.2
      rw [hrank x hxs] at hb
      exact (WithBot.coe_lt_coe.1 hb).trans_eq hm.tail_key.symm
  · rw [← h.abs]
    constructor
    · rintro ⟨x, hxs, rfl⟩
      obtain ⟨hl, hh, ht⟩ := (hx x).1 hxs
      exact ⟨x, hh, ht, hl, h.alive h0 hl, rfl⟩
    · rintro ⟨x, hh, ht, hl, _, rfl⟩
      exact ⟨x, (hx x).2 ⟨hl, hh, ht⟩, rfl⟩
  · exact h.alive (hi.trans_le (hlevel x hxs).2) (h.full ((hx x).1 hxs).1 hi)
  · obtain ⟨ys, hp, hys, hy⟩ := level_path hm hi
    have hfilter : xs.filter (fun x => i < (s.store.node x).topLevel) = ys := by
      refine Heap.eq_of_pairwise (f := rank s.store) ?_ hys fun x => ?_
      · exact hs.sublist ((List.filter_sublist).map _)
      · rw [List.mem_filter, hx, hy, h.linked_iff hi, decide_eq_true_iff]
        tauto
    rw [hfilter]
    exact hp

def SearchesAgree (s : State V) : Prop := ∀ key ≤ INT_MAX, ∃ N found path, ∀ fuel, N ≤ fuel →
  findNoCleanup s.store key fuel = some (found, path) ∧
  findSuccsNoCleanup s.store key fuel = some (found, path.map Prod.snd) ∧
  find key fuel s.store = some (s.store, found, path)

theorem Whole.searches (h : Whole A s) : SearchesAgree s := by
  intro key hk
  obtain ⟨N, found, path, _, _, hN⟩ := h.search_agree hk
  exact ⟨N, found, path, hN⟩

theorem linkFreeSkipList_levels_exact (zero : V) (junk : Uchar) (t : Tid) (ops : List (SetOp V))
    (hk : ∀ op ∈ ops, op.key < INT_MAX) :
    (machine V).Behaves (enter t) t Guarded (fun A s => (∃ xs, Exact A s xs) ∧ SearchesAgree s)
      ops ∅ (initial zero junk) :=
  (serves V t).behaves (fun h => ⟨h.exact, h.searches⟩) ops ∅ _ hk (initial_whole zero junk)

theorem linkFreeSkipList_levels_exact_three : (machine ℕ).Behaves (enter 0) 0 Guarded
    (fun A s => (∃ xs, Exact A s xs) ∧ SearchesAgree s)
    [.insert 5 0, .insert 7 0, .remove 5, .contains 7] ∅ (initial 0 0#8) :=
  linkFreeSkipList_levels_exact 0 0#8 0 _ (by decide)

end LinkFree.SkipList
