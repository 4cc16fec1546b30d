import DurableSets.Core.History
import Mathlib.Data.Set.Insert

namespace Chain

-- several chains over the same nodes, one above the other
structure Tower (α κ : Type*) where
  head : α
  tail : α
  succ : ℕ → α → Option α
  dead : ℕ → α → Prop
  rank : α → κ

namespace Tower

variable {α κ : Type*}

def level (T : Tower α κ) (i : ℕ) : Heap α κ := ⟨T.head, T.succ i, T.dead i, T.rank⟩

-- a reader stands at a node and a level, and goes on to the next node or down
inductive Edge (T : Tower α κ) : α × ℕ → α × ℕ → Prop where
  | right {x y : α} {i : ℕ} (h : T.succ i x = some y) : Edge T (x, i) (y, i)
  | down (x : α) (i : ℕ) : Edge T (x, i + 1) (x, i)

def Reach (T : Tower α κ) : α × ℕ → α × ℕ → Prop := Relation.ReflTransGen T.Edge

def Live (T : Tower α κ) (R : Set (α × ℕ)) : Set (α × ℕ) := {c | ∃ r ∈ R, T.Reach r c}

def floor (L : Set (α × ℕ)) (i : ℕ) : Set α := {x | (x, i) ∈ L}

structure Closed (T : Tower α κ) (L : Set (α × ℕ)) : Prop where
  right : ∀ {x y i}, (x, i) ∈ L → T.succ i x = some y → (y, i) ∈ L
  down : ∀ {x i}, (x, i + 1) ∈ L → (x, i) ∈ L

variable {T T' : Tower α κ} {L L' R : Set (α × ℕ)} {x y p n c d : α} {i j top G : ℕ}

theorem live_root {r : α × ℕ} (h : r ∈ R) : r ∈ T.Live R := ⟨r, h, Relation.ReflTransGen.refl⟩

theorem live_closed (T : Tower α κ) (R : Set (α × ℕ)) : T.Closed (T.Live R) where
  right := by
    rintro x y i ⟨r, hr, h⟩ hs
    exact ⟨r, hr, Relation.ReflTransGen.tail h (Edge.right hs)⟩
  down := by
    rintro x i ⟨r, hr, h⟩
    exact ⟨r, hr, Relation.ReflTransGen.tail h (Edge.down x i)⟩

theorem Closed.live_subset (h : T.Closed L) (hR : R ⊆ L) : T.Live R ⊆ L := by
  rintro c ⟨r, hr, hc⟩
  induction hc with
  | refl => exact hR hr
  | tail _ he ih =>
    cases he with
    | right hs => exact h.right ih hs
    | down x i => exact h.down ih

theorem Closed.lower (h : T.Closed L) (hx : (x, i) ∈ L) (hj : j ≤ i) : (x, j) ∈ L := by
  induction i, hj using Nat.le_induction with
  | base => exact hx
  | succ i _ ih => exact ih (h.down hx)

theorem Closed.reach (h : T.Closed L) (hx : (x, i) ∈ L) (hr : (T.level i).Reach x y) :
    (y, i) ∈ L := by
  induction hr with
  | refl => exact hx
  | tail _ hs ih => exact h.right ih hs

theorem Closed.live_iff (h : T.Closed L) : (T.level i).Live (floor L i) x ↔ (x, i) ∈ L := by
  constructor
  · rintro ⟨r, hr, hx⟩
    exact h.reach hr hx
  · exact fun hx => Heap.Live.root hx

-- G levels are in order, on the others a reader only gets to the end
structure Sound [Preorder κ] (T : Tower α κ) (top G : ℕ) (L : Set (α × ℕ)) : Prop where
  closed : T.Closed L
  head_mem : ∀ {i}, i < top → (T.head, i) ∈ L
  tail_end : ∀ {i}, (T.tail, i) ∈ L → T.succ i T.tail = none
  ends : ∀ {x i}, (x, i) ∈ L → (T.level i).Reach x T.tail
  good : ∀ {i}, i < G → (T.level i).Good (floor L i)
  ordered : ∀ {i}, i < G → (T.level i).Ordered (floor L i)

structure Steady (T T' : Tower α κ) (L : Set (α × ℕ)) : Prop where
  head : T'.head = T.head
  tail : T'.tail = T.tail
  succ : ∀ {x i}, (x, i) ∈ L → T'.succ i x = T.succ i x
  rank : ∀ {x i}, (x, i) ∈ L → T'.rank x = T.rank x
  dead : ∀ {x i}, (x, i) ∈ L → T.dead i x → T'.dead i x

-- n is put between p and its successor c at level i
structure Splice [Preorder κ] (T T' : Tower α κ) (G : ℕ) (L : Set (α × ℕ)) (i : ℕ)
    (p n c : α) : Prop where
  head : T'.head = T.head
  tail : T'.tail = T.tail
  pred : (p, i) ∈ L
  pred_alive : ¬ T.dead i p
  pred_succ : T.succ i p = some c
  fresh : (n, i) ∉ L
  base : ∀ j, i = j + 1 → (n, j) ∈ L
  pred_succ' : T'.succ i p = some n
  new_succ' : T'.succ i n = some c
  succ : ∀ {x j}, (x, j) ∈ L → (x, j) ≠ (p, i) → T'.succ j x = T.succ j x
  rank : ∀ {x j}, (x, j) ∈ L → T'.rank x = T.rank x
  dead : ∀ {x j}, (x, j) ∈ L → (T'.dead j x ↔ T.dead j x)
  tidy : i < G → ¬ T'.dead i n ∧ T.rank p < T'.rank n ∧ T'.rank n < T.rank c

-- the nodes from c up to d are cut out behind p at level i
structure Bypass (T T' : Tower α κ) (L : Set (α × ℕ)) (i : ℕ) (p c d : α) : Prop where
  head : T'.head = T.head
  tail : T'.tail = T.tail
  pred : (p, i) ∈ L
  pred_alive : ¬ T.dead i p
  pred_succ : T.succ i p = some c
  path : (T.level i).Reach c d
  gone : ∀ {x}, (T.level i).Between c d x → T.dead i x
  pred_succ' : T'.succ i p = some d
  succ : ∀ {x j}, (x, j) ∈ L → (x, j) ≠ (p, i) → T'.succ j x = T.succ j x
  rank : ∀ {x j}, (x, j) ∈ L → T'.rank x = T.rank x
  dead : ∀ {x j}, (x, j) ∈ L → (T'.dead j x ↔ T.dead j x)

theorem Steady.level (s : Steady T T' L) (hc : T.Closed L) (i : ℕ) :
    Heap.Steady (T.level i) (T'.level i) (floor L i) where
  head := s.head
  succ hx := s.succ (hc.live_iff.1 hx)
  rank hx := s.rank (hc.live_iff.1 hx)
  dead hx := s.dead (hc.live_iff.1 hx)

theorem Steady.closed (s : Steady T T' L) (hc : T.Closed L) : T'.Closed L where
  right hx hs := hc.right hx ((s.succ hx).symm.trans hs)
  down := hc.down

theorem Bypass.steady (s : Bypass T T' L i p c d) (hc : T.Closed L) (hj : j ≠ i) :
    Heap.Steady (T.level j) (T'.level j) (floor L j) where
  head := s.head
  succ hx := s.succ (hc.live_iff.1 hx) fun e => hj (congrArg Prod.snd e)
  rank hx := s.rank (hc.live_iff.1 hx)
  dead hx := (s.dead (hc.live_iff.1 hx)).2

theorem Bypass.level (s : Bypass T T' L i p c d) (hc : T.Closed L) :
    Heap.Bypass (T.level i) (T'.level i) (floor L i) p c d where
  head := s.head
  pred := Heap.Live.root s.pred
  pred_alive := s.pred_alive
  pred_succ := s.pred_succ
  path := s.path
  gone := s.gone
  pred_succ' := s.pred_succ'
  succ hx hne := s.succ (hc.live_iff.1 hx) fun e => hne (congrArg Prod.fst e)
  rank hx := s.rank (hc.live_iff.1 hx)
  dead hx := s.dead (hc.live_iff.1 hx)

theorem Bypass.closed (s : Bypass T T' L i p c d) (hc : T.Closed L) : T'.Closed L where
  right := by
    rintro x y j hx hs
    by_cases hp : (x, j) = (p, i)
    · obtain ⟨rfl, rfl⟩ := Prod.mk.inj hp
      obtain rfl := Option.some.inj (s.pred_succ'.symm.trans hs)
      exact hc.reach (hc.right hx s.pred_succ) s.path
    · exact hc.right hx ((s.succ hx hp).symm.trans hs)
  down := hc.down

theorem floor_insert_self : floor (insert (n, i) L) i = insert n (floor L i) := by
  ext x
  simp [floor]

theorem floor_insert_other (hj : j ≠ i) : floor (insert (n, i) L) j = floor L j := by
  ext x
  simp [floor, hj]

section Order

variable [Preorder κ]

theorem Sound.mono (h : T.Sound top G L) (hc : T.Closed L') (hL : L' ⊆ L)
    (hh : ∀ {i}, i < top → (T.head, i) ∈ L') (hG : G ≤ top) : T.Sound top G L' where
  closed := hc
  head_mem := hh
  tail_end ht := h.tail_end (hL ht)
  ends hx := h.ends (hL hx)
  good hi := (h.good hi).reroot (hh (by omega)) fun _ hr => Heap.Live.root (hL hr)
  ordered hi := Heap.Ordered.reroot (h.ordered hi) fun _ hr => Heap.Live.root (hL hr)

theorem Sound.succ_ne_none (h : T.Sound top G L) (hx : (x, i) ∈ L) (ht : x ≠ T.tail) :
    ∃ y, T.succ i x = some y := by
  rcases (h.ends hx).eq_or_succ with he | ⟨y, hy, _⟩
  · exact absurd he ht
  · exact ⟨y, hy⟩

theorem Sound.tail_mem (h : T.Sound top G L) (hx : (x, i) ∈ L) : (T.tail, i) ∈ L :=
  h.closed.reach hx (h.ends hx)

theorem Sound.eq_tail (h : T.Sound top G L) (hx : (x, i) ∈ L)
    (hr : (T.level i).Reach T.tail y) : y = T.tail := by
  rcases hr.eq_or_succ with he | ⟨z, hz, _⟩
  · exact he.symm
  · have hz : T.succ i T.tail = some z := hz
    rw [h.tail_end (h.tail_mem hx)] at hz
    cases hz

theorem Sound.acyclic (h : T.Sound top G L) (hx : (x, i) ∈ L) (hs : T.succ i x = some y) :
    ¬ (T.level i).Reach y x := by
  intro hyx
  have back : ∀ {z}, (T.level i).Reach x z → (T.level i).Reach z x := by
    intro z hz
    induction hz with
    | refl => exact Heap.Reach.refl x
    | @tail u v _ hv ih =>
      by_cases he : u = x
      · subst he
        obtain rfl := Option.some.inj (hs.symm.trans hv)
        exact hyx
      · exact ih.succ_of_ne he hv
  obtain rfl := h.eq_tail hx (back (h.ends hx))
  rw [h.tail_end hx] at hs
  cases hs

theorem Sound.antisymm (h : T.Sound top G L) (hx : (x, i) ∈ L) (hxy : (T.level i).Reach x y)
    (hyx : (T.level i).Reach y x) : x = y := by
  rcases hxy.eq_or_succ with he | ⟨z, hz, hr⟩
  · exact he
  · exact absurd (hr.trans hyx) (h.acyclic hx hz)

def seenBy (T : Tower α κ) (i : ℕ) (p : α) : Heap α κ := ⟨p, T.succ i, fun x => x ≠ p, T.rank⟩

theorem Sound.seenBy_good (h : T.Sound top G L) (hp : (p, i) ∈ L) :
    (T.seenBy i p).Good (floor L i) where
  head_root := hp
  acyclic hx hs := h.acyclic (h.closed.live_iff.1 hx) hs
  alive _ hd := by
    obtain rfl := not_not.1 hd
    exact Heap.Reach.refl _

theorem Steady.sound (s : Steady T T' L) (h : T.Sound top G L) : T'.Sound top G L where
  closed := s.closed h.closed
  head_mem hi := s.head ▸ h.head_mem hi
  tail_end ht := by
    rw [s.tail] at ht ⊢
    exact (s.succ ht).trans (h.tail_end ht)
  ends hx := by
    rw [s.tail]
    exact ((s.level h.closed _).reach (Heap.Live.root hx)).2 (h.ends hx)
  good hi := (s.level h.closed _).good (h.good hi)
  ordered hi := (s.level h.closed _).ordered (h.ordered hi)

theorem Splice.steady (s : Splice T T' G L i p n c) (hc : T.Closed L) (hj : j ≠ i) :
    Heap.Steady (T.level j) (T'.level j) (floor L j) where
  head := s.head
  succ hx := s.succ (hc.live_iff.1 hx) fun e => hj (congrArg Prod.snd e)
  rank hx := s.rank (hc.live_iff.1 hx)
  dead hx := (s.dead (hc.live_iff.1 hx)).2

theorem Splice.level (s : Splice T T' G L i p n c) (hc : T.Closed L) (hi : i < G) :
    Heap.Splice (T.level i) (T'.level i) (floor L i) p n c where
  head := s.head
  pred := Heap.Live.root s.pred
  pred_alive := s.pred_alive
  pred_succ := s.pred_succ
  fresh h := s.fresh (hc.live_iff.1 h)
  pred_succ' := s.pred_succ'
  new_succ' := s.new_succ'
  new_alive' := (s.tidy hi).1
  succ hx hne := s.succ (hc.live_iff.1 hx) fun e => hne (congrArg Prod.fst e)
  rank hx := s.rank (hc.live_iff.1 hx)
  dead hx := s.dead (hc.live_iff.1 hx)

theorem Splice.seen (s : Splice T T' G L i p n c) (hc : T.Closed L) :
    Heap.Splice (T.seenBy i p) ⟨p, T'.succ i, fun x => x ≠ p ∧ x ≠ n, T'.rank⟩ (floor L i) p n c where
  head := rfl
  pred := Heap.Live.root s.pred
  pred_alive h := h rfl
  pred_succ := s.pred_succ
  fresh h := s.fresh (hc.live_iff.1 h)
  pred_succ' := s.pred_succ'
  new_succ' := s.new_succ'
  new_alive' h := h.2 rfl
  succ hx hne := s.succ (hc.live_iff.1 hx) fun e => hne (congrArg Prod.fst e)
  rank hx := s.rank (hc.live_iff.1 hx)
  dead {x} hx := by
    refine ⟨And.left, fun h => ⟨h, ?_⟩⟩
    rintro rfl
    exact s.fresh (hc.live_iff.1 hx)

theorem Splice.closed (s : Splice T T' G L i p n c) (hc : T.Closed L) :
    T'.Closed (insert (n, i) L) where
  right := by
    rintro x y j hx hs
    rcases Set.mem_insert_iff.1 hx with he | hx
    · obtain ⟨rfl, rfl⟩ := Prod.mk.inj he
      obtain rfl := Option.some.inj (s.new_succ'.symm.trans hs)
      exact Set.mem_insert_of_mem _ (hc.right s.pred s.pred_succ)
    · by_cases hp : (x, j) = (p, i)
      · obtain ⟨rfl, rfl⟩ := Prod.mk.inj hp
        obtain rfl := Option.some.inj (s.pred_succ'.symm.trans hs)
        exact Set.mem_insert _ _
      · exact Set.mem_insert_of_mem _ (hc.right hx ((s.succ hx hp).symm.trans hs))
  down := by
    rintro x j hx
    rcases Set.mem_insert_iff.1 hx with he | hx
    · obtain ⟨rfl, rfl⟩ := Prod.mk.inj he
      exact Set.mem_insert_of_mem _ (s.base j rfl)
    · exact Set.mem_insert_of_mem _ (hc.down hx)

theorem Splice.sound (s : Splice T T' G L i p n c) (h : T.Sound top G L) :
    T'.Sound top G (insert (n, i) L) where
  closed := s.closed h.closed
  head_mem hi := Set.mem_insert_of_mem _ (s.head ▸ h.head_mem hi)
  tail_end {j} ht := by
    rw [s.tail] at ht ⊢
    have ht0 : (T.tail, j) ∈ L := by
      rcases Set.mem_insert_iff.1 ht with he | ht
      · obtain ⟨rfl, rfl⟩ := Prod.mk.inj he
        exact h.tail_mem s.pred
      · exact ht
    refine (s.succ ht0 fun e => ?_).trans (h.tail_end ht0)
    obtain ⟨rfl, rfl⟩ := Prod.mk.inj e
    have hs := s.pred_succ
    rw [h.tail_end ht0] at hs
    cases hs
  ends {x j} hx := by
    rw [s.tail]
    have old : ∀ {x}, (x, i) ∈ L → (T'.level i).Reach x T.tail := fun hx =>
      (s.seen h.closed).reach_of (Heap.Live.root hx) (h.ends hx)
    rcases Set.mem_insert_iff.1 hx with he | hx
    · obtain ⟨rfl, rfl⟩ := Prod.mk.inj he
      exact Heap.Reach.head s.new_succ' (old (h.closed.right s.pred s.pred_succ))
    · by_cases hj : j = i
      · obtain rfl := hj.symm
        exact old hx
      · exact ((s.steady h.closed hj).reach (Heap.Live.root hx)).2 (h.ends hx)
  good {j} hj := by
    by_cases he : j = i
    · subst he
      rw [floor_insert_self]
      exact (s.level h.closed hj).good (h.good hj)
    · rw [floor_insert_other he]
      exact (s.steady h.closed he).good (h.good hj)
  ordered {j} hj := by
    by_cases he : j = i
    · subst he
      rw [floor_insert_self]
      exact (s.level h.closed hj).ordered (h.ordered hj) (s.tidy hj).2.1 (s.tidy hj).2.2
    · rw [floor_insert_other he]
      exact (s.steady h.closed he).ordered (h.ordered hj)

theorem Bypass.seen (s : Bypass T T' L i p c d) (hc : T.Closed L) (h : T.Sound top G L) :
    Heap.Bypass (T.seenBy i p) (T'.seenBy i p) (floor L i) p c d where
  head := rfl
  pred := Heap.Live.root s.pred
  pred_alive h := h rfl
  pred_succ := s.pred_succ
  path := s.path
  gone {x} hb := by
    rintro rfl
    exact h.acyclic s.pred s.pred_succ hb.1
  pred_succ' := s.pred_succ'
  succ hx hne := s.succ (hc.live_iff.1 hx) fun e => hne (congrArg Prod.fst e)
  rank hx := s.rank (hc.live_iff.1 hx)
  dead _ := Iff.rfl

theorem Bypass.sound (s : Bypass T T' L i p c d) (h : T.Sound top G L) : T'.Sound top G L where
  closed := s.closed h.closed
  head_mem hi := s.head ▸ h.head_mem hi
  tail_end {j} ht := by
    rw [s.tail] at ht ⊢
    refine (s.succ ht fun e => ?_).trans (h.tail_end ht)
    obtain ⟨rfl, rfl⟩ := Prod.mk.inj e
    have hs := s.pred_succ
    rw [h.tail_end ht] at hs
    cases hs
  ends {x j} hx := by
    rw [s.tail]
    by_cases hj : j = i
    · subst hj
      have hr := (s.seen h.closed h).reach_or (h.seenBy_good s.pred) (Heap.Live.root hx) (h.ends hx)
      rcases hr with hr | ⟨_, _, hr, hne⟩
      · exact hr
      · exact absurd (h.eq_tail hx hr).symm hne
    · exact ((s.steady h.closed hj).reach (Heap.Live.root hx)).2 (h.ends hx)
  good {j} hj := by
    by_cases he : j = i
    · subst he
      exact (s.level h.closed).good (h.good hj)
    · exact (s.steady h.closed he).good (h.good hj)
  ordered {j} hj := by
    by_cases he : j = i
    · subst he
      exact (s.level h.closed).ordered (h.ordered hj)
    · exact (s.steady h.closed he).ordered (h.ordered hj)

inductive DeadPath (T : Tower α κ) (i : ℕ) (c : α) : α → Prop where
  | refl : DeadPath T i c c
  | tail {d e : α} (h : DeadPath T i c d) (dead : T.dead i d) (next : T.succ i d = some e) :
    DeadPath T i c e

omit [Preorder κ] in
theorem DeadPath.reach (h : T.DeadPath i c d) : (T.level i).Reach c d := by
  induction h with
  | refl => exact Heap.Reach.refl c
  | tail _ _ hs ih => exact ih.tail hs

theorem DeadPath.between (hs : T.Sound top G L) (hc : (c, i) ∈ L) (h : T.DeadPath i c d)
    (hb : (T.level i).Between c d x) : T.dead i x := by
  induction h with
  | refl => exact absurd (hs.antisymm (hs.closed.reach hc hb.1) hb.2.1 hb.1) hb.2.2
  | @tail d e hd dead next ih =>
    by_cases he : x = d
    · exact he ▸ dead
    · rcases Heap.Reach.total hb.1 hd.reach with h | h
      · exact ih ⟨hb.1, h, he⟩
      · have hex := h.succ_of_ne (Ne.symm he) next
        exact absurd (hs.antisymm (hs.closed.reach hc hb.1) hb.2.1 hex) hb.2.2

inductive Change (T T' : Tower α κ) (G : ℕ) (L : Set (α × ℕ)) : Set (α × ℕ) → Prop where
  | steady (s : Steady T T' L) : Change T T' G L L
  | splice (i : ℕ) (p n c : α) (s : Splice T T' G L i p n c) : Change T T' G L (insert (n, i) L)
  | bypass (i : ℕ) (p c d : α) (s : Bypass T T' L i p c d) : Change T T' G L L

theorem Change.sound (ch : Change T T' G L L') (h : T.Sound top G L) : T'.Sound top G L' := by
  cases ch with
  | steady s => exact s.sound h
  | splice i p n c s => exact s.sound h
  | bypass i p c d s => exact s.sound h

theorem Change.level (ch : Change T T' G L L') (hc : T.Closed L) (hi : i < G) :
    Chain.Change (T.level i) (T'.level i) (floor L i) := by
  cases ch with
  | steady s => exact Chain.Change.steady (s.level hc i)
  | splice j p n c s =>
    by_cases he : i = j
    · subst he
      exact Chain.Change.splice p n c (s.level hc hi)
    · exact Chain.Change.steady (s.steady hc he)
  | bypass j p c d s =>
    by_cases he : i = j
    · subst he
      exact Chain.Change.bypass p c d (s.level hc)
    · exact Chain.Change.steady (s.steady hc he)

theorem Change.subset (ch : Change T T' G L L') : L ⊆ L' := by
  cases ch with
  | steady s => exact subset_rfl
  | splice i p n c s => exact Set.subset_insert _ _
  | bypass i p c d s => exact subset_rfl

theorem Change.linked_new (ch : Change T T' G L L') (h : T.Sound top G L) (hi : i < G)
    (hx : (x, i) ∈ L') (hn : (x, i) ∉ L) : (T'.level i).Linked x := by
  cases ch with
  | steady s => exact absurd hx hn
  | splice j p n c s =>
    obtain ⟨rfl, rfl⟩ := Prod.mk.inj ((Set.mem_insert_iff.1 hx).resolve_right hn)
    exact ((s.level h.closed hi).linked (h.good hi)).2 (Or.inr rfl)
  | bypass j p c d s => exact absurd hx hn

theorem Change.reach (ch : Change T T' G L L') (h : T.Sound top G L) (hi : i < G)
    (hx : (x, i) ∈ L) (hr : (T.level i).Reach x y) (hy : (T'.level i).Linked y) :
    (T'.level i).Reach x y := by
  have hl : (T.level i).Live (floor L i) x := Heap.Live.root hx
  cases ch with
  | steady s => exact ((s.level h.closed i).reach hl).2 hr
  | splice j p n c s =>
    by_cases he : i = j
    · subst he
      exact (s.level h.closed hi).reach_of hl hr
    · exact ((s.steady h.closed he).reach hl).2 hr
  | bypass j p c d s =>
    by_cases he : i = j
    · subst he
      rcases (s.level h.closed).reach_or (h.good hi) hl hr with hr | ⟨_, hb⟩
      · exact hr
      · exact absurd hb (((s.level h.closed).linked (h.good hi)).1 hy).2
    · exact ((s.steady h.closed he).reach hl).2 hr

theorem Change.linked (ch : Change T T' G L L') (h : T.Sound top G L) (hi : i < G)
    (hx : (x, i) ∈ L) (hy : (T'.level i).Linked x) : (T.level i).Linked x := by
  cases ch with
  | steady s => exact ((s.level h.closed i).linked (h.good hi)).1 hy
  | splice j p n c s =>
    by_cases he : i = j
    · subst he
      refine (((s.level h.closed hi).linked (h.good hi)).1 hy).resolve_right ?_
      rintro rfl
      exact s.fresh hx
    · exact ((s.steady h.closed he).linked (h.good hi)).1 hy
  | bypass j p c d s =>
    by_cases he : i = j
    · subst he
      exact (((s.level h.closed).linked (h.good hi)).1 hy).1
    · exact ((s.steady h.closed he).linked (h.good hi)).1 hy

end Order

end Tower

end Chain
