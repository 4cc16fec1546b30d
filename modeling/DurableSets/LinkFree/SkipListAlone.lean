import DurableSets.Core.Sequential
import DurableSets.LinkFree.SkipListProgress
import DurableSets.LinkFree.SkipListReclaim

namespace LinkFree.SkipList

open Chain

variable {V : Type} {σ σ' : Store V} {L : Set Cursor} {x y p n c d slot : Loc} {i j l level : ℕ}
  {op : SetOp V} {pc pc' : Pc} {path : Path} {q : Ptr} {s s' : State V} {t : Tid} {A : Set ℤ}

-- the levels from l on are still as the search found them, and newNode points there
structure Linking (σ : Store V) (path : Path) (n : Loc) (l : ℕ) : Prop where
  reaches : Reaches σ l path
  next : ∀ j, l ≤ j → j < (σ.node n).topLevel → ∀ e, path[j]? = some e →
    (σ.node n).next j = Ptr.addr e.2

def DeleteCtx.Told (σ : Store V) (n : Loc) : DeleteCtx → Prop
  | .find (.inRemove m) pred predNext _ _ =>
    (σ.node pred).next 0 = Ptr.addr predNext ∧ predNext = m ∧ n = m
  | .find (.inInsert _ _) _ _ _ _ => False
  | .remove r => r = true
  | .contains => False

def ValidCtx.Told (σ : Store V) (A : Set ℤ) (k : ℤ) (n : Loc) : ValidCtx → Prop
  | .found => k ∈ A
  | .linked path => Linking σ path n 1
  | .lost => False
  | .removing => (σ.level 0).Linked n
  | .contains => k ∈ A

def InsertCtx.Told (σ : Store V) (A : Set ℤ) (k : ℤ) (n : Loc) : InsertCtx → Prop
  | .found => k ∈ A
  | .linked path => Linking σ path n 1
  | .contains => k ∈ A

-- nobody else moves, so what a call has read is still so, and no compare-and-swap fails
def Told (σ : Store V) (A : Set ℤ) (op : SetOp V) : Pc → Prop
  | .searchDown i pred path => ¬ σ.dead i pred ∧ Adjacent σ (i + 1) path
  | .searchTest i pred succ path =>
    (σ.node pred).next i = Ptr.addr succ ∧ Adjacent σ (i + 1) path
  | .searchNext i pred succ path => pred = succ ∧ ¬ σ.dead i succ ∧ Adjacent σ (i + 1) path
  | .findDown (.inRemove _) i pred _ => ¬ σ.dead i pred
  | .findLoad (.inRemove n) i pred predNext succ _ =>
    (σ.node pred).next i = Ptr.addr predNext ∧ (succ = predNext ∨ predNext = n)
  | .findCas (.inRemove n) i pred predNext _ _ =>
    (σ.node pred).next i = Ptr.addr predNext ∧ predNext = n
  | .findDown (.inInsert _ _) _ _ _ => False
  | .findLoad (.inInsert _ _) _ _ _ _ _ => False
  | .findCas (.inInsert _ _) _ _ _ _ _ => False
  | .deleteLoad c n => c.Told σ n
  | .deleteFlush c n => c.Told σ n
  | .deleteStore c n => c.Told σ n
  | .validLoad c n => c.Told σ A op.key n
  | .validStore c n _ => c.Told σ A op.key n
  | .insertLoad c n => c.Told σ A op.key n
  | .insertFlush c n => c.Told σ A op.key n
  | .insertStore c n => c.Told σ A op.key n
  | .alloc path => Adjacent σ 0 path
  | .flipLoad path _ _ => Adjacent σ 0 path
  | .flipStore path _ _ _ => Adjacent σ 0 path
  | .initInsertFlag path _ _ => Adjacent σ 0 path
  | .initDeleteFlag path _ _ => Adjacent σ 0 path
  | .initKey path _ _ => Adjacent σ 0 path
  | .initValue path _ _ => Adjacent σ 0 path
  | .initTopLevel path _ _ => Adjacent σ 0 path
  | .initNext path _ _ => Adjacent σ 0 path
  | .linkCas path _ => Adjacent σ 0 path
  | .lostStore _ => False
  | .lostFree _ => False
  | .upperLoad path n i => Linking σ path n i
  | .upperCas _ _ _ _ => False
  | .upperLink path n i => Linking σ path n i
  | .markLoad n _ => (σ.level 0).Linked n
  | .markCas n i q => (σ.level 0).Linked n ∧ (σ.node n).next i = q
  | .removeFree _ => True
  | .containsDown i pred => ¬ σ.dead i pred
  | .containsTest i pred curr => (σ.node pred).next i = Ptr.addr curr
  | .containsPass i _ curr => ¬ σ.dead i curr
  | .containsNext i pred curr => pred = curr ∧ ¬ σ.dead i curr
  | .ret r => op.IsContains ∨ r = false → (r = true ↔ op.Accepts A)

def FindCtx.marking : FindCtx → Option Cursor
  | .inInsert _ _ => none
  | .inRemove n => some (n, 0)

def DeleteCtx.marking (n : Loc) : DeleteCtx → Option Cursor
  | .find c _ _ _ _ => c.marking
  | .remove _ => some (n, 0)
  | .contains => none

def Pc.marking : Pc → Option Cursor
  | .markLoad n i => some (n, i + 1)
  | .markCas n i _ => some (n, i + 1)
  | .deleteLoad c n => c.marking n
  | .deleteFlush c n => c.marking n
  | .deleteStore c n => c.marking n
  | .findDown c _ _ _ => c.marking
  | .findLoad c _ _ _ _ _ => c.marking
  | .findCas c _ _ _ _ _ => c.marking
  | .removeFree n => some (n, 0)
  | _ => none

-- the node that is linked below some level only: newNode that insert has still to link there,
-- or node of remove that find has unlinked from there on
def FindCtx.gap (i : ℕ) : FindCtx → Option Cursor
  | .inInsert n l => some (n, l)
  | .inRemove n => some (n, i)

def DeleteCtx.gap : DeleteCtx → Option Cursor
  | .find c _ _ _ _ => c.gap 1
  | _ => none

def Pc.gap : Pc → Option Cursor
  | .findDown c i _ _ => c.gap (i + 1)
  | .findLoad c i _ _ _ _ => c.gap (i + 1)
  | .findCas c i _ _ _ _ => c.gap (i + 1)
  | .deleteLoad c _ => c.gap
  | .deleteFlush c _ => c.gap
  | .deleteStore c _ => c.gap
  | .removeFree n => some (n, 0)
  | pc => pc.pending

def From (c : Option Cursor) (x : Loc) (i : ℕ) : Prop := ∃ l ≤ i, c = some (x, l)

structure Alone (A : Set ℤ) (s : State V) (t : Tid) (op : SetOp V) (pc : Pc) : Prop where
  inv : Reclaimed s
  bounded : Bounded s
  only : ∀ u, u ≠ t → s.thread u = none
  thread : s.thread t = some (op, pc)
  alive : ∀ {x i}, i < MAX_LEVEL → (s.store.level i).Linked x → s.store.dead i x →
    From pc.marking x i
  full : ∀ {x i}, (s.store.level 0).Linked x → i < (s.store.node x).topLevel →
    From pc.gap x i ∨ (s.store.level i).Linked x
  effect : (pc.took op ∧ op.Effect A s.abs) ∨ (¬ pc.took op ∧ s.abs = A)
  told : Told s.store A op pc

structure Whole (A : Set ℤ) (s : State V) : Prop where
  inv : Reclaimed s
  bounded : Bounded s
  idle : ∀ u, s.thread u = none
  alive : ∀ {x i}, i < MAX_LEVEL → (s.store.level i).Linked x → ¬ s.store.dead i x
  full : ∀ {x i}, (s.store.level 0).Linked x → i < (s.store.node x).topLevel →
    (s.store.level i).Linked x
  abs : s.abs = A

theorem not_from_none : ¬ From none x i := fun ⟨_, _, h⟩ => nomatch h

theorem MemInv.lower {G G' : ℕ} (hm : MemInv σ G L) (hpos : 0 < G') (hG : G' ≤ G) :
    MemInv σ G' L where
  sound := ⟨hm.sound.closed, hm.sound.head_mem, hm.sound.tail_end, hm.sound.ends,
    fun hi => hm.sound.good (hi.trans_le hG), fun hi => hm.sound.ordered (hi.trans_le hG)⟩
  pos := hpos
  le := hG.trans hm.le
  level := hm.level
  ne_head := hm.ne_head
  topDown := hm.topDown
  head_alive := hm.head_alive
  tail_next := hm.tail_next
  tail_key := hm.tail_key
  insertFlag := hm.insertFlag
  deleteFlag := hm.deleteFlag
  persist := hm.persist

theorem Inv.one (h : Inv MAX_LEVEL s) : Inv 1 s := ⟨h.mem.lower one_pos (by decide), h.fit, h.apart⟩

theorem linked_below (hm : MemInv σ MAX_LEVEL L) (hi : i < MAX_LEVEL) (hx : (x, i) ∈ L)
    (hd : ¬ σ.dead i x) (hj : j ≤ i) : (σ.level j).Linked x ∧ ¬ σ.dead j x := by
  have hd' := hm.alive_below hx hj hd
  exact ⟨hm.linked_of_alive (hm.sound.closed.lower hx hj) (hj.trans_lt hi) hd', hd'⟩

theorem linked_of_live (hm : MemInv s.store MAX_LEVEL s.live)
    (alive : ∀ {x i}, i < MAX_LEVEL → (s.store.level i).Linked x → ¬ s.store.dead i x)
    (roots : ∀ r ∈ s.roots, (s.store.level r.2).Linked r.1) (hx : (x, i) ∈ s.live) :
    (s.store.level i).Linked x := by
  suffices h : ∀ r ∈ s.live, (s.store.level r.2).Linked r.1 from h _ hx
  rintro r ⟨r0, hr0, hr⟩
  induction hr with
  | refl => exact roots _ hr0
  | @tail a b hr he ih =>
    have ha : a ∈ s.live := ⟨r0, hr0, hr⟩
    have hi : a.2 < MAX_LEVEL := (hm.level ha).1.trans_le (hm.level ha).2
    cases he with
    | right hs => exact Heap.Reach.tail ih hs
    | down x i =>
      exact (linked_below hm hi ha (alive hi ih) (Nat.le_succ i)).1

theorem linked_next (hi : i < MAX_LEVEL) (hm : MemInv σ MAX_LEVEL L) (hp : (p, i) ∈ L)
    (h : (σ.node p).next i = Ptr.addr c) : (σ.level i).Linked p ∧ (σ.level i).Linked c := by
  have hl := hm.linked_of_alive hp hi (dead_of_addr h)
  exact ⟨hl, Heap.Reach.tail hl (ref_of_addr h)⟩

theorem linked_congr {σ' : Store V} (hm : MemInv σ MAX_LEVEL L) (hi : i < MAX_LEVEL)
    (h : ∀ x, (x, i) ∈ L → ((σ'.node x).next i).ref = ((σ.node x).next i).ref) :
    (σ'.level i).Linked x ↔ (σ.level i).Linked x :=
  Heap.reach_congr fun y hy => h y (hm.live_of_linked_at hi hy)

def Pc.Swaps : Pc → Prop
  | .findCas _ _ _ _ _ _ => True
  | .linkCas _ _ => True
  | .upperCas _ _ _ _ => True
  | .upperLink _ _ _ => True
  | .markCas _ _ _ => True
  | _ => False

theorem next_kept (f : Fit σ L op pc) (hn : next σ op slot level pc = some (σ', pc'))
    (hc : ¬ pc.Swaps) (hx : (x, 0) ∈ L) : (σ'.node x).next = (σ.node x).next := by
  have own : ∀ {n : Loc} {m : Node V}, pc.pending = some (n, 0) →
      ((σ.write n m).node x).next = (σ.node x).next := by
    intro n m hp
    have hne : x ≠ n := by
      rintro rfl
      exact f.fresh _ hp hx
    rw [node_write_other σ m hne]
  cases pc with
  | findCas e i p d s path => exact absurd trivial hc
  | linkCas path n => exact absurd trivial hc
  | upperCas path n i q => exact absurd trivial hc
  | upperLink path n i => exact absurd trivial hc
  | markCas n i q => exact absurd trivial hc
  | initValue path n l =>
    cases op with
    | insert k v =>
      obtain ⟨rfl, rfl⟩ := Prod.mk.inj (Option.some.inj hn)
      exact own rfl
    | _ => cases hn
  | initNext path n i =>
    obtain ⟨e, _, he⟩ := Option.map_eq_some_iff.1 hn
    obtain ⟨rfl, rfl⟩ := Prod.mk.inj he
    exact own rfl
  | containsTest i p c =>
    simp only [next] at hn
    split at hn
    · obtain ⟨rfl, rfl⟩ := Prod.mk.inj (Option.some.inj hn)
      rfl
    · split at hn
      · obtain ⟨rfl, rfl⟩ := Prod.mk.inj (Option.some.inj hn)
        rfl
      · cases i <;> obtain ⟨rfl, rfl⟩ := Prod.mk.inj (Option.some.inj hn) <;> rfl
  | ret r => cases hn
  | _ =>
    simp only [next] at hn
    repeat' split at hn
    all_goals first
      | obtain ⟨rfl, rfl⟩ := Prod.mk.inj (Option.some.inj hn)
        first
        | rfl
        | exact own rfl
        | exact next_write (by rfl) x
        | exact next_flush σ _ x
      | obtain ⟨e, _, he⟩ := Option.map_eq_some_iff.1 hn
        obtain ⟨rfl, rfl⟩ := Prod.mk.inj he
        rfl

theorem setNext_linked_other (hm : MemInv σ MAX_LEVEL L) (hj : j < MAX_LEVEL) (hne : j ≠ i) :
    ((σ.setNext p i q).level j).Linked x ↔ (σ.level j).Linked x :=
  linked_congr hm hj fun _ _ => ref_setNext σ q fun h => hne (Prod.mk.inj h).2

theorem retry_marking (c : FindCtx) : c.retry.marking = c.marking := by cases c <;> rfl

theorem findDone_marking (c : FindCtx) (p d : Loc) (path : Path) (i : ℕ) :
    (findDone c p d path i).marking = c.marking := by
  cases i with
  | zero => cases c <;> rfl
  | succ i => rfl

theorem marked_marking (n : Loc) (r : Bool) (i : ℕ) : (marked n r i).marking = some (n, i) := by
  cases i <;> rfl

theorem marking_kept (hn : next σ op slot level pc = some (σ', pc')) (hc : ¬ pc.Swaps)
    (ht : Told σ A op pc) (hu : ∀ n i, pc = .markLoad n i → ¬ σ.dead i n)
    (hr : ∀ n, pc ≠ .removeFree n) {a : Cursor} (h : pc.marking = some a) :
    pc'.marking = some a := by
  cases pc with
  | findDown e i p path =>
    simp only [next] at hn
    split at hn
    · obtain ⟨rfl, rfl⟩ := Prod.mk.inj (Option.some.inj hn)
      exact (retry_marking e).trans h
    · obtain ⟨s, _, he⟩ := Option.map_eq_some_iff.1 hn
      obtain ⟨rfl, rfl⟩ := Prod.mk.inj he
      exact h
  | findLoad e i p d s path =>
    simp only [next] at hn
    split at hn
    · obtain ⟨z, _, he⟩ := Option.map_eq_some_iff.1 hn
      obtain ⟨rfl, rfl⟩ := Prod.mk.inj he
      split <;> exact h
    · split at hn
      · obtain ⟨rfl, rfl⟩ := Prod.mk.inj (Option.some.inj hn)
        split
        · exact (findDone_marking e p s path i).trans h
        · exact h
      · obtain ⟨z, _, he⟩ := Option.map_eq_some_iff.1 hn
        obtain ⟨rfl, rfl⟩ := Prod.mk.inj he
        exact h
  | deleteLoad e n =>
    have done : (afterDelete n e).marking = some a := by
      cases e with
      | remove r =>
        obtain rfl : r = true := ht
        exact h
      | find c p d s path => exact h
      | contains => cases h
    simp only [next] at hn
    split at hn <;> obtain ⟨rfl, rfl⟩ := Prod.mk.inj (Option.some.inj hn)
    · exact done
    · exact h
  | deleteFlush e n =>
    obtain ⟨rfl, rfl⟩ := Prod.mk.inj (Option.some.inj hn)
    exact h
  | deleteStore e n =>
    obtain ⟨rfl, rfl⟩ := Prod.mk.inj (Option.some.inj hn)
    cases e with
    | remove r =>
      obtain rfl : r = true := ht
      exact h
    | find c p d s path => exact h
    | contains => cases h
  | markLoad n i =>
    simp only [next] at hn
    rw [if_neg (show ¬ ((σ.node n).next i).isMarked = true from hu n i rfl)] at hn
    obtain ⟨rfl, rfl⟩ := Prod.mk.inj (Option.some.inj hn)
    exact h
  | findCas e i p d s path => exact absurd trivial hc
  | markCas n i q => exact absurd trivial hc
  | removeFree n => exact absurd rfl (hr n)
  | _ => cases h

theorem From.mono {k : ℕ} (h : From (some (n, k)) x i) (hl : l ≤ k) : From (some (n, l)) x i := by
  obtain ⟨m, hm, he⟩ := h
  obtain ⟨rfl, rfl⟩ := Prod.mk.inj (Option.some.inj he)
  exact ⟨l, hl.trans hm, rfl⟩

theorem FindCtx.gap_mono {e : FindCtx} {k : ℕ} (h : From (e.gap k) x i) (hl : l ≤ k) :
    From (e.gap l) x i := by
  cases e with
  | inInsert n m => exact h
  | inRemove n => exact h.mono hl

theorem findDone_gap (e : FindCtx) (p d : Loc) (path : Path) (i : ℕ) :
    (findDone e p d path i).gap = e.gap i := by
  cases i with
  | zero => cases e <;> rfl
  | succ i => rfl

theorem upper_gap (h : From (some (n, l)) x i) (hi : i < (σ.node x).topLevel) :
    From (upper σ path n l).gap x i := by
  obtain ⟨m, hm, he⟩ := h
  obtain ⟨rfl, rfl⟩ := Prod.mk.inj (Option.some.inj he)
  unfold upper
  rw [if_pos (hm.trans_lt hi)]
  exact ⟨l, hm, rfl⟩

theorem afterInsert_gap {e : InsertCtx} (h : From (e.pending n) x i)
    (hi : i < (σ.node x).topLevel) : From (afterInsert σ n e).gap x i := by
  cases e with
  | linked path => exact upper_gap h hi
  | found => exact absurd h not_from_none
  | contains => exact absurd h not_from_none

theorem afterValid_gap {e : ValidCtx} (ht : e.Told σ A op.key n) (h : From (e.pending n) x i) :
    From (afterValid σ' n e).gap x i := by
  cases e with
  | lost => exact ht.elim
  | linked path => exact h
  | _ => exact absurd h not_from_none

theorem gap_kept (hm : MemInv σ MAX_LEVEL L) (f : Fit σ L op pc)
    (hn : next σ op slot level pc = some (σ', pc')) (hc : ¬ pc.Swaps)
    (ht : Told σ A op pc) (hr : ∀ n, pc ≠ .removeFree n) (hi : i < (σ.node x).topLevel)
    (h : From pc.gap x i) : From pc'.gap x i := by
  cases pc with
  | findDown e j p path =>
    cases e with
    | inInsert n m => exact ht.elim
    | inRemove n =>
      simp only [next] at hn
      rw [if_neg (show ¬ ((σ.node p).next j).isMarked = true from ht)] at hn
      obtain ⟨s, _, he⟩ := Option.map_eq_some_iff.1 hn
      obtain ⟨rfl, rfl⟩ := Prod.mk.inj he
      exact h
  | findLoad e j p d s path =>
    simp only [next] at hn
    split at hn
    · obtain ⟨z, _, he⟩ := Option.map_eq_some_iff.1 hn
      obtain ⟨rfl, rfl⟩ := Prod.mk.inj he
      split
      · next h0 =>
        subst h0
        exact h
      · exact h
    · split at hn
      · obtain ⟨rfl, rfl⟩ := Prod.mk.inj (Option.some.inj hn)
        split
        · rw [findDone_gap]
          exact FindCtx.gap_mono h (Nat.le_succ j)
        · exact h
      · obtain ⟨z, _, he⟩ := Option.map_eq_some_iff.1 hn
        obtain ⟨rfl, rfl⟩ := Prod.mk.inj he
        exact h
  | deleteLoad e n =>
    cases e with
    | find c p d s path =>
      simp only [next] at hn
      split at hn <;> obtain ⟨rfl, rfl⟩ := Prod.mk.inj (Option.some.inj hn) <;> exact h
    | _ => exact absurd h not_from_none
  | deleteFlush e n =>
    obtain ⟨rfl, rfl⟩ := Prod.mk.inj (Option.some.inj hn)
    exact h
  | deleteStore e n =>
    obtain ⟨rfl, rfl⟩ := Prod.mk.inj (Option.some.inj hn)
    cases e with
    | find c p d s path => exact h
    | _ => exact absurd h not_from_none
  | validLoad e n =>
    simp only [next] at hn
    split at hn <;> obtain ⟨rfl, rfl⟩ := Prod.mk.inj (Option.some.inj hn)
    · exact afterValid_gap ht h
    · exact h
  | validStore e n old =>
    obtain ⟨rfl, rfl⟩ := Prod.mk.inj (Option.some.inj hn)
    exact afterValid_gap ht h
  | insertLoad e n =>
    simp only [next] at hn
    split at hn <;> obtain ⟨rfl, rfl⟩ := Prod.mk.inj (Option.some.inj hn)
    · exact afterInsert_gap h hi
    · exact h
  | insertFlush e n =>
    obtain ⟨rfl, rfl⟩ := Prod.mk.inj (Option.some.inj hn)
    exact h
  | insertStore e n =>
    obtain ⟨rfl, rfl⟩ := Prod.mk.inj (Option.some.inj hn)
    exact afterInsert_gap h hi
  | initValue path n l =>
    cases op with
    | insert k v =>
      obtain ⟨rfl, rfl⟩ := Prod.mk.inj (Option.some.inj hn)
      exact h
    | _ => cases hn
  | initNext path n j =>
    obtain ⟨e, _, he⟩ := Option.map_eq_some_iff.1 hn
    obtain ⟨rfl, rfl⟩ := Prod.mk.inj he
    split <;> exact h
  | upperLoad path n j =>
    have hnext := ht.next j le_rfl f.loc.lt
    have hlt : j < MAX_LEVEL :=
      f.loc.lt.trans_le (hm.level (f.refs (n, j - 1) (by simp [Pc.refs]))).2
    have hins : op.IsInsert := f.fits
    obtain ⟨e, he⟩ := path_get f.loc.levels hins hlt
    simp only [next, hnext e he, he] at hn
    obtain ⟨rfl, rfl⟩ := Prod.mk.inj (Option.some.inj hn)
    rw [if_pos rfl]
    exact h
  | lostStore n => exact ht.elim
  | lostFree n => exact ht.elim
  | removeFree n => exact absurd rfl (hr n)
  | findCas e j p d s path => exact absurd trivial hc
  | linkCas path n => exact absurd trivial hc
  | upperCas path n j q => exact absurd trivial hc
  | upperLink path n j => exact absurd trivial hc
  | _ =>
    first
    | exact absurd h not_from_none
    | obtain ⟨rfl, rfl⟩ := Prod.mk.inj (Option.some.inj hn)
      exact h

-- what is marked and what is linked, with the exceptions that the call makes
structure Levels (σ : Store V) (pc : Pc) : Prop where
  alive : ∀ {x i}, i < MAX_LEVEL → (σ.level i).Linked x → σ.dead i x → From pc.marking x i
  full : ∀ {x i}, (σ.level 0).Linked x → i < (σ.node x).topLevel →
    From pc.gap x i ∨ (σ.level i).Linked x

theorem Alone.levels (h : Alone A s t op pc) : Levels s.store pc := ⟨h.alive, h.full⟩

theorem Alone.mem (h : Alone A s t op pc) : MemInv s.store MAX_LEVEL s.live := h.inv.inv.mem

theorem Alone.fit (h : Alone A s t op pc) : Fit s.store s.live op pc := h.inv.inv.fit h.thread

theorem Levels.unmarked (h : Levels σ pc) (hp : pc.marking = none) (hi : i < MAX_LEVEL)
    (hx : (σ.level i).Linked x) : ¬ σ.dead i x := by
  intro hd
  have := h.alive hi hx hd
  rw [hp] at this
  exact not_from_none this

theorem Levels.markable (h : Levels σ (.markLoad n i)) (hm : MemInv σ MAX_LEVEL L)
    (f : Fit σ L op (.markLoad n i)) (hl : (σ.level 0).Linked n) :
    (σ.level i).Linked n ∧ ¬ σ.dead i n := by
  have ho : MarkOk σ op n i := f.loc
  have hnl := f.refs (n, 0) (by simp [Pc.refs])
  have hi : i < MAX_LEVEL := ho.lt.trans_le (hm.level hnl).2
  have hln := (h.full hl ho.lt).resolve_left not_from_none
  refine ⟨hln, fun hd => ?_⟩
  obtain ⟨l, hle, he⟩ := h.alive hi hln hd
  obtain ⟨_, rfl⟩ := Prod.mk.inj (Option.some.inj he)
  omega

theorem levels_quiet (h : Levels σ pc) (hm : MemInv σ MAX_LEVEL L) (f : Fit σ L op pc)
    (hn : next σ op slot level pc = some (σ', pc')) (hc : ¬ pc.Swaps) (ht : Told σ A op pc)
    (cl : pc.Clears σ op) (ktop : ∀ {x}, (x, 0) ∈ L → (σ'.node x).topLevel = (σ.node x).topLevel) :
    Levels σ' pc' := by
  have hkept : ∀ {x}, (x, 0) ∈ L → (σ'.node x).next = (σ.node x).next := fun hx =>
    next_kept f hn hc hx
  have hlink : ∀ {x i}, i < MAX_LEVEL → ((σ'.level i).Linked x ↔ (σ.level i).Linked x) :=
    fun hi => linked_congr hm hi fun y hy => by rw [hkept (hm.base hy)]
  have freed : ∀ n, pc = .removeFree n → ∀ i < MAX_LEVEL, ¬ (σ.level i).Linked n := by
    rintro n rfl
    exact cl
  refine ⟨fun {x i} hi hx hd => ?_, fun {x i} hx hi => ?_⟩
  · have hx := (hlink hi).1 hx
    have hd : ((σ'.node x).next i).marked = true := hd
    rw [hkept (hm.base (hm.live_of_linked_at hi hx))] at hd
    obtain ⟨l, hl, ha⟩ := h.alive hi hx hd
    refine ⟨l, hl, marking_kept hn hc ht ?_ ?_ ha⟩
    · rintro n j rfl
      exact (h.markable hm f ht).2
    · rintro n rfl
      obtain ⟨rfl, _⟩ := Prod.mk.inj (Option.some.inj ha)
      exact freed n rfl i hi hx
  · have hx := (hlink (by decide)).1 hx
    have hxl := hm.live_of_linked_at (by decide) hx
    rw [ktop hxl] at hi
    have hi' : i < MAX_LEVEL := hi.trans_le (hm.level hxl).2
    rw [hlink hi']
    refine (h.full hx hi).imp_left fun hg => gap_kept hm f hn hc ht ?_ hi hg
    rintro n rfl
    obtain ⟨l, _, he⟩ := hg
    obtain ⟨rfl, _⟩ := Prod.mk.inj (Option.some.inj he)
    exact freed n rfl 0 (by decide) hx

theorem levels_link (h : Levels σ pc) (hm : MemInv σ MAX_LEVEL L) (hi : i < MAX_LEVEL)
    (sp : Heap.Splice (σ.level i) ((σ.setNext p i (Ptr.addr n)).level i) (Tower.floor L i) p n c)
    (hnext : (σ.node p).next i = Ptr.addr c) (hg : pc.gap = some (n, i)) (hk : pc.marking = none)
    (hg' : ∀ j, i + 1 ≤ j → j < (σ.node n).topLevel → From pc'.gap n j) :
    Levels (σ.setNext p i (Ptr.addr n)) pc' := by
  have good := hm.sound.good hi
  have hdead : ∀ {j x}, (σ.setNext p i (Ptr.addr n)).dead j x ↔ σ.dead j x :=
    dead_setNext (dead_of_addr hnext) rfl
  have hlink : ∀ {x j}, j < MAX_LEVEL → (((σ.setNext p i (Ptr.addr n)).level j).Linked x ↔
      (σ.level j).Linked x ∨ (x = n ∧ j = i)) := by
    intro x j hj
    by_cases he : j = i
    · subst he
      rw [and_iff_left rfl]
      exact sp.linked good
    · rw [setNext_linked_other hm hj he]
      simp [he]
  refine ⟨fun {x j} hj hx hd => ?_, fun {x j} hx hj => ?_⟩
  · rcases (hlink hj).1 hx with hx | ⟨rfl, rfl⟩
    · exact absurd (hdead.1 hd) (h.unmarked hk hj hx)
    · exact absurd hd sp.new_alive'
  · rw [(setNext_fields σ p i _ x).2.1] at hj
    have old : ∀ {j}, (σ.level 0).Linked x → j < (σ.node x).topLevel →
        From pc.gap x j ∨ (σ.level j).Linked x := h.full
    have top : (σ.level 0).Linked x → j < MAX_LEVEL := fun hx =>
      hj.trans_le (hm.level (hm.live_of_linked_at (by decide) hx)).2
    have new : x = n → j = i → ((σ.setNext p i (Ptr.addr n)).level j).Linked x := by
      rintro rfl rfl
      exact (hlink hi).2 (Or.inr ⟨rfl, rfl⟩)
    have hx : (σ.level 0).Linked x ∨ (x = n ∧ i = 0) :=
      ((hlink (by decide)).1 hx).imp_right fun h => ⟨h.1, h.2.symm⟩
    rcases hx with hx | ⟨rfl, rfl⟩
    · rcases old hx hj with ⟨l, hl, he⟩ | hxj
      · rw [hg] at he
        obtain ⟨rfl, rfl⟩ := Prod.mk.inj (Option.some.inj he)
        rcases Nat.lt_or_eq_of_le hl with hl | rfl
        · exact Or.inl (hg' j hl hj)
        · exact Or.inr (new rfl rfl)
      · exact Or.inr ((hlink (top hx)).2 (Or.inl hxj))
    · cases j with
      | zero => exact Or.inr (new rfl rfl)
      | succ j => exact Or.inl (hg' (j + 1) (by omega) hj)

theorem levels_mark (h : Levels σ pc) (hm : MemInv σ MAX_LEVEL L)
    (hnext : (σ.node n).next i = q) (hk : pc.marking = some (n, i + 1)) (hg : pc.gap = none)
    (hk' : pc'.marking = some (n, i)) : Levels (σ.setNext n i q.mark) pc' := by
  have href : ∀ x j, (((σ.setNext n i q.mark).node x).next j).ref = ((σ.node x).next j).ref := by
    intro x j
    rw [next_setNext]
    split
    · next h =>
      obtain ⟨rfl, rfl⟩ := h
      rw [hnext]
      rfl
    · rfl
  have hlink : ∀ {x j}, j < MAX_LEVEL →
      (((σ.setNext n i q.mark).level j).Linked x ↔ (σ.level j).Linked x) :=
    fun hj => linked_congr hm hj fun y _ => href y _
  refine ⟨fun {x j} hj hx hd => ?_, fun {x j} hx hj => ?_⟩
  · have hx := (hlink hj).1 hx
    unfold Store.dead at hd
    rw [next_setNext] at hd
    rw [hk']
    split at hd
    · next he =>
      obtain ⟨rfl, rfl⟩ := he
      exact ⟨j, le_rfl, rfl⟩
    · have ha : From pc.marking x j := h.alive hj hx hd
      rw [hk] at ha
      exact ha.mono (Nat.le_succ i)
  · have hx := (hlink (by decide)).1 hx
    rw [(setNext_fields σ n i _ x).2.1] at hj
    have hj' := hj.trans_le (hm.level (hm.live_of_linked_at (by decide) hx)).2
    have hf := h.full hx hj
    rw [hg] at hf
    exact Or.inr ((hlink hj').2 (hf.resolve_left not_from_none))

theorem levels_cut (h : Levels σ pc) (hm : MemInv σ MAX_LEVEL L) (hi : i < MAX_LEVEL)
    (hp : (p, i) ∈ L) (hnext : (σ.node p).next i = Ptr.addr c) (path : DeadPath σ i c d)
    (hk : pc.marking = some (n, 0)) (hg : pc.gap = some (n, i + 1))
    (hk' : pc'.marking = some (n, 0)) (hg' : pc'.gap = some (n, i)) :
    Levels (σ.setNext p i (Ptr.addr d)) pc' := by
  have bp := (swing_bypass hm hp hnext path).level hm.sound.closed
  have hcl := hm.right hp (ref_of_addr hnext)
  have good := hm.sound.good hi
  refine ⟨fun {x j} hj hx hd => ?_, fun {x j} hx hj => ?_⟩
  · have hd := (dead_setNext (dead_of_addr hnext) rfl).1 hd
    have hx : (σ.level j).Linked x := by
      by_cases he : j = i
      · subst he
        exact ((bp.linked good).1 hx).1
      · exact (setNext_linked_other hm hj he).1 hx
    have ha := h.alive hj hx hd
    rw [hk] at ha
    rw [hk']
    exact ha
  · rw [(setNext_fields σ p i _ x).2.1] at hj
    have hx : (σ.level 0).Linked x := by
      by_cases he : 0 = i
      · subst he
        exact ((bp.linked good).1 hx).1
      · exact (setNext_linked_other hm (by decide) he).1 hx
    have hj' := hj.trans_le (hm.level (hm.live_of_linked_at (by decide) hx)).2
    rw [hg']
    rcases h.full hx hj with hf | hxj
    · rw [hg] at hf
      exact Or.inl (hf.mono (Nat.le_succ i))
    · by_cases he : j = i
      · subst he
        by_cases hb : (σ.level j).Between c d x
        · have hd := (path.between hm.sound hcl hb).1
          have ha := h.alive hj' hxj hd
          rw [hk] at ha
          obtain ⟨l, _, he⟩ := ha
          obtain ⟨rfl, _⟩ := Prod.mk.inj (Option.some.inj he)
          exact Or.inl ⟨j, le_rfl, rfl⟩
        · exact Or.inr ((bp.linked good).2 ⟨hxj, hb⟩)
      · exact Or.inr ((setNext_linked_other hm hj' he).2 hxj)

section Neighbours

variable {k : ℤ} (hm : MemInv s.store MAX_LEVEL s.live)
  (alive : ∀ {x i}, i < MAX_LEVEL → (s.store.level i).Linked x → ¬ s.store.dead i x)

include hm alive

theorem mem_abs_of_linked (hi : i < MAX_LEVEL) (hx : (s.store.level i).Linked x)
    (hh : x ≠ head) (hk : (s.store.node x).key = k) (hlt : k < INT_MAX) : k ∈ s.abs := by
  obtain ⟨hl, hd⟩ := linked_below hm hi (hm.live_of_linked_at hi hx) (alive hi hx) (Nat.zero_le i)
  refine ⟨x, hh, ?_, hl, hd, hk⟩
  rintro rfl
  rw [hm.tail_key] at hk
  exact absurd hk (ne_of_gt hlt)

theorem mem_abs_iff (hp : (p, 0) ∈ s.live) (hc : (s.store.node p).next 0 = Ptr.addr c)
    (hlt : k < INT_MAX) (lt : rank s.store p < (k : WithBot ℤ))
    (le : (k : WithBot ℤ) ≤ rank s.store c) : k ∈ s.abs ↔ (s.store.node c).key = k := by
  have h0 : 0 < MAX_LEVEL := by decide
  obtain ⟨hpl, hcl⟩ := linked_next h0 hm hp hc
  constructor
  · rintro ⟨x, hh, _, hx, _, rfl⟩
    have hr : rank s.store x = ((s.store.node x).key : ℤ) := rank_of_ne _ hh
    by_contra hne
    refine (hm.sorted h0).gap hpl (ref_of_addr hc) lt ?_ x hx hr
    exact lt_of_le_of_ne le fun he => hne (key_of_rank he.symm)
  · exact fun hk => mem_abs_of_linked hm alive h0 hcl (ne_head_of_le le) hk hlt

end Neighbours

theorem adjacent_of_kept (hm : MemInv σ MAX_LEVEL L)
    (hk : ∀ {x}, (x, 0) ∈ L → (σ'.node x).next = (σ.node x).next)
    (hr : ∀ r ∈ Path.refs i path, r ∈ L) (h : Adjacent σ i path) : Adjacent σ' i path := by
  intro j e he
  rw [hk (hm.base (hr _ (Path.get_refs he).1))]
  exact h j e he

theorem linking_of_kept (hm : MemInv σ MAX_LEVEL L)
    (hk : ∀ {x}, (x, 0) ∈ L → (σ'.node x).next = (σ.node x).next)
    (ktop : ∀ {x}, (x, 0) ∈ L → (σ'.node x).topLevel = (σ.node x).topLevel)
    (hr : ∀ r ∈ Path.refs 0 path, r ∈ L) (hn : (n, 0) ∈ L) (h : Linking σ path n l) :
    Linking σ' path n l := by
  refine ⟨fun j hj e he => ?_, fun j hj hlt e he => ?_⟩
  · rw [hk (hm.base (hr _ (Path.get_refs he).1))]
    exact h.reaches j hj e he
  · rw [hk hn]
    exact h.next j hj (ktop hn ▸ hlt) e he

theorem adjacent_keepPath (ho : PathOk σ op (i + 1) path)
    (hc : (σ.node p).next i = Ptr.addr c) (ha : Adjacent σ (i + 1) path) :
    Adjacent σ i (keepPath op p c path) := by
  cases op with
  | insert k v => exact adjacent_cons hc ha
  | remove k =>
    obtain rfl := ho.none id
    exact fun j e he => nomatch he
  | contains k =>
    obtain rfl := ho.none id
    exact fun j e he => nomatch he

theorem afterValid_told {e : ValidCtx} (τ : Store V) (h : e.Told σ A op.key n) :
    Told σ A op (afterValid τ n e) := by
  cases e with
  | lost => exact h.elim
  | _ => exact h

theorem ret_told_true (hf : ¬ op.IsContains) : Told σ A op (.ret true) :=
  fun h => h.elim (fun h => absurd h hf) nofun

theorem upper_told (τ : Store V) (hf : op.IsInsert) (h : Linking σ path n l) :
    Told σ A op (upper τ path n l) := by
  unfold upper
  split
  · exact h
  · exact ret_told_true (not_contains_of_insert hf)

theorem afterInsert_told {e : InsertCtx} (τ : Store V) (hf : e.Fits op)
    (h : e.Told σ A op.key n) : Told σ A op (afterInsert τ n e) := by
  cases e with
  | found =>
    cases op with
    | insert k v => exact fun _ => ⟨nofun, fun hn => absurd h hn⟩
    | _ => exact hf.elim
  | linked path => exact upper_told τ hf h
  | contains =>
    cases op with
    | contains k => exact fun _ => ⟨fun _ => h, fun _ => rfl⟩
    | _ => exact hf.elim

theorem afterDelete_told {e : DeleteCtx} (hm : MemInv σ MAX_LEVEL L) (h : e.Told σ n) :
    Told σ A op (afterDelete n e) := by
  cases e with
  | find c p d z path =>
    cases c with
    | inInsert m l => exact h.elim
    | inRemove m => exact ⟨h.1, Or.inr h.2.1⟩
  | remove r =>
    obtain rfl : r = true := h
    exact hm.head_alive _
  | contains => exact h.elim

theorem delete_kept {e : DeleteCtx} (hr : ∀ r ∈ e.refs n, r ∈ L)
    (hk : ∀ {x}, (x, 0) ∈ L → (σ'.node x).next = (σ.node x).next) (h : e.Told σ n) :
    e.Told σ' n := by
  cases e with
  | find c p d z path =>
    cases c with
    | inInsert m l => exact h.elim
    | inRemove m =>
      refine ⟨?_, h.2⟩
      rw [hk (hr (p, 0) (by simp [DeleteCtx.refs]))]
      exact h.1
  | remove r => exact h
  | contains => exact h

theorem findDone_told {m : Loc} (hb : ∀ j ≤ i, ¬ σ.dead j p) :
    Told σ A op (findDone (.inRemove m) p c path i) := by
  cases i with
  | zero => trivial
  | succ i => exact hb i (Nat.le_succ i)

theorem Alone.not_dead (h : Alone A s t op pc) (hp : pc.marking = none) :
    ∀ {x i}, i < MAX_LEVEL → (s.store.level i).Linked x → ¬ s.store.dead i x :=
  fun hi hx => h.levels.unmarked hp hi hx

theorem Alone.abs_eq (h : Alone A s t op pc) (hp : ¬ pc.took op) : s.abs = A :=
  (h.effect.resolve_left fun h => hp h.1).2

theorem search_told {pred succ : Loc} (h : Alone A s t op (.searchTest i pred succ path))
    (hk : op.key ≤ (s.store.node succ).key) :
    Told s.store A op (searchDone s.store op pred succ path i) := by
  have f := h.fit
  have hm := h.mem
  obtain ⟨hi, hlt, ho, hsh⟩ := f.loc
  obtain ⟨hnext, hadj⟩ := h.told
  have hp := f.refs (pred, i) (by simp [Pc.refs])
  have hadj' := adjacent_keepPath ho hnext hadj
  cases i with
  | succ i => exact ⟨hm.alive_below hp (Nat.le_succ i) (dead_of_addr hnext), hadj'⟩
  | zero =>
    have hA := h.abs_eq id
    have hmem := mem_abs_iff hm (h.not_dead rfl) hp hnext f.key hlt (le_rank_of_key hk hsh)
    rw [hA] at hmem
    simp only [searchDone, afterSearch]
    cases op with
    | insert k v =>
      simp only
      split
      · next he => exact hmem.2 he
      · exact hadj'
    | remove k =>
      simp only
      split
      · exact (linked_next hi hm hp hnext).2
      · next he => exact fun _ => ⟨(by rintro ⟨⟩), fun hk => absurd (hmem.1 hk) he⟩
    | contains k => exact absurd trivial f.fits

theorem contains_told {pred curr : Loc} (h : Alone A s t op (.containsTest i pred curr))
    (hn : next s.store op slot level (.containsTest i pred curr) = some (σ, pc')) :
    Told s.store A op pc' := by
  have f := h.fit
  have hm := h.mem
  obtain ⟨hi, hlt, hch⟩ := f.loc
  have hnext : (s.store.node pred).next i = Ptr.addr curr := h.told
  have hp := f.refs (pred, i) (by simp [Pc.refs])
  have hcon : op.IsContains := f.fits
  have hcl := (linked_next hi hm hp hnext).2
  have hcd := h.not_dead rfl hi hcl
  have hA := h.abs_eq id
  simp only [next] at hn
  split at hn
  · obtain ⟨_, rfl⟩ := Prod.mk.inj (Option.some.inj hn)
    exact hcd
  · next hor =>
    have hge : op.key ≤ (s.store.node curr).key := not_lt.1 fun h => hor (Or.inl h)
    split at hn
    · next he =>
      obtain ⟨_, rfl⟩ := Prod.mk.inj (Option.some.inj hn)
      exact hA ▸ mem_abs_of_linked hm (h.not_dead rfl) hi hcl hch he f.key
    · next hne =>
      cases i with
      | zero =>
        obtain ⟨_, rfl⟩ := Prod.mk.inj (Option.some.inj hn)
        have hmem := mem_abs_iff hm (h.not_dead rfl) hp hnext f.key hlt (le_rank_of_key hge hch)
        rw [hA] at hmem
        cases op with
        | contains k => exact fun _ => ⟨(by rintro ⟨⟩), fun hk => absurd (hmem.1 hk) hne⟩
        | _ => exact hcon.elim
      | succ i =>
        obtain ⟨_, rfl⟩ := Prod.mk.inj (Option.some.inj hn)
        exact hm.alive_below hp (Nat.le_succ i) (dead_of_addr hnext)

theorem findLoad_told {m pred predNext succ : Loc}
    (h : Alone A s t op (.findLoad (.inRemove m) i pred predNext succ path))
    (hn : next s.store op slot level (.findLoad (.inRemove m) i pred predNext succ path) =
      some (σ, pc')) : Told s.store A op pc' := by
  have f := h.fit
  have hm := h.mem
  obtain ⟨hi, _, _, _, _, hdp⟩ := f.loc
  obtain ⟨hnext, hor⟩ := h.told
  have hp := f.refs (pred, i) (by simp [Pc.refs])
  have hdl := (linked_next hi hm hp hnext).2
  simp only [next] at hn
  split at hn
  · next hmk =>
    obtain ⟨z, hz, he⟩ := Option.map_eq_some_iff.1 hn
    obtain ⟨_, rfl⟩ := Prod.mk.inj he
    have hsl : (s.store.level i).Linked succ := Heap.Reach.trans hdl hdp.reach
    obtain ⟨l, _, he⟩ := h.alive hi hsl hmk
    obtain ⟨rfl, _⟩ := Prod.mk.inj (Option.some.inj he)
    have hd : predNext = m := hor.elim Eq.symm id
    split
    · next h0 =>
      subst h0
      exact ⟨hnext, hd, rfl⟩
    · exact ⟨hnext, Or.inr hd⟩
  · next hmk =>
    split at hn
    · obtain ⟨_, rfl⟩ := Prod.mk.inj (Option.some.inj hn)
      split
      · exact findDone_told fun j hj => hm.alive_below hp hj (dead_of_addr hnext)
      · next hne => exact ⟨hnext, hor.resolve_left fun h => hne h.symm⟩
    · obtain ⟨z, hz, he⟩ := Option.map_eq_some_iff.1 hn
      obtain ⟨_, rfl⟩ := Prod.mk.inj he
      exact ⟨addr_of_alive hmk hz, Or.inl rfl⟩

theorem told_quiet (h : Alone A s t op pc) (hn : next s.store op slot level pc = some (σ, pc'))
    (hc : ¬ pc.Swaps)
    (ktop : ∀ {x}, (x, 0) ∈ s.live → (σ.node x).topLevel = (s.store.node x).topLevel) :
    Told σ A op pc' := by
  have f := h.fit
  have hm := h.mem
  have hT := h.told
  have kept : ∀ {x}, (x, 0) ∈ s.live → (σ.node x).next = (s.store.node x).next := fun hx =>
    next_kept f hn hc hx
  have alive : ∀ {x y i}, ¬ s.store.dead i x → ((s.store.node x).next i).ref = some y →
      (s.store.node x).next i = Ptr.addr y := addr_of_alive
  have adj : ∀ {path}, (∀ r ∈ Path.refs 0 path, r ∈ s.live) → Adjacent s.store 0 path →
      Adjacent σ 0 path := fun hr ha => adjacent_of_kept hm kept hr ha
  cases pc with
  | searchDown i p path =>
    obtain ⟨z, hz, he⟩ := Option.map_eq_some_iff.1 hn
    obtain ⟨rfl, rfl⟩ := Prod.mk.inj he
    exact ⟨alive hT.1 hz, hT.2⟩
  | searchTest i p c path =>
    have hcl := (linked_next f.loc.1 hm (f.refs (p, i) (by simp [Pc.refs])) hT.1).2
    have hcd := h.not_dead rfl f.loc.1 hcl
    simp only [next] at hn
    rw [if_neg (show ¬ ((s.store.node c).next i).isMarked = true from hcd)] at hn
    split at hn <;> obtain ⟨rfl, rfl⟩ := Prod.mk.inj (Option.some.inj hn)
    · next hk => exact search_told h hk
    · exact ⟨rfl, hcd, hT.2⟩
  | searchNext i p c path =>
    obtain ⟨rfl, hd, ha⟩ := hT
    obtain ⟨z, hz, he⟩ := Option.map_eq_some_iff.1 hn
    obtain ⟨rfl, rfl⟩ := Prod.mk.inj he
    exact ⟨alive hd hz, ha⟩
  | findDown e i p path =>
    cases e with
    | inInsert m l => exact hT.elim
    | inRemove m =>
      simp only [next] at hn
      rw [if_neg (show ¬ ((s.store.node p).next i).isMarked = true from hT)] at hn
      obtain ⟨z, hz, he⟩ := Option.map_eq_some_iff.1 hn
      obtain ⟨rfl, rfl⟩ := Prod.mk.inj he
      exact ⟨alive hT hz, Or.inl rfl⟩
  | findLoad e i p d z path =>
    cases e with
    | inInsert m l => exact hT.elim
    | inRemove m =>
      have := findLoad_told h hn
      simp only [next] at hn
      split at hn
      · obtain ⟨y, _, he⟩ := Option.map_eq_some_iff.1 hn
        obtain ⟨rfl, rfl⟩ := Prod.mk.inj he
        exact this
      · split at hn
        · obtain ⟨rfl, rfl⟩ := Prod.mk.inj (Option.some.inj hn)
          exact this
        · obtain ⟨y, _, he⟩ := Option.map_eq_some_iff.1 hn
          obtain ⟨rfl, rfl⟩ := Prod.mk.inj he
          exact this
  | deleteLoad e n =>
    simp only [next] at hn
    split at hn <;> obtain ⟨rfl, rfl⟩ := Prod.mk.inj (Option.some.inj hn)
    · exact afterDelete_told hm hT
    · exact hT
  | deleteFlush e n =>
    have : e.Told σ n := delete_kept f.refs kept hT
    obtain ⟨_, rfl⟩ := Prod.mk.inj (Option.some.inj hn)
    exact this
  | deleteStore e n =>
    have : e.Told σ n := delete_kept f.refs kept hT
    have hh : ¬ σ.dead (MAX_LEVEL - 1) head := by
      unfold Store.dead
      rw [kept (head_mem_live s (by decide))]
      exact hm.head_alive _
    obtain ⟨_, rfl⟩ := Prod.mk.inj (Option.some.inj hn)
    cases e with
    | find c p d z path =>
      cases c with
      | inInsert m l => exact hT.elim
      | inRemove m => exact ⟨this.1, Or.inr this.2.1⟩
    | remove r =>
      obtain rfl : r = true := hT
      exact hh
    | contains => exact hT.elim
  | validLoad e n =>
    simp only [next] at hn
    split at hn <;> obtain ⟨rfl, rfl⟩ := Prod.mk.inj (Option.some.inj hn)
    · exact afterValid_told _ hT
    · exact hT
  | validStore e n old =>
    have hk : e.Told σ A op.key n := by
      cases e with
      | linked path =>
        exact linking_of_kept hm kept ktop
          (fun r h => f.refs r (by simp [Pc.refs, ValidCtx.refs, h]))
          (f.refs (n, 0) (by simp [Pc.refs, ValidCtx.refs])) hT
      | removing =>
        refine (linked_congr hm (by decide) fun y hy => ?_).2 hT
        rw [kept hy]
      | lost => exact hT.elim
      | _ => exact hT
    obtain ⟨_, rfl⟩ := Prod.mk.inj (Option.some.inj hn)
    exact afterValid_told _ hk
  | insertLoad e n =>
    simp only [next] at hn
    split at hn <;> obtain ⟨rfl, rfl⟩ := Prod.mk.inj (Option.some.inj hn)
    · exact afterInsert_told _ f.fits hT
    · exact hT
  | insertFlush e n =>
    have hk : e.Told σ A op.key n := by
      cases e with
      | linked path =>
        exact linking_of_kept hm kept ktop
          (fun r h => f.refs r (by simp [Pc.refs, InsertCtx.refs, h]))
          (f.refs (n, 0) (by simp [Pc.refs, InsertCtx.refs])) hT
      | _ => exact hT
    obtain ⟨_, rfl⟩ := Prod.mk.inj (Option.some.inj hn)
    exact hk
  | insertStore e n =>
    have hk : e.Told σ A op.key n := by
      cases e with
      | linked path =>
        exact linking_of_kept hm kept ktop
          (fun r h => f.refs r (by simp [Pc.refs, InsertCtx.refs, h]))
          (f.refs (n, 0) (by simp [Pc.refs, InsertCtx.refs])) hT
      | _ => exact hT
    obtain ⟨_, rfl⟩ := Prod.mk.inj (Option.some.inj hn)
    exact afterInsert_told _ f.fits hk
  | initValue path n l =>
    cases op with
    | insert k v =>
      have := adj f.refs hT
      obtain ⟨_, rfl⟩ := Prod.mk.inj (Option.some.inj hn)
      exact this
    | _ => cases hn
  | initNext path n i =>
    have := adj f.refs hT
    obtain ⟨e, _, he⟩ := Option.map_eq_some_iff.1 hn
    obtain ⟨_, rfl⟩ := Prod.mk.inj he
    split <;> exact this
  | upperLoad path n i =>
    have hlt : i < MAX_LEVEL :=
      f.loc.lt.trans_le (hm.level (f.refs (n, i - 1) (by simp [Pc.refs]))).2
    obtain ⟨e, he⟩ := path_get f.loc.levels f.fits hlt
    simp only [next, hT.next i le_rfl f.loc.lt e he, he] at hn
    obtain ⟨rfl, rfl⟩ := Prod.mk.inj (Option.some.inj hn)
    rw [if_pos rfl]
    exact hT
  | markLoad n i =>
    have hu := (h.levels.markable hm f hT).2
    simp only [next] at hn
    rw [if_neg (show ¬ ((s.store.node n).next i).isMarked = true from hu)] at hn
    obtain ⟨rfl, rfl⟩ := Prod.mk.inj (Option.some.inj hn)
    exact ⟨hT, rfl⟩
  | removeFree n =>
    obtain ⟨_, rfl⟩ := Prod.mk.inj (Option.some.inj hn)
    exact ret_told_true (not_contains_of_remove f.fits)
  | containsDown i p =>
    obtain ⟨z, hz, he⟩ := Option.map_eq_some_iff.1 hn
    obtain ⟨rfl, rfl⟩ := Prod.mk.inj he
    exact alive hT hz
  | containsTest i p c =>
    have := contains_told h hn
    simp only [next] at hn
    split at hn
    · obtain ⟨rfl, rfl⟩ := Prod.mk.inj (Option.some.inj hn)
      exact this
    · split at hn
      · obtain ⟨rfl, rfl⟩ := Prod.mk.inj (Option.some.inj hn)
        exact this
      · cases i <;> obtain ⟨rfl, rfl⟩ := Prod.mk.inj (Option.some.inj hn) <;> exact this
  | containsPass i p c =>
    simp only [next] at hn
    rw [if_neg (show ¬ ((s.store.node c).next i).isMarked = true from hT)] at hn
    obtain ⟨rfl, rfl⟩ := Prod.mk.inj (Option.some.inj hn)
    exact ⟨rfl, hT⟩
  | containsNext i p c =>
    obtain ⟨rfl, hd⟩ := hT
    obtain ⟨z, hz, he⟩ := Option.map_eq_some_iff.1 hn
    obtain ⟨rfl, rfl⟩ := Prod.mk.inj he
    exact alive hd hz
  | lostStore n => exact hT.elim
  | lostFree n => exact hT.elim
  | ret r => cases hn
  | findCas e i p d z path => exact absurd trivial hc
  | linkCas path n => exact absurd trivial hc
  | upperCas path n i q => exact absurd trivial hc
  | upperLink path n i => exact absurd trivial hc
  | markCas n i q => exact absurd trivial hc
  | _ =>
    have := adj f.refs hT
    obtain ⟨_, rfl⟩ := Prod.mk.inj (Option.some.inj hn)
    exact this

theorem Alone.tidy (h : Alone A s t op pc) : pc.Tidy MAX_LEVEL s.store := by
  cases pc with
  | upperLink path n i =>
    intro hi e he hnext
    have f := h.fit
    have hm := h.mem
    have ho : UpperOk s.store op path n i := f.loc.1
    have hn0 := hm.base (f.refs (n, i - 1) (by simp [Pc.refs]))
    have hnd : ¬ s.store.dead i n := dead_of_addr (h.told.next i le_rfl ho.lt e he)
    have hel : (e.1, i) ∈ s.live := by
      have := (Path.get_refs (i := 0) he).1
      rw [Nat.zero_add] at this
      exact f.refs _ (by simp [Pc.refs, this])
    have hcl := (linked_next hi hm hel hnext).2
    refine ⟨hnd, lt_of_le_of_ne ?_ fun heq => ?_⟩
    · rw [ho.rank]
      exact ho.levels.above e (List.mem_of_getElem? he)
    · have hc0 := (linked_below hm hi (hm.live_of_linked_at hi hcl) (h.not_dead rfl hi hcl)
        (Nat.zero_le i)).1
      have hnl : (s.store.level 0).Linked n := hm.linked_of_alive hn0 (by decide) fun hd =>
        hnd (hm.topDown hn0 (Nat.zero_le i) ho.lt hd)
      obtain rfl := (hm.sorted (by decide)).eq_of_rank hnl hc0 heq
      exact f.fresh _ rfl (hm.right hel (ref_of_addr hnext))
  | _ => trivial

theorem step_linkCas (h : Alone A s t op (.linkCas path n))
    (hn : next s.store op slot level (.linkCas path n) = some (σ, pc')) :
    Levels σ pc' ∧ Told σ A op pc' := by
  have f := h.fit
  have hm := h.mem
  have hadj : Adjacent s.store 0 path := h.told
  have ho : NextOk s.store op path n (s.store.node n).topLevel := f.loc
  simp only [next] at hn
  obtain ⟨e, he, hn⟩ := Option.map_eq_some_iff.1 hn
  have hnext : (s.store.node e.1).next 0 = Ptr.addr e.2 := hadj 0 e he
  rw [if_pos hnext] at hn
  obtain ⟨rfl, rfl⟩ := Prod.mk.inj hn
  refine ⟨levels_link h.levels hm (by decide) (link_splice hm f he hnext).1 hnext rfl rfl ?_, ?_, ?_⟩
  · exact fun j hj _ => ⟨1, hj, rfl⟩
  · intro j hj a ha
    have := hadj j a ha
    rw [Nat.zero_add] at this
    rw [next_setNext_other _ _ fun h => by omega]
    exact this
  · intro j hj hlt a ha
    rw [(setNext_fields _ _ _ _ n).2.1] at hlt
    obtain ⟨b, hb, hnj⟩ := ho.filled j hlt
    obtain rfl := Option.some.inj (ha.symm.trans hb)
    rw [next_setNext_other _ _ fun h => by omega]
    exact hnj

theorem step_upperLink (h : Alone A s t op (.upperLink path n i))
    (hn : next s.store op slot level (.upperLink path n i) = some (σ, pc')) :
    Levels σ pc' ∧ Told σ A op pc' := by
  have f := h.fit
  have hm := h.mem
  have hT : Linking s.store path n i := h.told
  obtain ⟨ho, href⟩ := f.loc
  have hnl := f.refs (n, i - 1) (by simp [Pc.refs])
  have hi : i < MAX_LEVEL := ho.lt.trans_le (hm.level hnl).2
  simp only [next] at hn
  obtain ⟨e, he, hn⟩ := Option.map_eq_some_iff.1 hn
  have hnext := hT.reaches i le_rfl e he
  rw [if_pos hnext] at hn
  obtain ⟨rfl, rfl⟩ := Prod.mk.inj hn
  have hel : (e.1, i) ∈ s.live := by
    have := (Path.get_refs (i := 0) he).1
    rw [Nat.zero_add] at this
    exact f.refs _ (by simp [Pc.refs, this])
  have sp := join_splice (G := MAX_LEVEL) hel hnext (f.fresh _ rfl)
    (fun j hj => by
      subst hj
      exact hnl) (href e he) fun hi => by
    obtain ⟨h1, h2⟩ := h.tidy hi e he hnext
    refine ⟨h1, ?_, h2⟩
    rw [ho.rank]
    exact ho.levels.below e (List.mem_of_getElem? he)
  refine ⟨levels_link h.levels hm hi (sp.level hm.sound.closed hi) hnext rfl rfl ?_,
    upper_told _ f.fits ⟨fun j hj a ha => ?_, fun j hj hlt a ha => ?_⟩⟩
  · exact fun j hj hlt => upper_gap ⟨i + 1, hj, rfl⟩ hlt
  · rw [next_setNext_other _ _ fun h => by omega]
    exact hT.reaches j (by omega) a ha
  · rw [(setNext_fields _ _ _ _ n).2.1] at hlt
    rw [next_setNext_other _ _ fun h => by omega]
    exact hT.next j (by omega) hlt a ha

theorem step_markCas (h : Alone A s t op (.markCas n i q))
    (hn : next s.store op slot level (.markCas n i q) = some (σ, pc')) :
    Levels σ pc' ∧ Told σ A op pc' := by
  have hm := h.mem
  obtain ⟨hl, hnext⟩ := h.told
  simp only [next, if_pos hnext] at hn
  obtain ⟨rfl, rfl⟩ := Prod.mk.inj (Option.some.inj hn)
  refine ⟨levels_mark h.levels hm hnext rfl rfl (marked_marking n true i), ?_⟩
  cases i with
  | zero => exact rfl
  | succ i => exact (setNext_linked_other hm (by decide) (by omega)).2 hl

theorem step_findCas {e : FindCtx} {pred predNext succ : Loc}
    (h : Alone A s t op (.findCas e i pred predNext succ path))
    (hn : next s.store op slot level (.findCas e i pred predNext succ path) = some (σ, pc')) :
    Levels σ pc' ∧ Told σ A op pc' := by
  have hm := h.mem
  have f := h.fit
  cases e with
  | inInsert m l => exact absurd h.told id
  | inRemove m =>
    obtain ⟨hi, _, _, _, _, hdp⟩ := f.loc
    obtain ⟨hnext, _⟩ := h.told
    have hp := f.refs (pred, i) (by simp [Pc.refs])
    simp only [next, if_pos hnext] at hn
    obtain ⟨rfl, rfl⟩ := Prod.mk.inj (Option.some.inj hn)
    refine ⟨levels_cut h.levels hm hi hp hnext hdp rfl rfl (findDone_marking _ _ _ _ _)
      (findDone_gap _ _ _ _ _), findDone_told fun j hj hd => ?_⟩
    exact hm.alive_below hp hj (dead_of_addr hnext) ((dead_setNext (dead_of_addr hnext) rfl).1 hd)

theorem levels_step (h : Alone A s t op pc) (hn : next s.store op slot level pc = some (σ, pc'))
    (ktop : ∀ {x}, (x, 0) ∈ s.live → (σ.node x).topLevel = (s.store.node x).topLevel) :
    Levels σ pc' ∧ Told σ A op pc' := by
  by_cases hc : pc.Swaps
  · cases pc with
    | linkCas path n => exact step_linkCas h hn
    | upperLink path n i => exact step_upperLink h hn
    | markCas n i q => exact step_markCas h hn
    | findCas e i p d z path => exact step_findCas h hn
    | upperCas path n i q => exact absurd h.told id
    | _ => exact hc.elim
  · exact ⟨levels_quiet h.levels h.mem h.fit hn hc h.told (h.inv.clears h.thread) ktop,
      told_quiet h hn hc ktop⟩

theorem Path.exists_of_refs {r : Cursor} (hr : r ∈ Path.refs i path) :
    ∃ j e, path[j]? = some e ∧ (r = (e.1, i + j) ∨ r = (e.2, i + j)) := by
  induction path generalizing i with
  | nil => cases hr
  | cons a path ih =>
    simp only [Path.refs, List.mem_cons] at hr
    rcases hr with rfl | rfl | hr
    · exact ⟨0, a, rfl, Or.inl rfl⟩
    · exact ⟨0, a, rfl, Or.inr rfl⟩
    · obtain ⟨j, e, he, h⟩ := ih hr
      refine ⟨j + 1, e, he, ?_⟩
      rwa [show i + (j + 1) = i + 1 + j by omega]

theorem Alone.clean (h : Alone A s t op pc) (hs : Step s (.tau t) s') : s.Clean s' := by
  cases hs with
  | tau _ op1 pc1 pc' slot level σ ht hn ha =>
    obtain ⟨rfl, rfl⟩ := Prod.mk.inj (Option.some.inj (h.thread.symm.trans ht))
    intro x h0 h1 hx
    obtain ⟨rfl, path, rfl⟩ := next_take hn h0 h1
    have hm := h.mem
    have hadj : Adjacent s.store 0 path := h.told
    refine h.inv.unlinked h0 (by decide) (linked_of_live hm (h.not_dead rfl) ?_ hx)
    rintro r (⟨hr, _⟩ | ⟨u, op2, pc2, hu, hr⟩)
    · rw [hr]
      exact Heap.Reach.refl _
    · have hut : u = t := by
        by_contra hne
        exact nomatch (h.only u hne).symm.trans hu
      subst hut
      obtain ⟨rfl, rfl⟩ := Prod.mk.inj (Option.some.inj (h.thread.symm.trans hu))
      obtain ⟨j, e, he, hre⟩ := Path.exists_of_refs hr
      have hel := h.fit.refs _ (Path.get_refs he).1
      have hj : 0 + j < MAX_LEVEL := (hm.level hel).1.trans_le (hm.level hel).2
      obtain ⟨h1, h2⟩ := linked_next hj hm hel (hadj j e he)
      rcases hre with rfl | rfl
      · exact h1
      · exact h2

theorem effect_step (h : Alone A s t op pc) (hs : Step s (.tau t) s')
    (ht' : s'.thread t = some (op, pc')) :
    (pc'.took op ∧ op.Effect A s'.abs) ∨ (¬ pc'.took op ∧ s'.abs = A) := by
  have hd := done_iff h.thread
  have hd' := done_iff ht'
  rcases oneEffect_step h.inv.inv.one (h.clean hs) hs with
    ⟨ha, hk⟩ | ⟨u, op1, pc1, pc2, hu, hu', hnd, hdn, he, _⟩
  · have hk := hk t op pc pc' h.thread ht'
    rw [hd, hd'] at hk
    rw [hk, ha]
    exact h.effect
  · obtain rfl : u = t := by
      by_contra hne
      exact nomatch (h.only u hne).symm.trans hu
    obtain ⟨rfl, rfl⟩ := Prod.mk.inj (Option.some.inj (h.thread.symm.trans hu))
    rw [hd] at hnd
    rw [hd'] at hdn
    have hA := h.abs_eq hnd
    exact Or.inl ⟨hdn, hA ▸ he⟩

theorem Alone.step (h : Alone A s t op pc) (hs : (machine V).Tau t s s') :
    ∃ pc', Alone A s' t op pc' := by
  have hs : Step s (.tau t) s' := hs
  have clean := h.clean hs
  have tidy : s.Tidy MAX_LEVEL (.tau t) := by
    intro u op1 pc1 he ht
    cases he
    obtain ⟨rfl, rfl⟩ := Prod.mk.inj (Option.some.inj (h.thread.symm.trans ht))
    exact h.tidy
  have inv := h.inv.step tidy clean hs
  have bounded := h.bounded.step h.inv.inv.one hs clean
  cases id hs with
  | tau _ op1 pc1 pc' slot level σ ht hn ha =>
    obtain ⟨rfl, rfl⟩ := Prod.mk.inj (Option.some.inj (h.thread.symm.trans ht))
    have ht' := goto_thread_self s σ t (some (op, pc'))
    obtain ⟨L', e, _⟩ := tau_ok h.inv.inv ht h.tidy hn ha clean
    obtain ⟨levels, told⟩ := levels_step h hn fun hx => (e.kept h.mem).topLevel hx
    exact ⟨pc', inv, bounded, fun u hu => (goto_thread_other _ _ _ hu).trans (h.only u hu), ht',
      levels.alive, levels.full, effect_step h hs ht', told⟩

def enter (t : Tid) (s : State V) (op : SetOp V) : State V :=
  s.goto s.store t (some (op, start op))

theorem clean_of_store (h : s'.store = s.store) : s.Clean s' := by
  intro x h0 h1
  rw [h, h0] at h1
  cases h1

theorem tidy_of_ne_tau {e : Event (SetOp V)} (he : ∀ t, e ≠ .tau t) (G : ℕ) : s.Tidy G e :=
  fun t _ _ h _ => absurd h (he t)

theorem Whole.alone (h : Whole A s) (t : Tid) (hk : op.key < INT_MAX) :
    Alone A (enter t s op) t op (start op) := by
  have hs : Step s (.call t op) (enter t s op) := Step.call t op (h.idle t) hk
  have clean : s.Clean (enter t s op) := clean_of_store rfl
  refine ⟨h.inv.step (tidy_of_ne_tau (e := .call t op) (fun _ h => nomatch h) _) clean hs,
    h.bounded.step h.inv.inv.one hs clean, fun u hu => (goto_thread_other _ _ _ hu).trans (h.idle u),
    goto_thread_self _ _ _ _, fun hi hx hd => absurd hd (h.alive hi hx),
    fun hx hi => Or.inr (h.full hx hi), Or.inr ⟨start_took, h.abs⟩, ?_⟩
  cases op with
  | contains k => exact h.inv.inv.mem.head_alive _
  | _ => exact ⟨h.inv.inv.mem.head_alive _, fun j e he => nomatch he⟩

theorem Alone.ret {r : Bool} (h : Alone A s t op pc) (hs : Step s (.ret t r) s') :
    (r = true ↔ op.Accepts A) ∧ Whole (op.apply A) s' := by
  cases id hs with
  | ret _ op1 _ ht =>
    obtain ⟨rfl, rfl⟩ := Prod.mk.inj (Option.some.inj (h.thread.symm.trans ht))
    have clean : s.Clean (s.goto s.store t none) := clean_of_store rfl
    have whole : ∀ {B}, s.abs = B → Whole B (s.goto s.store t none) := by
      intro B hB
      refine ⟨h.inv.step (tidy_of_ne_tau (e := .ret t r) (fun _ h => nomatch h) _) clean hs,
        h.bounded.step h.inv.inv.one hs clean, fun u => ?_, h.not_dead rfl,
        fun hx hi => (h.full hx hi).resolve_left not_from_none, hB⟩
      by_cases hu : u = t
      · rw [hu]
        exact goto_thread_self _ _ _ _
      · exact (goto_thread_other _ _ _ hu).trans (h.only u hu)
    rcases h.effect with ⟨⟨_, rfl⟩, he⟩ | ⟨hnt, hA⟩
    · exact ⟨⟨fun _ => he.accepts, fun _ => rfl⟩, whole he.eq_apply⟩
    · have hr : op.IsContains ∨ r = false := by
        by_contra hne
        obtain ⟨h1, h2⟩ := not_or.1 hne
        exact hnt ⟨h1, by simpa using h2⟩
      have hacc := h.told hr
      refine ⟨hacc, whole (hA.trans ?_)⟩
      rcases hr with hc | rfl
      · cases op with
        | contains k => rfl
        | _ => exact hc.elim
      · exact (SetOp.apply_of_not_accepts fun h => absurd (hacc.2 h) nofun).symm

theorem initial_whole (zero : V) (junk : Uchar) : Whole ∅ (initial zero junk) where
  inv := reclaimed_initial zero junk
  bounded := bounded_initial zero junk
  idle _ := rfl
  alive _ _ := initial_alive zero junk _ _
  full {x i} hx hi := by
    have hm := (reclaimed_initial (V := V) zero junk).inv.mem
    rcases (initial_live zero junk (hm.live_of_linked_at (by decide) hx)).1 with h | h
    · obtain rfl : x = head := h
      exact Heap.Reach.refl _
    · obtain rfl : x = tail := h
      exact initial_head_tail zero junk i
  abs := initial_abs zero junk

end LinkFree.SkipList
