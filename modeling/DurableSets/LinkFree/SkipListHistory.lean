import DurableSets.LinkFree.SkipListRun

namespace LinkFree.SkipList

open Chain

variable {V : Type} {σ σ' : Store V} {L L' : Set Cursor} {x y p n c d slot : Loc}
  {i j m G level : ℕ} {op : SetOp V} {pc pc' : Pc} {path : Path} {q : Ptr} {k : ℤ}
  {ρ : Run (machine V)} {r : Bool}

theorem Inv.change {s s' : State V} (hi : Inv G s) {e : Event (SetOp V)} (tidy : s.Tidy G e)
    (clean : s.Clean s') (hs : Step s e s') :
    ∃ L', Tower.Change s.store.tower s'.store.tower G s.live L' := by
  cases hs with
  | call t op idle hk => exact ⟨_, Tower.Change.steady (steady_of_eq rfl)⟩
  | ret t op r ht => exact ⟨_, Tower.Change.steady (steady_of_eq rfl)⟩
  | tau t op pc pc' slot level σ ht hn ha =>
    obtain ⟨L', e, _⟩ := tau_ok hi ht (tidy t op pc rfl ht) hn ha clean
    exact ⟨L', e.change hi.mem⟩

def heaps (ρ : Run (machine V)) (m : ℕ) : Heap Loc (WithBot ℤ) := (ρ.state m).store.level 0

def roots (ρ : Run (machine V)) (m : ℕ) : Set Loc := Tower.floor (ρ.state m).live 0

theorem sorted_run (clean : Clean ρ) (hm : m ≤ ρ.length) : Sorted (heaps ρ m) (roots ρ m) :=
  ⟨(inv_run ρ clean m hm).mem.good, (inv_run ρ clean m hm).mem.ordered⟩

theorem change_run (clean : Clean ρ) (hm : m < ρ.length) :
    Change (heaps ρ m) (heaps ρ (m + 1)) (roots ρ m) := by
  have hi := inv_run ρ clean m hm.le
  obtain ⟨L', ch⟩ := hi.change (hi.tidy_one _) (clean m hm) (ρ.step hm)
  exact ch.level (live_closed _) Nat.one_pos

theorem live_run (hx : (x, 0) ∈ (ρ.state m).live) : (heaps ρ m).Live (roots ρ m) x :=
  Heap.Live.root hx

theorem mem_live_of_linked (clean : Clean ρ) (hm : m ≤ ρ.length) (hx : (heaps ρ m).Linked x) :
    (x, 0) ∈ (ρ.state m).live := (inv_run ρ clean m hm).mem.live_of_linked hx

def Pc.swings (σ : Store V) (x : Loc) : Pc → Prop
  | .findCas _ 0 p c _ _ => x = p ∧ (σ.node p).next 0 = Ptr.addr c
  | .linkCas path _ => ∃ e, path[0]? = some e ∧ x = e.1 ∧ (σ.node e.1).next 0 = Ptr.addr e.2
  | .markCas n 0 q => x = n ∧ (σ.node n).next 0 = q
  | _ => False

def SameBase (σ σ' : Store V) (x : Loc) : Prop :=
  (σ'.node x).next 0 = (σ.node x).next 0 ∧ (σ'.node x).key = (σ.node x).key

theorem SameBase.refl (σ : Store V) (x : Loc) : SameBase σ σ x := ⟨rfl, rfl⟩

theorem sameBase_write {m : Node V} (hk : m.key = (σ.node n).key)
    (hn : m.next 0 = (σ.node n).next 0) (x : Loc) : SameBase σ (σ.write n m) x := by
  unfold SameBase
  rw [node_write]
  split
  · next h => rw [h]; exact ⟨hn, hk⟩
  · exact ⟨rfl, rfl⟩

theorem sameBase_private {m : Node V} (hx : some (n, 0) ≠ some (x, 0)) :
    SameBase σ (σ.write n m) x := by
  unfold SameBase
  rw [node_write_other σ m fun h => hx (by rw [h])]
  exact ⟨rfl, rfl⟩

theorem sameBase_setNext (h : ¬ (x = p ∧ i = 0)) : SameBase σ (σ.setNext p i q) x :=
  ⟨next_setNext_other σ q fun e => h ⟨e.1, e.2.symm⟩, (setNext_fields σ p i q x).1⟩

theorem sameBase_flush (σ : Store V) (n x : Loc) : SameBase σ (σ.flush n) x := by
  have : (σ.flush n).node x = σ.node x := by
    change (σ.setLine n _).node x = _
    rw [node_setLine]
    split
    · next h => rw [h]; rfl
    · rfl
  exact ⟨by rw [this], by rw [this]⟩

theorem next_frame (hl : Local σ op pc) (hn : next σ op slot level pc = some (σ', pc'))
    (ho : pc.pending ≠ some (x, 0)) (hs : ¬ pc.swings σ x) : SameBase σ σ' x := by
  cases pc with
  | searchDown i p path =>
    obtain ⟨s, _, he⟩ := Option.map_eq_some_iff.1 hn
    obtain ⟨rfl, rfl⟩ := Prod.mk.inj he
    exact SameBase.refl _ _
  | searchTest i p c path =>
    simp only [next] at hn
    split at hn
    · obtain ⟨rfl, rfl⟩ := Prod.mk.inj (Option.some.inj hn)
      exact SameBase.refl _ _
    · split at hn <;> obtain ⟨rfl, rfl⟩ := Prod.mk.inj (Option.some.inj hn) <;>
        exact SameBase.refl _ _
  | searchNext i p c path =>
    obtain ⟨s, _, he⟩ := Option.map_eq_some_iff.1 hn
    obtain ⟨rfl, rfl⟩ := Prod.mk.inj he
    exact SameBase.refl _ _
  | findDown c i p path =>
    simp only [next] at hn
    split at hn
    · obtain ⟨rfl, rfl⟩ := Prod.mk.inj (Option.some.inj hn)
      exact SameBase.refl _ _
    · obtain ⟨s, _, he⟩ := Option.map_eq_some_iff.1 hn
      obtain ⟨rfl, rfl⟩ := Prod.mk.inj he
      exact SameBase.refl _ _
  | findLoad c i p d s path =>
    simp only [next] at hn
    split at hn
    · obtain ⟨e, _, he⟩ := Option.map_eq_some_iff.1 hn
      obtain ⟨rfl, rfl⟩ := Prod.mk.inj he
      exact SameBase.refl _ _
    · split at hn
      · obtain ⟨rfl, rfl⟩ := Prod.mk.inj (Option.some.inj hn)
        exact SameBase.refl _ _
      · obtain ⟨e, _, he⟩ := Option.map_eq_some_iff.1 hn
        obtain ⟨rfl, rfl⟩ := Prod.mk.inj he
        exact SameBase.refl _ _
  | findCas c i p d s path =>
    simp only [next] at hn
    split at hn <;> obtain ⟨rfl, rfl⟩ := Prod.mk.inj (Option.some.inj hn)
    · next hnext =>
      refine sameBase_setNext ?_
      rintro ⟨rfl, rfl⟩
      exact hs ⟨rfl, hnext⟩
    · exact SameBase.refl _ _
  | deleteLoad d n =>
    simp only [next] at hn
    split at hn <;> obtain ⟨rfl, rfl⟩ := Prod.mk.inj (Option.some.inj hn) <;>
      exact SameBase.refl _ _
  | deleteFlush d n =>
    obtain ⟨rfl, rfl⟩ := Prod.mk.inj (Option.some.inj hn)
    exact sameBase_flush σ n x
  | deleteStore d n =>
    obtain ⟨rfl, rfl⟩ := Prod.mk.inj (Option.some.inj hn)
    exact sameBase_write (by rfl) (by rfl) x
  | validLoad d n =>
    simp only [next] at hn
    split at hn <;> obtain ⟨rfl, rfl⟩ := Prod.mk.inj (Option.some.inj hn) <;>
      exact SameBase.refl _ _
  | validStore d n old =>
    obtain ⟨rfl, rfl⟩ := Prod.mk.inj (Option.some.inj hn)
    exact sameBase_write (by rfl) (by rfl) x
  | insertLoad d n =>
    simp only [next] at hn
    split at hn <;> obtain ⟨rfl, rfl⟩ := Prod.mk.inj (Option.some.inj hn) <;>
      exact SameBase.refl _ _
  | insertFlush d n =>
    obtain ⟨rfl, rfl⟩ := Prod.mk.inj (Option.some.inj hn)
    exact sameBase_flush σ n x
  | insertStore d n =>
    obtain ⟨rfl, rfl⟩ := Prod.mk.inj (Option.some.inj hn)
    exact sameBase_write (by rfl) (by rfl) x
  | initValue path n l =>
    cases op with
    | insert k v =>
      obtain ⟨rfl, rfl⟩ := Prod.mk.inj (Option.some.inj hn)
      exact sameBase_private ho
    | remove k => cases hn
    | contains k => cases hn
  | initNext path n i =>
    obtain ⟨e, _, he⟩ := Option.map_eq_some_iff.1 hn
    obtain ⟨rfl, rfl⟩ := Prod.mk.inj he
    exact sameBase_private ho
  | linkCas path n =>
    simp only [next] at hn
    obtain ⟨e, hpath, he⟩ := Option.map_eq_some_iff.1 hn
    clear hn
    split at he <;> obtain ⟨rfl, rfl⟩ := Prod.mk.inj he
    · next hnext =>
      refine sameBase_setNext ?_
      rintro ⟨rfl, _⟩
      exact hs ⟨e, hpath, rfl, hnext⟩
    · exact SameBase.refl _ _
  | upperLoad path n i =>
    simp only [next] at hn
    split at hn
    · obtain ⟨rfl, rfl⟩ := Prod.mk.inj (Option.some.inj hn)
      exact SameBase.refl _ _
    · obtain ⟨e, _, hn⟩ := Option.map_eq_some_iff.1 hn
      obtain ⟨rfl, rfl⟩ := Prod.mk.inj hn
      exact SameBase.refl _ _
  | upperCas path n i q =>
    simp only [next] at hn
    obtain ⟨e, _, hn⟩ := Option.map_eq_some_iff.1 hn
    have hpos := hl.1.pos
    split at hn <;> obtain ⟨rfl, rfl⟩ := Prod.mk.inj hn
    · exact sameBase_setNext fun h => by omega
    · exact SameBase.refl _ _
  | upperLink path n i =>
    simp only [next] at hn
    obtain ⟨e, _, hn⟩ := Option.map_eq_some_iff.1 hn
    have hpos := hl.1.pos
    split at hn <;> obtain ⟨rfl, rfl⟩ := Prod.mk.inj hn
    · exact sameBase_setNext fun h => by omega
    · exact SameBase.refl _ _
  | markLoad n i =>
    simp only [next] at hn
    split at hn <;> obtain ⟨rfl, rfl⟩ := Prod.mk.inj (Option.some.inj hn) <;>
      exact SameBase.refl _ _
  | markCas n i q =>
    simp only [next] at hn
    split at hn <;> obtain ⟨rfl, rfl⟩ := Prod.mk.inj (Option.some.inj hn)
    · next hnext =>
      refine sameBase_setNext ?_
      rintro ⟨rfl, rfl⟩
      exact hs ⟨rfl, hnext⟩
    · exact SameBase.refl _ _
  | containsDown i p =>
    obtain ⟨s, _, he⟩ := Option.map_eq_some_iff.1 hn
    obtain ⟨rfl, rfl⟩ := Prod.mk.inj he
    exact SameBase.refl _ _
  | containsTest i p c =>
    simp only [next] at hn
    split at hn
    · obtain ⟨rfl, rfl⟩ := Prod.mk.inj (Option.some.inj hn)
      exact SameBase.refl _ _
    · split at hn
      · obtain ⟨rfl, rfl⟩ := Prod.mk.inj (Option.some.inj hn)
        exact SameBase.refl _ _
      · cases i <;> obtain ⟨rfl, rfl⟩ := Prod.mk.inj (Option.some.inj hn) <;>
          exact SameBase.refl _ _
  | containsPass i p c =>
    simp only [next] at hn
    split at hn
    · split at hn <;> obtain ⟨rfl, rfl⟩ := Prod.mk.inj (Option.some.inj hn) <;>
        exact SameBase.refl _ _
    · obtain ⟨rfl, rfl⟩ := Prod.mk.inj (Option.some.inj hn)
      exact SameBase.refl _ _
  | containsNext i p c =>
    obtain ⟨s, _, he⟩ := Option.map_eq_some_iff.1 hn
    obtain ⟨rfl, rfl⟩ := Prod.mk.inj he
    exact SameBase.refl _ _
  | alloc path =>
    obtain ⟨rfl, rfl⟩ := Prod.mk.inj (Option.some.inj hn)
    exact SameBase.refl _ _
  | flipLoad path n l =>
    obtain ⟨rfl, rfl⟩ := Prod.mk.inj (Option.some.inj hn)
    exact SameBase.refl _ _
  | lostFree n =>
    obtain ⟨rfl, rfl⟩ := Prod.mk.inj (Option.some.inj hn)
    exact SameBase.refl _ _
  | removeFree n =>
    obtain ⟨rfl, rfl⟩ := Prod.mk.inj (Option.some.inj hn)
    exact SameBase.refl _ _
  | ret r => cases hn
  | _ =>
    obtain ⟨rfl, rfl⟩ := Prod.mk.inj (Option.some.inj hn)
    exact sameBase_private ho

theorem tau_cases (f : Fit σ L op pc) (hn : next σ op slot level pc = some (σ', pc')) :
    (∃ path e n, pc = .linkCas path n ∧ path[0]? = some e ∧
      (σ.node e.1).next 0 = Ptr.addr e.2 ∧ σ' = σ.setNext e.1 0 (Ptr.addr n) ∧
      pc' = .validLoad (.linked path) n) ∨
    (∃ n q, pc = .markCas n 0 q ∧ (σ.node n).next 0 = q ∧ σ' = σ.setNext n 0 q.mark ∧
      pc' = .deleteLoad (.remove true) n) ∨
    (∃ c p d s path, pc = .findCas c 0 p d s path ∧ (σ.node p).next 0 = Ptr.addr d ∧
      σ' = σ.setNext p 0 (Ptr.addr s)) ∨
    ((∀ x, ¬ pc.swings σ x) ∧ ∀ x, (x, 0) ∈ L → SameBase σ σ' x) := by
  by_cases hs : ∃ x, pc.swings σ x
  · obtain ⟨x, hs⟩ := hs
    cases pc with
    | linkCas path n =>
      obtain ⟨e, he, _, hnext⟩ := hs
      simp only [next] at hn
      obtain ⟨e', he', hn⟩ := Option.map_eq_some_iff.1 hn
      obtain rfl := Option.some.inj (he.symm.trans he')
      rw [if_pos hnext] at hn
      obtain ⟨rfl, rfl⟩ := Prod.mk.inj hn
      exact Or.inl ⟨path, e, n, rfl, he, hnext, rfl, rfl⟩
    | markCas n i q =>
      cases i with
      | zero =>
        simp only [next, if_pos hs.2] at hn
        obtain ⟨rfl, rfl⟩ := Prod.mk.inj (Option.some.inj hn)
        exact Or.inr (Or.inl ⟨n, q, rfl, hs.2, rfl, rfl⟩)
      | succ i => exact hs.elim
    | findCas c i p d s path =>
      cases i with
      | zero =>
        simp only [next, if_pos hs.2] at hn
        obtain ⟨rfl, rfl⟩ := Prod.mk.inj (Option.some.inj hn)
        exact Or.inr (Or.inr (Or.inl ⟨c, p, d, s, path, rfl, hs.2, rfl⟩))
      | succ i => exact hs.elim
    | _ => exact hs.elim
  · have hs' : ∀ x, ¬ pc.swings σ x := fun x h => hs ⟨x, h⟩
    exact Or.inr (Or.inr (Or.inr ⟨hs', fun x hx =>
      next_frame f.loc hn (fun h => f.fresh _ h hx) (hs' x)⟩))

theorem frame_steady (hc : σ.tower.Closed L) (h : ∀ x, (x, 0) ∈ L → SameBase σ σ' x) :
    Heap.Steady (σ.level 0) (σ'.level 0) (Tower.floor L 0) where
  head := rfl
  succ hx := congrArg Ptr.ref (h _ (hc.live_iff.1 hx)).1
  rank hx := rank_congr (h _ (hc.live_iff.1 hx)).2
  dead hx hd := by
    change ((σ'.node _).next 0).marked = true
    rw [(h _ (hc.live_iff.1 hx)).1]
    exact hd

end LinkFree.SkipList
