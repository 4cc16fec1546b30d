import DurableSets.Core.Progress
import DurableSets.LinkFree.SkipListHistory
import Mathlib.Data.Prod.Lex

namespace LinkFree.SkipList

open Chain

variable {V : Type} {σ σ' : Store V} {L : Set Cursor} {x y p n c d slot : Loc} {i j level : ℕ}
  {op : SetOp V} {pc pc' : Pc} {path : Path} {q : Ptr}

noncomputable def ahead (σ : Store V) (i : ℕ) (n : Loc) : ℕ := (σ.level i).dist n tail

def stage (phase level rest : ℕ) : ℕ ×ₗ ℕ ×ₗ ℕ := toLex (phase, toLex (level, rest))

noncomputable def DeleteCtx.measure (σ : Store V) (n : Loc) (w : ℕ) : DeleteCtx → ℕ ×ₗ ℕ ×ₗ ℕ
  | .find _ _ _ _ _ => stage 2 0 (8 * ahead σ 0 n + w)
  | _ => stage 0 0 0

-- search, newNode, level 0, find, the upper levels
noncomputable def Pc.measure (σ : Store V) : Pc → ℕ ×ₗ ℕ ×ₗ ℕ
  | .searchDown i pred _ => stage 5 i (8 * ahead σ i pred)
  | .searchTest i _ succ _ => stage 5 i (8 * ahead σ i succ + 1)
  | .searchNext i _ succ _ => stage 5 i (8 * ahead σ i succ)
  | .findDown _ i pred _ => stage 2 i (8 * ahead σ i pred)
  | .findLoad _ i _ _ succ _ => stage 2 i (8 * ahead σ i succ + 5)
  | .findCas _ i _ _ succ _ => stage 2 i (8 * ahead σ i succ + 1)
  | .deleteLoad c n => c.measure σ n 4
  | .deleteFlush c n => c.measure σ n 3
  | .deleteStore c n => c.measure σ n 2
  | .validLoad .lost _ => stage 3 4 0
  | .validLoad _ _ => stage 3 6 0
  | .validStore .lost _ _ => stage 3 3 0
  | .validStore _ _ _ => stage 3 5 0
  | .insertLoad _ _ => stage 3 4 0
  | .insertFlush _ _ => stage 3 3 0
  | .insertStore _ _ => stage 3 2 0
  | .alloc _ => stage 4 10 0
  | .flipLoad _ _ _ => stage 4 9 0
  | .flipStore _ _ _ _ => stage 4 8 0
  | .initInsertFlag _ _ _ => stage 4 7 0
  | .initDeleteFlag _ _ _ => stage 4 6 0
  | .initKey _ _ _ => stage 4 5 0
  | .initValue _ _ _ => stage 4 4 0
  | .initTopLevel _ _ _ => stage 4 3 0
  | .initNext _ n i => stage 4 2 ((σ.node n).topLevel - i)
  | .linkCas _ _ => stage 4 1 0
  | .lostStore _ => stage 3 5 0
  | .lostFree _ => stage 3 2 0
  | .upperLoad _ _ i => stage 1 (MAX_LEVEL - i) 3
  | .upperCas _ _ i _ => stage 1 (MAX_LEVEL - i) 2
  | .upperLink _ _ i => stage 1 (MAX_LEVEL - i) 1
  | _ => stage 0 0 0

noncomputable def DeleteCtx.way (σ : Store V) (n : Loc) (w : ℕ) : DeleteCtx → ℕ ×ₗ ℕ ×ₗ ℕ
  | .find c p d s path => (DeleteCtx.find c p d s path).measure σ n w
  | _ => stage 3 w 0

noncomputable def Pc.way (σ : Store V) : Pc → ℕ ×ₗ ℕ ×ₗ ℕ
  | .deleteLoad c n => c.way σ n 4
  | .deleteFlush c n => c.way σ n 3
  | .deleteStore c n => c.way σ n 2
  | .validLoad .removing _ => stage 3 7 0
  | .validStore .removing _ _ => stage 3 6 0
  | .markLoad _ i => stage 3 5 (2 * i + 1)
  | .markCas _ i _ => stage 3 5 (2 * i)
  | .removeFree _ => stage 1 0 0
  | .containsDown i pred => stage 5 i (8 * ahead σ i pred)
  | .containsTest i _ curr => stage 5 i (8 * ahead σ i curr + 2)
  | .containsPass i _ curr => stage 5 i (8 * ahead σ i curr + 1)
  | .containsNext i _ curr => stage 5 i (8 * ahead σ i curr)
  | pc => pc.measure σ

def Pc.Fails (σ : Store V) : Pc → Prop
  | .lostFree _ => True
  | .findDown _ i pred _ => σ.dead i pred
  | .findCas _ i pred predNext _ _ => (σ.node pred).next i ≠ Ptr.addr predNext
  | .upperLink path _ i => ∃ e, path[i]? = some e ∧ (σ.node e.1).next i ≠ Ptr.addr e.2
  | _ => False

theorem stage_lt {a a' b b' c c' : ℕ} :
    stage a b c < stage a' b' c' ↔ a < a' ∨ a = a' ∧ (b < b' ∨ b = b' ∧ c < c') := by
  simp only [stage, Prod.Lex.toLex_lt_toLex]

theorem ahead_next (hm : MemInv σ 1 L) (hx : (x, i) ∈ L) (hs : ((σ.node x).next i).ref = some y) :
    ahead σ i x = ahead σ i y + 1 := by
  have hy := hm.right hx hs
  exact Heap.dist_succ (hm.sound.tail_end (hm.sound.tail_mem hy)) hs (hm.sound.ends hy)

theorem ahead_congr (h : ∀ x, (σ'.node x).next i = (σ.node x).next i) (n : Loc) :
    ahead σ' i n = ahead σ i n :=
  Heap.dist_congr fun z _ => congrArg Ptr.ref (h z)

theorem node_flush (σ : Store V) (n x : Loc) : (σ.flush n).node x = σ.node x := by
  change (σ.setLine n _).node x = _
  rw [node_setLine]
  split
  · next h => rw [h]; rfl
  · rfl

theorem next_flush (σ : Store V) (n x : Loc) : ((σ.flush n).node x).next = (σ.node x).next :=
  congrArg Node.next (node_flush σ n x)

theorem next_write {m : Node V} (hn : m.next = (σ.node n).next) (x : Loc) :
    ((σ.write n m).node x).next = (σ.node x).next := by
  rw [node_write]
  split
  · next h => rw [h, hn]
  · rfl

theorem deleteWay_congr (h : ∀ x, (σ'.node x).next = (σ.node x).next) (n : Loc) (w : ℕ)
    (e : DeleteCtx) : e.way σ' n w = e.way σ n w := by
  cases e with
  | find c p d s path =>
    simp only [DeleteCtx.way, DeleteCtx.measure, ahead_congr fun x => congrFun (h x) 0]
  | _ => rfl

theorem afterDelete_way (hm : MemInv σ 1 L) (hn : (n, 0) ∈ L) {e : DeleteCtx} {w : ℕ}
    (ho : DeleteOk σ op n e) : (afterDelete n e).way σ < e.way σ n w := by
  cases e with
  | find c p d s path =>
    obtain ⟨_, _, _, _, hs, _⟩ := ho
    have := ahead_next hm hn hs
    refine stage_lt.2 (Or.inr ⟨rfl, Or.inr ⟨rfl, ?_⟩⟩)
    omega
  | remove r => cases r <;> exact stage_lt.2 (Or.inl (by decide))
  | contains => exact stage_lt.2 (Or.inl (by decide))

theorem searchDone_way (hf : ¬ op.IsContains) (τ : Store V) (p c : Loc) (path : Path) (w : ℕ) :
    (searchDone τ op p c path i).way σ < stage 5 i w := by
  cases i with
  | succ i => exact stage_lt.2 (Or.inr ⟨rfl, Or.inl (Nat.lt_succ_self i)⟩)
  | zero =>
    cases op with
    | contains k => exact absurd trivial hf
    | _ =>
      simp only [searchDone, afterSearch]
      split <;> exact stage_lt.2 (Or.inl (by decide))

theorem findDone_way (e : FindCtx) (p c : Loc) (path : Path) (w : ℕ) :
    (findDone e p c path i).way σ < stage 2 i w := by
  cases i with
  | succ i => exact stage_lt.2 (Or.inr ⟨rfl, Or.inl (Nat.lt_succ_self i)⟩)
  | zero => cases e <;> exact stage_lt.2 (Or.inl (by decide))

theorem upper_way (path : Path) (n : Loc) {w : ℕ} (hi : i < MAX_LEVEL) :
    (upper σ' path n (i + 1)).way σ < stage 1 (MAX_LEVEL - i) w := by
  unfold upper
  split
  · exact stage_lt.2 (Or.inr ⟨rfl, Or.inl (by omega)⟩)
  · exact stage_lt.2 (Or.inl (by decide))

theorem afterValid_way (e : ValidCtx) (τ : Store V) (n : Loc) (a : Uchar) :
    (afterValid τ n e).way σ' < (Pc.validStore e n a).way σ := by
  cases e <;> exact stage_lt.2 (Or.inr ⟨rfl, Or.inl (by decide)⟩)

theorem afterInsert_way (e : InsertCtx) (τ : Store V) (n : Loc) :
    (afterInsert τ n e).way σ < stage 3 2 0 := by
  cases e with
  | linked path =>
    simp only [afterInsert, upper]
    split <;> exact stage_lt.2 (Or.inl (by decide))
  | _ => exact stage_lt.2 (Or.inl (by decide))

theorem marked_way (n : Loc) (r : Bool) (i : ℕ) :
    (marked n r i).way σ < stage 3 5 (2 * i) ∨ (marked n r i).way σ = stage 3 5 (2 * i - 1) := by
  cases i with
  | zero => exact Or.inl (stage_lt.2 (Or.inr ⟨rfl, Or.inl (by decide)⟩))
  | succ i => exact Or.inr rfl

theorem step_way (hm : MemInv σ 1 L) (f : Fit σ L op pc)
    (hn : next σ op slot level pc = some (σ', pc')) (hf : ¬ pc.Fails σ)
    (hk : ∀ n i q, pc = .markCas n i q → (σ.node n).next i = q) :
    pc'.way σ' < pc.way σ := by
  have nearer : ∀ {x y i}, (x, i) ∈ L → ((σ.node x).next i).ref = some y →
      ahead σ i x = ahead σ i y + 1 := fun hx hs => ahead_next hm hx hs
  cases pc with
  | searchDown i p path =>
    obtain ⟨s, hs, he⟩ := Option.map_eq_some_iff.1 hn
    obtain ⟨rfl, rfl⟩ := Prod.mk.inj he
    have := nearer (f.refs (p, i) (by simp [Pc.refs])) hs
    refine stage_lt.2 (Or.inr ⟨rfl, Or.inr ⟨rfl, ?_⟩⟩)
    omega
  | searchTest i p c path =>
    simp only [next] at hn
    split at hn
    · obtain ⟨rfl, rfl⟩ := Prod.mk.inj (Option.some.inj hn)
      exact stage_lt.2 (Or.inr ⟨rfl, Or.inr ⟨rfl, Nat.lt_succ_self _⟩⟩)
    · split at hn <;> obtain ⟨rfl, rfl⟩ := Prod.mk.inj (Option.some.inj hn)
      · exact searchDone_way f.fits _ _ _ _ _
      · exact stage_lt.2 (Or.inr ⟨rfl, Or.inr ⟨rfl, Nat.lt_succ_self _⟩⟩)
  | searchNext i p c path =>
    obtain ⟨s, hs, he⟩ := Option.map_eq_some_iff.1 hn
    obtain ⟨rfl, rfl⟩ := Prod.mk.inj he
    have := nearer (f.refs (c, i) (by simp [Pc.refs])) hs
    refine stage_lt.2 (Or.inr ⟨rfl, Or.inr ⟨rfl, ?_⟩⟩)
    omega
  | findDown e i p path =>
    simp only [next] at hn
    rw [if_neg (show ¬ ((σ.node p).next i).isMarked = true from hf)] at hn
    obtain ⟨s, hs, he⟩ := Option.map_eq_some_iff.1 hn
    obtain ⟨rfl, rfl⟩ := Prod.mk.inj he
    have := nearer (f.refs (p, i) (by simp [Pc.refs])) hs
    refine stage_lt.2 (Or.inr ⟨rfl, Or.inr ⟨rfl, ?_⟩⟩)
    omega
  | findLoad e i p d s path =>
    have hsl := f.refs (s, i) (by simp [Pc.refs])
    simp only [next] at hn
    split at hn
    · obtain ⟨z, hz, he⟩ := Option.map_eq_some_iff.1 hn
      obtain ⟨rfl, rfl⟩ := Prod.mk.inj he
      have := nearer hsl hz
      split
      · next h0 =>
        subst h0
        exact stage_lt.2 (Or.inr ⟨rfl, Or.inr ⟨rfl, Nat.lt_succ_self _⟩⟩)
      · refine stage_lt.2 (Or.inr ⟨rfl, Or.inr ⟨rfl, ?_⟩⟩)
        omega
    · split at hn
      · obtain ⟨rfl, rfl⟩ := Prod.mk.inj (Option.some.inj hn)
        split
        · exact findDone_way e _ _ _ _
        · refine stage_lt.2 (Or.inr ⟨rfl, Or.inr ⟨rfl, ?_⟩⟩)
          omega
      · obtain ⟨z, hz, he⟩ := Option.map_eq_some_iff.1 hn
        obtain ⟨rfl, rfl⟩ := Prod.mk.inj he
        have := nearer hsl hz
        refine stage_lt.2 (Or.inr ⟨rfl, Or.inr ⟨rfl, ?_⟩⟩)
        omega
  | findCas e i p d s path =>
    simp only [next, if_pos (not_not.1 hf)] at hn
    obtain ⟨rfl, rfl⟩ := Prod.mk.inj (Option.some.inj hn)
    exact findDone_way e _ _ _ _
  | deleteLoad e n =>
    simp only [next] at hn
    split at hn <;> obtain ⟨rfl, rfl⟩ := Prod.mk.inj (Option.some.inj hn)
    · exact afterDelete_way hm (f.refs _ (e.mem_refs n)) f.loc
    · cases e with
      | find c p d s path => exact stage_lt.2 (Or.inr ⟨rfl, Or.inr ⟨rfl, Nat.lt_succ_self _⟩⟩)
      | _ => exact stage_lt.2 (Or.inr ⟨rfl, Or.inl (by decide)⟩)
  | deleteFlush e n =>
    obtain ⟨rfl, rfl⟩ := Prod.mk.inj (Option.some.inj hn)
    simp only [Pc.way, deleteWay_congr (next_flush σ n) n]
    cases e with
    | find c p d s path => exact stage_lt.2 (Or.inr ⟨rfl, Or.inr ⟨rfl, Nat.lt_succ_self _⟩⟩)
    | _ => exact stage_lt.2 (Or.inr ⟨rfl, Or.inl (by decide)⟩)
  | deleteStore e n =>
    obtain ⟨rfl, rfl⟩ := Prod.mk.inj (Option.some.inj hn)
    have hnl := f.refs _ (e.mem_refs n)
    cases e with
    | find c p d s path =>
      obtain ⟨_, _, _, _, hs, _⟩ := f.loc.1
      have := nearer hnl hs
      have same : ahead (σ.write n { σ.node n with deleteFlag := true }) 0 s = ahead σ 0 s :=
        ahead_congr (fun x => congrFun (next_write (by rfl) x) 0) s
      refine stage_lt.2 (Or.inr ⟨rfl, Or.inr ⟨rfl, ?_⟩⟩)
      omega
    | remove r => cases r <;> exact stage_lt.2 (Or.inl (by decide))
    | contains => exact stage_lt.2 (Or.inl (by decide))
  | validLoad e n =>
    have hlt : ∀ a, (Pc.validStore e n a).way σ < (Pc.validLoad e n).way σ := by
      intro a
      cases e <;> exact stage_lt.2 (Or.inr ⟨rfl, Or.inl (by decide)⟩)
    simp only [next] at hn
    split at hn <;> obtain ⟨rfl, rfl⟩ := Prod.mk.inj (Option.some.inj hn)
    · exact (afterValid_way e σ n 0#8).trans (hlt _)
    · exact hlt _
  | validStore e n old =>
    obtain ⟨rfl, rfl⟩ := Prod.mk.inj (Option.some.inj hn)
    exact afterValid_way e σ n old
  | insertLoad e n =>
    simp only [next] at hn
    split at hn <;> obtain ⟨rfl, rfl⟩ := Prod.mk.inj (Option.some.inj hn)
    · exact (afterInsert_way e σ n).trans
        (stage_lt.2 (Or.inr ⟨rfl, Or.inl (by decide)⟩))
    · exact stage_lt.2 (Or.inr ⟨rfl, Or.inl (by decide)⟩)
  | insertStore e n =>
    obtain ⟨rfl, rfl⟩ := Prod.mk.inj (Option.some.inj hn)
    exact afterInsert_way e σ n
  | initValue path n l =>
    cases op with
    | insert k v =>
      obtain ⟨rfl, rfl⟩ := Prod.mk.inj (Option.some.inj hn)
      exact stage_lt.2 (Or.inr ⟨rfl, Or.inl (by decide)⟩)
    | _ => cases hn
  | initNext path n i =>
    obtain ⟨e, _, he⟩ := Option.map_eq_some_iff.1 hn
    obtain ⟨rfl, rfl⟩ := Prod.mk.inj he
    split
    · next hlt =>
      refine stage_lt.2 (Or.inr ⟨rfl, Or.inr ⟨rfl, ?_⟩⟩)
      rw [(setNext_fields σ n i _ n).2.1]
      omega
    · exact stage_lt.2 (Or.inr ⟨rfl, Or.inl (by decide)⟩)
  | linkCas path n =>
    simp only [next] at hn
    obtain ⟨e, _, he⟩ := Option.map_eq_some_iff.1 hn
    split at he <;> obtain ⟨rfl, rfl⟩ := Prod.mk.inj he <;> exact stage_lt.2 (Or.inl (by decide))
  | upperLoad path n i =>
    simp only [next] at hn
    split at hn
    · obtain ⟨rfl, rfl⟩ := Prod.mk.inj (Option.some.inj hn)
      exact stage_lt.2 (Or.inl (by decide))
    · obtain ⟨e, _, he⟩ := Option.map_eq_some_iff.1 hn
      obtain ⟨rfl, rfl⟩ := Prod.mk.inj he
      split <;> exact stage_lt.2 (Or.inr ⟨rfl, Or.inr ⟨rfl, by decide⟩⟩)
  | upperCas path n i q =>
    simp only [next] at hn
    obtain ⟨e, _, he⟩ := Option.map_eq_some_iff.1 hn
    split at he <;> obtain ⟨rfl, rfl⟩ := Prod.mk.inj he
    · exact stage_lt.2 (Or.inr ⟨rfl, Or.inr ⟨rfl, by decide⟩⟩)
    · exact stage_lt.2 (Or.inl (by decide))
  | upperLink path n i =>
    have hi : i < MAX_LEVEL := by
      have hlt := f.loc.1.lt
      have := (hm.level (f.refs (n, i - 1) (by simp [Pc.refs]))).2
      omega
    simp only [next] at hn
    obtain ⟨e, hpath, he⟩ := Option.map_eq_some_iff.1 hn
    rw [if_pos (not_not.1 fun h => hf ⟨e, hpath, h⟩)] at he
    obtain ⟨rfl, rfl⟩ := Prod.mk.inj he
    exact upper_way path n hi
  | markLoad n i =>
    simp only [next] at hn
    split at hn <;> obtain ⟨rfl, rfl⟩ := Prod.mk.inj (Option.some.inj hn)
    · rcases marked_way (σ := σ) n false i with h | h
      · exact h.trans (stage_lt.2 (Or.inr ⟨rfl, Or.inr ⟨rfl, Nat.lt_succ_self _⟩⟩))
      · exact h.trans_lt (stage_lt.2 (Or.inr ⟨rfl, Or.inr ⟨rfl, by omega⟩⟩))
    · exact stage_lt.2 (Or.inr ⟨rfl, Or.inr ⟨rfl, Nat.lt_succ_self _⟩⟩)
  | markCas n i q =>
    simp only [next, if_pos (hk n i q rfl)] at hn
    obtain ⟨rfl, rfl⟩ := Prod.mk.inj (Option.some.inj hn)
    cases i with
    | zero => exact stage_lt.2 (Or.inr ⟨rfl, Or.inl (by decide)⟩)
    | succ i => exact stage_lt.2 (Or.inr ⟨rfl, Or.inr ⟨rfl, by omega⟩⟩)
  | removeFree n =>
    obtain ⟨rfl, rfl⟩ := Prod.mk.inj (Option.some.inj hn)
    exact stage_lt.2 (Or.inl (by decide))
  | containsDown i p =>
    obtain ⟨s, hs, he⟩ := Option.map_eq_some_iff.1 hn
    obtain ⟨rfl, rfl⟩ := Prod.mk.inj he
    have := nearer (f.refs (p, i) (by simp [Pc.refs])) hs
    refine stage_lt.2 (Or.inr ⟨rfl, Or.inr ⟨rfl, ?_⟩⟩)
    omega
  | containsTest i p c =>
    simp only [next] at hn
    split at hn
    · obtain ⟨rfl, rfl⟩ := Prod.mk.inj (Option.some.inj hn)
      exact stage_lt.2 (Or.inr ⟨rfl, Or.inr ⟨rfl, Nat.lt_succ_self _⟩⟩)
    · split at hn
      · obtain ⟨rfl, rfl⟩ := Prod.mk.inj (Option.some.inj hn)
        exact stage_lt.2 (Or.inl (by decide))
      · cases i <;> obtain ⟨rfl, rfl⟩ := Prod.mk.inj (Option.some.inj hn)
        · exact stage_lt.2 (Or.inl (by decide))
        · exact stage_lt.2 (Or.inr ⟨rfl, Or.inl (Nat.lt_succ_self _)⟩)
  | containsPass i p c =>
    simp only [next] at hn
    split at hn
    · split at hn <;> obtain ⟨rfl, rfl⟩ := Prod.mk.inj (Option.some.inj hn)
      · exact stage_lt.2 (Or.inl (by decide))
      · exact stage_lt.2 (Or.inr ⟨rfl, Or.inr ⟨rfl, Nat.lt_succ_self _⟩⟩)
    · obtain ⟨rfl, rfl⟩ := Prod.mk.inj (Option.some.inj hn)
      exact stage_lt.2 (Or.inr ⟨rfl, Or.inr ⟨rfl, Nat.lt_succ_self _⟩⟩)
  | containsNext i p c =>
    obtain ⟨s, hs, he⟩ := Option.map_eq_some_iff.1 hn
    obtain ⟨rfl, rfl⟩ := Prod.mk.inj he
    have := nearer (f.refs (c, i) (by simp [Pc.refs])) hs
    refine stage_lt.2 (Or.inr ⟨rfl, Or.inr ⟨rfl, ?_⟩⟩)
    omega
  | lostFree n => exact absurd trivial hf
  | ret r => cases hn
  | _ =>
    obtain ⟨rfl, rfl⟩ := Prod.mk.inj (Option.some.inj hn)
    exact stage_lt.2 (Or.inr ⟨rfl, Or.inl (by decide)⟩)

theorem way_eq_measure (hins : op.IsInsert) (hf : pc.Fits op) : pc.way σ = pc.measure σ := by
  have not_remove : ¬ op.IsRemove := by
    intro h
    cases op <;> first | exact hins.elim | exact h.elim
  have not_contains : ¬ op.IsContains := by
    intro h
    cases op <;> first | exact hins.elim | exact h.elim
  cases pc with
  | deleteLoad e n => cases e <;> first | rfl | exact absurd hf not_remove | exact absurd hf not_contains
  | deleteFlush e n => cases e <;> first | rfl | exact absurd hf not_remove | exact absurd hf not_contains
  | deleteStore e n => cases e <;> first | rfl | exact absurd hf not_remove | exact absurd hf not_contains
  | validLoad e n => cases e <;> first | rfl | exact absurd hf not_remove
  | validStore e n old => cases e <;> first | rfl | exact absurd hf not_remove
  | _ => first | rfl | exact absurd hf not_remove | exact absurd hf not_contains

theorem step_measure (hins : op.IsInsert) (hm : MemInv σ 1 L) (f : Fit σ L op pc)
    (hn : next σ op slot level pc = some (σ', pc')) (hf' : pc'.Fits op) (hf : ¬ pc.Fails σ) :
    pc'.measure σ' < pc.measure σ := by
  rw [← way_eq_measure hins f.fits, ← way_eq_measure hins hf']
  refine step_way hm f hn hf fun n i q h => ?_
  subst h
  have hrem : op.IsRemove := f.fits
  cases op <;> first | exact hins.elim | exact hrem.elim

end LinkFree.SkipList
