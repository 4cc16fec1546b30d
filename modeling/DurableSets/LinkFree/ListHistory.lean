import DurableSets.Core.History
import DurableSets.LinkFree.ListRun

namespace LinkFree.List

open Chain

variable {V : Type} {σ σ' : Store V} {R R' : Set Loc} {x y p n c slot : Loc} {op : SetOp V}
  {pc pc' : Pc} {h : Option Loc}

theorem change_of_eq {H H' : Heap Loc (WithBot ℤ)} (he : H' = H) : Change H H' R := by
  subst he
  exact Change.steady ⟨rfl, fun _ => rfl, fun _ => rfl, fun _ => id⟩

theorem Effect.change (hm : MemInv σ R) (e : Effect σ R h R' σ') :
    Change σ.heap σ'.heap R := by
  cases e with
  | idle => exact change_of_eq rfl
  | touch x l _ live ev ref sub valid hi hd alive atTail => exact Change.steady (touch_steady ev ref)
  | priv x m fresh unavail lost => exact Change.steady (priv_steady fresh)
  | link p n c live next fresh unavail new_next lt gt bounded hi hd =>
    exact Change.splice p n c (link_splice live next fresh new_next)
  | unlink p c succ _ live next unmarked succ_next marked =>
    obtain ⟨d, _, hd⟩ := unlink_succ hm live next succ_next
    exact Change.bypass p c d (unlink_bypass hm live next unmarked succ_next hd)
  | take x _ avail fresh => exact change_of_eq rfl
  | give x linked valid => exact change_of_eq rfl

theorem Inv.change {s s' : State V} (hi : Inv s) {e : Event (SetOp V)} (hs : Step s e s') :
    Change s.store.heap s'.store.heap s.roots := by
  cases hs with
  | call t op idle hk => exact change_of_eq rfl
  | ret t op r n ht => exact change_of_eq rfl
  | tau t op pc pc' slot σ ht hn hs =>
    obtain ⟨R', e, _⟩ := tau_ok hi ht hn hs
    exact e.change hi.mem

def heaps {M : Machine (State V) (SetOp V) Pc} (ρ : Run M) (m : ℕ) : Heap Loc (WithBot ℤ) :=
  (ρ.state m).store.heap

theorem sorted_run (ρ : Run (machine V)) {m : ℕ} (hm : m ≤ ρ.length) :
    Sorted (heaps ρ m) (ρ.state m).roots :=
  ⟨(inv_run ρ m hm).mem.good, (inv_run ρ m hm).mem.ordered⟩

theorem change_run (ρ : Run (machine V)) {m : ℕ} (hm : m < ρ.length) :
    Change (heaps ρ m) (heaps ρ (m + 1)) (ρ.state m).roots :=
  (inv_run ρ m hm.le).change (ρ.step hm)

def Pc.swings (σ : Store V) (x : Loc) : Pc → Prop
  | .trimCas _ p c _ => x = p ∧ (σ.node p).next = Ptr.addr c
  | .linkCas p c _ => x = p ∧ (σ.node p).next = Ptr.addr c
  | .markCas _ n q => x = n ∧ (σ.node n).next = q
  | _ => False

theorem node_write_next {m : Node V} (hk : m.key = (σ.node n).key)
    (hn : m.next = (σ.node n).next) (x : Loc) :
    ((σ.write n m).node x).next = (σ.node x).next ∧ ((σ.write n m).node x).key = (σ.node x).key := by
  rw [node_write]
  split
  · next h => rw [h]; exact ⟨hn, hk⟩
  · exact ⟨rfl, rfl⟩

theorem node_write_private {m : Node V} (hx : some n ≠ some x) :
    ((σ.write n m).node x).next = (σ.node x).next ∧ ((σ.write n m).node x).key = (σ.node x).key := by
  rw [node_write, if_neg fun h => hx (congrArg some h.symm)]
  exact ⟨rfl, rfl⟩

theorem next_frame (hn : next σ op slot pc = some (σ', pc')) (ho : pc.owns ≠ some x)
    (hs : ¬ pc.swings σ x) :
    (σ'.node x).next = (σ.node x).next ∧ (σ'.node x).key = (σ.node x).key := by
  have swing : ∀ {p : Loc} {q : Ptr}, x ≠ p →
      ((σ.write p { σ.node p with next := q }).node x).next = (σ.node x).next ∧
      ((σ.write p { σ.node p with next := q }).node x).key = (σ.node x).key := by
    intro p q hne
    rw [node_write, if_neg hne]
    exact ⟨rfl, rfl⟩
  have flush : ∀ n, ((σ.flush n).node x).next = (σ.node x).next ∧
      ((σ.flush n).node x).key = (σ.node x).key := by
    intro n
    have : (σ.flush n).node x = σ.node x := by
      change (σ.setLine n _).node x = _
      rw [node_setLine]
      split
      · next h => rw [h]; rfl
      · rfl
    rw [this]
    exact ⟨rfl, rfl⟩
  cases pc with
  | find =>
    simp only [next] at hn
    split at hn
    · obtain ⟨rfl, rfl⟩ := Prod.mk.inj (Option.some.inj hn)
      exact ⟨rfl, rfl⟩
    · cases hn
  | findTest p c =>
    simp only [next] at hn
    split at hn
    · obtain ⟨rfl, rfl⟩ := Prod.mk.inj (Option.some.inj hn)
      exact ⟨rfl, rfl⟩
    · split at hn
      · obtain ⟨q, _, he⟩ := Option.map_eq_some_iff.1 hn
        obtain ⟨rfl, rfl⟩ := Prod.mk.inj he
        exact ⟨rfl, rfl⟩
      · obtain ⟨rfl, rfl⟩ := Prod.mk.inj (Option.some.inj hn)
        exact ⟨rfl, rfl⟩
  | findNext p c =>
    simp only [next] at hn
    obtain ⟨d, _, he⟩ := Option.map_eq_some_iff.1 hn
    obtain ⟨rfl, rfl⟩ := Prod.mk.inj he
    exact ⟨rfl, rfl⟩
  | deleteLoad d n =>
    simp only [next] at hn
    split at hn <;> obtain ⟨rfl, rfl⟩ := Prod.mk.inj (Option.some.inj hn) <;> exact ⟨rfl, rfl⟩
  | deleteFlush d n =>
    obtain ⟨rfl, rfl⟩ := Prod.mk.inj (Option.some.inj hn)
    exact flush n
  | deleteStore d n =>
    obtain ⟨rfl, rfl⟩ := Prod.mk.inj (Option.some.inj hn)
    exact node_write_next (by rfl) (by rfl) x
  | trimLoad t p n =>
    obtain ⟨rfl, rfl⟩ := Prod.mk.inj (Option.some.inj hn)
    exact ⟨rfl, rfl⟩
  | trimCas t p n q =>
    simp only [next] at hn
    split at hn <;> obtain ⟨rfl, rfl⟩ := Prod.mk.inj (Option.some.inj hn)
    · next hnext => exact swing fun h => hs ⟨h, hnext⟩
    · exact ⟨rfl, rfl⟩
  | trimFree t p n =>
    obtain ⟨rfl, rfl⟩ := Prod.mk.inj (Option.some.inj hn)
    exact ⟨rfl, rfl⟩
  | validLoad d n =>
    simp only [next] at hn
    split at hn <;> obtain ⟨rfl, rfl⟩ := Prod.mk.inj (Option.some.inj hn) <;> exact ⟨rfl, rfl⟩
  | validStore d n old =>
    obtain ⟨rfl, rfl⟩ := Prod.mk.inj (Option.some.inj hn)
    exact node_write_next (by rfl) (by rfl) x
  | insertLoad b n =>
    simp only [next] at hn
    split at hn <;> obtain ⟨rfl, rfl⟩ := Prod.mk.inj (Option.some.inj hn) <;> exact ⟨rfl, rfl⟩
  | insertFlush b n =>
    obtain ⟨rfl, rfl⟩ := Prod.mk.inj (Option.some.inj hn)
    exact flush n
  | insertStore b n =>
    obtain ⟨rfl, rfl⟩ := Prod.mk.inj (Option.some.inj hn)
    exact node_write_next (by rfl) (by rfl) x
  | alloc p c =>
    obtain ⟨rfl, rfl⟩ := Prod.mk.inj (Option.some.inj hn)
    exact ⟨rfl, rfl⟩
  | flipLoad p c n =>
    obtain ⟨rfl, rfl⟩ := Prod.mk.inj (Option.some.inj hn)
    exact ⟨rfl, rfl⟩
  | initValue p c n =>
    cases op with
    | insert k v =>
      obtain ⟨rfl, rfl⟩ := Prod.mk.inj (Option.some.inj hn)
      exact node_write_private ho
    | remove k => cases hn
    | contains k => cases hn
  | linkCas p c n =>
    simp only [next] at hn
    split at hn <;> obtain ⟨rfl, rfl⟩ := Prod.mk.inj (Option.some.inj hn)
    · next hnext => exact swing fun h => hs ⟨h, hnext⟩
    · exact ⟨rfl, rfl⟩
  | lostFree n =>
    obtain ⟨rfl, rfl⟩ := Prod.mk.inj (Option.some.inj hn)
    exact ⟨rfl, rfl⟩
  | removeLoad p n =>
    obtain ⟨rfl, rfl⟩ := Prod.mk.inj (Option.some.inj hn)
    exact ⟨rfl, rfl⟩
  | markCas p n q =>
    simp only [next] at hn
    split at hn <;> obtain ⟨rfl, rfl⟩ := Prod.mk.inj (Option.some.inj hn)
    · next hnext => exact swing fun h => hs ⟨h, hnext⟩
    · exact ⟨rfl, rfl⟩
  | containsHead =>
    simp only [next] at hn
    split at hn
    · obtain ⟨rfl, rfl⟩ := Prod.mk.inj (Option.some.inj hn)
      exact ⟨rfl, rfl⟩
    · cases hn
  | containsWalk c =>
    simp only [next] at hn
    split at hn
    · obtain ⟨d, _, he⟩ := Option.map_eq_some_iff.1 hn
      obtain ⟨rfl, rfl⟩ := Prod.mk.inj he
      exact ⟨rfl, rfl⟩
    · split at hn
      · obtain ⟨rfl, rfl⟩ := Prod.mk.inj (Option.some.inj hn)
        exact ⟨rfl, rfl⟩
      · split at hn <;> obtain ⟨rfl, rfl⟩ := Prod.mk.inj (Option.some.inj hn) <;> exact ⟨rfl, rfl⟩
  | ret b n => cases hn
  | _ =>
    obtain ⟨rfl, rfl⟩ := Prod.mk.inj (Option.some.inj hn)
    exact node_write_private ho

theorem tau_cases (fresh : ∀ n, pc.owns = some n → ¬ σ.heap.Live R n)
    (hn : next σ op slot pc = some (σ', pc')) :
    (∃ p c n, pc = .linkCas p c n ∧ (σ.node p).next = Ptr.addr c ∧
      σ' = σ.write p { σ.node p with next := Ptr.addr n }) ∨
    (∃ p n q, pc = .markCas p n q ∧ (σ.node n).next = q ∧
      σ' = σ.write n { σ.node n with next := q.mark }) ∨
    (∃ c p n q, pc = .trimCas c p n q ∧ (σ.node p).next = Ptr.addr n ∧
      σ' = σ.write p { σ.node p with next := q }) ∨
    ((∀ x, ¬ pc.swings σ x) ∧ ∀ x, σ.heap.Live R x →
      (σ'.node x).next = (σ.node x).next ∧ (σ'.node x).key = (σ.node x).key) := by
  by_cases hs : ∃ x, pc.swings σ x
  · obtain ⟨x, hs⟩ := hs
    cases pc with
    | linkCas p c n =>
      simp only [next, if_pos hs.2] at hn
      obtain ⟨rfl, rfl⟩ := Prod.mk.inj (Option.some.inj hn)
      exact Or.inl ⟨p, c, n, rfl, hs.2, rfl⟩
    | markCas p n q =>
      simp only [next, if_pos hs.2] at hn
      obtain ⟨rfl, rfl⟩ := Prod.mk.inj (Option.some.inj hn)
      exact Or.inr (Or.inl ⟨p, n, q, rfl, hs.2, rfl⟩)
    | trimCas c p n q =>
      simp only [next, if_pos hs.2] at hn
      obtain ⟨rfl, rfl⟩ := Prod.mk.inj (Option.some.inj hn)
      exact Or.inr (Or.inr (Or.inl ⟨c, p, n, q, rfl, hs.2, rfl⟩))
    | _ => exact hs.elim
  · have hs' : ∀ x, ¬ pc.swings σ x := fun x h => hs ⟨x, h⟩
    exact Or.inr (Or.inr (Or.inr ⟨hs', fun x hx => next_frame hn (fun h => fresh x h hx) (hs' x)⟩))

theorem ref_of_head {q : Ptr} (hq : (σ.node head).next = q) (hc : q.ref = some c) :
    σ.heap.Linked c := Heap.Reach.single ((congrArg Ptr.ref hq).trans hc)

theorem mem_afterDelete_refs {d : DeleteCtx} {r : Loc} (hr : r ∈ (afterDelete n d).refs) :
    r ∈ d.refs n := by
  cases d with
  | trim c p => exact hr
  | contains => simp [afterDelete, Pc.refs] at hr

theorem mem_afterValid_refs {d : ValidCtx} {r : Loc} (hr : r ∈ (afterValid n d).refs) :
    r ∈ d.refs n := by
  cases d with
  | lost => simp [afterValid, Pc.refs] at hr
  | _ => exact hr

theorem mem_afterTrim_refs {t : TrimCtx} {r : Loc} (hr : r ∈ (afterTrim p n t).refs) :
    r = p ∨ r = n := by
  cases t with
  | inFind => simpa [afterTrim, Pc.refs] using hr
  | inRemove => simp [afterTrim, Pc.refs] at hr

theorem refs_step (hn : next σ op slot pc = some (σ', pc')) :
    ∀ r ∈ pc'.refs, (∃ q ∈ head :: pc.refs, σ.heap.Reach q r) ∨
      (∃ p c, pc = .linkCas p c r ∧ (σ.node p).next = Ptr.addr c) := by
  intro r hr
  have keep : r ∈ pc.refs → (∃ q ∈ head :: pc.refs, σ.heap.Reach q r) ∨
      (∃ p c, pc = .linkCas p c r ∧ (σ.node p).next = Ptr.addr c) :=
    fun h => Or.inl ⟨r, List.mem_cons_of_mem _ h, Heap.Reach.refl r⟩
  have succ : ∀ q ∈ pc.refs, (σ.node q).next.ref = some r →
      (∃ q ∈ head :: pc.refs, σ.heap.Reach q r) ∨
      (∃ p c, pc = .linkCas p c r ∧ (σ.node p).next = Ptr.addr c) :=
    fun q hq hs => Or.inl ⟨q, List.mem_cons_of_mem _ hq, Heap.Reach.single hs⟩
  cases pc with
  | find =>
    simp only [next] at hn
    split at hn
    · next c hc =>
      obtain ⟨rfl, rfl⟩ := Prod.mk.inj (Option.some.inj hn)
      refine Or.inl ⟨head, List.mem_cons_self, ?_⟩
      simp only [Pc.refs, List.mem_cons, List.not_mem_nil, or_false] at hr
      rcases hr with rfl | rfl
      · exact Heap.Reach.refl _
      · exact ref_of_head hc rfl
    · cases hn
  | findTest p c =>
    simp only [next] at hn
    split at hn
    · obtain ⟨rfl, rfl⟩ := Prod.mk.inj (Option.some.inj hn)
      exact keep hr
    · split at hn
      · obtain ⟨q, ha, he⟩ := Option.map_eq_some_iff.1 hn
        obtain ⟨rfl, rfl⟩ := Prod.mk.inj he
        refine keep ?_
        cases op <;> simp only [afterFind] at ha <;> try cases ha
        all_goals
          split at ha <;> obtain rfl := Option.some.inj ha <;>
            simp_all [Pc.refs, ValidCtx.refs]
      · obtain ⟨rfl, rfl⟩ := Prod.mk.inj (Option.some.inj hn)
        exact keep (by simp_all [Pc.refs])
  | findNext p c =>
    simp only [next] at hn
    obtain ⟨d, hd, he⟩ := Option.map_eq_some_iff.1 hn
    obtain ⟨rfl, rfl⟩ := Prod.mk.inj he
    simp only [Pc.refs, List.mem_cons, List.not_mem_nil, or_false] at hr
    rcases hr with rfl | rfl
    · exact keep (by simp [Pc.refs])
    · exact succ c (by simp [Pc.refs]) hd
  | deleteLoad d n =>
    simp only [next] at hn
    split at hn <;> obtain ⟨rfl, rfl⟩ := Prod.mk.inj (Option.some.inj hn)
    · exact keep (mem_afterDelete_refs hr)
    · exact keep hr
  | deleteFlush d n =>
    obtain ⟨rfl, rfl⟩ := Prod.mk.inj (Option.some.inj hn)
    exact keep hr
  | deleteStore d n =>
    obtain ⟨rfl, rfl⟩ := Prod.mk.inj (Option.some.inj hn)
    exact keep (mem_afterDelete_refs hr)
  | trimLoad t p n =>
    obtain ⟨rfl, rfl⟩ := Prod.mk.inj (Option.some.inj hn)
    simp only [Pc.refs, ptrRefs, Ptr.getRef, List.mem_cons, Option.mem_toList] at hr
    rcases hr with rfl | rfl | hr
    · exact keep (by simp [Pc.refs])
    · exact keep (by simp [Pc.refs])
    · exact succ n (by simp [Pc.refs]) hr
  | trimCas t p n q =>
    simp only [next] at hn
    split at hn <;> obtain ⟨rfl, rfl⟩ := Prod.mk.inj (Option.some.inj hn)
    · exact keep (by simp only [Pc.refs, List.mem_cons, List.not_mem_nil, or_false] at hr ⊢; tauto)
    · rcases mem_afterTrim_refs hr with rfl | rfl <;> exact keep (by simp [Pc.refs])
  | trimFree t p n =>
    obtain ⟨rfl, rfl⟩ := Prod.mk.inj (Option.some.inj hn)
    rcases mem_afterTrim_refs hr with rfl | rfl <;> exact keep (by simp [Pc.refs])
  | validLoad d n =>
    simp only [next] at hn
    split at hn <;> obtain ⟨rfl, rfl⟩ := Prod.mk.inj (Option.some.inj hn)
    · exact keep (mem_afterValid_refs hr)
    · exact keep hr
  | validStore d n old =>
    obtain ⟨rfl, rfl⟩ := Prod.mk.inj (Option.some.inj hn)
    exact keep (mem_afterValid_refs hr)
  | insertLoad b n =>
    simp only [next] at hn
    split at hn <;> obtain ⟨rfl, rfl⟩ := Prod.mk.inj (Option.some.inj hn)
    · simp [Pc.refs] at hr
    · exact keep hr
  | linkCas p c n =>
    simp only [next] at hn
    split at hn <;> obtain ⟨rfl, rfl⟩ := Prod.mk.inj (Option.some.inj hn)
    · next hnext =>
      obtain rfl : r = n := by simpa [Pc.refs, ValidCtx.refs] using hr
      exact Or.inr ⟨p, c, rfl, hnext⟩
    · simp [Pc.refs] at hr
  | initValue p c n =>
    cases op with
    | insert k v =>
      obtain ⟨rfl, rfl⟩ := Prod.mk.inj (Option.some.inj hn)
      exact keep hr
    | remove k => cases hn
    | contains k => cases hn
  | lostStore n =>
    obtain ⟨rfl, rfl⟩ := Prod.mk.inj (Option.some.inj hn)
    simp [Pc.refs, ValidCtx.refs] at hr
  | lostFree n =>
    obtain ⟨rfl, rfl⟩ := Prod.mk.inj (Option.some.inj hn)
    simp [Pc.refs] at hr
  | removeLoad p n =>
    obtain ⟨rfl, rfl⟩ := Prod.mk.inj (Option.some.inj hn)
    simp only [Pc.refs, ValidCtx.refs, ptrRefs, Ptr.getRef, List.mem_cons, Option.mem_toList] at hr
    rcases hr with rfl | rfl | hr
    · exact keep (by simp [Pc.refs])
    · exact keep (by simp [Pc.refs])
    · exact succ n (by simp [Pc.refs]) hr
  | markCas p n q =>
    simp only [next] at hn
    split at hn <;> obtain ⟨rfl, rfl⟩ := Prod.mk.inj (Option.some.inj hn)
    · exact keep (by simp only [Pc.refs, DeleteCtx.refs, List.mem_cons, List.not_mem_nil,
        or_false] at hr ⊢; tauto)
    · simp [Pc.refs] at hr
  | containsHead =>
    simp only [next] at hn
    split at hn
    · next c hc =>
      obtain ⟨rfl, rfl⟩ := Prod.mk.inj (Option.some.inj hn)
      obtain rfl : r = c := by simpa [Pc.refs] using hr
      exact Or.inl ⟨head, List.mem_cons_self, ref_of_head hc rfl⟩
    · cases hn
  | containsWalk c =>
    simp only [next] at hn
    split at hn
    · obtain ⟨d, hd, he⟩ := Option.map_eq_some_iff.1 hn
      obtain ⟨rfl, rfl⟩ := Prod.mk.inj he
      obtain rfl : r = d := by simpa [Pc.refs] using hr
      exact succ c (by simp [Pc.refs]) hd
    · split at hn
      · obtain ⟨rfl, rfl⟩ := Prod.mk.inj (Option.some.inj hn)
        simp [Pc.refs] at hr
      · split at hn <;> obtain ⟨rfl, rfl⟩ := Prod.mk.inj (Option.some.inj hn) <;> exact keep hr
  | ret b n => cases hn
  | insertStore b n =>
    obtain ⟨rfl, rfl⟩ := Prod.mk.inj (Option.some.inj hn)
    simp [Pc.refs] at hr
  | _ =>
    obtain ⟨rfl, rfl⟩ := Prod.mk.inj (Option.some.inj hn)
    exact keep hr

/-! ### What a call has learnt since it started -/

section Trail

variable (ρ : Run (machine V)) (k : ℤ) (i m : ℕ)

def ValidAt (x : Loc) : Prop :=
  ∃ j, i < j ∧ j ≤ m ∧ AllValid ((ρ.state j).store.line x)

def MarkedAt (x : Loc) : Prop :=
  ∃ j, i < j ∧ j ≤ m ∧ AllMarked ((ρ.state j).store.line x)

-- at some moment no node of the key was linked, or one was but its mark is in NVRAM now
def Absent : Prop :=
  Missing (heaps ρ) (k : WithBot ℤ) i m ∨
    ∃ x, Dying (heaps ρ) (k : WithBot ℤ) i m x ∧ MarkedAt ρ i m x

def Below (x : Loc) : Prop := rank (ρ.state m).store x < (k : WithBot ℤ) ∨ Absent ρ k i m

def TrimTrail (x : Loc) : TrimCtx → Prop
  | .inFind => Below ρ k i m x
  | .inRemove => Found (heaps ρ) (k : WithBot ℤ) i m x

def DeleteTrail (x : Loc) : DeleteCtx → Prop
  | .trim .inFind _ => Below ρ k i m x ∨ Dying (heaps ρ) (k : WithBot ℤ) i m x
  | .trim .inRemove _ => Found (heaps ρ) (k : WithBot ℤ) i m x
  | .contains => Dying (heaps ρ) (k : WithBot ℤ) i m x

def ValidTrail (x : Loc) : ValidCtx → Prop
  | .lost => True
  | .removing _ _ => True
  | _ => Found (heaps ρ) (k : WithBot ℤ) i m x

def RetTrail (x : Loc) (r : Bool) : SetOp V → Prop
  | .insert _ _ => Found (heaps ρ) (k : WithBot ℤ) i m x ∧ ValidAt ρ i m x
  | .remove _ =>
    if r then Found (heaps ρ) (k : WithBot ℤ) i m x ∧ MarkedAt ρ i m x else Absent ρ k i m
  | .contains _ =>
    if r then Found (heaps ρ) (k : WithBot ℤ) i m x ∧ ValidAt ρ i m x else Absent ρ k i m

def Trail (op : SetOp V) : Pc → Prop
  | .findTest _ c => rank (ρ.state m).store c ≤ (op.key : ℤ) ∨ Absent ρ op.key i m
  | .findNext _ c => Below ρ op.key i m c
  | .deleteLoad d n => DeleteTrail ρ op.key i m n d
  | .deleteFlush d n => DeleteTrail ρ op.key i m n d
  | .deleteStore d n => DeleteTrail ρ op.key i m n d
  | .trimLoad t _ n => TrimTrail ρ op.key i m n t
  | .trimCas t _ n _ => TrimTrail ρ op.key i m n t
  | .trimFree t _ n => TrimTrail ρ op.key i m n t
  | .validLoad d n => ValidTrail ρ op.key i m n d
  | .validStore d n _ => ValidTrail ρ op.key i m n d
  | .insertLoad _ n => Found (heaps ρ) (op.key : ℤ) i m n
  | .insertFlush _ n => Found (heaps ρ) (op.key : ℤ) i m n
  | .insertStore _ n => Found (heaps ρ) (op.key : ℤ) i m n
  | .containsWalk c => rank (ρ.state m).store c ≤ (op.key : ℤ) ∨ Absent ρ op.key i m
  | .ret r n => RetTrail ρ op.key i m n r op
  | _ => True

end Trail

section Grow

variable {ρ : Run (machine V)} {k : ℤ} {i m : ℕ} {r : Bool}

theorem ValidAt.succ (h : ValidAt ρ i m x) : ValidAt ρ i (m + 1) x := by
  obtain ⟨j, h1, h2, h3⟩ := h
  exact ⟨j, h1, by omega, h3⟩

theorem MarkedAt.succ (h : MarkedAt ρ i m x) : MarkedAt ρ i (m + 1) x := by
  obtain ⟨j, h1, h2, h3⟩ := h
  exact ⟨j, h1, by omega, h3⟩

theorem Absent.succ (h : Absent ρ k i m) : Absent ρ k i (m + 1) := by
  rcases h with h | ⟨x, h, h'⟩
  · exact Or.inl (h.mono (Nat.le_succ m))
  · exact Or.inr ⟨x, h.mono (Nat.le_succ m), h'.succ⟩

theorem Below.succ (h : Below ρ k i m x)
    (hr : rank (ρ.state (m + 1)).store x = rank (ρ.state m).store x) : Below ρ k i (m + 1) x :=
  h.imp (fun h => hr.symm ▸ h) Absent.succ

theorem TrimTrail.succ {t : TrimCtx} (h : TrimTrail ρ k i m x t)
    (hr : rank (ρ.state (m + 1)).store x = rank (ρ.state m).store x) :
    TrimTrail ρ k i (m + 1) x t := by
  cases t with
  | inFind => exact Below.succ h hr
  | inRemove => exact Found.succ h

theorem DeleteTrail.succ {d : DeleteCtx} (h : DeleteTrail ρ k i m x d)
    (hr : rank (ρ.state (m + 1)).store x = rank (ρ.state m).store x) :
    DeleteTrail ρ k i (m + 1) x d := by
  cases d with
  | trim t p =>
    cases t with
    | inFind => exact h.imp (fun h => Below.succ h hr) Dying.succ
    | inRemove => exact Found.succ h
  | contains => exact Dying.succ h

theorem ValidTrail.succ {d : ValidCtx} (h : ValidTrail ρ k i m x d) :
    ValidTrail ρ k i (m + 1) x d := by
  cases d with
  | lost => trivial
  | removing p q => trivial
  | _ => exact Found.succ h

theorem RetTrail.succ (h : RetTrail ρ k i m x r op) : RetTrail ρ k i (m + 1) x r op := by
  cases op with
  | insert k' v => exact ⟨Found.succ h.1, h.2.succ⟩
  | remove k' =>
    cases r with
    | true => exact ⟨Found.succ h.1, h.2.succ⟩
    | false => exact Absent.succ h
  | contains k' =>
    cases r with
    | true => exact ⟨Found.succ h.1, h.2.succ⟩
    | false => exact Absent.succ h

theorem Trail.succ (h : Trail ρ i m op pc)
    (hr : ∀ r ∈ pc.refs, rank (ρ.state (m + 1)).store r = rank (ρ.state m).store r) :
    Trail ρ i (m + 1) op pc := by
  cases pc with
  | findTest p c => exact h.imp (fun h => (hr c (by simp [Pc.refs])).symm ▸ h) Absent.succ
  | findNext p c => exact Below.succ h (hr c (by simp [Pc.refs]))
  | deleteLoad d n => exact DeleteTrail.succ h (hr n (d.mem_refs n))
  | deleteFlush d n => exact DeleteTrail.succ h (hr n (d.mem_refs n))
  | deleteStore d n => exact DeleteTrail.succ h (hr n (d.mem_refs n))
  | trimLoad t p n => exact TrimTrail.succ h (hr n (by simp [Pc.refs]))
  | trimCas t p n q => exact TrimTrail.succ h (hr n (by simp [Pc.refs]))
  | trimFree t p n => exact TrimTrail.succ h (hr n (by simp [Pc.refs]))
  | validLoad d n => exact ValidTrail.succ h
  | validStore d n old => exact ValidTrail.succ h
  | insertLoad b n => exact Found.succ h
  | insertFlush b n => exact Found.succ h
  | insertStore b n => exact Found.succ h
  | containsWalk c => exact h.imp (fun h => (hr c (by simp [Pc.refs])).symm ▸ h) Absent.succ
  | ret b n => exact RetTrail.succ h
  | _ => trivial

theorem afterDelete_trail {d : DeleteCtx} (hf : d.Fits op) (h : DeleteTrail ρ op.key i m n d)
    (hd : MarkedAt ρ i m n) : Trail ρ i m op (afterDelete n d) := by
  cases d with
  | trim t p =>
    cases t with
    | inFind =>
      rcases h with h | h
      · exact h
      · exact Or.inr (Or.inr ⟨n, h, hd⟩)
    | inRemove => exact h
  | contains =>
    cases op with
    | contains k => exact Or.inr ⟨n, h, hd⟩
    | _ => exact hf.elim

theorem afterTrim_trail {t : TrimCtx} (hi : i < m) (hf : t.Fits op)
    (h : TrimTrail ρ op.key i m n t) (ho : TrimOk (ρ.state m).store op t p n) :
    Trail ρ i m op (afterTrim p n t) := by
  cases t with
  | inFind => exact h
  | inRemove =>
    cases op with
    | remove k => exact ⟨h, m, hi, le_rfl, ho.2.2.1⟩
    | _ => exact hf.elim

theorem afterValid_trail {d : ValidCtx} (h : ValidTrail ρ op.key i m n d) :
    Trail ρ i m op (afterValid n d) := by
  cases d with
  | lost => trivial
  | removing p q => trivial
  | _ => exact h

theorem ret_trail (hf : op.IsInsert ∨ (op.IsContains ∧ r = true))
    (h : Found (heaps ρ) (op.key : WithBot ℤ) i m n) (hv : ValidAt ρ i m n) :
    Trail ρ i m op (.ret r n) := by
  cases op with
  | insert k v => exact ⟨h, hv⟩
  | remove k => exact hf.elim False.elim fun hf => hf.1.elim
  | contains k =>
    obtain ⟨_, rfl⟩ := hf.resolve_left id
    exact ⟨h, hv⟩

theorem walk_trail (hm : m ≤ ρ.length) (hi : i < m) (hs : Seen (heaps ρ) i m x)
    (hlt : rank (ρ.state m).store x < (k : WithBot ℤ))
    (hy : ((ρ.state m).store.node x).next.ref = some y) :
    rank (ρ.state m).store y ≤ k ∨ Absent ρ k i m :=
  (hs.next (fun j hj => sorted_run ρ (by omega)) hi hy hlt).imp_right Or.inl

theorem found_now (hm : m ≤ ρ.length) (hi : i < m)
    (hx : (ρ.state m).store.heap.Live (ρ.state m).roots x)
    (hd : ¬ (ρ.state m).store.heap.dead x) (hr : rank (ρ.state m).store x = (k : WithBot ℤ)) :
    Found (heaps ρ) (k : WithBot ℤ) i m x :=
  ⟨m, hi, le_rfl, (sorted_run ρ hm).good.alive hx hd, hd, hr⟩

theorem head_trail (hm : m ≤ ρ.length) (hi : i < m)
    (hy : ((ρ.state m).store.node head).next.ref = some y) :
    rank (ρ.state m).store y ≤ k ∨ Absent ρ k i m := by
  refine walk_trail (x := head) hm hi (Or.inl (Heap.Reach.refl _)) ?_ hy
  rw [rank_head]
  exact WithBot.bot_lt_coe _

theorem findTest_trail (hm : m ≤ ρ.length) (hi : i < m)
    (f : Fit (ρ.state m).store (ρ.state m).roots op (.findTest p c))
    (hs : SeenFrom (heaps ρ) i m c) (tr : Trail ρ i m op (.findTest p c))
    (hn : next (ρ.state m).store op slot (.findTest p c) = some (σ', pc')) :
    Trail ρ i m op pc' := by
  have hc : c ≠ head := f.loc.2
  have hrc := rank_of_ne (ρ.state m).store hc
  have hcl := f.refs c (by simp [Pc.refs])
  have found : ¬ ((ρ.state m).store.node c).isMarked = true →
      ((ρ.state m).store.node c).key = op.key → Found (heaps ρ) (op.key : WithBot ℤ) i m c :=
    fun hd he => found_now hm hi hcl hd (hrc.trans (congrArg _ he))
  have absent : op.key ≤ ((ρ.state m).store.node c).key →
      ((ρ.state m).store.node c).key ≠ op.key → Absent ρ op.key i m := by
    intro hle hne
    refine tr.resolve_left fun hle' => hne ?_
    rw [hrc] at hle'
    exact le_antisymm (WithBot.coe_le_coe.1 hle') hle
  simp only [next] at hn
  split at hn
  · next hmk =>
    obtain ⟨rfl, rfl⟩ := Prod.mk.inj (Option.some.inj hn)
    rcases tr with hle | ha
    · rcases lt_or_eq_of_le hle with hlt | heq
      · exact Or.inl (Or.inl hlt)
      · exact Or.inr (hs.self.dying hi hmk heq)
    · exact Or.inl (Or.inr ha)
  · next hmk =>
    split at hn
    · next hle =>
      obtain ⟨q, ha, he⟩ := Option.map_eq_some_iff.1 hn
      obtain ⟨rfl, rfl⟩ := Prod.mk.inj he
      cases op with
      | insert k v =>
        simp only [afterFind] at ha
        split at ha <;> obtain rfl := Option.some.inj ha
        · next hk => exact found hmk hk
        · trivial
      | remove k =>
        simp only [afterFind] at ha
        split at ha <;> obtain rfl := Option.some.inj ha
        · trivial
        · next hne => exact absent hle hne
      | contains k => cases ha
    · next hle =>
      obtain ⟨rfl, rfl⟩ := Prod.mk.inj (Option.some.inj hn)
      refine Or.inl ?_
      rw [hrc]
      exact WithBot.coe_lt_coe.2 (not_le.1 hle)

theorem findNext_trail (hm : m ≤ ρ.length) (hi : i < m) (hs : SeenFrom (heaps ρ) i m c)
    (tr : Trail ρ i m op (.findNext p c))
    (hn : next (ρ.state m).store op slot (.findNext p c) = some (σ', pc')) :
    Trail ρ i m op pc' := by
  simp only [next] at hn
  obtain ⟨d, hd, he⟩ := Option.map_eq_some_iff.1 hn
  obtain ⟨rfl, rfl⟩ := Prod.mk.inj he
  rcases tr with hlt | ha
  · exact walk_trail hm hi hs.self hlt hd
  · exact Or.inr ha

theorem containsWalk_trail (hm : m ≤ ρ.length) (hi : i < m)
    (f : Fit (ρ.state m).store (ρ.state m).roots op (.containsWalk c))
    (hs : SeenFrom (heaps ρ) i m c) (tr : Trail ρ i m op (.containsWalk c))
    (hn : next (ρ.state m).store op slot (.containsWalk c) = some (σ', pc')) :
    Trail ρ i m op pc' := by
  have hrc := rank_of_ne (ρ.state m).store f.loc
  have hcl := f.refs c (by simp [Pc.refs])
  simp only [next] at hn
  split at hn
  · next hlt =>
    obtain ⟨d, hd, he⟩ := Option.map_eq_some_iff.1 hn
    obtain ⟨rfl, rfl⟩ := Prod.mk.inj he
    exact walk_trail hm hi hs.self (hrc ▸ WithBot.coe_lt_coe.2 hlt) hd
  · next hlt =>
    split at hn
    · next hne =>
      obtain ⟨rfl, rfl⟩ := Prod.mk.inj (Option.some.inj hn)
      have hno : ¬ rank (ρ.state m).store c ≤ (op.key : ℤ) := by
        intro hle
        rw [hrc] at hle
        exact hne (le_antisymm (WithBot.coe_le_coe.1 hle) (not_lt.1 hlt))
      have hcon := f.fits
      cases op with
      | contains k => exact tr.resolve_left hno
      | _ => exact hcon.elim
    · next he =>
      have hk : rank (ρ.state m).store c = (op.key : ℤ) := by rw [hrc, not_not.1 he]
      split at hn <;> obtain ⟨rfl, rfl⟩ := Prod.mk.inj (Option.some.inj hn)
      · next hmk => exact hs.self.dying hi hmk hk
      · next hmk => exact found_now hm hi hcl hmk hk

theorem Trail.own (hm : m ≤ ρ.length) (hi : i < m)
    (f : Fit (ρ.state m).store (ρ.state m).roots op pc)
    (hs : ∀ r ∈ pc.refs, SeenFrom (heaps ρ) i m r) (tr : Trail ρ i m op pc)
    (hn : next (ρ.state m).store op slot pc = some (σ', pc'))
    (hl : ∀ p c n, pc = .linkCas p c n → ((ρ.state m).store.node p).next ≠ Ptr.addr c) :
    Trail ρ i m op pc' := by
  have hmem := (inv_run ρ m hm).mem
  cases pc with
  | find =>
    simp only [next] at hn
    split at hn
    · next c hc =>
      obtain ⟨rfl, rfl⟩ := Prod.mk.inj (Option.some.inj hn)
      exact head_trail hm hi (congrArg Ptr.ref hc)
    · cases hn
  | findTest p c => exact findTest_trail hm hi f (hs c (by simp [Pc.refs])) tr hn
  | findNext p c => exact findNext_trail hm hi (hs c (by simp [Pc.refs])) tr hn
  | deleteLoad d n =>
    simp only [next] at hn
    split at hn <;> obtain ⟨rfl, rfl⟩ := Prod.mk.inj (Option.some.inj hn)
    · next hfl =>
      have hnl := f.refs n (d.mem_refs n)
      exact afterDelete_trail f.fits tr ⟨m, hi, le_rfl, hmem.deleteFlag hnl hfl⟩
    · exact tr
  | deleteFlush d n =>
    obtain ⟨rfl, rfl⟩ := Prod.mk.inj (Option.some.inj hn)
    exact tr
  | deleteStore d n =>
    obtain ⟨rfl, rfl⟩ := Prod.mk.inj (Option.some.inj hn)
    exact afterDelete_trail f.fits tr ⟨m, hi, le_rfl, f.loc.2⟩
  | trimLoad t p n =>
    obtain ⟨rfl, rfl⟩ := Prod.mk.inj (Option.some.inj hn)
    exact tr
  | trimCas t p n q =>
    simp only [next] at hn
    split at hn <;> obtain ⟨rfl, rfl⟩ := Prod.mk.inj (Option.some.inj hn)
    · exact tr
    · exact afterTrim_trail hi f.fits tr f.loc.1
  | trimFree t p n =>
    obtain ⟨rfl, rfl⟩ := Prod.mk.inj (Option.some.inj hn)
    exact afterTrim_trail hi f.fits tr f.loc
  | validLoad d n =>
    simp only [next] at hn
    split at hn <;> obtain ⟨rfl, rfl⟩ := Prod.mk.inj (Option.some.inj hn)
    · exact afterValid_trail tr
    · exact tr
  | validStore d n old =>
    obtain ⟨rfl, rfl⟩ := Prod.mk.inj (Option.some.inj hn)
    exact afterValid_trail tr
  | insertLoad b n =>
    simp only [next] at hn
    split at hn <;> obtain ⟨rfl, rfl⟩ := Prod.mk.inj (Option.some.inj hn)
    · next hfl =>
      have hnl := f.refs n (by simp [Pc.refs])
      exact ret_trail f.fits tr ⟨m, hi, le_rfl, hmem.insertFlag hnl hfl⟩
    · exact tr
  | insertFlush b n =>
    obtain ⟨rfl, rfl⟩ := Prod.mk.inj (Option.some.inj hn)
    exact tr
  | insertStore b n =>
    obtain ⟨rfl, rfl⟩ := Prod.mk.inj (Option.some.inj hn)
    exact ret_trail f.fits tr ⟨m, hi, le_rfl, f.loc.2⟩
  | linkCas p c n =>
    simp only [next, if_neg (hl p c n rfl)] at hn
    obtain ⟨rfl, rfl⟩ := Prod.mk.inj (Option.some.inj hn)
    trivial
  | initValue p c n =>
    cases op with
    | insert k v =>
      obtain ⟨rfl, rfl⟩ := Prod.mk.inj (Option.some.inj hn)
      trivial
    | remove k => cases hn
    | contains k => cases hn
  | markCas p n q =>
    simp only [next] at hn
    split at hn <;> obtain ⟨rfl, rfl⟩ := Prod.mk.inj (Option.some.inj hn)
    · next hnext =>
      obtain ⟨_, hrn, _, hum⟩ := f.loc
      refine found_now hm hi (f.refs n (by simp [Pc.refs])) ?_ hrn
      change ¬ ((ρ.state m).store.node n).next.marked = true
      rw [hnext, hum]
      exact Bool.false_ne_true
    · trivial
  | containsHead =>
    simp only [next] at hn
    split at hn
    · next c hc =>
      obtain ⟨rfl, rfl⟩ := Prod.mk.inj (Option.some.inj hn)
      exact head_trail hm hi (congrArg Ptr.ref hc)
    · cases hn
  | containsWalk c => exact containsWalk_trail hm hi f (hs c (by simp [Pc.refs])) tr hn
  | ret b n => cases hn
  | _ =>
    obtain ⟨rfl, rfl⟩ := Prod.mk.inj (Option.some.inj hn)
    trivial

end Grow

theorem tau_inv {s s' : State V} {t : Tid} {op' : SetOp V} (hs : Step s (.tau t) s')
    (ht : s.thread t = some (op, pc)) (ht' : s'.thread t = some (op', pc')) :
    ∃ slot σ, next s.store op slot pc = some (σ, pc') ∧
      (∀ p c, pc = .alloc p c → s.Recyclable slot) ∧ s' = s.goto σ t (some (op, pc')) := by
  cases hs with
  | tau _ op1 pc1 pc2 slot σ h hn hs =>
    rw [ht] at h
    obtain ⟨rfl, rfl⟩ := Prod.mk.inj (Option.some.inj h)
    rw [goto_thread_self] at ht'
    obtain ⟨rfl, rfl⟩ := Prod.mk.inj (Option.some.inj ht')
    exact ⟨slot, σ, hn, hs, rfl⟩

theorem call_inv {s s' : State V} {t : Tid} {op' : SetOp V} (hs : Step s (.call t op') s')
    (ht : s'.thread t = some (op, pc)) :
    pc = start op ∧ op.key < INT_MAX ∧ s'.store = s.store := by
  cases hs with
  | call _ _ idle hk =>
    rw [goto_thread_self] at ht
    obtain ⟨rfl, rfl⟩ := Prod.mk.inj (Option.some.inj ht)
    exact ⟨rfl, hk, rfl⟩

theorem ret_inv {s s' : State V} {t : Tid} {r : Bool} (hs : Step s (.ret t r) s') :
    ∃ op x, s.thread t = some (op, .ret r x) ∧ s'.store = s.store := by
  cases hs with
  | ret _ op _ x ht => exact ⟨op, x, ht, rfl⟩

theorem link_found {ρ : Run (machine V)} {i m : ℕ} (hm : m < ρ.length) (hi : i < m)
    (f : Fit (ρ.state m).store (ρ.state m).roots op (.linkCas p c n))
    (hnext : ((ρ.state m).store.node p).next = Ptr.addr c)
    (hσ : (ρ.state (m + 1)).store =
      (ρ.state m).store.write p { (ρ.state m).store.node p with next := Ptr.addr n }) :
    (heaps ρ (m + 1)).Linked n ∧ Found (heaps ρ) (op.key : WithBot ℤ) i (m + 1) n := by
  have hg := (sorted_run ρ hm.le).good
  have hpl := f.refs p (by simp [Pc.refs])
  have hfresh := f.fresh n rfl
  obtain ⟨_, _, _, _, hu, hnn⟩ := f.loc
  have hnh : n ≠ head := by
    rintro rfl
    exact hfresh (Heap.Live.root hg.head_root)
  have sp := link_splice hpl hnext hfresh hnn
  rw [← hσ] at sp
  have hlink : (heaps ρ (m + 1)).Linked n := (sp.linked hg).2 (Or.inr rfl)
  refine ⟨hlink, m + 1, by omega, le_rfl, hlink, sp.new_alive', ?_⟩
  change rank (ρ.state (m + 1)).store n = _
  rw [hσ, next_rank, rank_of_ne _ hnh, hu.1]

theorem trail_run (ρ : Run (machine V)) : ∀ m ≤ ρ.length, ∀ {t op pc},
    (ρ.state m).thread t = some (op, pc) → ∃ i, ρ.Active t op i m ∧
      (∀ r ∈ pc.refs, SeenFrom (heaps ρ) i m r) ∧ Trail ρ i m op pc := by
  refine ρ.active_inv (F := fun i m _ op pc =>
    (∀ r ∈ pc.refs, SeenFrom (heaps ρ) i m r) ∧ Trail ρ i m op pc) ?_ ?_ ?_
  · intro m t op pc hm he _ ht
    have hs := ρ.step hm
    rw [he] at hs
    obtain ⟨rfl, _, _⟩ := call_inv hs ht
    cases op <;> exact ⟨fun r h => by simp [start, Pc.refs] at h, trivial⟩
  · rintro i m t op pc pc' hm ha he ht ht' ⟨seen, tr⟩
    have hs := ρ.step hm
    rw [he] at hs
    obtain ⟨slot, σ, hn, hrec, hst⟩ := tau_inv hs ht ht'
    have hi := inv_run ρ m hm.le
    have hi' := inv_run ρ (m + 1) hm
    have f := hi.fit ht
    have f' := hi'.fit ht'
    have ch := change_run ρ hm
    have hg := (sorted_run ρ hm.le).good
    have hσ : (ρ.state (m + 1)).store = σ := by rw [hst]; rfl
    by_cases hl : ∃ p c n, pc = .linkCas p c n ∧ ((ρ.state m).store.node p).next = Ptr.addr c
    · obtain ⟨p, c, n, rfl, hnext⟩ := hl
      simp only [next, if_pos hnext] at hn
      obtain ⟨rfl, rfl⟩ := Prod.mk.inj (Option.some.inj hn)
      obtain ⟨hlink, hfound⟩ := link_found hm ha.lt f hnext hσ
      refine ⟨fun r hr => ?_, hfound⟩
      obtain rfl : r = n := by simpa [Pc.refs, ValidCtx.refs] using hr
      exact seenFrom_of_linked hlink
    · have hold : ∀ r ∈ pc'.refs, SeenFrom (heaps ρ) i m r ∧
          (ρ.state m).store.heap.Live (ρ.state m).roots r := by
        intro r hr
        rcases refs_step hn r hr with ⟨q, hq, hqr⟩ | ⟨p, c, h⟩
        · rcases List.mem_cons.1 hq with rfl | hq
          · exact ⟨seenFrom_of_linked hqr, hg.live_of_linked hqr⟩
          · exact ⟨(seen q hq).reach hqr, (f.refs q hq).reach hqr⟩
        · exact absurd ⟨p, c, r, h⟩ hl
      refine ⟨fun r hr => (hold r hr).1.step hg ch ha.lt (hold r hr).2, ?_⟩
      refine Trail.succ (Trail.own hm.le ha.lt f seen tr hn ?_) fun r hr => ch.rank (hold r hr).2
      exact fun p c n h hnext => hl ⟨p, c, n, h, hnext⟩
  · rintro i m t op pc hm ha hne ht ht' ⟨seen, tr⟩
    have f := (inv_run ρ m hm.le).fit ht
    have ch := change_run ρ hm
    have hg := (sorted_run ρ hm.le).good
    exact ⟨fun r hr => (seen r hr).step hg ch ha.lt (f.refs r hr),
      tr.succ fun r hr => ch.rank (f.refs r hr)⟩

theorem ret_run (ρ : Run (machine V)) {t : Tid} {r : Bool} {i j : ℕ}
    (hc : ρ.Completed t op r i j) :
    ∃ x, (ρ.state j).thread t = some (op, .ret r x) ∧ op.key < INT_MAX ∧
      RetTrail ρ op.key i j x r op := by
  have hs := ρ.step hc.lt
  rw [hc.ret] at hs
  obtain ⟨op1, x, ht, _⟩ := ret_inv hs
  obtain ⟨pc, hpc⟩ := hc.active.thread hc.lt.le
  obtain ⟨rfl, rfl⟩ := Prod.mk.inj (Option.some.inj (hpc.symm.trans ht))
  obtain ⟨i', ha, _, tr⟩ := trail_run ρ j hc.lt.le ht
  obtain ⟨rfl, _⟩ := ha.unique hc.active
  exact ⟨x, ht, ((inv_run ρ j hc.lt.le).fit ht).key, tr⟩

end LinkFree.List
