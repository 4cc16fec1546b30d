import DurableSets.LinkFree.SkipListDurable

/-! What NVRAM may hold of a slot: nothing that looks like a member of the set, unless the slot is
that of a node in the list. -/

namespace LinkFree.SkipList

open Chain

variable {V : Type} {σ σ' : Store V} {L : Set Cursor} {x n slot : Loc} {level : ℕ} {op : SetOp V}
  {pc pc' : Pc} {s s' : State V} {t : Tid} {e : Event (SetOp V)} {ρ : Run (machine V)}

-- the branches of recover() of the list, on the next of level 0
def Node.recovered (n : Node V) : Bool :=
  isValid n.metaData && !(n.next 0).isMarked && (n.next 0).ref.isSome

theorem Node.recovered_iff {m : Node V} : m.recovered = true ↔
    isValid m.metaData = true ∧ (m.next 0).marked = false ∧ (m.next 0).ref ≠ none := by
  simp [Node.recovered, Ptr.isMarked, Option.isSome_iff_ne_none, and_assoc]

theorem not_recovered_of_invalid {m : Node V} (h : isValid m.metaData = false) :
    ¬ m.recovered = true := fun hr => Bool.false_ne_true (h.symm.trans (Node.recovered_iff.1 hr).1)

theorem not_recovered_of_marked {m : Node V} (h : (m.next 0).marked = true) :
    ¬ m.recovered = true := fun hr => Bool.false_ne_true ((Node.recovered_iff.1 hr).2.1.symm.trans h)

inductive Stored (σ : Store V) : Store V → Prop where
  | idle : Stored σ σ
  | write (n : Loc) (m : Node V) : Stored σ (σ.write n m)
  | flush (n : Loc) : Stored σ (σ.flush n)
  | take (n : Loc) : Stored σ (σ.take n)
  | give (n : Loc) : Stored σ (σ.give n)

theorem Stored.contents (h : Stored σ σ') {a : Node V} (ha : a ∈ (σ'.line x).contents) :
    a ∈ (σ.line x).contents ∨ a = σ'.node x := by
  cases h with
  | idle => exact Or.inl ha
  | write n m =>
    by_cases he : x = n
    · subst he
      rw [Store.write, line_setLine_self, Line.mem_write] at ha
      refine ha.symm.imp id fun h => ?_
      rw [h, node_write, if_pos rfl]
    · rw [Store.write, line_setLine_other σ _ he] at ha
      exact Or.inl ha
  | flush n =>
    by_cases he : x = n
    · subst he
      rw [Store.flush, line_setLine_self, Line.mem_flush] at ha
      exact Or.inl (ha ▸ List.mem_cons_self)
    · rw [Store.flush, line_setLine_other σ _ he] at ha
      exact Or.inl ha
  | take n => exact Or.inl ha
  | give n => exact Or.inl ha

theorem Stored.kept (h : Stored σ σ') (x : Loc) :
    (∀ a ∈ (σ.line x).contents, a ∈ (σ'.line x).contents) ∨
      ∀ a ∈ (σ'.line x).contents, a = σ'.node x := by
  cases h with
  | write n m =>
    refine Or.inl fun a ha => ?_
    by_cases he : x = n
    · subst he
      rw [Store.write, line_setLine_self, Line.mem_write]
      exact Or.inr ha
    · rwa [Store.write, line_setLine_other σ _ he]
  | flush n =>
    by_cases he : x = n
    · subst he
      refine Or.inr fun a ha => ?_
      rw [Store.flush, line_setLine_self, Line.mem_flush] at ha
      rw [ha, Store.flush, node_setLine_self]
      rfl
    · refine Or.inl fun a ha => ?_
      rwa [Store.flush, line_setLine_other σ _ he]
  | _ => exact Or.inl fun a ha => ha

theorem Stored.of_some {τ : Store V} {qc : Pc} (hn : some (τ, qc) = some (σ', pc'))
    (h : Stored σ τ) : Stored σ σ' := by
  obtain ⟨rfl, _⟩ := Prod.mk.inj (Option.some.inj hn)
  exact h

theorem Stored.of_map {α : Type} {o : Option α} {f : α → Store V × Pc}
    (hn : o.map f = some (σ', pc')) (h : ∀ e, Stored σ (f e).1) : Stored σ σ' := by
  obtain ⟨e, _, he⟩ := Option.map_eq_some_iff.1 hn
  have := h e
  rw [he] at this
  exact this

theorem Stored.ite {c : Prop} [Decidable c] {a b : Store V × Pc} (ha : Stored σ a.1)
    (hb : Stored σ b.1) : Stored σ (if c then a else b).1 := by
  split
  · exact ha
  · exact hb

theorem stored_of_next (hn : next σ op slot level pc = some (σ', pc')) : Stored σ σ' := by
  cases pc with
  | initValue path n l =>
    cases op with
    | insert k v => exact Stored.of_some hn (.write _ _)
    | _ => cases hn
  | initNext path n i => exact Stored.of_map hn fun _ => .write _ _
  | linkCas path n => exact Stored.of_map hn fun _ => .ite (.write _ _) .idle
  | upperLoad path n i =>
    simp only [next] at hn
    split at hn
    · exact Stored.of_some hn .idle
    · exact Stored.of_map hn fun _ => .idle
  | upperCas path n i q => exact Stored.of_map hn fun _ => .ite (.write _ _) .idle
  | upperLink path n i => exact Stored.of_map hn fun _ => .ite (.write _ _) .idle
  | searchDown i p path | searchNext i p c path | containsDown i p | containsNext i p c =>
    exact Stored.of_map hn fun _ => .idle
  | findLoad c i p d n path =>
    simp only [next] at hn
    split at hn
    · exact Stored.of_map hn fun _ => .idle
    · split at hn
      · exact Stored.of_some hn .idle
      · exact Stored.of_map hn fun _ => .idle
  | findDown c i p path =>
    simp only [next] at hn
    split at hn
    · exact Stored.of_some hn .idle
    · exact Stored.of_map hn fun _ => .idle
  | findCas c i p d n path =>
    simp only [next] at hn
    split at hn
    · exact Stored.of_some hn (.write _ _)
    · exact Stored.of_some hn .idle
  | markCas n i q =>
    simp only [next] at hn
    split at hn
    · exact Stored.of_some hn (.write _ _)
    · exact Stored.of_some hn .idle
  | deleteStore d n | validStore d n old | insertStore d n | flipStore path n l old
  | initInsertFlag path n l | initDeleteFlag path n l | initKey path n l | initTopLevel path n l
  | lostStore n => exact Stored.of_some hn (.write _ _)
  | deleteFlush d n | insertFlush d n => exact Stored.of_some hn (.flush _)
  | alloc path => exact Stored.of_some hn (.take _)
  | lostFree n | removeFree n => exact Stored.of_some hn (.give _)
  | flipLoad path n l => exact Stored.of_some hn .idle
  | containsTest i p c =>
    simp only [next] at hn
    split at hn
    · exact Stored.of_some hn .idle
    · split at hn
      · exact Stored.of_some hn .idle
      · cases i <;> exact Stored.of_some hn .idle
  | containsPass i p c =>
    simp only [next] at hn
    split at hn
    · split at hn <;> exact Stored.of_some hn .idle
    · exact Stored.of_some hn .idle
  | searchTest i p c path =>
    simp only [next] at hn
    split at hn
    · exact Stored.of_some hn .idle
    · split at hn <;> exact Stored.of_some hn .idle
  | deleteLoad d n | validLoad d n | insertLoad d n | markLoad n i =>
    simp only [next] at hn
    split at hn <;> exact Stored.of_some hn .idle
  | ret r => cases hn

/-! ### What a call knows of the node that it prepares or removes -/

def Pc.Draft (σ : Store V) : Pc → Prop
  | .flipLoad _ n _ => isValid (σ.node n).metaData = true
  | .flipStore _ _ _ old => isValid old = true
  | .initInsertFlag _ n _ => isValid (σ.node n).metaData = false
  | .initDeleteFlag _ n _ => isValid (σ.node n).metaData = false
  | .initKey _ n _ => isValid (σ.node n).metaData = false
  | .initValue _ n _ => isValid (σ.node n).metaData = false
  | .initTopLevel _ n _ => isValid (σ.node n).metaData = false
  | .initNext _ n _ => isValid (σ.node n).metaData = false
  | .linkCas _ n => isValid (σ.node n).metaData = false
  | .lostStore n => isValid (σ.node n).metaData = false
  | .validLoad .lost n => ((σ.node n).next 0).marked = true
  | .validStore .lost n _ => ((σ.node n).next 0).marked = true
  | .lostFree n => isValid (σ.node n).metaData = true ∧ ((σ.node n).next 0).marked = true
  | .markLoad n _ => isValid (σ.node n).metaData = true
  | .markCas n _ _ => isValid (σ.node n).metaData = true
  | _ => True

theorem Pc.Draft.kept {h : Option Loc} {L' : Set Cursor} (k : Kept σ L h L' σ')
    (hr : ∀ r ∈ pc.refs, r ∈ L) (hn : ∀ n, pc.pending = some (n, 0) → σ'.node n = σ.node n)
    (hd : pc.Draft σ) : pc.Draft σ' := by
  cases pc with
  | flipLoad path n l | initInsertFlag path n l | initDeleteFlag path n l | initKey path n l
  | initValue path n l | initTopLevel path n l | initNext path n i | linkCas path n | lostStore n
  | lostFree n =>
    simp only [Pc.Draft, hn n rfl]
    exact hd
  | validLoad d n | validStore d n old =>
    cases d with
    | lost =>
      simp only [Pc.Draft, hn n rfl]
      exact hd
    | _ => trivial
  | markLoad n i | markCas n i q =>
    exact (k.evolves (hr (n, 0) (by simp [Pc.refs]))).valid hd
  | flipStore path n l old => exact hd
  | _ => trivial

theorem draft_marked (result : Bool) (i : ℕ) (h : isValid (σ.node n).metaData = true) :
    (marked n result i).Draft σ := by
  cases i with
  | zero => trivial
  | succ i => exact h

theorem draft_searchDone (σ : Store V) (op : SetOp V) (p c : Loc) (path : Path) (i : ℕ) :
    (searchDone σ op p c path i).Draft σ := by
  cases i with
  | zero =>
    cases op <;> simp only [searchDone, afterSearch] <;> first | trivial | (split <;> trivial)
  | succ i => trivial

theorem draft_findDone (σ : Store V) (c : FindCtx) (p x : Loc) (path : Path) (i : ℕ) :
    (findDone c p x path i).Draft σ := by
  cases i <;> cases c <;> trivial

theorem draft_afterDelete (σ : Store V) (n : Loc) (d : DeleteCtx) : (afterDelete n d).Draft σ := by
  cases d with
  | remove r => cases r <;> trivial
  | _ => trivial

theorem draft_upper (τ : Store V) (path : Path) (n : Loc) (i : ℕ) :
    (upper τ path n i).Draft σ := by
  unfold upper
  split <;> trivial

theorem draft_afterInsert (τ : Store V) (n : Loc) (d : InsertCtx) :
    (afterInsert τ n d).Draft σ := by
  cases d with
  | linked path => exact draft_upper τ path n 1
  | _ => trivial

theorem draft_afterValid {d : ValidCtx} {τ : Store V} (hv : isValid (σ.node n).metaData = true)
    (hl : d = .lost → ((σ.node n).next 0).marked = true) : (afterValid τ n d).Draft σ := by
  cases d with
  | lost => exact ⟨hv, hl rfl⟩
  | removing => exact hv
  | _ => trivial

theorem invalid_flipped {old : Uchar} (h : isValid old = true) :
    isValid ((σ.write n { σ.node n with metaData := flipV1 old }).node n).metaData = false := by
  rw [node_write_self, isValid_flipV1, h]
  rfl

theorem marked_lost (σ : Store V) (n : Loc) :
    (((σ.setNext n 0 Ptr.null.mark).node n).next 0).marked = true := by
  rw [next_setNext_self]
  rfl

theorem draft_step (hs : ∀ path, pc = .alloc path → isValid (σ.node slot).metaData = true)
    (hd : pc.Draft σ) (hn : next σ op slot level pc = some (σ', pc')) : pc'.Draft σ' := by
  cases pc with
  | searchDown i p path | searchNext i p c path | containsDown i p | containsNext i p c =>
    obtain ⟨z, _, he⟩ := Option.map_eq_some_iff.1 hn
    obtain ⟨rfl, rfl⟩ := Prod.mk.inj he
    trivial
  | searchTest i p c path =>
    simp only [next] at hn
    split at hn
    · obtain ⟨rfl, rfl⟩ := Prod.mk.inj (Option.some.inj hn)
      trivial
    · split at hn <;> obtain ⟨rfl, rfl⟩ := Prod.mk.inj (Option.some.inj hn)
      · exact draft_searchDone σ op p c path i
      · trivial
  | findDown c i p path =>
    simp only [next] at hn
    split at hn
    · obtain ⟨rfl, rfl⟩ := Prod.mk.inj (Option.some.inj hn)
      trivial
    · obtain ⟨z, _, he⟩ := Option.map_eq_some_iff.1 hn
      obtain ⟨rfl, rfl⟩ := Prod.mk.inj he
      trivial
  | findLoad c i p d z path =>
    simp only [next] at hn
    split at hn
    · obtain ⟨w, _, he⟩ := Option.map_eq_some_iff.1 hn
      obtain ⟨rfl, rfl⟩ := Prod.mk.inj he
      split <;> trivial
    · split at hn
      · obtain ⟨rfl, rfl⟩ := Prod.mk.inj (Option.some.inj hn)
        split
        · exact draft_findDone σ c p z path i
        · trivial
      · obtain ⟨w, _, he⟩ := Option.map_eq_some_iff.1 hn
        obtain ⟨rfl, rfl⟩ := Prod.mk.inj he
        trivial
  | findCas c i p d z path =>
    simp only [next] at hn
    split at hn <;> obtain ⟨rfl, rfl⟩ := Prod.mk.inj (Option.some.inj hn)
    · exact draft_findDone _ c p z path i
    · trivial
  | deleteLoad d n =>
    simp only [next] at hn
    split at hn <;> obtain ⟨rfl, rfl⟩ := Prod.mk.inj (Option.some.inj hn)
    · exact draft_afterDelete σ n d
    · trivial
  | deleteFlush d n | insertFlush d n | alloc path =>
    obtain ⟨rfl, rfl⟩ := Prod.mk.inj (Option.some.inj hn)
    first | trivial | exact hs path rfl
  | deleteStore d n =>
    obtain ⟨rfl, rfl⟩ := Prod.mk.inj (Option.some.inj hn)
    exact draft_afterDelete _ n d
  | validLoad d n =>
    simp only [next] at hn
    split at hn <;> obtain ⟨rfl, rfl⟩ := Prod.mk.inj (Option.some.inj hn)
    · next hv =>
      refine draft_afterValid hv ?_
      rintro rfl
      exact hd
    · cases d with
      | lost => exact hd
      | _ => trivial
  | validStore d n old =>
    obtain ⟨rfl, rfl⟩ := Prod.mk.inj (Option.some.inj hn)
    refine draft_afterValid ?_ ?_
    · rw [node_write_self]
      exact isValid_makeValid old
    · rintro rfl
      rw [node_write_self]
      exact hd
  | insertLoad d n =>
    simp only [next] at hn
    split at hn <;> obtain ⟨rfl, rfl⟩ := Prod.mk.inj (Option.some.inj hn)
    · exact draft_afterInsert σ n d
    · trivial
  | insertStore d n =>
    obtain ⟨rfl, rfl⟩ := Prod.mk.inj (Option.some.inj hn)
    exact draft_afterInsert _ n d
  | flipLoad path n l =>
    obtain ⟨rfl, rfl⟩ := Prod.mk.inj (Option.some.inj hn)
    exact hd
  | flipStore path n l old =>
    obtain ⟨rfl, rfl⟩ := Prod.mk.inj (Option.some.inj hn)
    exact invalid_flipped hd
  | initInsertFlag path n l | initDeleteFlag path n l | initKey path n l | initTopLevel path n l =>
    obtain ⟨rfl, rfl⟩ := Prod.mk.inj (Option.some.inj hn)
    change isValid _ = false
    rw [node_write_self]
    exact hd
  | initValue path n l =>
    cases op with
    | insert k v =>
      obtain ⟨rfl, rfl⟩ := Prod.mk.inj (Option.some.inj hn)
      change isValid _ = false
      rw [node_write_self]
      exact hd
    | _ => cases hn
  | initNext path n i =>
    obtain ⟨e, _, he⟩ := Option.map_eq_some_iff.1 hn
    obtain ⟨rfl, rfl⟩ := Prod.mk.inj he
    have hv : isValid ((σ.setNext n i (Ptr.addr e.2)).node n).metaData = false := by
      rw [(setNext_fields σ n i _ n).2.2.1]
      exact hd
    split <;> exact hv
  | linkCas path n =>
    simp only [next] at hn
    obtain ⟨e, _, he⟩ := Option.map_eq_some_iff.1 hn
    split at he <;> obtain ⟨rfl, rfl⟩ := Prod.mk.inj he
    · trivial
    · exact hd
  | lostStore n =>
    obtain ⟨rfl, rfl⟩ := Prod.mk.inj (Option.some.inj hn)
    exact marked_lost σ n
  | lostFree n | removeFree n =>
    obtain ⟨rfl, rfl⟩ := Prod.mk.inj (Option.some.inj hn)
    trivial
  | upperLoad path n i =>
    simp only [next] at hn
    split at hn
    · obtain ⟨rfl, rfl⟩ := Prod.mk.inj (Option.some.inj hn)
      trivial
    · obtain ⟨e, _, he⟩ := Option.map_eq_some_iff.1 hn
      obtain ⟨rfl, rfl⟩ := Prod.mk.inj he
      split <;> trivial
  | upperCas path n i q =>
    simp only [next] at hn
    obtain ⟨e, _, he⟩ := Option.map_eq_some_iff.1 hn
    split at he <;> obtain ⟨rfl, rfl⟩ := Prod.mk.inj he <;> trivial
  | upperLink path n i =>
    simp only [next] at hn
    obtain ⟨e, _, he⟩ := Option.map_eq_some_iff.1 hn
    split at he <;> obtain ⟨rfl, rfl⟩ := Prod.mk.inj he
    · exact draft_upper σ path n (i + 1)
    · trivial
  | markLoad n i =>
    simp only [next] at hn
    split at hn <;> obtain ⟨rfl, rfl⟩ := Prod.mk.inj (Option.some.inj hn)
    · exact draft_marked false i hd
    · exact hd
  | markCas n i q =>
    simp only [next] at hn
    split at hn <;> obtain ⟨rfl, rfl⟩ := Prod.mk.inj (Option.some.inj hn)
    · refine draft_marked true i ?_
      rw [(setNext_fields σ n i _ n).2.2.1]
      exact hd
    · exact hd
  | containsTest i p c =>
    simp only [next] at hn
    split at hn
    · obtain ⟨rfl, rfl⟩ := Prod.mk.inj (Option.some.inj hn)
      trivial
    · split at hn
      · obtain ⟨rfl, rfl⟩ := Prod.mk.inj (Option.some.inj hn)
        trivial
      · cases i <;> obtain ⟨rfl, rfl⟩ := Prod.mk.inj (Option.some.inj hn) <;> trivial
  | containsPass i p c =>
    simp only [next] at hn
    split at hn
    · split at hn <;> obtain ⟨rfl, rfl⟩ := Prod.mk.inj (Option.some.inj hn) <;> trivial
    · obtain ⟨rfl, rfl⟩ := Prod.mk.inj (Option.some.inj hn)
      trivial
  | ret r => cases hn

theorem base_of_find {c : FindCtx} (h : c.pending = some (x, 0)) : (x, 0) ∈ c.refs := by
  cases c with
  | inInsert n i =>
    obtain ⟨rfl, rfl⟩ := Prod.mk.inj (Option.some.inj h)
    exact List.mem_singleton_self _
  | inRemove n => cases h

theorem base_of_delete {d : DeleteCtx} (h : d.pending = some (x, 0)) : (x, 0) ∈ d.refs n := by
  cases d with
  | find c p b z path =>
    have hb : c.pending = some (x, 0) := h
    simp [DeleteCtx.refs, base_of_find hb]
  | _ => cases h

theorem draft_hidden (hd : pc.Draft σ) (hp : pc.pending = some (x, 0)) (hx : (x, 0) ∉ pc.refs)
    (hx' : (x, 0) ∉ pc'.refs) (hr : ¬ (σ.node x).recovered = true)
    (hn : next σ op slot level pc = some (σ', pc')) : ¬ (σ'.node x).recovered = true := by
  have upper : ∀ {n i}, (some (n, i) : Option Cursor) = some (x, 0) → (x, 0) = (n, i - 1) := by
    intro n i h
    obtain ⟨rfl, rfl⟩ := Prod.mk.inj (Option.some.inj h)
    rfl
  cases pc with
  | findDown c i p path | findLoad c i p b z path | findCas c i p b z path =>
    refine absurd ?_ hx
    have hb : c.pending = some (x, 0) := hp
    simp [Pc.refs, base_of_find hb]
  | deleteLoad d n | deleteFlush d n | deleteStore d n => exact absurd (base_of_delete hp) hx
  | upperLoad path n i | upperCas path n i q | upperLink path n i =>
    refine absurd ?_ hx
    rw [upper hp]
    simp [Pc.refs]
  | validLoad d n =>
    simp only [next] at hn
    split at hn <;> obtain ⟨rfl, rfl⟩ := Prod.mk.inj (Option.some.inj hn) <;> exact hr
  | validStore d n old =>
    cases d with
    | lost =>
      obtain ⟨rfl, _⟩ := Prod.mk.inj (Option.some.inj hp)
      obtain ⟨rfl, rfl⟩ := Prod.mk.inj (Option.some.inj hn)
      refine not_recovered_of_marked ?_
      rw [node_write_self]
      exact hd
    | _ => cases hp
  | insertLoad d n | insertFlush d n | insertStore d n => cases d <;> cases hp
  | flipLoad path n l | lostFree n =>
    obtain ⟨rfl, rfl⟩ := Prod.mk.inj (Option.some.inj hn)
    exact hr
  | flipStore path n l old =>
    obtain ⟨rfl, _⟩ := Prod.mk.inj (Option.some.inj hp)
    obtain ⟨rfl, rfl⟩ := Prod.mk.inj (Option.some.inj hn)
    exact not_recovered_of_invalid (invalid_flipped hd)
  | initInsertFlag path n l | initDeleteFlag path n l | initKey path n l
  | initTopLevel path n l =>
    obtain ⟨rfl, _⟩ := Prod.mk.inj (Option.some.inj hp)
    obtain ⟨rfl, rfl⟩ := Prod.mk.inj (Option.some.inj hn)
    refine not_recovered_of_invalid ?_
    rw [node_write_self]
    exact hd
  | initValue path n l =>
    obtain ⟨rfl, _⟩ := Prod.mk.inj (Option.some.inj hp)
    cases op with
    | insert k v =>
      obtain ⟨rfl, rfl⟩ := Prod.mk.inj (Option.some.inj hn)
      refine not_recovered_of_invalid ?_
      rw [node_write_self]
      exact hd
    | _ => cases hn
  | initNext path n i =>
    obtain ⟨rfl, _⟩ := Prod.mk.inj (Option.some.inj hp)
    obtain ⟨e, _, he⟩ := Option.map_eq_some_iff.1 hn
    obtain ⟨rfl, rfl⟩ := Prod.mk.inj he
    refine not_recovered_of_invalid ?_
    rw [(setNext_fields σ n i _ n).2.2.1]
    exact hd
  | linkCas path n =>
    obtain ⟨rfl, _⟩ := Prod.mk.inj (Option.some.inj hp)
    simp only [next] at hn
    obtain ⟨e, _, he⟩ := Option.map_eq_some_iff.1 hn
    split at he <;> obtain ⟨rfl, rfl⟩ := Prod.mk.inj he
    · exact absurd (List.mem_cons_self) hx'
    · exact hr
  | lostStore n =>
    obtain ⟨rfl, _⟩ := Prod.mk.inj (Option.some.inj hp)
    obtain ⟨rfl, rfl⟩ := Prod.mk.inj (Option.some.inj hn)
    exact not_recovered_of_marked (marked_lost σ n)
  | _ => cases hp

/-! ### What the lines hold -/

structure Sealed (σ : Store V) (L : Set Cursor) : Prop where
  spare : ∀ {x}, σ.avail x = true → isValid (σ.node x).metaData = true
  marked : ∀ {x}, (x, 0) ∈ L → σ.dead 0 x → isValid (σ.node x).metaData = true
  fresh : ∀ {x}, (x, 0) ∉ L → ¬ (σ.node x).recovered = true
  lines : ∀ {x a}, a ∈ (σ.line x).contents → a.recovered = true →
    (σ.level 0).Linked x ∧ a.key = (σ.node x).key
  saved : ∀ {x a}, (x, 0) ∈ L → x ≠ tail → ¬ σ.dead 0 x → AllValid (σ.line x) →
    a ∈ (σ.line x).contents → a.recovered = true ∧ a.key = (σ.node x).key

theorem Sealed.mono {L' : Set Cursor} (h : Sealed σ L) (hm : MemInv σ 1 L) (hm' : MemInv σ 1 L')
    (hL : L' ⊆ L) : Sealed σ L' where
  spare := h.spare
  marked hx := h.marked (hL hx)
  fresh {x} hx hr := by
    by_cases hl : (x, 0) ∈ L
    · have hd : ¬ σ.dead 0 x := fun hd => not_recovered_of_marked hd hr
      exact hx (hm'.live_of_linked (hm.linked_of_alive hl Nat.one_pos hd))
    · exact h.fresh hl hr
  lines := h.lines
  saved hx := h.saved (hL hx)

theorem next_give (hn : next σ op slot level pc = some (σ', pc')) (h0 : ¬ σ.avail x = true)
    (h1 : σ'.avail x = true) : pc = .lostFree x ∨ pc = .removeFree x := by
  have given : ∀ n, (σ.give n).avail x = true → n = x := by
    intro n h
    by_contra hne
    change Function.update σ.avail n true x = true at h
    rw [Function.update_of_ne (Ne.symm hne)] at h
    exact h0 h
  cases pc with
  | lostFree n =>
    obtain ⟨rfl, rfl⟩ := Prod.mk.inj (Option.some.inj hn)
    exact Or.inl (congrArg _ (given n h1))
  | removeFree n =>
    obtain ⟨rfl, rfl⟩ := Prod.mk.inj (Option.some.inj hn)
    exact Or.inr (congrArg _ (given n h1))
  | alloc path =>
    obtain ⟨rfl, rfl⟩ := Prod.mk.inj (Option.some.inj hn)
    by_cases he : x = slot
    · simp [Store.take, he] at h1
    · simp [Store.take, he, h0] at h1
  | _ =>
    rw [avail_frame hn (fun _ h => by cases h) (fun _ h => by cases h) (fun _ h => by cases h)]
      at h1
    exact absurd h1 h0

theorem Effect.new_alive {h : Option Loc} {L' : Set Cursor} (e : Effect σ 1 L h L' σ')
    (hx : (x, 0) ∈ L') (hn : (x, 0) ∉ L) : ¬ σ'.dead 0 x := by
  cases e with
  | join p n c i live next fresh base new_next level tidy fields =>
    obtain ⟨rfl, rfl⟩ := Prod.mk.inj ((Set.mem_insert_iff.1 hx).resolve_right hn)
    exact fun hd => (tidy Nat.one_pos).1 ((dead_setNext (dead_of_addr next) rfl).1 hd)
  | _ => exact absurd hx hn

-- a node that a step marks at level 0 is valid: remove makes it valid first
theorem marks_valid (f : Fit σ L op pc) (hd : pc.Draft σ)
    (hn : next σ op slot level pc = some (σ', pc')) (hx : (x, 0) ∈ L) (h0 : ¬ σ.dead 0 x)
    (h1 : σ'.dead 0 x) : isValid (σ.node x).metaData = true := by
  rcases tau_cases f hn with ⟨path, e, n, rfl, hpath, hnext, rfl, rfl⟩ |
    ⟨n, q, rfl, hnext, rfl, rfl⟩ | ⟨d, p, b, z, path, rfl, hnext, rfl⟩ | ⟨_, hframe⟩
  · exact absurd ((dead_setNext (dead_of_addr hnext) rfl).1 h1) h0
  · obtain rfl : x = n := by
      by_contra hne
      refine h0 ?_
      unfold Store.dead at h1
      rwa [next_setNext_other _ _ fun h => hne h.1] at h1
    exact hd
  · exact absurd ((dead_setNext (dead_of_addr hnext) rfl).1 h1) h0
  · unfold Store.dead at h1
    rw [(hframe x hx).1] at h1
    exact absurd h1 h0

theorem new_invalid {L' : Set Cursor} (hm : MemInv σ 1 L) (f : Fit σ L op pc) (hd : pc.Draft σ)
    (hn : next σ op slot level pc = some (σ', pc')) (e : Effect σ 1 L pc.owns L' σ')
    (hx : (x, 0) ∈ L') (hxL : (x, 0) ∉ L) : isValid (σ'.node x).metaData = false := by
  generalize ho : pc.owns = h at e
  cases e with
  | join p n c i live link fresh base new_next _ tidy fields =>
    obtain ⟨rfl, rfl⟩ := Prod.mk.inj ((Set.mem_insert_iff.1 hx).resolve_right hxL)
    rcases tau_cases f hn with ⟨path, e, m, rfl, _, _, _, _⟩ | ⟨m, q, rfl, _, _, _⟩ |
      ⟨d, q, b, z, path, rfl, _, _⟩ | ⟨_, hframe⟩
    · obtain rfl : m = x := Option.some.inj ho
      rw [(setNext_fields σ p 0 _ m).2.2.1]
      exact hd
    · cases ho
    · obtain ⟨i, hi⟩ := pending_of_owns ho
      cases i with
      | zero => exact absurd (f.refs _ (by
          have hb : d.pending = some (x, 0) := hi
          simp [Pc.refs, base_of_find hb])) hxL
      | succ i => exact absurd (hm.base (f.refs _ (base_of_pending hi))) hxL
    · have hp := (hframe p live).1
      rw [next_setNext_self, link] at hp
      obtain rfl : x = c := Option.some.inj (congrArg Ptr.ref hp)
      exact absurd (hm.right live (ref_of_addr link)) hxL
  | _ => exact absurd hx hxL

theorem Sealed.step {L' : Set Cursor} (h : Sealed σ L) (hm : MemInv σ 1 L) (f : Fit σ L op pc)
    (hd : pc.Draft σ) (hn : next σ op slot level pc = some (σ', pc'))
    (e : Effect σ 1 L pc.owns L' σ') (f' : Fit σ' L' op pc') : Sealed σ' L' := by
  have k := e.kept hm
  have hm' := e.memInv hm
  have hfresh : ∀ {x}, (x, 0) ∉ L' → ¬ (σ'.node x).recovered = true := by
    intro x hx
    have hxL : (x, 0) ∉ L := fun h => hx (k.subset h)
    by_cases ho : pc.owns = some x
    · obtain ⟨i, hi⟩ := pending_of_owns ho
      cases i with
      | zero =>
        exact draft_hidden hd hi (fun h => hxL (f.refs _ h)) (fun h => hx (f'.refs _ h))
          (h.fresh hxL) hn
      | succ i => exact absurd (hm.base (f.refs _ (base_of_pending hi))) hxL
    · unfold Store.node
      rw [k.line ho hxL]
      exact h.fresh hxL
  have complete : ∀ {x}, (x, 0) ∈ L' → x ≠ tail → ((σ'.node x).next 0).ref ≠ none := by
    intro x hx ht
    obtain ⟨y, hy⟩ := hm'.sound.succ_ne_none hx ht
    have hy : ((σ'.node x).next 0).ref = some y := hy
    rw [hy]
    exact Option.some_ne_none y
  refine ⟨fun {x} ha => ?_, fun {x} hx hdead => ?_, hfresh, fun {x a} ha hr => ?_,
    fun {x a} hx ht hdead hv ha => ?_⟩
  · by_cases ha0 : σ.avail x = true
    · by_cases hxL : (x, 0) ∈ L
      · exact (k.evolves hxL).valid (h.spare ha0)
      · have ho : pc.owns ≠ some x := by
          intro ho
          have := (f.owned hm ho).resolve_left hxL
          rw [ha0] at this
          cases this
        unfold Store.node
        rw [k.line ho hxL]
        exact h.spare ha0
    · rcases next_give hn ha0 ha with rfl | rfl
      · obtain ⟨rfl, rfl⟩ := Prod.mk.inj (Option.some.inj hn)
        exact hd.1
      · obtain ⟨rfl, rfl⟩ := Prod.mk.inj (Option.some.inj hn)
        exact h.marked (f.refs _ (List.mem_singleton_self _)) f.loc.2
  · by_cases hxL : (x, 0) ∈ L
    · refine (k.evolves hxL).valid ?_
      by_cases hd0 : σ.dead 0 x
      · exact h.marked hxL hd0
      · exact marks_valid f hd hn hxL hd0 hdead
    · exact absurd hdead (e.new_alive hx hxL)
  · have gone : (x, 0) ∈ L' → ¬ (σ'.level 0).Linked x → σ'.dead 0 x := fun hx hl => by
      by_contra hd
      exact hl (hm'.linked_of_alive hx Nat.one_pos hd)
    rcases (stored_of_next hn).contents ha with ha0 | rfl
    · obtain ⟨hl, hk⟩ := h.lines ha0 hr
      have hxL := hm.live_of_linked hl
      refine ⟨?_, hk.trans (k.evolves hxL).key.symm⟩
      by_contra hl'
      have hdead := gone (k.subset hxL) hl'
      have hs := complete (k.subset hxL) (hm'.ne_tail_of_dead hdead)
      exact not_recovered_of_marked (hm'.persist hl' hdead hs _ ha) hr
    · refine ⟨?_, rfl⟩
      by_contra hl'
      by_cases hx : (x, 0) ∈ L'
      · exact not_recovered_of_marked (gone hx hl') hr
      · exact hfresh hx hr
  · have now : (σ'.node x).recovered = true :=
      Node.recovered_iff.2 ⟨hv.cur, Bool.eq_false_iff.2 hdead, complete hx ht⟩
    by_cases hxL : (x, 0) ∈ L
    · rcases (stored_of_next hn).kept x with hkept | hall
      · rcases (stored_of_next hn).contents ha with ha0 | rfl
        · obtain ⟨hr, hk⟩ := h.saved hxL ht (fun hd => hdead (k.dead hxL hd))
            (fun c hc => hv c (hkept c hc)) ha0
          exact ⟨hr, hk.trans (k.evolves hxL).key.symm⟩
        · exact ⟨now, rfl⟩
      · obtain rfl := hall a ha
        exact ⟨now, rfl⟩
    · exact absurd (new_invalid hm f hd hn e hx hxL) (by rw [Store.node, hv.cur]; decide)

theorem initial_contents (zero : V) (junk : Uchar) {a : Node V}
    (ha : a ∈ ((initialStore zero junk).line x).contents) :
    a = (initialStore zero junk).node x := by
  refine (Line.mem_contents.1 ha).resolve_right fun h => ?_
  simp only [initialStore] at h
  split at h
  · cases h
  · split at h <;> cases h

theorem sealed_initial (zero : V) (junk : Uchar) :
    Sealed (initialStore zero junk) (initial zero junk).live where
  spare {x} ha := by
    simp only [initialStore, Bool.not_eq_true', Bool.or_eq_false_iff, beq_eq_false_iff_ne] at ha
    simp only [initialStore, Store.node, if_neg ha.1, if_neg ha.2]
    rfl
  marked _ hd := absurd hd (initial_alive zero junk _ _)
  fresh {x} hx hr := by
    have hh : x ≠ head := by
      rintro rfl
      exact hx (head_mem_live (initial zero junk) (by decide))
    refine (Node.recovered_iff.1 hr).2.2 ?_
    rw [initial_next, if_neg hh]
    rfl
  lines {x a} ha hr := by
    obtain rfl := initial_contents zero junk ha
    obtain rfl : x = head := by
      by_contra hh
      refine (Node.recovered_iff.1 hr).2.2 ?_
      rw [initial_next, if_neg hh]
      rfl
    exact ⟨Heap.Reach.refl _, rfl⟩
  saved {x a} hx ht _ hv ha := by
    obtain rfl := initial_contents zero junk ha
    obtain rfl : x = head := (initial_live zero junk hx).1.resolve_right ht
    refine ⟨Node.recovered_iff.2 ⟨hv.cur, ?_, ?_⟩, rfl⟩ <;> rw [initial_next, if_pos rfl]
    · rfl
    · exact Option.some_ne_none tail

structure State.Sealed (s : State V) : Prop where
  store : SkipList.Sealed s.store s.live
  draft : ∀ {t op pc}, s.thread t = some (op, pc) → pc.Draft s.store

theorem start_draft (σ : Store V) (op : SetOp V) : (start op).Draft σ := by cases op <;> trivial

theorem State.Sealed.step (h : s.Sealed) (hi : Inv 1 s) (hs : Step s e s') (clean : s.Clean s') :
    s'.Sealed := by
  have hi' := hi.step (hi.tidy_one e) clean hs
  cases hs with
  | call t op idle hk =>
    refine ⟨h.store.mono hi.mem hi'.mem ?_, fun {u op1 pc1} hu => ?_⟩
    · refine live_goto hi.mem subset_rfl fun op1 pc1 ha => ?_
      obtain ⟨rfl, rfl⟩ := Prod.mk.inj (Option.some.inj ha)
      exact (start_fit hi.mem hk).refs
    · by_cases he : u = t
      · subst he
        rw [goto_thread_self] at hu
        obtain ⟨rfl, rfl⟩ := Prod.mk.inj (Option.some.inj hu)
        exact start_draft _ op
      · rw [goto_thread_other _ _ _ he] at hu
        exact h.draft hu
  | ret t op r ht =>
    refine ⟨h.store.mono hi.mem hi'.mem ?_, fun {u op1 pc1} hu => ?_⟩
    · exact live_goto hi.mem subset_rfl fun _ _ ha => by cases ha
    · by_cases he : u = t
      · subst he
        rw [goto_thread_self] at hu
        cases hu
      · rw [goto_thread_other _ _ _ he] at hu
        exact h.draft hu
  | tau t op pc pc' slot level σ ht hn ha =>
    have f := hi.fit ht
    obtain ⟨L', e, f', _⟩ := tau_ok hi ht (hi.tidy_one (.tau t) t op pc rfl ht) hn ha clean
    have k := e.kept hi.mem
    have hm' := e.memInv hi.mem
    refine ⟨(h.store.step hi.mem f (h.draft ht) hn e f').mono hm' hi'.mem ?_,
      fun {u op1 pc1} hu => ?_⟩
    · refine live_goto hm' k.subset fun op1 pc1 ha => ?_
      obtain ⟨rfl, rfl⟩ := Prod.mk.inj (Option.some.inj ha)
      exact f'.refs
    · by_cases he : u = t
      · subst he
        rw [goto_thread_self] at hu
        obtain ⟨rfl, rfl⟩ := Prod.mk.inj (Option.some.inj hu)
        exact draft_step (fun path hp => h.store.spare (ha path hp).1) (h.draft ht) hn
      · rw [goto_thread_other _ _ _ he] at hu
        refine (h.draft hu).kept k (hi.fit hu).refs fun n hp => ?_
        have hne : pc.owns ≠ some n := fun ho => he (hi.apart hu ht (owns_of_pending hp) ho)
        change ((σ.line n).cur) = _
        rw [k.line hne ((hi.fit hu).fresh _ hp)]
        rfl

theorem sealed_run (ρ : Run (machine V)) (clean : Clean ρ) :
    ∀ m ≤ ρ.length, (ρ.state m).Sealed := by
  refine Run.stepwise ?_ fun m hm ih => ih.step (inv_run ρ clean m hm.le) (ρ.step hm) (clean m hm)
  obtain ⟨zero, junk, h⟩ := ρ.init
  rw [h]
  exact ⟨sealed_initial zero junk, fun ht => by cases ht⟩

def State.Image.keys (img : s.Image) : Set ℤ :=
  {k | ∃ x, x ≠ head ∧ x ≠ tail ∧ (img.node x).recovered = true ∧ (img.node x).key = k}

theorem State.Sealed.recovered (h : s.Sealed) {img : s.Image} {k : ℤ} (hk : k ∈ img.keys) :
    ∃ x, x ≠ head ∧ x ≠ tail ∧ (img.node x).recovered = true ∧ (s.store.level 0).Linked x ∧
      (s.store.node x).key = k := by
  obtain ⟨x, hh, ht, hr, rfl⟩ := hk
  obtain ⟨hl, hkey⟩ := h.store.lines (img.written x) hr
  exact ⟨x, hh, ht, hr, hl, hkey.symm⟩

end LinkFree.SkipList
