import DurableSets.LinkFree.SkipListStall

/-! A remove or a contains that is left alone returns, wherever the other threads have stopped. -/

namespace LinkFree.SkipList

open Chain

variable {V : Type} {σ σ' : Store V} {L : Set Cursor} {p c n slot : Loc} {i G level : ℕ}
  {op : SetOp V} {pc pc' : Pc} {path : Path} {s s' : State V} {t : Tid}

theorem FindCtx.Fits.inRemove {e : FindCtx} (h : e.Fits op) (hno : ¬ op.IsInsert) :
    ∃ n, e = .inRemove n := by
  cases e with
  | inInsert n l => exact absurd h hno
  | inRemove n => exact ⟨n, rfl⟩

def DeleteCtx.Unhindered (σ : Store V) : DeleteCtx → Prop
  | .find _ pred predNext _ _ => (σ.node pred).next 0 = Ptr.addr predNext
  | _ => False

def Pc.Unhindered (σ : Store V) : Pc → Prop
  | .findDown _ i pred _ => ¬ σ.dead i pred
  | .findLoad _ i pred predNext _ _ => (σ.node pred).next i = Ptr.addr predNext
  | .findCas _ i pred predNext _ _ => (σ.node pred).next i = Ptr.addr predNext
  | .deleteLoad c _ => c.Unhindered σ
  | .deleteFlush c _ => c.Unhindered σ
  | .deleteStore c _ => c.Unhindered σ
  | .removeFree _ => True
  | .ret _ => True
  | _ => False

theorem Pc.Unhindered.not_fails (h : pc.Unhindered σ) : ¬ pc.Fails σ := by
  cases pc with
  | findDown c i p path => exact h
  | findCas c i p d s path => exact not_not.2 h
  | upperLink path n i => exact False.elim h
  | lostFree n => exact False.elim h
  | _ => exact id

theorem findDone_unhindered (hm : MemInv σ G L) (hp : (p, i) ∈ L)
    (hs : (σ.node p).next i = Ptr.addr c) (path : Path) :
    (findDone (.inRemove n) p c path i).Unhindered σ := by
  cases i with
  | zero => trivial
  | succ i => exact hm.alive_below hp (Nat.le_succ i) (dead_of_addr hs)

theorem unhindered_step (hno : ¬ op.IsInsert) (hm : MemInv σ 1 L) (f : Fit σ L op pc)
    (hn : next σ op slot level pc = some (σ', pc')) (h : pc.Unhindered σ) : pc'.Unhindered σ' := by
  cases pc with
  | findDown e i p path =>
    simp only [next] at hn
    rw [if_neg (show ¬ ((σ.node p).next i).isMarked = true from h)] at hn
    obtain ⟨s, hs, he⟩ := Option.map_eq_some_iff.1 hn
    obtain ⟨rfl, rfl⟩ := Prod.mk.inj he
    exact addr_of_alive h hs
  | findLoad e i p d s path =>
    obtain ⟨n, rfl⟩ := f.fits.inRemove hno
    simp only [next] at hn
    split at hn
    · obtain ⟨z, hz, he⟩ := Option.map_eq_some_iff.1 hn
      obtain ⟨rfl, rfl⟩ := Prod.mk.inj he
      split
      · next h0 =>
        subst h0
        exact h
      · exact h
    · next hmk =>
      split at hn
      · obtain ⟨rfl, rfl⟩ := Prod.mk.inj (Option.some.inj hn)
        split
        · next hds =>
          subst hds
          exact findDone_unhindered hm (f.refs (p, i) (by simp [Pc.refs])) h path
        · exact h
      · obtain ⟨z, hz, he⟩ := Option.map_eq_some_iff.1 hn
        obtain ⟨rfl, rfl⟩ := Prod.mk.inj he
        exact addr_of_alive hmk hz
  | findCas e i p d s path =>
    obtain ⟨n, rfl⟩ := f.fits.inRemove hno
    obtain ⟨_, _, _, _, _, hds⟩ := f.loc
    have hpl := f.refs (p, i) (by simp [Pc.refs])
    simp only [next, if_pos (show (σ.node p).next i = Ptr.addr d from h)] at hn
    obtain ⟨rfl, rfl⟩ := Prod.mk.inj (Option.some.inj hn)
    have ef : Effect σ 1 L none L (σ.setNext p i (Ptr.addr s)) :=
      Effect.swing p d s i none hpl h hds
    exact findDone_unhindered (ef.memInv hm) hpl (next_setNext_self σ p i _) path
  | deleteLoad e n =>
    simp only [next] at hn
    split at hn <;> obtain ⟨rfl, rfl⟩ := Prod.mk.inj (Option.some.inj hn)
    · cases e with
      | find c p d s path => exact h
      | _ => exact False.elim h
    · exact h
  | deleteFlush e n =>
    obtain ⟨rfl, rfl⟩ := Prod.mk.inj (Option.some.inj hn)
    cases e with
    | find c p d s path => exact (congrFun (next_flush σ n p) 0).trans h
    | _ => exact False.elim h
  | deleteStore e n =>
    obtain ⟨rfl, rfl⟩ := Prod.mk.inj (Option.some.inj hn)
    have hnext : ∀ x, ((σ.write n { σ.node n with deleteFlag := true }).node x).next =
        (σ.node x).next := next_write (by rfl)
    cases e with
    | find c p d s path => exact (congrFun (hnext p) 0).trans h
    | _ => exact False.elim h
  | removeFree n =>
    obtain ⟨rfl, rfl⟩ := Prod.mk.inj (Option.some.inj hn)
    trivial
  | ret r => cases hn
  | _ => exact False.elim h

def Pc.swaps : Pc → Bool
  | .markCas _ _ _ => true
  | _ => false

def Pc.Current (σ : Store V) : Pc → Prop
  | .markCas n i q => (σ.node n).next i = q
  | _ => True

theorem current_of (h : pc.swaps = false) : pc.Current σ := by
  cases pc <;> trivial

theorem Pc.Unhindered.current (h : pc.Unhindered σ) : pc.Current σ := by
  cases pc <;> trivial

theorem swaps_searchDone (τ : Store V) (op : SetOp V) (p c : Loc) (path : Path) (i : ℕ) :
    (searchDone τ op p c path i).swaps = false := by
  cases i with
  | succ i => rfl
  | zero =>
    cases op with
    | insert k v =>
      simp only [searchDone, afterSearch]
      split <;> rfl
    | remove k =>
      simp only [searchDone, afterSearch]
      split <;> rfl
    | contains k => rfl

theorem swaps_findDone (e : FindCtx) (p c : Loc) (path : Path) (i : ℕ) :
    (findDone e p c path i).swaps = false := by
  cases i with
  | succ i => rfl
  | zero => cases e <;> rfl

theorem swaps_afterDelete (n : Loc) (e : DeleteCtx) : (afterDelete n e).swaps = false := by
  cases e with
  | remove r => cases r <;> rfl
  | _ => rfl

theorem swaps_upper (τ : Store V) (path : Path) (n : Loc) (i : ℕ) :
    (upper τ path n i).swaps = false := by
  unfold upper
  split <;> rfl

theorem swaps_afterInsert (τ : Store V) (n : Loc) (e : InsertCtx) :
    (afterInsert τ n e).swaps = false := by
  cases e with
  | linked path => exact swaps_upper τ path n 1
  | _ => rfl

theorem swaps_marked (n : Loc) (r : Bool) (i : ℕ) : (marked n r i).swaps = false := by
  cases i <;> rfl

theorem current_next (hn : next σ op slot level pc = some (σ', pc')) : pc'.Current σ' := by
  have same : ∀ {α : Type} {o : Option α} {g : α → Store V × Pc}, o.map g = some (σ', pc') →
      (∀ z, (g z).2.swaps = false) → pc'.Current σ' := by
    intro α o g ho hg
    obtain ⟨z, _, he⟩ := Option.map_eq_some_iff.1 ho
    have := hg z
    rw [he] at this
    exact current_of this
  cases pc with
  | searchDown i p path => exact same hn fun _ => rfl
  | searchTest i p c path =>
    simp only [next] at hn
    split at hn
    · obtain ⟨rfl, rfl⟩ := Prod.mk.inj (Option.some.inj hn)
      trivial
    · split at hn <;> obtain ⟨rfl, rfl⟩ := Prod.mk.inj (Option.some.inj hn)
      · exact current_of (swaps_searchDone _ _ _ _ _ _)
      · trivial
  | searchNext i p c path => exact same hn fun _ => rfl
  | findDown e i p path =>
    simp only [next] at hn
    split at hn
    · obtain ⟨rfl, rfl⟩ := Prod.mk.inj (Option.some.inj hn)
      trivial
    · exact same hn fun _ => rfl
  | findLoad e i p d c path =>
    simp only [next] at hn
    split at hn
    · refine same hn fun z => ?_
      split <;> rfl
    · split at hn
      · obtain ⟨rfl, rfl⟩ := Prod.mk.inj (Option.some.inj hn)
        split
        · exact current_of (swaps_findDone _ _ _ _ _)
        · trivial
      · exact same hn fun _ => rfl
  | findCas e i p d c path =>
    simp only [next] at hn
    split at hn <;> obtain ⟨rfl, rfl⟩ := Prod.mk.inj (Option.some.inj hn)
    · exact current_of (swaps_findDone _ _ _ _ _)
    · trivial
  | deleteLoad e n =>
    simp only [next] at hn
    split at hn <;> obtain ⟨rfl, rfl⟩ := Prod.mk.inj (Option.some.inj hn)
    · exact current_of (swaps_afterDelete _ _)
    · trivial
  | deleteStore e n =>
    obtain ⟨rfl, rfl⟩ := Prod.mk.inj (Option.some.inj hn)
    exact current_of (swaps_afterDelete _ _)
  | validLoad e n =>
    simp only [next] at hn
    split at hn <;> obtain ⟨rfl, rfl⟩ := Prod.mk.inj (Option.some.inj hn)
    · cases e <;> trivial
    · trivial
  | validStore e n old =>
    obtain ⟨rfl, rfl⟩ := Prod.mk.inj (Option.some.inj hn)
    cases e <;> trivial
  | insertLoad e n =>
    simp only [next] at hn
    split at hn <;> obtain ⟨rfl, rfl⟩ := Prod.mk.inj (Option.some.inj hn)
    · exact current_of (swaps_afterInsert _ _ _)
    · trivial
  | insertStore e n =>
    obtain ⟨rfl, rfl⟩ := Prod.mk.inj (Option.some.inj hn)
    exact current_of (swaps_afterInsert _ _ _)
  | initValue path n l =>
    cases op with
    | insert k v =>
      obtain ⟨rfl, rfl⟩ := Prod.mk.inj (Option.some.inj hn)
      trivial
    | remove k => cases hn
    | contains k => cases hn
  | initNext path n i =>
    refine same hn fun z => ?_
    simp only
    split <;> rfl
  | linkCas path n =>
    refine same hn fun z => ?_
    split <;> rfl
  | upperLoad path n i =>
    simp only [next] at hn
    split at hn
    · obtain ⟨rfl, rfl⟩ := Prod.mk.inj (Option.some.inj hn)
      trivial
    · refine same hn fun z => ?_
      simp only
      split <;> rfl
  | upperCas path n i q =>
    refine same hn fun z => ?_
    split <;> rfl
  | upperLink path n i =>
    refine same hn fun z => ?_
    split
    · exact swaps_upper _ _ _ _
    · rfl
  | markLoad n i =>
    simp only [next] at hn
    split at hn <;> obtain ⟨rfl, rfl⟩ := Prod.mk.inj (Option.some.inj hn)
    · exact current_of (swaps_marked _ _ _)
    · rfl
  | markCas n i q =>
    simp only [next] at hn
    split at hn <;> obtain ⟨rfl, rfl⟩ := Prod.mk.inj (Option.some.inj hn)
    · exact current_of (swaps_marked _ _ _)
    · trivial
  | containsDown i p => exact same hn fun _ => rfl
  | containsTest i p c =>
    simp only [next] at hn
    split at hn
    · obtain ⟨rfl, rfl⟩ := Prod.mk.inj (Option.some.inj hn)
      trivial
    · split at hn
      · obtain ⟨rfl, rfl⟩ := Prod.mk.inj (Option.some.inj hn)
        trivial
      · cases i <;> obtain ⟨rfl, rfl⟩ := Prod.mk.inj (Option.some.inj hn) <;> trivial
  | containsPass i p c =>
    simp only [next] at hn
    split at hn
    · split at hn <;> obtain ⟨rfl, rfl⟩ := Prod.mk.inj (Option.some.inj hn) <;> trivial
    · obtain ⟨rfl, rfl⟩ := Prod.mk.inj (Option.some.inj hn)
      trivial
  | containsNext i p c => exact same hn fun _ => rfl
  | ret r => cases hn
  | _ =>
    obtain ⟨rfl, rfl⟩ := Prod.mk.inj (Option.some.inj hn)
    trivial

theorem fails_unhindered (hno : ¬ op.IsInsert) (hm : MemInv σ 1 L) (f : Fit σ L op pc)
    (hn : next σ op slot level pc = some (σ', pc')) (h : pc.Fails σ) : pc'.Unhindered σ' := by
  cases pc with
  | findDown e i p path =>
    simp only [next, if_pos (show ((σ.node p).next i).isMarked = true from h)] at hn
    obtain ⟨rfl, rfl⟩ := Prod.mk.inj (Option.some.inj hn)
    exact hm.head_alive _
  | findCas e i p d s path =>
    simp only [next, if_neg (show ¬ (σ.node p).next i = Ptr.addr d from h)] at hn
    obtain ⟨rfl, rfl⟩ := Prod.mk.inj (Option.some.inj hn)
    exact hm.head_alive _
  | upperLink path n i => exact absurd f.fits hno
  | lostFree n => exact absurd f.fits hno
  | _ => exact False.elim h

theorem Sane.nears {I : Store V → Pc → Prop}
    (step : ∀ {s s' pc pc' slot level}, Sane s → Sane s' → s.thread t = some (op, pc) →
      s'.thread t = some (op, pc') → next s.store op slot level pc = some (s'.store, pc') →
      I s.store pc → (cleanMachine V).Returns t s' ∨ (¬ pc.Fails s.store ∧ I s'.store pc'))
    (cur : ∀ {σ pc}, I σ pc → pc.Current σ) (h : Sane s) (ht : s.thread t = some (op, pc))
    (hI : I s.store pc) : (cleanMachine V).Returns t s := by
  refine Machine.returns_of (I := fun s pc => Sane s ∧ I s.store pc)
    (fun s pc => pc.way s.store) (fun h ht => h.1.can ht) ?_ ⟨h, hI⟩ ht
  rintro s pc s' ⟨h, hI⟩ ht hs
  rcases solo_cases ht hs with hd | ⟨pc', slot, level, ht', hn⟩
  · exact Or.inl (Inevitable.here hd)
  · refine (step h (h.solo hs) ht ht' hn hI).imp_right fun ⟨hf, hI'⟩ => ?_
    refine ⟨pc', ht', ⟨h.solo hs, hI'⟩, step_way h.1.mem (h.1.fit ht) hn hf ?_⟩
    rintro n i q rfl
    exact cur hI

theorem Sane.returns_unhindered (h : Sane s) (hno : ¬ op.IsInsert) (ht : s.thread t = some (op, pc))
    (hpc : pc.Unhindered s.store) : (cleanMachine V).Returns t s := by
  refine Sane.nears (I := fun σ pc => pc.Unhindered σ) ?_ Pc.Unhindered.current h ht hpc
  intro s s' pc pc' slot level h h' ht ht' hn hpc
  exact Or.inr ⟨hpc.not_fails, unhindered_step hno h.1.mem (h.1.fit ht) hn hpc⟩

theorem Sane.returns_current (h : Sane s) (hno : ¬ op.IsInsert) (ht : s.thread t = some (op, pc))
    (hpc : pc.Current s.store) : (cleanMachine V).Returns t s := by
  refine Sane.nears (I := fun σ pc => pc.Current σ) ?_ id h ht hpc
  intro s s' pc pc' slot level h h' ht ht' hn hpc
  have f := h.1.fit ht
  by_cases hf : pc.Fails s.store
  · exact Or.inl (h'.returns_unhindered hno ht' (fails_unhindered hno h.1.mem f hn hf))
  · exact Or.inr ⟨hf, current_next hn⟩

theorem Sane.returns (h : Sane s) (hno : ¬ op.IsInsert) (ht : s.thread t = some (op, pc)) :
    (cleanMachine V).Returns t s := by
  refine Inevitable.later (h.can ht) fun s' hs => ?_
  rcases solo_cases ht hs with hd | ⟨pc', slot, level, ht', hn⟩
  · exact Inevitable.here hd
  · exact (h.solo hs).returns_current hno ht' (current_next hn)

theorem linkFreeSkipList_others_return (ρ : Run (machine V)) (clean : Clean ρ) (t : Tid)
    (op : SetOp V) (hno : ¬ op.IsInsert) (pc : Pc)
    (ht : (ρ.state ρ.length).thread t = some (op, pc)) :
    (cleanMachine V).Returns t (ρ.state ρ.length) :=
  (sane_run ρ clean ρ.length le_rfl).returns hno ht

-- the remove of a thread that has marked its node and stopped, in front of a blocked insert
theorem linkFreeSkipList_others_return_marked : ∃ (ρ : Run (machine ℕ)) (pc : Pc),
    (ρ.state ρ.length).thread 1 = some (.remove 5, pc) ∧
      (cleanMachine ℕ).Returns 1 (ρ.state ρ.length) := by
  obtain ⟨ρ, hρ, _⟩ := exists_play 0 exec (fun h => h) insertAtMarked (by decide +kernel)
  have clean := clean_of_neverRecycled (neverRecycled_of_plays (fun h => h) hρ (by decide +kernel))
  have last := hρ.last (P := fun s =>
    decide (s.thread 1 = some (.remove 5, .deleteLoad (.remove true) 2))) (by decide +kernel)
  have h1 := of_decide_eq_true last
  exact ⟨ρ, _, h1, linkFreeSkipList_others_return ρ clean 1 (.remove 5) id _ h1⟩

end LinkFree.SkipList
