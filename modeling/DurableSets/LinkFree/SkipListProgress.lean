import DurableSets.LinkFree.SkipListMeasure
import DurableSets.LinkFree.SkipListLinearizable

namespace LinkFree.SkipList

open Chain

variable {V : Type} {σ σ' : Store V} {L : Set Cursor} {x y p n c d slot : Loc} {i j G level : ℕ}
  {op : SetOp V} {pc pc' : Pc} {path : Path} {q : Ptr} {k : ℤ} {s s' : State V} {t : Tid}

-- ssmem_alloc hands out no slot that a running call can still get to
def cleanMachine (V : Type) : Machine (State V) (SetOp V) Pc where
  init := (machine V).init
  step s e s' := Step s e s' ∧ s.Clean s'
  thread := State.thread
  init_idle := (machine V).init_idle
  step_other h := (machine V).step_other h.1
  step_call h := (machine V).step_call h.1
  step_ret h := (machine V).step_ret h.1
  step_tau h := (machine V).step_tau h.1

def Bounded (s : State V) : Prop :=
  ∃ N : ℕ, ∀ x : ℕ, N ≤ x → s.store.avail x = true ∧ (x, 0) ∉ s.live

theorem bounded_initial (zero : V) (junk : Uchar) : Bounded (initial zero junk) := by
  refine ⟨2, fun x hx => ⟨?_, fun h => ?_⟩⟩
  · have h0 : x ≠ head := by rintro rfl; exact absurd hx (by decide)
    have h1 : x ≠ tail := by rintro rfl; exact absurd hx (by decide)
    simp [initial, initialStore, h0, h1]
  · rcases (initial_live zero junk h).1 with h | h <;> obtain rfl : x = _ := h <;>
      exact absurd hx (by decide)

theorem Bounded.step_live {L' : Set Cursor} (h : Bounded s) (hL : L' ⊆ s.live) :
    ∃ N : ℕ, ∀ x : ℕ, N ≤ x → s.store.avail x = true ∧ (x, 0) ∉ L' := by
  obtain ⟨N, hN⟩ := h
  exact ⟨N, fun x hx => ⟨(hN x hx).1, fun hl => (hN x hx).2 (hL hl)⟩⟩

theorem Bounded.step (h : Bounded s) (hi : Inv 1 s) {e : Event (SetOp V)} (hs : Step s e s')
    (clean : s.Clean s') : Bounded s' := by
  cases hs with
  | call t op idle hk =>
    refine h.step_live (live_goto hi.mem subset_rfl fun op1 pc1 ha => ?_)
    obtain ⟨rfl, rfl⟩ := Prod.mk.inj (Option.some.inj ha)
    exact (start_fit hi.mem hk).refs
  | ret t op r ht => exact h.step_live (live_goto hi.mem subset_rfl fun _ _ ha => nomatch ha)
  | tau t op pc pc' slot level σ ht hn ha =>
    obtain ⟨L', e, f, _⟩ := tau_ok hi ht (hi.tidy_one (.tau t) t op pc rfl ht) hn ha clean
    have hl : (s.goto σ t (some (op, pc'))).live ⊆ L' := by
      refine live_goto (e.memInv hi.mem) (e.kept hi.mem).subset fun op1 pc1 ha => ?_
      obtain ⟨rfl, rfl⟩ := Prod.mk.inj (Option.some.inj ha)
      exact f.refs
    obtain ⟨N, hN⟩ := h
    refine ⟨N + (slot + 1) + ((pc.owns.getD 0 : ℕ) + 1), fun x hx => ?_⟩
    have hx0 := hN x (by omega)
    refine ⟨?_, fun hxl => ?_⟩
    · change σ.avail x = true
      by_contra hne
      obtain ⟨he, _⟩ := next_take hn hx0.1 (by simpa using hne)
      have : (x : ℕ) = slot := he
      omega
    · rcases e.new (hl hxl) with hxl | ho
      · exact hx0.2 hxl
      · rw [ho, Option.getD_some] at hx
        omega

def Sane (s : State V) : Prop := Inv 1 s ∧ Bounded s

theorem Sane.step (h : Sane s) {e : Event (SetOp V)} (hs : (cleanMachine V).step s e s') :
    Sane s' := ⟨h.1.step (h.1.tidy_one e) hs.2 hs.1, h.2.step h.1 hs.1 hs.2⟩

theorem sane_run (ρ : Run (machine V)) (clean : Clean ρ) : ∀ n ≤ ρ.length, Sane (ρ.state n) := by
  refine Run.stepwise ?_ fun m hm h => h.step ⟨ρ.step hm, clean m hm⟩
  obtain ⟨zero, junk, h⟩ := ρ.init
  rw [h]
  exact ⟨inv_initial zero junk (by decide) (by decide), bounded_initial zero junk⟩

theorem path_get (ho : PathOk σ op 0 path) (hins : op.IsInsert) (hi : i < MAX_LEVEL) :
    ∃ e, path[i]? = some e := by
  have := ho.length hins
  exact ⟨_, List.getElem?_eq_getElem (by omega)⟩

theorem next_enabled (hm : MemInv σ 1 L) (f : Fit σ L op pc)
    (hret : ∀ r, pc ≠ .ret r) (slot : Loc) (level : ℕ) :
    ∃ σ' pc', next σ op slot level pc = some (σ', pc') := by
  have ahead : ∀ {x i}, (x, i) ∈ L → rank σ x < (op.key : ℤ) ∨ σ.dead i x →
      ∃ d, ((σ.node x).next i).ref = some d := by
    intro x i hx h
    refine hm.sound.succ_ne_none hx ?_
    exact h.elim (fun h => ne_tail_of_rank hm f.key h.le) hm.ne_tail_of_dead
  cases pc with
  | searchDown i p path =>
    obtain ⟨d, hd⟩ := ahead (f.refs (p, i) (by simp [Pc.refs])) (Or.inl f.loc.2.1)
    exact ⟨_, _, by simp only [next, hd]; rfl⟩
  | searchTest i p c path => simp only [next]; split <;> [skip; split] <;> exact ⟨_, _, rfl⟩
  | searchNext i p c path =>
    obtain ⟨d, hd⟩ := ahead (f.refs (c, i) (by simp [Pc.refs])) f.loc.2.2.2
    exact ⟨_, _, by simp only [next, hd]; rfl⟩
  | findDown e i p path =>
    obtain ⟨d, hd⟩ := ahead (f.refs (p, i) (by simp [Pc.refs])) (Or.inl f.loc.2.1)
    simp only [next, hd]
    split <;> exact ⟨_, _, rfl⟩
  | findLoad e i p d s path =>
    have hsl := f.refs (s, i) (by simp [Pc.refs])
    simp only [next]
    split
    · next hmk =>
      obtain ⟨z, hz⟩ := ahead hsl (Or.inr hmk)
      exact ⟨_, _, by rw [hz]; rfl⟩
    · split
      · exact ⟨_, _, rfl⟩
      · next hk =>
        obtain ⟨z, hz⟩ := ahead hsl (Or.inl (rank_lt_of_key (not_le.1 hk) f.loc.2.2.2.2.1))
        exact ⟨_, _, by rw [hz]; rfl⟩
  | initValue path n l =>
    cases op with
    | insert k v => exact ⟨_, _, rfl⟩
    | _ => exact absurd f.fits id
  | initNext path n i =>
    have ho : NextOk σ op path n i := f.loc.1
    obtain ⟨e, he⟩ := path_get ho.init.gap.levels f.fits (f.loc.2.trans_le ho.le)
    exact ⟨_, _, by simp only [next, he]; rfl⟩
  | linkCas path n =>
    have ho : NextOk σ op path n _ := f.loc
    obtain ⟨e, he⟩ := path_get ho.init.gap.levels f.fits (by decide : 0 < MAX_LEVEL)
    simp only [next, he, Option.map_some]
    split <;> exact ⟨_, _, rfl⟩
  | upperLoad path n i =>
    have hi := f.loc.lt.trans_le (hm.level (f.refs (n, i - 1) (by simp [Pc.refs]))).2
    obtain ⟨e, he⟩ := path_get f.loc.levels f.fits hi
    simp only [next, he, Option.map_some]
    split <;> exact ⟨_, _, rfl⟩
  | upperCas path n i q =>
    have hi := f.loc.1.lt.trans_le (hm.level (f.refs (n, i - 1) (by simp [Pc.refs]))).2
    obtain ⟨e, he⟩ := path_get f.loc.1.levels f.fits hi
    simp only [next, he, Option.map_some]
    split <;> exact ⟨_, _, rfl⟩
  | upperLink path n i =>
    have hi := f.loc.1.lt.trans_le (hm.level (f.refs (n, i - 1) (by simp [Pc.refs]))).2
    obtain ⟨e, he⟩ := path_get f.loc.1.levels f.fits hi
    simp only [next, he, Option.map_some]
    split <;> exact ⟨_, _, rfl⟩
  | ret r => exact absurd rfl (hret r)
  | findCas e i p d s path => simp only [next]; split <;> exact ⟨_, _, rfl⟩
  | deleteLoad e n => simp only [next]; split <;> exact ⟨_, _, rfl⟩
  | validLoad e n => simp only [next]; split <;> exact ⟨_, _, rfl⟩
  | insertLoad e n => simp only [next]; split <;> exact ⟨_, _, rfl⟩
  | markLoad n i => simp only [next]; split <;> exact ⟨_, _, rfl⟩
  | markCas n i q => simp only [next]; split <;> exact ⟨_, _, rfl⟩
  | containsDown i p =>
    obtain ⟨d, hd⟩ := ahead (f.refs (p, i) (by simp [Pc.refs])) (Or.inl f.loc.2)
    exact ⟨_, _, by simp only [next, hd]; rfl⟩
  | containsTest i p c =>
    simp only [next]
    split <;> [skip; (split <;> [skip; cases i])] <;> exact ⟨_, _, rfl⟩
  | containsPass i p c => simp only [next]; split <;> [split; skip] <;> exact ⟨_, _, rfl⟩
  | containsNext i p c =>
    obtain ⟨d, hd⟩ := ahead (f.refs (c, i) (by simp [Pc.refs])) f.loc.2.2
    exact ⟨_, _, by simp only [next, hd]; rfl⟩
  | _ => exact ⟨_, _, rfl⟩

theorem Sane.can (h : Sane s) (ht : s.thread t = some (op, pc)) :
    ∃ s', (cleanMachine V).Solo t s s' := by
  by_cases hret : ∃ r, pc = .ret r
  · obtain ⟨r, rfl⟩ := hret
    exact ⟨_, Or.inr ⟨r, Step.ret t op r ht, fun x h1 h2 => absurd (h1.symm.trans h2) nofun⟩⟩
  · obtain ⟨N, hN⟩ := h.2
    obtain ⟨σ, pc', hn⟩ := next_enabled h.1.mem (h.1.fit ht) (fun r e => hret ⟨r, e⟩) N 1
    refine ⟨_, Or.inl ⟨Step.tau t op pc pc' N 1 σ ht hn fun _ _ => ⟨(hN N le_rfl).1, by decide⟩, ?_⟩⟩
    intro x h1 h2
    obtain ⟨rfl, _⟩ := next_take hn h1 h2
    exact (hN _ le_rfl).2

theorem solo_cases (ht : s.thread t = some (op, pc)) (hs : (cleanMachine V).Solo t s s') :
    (s'.thread t = none) ∨ ∃ pc' slot level,
      s'.thread t = some (op, pc') ∧ next s.store op slot level pc = some (s'.store, pc') := by
  rcases hs with ⟨hs, _⟩ | ⟨r, hs, _⟩
  · cases hs with
    | tau _ op1 pc1 pc' slot level σ h hn ha =>
      obtain ⟨rfl, rfl⟩ := Prod.mk.inj (Option.some.inj (ht.symm.trans h))
      exact Or.inr ⟨pc', slot, level, goto_thread_self _ _ _ _, hn⟩
  · cases hs with
    | ret _ op1 _ h => exact Or.inl (goto_thread_self _ _ _ _)

theorem Sane.solo (h : Sane s) (hs : (cleanMachine V).Solo t s s') : Sane s' := by
  rcases hs with hs | ⟨r, hs⟩ <;> exact h.step hs

theorem Sane.returns_of (h : Sane s) {I : Store V → Pc → Prop}
    (step : ∀ {s s' pc pc' slot level}, Sane s → Sane s' → s.thread t = some (op, pc) →
      s'.thread t = some (op, pc') → next s.store op slot level pc = some (s'.store, pc') →
      I s.store pc → (cleanMachine V).Returns t s' ∨
        (I s'.store pc' ∧ pc'.measure s'.store < pc.measure s.store))
    (ht : s.thread t = some (op, pc)) (hI : I s.store pc) : (cleanMachine V).Returns t s := by
  let μ : State V → ℕ ×ₗ ℕ ×ₗ ℕ := fun s => match s.thread t with
    | some (_, pc) => pc.measure s.store
    | none => stage 0 0 0
  refine inevitable_of_measure μ (I := fun s => Sane s ∧ ∃ pc, s.thread t = some (op, pc) ∧
    I s.store pc) ?_ ?_ ⟨h, pc, ht, hI⟩
  · rintro s ⟨h, pc, ht, _⟩
    exact Or.inr (h.can ht)
  · rintro s s' ⟨h, pc, ht, hI⟩ hs
    rcases solo_cases ht hs with hd | ⟨pc', slot, level, ht', hn⟩
    · exact Or.inl (Inevitable.here hd)
    · refine (step h (h.solo hs) ht ht' hn hI).imp_right fun ⟨hI', hlt⟩ =>
        ⟨⟨h.solo hs, pc', ht', hI'⟩, ?_⟩
      simpa only [μ, ht, ht'] using hlt

def Adjacent (σ : Store V) (i : ℕ) (path : Path) : Prop :=
  ∀ j e, path[j]? = some e → (σ.node e.1).next (i + j) = Ptr.addr e.2

def Reaches (σ : Store V) (l : ℕ) (path : Path) : Prop :=
  ∀ j, l ≤ j → ∀ e, path[j]? = some e → (σ.node e.1).next j = Ptr.addr e.2

def DeleteCtx.Smooth (σ : Store V) : DeleteCtx → Prop
  | .find _ pred predNext _ path =>
    (σ.node pred).next 0 = Ptr.addr predNext ∧ Adjacent σ 1 path
  | _ => False

def Pc.Smooth (σ : Store V) : Pc → Prop
  | .findDown _ i pred path => ¬ σ.dead i pred ∧ Adjacent σ (i + 1) path
  | .findLoad _ i pred predNext _ path =>
    (σ.node pred).next i = Ptr.addr predNext ∧ Adjacent σ (i + 1) path
  | .findCas _ i pred predNext _ path =>
    (σ.node pred).next i = Ptr.addr predNext ∧ Adjacent σ (i + 1) path
  | .deleteLoad c _ => c.Smooth σ
  | .deleteFlush c _ => c.Smooth σ
  | .deleteStore c _ => c.Smooth σ
  | .upperLoad path _ l => Reaches σ l path
  | .upperCas path _ l _ => Reaches σ l path
  | .upperLink path _ l => Reaches σ l path
  | .ret _ => True
  | _ => False

theorem addr_of_alive (hd : ¬ σ.dead i x) (hs : ((σ.node x).next i).ref = some y) :
    (σ.node x).next i = Ptr.addr y := by
  unfold Store.dead at hd
  rcases hq : (σ.node x).next i with ⟨r, m⟩
  rw [hq] at hs hd
  cases m
  · exact congrArg (fun r => (⟨r, false⟩ : Ptr)) hs
  · exact absurd rfl hd

theorem Pc.Smooth.not_fails (h : pc.Smooth σ) : ¬ pc.Fails σ := by
  cases pc with
  | findDown c i p path => exact h.1
  | findCas c i p d s path => exact not_not.2 h.1
  | upperLink path n i => exact fun ⟨e, he, hne⟩ => hne (h i le_rfl e he)
  | lostFree n => exact False.elim h
  | _ => exact id

theorem adjacent_congr (h : ∀ x, (σ'.node x).next = (σ.node x).next) (ha : Adjacent σ i path) :
    Adjacent σ' i path := fun j e he => (congrFun (h e.1) _).trans (ha j e he)

theorem adjacent_cons {e : Loc × Loc} (he : (σ.node e.1).next i = Ptr.addr e.2)
    (ha : Adjacent σ (i + 1) path) : Adjacent σ i (e :: path) := by
  intro j a hj
  cases j with
  | zero =>
    obtain rfl : e = a := by simpa using hj
    exact he
  | succ j =>
    have := ha j a (by simpa using hj)
    rwa [show i + 1 + j = i + (j + 1) by omega] at this

theorem adjacent_setNext (ha : Adjacent σ (i + 1) path) (x : Loc) (q : Ptr) :
    Adjacent (σ.setNext x i q) (i + 1) path := fun j e he =>
  (next_setNext_other σ q fun h => by omega).trans (ha j e he)

theorem Adjacent.reaches (h : Adjacent σ 0 path) (l : ℕ) : Reaches σ l path := by
  intro j _ e he
  have := h j e he
  rwa [Nat.zero_add] at this

theorem findDone_smooth {e : FindCtx} (hm : MemInv σ G L) (hins : op.IsInsert) (hf : e.Fits op)
    (hp : (p, i) ∈ L) (hs : (σ.node p).next i = Ptr.addr c) (ha : Adjacent σ (i + 1) path) :
    (findDone e p c path i).Smooth σ := by
  cases e with
  | inRemove n => cases op <;> first | exact hins.elim | exact hf.elim
  | inInsert n l =>
    have ha' : Adjacent σ i ((p, c) :: path) := adjacent_cons hs ha
    cases i with
    | zero => exact ha'.reaches l
    | succ i => exact ⟨hm.alive_below hp (Nat.le_succ i) (dead_of_addr hs), ha'⟩

theorem upper_smooth {l : ℕ} (h : Reaches σ l path) (n : Loc) : (upper σ' path n l).Smooth σ := by
  unfold upper
  split
  · exact h
  · trivial

theorem smooth_step (hins : op.IsInsert) (hm : MemInv σ 1 L) (f : Fit σ L op pc)
    (hn : next σ op slot level pc = some (σ', pc')) (h : pc.Smooth σ) : pc'.Smooth σ' := by
  cases pc with
  | findDown e i p path =>
    simp only [next] at hn
    rw [if_neg (show ¬ ((σ.node p).next i).isMarked = true from h.1)] at hn
    obtain ⟨s, hs, he⟩ := Option.map_eq_some_iff.1 hn
    obtain ⟨rfl, rfl⟩ := Prod.mk.inj he
    exact ⟨addr_of_alive h.1 hs, h.2⟩
  | findLoad e i p d s path =>
    simp only [next] at hn
    split at hn
    · obtain ⟨z, hz, he⟩ := Option.map_eq_some_iff.1 hn
      obtain ⟨rfl, rfl⟩ := Prod.mk.inj he
      split
      · next h0 =>
        subst h0
        exact h
      · exact h
    · next hmk =>
      split at hn
      · obtain ⟨rfl, rfl⟩ := Prod.mk.inj (Option.some.inj hn)
        split
        · next hds =>
          subst hds
          exact findDone_smooth hm hins f.fits (f.refs (p, i) (by simp [Pc.refs])) h.1 h.2
        · exact h
      · obtain ⟨z, hz, he⟩ := Option.map_eq_some_iff.1 hn
        obtain ⟨rfl, rfl⟩ := Prod.mk.inj he
        exact ⟨addr_of_alive hmk hz, h.2⟩
  | findCas e i p d s path =>
    obtain ⟨_, _, _, _, _, hds⟩ := f.loc
    have hpl := f.refs (p, i) (by simp [Pc.refs])
    simp only [next, if_pos h.1] at hn
    obtain ⟨rfl, rfl⟩ := Prod.mk.inj (Option.some.inj hn)
    have ef : Effect σ 1 L none L (σ.setNext p i (Ptr.addr s)) :=
      Effect.swing p d s i none hpl h.1 hds
    exact findDone_smooth (ef.memInv hm) hins f.fits hpl (next_setNext_self σ p i _)
      (adjacent_setNext h.2 p _)
  | deleteLoad e n =>
    simp only [next] at hn
    split at hn <;> obtain ⟨rfl, rfl⟩ := Prod.mk.inj (Option.some.inj hn)
    · cases e with
      | find c p d s path => exact h
      | _ => exact False.elim h
    · exact h
  | deleteFlush e n =>
    obtain ⟨rfl, rfl⟩ := Prod.mk.inj (Option.some.inj hn)
    have hnext := next_flush σ n
    cases e with
    | find c p d s path => exact ⟨(congrFun (hnext p) 0).trans h.1, adjacent_congr hnext h.2⟩
    | _ => exact False.elim h
  | deleteStore e n =>
    obtain ⟨rfl, rfl⟩ := Prod.mk.inj (Option.some.inj hn)
    have hnext : ∀ x, ((σ.write n { σ.node n with deleteFlag := true }).node x).next =
        (σ.node x).next := next_write (by rfl)
    cases e with
    | find c p d s path => exact ⟨(congrFun (hnext p) 0).trans h.1, adjacent_congr hnext h.2⟩
    | _ => exact False.elim h
  | upperLoad path n i =>
    simp only [next] at hn
    split at hn
    · obtain ⟨rfl, rfl⟩ := Prod.mk.inj (Option.some.inj hn)
      trivial
    · obtain ⟨e, _, he⟩ := Option.map_eq_some_iff.1 hn
      obtain ⟨rfl, rfl⟩ := Prod.mk.inj he
      split <;> exact h
  | upperCas path n i q =>
    have ho : UpperOk σ op path n i := f.loc.1
    simp only [next] at hn
    obtain ⟨e, _, he⟩ := Option.map_eq_some_iff.1 hn
    split at he <;> obtain ⟨rfl, rfl⟩ := Prod.mk.inj he
    · intro j hj a ha
      refine (next_setNext_other σ _ ?_).trans (h j hj a ha)
      rintro ⟨rfl, _⟩
      have := ho.levels.below a (List.mem_of_getElem? ha)
      rw [ho.rank] at this
      exact lt_irrefl _ this
    · trivial
  | upperLink path n i =>
    simp only [next] at hn
    obtain ⟨e, hpath, he⟩ := Option.map_eq_some_iff.1 hn
    rw [if_pos (h i le_rfl e hpath)] at he
    obtain ⟨rfl, rfl⟩ := Prod.mk.inj he
    refine upper_smooth (fun j hj a ha => ?_) n
    exact (next_setNext_other σ _ fun h => by omega).trans (h j (by omega) a ha)
  | ret r => cases hn
  | _ => exact False.elim h

theorem Sane.returns_smooth (h : Sane s) (hins : op.IsInsert) (ht : s.thread t = some (op, pc))
    (hpc : pc.Smooth s.store) : (cleanMachine V).Returns t s := by
  refine h.returns_of (I := fun σ pc => pc.Smooth σ) ?_ ht hpc
  intro s s' pc pc' slot level h h' ht ht' hn hpc
  have f := h.1.fit ht
  exact Or.inr ⟨smooth_step hins h.1.mem f hn hpc,
    step_measure hins h.1.mem f hn (h'.1.fit ht').fits hpc.not_fails⟩

-- the path, once it is known, of an insert that has yet to link its node at level 0
def Pc.trying : Pc → Option Path
  | .searchDown _ _ _ => some []
  | .searchTest _ _ _ _ => some []
  | .searchNext _ _ _ _ => some []
  | .alloc path => some path
  | .flipLoad path _ _ => some path
  | .flipStore path _ _ _ => some path
  | .initInsertFlag path _ _ => some path
  | .initDeleteFlag path _ _ => some path
  | .initKey path _ _ => some path
  | .initValue path _ _ => some path
  | .initTopLevel path _ _ => some path
  | .initNext path _ _ => some path
  | .linkCas path _ => some path
  | .lostStore _ => some []
  | .validLoad .lost _ => some []
  | .validStore .lost _ _ => some []
  | .lostFree _ => some []
  | _ => none

theorem upper_trying (τ : Store V) (path : Path) (n : Loc) (l : ℕ) :
    (upper τ path n l).trying = none := by
  unfold upper
  split <;> rfl

theorem afterInsert_trying (τ : Store V) (n : Loc) (e : InsertCtx) :
    (afterInsert τ n e).trying = none := by
  cases e with
  | linked path => exact upper_trying τ path n 1
  | _ => rfl

theorem afterValid_trying {e : ValidCtx} (he : e ≠ .lost) (τ : Store V) (n : Loc) :
    (afterValid τ n e).trying = none := by
  cases e <;> first | rfl | exact absurd rfl he

theorem findDone_trying (e : FindCtx) (p c : Loc) (path : Path) (i : ℕ) :
    (findDone e p c path i).trying = none := by
  cases i with
  | succ i => rfl
  | zero => cases e <;> rfl

theorem afterDelete_trying {e : DeleteCtx} (n : Loc) : (afterDelete n e).trying = none := by
  rcases e with _ | r | _
  · rfl
  · cases r <;> rfl
  · rfl

theorem settled_step (hins : op.IsInsert) (hm : MemInv σ 1 L) (f : Fit σ L op pc)
    (hn : next σ op slot level pc = some (σ', pc')) (h : pc.trying = none) :
    (pc.Fails σ ∧ pc'.Smooth σ') ∨ (¬ pc.Fails σ ∧ pc'.trying = none) := by
  have again : ∀ {e : FindCtx}, e.retry.Smooth σ := ⟨hm.head_alive _, fun j e he => by simp at he⟩
  cases pc with
  | findDown e i p path =>
    simp only [next] at hn
    split at hn
    · next hmk =>
      obtain ⟨rfl, rfl⟩ := Prod.mk.inj (Option.some.inj hn)
      exact Or.inl ⟨hmk, again⟩
    · next hmk =>
      obtain ⟨s, hs, he⟩ := Option.map_eq_some_iff.1 hn
      obtain ⟨rfl, rfl⟩ := Prod.mk.inj he
      exact Or.inr ⟨hmk, rfl⟩
  | findLoad e i p d s path =>
    refine Or.inr ⟨id, ?_⟩
    simp only [next] at hn
    split at hn
    · obtain ⟨z, hz, he⟩ := Option.map_eq_some_iff.1 hn
      obtain ⟨rfl, rfl⟩ := Prod.mk.inj he
      split <;> rfl
    · split at hn
      · obtain ⟨rfl, rfl⟩ := Prod.mk.inj (Option.some.inj hn)
        split
        · exact findDone_trying _ _ _ _ _
        · rfl
      · obtain ⟨z, hz, he⟩ := Option.map_eq_some_iff.1 hn
        obtain ⟨rfl, rfl⟩ := Prod.mk.inj he
        rfl
  | findCas e i p d s path =>
    simp only [next] at hn
    split at hn <;> obtain ⟨rfl, rfl⟩ := Prod.mk.inj (Option.some.inj hn)
    · next hnext => exact Or.inr ⟨not_not.2 hnext, findDone_trying _ _ _ _ _⟩
    · next hnext => exact Or.inl ⟨hnext, again⟩
  | deleteLoad e n =>
    refine Or.inr ⟨id, ?_⟩
    simp only [next] at hn
    split at hn <;> obtain ⟨rfl, rfl⟩ := Prod.mk.inj (Option.some.inj hn)
    · exact afterDelete_trying n
    · rfl
  | deleteStore e n =>
    obtain ⟨rfl, rfl⟩ := Prod.mk.inj (Option.some.inj hn)
    exact Or.inr ⟨id, afterDelete_trying n⟩
  | validLoad e n =>
    refine Or.inr ⟨id, ?_⟩
    have he : e ≠ .lost := by
      rintro rfl
      cases h
    simp only [next] at hn
    split at hn <;> obtain ⟨rfl, rfl⟩ := Prod.mk.inj (Option.some.inj hn)
    · exact afterValid_trying he σ n
    · cases e <;> first | rfl | exact absurd rfl he
  | validStore e n old =>
    have he : e ≠ .lost := by
      rintro rfl
      cases h
    obtain ⟨rfl, rfl⟩ := Prod.mk.inj (Option.some.inj hn)
    exact Or.inr ⟨id, afterValid_trying he σ n⟩
  | insertLoad e n =>
    refine Or.inr ⟨id, ?_⟩
    simp only [next] at hn
    split at hn <;> obtain ⟨rfl, rfl⟩ := Prod.mk.inj (Option.some.inj hn)
    · exact afterInsert_trying σ n e
    · rfl
  | insertStore e n =>
    obtain ⟨rfl, rfl⟩ := Prod.mk.inj (Option.some.inj hn)
    exact Or.inr ⟨id, afterInsert_trying σ n e⟩
  | upperLoad path n i =>
    refine Or.inr ⟨id, ?_⟩
    simp only [next] at hn
    split at hn
    · obtain ⟨rfl, rfl⟩ := Prod.mk.inj (Option.some.inj hn)
      rfl
    · obtain ⟨e, _, he⟩ := Option.map_eq_some_iff.1 hn
      obtain ⟨rfl, rfl⟩ := Prod.mk.inj he
      split <;> rfl
  | upperCas path n i q =>
    refine Or.inr ⟨id, ?_⟩
    simp only [next] at hn
    obtain ⟨e, _, he⟩ := Option.map_eq_some_iff.1 hn
    split at he <;> obtain ⟨rfl, rfl⟩ := Prod.mk.inj he <;> rfl
  | upperLink path n i =>
    simp only [next] at hn
    obtain ⟨e, hpath, he⟩ := Option.map_eq_some_iff.1 hn
    split at he <;> obtain ⟨rfl, rfl⟩ := Prod.mk.inj he
    · next hnext =>
      refine Or.inr ⟨?_, upper_trying _ _ _ _⟩
      rintro ⟨a, ha, hne⟩
      obtain rfl := Option.some.inj (hpath.symm.trans ha)
      exact hne hnext
    · next hnext => exact Or.inl ⟨⟨e, hpath, hnext⟩, (again : (FindCtx.inInsert n i).retry.Smooth σ)⟩
  | deleteFlush e n =>
    obtain ⟨rfl, rfl⟩ := Prod.mk.inj (Option.some.inj hn)
    exact Or.inr ⟨id, rfl⟩
  | insertFlush e n =>
    obtain ⟨rfl, rfl⟩ := Prod.mk.inj (Option.some.inj hn)
    exact Or.inr ⟨id, rfl⟩
  | markLoad n i => cases op <;> first | exact hins.elim | exact False.elim f.fits
  | markCas n i q => cases op <;> first | exact hins.elim | exact False.elim f.fits
  | removeFree n => cases op <;> first | exact hins.elim | exact False.elim f.fits
  | containsDown i p => cases op <;> first | exact hins.elim | exact False.elim f.fits
  | containsTest i p c => cases op <;> first | exact hins.elim | exact False.elim f.fits
  | containsPass i p c => cases op <;> first | exact hins.elim | exact False.elim f.fits
  | containsNext i p c => cases op <;> first | exact hins.elim | exact False.elim f.fits
  | ret r => cases hn
  | _ => cases h

theorem Sane.returns_settled (h : Sane s) (hins : op.IsInsert) (ht : s.thread t = some (op, pc))
    (hpc : pc.trying = none) : (cleanMachine V).Returns t s := by
  refine h.returns_of (I := fun _ pc => pc.trying = none) ?_ ht hpc
  intro s s' pc pc' slot level h h' ht ht' hn hpc
  have f := h.1.fit ht
  rcases settled_step hins h.1.mem f hn hpc with ⟨_, hs⟩ | ⟨hf, hs⟩
  · exact Or.inl (h'.returns_smooth hins ht' hs)
  · exact Or.inr ⟨hs, step_measure hins h.1.mem f hn (h'.1.fit ht').fits hf⟩

end LinkFree.SkipList
