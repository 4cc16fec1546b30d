import DurableSets.SOFT.SkipListMeasure

namespace SOFT.SkipList

open Chain

variable {V : Type} {σ σ' : Store V} {L : Set Cursor} {x y p n c d slot : Loc} {i j G level : ℕ}
  {op : SetOp V} {pc pc' : Pc} {path : Path} {q : Ptr} {k : ℤ} {st : NodeState} {e : Entry}
  {s s' : State V} {t : Tid}

-- ssmem_alloc hands out no slot that a running call can still get to
def cleanMachine (V : Type) : Machine (State V) (SetOp V) Pc where
  init := (machine V).init
  step s e s' := Step s e s' ∧ s.Clean s'
  thread := State.thread
  init_idle := (machine V).init_idle
  step_other h := (machine V).step_other h.1
  step_call h := (machine V).step_call h.1
  step_ret h := (machine V).step_ret h.1
  step_tau h := (machine V).step_tau h.1

def Bounded (s : State V) : Prop :=
  ∃ N : ℕ, ∀ x : ℕ, N ≤ x → s.store.avail x = true ∧ (x, 0) ∉ s.live

theorem bounded_initial (zero : V) : Bounded (initial zero) := by
  refine ⟨2, fun x hx => ⟨?_, fun h => ?_⟩⟩
  · have h0 : x ≠ head := by rintro rfl; exact absurd hx (by decide)
    have h1 : x ≠ tail := by rintro rfl; exact absurd hx (by decide)
    simp [initial, initialStore, h0, h1]
  · rcases (initial_live zero h).1 with h | h <;> obtain rfl : x = _ := h <;>
      exact absurd hx (by decide)

theorem Bounded.step_live {L' : Set Cursor} (h : Bounded s) (hL : L' ⊆ s.live) :
    ∃ N : ℕ, ∀ x : ℕ, N ≤ x → s.store.avail x = true ∧ (x, 0) ∉ L' := by
  obtain ⟨N, hN⟩ := h
  exact ⟨N, fun x hx => ⟨(hN x hx).1, fun hl => (hN x hx).2 (hL hl)⟩⟩

theorem Bounded.step (h : Bounded s) (hi : Inv 1 s) {e : Event (SetOp V)} (hs : Step s e s')
    (clean : s.Clean s') : Bounded s' := by
  cases hs with
  | call t op idle hk =>
    refine h.step_live (live_goto hi.mem subset_rfl fun op1 pc1 ha => ?_)
    obtain ⟨rfl, rfl⟩ := Prod.mk.inj (Option.some.inj ha)
    exact (start_fit hi.mem hk).refs
  | ret t op r ht => exact h.step_live (live_goto hi.mem subset_rfl fun _ _ ha => nomatch ha)
  | tau t op pc pc' slot level σ ht hn ha =>
    obtain ⟨L', e, f, _⟩ := tau_ok hi ht (hi.tidy_one (.tau t) t op pc rfl ht) hn ha clean
    have hl : (s.goto σ t (some (op, pc'))).live ⊆ L' := by
      refine live_goto (e.memInv hi.mem) (e.kept hi.mem).subset fun op1 pc1 ha => ?_
      obtain ⟨rfl, rfl⟩ := Prod.mk.inj (Option.some.inj ha)
      exact f.refs
    obtain ⟨N, hN⟩ := h
    refine ⟨N + (slot + 1) + ((pc.owns.getD 0 : ℕ) + 1), fun x hx => ?_⟩
    have hx0 := hN x (by omega)
    refine ⟨?_, fun hxl => ?_⟩
    · change σ.avail x = true
      by_contra hne
      obtain ⟨he, _⟩ := next_take hn hx0.1 (by simpa using hne)
      have : (x : ℕ) = slot := he
      omega
    · rcases e.new (hl hxl) with hxl | ho
      · exact hx0.2 hxl
      · rw [ho, Option.getD_some] at hx
        omega

def Sane (s : State V) : Prop := Inv 1 s ∧ Bounded s

theorem Sane.step (h : Sane s) {e : Event (SetOp V)} (hs : (cleanMachine V).step s e s') :
    Sane s' := ⟨h.1.step (h.1.tidy_one e) hs.2 hs.1, h.2.step h.1 hs.1 hs.2⟩

theorem sane_run (ρ : Run (machine V)) (clean : Clean ρ) : ∀ n ≤ ρ.length, Sane (ρ.state n) := by
  refine Run.stepwise ?_ fun m hm h => h.step ⟨ρ.step hm, clean m hm⟩
  obtain ⟨zero, h⟩ := ρ.init
  rw [h]
  exact ⟨inv_initial zero (by decide) (by decide), bounded_initial zero⟩

theorem path_get (ho : PathOk σ op 0 path) (hins : op.IsInsert) (hi : i < MAX_LEVEL) :
    ∃ e, path[i]? = some e := by
  have := ho.length hins
  exact ⟨_, List.getElem?_eq_getElem (by omega)⟩

theorem next_enabled (hins : op.IsInsert) (hm : MemInv σ 1 L) (f : Fit σ L op pc)
    (hret : ∀ r, pc ≠ .ret r) (slot : Loc) (level : ℕ) :
    ∃ σ' pc', next σ op slot level pc = some (σ', pc') := by
  have ahead : ∀ {x i}, (x, i) ∈ L → rank σ x < (op.key : ℤ) ∨ σ.dead i x →
      ∃ d, ((σ.node x).next i).ref = some d := by
    intro x i hx h
    refine hm.sound.succ_ne_none hx ?_
    exact h.elim (fun h => ne_tail_of_rank hm f.key h.le) hm.ne_tail_of_dead
  have entry : ∀ {path n i}, UpperOk σ op path n i → (n, i - 1) ∈ L → ∃ e, path[i]? = some e :=
    fun ho hl => path_get ho.levels hins (ho.lt.trans_le (hm.level hl).2)
  cases pc with
  | searchDown i p path =>
    obtain ⟨d, hd⟩ := ahead (f.refs (p, i) (by simp [Pc.refs])) (Or.inl f.loc.2.1)
    exact ⟨_, _, by simp only [next, hd]; rfl⟩
  | searchTest i p st y path => simp only [next]; split <;> [skip; split] <;> exact ⟨_, _, rfl⟩
  | searchNext i p st y path =>
    obtain ⟨d, hd⟩ := ahead (f.refs (y, i) (by simp [Pc.refs])) f.loc.2.2.2.2
    exact ⟨_, _, by simp only [next, hd]; rfl⟩
  | findDown c i p path =>
    obtain ⟨d, hd⟩ := ahead (f.refs (p, i) (by simp [Pc.refs])) (Or.inl f.loc.2.1)
    simp only [next, hd]
    split <;> exact ⟨_, _, rfl⟩
  | findLoad c i p st d y path =>
    have hyl := f.refs (y, i) (by simp [Pc.refs])
    simp only [next]
    split
    · next hd =>
      obtain ⟨z, hz⟩ := ahead hyl (Or.inr hd)
      exact ⟨_, _, by rw [hz]; rfl⟩
    · split
      · exact ⟨_, _, rfl⟩
      · next hk =>
        obtain ⟨z, hz⟩ := ahead hyl (Or.inl (rank_lt_of_key (not_le.1 hk) f.loc.2.2.2.2.2.1))
        exact ⟨_, _, by rw [hz]; rfl⟩
  | findCas c i p st d y path => simp only [next]; split <;> exact ⟨_, _, rfl⟩
  | stateTest c n => simp only [next]; split <;> exact ⟨_, _, rfl⟩
  | stateCas c n q => simp only [next]; split <;> exact ⟨_, _, rfl⟩
  | createValue path n l v =>
    cases op with
    | insert k w => exact ⟨_, _, rfl⟩
    | _ => exact hins.elim
  | initNext path n i =>
    have ho : NextOk σ op path n i := f.loc.1
    obtain ⟨e, he⟩ := path_get ho.init.gap.levels hins (f.loc.2.trans_le ho.le)
    exact ⟨_, _, by simp only [next, he]; rfl⟩
  | linkCas path n =>
    have ho : NextOk σ op path n _ := f.loc
    obtain ⟨e, he⟩ := path_get ho.init.gap.levels hins (by decide : 0 < MAX_LEVEL)
    simp only [next, he, Option.map_some]
    split <;> exact ⟨_, _, rfl⟩
  | upperLoad path n i =>
    obtain ⟨e, he⟩ := entry f.loc (f.refs (n, i - 1) (by simp [Pc.refs]))
    simp only [next, he, Option.map_some]
    split <;> exact ⟨_, _, rfl⟩
  | upperCas path n i q =>
    obtain ⟨e, he⟩ := entry f.loc.1 (f.refs (n, i - 1) (by simp [Pc.refs]))
    simp only [next, he, Option.map_some]
    split <;> exact ⟨_, _, rfl⟩
  | upperLink path n i =>
    obtain ⟨e, he⟩ := entry f.loc.1 (f.refs (n, i - 1) (by simp [Pc.refs]))
    simp only [next, he, Option.map_some]
    split <;> exact ⟨_, _, rfl⟩
  | ret r => exact absurd rfl (hret r)
  | containsDown i p => exact absurd f.fits (not_contains_of_insert hins)
  | containsTest i p y => exact absurd f.fits (not_contains_of_insert hins)
  | containsPass i p y => exact absurd f.fits (not_contains_of_insert hins)
  | containsNext i p y => exact absurd f.fits (not_contains_of_insert hins)
  | markLoad n i => exact (insert_not_remove hins f.fits).elim
  | markCas n i q => exact (insert_not_remove hins f.fits).elim
  | _ => exact ⟨_, _, rfl⟩

theorem Sane.can (h : Sane s) (hins : op.IsInsert) (ht : s.thread t = some (op, pc)) :
    ∃ s', (cleanMachine V).Solo t s s' := by
  by_cases hret : ∃ r, pc = .ret r
  · obtain ⟨r, rfl⟩ := hret
    exact ⟨_, Or.inr ⟨r, Step.ret t op r ht, fun x h1 h2 => absurd (h1.symm.trans h2) nofun⟩⟩
  · obtain ⟨N, hN⟩ := h.2
    obtain ⟨σ, pc', hn⟩ := next_enabled hins h.1.mem (h.1.fit ht) (fun r e => hret ⟨r, e⟩) N 1
    refine ⟨_, Or.inl ⟨Step.tau t op pc pc' N 1 σ ht hn fun _ _ => ⟨(hN N le_rfl).1, by decide⟩, ?_⟩⟩
    intro x h1 h2
    obtain ⟨rfl, _⟩ := next_take hn h1 h2
    exact (hN _ le_rfl).2

theorem solo_cases (ht : s.thread t = some (op, pc)) (hs : (cleanMachine V).Solo t s s') :
    (s'.thread t = none) ∨ ∃ pc' slot level,
      s'.thread t = some (op, pc') ∧ next s.store op slot level pc = some (s'.store, pc') := by
  rcases hs with ⟨hs, _⟩ | ⟨r, hs, _⟩
  · cases hs with
    | tau _ op1 pc1 pc' slot level σ h hn ha =>
      obtain ⟨rfl, rfl⟩ := Prod.mk.inj (Option.some.inj (ht.symm.trans h))
      exact Or.inr ⟨pc', slot, level, goto_thread_self _ _ _ _, hn⟩
  · cases hs with
    | ret _ op1 _ h => exact Or.inl (goto_thread_self _ _ _ _)

theorem Sane.solo (h : Sane s) (hs : (cleanMachine V).Solo t s s') : Sane s' := by
  rcases hs with hs | ⟨r, hs⟩ <;> exact h.step hs

theorem Sane.returns_of (h : Sane s) (hins : op.IsInsert) {I : Store V → Pc → Prop}
    (step : ∀ {s s' pc pc' slot level}, Sane s → Sane s' → s.thread t = some (op, pc) →
      s'.thread t = some (op, pc') → next s.store op slot level pc = some (s'.store, pc') →
      I s.store pc → (cleanMachine V).Returns t s' ∨
        (I s'.store pc' ∧ pc'.measure s'.store < pc.measure s.store))
    (ht : s.thread t = some (op, pc)) (hI : I s.store pc) : (cleanMachine V).Returns t s := by
  let μ : State V → ℕ ×ₗ ℕ ×ₗ ℕ := fun s => match s.thread t with
    | some (_, pc) => pc.measure s.store
    | none => stage 0 0 0
  refine inevitable_of_measure μ (I := fun s => Sane s ∧ ∃ pc, s.thread t = some (op, pc) ∧
    I s.store pc) ?_ ?_ ⟨h, pc, ht, hI⟩
  · rintro s ⟨h, pc, ht, _⟩
    exact Or.inr (h.can hins ht)
  · rintro s s' ⟨h, pc, ht, hI⟩ hs
    rcases solo_cases ht hs with hd | ⟨pc', slot, level, ht', hn⟩
    · exact Or.inl (Inevitable.here hd)
    · refine (step h (h.solo hs) ht ht' hn hI).imp_right fun ⟨hI', hlt⟩ =>
        ⟨⟨h.solo hs, pc', ht', hI'⟩, ?_⟩
      simpa only [μ, ht, ht'] using hlt

def Adjacent (σ : Store V) (i : ℕ) (path : Path) : Prop :=
  ∀ j e, path[j]? = some e → (σ.node e.pred).next (i + j) = e.succs

def Reaches (σ : Store V) (l : ℕ) (path : Path) : Prop :=
  ∀ j, l ≤ j → ∀ e, path[j]? = some e → (σ.node e.pred).next j = e.succs

def Pc.Smooth (σ : Store V) : Pc → Prop
  | .findDown _ i pred path => ¬ σ.dead i pred ∧ Adjacent σ (i + 1) path
  | .findLoad _ i pred st predNext _ path =>
    (σ.node pred).next i = Ptr.addr predNext st ∧ Adjacent σ (i + 1) path
  | .findCas _ i pred st predNext _ path =>
    (σ.node pred).next i = Ptr.addr predNext st ∧ Adjacent σ (i + 1) path
  | .upperLoad path _ l => Reaches σ l path
  | .upperCas path _ l _ => Reaches σ l path
  | .upperLink path _ l => Reaches σ l path
  | .ret _ => True
  | _ => False

theorem addr_of_succ (hs : ((σ.node x).next i).ref = some y) :
    (σ.node x).next i = Ptr.addr y (σ.stateAt i x) := by
  rcases hq : (σ.node x).next i with ⟨r, t⟩
  rw [hq] at hs
  obtain rfl : r = some y := hs
  unfold Store.stateAt
  rw [hq]
  rfl

theorem Pc.Smooth.not_fails (h : pc.Smooth σ) : ¬ pc.Fails σ := by
  cases pc with
  | findDown c i p path => exact h.1
  | findCas c i p st d s path => exact not_not.2 h.1
  | upperLink path n i => exact fun ⟨e, he, hne⟩ => hne (h i le_rfl e he)
  | lostFree n => exact False.elim h
  | _ => exact id

theorem adjacent_cons (he : (σ.node e.pred).next i = e.succs) (ha : Adjacent σ (i + 1) path) :
    Adjacent σ i (e :: path) := by
  intro j a hj
  cases j with
  | zero =>
    obtain rfl : e = a := by simpa using hj
    exact he
  | succ j =>
    have := ha j a (by simpa using hj)
    rwa [show i + 1 + j = i + (j + 1) by omega] at this

theorem adjacent_setNext (ha : Adjacent σ (i + 1) path) (x : Loc) (q : Ptr) :
    Adjacent (σ.setNext x i q) (i + 1) path := fun j e he =>
  (next_setNext_other σ q fun h => by have := (Prod.mk.inj h).2; omega).trans (ha j e he)

theorem Adjacent.reaches (h : Adjacent σ 0 path) (l : ℕ) : Reaches σ l path := by
  intro j _ e he
  have := h j e he
  rwa [Nat.zero_add] at this

theorem findDone_smooth {c : FindCtx} (hm : MemInv σ G L) (hins : op.IsInsert) (hf : c.Fits op)
    (hp : (p, i) ∈ L) (hs : (σ.node p).next i = Ptr.addr y st) (ht : st ≠ .deleted)
    (ha : Adjacent σ (i + 1) path) : (findDone c ⟨p, y, st⟩ path i).Smooth σ := by
  cases c with
  | inRemove n => exact (insert_not_remove hins hf).elim
  | inInsert n l =>
    have ha' : Adjacent σ i (⟨p, y, st⟩ :: path) := adjacent_cons hs ha
    cases i with
    | zero => exact ha'.reaches l
    | succ i => exact ⟨hm.alive_below hp (Nat.le_succ i) (alive_of_addr hs ht), ha'⟩

theorem upper_smooth {l : ℕ} (h : Reaches σ l path) (n : Loc) : (upper σ' path n l).Smooth σ := by
  unfold upper
  split
  · exact h
  · trivial

theorem smooth_step (hins : op.IsInsert) (hm : MemInv σ 1 L) (f : Fit σ L op pc)
    (hn : next σ op slot level pc = some (σ', pc')) (h : pc.Smooth σ) : pc'.Smooth σ' := by
  cases act_of_next hn with
  | findLost dead => exact absurd dead h.1
  | findDown alive hs => exact ⟨addr_of_succ hs, h.2⟩
  | findSkip => exact h
  | @findSame c i p y st path =>
    obtain ⟨_, _, _, _, ht, _⟩ := f.loc
    exact findDone_smooth hm hins f.fits (f.refs (p, i) (by simp [Pc.refs])) h.1 ht.1 h.2
  | findCut => exact h
  | findGo alive lt hs => exact ⟨addr_of_succ hs, h.2⟩
  | @findWon c i p d y st path hq =>
    obtain ⟨_, _, _, _, ht, _, hds⟩ := f.loc
    have hpl := f.refs (p, i) (by simp [Pc.refs])
    have ef : Effect σ 1 L none L (σ.setNext p i (Ptr.addr y st)) :=
      Effect.swing p d y i st none hpl hq ht.1 hds
    exact findDone_smooth (ef.memInv hm) hins f.fits hpl (next_setNext_self σ p i _) ht.1
      (adjacent_setNext h.2 p _)
  | findFail hq => exact absurd h.1 hq
  | upperOut => trivial
  | upperSame => exact h
  | upperLoad => exact h
  | @upperWon path n i q e he hq =>
    have ho : UpperOk σ op path n i := f.loc.1
    intro j hj a ha
    refine (next_setNext_other σ _ fun hne => ?_).trans (h j hj a ha)
    have hlt := ho.levels.below a (List.mem_of_getElem? ha)
    rw [(Prod.mk.inj hne).1, ho.rank] at hlt
    exact lt_irrefl _ hlt
  | upperFail => trivial
  | upperLink =>
    refine upper_smooth (fun j hj a ha => ?_) _
    refine (next_setNext_other σ _ fun hne => ?_).trans (h j (by omega) a ha)
    have := (Prod.mk.inj hne).2
    omega
  | upperLost he hq => exact absurd (h _ le_rfl _ he) hq
  | _ => exact False.elim h

theorem Sane.returns_smooth (h : Sane s) (hins : op.IsInsert) (ht : s.thread t = some (op, pc))
    (hpc : pc.Smooth s.store) : (cleanMachine V).Returns t s := by
  refine h.returns_of hins (I := fun σ pc => pc.Smooth σ) ?_ ht hpc
  intro s s' pc pc' slot level h h' ht ht' hn hpc
  have f := h.1.fit ht
  exact Or.inr ⟨smooth_step hins h.1.mem f hn hpc,
    step_measure hins h.1.mem f hn hpc.not_fails⟩

-- the path, once it is known, of an insert that has yet to link its node at level 0
def Pc.trying : Pc → Option Path
  | .searchDown _ _ _ => some []
  | .searchTest _ _ _ _ _ => some []
  | .searchNext _ _ _ _ _ => some []
  | .alloc path => some path
  | .allocTest path _ _ => some path
  | .createStart path _ _ _ => some path
  | .createKey path _ _ _ => some path
  | .createValue path _ _ _ => some path
  | .createTopLevel path _ _ _ => some path
  | .createValidity path _ _ => some path
  | .initNext path _ _ => some path
  | .linkCas path _ => some path
  | .lostStore _ => some []
  | .lostFree _ => some []
  | _ => none

theorem upper_trying (τ : Store V) (path : Path) (n : Loc) (l : ℕ) :
    (upper τ path n l).trying = none := by
  unfold upper
  split <;> rfl

theorem afterState_trying (τ : Store V) (n : Loc) (won : Bool) (c : InsertCtx) :
    (afterState τ n won (.insert c)).trying = none := by
  cases c with
  | found => rfl
  | linked path => exact upper_trying τ path n 1

theorem findDone_trying (c : FindCtx) (e : Entry) (path : Path) (i : ℕ) :
    (findDone c e path i).trying = none := by
  cases i with
  | succ i => rfl
  | zero => cases c <;> rfl

theorem settled_step (hins : op.IsInsert) (hm : MemInv σ 1 L) (f : Fit σ L op pc)
    (hn : next σ op slot level pc = some (σ', pc')) (h : pc.trying = none) :
    (pc.Fails σ ∧ pc'.Smooth σ') ∨ (¬ pc.Fails σ ∧ pc'.trying = none) := by
  have again : ∀ {c : FindCtx}, c.retry.Smooth σ := ⟨hm.head_alive _, fun j e he => by simp at he⟩
  have state : ∀ {c : StateCtx}, c.Fits op → ∃ e, c = .insert e := by
    intro c h
    cases c with
    | insert e => exact ⟨e, rfl⟩
    | _ => exact (insert_not_remove hins h).elim
  cases act_of_next hn with
  | findLost dead => exact Or.inl ⟨dead, again⟩
  | findDown alive => exact Or.inr ⟨alive, rfl⟩
  | findSkip => exact Or.inr ⟨id, rfl⟩
  | findSame => exact Or.inr ⟨id, findDone_trying _ _ _ _⟩
  | findCut => exact Or.inr ⟨id, rfl⟩
  | findGo => exact Or.inr ⟨id, rfl⟩
  | findWon hq => exact Or.inr ⟨not_not.2 hq, findDone_trying _ _ _ _⟩
  | findFail hq => exact Or.inl ⟨hq, again⟩
  | helpStore => exact Or.inr ⟨id, rfl⟩
  | helpFlush => exact Or.inr ⟨id, rfl⟩
  | stateTest => exact Or.inr ⟨id, rfl⟩
  | stateDone =>
    obtain ⟨e, rfl⟩ := state f.fits
    exact Or.inr ⟨id, afterState_trying _ _ _ e⟩
  | stateLoad => exact Or.inr ⟨id, rfl⟩
  | stateWon =>
    obtain ⟨e, rfl⟩ := state f.fits
    exact Or.inr ⟨id, afterState_trying _ _ _ e⟩
  | stateFail => exact Or.inr ⟨id, rfl⟩
  | upperOut => exact Or.inr ⟨id, rfl⟩
  | upperSame => exact Or.inr ⟨id, rfl⟩
  | upperLoad => exact Or.inr ⟨id, rfl⟩
  | upperWon => exact Or.inr ⟨id, rfl⟩
  | upperFail => exact Or.inr ⟨id, rfl⟩
  | upperLink he hq =>
    refine Or.inr ⟨?_, upper_trying _ _ _ _⟩
    rintro ⟨a, ha, hne⟩
    obtain rfl := Option.some.inj (he.symm.trans ha)
    exact hne hq
  | upperLost he hq => exact Or.inl ⟨⟨_, he, hq⟩, again⟩
  | markSkip => exact (insert_not_remove hins f.fits).elim
  | markLoad => exact (insert_not_remove hins f.fits).elim
  | markWon => exact (insert_not_remove hins f.fits).elim
  | markFail => exact (insert_not_remove hins f.fits).elim
  | destroyStore => exact (insert_not_remove hins f.fits).elim
  | destroyFlush => exact (insert_not_remove hins f.fits).elim
  | removeFree => exact (insert_not_remove hins f.fits).elim
  | containsDown => exact absurd f.fits (not_contains_of_insert hins)
  | containsSkip => exact absurd f.fits (not_contains_of_insert hins)
  | containsFound => exact absurd f.fits (not_contains_of_insert hins)
  | containsEnd => exact absurd f.fits (not_contains_of_insert hins)
  | containsStep => exact absurd f.fits (not_contains_of_insert hins)
  | containsOut => exact absurd f.fits (not_contains_of_insert hins)
  | containsGo => exact absurd f.fits (not_contains_of_insert hins)
  | containsNext => exact absurd f.fits (not_contains_of_insert hins)
  | _ => cases h

theorem Sane.returns_settled (h : Sane s) (hins : op.IsInsert) (ht : s.thread t = some (op, pc))
    (hpc : pc.trying = none) : (cleanMachine V).Returns t s := by
  refine h.returns_of hins (I := fun _ pc => pc.trying = none) ?_ ht hpc
  intro s s' pc pc' slot level h h' ht ht' hn hpc
  have f := h.1.fit ht
  rcases settled_step hins h.1.mem f hn hpc with ⟨_, hs⟩ | ⟨hf, hs⟩
  · exact Or.inl (h'.returns_smooth hins ht' hs)
  · exact Or.inr ⟨hs, step_measure hins h.1.mem f hn hf⟩

end SOFT.SkipList
