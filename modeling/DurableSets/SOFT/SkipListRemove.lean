import DurableSets.SOFT.SkipListStall

/-! A remove or a contains that is left alone returns, wherever the other threads have stopped. -/

namespace SOFT.SkipList

open Chain

variable {V : Type} {σ σ' : Store V} {L : Set Cursor} {x y p c n slot : Loc} {i G level : ℕ}
  {op : SetOp V} {pc pc' : Pc} {path : Path} {st : NodeState} {s s' : State V} {t : Tid}
  {e : Event (SetOp V)}

def Pc.Passing : Pc → Prop
  | .containsPass _ _ curr => curr ≠ tail
  | .containsNext _ _ curr => curr ≠ tail
  | _ => True

theorem passing_findDone (c : FindCtx) (e : Entry) (path : Path) (i : ℕ) :
    (findDone c e path i).Passing := by
  cases i with
  | succ i => trivial
  | zero => cases c <;> trivial

theorem passing_searchDone (τ : Store V) (op : SetOp V) (e : Entry) (st : NodeState) (path : Path)
    (i : ℕ) : (searchDone τ op e st path i).Passing := by
  cases i with
  | succ i => trivial
  | zero =>
    cases op with
    | insert k v =>
      simp only [searchDone, afterSearch]
      split
      · split <;> trivial
      · trivial
    | remove k =>
      simp only [searchDone, afterSearch]
      split
      · trivial
      · split
        · trivial
        · unfold mark
          split <;> trivial
    | contains k => trivial

theorem passing_upper (τ : Store V) (path : Path) (n : Loc) (i : ℕ) :
    (upper τ path n i).Passing := by
  unfold upper
  split <;> trivial

theorem passing_mark (n : Loc) (i : ℕ) : (mark n i).Passing := by
  cases i <;> trivial

theorem passing_afterState (τ : Store V) (n : Loc) (won : Bool) (c : StateCtx) :
    (afterState τ n won c).Passing := by
  cases c with
  | insert c =>
    cases c with
    | found => trivial
    | linked path => exact passing_upper _ _ _ _
  | mark => trivial
  | delete r => cases r <;> trivial

theorem not_out_tail (hm : MemInv σ G L) (i : ℕ) : ¬ isOut (σ.stateAt i tail) = true := by
  unfold Store.stateAt
  rw [hm.tail_next i]
  exact Bool.false_ne_true

theorem passing_step (hm : MemInv σ 1 L) (f : Fit σ L op pc)
    (hn : next σ op slot level pc = some (σ', pc')) (h : pc.Passing) : pc'.Passing := by
  cases act_of_next hn with
  | searchStop => exact passing_searchDone _ _ _ _ _ _
  | findSame => exact passing_findDone _ _ _ _
  | findWon => exact passing_findDone _ _ _ _
  | stateDone => exact passing_afterState _ _ _ _
  | stateWon => exact passing_afterState _ _ _ _
  | upperLink => exact passing_upper _ _ _ _
  | markSkip => exact passing_mark _ _
  | markWon => exact passing_mark _ _
  | containsSkip skip =>
    rintro rfl
    rcases skip with hlt | hout
    · rw [hm.tail_key] at hlt
      exact lt_asymm hlt f.key
    · exact not_out_tail hm _ hout
  | containsOut => exact h
  | containsGo => exact h
  | _ => trivial

def State.Passing (s : State V) : Prop := ∀ t op pc, s.thread t = some (op, pc) → pc.Passing

theorem State.Passing.step (h : s.Passing) (hi : Inv 1 s) (hs : Step s e s') : s'.Passing := by
  intro t op pc ht'
  by_cases ht : t = e.tid
  · subst ht
    cases e with
    | call u op1 =>
      obtain ⟨rfl, _, _⟩ := call_inv hs ht'
      cases op <;> trivial
    | ret u r =>
      have := ((machine V).step_ret hs).2.symm.trans ht'
      cases this
    | tau u =>
      obtain ⟨op1, pc1, pc2, h1, h2⟩ := (machine V).step_tau hs
      obtain ⟨rfl, rfl⟩ := Prod.mk.inj (Option.some.inj (ht'.symm.trans h2))
      obtain ⟨slot, level, σ, hn, _, _⟩ := tau_inv hs h1 ht'
      exact passing_step hi.mem (hi.fit h1) hn (h _ _ _ h1)
  · exact h t op pc (((machine V).step_other hs ht).symm.trans ht')

theorem passing_run (ρ : Run (machine V)) (clean : Clean ρ) :
    ∀ n ≤ ρ.length, (ρ.state n).Passing := by
  refine Run.stepwise ?_ fun m hm ih => ih.step (inv_run ρ clean m hm.le) (ρ.step hm)
  intro t op pc h
  have := ((machine V).init_idle ρ.init).symm.trans h
  cases this

theorem others_enabled (hno : ¬ op.IsInsert) (hm : MemInv σ 1 L) (f : Fit σ L op pc)
    (hp : pc.Passing) (hret : ∀ r, pc ≠ .ret r) (slot : Loc) (level : ℕ) :
    ∃ σ' pc', next σ op slot level pc = some (σ', pc') := by
  have ahead : ∀ {x i}, (x, i) ∈ L → rank σ x < (op.key : ℤ) ∨ σ.dead i x →
      ∃ d, ((σ.node x).next i).ref = some d := by
    intro x i hx h
    refine hm.sound.succ_ne_none hx ?_
    exact h.elim (fun h => ne_tail_of_rank hm f.key h.le) hm.ne_tail_of_dead
  cases pc with
  | searchDown i p path =>
    obtain ⟨d, hd⟩ := ahead (f.refs (p, i) (by simp [Pc.refs])) (Or.inl f.loc.2.1)
    exact ⟨_, _, by simp only [next, hd]; rfl⟩
  | searchTest i p st y path => simp only [next]; split <;> [skip; split] <;> exact ⟨_, _, rfl⟩
  | searchNext i p st y path =>
    obtain ⟨d, hd⟩ := ahead (f.refs (y, i) (by simp [Pc.refs])) f.loc.2.2.2.2
    exact ⟨_, _, by simp only [next, hd]; rfl⟩
  | findDown c i p path =>
    obtain ⟨d, hd⟩ := ahead (f.refs (p, i) (by simp [Pc.refs])) (Or.inl f.loc.2.1)
    simp only [next, hd]
    split <;> exact ⟨_, _, rfl⟩
  | findLoad c i p st d y path =>
    have hyl := f.refs (y, i) (by simp [Pc.refs])
    simp only [next]
    split
    · next hd =>
      obtain ⟨z, hz⟩ := ahead hyl (Or.inr hd)
      exact ⟨_, _, by rw [hz]; rfl⟩
    · split
      · exact ⟨_, _, rfl⟩
      · next hk =>
        obtain ⟨z, hz⟩ := ahead hyl (Or.inl (rank_lt_of_key (not_le.1 hk) f.loc.2.2.2.2.2.1))
        exact ⟨_, _, by rw [hz]; rfl⟩
  | findCas c i p st d y path => simp only [next]; split <;> exact ⟨_, _, rfl⟩
  | stateTest c n => simp only [next]; split <;> exact ⟨_, _, rfl⟩
  | stateCas c n q => simp only [next]; split <;> exact ⟨_, _, rfl⟩
  | markLoad n i => simp only [next]; split <;> exact ⟨_, _, rfl⟩
  | markCas n i q => simp only [next]; split <;> exact ⟨_, _, rfl⟩
  | containsDown i p =>
    obtain ⟨d, hd⟩ := ahead (f.refs (p, i) (by simp [Pc.refs])) (Or.inl f.loc.2)
    exact ⟨_, _, by simp only [next, hd]; rfl⟩
  | containsTest i p y =>
    simp only [next]
    split
    · exact ⟨_, _, rfl⟩
    · split
      · exact ⟨_, _, rfl⟩
      · cases i <;> exact ⟨_, _, rfl⟩
  | containsPass i p y => simp only [next]; split <;> exact ⟨_, _, rfl⟩
  | containsNext i p y =>
    obtain ⟨d, hs⟩ := hm.sound.succ_ne_none (f.refs (y, i) (by simp [Pc.refs])) hp
    have hd : ((σ.node y).next i).ref = some d := hs
    exact ⟨_, _, by simp only [next, hd]; rfl⟩
  | ret r => exact absurd rfl (hret r)
  | helpStore c n | helpFlush c n | stateLoad c n => exact ⟨_, _, rfl⟩
  | destroyStore r n | destroyFlush r n | removeFree n => exact ⟨_, _, rfl⟩
  | _ => exact absurd f.fits hno

theorem Sane.others_can (h : Sane s) (hno : ¬ op.IsInsert) (ht : s.thread t = some (op, pc))
    (hp : pc.Passing) : ∃ s', (cleanMachine V).Solo t s s' := by
  by_cases hret : ∃ r, pc = .ret r
  · obtain ⟨r, rfl⟩ := hret
    exact ⟨_, Or.inr ⟨r, Step.ret t op r ht, fun x h1 h2 => absurd (h1.symm.trans h2) nofun⟩⟩
  · obtain ⟨N, hN⟩ := h.2
    obtain ⟨σ, pc', hn⟩ := others_enabled hno h.1.mem (h.1.fit ht) hp (fun r e => hret ⟨r, e⟩) N 1
    refine ⟨_, Or.inl ⟨Step.tau t op pc pc' N 1 σ ht hn fun _ _ => ?_, ?_⟩⟩
    · exact ⟨(hN N le_rfl).1, by decide⟩
    · intro x h1 h2
      obtain ⟨rfl, _⟩ := next_take hn h1 h2
      exact (hN _ le_rfl).2

def StateCtx.phase : StateCtx → ℕ
  | .mark => 4
  | _ => 3

-- search, markNodes, destroy, find; the loops of compare-and-swaps go once more when the word
-- that was read is out of date
noncomputable def Pc.way (σ : Store V) : Pc → ℕ ×ₗ ℕ ×ₗ ℕ
  | .markLoad _ i => stage 4 1 (4 * i + 2)
  | .markCas n i q =>
    if (σ.node n).next i = q.createRef .inserted then stage 4 1 (4 * i + 1)
    else stage 4 1 (4 * i + 3)
  | .stateTest c _ => stage c.phase 0 4
  | .stateLoad c n =>
    if σ.stateAt 0 n = c.expected then stage c.phase 0 3 else stage c.phase 0 6
  | .stateCas c n q =>
    if (σ.node n).next 0 = q.createRef c.expected then stage c.phase 0 2 else stage c.phase 0 5
  | .destroyStore _ _ => stage 3 2 0
  | .destroyFlush _ _ => stage 3 1 0
  | .removeFree _ => stage 1 0 0
  | .containsDown i pred => stage 5 i (8 * ahead σ i pred)
  | .containsTest i _ curr => stage 5 i (8 * ahead σ i curr + 2)
  | .containsPass i _ curr => stage 5 i (8 * ahead σ i curr + 1)
  | .containsNext i _ curr => stage 5 i (8 * ahead σ i curr)
  | pc => pc.measure σ

theorem mark_way (n : Loc) (i w : ℕ) (hi : 1 ≤ i) (hw : 4 * i ≤ w + 1) :
    (mark n (i - 1)).way σ < stage 4 1 w := by
  obtain ⟨i, rfl⟩ := Nat.exists_eq_add_of_le' hi
  cases i with
  | zero => exact stage_lt.2 (Or.inr ⟨rfl, Or.inl (by decide)⟩)
  | succ i => exact stage_lt.2 (Or.inr ⟨rfl, Or.inr ⟨rfl, by omega⟩⟩)

theorem searchDone_way (hno : ¬ op.IsInsert) (τ : Store V) (e : Entry) (st : NodeState)
    (path : Path) (w : ℕ) : (searchDone τ op e st path i).way σ < stage 5 i w := by
  cases i with
  | succ i => exact stage_lt.2 (Or.inr ⟨rfl, Or.inl (Nat.lt_succ_self i)⟩)
  | zero =>
    cases op with
    | insert k v => exact absurd trivial hno
    | remove k =>
      simp only [searchDone, afterSearch]
      split
      · exact stage_lt.2 (Or.inl (by decide))
      · split
        · exact stage_lt.2 (Or.inl (by decide))
        · unfold mark
          split <;> exact stage_lt.2 (Or.inl (by decide))
    | contains k => exact stage_lt.2 (Or.inl (by decide))

theorem findDone_way (n : Loc) (e : Entry) (path : Path) (w : ℕ) :
    (findDone (.inRemove n) e path i).way σ < stage 2 i w := by
  cases i with
  | succ i => exact stage_lt.2 (Or.inr ⟨rfl, Or.inl (Nat.lt_succ_self i)⟩)
  | zero => exact stage_lt.2 (Or.inl (by decide))

theorem afterState_way {c : StateCtx} (hf : c.Fits op) (hno : ¬ op.IsInsert) (τ : Store V)
    (n : Loc) (won : Bool) (w : ℕ) : (afterState τ n won c).way σ < stage c.phase 0 w := by
  cases c with
  | insert c => exact absurd hf hno
  | mark => exact stage_lt.2 (Or.inl (by decide))
  | delete r => cases r <;> exact stage_lt.2 (Or.inl (by decide))

theorem FindCtx.Fits.inRemove {e : FindCtx} (h : e.Fits op) (hno : ¬ op.IsInsert) :
    ∃ n, e = .inRemove n := by
  cases e with
  | inInsert n l => exact absurd h hno
  | inRemove n => exact ⟨n, rfl⟩

theorem way_step (hno : ¬ op.IsInsert) (hm : MemInv σ 1 L) (f : Fit σ L op pc)
    (hn : next σ op slot level pc = some (σ', pc')) (hf : ¬ pc.Fails σ) :
    pc'.way σ' < pc.way σ := by
  have down : ∀ {a b b' r r' : ℕ}, b < b' → stage a b r < stage a b' r' := fun h =>
    stage_lt.2 (Or.inr ⟨rfl, Or.inl h⟩)
  have near : ∀ {a b r r' : ℕ}, r < r' → stage a b r < stage a b r' := fun h =>
    stage_lt.2 (Or.inr ⟨rfl, Or.inr ⟨rfl, h⟩⟩)
  cases act_of_next hn with
  | @searchDown i p y path hs =>
    have := ahead_next hm (f.refs (p, i) (by simp [Pc.refs])) hs
    exact near (by omega)
  | searchSkip => exact near (Nat.lt_succ_self _)
  | searchStop => exact searchDone_way hno _ _ _ _ _
  | searchGo => exact near (Nat.lt_succ_self _)
  | @searchNext i p y e st path hs =>
    have := ahead_next hm (f.refs (y, i) (by simp [Pc.refs])) hs
    exact near (by omega)
  | findLost dead => exact absurd dead hf
  | @findDown c i p y path alive hs =>
    have := ahead_next hm (f.refs (p, i) (by simp [Pc.refs])) hs
    exact near (by omega)
  | @findSkip c i p d y e st path dead hs =>
    have := ahead_next hm (f.refs (y, i) (by simp [Pc.refs])) hs
    exact near (by omega)
  | findSame =>
    obtain ⟨n, rfl⟩ := FindCtx.Fits.inRemove f.fits hno
    exact findDone_way _ _ _ _
  | findCut => exact near (by omega)
  | @findGo c i p d y e st path alive lt hs =>
    have := ahead_next hm (f.refs (y, i) (by simp [Pc.refs])) hs
    exact near (by omega)
  | findWon =>
    obtain ⟨n, rfl⟩ := FindCtx.Fits.inRemove f.fits hno
    exact findDone_way _ _ _ _
  | findFail hq => exact absurd hq hf
  | stateTest hs =>
    simp only [Pc.way, if_pos hs]
    exact near (by decide)
  | stateDone => exact afterState_way f.fits hno _ _ _ _
  | @stateLoad c n =>
    by_cases hs : σ.stateAt 0 n = c.expected
    · have hq : (σ.node n).next 0 = ((σ.node n).next 0).createRef c.expected := by
        rw [← hs]
        rfl
      simp only [Pc.way, if_pos hs, if_pos hq]
      exact near (by decide)
    · simp only [Pc.way, if_neg hs]
      split <;> exact near (by decide)
  | @stateWon c n q hq =>
    simp only [Pc.way, if_pos hq]
    exact afterState_way f.fits hno _ _ _ _
  | @stateFail c n q hq =>
    simp only [Pc.way, if_neg hq]
    exact near (by decide)
  | @markSkip n i dead => exact mark_way n i _ f.loc.2 (by omega)
  | @markLoad n i alive =>
    have hs := (hm.upper (x := n) f.loc.2).resolve_right alive
    have hq : (σ.node n).next i = ((σ.node n).next i).createRef .inserted := by
      rw [← hs]
      rfl
    simp only [Pc.way, if_pos hq]
    exact near (by omega)
  | @markWon n i q hq =>
    simp only [Pc.way, if_pos hq]
    exact mark_way n i _ f.loc.2 (by omega)
  | markFail hq =>
    simp only [Pc.way, if_neg hq]
    exact near (by omega)
  | destroyStore => exact down (by decide)
  | destroyFlush => exact down (by decide)
  | removeFree => exact stage_lt.2 (Or.inl (by decide))
  | @containsDown i p y hs =>
    have := ahead_next hm (f.refs (p, i) (by simp [Pc.refs])) hs
    exact near (by omega)
  | containsSkip => exact near (Nat.lt_succ_self _)
  | containsFound => exact stage_lt.2 (Or.inl (by decide))
  | containsEnd => exact stage_lt.2 (Or.inl (by decide))
  | containsStep => exact down (Nat.lt_succ_self _)
  | containsOut => exact near (Nat.lt_succ_self _)
  | containsGo => exact near (Nat.lt_succ_self _)
  | @containsNext i p y e hs =>
    have := ahead_next hm (f.refs (y, i) (by simp [Pc.refs])) hs
    exact near (by omega)
  | helpStore | helpFlush | alloc | allocTest | createStart | createKey | createTopLevel
  | createValidity | lostStore => exact absurd f.fits hno
  | createValue | initNext | initLast | linkWon | linkFail | lostFree | upperOut | upperSame
  | upperLoad | upperWon | upperFail | upperLink | upperLost => exact absurd f.fits hno

def Pc.Unhindered (σ : Store V) : Pc → Prop
  | .findDown _ i pred _ => ¬ σ.dead i pred
  | .findLoad _ i pred st predNext _ _ => (σ.node pred).next i = Ptr.addr predNext st
  | .findCas _ i pred st predNext _ _ => (σ.node pred).next i = Ptr.addr predNext st
  | .removeFree _ => True
  | .ret _ => True
  | _ => False

theorem Pc.Unhindered.not_fails (h : pc.Unhindered σ) : ¬ pc.Fails σ := by
  cases pc with
  | findDown c i p path => exact h
  | findCas c i p st d s path => exact not_not.2 h
  | upperLink path n i => exact False.elim h
  | lostFree n => exact False.elim h
  | _ => exact id

theorem findDone_unhindered (hm : MemInv σ G L) (hp : (p, i) ∈ L)
    (hs : (σ.node p).next i = Ptr.addr y st) (ht : st ≠ .deleted) (path : Path) :
    (findDone (.inRemove n) ⟨p, y, st⟩ path i).Unhindered σ := by
  cases i with
  | zero => trivial
  | succ i => exact hm.alive_below hp (Nat.le_succ i) (alive_of_addr hs ht)

theorem unhindered_step (hno : ¬ op.IsInsert) (hm : MemInv σ 1 L) (f : Fit σ L op pc)
    (hn : next σ op slot level pc = some (σ', pc')) (h : pc.Unhindered σ) : pc'.Unhindered σ' := by
  cases act_of_next hn with
  | findLost dead => exact absurd dead h
  | findDown alive hs => exact addr_of_succ hs
  | findSkip => exact h
  | @findSame c i p y st path =>
    obtain ⟨n, rfl⟩ := FindCtx.Fits.inRemove f.fits hno
    obtain ⟨_, _, _, _, ht, _⟩ := f.loc
    exact findDone_unhindered hm (f.refs (p, i) (by simp [Pc.refs])) h ht.1 path
  | findCut => exact h
  | findGo alive lt hs => exact addr_of_succ hs
  | @findWon c i p d y st path hq =>
    obtain ⟨n, rfl⟩ := FindCtx.Fits.inRemove f.fits hno
    obtain ⟨_, _, _, _, ht, _, hds⟩ := f.loc
    have hpl := f.refs (p, i) (by simp [Pc.refs])
    have ef : Effect σ 1 L none L (σ.setNext p i (Ptr.addr y st)) :=
      Effect.swing p d y i st none hpl hq ht.1 hds
    exact findDone_unhindered (ef.memInv hm) hpl (next_setNext_self σ p i _) ht.1 path
  | findFail hq => exact absurd h hq
  | removeFree => trivial
  | _ => exact False.elim h

theorem fails_unhindered (hno : ¬ op.IsInsert) (hm : MemInv σ 1 L) (f : Fit σ L op pc)
    (hn : next σ op slot level pc = some (σ', pc')) (h : pc.Fails σ) : pc'.Unhindered σ' := by
  cases act_of_next hn with
  | findLost dead => exact hm.head_alive _
  | findDown alive hs => exact absurd h alive
  | findWon hq => exact absurd hq h
  | findFail hq => exact hm.head_alive _
  | lostFree => exact absurd f.fits hno
  | upperLink | upperLost => exact absurd f.fits hno
  | _ => exact False.elim h

theorem Sane.nears (hno : ¬ op.IsInsert) {I : Store V → Pc → Prop}
    (step : ∀ {s s' pc pc' slot level}, Sane s → Sane s' → s.thread t = some (op, pc) →
      s'.thread t = some (op, pc') → next s.store op slot level pc = some (s'.store, pc') →
      pc'.Passing → I s.store pc → (cleanMachine V).Returns t s' ∨
        (¬ pc.Fails s.store ∧ I s'.store pc'))
    (h : Sane s) (ht : s.thread t = some (op, pc)) (hp : pc.Passing) (hI : I s.store pc) :
    (cleanMachine V).Returns t s := by
  refine Machine.returns_of (I := fun s pc => Sane s ∧ pc.Passing ∧ I s.store pc)
    (fun s pc => pc.way s.store) (fun h ht => h.1.others_can hno ht h.2.1) ?_ ⟨h, hp, hI⟩ ht
  rintro s pc s' ⟨h, hp, hI⟩ ht hs
  rcases solo_cases ht hs with hd | ⟨pc', slot, level, ht', hn⟩
  · exact Or.inl (Inevitable.here hd)
  · have f := h.1.fit ht
    have hp' := passing_step h.1.mem f hn hp
    refine (step h (h.solo hs) ht ht' hn hp' hI).imp_right fun ⟨hf, hI'⟩ => ?_
    exact ⟨pc', ht', ⟨h.solo hs, hp', hI'⟩, way_step hno h.1.mem f hn hf⟩

theorem Sane.returns_unhindered (h : Sane s) (hno : ¬ op.IsInsert) (ht : s.thread t = some (op, pc))
    (hp : pc.Passing) (hpc : pc.Unhindered s.store) : (cleanMachine V).Returns t s := by
  refine Sane.nears hno (I := fun σ pc => pc.Unhindered σ) ?_ h ht hp hpc
  intro s s' pc pc' slot level h h' ht ht' hn _ hpc
  exact Or.inr ⟨hpc.not_fails, unhindered_step hno h.1.mem (h.1.fit ht) hn hpc⟩

theorem Sane.others_return (h : Sane s) (hno : ¬ op.IsInsert) (ht : s.thread t = some (op, pc))
    (hp : pc.Passing) : (cleanMachine V).Returns t s := by
  refine Sane.nears hno (I := fun _ _ => True) ?_ h ht hp trivial
  intro s s' pc pc' slot level h h' ht ht' hn hp' _
  have f := h.1.fit ht
  by_cases hf : pc.Fails s.store
  · exact Or.inl (h'.returns_unhindered hno ht' hp' (fails_unhindered hno h.1.mem f hn hf))
  · exact Or.inr ⟨hf, trivial⟩

theorem softSkipList_others_return (ρ : Run (machine V)) (clean : Clean ρ) (t : Tid)
    (op : SetOp V) (hno : ¬ op.IsInsert) (pc : Pc)
    (ht : (ρ.state ρ.length).thread t = some (op, pc)) :
    (cleanMachine V).Returns t (ρ.state ρ.length) :=
  (sane_run ρ clean ρ.length le_rfl).others_return hno ht (passing_run ρ clean ρ.length le_rfl _ _ _ ht)

-- the remove of a thread that has deleted its node and not yet unlinked it, in front of a blocked
-- insert
theorem softSkipList_others_return_deleted : ∃ (ρ : Run (machine ℕ)) (pc : Pc),
    (ρ.state ρ.length).thread 1 = some (.remove 5, pc) ∧
      (cleanMachine ℕ).Returns 1 (ρ.state ρ.length) := by
  obtain ⟨ρ, hρ, _⟩ := exists_play 0 exec (fun h => h) insertAtDeleted (by decide +kernel)
  have clean := clean_of_neverRecycled (neverRecycled_of_plays (fun h => h) hρ (by decide +kernel))
  have last := hρ.last (P := fun s =>
    decide (s.thread 1 = some (.remove 5, .findDown (.inRemove 2) 20 head []))) (by decide +kernel)
  have h1 := of_decide_eq_true last
  exact ⟨ρ, _, h1, softSkipList_others_return ρ clean 1 (.remove 5) id _ h1⟩

end SOFT.SkipList
