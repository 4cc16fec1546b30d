import DurableSets.SOFT.SkipListHistory

namespace SOFT.SkipList

open Chain

variable {V : Type} {σ σ' : Store V} {L L' : Set Cursor} {x y p n c d slot : Loc}
  {i j l m G level : ℕ} {op : SetOp V} {pc pc' : Pc} {path : Path} {q : Ptr} {k : ℤ}
  {st : NodeState} {s s' : State V} {t : Tid}

theorem tau_inv {op' : SetOp V} (hs : Step s (.tau t) s') (ht : s.thread t = some (op, pc))
    (ht' : s'.thread t = some (op', pc')) :
    ∃ slot level σ, next s.store op slot level pc = some (σ, pc') ∧
      (∀ path, pc = .alloc path → s.store.avail slot = true ∧ 1 ≤ level ∧ level ≤ MAX_LEVEL) ∧
      s' = s.goto σ t (some (op, pc')) := by
  cases hs with
  | tau _ op1 pc1 pc2 slot level σ h hn ha =>
    rw [ht] at h
    obtain ⟨rfl, rfl⟩ := Prod.mk.inj (Option.some.inj h)
    rw [goto_thread_self] at ht'
    obtain ⟨rfl, rfl⟩ := Prod.mk.inj (Option.some.inj ht')
    exact ⟨slot, level, σ, hn, ha, rfl⟩

theorem call_inv {op' : SetOp V} (hs : Step s (.call t op') s')
    (ht : s'.thread t = some (op, pc)) :
    pc = start op ∧ op.key < INTPTR_MAX ∧ s'.store = s.store := by
  cases hs with
  | call _ _ idle hk =>
    rw [goto_thread_self] at ht
    obtain ⟨rfl, rfl⟩ := Prod.mk.inj (Option.some.inj ht)
    exact ⟨rfl, hk, rfl⟩

theorem ret_inv {r : Bool} (hs : Step s (.ret t r) s') :
    ∃ op, s.thread t = some (op, .ret r) ∧ s'.store = s.store := by
  cases hs with
  | ret _ op _ ht => exact ⟨op, ht, rfl⟩

-- each of them was linked at level 0 at some moment of the call
def Pc.anchors : Pc → List Loc
  | .searchDown _ p _ => [p]
  | .searchTest 0 p _ c _ => [p, c]
  | .searchTest (_ + 1) p _ _ _ => [p]
  | .searchNext 0 p _ c _ => [p, c]
  | .searchNext (_ + 1) p _ _ _ => [p]
  | .containsDown _ p => [p]
  | .containsTest 0 p c => [p, c]
  | .containsTest (_ + 1) p _ => [p]
  | .containsPass 0 p c => [p, c]
  | .containsPass (_ + 1) p _ => [p]
  | .containsNext 0 p c => [p, c]
  | .containsNext (_ + 1) p _ => [p]
  | _ => []

theorem mem_anchors_test {z : Loc} : z ∈ (Pc.searchTest l p st c path).anchors ↔
    z = p ∨ (l = 0 ∧ z = c) := by
  cases l <;> simp [Pc.anchors]

theorem mem_anchors_pass {z : Loc} : z ∈ (Pc.containsTest l p c).anchors ↔
    z = p ∨ (l = 0 ∧ z = c) := by
  cases l <;> simp [Pc.anchors]

theorem anchor_next (l : ℕ) (p : Loc) (st : NodeState) (c : Loc) (path : Path) :
    (Pc.searchNext l p st c path).anchors = (Pc.searchTest l p st c path).anchors := by
  cases l <;> rfl

theorem anchor_containsPass (l : ℕ) (p c : Loc) :
    (Pc.containsPass l p c).anchors = (Pc.containsTest l p c).anchors := by
  cases l <;> rfl

theorem anchor_containsNext (l : ℕ) (p c : Loc) :
    (Pc.containsNext l p c).anchors = (Pc.containsTest l p c).anchors := by
  cases l <;> rfl

theorem anchors_findDone (c : FindCtx) (e : Entry) (path : Path) (l : ℕ) :
    (findDone c e path l).anchors = [] := by
  rcases l with _ | l <;> cases c <;> rfl

theorem anchors_upper (σ : Store V) (path : Path) (n : Loc) (l : ℕ) :
    (upper σ path n l).anchors = [] := by
  unfold upper
  split <;> rfl

theorem anchors_mark (n : Loc) (l : ℕ) : (mark n l).anchors = [] := by
  cases l <;> rfl

theorem anchors_afterState (σ : Store V) (n : Loc) (won : Bool) (c : StateCtx) :
    (afterState σ n won c).anchors = [] := by
  cases c with
  | insert c =>
    cases c with
    | found => rfl
    | linked path => exact anchors_upper σ path n 1
  | mark => rfl
  | delete r => cases r <;> rfl

theorem anchors_afterSearch (σ : Store V) (op : SetOp V) (e : Entry) (st : NodeState)
    (path : Path) : (afterSearch σ op e st path).anchors = [] := by
  cases op with
  | insert k v =>
    simp only [afterSearch]
    split
    · split <;> rfl
    · rfl
  | remove k =>
    simp only [afterSearch]
    split
    · rfl
    · split
      · rfl
      · exact anchors_mark _ _
  | contains k => rfl

theorem anchors_searchDone {e : Entry} {z : Loc}
    (h : z ∈ (searchDone σ op e st path l).anchors) : z = e.pred := by
  cases l with
  | zero =>
    simp only [searchDone, anchors_afterSearch] at h
    cases h
  | succ l => simpa [searchDone, Pc.anchors] using h

theorem MemInv.linked_base (hm : MemInv σ 1 L) (hx : (x, l) ∈ L) (hd : ¬ σ.dead l x) :
    (σ.level 0).Linked x :=
  hm.linked_of_alive (hm.base hx) Nat.one_pos (hm.alive_below hx (Nat.zero_le l) hd)

theorem anchors_step (hm : MemInv σ 1 L) (f : Fit σ L op pc)
    (hn : next σ op slot level pc = some (σ', pc')) :
    ∀ a ∈ pc'.anchors, (∃ b ∈ pc.anchors, (σ.level 0).Reach b a) ∨ (σ.level 0).Linked a := by
  intro a ha
  have keep : a ∈ pc.anchors →
      (∃ b ∈ pc.anchors, (σ.level 0).Reach b a) ∨ (σ.level 0).Linked a :=
    fun h => Or.inl ⟨a, h, Heap.Reach.refl a⟩
  have none : ∀ {zs : List Loc}, zs = [] → a ∈ zs →
      (∃ b ∈ pc.anchors, (σ.level 0).Reach b a) ∨ (σ.level 0).Linked a := by
    rintro _ rfl h
    cases h
  cases act_of_next hn with
  | @searchDown l p s path hs =>
    rcases mem_anchors_test.1 ha with rfl | ⟨rfl, rfl⟩
    · exact keep (by simp [Pc.anchors])
    · exact Or.inl ⟨p, by simp [Pc.anchors], Heap.Reach.single hs⟩
  | searchSkip dead =>
    rw [anchor_next] at ha
    exact keep ha
  | searchStop alive le => exact keep (mem_anchors_test.2 (Or.inl (anchors_searchDone ha)))
  | @searchGo l p s st path alive lt =>
    have hsl := f.refs (s, l) (by simp [Pc.refs])
    rw [anchor_next] at ha
    obtain rfl : a = s := (mem_anchors_test.1 ha).elim id fun h => h.2
    exact Or.inr (hm.linked_base hsl alive)
  | @searchNext l p s e st path hs =>
    rw [anchor_next] at keep ⊢
    rcases mem_anchors_test.1 ha with rfl | ⟨rfl, rfl⟩
    · exact keep (mem_anchors_test.2 (Or.inl rfl))
    · exact Or.inl ⟨s, mem_anchors_test.2 (Or.inr ⟨rfl, rfl⟩), Heap.Reach.single hs⟩
  | findSame => exact none (anchors_findDone _ _ _ _) ha
  | findWon => exact none (anchors_findDone _ _ _ _) ha
  | stateDone => exact none (anchors_afterState _ _ _ _) ha
  | stateWon => exact none (anchors_afterState _ _ _ _) ha
  | lostFree =>
    obtain rfl : a = head := by simpa [retry, Pc.anchors] using ha
    exact Or.inr (Heap.Reach.refl _)
  | upperLink => exact none (anchors_upper _ _ _ _) ha
  | markSkip => exact none (anchors_mark _ _) ha
  | markWon => exact none (anchors_mark _ _) ha
  | @containsDown l p s hs =>
    rcases mem_anchors_pass.1 ha with rfl | ⟨rfl, rfl⟩
    · exact keep (by simp [Pc.anchors])
    · exact Or.inl ⟨p, by simp [Pc.anchors], Heap.Reach.single hs⟩
  | containsSkip skip =>
    rw [anchor_containsPass] at ha
    exact keep ha
  | containsStep inn lt => exact keep ha
  | containsOut out =>
    rw [anchor_containsNext, ← anchor_containsPass] at ha
    exact keep ha
  | @containsGo l p s inn =>
    have hsl := f.refs (s, l) (by simp [Pc.refs])
    rw [anchor_containsNext] at ha
    obtain rfl : a = s := (mem_anchors_pass.1 ha).elim id fun h => h.2
    exact Or.inr (hm.linked_base hsl fun hd => inn (isOut_iff.2 (Or.inl hd)))
  | @containsNext l p s e hs =>
    rw [anchor_containsNext] at keep ⊢
    rcases mem_anchors_pass.1 ha with rfl | ⟨rfl, rfl⟩
    · exact keep (mem_anchors_pass.2 (Or.inl rfl))
    · exact Or.inl ⟨s, mem_anchors_pass.2 (Or.inr ⟨rfl, rfl⟩), Heap.Reach.single hs⟩
  | _ => cases ha

theorem Fit.anchors_live (hm : MemInv σ 1 L) (f : Fit σ L op pc) (ha : x ∈ pc.anchors) :
    (x, 0) ∈ L := by
  have of : ∀ l, (x, l) ∈ pc.refs → (x, 0) ∈ L := fun l h => hm.base (f.refs _ h)
  cases pc with
  | searchDown l p path => exact of l (by simp_all [Pc.anchors, Pc.refs])
  | searchTest l p st c path =>
    refine of l ?_
    rcases mem_anchors_test.1 ha with rfl | ⟨_, rfl⟩ <;> simp [Pc.refs]
  | searchNext l p st c path =>
    rw [anchor_next] at ha
    refine of l ?_
    rcases mem_anchors_test.1 ha with rfl | ⟨_, rfl⟩ <;> simp [Pc.refs]
  | containsDown l p => exact of l (by simp_all [Pc.anchors, Pc.refs])
  | containsTest l p c =>
    refine of l ?_
    rcases mem_anchors_pass.1 ha with rfl | ⟨_, rfl⟩ <;> simp [Pc.refs]
  | containsPass l p c =>
    rw [anchor_containsPass] at ha
    refine of l ?_
    rcases mem_anchors_pass.1 ha with rfl | ⟨_, rfl⟩ <;> simp [Pc.refs]
  | containsNext l p c =>
    rw [anchor_containsNext] at ha
    refine of l ?_
    rcases mem_anchors_pass.1 ha with rfl | ⟨_, rfl⟩ <;> simp [Pc.refs]
  | _ => cases ha

/-! ### What a call has learnt since it started -/

theorem Inv.eq_of_key (hi : Inv 1 s) (hx : InList s.store x) (hy : InList s.store y)
    (h : (s.store.node x).key = (s.store.node y).key) : x = y := by
  refine Heap.Ordered.eq_of_rank hi.mem.ordered (Heap.Live.root hi.mem.head_mem) hx.1 hy.1 ?_
  change rank s.store x = rank s.store y
  rw [rank_inList hx, rank_inList hy, h]

theorem mem_abs : k ∈ s.abs ↔ ∃ x, InList s.store x ∧
    (s.store.stateAt 0 x ≠ .intendToInsert ∧ s.store.stateAt 0 x ≠ .deleted) ∧
    (s.store.node x).key = k := by
  have visible : ∀ a : NodeState, a = .inserted ∨ a = .intendToDelete ↔
      a ≠ .intendToInsert ∧ a ≠ .deleted := by
    intro a
    cases a <;> decide
  constructor
  · rintro ⟨x, h1, h2, h3, h4, h5⟩
    exact ⟨x, ⟨h3, h1, h2⟩, (visible _).1 h4, h5⟩
  · rintro ⟨x, ⟨h3, h1, h2⟩, h4, h5⟩
    exact ⟨x, h1, h2, h3, (visible _).2 h4, h5⟩

theorem Inv.not_mem_abs (hi : Inv 1 s) (hx : InList s.store x)
    (hk : rank s.store x = (k : WithBot ℤ))
    (hv : s.store.stateAt 0 x = .intendToInsert ∨ s.store.stateAt 0 x = .deleted) :
    k ∉ s.abs := by
  intro h
  obtain ⟨y, hy, hvy, hky⟩ := mem_abs.1 h
  obtain rfl := hi.eq_of_key hx hy ((key_of_rank hk).trans hky.symm)
  exact hv.elim hvy.1 hvy.2

section Trail

variable (ρ : Run (machine V)) (k : ℤ) (i m : ℕ)

def stateAt (x : Loc) : NodeState := (ρ.state m).store.stateAt 0 x

def Present : Prop := ρ.During i m fun s => k ∈ s.abs

def Absent : Prop := ρ.During i m fun s => k ∉ s.abs

def Below (x : Loc) : Prop := rank (ρ.state m).store x < (k : WithBot ℤ) ∨ Absent ρ k i m

def UpTo (x : Loc) : Prop := rank (ρ.state m).store x ≤ (k : WithBot ℤ) ∨ Absent ρ k i m

def Waiting (n : Loc) : Prop := stateAt ρ m n = .intendToInsert ∨ Present ρ k i m

def Lasting (n : Loc) : Prop := stateAt ρ m n ≠ .deleted ∨ Absent ρ k i m

def InsertTrail (n : Loc) : InsertCtx → Prop
  | .found => Waiting ρ k i m n
  | .linked _ => True

def StateTrail (n : Loc) : StateCtx → Prop
  | .insert c => InsertTrail ρ k i m n c
  | .mark => Lasting ρ k i m n
  | .delete r => r = false → Lasting ρ k i m n

def RetTrail (r : Bool) : SetOp V → Prop
  | .insert _ _ => r = false → Present ρ k i m
  | .remove _ => r = false → Absent ρ k i m
  | .contains _ => ρ.During i m fun s => r = true ↔ k ∈ s.abs

def Trail (op : SetOp V) : Pc → Prop
  | .searchTest 0 _ _ c _ => op.IsRemove → UpTo ρ op.key i m c
  | .searchNext 0 _ _ c _ => op.IsRemove → Below ρ op.key i m c
  | .helpStore c n => InsertTrail ρ op.key i m n c
  | .helpFlush c n => InsertTrail ρ op.key i m n c
  | .stateTest c n => StateTrail ρ op.key i m n c
  | .stateLoad c n => StateTrail ρ op.key i m n c
  | .stateCas c n _ => StateTrail ρ op.key i m n c
  | .markLoad n _ => Lasting ρ op.key i m n
  | .markCas n _ _ => Lasting ρ op.key i m n
  | .destroyStore r n => r = false → Lasting ρ op.key i m n
  | .destroyFlush r n => r = false → Lasting ρ op.key i m n
  | .containsTest 0 _ c => UpTo ρ op.key i m c
  | .containsPass 0 _ c => Below ρ op.key i m c
  | .containsNext 0 _ c => Below ρ op.key i m c
  | .ret r => RetTrail ρ op.key i m r op
  | _ => True

end Trail

section Grow

variable {ρ : Run (machine V)} {r : Bool}

theorem Present.succ (h : Present ρ k i m) : Present ρ k i (m + 1) := h.mono (Nat.le_succ m)

theorem Absent.succ (h : Absent ρ k i m) : Absent ρ k i (m + 1) := h.mono (Nat.le_succ m)

theorem Below.succ (h : Below ρ k i m x)
    (hr : rank (ρ.state (m + 1)).store x = rank (ρ.state m).store x) : Below ρ k i (m + 1) x :=
  h.imp (fun h => hr.symm ▸ h) Absent.succ

theorem UpTo.succ (h : UpTo ρ k i m x)
    (hr : rank (ρ.state (m + 1)).store x = rank (ρ.state m).store x) : UpTo ρ k i (m + 1) x :=
  h.imp (fun h => hr.symm ▸ h) Absent.succ

theorem present_now (clean : Clean ρ) (hm : m ≤ ρ.length) (hi : i < m) (hk : k < INTPTR_MAX)
    (hx : (x, l) ∈ (ρ.state m).live) (hd : ¬ (ρ.state m).store.dead l x)
    (hr : rank (ρ.state m).store x = (k : WithBot ℤ))
    (hv : stateAt ρ m x ≠ .intendToInsert) : Present ρ k i m := by
  have hmem := (inv_run ρ clean m hm).mem
  refine Run.During.now hi (mem_abs.2 ⟨x, hmem.inList hk hx hd hr, ⟨hv, ?_⟩, key_of_rank hr⟩)
  exact hmem.alive_below hx (Nat.zero_le l) hd

theorem absent_now (clean : Clean ρ) (hm : m ≤ ρ.length) (hi : i < m) (hk : k < INTPTR_MAX)
    (hx : (x, 0) ∈ (ρ.state m).live) (hr : rank (ρ.state m).store x = (k : WithBot ℤ))
    (hv : stateAt ρ m x = .intendToInsert) : Absent ρ k i m := by
  have hinv := inv_run ρ clean m hm
  refine Run.During.now hi (hinv.not_mem_abs (hinv.mem.inList hk hx ?_ hr) hr (Or.inl hv))
  intro hd
  exact absurd (hv.symm.trans hd) (by decide)

theorem absent_of_missing (h : Missing (heaps ρ) (k : WithBot ℤ) i m) : Absent ρ k i m := by
  obtain ⟨j, h1, h2, h3⟩ := h
  refine ⟨j, h1, h2, fun hk => ?_⟩
  obtain ⟨x, hx, _, hkx⟩ := mem_abs.1 hk
  exact h3 x hx.1 ((rank_inList hx).trans (congrArg _ hkx))

theorem absent_of_dying (clean : Clean ρ) (hm : m ≤ ρ.length)
    (h : Dying (heaps ρ) (k : WithBot ℤ) i m x) : Absent ρ k i m := by
  obtain ⟨j, h1, h2, h3, h4, h5⟩ := h
  have hi := inv_run ρ clean j (by omega)
  refine ⟨j, h1, h2, hi.not_mem_abs ⟨h3, ?_, hi.mem.ne_tail_of_dead (i := 0) h4⟩ h5 (Or.inr h4)⟩
  rintro rfl
  exact hi.mem.head_alive 0 h4

theorem Waiting.succ (clean : Clean ρ) (hm : m < ρ.length) (hi : i < m) (hk : k < INTPTR_MAX)
    (hl : (n, 0) ∈ (ρ.state m).live) (hl' : (n, 0) ∈ (ρ.state (m + 1)).live)
    (hr : rank (ρ.state (m + 1)).store n = (k : WithBot ℤ)) (h : Waiting ρ k i m n) :
    Waiting ρ k i (m + 1) n := by
  rcases h with h | h
  · rcases ((inv_run ρ clean m hm.le).evolves (clean m hm) (ρ.step hm) hl).age with hs | hs
    · exact Or.inl (hs.trans h)
    · have h : (((ρ.state m).store.node n).next 0).state = .intendToInsert := h
      rw [h] at hs
      have hin : stateAt ρ (m + 1) n = .inserted := NodeState.age_injective hs
      refine Or.inr (present_now clean hm (by omega) hk hl' ?_ hr ?_)
      · exact fun hd => absurd (hin.symm.trans hd) (by decide)
      · rw [hin]
        decide
  · exact Or.inr h.succ

theorem Lasting.succ (clean : Clean ρ) (hm : m < ρ.length) (hi : i < m)
    (hl : (n, 0) ∈ (ρ.state m).live)
    (hr : rank (ρ.state (m + 1)).store n = (k : WithBot ℤ)) (h : Lasting ρ k i m n) :
    Lasting ρ k i (m + 1) n := by
  rcases h with h | h
  · by_cases hd : stateAt ρ (m + 1) n = .deleted
    · have g := (sorted_run clean hm.le).good
      have seen : Seen (heaps ρ) i (m + 1) n :=
        Seen.step g (change_run clean hm) hi (live_run hl) (Or.inl (g.alive (live_run hl) h))
      exact Or.inr (absent_of_dying clean hm (seen.dying (by omega) hd hr))
    · exact Or.inl hd
  · exact Or.inr h.succ

theorem RetTrail.succ (h : RetTrail ρ k i m r op) : RetTrail ρ k i (m + 1) r op := by
  cases op with
  | insert k' v => exact fun hr => (h hr).succ
  | remove k' => exact fun hr => (h hr).succ
  | contains k' =>
    have h : ρ.During i m fun s => r = true ↔ k ∈ s.abs := h
    exact h.mono (Nat.le_succ m)

theorem Trail.succ (clean : Clean ρ) (hm : m < ρ.length) (hi : i < m) (h : Trail ρ i m op pc)
    (hl : ∀ x, (x, 0) ∈ pc.refs → (x, 0) ∈ (ρ.state m).live)
    (f' : Fit (ρ.state (m + 1)).store (ρ.state (m + 1)).live op pc) :
    Trail ρ i (m + 1) op pc := by
  have hev : ∀ x, (x, 0) ∈ pc.refs →
      rank (ρ.state (m + 1)).store x = rank (ρ.state m).store x := fun x hx =>
    rank_congr ((inv_run ρ clean m hm.le).evolves (clean m hm) (ρ.step hm) (hl x hx)).key
  have last : ∀ {n}, (n, 0) ∈ pc.refs → rank (ρ.state (m + 1)).store n = (op.key : ℤ) →
      Lasting ρ op.key i m n → Lasting ρ op.key i (m + 1) n :=
    fun hn hr h => h.succ clean hm hi (hl _ hn) hr
  have insert : ∀ {n} {c : InsertCtx}, (n, 0) ∈ pc.refs →
      InsertOk (ρ.state (m + 1)).store op n c → InsertTrail ρ op.key i m n c →
      InsertTrail ρ op.key i (m + 1) n c := by
    intro n c hn hr h
    cases c with
    | found => exact Waiting.succ clean hm hi f'.key (hl _ hn) (f'.refs _ hn) hr h
    | linked path => trivial
  have state : ∀ {n} {c : StateCtx}, (n, 0) ∈ pc.refs →
      StateOk (ρ.state (m + 1)).store op n c → StateTrail ρ op.key i m n c →
      StateTrail ρ op.key i (m + 1) n c := by
    intro n c hn hr h
    cases c with
    | insert c => exact insert hn hr h
    | mark => exact last hn (StateOk.rank (c := .mark) hr) h
    | delete r => exact fun he => last hn (StateOk.rank (c := .delete r) hr) (h he)
  have floc := f'.loc
  cases pc with
  | searchTest l p st c path =>
    cases l with
    | zero => exact fun hrem => (h hrem).succ (hev c (by simp [Pc.refs]))
    | succ l => trivial
  | searchNext l p st c path =>
    cases l with
    | zero => exact fun hrem => (h hrem).succ (hev c (by simp [Pc.refs]))
    | succ l => trivial
  | helpStore c n => exact insert (c.mem_refs n) floc h
  | helpFlush c n => exact insert (c.mem_refs n) floc h
  | stateTest c n => exact state (c.mem_refs n) floc h
  | stateLoad c n => exact state (c.mem_refs n) floc h
  | stateCas c n q => exact state (c.mem_refs n) floc h
  | markLoad n l => exact last (by simp [Pc.refs]) floc.1.rank h
  | markCas n l q => exact last (by simp [Pc.refs]) floc.1.rank h
  | destroyStore r n => exact fun he => last (by simp [Pc.refs]) floc.1 (h he)
  | destroyFlush r n => exact fun he => last (by simp [Pc.refs]) floc.1 (h he)
  | containsTest l p c =>
    cases l with
    | zero => exact UpTo.succ h (hev c (by simp [Pc.refs]))
    | succ l => trivial
  | containsPass l p c =>
    cases l with
    | zero => exact Below.succ h (hev c (by simp [Pc.refs]))
    | succ l => trivial
  | containsNext l p c =>
    cases l with
    | zero => exact Below.succ h (hev c (by simp [Pc.refs]))
    | succ l => trivial
  | ret r => exact RetTrail.succ h
  | _ => trivial

/-! ### What one step adds -/

theorem walk_trail (clean : Clean ρ) (hm : m ≤ ρ.length) (hi : i < m)
    (hs : Seen (heaps ρ) i m x) (hlt : rank (ρ.state m).store x < (k : WithBot ℤ))
    (hy : (((ρ.state m).store.node x).next 0).ref = some y) : UpTo ρ k i m y :=
  (hs.next (fun j hj => sorted_run clean (by omega)) hi hy hlt).imp_right absent_of_missing

theorem Below.walk (clean : Clean ρ) (hm : m ≤ ρ.length) (hi : i < m)
    (hs : SeenFrom (heaps ρ) i m x) (h : Below ρ k i m x)
    (hy : (((ρ.state m).store.node x).next 0).ref = some y) : UpTo ρ k i m y := by
  rcases h with h | h
  · exact walk_trail clean hm hi hs.self h hy
  · exact Or.inr h

theorem UpTo.absent (h : UpTo ρ op.key i m x) (hx : x ≠ head)
    (hlt : op.key < ((ρ.state m).store.node x).key) : Absent ρ op.key i m := by
  refine h.resolve_left fun h => ?_
  rw [rank_of_ne _ hx] at h
  exact absurd (WithBot.coe_le_coe.1 h) (not_le.2 hlt)

theorem UpTo.skip (clean : Clean ρ) (hm : m ≤ ρ.length) (hi : i < m)
    (hs : SeenFrom (heaps ρ) i m x) (hd : (ρ.state m).store.dead 0 x) (h : UpTo ρ k i m x) :
    Below ρ k i m x := by
  rcases h with hle | ha
  · rcases lt_or_eq_of_le hle with hlt | heq
    · exact Or.inl hlt
    · exact Or.inr (absent_of_dying clean hm (hs.self.dying hi hd heq))
  · exact Or.inr ha

theorem mark_trail (h : Lasting ρ op.key i m n) : Trail ρ i m op (mark n l) := by
  cases l <;> exact h

theorem findDone_trail {c : FindCtx} {e : Entry} : Trail ρ i m op (findDone c e path l) := by
  rcases l with _ | l <;> cases c <;> trivial

theorem upper_trail (hop : op.IsInsert) : Trail ρ i m op (upper σ path n l) := by
  unfold upper
  split
  · trivial
  · cases op with
    | insert k v => exact fun h => by cases h
    | _ => exact hop.elim

theorem ret_true_trail (hop : ¬ op.IsContains) : Trail ρ i m op (.ret true) := by
  cases op with
  | contains k => exact absurd trivial hop
  | _ => exact fun h => by cases h

theorem not_contains_of_insert (h : op.IsInsert) : ¬ op.IsContains := by
  cases op with
  | insert k v => exact id
  | _ => exact h.elim

theorem not_contains_of_remove (h : op.IsRemove) : ¬ op.IsContains := by
  cases op with
  | remove k => exact id
  | _ => exact h.elim

theorem afterSearch_trail (clean : Clean ρ) (hm : m ≤ ρ.length) (hi : i < m)
    (f : Fit (ρ.state m).store (ρ.state m).live op (.searchTest 0 p st c path))
    (tr : Trail ρ i m op (.searchTest 0 p st c path)) (alive : ¬ (ρ.state m).store.dead 0 c)
    (le : op.key ≤ ((ρ.state m).store.node c).key) :
    Trail ρ i m op (afterSearch (ρ.state m).store op ⟨p, c, st⟩ (stateAt ρ m c) path) := by
  have hc : c ≠ head := f.loc.2.2.2.2
  have hcl := f.refs (c, 0) (by simp [Pc.refs])
  cases op with
  | insert k v =>
    simp only [afterSearch]
    split
    · next hk =>
      split
      · next hst =>
        exact fun _ => present_now clean hm hi f.key hcl alive (rank_eq_of_key hk hc) hst
      · next hst => exact Or.inl (not_not.1 hst)
    · trivial
  | remove k =>
    simp only [afterSearch]
    split
    · next hne =>
      exact fun _ => UpTo.absent (tr trivial) hc (lt_of_le_of_ne le (Ne.symm hne))
    · next hk =>
      have hr : rank (ρ.state m).store c = ((SetOp.remove (V := V) k).key : ℤ) :=
        rank_eq_of_key (not_not.1 hk) hc
      split
      · next ho =>
        have hst := (isOut_iff.1 ho).resolve_left alive
        exact fun _ => absent_now clean hm hi f.key hcl hr hst
      · exact mark_trail (Or.inl alive)
  | contains k => exact absurd trivial f.fits

theorem stateDone_trail {c : StateCtx} (hf : c.Fits op) (ho : StateOk (ρ.state m).store op n c)
    (hs : stateAt ρ m n ≠ c.expected) (tr : StateTrail ρ op.key i m n c) :
    Trail ρ i m op (afterState (ρ.state m).store n false c) := by
  cases c with
  | insert c =>
    cases c with
    | found =>
      cases op with
      | insert k v => exact fun _ => Or.resolve_left tr hs
      | _ => exact hf.elim
    | linked path => exact upper_trail hf
  | mark => exact fun _ => tr
  | delete r =>
    cases r with
    | true => trivial
    | false =>
      have hd : stateAt ρ m n = .deleted := by
        have hage : 2 ≤ (stateAt ρ m n).age := ho.2
        change stateAt ρ m n ≠ .intendToDelete at hs
        cases he : stateAt ρ m n <;> simp_all [NodeState.age]
      cases op with
      | remove k => exact fun _ => (tr rfl).resolve_left (not_not.2 hd)
      | _ => exact hf.elim

theorem stateWon_trail {c : StateCtx} (clean : Clean ρ) (hm : m < ρ.length) (hi : i < m)
    (f : Fit (ρ.state m).store (ρ.state m).live op (.stateCas c n q))
    (h0 : stateAt ρ m n = c.expected) (hs : stateAt ρ (m + 1) n = c.newState)
    (tr : StateTrail ρ op.key i m n c) :
    Trail ρ i (m + 1) op (afterState (ρ.state m).store n true c) := by
  have hop : c.Fits op := f.fits
  have ho : StateOk (ρ.state m).store op n c := f.loc
  have hl : (n, 0) ∈ (ρ.state m).live := f.refs _ (c.mem_refs n)
  have hr : rank (ρ.state (m + 1)).store n = (op.key : ℤ) :=
    (rank_congr ((inv_run ρ clean m hm.le).evolves (clean m hm) (ρ.step hm) hl).key).trans ho.rank
  cases c with
  | insert c =>
    cases c with
    | found =>
      have hs : stateAt ρ (m + 1) n = .inserted := hs
      have hd : ¬ (heaps ρ m).dead n := fun hd => absurd (h0.symm.trans hd) (by decide)
      have hd' : ¬ (heaps ρ (m + 1)).dead n := fun hd => absurd (hs.symm.trans hd) (by decide)
      have g := (sorted_run clean hm.le).good
      have linked := ((change_run clean hm).stays g (g.alive (live_run hl) hd)).resolve_right hd'
      cases op with
      | insert k v =>
        refine fun _ => present_now clean hm (by omega) f.key
          (mem_live_of_linked clean hm linked) hd' hr ?_
        rw [hs]
        decide
      | _ => exact hop.elim
    | linked path => exact upper_trail hop
  | mark => exact fun h => by cases h
  | delete r =>
    cases r with
    | true => trivial
    | false =>
      have hs : stateAt ρ (m + 1) n = .deleted := hs
      cases op with
      | remove k =>
        exact fun _ => ((tr rfl).succ clean hm hi hl hr).resolve_left (not_not.2 hs)
      | _ => exact hop.elim

theorem containsSkip_trail (clean : Clean ρ) (hm : m ≤ ρ.length) (hi : i < m)
    (f : Fit (ρ.state m).store (ρ.state m).live op (.containsTest 0 p c))
    (hs : SeenFrom (heaps ρ) i m c) (tr : UpTo ρ op.key i m c)
    (skip : ((ρ.state m).store.node c).key < op.key ∨ isOut (stateAt ρ m c) = true) :
    Below ρ op.key i m c := by
  rcases skip with hlt | ho
  · exact Or.inl (rank_lt_of_key hlt f.loc.2.2)
  · rcases isOut_iff.1 ho with hd | hst
    · exact tr.skip clean hm hi hs hd
    · rcases tr with hle | ha
      · rcases lt_or_eq_of_le hle with hlt | heq
        · exact Or.inl hlt
        · have hcl := f.refs (c, 0) (by simp [Pc.refs])
          exact Or.inr (absent_now clean hm hi f.key hcl heq hst)
      · exact Or.inr ha

theorem Present.contains (h : Present ρ k i m) :
    ρ.During i m fun s => true = true ↔ k ∈ s.abs := h.imp fun _ hs => iff_of_true rfl hs

theorem Absent.contains (h : Absent ρ k i m) : ρ.During i m fun s => false = true ↔ k ∈ s.abs :=
  h.imp fun _ hs => iff_of_false Bool.false_ne_true hs

theorem Trail.own (clean : Clean ρ) (hm : m ≤ ρ.length) (hi : i < m)
    (f : Fit (ρ.state m).store (ρ.state m).live op pc)
    (hs : ∀ a ∈ pc.anchors, SeenFrom (heaps ρ) i m a) (tr : Trail ρ i m op pc)
    (hn : next (ρ.state m).store op slot level pc = some (σ', pc'))
    (hw : ∀ c n q, pc = .stateCas c n q →
      ((ρ.state m).store.node n).next 0 ≠ q.createRef c.expected) : Trail ρ i m op pc' := by
  cases act_of_next hn with
  | @searchDown l p s path h =>
    cases l with
    | zero => exact fun _ => walk_trail clean hm hi (hs p (by simp [Pc.anchors])).self f.loc.2.1 h
    | succ l => trivial
  | @searchSkip l p s st path dead =>
    cases l with
    | zero => exact fun hrem => (tr hrem).skip clean hm hi (hs s (by simp [Pc.anchors])) dead
    | succ l => trivial
  | @searchStop l p s st path alive le =>
    cases l with
    | zero => exact afterSearch_trail clean hm hi f tr alive le
    | succ l => trivial
  | @searchGo l p s st path alive lt =>
    cases l with
    | zero => exact fun _ => Or.inl (rank_lt_of_key lt f.loc.2.2.2.2)
    | succ l => trivial
  | @searchNext l p s e st path h =>
    cases l with
    | zero => exact fun hrem => (tr hrem).walk clean hm hi (hs s (by simp [Pc.anchors])) h
    | succ l => trivial
  | findSame => exact findDone_trail
  | findWon => exact findDone_trail
  | stateDone h => exact stateDone_trail f.fits f.loc h tr
  | stateWon hq => exact absurd hq (hw _ _ _ rfl)
  | upperOut => exact ret_true_trail (not_contains_of_insert f.fits)
  | upperFail => exact ret_true_trail (not_contains_of_insert f.fits)
  | upperLink => exact upper_trail f.fits
  | markSkip => exact mark_trail tr
  | markWon => exact mark_trail tr
  | removeFree => exact ret_true_trail (not_contains_of_remove f.fits)
  | @containsDown l p s h =>
    cases l with
    | zero => exact walk_trail clean hm hi (hs p (by simp [Pc.anchors])).self f.loc.2 h
    | succ l => trivial
  | @containsSkip l p s skip =>
    cases l with
    | zero => exact containsSkip_trail clean hm hi f (hs s (by simp [Pc.anchors])) tr skip
    | succ l => trivial
  | @containsFound l p s inn eq =>
    have hcl := f.refs (s, l) (by simp [Pc.refs])
    have hd : ¬ (ρ.state m).store.dead l s := fun hd => inn (isOut_iff.2 (Or.inl hd))
    have hmem := (inv_run ρ clean m hm).mem
    have hst : stateAt ρ m s ≠ .intendToInsert := by
      rcases Nat.eq_zero_or_pos l with rfl | hl
      · exact fun h => inn (isOut_iff.2 (Or.inr h))
      · exact hmem.risen hcl hl
    have present := present_now clean hm hi f.key hcl hd (rank_eq_of_key eq f.loc.2.2) hst
    have hop : op.IsContains := f.fits
    cases op with
    | contains k => exact present.contains
    | _ => exact hop.elim
  | @containsEnd p s inn lt =>
    have hop : op.IsContains := f.fits
    cases op with
    | contains k => exact (UpTo.absent tr f.loc.2.2 lt).contains
    | _ => exact hop.elim
  | @containsOut l p s out =>
    cases l with
    | zero => exact tr
    | succ l => trivial
  | @containsGo l p s inn =>
    cases l with
    | zero => exact tr
    | succ l => trivial
  | @containsNext l p s e h =>
    cases l with
    | zero => exact Below.walk clean hm hi (hs s (by simp [Pc.anchors])) tr h
    | succ l => trivial
  | _ => exact tr

end Grow

theorem head_anchor {ρ : Run (machine V)} (h : x = head) : SeenFrom (heaps ρ) i m x := by
  subst h
  exact seenFrom_of_linked (Heap.Reach.refl _)

theorem trail_run (ρ : Run (machine V)) (clean : Clean ρ) : ∀ m ≤ ρ.length, ∀ {t op pc},
    (ρ.state m).thread t = some (op, pc) → ∃ i, ρ.Active t op i m ∧
      (∀ a ∈ pc.anchors, SeenFrom (heaps ρ) i m a) ∧ Trail ρ i m op pc := by
  refine ρ.active_inv (F := fun i m _ op pc =>
    (∀ a ∈ pc.anchors, SeenFrom (heaps ρ) i m a) ∧ Trail ρ i m op pc) ?_ ?_ ?_
  · intro m t op pc hm he _ ht
    have hs := ρ.step hm
    rw [he] at hs
    obtain ⟨rfl, _, _⟩ := call_inv hs ht
    cases op <;> refine ⟨fun a h => ?_, trivial⟩ <;>
      exact head_anchor (by simpa [start, retry, Pc.anchors] using h)
  · rintro i m t op pc pc' hm ha he ht ht' ⟨seen, tr⟩
    have hs := ρ.step hm
    rw [he] at hs
    obtain ⟨slot, level, σ, hn, hal, hst⟩ := tau_inv hs ht ht'
    have hi := inv_run ρ clean m hm.le
    have f := hi.fit ht
    have f' := (inv_run ρ clean (m + 1) hm).fit ht'
    have ch := change_run clean hm
    have hg := (sorted_run clean hm.le).good
    have hσ : (ρ.state (m + 1)).store = σ := by rw [hst]; rfl
    have hold : ∀ a ∈ pc'.anchors, SeenFrom (heaps ρ) i m a ∧
        (heaps ρ m).Live (roots ρ m) a := by
      intro a h
      rcases anchors_step hi.mem f hn a h with ⟨b, hb, hba⟩ | hl
      · exact ⟨(seen b hb).reach hba, (live_run (f.anchors_live hi.mem hb)).reach hba⟩
      · exact ⟨seenFrom_of_linked hl, hg.live_of_linked hl⟩
    refine ⟨fun a h => (hold a h).1.step hg ch ha.lt (hold a h).2, ?_⟩
    by_cases hw : ∃ c n q, pc = .stateCas c n q ∧
        ((ρ.state m).store.node n).next 0 = q.createRef c.expected
    · obtain ⟨c, n, q, rfl, hq⟩ := hw
      simp only [next, if_pos hq] at hn
      obtain ⟨rfl, rfl⟩ := Prod.mk.inj (Option.some.inj hn)
      refine stateWon_trail clean hm ha.lt f (congrArg Ptr.state hq) ?_ tr
      unfold stateAt
      rw [hσ]
      exact stateAt_setNext_self _ n 0 _
    · have own := Trail.own clean hm.le ha.lt f seen tr hn fun c n q h hq => hw ⟨c, n, q, h, hq⟩
      by_cases hlink : ∃ path n, pc' = .helpStore (.linked path) n
      · obtain ⟨path, n, rfl⟩ := hlink
        trivial
      · refine own.succ clean hm ha.lt (fun x hx => ?_) f'
        obtain ⟨L', e, fe, _⟩ := tau_ok hi ht (hi.tidy_one (.tau t) t op pc rfl ht) hn hal
          (hst ▸ clean m hm)
        refine ((tau_cases f hn).mem_or hi.mem f (e.change hi.mem) (fe.refs _ hx)).resolve_right ?_
        rintro ⟨path, _, h⟩
        exact hlink ⟨path, x, h⟩
  · rintro i m t op pc hm ha hne ht ht' ⟨seen, tr⟩
    have hi := inv_run ρ clean m hm.le
    have f := hi.fit ht
    have f' := (inv_run ρ clean (m + 1) hm).fit ht'
    have ch := change_run clean hm
    have hg := (sorted_run clean hm.le).good
    have hl : ∀ a ∈ pc.anchors, (heaps ρ m).Live (roots ρ m) a := fun a h =>
      live_run (f.anchors_live hi.mem h)
    exact ⟨fun a h => (seen a h).step hg ch ha.lt (hl a h),
      tr.succ clean hm ha.lt (fun x hx => f.refs _ hx) f'⟩

theorem ret_run (ρ : Run (machine V)) (clean : Clean ρ) {r : Bool} (hc : ρ.Completed t op r i j) :
    (ρ.state j).thread t = some (op, .ret r) ∧ RetTrail ρ op.key i j r op := by
  have hs := ρ.step hc.lt
  rw [hc.ret] at hs
  obtain ⟨op1, ht, _⟩ := ret_inv hs
  obtain ⟨pc, hpc⟩ := hc.active.thread hc.lt.le
  obtain ⟨rfl, rfl⟩ := Prod.mk.inj (Option.some.inj (hpc.symm.trans ht))
  obtain ⟨i', ha, _, tr⟩ := trail_run ρ clean j hc.lt.le ht
  obtain ⟨rfl, _⟩ := ha.unique hc.active
  exact ⟨ht, tr⟩

end SOFT.SkipList
