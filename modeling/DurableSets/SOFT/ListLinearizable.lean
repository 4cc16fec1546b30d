import DurableSets.SOFT.ListHelp

namespace SOFT.List

open Chain

variable {V : Type} {σ σ' : Store V} {R R' W W' : Set Loc} {x y n c d e : Loc} {p : PLoc}
  {slot : ℕ} {op : SetOp V} {pc pc' : Pc} {st : NodeState} {s s' : State V} {t u : Tid} {k : ℤ}

/-! ### The abstract set at a moment of a call -/

theorem mem_abs : k ∈ s.abs ↔ ∃ x, InList s.store x ∧
    NodeState.Visible (s.store.node x).next.state ∧ (s.store.node x).key = k := by
  constructor
  · rintro ⟨x, h1, h2, h3, h4, h5⟩
    exact ⟨x, ⟨h3, h1, h2⟩, h4, h5⟩
  · rintro ⟨x, ⟨h3, h1, h2⟩, h4, h5⟩
    exact ⟨x, h1, h2, h3, h4, h5⟩

theorem rank_inList (hx : InList σ x) : rank σ x = ((σ.node x).key : ℤ) := rank_of_ne σ hx.2.1

theorem Inv.eq_of_key (hi : Inv s) (hx : InList s.store x) (hy : InList s.store y)
    (h : (s.store.node x).key = (s.store.node y).key) : x = y := by
  refine Heap.Ordered.eq_of_rank hi.mem.chain.ordered hi.mem.chain.head_live hx.1 hy.1 ?_
  change rank s.store x = rank s.store y
  rw [rank_inList hx, rank_inList hy, h]

theorem Inv.not_mem_abs (hi : Inv s) (hx : InList s.store x) (hk : rank s.store x = (k : WithBot ℤ))
    (hv : ¬ NodeState.Visible (s.store.node x).next.state) : k ∉ s.abs := by
  intro h
  obtain ⟨y, hy, hvy, hky⟩ := mem_abs.1 h
  obtain rfl := hi.eq_of_key hx hy ((key_of_rank hk).trans hky.symm)
  exact hv hvy

section Trail

variable (ρ : Run (machine V)) (k : ℤ) (i m : ℕ)

def Present : Prop := ρ.During i m fun s => k ∈ s.abs

def Absent : Prop := ρ.During i m fun s => k ∉ s.abs

def Upto (x : Loc) : Prop := rank (ρ.state m).store x ≤ (k : WithBot ℤ) ∨ Absent ρ k i m

def Waiting (n : Loc) : Prop := stateAt ρ m n = .intendToInsert ∨ Present ρ k i m

def Lasting (n : Loc) : Prop := stateAt ρ m n ≠ .deleted ∨ Absent ρ k i m

def TrimTrail : TrimCtx → Prop
  | .inFind s => Upto ρ k i m s
  | .inRemove => True

def RetTrail (r : Bool) : SetOp V → Prop
  | .insert _ _ => r = false → Present ρ k i m
  | .remove _ => r = false → Absent ρ k i m
  | .contains _ => ρ.During i m fun s => r = true ↔ k ∈ s.abs

def Trail (op : SetOp V) : Pc → Prop
  | .findLoad _ _ c => Upto ρ op.key i m c
  | .trimLoad t _ _ _ => TrimTrail ρ op.key i m t
  | .trimCas t _ _ _ _ => TrimTrail ρ op.key i m t
  | .trimFree t _ _ _ => TrimTrail ρ op.key i m t
  | .createStart r n => r = false → Waiting ρ op.key i m n
  | .createKey r n => r = false → Waiting ρ op.key i m n
  | .createValue r n => r = false → Waiting ρ op.key i m n
  | .createEnd r n => r = false → Waiting ρ op.key i m n
  | .createFlush r n => r = false → Waiting ρ op.key i m n
  | .insertTest r n => r = false → Waiting ρ op.key i m n
  | .insertLoad r n => r = false → Waiting ρ op.key i m n
  | .insertCas r n _ => r = false → Waiting ρ op.key i m n
  | .markTest _ _ n => Lasting ρ op.key i m n
  | .markLoad _ _ n => Lasting ρ op.key i m n
  | .markCas _ _ n _ => Lasting ρ op.key i m n
  | .destroyStore r _ _ n => r = false → Lasting ρ op.key i m n
  | .destroyFlush r _ _ n => r = false → Lasting ρ op.key i m n
  | .deleteTest r _ _ n => r = false → Lasting ρ op.key i m n
  | .deleteLoad r _ _ n => r = false → Lasting ρ op.key i m n
  | .deleteCas r _ _ n _ => r = false → Lasting ρ op.key i m n
  | .containsWalk c => Upto ρ op.key i m c
  | .ret r => RetTrail ρ op.key i m r op
  | _ => True

end Trail

section Grow

variable {ρ : Run (machine V)} {i m : ℕ}

theorem Present.succ (h : Present ρ k i m) : Present ρ k i (m + 1) := h.mono (Nat.le_succ m)

theorem Absent.succ (h : Absent ρ k i m) : Absent ρ k i (m + 1) := h.mono (Nat.le_succ m)

theorem present_now (hm : m ≤ ρ.length) (hi : i < m) (hk : k < INT_MAX)
    (hx : (ρ.state m).store.heap.Live (ρ.state m).roots x)
    (hr : rank (ρ.state m).store x = (k : WithBot ℤ))
    (hv : NodeState.Visible (stateAt ρ m x)) : Present ρ k i m := by
  have hc := (inv_run ρ m hm).mem.chain
  have hl : (ρ.state m).store.heap.Linked x := hc.good.alive hx fun hd => by
    have hd : stateAt ρ m x = .deleted := hd
    rw [hd] at hv
    exact hv.elim nofun nofun
  refine Run.During.now hi (mem_abs.2 ⟨x, ⟨hl, ne_head_of_rank hr, ?_⟩, hv,
    key_of_rank hr⟩)
  exact hc.ne_tail_of_rank hk hr.le

theorem absent_of_missing (h : Missing (heaps ρ) (k : WithBot ℤ) i m) :
    Absent ρ k i m := by
  obtain ⟨j, h1, h2, h3⟩ := h
  refine ⟨j, h1, h2, fun hk => ?_⟩
  obtain ⟨x, hx, _, hkx⟩ := mem_abs.1 hk
  exact h3 x hx.1 ((rank_inList hx).trans (congrArg _ hkx))

theorem absent_of_dying (hm : m ≤ ρ.length) (h : Dying (heaps ρ) (k : WithBot ℤ) i m x) :
    Absent ρ k i m := by
  obtain ⟨j, h1, h2, h3, h4, h5⟩ := h
  have hi := inv_run ρ j (by omega)
  have h4 : stateAt ρ j x = .deleted := h4
  refine ⟨j, h1, h2, hi.not_mem_abs ⟨h3, hi.mem.chain.ne_head_of_dead h4,
    hi.mem.chain.ne_tail_of_dead h4⟩ h5 ?_⟩
  change ¬ NodeState.Visible (stateAt ρ j x)
  rw [h4]
  exact fun h => h.elim nofun nofun

theorem Upto.succ (h : Upto ρ k i m x)
    (hr : rank (ρ.state (m + 1)).store x = rank (ρ.state m).store x) : Upto ρ k i (m + 1) x :=
  h.imp (fun h => hr.symm ▸ h) Absent.succ

theorem Waiting.succ (hm : m < ρ.length) (hi : i < m) (hk : k < INT_MAX)
    (hl' : (ρ.state (m + 1)).store.heap.Live (ρ.state (m + 1)).roots n)
    (hr : rank (ρ.state (m + 1)).store n = (k : WithBot ℤ))
    (hev : Evolves ((ρ.state m).store.node n) ((ρ.state (m + 1)).store.node n))
    (h : Waiting ρ k i m n) : Waiting ρ k i (m + 1) n := by
  rcases h with h | h
  · have h : ((ρ.state m).store.node n).next.state = .intendToInsert := h
    rcases hev.state with hs | hs
    · exact Or.inl (hs.trans h)
    · rw [h] at hs
      have hin : stateAt ρ (m + 1) n = .inserted := NodeState.age_injective hs
      exact Or.inr (present_now hm (by omega) hk hl' hr (Or.inl hin))
  · exact Or.inr h.succ

theorem Lasting.succ (hm : m < ρ.length) (hi : i < m)
    (hl : (ρ.state m).store.heap.Live (ρ.state m).roots n)
    (hr : rank (ρ.state (m + 1)).store n = (k : WithBot ℤ))
    (h : Lasting ρ k i m n) : Lasting ρ k i (m + 1) n := by
  rcases h with h | h
  · by_cases hd : stateAt ρ (m + 1) n = .deleted
    · have g := (sorted_run ρ hm.le).good
      have seen : Seen (heaps ρ) i (m + 1) n :=
        Seen.step g (change_run ρ hm) hi hl (Or.inl (g.alive hl h))
      exact Or.inr (absent_of_dying hm (seen.dying (by omega) hd hr))
    · exact Or.inl hd
  · exact Or.inr h.succ

theorem RetTrail.succ {r : Bool} (h : RetTrail ρ k i m r op) : RetTrail ρ k i (m + 1) r op := by
  cases op with
  | insert k' v => exact fun hr => (h hr).succ
  | remove k' => exact fun hr => (h hr).succ
  | contains k' =>
    have h : ρ.During i m fun s => r = true ↔ k ∈ s.abs := h
    exact h.mono (Nat.le_succ m)

theorem Trail.succ (hm : m < ρ.length) (hi : i < m) (h : Trail ρ i m op pc)
    (hl : ∀ r ∈ pc.refs, (ρ.state m).store.heap.Live (ρ.state m).roots r)
    (hev : ∀ r ∈ pc.refs, Evolves ((ρ.state m).store.node r) ((ρ.state (m + 1)).store.node r))
    (f' : Fit (ρ.state (m + 1)).store (ρ.state (m + 1)).roots (ρ.state (m + 1)).writers op pc) :
    Trail ρ i (m + 1) op pc := by
  have upto : ∀ {x}, x ∈ pc.refs → Upto ρ op.key i m x → Upto ρ op.key i (m + 1) x :=
    fun hx h => h.succ (rank_congr (hev _ hx).key)
  have trim : ∀ {t : TrimCtx}, (∀ s ∈ t.refs, s ∈ pc.refs) → TrimTrail ρ op.key i m t →
      TrimTrail ρ op.key i (m + 1) t := by
    intro t ht h
    cases t with
    | inFind s => exact upto (ht s (by simp [TrimCtx.refs])) h
    | inRemove => trivial
  have wait : ∀ {n} {r : Bool}, n ∈ pc.refs → rank (ρ.state (m + 1)).store n = (op.key : ℤ) →
      (r = false → Waiting ρ op.key i m n) → r = false → Waiting ρ op.key i (m + 1) n :=
    fun hn hr h hf => (h hf).succ hm hi f'.key (f'.refs _ hn) hr (hev _ hn)
  have last : ∀ {n}, n ∈ pc.refs → rank (ρ.state (m + 1)).store n = (op.key : ℤ) →
      Lasting ρ op.key i m n → Lasting ρ op.key i (m + 1) n :=
    fun hn hr h => h.succ hm hi (hl _ hn) hr
  have floc := f'.loc
  cases pc with
  | findLoad d st c => exact upto (by simp [Pc.refs]) h
  | trimLoad t d st n => exact trim (by simp_all [Pc.refs]) h
  | trimCas t d st n q => exact trim (by simp_all [Pc.refs]) h
  | trimFree t d st n => exact trim (by simp_all [Pc.refs]) h
  | createStart r n => exact wait (by simp [Pc.refs]) floc h
  | createKey r n => exact wait (by simp [Pc.refs]) floc.1 h
  | createValue r n => exact wait (by simp [Pc.refs]) floc.1 h
  | createEnd r n => exact wait (by simp [Pc.refs]) floc.1 h
  | createFlush r n => exact wait (by simp [Pc.refs]) floc.1 h
  | insertTest r n => exact wait (by simp [Pc.refs]) floc.1 h
  | insertLoad r n => exact wait (by simp [Pc.refs]) floc.1 h
  | insertCas r n q => exact wait (by simp [Pc.refs]) floc.1 h
  | markTest d st n => exact last (by simp [Pc.refs]) floc.2.2.1 h
  | markLoad d st n => exact last (by simp [Pc.refs]) floc.2.2.1 h
  | markCas d st n q => exact last (by simp [Pc.refs]) floc.2.2.1 h
  | destroyStore r d st n => exact fun hr => last (by simp [Pc.refs]) floc.2.2.1 (h hr)
  | destroyFlush r d st n => exact fun hr => last (by simp [Pc.refs]) floc.1.2.2.1 (h hr)
  | deleteTest r d st n => exact fun hr => last (by simp [Pc.refs]) floc.1.2.2.1 (h hr)
  | deleteLoad r d st n => exact fun hr => last (by simp [Pc.refs]) floc.1.2.2.1 (h hr)
  | deleteCas r d st n q => exact fun hr => last (by simp [Pc.refs]) floc.1.2.2.1 (h hr)
  | containsWalk c => exact upto (by simp [Pc.refs]) h
  | ret r => exact RetTrail.succ h
  | _ => trivial

theorem walk_trail (hm : m ≤ ρ.length) (hi : i < m) (hs : Seen (heaps ρ) i m x)
    (hlt : rank (ρ.state m).store x < (k : WithBot ℤ))
    (hy : ((ρ.state m).store.node x).next.ref = some y) : Upto ρ k i m y :=
  (hs.next (fun j hj => sorted_run ρ (by omega)) hi hy hlt).imp_right absent_of_missing

theorem head_trail (hm : m ≤ ρ.length) (hi : i < m)
    (hy : ((ρ.state m).store.node head).next.ref = some y) : Upto ρ k i m y := by
  refine walk_trail (x := head) hm hi (Or.inl (Heap.Reach.refl _)) ?_ hy
  rw [rank_head]
  exact WithBot.bot_lt_coe _

theorem afterFind_trail (hm : m ≤ ρ.length) (hi : i < m)
    (f : Fit (ρ.state m).store (ρ.state m).roots (ρ.state m).writers op (.findLoad d st c))
    (tr : Upto ρ op.key i m c) (alive : stateAt ρ m c ≠ .deleted)
    (le : op.key ≤ ((ρ.state m).store.node c).key)
    (h : afterFind (ρ.state m).store d st c (stateAt ρ m c) op = some pc') :
    Trail ρ i m op pc' := by
  have hc : c ≠ head := f.loc.2.2
  have hrc := rank_of_ne (ρ.state m).store hc
  have hcl := f.refs c (by simp [Pc.refs])
  have hinv := inv_run ρ m hm
  cases op with
  | insert k v =>
    simp only [afterFind] at h
    split at h
    · next hk =>
      split at h <;> obtain rfl := Option.some.inj h
      · next hne =>
        refine fun _ => present_now hm hi f.key hcl (hrc.trans (congrArg _ hk)) ?_
        cases hs : stateAt ρ m c with
        | intendToInsert => exact absurd hs hne
        | inserted => exact Or.inl rfl
        | intendToDelete => exact Or.inr rfl
        | deleted => exact absurd hs alive
      · next hst => exact fun _ => Or.inl (not_not.1 hst)
    · obtain rfl := Option.some.inj h
      trivial
  | remove k =>
    simp only [afterFind] at h
    split at h
    · next hne =>
      obtain rfl := Option.some.inj h
      refine fun _ => tr.resolve_left fun hle => hne ?_
      rw [hrc] at hle
      exact le_antisymm (WithBot.coe_le_coe.1 hle) le
    · next hk =>
      have hk := hrc.trans (congrArg _ (not_not.1 hk))
      split at h <;> obtain rfl := Option.some.inj h
      · next hst =>
        have hst := hst.resolve_right alive
        refine fun _ => Run.During.now hi (hinv.not_mem_abs
          (hinv.mem.chain.inList_of_rank f.key hk (hinv.mem.chain.good.alive hcl alive)) hk ?_)
        change ¬ NodeState.Visible (stateAt ρ m c)
        rw [hst]
        exact fun h => h.elim (by rintro ⟨⟩) (by rintro ⟨⟩)
      · exact Or.inl alive
  | contains k => cases h

theorem containsStop_trail (hm : m ≤ ρ.length) (hi : i < m)
    (f : Fit (ρ.state m).store (ρ.state m).roots (ρ.state m).writers op (.containsWalk c))
    (hs : Seen (heaps ρ) i m c) (tr : Upto ρ op.key i m c)
    (le : op.key ≤ ((ρ.state m).store.node c).key) :
    ρ.During i m fun s => (((ρ.state m).store.node c).key == op.key &&
      (stateAt ρ m c == .inserted || stateAt ρ m c == .intendToDelete)) = true ↔
        op.key ∈ s.abs := by
  have hrc := rank_of_ne (ρ.state m).store f.loc
  have hcl := f.refs c (by simp [Pc.refs])
  have hinv := inv_run ρ m hm
  have no : Absent ρ op.key i m → ¬ (((ρ.state m).store.node c).key = op.key ∧
      NodeState.Visible (stateAt ρ m c)) → ρ.During i m fun s =>
      (((ρ.state m).store.node c).key == op.key &&
      (stateAt ρ m c == .inserted || stateAt ρ m c == .intendToDelete)) = true ↔
        op.key ∈ s.abs := by
    intro ha hno
    refine ha.imp fun s hs => iff_of_false (fun h => hno ?_) hs
    simpa [NodeState.Visible] using h
  by_cases hk : ((ρ.state m).store.node c).key = op.key
  · have hr := hrc.trans (congrArg _ hk)
    by_cases hv : NodeState.Visible (stateAt ρ m c)
    · refine (present_now hm hi f.key hcl hr hv).imp fun s hs => iff_of_true ?_ hs
      simpa [NodeState.Visible, hk] using hv
    · refine no ?_ fun h => hv h.2
      by_cases hd : stateAt ρ m c = .deleted
      · exact absent_of_dying hm (hs.dying hi hd hr)
      · exact Run.During.now hi (hinv.not_mem_abs
          (hinv.mem.chain.inList_of_rank f.key hr (hinv.mem.chain.good.alive hcl hd)) hr hv)
  · refine no (tr.resolve_left fun hle => hk ?_) fun h => hk h.1
    rw [hrc] at hle
    exact le_antisymm (WithBot.coe_le_coe.1 hle) le

theorem afterTrim_trail {t : TrimCtx} (hf : t.Fits op) (h : TrimTrail ρ op.key i m t) :
    Trail ρ i m op (afterTrim d st t) := by
  cases t with
  | inFind s => exact h
  | inRemove =>
    cases op with
    | remove k => exact fun h => nomatch h
    | _ => exact hf.elim

theorem Trail.own (hm : m ≤ ρ.length) (hi : i < m)
    (f : Fit (ρ.state m).store (ρ.state m).roots (ρ.state m).writers op pc)
    (hs : ∀ r ∈ pc.refs, SeenFrom (heaps ρ) i m r) (tr : Trail ρ i m op pc)
    (flow : Flow (ρ.state m).store op pc pc') : Trail ρ i m op pc' := by
  have hf := f.fits
  have hl := f.loc
  cases flow with
  | find h => exact head_trail hm hi h
  | findStop alive le h => exact afterFind_trail hm hi f tr alive le h
  | @findNext d c e st lt h =>
    refine walk_trail hm hi (hs c (by simp [Pc.refs])).self ?_ h
    rw [rank_of_ne _ f.loc.2.2]
    exact WithBot.coe_lt_coe.2 lt
  | @findTrim d c e st dead h =>
    have seen := (hs c (by simp [Pc.refs])).self
    rcases tr with hle | ha
    · rcases lt_or_eq_of_le hle with hlt | heq
      · exact walk_trail hm hi seen hlt h
      · exact Or.inr (absent_of_dying hm (seen.dying hi dead heq))
    · exact Or.inr ha
  | trimLost => exact afterTrim_trail hf tr
  | trimFree => exact afterTrim_trail hf tr
  | @insertDone r n h =>
    cases op with
    | insert k v => exact fun hr => (tr hr).resolve_left h
    | _ => exact hf.elim
  | markHelp => exact fun _ => tr
  | markWon h => exact fun h => by cases h
  | @deleteHelp d n st h =>
    cases op with
    | remove k =>
      exact fun hr => (tr rfl).resolve_left fun hd => hd ((destroyed_age hl.1.2.2.2).resolve_left h)
    | _ => exact hf.elim
  | containsHead h => exact head_trail hm hi h
  | @containsNext c e lt h =>
    refine walk_trail hm hi (hs c (by simp [Pc.refs])).self ?_ h
    rw [rank_of_ne _ f.loc]
    exact WithBot.coe_lt_coe.2 lt
  | @containsStop c le =>
    cases op with
    | contains k => exact containsStop_trail hm hi f (hs c (by simp [Pc.refs])).self tr le
    | _ => exact hf.elim
  | linkWon h => exact fun h => by cases h
  | _ => first | exact tr | trivial

end Grow

theorem evolves_step (hi : Inv s) {e : Event (SetOp V)} (hs : Step s e s')
    (hx : s.store.heap.Live s.roots x) : Evolves (s.store.node x) (s'.store.node x) := by
  cases hs with
  | call t op idle hk => exact Evolves.refl _
  | ret t op r ht => exact Evolves.refl _
  | tau t op pc pc' slot σ ht hn hp ha =>
    obtain ⟨R', W', ok⟩ := tau_ok hi ht hn hp ha
    exact (ok.effect.kept hi.mem).evolves hx

theorem trail_run (ρ : Run (machine V)) : ∀ m ≤ ρ.length, ∀ {t op pc},
    (ρ.state m).thread t = some (op, pc) → ∃ i, ρ.Active t op i m ∧
      (∀ r ∈ pc.refs, SeenFrom (heaps ρ) i m r) ∧ Trail ρ i m op pc := by
  refine ρ.active_inv (F := fun i m _ op pc =>
    (∀ r ∈ pc.refs, SeenFrom (heaps ρ) i m r) ∧ Trail ρ i m op pc) ?_ ?_ ?_
  · intro m t op pc hm he _ ht
    have hs := ρ.step hm
    rw [he] at hs
    obtain ⟨rfl, _, _⟩ := call_inv hs ht
    cases op <;> exact ⟨fun r h => by simp [start, Pc.refs] at h, trivial⟩
  · rintro i m t op pc pc' hm ha he ht ht' ⟨seen, tr⟩
    have hs := ρ.step hm
    have hev := fun x => evolves_step (x := x) (inv_run ρ m hm.le) hs
    rw [he] at hs
    obtain ⟨slot, σ, hn, hp, hal, hst⟩ := tau_inv hs ht ht'
    have hi := inv_run ρ m hm.le
    have f := hi.fit ht
    have f' := (inv_run ρ (m + 1) hm).fit ht'
    have g := (sorted_run ρ hm.le).good
    obtain ⟨R', W', ok⟩ := tau_ok hi ht hn hp hal
    have hσ : (ρ.state (m + 1)).store = σ := by rw [hst]; rfl
    have old : ∀ {r}, (∃ q ∈ head :: pc.refs, (ρ.state m).store.heap.Reach q r) →
        SeenFrom (heaps ρ) i m r := by
      rintro r ⟨q, hq, hqr⟩
      rcases List.mem_cons.1 hq with rfl | hq
      · exact seenFrom_of_linked hqr
      · exact (seen q hq).reach hqr
    refine ⟨fun r hr => ?_, ?_⟩
    · rcases ok.refs r hr with h | ⟨h, _⟩
      · exact (old h).step g (change_run ρ hm) ha.lt (live_of_refs hi.mem f h)
      · refine seenFrom_of_linked ?_
        change (ρ.state (m + 1)).store.heap.Linked r
        rw [hσ]
        exact h
    · by_cases hw : ∃ n, pc' = .createStart true n
      · obtain ⟨n, rfl⟩ := hw
        exact fun h => by cases h
      · have hl : ∀ r ∈ pc'.refs, (ρ.state m).store.heap.Live (ρ.state m).roots r := by
          intro r hr
          rcases ok.refs r hr with h | ⟨_, h⟩
          · exact live_of_refs hi.mem f h
          · exact absurd ⟨r, h⟩ hw
        exact Trail.succ hm ha.lt (Trail.own hm.le ha.lt f seen tr (flow_of_next hn)) hl
          (fun r hr => hev r (hl r hr)) f'
  · rintro i m t op pc hm ha hne ht ht' ⟨seen, tr⟩
    have hi := inv_run ρ m hm.le
    have f := hi.fit ht
    have f' := (inv_run ρ (m + 1) hm).fit ht'
    have g := (sorted_run ρ hm.le).good
    exact ⟨fun r hr => (seen r hr).step g (change_run ρ hm) ha.lt (f.refs r hr),
      tr.succ hm ha.lt f.refs (fun r hr => evolves_step hi (ρ.step hm) (f.refs r hr)) f'⟩

theorem ret_run (ρ : Run (machine V)) {r : Bool} {i j : ℕ} (hc : ρ.Completed t op r i j) :
    (ρ.state j).thread t = some (op, .ret r) ∧ op.key < INT_MAX ∧ RetTrail ρ op.key i j r op := by
  have hs := ρ.step hc.lt
  rw [hc.ret] at hs
  obtain ⟨op1, ht, _⟩ := ret_inv hs
  obtain ⟨pc, hpc⟩ := hc.active.thread hc.lt.le
  obtain ⟨rfl, rfl⟩ := Prod.mk.inj (Option.some.inj (hpc.symm.trans ht))
  obtain ⟨i', ha, _, tr⟩ := trail_run ρ j hc.lt.le ht
  obtain ⟨rfl, _⟩ := ha.unique hc.active
  exact ⟨ht, ((inv_run ρ j hc.lt.le).fit ht).key, tr⟩

-- a call that has changed the set: its node has gone on from the state it gave it
def Took (σ : Store V) (op : SetOp V) (pc : Pc) : Prop :=
  (∃ x, pc.inserts = some x ∧ (σ.node x).next.state ≠ .intendToInsert) ∨
    (∃ x, pc.removes = some x ∧ (σ.node x).next.state = .deleted) ∨ Added op pc ∨ Erasing op pc

theorem took_inserts (h : pc.inserts = some x) :
    Took σ op pc ↔ (σ.node x).next.state ≠ .intendToInsert := by
  constructor
  · rintro (⟨y, hy, hs⟩ | ⟨y, hy, _⟩ | h' | h')
    · obtain rfl := Option.some.inj (h.symm.trans hy)
      exact hs
    · cases pc <;> first | cases hy | cases h
    · rw [h'.2] at h
      cases h
    · rw [h'.2] at h
      cases h
  · exact fun hs => Or.inl ⟨x, h, hs⟩

theorem took_removes (h : pc.removes = some x) :
    Took σ op pc ↔ (σ.node x).next.state = .deleted := by
  constructor
  · rintro (⟨y, hy, _⟩ | ⟨y, hy, hs⟩ | h' | h')
    · cases pc <;> first | cases hy | cases h
    · obtain rfl := Option.some.inj (h.symm.trans hy)
      exact hs
    · rw [h'.2] at h
      cases h
    · rw [h'.2] at h
      cases h
  · exact fun hs => Or.inr (Or.inl ⟨x, h, hs⟩)

theorem took_none (h : pc.inserts = none) (h' : pc.removes = none) :
    Took σ op pc ↔ Added op pc ∨ Erasing op pc := by
  unfold Took
  rw [h, h']
  simp

theorem took_congr (hi : pc'.inserts = pc.inserts) (hr : pc'.removes = pc.removes)
    (ha : Added op pc' ↔ Added op pc) (he : Erasing op pc' ↔ Erasing op pc)
    (hsi : ∀ x, pc.inserts = some x → ((σ'.node x).next.state = .intendToInsert ↔
      (σ.node x).next.state = .intendToInsert))
    (hsr : ∀ x, pc.removes = some x → ((σ'.node x).next.state = .deleted ↔
      (σ.node x).next.state = .deleted)) : Took σ' op pc' ↔ Took σ op pc := by
  unfold Took
  rw [hi, hr, ha, he]
  refine or_congr (exists_congr fun x => and_congr_right fun hx => not_congr (hsi x hx)) ?_
  exact or_congr (exists_congr fun x => and_congr_right fun hx => hsr x hx) Iff.rfl

def State.done (s : State V) (t : Tid) : Prop :=
  ∃ op pc, s.thread t = some (op, pc) ∧ Took s.store op pc

theorem done_iff (ht : s.thread t = some (op, pc)) : s.done t ↔ Took s.store op pc := by
  constructor
  · rintro ⟨op1, pc1, h, hd⟩
    obtain ⟨rfl, rfl⟩ := Prod.mk.inj (Option.some.inj (ht.symm.trans h))
    exact hd
  · exact fun hd => ⟨op, pc, ht, hd⟩

-- what the set depends on: which nodes have left INTEND_TO_INSERT and which have come to DELETED
def Quiet (s s' : State V) (x : Loc) : Prop :=
  ((s'.store.node x).next.state = .intendToInsert ↔
    (s.store.node x).next.state = .intendToInsert) ∧
  ((s'.store.node x).next.state = .deleted ↔ (s.store.node x).next.state = .deleted)

theorem visible_iff {a : NodeState} : NodeState.Visible a ↔ a ≠ .intendToInsert ∧ a ≠ .deleted := by
  cases a <;> simp [NodeState.Visible]

theorem Quiet.visible (h : Quiet s s' x) : NodeState.Visible (s'.store.node x).next.state ↔
    NodeState.Visible (s.store.node x).next.state := by
  rw [visible_iff, visible_iff, ne_eq, ne_eq, h.1, h.2]

theorem quiet_of_eq (h : (s'.store.node x).next.state = (s.store.node x).next.state) :
    Quiet s s' x := by
  unfold Quiet
  rw [h]
  exact ⟨Iff.rfl, Iff.rfl⟩

theorem mem_abs_step (hi : Inv s) {e : Event (SetOp V)} (hs : Step s e s') :
    k ∈ s'.abs ↔ ∃ x, InList s.store x ∧ NodeState.Visible (s'.store.node x).next.state ∧
      (s.store.node x).key = k := by
  have hev : ∀ {x}, InList s.store x → Evolves (s.store.node x) (s'.store.node x) :=
    fun hx => evolves_step hi hs (hi.mem.chain.good.live_of_linked hx.1)
  rw [mem_abs]
  constructor
  · rintro ⟨x, hx, hv, hk⟩
    rcases hi.joins hs hx with hx | ⟨hst, _⟩
    · exact ⟨x, hx, hv, (hev hx).key.symm.trans hk⟩
    · rw [hst] at hv
      exact hv.elim nofun nofun
  · rintro ⟨x, hx, hv, hk⟩
    rcases hi.stays hs hx with hx' | hd
    · exact ⟨x, hx', hv, (hev hx).key.trans hk⟩
    · rw [hd] at hv
      exact hv.elim nofun nofun

theorem abs_quiet (hi : Inv s) {e : Event (SetOp V)} (hs : Step s e s')
    (h : ∀ x, InList s.store x → Quiet s s' x) : s'.abs = s.abs := by
  ext k
  rw [mem_abs_step hi hs, mem_abs]
  exact exists_congr fun x => and_congr_right fun hx => and_congr_left fun _ => (h x hx).visible

theorem abs_inserted (hi : Inv s) {e : Event (SetOp V)} (hs : Step s e s')
    (hx : InList s.store x) (h0 : (s.store.node x).next.state = .intendToInsert)
    (h1 : (s'.store.node x).next.state = .inserted)
    (h : ∀ y, InList s.store y → y ≠ x → Quiet s s' y) :
    (s.store.node x).key ∉ s.abs ∧ s'.abs = insert (s.store.node x).key s.abs := by
  refine ⟨hi.not_mem_abs hx (rank_inList hx) ?_, ?_⟩
  · rw [h0]
    exact fun h => h.elim nofun nofun
  · ext k
    rw [mem_abs_step hi hs, Set.mem_insert_iff, mem_abs]
    constructor
    · rintro ⟨y, hy, hv, hk⟩
      by_cases he : y = x
      · exact Or.inl (he ▸ hk.symm)
      · exact Or.inr ⟨y, hy, (h y hy he).visible.1 hv, hk⟩
    · rintro (rfl | ⟨y, hy, hv, hk⟩)
      · exact ⟨x, hx, h1 ▸ Or.inl rfl, rfl⟩
      · have hne : y ≠ x := by
          rintro rfl
          rw [h0] at hv
          exact hv.elim nofun nofun
        exact ⟨y, hy, (h y hy hne).visible.2 hv, hk⟩

theorem abs_deleted (hi : Inv s) {e : Event (SetOp V)} (hs : Step s e s')
    (hx : InList s.store x) (h0 : (s.store.node x).next.state = .intendToDelete)
    (h1 : (s'.store.node x).next.state = .deleted)
    (h : ∀ y, InList s.store y → y ≠ x → Quiet s s' y) :
    (s.store.node x).key ∈ s.abs ∧ s'.abs = s.abs \ {(s.store.node x).key} := by
  refine ⟨mem_abs.2 ⟨x, hx, h0 ▸ Or.inr rfl, rfl⟩, ?_⟩
  ext k
  rw [mem_abs_step hi hs, Set.mem_sdiff, Set.mem_singleton_iff, mem_abs]
  constructor
  · rintro ⟨y, hy, hv, hk⟩
    have hne : y ≠ x := by
      rintro rfl
      rw [h1] at hv
      exact hv.elim nofun nofun
    refine ⟨⟨y, hy, (h y hy hne).visible.1 hv, hk⟩, fun he => hne ?_⟩
    exact hi.eq_of_key hy hx (hk.trans he)
  · rintro ⟨⟨y, hy, hv, hk⟩, hne⟩
    have hyx : y ≠ x := by
      rintro rfl
      exact hne hk.symm
    exact ⟨y, hy, (h y hy hyx).visible.2 hv, hk⟩

/-! ### Every step has one effect at most -/

theorem oneEffect_quiet {e : Event (SetOp V)} (hi : Inv s) (hs : Step s e s')
    (h : ∀ x, s.store.heap.Live s.roots x → Quiet s s' x)
    (hown : ∀ op pc pc', s.thread e.tid = some (op, pc) → s'.thread e.tid = some (op, pc') →
      (Took s'.store op pc' ↔ Took s.store op pc)) :
    Run.OneEffect (machine V) State.abs State.done s s' := by
  have habs := abs_quiet hi hs fun x hx => h x (hi.mem.chain.good.live_of_linked hx.1)
  refine Or.inl ⟨habs, fun u op pc pc' hu hu' => ?_⟩
  have hu : s.thread u = some (op, pc) := hu
  have hu' : s'.thread u = some (op, pc') := hu'
  rw [done_iff hu, done_iff hu']
  by_cases he : u = e.tid
  · subst he
    exact hown op pc pc' hu hu'
  · have hsame := ((machine V).step_other hs he).symm.trans hu'
    obtain ⟨_, rfl⟩ := Prod.mk.inj (Option.some.inj (hu.symm.trans hsame))
    have f := hi.fit hu
    refine took_congr rfl rfl Iff.rfl Iff.rfl (fun x hx => ?_) fun x hx => ?_
    · exact (h x (f.refs x (f.inserts hx).2.1)).1
    · exact (h x (f.refs x (f.removes hx).2.1)).2

theorem took_own (hi : Inv s) (hs : Step s (.tau t) s') (ht : s.thread t = some (op, pc))
    (ht' : s'.thread t = some (op, pc')) (h : ∀ x, s.store.heap.Live s.roots x → Quiet s s' x) :
    Took s'.store op pc' ↔ Took s.store op pc := by
  have hi' := hi.step hs
  obtain ⟨slot, σ, hn, _, _, _⟩ := tau_inv hs ht ht'
  have f := hi.fit ht
  have flow := flow_of_next hn
  cases hins : pc.inserts with
  | some x =>
    have hq := h x (f.refs x (f.inserts hins).2.1)
    rw [took_inserts hins]
    rcases flow.inserts_keep hins with h' | ⟨rfl, hst⟩
    · rw [took_inserts h']
      exact not_congr hq.1
    · exact iff_of_true (Or.inr (Or.inr (Or.inl ⟨(f.inserts hins).1, rfl⟩))) hst
  | none =>
    cases hrem : pc.removes with
    | some x =>
      have hq := h x (f.refs x (f.removes hrem).2.1)
      rw [took_removes hrem]
      rcases flow.removes_over f hrem with h' | ⟨rfl, hst⟩
      · rw [took_removes h']
        exact hq.2
      · exact iff_of_true (Or.inr (Or.inr (Or.inr ⟨(f.removes hrem).1, rfl⟩))) hst
    | none =>
      rw [took_none hins hrem]
      refine iff_of_false ?_ ?_
      · rintro (⟨x, hx, hst⟩ | ⟨x, hx, hst⟩ | h' | h')
        · obtain ⟨ho, hin⟩ := grab_link hi hs ht ht' hins hx
          have hfresh := (f.owned x ho).1
          rcases hi.joins hs hin with hx' | ⟨hst', _⟩
          · exact hfresh (hi.mem.chain.good.live_of_linked hx'.1)
          · exact hst hst'
        · obtain ⟨hst', hin⟩ := grab_mark hi hs ht ht' hrem hx
          have := (h x (hi.mem.chain.good.live_of_linked hin.1)).2.1 hst
          rw [hst'] at this
          cases this
        · exact flow.added f hins h'
        · exact flow.erasing f hrem h'
      · rintro (h' | h') <;> exact flow.not_ret h'.2

theorem oneEffect_moved (hi : Inv s) {op' : SetOp V} {pc1 pc1' : Pc}
    (hu : s.thread u = some (op', pc1)) (hu' : s'.thread u = some (op', pc1'))
    (h0 : ¬ Took s.store op' pc1) (h1 : Took s'.store op' pc1') (he : op'.Effect s.abs s'.abs)
    (hq : ∀ y, s.store.heap.Live s.roots y → y ≠ x → Quiet s s' y)
    (hown : ∀ v op pc pc', v ≠ u → s.thread v = some (op, pc) → s'.thread v = some (op, pc') →
      pc'.inserts = pc.inserts ∧ pc'.removes = pc.removes ∧ (Added op pc' ↔ Added op pc) ∧
        (Erasing op pc' ↔ Erasing op pc) ∧
        (pc.inserts = some x → ((s'.store.node x).next.state = .intendToInsert ↔
          (s.store.node x).next.state = .intendToInsert)) ∧
        (pc.removes = some x → ((s'.store.node x).next.state = .deleted ↔
          (s.store.node x).next.state = .deleted))) :
    Run.OneEffect (machine V) State.abs State.done s s' := by
  refine Or.inr ⟨u, op', pc1, pc1', hu, hu', ?_, ?_, he, fun v op pc pc' hne hv hv' => ?_⟩
  · rw [done_iff hu]
    exact h0
  · rw [done_iff hu']
    exact h1
  · have hv : s.thread v = some (op, pc) := hv
    have hv' : s'.thread v = some (op, pc') := hv'
    rw [done_iff hv, done_iff hv']
    obtain ⟨h2, h3, h4, h5, h6, h7⟩ := hown v op pc pc' hne hv hv'
    have f := hi.fit hv
    refine took_congr h2 h3 h4 h5 (fun y hy => ?_) fun y hy => ?_ <;> by_cases he : y = x
    · subst he
      exact h6 hy
    · exact (hq y (f.refs y (f.inserts hy).2.1) he).1
    · subst he
      exact h7 hy
    · exact (hq y (f.refs y (f.removes hy).2.1) he).2

theorem moved_pcs (hs : Step s (.tau t) s') (ht : s.thread t = some (op, pc))
    (ht' : s'.thread t = some (op, pc')) (hi : pc'.inserts = pc.inserts)
    (hr : pc'.removes = pc.removes) (hnr : ∀ r, pc ≠ .ret r) (hnr' : ∀ r, pc' ≠ .ret r) :
    ∀ ⦃v op1 qc qc'⦄, s.thread v = some (op1, qc) → s'.thread v = some (op1, qc') →
    qc'.inserts = qc.inserts ∧ qc'.removes = qc.removes ∧ (Added op1 qc' ↔ Added op1 qc) ∧
      (Erasing op1 qc' ↔ Erasing op1 qc) := by
  intro v op1 qc qc' hv hv'
  by_cases he : v = t
  · subst he
    obtain ⟨rfl, rfl⟩ := Prod.mk.inj (Option.some.inj (ht.symm.trans hv))
    obtain ⟨_, rfl⟩ := Prod.mk.inj (Option.some.inj (ht'.symm.trans hv'))
    exact ⟨hi, hr, iff_of_false (fun h => hnr' _ h.2) fun h => hnr _ h.2,
      iff_of_false (fun h => hnr' _ h.2) fun h => hnr _ h.2⟩
  · have hsame := ((machine V).step_other hs he).symm.trans hv'
    obtain ⟨_, rfl⟩ := Prod.mk.inj (Option.some.inj (hv.symm.trans hsame))
    exact ⟨rfl, rfl, Iff.rfl, Iff.rfl⟩

theorem other_pc (hs : Step s (.tau t) s') (ht : s.thread t = some (op, pc))
    (ht' : s'.thread t = some (op, pc')) {v : Tid} {op1 : SetOp V} {qc : Pc}
    (hv : s.thread v = some (op1, qc)) : ∃ qc', s'.thread v = some (op1, qc') := by
  by_cases he : v = t
  · subst he
    obtain ⟨rfl, rfl⟩ := Prod.mk.inj (Option.some.inj (ht.symm.trans hv))
    exact ⟨pc', ht'⟩
  · exact ⟨qc, ((machine V).step_other hs he).trans hv⟩

theorem oneEffect_insert {r : Bool} {q : Ptr} (hi : Inv s) (hh : Helped s)
    (hs : Step s (.tau t) s') (ht : s.thread t = some (op, .insertCas r n q))
    (ht' : s'.thread t = some (op, .insertTest r n))
    (h0 : (s.store.node n).next.state = .intendToInsert)
    (h1 : (s'.store.node n).next.state = .inserted)
    (hq : ∀ y, s.store.heap.Live s.roots y → y ≠ n → Quiet s s' y) :
    Run.OneEffect (machine V) State.abs State.done s s' := by
  have f := hi.fit ht
  have hnl := f.refs n (by simp [Pc.refs])
  have hin : InList s.store n := by
    refine hi.mem.chain.inList_of_rank f.key f.loc.1 (hi.mem.chain.good.alive hnl fun hd => ?_)
    have hd : (s.store.node n).next.state = .deleted := hd
    rw [h0] at hd
    cases hd
  obtain ⟨u, op', pc1, hu, hins⟩ := hh.inserter hin h0
  obtain ⟨pc1', hu'⟩ := other_pc hs ht ht' hu
  have pcs := moved_pcs hs ht ht' rfl rfl (fun _ => (by rintro ⟨⟩)) (fun _ => (by rintro ⟨⟩))
  have hins' := (pcs hu hu').1.trans hins
  obtain ⟨hop, _, hrank⟩ := (hi.fit hu).inserts hins
  obtain ⟨hno, habs⟩ := abs_inserted hi hs hin h0 h1 fun y hy hne =>
    hq y (hi.mem.chain.good.live_of_linked hy.1) hne
  refine oneEffect_moved (x := n) hi hu hu' ?_ ?_ ?_ hq ?_
  · rw [took_inserts hins]
    exact not_not.2 h0
  · rw [took_inserts hins', h1]
    rintro ⟨⟩
  · rw [key_of_rank hrank] at hno habs
    cases op' with
    | insert k v => exact ⟨hno, habs⟩
    | _ => exact hop.elim
  · intro v op1 qc qc' hne hv hv'
    obtain ⟨h2, h3, h4, h5⟩ := pcs hv hv'
    refine ⟨h2, h3, h4, h5, fun h => absurd (hh.apartI hv hu h hins) hne, fun h => ?_⟩
    have := ((hi.fit hv).removes h).2.2.2
    rw [h0] at this
    exact absurd this (by decide)

theorem oneEffect_delete {r : Bool} {q : Ptr} (hi : Inv s) (hh : Helped s)
    (hs : Step s (.tau t) s') (ht : s.thread t = some (op, .deleteCas r d st n q))
    (ht' : s'.thread t = some (op, .deleteTest r d st n))
    (h0 : (s.store.node n).next.state = .intendToDelete)
    (h1 : (s'.store.node n).next.state = .deleted)
    (hq : ∀ y, s.store.heap.Live s.roots y → y ≠ n → Quiet s s' y) :
    Run.OneEffect (machine V) State.abs State.done s s' := by
  have f := hi.fit ht
  have hnl := f.refs n (by simp [Pc.refs])
  have hin : InList s.store n := by
    refine hi.mem.chain.inList_of_rank f.key f.loc.1.2.2.1
      (hi.mem.chain.good.alive hnl fun hd => ?_)
    have hd : (s.store.node n).next.state = .deleted := hd
    rw [h0] at hd
    cases hd
  obtain ⟨u, op', pc1, hu, hrem⟩ := hh.remover hin h0
  obtain ⟨pc1', hu'⟩ := other_pc hs ht ht' hu
  have pcs := moved_pcs hs ht ht' rfl rfl (fun _ => (by rintro ⟨⟩)) (fun _ => (by rintro ⟨⟩))
  have hrem' := (pcs hu hu').2.1.trans hrem
  obtain ⟨hop, _, hrank, _⟩ := (hi.fit hu).removes hrem
  obtain ⟨hno, habs⟩ := abs_deleted hi hs hin h0 h1 fun y hy hne =>
    hq y (hi.mem.chain.good.live_of_linked hy.1) hne
  refine oneEffect_moved (x := n) hi hu hu' ?_ ?_ ?_ hq ?_
  · rw [took_removes hrem, h0]
    rintro ⟨⟩
  · rw [took_removes hrem']
    exact h1
  · rw [key_of_rank hrank] at hno habs
    cases op' with
    | remove k => exact ⟨hno, habs⟩
    | _ => exact hop.elim
  · intro v op1 qc qc' hne hv hv'
    obtain ⟨h2, h3, h4, h5⟩ := pcs hv hv'
    refine ⟨h2, h3, h4, h5, fun _ => ?_, fun h => absurd (hh.apartD hv hu h hrem) hne⟩
    rw [h0, h1]
    exact iff_of_false (by rintro ⟨⟩) (by rintro ⟨⟩)

theorem start_took : ¬ Took σ op (start op) := by
  rw [took_none (start_helps op).1 (start_helps op).2]
  rintro (h | h) <;> cases op <;> cases h.2

theorem oneEffect_step {e : Event (SetOp V)} (hi : Inv s) (hh : Helped s) (hs : Step s e s') :
    Run.OneEffect (machine V) State.abs State.done s s' := by
  have same : s'.store = s.store → ∀ x, s.store.heap.Live s.roots x → Quiet s s' x := by
    intro h x _
    refine quiet_of_eq ?_
    rw [h]
  have hs' := hs
  cases hs with
  | call t op idle hk =>
    refine oneEffect_quiet hi hs' (same rfl) fun op1 pc1 pc2 h => ?_
    exact absurd (idle.symm.trans h) nofun
  | ret t op r ht =>
    refine oneEffect_quiet hi hs' (same rfl) fun op1 pc1 pc2 _ h => ?_
    exact absurd ((goto_thread_self s s.store t none).symm.trans h) nofun
  | tau t op pc pc' slot σ ht hn hp ha =>
    have f := hi.fit ht
    have ht' := goto_thread_self s σ t (some (op, pc'))
    have tau := tau_cases (R := s.roots) (fun n ho => (f.owned n ho).1) hn
    have quiet : (∀ x, s.store.heap.Live s.roots x → Quiet s (s.goto σ t (some (op, pc'))) x) →
        Run.OneEffect (machine V) State.abs State.done s (s.goto σ t (some (op, pc'))) := by
      intro hq
      refine oneEffect_quiet hi hs' hq fun op1 pc1 pc2 h h' => ?_
      obtain ⟨rfl, rfl⟩ := Prod.mk.inj (Option.some.inj (ht.symm.trans h))
      exact took_own hi hs' h h' hq
    by_cases hadv : ∃ n q a b, Advances pc n q a b pc' ∧ (s.store.node n).next.state = a ∧
        (σ.node n).next.state = b
    · obtain ⟨n, q, a, b, adv, h0, h1⟩ := hadv
      have hrest : ∀ y, s.store.heap.Live s.roots y → y ≠ n →
          Quiet s (s.goto σ t (some (op, pc'))) y := by
        intro y hy hne
        rcases tau.state f hy with h | ⟨q', a', b', adv', _, _⟩
        · exact quiet_of_eq h
        · cases adv <;> cases adv' <;> exact absurd rfl hne
      cases adv with
      | insert r n q => exact oneEffect_insert hi hh hs' ht ht' h0 h1 hrest
      | mark d st n q =>
        refine quiet fun x hx => ?_
        by_cases he : x = n
        · subst he
          refine ⟨iff_of_false ?_ ?_, iff_of_false ?_ ?_⟩
          · exact fun h => nomatch h1.symm.trans h
          · exact fun h => nomatch h0.symm.trans h
          · exact fun h => nomatch h1.symm.trans h
          · exact fun h => nomatch h0.symm.trans h
        · exact hrest x hx he
      | delete r d st n q => exact oneEffect_delete hi hh hs' ht ht' h0 h1 hrest
    · refine quiet fun x hx => ?_
      rcases tau.state f hx with h | ⟨q, a, b, adv, ha, hb⟩
      · exact quiet_of_eq h
      · exact absurd ⟨x, q, a, b, adv, ha, hb⟩ hadv

theorem initial_abs (zero : V) : (initial zero).abs = ∅ := by
  ext k
  rw [mem_abs]
  refine iff_of_false ?_ id
  rintro ⟨x, hx, _⟩
  exact initial_owner zero (Or.inl hx)

theorem answer_ret {ρ : Run (machine V)} {r : Bool} {i j : ℕ} (hc : ρ.Completed t op r i j) :
    op.Answer ((ρ.state j).done t) (fun P => ρ.During i j fun s => P s.abs) r := by
  obtain ⟨ht, hk, tr⟩ := ret_run ρ hc
  have hd : (ρ.state j).done t ↔ Added op (.ret r) ∨ Erasing op (.ret r) :=
    (done_iff ht).trans (took_none rfl rfl)
  have hno : r = false → ¬ (ρ.state j).done t := by
    rintro rfl h
    rcases hd.1 h with h | h <;> exact nomatch h.2
  cases op with
  | insert k v =>
    cases r with
    | true => exact Or.inl ⟨rfl, hd.2 (Or.inl ⟨trivial, rfl⟩)⟩
    | false => exact Or.inr ⟨rfl, hno rfl, tr rfl⟩
  | remove k =>
    cases r with
    | true => exact Or.inl ⟨rfl, hd.2 (Or.inr ⟨trivial, rfl⟩)⟩
    | false => exact Or.inr ⟨rfl, hno rfl, tr rfl⟩
  | contains k => exact tr

theorem oneEffect_run (ρ : Run (machine V)) (m : ℕ) (hm : m < ρ.length) :
    Run.OneEffect (machine V) State.abs State.done (ρ.state m) (ρ.state (m + 1)) :=
  oneEffect_step (inv_run ρ m hm.le) (helped_run ρ m hm.le) (ρ.step hm)

theorem linearization_run (ρ : Run (machine V)) : ∃ lin, ρ.Linearization State.abs lin ∧
    ∀ {i m}, lin i = some m → ρ.Flip State.done i m := by
  refine Run.linearization_of State.done ?_ (oneEffect_run ρ) ?_ answer_ret
  · obtain ⟨zero, h⟩ := ρ.init
    rw [h]
    exact initial_abs zero
  · intro n t op hn he hd
    have hs := ρ.step hn
    rw [he] at hs
    obtain ⟨op1, pc, ht, htook⟩ := hd
    obtain ⟨rfl, _, _⟩ := call_inv hs ht
    exact start_took htook

theorem linearizable_run (ρ : Run (machine V)) : ρ.Linearizable State.abs := by
  obtain ⟨lin, h, _⟩ := linearization_run ρ
  exact ⟨lin, h⟩

structure StatesMove (ρ : Run (machine V)) : Prop where
  sentinels : ∀ {m}, m ≤ ρ.length → stateAt ρ m head = .inserted ∧ stateAt ρ m tail = .inserted
  first : ∀ {m x}, m < ρ.length → ¬ Joined ρ m x → Joined ρ (m + 1) x →
    stateAt ρ (m + 1) x = .intendToInsert
  move : ∀ {m x}, m < ρ.length → Joined ρ m x →
    stateAt ρ (m + 1) x = stateAt ρ m x ∨ Moves (stateAt ρ m x) (stateAt ρ (m + 1) x)
  once : ∀ {m m' x}, m < ρ.length → m' < ρ.length → Joined ρ m x → Joined ρ m' x →
    stateAt ρ (m + 1) x ≠ stateAt ρ m x → stateAt ρ (m' + 1) x ≠ stateAt ρ m' x →
    stateAt ρ m x = stateAt ρ m' x → m = m'

-- each node has one call that linked it, which is an insert that returns true, and one that
-- moved it to INTEND_TO_DELETE, which is a remove that returns true
structure OneCaller (ρ : Run (machine V)) : Prop where
  inserter : ∀ {m x}, m ≤ ρ.length → Joined ρ m x → ∃! i, ∃ a, ρ.Grabs Pc.inserts i a x
  inserted : ∀ {t k v r i j}, ρ.Completed t (.insert k v) r i j →
    (r = true ↔ ∃ a x, ρ.Grabs Pc.inserts i a x)
  insertKey : ∀ {i a x}, ρ.Grabs Pc.inserts i a x →
    ∃ t v, ρ.event i = .call t (.insert ((ρ.state (a + 1)).store.node x).key v)
  insertOnce : ∀ {i a b x y}, ρ.Grabs Pc.inserts i a x → ρ.Grabs Pc.inserts i b y → x = y
  remover : ∀ {m x}, m ≤ ρ.length → Joined ρ m x →
    stateAt ρ m x = .intendToDelete ∨ stateAt ρ m x = .deleted →
    ∃! i, ∃ a, ρ.Grabs Pc.removes i a x
  removed : ∀ {t k r i j}, ρ.Completed t (.remove k) r i j →
    (r = true ↔ ∃ a x, ρ.Grabs Pc.removes i a x)
  removeKey : ∀ {i a x}, ρ.Grabs Pc.removes i a x →
    ∃ t, ρ.event i = .call t (.remove ((ρ.state (a + 1)).store.node x).key)
  removeOnce : ∀ {i a b x y}, ρ.Grabs Pc.removes i a x → ρ.Grabs Pc.removes i b y → x = y

theorem states_move (ρ : Run (machine V)) : StatesMove ρ := by
  have once : ∀ {m m' x}, m' < ρ.length → Joined ρ m x → m < m' →
      stateAt ρ (m + 1) x ≠ stateAt ρ m x → stateAt ρ m x = stateAt ρ m' x → False := by
    intro m m' x hm' hj hlt hne heq
    have hstep := (hj.evolves (by omega)).state.resolve_left hne
    have hle := (hj.mono (Nat.le_add_right m 1)).age hlt hm'.le
    rw [← heq] at hle
    have hstep : (stateAt ρ (m + 1) x).age = (stateAt ρ m x).age + 1 := hstep
    omega
  refine ⟨fun hm => ?_, fun {m x} hm hno hj => ?_, fun hm hj => ?_, ?_⟩
  · have hc := (inv_run ρ _ hm).mem.chain
    exact ⟨hc.head_state, congrArg Ptr.state hc.tail_next⟩
  · obtain ⟨j, hj, hx⟩ := hj
    rcases Nat.lt_or_eq_of_le hj with hj | rfl
    · exact absurd ⟨j, by omega, hx⟩ hno
    · rcases (inv_run ρ m hm.le).joins (ρ.step hm) hx with h | ⟨h, _⟩
      · exact absurd ⟨m, le_rfl, h⟩ hno
      · exact h
  · exact (hj.evolves hm).state.imp_right moves_of_age
  · intro m m' x hm hm' hj hj' hne hne' heq
    by_contra h
    rcases Nat.lt_or_gt_of_ne h with h | h
    · exact once hm' hj h hne heq
    · exact once hm hj' h hne' heq.symm

section Callers

variable {ρ : Run (machine V)} {g : Pc → Option Loc} {fin : SetOp V → Pc → Prop} {i j a b : ℕ}

theorem ret_holding {r : Bool} (hc : ρ.Completed t op r i j) (hg : g (.ret r) = none)
    (hf : fin op (.ret r) ↔ r = true)
    (hrun : ∀ n ≤ ρ.length, ∀ {t op pc}, (ρ.state n).thread t = some (op, pc) →
      ∃ i, ρ.Active t op i n ∧ ρ.Holding g fin i n op pc) :
    r = true ↔ ∃ a x, ρ.Grabs g i a x := by
  obtain ⟨i', ha, hold⟩ := hrun j hc.lt.le (ret_run ρ hc).1
  obtain ⟨rfl, _⟩ := ha.unique hc.active
  rcases hold with ⟨_, hnf, hno⟩ | ⟨x, h, a, _, hgrab, _⟩
  · refine iff_of_false (fun hr => hnf (hf.2 hr)) ?_
    rintro ⟨a, x, h⟩
    exact hno a x (h.before hc) h
  · exact iff_of_true (hf.1 (h.resolve_left fun h => nomatch hg.symm.trans h).2) ⟨a, x, hgrab⟩

theorem grabs_event (h : ρ.Grabs g i a x) : ∃ t op pc', ρ.event i = .call t op ∧
    (ρ.state (a + 1)).thread t = some (op, pc') ∧ g pc' = some x ∧ a < ρ.length := by
  obtain ⟨ha, t, op, _, pc', _, hact, _, ht', _, hg⟩ := h
  exact ⟨t, op, pc', hact.call, ht', hg, ha⟩

theorem grabs_node (hrun : ∀ n ≤ ρ.length, ∀ {t op pc}, (ρ.state n).thread t = some (op, pc) →
      ∃ i, ρ.Active t op i n ∧ ρ.Holding g fin i n op pc)
    (h : ρ.Grabs g i a x) (h' : ρ.Grabs g i b y) : x = y := by
  rcases le_total a b with hab | hab
  · exact (Run.grabs_once hrun h h' hab).2
  · exact (Run.grabs_once hrun h' h hab).2.symm

end Callers

theorem one_caller (ρ : Run (machine V)) : OneCaller ρ where
  inserter hm hj := by
    obtain ⟨i, a, _, h⟩ := joined_grabs _ hm hj
    refine ⟨i, ⟨a, h⟩, ?_⟩
    rintro i' ⟨b, h'⟩
    exact (ρ.grabs_unique linked_once h' h).1
  inserted hc := ret_holding hc rfl ⟨fun h => Pc.ret.inj h.2, fun h => ⟨trivial, congrArg _ h⟩⟩
    (inserting_run ρ)
  insertKey h := by
    obtain ⟨t, op, pc', hcall, ht', hg, ha⟩ := grabs_event h
    obtain ⟨hop, _, hk⟩ := ((inv_run ρ _ ha).fit ht').inserts hg
    cases op with
    | insert k v => exact ⟨t, v, by rw [key_of_rank hk]; exact hcall⟩
    | _ => exact hop.elim
  insertOnce h h' := grabs_node (inserting_run ρ) h h'
  remover hm hj hst := by
    obtain ⟨i, a, _, h⟩ := marked_grabs _ hm hj (by rcases hst with h | h <;> rw [h] <;> decide)
    refine ⟨i, ⟨a, h⟩, ?_⟩
    rintro i' ⟨b, h'⟩
    exact (ρ.grabs_unique marked_once h' h).1
  removed hc := ret_holding hc rfl ⟨fun h => Pc.ret.inj h.2, fun h => ⟨trivial, congrArg _ h⟩⟩
    (removing_run ρ)
  removeKey h := by
    obtain ⟨t, op, pc', hcall, ht', hg, ha⟩ := grabs_event h
    obtain ⟨hop, _, hk, _⟩ := ((inv_run ρ _ ha).fit ht').removes hg
    cases op with
    | remove k => exact ⟨t, by rw [key_of_rank hk]; exact hcall⟩
    | _ => exact hop.elim
  removeOnce h h' := grabs_node (removing_run ρ) h h'

theorem softList_linearizable (ρ : Run (machine V)) :
    ρ.Linearizable State.abs ∧ StatesMove ρ ∧ OneCaller ρ :=
  ⟨linearizable_run ρ, states_move ρ, one_caller ρ⟩

end SOFT.List
