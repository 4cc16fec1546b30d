import DurableSets.Core.Ledger
import DurableSets.SOFT.ListDurable
import DurableSets.SOFT.ListMemory
import DurableSets.SOFT.ListSchedule
import DurableSets.SOFT.ListSequential

namespace SOFT.List

open Chain Memory

variable {V : Type} {σ σ' : Store V} {s s' : State V} {ρ : Run (machine V)} {t u : Tid}
  {op : SetOp V} {pc pc' : Pc} {slot : ℕ} {x y n : Loc} {p : PLoc} {a k m l : ℕ}
  {e : Event (SetOp V)} {R W : Set Loc} {c : Loc} {st : NodeState}

def Takes (ρ : Run (machine V)) (x : Loc) (m : ℕ) : Prop :=
  m < ρ.length ∧ ∃ t op d st c p v, (ρ.state m).thread t = some (op, .allocNode d st c p v) ∧
    (ρ.state (m + 1)).thread t = some (op, .initNode d st c x p v)

def TakesP (ρ : Run (machine V)) (p : PLoc) (m : ℕ) : Prop :=
  m < ρ.length ∧ ∃ t op d st c, (ρ.state m).thread t = some (op, .allocPNode d st c) ∧
    (ρ.state (m + 1)).thread t = some (op, .pnodeAlloc d st c p)

def Gives (ρ : Run (machine V)) (r : Request) (m : ℕ) : Prop :=
  m < ρ.length ∧ ∃ t op pc, ρ.event m = .tau t ∧ (ρ.state m).thread t = some (op, pc) ∧
    request (ρ.state m).store pc = some r

def GivesBack (ρ : Run (machine V)) (x : Loc) : ℕ → Prop := Gives ρ (.volatileFree x)

def GivesBackP (ρ : Run (machine V)) (p : PLoc) : ℕ → Prop := Gives ρ (.free p)

def Trims (ρ : Run (machine V)) (m : ℕ) : Prop :=
  m < ρ.length ∧ ∃ t op c d st n q, ρ.event m = .tau t ∧
    (ρ.state m).thread t = some (op, .trimCas c d st n q) ∧
    ((ρ.state m).store.node d).next = Ptr.addr n st

theorem tau_inv' (hs : Step s (.tau t) s') : ∃ op pc slot σ pc', s.thread t = some (op, pc) ∧
    next s.store op slot pc = some (σ, pc') ∧
    (∀ d st c, pc = .allocPNode d st c → s.Recyclable slot) ∧
    (∀ d st c p v, pc = .allocNode d st c p v → s.store.avail slot = true) ∧
    s' = s.goto σ t (some (op, pc')) := by
  cases hs with
  | tau _ op pc pc' slot σ h hn hp ha => exact ⟨op, pc, slot, σ, pc', h, hn, hp, ha, rfl⟩

theorem Takes.avail (h : Takes ρ x m) : m < ρ.length ∧ (ρ.state m).store.avail x = true ∧
    (ρ.state (m + 1)).store.avail x = false := by
  obtain ⟨hm, t, op, d, st, c, p, v, h1, h2⟩ := h
  have hs := ρ.step hm
  rw [(machine V).tau_of_change hs h1 h2 nofun] at hs
  obtain ⟨slot, σ, hn, _, ha, he⟩ := tau_inv hs h1 h2
  obtain ⟨rfl, hpc⟩ := Prod.mk.inj (Option.some.inj hn)
  obtain rfl : slot = x := by
    injection hpc
  rw [he]
  exact ⟨hm, ha d st c p v rfl, Function.update_self _ _ _⟩

theorem TakesP.pavail (h : TakesP ρ p m) : m < ρ.length ∧ (ρ.state m).store.pavail p = true ∧
    (ρ.state (m + 1)).store.pavail p = false := by
  obtain ⟨hm, t, op, d, st, c, h1, h2⟩ := h
  have hs := ρ.step hm
  rw [(machine V).tau_of_change hs h1 h2 nofun] at hs
  obtain ⟨slot, σ, hn, hp, _, he⟩ := tau_inv hs h1 h2
  obtain ⟨rfl, hpc⟩ := Prod.mk.inj (Option.some.inj hn)
  obtain rfl : slot = p := by
    injection hpc
  rw [he]
  exact ⟨hm, (hp d st c rfl).1, Function.update_self _ _ _⟩

theorem owns_of_volatileFree (h : request σ pc = some (.volatileFree x)) : pc.owns = some x := by
  cases pc with
  | lostNode n p =>
    injection Option.some.inj h with h
    exact congrArg some h
  | trimFree c d st n =>
    obtain ⟨p, _, hp⟩ := Option.map_eq_some_iff.1 h
    cases hp
  | _ => cases h

theorem gives_of_free (h : request σ pc = some (.free p)) : pc.gives σ = some p := by
  cases pc with
  | lostPNode q =>
    injection Option.some.inj h with h
    exact congrArg some h
  | trimFree c d st n =>
    obtain ⟨q, hq, hp⟩ := Option.map_eq_some_iff.1 h
    injection hp with hp
    exact hq.trans (congrArg some hp)
  | _ => cases h

theorem Fit.gives_taken (f : Fit σ R W op pc) (h : pc.gives σ = some p) :
    σ.pavail p = false := by
  rcases gives_cases h with ho | ⟨n, hr, hp⟩
  · exact (f.ownedP p ho).2
  · exact (f.retired n hr).2.2 p hp

theorem Gives.step {r : Request} (h : Gives ρ r m) : ∃ t op pc slot σ pc',
    (ρ.state m).thread t = some (op, pc) ∧ request (ρ.state m).store pc = some r ∧
    next (ρ.state m).store op slot pc = some (σ, pc') ∧ (ρ.state (m + 1)).store = σ := by
  obtain ⟨hm, t, op, pc, he, ht, hr⟩ := h
  have hs := ρ.step hm
  rw [he] at hs
  obtain ⟨op1, pc1, slot, σ, pc', ht1, hn, _, _, hst⟩ := tau_inv' hs
  obtain ⟨rfl, rfl⟩ := Prod.mk.inj (Option.some.inj (ht.symm.trans ht1))
  exact ⟨t, op, pc, slot, σ, pc', ht, hr, hn, by rw [hst]; rfl⟩

theorem GivesBack.avail (h : GivesBack ρ x m) : m < ρ.length ∧
    (ρ.state m).store.avail x = false ∧ (ρ.state (m + 1)).store.avail x = true := by
  obtain ⟨t, op, pc, slot, σ, pc', ht, hr, hn, hst⟩ := Gives.step h
  refine ⟨h.1, (((inv_run ρ m h.1.le).fit ht).owned x (owns_of_volatileFree hr)).2, ?_⟩
  rw [hst, (next_avail hn).2, hr]
  exact Function.update_self _ _ _

theorem GivesBackP.pavail (h : GivesBackP ρ p m) : m < ρ.length ∧
    (ρ.state m).store.pavail p = false ∧ (ρ.state (m + 1)).store.pavail p = true := by
  obtain ⟨t, op, pc, slot, σ, pc', ht, hr, hn, hst⟩ := Gives.step h
  refine ⟨h.1, ((inv_run ρ m h.1.le).fit ht).gives_taken (gives_of_free hr), ?_⟩
  rw [hst, (next_avail hn).1, hr]
  exact Function.update_self _ _ _

theorem same_store (hs : Step s e s') (h : ∀ t, e ≠ .tau t) : s'.store = s.store := by
  cases hs with
  | call t op idle hk => rfl
  | ret t op r ht => rfl
  | tau t op pc pc' slot σ ht hn hp ha => exact absurd rfl (h t)

theorem request_volatileAlloc (h : request σ pc = some .volatileAlloc) :
    ∃ d st c p v, pc = .allocNode d st c p v := by
  cases pc with
  | allocNode d st c p v => exact ⟨d, st, c, p, v, rfl⟩
  | trimFree c d st n =>
    obtain ⟨p, _, hp⟩ := Option.map_eq_some_iff.1 h
    cases hp
  | _ => cases h

theorem request_alloc (h : request σ pc = some .alloc) : ∃ d st c, pc = .allocPNode d st c := by
  cases pc with
  | allocPNode d st c => exact ⟨d, st, c, rfl⟩
  | trimFree c d st n =>
    obtain ⟨p, _, hp⟩ := Option.map_eq_some_iff.1 h
    cases hp
  | _ => cases h

theorem ledger (ρ : Run (machine V)) (x : Loc) : Ledger ρ.length
    (fun m => (ρ.state m).store.avail x) (Takes ρ x) (GivesBack ρ x) := by
  refine ⟨Takes.avail, GivesBack.avail, fun {m} hm => ?_⟩
  have hs := ρ.step hm
  by_cases he : ∃ t, ρ.event m = .tau t
  · obtain ⟨t, he⟩ := he
    rw [he] at hs
    obtain ⟨op, pc, slot, σ, pc', ht, hn, _, _, hst⟩ := tau_inv' hs
    have ht' : (ρ.state (m + 1)).thread t = some (op, pc') := by
      rw [hst]
      exact goto_thread_self _ _ _ _
    have hσ : (ρ.state (m + 1)).store = σ := by rw [hst]; rfl
    simp only [hσ, (next_avail hn).2]
    cases hr : request (ρ.state m).store pc with
    | none => exact Or.inl rfl
    | some r =>
      cases r with
      | volatileAlloc =>
        obtain ⟨d, st, c, p, v, rfl⟩ := request_volatileAlloc hr
        obtain ⟨_, rfl⟩ := Prod.mk.inj (Option.some.inj hn)
        by_cases hx : x = slot
        · exact Or.inr (Or.inl ⟨hm, t, op, d, st, c, p, v, ht, hx ▸ ht'⟩)
        · exact Or.inl (Function.update_of_ne hx _ _)
      | volatileFree n =>
        by_cases hx : x = n
        · exact Or.inr (Or.inr ⟨hm, t, op, pc, he, ht, hx ▸ hr⟩)
        · exact Or.inl (Function.update_of_ne hx _ _)
      | alloc => exact Or.inl rfl
      | free p => exact Or.inl rfl
  · left
    rw [same_store hs fun t ht => he ⟨t, ht⟩]

theorem ledgerP (ρ : Run (machine V)) (p : PLoc) : Ledger ρ.length
    (fun m => (ρ.state m).store.pavail p) (TakesP ρ p) (GivesBackP ρ p) := by
  refine ⟨TakesP.pavail, GivesBackP.pavail, fun {m} hm => ?_⟩
  have hs := ρ.step hm
  by_cases he : ∃ t, ρ.event m = .tau t
  · obtain ⟨t, he⟩ := he
    rw [he] at hs
    obtain ⟨op, pc, slot, σ, pc', ht, hn, _, _, hst⟩ := tau_inv' hs
    have ht' : (ρ.state (m + 1)).thread t = some (op, pc') := by
      rw [hst]
      exact goto_thread_self _ _ _ _
    have hσ : (ρ.state (m + 1)).store = σ := by rw [hst]; rfl
    simp only [hσ, (next_avail hn).1]
    cases hr : request (ρ.state m).store pc with
    | none => exact Or.inl rfl
    | some r =>
      cases r with
      | alloc =>
        obtain ⟨d, st, c, rfl⟩ := request_alloc hr
        obtain ⟨_, rfl⟩ := Prod.mk.inj (Option.some.inj hn)
        by_cases hx : p = slot
        · exact Or.inr (Or.inl ⟨hm, t, op, d, st, c, ht, hx ▸ ht'⟩)
        · exact Or.inl (Function.update_of_ne hx _ _)
      | free q =>
        by_cases hx : p = q
        · exact Or.inr (Or.inr ⟨hm, t, op, pc, he, ht, hx ▸ hr⟩)
        · exact Or.inl (Function.update_of_ne hx _ _)
      | volatileAlloc => exact Or.inl rfl
      | volatileFree n => exact Or.inl rfl
  · left
    rw [same_store hs fun t ht => he ⟨t, ht⟩]

def Held (s : State V) : Prop := ∀ x, s.store.avail x = false → x = head ∨ x = tail ∨
  InList s.store x ∨ ∃ t op pc, s.thread t = some (op, pc) ∧ pc.owns = some x

def HeldP (s : State V) : Prop := ∀ p, s.store.pavail p = false →
  (∃ x, InList s.store x ∧ (s.store.node x).pptr = some p) ∨
    ∃ t op pc, s.thread t = some (op, pc) ∧ pc.gives s.store = some p

theorem linked_new (hm : MemInv σ R W) (f : Fit σ R W op (.linkCas x st c n p))
    (hnext : (σ.node x).next = Ptr.addr c st) : InList (σ.setNext x (Ptr.addr n st)) n := by
  have hl := (f.owned n rfl).1
  refine ⟨((linkCas_splice f hnext).linked hm.chain.good).2 (Or.inr rfl), ?_, ?_⟩
  · rintro rfl
    exact hl (Heap.Live.root hm.chain.good.head_root)
  · rintro rfl
    exact hl (hm.chain.good.live_of_linked hm.chain.tail_linked)

theorem owns_next (hm : MemInv σ R W) (f : Fit σ R W op pc)
    (hn : next σ op slot pc = some (σ', pc')) (hx : pc.owns = some x) :
    pc'.owns = some x ∨ σ'.avail x = true ∨ InList σ' x := by
  cases pc with
  | initNode d st c n p v =>
    cases op with
    | insert k v =>
      obtain ⟨rfl, rfl⟩ := Prod.mk.inj (Option.some.inj hn)
      exact Or.inl hx
    | _ => cases hn
  | initNext d st c n p =>
    obtain ⟨rfl, rfl⟩ := Prod.mk.inj (Option.some.inj hn)
    exact Or.inl hx
  | linkCas d st c n p =>
    obtain rfl : n = x := Option.some.inj hx
    simp only [next] at hn
    split at hn <;> obtain ⟨rfl, rfl⟩ := Prod.mk.inj (Option.some.inj hn)
    · next hnext => exact Or.inr (Or.inr (linked_new hm f hnext))
    · exact Or.inl rfl
  | lostNode n p =>
    obtain rfl : n = x := Option.some.inj hx
    obtain ⟨rfl, rfl⟩ := Prod.mk.inj (Option.some.inj hn)
    exact Or.inr (Or.inl (Function.update_self _ _ _))
  | _ => cases hx

theorem gives_next (hm : MemInv σ R W) (f : Fit σ R W op pc)
    (hn : next σ op slot pc = some (σ', pc')) (hx : pc.gives σ = some p) :
    pc'.gives σ' = some p ∨ σ'.pavail p = true ∨
      ∃ x, InList σ' x ∧ (σ'.node x).pptr = some p := by
  cases pc with
  | pnodeAlloc d st c q =>
    obtain ⟨rfl, rfl⟩ := Prod.mk.inj (Option.some.inj hn)
    exact Or.inl hx
  | allocNode d st c q v =>
    obtain ⟨rfl, rfl⟩ := Prod.mk.inj (Option.some.inj hn)
    exact Or.inl hx
  | initNode d st c n q v =>
    cases op with
    | insert k v =>
      obtain ⟨rfl, rfl⟩ := Prod.mk.inj (Option.some.inj hn)
      exact Or.inl hx
    | _ => cases hn
  | initNext d st c n q =>
    obtain ⟨rfl, rfl⟩ := Prod.mk.inj (Option.some.inj hn)
    exact Or.inl hx
  | linkCas d st c n q =>
    obtain rfl : q = p := Option.some.inj hx
    simp only [next] at hn
    split at hn <;> obtain ⟨rfl, rfl⟩ := Prod.mk.inj (Option.some.inj hn)
    · next hnext =>
      refine Or.inr (Or.inr ⟨n, linked_new hm f hnext, ?_⟩)
      rw [(setNext_data σ d _ n).2.1]
      exact f.loc.2.1.2.2.1
    · exact Or.inl rfl
  | lostNode n q =>
    obtain ⟨rfl, rfl⟩ := Prod.mk.inj (Option.some.inj hn)
    exact Or.inl hx
  | lostPNode q =>
    obtain rfl : q = p := Option.some.inj hx
    obtain ⟨rfl, rfl⟩ := Prod.mk.inj (Option.some.inj hn)
    exact Or.inr (Or.inl (Function.update_self _ _ _))
  | trimFree t d st n => exact Or.inr (Or.inl (trimFree_gives rfl hx hn))
  | _ => cases hx

theorem afterFind_retires {d : Loc} {cs : NodeState} (h : afterFind σ d st c cs op = some pc) :
    pc.retires = none := by
  cases op with
  | insert k v =>
    simp only [afterFind] at h
    split at h
    · split at h <;> obtain rfl := Option.some.inj h <;> rfl
    · obtain rfl := Option.some.inj h
      rfl
  | remove k =>
    simp only [afterFind] at h
    split at h
    · obtain rfl := Option.some.inj h
      rfl
    · split at h <;> obtain rfl := Option.some.inj h <;> rfl
  | contains k => cases h

theorem afterTrim_retires (d : Loc) (st : NodeState) (t : TrimCtx) :
    (afterTrim d st t).retires = none := by
  cases t <;> rfl

theorem retires_of_trim (hn : next σ op slot pc = some (σ', pc')) (hx : pc'.retires = some x) :
    ∃ c d st q, pc = .trimCas c d st x q ∧ (σ.node d).next = Ptr.addr x st := by
  cases flow_of_next hn with
  | findStop _ _ h => exact absurd ((afterFind_retires h).symm.trans hx) (by rintro ⟨⟩)
  | trimLost => exact absurd ((afterTrim_retires _ _ _).symm.trans hx) (by rintro ⟨⟩)
  | trimFree => exact absurd ((afterTrim_retires _ _ _).symm.trans hx) (by rintro ⟨⟩)
  | @trimWon c d n st q =>
    obtain rfl : n = x := Option.some.inj hx
    by_cases hnext : (σ.node d).next = Ptr.addr n st
    · exact ⟨c, d, st, q, rfl, hnext⟩
    · simp only [next, if_neg hnext] at hn
      have hpc := (Prod.mk.inj (Option.some.inj hn)).2
      exact absurd ((congrArg Pc.retires hpc).symm.trans (afterTrim_retires d st c)) (by rintro ⟨⟩)
  | _ => cases hx

section Idle

variable {b : Option (SetOp V × Pc)}

theorem Held.step_idle (h : Held s)
    (ht : ∀ op pc, s.thread t = some (op, pc) → pc.owns = none) : Held (s.goto s.store t b) := by
  intro x hx
  refine (h x hx).imp_right (Or.imp_right (Or.imp_right ?_))
  rintro ⟨u, op, pc, hu, hh⟩
  have hne : u ≠ t := by
    rintro rfl
    exact absurd ((ht op pc hu).symm.trans hh) nofun
  exact ⟨u, op, pc, (goto_thread_other _ _ _ hne).trans hu, hh⟩

theorem HeldP.step_idle (h : HeldP s)
    (ht : ∀ op pc, s.thread t = some (op, pc) → pc.gives s.store = none) :
    HeldP (s.goto s.store t b) := by
  intro p hp
  refine (h p hp).imp_right ?_
  rintro ⟨u, op, pc, hu, hh⟩
  have hne : u ≠ t := by
    rintro rfl
    exact absurd ((ht op pc hu).symm.trans hh) nofun
  exact ⟨u, op, pc, (goto_thread_other _ _ _ hne).trans hu, hh⟩

end Idle

theorem Held.step (hi : Inv s) (h : Held s) (hs : Step s e s')
    (no : ∀ t op c d st n q, e = .tau t → s.thread t = some (op, .trimCas c d st n q) →
      (s.store.node d).next ≠ Ptr.addr n st) : Held s' := by
  cases hs with
  | call t op idle hk => exact h.step_idle fun op pc ht => absurd (idle.symm.trans ht) nofun
  | ret t op r ht =>
    refine h.step_idle fun op1 pc ht1 => ?_
    obtain ⟨_, rfl⟩ := Prod.mk.inj (Option.some.inj (ht.symm.trans ht1))
    rfl
  | tau t op pc pc' slot σ ht hn hp ha =>
    intro x hx
    have hx : σ.avail x = false := hx
    have f := hi.fit ht
    have ht' := goto_thread_self s σ t (some (op, pc'))
    cases hav : s.store.avail x with
    | true =>
      have hav' := congrFun (next_avail hn).2 x
      rw [hx] at hav'
      cases hr : request s.store pc with
      | none => rw [hr] at hav'; exact absurd (hav'.trans hav) (by decide)
      | some r =>
        rw [hr] at hav'
        cases r with
        | volatileAlloc =>
          obtain ⟨d, st, c, p, v, rfl⟩ := request_volatileAlloc hr
          obtain ⟨_, rfl⟩ := Prod.mk.inj (Option.some.inj hn)
          by_cases he : x = slot
          · exact Or.inr (Or.inr (Or.inr ⟨t, op, _, ht', congrArg some he.symm⟩))
          · exact absurd (hav'.trans (Function.update_of_ne he _ _)) (by rw [hav]; decide)
        | volatileFree n =>
          by_cases he : x = n
          · subst he
            exact absurd (hav'.trans (Function.update_self _ _ _)) (by decide)
          · exact absurd (hav'.trans (Function.update_of_ne he _ _)) (by rw [hav]; decide)
        | alloc => exact absurd (hav'.trans hav) (by decide)
        | free p => exact absurd (hav'.trans hav) (by decide)
    | false =>
      rcases h x hav with rfl | rfl | hl | ⟨u, op1, pc1, hu, hh⟩
      · exact Or.inl rfl
      · exact Or.inr (Or.inl rfl)
      · have tau := tau_cases (R := s.roots) (fun n ho => (f.owned n ho).1) hn
        rcases tau.keeps hi.mem f hl with hl | ⟨_, hr⟩
        · exact Or.inr (Or.inr (Or.inl hl))
        · obtain ⟨c, d, st, q, rfl, hnext⟩ := retires_of_trim hn hr
          exact absurd hnext (no t op c d st x q rfl ht)
      · by_cases hut : u = t
        · subst hut
          obtain ⟨rfl, rfl⟩ := Prod.mk.inj (Option.some.inj (ht.symm.trans hu))
          rcases owns_next hi.mem f hn hh with ho | ha | hl
          · exact Or.inr (Or.inr (Or.inr ⟨u, op, pc', ht', ho⟩))
          · exact absurd (hx.symm.trans ha) (by decide)
          · exact Or.inr (Or.inr (Or.inl hl))
        · exact Or.inr (Or.inr (Or.inr ⟨u, op1, pc1, (goto_thread_other _ _ _ hut).trans hu, hh⟩))

theorem gives_kept (hi : Inv s) (hs : Step s e s') {op1 : SetOp V} {pc1 : Pc}
    (hu : s.thread u = some (op1, pc1)) : pc1.gives s'.store = pc1.gives s.store := by
  cases hr : pc1.retires with
  | none =>
    simp only [Pc.gives, hr]
    rfl
  | some n =>
    have hl := (hi.fit hu).refs n (writes_mem_refs (Or.inr hr))
    simp only [Pc.gives, hr, Option.bind_some, (evolves_step hi hs hl).pptr]

theorem HeldP.step (hi : Inv s) (h : HeldP s) (hs : Step s e s') : HeldP s' := by
  have hs' := hs
  cases hs with
  | call t op idle hk => exact h.step_idle fun op pc ht => absurd (idle.symm.trans ht) nofun
  | ret t op r ht =>
    refine h.step_idle fun op1 pc ht1 => ?_
    obtain ⟨_, rfl⟩ := Prod.mk.inj (Option.some.inj (ht.symm.trans ht1))
    rfl
  | tau t op pc pc' slot σ ht hn hp ha =>
    intro p hx
    have hx : σ.pavail p = false := hx
    have f := hi.fit ht
    have ht' := goto_thread_self s σ t (some (op, pc'))
    cases hav : s.store.pavail p with
    | true =>
      have hav' := congrFun (next_avail hn).1 p
      rw [hx] at hav'
      cases hr : request s.store pc with
      | none => rw [hr] at hav'; exact absurd (hav'.trans hav) (by decide)
      | some r =>
        rw [hr] at hav'
        cases r with
        | alloc =>
          obtain ⟨d, st, c, rfl⟩ := request_alloc hr
          obtain ⟨_, rfl⟩ := Prod.mk.inj (Option.some.inj hn)
          by_cases he : p = slot
          · exact Or.inr ⟨t, op, _, ht', congrArg some he.symm⟩
          · exact absurd (hav'.trans (Function.update_of_ne he _ _)) (by rw [hav]; decide)
        | free q =>
          by_cases he : p = q
          · subst he
            exact absurd (hav'.trans (Function.update_self _ _ _)) (by decide)
          · exact absurd (hav'.trans (Function.update_of_ne he _ _)) (by rw [hav]; decide)
        | volatileAlloc => exact absurd (hav'.trans hav) (by decide)
        | volatileFree n => exact absurd (hav'.trans hav) (by decide)
    | false =>
      rcases h p hav with ⟨x, hl, hpx⟩ | ⟨u, op1, pc1, hu, hh⟩
      · have tau := tau_cases (R := s.roots) (fun n ho => (f.owned n ho).1) hn
        have hpx' := (evolves_step hi hs' (hi.mem.chain.good.live_of_linked hl.1)).pptr.trans hpx
        rcases tau.keeps hi.mem f hl with hl | ⟨_, hr⟩
        · exact Or.inl ⟨x, hl, hpx'⟩
        · refine Or.inr ⟨t, op, pc', ht', ?_⟩
          obtain ⟨c, d, st, q, rfl, hnext⟩ := retires_of_trim hn hr
          simp only [next, if_pos hnext] at hn
          obtain ⟨_, rfl⟩ := Prod.mk.inj (Option.some.inj hn)
          exact hpx'
      · by_cases hut : u = t
        · subst hut
          obtain ⟨rfl, rfl⟩ := Prod.mk.inj (Option.some.inj (ht.symm.trans hu))
          rcases gives_next hi.mem f hn hh with ho | ha | hl
          · exact Or.inr ⟨u, op, pc', ht', ho⟩
          · exact absurd (hx.symm.trans ha) (by decide)
          · exact Or.inl hl
        · exact Or.inr ⟨u, op1, pc1, (goto_thread_other _ _ _ hut).trans hu,
            (gives_kept hi hs' hu).trans hh⟩

theorem held_run (ρ : Run (machine V)) {n : ℕ} (hn : n ≤ ρ.length) (no : ∀ m < n, ¬ Trims ρ m) :
    Held (ρ.state n) := by
  induction n with
  | zero =>
    obtain ⟨zero, hi⟩ := ρ.init
    rw [hi]
    intro x hx
    by_cases h0 : x = head
    · exact Or.inl h0
    · by_cases h1 : x = tail
      · exact Or.inr (Or.inl h1)
      · simp [initial, initialStore, h0, h1] at hx
  | succ n ih =>
    refine (ih (by omega) fun m hm => no m (by omega)).step (inv_run ρ n (by omega))
      (ρ.step (by omega)) fun t op c d st k q he ht hnext => ?_
    exact no n (by omega) ⟨by omega, t, op, c, d, st, k, q, he, ht, hnext⟩

theorem heldP_run (ρ : Run (machine V)) : ∀ n ≤ ρ.length, HeldP (ρ.state n) := by
  refine ρ.stepwise ?_ fun m hm h => h.step (inv_run ρ m hm.le) (ρ.step hm)
  obtain ⟨zero, hi⟩ := ρ.init
  rw [hi]
  exact fun p hp => nomatch hp

def Left (s : State V) (x : Loc) : Prop :=
  Used s x ∧ (s.store.node x).next.state = .deleted ∧ ¬ InList s.store x

theorem Left.step (hi : Inv s) (h : Left s x) (hs : Step s e s') : Left s' x := by
  obtain ⟨hu, hd, hin⟩ := h
  have hd' : (s'.store.node x).next.state = .deleted := by
    rw [(hu.evolves hi hs).next hd]
    exact hd
  refine ⟨hu.step hi hs, hd', fun hx => ?_⟩
  rcases hi.joins hs hx with hx | ⟨hst, _⟩
  · exact hin hx
  · exact nomatch hd'.symm.trans hst

theorem left_run (hm : m ≤ k) (hk : k ≤ ρ.length) (h : Left (ρ.state m) x) :
    Left (ρ.state k) x := by
  induction k, hm using Nat.le_induction with
  | base => exact h
  | succ k hm ih => exact (ih (by omega)).step (inv_run ρ k (by omega)) (ρ.step (by omega))

theorem Trims.left (h : Trims ρ m) : ∃ x, Left (ρ.state (m + 1)) x := by
  obtain ⟨hm, t, op, c, d, st, n, q, he, ht, hnext⟩ := h
  have hi := inv_run ρ m hm.le
  have f := hi.fit ht
  have hs := ρ.step hm
  rw [he] at hs
  obtain ⟨op1, pc1, slot, σ, pc', ht1, hn, _, _, hst⟩ := tau_inv' hs
  obtain ⟨rfl, rfl⟩ := Prod.mk.inj (Option.some.inj (ht.symm.trans ht1))
  obtain ⟨⟨_, hlive, hdead, _⟩, _⟩ := f.loc
  have hd : (ρ.state m).store.heap.Linked d := by
    refine hi.mem.chain.good.alive (f.refs d (by simp [Pc.refs])) fun hdd => hlive ?_
    exact (congrArg Ptr.state hnext).symm.trans hdd
  have hdead : ((ρ.state m).store.node n).next.state = .deleted := hdead
  have hx : InList (ρ.state m).store n := by
    refine ⟨hd.tail (succ_of_addr hnext), ?_, ?_⟩
    · rintro rfl
      cases hi.mem.chain.head_state.symm.trans hdead
    · rintro rfl
      cases (congrArg Ptr.state hi.mem.chain.tail_next).symm.trans hdead
  have hu := hi.used hx
  refine ⟨n, hu.step hi hs, ?_, ?_⟩
  · rw [(hu.evolves hi hs).next hdead]
    exact hdead
  · rw [hst]
    simp only [next, if_pos hnext] at hn
    obtain ⟨rfl, _⟩ := Prod.mk.inj (Option.some.inj hn)
    exact fun h => ((trim_linked hi.mem f hnext).1 h.1).2 rfl

structure Balanced (ρ : Run (machine V)) (n : ℕ) : Prop where
  nodes : ∀ x, (∃ a, Ledger.Since (Takes ρ x) (GivesBack ρ x) a n) ↔ InList (ρ.state n).store x
  pnodes : ∀ p, (∃ a, Ledger.Since (TakesP ρ p) (GivesBackP ρ p) a n) ↔
    ∃ x, InList (ρ.state n).store x ∧ ((ρ.state n).store.node x).pptr = some p
  once : ∀ x, Ledger.Settles (Takes ρ x) (GivesBack ρ x) n
  onceP : ∀ p, Ledger.Settles (TakesP ρ p) (GivesBackP ρ p) n

theorem avail_initial (ρ : Run (machine V)) (hh : x ≠ head) (ht : x ≠ tail) :
    (ρ.state 0).store.avail x = true := by
  obtain ⟨zero, hi⟩ := ρ.init
  rw [hi]
  simp [initial, initialStore, hh, ht]

theorem pavail_initial (ρ : Run (machine V)) (p : PLoc) : (ρ.state 0).store.pavail p = true := by
  obtain ⟨zero, hi⟩ := ρ.init
  rw [hi]
  rfl

theorem sentinel_unavail (hm : m ≤ ρ.length) (hx : x = head ∨ x = tail) :
    (ρ.state m).store.avail x = false := by
  have hi := inv_run ρ m hm
  cases ha : (ρ.state m).store.avail x with
  | false => rfl
  | true =>
    refine absurd ?_ (hi.mem.chain.fresh ha)
    rcases hx with rfl | rfl
    · exact Heap.Live.root hi.mem.chain.good.head_root
    · exact hi.mem.chain.good.live_of_linked hi.mem.chain.tail_linked

theorem not_takes_sentinel (hx : x = head ∨ x = tail) : ¬ Takes ρ x m := fun h =>
  absurd ((sentinel_unavail h.1.le hx).symm.trans h.avail.2.1) (by decide)

theorem once_run (ρ : Run (machine V)) (hn : l ≤ ρ.length) (x : Loc) :
    Ledger.Settles (Takes ρ x) (GivesBack ρ x) l := by
  by_cases hx : x = head ∨ x = tail
  · refine ⟨fun a _ ht => absurd ht (not_takes_sentinel hx), fun m _ hg => ?_⟩
    exact absurd ((sentinel_unavail hg.1 hx).symm.trans hg.avail.2.2) (by decide)
  · obtain ⟨h1, h2⟩ := not_or.1 hx
    exact (ledger ρ x).settles (avail_initial ρ h1 h2) hn

theorem since_of_inList (hn : l ≤ ρ.length) (hx : Used (ρ.state l) x) (hh : x ≠ head)
    (ht : x ≠ tail) : ∃ a, Ledger.Since (Takes ρ x) (GivesBack ρ x) a l :=
  ((ledger ρ x).since_iff (avail_initial ρ hh ht) hn).2 hx.1

theorem pnodes_run (ρ : Run (machine V)) (hn : l ≤ ρ.length)
    (hq : ∀ t, (ρ.state l).thread t = none) (p : PLoc) :
    (∃ a, Ledger.Since (TakesP ρ p) (GivesBackP ρ p) a l) ↔
      ∃ x, InList (ρ.state l).store x ∧ ((ρ.state l).store.node x).pptr = some p := by
  rw [(ledgerP ρ p).since_iff (pavail_initial ρ p) hn]
  constructor
  · intro hp
    refine (heldP_run ρ l hn p hp).resolve_right ?_
    rintro ⟨t, op, pc, ht, _⟩
    exact nomatch (hq t).symm.trans ht
  · rintro ⟨x, hx, hp⟩
    exact (inv_run ρ l hn).mem.pnode.taken hx hp

theorem not_balanced (hl : Left (ρ.state l) x) (hn : l ≤ ρ.length) (hh : x ≠ head)
    (ht : x ≠ tail) : ¬ Balanced ρ l :=
  fun hb => hl.2.2 ((hb.nodes x).1 (since_of_inList hn hl.1 hh ht))

theorem Left.ne_sentinel (hi : Inv s) (h : Left s x) : x ≠ head ∧ x ≠ tail := by
  constructor
  · rintro rfl
    exact nomatch hi.mem.chain.head_state.symm.trans h.2.1
  · rintro rfl
    exact nomatch (congrArg Ptr.state hi.mem.chain.tail_next).symm.trans h.2.1

theorem softList_gives_back (ρ : Run (machine V)) (hn : n ≤ ρ.length)
    (hq : ∀ t, (ρ.state n).thread t = none) : Balanced ρ n ↔ ∀ m < n, ¬ Trims ρ m := by
  constructor
  · intro hb m hm hT
    obtain ⟨x, hx⟩ := hT.left
    have hl := left_run hm hn hx
    obtain ⟨h1, h2⟩ := hl.ne_sentinel (inv_run ρ n hn)
    exact not_balanced hl hn h1 h2 hb
  · intro no
    refine ⟨fun x => ⟨?_, fun hx => ?_⟩, pnodes_run ρ hn hq, once_run ρ hn, fun p =>
      (ledgerP ρ p).settles (pavail_initial ρ p) hn⟩
    · rintro ⟨a, ha⟩
      have hs : ¬ (x = head ∨ x = tail) := fun hs => not_takes_sentinel hs ha.2.1
      have hav := ha.unavail (ledger ρ x) n ha.1 le_rfl hn
      rcases held_run ρ hn no x hav with h | h | h | ⟨t, op, pc, ht, _⟩
      · exact absurd (Or.inl h) hs
      · exact absurd (Or.inr h) hs
      · exact h
      · exact nomatch (hq t).symm.trans ht
    · exact since_of_inList hn ((inv_run ρ n hn).used hx) hx.2.1 hx.2.2

theorem Settled.not_inList (h : Settled ∅ s) : ¬ InList s.store x := fun hx => by
  have hk : (s.store.node x).key ∈ s.abs := mem_abs.2 ⟨x, hx, Or.inl (h.inserted hx), rfl⟩
  rw [h.abs] at hk
  exact hk

theorem exists_leak : ∃ ρ : Run (machine Unit),
    ρ.calls ρ.length = [.insert 5 (), .remove 5] ∧ (∀ m < ρ.length, (ρ.event m).tid = 0) ∧
    Settled ∅ (ρ.state ρ.length) ∧ ∃ x, Left (ρ.state ρ.length) x := by
  have serves := serves Unit 0
  obtain ⟨ρ1, h1, hs1⟩ := Run.exists_extends serves [.insert 5 ()] ∅ (Run.nil _ ⟨(), rfl⟩)
    (by decide) (initial_settled ())
  obtain ⟨ρ2, h2, hs2⟩ := Run.exists_extends serves [.remove 5] _ ρ1 (by decide) hs1
  have hA : Settled ∅ (ρ2.state ρ2.length) := by
    simpa [SetOp.apply] using hs2
  have h5 : (5 : ℤ) ∈ (ρ1.state ρ1.length).abs := by
    rw [hs1.abs]
    exact Or.inl rfl
  obtain ⟨x, hx, _⟩ := mem_abs.1 h5
  have hj : Joined ρ2 ρ2.length x := ⟨ρ1.length, h2.le, by rw [h2.state _ le_rfl]; exact hx⟩
  obtain ⟨hu, hd⟩ := joined_run hj le_rfl
  have hx := h1.trans h2
  exact ⟨ρ2, hx.calls, fun m hm => hx.tid m (Nat.zero_le m) hm, hA, x, hu,
    hd.resolve_left hA.not_inList, hA.not_inList⟩

-- trim gives back the PNode of the removed node and keeps its volatile node
theorem softList_leaks_nodes : ∃ ρ : Run (machine Unit),
    ρ.calls ρ.length = [.insert 5 (), .remove 5] ∧ (∀ m < ρ.length, (ρ.event m).tid = 0) ∧
    (∀ t, (ρ.state ρ.length).thread t = none) ∧
    (∀ x, (ρ.state ρ.length).store.heap.Linked x → ¬ (ρ.state ρ.length).store.heap.dead x) ∧
    ¬ Balanced ρ ρ.length := by
  obtain ⟨ρ, hc, ht, hs, x, hx⟩ := exists_leak
  obtain ⟨h1, h2⟩ := hx.ne_sentinel (inv_run ρ _ le_rfl)
  exact ⟨ρ, hc, ht, hs.idle, hs.alive, not_balanced hx le_rfl h1 h2⟩

def trimming (s : State V) (t : Tid) : Bool :=
  match s.thread t with
  | some (_, .trimCas _ d st n _) => decide ((s.store.node d).next = Ptr.addr n st)
  | _ => false

theorem not_trims (hf : Few (ρ.state m))
    (h : ((List.range 2).any fun t => trimming (ρ.state m) t) = false) : ¬ Trims ρ m := by
  rintro ⟨_, t, op, c, d, st, n, q, _, ht, hd⟩
  have := List.any_eq_false.1 h t (List.mem_range.2 (hf.lt ht))
  simp [trimming, ht, hd] at this

theorem trims_of (hm : m < ρ.length) (he : ρ.event m = .tau t)
    (h : trimming (ρ.state m) t = true) : Trims ρ m := by
  unfold trimming at h
  split at h
  · next op c d st n q ht => exact ⟨hm, t, op, c, d, st, n, q, he, ht, of_decide_eq_true h⟩
  · cases h

def insertBoth : List (Command Unit) :=
  [[.call 0 (.insert 5 ()), .call 1 (.insert 3 ())], steps 0 8 2, steps 1 17 3, steps 0 9 2,
    [.ret 0, .ret 1], alone 1 (.remove 5) 15 0].flatten

-- both slots of both nodes are in use, until trim gives back one slot of two
theorem softList_gives_back_until_trim : ∃ (ρ : Run (machine Unit)) (x y : Loc),
    x ≠ y ∧ InList (ρ.state 38).store x ∧ InList (ρ.state 38).store y ∧
    (∀ t, (ρ.state 38).thread t = none) ∧ Balanced ρ 38 ∧
    (∀ t, (ρ.state ρ.length).thread t = none) ∧ ¬ Balanced ρ ρ.length := by
  obtain ⟨ρ, hρ, hfew⟩ := exists_play () insertBoth (by decide +kernel)
  have hlen : ρ.length = 55 := hρ.length
  have idle : ∀ n ≤ ρ.length, (ρ.state n).thread 0 = none ∧ (ρ.state n).thread 1 = none →
      ∀ t, (ρ.state n).thread t = none := by
    rintro n hn ⟨h0, h1⟩ t
    rcases t with _ | _ | t
    · exact h0
    · exact h1
    · exact (hfew n hn).1 _ (Nat.le_add_left _ _)
  have linked := hρ.holds 38 (P := fun s =>
    ((s.store.node head).next.ref = some 3 ∧ (s.store.node 3).next.ref = some 2) ∧
      s.thread 0 = none ∧ s.thread 1 = none) (by decide +kernel)
  have trim := hρ.holds 52 (P := fun s => trimming s 1) (by decide +kernel)
  have done := hρ.holds 55 (P := fun s =>
    s.thread 0 = none ∧ s.thread 1 = none) (by decide +kernel)
  -- no thread is at a trim before
  have quiet : ∀ m < 38, ¬ Trims ρ m := by
    intro m hm
    have h := List.all_eq_true.1 (show ((List.range 38).all fun m =>
      reached exec (initial ()) insertBoth m fun s =>
        !(List.range 2).any fun t => trimming s t) = true by decide +kernel) m (List.mem_range.2 hm)
    have := hρ.holds m h
    exact not_trims (hfew m (hm.le.trans (by rw [hlen]; decide))).1 (Bool.eq_false_of_not_eq_true' this)
  obtain ⟨⟨h3, h2⟩, h38⟩ := of_decide_eq_true linked
  have l3 : (ρ.state 38).store.heap.Linked 3 := (Heap.Reach.refl head).tail h3
  have n38 : 38 ≤ ρ.length := by rw [hlen]; decide
  have i38 := idle 38 n38 h38
  have i55 := idle ρ.length le_rfl (hlen ▸ of_decide_eq_true done)
  refine ⟨ρ, 3, 2, by decide, ⟨l3, by decide, by decide⟩, ⟨l3.tail h2, by decide, by decide⟩, i38,
    (softList_gives_back ρ n38 i38).2 quiet, i55, fun hb => ?_⟩
  have n52 : 52 < ρ.length := by rw [hlen]; decide
  exact (softList_gives_back ρ le_rfl i55).1 hb 52 n52
    (trims_of n52 (exec_tau (hρ.command (c := .step 1 0) rfl)) trim)

end SOFT.List
