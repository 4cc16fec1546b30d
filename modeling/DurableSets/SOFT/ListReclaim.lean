import DurableSets.SOFT.ListMemory

namespace SOFT.List.Memory

open Chain Ssmem

variable {V : Type} {σ σ' : Store V} {b b' : List.State V} {tsList : List Tid} {s s' : State V}
  {t u : Tid} {op : SetOp V} {pc pc' : Pc} {slot : ℕ} {x n : Loc} {p : PLoc} {e : Event (SetOp V)}

def Pins (b : List.State V) (t : Tid) (p : PLoc) : Prop :=
  ∃ op pc x, b.thread t = some (op, pc) ∧ pc.writes = some x ∧ (b.store.node x).pptr = some p

theorem flow_writes (f : Flow σ op pc pc') (hw : pc'.writes = some x) :
    pc.writes = some x ∨ ((σ.node x).next.state ≠ .deleted ∧ ∃ d st, pc = .findLoad d st x) ∨
      (pc' = .createStart true x ∧ pc.owns = some x) := by
  cases f with
  | @findStop d c st pc' alive le h =>
    right
    left
    cases op with
    | insert k v =>
      simp only [afterFind] at h
      split at h
      · split at h
        · obtain rfl := Option.some.inj h
          cases hw
        · obtain rfl := Option.some.inj h
          obtain rfl : c = x := Option.some.inj hw
          exact ⟨alive, d, st, rfl⟩
      · obtain rfl := Option.some.inj h
        cases hw
    | remove k =>
      simp only [afterFind] at h
      split at h
      · obtain rfl := Option.some.inj h
        cases hw
      · split at h
        · obtain rfl := Option.some.inj h
          cases hw
        · obtain rfl := Option.some.inj h
          obtain rfl : c = x := Option.some.inj hw
          exact ⟨alive, d, st, rfl⟩
    | contains k => cases h
  | @linkWon d c n st p h =>
    obtain rfl : n = x := Option.some.inj hw
    exact Or.inr (Or.inr ⟨rfl, rfl⟩)
  | @trimLost c d n st q => cases c <;> cases hw
  | @trimFree c d n st => cases c <;> cases hw
  | _ => first | exact Or.inl hw | cases hw

theorem findLoad_store {d c : Loc} {st : NodeState}
    (hn : next σ op slot (.findLoad d st c) = some (σ', pc')) : σ' = σ := by
  simp only [next] at hn
  grind [Option.map_eq_some_iff]

theorem writes_new (hi : List.Inv b) (ht : b.thread t = some (op, pc))
    (hn : next b.store op slot pc = some (σ, pc'))
    (ok : Steps b.store b.roots b.writers op pc σ pc') (hw : pc'.writes = some x) :
    pc.writes = some x ∨ InList σ x := by
  obtain ⟨R', W', ok⟩ := ok
  have hm := ok.effect.memInv hi.mem
  have hown := ok.fit.writes x hw
  rcases flow_writes (flow_of_next hn) hw with h | ⟨hd, d, st, rfl⟩ | ⟨rfl, ho⟩
  · exact Or.inl h
  · right
    obtain rfl := findLoad_store hn
    exact hm.inList_of_alive hown hd
  · right
    rcases ok.refs x (by simp [Pc.refs]) with ⟨q, hq, hr⟩ | ⟨hl, _⟩
    · exact absurd (live_of_refs hi.mem (hi.fit ht) ⟨q, hq, hr⟩) ((hi.fit ht).owned x ho).1
    · exact ⟨hl, hm.owner_ne hown⟩

theorem pptr_kept (hi : List.Inv b)
    (ok : Steps b.store b.roots b.writers op pc σ pc') {op1 : SetOp V} {pc1 : Pc}
    (hu : b.thread u = some (op1, pc1)) (hw : pc1.writes = some x) :
    (σ.node x).pptr = (b.store.node x).pptr := by
  obtain ⟨R', W', ok⟩ := ok
  exact ((ok.effect.kept hi.mem).evolves
    (hi.mem.owner_live (Or.inr (mem_writers hu hw)))).pptr

theorem pins_step (hi : List.Inv b) (hs : List.Step b e b') (hav : b'.store.pavail p = true)
    (h : Pins b' t p) : Pins b t p := by
  have hi' := hi.step hs
  obtain ⟨op1, pc1, x, hu, hw, hx⟩ := h
  cases hs with
  | call v op idle hk =>
    by_cases he : t = v
    · subst he
      rw [goto_thread_self] at hu
      obtain ⟨rfl, rfl⟩ := Prod.mk.inj (Option.some.inj hu)
      exact absurd ((start_quiet _).1.symm.trans hw) nofun
    · rw [goto_thread_other _ _ _ he] at hu
      exact ⟨op1, pc1, x, hu, hw, hx⟩
  | ret v op r ht =>
    by_cases he : t = v
    · subst he
      rw [goto_thread_self] at hu
      cases hu
    · rw [goto_thread_other _ _ _ he] at hu
      exact ⟨op1, pc1, x, hu, hw, hx⟩
  | tau v op pc pc' slot σ ht hn hp ha =>
    have ok := tau_ok hi ht hn hp ha
    by_cases he : t = v
    · subst he
      rw [goto_thread_self] at hu
      obtain ⟨rfl, rfl⟩ := Prod.mk.inj (Option.some.inj hu)
      rcases writes_new hi ht hn ok hw with hw | hin
      · exact ⟨op, pc, x, ht, hw, (pptr_kept hi ok ht hw).symm.trans hx⟩
      · exact absurd ((hi'.mem.pnode.taken hin hx).symm.trans hav) Bool.false_ne_true
    · rw [goto_thread_other _ _ _ he] at hu
      exact ⟨op1, pc1, x, hu, hw, (pptr_kept hi ok hu hw).symm.trans hx⟩

structure Inv (tsList : List Tid) (s : State V) : Prop where
  base : List.Inv s.base
  threads : ∀ {t op pc}, s.base.thread t = some (op, pc) → t ∈ tsList
  alloc : s.alloc.Inv tsList s.version (fun p => s.base.store.pavail p = true) (Pins s.base)
  volatileAlloc : s.volatileAlloc.Inv tsList s.version (fun x => s.base.store.avail x = true)
    fun _ _ => False

theorem Inv.recyclable {P : Pool PLoc} (h : Inv tsList s)
    (ha : s.alloc.alloc t p = some P) : s.base.Recyclable p := by
  obtain ⟨hav, hpin, _⟩ := h.alloc.alloc ha
  exact ⟨hav, fun u op pc x hu hw hx => hpin u ⟨op, pc, x, hu, hw, hx⟩⟩

theorem Inv.base_tau (h : Inv tsList s) (ht : s.base.thread t = some (op, pc))
    (hn : next s.base.store op slot pc = some (σ, pc'))
    (hr : s.serve tsList t slot (request s.base.store pc) = some s') :
    List.Step s.base (.tau t) (s.base.goto σ t (some (op, pc'))) := by
  refine List.Step.tau t op pc pc' slot σ ht hn ?_ ?_
  · rintro d st c rfl
    obtain ⟨P, ha, _⟩ := Option.map_eq_some_iff.1 hr
    exact h.recyclable ha
  · rintro d st c q v rfl
    obtain ⟨P, ha, _⟩ := Option.map_eq_some_iff.1 hr
    exact (h.volatileAlloc.alloc ha).1

theorem released (hi : List.Inv b) (ht : b.thread t = some (op, pc))
    (hr : request b.store pc = some (.free p)) : b.store.pavail p = false := by
  have f := hi.fit ht
  cases pc with
  | trimFree c d st n =>
    obtain ⟨q, hq, he⟩ := Option.map_eq_some_iff.1 hr
    obtain rfl : q = p := by injection he
    exact (f.retired n rfl).2.2 q hq
  | lostPNode q =>
    obtain rfl : q = p := by
      have he := Option.some.inj hr
      injection he
    exact (f.ownedP q rfl).2
  | _ => cases hr

theorem released_volatile (hi : List.Inv b) (ht : b.thread t = some (op, pc))
    (hr : request b.store pc = some (.volatileFree n)) : b.store.avail n = false := by
  cases pc with
  | trimFree c d st m =>
    obtain ⟨q, _, he⟩ := Option.map_eq_some_iff.1 hr
    cases he
  | lostNode m q =>
    obtain rfl : m = n := by
      have he := Option.some.inj hr
      injection he
    exact ((hi.fit ht).owned m rfl).2
  | _ => cases hr

theorem quiet_of_free {r : Request} (hn : next σ op slot pc = some (σ', pc'))
    (hr : request σ pc = some r) (ha : r ≠ .alloc) (hv : r ≠ .volatileAlloc) :
    pc'.writes = none := by
  cases pc with
  | trimFree c d st n =>
    simp only [next] at hn
    obtain ⟨q, _, he⟩ := Option.map_eq_some_iff.1 hn
    obtain ⟨_, rfl⟩ := Prod.mk.inj he
    cases c <;> rfl
  | lostNode n q =>
    obtain ⟨_, rfl⟩ := Prod.mk.inj (Option.some.inj hn)
    rfl
  | lostPNode q =>
    obtain ⟨_, rfl⟩ := Prod.mk.inj (Option.some.inj hn)
    rfl
  | allocPNode d st c => exact absurd (Option.some.inj hr).symm ha
  | allocNode d st c q v => exact absurd (Option.some.inj hr).symm hv
  | _ => cases hr

theorem Inv.step_tau (h : Inv tsList s) (ht : s.base.thread t = some (op, pc))
    (hn : next s.base.store op slot pc = some (σ, pc'))
    (hr : s.serve tsList t slot (request s.base.store pc) = some s') :
    Inv tsList { s' with base := s.base.goto σ t (some (op, pc')) } := by
  have hs := h.base_tau ht hn hr
  obtain ⟨hpav, hav⟩ := next_avail hn
  have hth : ∀ {u op1 pc1}, (s.base.goto σ t (some (op, pc'))).thread u = some (op1, pc1) →
      u ∈ tsList := by
    intro u op1 pc1 hu
    by_cases he : u = t
    · rw [he]
      exact h.threads ht
    · rw [goto_thread_other _ _ _ he] at hu
      exact h.threads hu
  have hin : ∀ u p, Pins (s.base.goto σ t (some (op, pc'))) u p → u ∈ tsList :=
    fun u p ⟨_, _, _, hu, _⟩ => hth hu
  have hquiet : pc'.writes = none → ∀ p, ¬ Pins (s.base.goto σ t (some (op, pc'))) t p := by
    rintro hw p ⟨op1, pc1, x, hu, hx, _⟩
    rw [goto_thread_self] at hu
    obtain ⟨rfl, rfl⟩ := Prod.mk.inj (Option.some.inj hu)
    exact absurd (hw.symm.trans hx) nofun
  have hkeep : ∀ u p, (s.base.goto σ t (some (op, pc'))).store.pavail p = true →
      Pins (s.base.goto σ t (some (op, pc'))) u p → Pins s.base u p :=
    fun _ _ hp => pins_step h.base hs hp
  refine ⟨h.base.step hs, hth, ?_, ?_⟩
  · cases hreq : request s.base.store pc with
    | none =>
      rw [hreq] at hr hpav
      obtain rfl := Option.some.inj hr
      exact h.alloc.keep_step (fun p hp => (congrFun hpav p).trans hp) hkeep
    | some r =>
      rw [hreq] at hr hpav
      cases r with
      | alloc =>
        obtain ⟨P, ha, rfl⟩ := Option.map_eq_some_iff.1 hr
        refine h.alloc.alloc_step ha (fun p hp hne => ?_) hkeep
        exact (congrFun hpav p).trans ((Function.update_of_ne hne _ _).trans hp)
      | volatileAlloc =>
        obtain ⟨P, _, rfl⟩ := Option.map_eq_some_iff.1 hr
        exact h.alloc.keep_step (fun p hp => (congrFun hpav p).trans hp) hkeep
      | free q =>
        obtain ⟨P, hf, rfl⟩ := Option.map_eq_some_iff.1 hr
        have hq := released h.base ht hreq
        have hw := quiet_of_free hn hreq nofun nofun
        refine h.alloc.free_step hf (h.threads ht) hin (by simp [hq]) ?_ (fun p hp => ?_) hkeep
          fun p hp => absurd hp (hquiet hw p)
        · exact (congrFun hpav q).trans (Function.update_self _ _ _)
        · refine (congrFun hpav p).trans ?_
          by_cases he : p = q <;> simp [he, hp]
      | volatileFree n =>
        obtain ⟨P, _, rfl⟩ := Option.map_eq_some_iff.1 hr
        have hw := quiet_of_free hn hreq nofun nofun
        exact (h.alloc.keep_step (fun p hp => (congrFun hpav p).trans hp) hkeep).tick
          fun p hp => absurd hp (hquiet hw p)
  · cases hreq : request s.base.store pc with
    | none =>
      rw [hreq] at hr hav
      obtain rfl := Option.some.inj hr
      exact h.volatileAlloc.keep_step (fun x hx => (congrFun hav x).trans hx) fun _ _ _ => id
    | some r =>
      rw [hreq] at hr hav
      cases r with
      | alloc =>
        obtain ⟨P, _, rfl⟩ := Option.map_eq_some_iff.1 hr
        exact h.volatileAlloc.keep_step (fun x hx => (congrFun hav x).trans hx) fun _ _ _ => id
      | volatileAlloc =>
        obtain ⟨P, ha, rfl⟩ := Option.map_eq_some_iff.1 hr
        refine h.volatileAlloc.alloc_step ha (fun x hx hne => ?_) fun _ _ _ => id
        exact (congrFun hav x).trans ((Function.update_of_ne hne _ _).trans hx)
      | free q =>
        obtain ⟨P, _, rfl⟩ := Option.map_eq_some_iff.1 hr
        exact (h.volatileAlloc.keep_step (fun x hx => (congrFun hav x).trans hx)
          fun _ _ _ => id).tick fun _ => False.elim
      | volatileFree n =>
        obtain ⟨P, hf, rfl⟩ := Option.map_eq_some_iff.1 hr
        have hq := released_volatile h.base ht hreq
        refine h.volatileAlloc.free_step hf (h.threads ht) (fun _ _ => False.elim) (by simp [hq]) ?_
          (fun x hx => ?_) (fun _ _ _ => id) fun _ => False.elim
        · exact (congrFun hav n).trans (Function.update_self _ _ _)
        · refine (congrFun hav x).trans ?_
          by_cases he : x = n <;> simp [he, hx]

theorem Inv.step_collect (h : Inv tsList s) {r : Option Request}
    (hc : s.collect t r = some s') : Inv tsList s' := by
  cases r with
  | none => cases hc
  | some r =>
    cases r with
    | alloc => cases hc
    | volatileAlloc => cases hc
    | free q =>
      obtain ⟨P, hP, rfl⟩ := Option.map_eq_some_iff.1 hc
      exact ⟨h.base, h.threads, h.alloc.collect hP, h.volatileAlloc⟩
    | volatileFree n =>
      obtain ⟨P, hP, rfl⟩ := Option.map_eq_some_iff.1 hc
      exact ⟨h.base, h.threads, h.alloc, h.volatileAlloc.collect hP⟩

theorem Inv.step_boundary (h : Inv tsList s) (hs : List.Step s.base e b)
    (hth : ∀ {u op pc}, b.thread u = some (op, pc) → u ∈ tsList)
    (hb : b.store = s.base.store) : Inv tsList { s with base := b } := by
  refine ⟨h.base.step hs, hth, ?_, ?_⟩
  · exact h.alloc.keep_step (fun p hp => by rw [hb]; exact hp)
      fun u p hp => pins_step h.base hs hp
  · exact h.volatileAlloc.keep_step (fun x hx => by rw [hb]; exact hx) fun _ _ _ => id

theorem Inv.step (h : Inv tsList s) (hs : Step tsList s e s') : Inv tsList s' := by
  cases hs with
  | call t op b ht hs =>
    refine h.step_boundary hs (fun {u op1 pc1} hu => ?_) (by cases hs; rfl)
    by_cases he : u = t
    · exact he ▸ ht
    · exact h.threads (((List.machine V).step_other hs he).symm.trans hu)
  | ret t r b hs =>
    refine h.step_boundary hs (fun {u op1 pc1} hu => ?_) (by cases hs; rfl)
    have hidle : b.thread t = none := ((List.machine V).step_ret hs).2
    by_cases he : u = t
    · rw [he, hidle] at hu
      cases hu
    · exact h.threads (((List.machine V).step_other hs he).symm.trans hu)
  | tau t op pc pc' slot σ s' ht hn hr => exact h.step_tau ht hn hr
  | collect t op pc s' ht hc => exact h.step_collect hc

theorem inv_initial (zero : V) (fsSize volatileFsSize : Tid → ℕ) :
    Inv tsList (initial tsList zero fsSize volatileFsSize) := by
  refine ⟨List.inv_initial zero, fun h => (nomatch h), ?_, ?_⟩
  · refine Pool.inv_init (fun _ _ => rfl) fun p _ t hp => ?_
    obtain ⟨op, pc, x, ht, _⟩ := hp
    cases ht
  · exact Pool.inv_init (fun x hx => hx) fun _ _ _ => id

theorem inv_run (ρ : Run (machine V tsList)) : ∀ n ≤ ρ.length, Inv tsList (ρ.state n) := by
  refine ρ.invariant ?_ fun _ _ _ h hs => h.step hs
  rintro s ⟨zero, fsSize, volatileFsSize, _, rfl⟩
  exact inv_initial zero fsSize volatileFsSize

variable {ρ : Run (machine V tsList)} {i j k m : ℕ}

theorem Inv.base_step (h : Inv tsList s) (hs : Step tsList s e s') :
    s'.base = s.base ∨ List.Step s.base e s'.base := by
  cases hs with
  | call t op b ht hs => exact Or.inr hs
  | ret t r b hs => exact Or.inr hs
  | tau t op pc pc' slot σ s' ht hn hr => exact Or.inr (h.base_tau ht hn hr)
  | collect t op pc s' ht hc => exact Or.inl (collect_base hc).1

theorem tau_of_change (hs : Step tsList s e s') (h : s.base.thread t = some (op, pc))
    (h' : s'.base.thread t = some (op, pc')) (hne : pc' ≠ pc) :
    ∃ slot σ s1, next s.base.store op slot pc = some (σ, pc') ∧
      s.serve tsList t slot (request s.base.store pc) = some s1 ∧
      s'.base = s.base.goto σ t (some (op, pc')) := by
  have hsame : s'.base.thread t ≠ s.base.thread t := by
    rw [h, h']
    intro he
    exact hne (Prod.mk.inj (Option.some.inj he)).2
  have htid : t = e.tid := by
    by_contra hn
    exact hsame ((machine V tsList).step_other hs hn)
  cases hs with
  | call u op1 b ht hs =>
    obtain rfl : t = u := htid
    have hidle : s.base.thread t = none := ((List.machine V).step_call hs).1
    exact absurd (hidle.symm.trans h) nofun
  | ret u r b hs =>
    obtain rfl : t = u := htid
    have hidle : b.thread t = none := ((List.machine V).step_ret hs).2
    exact absurd (hidle.symm.trans h') nofun
  | tau u op1 pc1 pc2 slot σ s1 h1 hn hr =>
    obtain rfl : t = u := htid
    obtain ⟨rfl, rfl⟩ := Prod.mk.inj (Option.some.inj (h.symm.trans h1))
    rw [goto_thread_self] at h'
    obtain ⟨_, rfl⟩ := Prod.mk.inj (Option.some.inj h')
    exact ⟨slot, σ, s1, hn, hr, rfl⟩
  | collect u op1 pc1 s1 h1 hc => exact absurd (by rw [(collect_base hc).1]) hsame

def AllocsPNode (ρ : Run (machine V tsList)) (m : ℕ) (p : PLoc) : Prop :=
  m < ρ.length ∧ ∃ t op pred st curr,
    (ρ.state m).base.thread t = some (op, .allocPNode pred st curr) ∧
    (ρ.state (m + 1)).base.thread t = some (op, .pnodeAlloc pred st curr p)

def AllocsNode (ρ : Run (machine V tsList)) (m : ℕ) (x : Loc) : Prop :=
  m < ρ.length ∧ ∃ t op pred st curr p v,
    (ρ.state m).base.thread t = some (op, .allocNode pred st curr p v) ∧
    (ρ.state (m + 1)).base.thread t = some (op, .initNode pred st curr x p v)

def FreesPNode (ρ : Run (machine V tsList)) (m : ℕ) (p : PLoc) : Prop :=
  m < ρ.length ∧ ∃ t op pc pc', (ρ.state m).base.thread t = some (op, pc) ∧
    (ρ.state (m + 1)).base.thread t = some (op, pc') ∧ pc' ≠ pc ∧
    request (ρ.state m).base.store pc = some (.free p)

theorem AllocsPNode.recyclable (h : AllocsPNode ρ m p) : (ρ.state m).base.Recyclable p := by
  obtain ⟨hm, t, op, d, st, c, h1, h2⟩ := h
  obtain ⟨slot, σ, s1, hn, hr, _⟩ := tau_of_change (ρ.step hm) h1 h2 nofun
  obtain ⟨_, hpc⟩ := Prod.mk.inj (Option.some.inj hn)
  obtain rfl : slot = p := by
    injection hpc
  obtain ⟨P, ha, _⟩ := Option.map_eq_some_iff.1 hr
  exact (inv_run ρ m hm.le).recyclable ha

theorem AllocsNode.avail (h : AllocsNode ρ m x) : (ρ.state m).base.store.avail x = true := by
  obtain ⟨hm, t, op, d, st, c, p, v, h1, h2⟩ := h
  obtain ⟨slot, σ, s1, hn, hr, _⟩ := tau_of_change (ρ.step hm) h1 h2 nofun
  obtain ⟨_, hpc⟩ := Prod.mk.inj (Option.some.inj hn)
  obtain rfl : slot = x := by
    injection hpc
  obtain ⟨P, ha, _⟩ := Option.map_eq_some_iff.1 hr
  exact ((inv_run ρ m hm.le).volatileAlloc.alloc ha).1

theorem FreesPNode.pavail (h : FreesPNode ρ m p) :
    (ρ.state m).base.store.pavail p = false ∧ (ρ.state (m + 1)).base.store.pavail p = true := by
  obtain ⟨hm, t, op, pc, pc', h1, h2, hne, hreq⟩ := h
  obtain ⟨slot, σ, s1, hn, hr, hb⟩ := tau_of_change (ρ.step hm) h1 h2 hne
  refine ⟨released (inv_run ρ m hm.le).base h1 hreq, ?_⟩
  rw [hb]
  have hpav := (next_avail hn).1
  rw [hreq] at hpav
  exact (congrFun hpav p).trans (Function.update_self _ _ _)

theorem request_alloc (h : request σ pc = some .alloc) : ∃ d st c, pc = .allocPNode d st c := by
  cases pc with
  | allocPNode d st c => exact ⟨d, st, c, rfl⟩
  | trimFree c d st n =>
    obtain ⟨q, _, he⟩ := Option.map_eq_some_iff.1 h
    cases he
  | _ => cases h

theorem alloc_of_taken (hs : Step tsList s e s') (h1 : s.base.store.pavail p = true)
    (h2 : s'.base.store.pavail p = false) : ∃ t op d st c,
      s.base.thread t = some (op, .allocPNode d st c) ∧
      s'.base.thread t = some (op, .pnodeAlloc d st c p) := by
  have hno : s'.base.store.pavail p ≠ s.base.store.pavail p := by
    rw [h1, h2]
    exact Bool.false_ne_true
  cases hs with
  | call t op b ht hs =>
    cases hs
    exact absurd rfl hno
  | ret t r b hs =>
    cases hs
    exact absurd rfl hno
  | tau t op pc pc' slot σ s1 ht hn hr =>
    have hpav := (next_avail hn).1
    have hsame : σ.pavail p ≠ s.base.store.pavail p := hno
    cases hreq : request s.base.store pc with
    | none =>
      rw [hreq] at hpav
      exact absurd (congrFun hpav p) hsame
    | some r =>
      rw [hreq] at hpav
      cases r with
      | alloc =>
        obtain ⟨d, st, c, rfl⟩ := request_alloc hreq
        obtain ⟨rfl, rfl⟩ := Prod.mk.inj (Option.some.inj hn)
        obtain rfl : p = slot := by
          by_contra hne
          exact hsame (Function.update_of_ne hne _ _)
        exact ⟨t, op, d, st, c, ht, goto_thread_self _ _ _ _⟩
      | free q =>
        by_cases he : p = q
        · subst he
          have hp : σ.pavail p = true := (congrFun hpav p).trans (Function.update_self _ _ _)
          exact absurd (hp.trans h1.symm) hsame
        · exact absurd ((congrFun hpav p).trans (Function.update_of_ne he _ _)) hsame
      | volatileAlloc => exact absurd (congrFun hpav p) hsame
      | volatileFree n => exact absurd (congrFun hpav p) hsame
  | collect t op pc s1 ht hc => exact absurd (by rw [(collect_base hc).1]) hno

theorem alloc_between (hij : i ≤ j) (hj : j ≤ ρ.length)
    (h1 : (ρ.state i).base.store.pavail p = true)
    (h2 : (ρ.state j).base.store.pavail p = false) : ∃ m, i ≤ m ∧ m < j ∧ AllocsPNode ρ m p := by
  induction j, hij using Nat.le_induction with
  | base => exact absurd (h1.symm.trans h2) nofun
  | succ j hij ih =>
    cases hp : (ρ.state j).base.store.pavail p with
    | true => exact ⟨j, hij, by omega, hj, alloc_of_taken (ρ.step (by omega)) hp h2⟩
    | false =>
      obtain ⟨m, h3, h4, h5⟩ := ih (by omega) hp
      exact ⟨m, h3, by omega, h5⟩

structure Retired (b : List.State V) (x : Loc) : Prop where
  used : Used b x
  deleted : (b.store.node x).next.state = .deleted
  unlinked : ¬ InList b.store x
  unwritten : ∀ t op pc, b.thread t = some (op, pc) → pc.writes ≠ some x

theorem Retired.step (h : Retired b x) (hi : List.Inv b) (hs : List.Step b e b') :
    Retired b' x := by
  have hd : (b'.store.node x).next.state = .deleted := by
    rw [(h.used.evolves hi hs).next h.deleted]
    exact h.deleted
  have hin : ¬ InList b'.store x := by
    intro hin
    rcases hi.joins hs hin with hx | ⟨hst, _⟩
    · exact h.unlinked hx
    · exact absurd (hd.symm.trans hst) nofun
  refine ⟨h.used.step hi hs, hd, hin, fun u op1 pc1 hu hw => ?_⟩
  have keep : u ≠ e.tid → False := fun he =>
    h.unwritten u op1 pc1 (((List.machine V).step_other hs he).symm.trans hu) hw
  cases hs with
  | call t op idle hk =>
    by_cases he : u = t
    · subst he
      rw [goto_thread_self] at hu
      obtain ⟨rfl, rfl⟩ := Prod.mk.inj (Option.some.inj hu)
      exact absurd ((start_quiet _).1.symm.trans hw) nofun
    · exact keep he
  | ret t op r ht =>
    by_cases he : u = t
    · subst he
      rw [goto_thread_self] at hu
      cases hu
    · exact keep he
  | tau t op pc pc' slot σ ht hn hp ha =>
    by_cases he : u = t
    · subst he
      rw [goto_thread_self] at hu
      obtain ⟨rfl, rfl⟩ := Prod.mk.inj (Option.some.inj hu)
      rcases writes_new hi ht hn (tau_ok hi ht hn hp ha) hw with hw | hx
      · exact h.unwritten u op pc ht hw
      · exact hin hx
    · exact keep he

theorem joined_step (hi : List.Inv b) (hs : b' = b ∨ List.Step b e b') (hu : Used b x)
    (h : InList b.store x ∨ (b.store.node x).next.state = .deleted) :
    Used b' x ∧ (InList b'.store x ∨ (b'.store.node x).next.state = .deleted) := by
  rcases hs with rfl | hs
  · exact ⟨hu, h⟩
  · refine ⟨hu.step hi hs, ?_⟩
    rcases h with h | hd
    · exact hi.stays hs h
    · right
      rw [(hu.evolves hi hs).next hd]
      exact hd

theorem joined_later (hkm : k ≤ m) (hm : m ≤ ρ.length) (h : InList (ρ.state k).base.store x) :
    Used (ρ.state m).base x ∧ (InList (ρ.state m).base.store x ∨
      ((ρ.state m).base.store.node x).next.state = .deleted) := by
  induction m, hkm using Nat.le_induction with
  | base => exact ⟨(inv_run ρ k hm).base.used h, Or.inl h⟩
  | succ m hkm ih =>
    obtain ⟨hu, hx⟩ := ih (by omega)
    have hi := inv_run ρ m (by omega)
    exact joined_step hi.base (hi.base_step (ρ.step (by omega))) hu hx

theorem retired_later (hnm : n ≤ m) (hm : m ≤ ρ.length) (h : Retired (ρ.state n).base x) :
    Retired (ρ.state m).base x := by
  induction m, hnm using Nat.le_induction with
  | base => exact h
  | succ m hnm ih =>
    have hr := ih (by omega)
    have hi := inv_run ρ m (by omega)
    rcases hi.base_step (ρ.step (by omega)) with he | hs
    · rw [he]
      exact hr
    · exact hr.step hi.base hs

structure Safe (ρ : Run (machine V tsList)) : Prop where
  -- between two calls of ssmem_free on a PNode, ssmem_alloc returns it
  freed_once : ∀ {i j p}, i < j → FreesPNode ρ i p → FreesPNode ρ j p →
    ∃ m, i < m ∧ m < j ∧ AllocsPNode ρ m p
  -- a PNode that is handed out belongs to no running call, as its new one or by its node
  unused : ∀ {m p}, AllocsPNode ρ m p → ∀ t op pc, (ρ.state m).base.thread t = some (op, pc) →
    pc.ownsP ≠ some p ∧
      ∀ x, pc.writes = some x → ((ρ.state m).base.store.node x).pptr ≠ some p
  -- and nothing is written to it any more for a node it belonged to
  never_written : ∀ {k m n p x}, AllocsPNode ρ m p → k ≤ m → InList (ρ.state k).base.store x →
    ((ρ.state m).base.store.node x).pptr = some p → m ≤ n → n ≤ ρ.length →
    ∀ t op pc, (ρ.state n).base.thread t = some (op, pc) → pc.writes ≠ some x
  -- a volatile node that was linked is not handed out
  never_again : ∀ {k m x}, AllocsNode ρ m x → k ≤ m → ¬ InList (ρ.state k).base.store x

theorem softList_reclaims_safely (tsList : List Tid) (ρ : Run (machine V tsList)) : Safe ρ where
  freed_once := by
    intro i j p hij hi hj
    obtain ⟨m, h1, h2, h3⟩ := alloc_between hij hj.1.le hi.pavail.2 hj.pavail.1
    exact ⟨m, h1, h2, h3⟩
  unused := by
    intro m p h t op pc ht
    have hrec := h.recyclable
    refine ⟨fun ho => ?_, fun x hw => hrec.2 t op pc x ht hw⟩
    have hi := inv_run ρ m h.1.le
    exact absurd (((hi.base.fit ht).ownedP p ho).2.symm.trans hrec.1) Bool.false_ne_true
  never_written := by
    intro k m n p x h hkm hx hp hmn hn
    have hrec := h.recyclable
    have hi := inv_run ρ m h.1.le
    obtain ⟨hused, hlist⟩ := joined_later hkm h.1.le hx
    have hout : ¬ InList (ρ.state m).base.store x := fun hin =>
      absurd ((hi.base.mem.pnode.taken hin hp).symm.trans hrec.1) Bool.false_ne_true
    exact (retired_later hmn hn ⟨hused, hlist.resolve_left hout, hout,
      fun t op pc ht hw => hrec.2 t op pc x ht hw hp⟩).unwritten
  never_again := by
    intro k m x h hkm hx
    exact absurd ((joined_later hkm h.1.le hx).1.1.symm.trans h.avail) Bool.false_ne_true

end SOFT.List.Memory
