import DurableSets.LinkFree.ListSchedule

namespace LinkFree.List.Memory

open Chain Ssmem

variable {V : Type} {σ σ' : Store V} {b b' : List.State V} {tsList : List Tid} {s s' : State V}
  {t u : Tid} {op : SetOp V} {pc pc' : Pc} {slot x y r n : Loc} {e : Event (SetOp V)}

def Pins (b : List.State V) (t : Tid) (x : Loc) : Prop :=
  ∃ op pc r, b.thread t = some (op, pc) ∧ r ∈ pc.refs ∧ b.store.heap.Reach r x

theorem not_linked_of_avail (hi : List.Inv b) (ht : b.thread t = some (op, pc))
    (ok : StepOk b.store b.roots op pc σ pc') (ha : σ.avail x = true) :
    ¬ b.store.heap.Linked x := by
  obtain ⟨R', e, f, _⟩ := ok
  intro hl
  cases hx : b.store.avail x with
  | true => exact (hi.mem.avail hx).2 hl
  | false =>
    by_cases hh : pc.holds = some x
    · rcases owns_of_holds hh with ho | ho
      · exact (hi.fit ht).fresh x ho (hi.mem.good.live_of_linked hl)
      · exact (hi.fit ht).retired x ho hl
    · exact absurd (((e.kept hi.mem).avail hh hx).symm.trans ha) Bool.false_ne_true

theorem reach_back {H H' : Heap Loc (WithBot ℤ)} {R : Set Loc} (g : H.Good R)
    (ch : Change H H' R) (hr : H.Live R r) (h : H'.Reach r x) : H.Reach r x ∨ H'.Linked x := by
  cases ch with
  | steady s => exact Or.inl ((s.reach hr).1 h)
  | splice p n c s =>
    rcases s.reach_or hr h with h | ⟨rfl, _⟩
    · exact Or.inl h
    · exact Or.inr ((s.linked g).2 (Or.inr rfl))
  | bypass p c d s => exact Or.inl (s.reach_of' hr h)

theorem pins_step (hi : List.Inv b) (hs : List.Step b e b') (hav : b'.store.avail x = true)
    (h : Pins b' t x) : Pins b t x := by
  have hi' := hi.step hs
  have hunl : ¬ b'.store.heap.Linked x := (hi'.mem.avail hav).2
  have ch := hi.change hs
  obtain ⟨op1, pc1, r, hu, hr, hx⟩ := h
  have keep : b.thread t = some (op1, pc1) → Pins b t x := by
    intro ht
    have hl : b.store.heap.Live b.roots r := Heap.Live.root (mem_roots ht hr)
    exact ⟨op1, pc1, r, ht, hr, (reach_back hi.mem.good ch hl hx).resolve_right hunl⟩
  have other : t ≠ e.tid → Pins b t x := fun he =>
    keep (((List.machine V).step_other hs he).symm.trans hu)
  cases hs with
  | call v op idle hk =>
    by_cases he : t = v
    · subst he
      rw [goto_thread_self] at hu
      obtain ⟨rfl, rfl⟩ := Prod.mk.inj (Option.some.inj hu)
      cases op <;> cases hr
    · exact other he
  | ret v op q m ht =>
    by_cases he : t = v
    · subst he
      rw [goto_thread_self] at hu
      cases hu
    · exact other he
  | tau v op pc pc' slot σ ht hn hs =>
    by_cases he : t = v
    · subst he
      rw [goto_thread_self] at hu
      obtain ⟨rfl, rfl⟩ := Prod.mk.inj (Option.some.inj hu)
      have ok := tau_ok hi ht hn hs
      rcases refs_step hn r hr with ⟨q, hq, hqr⟩ | ⟨p, c, rfl, hp⟩
      · rcases List.mem_cons.1 hq with rfl | hq
        · have hl : b.store.heap.Linked r := hqr
          rcases reach_back hi.mem.good ch (hi.mem.good.live_of_linked hl) hx with h | h
          · exact absurd (hl.trans h) (not_linked_of_avail hi ht ok hav)
          · exact absurd h hunl
        · have hl : b.store.heap.Live b.roots r :=
            (Heap.Live.root (mem_roots ht hq)).reach hqr
          have h := (reach_back hi.mem.good ch hl hx).resolve_right hunl
          exact ⟨op, pc, q, ht, hq, hqr.trans h⟩
      · have f := hi.fit ht
        obtain ⟨_, _, _, _, _, hnn⟩ := f.loc
        have sp := link_splice (f.refs p (by simp [Pc.refs])) hp (f.fresh r rfl) hnn
        simp only [next, if_pos hp] at hn
        obtain ⟨rfl, _⟩ := Prod.mk.inj (Option.some.inj hn)
        have hl := (sp.linked hi.mem.good).2 (Or.inr rfl)
        exact absurd (hl.trans hx) hunl
    · exact other he

structure Inv (tsList : List Tid) (s : State V) : Prop where
  base : List.Inv s.base
  threads : ∀ {t op pc}, s.base.thread t = some (op, pc) → t ∈ tsList
  alloc : s.alloc.Inv tsList s.version (fun x => s.base.store.avail x = true) (Pins s.base)

-- trim gives a node back in the middle of find, which goes on from prev and curr: nothing that
-- it can reach from there lies in a free set that has the version of this thread already
def FreeOk (s s' : State V) : Prop :=
  ∀ t op prev curr, s.base.thread t = some (op, .trimFree .inFind prev curr) →
    s'.base.thread t = some (op, .findNext prev curr) →
    ∀ r ∈ [prev, curr], ∀ x, s.base.store.heap.Reach r x → ¬ s.alloc.Stamped t x

theorem Inv.recyclable {P : Pool Loc} (h : Inv tsList s) (ha : s.alloc.alloc t x = some P) :
    s.base.Recyclable x := by
  obtain ⟨hav, hpin, _⟩ := h.alloc.alloc ha
  exact ⟨hav, fun u op pc hu r hr hx => hpin u ⟨op, pc, r, hu, hr, hx⟩⟩

theorem Inv.base_tau (h : Inv tsList s) (ht : s.base.thread t = some (op, pc))
    (hn : next s.base.store op slot pc = some (σ, pc'))
    (hr : s.serve tsList t slot (request pc) = some s') :
    List.Step s.base (.tau t) (s.base.goto σ t (some (op, pc'))) := by
  refine List.Step.tau t op pc pc' slot σ ht hn ?_
  rintro p c rfl
  obtain ⟨P, ha, _⟩ := Option.map_eq_some_iff.1 hr
  exact h.recyclable ha

theorem holds_of_request (hr : request pc = some (.free n)) : pc.holds = some n := by
  cases pc with
  | trimFree c d m =>
    have he := Option.some.inj hr
    injection he with he
    exact congrArg some he
  | lostFree m =>
    have he := Option.some.inj hr
    injection he with he
    exact congrArg some he
  | _ => cases hr

theorem pins_of_free (ht : b.thread t = some (op, pc))
    (hn : next b.store op slot pc = some (σ, pc')) (hr : request pc = some (.free n))
    (h : Pins (b.goto σ t (some (op, pc'))) t x) :
    ∃ prev, pc = .trimFree .inFind prev n ∧ pc' = .findNext prev n ∧
      ∃ r ∈ [prev, n], b.store.heap.Reach r x := by
  obtain ⟨op1, pc1, r, hu, hmem, hx⟩ := h
  rw [goto_thread_self] at hu
  obtain ⟨rfl, rfl⟩ := Prod.mk.inj (Option.some.inj hu)
  cases pc with
  | trimFree c d m =>
    have he := Option.some.inj hr
    injection he with he
    subst he
    obtain ⟨rfl, rfl⟩ := Prod.mk.inj (Option.some.inj hn)
    cases c with
    | inFind => exact ⟨d, rfl, rfl, r, hmem, hx⟩
    | inRemove => cases hmem
  | lostFree m =>
    obtain ⟨rfl, rfl⟩ := Prod.mk.inj (Option.some.inj hn)
    cases hmem
  | _ => cases hr

theorem threads_step (h : ∀ {u op pc}, s.base.thread u = some (op, pc) → u ∈ tsList)
    (hs : Step tsList s e s') (hu : s'.base.thread u = some (op, pc)) : u ∈ tsList := by
  by_cases he : u = e.tid
  · cases hs with
    | call t op b ht hs => exact he ▸ ht
    | ret t r b hs =>
      have hidle : b.thread t = none := ((List.machine V).step_ret hs).2
      obtain rfl : u = t := he
      exact absurd (hidle.symm.trans hu) nofun
    | tau t op pc pc' slot σ s1 ht hn hr => exact he ▸ h ht
    | collect t op pc s1 ht hc => exact he ▸ h ht
  · exact h (((machine V tsList).step_other hs he).symm.trans hu)

theorem Inv.step_tau (h : Inv tsList s) (ht : s.base.thread t = some (op, pc))
    (hn : next s.base.store op slot pc = some (σ, pc'))
    (hr : s.serve tsList t slot (request pc) = some s')
    (hok : FreeOk s { s' with base := s.base.goto σ t (some (op, pc')) }) :
    Inv tsList { s' with base := s.base.goto σ t (some (op, pc')) } := by
  have hs := h.base_tau ht hn hr
  have hav := next_avail hn
  have hth : ∀ {u op1 pc1}, (s.base.goto σ t (some (op, pc'))).thread u = some (op1, pc1) →
      u ∈ tsList := fun hu => threads_step h.threads (Step.tau t op pc pc' slot σ s' ht hn hr) hu
  have hkeep : ∀ u x, (s.base.goto σ t (some (op, pc'))).store.avail x = true →
      Pins (s.base.goto σ t (some (op, pc'))) u x → Pins s.base u x :=
    fun _ _ hx => pins_step h.base hs hx
  refine ⟨h.base.step hs, hth, ?_⟩
  cases hreq : request pc with
  | none =>
    rw [hreq] at hr hav
    obtain rfl := Option.some.inj hr
    exact h.alloc.keep_step (fun x hx => (congrFun hav x).trans hx) hkeep
  | some r =>
    rw [hreq] at hr hav
    cases r with
    | alloc =>
      obtain ⟨P, ha, rfl⟩ := Option.map_eq_some_iff.1 hr
      refine h.alloc.alloc_step ha (fun x hx hne => ?_) hkeep
      exact (congrFun hav x).trans ((Function.update_of_ne hne _ _).trans hx)
    | free n =>
      obtain ⟨P, hf, rfl⟩ := Option.map_eq_some_iff.1 hr
      have hheld := (h.base.fit ht).avail n (holds_of_request hreq)
      refine h.alloc.free_step hf (h.threads ht) (fun u _ ⟨_, _, _, hu, _⟩ => hth hu)
        (by simp [hheld]) ?_ (fun x hx => ?_) hkeep fun x hx => ?_
      · exact (congrFun hav n).trans (Function.update_self _ _ _)
      · refine (congrFun hav x).trans ?_
        by_cases he : x = n <;> simp [he, hx]
      · obtain ⟨prev, rfl, rfl, r, hmem, hrx⟩ := pins_of_free ht hn hreq hx
        exact hok t op prev n ht (goto_thread_self _ _ _ _) r hmem x hrx

theorem Inv.step (h : Inv tsList s) (hs : Step tsList s e s') (hok : FreeOk s s') :
    Inv tsList s' := by
  have hth : ∀ {u op pc}, s'.base.thread u = some (op, pc) → u ∈ tsList :=
    fun hu => threads_step h.threads hs hu
  have idle : ∀ {b}, List.Step s.base e b → b.store = s.base.store →
      s.alloc.Inv tsList s.version (fun x => b.store.avail x = true) (Pins b) := fun hs hb =>
    h.alloc.keep_step (fun x hx => by rw [hb]; exact hx) fun _ _ hx => pins_step h.base hs hx
  cases hs with
  | call t op b ht hs => exact ⟨h.base.step hs, hth, idle hs (by cases hs; rfl)⟩
  | ret t r b hs => exact ⟨h.base.step hs, hth, idle hs (by cases hs; rfl)⟩
  | tau t op pc pc' slot σ s' ht hn hr => exact h.step_tau ht hn hr hok
  | collect t op pc s' ht hc =>
    cases hreq : request pc with
    | none =>
      rw [hreq] at hc
      cases hc
    | some r =>
      rw [hreq] at hc
      cases r with
      | alloc => cases hc
      | free n =>
        obtain ⟨P, hP, rfl⟩ := Option.map_eq_some_iff.1 hc
        exact ⟨h.base, h.threads, h.alloc.collect hP⟩

theorem inv_initial (zero : V) (junk : Uchar) (fsSize : Tid → ℕ) :
    Inv tsList (initial tsList zero junk fsSize) := by
  refine ⟨List.inv_initial zero junk, fun h => (nomatch h), ?_⟩
  refine Pool.inv_init (fun x hx => hx) fun x _ t hp => ?_
  obtain ⟨op, pc, r, ht, _⟩ := hp
  cases ht

theorem threads_run (ρ : Run (machine V tsList)) : ∀ n ≤ ρ.length, ∀ {u op pc},
    (ρ.state n).base.thread u = some (op, pc) → u ∈ tsList := by
  refine ρ.stepwise ?_ fun m hm h u op pc hu => threads_step h (ρ.step hm) hu
  intro u op pc hu
  have hidle : (ρ.state 0).base.thread u = none := (machine V tsList).init_idle ρ.init
  exact absurd (hidle.symm.trans hu) nofun

theorem inv_run (ρ : Run (machine V tsList))
    (hok : ∀ m < ρ.length, FreeOk (ρ.state m) (ρ.state (m + 1))) :
    ∀ n ≤ ρ.length, Inv tsList (ρ.state n) := by
  refine ρ.stepwise ?_ fun m hm h => h.step (ρ.step hm) (hok m hm)
  obtain ⟨zero, junk, fsSize, _, h⟩ := ρ.init
  rw [h]
  exact inv_initial zero junk fsSize

theorem tau_of_change (hs : Step tsList s e s') (h : s.base.thread t = some (op, pc))
    (h' : s'.base.thread t = some (op, pc')) (hne : pc' ≠ pc) :
    ∃ slot σ s1, next s.base.store op slot pc = some (σ, pc') ∧
      s.serve tsList t slot (request pc) = some s1 := by
  have hsame : s'.base.thread t ≠ s.base.thread t := by
    rw [h, h']
    intro he
    exact hne (Prod.mk.inj (Option.some.inj he)).2
  have htid : t = e.tid := by
    by_contra hn
    exact hsame ((machine V tsList).step_other hs hn)
  cases hs with
  | call u op1 b ht hs =>
    obtain rfl : t = u := htid
    have hidle : s.base.thread t = none := ((List.machine V).step_call hs).1
    exact absurd (hidle.symm.trans h) nofun
  | ret u r b hs =>
    obtain rfl : t = u := htid
    have hidle : b.thread t = none := ((List.machine V).step_ret hs).2
    exact absurd (hidle.symm.trans h') nofun
  | tau u op1 pc1 pc2 slot σ s1 h1 hn hr =>
    obtain rfl : t = u := htid
    obtain ⟨rfl, rfl⟩ := Prod.mk.inj (Option.some.inj (h.symm.trans h1))
    rw [goto_thread_self] at h'
    obtain ⟨_, rfl⟩ := Prod.mk.inj (Option.some.inj h')
    exact ⟨slot, σ, s1, hn, hr⟩
  | collect u op1 pc1 s1 h1 hc => exact absurd (by rw [collect_base hc]) hsame

def Allocs (ρ : Run (machine V tsList)) (m : ℕ) (t : Tid) (x : Loc) : Prop :=
  m < ρ.length ∧ ∃ op pred curr, (ρ.state m).base.thread t = some (op, .alloc pred curr) ∧
    (ρ.state (m + 1)).base.thread t = some (op, .flipLoad pred curr x)

theorem linkFreeList_reclaims_safely (ρ : Run (machine V tsList))
    (hok : ∀ m < ρ.length, FreeOk (ρ.state m) (ρ.state (m + 1))) {m : ℕ}
    (h : Allocs ρ m t x) (hu : (ρ.state m).base.thread u = some (op, pc)) : x ∉ pc.refs := by
  obtain ⟨hm, op1, p, c, h1, h2⟩ := h
  obtain ⟨slot, σ, s1, hn, hr⟩ := tau_of_change (ρ.step hm) h1 h2 nofun
  obtain ⟨_, hpc⟩ := Prod.mk.inj (Option.some.inj hn)
  obtain rfl : slot = x := by
    injection hpc
  obtain ⟨P, ha, _⟩ := Option.map_eq_some_iff.1 hr
  exact fun hx => ((inv_run ρ hok m hm.le).recyclable ha).2 u op pc hu slot hx (Heap.Reach.refl _)

inductive Command (V : Type) where
  | call (t : Tid) (op : SetOp V)
  | ret (t : Tid)
  | step (t : Tid) (slot : Loc)
  | collect (t : Tid)

def exec (tsList : List Tid) (s : State V) : Command V → Option (Event (SetOp V) × State V)
  | .call t op =>
    if t ∈ tsList ∧ (s.base.thread t).isNone ∧ op.key < INT_MAX then
      some (.call t op, { s with base := s.base.goto s.base.store t (some (op, start op)) })
    else none
  | .ret t =>
    match s.base.thread t with
    | some (_, .ret r _) => some (.ret t r, { s with base := s.base.goto s.base.store t none })
    | _ => none
  | .step t slot =>
    (s.base.thread t).bind fun c =>
      (next s.base.store c.1 slot c.2).bind fun r =>
        (s.serve tsList t slot (request c.2)).map fun s' =>
          (.tau t, { s' with base := s.base.goto r.1 t (some (c.1, r.2)) })
  | .collect t =>
    (s.base.thread t).bind fun c => (s.collect t (request c.2)).map fun s' => (.tau t, s')

theorem exec_step {c : Command V} (h : exec tsList s c = some (e, s')) : Step tsList s e s' := by
  cases c with
  | call t op =>
    simp only [exec] at h
    split at h
    · next hc =>
      obtain ⟨rfl, rfl⟩ := Prod.mk.inj (Option.some.inj h)
      exact Step.call t op _ hc.1 (List.Step.call t op (Option.isNone_iff_eq_none.1 hc.2.1) hc.2.2)
    · cases h
  | ret t =>
    simp only [exec] at h
    split at h
    · next op r n ht =>
      obtain ⟨rfl, rfl⟩ := Prod.mk.inj (Option.some.inj h)
      exact Step.ret t r _ (List.Step.ret t op r n ht)
    · cases h
  | step t slot =>
    obtain ⟨⟨op, pc⟩, ht, h⟩ := Option.bind_eq_some_iff.1 h
    obtain ⟨⟨σ, pc'⟩, hn, h⟩ := Option.bind_eq_some_iff.1 h
    obtain ⟨s1, hr, h⟩ := Option.map_eq_some_iff.1 h
    obtain ⟨rfl, rfl⟩ := Prod.mk.inj h
    exact Step.tau t op pc pc' slot σ s1 ht hn hr
  | collect t =>
    obtain ⟨⟨op, pc⟩, ht, h⟩ := Option.bind_eq_some_iff.1 h
    obtain ⟨s1, hc, h⟩ := Option.map_eq_some_iff.1 h
    obtain ⟨rfl, rfl⟩ := Prod.mk.inj h
    exact Step.collect t op pc s1 ht hc

def steps (t : Tid) (n : ℕ) (slot : Loc) : List (Command V) := List.replicate n (.step t slot)

-- a call that runs alone for n steps, with the slot it gets
def alone (t : Tid) (op : SetOp V) (n : ℕ) (slot : Loc) : List (Command V) :=
  [[.call t op], steps t n slot, [.ret t]].flatten

-- a remove of thread 1 that collects the versions of n threads before it frees its node
def removeCollecting (key : ℤ) (n : ℕ) : List (Command V) :=
  [[.call 1 (.remove key)], steps 1 10 0, List.replicate n (.collect 1), [.step 1 0, .ret 1]].flatten

-- thread 0 gives the node of 1 back and goes on to that of 2; thread 1 has freed this one and
-- stamped it before, and it removes 3 and 4 until the next stamp is newer
def staleFind : List (Command ℕ) :=
  [alone 1 (.insert 1 0) 16 2, alone 1 (.insert 2 0) 18 3, alone 1 (.insert 3 0) 20 4,
    alone 1 (.insert 4 0) 22 5, [.call 1 (.remove 1)], steps 1 9 0, [.call 0 (.insert 7 0)],
    steps 0 5 0, [.step 1 0, .ret 1], alone 1 (.remove 2) 11 0, removeCollecting 3 2, steps 0 2 0,
    removeCollecting 4 2, [.call 1 (.insert 9 0)], steps 1 3 3].flatten

theorem exists_play (tsList : List Tid) (zero : V) (ex : State V → Command V →
      Option (Event (SetOp V) × State V)) (hex : ∀ {s c r}, ex s c = some r → exec tsList s c = some r)
    (cs : List (Command V)) (h : (play ex (initial tsList zero 0 fun _ => 1) cs).isSome = true) :
    ∃ ρ : Run (machine V tsList), Plays ex (initial tsList zero 0 fun _ => 1) cs ρ := by
  obtain ⟨s', hs'⟩ := Option.isSome_iff_exists.1 h
  exact exists_run (I := fun _ => True) (fun _ h => ⟨exec_step (hex h), trivial⟩)
    ⟨zero, 0, fun _ => 1, fun _ => le_rfl, rfl⟩ trivial hs'

theorem linkFreeList_reclaims_early : ∃ (ρ : Run (machine ℕ [0, 1])) (m : ℕ),
    Allocs ρ m 1 3 ∧ (ρ.state m).base.thread 0 = some (.insert 7 0, .findTest head 3) := by
  obtain ⟨ρ, hρ⟩ := exists_play [0, 1] 0 (exec [0, 1]) id staleFind (by decide +kernel)
  have before := hρ.holds 150 (P := fun s =>
    s.base.thread 1 = some (.insert 9 0, .alloc head tail) ∧
      s.base.thread 0 = some (.insert 7 0, .findTest head 3)) (by decide +kernel)
  have after := hρ.holds 151 (P := fun s =>
    s.base.thread 1 = some (.insert 9 0, .flipLoad head tail 3)) (by decide +kernel)
  obtain ⟨h1, h0⟩ := of_decide_eq_true before
  exact ⟨ρ, 150, ⟨by rw [hρ.length]; decide +kernel, _, _, _, h1, of_decide_eq_true after⟩, h0⟩

theorem tid_mem (h : ∀ {u op pc}, s.base.thread u = some (op, pc) → u ∈ tsList)
    (hs : Step tsList s e s') : e.tid ∈ tsList := by
  cases hs with
  | call t op b ht hs => exact ht
  | ret t r b hs =>
    obtain ⟨⟨op, pc, ht⟩, _⟩ := (List.machine V).step_ret hs
    exact h ht
  | tau t op pc pc' slot σ s1 ht hn hr => exact h ht
  | collect t op pc s1 ht hc => exact h ht

theorem allocator_other (hs : Step tsList s e s') (hu : u ≠ e.tid) :
    s'.alloc.allocator u = s.alloc.allocator u := by
  have set : ∀ {a}, (s.alloc.setAllocator e.tid a).allocator u = s.alloc.allocator u :=
    Function.update_of_ne hu _ _
  cases hs with
  | call t op b ht hs => rfl
  | ret t r b hs => rfl
  | tau t op pc pc' slot σ s1 ht hn hr =>
    cases hq : request pc with
    | none =>
      rw [hq] at hr
      obtain rfl := Option.some.inj hr
      rfl
    | some q =>
      rw [hq] at hr
      cases q with
      | alloc =>
        obtain ⟨P, hP, rfl⟩ := Option.map_eq_some_iff.1 hr
        simp only [Pool.alloc] at hP
        split at hP
        · split at hP
          · obtain rfl := Option.some.inj hP
            rfl
          · cases hP
        · obtain ⟨r, _, hP⟩ := Option.bind_eq_some_iff.1 hP
          split at hP
          · obtain rfl := Option.some.inj hP
            exact set
          · cases hP
      | free n =>
        obtain ⟨P, hP, rfl⟩ := Option.map_eq_some_iff.1 hr
        obtain ⟨a, _, rfl⟩ := Option.map_eq_some_iff.1 hP
        exact set
  | collect t op pc s1 ht hc =>
    cases hq : request pc with
    | none =>
      rw [hq] at hc
      cases hc
    | some q =>
      rw [hq] at hc
      cases q with
      | alloc => cases hc
      | free n =>
        obtain ⟨P, hP, rfl⟩ := Option.map_eq_some_iff.1 hc
        obtain ⟨a, _, rfl⟩ := Option.map_eq_some_iff.1 hP
        exact set

theorem slots_run (ρ : Run (machine V tsList)) : ∀ n ≤ ρ.length, ∀ u ∉ tsList,
    ((ρ.state n).alloc.allocator u).slots = [] := by
  refine ρ.stepwise ?_ fun m hm h u hu => ?_
  · obtain ⟨zero, junk, fsSize, _, h⟩ := ρ.init
    rw [h]
    exact fun _ _ => rfl
  · rw [allocator_other (ρ.step hm)]
    · exact h u hu
    · rintro rfl
      exact hu (tid_mem (fun ht => threads_run ρ m hm.le ht) (ρ.step hm))

def stamped (a : Allocator Loc) (t : Tid) : List Loc :=
  (if a.pending.contains t then [] else a.freeSet.set) ++ a.fullSets.flatMap FreeSet.set

theorem mem_stamped {a : Allocator Loc} : x ∈ stamped a t ↔ a.Stamped t x := by
  by_cases h : t ∈ a.pending <;> simp [stamped, Allocator.Stamped, h]

def freeOk (s : State V) : Bool := [0, 1].all fun t =>
  match s.base.thread t with
  | some (_, .trimFree .inFind prev curr) => [prev, curr].all fun r =>
      decide ((Reuse.walk s.base 32 r).length < 32) && [0, 1].all fun u =>
        (stamped (s.alloc.allocator u) t).all fun x => !(Reuse.walk s.base 32 r).contains x
  | _ => true

theorem freeOk_sound {ρ : Run (machine V [0, 1])} {m : ℕ} (hm : m < ρ.length)
    (h : freeOk (ρ.state m) = true) : FreeOk (ρ.state m) (ρ.state (m + 1)) := by
  rintro t op prev curr ht _ r hr x hx ⟨u, hu⟩
  have hmem := mem_stamped.2 hu
  have ht' : t ∈ [0, 1] := threads_run ρ m hm.le ht
  have hu' : u ∈ [0, 1] := by
    by_contra hno
    have hs : x ∈ ((ρ.state m).alloc.allocator u).slots := Allocator.mem_slots.2 <| by
      rcases hu with ⟨h1, _⟩ | h1
      · exact Or.inl h1
      · exact Or.inr (Or.inl h1)
    rw [slots_run ρ m hm.le u hno] at hs
    cases hs
  have hc := List.all_eq_true.1 h t ht'
  simp only [ht] at hc
  have hc := List.all_eq_true.1 hc r hr
  rw [Bool.and_eq_true, decide_eq_true_eq] at hc
  have hno := List.all_eq_true.1 (List.all_eq_true.1 hc.2 u hu') x hmem
  simp [Reuse.walk_of_reach hc.1 hx] at hno

-- thread 0 trims the nodes of 1 and 4 in its finds and goes on; while it is in a contains(8),
-- thread 1 gets the slot that its remove of 2 has freed
def recycle : List (Command ℕ) :=
  [alone 1 (.insert 1 0) 16 2, alone 1 (.insert 2 0) 18 3, alone 1 (.insert 3 0) 20 4,
    alone 1 (.insert 4 0) 22 5, [.call 1 (.remove 1)], steps 1 9 0, [.call 0 (.insert 7 0)],
    steps 0 5 0, [.step 1 0, .ret 1], steps 0 23 6, [.ret 0], alone 1 (.remove 2) 11 0,
    removeCollecting 3 2, [.call 1 (.remove 4)], steps 1 9 0, [.call 0 (.insert 8 0)],
    steps 0 5 0, [.step 1 0, .ret 1, .collect 0, .collect 0], steps 0 19 7, [.ret 0],
    removeCollecting 7 2, [.call 0 (.contains 8), .step 0 0, .call 1 (.insert 9 0)],
    steps 1 5 3].flatten

theorem linkFreeList_reclaims_safely_recycled : ∃ (ρ : Run (machine ℕ [0, 1])) (m n : ℕ),
    n < m ∧ (ρ.state n).base.thread 0 = some (.insert 8 0, .trimFree .inFind head 5) ∧
    (ρ.state n).alloc.Stamped 0 3 ∧ Allocs ρ m 1 3 ∧
    (ρ.state m).base.thread 0 = some (.contains 8, .containsWalk 7) ∧
    3 ∉ (Pc.containsWalk 7).refs := by
  obtain ⟨ρ, hρ⟩ := exists_play [0, 1] 0 (guarded freeOk (exec [0, 1]))
    (fun h => (guarded_inv h).2) recycle (by decide +kernel)
  have hok : ∀ m < ρ.length, FreeOk (ρ.state m) (ρ.state (m + 1)) := fun m hm =>
    freeOk_sound hm (guarded_inv (hρ.exec (by rw [← hρ.length]; exact hm))).1
  have trim := hρ.holds 174 (P := fun s =>
    s.base.thread 0 = some (.insert 8 0, .trimFree .inFind head 5) ∧
      3 ∈ stamped (s.alloc.allocator 1) 0) (by decide +kernel)
  have before := hρ.holds 216 (P := fun s =>
    s.base.thread 1 = some (.insert 9 0, .alloc 7 tail) ∧
      s.base.thread 0 = some (.contains 8, .containsWalk 7)) (by decide +kernel)
  have after := hρ.holds 217 (P := fun s =>
    s.base.thread 1 = some (.insert 9 0, .flipLoad 7 tail 3)) (by decide +kernel)
  obtain ⟨ht, hs⟩ := of_decide_eq_true trim
  obtain ⟨h1, h0⟩ := of_decide_eq_true before
  have ha : Allocs ρ 216 1 3 :=
    ⟨by rw [hρ.length]; decide +kernel, _, _, _, h1, of_decide_eq_true after⟩
  exact ⟨ρ, 216, 174, by decide, ht, ⟨1, mem_stamped.1 hs⟩, ha, h0,
    linkFreeList_reclaims_safely ρ hok ha h0⟩

end LinkFree.List.Memory
