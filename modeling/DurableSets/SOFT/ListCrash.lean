import DurableSets.SOFT.ListReclaim
import DurableSets.SOFT.ListRestore
import DurableSets.SOFT.ListSchedule

namespace SOFT.List

open Chain Relation Memory

variable {V : Type}

inductive Phase (V : Type) where
  | running (s : State V)
  | recovering (σ : Store V) (pc : RecoveryPc)

def Phase.store : Phase V → Store V
  | .running s => s.store
  | .recovering σ _ => σ

-- what ssmem_alloc may hand out: the slots of the chunks that were never cut off, and how
-- often a slot lies in the free sets
structure Stock where
  bump : PLoc → Bool
  sets : PLoc → ℕ

def Stock.avail (P : Stock) (p : PLoc) : Bool := P.bump p || P.sets p != 0

def Stock.give (P : Stock) (p : PLoc) : Stock :=
  { P with sets := Function.update P.sets p (P.sets p + 1) }

inductive Stock.Serve (P : Stock) : Option Request → Option PLoc → Stock → Prop
  | bump (p : PLoc) (h : P.bump p = true) :
    Serve P (some .alloc) (some p) { P with bump := Function.update P.bump p false }
  | set (p : PLoc) (h : P.sets p ≠ 0) :
    Serve P (some .alloc) (some p) { P with sets := Function.update P.sets p (P.sets p - 1) }
  | free (p : PLoc) (o : Option PLoc) : Serve P (some (.free p)) o (P.give p)
  | other (r : Option Request) (o : Option PLoc) (ha : r ≠ some .alloc)
    (hf : ∀ p, r ≠ some (.free p)) : Serve P r o P

def State.asks (s : State V) (t : Tid) : Option Request :=
  (s.thread t).bind fun c => request s.store c.2

def State.got (s : State V) (t : Tid) : Option PLoc := (s.thread t).bind fun c => c.2.ownsP

def State.restock (s : State V) (P : Stock) : State V :=
  { s with store := { s.store with pavail := P.avail } }

def RecoveryPc.restock (P : Stock) : RecoveryPc → Stock
  | .free p _ => P.give p
  | _ => P

-- use is what the insert was called with that got a slot last
structure World (V : Type) where
  phase : Phase V
  use : PLoc → Option (ℤ × V)
  stock : Stock

def granted (a b : Option (SetOp V × Pc)) (use : PLoc → Option (ℤ × V)) :
    PLoc → Option (ℤ × V) :=
  match a, b with
  | some (.insert k v, .allocPNode _ _ _), some (_, .pnodeAlloc _ _ _ p) =>
    Function.update use p (some (k, v))
  | _, _ => use

-- a crash leaves the slots of the chunks and loses the free sets
inductive World.Step : World V → World V → Prop
  | run {s s' : State V} {use : PLoc → Option (ℤ × V)} {P P' : Stock} {e : Event (SetOp V)}
    (hs : List.Step s e s') (hP : P.Serve (s.asks e.tid) (s'.got e.tid) P') :
    Step ⟨.running s, use, P⟩
      ⟨.running (s'.restock P'), granted (s.thread e.tid) (s'.thread e.tid) use, P'⟩
  | crash {phase : Phase V} {use : PLoc → Option (ℤ × V)} {P : Stock} {zero : V}
    {image : PLoc → PNode V} {slots : List PLoc} {bump : PLoc → Bool}
    (left : ∀ p, image p ∈ (phase.store.pline p).contents) (nodup : slots.Nodup)
    (inside : ∀ p, use p ≠ none → p ∈ slots) (unused : ∀ p, bump p = true → use p = none) :
    Step ⟨phase, use, P⟩
      ⟨.recovering (restore zero image bump) (.scan slots), use, ⟨bump, fun _ => 0⟩⟩
  | recover {σ σ' : Store V} {pc pc' : RecoveryPc} {slot : Loc} {use : PLoc → Option (ℤ × V)}
    {P : Stock} (ha : σ.avail slot = true) (hn : recoveryNext σ slot pc = some (σ', pc')) :
    Step ⟨.recovering σ pc, use, P⟩ ⟨.recovering σ' pc', use, pc.restock P⟩
  | resume {σ : Store V} {use : PLoc → Option (ℤ × V)} {P : Stock} :
    Step ⟨.recovering σ (.scan []), use, P⟩ ⟨.running ⟨σ, fun _ => none⟩, use, P⟩

-- the bump allocator has no slot left that recovery() is going to look at
def World.Exhausted (w : World V) : Prop :=
  ∀ σ pc, w.phase = .recovering σ pc → ∀ p ∈ pc.todo, w.stock.bump p = false

def World.initial (zero : V) : World V :=
  ⟨.running (List.initial zero), fun _ => none, ⟨fun _ => true, fun _ => 0⟩⟩

variable {σ σ' : Store V} {R R' W W' : Set Loc} {x y n c d : Loc} {p q : PLoc} {slot : ℕ}
  {op : SetOp V} {pc pc' : Pc} {st : NodeState} {s s' : State V} {t u : Tid}
  {use use' : PLoc → Option (ℤ × V)} {image : PLoc → PNode V} {w w' : World V} {zero : V}

def Whole (c : PNode V) : Prop := c.validEnd ≠ c.deleted → c.isValid = true

theorem whole_of_created {a : Stamp V} {c : PNode V} (h : Created a c) : Whole c := fun hd =>
  isValid_iff.2 ⟨h.1.trans h.2.1.symm, hd⟩

theorem whole_of_matches {a : Stamp V} {l : Line (PNode V)} {st : NodeState} (h : Matches a l st) :
    l.All Whole := by
  intro c hc
  cases st with
  | intendToInsert =>
    obtain ⟨h1, h2⟩ := h c hc
    intro hd
    rw [h1] at hd
    exact whole_of_created (h2 ((Bool.not_eq_not.1 hd))) (h1 ▸ hd)
  | inserted => exact whole_of_created (h c hc).1
  | intendToDelete => exact whole_of_created (h c hc)
  | deleted => exact whole_of_created (h c hc).1

theorem Effect.whole {h : Option Loc} {hp : Option PLoc} (e : Effect σ R W h hp R' W' σ')
    (hw : ∀ p, (σ.pline p).All Whole) (p : PLoc) : (σ'.pline p).All Whole := by
  cases e with
  | pnode x q l _ _ owner pptr progress fits =>
    by_cases he : p = q
    · subst he
      rw [pline_setLine_self]
      exact whole_of_matches fits
    · rw [pline_setLine_other σ l he]
      exact hw p
  | _ => exact hw p

/-! ### Every slot carries what its last user was called with -/

structure Uses (s : State V) (use : PLoc → Option (ℤ × V)) : Prop where
  owner : ∀ {x p}, Owner s.store s.writers x → (s.store.node x).pptr = some p →
    use p = some ((s.store.node x).key, (s.store.node x).value)
  pending : ∀ {t k v pc p}, s.thread t = some (.insert k v, pc) → pc.ownsP = some p →
    use p = some (k, v)
  unused : ∀ {p}, use p = none → (s.store.pline p).All (Unused true)
  whole : ∀ p, (s.store.pline p).All Whole

theorem Effect.writers {h : Option Loc} {hp : Option PLoc} (hm : MemInv σ R W)
    (e : Effect σ R W h hp R' W' σ') (hx : x ∈ W') : Owner σ W x := by
  cases e with
  | unlink d c succ _ _ live root next alive dead succ_next =>
    rcases hx with rfl | hx
    · exact Or.inl ⟨(hm.chain.good.alive live (alive_of_addr next alive)).tail (succ_of_addr next),
        hm.chain.ne_head_of_dead dead, hm.chain.ne_tail_of_dead dead⟩
    · exact Or.inr hx
  | _ => exact Or.inr hx

theorem granted_cases (hi : Inv s) (ht : s.thread t = some (op, pc))
    (hn : next s.store op slot pc = some (σ, pc'))
    (hp : ∀ pred st curr, pc = .allocPNode pred st curr → s.Recyclable slot) (p : PLoc) :
    granted (some (op, pc)) (some (op, pc')) use p = use p ∨
      (s.Recyclable p ∧ pc'.ownsP = some p ∧ ∃ k v, op = .insert k v ∧
        granted (some (op, pc)) (some (op, pc')) use p = some (k, v)) := by
  by_cases ha : ∃ d st c, pc = .allocPNode d st c
  · obtain ⟨d, st, c, rfl⟩ := ha
    obtain ⟨_, rfl⟩ := Prod.mk.inj (Option.some.inj hn)
    have hop : op.IsInsert := (hi.fit ht).fits
    cases op with
    | insert k v =>
      by_cases he : p = slot
      · subst he
        exact Or.inr ⟨hp d st c rfl, rfl, k, v, rfl, Function.update_self _ _ _⟩
      · exact Or.inl (Function.update_of_ne he _ _)
    | _ => exact hop.elim
  · left
    cases op with
    | insert k v =>
      cases pc with
      | allocPNode d st c => exact absurd ⟨d, st, c, rfl⟩ ha
      | _ => rfl
    | _ => rfl

theorem Uses.tau (hi : Inv s) (hu : Uses s use) (ht : s.thread t = some (op, pc))
    (hn : next s.store op slot pc = some (σ, pc'))
    (hp : ∀ pred st curr, pc = .allocPNode pred st curr → s.Recyclable slot)
    (ha : ∀ pred st curr p v, pc = .allocNode pred st curr p v → s.store.avail slot = true) :
    Uses (s.goto σ t (some (op, pc'))) (granted (some (op, pc)) (some (op, pc')) use) := by
  have f := hi.fit ht
  obtain ⟨R', W', ok⟩ := tau_ok hi ht hn hp ha
  have k := ok.effect.kept hi.mem
  have tau := tau_cases (R := s.roots) (fun n ho => (f.owned n ho).1) hn
  have hG : ∀ p, granted (some (op, pc)) (some (op, pc')) use p = use p ∨ _ :=
    granted_cases hi ht hn hp
  have hfree : ∀ {p}, s.Recyclable p → s.store.pavail p = true ∧ PFree s.store s.writers p :=
    fun hr => Recyclable.free hi hr
  refine ⟨fun {x p} hx hxp => ?_, fun {u k' v pc1 p} hth ho => ?_, fun {p} hnone => ?_,
    ok.effect.whole hu.whole⟩
  · have hold : Owner s.store s.writers x ∨
        ∃ d st c p, pc = .linkCas d st c x p ∧ (s.store.node d).next = Ptr.addr c st := by
      rcases hx with hx | hx
      · rcases tau.inList hi.mem f hx with hx | ⟨⟨d, st, c, p, h1, h2, _⟩, _⟩
        · exact Or.inl (Or.inl hx)
        · exact Or.inr ⟨d, st, c, p, h1, h2⟩
      · rcases writers_goto hx with hx | ⟨op1, pc1, he, hx⟩
        · exact Or.inl (Or.inr hx)
        · obtain ⟨rfl, rfl⟩ := Prod.mk.inj (Option.some.inj he)
          rcases hx with hx | hx
          · rcases ok.fit.writes x hx with hx | hx
            · rcases tau.inList hi.mem f hx with hx | ⟨⟨d, st, c, p, h1, h2, _⟩, _⟩
              · exact Or.inl (Or.inl hx)
              · exact Or.inr ⟨d, st, c, p, h1, h2⟩
            · exact Or.inl (ok.effect.writers hi.mem hx)
          · exact Or.inl (ok.effect.writers hi.mem (ok.fit.retired x hx).1)
    rcases hold with hold | ⟨d, st, c, q, rfl, hnext⟩
    · have hev := k.evolves (hi.mem.owner_live hold)
      have hkv : (σ.node x).key = (s.store.node x).key ∧
          (σ.node x).value = (s.store.node x).value := ⟨hev.key, congrArg Stamp.value hev.stamp⟩
      have hxp : (s.store.node x).pptr = some p := hev.pptr.symm.trans hxp
      change granted _ _ use p = some ((σ.node x).key, (σ.node x).value)
      rw [hkv.1, hkv.2]
      rcases hG p with h | ⟨hr, _⟩
      · exact h.trans (hu.owner hold hxp)
      · exact absurd hxp ((hfree hr).2 x hold)
    · obtain ⟨_, ⟨hkey, hval, hpx, _⟩, _⟩ := f.loc
      simp only [next, if_pos hnext] at hn
      obtain ⟨rfl, rfl⟩ := Prod.mk.inj (Option.some.inj hn)
      obtain ⟨h1, h2, h3⟩ := setNext_data s.store d (Ptr.addr x st) x
      obtain rfl : q = p := Option.some.inj (hpx.symm.trans (h2.symm.trans hxp))
      cases op with
      | insert k' v =>
        refine (hu.pending ht rfl).trans ?_
        change some (k', v) = some ((Store.setNext _ _ _).node x |>.key, _)
        rw [h1, hkey]
        exact congrArg (fun a => some (k', a)) ((congrArg Stamp.value h3).trans (hval k' v rfl)).symm
      | _ => exact (f.fits : False).elim
  · by_cases he : u = t
    · subst he
      rw [goto_thread_self] at hth
      obtain ⟨rfl, rfl⟩ := Prod.mk.inj (Option.some.inj hth)
      rcases (flow_of_next hn).ownsP_new ho with ho' | ⟨d, st, c, rfl, rfl⟩
      · rcases hG p with h | ⟨hr, _⟩
        · exact h.trans (hu.pending ht ho')
        · exact absurd ((f.ownedP p ho').2.symm.trans (hfree hr).1) Bool.false_ne_true
      · exact Function.update_self _ _ _
    · rw [goto_thread_other _ _ _ he] at hth
      rcases hG p with h | ⟨hr, _⟩
      · exact h.trans (hu.pending hth ho)
      · exact absurd (((hi.fit hth).ownedP p ho).2.symm.trans (hfree hr).1) Bool.false_ne_true
  · have hold : use p = none := by
      rcases hG p with h | ⟨_, _, k, v, _, h⟩
      · exact h.symm.trans hnone
      · exact absurd (h.symm.trans hnone) (by rintro ⟨⟩)
    have hpf : PFree s.store s.writers p := fun x hx hxp =>
      absurd ((hu.owner hx hxp).symm.trans hold) (by rintro ⟨⟩)
    change (σ.pline p).All (Unused true)
    rw [k.pline hpf]
    exact hu.unused hold

theorem Uses.idle (hu : Uses s use) (a : Option (SetOp V × Pc))
    (hw : ∀ op pc x, a = some (op, pc) → ¬ (pc.writes = some x ∨ pc.retires = some x))
    (ho : ∀ op pc, a = some (op, pc) → pc.ownsP = none) : Uses (s.goto s.store t a) use := by
  refine ⟨fun {x p} hx => ?_, fun {u k v pc p} hth hp => ?_, hu.unused, hu.whole⟩
  · refine hu.owner (hx.imp_right fun hx => ?_)
    rcases writers_goto hx with hx | ⟨op, pc, ha, hx⟩
    · exact hx
    · exact absurd hx (hw op pc x ha)
  · by_cases he : u = t
    · subst he
      rw [goto_thread_self] at hth
      exact absurd ((ho _ _ hth).symm.trans hp) nofun
    · rw [goto_thread_other _ _ _ he] at hth
      exact hu.pending hth hp

theorem Uses.step (hi : Inv s) (hu : Uses s use) {e : Event (SetOp V)} (hs : Step s e s') :
    Uses s' (granted (s.thread e.tid) (s'.thread e.tid) use) := by
  cases hs with
  | call t op idle hk =>
    have hg : granted (s.thread t) ((s.goto s.store t (some (op, start op))).thread t) use = use := by
      rw [idle]
      rfl
    rw [show (Event.call t op).tid = t from rfl, hg]
    obtain ⟨h1, h2, h3, h4⟩ := start_quiet op
    refine hu.idle _ ?_ ?_
    · rintro op1 pc1 x ha hx
      obtain ⟨rfl, rfl⟩ := Prod.mk.inj (Option.some.inj ha)
      rcases hx with hx | hx
      · exact absurd (h1.symm.trans hx) nofun
      · exact absurd (h4.symm.trans hx) nofun
    · rintro op1 pc1 ha
      obtain ⟨rfl, rfl⟩ := Prod.mk.inj (Option.some.inj ha)
      exact h3
  | ret t op r ht =>
    have hg : granted (s.thread t) ((s.goto s.store t none).thread t) use = use := by
      rw [ht, goto_thread_self]
      cases op <;> rfl
    rw [show (Event.ret t r : Event (SetOp V)).tid = t from rfl, hg]
    exact hu.idle none (fun _ _ _ h => nomatch h) (fun _ _ h => nomatch h)
  | tau t op pc pc' slot σ ht hn hp ha =>
    change Uses _ (granted (s.thread t) ((s.goto σ t (some (op, pc'))).thread t) use)
    rw [ht, goto_thread_self]
    exact hu.tau hi ht hn hp ha

theorem uses_initial (zero : V) : Uses (initial zero) fun _ => none := by
  have hline : ∀ p, ∀ c ∈ ((initial zero).store.pline p).contents,
      c = ⟨false, false, false, 0, zero⟩ := fun p c hc => List.mem_singleton.1 hc
  refine ⟨fun hx => absurd hx (initial_owner zero), (fun ht => nomatch ht), ?_, ?_⟩
  · intro p _ c hc
    obtain rfl := hline p c hc
    exact ⟨rfl, rfl, rfl⟩
  · intro p c hc hd
    obtain rfl := hline p c hc
    exact absurd rfl hd

theorem Uses.valid (hi : Inv s) (hu : Uses s use) {c : PNode V}
    (hc : c ∈ (s.store.pline p).contents) (hv : c.isValid = true) :
    use p = some (c.key, c.value) ∧
      ∃ x, InList s.store x ∧ (s.store.node x).pptr = some p ∧ c.key = (s.store.node x).key := by
  obtain ⟨x, hx, hp, hd⟩ := hi.mem.pnode.valid hc hv
  obtain ⟨q, hq, hm⟩ := hi.mem.pnode.owned (Or.inl hx)
  obtain rfl := Option.some.inj (hp.symm.trans hq)
  obtain ⟨h1, h2⟩ := hm.key hd hc hv
  refine ⟨?_, x, hx, hp, h1⟩
  rw [h1, h2]
  exact hu.owner (Or.inl hx) hp

theorem Uses.unique (hi : Inv s) (hu : Uses s use) {a b : PNode V}
    (ha : a ∈ (s.store.pline p).contents) (hb : b ∈ (s.store.pline q).contents)
    (hav : a.isValid = true) (hbv : b.isValid = true) (hk : a.key = b.key) : p = q := by
  obtain ⟨_, x, hx, hp, hkx⟩ := hu.valid hi ha hav
  obtain ⟨_, y, hy, hq, hky⟩ := hu.valid hi hb hbv
  have he : x = y := by
    refine Heap.Ordered.eq_of_rank hi.mem.chain.ordered hi.mem.chain.head_live hx.1 hy.1 ?_
    change rank _ x = rank _ y
    rw [rank_of_ne _ hx.2.1, rank_of_ne _ hy.2.1, ← hkx, ← hky, hk]
  exact Option.some.inj (hp.symm.trans (he ▸ hq))

/-! ### All that a list can come to -/

theorem Kindred.unused {o a : PNode V} (h : Kindred o a) (ho : Unused true o) : Unused true a := by
  obtain ⟨h1, h2, h3⟩ := ho
  exact ⟨h.validStart.elim (·.trans h1) (·.trans h2), h.validEnd.trans h2, h.deleted.trans h3⟩

def Phase.Inv (use : PLoc → Option (ℤ × V)) : Phase V → Prop
  | .running s => List.Inv s ∧ Uses s use
  | .recovering σ pc => ∃ image, Clear image ∧ Restoring image σ pc ∧
      (∀ p, (image p).isValid = true → use p = some ((image p).key, (image p).value)) ∧
      ∀ p, use p = none → Unused true (image p)

variable {phase : Phase V} {P P' : Stock} {r : Option Request} {o : Option PLoc}

theorem Phase.Inv.left (h : phase.Inv use) (hl : ∀ p, image p ∈ (phase.store.pline p).contents) :
    Clear image ∧
      (∀ p, (image p).isValid = true → use p = some ((image p).key, (image p).value)) ∧
      ∀ p, use p = none → Unused true (image p) := by
  cases phase with
  | running s =>
    obtain ⟨hi, hu⟩ := h
    refine ⟨⟨fun {p} => hu.whole p _ (hl p), fun {p q} hp hq => hu.unique hi (hl p) (hl q) hp hq,
      fun {p} hp => ?_⟩, fun p hp => (hu.valid hi (hl p) hp).1, fun p hp => hu.unused hp _ (hl p)⟩
    obtain ⟨_, x, hx, _, hk⟩ := hu.valid hi (hl p) hp
    have hb := hi.mem.chain.bounded (hi.mem.chain.good.live_of_linked hx.1) hx.2.2
    rw [rank_of_ne _ hx.2.1, ← hk] at hb
    exact WithBot.coe_lt_coe.1 hb
  | recovering σ pc =>
    obtain ⟨o, ho, hr, h1, h2⟩ := h
    have hk : ∀ p, Kindred (o p) (image p) := fun p => hr.kindred (hl p)
    refine ⟨ho.kindred hk, fun p hp => ?_, fun p hp => (hk p).unused (h2 p hp)⟩
    rw [(hk p).key, (hk p).value]
    exact h1 p (((hk p).isValid ho.whole).1 hp)

structure Stock.Once (P : Stock) : Prop where
  sets : ∀ p, P.sets p ≤ 1
  apart : ∀ p, P.bump p = true → P.sets p = 0

structure World.Inv (w : World V) : Prop where
  phase : w.phase.Inv w.use
  avail : w.phase.store.pavail = w.stock.avail
  once : w.stock.Once
  fresh : ∀ p, w.stock.bump p = true → w.use p = none
  todo : ∀ σ pc, w.phase = .recovering σ pc → ∀ p ∈ pc.todo, w.stock.sets p = 0

theorem Stock.avail_eq_false (P : Stock) (p : PLoc) :
    P.avail p = false ↔ P.bump p = false ∧ P.sets p = 0 := by
  simp [Stock.avail]

theorem Stock.Once.give (h : P.Once) (hp : P.avail p = false) : (P.give p).Once := by
  obtain ⟨h1, h2⟩ := (P.avail_eq_false p).1 hp
  refine ⟨fun q => ?_, fun q hq => ?_⟩ <;> by_cases he : q = p
  · subst he
    simp [Stock.give, h2]
  · simpa [Stock.give, he] using h.sets q
  · subst he
    exact absurd (h1.symm.trans hq) nofun
  · simpa [Stock.give, he] using h.apart q hq

theorem Stock.avail_give (P : Stock) (p : PLoc) :
    (P.give p).avail = Function.update P.avail p true := by
  funext q
  by_cases he : q = p
  · subst he
    simp [Stock.avail, Stock.give]
  · simp [Stock.avail, Stock.give, he]

theorem Stock.Once.serve (h : P.Once) (hP : P.Serve r o P')
    (hf : ∀ p, r = some (.free p) → P.avail p = false) : P'.Once := by
  cases hP with
  | bump p hp =>
    refine ⟨h.sets, fun q hq => h.apart q ?_⟩
    by_cases he : q = p
    · exact he ▸ hp
    · exact (Function.update_of_ne he _ _).symm.trans hq
  | set p hp =>
    refine ⟨fun q => ?_, fun q hq => ?_⟩ <;> by_cases he : q = p
    · subst he
      simpa using (Nat.sub_le _ 1).trans (h.sets q)
    · simpa [he] using h.sets q
    · subst he
      exact absurd (h.apart q hq) hp
    · simpa [he] using h.apart q hq
  | free p => exact h.give (hf p rfl)
  | other => exact h

theorem Stock.Once.avail_take (h : P.Once) {p : PLoc} (hP : P.Serve (some .alloc) (some p) P') :
    P'.avail = Function.update P.avail p false := by
  funext q
  cases hP with
  | bump _ hp =>
    by_cases he : q = p
    · subst he
      simp [Stock.avail, h.apart q hp]
    · simp [Stock.avail, he]
  | set _ hp =>
    have hb : P.bump p = false := by
      by_contra hb
      exact hp (h.apart p (Bool.eq_true_of_not_eq_false hb))
    by_cases he : q = p
    · subst he
      have := h.sets q
      simp [Stock.avail, hb]
      omega
    · simp [Stock.avail, he]
  | other _ _ ha => exact absurd rfl ha

theorem asks_idle {e : Event (SetOp V)} (hs : List.Step s e s') (he : ∀ t, e ≠ .tau t) :
    s.asks e.tid = none := by
  cases hs with
  | call t op idle hk => exact Option.bind_eq_none_iff.2 fun c hc => absurd (idle.symm.trans hc) nofun
  | ret t op r ht =>
    refine Option.bind_eq_none_iff.2 fun c hc => ?_
    obtain rfl := Option.some.inj (ht.symm.trans hc)
    rfl
  | tau t => exact absurd rfl (he t)

theorem store_idle {e : Event (SetOp V)} (hs : List.Step s e s') (he : ∀ t, e ≠ .tau t) :
    s'.store = s.store := by
  cases hs with
  | call | ret => rfl
  | tau t => exact absurd rfl (he t)

theorem Stock.Once.run {e : Event (SetOp V)} (hi : List.Inv s) (h : P.Once)
    (hav : s.store.pavail = P.avail) (hs : List.Step s e s')
    (hP : P.Serve (s.asks e.tid) (s'.got e.tid) P') :
    P'.Once ∧ s'.store.pavail = P'.avail := by
  by_cases he : ∀ t, e ≠ .tau t
  · rw [asks_idle hs he] at hP
    rw [store_idle hs he, hav]
    cases hP
    exact ⟨h, rfl⟩
  · cases hs with
    | call t => exact absurd (fun _ => nofun) he
    | ret t => exact absurd (fun _ => nofun) he
    | tau t op pc pc' slot σ ht hn hp ha =>
      have hasks : s.asks (Event.tau t : Event (SetOp V)).tid = request s.store pc := by
        change (s.thread t).bind _ = _
        rw [ht]
        rfl
      have hgot : (s.goto σ t (some (op, pc'))).got (Event.tau t : Event (SetOp V)).tid =
          pc'.ownsP := by
        change ((s.goto σ t _).thread t).bind _ = _
        rw [goto_thread_self]
        rfl
      rw [hasks, hgot] at hP
      have hfree : ∀ p, request s.store pc = some (.free p) → P.avail p = false := fun p hr => by
        rw [← hav]
        exact released hi ht hr
      refine ⟨h.serve hP hfree, ?_⟩
      change σ.pavail = _
      rw [(next_avail hn).1]
      cases hr : request s.store pc with
      | none =>
        rw [hr] at hP
        cases hP
        exact hav
      | some r =>
        rw [hr] at hP
        cases r with
        | alloc =>
          cases pc with
          | allocPNode d st c =>
            obtain ⟨_, rfl⟩ := Prod.mk.inj (Option.some.inj hn)
            rw [h.avail_take hP, hav]
          | trimFree c d st n =>
            obtain ⟨_, _, h⟩ := Option.map_eq_some_iff.1 hr
            cases h
          | _ => cases hr
        | free p =>
          cases hP with
          | free =>
            rw [Stock.avail_give, hav]
          | other _ _ _ hf => exact absurd rfl (hf p)
        | _ =>
          cases hP
          exact hav

theorem granted_eq (σ : Store V) {a b : Option (SetOp V × Pc)}
    (h : a.bind (fun c => request σ c.2) ≠ some .alloc ∨ (b.bind fun c => c.2.ownsP) ≠ some p) :
    granted a b use p = use p := by
  unfold granted
  split
  · next k v d st c op d' st' c' q =>
    refine Function.update_of_ne ?_ _ _
    rintro rfl
    exact h.elim (fun h => h rfl) fun h => h rfl
  · rfl

theorem Stock.fresh_serve {b : Option (SetOp V × Pc)} {t : Tid} (h : P.Once)
    (fresh : ∀ p, P.bump p = true → use p = none)
    (hP : P.Serve (s.asks t) (b.bind fun c => c.2.ownsP) P') :
    ∀ p, P'.bump p = true → granted (s.thread t) b use p = none := by
  intro p hp
  generalize hr : s.asks t = r at hP
  generalize ho : (b.bind fun c => c.2.ownsP) = o at hP
  cases hP with
  | bump q hq =>
    have hne : p ≠ q := by
      rintro rfl
      simp at hp
    rw [granted_eq s.store (Or.inr (ho ▸ fun he => hne (Option.some.inj he).symm))]
    exact fresh p ((Function.update_of_ne hne _ _).symm.trans hp)
  | set q hq =>
    have hne : p ≠ q := by
      rintro rfl
      exact hq (h.apart p hp)
    rw [granted_eq s.store (Or.inr (ho ▸ fun he => hne (Option.some.inj he).symm))]
    exact fresh p hp
  | free q =>
    have hne : s.asks t ≠ some .alloc := by
      rw [hr]
      exact nofun
    rw [granted_eq s.store (Or.inl hne)]
    exact fresh p hp
  | other _ _ ha =>
    have hne : s.asks t ≠ some .alloc := hr ▸ ha
    rw [granted_eq s.store (Or.inl hne)]
    exact fresh p hp

theorem todo_step {pc pc' : RecoveryPc} (hn : recoveryNext σ slot pc = some (σ', pc')) :
    ∀ p ∈ pc'.todo, p ∈ pc.todo := by
  cases pc with
  | scan todo =>
    cases todo with
    | nil => cases hn
    | cons p todo =>
      simp only [recoveryNext] at hn
      split at hn <;> obtain ⟨_, rfl⟩ := Prod.mk.inj (Option.some.inj hn)
      · exact fun q hq => List.mem_cons_of_mem _ hq
      · exact fun q hq => hq
  | failed => cases hn
  | _ =>
    simp only [recoveryNext] at hn
    grind [Option.map_eq_some_iff, RecoveryPc.todo]

theorem recovery_pavail {pc pc' : RecoveryPc} (hn : recoveryNext σ slot pc = some (σ', pc'))
    (hav : σ.pavail = P.avail) : σ'.pavail = (pc.restock P).avail := by
  cases pc with
  | scan todo =>
    cases todo with
    | nil => cases hn
    | cons p todo =>
      simp only [recoveryNext] at hn
      split at hn <;> obtain ⟨rfl, _⟩ := Prod.mk.inj (Option.some.inj hn) <;> exact hav
  | free p todo =>
    obtain ⟨rfl, _⟩ := Prod.mk.inj (Option.some.inj hn)
    rw [RecoveryPc.restock, Stock.avail_give, ← hav]
    rfl
  | failed => cases hn
  | _ =>
    simp only [recoveryNext] at hn
    grind [Option.map_eq_some_iff, RecoveryPc.restock, Store.writeP, Store.setNext, Store.write,
      Store.setLine]

-- a step after which recovery() looks at no slot that the bump allocator has
def World.Careful (w w' : World V) : Prop := World.Step w w' ∧ w'.Exhausted

theorem World.Inv.step (h : w.Inv) (hx : w.Exhausted) (hs : World.Step w w') : w'.Inv := by
  cases hs with
  | @run s s' use P P' e hs hP =>
    obtain ⟨hi, hu⟩ := h.phase
    obtain ⟨h1, h2⟩ := h.once.run hi h.avail hs hP
    have hst : s'.restock P' = s' := by
      simp only [State.restock, ← h2]
    refine ⟨?_, ?_, h1, Stock.fresh_serve h.once h.fresh hP, nofun⟩
    · rw [hst]
      exact ⟨hi.step hs, hu.step hi hs⟩
    · rfl
  | @crash phase use P zero image slots bump left nodup inside unused =>
    obtain ⟨hc, hv, hu⟩ := h.phase.left left
    refine ⟨⟨image, hc, restoring_start nodup (fun p hp => inside p ?_) (fun p hp => ?_), hv, hu⟩,
      funext fun p => by simp [Phase.store, restore, Stock.avail], ⟨fun _ => Nat.zero_le _, fun _ _ => rfl⟩,
      unused, fun _ _ _ _ _ => rfl⟩
    · exact fun hnone => nomatch (hv p hp).symm.trans hnone
    · obtain ⟨h1, h2, h3⟩ := hu p (unused p hp)
      exact ⟨fun hv => (isValid_iff.1 hv).2 (h2.trans h3.symm), h1.trans h2.symm⟩
  | @recover σ σ' pc pc' slot use P ha hn =>
    obtain ⟨image, hc, hr, hv, hu⟩ := h.phase
    have hav : (pc.restock P).avail = σ'.pavail := (recovery_pavail hn h.avail).symm
    have htodo := h.todo σ pc rfl
    have hr' := restoring_step hc hr ha hn
    refine ⟨⟨image, hc, hr', hv, hu⟩, hav.symm, ?_, fun p hp => h.fresh p ?_, ?_⟩
    · cases pc with
      | free p todo =>
        refine h.once.give ((P.avail_eq_false p).2 ⟨?_, htodo p List.mem_cons_self⟩)
        exact hx σ (.free p todo) rfl p List.mem_cons_self
      | _ => exact h.once
    · cases pc <;> exact hp
    · rintro σ1 pc1 he p hp
      obtain ⟨rfl, rfl⟩ := Phase.recovering.inj he
      cases pc with
      | free q todo =>
        obtain ⟨_, rfl⟩ := Prod.mk.inj (Option.some.inj hn)
        have hne : p ≠ q := by
          rintro rfl
          exact (List.nodup_cons.1 hr.nodup).1 hp
        exact (Function.update_of_ne hne _ _).trans (htodo p (List.mem_cons_of_mem _ hp))
      | _ => exact htodo p (todo_step hn p hp)
  | @resume σ use P =>
    obtain ⟨image, hc, hr, hv, hu⟩ := h.phase
    have howner : ∀ {x}, Owner σ (State.writers ⟨σ, fun _ => none⟩) x → InList σ x := by
      rintro x (hx | ⟨t, op, pc, ht, _⟩)
      · exact hx
      · cases ht
    refine ⟨⟨hr.inv hc, ⟨fun {x p} hx hp => ?_, (fun ht => nomatch ht),
      fun {p} hp c hm => (hr.kindred hm).unused (hu p hp), fun p c hm hd => ?_⟩⟩, h.avail, h.once,
      h.fresh, nofun⟩
    · obtain ⟨q, _, hq⟩ := hr.node (howner hx)
      obtain rfl := Option.some.inj (hp.symm.trans hq.2.1)
      refine (hv p hq.1).trans ?_
      exact congrArg (fun a : Stamp V => some (a.key, a.value)) hq.2.2.symm
    · have hk := hr.kindred hm
      rw [hk.validEnd, hk.deleted] at hd
      exact (hk.isValid hc.whole).2 (hc.whole hd)

theorem World.inv_initial (zero : V) : (World.initial zero).Inv :=
  ⟨⟨List.inv_initial zero, uses_initial zero⟩, funext fun p => by
    simp [World.initial, Phase.store, List.initial, initialStore, Stock.avail],
    ⟨fun _ => Nat.zero_le _, fun _ _ => rfl⟩, fun _ _ => rfl, nofun⟩

theorem World.inv_run (h : ReflTransGen World.Careful (World.initial zero) w) : w.Inv := by
  have both : w.Inv ∧ w.Exhausted := by
    induction h with
    | refl => exact ⟨World.inv_initial zero, nofun⟩
    | tail _ hs ih => exact ⟨ih.1.step ih.2 hs.1, hs.2⟩
  exact both.1

-- a list that two threads use, and its crashes; the slots in use are below 16
inductive World.Command (V : Type) where
  | run (c : List.Command V) (fromSets : Bool)
  | crash (slots : List PLoc)
  | recover (slot : Loc)
  | resume

def Stock.serve (P : Stock) (fromSets : Bool) : Option Request → Option PLoc → Option Stock
  | some .alloc, some p =>
    if fromSets then
      if P.sets p ≠ 0 then some { P with sets := Function.update P.sets p (P.sets p - 1) } else none
    else if P.bump p then some { P with bump := Function.update P.bump p false }
    else none
  | some .alloc, none => none
  | some (.free p), _ => some (P.give p)
  | _, _ => some P

def Store.flushed (σ : Store V) (p : PLoc) : PNode V :=
  (σ.pline p).contents.getLast (List.cons_ne_nil _ _)

def World.covered (w : World V) (slots : List PLoc) : Bool :=
  (List.range 16).all fun p =>
    ((w.use p).isNone || slots.contains p) && (!w.stock.bump p || (w.use p).isNone)

def World.exec (zero : V) (w : World V) : World.Command V → Option (World V)
  | .run c fromSets =>
    match w.phase with
    | .running s =>
      (List.exec s c).bind fun r =>
        if (r.2.got c.tid).all (· < 16) then
          (w.stock.serve fromSets (s.asks c.tid) (r.2.got c.tid)).map fun P =>
            ⟨.running (r.2.restock P), granted (s.thread c.tid) (r.2.thread c.tid) w.use, P⟩
        else none
    | _ => none
  | .crash slots =>
    if slots.Nodup ∧ w.covered slots then
      some ⟨.recovering (restore zero w.phase.store.flushed w.stock.bump) (.scan slots), w.use,
        ⟨w.stock.bump, fun _ => 0⟩⟩
    else none
  | .recover slot =>
    match w.phase with
    | .recovering σ pc =>
      if σ.avail slot then
        (recoveryNext σ slot pc).map fun r => ⟨.recovering r.1 r.2, w.use, pc.restock w.stock⟩
      else none
    | _ => none
  | .resume =>
    match w.phase with
    | .recovering σ (.scan []) => some ⟨.running ⟨σ, fun _ => none⟩, w.use, w.stock⟩
    | _ => none

def World.Small (w : World V) : Prop :=
  (∀ s, w.phase = .running s → Few s) ∧ ∀ p, 16 ≤ p → w.use p = none

theorem Stock.serve_sound {b : Bool} (h : P.serve b r o = some P') : P.Serve r o P' := by
  cases r with
  | none =>
    obtain rfl := Option.some.inj h
    exact Serve.other _ _ nofun nofun
  | some r =>
    cases r with
    | alloc =>
      cases o with
      | none => cases h
      | some p =>
        simp only [Stock.serve] at h
        split at h <;> split at h
        · next h0 =>
          obtain rfl := Option.some.inj h
          exact Serve.set p h0
        · cases h
        · next h0 =>
          obtain rfl := Option.some.inj h
          exact Serve.bump p h0
        · cases h
    | free p =>
      obtain rfl := Option.some.inj h
      exact Serve.free p o
    | _ =>
      obtain rfl := Option.some.inj h
      exact Serve.other _ _ nofun nofun

theorem World.covered_sound {slots : List PLoc} (huse : ∀ p, 16 ≤ p → w.use p = none)
    (h : w.covered slots = true) :
    (∀ p, w.use p ≠ none → p ∈ slots) ∧ ∀ p, w.stock.bump p = true → w.use p = none := by
  have low : ∀ p, p < 16 →
      (w.use p = none ∨ p ∈ slots) ∧ (w.stock.bump p = true → w.use p = none) := by
    intro p hp
    have := List.all_eq_true.1 h p (List.mem_range.2 hp)
    simpa [Bool.or_eq_true, imp_iff_not_or] using this
  refine ⟨fun p hp => ?_, fun p hp => ?_⟩
  · by_cases hlt : p < 16
    · exact (low p hlt).1.resolve_left hp
    · exact absurd (huse p (not_lt.1 hlt)) hp
  · by_cases hlt : p < 16
    · exact (low p hlt).2 hp
    · exact huse p (not_lt.1 hlt)

theorem World.exec_sound (hw : w.Small) {c : World.Command V} (h : w.exec zero c = some w') :
    World.Step w w' ∧ w'.Small := by
  obtain ⟨phase, use, P⟩ := w
  obtain ⟨hfew, huse⟩ := hw
  cases c with
  | run c b =>
    cases phase with
    | recovering => cases h
    | running s =>
      obtain ⟨⟨e, s'⟩, hx, h⟩ := Option.bind_eq_some_iff.1 h
      split at h
      · next hlt =>
        obtain ⟨P', hP, rfl⟩ := Option.map_eq_some_iff.1 h
        obtain ⟨hs, he, _⟩ := exec_step (hfew s rfl) hx
        rw [← he] at hP hlt ⊢
        refine ⟨World.Step.run hs (Stock.serve_sound hP), fun s1 h1 => ?_, fun p hp => ?_⟩
        · obtain rfl := Phase.running.inj h1
          exact fun u hu => ((hfew s rfl).exec hx u hu : s'.thread u = none)
        · refine (granted_eq s.store (Or.inr fun hg => ?_)).trans (huse p hp)
          have hg : s'.got e.tid = some p := hg
          rw [hg] at hlt
          exact absurd (of_decide_eq_true hlt) (not_lt.2 hp)
      · cases h
  | crash slots =>
    simp only [World.exec] at h
    split at h
    · next hc =>
      obtain rfl := Option.some.inj h
      obtain ⟨inside, unused⟩ := World.covered_sound huse hc.2
      exact ⟨World.Step.crash (fun p => List.getLast_mem _) hc.1 inside unused, nofun, huse⟩
    · cases h
  | recover slot =>
    cases phase with
    | running => cases h
    | recovering σ pc =>
      simp only [World.exec] at h
      split at h
      · next ha =>
        obtain ⟨r, hn, rfl⟩ := Option.map_eq_some_iff.1 h
        exact ⟨World.Step.recover ha hn, nofun, huse⟩
      · cases h
  | resume =>
    cases phase with
    | running => cases h
    | recovering σ pc =>
      cases pc with
      | scan todo =>
        cases todo with
        | nil =>
          obtain rfl := Option.some.inj h
          refine ⟨World.Step.resume, fun s hs => ?_, huse⟩
          obtain rfl := Phase.running.inj hs
          exact fun _ _ => rfl
        | cons => cases h
      | _ => cases h

def World.play (test : World V → Bool) (zero : V) :
    World V → List (World.Command V) → Option (World V)
  | w, [] => some w
  | w, c :: cs => (w.exec zero c).bind fun w' => if test w' then World.play test zero w' cs else none

theorem World.play_sound {test : World V → Bool} (hw : w.Small) {cs : List (World.Command V)}
    (h : w.play test zero cs = some w') :
    ReflTransGen (fun w w' => World.Step w w' ∧ test w' = true) w w' ∧ w'.Small := by
  induction cs generalizing w with
  | nil =>
    obtain rfl := Option.some.inj h
    exact ⟨ReflTransGen.refl, hw⟩
  | cons c cs ih =>
    obtain ⟨w1, h1, h⟩ := Option.bind_eq_some_iff.1 h
    split at h
    · next ht =>
      obtain ⟨hs, hw1⟩ := World.exec_sound hw h1
      obtain ⟨hrun, hsmall⟩ := ih hw1 h
      exact ⟨ReflTransGen.head ⟨hs, ht⟩ hrun, hsmall⟩
    · cases h

theorem World.small_initial (zero : V) : (World.initial zero).Small := by
  refine ⟨fun s hs => ?_, fun _ _ => rfl⟩
  obtain rfl := Phase.running.inj hs
  exact fun _ _ => rfl

def World.exhausted (w : World V) : Bool :=
  match w.phase with
  | .recovering _ pc => pc.todo.all fun p => !w.stock.bump p
  | _ => true

theorem World.exhausted_of (h : w.exhausted = true) : w.Exhausted := by
  intro σ pc hp p hm
  simp only [World.exhausted, hp, List.all_eq_true, Bool.not_eq_true'] at h
  exact h p hm

def World.holds (w : World V) (P : State V → Bool) : Bool :=
  match w.phase with
  | .running s => P s
  | _ => false

theorem World.of_holds {P : State V → Bool} (h : w.holds P = true) :
    ∃ s, w.phase = .running s ∧ P s = true := by
  unfold World.holds at h
  split at h
  · next s hs => exact ⟨s, hs, h⟩
  · cases h

def runs (cs : List (List.Command V)) (fromSets : Bool) : List (World.Command V) :=
  cs.map fun c => .run c fromSets

-- a slot gets a new user with its bits equal; an image of it is whole, and when it is valid it
-- carries what the last user was called with; no two of one key are valid
theorem softList_pnodes (h : ReflTransGen World.Careful (World.initial zero) w) :
    (∀ s, w.phase = .running s → ∀ p, s.Recyclable p →
      (s.store.pnode p).validStart = (s.store.pnode p).validEnd ∧
        (s.store.pnode p).validEnd = (s.store.pnode p).deleted) ∧
    (∀ p, ∀ c ∈ (w.phase.store.pline p).contents,
      (c.validEnd ≠ c.deleted → c.validStart = c.validEnd) ∧
        (c.isValid = true → w.use p = some (c.key, c.value))) ∧
    (∀ p q, ∀ a ∈ (w.phase.store.pline p).contents, ∀ b ∈ (w.phase.store.pline q).contents,
      a.isValid = true → b.isValid = true → a.key = b.key → p = q) ∧
    ∀ σ, w.phase ≠ .recovering σ .failed := by
  have hw := (World.inv_run h).phase
  -- one image for two slots
  have himg : ∀ p, ∀ a ∈ (w.phase.store.pline p).contents, ∀ q,
      ∀ b ∈ (w.phase.store.pline q).contents, (p = q → a = b) →
      ∃ image : PLoc → PNode V, (∀ r, image r ∈ (w.phase.store.pline r).contents) ∧
        image p = a ∧ image q = b := by
    intro p a ha q b hb he
    refine ⟨Function.update (Function.update (fun r => (w.phase.store.pline r).cur) q b) p a,
      fun r => ?_, Function.update_self _ _ _, ?_⟩
    · rw [Function.update_apply, Function.update_apply]
      split
      · next h => exact h ▸ ha
      · split
        · next h => exact h ▸ hb
        · exact List.mem_cons_self
    · rw [Function.update_apply]
      split
      · next h => exact he h.symm
      · exact Function.update_self _ _ _
  refine ⟨fun s hs p hp => ?_, fun p c hc => ?_, fun p q a ha b hb hav hbv hk => ?_, ?_⟩
  · rw [hs] at hw
    obtain ⟨v, ⟨h1, h2, h3⟩, _⟩ := hw.1.mem.pnode.idle hp.1
    exact ⟨h1.trans h2.symm, h2.trans h3.symm⟩
  · obtain ⟨image, hl, rfl, _⟩ := himg p c hc p c hc fun _ => rfl
    obtain ⟨hcl, hv, _⟩ := Phase.Inv.left hw hl
    exact ⟨fun hd => (isValid_iff.1 (hcl.whole hd)).1, hv p⟩
  · by_contra hne
    obtain ⟨image, hl, rfl, rfl⟩ := himg p a ha q b hb fun he => absurd he hne
    exact hne ((Phase.Inv.left hw hl).1.unique hav hbv hk)
  · rintro σ hσ
    rw [hσ] at hw
    obtain ⟨_, _, hr, _⟩ := hw
    exact hr.loc

-- slot 7 is removed and used again by an insert that a crash cuts off; the first recovery() is
-- cut off too, the second one frees slot 7 and keeps slot 8
def reused : List (World.Command ℕ) :=
  [runs (alone 0 (.insert 5 50) 17 7) false, runs (alone 0 (.insert 6 60) 18 8) false,
    runs (.call 1 (.contains 6) :: steps 1 1 2) false, runs (alone 0 (.remove 5) 14 2) false,
    runs (.call 0 (.insert 9 90) :: steps 0 4 7) true, runs (steps 0 9 9) true,
    [.crash [7, 8], .recover 2, .recover 2, .crash [8, 7], .recover 2],
    List.replicate 6 (.recover 3), [.resume, .run (.call 0 (.insert 10 100)) true],
    runs (steps 0 3 3) true].flatten

theorem softList_pnodes_reused : ∃ (w : World ℕ) (s : State ℕ), w.phase = .running s ∧
    w.use 7 = some (9, 90) ∧ s.Recyclable 7 ∧
    (s.store.pnode 7).validStart = (s.store.pnode 7).validEnd ∧
    (s.store.pnode 7).validEnd = (s.store.pnode 7).deleted ∧
    (s.store.pnode 8).isValid = true ∧
    w.use 8 = some ((s.store.pnode 8).key, (s.store.pnode 8).value) := by
  have hplay : ((World.initial 0).play World.exhausted 0 reused).any (fun w =>
      decide (w.use 7 = some (9, 90)) && w.holds fun s => s.store.pavail 7 &&
        (List.range 2).all (fun u => !writesTo s 7 u) && (s.store.pnode 8).isValid) = true := by
    decide +kernel
  obtain ⟨w, hw, h⟩ := (Option.any_eq_true _ _).1 hplay
  obtain ⟨hrun, hsmall⟩ := World.play_sound (World.small_initial 0) hw
  have hrun : ReflTransGen World.Careful (World.initial 0) w :=
    hrun.lift id fun _ _ hs => ⟨hs.1, World.exhausted_of hs.2⟩
  rw [Bool.and_eq_true] at h
  obtain ⟨s, hs, hP⟩ := World.of_holds h.2
  simp only [Bool.and_eq_true] at hP
  obtain ⟨⟨hav, hwr⟩, hvalid⟩ := hP
  have hrec : s.Recyclable 7 := (hsmall.1 s hs).recyclable hav hwr
  obtain ⟨hflags, hline, _, _⟩ := softList_pnodes hrun
  obtain ⟨h1, h2⟩ := hflags s hs 7 hrec
  have h8 := (hline 8 _ List.mem_cons_self).2
  rw [hs] at h8
  exact ⟨w, s, hs, of_decide_eq_true h.1, hrec, h1, h2, hvalid, h8 hvalid⟩

-- recovery() frees slot 7, which the bump allocator still has: an insert gets it from there, and
-- the next one from the free sets
def takenTwice : List (World.Command ℕ) :=
  [[.crash [7], .recover 2, .recover 2, .recover 2, .resume],
    runs (alone 0 (.insert 5 50) 17 7) false,
    runs (.call 0 (.insert 6 60) :: steps 0 4 7) true].flatten

theorem softList_pnodes_overwritten : ∃ (w : World ℕ) (s : State ℕ),
    ReflTransGen World.Step (World.initial 0) w ∧ w.phase = .running s ∧
    s.thread 0 = some (.insert 6 60, .pnodeAlloc 7 .inserted tail 7) ∧
    (s.store.pnode 7).isValid = true ∧ (s.store.pnode 7).key = 5 ∧
    (s.store.pnode 7).validEnd ≠ (s.store.pnode 7).deleted := by
  have hplay : ((World.initial 0).play (fun _ => true) 0 takenTwice).any (fun w =>
      w.holds fun s => decide (s.thread 0 = some (.insert 6 60, .pnodeAlloc 7 .inserted tail 7)) &&
        (s.store.pnode 7).isValid && decide ((s.store.pnode 7).key = 5)) = true := by
    decide +kernel
  obtain ⟨w, hw, h⟩ := (Option.any_eq_true _ _).1 hplay
  obtain ⟨s, hs, hP⟩ := World.of_holds h
  simp only [Bool.and_eq_true, decide_eq_true_eq] at hP
  obtain ⟨⟨ht, hv⟩, hk⟩ := hP
  have hrun := (World.play_sound (World.small_initial 0) hw).1
  exact ⟨w, s, hrun.lift id fun _ _ hs => hs.1, hs, ht, hv, hk, (isValid_iff.1 hv).2⟩

end SOFT.List
