import DurableSets.SOFT.SkipListCall

namespace SOFT.SkipList

open Chain

variable {V : Type} {σ σ' : Store V} {L L' : Set Cursor} {x y p n c d slot : Loc}
  {i j G level : ℕ} {op : SetOp V} {pc pc' : Pc} {path : Path} {q : Ptr} {st : NodeState}

structure Inv (G : ℕ) (s : State V) : Prop where
  mem : MemInv s.store G s.live
  fit : ∀ {t op pc}, s.thread t = some (op, pc) → Fit s.store s.live op pc
  apart : ∀ {t u op op' pc pc' n}, s.thread t = some (op, pc) → s.thread u = some (op', pc') →
    pc.owns = some n → pc'.owns = some n → t = u

variable {s s' : State V} {t u : Tid} {a : Option (SetOp V × Pc)}

theorem head_mem_roots (s : State V) (hi : i < MAX_LEVEL) : (head, i) ∈ s.roots :=
  Or.inl ⟨rfl, hi⟩

theorem mem_roots (ht : s.thread t = some (op, pc)) {r : Cursor} (hr : r ∈ pc.refs) :
    r ∈ s.roots := Or.inr ⟨t, op, pc, ht, hr⟩

theorem mem_live (ht : s.thread t = some (op, pc)) {r : Cursor} (hr : r ∈ pc.refs) :
    r ∈ s.live := Tower.live_root (mem_roots ht hr)

theorem roots_goto {r : Cursor} (hr : r ∈ (s.goto σ t a).roots) :
    r ∈ s.roots ∨ ∃ op pc, a = some (op, pc) ∧ r ∈ pc.refs := by
  rcases hr with hr | ⟨u, op, pc, hu, hr⟩
  · exact Or.inl (Or.inl hr)
  · by_cases he : u = t
    · subst he
      rw [goto_thread_self] at hu
      exact Or.inr ⟨op, pc, hu, hr⟩
    · rw [goto_thread_other _ _ _ he] at hu
      exact Or.inl (mem_roots hu hr)

theorem live_closed (s : State V) : s.store.tower.Closed s.live := Tower.live_closed _ _

theorem head_mem_live (s : State V) (hi : i < MAX_LEVEL) : (head, i) ∈ s.live :=
  Tower.live_root (head_mem_roots s hi)

theorem FindCtx.base {c : FindCtx} (h : c.pending = some (n, i + 1)) : (n, i) ∈ c.refs := by
  cases c with
  | inInsert m l =>
    obtain ⟨rfl, rfl⟩ := Prod.mk.inj (Option.some.inj h)
    simp [FindCtx.refs]
  | inRemove m => cases h

theorem InsertCtx.base {c : InsertCtx} (h : c.pending p = some (n, i + 1)) : (n, i) ∈ c.refs p := by
  cases c with
  | found => cases h
  | linked path =>
    obtain ⟨rfl, he⟩ := Prod.mk.inj (Option.some.inj h)
    obtain rfl : 0 = i := by omega
    simp [InsertCtx.refs]

theorem StateCtx.base {c : StateCtx} (h : c.pending p = some (n, i + 1)) : (n, i) ∈ c.refs p := by
  cases c with
  | insert c => exact c.base h
  | mark => cases h
  | delete r => cases h

theorem base_of_pending (h : pc.pending = some (n, i + 1)) : (n, i) ∈ pc.refs := by
  cases pc with
  | findDown c j p path => simp [Pc.refs, c.base h]
  | findLoad c j p st d s path => simp [Pc.refs, c.base h]
  | findCas c j p st d s path => simp [Pc.refs, c.base h]
  | helpStore c m => exact c.base h
  | helpFlush c m => exact c.base h
  | stateTest c m => exact c.base h
  | stateLoad c m => exact c.base h
  | stateCas c m q => exact c.base h
  | upperLoad path m j =>
    obtain ⟨rfl, rfl⟩ := Prod.mk.inj (Option.some.inj h)
    simp [Pc.refs]
  | upperCas path m j q =>
    obtain ⟨rfl, rfl⟩ := Prod.mk.inj (Option.some.inj h)
    simp [Pc.refs]
  | upperLink path m j =>
    obtain ⟨rfl, rfl⟩ := Prod.mk.inj (Option.some.inj h)
    simp [Pc.refs]
  | _ => simp_all [Pc.pending]

theorem Fit.owned (hm : MemInv σ G L) (f : Fit σ L op pc) (h : pc.owns = some n) :
    (n, 0) ∈ L ∨ σ.avail n = false := by
  obtain ⟨i, hi⟩ := pending_of_owns h
  cases i with
  | zero => exact Or.inr (f.avail n hi)
  | succ i => exact Or.inl (hm.base (f.refs _ (base_of_pending hi)))

theorem Fit.kept {h : Option Loc} (hm : MemInv σ G L) (f : Fit σ L op pc) (k : Kept σ L h L' σ')
    (hne : ∀ n, pc.owns = some n → h ≠ some n) : Fit σ' L' op pc where
  refs r hr := k.subset (f.refs r hr)
  key := f.key
  fits := f.fits
  loc := by
    refine k.local hm.sound.closed f.refs (fun n hn => ?_) (fun n i hn hi => ?_) f.loc
    · exact k.line (hne n (owns_of_pending hn)) (f.fresh _ hn)
    · obtain ⟨i, rfl⟩ := Nat.exists_eq_add_of_le' hi
      exact k.ref (hne n (owns_of_pending hn)) (hm.base (f.refs _ (base_of_pending hn)))
        (f.fresh _ hn)
  fresh c hc := k.fresh (hne c.1 (owns_of_pending hc)) (f.fresh c hc)
  avail n hn := k.avail (hne n (owns_of_pending hn)) (f.fresh _ hn) (f.avail n hn)

theorem Fit.mono (f : Fit σ L op pc) (hr : ∀ r ∈ pc.refs, r ∈ L') (hL : L' ⊆ L) :
    Fit σ L' op pc where
  refs := hr
  key := f.key
  fits := f.fits
  loc := f.loc
  fresh c hc h := f.fresh c hc (hL h)
  avail := f.avail

theorem live_goto (hm : MemInv σ G L) (hL : s.live ⊆ L)
    (ha : ∀ op pc, a = some (op, pc) → ∀ r ∈ pc.refs, r ∈ L) : (s.goto σ t a).live ⊆ L := by
  refine hm.sound.closed.live_subset fun r hr => ?_
  rcases roots_goto hr with hr | ⟨op, pc, he, hr⟩
  · exact hL (Tower.live_root hr)
  · exact ha op pc he r hr

theorem Inv.step_tau (h : Inv G s) (ht : s.thread t = some (op, pc))
    (ok : StepOk s.store G s.live op pc σ pc') : Inv G (s.goto σ t (some (op, pc'))) := by
  obtain ⟨L', e, f, hnew⟩ := ok
  have k := e.kept h.mem
  have hm := e.memInv h.mem
  have hL : (s.goto σ t (some (op, pc'))).live ⊆ L' := by
    refine live_goto hm k.subset ?_
    intro op1 pc1 ha
    obtain ⟨rfl, rfl⟩ := Prod.mk.inj (Option.some.inj ha)
    exact f.refs
  have hother : ∀ {u op1 pc1 n}, u ≠ t → s.thread u = some (op1, pc1) → pc1.owns = some n →
      pc.owns ≠ some n := fun hne hu hn hn' => hne (h.apart hu ht hn hn')
  have hapart : ∀ {u op1 pc1 n}, u ≠ t → s.thread u = some (op1, pc1) → pc1.owns = some n →
      pc'.owns ≠ some n := by
    intro u op1 pc1 n hne hu hn hn'
    rcases hnew n hn' with hn' | ⟨ha, hl⟩
    · exact hother hne hu hn hn'
    · rcases (h.fit hu).owned h.mem hn with hl' | ha'
      · exact hl hl'
      · rw [ha] at ha'
        cases ha'
  refine ⟨hm.mono (live_closed (s.goto σ t _)) hL (head_mem_live _), ?_, ?_⟩
  · intro u op1 pc1 hu
    refine Fit.mono ?_ (fun r hr => mem_live hu hr) hL
    by_cases he : u = t
    · subst he
      rw [goto_thread_self] at hu
      obtain ⟨rfl, rfl⟩ := Prod.mk.inj (Option.some.inj hu)
      exact f
    · rw [goto_thread_other _ _ _ he] at hu
      exact (h.fit hu).kept h.mem k fun n hn => hother he hu hn
  · intro u w op1 op2 pc1 pc2 n hu hw hn1 hn2
    by_cases he : u = t <;> by_cases he' : w = t
    · rw [he, he']
    · subst he
      rw [goto_thread_self] at hu
      rw [goto_thread_other _ _ _ he'] at hw
      obtain ⟨rfl, rfl⟩ := Prod.mk.inj (Option.some.inj hu)
      exact absurd hn1 (hapart he' hw hn2)
    · subst he'
      rw [goto_thread_self] at hw
      rw [goto_thread_other _ _ _ he] at hu
      obtain ⟨rfl, rfl⟩ := Prod.mk.inj (Option.some.inj hw)
      exact absurd hn2 (hapart he hu hn1)
    · rw [goto_thread_other _ _ _ he] at hu
      rw [goto_thread_other _ _ _ he'] at hw
      exact h.apart hu hw hn1 hn2

theorem Inv.step_idle (h : Inv G s) (a : Option (SetOp V × Pc))
    (hf : ∀ op pc, a = some (op, pc) → Fit s.store s.live op pc ∧ pc.owns = none) :
    Inv G (s.goto s.store t a) := by
  have hL : (s.goto s.store t a).live ⊆ s.live :=
    live_goto h.mem subset_rfl fun op pc ha => (hf op pc ha).1.refs
  refine ⟨h.mem.mono (live_closed (s.goto s.store t a)) hL (head_mem_live _), ?_, ?_⟩
  · intro u op pc hu
    refine Fit.mono ?_ (fun r hr => mem_live hu hr) hL
    by_cases he : u = t
    · subst he
      rw [goto_thread_self] at hu
      exact (hf op pc hu).1
    · rw [goto_thread_other _ _ _ he] at hu
      exact h.fit hu
  · intro u w op op' pc pc' n hu hw hpc hpc'
    by_cases he : u = t
    · subst he
      rw [goto_thread_self] at hu
      rw [(hf op pc hu).2] at hpc
      cases hpc
    · by_cases he' : w = t
      · subst he'
        rw [goto_thread_self] at hw
        rw [(hf op' pc' hw).2] at hpc'
        cases hpc'
      · rw [goto_thread_other _ _ _ he] at hu
        rw [goto_thread_other _ _ _ he'] at hw
        exact h.apart hu hw hpc hpc'

theorem start_owns (op : SetOp V) : (start op).owns = none := by cases op <;> rfl

theorem start_pending (op : SetOp V) : (start op).pending = none := by cases op <;> rfl

theorem start_fit (hm : MemInv σ G L) (hk : op.key < INTPTR_MAX) : Fit σ L op (start op) := by
  have hp := start_pending op
  refine ⟨?_, hk, ?_, ?_, fun c h => ?_, fun n h => ?_⟩
  · cases op with
    | contains k =>
      simp only [start, Pc.refs, List.mem_singleton, forall_eq]
      exact hm.sound.head_mem (by decide)
    | _ => exact retry_refs hm
  · cases op with
    | contains k => trivial
    | _ => exact id
  · cases op with
    | contains k => exact ⟨by decide, head_below σ _⟩
    | _ => exact retry_local σ _
  · rw [hp] at h
    cases h
  · rw [hp] at h
    cases h

-- the step of an event that links newNode at an upper level below G finds it in order
def State.Tidy (G : ℕ) (s : State V) (e : Event (SetOp V)) : Prop :=
  ∀ t op pc, e = .tau t → s.thread t = some (op, pc) → pc.Tidy G s.store

theorem Inv.tidy_one (h : Inv G s) (e : Event (SetOp V)) : s.Tidy 1 e := by
  intro t op pc _ ht
  cases pc with
  | upperLink path n i =>
    intro hi
    have := (h.fit ht).loc.1.pos
    omega
  | _ => trivial

theorem tau_ok (h : Inv G s) (ht : s.thread t = some (op, pc)) (tidy : pc.Tidy G s.store)
    (hn : next s.store op slot level pc = some (σ, pc'))
    (ha : ∀ path, pc = .alloc path →
      s.store.avail slot = true ∧ 1 ≤ level ∧ level ≤ MAX_LEVEL)
    (clean : s.Clean (s.goto σ t (some (op, pc')))) : StepOk s.store G s.live op pc σ pc' := by
  refine (h.fit ht).step h.mem tidy (fun path he => ⟨ha path he, ?_⟩) hn
  refine clean slot (ha path he).1 ?_
  subst he
  simp only [next] at hn
  obtain ⟨rfl, rfl⟩ := Prod.mk.inj (Option.some.inj hn)
  simp [State.goto, Store.take]

theorem Inv.step (h : Inv G s) {e : Event (SetOp V)} (tidy : s.Tidy G e) (clean : s.Clean s')
    (hs : Step s e s') : Inv G s' := by
  cases hs with
  | call t op idle hk =>
    refine h.step_idle _ fun op1 pc1 ha => ?_
    obtain ⟨rfl, rfl⟩ := Prod.mk.inj (Option.some.inj ha)
    exact ⟨start_fit h.mem hk, start_owns op⟩
  | ret t op r ht => exact h.step_idle none fun _ _ h => nomatch h
  | tau t op pc pc' slot level σ ht hn ha =>
    exact h.step_tau ht (tau_ok h ht (tidy t op pc rfl ht) hn ha clean)

theorem avail_frame (hn : next σ op slot level pc = some (σ', pc'))
    (h1 : ∀ path, pc ≠ .alloc path) (h2 : ∀ n, pc ≠ .lostFree n) (h3 : ∀ n, pc ≠ .removeFree n) :
    σ'.avail = σ.avail := by
  cases act_of_next hn with
  | alloc => exact absurd rfl (h1 _)
  | lostFree => exact absurd rfl (h2 _)
  | removeFree => exact absurd rfl (h3 _)
  | _ => rfl

theorem next_take (hn : next σ op slot level pc = some (σ', pc')) (h0 : σ.avail x = true)
    (h1 : σ'.avail x = false) : x = slot ∧ ∃ path, pc = .alloc path := by
  have kept : ∀ n, ¬ (σ.give n).avail x = false := by
    intro n
    by_cases he : x = n <;> simp [Store.give, he, h0]
  cases pc with
  | alloc path =>
    obtain ⟨rfl, rfl⟩ := Prod.mk.inj (Option.some.inj hn)
    refine ⟨?_, path, rfl⟩
    by_contra he
    simp [Store.take, he, h0] at h1
  | lostFree n =>
    obtain ⟨rfl, rfl⟩ := Prod.mk.inj (Option.some.inj hn)
    exact absurd h1 (kept n)
  | removeFree n =>
    obtain ⟨rfl, rfl⟩ := Prod.mk.inj (Option.some.inj hn)
    exact absurd h1 (kept n)
  | _ =>
    rw [avail_frame hn (fun _ h => by cases h) (fun _ h => by cases h) (fun _ h => by cases h), h0]
      at h1
    cases h1

theorem sentinel_avail (hm : MemInv σ 1 L) (f : Fit σ L op pc)
    (hn : next σ op slot level pc = some (σ', pc')) (hx : x = head ∨ x = tail)
    (ha : σ.avail x = false) : σ'.avail x = false := by
  have hxl : (x, 0) ∈ L := by
    have hh : (head, 0) ∈ L := hm.sound.head_mem (by decide)
    rcases hx with rfl | rfl
    · exact hh
    · exact hm.sound.tail_mem hh
  cases pc with
  | alloc path =>
    obtain ⟨rfl, rfl⟩ := Prod.mk.inj (Option.some.inj hn)
    by_cases he : x = slot
    · simp [Store.take, he]
    · simpa [Store.take, he] using ha
  | lostFree n =>
    obtain ⟨rfl, rfl⟩ := Prod.mk.inj (Option.some.inj hn)
    have he : x ≠ n := by
      rintro rfl
      exact f.fresh _ rfl hxl
    simpa [Store.give, he] using ha
  | removeFree n =>
    obtain ⟨rfl, rfl⟩ := Prod.mk.inj (Option.some.inj hn)
    have he : x ≠ n := by
      rintro rfl
      rcases hx with rfl | rfl
      · exact hm.head_alive 0 f.loc.2
      · exact hm.ne_tail_of_dead f.loc.2 rfl
    simpa [Store.give, he] using ha
  | _ =>
    rw [avail_frame hn (fun _ h => by cases h) (fun _ h => by cases h) (fun _ h => by cases h)]
    exact ha

theorem initial_next (zero : V) (x : Loc) (i : ℕ) : ((initialStore zero).node x).next i =
    if x = head then Ptr.addr tail .inserted else ⟨none, .inserted⟩ := by
  simp only [initialStore, Store.node]
  split
  · rfl
  · split <;> rfl

def sentinels : Set Cursor := {c | (c.1 = head ∨ c.1 = tail) ∧ c.2 < MAX_LEVEL}

theorem initial_succ (zero : V) (h : (((initialStore zero).node x).next i).ref = some y) :
    x = head ∧ y = tail := by
  rw [initial_next] at h
  split at h
  · next he => exact ⟨he, (Option.some.inj h).symm⟩
  · cases h

theorem initial_state (zero : V) (i : ℕ) (x : Loc) : (initialStore zero).stateAt i x = .inserted := by
  unfold Store.stateAt
  rw [initial_next]
  split <;> rfl

theorem initial_alive (zero : V) (i : ℕ) (x : Loc) : ¬ (initialStore zero).dead i x := by
  unfold Store.dead
  rw [initial_state]
  exact nofun

theorem initial_head_tail (zero : V) (i : ℕ) : ((initialStore zero).level i).Reach head tail :=
  Heap.Reach.single (congrArg Ptr.ref (initial_next zero head i))

theorem initial_closed (zero : V) : (initialStore zero).tower.Closed sentinels where
  right hx hs := ⟨Or.inr (initial_succ zero hs).2, hx.2⟩
  down hx := ⟨hx.1, by have := hx.2; change _ + 1 < _ at this; change _ < _; omega⟩

theorem initial_live (zero : V) : (initial zero).live ⊆ sentinels := by
  refine (initial_closed zero).live_subset ?_
  rintro c (⟨h1, h2⟩ | ⟨t, op, pc, ht, _⟩)
  · exact ⟨Or.inl h1, h2⟩
  · cases ht

theorem initial_sound (zero : V) (G : ℕ) (hG : G ≤ MAX_LEVEL) :
    (initialStore zero).tower.Sound MAX_LEVEL G sentinels where
  closed := initial_closed zero
  head_mem hi := ⟨Or.inl rfl, hi⟩
  tail_end {i} _ := congrArg Ptr.ref (initial_next zero tail i)
  ends {x i} hx := by
    rcases hx.1 with h | h
    · obtain rfl : x = head := h
      exact initial_head_tail zero i
    · obtain rfl : x = tail := h
      exact Heap.Reach.refl _
  good {i} hi := by
    refine ⟨⟨Or.inl rfl, lt_of_lt_of_le hi hG⟩, ?_, ?_⟩
    · intro x y _ hs hr
      obtain ⟨rfl, rfl⟩ := initial_succ zero hs
      rcases hr.eq_or_succ with he | ⟨z, hz, _⟩
      · exact absurd he (by decide)
      · exact absurd (initial_succ zero hz).1 (by decide)
    · intro x hx _
      have hx := ((initial_closed zero).live_iff.1 hx).1
      rcases hx with h | h
      · obtain rfl : x = head := h
        exact Heap.Reach.refl _
      · obtain rfl : x = tail := h
        exact initial_head_tail zero i
  ordered {i} hi := by
    intro x y _ hs
    obtain ⟨rfl, rfl⟩ := initial_succ zero hs
    change rank (initialStore zero) head < rank (initialStore zero) tail
    rw [rank_head, rank_of_ne _ (by decide)]
    exact WithBot.bot_lt_coe _

theorem initial_memInv (zero : V) (hpos : 0 < G) (hG : G ≤ MAX_LEVEL) :
    MemInv (initialStore zero) G sentinels where
  sound := initial_sound zero G hG
  pos := hpos
  le := hG
  level {x i} hx := by
    have ht : ((initialStore zero).node x).topLevel = MAX_LEVEL := by
      rcases hx.1 with h | h <;> obtain rfl : x = _ := h <;> rfl
    rw [ht]
    exact ⟨hx.2, le_rfl⟩
  ne_head _ hs := absurd (initial_succ zero hs).2 (by decide)
  topDown _ _ _ hd := absurd hd (initial_alive zero _ _)
  marked {x i} _ h := by
    rw [initial_state] at h
    exact absurd h (by decide)
  upper _ := Or.inl (initial_state zero _ _)
  risen _ _ := by
    rw [initial_state]
    exact nofun
  head_state _ := initial_state zero _ _
  tail_next _ := initial_next zero tail _
  tail_key := rfl

theorem inv_initial (zero : V) (hpos : 0 < G) (hG : G ≤ MAX_LEVEL) : Inv G (initial zero) where
  mem := (initial_memInv zero hpos hG).mono (live_closed (initial zero)) (initial_live zero)
    (head_mem_live _)
  fit ht := nomatch ht
  apart ht := nomatch ht

def Clean (ρ : Run (machine V)) : Prop :=
  ∀ m < ρ.length, (ρ.state m).Clean (ρ.state (m + 1))

theorem inv_run_of (ρ : Run (machine V)) (hpos : 0 < G) (hG : G ≤ MAX_LEVEL) (clean : Clean ρ)
    (tidy : ∀ m < ρ.length, (ρ.state m).Tidy G (ρ.event m)) :
    ∀ n ≤ ρ.length, Inv G (ρ.state n) := by
  refine Run.stepwise ?_ fun m hm ih => ih.step (tidy m hm) (clean m hm) (ρ.step hm)
  obtain ⟨zero, h⟩ := ρ.init
  rw [h]
  exact inv_initial zero hpos hG

theorem inv_run (ρ : Run (machine V)) (clean : Clean ρ) : ∀ n ≤ ρ.length, Inv 1 (ρ.state n) := by
  refine Run.stepwise ?_ fun m hm ih => ih.step (ih.tidy_one _) (clean m hm) (ρ.step hm)
  obtain ⟨zero, h⟩ := ρ.init
  rw [h]
  exact inv_initial zero (by decide) (by decide)

-- every node that a call can get to or owns is in U, which the sentinels never are
structure Tracked (U : Loc → Prop) (s : State V) : Prop where
  inv : Inv 1 s
  live : ∀ {x}, (x, 0) ∈ s.live → x = head ∨ x = tail ∨ U x
  owned : ∀ {t op pc n}, s.thread t = some (op, pc) → pc.owns = some n → U n
  sentinel : ∀ {x}, x = head ∨ x = tail → s.store.avail x = false

theorem Effect.new {h : Option Loc} (e : Effect σ G L h L' σ')
    (hx : (x, i) ∈ L') : (x, i) ∈ L ∨ h = some x := by
  cases e with
  | join p n c i st live next alive fresh base new_next level tidy first risen =>
    rcases Set.mem_insert_iff.1 hx with he | hx
    · exact Or.inr (congrArg some (Prod.mk.inj he).1.symm)
    · exact Or.inl hx
  | _ => exact Or.inl hx

theorem Tracked.step {U U' : Loc → Prop} {e : Event (SetOp V)} (h : Tracked U s)
    (clean : s.Clean s') (hs : Step s e s') (hU : ∀ x, U x → U' x)
    (hnew : ∀ x, s.store.avail x = true → s'.store.avail x = false → U' x) : Tracked U' s' := by
  have hi' := h.inv.step (h.inv.tidy_one e) clean hs
  have old : ∀ {x}, (x, 0) ∈ s.live → x = head ∨ x = tail ∨ U' x :=
    fun hx => (h.live hx).imp_right (Or.imp_right (hU _))
  cases hs with
  | call t op idle hk =>
    have hl : (s.goto s.store t (some (op, start op))).live ⊆ s.live := by
      refine live_goto h.inv.mem subset_rfl fun op1 pc1 ha => ?_
      obtain ⟨rfl, rfl⟩ := Prod.mk.inj (Option.some.inj ha)
      exact (start_fit h.inv.mem hk).refs
    refine ⟨hi', fun hx => old (hl hx), fun {u op1 pc1 n} hu hn => ?_, h.sentinel⟩
    by_cases he : u = t
    · subst he
      rw [goto_thread_self] at hu
      obtain ⟨rfl, rfl⟩ := Prod.mk.inj (Option.some.inj hu)
      rw [start_owns] at hn
      cases hn
    · rw [goto_thread_other _ _ _ he] at hu
      exact hU _ (h.owned hu hn)
  | ret t op r ht =>
    have hl : (s.goto s.store t none).live ⊆ s.live :=
      live_goto h.inv.mem subset_rfl fun _ _ ha => nomatch ha
    refine ⟨hi', fun hx => old (hl hx), fun {u op1 pc1 n} hu hn => ?_, h.sentinel⟩
    by_cases he : u = t
    · subst he
      rw [goto_thread_self] at hu
      cases hu
    · rw [goto_thread_other _ _ _ he] at hu
      exact hU _ (h.owned hu hn)
  | tau t op pc pc' slot level σ ht hn ha =>
    have f := h.inv.fit ht
    obtain ⟨L', e, f', hown⟩ := tau_ok h.inv ht (h.inv.tidy_one (.tau t) t op pc rfl ht) hn ha clean
    have hl : (s.goto σ t (some (op, pc'))).live ⊆ L' := by
      refine live_goto (e.memInv h.inv.mem) (e.kept h.inv.mem).subset fun op1 pc1 ha => ?_
      obtain ⟨rfl, rfl⟩ := Prod.mk.inj (Option.some.inj ha)
      exact f'.refs
    refine ⟨hi', fun {x} hx => ?_, fun {u op1 pc1 n} hu hn' => ?_, fun {x} hx =>
      sentinel_avail h.inv.mem f hn hx (h.sentinel hx)⟩
    · rcases e.new (hl hx) with hx | hx
      · exact old hx
      · exact Or.inr (Or.inr (hU _ (h.owned ht hx)))
    · by_cases he : u = t
      · subst he
        rw [goto_thread_self] at hu
        obtain ⟨rfl, rfl⟩ := Prod.mk.inj (Option.some.inj hu)
        by_cases ho : pc.owns = some n
        · exact hU _ (h.owned ht ho)
        · obtain ⟨hav, hnl⟩ := (hown n hn').resolve_left ho
          refine hnew n hav ((f'.owned (e.memInv h.inv.mem) hn').resolve_left fun hx => ?_)
          exact (e.kept h.inv.mem).fresh ho hnl hx
      · rw [goto_thread_other _ _ _ he] at hu
        exact hU _ (h.owned hu hn')

theorem tracked_initial (zero : V) (U : Loc → Prop) :
    Tracked U (initial zero) where
  inv := inv_initial zero (by decide) (by decide)
  live hx := (initial_live zero hx).1.imp_right Or.inl
  owned ht := nomatch ht
  sentinel {x} hx := by
    rcases hx with rfl | rfl <;> rfl

section Recycled

variable (ρ : Run (machine V))

def Allocates (m : ℕ) (x : Loc) : Prop :=
  (ρ.state m).store.avail x = true ∧ (ρ.state (m + 1)).store.avail x = false

def NeverRecycled : Prop :=
  ∀ x m n, m < n → n < ρ.length → Allocates ρ m x → ¬ Allocates ρ n x

def Used (m : ℕ) (x : Loc) : Prop := ∃ j < m, Allocates ρ j x

variable {ρ}

theorem clean_of_tracked (never : NeverRecycled ρ) (hm : m < ρ.length)
    (h : Tracked (Used ρ m) (ρ.state m)) : (ρ.state m).Clean (ρ.state (m + 1)) := by
  intro x ha ha' hl
  have sentinel : ¬ (x = head ∨ x = tail) := by
    intro hx
    rw [h.sentinel hx] at ha
    cases ha
  rcases h.live hl with hx | hx | ⟨j, hj, hu⟩
  · exact sentinel (Or.inl hx)
  · exact sentinel (Or.inr hx)
  · exact never x j m hj hm hu ⟨ha, ha'⟩

theorem tracked_run (never : NeverRecycled ρ) :
    ∀ m ≤ ρ.length, Tracked (Used ρ m) (ρ.state m) := by
  refine Run.stepwise ?_ fun m hm ih => ?_
  · obtain ⟨zero, h⟩ := ρ.init
    rw [h]
    exact tracked_initial zero _
  · refine ih.step (clean_of_tracked never hm ih) (ρ.step hm) ?_ ?_
    · rintro x ⟨j, hj, hu⟩
      exact ⟨j, by omega, hu⟩
    · exact fun x ha ha' => ⟨m, by omega, ha, ha'⟩

theorem clean_of_neverRecycled (never : NeverRecycled ρ) : Clean ρ :=
  fun m hm => clean_of_tracked never hm (tracked_run never m hm.le)

end Recycled

end SOFT.SkipList
