import DurableSets.LinkFree.SkipListCall

namespace LinkFree.SkipList

open Chain

variable {V : Type} {σ σ' : Store V} {L L' : Set Cursor} {x y p n c d slot : Loc}
  {i j G level : ℕ} {op : SetOp V} {pc pc' : Pc} {path : Path} {q : Ptr}

structure Inv (G : ℕ) (s : State V) : Prop where
  mem : MemInv s.store G s.live
  fit : ∀ {t op pc}, s.thread t = some (op, pc) → Fit s.store s.live op pc
  apart : ∀ {t u op op' pc pc' n}, s.thread t = some (op, pc) → s.thread u = some (op', pc') →
    pc.owns = some n → pc'.owns = some n → t = u

variable {s s' : State V} {t u : Tid} {a : Option (SetOp V × Pc)}

theorem head_mem_roots (s : State V) (hi : i < MAX_LEVEL) : (head, i) ∈ s.roots :=
  Or.inl ⟨rfl, hi⟩

theorem mem_roots (ht : s.thread t = some (op, pc)) {r : Cursor} (hr : r ∈ pc.refs) :
    r ∈ s.roots := Or.inr ⟨t, op, pc, ht, hr⟩

theorem mem_live (ht : s.thread t = some (op, pc)) {r : Cursor} (hr : r ∈ pc.refs) :
    r ∈ s.live := Tower.live_root (mem_roots ht hr)

theorem roots_goto {r : Cursor} (hr : r ∈ (s.goto σ t a).roots) :
    r ∈ s.roots ∨ ∃ op pc, a = some (op, pc) ∧ r ∈ pc.refs := by
  rcases hr with hr | ⟨u, op, pc, hu, hr⟩
  · exact Or.inl (Or.inl hr)
  · by_cases he : u = t
    · subst he
      rw [goto_thread_self] at hu
      exact Or.inr ⟨op, pc, hu, hr⟩
    · rw [goto_thread_other _ _ _ he] at hu
      exact Or.inl (mem_roots hu hr)

theorem live_closed (s : State V) : s.store.tower.Closed s.live := Tower.live_closed _ _

theorem head_mem_live (s : State V) (hi : i < MAX_LEVEL) : (head, i) ∈ s.live :=
  Tower.live_root (head_mem_roots s hi)

theorem base_of_pending (h : pc.pending = some (n, i + 1)) : (n, i) ∈ pc.refs := by
  cases pc with
  | findDown c j p path =>
    cases c with
    | inInsert m l =>
      obtain ⟨rfl, rfl⟩ := Prod.mk.inj (Option.some.inj h)
      simp [Pc.refs, FindCtx.refs]
    | inRemove m => cases h
  | findLoad c j p d s path =>
    cases c with
    | inInsert m l =>
      obtain ⟨rfl, rfl⟩ := Prod.mk.inj (Option.some.inj h)
      simp [Pc.refs, FindCtx.refs]
    | inRemove m => cases h
  | findCas c j p d s path =>
    cases c with
    | inInsert m l =>
      obtain ⟨rfl, rfl⟩ := Prod.mk.inj (Option.some.inj h)
      simp [Pc.refs, FindCtx.refs]
    | inRemove m => cases h
  | upperLoad path m j =>
    obtain ⟨rfl, rfl⟩ := Prod.mk.inj (Option.some.inj h)
    simp [Pc.refs]
  | upperCas path m j q =>
    obtain ⟨rfl, rfl⟩ := Prod.mk.inj (Option.some.inj h)
    simp [Pc.refs]
  | upperLink path m j =>
    obtain ⟨rfl, rfl⟩ := Prod.mk.inj (Option.some.inj h)
    simp [Pc.refs]
  | deleteLoad d m =>
    rcases d with ⟨_ | _, _⟩ | _ | _ <;>
      simp_all [Pc.pending, DeleteCtx.pending, FindCtx.pending, Pc.refs, DeleteCtx.refs, FindCtx.refs]
  | deleteFlush d m =>
    rcases d with ⟨_ | _, _⟩ | _ | _ <;>
      simp_all [Pc.pending, DeleteCtx.pending, FindCtx.pending, Pc.refs, DeleteCtx.refs, FindCtx.refs]
  | deleteStore d m =>
    rcases d with ⟨_ | _, _⟩ | _ | _ <;>
      simp_all [Pc.pending, DeleteCtx.pending, FindCtx.pending, Pc.refs, DeleteCtx.refs, FindCtx.refs]
  | validLoad d m =>
    cases d <;> simp_all [Pc.pending, ValidCtx.pending, Pc.refs, ValidCtx.refs]
  | validStore d m old =>
    cases d <;> simp_all [Pc.pending, ValidCtx.pending, Pc.refs, ValidCtx.refs]
  | insertLoad d m =>
    cases d <;> simp_all [Pc.pending, InsertCtx.pending, Pc.refs, InsertCtx.refs]
  | insertFlush d m =>
    cases d <;> simp_all [Pc.pending, InsertCtx.pending, Pc.refs, InsertCtx.refs]
  | insertStore d m =>
    cases d <;> simp_all [Pc.pending, InsertCtx.pending, Pc.refs, InsertCtx.refs]
  | _ => simp_all [Pc.pending]

theorem Fit.owned (hm : MemInv σ G L) (f : Fit σ L op pc) (h : pc.owns = some n) :
    (n, 0) ∈ L ∨ σ.avail n = false := by
  obtain ⟨i, hi⟩ := pending_of_owns h
  cases i with
  | zero => exact Or.inr (f.avail n hi)
  | succ i => exact Or.inl (hm.base (f.refs _ (base_of_pending hi)))

theorem Fit.kept {h : Option Loc} (hm : MemInv σ G L) (f : Fit σ L op pc) (k : Kept σ L h L' σ')
    (hne : ∀ n, pc.owns = some n → h ≠ some n) : Fit σ' L' op pc where
  refs r hr := k.subset (f.refs r hr)
  key := f.key
  fits := f.fits
  loc := by
    refine k.local hm.sound.closed f.refs (fun n hn => ?_) (fun n i hn hi => ?_) f.loc
    · exact k.line (hne n (owns_of_pending hn)) (f.fresh _ hn)
    · obtain ⟨i, rfl⟩ := Nat.exists_eq_add_of_le' hi
      exact k.ref (hne n (owns_of_pending hn)) (hm.base (f.refs _ (base_of_pending hn)))
        (f.fresh _ hn)
  fresh c hc := k.fresh (hne c.1 (owns_of_pending hc)) (f.fresh c hc)
  avail n hn := k.avail (hne n (owns_of_pending hn)) (f.fresh _ hn) (f.avail n hn)

theorem Fit.mono (f : Fit σ L op pc) (hr : ∀ r ∈ pc.refs, r ∈ L') (hL : L' ⊆ L) :
    Fit σ L' op pc where
  refs := hr
  key := f.key
  fits := f.fits
  loc := f.loc
  fresh c hc h := f.fresh c hc (hL h)
  avail := f.avail

theorem live_goto (hm : MemInv σ G L) (hL : s.live ⊆ L)
    (ha : ∀ op pc, a = some (op, pc) → ∀ r ∈ pc.refs, r ∈ L) : (s.goto σ t a).live ⊆ L := by
  refine hm.sound.closed.live_subset fun r hr => ?_
  rcases roots_goto hr with hr | ⟨op, pc, he, hr⟩
  · exact hL (Tower.live_root hr)
  · exact ha op pc he r hr

theorem Inv.step_tau (h : Inv G s) (ht : s.thread t = some (op, pc))
    (ok : StepOk s.store G s.live op pc σ pc') : Inv G (s.goto σ t (some (op, pc'))) := by
  obtain ⟨L', e, f, hnew⟩ := ok
  have k := e.kept h.mem
  have hm := e.memInv h.mem
  have hL : (s.goto σ t (some (op, pc'))).live ⊆ L' := by
    refine live_goto hm k.subset ?_
    intro op1 pc1 ha
    obtain ⟨rfl, rfl⟩ := Prod.mk.inj (Option.some.inj ha)
    exact f.refs
  have hother : ∀ {u op1 pc1 n}, u ≠ t → s.thread u = some (op1, pc1) → pc1.owns = some n →
      pc.owns ≠ some n := fun hne hu hn hn' => hne (h.apart hu ht hn hn')
  have hapart : ∀ {u op1 pc1 n}, u ≠ t → s.thread u = some (op1, pc1) → pc1.owns = some n →
      pc'.owns ≠ some n := by
    intro u op1 pc1 n hne hu hn hn'
    rcases hnew n hn' with hn' | ⟨ha, hl⟩
    · exact hother hne hu hn hn'
    · rcases (h.fit hu).owned h.mem hn with hl' | ha'
      · exact hl hl'
      · rw [ha] at ha'
        cases ha'
  refine ⟨hm.mono (live_closed (s.goto σ t _)) hL (head_mem_live _), ?_, ?_⟩
  · intro u op1 pc1 hu
    refine Fit.mono ?_ (fun r hr => mem_live hu hr) hL
    by_cases he : u = t
    · subst he
      rw [goto_thread_self] at hu
      obtain ⟨rfl, rfl⟩ := Prod.mk.inj (Option.some.inj hu)
      exact f
    · rw [goto_thread_other _ _ _ he] at hu
      exact (h.fit hu).kept h.mem k fun n hn => hother he hu hn
  · intro u w op1 op2 pc1 pc2 n hu hw hn1 hn2
    by_cases he : u = t <;> by_cases he' : w = t
    · rw [he, he']
    · subst he
      rw [goto_thread_self] at hu
      rw [goto_thread_other _ _ _ he'] at hw
      obtain ⟨rfl, rfl⟩ := Prod.mk.inj (Option.some.inj hu)
      exact absurd hn1 (hapart he' hw hn2)
    · subst he'
      rw [goto_thread_self] at hw
      rw [goto_thread_other _ _ _ he] at hu
      obtain ⟨rfl, rfl⟩ := Prod.mk.inj (Option.some.inj hw)
      exact absurd hn2 (hapart he hu hn1)
    · rw [goto_thread_other _ _ _ he] at hu
      rw [goto_thread_other _ _ _ he'] at hw
      exact h.apart hu hw hn1 hn2

theorem Inv.step_idle (h : Inv G s) (a : Option (SetOp V × Pc))
    (hf : ∀ op pc, a = some (op, pc) → Fit s.store s.live op pc ∧ pc.owns = none) :
    Inv G (s.goto s.store t a) := by
  have hL : (s.goto s.store t a).live ⊆ s.live :=
    live_goto h.mem subset_rfl fun op pc ha => (hf op pc ha).1.refs
  refine ⟨h.mem.mono (live_closed (s.goto s.store t a)) hL (head_mem_live _), ?_, ?_⟩
  · intro u op pc hu
    refine Fit.mono ?_ (fun r hr => mem_live hu hr) hL
    by_cases he : u = t
    · subst he
      rw [goto_thread_self] at hu
      exact (hf op pc hu).1
    · rw [goto_thread_other _ _ _ he] at hu
      exact h.fit hu
  · intro u w op op' pc pc' n hu hw hpc hpc'
    by_cases he : u = t
    · subst he
      rw [goto_thread_self] at hu
      rw [(hf op pc hu).2] at hpc
      cases hpc
    · by_cases he' : w = t
      · subst he'
        rw [goto_thread_self] at hw
        rw [(hf op' pc' hw).2] at hpc'
        cases hpc'
      · rw [goto_thread_other _ _ _ he] at hu
        rw [goto_thread_other _ _ _ he'] at hw
        exact h.apart hu hw hpc hpc'

theorem start_owns (op : SetOp V) : (start op).owns = none := by cases op <;> rfl

theorem start_pending (op : SetOp V) : (start op).pending = none := by cases op <;> rfl

theorem start_fit (hm : MemInv σ G L) (hk : op.key < INT_MAX) : Fit σ L op (start op) := by
  have hp := start_pending op
  refine ⟨?_, hk, ?_, ?_, fun c h => ?_, fun n h => ?_⟩
  · cases op with
    | contains k =>
      simp only [start, Pc.refs, List.mem_singleton, forall_eq]
      exact hm.sound.head_mem (by decide)
    | _ => exact retry_refs hm
  · cases op with
    | contains k => trivial
    | _ => exact id
  · cases op with
    | contains k => exact ⟨by decide, head_below σ _⟩
    | _ => exact retry_local σ _
  · rw [hp] at h
    cases h
  · rw [hp] at h
    cases h

-- the step of an event that links newNode at an upper level below G finds it in order
def State.Tidy (G : ℕ) (s : State V) (e : Event (SetOp V)) : Prop :=
  ∀ t op pc, e = .tau t → s.thread t = some (op, pc) → pc.Tidy G s.store

theorem Inv.tidy_one (h : Inv G s) (e : Event (SetOp V)) : s.Tidy 1 e := by
  intro t op pc _ ht
  cases pc with
  | upperLink path n i =>
    intro hi
    have := (h.fit ht).loc.1.pos
    omega
  | _ => trivial

theorem tau_ok (h : Inv G s) (ht : s.thread t = some (op, pc)) (tidy : pc.Tidy G s.store)
    (hn : next s.store op slot level pc = some (σ, pc'))
    (ha : ∀ path, pc = .alloc path →
      s.store.avail slot = true ∧ 1 ≤ level ∧ level ≤ MAX_LEVEL)
    (clean : s.Clean (s.goto σ t (some (op, pc')))) : StepOk s.store G s.live op pc σ pc' := by
  refine (h.fit ht).step h.mem tidy (fun path he => ⟨ha path he, ?_⟩) hn
  refine clean slot (ha path he).1 ?_
  subst he
  simp only [next] at hn
  obtain ⟨rfl, rfl⟩ := Prod.mk.inj (Option.some.inj hn)
  simp [State.goto, Store.take]

theorem Inv.step (h : Inv G s) {e : Event (SetOp V)} (tidy : s.Tidy G e) (clean : s.Clean s')
    (hs : Step s e s') : Inv G s' := by
  cases hs with
  | call t op idle hk =>
    refine h.step_idle _ fun op1 pc1 ha => ?_
    obtain ⟨rfl, rfl⟩ := Prod.mk.inj (Option.some.inj ha)
    exact ⟨start_fit h.mem hk, start_owns op⟩
  | ret t op r ht => exact h.step_idle none fun _ _ h => nomatch h
  | tau t op pc pc' slot level σ ht hn ha =>
    exact h.step_tau ht (tau_ok h ht (tidy t op pc rfl ht) hn ha clean)

theorem avail_frame (hn : next σ op slot level pc = some (σ', pc'))
    (h1 : ∀ path, pc ≠ .alloc path) (h2 : ∀ n, pc ≠ .lostFree n) (h3 : ∀ n, pc ≠ .removeFree n) :
    σ'.avail = σ.avail := by
  cases pc with
  | alloc path => exact absurd rfl (h1 path)
  | lostFree n => exact absurd rfl (h2 n)
  | removeFree n => exact absurd rfl (h3 n)
  | initValue path n l =>
    cases op with
    | insert k v =>
      obtain ⟨rfl, rfl⟩ := Prod.mk.inj (Option.some.inj hn)
      rfl
    | _ => cases hn
  | containsTest i p c =>
    simp only [next] at hn
    split at hn
    · obtain ⟨rfl, rfl⟩ := Prod.mk.inj (Option.some.inj hn)
      rfl
    · split at hn
      · obtain ⟨rfl, rfl⟩ := Prod.mk.inj (Option.some.inj hn)
        rfl
      · cases i <;> obtain ⟨rfl, rfl⟩ := Prod.mk.inj (Option.some.inj hn) <;> rfl
  | ret r => cases hn
  | _ =>
    simp only [next] at hn
    repeat' split at hn
    all_goals first
      | obtain ⟨rfl, rfl⟩ := Prod.mk.inj (Option.some.inj hn)
        rfl
      | obtain ⟨e, _, he⟩ := Option.map_eq_some_iff.1 hn
        first
        | obtain ⟨rfl, rfl⟩ := Prod.mk.inj he
          rfl
        | split at he <;> obtain ⟨rfl, rfl⟩ := Prod.mk.inj he <;> rfl

theorem next_take (hn : next σ op slot level pc = some (σ', pc')) (h0 : σ.avail x = true)
    (h1 : σ'.avail x = false) : x = slot ∧ ∃ path, pc = .alloc path := by
  have kept : ∀ n, ¬ (σ.give n).avail x = false := by
    intro n
    by_cases he : x = n <;> simp [Store.give, he, h0]
  cases pc with
  | alloc path =>
    obtain ⟨rfl, rfl⟩ := Prod.mk.inj (Option.some.inj hn)
    refine ⟨?_, path, rfl⟩
    by_contra he
    simp [Store.take, he, h0] at h1
  | lostFree n =>
    obtain ⟨rfl, rfl⟩ := Prod.mk.inj (Option.some.inj hn)
    exact absurd h1 (kept n)
  | removeFree n =>
    obtain ⟨rfl, rfl⟩ := Prod.mk.inj (Option.some.inj hn)
    exact absurd h1 (kept n)
  | _ =>
    rw [avail_frame hn (fun _ h => by cases h) (fun _ h => by cases h) (fun _ h => by cases h), h0]
      at h1
    cases h1

theorem sentinel_avail (hm : MemInv σ 1 L) (f : Fit σ L op pc)
    (hn : next σ op slot level pc = some (σ', pc')) (hx : x = head ∨ x = tail)
    (ha : σ.avail x = false) : σ'.avail x = false := by
  have hxl : (x, 0) ∈ L := by
    have hh : (head, 0) ∈ L := hm.sound.head_mem (by decide)
    rcases hx with rfl | rfl
    · exact hh
    · exact hm.sound.tail_mem hh
  cases pc with
  | alloc path =>
    obtain ⟨rfl, rfl⟩ := Prod.mk.inj (Option.some.inj hn)
    by_cases he : x = slot
    · simp [Store.take, he]
    · simpa [Store.take, he] using ha
  | lostFree n =>
    obtain ⟨rfl, rfl⟩ := Prod.mk.inj (Option.some.inj hn)
    have he : x ≠ n := by
      rintro rfl
      exact f.fresh _ rfl hxl
    simpa [Store.give, he] using ha
  | removeFree n =>
    obtain ⟨rfl, rfl⟩ := Prod.mk.inj (Option.some.inj hn)
    have he : x ≠ n := by
      rintro rfl
      rcases hx with rfl | rfl
      · exact hm.head_alive 0 f.loc.2
      · exact hm.ne_tail_of_dead f.loc.2 rfl
    simpa [Store.give, he] using ha
  | _ =>
    rw [avail_frame hn (fun _ h => by cases h) (fun _ h => by cases h) (fun _ h => by cases h)]
    exact ha

theorem initial_next (zero : V) (junk : Uchar) (x : Loc) (i : ℕ) :
    ((initialStore zero junk).node x).next i = if x = head then Ptr.addr tail else Ptr.null := by
  simp only [initialStore, Store.node]
  split
  · rfl
  · split <;> rfl

def sentinels : Set Cursor := {c | (c.1 = head ∨ c.1 = tail) ∧ c.2 < MAX_LEVEL}

theorem initial_succ (zero : V) (junk : Uchar)
    (h : (((initialStore zero junk).node x).next i).ref = some y) : x = head ∧ y = tail := by
  rw [initial_next] at h
  split at h
  · next he => exact ⟨he, (Option.some.inj h).symm⟩
  · cases h

theorem initial_alive (zero : V) (junk : Uchar) (i : ℕ) (x : Loc) :
    ¬ (initialStore zero junk).dead i x := by
  unfold Store.dead
  rw [initial_next]
  split <;> exact Bool.false_ne_true

theorem initial_head_tail (zero : V) (junk : Uchar) (i : ℕ) :
    ((initialStore zero junk).level i).Reach head tail :=
  Heap.Reach.single (congrArg Ptr.ref (initial_next zero junk head i))

theorem initial_closed (zero : V) (junk : Uchar) :
    (initialStore zero junk).tower.Closed sentinels where
  right hx hs := ⟨Or.inr (initial_succ zero junk hs).2, hx.2⟩
  down hx := ⟨hx.1, by have := hx.2; change _ + 1 < _ at this; change _ < _; omega⟩

theorem initial_live (zero : V) (junk : Uchar) : (initial zero junk).live ⊆ sentinels := by
  refine (initial_closed zero junk).live_subset ?_
  rintro c (⟨h1, h2⟩ | ⟨t, op, pc, ht, _⟩)
  · exact ⟨Or.inl h1, h2⟩
  · cases ht

theorem initial_sound (zero : V) (junk : Uchar) (G : ℕ) (hG : G ≤ MAX_LEVEL) :
    (initialStore zero junk).tower.Sound MAX_LEVEL G sentinels where
  closed := initial_closed zero junk
  head_mem hi := ⟨Or.inl rfl, hi⟩
  tail_end {i} _ := congrArg Ptr.ref (initial_next zero junk tail i)
  ends {x i} hx := by
    rcases hx.1 with h | h
    · obtain rfl : x = head := h
      exact initial_head_tail zero junk i
    · obtain rfl : x = tail := h
      exact Heap.Reach.refl _
  good {i} hi := by
    refine ⟨⟨Or.inl rfl, lt_of_lt_of_le hi hG⟩, ?_, ?_⟩
    · intro x y _ hs hr
      obtain ⟨rfl, rfl⟩ := initial_succ zero junk hs
      rcases hr.eq_or_succ with he | ⟨z, hz, _⟩
      · exact absurd he (by decide)
      · exact absurd (initial_succ zero junk hz).1 (by decide)
    · intro x hx _
      have hx := ((initial_closed zero junk).live_iff.1 hx).1
      rcases hx with h | h
      · obtain rfl : x = head := h
        exact Heap.Reach.refl _
      · obtain rfl : x = tail := h
        exact initial_head_tail zero junk i
  ordered {i} hi := by
    intro x y _ hs
    obtain ⟨rfl, rfl⟩ := initial_succ zero junk hs
    change rank (initialStore zero junk) head < rank (initialStore zero junk) tail
    rw [rank_head, rank_of_ne _ (by decide)]
    exact WithBot.bot_lt_coe _

theorem initial_flags (zero : V) (junk : Uchar) (x : Loc) :
    ((initialStore zero junk).node x).insertFlag = false ∧
    ((initialStore zero junk).node x).deleteFlag = false := by
  simp only [initialStore, Store.node]
  split
  · exact ⟨rfl, rfl⟩
  · split <;> exact ⟨rfl, rfl⟩

theorem initial_memInv (zero : V) (junk : Uchar) (hpos : 0 < G) (hG : G ≤ MAX_LEVEL) :
    MemInv (initialStore zero junk) G sentinels where
  sound := initial_sound zero junk G hG
  pos := hpos
  le := hG
  level {x i} hx := by
    have ht : ((initialStore zero junk).node x).topLevel = MAX_LEVEL := by
      rcases hx.1 with h | h <;> obtain rfl : x = _ := h <;> rfl
    rw [ht]
    exact ⟨hx.2, le_rfl⟩
  ne_head _ hs := absurd (initial_succ zero junk hs).2 (by decide)
  topDown _ _ _ hd := absurd hd (initial_alive zero junk _ _)
  head_alive _ := initial_alive zero junk _ _
  tail_next _ := initial_next zero junk tail _
  tail_key := rfl
  insertFlag {x} _ hf := by
    rw [(initial_flags zero junk x).1] at hf
    cases hf
  deleteFlag {x} _ hf := by
    rw [(initial_flags zero junk x).2] at hf
    cases hf
  persist _ hd := absurd hd (initial_alive zero junk _ _)

theorem inv_initial (zero : V) (junk : Uchar) (hpos : 0 < G) (hG : G ≤ MAX_LEVEL) :
    Inv G (initial zero junk) where
  mem := (initial_memInv zero junk hpos hG).mono (live_closed (initial zero junk)) (initial_live zero junk)
    (head_mem_live _)
  fit ht := nomatch ht
  apart ht := nomatch ht

def Clean (ρ : Run (machine V)) : Prop :=
  ∀ m < ρ.length, (ρ.state m).Clean (ρ.state (m + 1))

theorem inv_run_of (ρ : Run (machine V)) (hpos : 0 < G) (hG : G ≤ MAX_LEVEL) (clean : Clean ρ)
    (tidy : ∀ m < ρ.length, (ρ.state m).Tidy G (ρ.event m)) :
    ∀ n ≤ ρ.length, Inv G (ρ.state n) := by
  refine Run.stepwise ?_ fun m hm ih => ih.step (tidy m hm) (clean m hm) (ρ.step hm)
  obtain ⟨zero, junk, h⟩ := ρ.init
  rw [h]
  exact inv_initial zero junk hpos hG

theorem inv_run (ρ : Run (machine V)) (clean : Clean ρ) : ∀ n ≤ ρ.length, Inv 1 (ρ.state n) := by
  refine Run.stepwise ?_ fun m hm ih => ih.step (ih.tidy_one _) (clean m hm) (ρ.step hm)
  obtain ⟨zero, junk, h⟩ := ρ.init
  rw [h]
  exact inv_initial zero junk (by decide) (by decide)

end LinkFree.SkipList
