import DurableSets.SOFT.SkipListPersist
import DurableSets.SOFT.SkipListReclaim

namespace SOFT.SkipList

open Chain

variable {V : Type} {x y : Loc} {i m : ℕ} {op : SetOp V} {pc : Pc} {s s' : State V} {t : Tid}
  {ρ : Run (machine V)}

-- x is DELETED, or not in the list and only of use to ssmem_free
def State.Gone (s : State V) (x : Loc) : Prop :=
  ((x, 0) ∈ s.live ∧ s.store.dead 0 x) ∨ ((x, 0) ∉ s.live ∧
    ∀ t op pc, s.thread t = some (op, pc) → pc.pending = some (x, 0) →
      pc = .lostStore x ∨ pc = .lostFree x)

theorem Inv.gone_of_lost (hi : Inv 1 s) (ht : s.thread t = some (op, .lostStore x)) : s.Gone x := by
  refine Or.inr ⟨(hi.fit ht).fresh _ rfl, fun u op' pc hu hp => ?_⟩
  obtain rfl := hi.apart hu ht (owns_of_pending hp) rfl
  obtain ⟨rfl, rfl⟩ := Prod.mk.inj (Option.some.inj (ht.symm.trans hu))
  exact Or.inl rfl

section Step

variable {e : Event (SetOp V)} (hi : Inv 1 s) (clean : s.Clean s') (hs : Step s e s')

include hi clean hs

theorem Inv.not_unlinked (hx : (x, 0) ∈ s.live) : ¬ s'.Unlinked x := by
  intro hu
  rcases hi.unlinked_step clean hs hu with ⟨u, op, pc, hu, hp⟩ | ⟨h0, h1⟩
  · exact (hi.fit hu).fresh _ hp hx
  · exact clean x h0 h1 hx

theorem Inv.gone_of_dead (hx : (x, 0) ∈ s.live) (hd : s'.store.dead 0 x) : s'.Gone x := by
  by_cases hl : (x, 0) ∈ s'.live
  · exact Or.inl ⟨hl, hd⟩
  · exact Or.inr ⟨hl, fun t op pc ht hp =>
      absurd ⟨t, op, pc, ht, hp⟩ (hi.not_unlinked clean hs hx)⟩

theorem Inv.lost_step (hx : (x, 0) ∉ s.live) (hno : ¬ (s.store.avail x = true ∧
    s'.store.avail x = false)) (hold : ∀ t op pc, s.thread t = some (op, pc) →
      pc.pending = some (x, 0) → pc = .lostStore x ∨ pc = .lostFree x) {u : Tid}
    (hu : s'.thread u = some (op, pc)) (hp : pc.pending = some (x, 0)) :
    pc = .lostStore x ∨ pc = .lostFree x := by
  by_cases he : u = e.tid
  · subst he
    cases hs with
    | call t op1 idle hk =>
      obtain ⟨rfl, rfl⟩ := Prod.mk.inj (Option.some.inj ((goto_thread_self s _ t _).symm.trans hu))
      rw [start_pending] at hp
      cases hp
    | ret t op1 r ht => exact absurd ((goto_thread_self s _ t none).symm.trans hu) nofun
    | tau t op1 pc1 pc' slot level σ ht hn ha =>
      obtain ⟨rfl, rfl⟩ := Prod.mk.inj (Option.some.inj ((goto_thread_self s σ t _).symm.trans hu))
      obtain ⟨L', e, f', hown⟩ :=
        tau_ok hi ht (hi.tidy_one (.tau t) t op1 pc1 rfl ht) hn ha clean
      have ho := (hown x (owns_of_pending hp)).resolve_right fun h =>
        hno ⟨h.1, f'.avail x hp⟩
      rcases hold t op1 pc1 ht (pending_zero hi ht ho hx) with rfl | rfl
      · cases act_of_next hn
        exact Or.inr rfl
      · cases act_of_next hn
        cases hp
  · exact hold u op pc (((machine V).step_other hs he).symm.trans hu) hp

theorem State.Gone.step (h : s.Gone x) (hno : ¬ (s.store.avail x = true ∧
    s'.store.avail x = false)) : s'.Gone x := by
  rcases h with ⟨hx, hd⟩ | ⟨hx, hold⟩
  · refine hi.gone_of_dead clean hs hx ?_
    exact (congrArg Ptr.state ((hi.evolves clean hs hx).next 0 hd)).trans hd
  · refine Or.inr ⟨fun hx' => ?_, fun u op pc hu hp => hi.lost_step clean hs hx hno hold hu hp⟩
    obtain ⟨op, path, slot, level, ht, _⟩ := (hi.live_step clean hs hx').resolve_left hx
    rcases hold _ _ _ ht rfl with h | h <;> cases h

end Step

theorem gone_run (clean : Clean ρ) {m : ℕ} (h : (ρ.state m).Gone x)
    (hno : ∀ j, m ≤ j → j < ρ.length → ¬ Allocates ρ j x) :
    ∀ n, m ≤ n → n ≤ ρ.length → (ρ.state n).Gone x := by
  intro n hmn
  induction n, hmn using Nat.le_induction with
  | base => exact fun _ => h
  | succ n hmn ih =>
    intro hn
    have hn : n < ρ.length := hn
    exact (ih hn.le).step (inv_run ρ clean n hn.le) (clean n hn) (ρ.step hn) (hno n hmn hn)

theorem Saved.not_valid (h : Saved s) (hi : Inv 1 s) (hg : s.Gone x) {c : Node V}
    (hc : c ∈ (s.store.line x).contents) : c.isValid = false := by
  rcases hg with ⟨hx, hd⟩ | ⟨hx, _⟩
  · have h1 : x ≠ head := by
      rintro rfl
      exact hi.mem.head_alive 0 hd
    exact ((h.live hx h1 (hi.mem.ne_tail_of_dead hd)).spare hd).1.not_valid hc
  · exact (h.clear hi hx).not_valid hc

-- what NVRAM holds of each slot
structure State.Image (s : State V) where
  node : Loc → Node V
  written : ∀ x, node x ∈ (s.store.line x).contents

def State.Image.Holds (img : s.Image) (x : Loc) : Prop :=
  (img.node x).isValid = true ∧ (img.node x).key = (s.store.node x).key ∧
    (img.node x).value = (s.store.node x).value

structure Durable (ρ : Run (machine V)) (img : (ρ.state ρ.length).Image) : Prop where
  inserted : ∀ {x}, ((ρ.state ρ.length).store.level 0).Linked x → x ≠ head → x ≠ tail →
    stateAt ρ ρ.length x = .inserted → img.Holds x
  upper : ∀ {x i}, 1 ≤ i → i < MAX_LEVEL → ((ρ.state ρ.length).store.level i).Linked x →
    x ≠ head → x ≠ tail → (ρ.state ρ.length).store.stateAt i x ≠ .deleted → img.Holds x
  deleted : ∀ {m x}, m < ρ.length → stateAt ρ m x ≠ .deleted → stateAt ρ (m + 1) x = .deleted →
    (∀ j, m < j → j < ρ.length → ¬ Allocates ρ j x) → ¬ (img.node x).isValid = true
  lost : ∀ {m t op x}, m ≤ ρ.length → (ρ.state m).thread t = some (op, .lostStore x) →
    (∀ j, m ≤ j → j < ρ.length → ¬ Allocates ρ j x) → ¬ (img.node x).isValid = true
  unique : ∀ {x y}, (img.node x).isValid = true → (img.node y).isValid = true →
    (img.node x).key = (img.node y).key → x = y

theorem Saved.holds (h : Saved s) (img : s.Image) (hx : (x, 0) ∈ s.live) (h1 : x ≠ head)
    (h2 : x ≠ tail) (hs : s.store.stateAt 0 x = .inserted) : img.Holds x :=
  (h.live hx h1 h2).inserted hs (img.written x)

section Crash

variable (h : Saved s) (hi : Inv 1 s) (img : s.Image)

include h hi

theorem Saved.holds_upper (hpos : 1 ≤ i) (hlt : i < MAX_LEVEL) (hx : (s.store.level i).Linked x)
    (h1 : x ≠ head) (h2 : x ≠ tail) (hs : s.store.stateAt i x ≠ .deleted) : img.Holds x := by
  have hl : (x, i) ∈ s.live := (live_closed s).reach (head_mem_live s hlt) hx
  exact h.holds img (hi.mem.base hl) h1 h2 (hi.mem.inserted_below hl hpos hs)

theorem Saved.valid {img : s.Image} (hv : (img.node x).isValid = true) :
    (s.store.level 0).Linked x ∧ x ≠ head ∧ (img.node x).key = (s.store.node x).key := by
  have invalid : ¬ Clear (s.store.line x) := fun hc =>
    absurd ((hc.not_valid (img.written x)).symm.trans hv) nofun
  have hl : (x, 0) ∈ s.live := by
    by_contra hl
    exact invalid (h.clear hi hl)
  have h1 : x ≠ head := fun he => invalid (h.sentinel (Or.inl he))
  have h2 : x ≠ tail := fun he => invalid (h.sentinel (Or.inr he))
  obtain ⟨hk, _, hd⟩ := (h.live hl h1 h2).valid (img.written x) hv
  exact ⟨hi.mem.linked_of_alive hl Nat.one_pos hd, h1, hk⟩

theorem Saved.unique {img : s.Image} (hx : (img.node x).isValid = true)
    (hy : (img.node y).isValid = true) (he : (img.node x).key = (img.node y).key) : x = y := by
  obtain ⟨hxl, hxh, hxk⟩ := h.valid hi hx
  obtain ⟨hyl, hyh, hyk⟩ := h.valid hi hy
  have sorted : Sorted (s.store.level 0) (Tower.floor s.live 0) := ⟨hi.mem.good, hi.mem.ordered⟩
  refine sorted.eq_of_rank hxl hyl ?_
  change rank s.store x = rank s.store y
  rw [rank_of_ne _ hxh, rank_of_ne _ hyh, ← hxk, ← hyk, he]

end Crash

theorem softSkipList_durable (ρ : Run (machine V)) (clean : Clean ρ)
    (img : (ρ.state ρ.length).Image) : Durable ρ img := by
  have h := saved_run ρ clean ρ.length le_rfl
  have hi := inv_run ρ clean ρ.length le_rfl
  refine ⟨fun hx h1 h2 hs => ?_, fun hpos hlt hx h1 h2 hs => ?_, fun {m x} hm h0 h1 hno => ?_,
    fun {m t op x} hm ht hno => ?_, fun hx hy he => h.unique hi hx hy he⟩
  · exact h.holds img (hi.mem.live_of_linked hx) h1 h2 hs
  · exact h.holds_upper hi img hpos hlt hx h1 h2 hs
  · have hi' := inv_run ρ clean m hm.le
    have hl : (x, 0) ∈ (ρ.state m).live := by
      by_contra hl
      rcases hi'.state_unlinked (clean m hm) (ρ.step hm) fun hx =>
        hl (hi'.mem.live_of_linked hx.1) with hs | hs
      · exact h0 (hs.symm.trans h1)
      · exact absurd (hs.symm.trans h1) nofun
    have hg := gone_run clean (hi'.gone_of_dead (clean m hm) (ρ.step hm) hl h1)
      hno ρ.length hm le_rfl
    rw [h.not_valid hi hg (img.written x)]
    exact nofun
  · have hg := gone_run clean ((inv_run ρ clean m hm).gone_of_lost ht) hno ρ.length hm le_rfl
    rw [h.not_valid hi hg (img.written x)]
    exact nofun

def bare (s : State V) (t : Tid) : Bool :=
  match s.thread t with
  | some (_, pc) => pc.owns.isNone && pc.refs.all fun c =>
      (c.1 == head || c.1 == tail) && decide (c.2 < MAX_LEVEL)
  | none => true

-- whenever a thread is at ssmem_alloc, the calls refer to no node but the sentinels
def bare01 (s : State V) : Bool :=
  !(s.allocating 0 || s.allocating 1) ||
    (bare s 0 && bare s 1 && !s.store.avail head && !s.store.avail tail)

def empty01 (s : State V) : Bool :=
  !(s.allocating 0 || s.allocating 1) || (bare01 s && (List.range MAX_LEVEL).all fun i =>
    ((s.store.node head).next i).ref == some tail && ((s.store.node tail).next i).ref == none)

theorem lt_two_of_idle (hidle : ∀ u, 2 ≤ u → s.thread u = none)
    (ht : s.thread t = some (op, pc)) : t = 0 ∨ t = 1 := by
  rcases t with _ | _ | t
  · exact Or.inl rfl
  · exact Or.inr rfl
  · have := (hidle _ (Nat.le_add_left 2 t)).symm.trans ht
    cases this

theorem allocating_of_take {e : Event (SetOp V)} (hs : Step s e s')
    (h0 : s.store.avail x = true) (h1 : s'.store.avail x = false)
    (hidle : ∀ u, 2 ≤ u → s.thread u = none) : (s.allocating 0 || s.allocating 1) = true := by
  have taken : ¬ s.store.avail x = false := by simp [h0]
  cases hs with
  | call t op idle hk => exact absurd h1 taken
  | ret t op r ht => exact absurd h1 taken
  | tau t op pc pc' slot level σ ht hn ha =>
    obtain ⟨_, path, rfl⟩ := next_take hn h0 h1
    rcases lt_two_of_idle hidle ht with rfl | rfl <;> simp [State.allocating, ht]

theorem bare_refs (h : bare s 0 = true ∧ bare s 1 = true)
    (hidle : ∀ u, 2 ≤ u → s.thread u = none) (ht : s.thread t = some (op, pc)) :
    pc.owns = none ∧ ∀ c ∈ pc.refs, c ∈ sentinels := by
  have ht' : bare s t = true := by
    rcases lt_two_of_idle hidle ht with rfl | rfl
    · exact h.1
    · exact h.2
  simp only [bare, ht, Bool.and_eq_true, Option.isNone_iff_eq_none, List.all_eq_true,
    Bool.or_eq_true, beq_iff_eq, decide_eq_true_eq] at ht'
  exact ht'

theorem clean_of_empty {e : Event (SetOp V)} (hs : Step s e s') (h : empty01 s = true)
    (hidle : ∀ u, 2 ≤ u → s.thread u = none) : s.Clean s' := by
  intro x h0 h1
  have hal := allocating_of_take hs h0 h1 hidle
  simp only [empty01, bare01, hal, Bool.not_true, Bool.false_or, Bool.and_eq_true,
    Bool.not_eq_true', List.all_eq_true, List.mem_range, beq_iff_eq] at h
  obtain ⟨⟨⟨⟨hb0, hb1⟩, hh⟩, ht⟩, hlinks⟩ := h
  have closed : s.store.tower.Closed sentinels := by
    refine ⟨fun {y z i} hy hs => ⟨?_, hy.2⟩, fun {y i} hy => ⟨hy.1, ?_⟩⟩
    · obtain ⟨h1, h2⟩ := hlinks i hy.2
      rcases hy.1 with he | he <;> obtain rfl : y = _ := he
      · exact Or.inr (Option.some.inj (hs.symm.trans h1))
      · exact absurd (h2.symm.trans hs) nofun
    · have := hy.2
      change i + 1 < MAX_LEVEL at this
      change i < MAX_LEVEL
      omega
  intro hl
  have hx : (x, 0) ∈ sentinels := by
    refine closed.live_subset ?_ hl
    rintro c (⟨hc, hc'⟩ | ⟨t, op, pc, htt, hc⟩)
    · exact ⟨Or.inl hc, hc'⟩
    · exact (bare_refs ⟨hb0, hb1⟩ hidle htt).2 c hc
  rcases hx.1 with he | he <;> obtain rfl : x = _ := he
  · exact absurd (hh.symm.trans h0) nofun
  · exact absurd (ht.symm.trans h0) nofun

-- thread 0 inserts 5, thread 1 removes it and inserts 7 in the same slot
def reinsert : List (Command ℕ) :=
  [insertRemove, [.ret 1, .call 1 (.insert 7 0)], steps 1 42, [.alloc 1 2 2], steps 1 16].flatten

theorem softSkipList_durable_reinsert : ∃ ρ : Run (machine ℕ), ρ.length = 222 ∧
    Allocates ρ 43 2 ∧ Allocates ρ 205 2 ∧
    (ρ.state 222).thread 1 = some (.insert 7 0, .ret true) ∧ ∀ img, Durable ρ img := by
  obtain ⟨ρ, hρ, hidle⟩ := exists_play 0 (guarded empty01 exec) (fun h => (guarded_inv h).2)
    reinsert (by decide +kernel)
  have clean : Clean ρ := by
    intro m hm
    refine clean_of_empty (ρ.step hm) ?_ (hidle m hm.le)
    exact (guarded_inv (hρ.exec (by rw [← hρ.length]; exact hm))).1
  have avail := fun n b => hρ.holds n (P := fun s => s.store.avail 2 == b)
  have a43 := avail 43 true (by decide +kernel)
  have a44 := avail 44 false (by decide +kernel)
  have a205 := avail 205 true (by decide +kernel)
  have a206 := avail 206 false (by decide +kernel)
  have done := hρ.holds 222 (P := fun s =>
    s.thread 1 = some (.insert 7 0, .ret true)) (by decide +kernel)
  simp only [beq_iff_eq] at a43 a44 a205 a206
  exact ⟨ρ, hρ.length, ⟨a43, a44⟩, ⟨a205, a206⟩, of_decide_eq_true done,
    fun img => softSkipList_durable ρ clean img⟩

-- no slot is handed out while a running call still refers to it
def Unreferenced (ρ : Run (machine V)) : Prop :=
  ∀ m < ρ.length, ∀ x, Allocates ρ m x → ∀ t op pc, (ρ.state m).thread t = some (op, pc) →
    pc.owns ≠ some x ∧ ∀ i, (x, i) ∉ pc.refs

theorem unreferenced_of_bare {e : Event (SetOp V)} (hs : Step s e s') (h : bare01 s = true)
    (hidle : ∀ u, 2 ≤ u → s.thread u = none) (h0 : s.store.avail x = true)
    (h1 : s'.store.avail x = false) (ht : s.thread t = some (op, pc)) :
    pc.owns ≠ some x ∧ ∀ i, (x, i) ∉ pc.refs := by
  have hal := allocating_of_take hs h0 h1 hidle
  simp only [bare01, hal, Bool.not_true, Bool.false_or, Bool.and_eq_true, Bool.not_eq_true'] at h
  obtain ⟨⟨hb, hh⟩, htl⟩ := h
  obtain ⟨ho, hr⟩ := bare_refs hb hidle ht
  refine ⟨fun he => absurd (ho.symm.trans he) nofun, fun i hi => ?_⟩
  rcases (hr _ hi).1 with he | he <;> obtain rfl : x = _ := he
  · exact absurd (hh.symm.trans h0) nofun
  · exact absurd (htl.symm.trans h0) nofun

-- the slot of the freed node that is linked at level 1 goes to the thread that has freed it
def reuseLinked : List (Command ℕ) :=
  [linkFreed, [.ret 1, .ret 0, .call 1 (.insert 7 0)], steps 1 44, [.alloc 1 2 2],
    steps 1 8].flatten

theorem softSkipList_durable_linked : ∃ (ρ : Run (machine ℕ)) (img : (ρ.state ρ.length).Image),
    Unreferenced ρ ∧ ((ρ.state ρ.length).store.level 1).Linked 2 ∧
    (ρ.state ρ.length).store.stateAt 1 2 = .inserted ∧ (img.node 2).isValid = false ∧
    ¬ Durable ρ img := by
  obtain ⟨ρ, hρ, hidle⟩ := exists_play 0 (guarded bare01 exec) (fun h => (guarded_inv h).2)
    reuseLinked (by decide +kernel)
  have unref : Unreferenced ρ := by
    intro m hm x ha t op pc ht
    refine unreferenced_of_bare (ρ.step hm) ?_ (hidle m hm.le) ha.1 ha.2 ht
    exact (guarded_inv (hρ.exec (by rw [← hρ.length]; exact hm))).1
  have last := hρ.last (P := fun s =>
    ((s.store.node head).next 1).ref == some 2 && s.store.stateAt 1 2 == .inserted &&
      (s.store.node 2).isValid == false) (by decide +kernel)
  simp only [Bool.and_eq_true, beq_iff_eq] at last
  obtain ⟨⟨hlink, hstate⟩, hvalid⟩ := last
  have linked : ((ρ.state ρ.length).store.level 1).Linked 2 := Heap.Reach.single hlink
  refine ⟨ρ, ⟨fun x => (ρ.state ρ.length).store.node x, fun x => by simp [Store.node]⟩, unref,
    linked, hstate, hvalid, fun h => ?_⟩
  have alive : (ρ.state ρ.length).store.stateAt 1 2 ≠ .deleted := by simp [hstate]
  have holds := (h.upper le_rfl (by decide) linked (by decide) (by decide) alive).1
  have := hvalid.symm.trans holds
  cases this

end SOFT.SkipList
