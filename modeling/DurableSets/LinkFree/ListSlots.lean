import DurableSets.LinkFree.ListDurable
import DurableSets.LinkFree.ListMemory

namespace LinkFree.List

open Chain
open Memory (request next_avail)

variable {V : Type} {σ : Store V} {s s' : State V} {ρ : Run (machine V)} {t u : Tid} {op : SetOp V}
  {pc pc' : Pc} {slot x : Loc} {a k l m n : ℕ} {e : Event (SetOp V)}

def Takes {M : Machine (State V) (SetOp V) Pc} (ρ : Run M) (m : ℕ) (x : Loc) : Prop :=
  m < ρ.length ∧ ∃ t op pred curr, (ρ.state m).thread t = some (op, .alloc pred curr) ∧
    (ρ.state (m + 1)).thread t = some (op, .flipLoad pred curr x)

def GivesBack {M : Machine (State V) (SetOp V) Pc} (ρ : Run M) (m : ℕ) (x : Loc) : Prop :=
  m < ρ.length ∧ ∃ t op pc, ρ.event m = .tau t ∧ (ρ.state m).thread t = some (op, pc) ∧
    request pc = some (.free x)

def TakenSince {M : Machine (State V) (SetOp V) Pc} (ρ : Run M) (a n : ℕ) (x : Loc) : Prop :=
  a < n ∧ Takes ρ a x ∧ ∀ m, a < m → m < n → ¬ GivesBack ρ m x

theorem tau_inv' (hs : Step s (.tau t) s') : ∃ op pc slot σ pc', s.thread t = some (op, pc) ∧
    next s.store op slot pc = some (σ, pc') ∧
    (∀ p c, pc = .alloc p c → s.Recyclable slot) ∧ s' = s.goto σ t (some (op, pc')) := by
  cases hs with
  | tau _ op pc pc' slot σ h hn hs => exact ⟨op, pc, slot, σ, pc', h, hn, hs, rfl⟩

theorem store_of_call (hs : Step s (.call t op) s') : s'.store = s.store := by
  cases hs
  rfl

theorem tau_of_change (hs : Step s e s') (h : s.thread t = some (op, pc))
    (h' : s'.thread t = some (op, pc')) (hne : pc' ≠ pc) : e = .tau t := by
  have htid : t = e.tid := by
    by_contra hn
    have he := ((machine V).step_other hs hn).symm.trans h'
    exact hne (Prod.mk.inj (Option.some.inj (h.symm.trans he))).2.symm
  cases hs with
  | call u op1 idle hk =>
    obtain rfl : t = u := htid
    exact absurd (h.symm.trans idle) nofun
  | ret u op1 r n ht =>
    obtain rfl : t = u := htid
    exact absurd (h'.symm.trans (goto_thread_self _ _ _ _)) nofun
  | tau u op1 pc1 pc2 slot σ ht hn hs =>
    obtain rfl : t = u := htid
    rfl

theorem Takes.avail (h : Takes ρ a x) :
    (ρ.state a).store.avail x = true ∧ (ρ.state (a + 1)).store.avail x = false := by
  obtain ⟨ha, t, op, p, c, h1, h2⟩ := h
  have hs := ρ.step ha
  rw [tau_of_change hs h1 h2 nofun] at hs
  obtain ⟨slot, σ, hn, hrec, he⟩ := tau_inv hs h1 h2
  obtain ⟨rfl, hpc⟩ := Prod.mk.inj (Option.some.inj hn)
  obtain rfl : slot = x := by
    injection hpc
  rw [he]
  exact ⟨(hrec p c rfl).1, by simp [State.goto, Store.take]⟩

theorem holds_of_free (h : request pc = some (.free x)) : pc.holds = some x := by
  cases pc with
  | trimFree c p n =>
    injection Option.some.inj h with h
    exact congrArg some h
  | lostFree n =>
    injection Option.some.inj h with h
    exact congrArg some h
  | _ => cases h

theorem GivesBack.avail (h : GivesBack ρ m x) :
    (ρ.state m).store.avail x = false ∧ (ρ.state (m + 1)).store.avail x = true := by
  obtain ⟨hm, t, op, pc, he, ht, hr⟩ := h
  have hs := ρ.step hm
  rw [he] at hs
  obtain ⟨op1, pc1, slot, σ, pc', ht1, hn, _, hst⟩ := tau_inv' hs
  obtain ⟨rfl, rfl⟩ := Prod.mk.inj (Option.some.inj (ht.symm.trans ht1))
  refine ⟨((inv_run ρ m hm.le).fit ht).avail x (holds_of_free hr), ?_⟩
  rw [hst]
  change σ.avail x = true
  rw [next_avail hn, hr]
  exact Function.update_self _ _ _

theorem avail_step (hm : m < ρ.length) : (ρ.state (m + 1)).store.avail x = (ρ.state m).store.avail x ∨
    Takes ρ m x ∨ GivesBack ρ m x := by
  have hs := ρ.step hm
  cases he : ρ.event m with
  | call t op =>
    rw [he] at hs
    exact Or.inl (congrFun (congrArg Store.avail (store_of_call hs)) x)
  | ret t r =>
    rw [he] at hs
    obtain ⟨_, _, _, h⟩ := ret_inv hs
    exact Or.inl (congrFun (congrArg Store.avail h) x)
  | tau t =>
    rw [he] at hs
    obtain ⟨op, pc, slot, σ, pc', ht, hn, _, hst⟩ := tau_inv' hs
    have hav := next_avail hn
    have ht' : (ρ.state (m + 1)).thread t = some (op, pc') := by
      rw [hst]
      exact goto_thread_self _ _ _ _
    have hσ : (ρ.state (m + 1)).store = σ := by rw [hst]; rfl
    rw [hσ, hav]
    cases hr : request pc with
    | none => exact Or.inl rfl
    | some r =>
      cases r with
      | alloc =>
        by_cases hx : x = slot
        · subst hx
          cases pc with
          | alloc p c =>
            obtain ⟨_, rfl⟩ := Prod.mk.inj (Option.some.inj hn)
            exact Or.inr (Or.inl ⟨hm, t, op, p, c, ht, ht'⟩)
          | _ => cases hr
        · exact Or.inl (Function.update_of_ne hx _ _)
      | free n =>
        by_cases hx : x = n
        · subst hx
          exact Or.inr (Or.inr ⟨hm, t, op, pc, he, ht, hr⟩)
        · exact Or.inl (Function.update_of_ne hx _ _)

theorem takenSince_of_unavail (hx : x ≠ head) (hx' : x ≠ tail) (hn : n ≤ ρ.length)
    (h : (ρ.state n).store.avail x = false) : ∃ a, TakenSince ρ a n x ∧
      ∀ m, a < m → m ≤ n → (ρ.state m).store.avail x = false := by
  have h0 : ¬ (ρ.state 0).store.avail x = false := by
    obtain ⟨zero, junk, hi⟩ := ρ.init
    rw [hi]
    simp [initial, initialStore, hx, hx']
  obtain ⟨a, ha, hna, hall⟩ := exists_last (P := fun k => (ρ.state k).store.avail x = false) h0 h
  have hta : Takes ρ a x := by
    rcases avail_step (ρ := ρ) (x := x) (m := a) (by omega) with h | h | h
    · exact absurd (h.symm.trans (hall (a + 1) (by omega) (by omega))) hna
    · exact h
    · exact absurd h.avail.1 hna
  refine ⟨a, ⟨ha, hta, fun m h1 h2 hg => ?_⟩, hall⟩
  exact absurd (hg.avail.2.symm.trans (hall (m + 1) (by omega) (by omega))) (by decide)

theorem TakenSince.unavail (h : TakenSince ρ a n x) : ∀ m, a < m → m ≤ n → m ≤ ρ.length →
    (ρ.state m).store.avail x = false := by
  intro m hm
  induction m, hm using Nat.le_induction with
  | base => exact fun _ _ => h.2.1.avail.2
  | succ m hm ih =>
    intro hmn hml
    have hav := ih (by omega) (by omega)
    rcases avail_step (ρ := ρ) (x := x) (m := m) (by omega) with he | ht | hg
    · exact he.trans hav
    · exact absurd (hav.symm.trans ht.avail.1) (by decide)
    · exact absurd hg (h.2.2 m hm (by omega))

theorem TakenSince.unique (h : TakenSince ρ a n x) (h' : TakenSince ρ k n x) (hn : n ≤ ρ.length) :
    a = k := by
  have key : ∀ {a k}, TakenSince ρ a n x → TakenSince ρ k n x → ¬ a < k := by
    intro a k h h' hlt
    have := h.unavail k hlt h'.1.le (h'.1.le.trans hn)
    exact absurd (h'.2.1.avail.1.symm.trans this) (by decide)
  have h1 := key h h'
  have h2 := key h' h
  omega

def Held (s : State V) : Prop := ∀ x, s.store.avail x = false →
  s.store.heap.Linked x ∨ ∃ t op pc, s.thread t = some (op, pc) ∧ pc.holds = some x

theorem holds_next {σ' : Store V} (hn : next σ op slot pc = some (σ', pc')) (hx : pc.holds = some x) :
    pc'.holds = some x ∨ σ'.avail x = true ∨
      ∃ p c, pc = .linkCas p c x ∧ (σ.node p).next = Ptr.addr c := by
  rcases owns_of_holds hx with ho | ho
  · cases pc with
    | validLoad c m =>
      cases c with
      | lost =>
        obtain rfl : m = x := Option.some.inj ho
        simp only [next] at hn
        split at hn <;> obtain ⟨rfl, rfl⟩ := Prod.mk.inj (Option.some.inj hn) <;> exact Or.inl rfl
      | _ => cases ho
    | validStore c m old =>
      cases c with
      | lost =>
        obtain rfl : m = x := Option.some.inj ho
        obtain ⟨rfl, rfl⟩ := Prod.mk.inj (Option.some.inj hn)
        exact Or.inl rfl
      | _ => cases ho
    | initValue p c m =>
      obtain rfl : m = x := Option.some.inj ho
      cases op with
      | insert k v =>
        obtain ⟨rfl, rfl⟩ := Prod.mk.inj (Option.some.inj hn)
        exact Or.inl rfl
      | _ => cases hn
    | linkCas p c m =>
      obtain rfl : m = x := Option.some.inj ho
      simp only [next] at hn
      split at hn
      · next h => exact Or.inr (Or.inr ⟨p, c, rfl, h⟩)
      · obtain ⟨rfl, rfl⟩ := Prod.mk.inj (Option.some.inj hn)
        exact Or.inl rfl
    | lostFree m =>
      obtain rfl : m = x := Option.some.inj ho
      obtain ⟨rfl, rfl⟩ := Prod.mk.inj (Option.some.inj hn)
      exact Or.inr (Or.inl (Function.update_self _ _ _))
    | flipLoad p c m =>
      obtain ⟨rfl, rfl⟩ := Prod.mk.inj (Option.some.inj hn)
      exact Or.inl ho
    | flipStore p c m old =>
      obtain ⟨rfl, rfl⟩ := Prod.mk.inj (Option.some.inj hn)
      exact Or.inl ho
    | initInsertFlag p c m =>
      obtain ⟨rfl, rfl⟩ := Prod.mk.inj (Option.some.inj hn)
      exact Or.inl ho
    | initDeleteFlag p c m =>
      obtain ⟨rfl, rfl⟩ := Prod.mk.inj (Option.some.inj hn)
      exact Or.inl ho
    | initKey p c m =>
      obtain ⟨rfl, rfl⟩ := Prod.mk.inj (Option.some.inj hn)
      exact Or.inl ho
    | initNext p c m =>
      obtain ⟨rfl, rfl⟩ := Prod.mk.inj (Option.some.inj hn)
      exact Or.inl ho
    | lostStore m =>
      obtain ⟨rfl, rfl⟩ := Prod.mk.inj (Option.some.inj hn)
      exact Or.inl ho
    | _ => cases ho
  · cases pc with
    | trimFree c p m =>
      obtain rfl : m = x := Option.some.inj ho
      obtain ⟨rfl, rfl⟩ := Prod.mk.inj (Option.some.inj hn)
      exact Or.inr (Or.inl (Function.update_self _ _ _))
    | _ => cases ho

theorem linked_next (hi : Inv s) (ht : s.thread t = some (op, pc))
    (hn : next s.store op slot pc = some (σ, pc')) (hx : s.store.heap.Linked x) :
    σ.heap.Linked x ∨ pc'.holds = some x := by
  have f := hi.fit ht
  rcases tau_cases f.fresh hn with ⟨p, c, n, rfl, hnext, rfl⟩ | ⟨p, n, q, rfl, hnext, rfl⟩ |
    ⟨d, p, n, q, rfl, hnext, rfl⟩ | ⟨_, hframe⟩
  · have sp := link_splice (f.refs p (by simp [Pc.refs])) hnext (f.fresh n rfl) f.loc.2.2.2.2.2
    exact Or.inl ((sp.linked hi.mem.good).2 (Or.inl hx))
  · have st := mark_steady (R := s.roots) f.loc.2.2.2 hnext
    exact Or.inl ((st.linked hi.mem.good).2 hx)
  · by_cases he : x = n
    · subst he
      simp only [next, if_pos hnext] at hn
      obtain ⟨_, rfl⟩ := Prod.mk.inj (Option.some.inj hn)
      exact Or.inr rfl
    · exact Or.inl ((unlink_linked hi.mem (f.refs p (by simp [Pc.refs])) hnext f.loc.2.1
        f.loc.2.2).2 ⟨hx, he⟩)
  · exact Or.inl (((frame_steady hframe).linked hi.mem.good).2 hx)

theorem Held.step_idle (h : Held s) {b : Option (SetOp V × Pc)}
    (ht : ∀ op pc, s.thread t = some (op, pc) → pc.holds = none) : Held (s.goto s.store t b) := by
  intro x hx
  refine (h x hx).imp_right ?_
  rintro ⟨u, op, pc, hu, hh⟩
  have hne : u ≠ t := by
    rintro rfl
    exact absurd ((ht op pc hu).symm.trans hh) nofun
  exact ⟨u, op, pc, (goto_thread_other _ _ _ hne).trans hu, hh⟩

theorem Held.step (hi : Inv s) (h : Held s) (hs : Step s e s') : Held s' := by
  cases hs with
  | call t op idle hk => exact h.step_idle fun op pc ht => absurd (idle.symm.trans ht) nofun
  | ret t op r n ht =>
    refine h.step_idle fun op1 pc ht1 => ?_
    obtain ⟨_, rfl⟩ := Prod.mk.inj (Option.some.inj (ht.symm.trans ht1))
    rfl
  | tau t op pc pc' slot σ ht hn hs =>
    intro x hx
    have hx : σ.avail x = false := hx
    have own : pc'.holds = some x → σ.heap.Linked x ∨
        ∃ u op1 pc1, (s.goto σ t (some (op, pc'))).thread u = some (op1, pc1) ∧
          pc1.holds = some x := fun hh => Or.inr ⟨t, op, pc', goto_thread_self _ _ _ _, hh⟩
    cases hav : s.store.avail x with
    | true =>
      have hav' := congrFun (next_avail hn) x
      rw [hx] at hav'
      cases pc with
      | alloc p c =>
        obtain ⟨_, rfl⟩ := Prod.mk.inj (Option.some.inj hn)
        by_cases he : x = slot
        · exact own (congrArg some he.symm)
        · exact absurd (hav'.trans (Function.update_of_ne he _ _)) (by rw [hav]; decide)
      | trimFree c p m =>
        by_cases he : x = m
        · subst he
          exact absurd (hav'.trans (Function.update_self _ _ _)) (by decide)
        · exact absurd (hav'.trans (Function.update_of_ne he _ _)) (by rw [hav]; decide)
      | lostFree m =>
        by_cases he : x = m
        · subst he
          exact absurd (hav'.trans (Function.update_self _ _ _)) (by decide)
        · exact absurd (hav'.trans (Function.update_of_ne he _ _)) (by rw [hav]; decide)
      | _ => exact absurd (hav'.trans hav) (by decide)
    | false =>
      rcases h x hav with hl | ⟨u, op1, pc1, hu, hh⟩
      · exact (linked_next hi ht hn hl).elim Or.inl own
      · by_cases hut : u = t
        · subst hut
          obtain ⟨rfl, rfl⟩ := Prod.mk.inj (Option.some.inj (ht.symm.trans hu))
          rcases holds_next hn hh with hh' | hh' | ⟨p, c, rfl, hnext⟩
          · exact own hh'
          · exact absurd (hx.symm.trans hh') (by decide)
          · have f := hi.fit ht
            have sp := link_splice (f.refs p (by simp [Pc.refs])) hnext (f.fresh x rfl)
              f.loc.2.2.2.2.2
            simp only [next, if_pos hnext] at hn
            obtain ⟨rfl, _⟩ := Prod.mk.inj (Option.some.inj hn)
            exact Or.inl ((sp.linked hi.mem.good).2 (Or.inr rfl))
        · exact Or.inr ⟨u, op1, pc1, (goto_thread_other _ _ _ hut).trans hu, hh⟩

theorem held_run (ρ : Run (machine V)) : ∀ n ≤ ρ.length, Held (ρ.state n) := by
  refine ρ.stepwise ?_ fun m hm h => h.step (inv_run ρ m hm.le) (ρ.step hm)
  obtain ⟨zero, junk, hi⟩ := ρ.init
  rw [hi]
  intro x hx
  have hne : x = head ∨ x = tail := by
    by_contra hne
    rw [not_or] at hne
    simp [initial, initialStore, hne] at hx
  rcases hne with rfl | rfl
  · exact Or.inl (Heap.Reach.refl _)
  · exact Or.inl (inv_initial zero junk).mem.tail_linked

def Unseen (ρ : Run (machine V)) (n : ℕ) (x : Loc) : Prop :=
  ∀ l ≤ n, (heaps ρ l).Linked x → ∃ k, l ≤ k ∧ k < n ∧ (ρ.state k).store.avail x = true

theorem owned_unseen (ρ : Run (machine V)) : ∀ n ≤ ρ.length, ∀ {t op pc},
    (ρ.state n).thread t = some (op, pc) → ∃ i, ρ.Active t op i n ∧
      ∀ x, pc.owns = some x → Unseen ρ n x := by
  refine ρ.active_inv (F := fun _ n _ _ pc => ∀ x, pc.owns = some x → Unseen ρ n x) ?_ ?_ ?_
  · intro n t op pc hn he _ ht x hx
    have hs := ρ.step hn
    rw [he] at hs
    rw [(call_inv hs ht).1] at hx
    cases op <;> cases hx
  · intro i n t op pc pc' hn ha he ht ht' h x hx
    have hi := inv_run ρ n hn.le
    have hs := ρ.step hn
    rw [he] at hs
    obtain ⟨slot, σ, hnext, hrec, hst⟩ := tau_inv hs ht ht'
    have now : ¬ (heaps ρ (n + 1)).Linked x := by
      have hi' := inv_run ρ (n + 1) hn
      exact fun hl => (hi'.fit ht').fresh x hx (hi'.mem.good.live_of_linked hl)
    have old : pc.owns = some x ∨ (ρ.state n).store.avail x = true := by
      refine (owns_next hnext hx).imp_right ?_
      rintro ⟨⟨p, c, rfl⟩, rfl⟩
      exact (hrec p c rfl).1
    intro l hl hlink
    rcases Nat.lt_succ_iff_lt_or_eq.1 (Nat.lt_succ_of_le hl) with hl | rfl
    · rcases old with ho | ho
      · obtain ⟨k, h1, h2, h3⟩ := h x ho l (by omega) hlink
        exact ⟨k, h1, by omega, h3⟩
      · exact ⟨n, by omega, by omega, ho⟩
    · exact absurd hlink now
  · intro i n t op pc hn ha hne ht ht' h x hx l hl hlink
    rcases Nat.lt_succ_iff_lt_or_eq.1 (Nat.lt_succ_of_le hl) with hl | rfl
    · obtain ⟨k, h1, h2, h3⟩ := h x hx l (by omega) hlink
      exact ⟨k, h1, by omega, h3⟩
    · have hi' := inv_run ρ (n + 1) hn
      exact absurd (hi'.mem.good.live_of_linked hlink) ((hi'.fit ht').fresh x hx)

theorem line_marked_of_free (hi : Inv s) (ht : s.thread t = some (op, pc))
    (hr : request pc = some (.free x)) : AllMarked (s.store.line x) ∨ pc.owns = some x := by
  cases pc with
  | trimFree c p n =>
    injection Option.some.inj hr with h
    subst h
    exact Or.inl (hi.fit ht).loc.2.2.1
  | lostFree n =>
    injection Option.some.inj hr with h
    exact Or.inr (congrArg some h)
  | _ => cases hr

theorem freed_node (hi : Inv s) (ht : s.thread t = some (op, pc))
    (hr : request pc = some (.free x)) : ¬ s.store.heap.Linked x ∧
      isValid (s.store.node x).metaData = true ∧ s.store.heap.dead x := by
  have f := hi.fit ht
  cases pc with
  | trimFree c p n =>
    injection Option.some.inj hr with h
    subst h
    have hd := f.loc.2.1
    exact ⟨f.retired n rfl, hi.mem.valid (f.refs n (by simp [Pc.refs])) hd, hd⟩
  | lostFree n =>
    injection Option.some.inj hr with h
    subst h
    exact ⟨fun hl => f.fresh n rfl (hi.mem.good.live_of_linked hl), f.loc.2, f.loc.1⟩
  | _ => cases hr

theorem linkFreeList_gives_back (ρ : Run (machine V)) :
    (∀ {m x}, GivesBack ρ m x → ∃ a, TakenSince ρ a m x ∧ ¬ (heaps ρ m).Linked x ∧
      isValid ((ρ.state m).store.node x).metaData = true ∧ (heaps ρ m).dead x ∧
      ((∃ l, a < l ∧ l ≤ m ∧ (heaps ρ l).Linked x) → AllMarked ((ρ.state m).store.line x))) ∧
    (∀ {k m x}, GivesBack ρ k x → GivesBack ρ m x → k < m → ∃ a, k < a ∧ a < m ∧ Takes ρ a x) ∧
    ∀ {n a x}, n ≤ ρ.length → (∀ t, (ρ.state n).thread t = none) → TakenSince ρ a n x →
      (heaps ρ n).Linked x := by
  have taken : ∀ {m x}, GivesBack ρ m x → ∃ a, TakenSince ρ a m x ∧
      ∀ k, a < k → k ≤ m → (ρ.state k).store.avail x = false := by
    rintro m x hg
    obtain ⟨hm, t, op, pc, _, ht, hr⟩ := id hg
    have hi := inv_run ρ m hm.le
    have hnl := (freed_node hi ht hr).1
    refine takenSince_of_unavail ?_ ?_ hm.le hg.avail.1
    · rintro rfl
      exact hnl (Heap.Reach.refl _)
    · rintro rfl
      exact hnl hi.mem.tail_linked
  refine ⟨fun {m x} hg => ?_, fun {k m x} hk hm hlt => ?_, fun {n a x} hn hq hx => ?_⟩
  · obtain ⟨hm, t, op, pc, _, ht, hr⟩ := id hg
    have hi := inv_run ρ m hm.le
    obtain ⟨a, ha, hav⟩ := taken hg
    obtain ⟨h1, h2, h3⟩ := freed_node hi ht hr
    refine ⟨a, ha, h1, h2, h3, ?_⟩
    rintro ⟨l, hal, hlm, hl⟩
    refine (line_marked_of_free hi ht hr).resolve_right fun ho => ?_
    obtain ⟨i, _, hun⟩ := owned_unseen ρ m hm.le ht
    obtain ⟨k, h4, h5, h6⟩ := hun x ho l hlm hl
    exact absurd (h6.symm.trans (hav k (by omega) h5.le)) (by decide)
  · obtain ⟨a, ha, hav⟩ := taken hm
    refine ⟨a, ?_, ha.1, ha.2.1⟩
    rcases lt_trichotomy a k with h | rfl | h
    · exact absurd hk (ha.2.2 k h hlt)
    · exact absurd (hk.avail.1.symm.trans ha.2.1.avail.1) (by decide)
    · exact h
  · have hav := hx.unavail n hx.1 le_rfl hn
    refine (held_run ρ n hn x hav).resolve_right ?_
    rintro ⟨t, op, pc, ht, _⟩
    exact absurd ((hq t).symm.trans ht) nofun

section Reused

open Reuse

-- slot 3 is in use for an insert of 4 that has not linked it; thread 0 comes to it from the node
-- of 1 and unlinks the node of 5 from it alone, while it is linked to head
def freedTwice : List (Command ℕ) :=
  [inserts 1 1 0 2 0, inserts 1 3 0 3 1, inserts 1 5 0 4 2, [.call 0 (.remove 9)], steps 0 2,
    removes 1 1, removes 1 3, [.call 1 (.insert 4 0)], steps 1 2, [.alloc 1 3], steps 1 7,
    [.call 2 (.remove 5)], steps 2 5, steps 0 10, steps 2 4].flatten

theorem linkFreeList_gives_back_twice : ∃ (ρ : Run (Reuse.machine ℕ)) (k m : ℕ) (x : Loc),
    GivesBack ρ k x ∧ (heaps ρ k).Linked x ∧ k < m ∧ GivesBack ρ m x ∧
      ∀ a, k < a → a < m → ¬ Takes ρ a x := by
  obtain ⟨ρ, hρ, hfew⟩ := exists_play 0 exec id freedTwice (by decide +kernel)
  have hlen : ρ.length = 120 := hρ.length
  have first := hρ.holds 115 (P := fun s =>
    decide (s.thread 0 = some (.remove 9, .trimFree .inFind 3 4)) && (walk s 8 head).contains 4)
    (by decide +kernel)
  have second := of_decide_eq_true (hρ.holds 119 (P := fun s =>
    s.thread 2 = some (.remove 5, .trimFree .inRemove head 4)) (by decide +kernel))
  have idle : ∀ a, 115 < a → a < 119 →
      (List.range 4).all (fun t => !allocating (ρ.state a) t) = true := by
    have test := fun n => hρ.holds n (P := fun s => (List.range 4).all fun t => !allocating s t)
    intro a h1 h2
    obtain rfl | rfl | rfl : a = 116 ∨ a = 117 ∨ a = 118 := by omega
    · exact test 116 (by decide +kernel)
    · exact test 117 (by decide +kernel)
    · exact test 118 (by decide +kernel)
  simp only [Bool.and_eq_true, decide_eq_true_eq, List.contains_iff_mem] at first
  have back : ∀ {n t}, n < 120 → freedTwice[n]? = some (.step t) → ρ.event n = .tau t := fun _ hc =>
    (Option.some.inj (exec_event (hρ.command hc))).symm
  refine ⟨ρ, 115, 119, 4, ⟨by omega, 0, _, _, back (by decide) (by decide +kernel), first.1, rfl⟩,
    reach_of_walk first.2, by decide,
    ⟨by omega, 2, _, _, back (by decide) (by decide +kernel), second, rfl⟩, ?_⟩
  rintro a h1 h2 ⟨ha, t, op, p, c, ht, _⟩
  have := List.all_eq_true.1 (idle a h1 h2) t (List.mem_range.2 ((hfew a ha.le).lt ht))
  simp [allocating, ht] at this

end Reused

end LinkFree.List
