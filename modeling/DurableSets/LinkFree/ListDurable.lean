import DurableSets.LinkFree.ListLinearizable

namespace LinkFree.List

open Chain

variable {V : Type} {σ σ' : Store V} {R : Set Loc} {x y p n c slot : Loc} {op : SetOp V}
  {pc pc' : Pc} {s s' : State V} {k : ℤ}

-- one content of each slot that NVRAM may hold
structure State.Image (s : State V) where
  node : Loc → Node V
  written : ∀ x, node x ∈ (s.store.line x).contents

def State.Image.keys {s : State V} (img : s.Image) : Set ℤ :=
  {k | ∃ x, x ≠ head ∧ x ≠ tail ∧ (img.node x).recovered = true ∧ (img.node x).key = k}

section Linking

variable {M : Machine (State V) (SetOp V) Pc} (ρ : Run M) (x : Loc) (t : Tid) (i l : ℕ)

-- event l of the call started with event i linked x, which has been linked ever since
structure LinkedBy (op : SetOp V) : Prop where
  active : ρ.Active t op i (l + 1)
  event : ρ.event l = .tau t
  lt : l < ρ.length
  before : ¬ (heaps ρ l).Linked x
  since : ∀ m, l < m → m ≤ ρ.length → (heaps ρ m).Linked x

structure MarkedBy (op : SetOp V) : Prop where
  active : ρ.Active t op i (l + 1)
  event : ρ.event l = .tau t
  lt : l < ρ.length
  before : ¬ (heaps ρ l).dead x
  since : ∀ m, l < m → m ≤ ρ.length → (heaps ρ m).Linked x ∧ (heaps ρ m).dead x

-- a call that found x, or has linked it, and has not yet made sure that it is in NVRAM
def Pc.checks : Pc → Option Loc
  | .validLoad .found n => some n
  | .validLoad .linked n => some n
  | .validLoad .contains n => some n
  | .validStore .found n _ => some n
  | .validStore .linked n _ => some n
  | .validStore .contains n _ => some n
  | .insertLoad _ n => some n
  | .insertFlush _ n => some n
  | .insertStore _ n => some n
  | _ => none

-- a call that found x marked, or has marked it, and has not yet made sure of it in NVRAM
def Pc.deletes : Pc → Option Loc
  | .deleteLoad _ n => some n
  | .deleteFlush _ n => some n
  | .deleteStore _ n => some n
  | _ => none

-- no call on k that started after event l has returned, nor has one that met x later on
def NoneReturned (duty : Pc → Option Loc) (k : ℤ) : Prop :=
  ∀ {u op r a j}, ρ.Completed u op r a j →
    (op.key = k → a ≤ l) ∧
    ∀ m pc, a < m → l < m → m ≤ j → (ρ.state m).thread u = some (op, pc) → duty pc ≠ some x

end Linking

-- k is in the list but may be lost: its insert has not returned, and nobody else saw it
def InsertPending {M : Machine (State V) (SetOp V) Pc} (ρ : Run M) (k : ℤ) : Prop :=
  ∃ x t v i l, ((ρ.state ρ.length).store.node x).key = k ∧ ¬ (heaps ρ ρ.length).dead x ∧
    LinkedBy ρ x t i l (.insert k v) ∧ ρ.Active t (.insert k v) i ρ.length ∧
    NoneReturned ρ x l Pc.checks k

-- k is gone from the list but may come back
def RemovePending {M : Machine (State V) (SetOp V) Pc} (ρ : Run M) (k : ℤ) : Prop :=
  ∃ x t i l, ((ρ.state ρ.length).store.node x).key = k ∧
    MarkedBy ρ x t i l (.remove k) ∧ ρ.Active t (.remove k) i ρ.length ∧
    NoneReturned ρ x l Pc.deletes k

theorem checks_step (hm : MemInv σ R) (f : Fit σ R op pc)
    (hn : next σ op slot pc = some (σ', pc')) (hc : pc.checks = some x) :
    pc'.checks = some x ∨ AllValid (σ.line x) := by
  cases pc with
  | validLoad d n =>
    simp only [next] at hn
    split at hn <;> obtain ⟨rfl, rfl⟩ := Prod.mk.inj (Option.some.inj hn)
    · cases d <;> exact Or.inl hc
    · cases d <;> exact Or.inl hc
  | validStore d n old =>
    obtain ⟨rfl, rfl⟩ := Prod.mk.inj (Option.some.inj hn)
    cases d <;> exact Or.inl hc
  | insertLoad b n =>
    obtain rfl : n = x := Option.some.inj hc
    simp only [next] at hn
    split at hn <;> obtain ⟨rfl, rfl⟩ := Prod.mk.inj (Option.some.inj hn)
    · next hfl => exact Or.inr (hm.insertFlag (f.refs n (by simp [Pc.refs])) hfl)
    · exact Or.inl rfl
  | insertFlush b n =>
    obtain ⟨rfl, rfl⟩ := Prod.mk.inj (Option.some.inj hn)
    exact Or.inl hc
  | insertStore b n =>
    obtain rfl : n = x := Option.some.inj hc
    exact Or.inr f.loc.2
  | _ => cases hc

theorem deletes_step (hm : MemInv σ R) (f : Fit σ R op pc)
    (hn : next σ op slot pc = some (σ', pc')) (hc : pc.deletes = some x) :
    pc'.deletes = some x ∨ AllMarked (σ.line x) := by
  cases pc with
  | deleteLoad d n =>
    obtain rfl : n = x := Option.some.inj hc
    simp only [next] at hn
    split at hn <;> obtain ⟨rfl, rfl⟩ := Prod.mk.inj (Option.some.inj hn)
    · next hfl => exact Or.inr (hm.deleteFlag (f.refs n (d.mem_refs n)) hfl)
    · exact Or.inl rfl
  | deleteFlush d n =>
    obtain ⟨rfl, rfl⟩ := Prod.mk.inj (Option.some.inj hn)
    exact Or.inl hc
  | deleteStore d n =>
    obtain rfl : n = x := Option.some.inj hc
    exact Or.inr f.loc.2
  | _ => cases hc

section Discharge

variable {ρ : Run (machine V)} {t : Tid} {i l m j : ℕ} {r : Bool}

theorem discharged {duty : Pc → Option Loc} {P : Line (Node V) → Prop}
    (hstep : ∀ {σ σ' : Store V} {R : Set Loc} {op : SetOp V} {pc pc' : Pc} {slot x : Loc},
      MemInv σ R → Fit σ R op pc → next σ op slot pc = some (σ', pc') → duty pc = some x →
      duty pc' = some x ∨ P (σ.line x))
    (hret : ∀ r x, duty (.ret r x) = none)
    (hc : ρ.Completed t op r i j) (hi : i < m) (hm : m ≤ j)
    (ht : (ρ.state m).thread t = some (op, pc)) (hd : duty pc = some x) :
    ∃ b, m ≤ b ∧ b < j ∧ P ((ρ.state b).store.line x) := by
  have step : ∀ {n u op pc pc' y}, n < ρ.length → (ρ.state n).thread u = some (op, pc) →
      (ρ.state (n + 1)).thread u = some (op, pc') → ρ.event n = .tau u → duty pc = some y →
      duty pc' = some y ∨ P ((ρ.state n).store.line y) := by
    intro n u op pc pc' y hn hu hu' he hd
    have hs := ρ.step hn
    rw [he] at hs
    obtain ⟨slot, σ, hnx, _, _⟩ := tau_inv hs hu hu'
    have hi := inv_run ρ n hn.le
    exact hstep hi.mem (hi.fit hu) hnx hd
  rcases Run.Active.discharge (P := fun b x => P ((ρ.state b).store.line x)) step hi ht hd j hm
    hc.lt.le hc.active with ⟨pc', ht', hd'⟩ | h
  · obtain ⟨y, hy, _⟩ := ret_run ρ hc
    obtain ⟨_, rfl⟩ := Prod.mk.inj (Option.some.inj (hy.symm.trans ht'))
    rw [hret] at hd'
    cases hd'
  · exact h

theorem kept_run (hm : m < ρ.length) :
    ∃ h R', Kept (ρ.state m).store (ρ.state m).roots h R' (ρ.state (m + 1)).store := by
  have hi := inv_run ρ m hm.le
  have idle : (ρ.state (m + 1)).store = (ρ.state m).store →
      ∃ h R', Kept (ρ.state m).store (ρ.state m).roots h R' (ρ.state (m + 1)).store := by
    intro he
    rw [he]
    exact ⟨none, _, (Effect.idle none).kept hi.mem⟩
  have hs := ρ.step hm
  generalize ρ.state (m + 1) = s' at hs idle
  generalize ρ.event m = e at hs
  cases hs with
  | call t op _ hk => exact idle rfl
  | ret t op r n ht => exact idle rfl
  | tau t op pc pc' slot σ ht hn hs =>
    obtain ⟨R', e, _⟩ := tau_ok hi ht hn hs
    exact ⟨_, R', e.kept hi.mem⟩

theorem linked_run {P : Store V → Prop}
    (hP : ∀ {σ R h R' σ'}, Kept σ R h R' σ' → σ.heap.Live R x → P σ → P σ')
    {a : ℕ} (hl : ∀ m, a ≤ m → m ≤ ρ.length → (heaps ρ m).Linked x)
    (h : P (ρ.state a).store) : ∀ m, a ≤ m → m ≤ ρ.length → P (ρ.state m).store := by
  intro m hm
  induction m, hm using Nat.le_induction with
  | base => exact fun _ => h
  | succ m ham ih =>
    intro hm
    obtain ⟨h, R', k⟩ := kept_run (ρ := ρ) (m := m) (by omega)
    exact hP k ((sorted_run ρ (by omega)).good.live_of_linked (hl m ham (by omega)))
      (ih (by omega))

theorem allValid_later {a : ℕ} (hl : ∀ m, a ≤ m → m ≤ ρ.length → (heaps ρ m).Linked x)
    (ha : a ≤ ρ.length) (h : AllValid ((ρ.state a).store.line x)) :
    AllValid ((ρ.state ρ.length).store.line x) :=
  linked_run (P := fun σ => AllValid (σ.line x))
    (fun k hx => (k.evolves hx).allValid) hl h ρ.length ha le_rfl

theorem allMarked_later {a : ℕ} (hl : ∀ m, a ≤ m → m ≤ ρ.length → (heaps ρ m).Linked x)
    (ha : a ≤ ρ.length) (h : AllMarked ((ρ.state a).store.line x)) :
    AllMarked ((ρ.state ρ.length).store.line x) :=
  linked_run (P := fun σ => AllMarked (σ.line x))
    (fun k hx => (k.evolves hx).marked) hl h ρ.length ha le_rfl

theorem dead_later {a : ℕ} (hl : ∀ m, a ≤ m → m ≤ ρ.length → (heaps ρ m).Linked x)
    (ha : a ≤ ρ.length) (h : (heaps ρ a).dead x) : (heaps ρ ρ.length).dead x :=
  linked_run (P := fun σ => σ.heap.dead x) (fun k hx => k.dead hx) hl h ρ.length ha le_rfl

theorem rank_later {a : ℕ} (hl : ∀ m, a ≤ m → m ≤ ρ.length → (heaps ρ m).Linked x)
    (ha : a ≤ ρ.length) : rank (ρ.state ρ.length).store x = rank (ρ.state a).store x :=
  linked_run (P := fun σ => rank σ x = rank (ρ.state a).store x)
    (fun k hx h => (k.rank_eq hx).trans h) hl rfl ρ.length ha le_rfl

end Discharge

theorem frame_steady (h : ∀ x, σ.heap.Live R x → (σ'.node x).next = (σ.node x).next ∧
    (σ'.node x).key = (σ.node x).key) : Heap.Steady σ.heap σ'.heap R where
  head := rfl
  succ hx := congrArg Ptr.ref (h _ hx).1
  rank hx := rank_congr (h _ hx).2
  dead hx hd := by
    change (σ'.node _).next.marked = true
    rw [(h _ hx).1]
    exact hd

theorem mark_steady {q : Ptr} (hq : q.marked = false) (hn : (σ.node n).next = q) :
    Heap.Steady σ.heap (σ.write n { σ.node n with next := q.mark }).heap R := by
  refine touch_steady (evolves_write rfl rfl (fun h => ?_) (fun h => ?_) id) ?_
  · have h' : (σ.node n).next.marked = true := h
    rw [hn, hq] at h'
    cases h'
  · rw [← hn]
    exact h
  · rw [hn]
    rfl

theorem link_step {e : Event (SetOp V)} (hi : Inv s) (hs : Step s e s')
    (h0 : ¬ s.store.heap.Linked x) (h1 : s'.store.heap.Linked x) :
    ∃ t k v p c, e = .tau t ∧ s.thread t = some (.insert k v, .linkCas p c x) ∧
      s'.thread t = some (.insert k v, .validLoad .linked x) ∧ rank s'.store x = (k : ℤ) := by
  have hi' := hi.step hs
  cases hs with
  | call t op idle hk => exact absurd h1 h0
  | ret t op r n ht => exact absurd h1 h0
  | tau t op pc pc' slot σ ht hn hs =>
    have f := hi.fit ht
    rcases tau_cases f.fresh hn with ⟨p, c, n, rfl, hnext, rfl⟩ | ⟨p, n, q, rfl, hnext, rfl⟩ |
      ⟨d, p, n, q, rfl, hnext, rfl⟩ | ⟨_, hframe⟩
    · have sp := link_splice (f.refs p (by simp [Pc.refs])) hnext (f.fresh n rfl)
        f.loc.2.2.2.2.2
      obtain rfl : x = n := ((sp.linked hi.mem.good).1 h1).resolve_left h0
      simp only [next, if_pos hnext] at hn
      obtain ⟨_, rfl⟩ := Prod.mk.inj (Option.some.inj hn)
      have hins : op.IsInsert := f.fits
      cases op with
      | insert k v =>
        have ht' := goto_thread_self s (s.store.write p { s.store.node p with next := Ptr.addr x })
          t (some (.insert k v, .validLoad .linked x))
        exact ⟨t, k, v, p, c, rfl, ht, ht', (hi'.fit ht').loc⟩
      | _ => exact hins.elim
    · have st := mark_steady (R := s.roots) f.loc.2.2.2 hnext
      exact absurd ((st.linked hi.mem.good).1 h1) h0
    · have := (unlink_linked hi.mem (f.refs p (by simp [Pc.refs])) hnext f.loc.2.1 f.loc.2.2).1 h1
      exact absurd this.1 h0
    · exact absurd (((frame_steady hframe).linked hi.mem.good).1 h1) h0

theorem mark_step {e : Event (SetOp V)} (hi : Inv s) (hs : Step s e s')
    (h0 : ¬ (s.store.heap.Linked x ∧ s.store.heap.dead x)) (h1 : s'.store.heap.Linked x)
    (h2 : s'.store.heap.dead x) :
    ¬ s.store.heap.dead x ∧ ∃ t k p q, e = .tau t ∧
      s.thread t = some (.remove k, .markCas p x q) ∧
      s'.thread t = some (.remove k, .deleteLoad (.trim .inRemove p) x) ∧
      rank s'.store x = (k : ℤ) := by
  have hi' := hi.step hs
  cases hs with
  | call t op idle hk => exact absurd ⟨h1, h2⟩ h0
  | ret t op r n ht => exact absurd ⟨h1, h2⟩ h0
  | tau t op pc pc' slot σ ht hn hs =>
    have f := hi.fit ht
    rcases tau_cases f.fresh hn with ⟨p, c, n, rfl, hnext, rfl⟩ | ⟨p, n, q, rfl, hnext, rfl⟩ |
      ⟨d, p, n, q, rfl, hnext, rfl⟩ | ⟨_, hframe⟩
    · have sp := link_splice (f.refs p (by simp [Pc.refs])) hnext (f.fresh n rfl)
        f.loc.2.2.2.2.2
      rcases (sp.linked hi.mem.good).1 h1 with h1 | rfl
      · exact absurd ⟨h1, (sp.dead (hi.mem.good.live_of_linked h1)).1 h2⟩ h0
      · exact absurd h2 sp.new_alive'
    · have st := mark_steady (R := s.roots) f.loc.2.2.2 hnext
      have h1 := (st.linked hi.mem.good).1 h1
      have hd : ¬ s.store.heap.dead x := fun h => h0 ⟨h1, h⟩
      obtain rfl : x = n := by
        by_contra hne
        have h2' : ((s.store.write n { s.store.node n with next := q.mark }).node x).next.marked =
            true := h2
        rw [node_next, if_neg hne] at h2'
        exact hd h2'
      simp only [next, if_pos hnext] at hn
      obtain ⟨_, rfl⟩ := Prod.mk.inj (Option.some.inj hn)
      have hrem : op.IsRemove := f.fits
      cases op with
      | remove k =>
        have ht' := goto_thread_self s (s.store.write x { s.store.node x with next := q.mark })
          t (some (.remove k, .deleteLoad (.trim .inRemove p) x))
        exact ⟨hd, t, k, p, q, rfl, ht, ht', (hi'.fit ht').loc.2.2 rfl⟩
      | _ => exact hrem.elim
    · obtain ⟨e, _, he⟩ := unlink_succ hi.mem (f.refs p (by simp [Pc.refs])) hnext f.loc.2.2
      have bp := unlink_bypass hi.mem (f.refs p (by simp [Pc.refs])) hnext f.loc.2.1 f.loc.2.2 he
      have h1 := ((bp.linked hi.mem.good).1 h1).1
      exact absurd ⟨h1, (bp.dead (hi.mem.good.live_of_linked h1)).1 h2⟩ h0
    · have h1 := ((frame_steady hframe).linked hi.mem.good).1 h1
      have h2' : (σ.node x).next.marked = true := h2
      rw [(hframe x (hi.mem.good.live_of_linked h1)).1] at h2'
      exact absurd ⟨h1, h2'⟩ h0

section Pending

variable {ρ : Run (machine V)} {l : ℕ}

theorem initial_linked (ρ : Run (machine V)) (hh : x ≠ head) (ht : x ≠ tail) :
    ¬ (heaps ρ 0).Linked x := by
  obtain ⟨zero, junk, h⟩ := ρ.init
  unfold heaps
  rw [h]
  exact fun hl => (initial_live zero junk ⟨head, Or.inl rfl, hl⟩).elim hh ht

theorem met_found {i j : ℕ} (hj : j ≤ ρ.length) (hl : l ≤ i)
    (hlink : ∀ m, l < m → m ≤ ρ.length → (heaps ρ m).Linked x)
    (hr : rank (ρ.state ρ.length).store x = (k : WithBot ℤ))
    (h : Found (heaps ρ) (k : WithBot ℤ) i j y) : y = x ∧ ∃ m, l < m ∧ m ≤ j ∧
      ¬ (heaps ρ m).dead x := by
  obtain ⟨m, h1, h2, h3, h4, h5⟩ := h
  have hx := hlink m (by omega) (by omega)
  have hrx : (heaps ρ m).rank x = (k : WithBot ℤ) :=
    (rank_later (fun a ha => hlink a (by omega)) (by omega)).symm.trans hr
  obtain rfl := (sorted_run ρ (by omega : m ≤ ρ.length)).eq_of_rank h3 hx (h5.trans hrx.symm)
  exact ⟨rfl, m, by omega, h2, h4⟩

theorem met_absent {i j : ℕ} (hj : j ≤ ρ.length) (hl : l ≤ i)
    (hlink : ∀ m, l < m → m ≤ ρ.length → (heaps ρ m).Linked x)
    (hr : rank (ρ.state ρ.length).store x = (k : WithBot ℤ)) (h : Absent ρ k i j) :
    (∃ m, l < m ∧ m ≤ j ∧ (heaps ρ m).dead x) ∧ MarkedAt ρ i j x := by
  have hrx : ∀ m, l < m → m ≤ ρ.length → (heaps ρ m).rank x = (k : WithBot ℤ) := fun m h1 h2 =>
    (rank_later (fun a ha => hlink a (by omega)) h2).symm.trans hr
  rcases h with ⟨m, h1, h2, h3⟩ | ⟨y, ⟨m, h1, h2, h3, h4, h5⟩, hm⟩
  · exact absurd (hrx m (by omega) (by omega)) (h3 x (hlink m (by omega) (by omega)))
  · have hx := hlink m (by omega) (by omega)
    obtain rfl := (sorted_run ρ (by omega : m ≤ ρ.length)).eq_of_rank h3 hx
      (h5.trans (hrx m (by omega) (by omega)).symm)
    exact ⟨⟨m, by omega, h2, h4⟩, hm⟩

theorem insert_late {t : Tid} {r : Bool} {i j : ℕ} (hc : ρ.Completed t op r i j) (hl : l ≤ i)
    (hk : op.key = k) (hlink : ∀ m, l < m → m ≤ ρ.length → (heaps ρ m).Linked x)
    (hr : rank (ρ.state ρ.length).store x = (k : WithBot ℤ))
    (hd : ¬ (heaps ρ ρ.length).dead x)
    (hv : ¬ AllValid ((ρ.state ρ.length).store.line x)) : False := by
  subst hk
  obtain ⟨y, _, _, tr⟩ := ret_run ρ hc
  have hj := hc.lt.le
  have never : ∀ m, l < m → m ≤ j → ¬ (heaps ρ m).dead x := fun m h1 h2 h =>
    hd (dead_later (fun a ha => hlink a (by omega)) (by omega) h)
  have valid : Found (heaps ρ) (op.key : WithBot ℤ) i j y → ¬ ValidAt ρ i j y := by
    intro hf ⟨m, h1, h2, h3⟩
    obtain ⟨rfl, _⟩ := met_found hj hl hlink hr hf
    exact hv (allValid_later (fun a ha => hlink a (by omega)) (by omega) h3)
  have absent : ¬ Absent ρ op.key i j := by
    intro h
    obtain ⟨⟨m, h1, h2, h3⟩, _⟩ := met_absent hj hl hlink hr h
    exact never m h1 h2 h3
  cases op with
  | insert k v => exact valid tr.1 tr.2
  | remove k =>
    cases r with
    | true =>
      obtain ⟨hf, m, h1, h2, h3⟩ := tr
      obtain ⟨rfl, _⟩ := met_found hj hl hlink hr hf
      exact never m (by omega) h2 h3.cur
    | false => exact absent tr
  | contains k =>
    cases r with
    | true => exact valid tr.1 tr.2
    | false => exact absent tr

theorem remove_late {t : Tid} {r : Bool} {i j : ℕ} (hc : ρ.Completed t op r i j) (hl : l ≤ i)
    (hk : op.key = k)
    (hlink : ∀ m, l < m → m ≤ ρ.length → (heaps ρ m).Linked x ∧ (heaps ρ m).dead x)
    (hr : rank (ρ.state ρ.length).store x = (k : WithBot ℤ))
    (hv : ¬ AllMarked ((ρ.state ρ.length).store.line x)) : False := by
  subst hk
  obtain ⟨y, _, _, tr⟩ := ret_run ρ hc
  have hj := hc.lt.le
  have hlink' : ∀ m, l < m → m ≤ ρ.length → (heaps ρ m).Linked x := fun m h1 h2 => (hlink m h1 h2).1
  have found : ¬ Found (heaps ρ) (op.key : WithBot ℤ) i j y := by
    intro hf
    obtain ⟨rfl, m, h1, h2, h3⟩ := met_found hj hl hlink' hr hf
    exact h3 (hlink m h1 (by omega)).2
  have absent : ¬ Absent ρ op.key i j := by
    intro h
    obtain ⟨_, m, h1, h2, h3⟩ := met_absent hj hl hlink' hr h
    exact hv (allMarked_later (fun a ha => hlink' a (by omega)) (by omega) h3)
  cases op with
  | insert k v => exact found tr.1
  | remove k =>
    cases r with
    | true => exact found tr.1
    | false => exact absent tr
  | contains k =>
    cases r with
    | true => exact found tr.1
    | false => exact absent tr

theorem none_returned (duty : Pc → Option Loc) (P : Line (Node V) → Prop) {t : Tid}
    (hdone : ∀ {u op pc r i j m}, ρ.Completed u op r i j → i < m → m ≤ j →
      (ρ.state m).thread u = some (op, pc) → duty pc = some x →
      ∃ b, m ≤ b ∧ b < j ∧ P ((ρ.state b).store.line x))
    (hP : ∀ b, l < b → b ≤ ρ.length → ¬ P ((ρ.state b).store.line x))
    (hlate : ∀ {u op r i j}, ρ.Completed u op r i j → op.key = k → ¬ l ≤ i)
    (hl : l < ρ.length) (ht : (ρ.state (l + 1)).thread t = some (op, pc))
    (hd : duty pc = some x) :
    ∃ i, ρ.Active t op i (l + 1) ∧ ρ.Active t op i ρ.length ∧ NoneReturned ρ x l duty k := by
  obtain ⟨i, ha⟩ := ρ.active_of_thread (by omega : l + 1 ≤ ρ.length) ht
  have hil : i < l + 1 := ha.lt
  refine ⟨i, ha, ?_, fun {u op r a j} hc => ⟨fun hk => ?_, fun m pc h1 h2 h3 hu hd' => ?_⟩⟩
  · rcases ha.or_completed ρ.length hl le_rfl with h | ⟨r, j, h1, h2, hc⟩
    · exact h
    · obtain ⟨b, h3, h4, h5⟩ := hdone hc hil h1 ht hd
      exact absurd h5 (hP b (by omega) (by omega))
  · exact (not_le.1 (hlate hc hk)).le
  · obtain ⟨b, h4, h5, h6⟩ := hdone hc h1 h3 hu hd'
    exact hP b (by omega) (by have := hc.lt; omega) h6

end Pending

theorem insert_pending (ρ : Run (machine V)) (img : (ρ.state ρ.length).Image)
    (hA : k ∈ (ρ.state ρ.length).abs) (hR : k ∉ img.keys) : InsertPending ρ k := by
  obtain ⟨x, hh, ht, hl, hd, hk⟩ := hA
  have hr : rank (ρ.state ρ.length).store x = (k : WithBot ℤ) := by rw [rank_of_ne _ hh, hk]
  have hv : ¬ AllValid ((ρ.state ρ.length).store.line x) := by
    intro hv
    obtain ⟨h1, h2, _⟩ := recovered_of_allValid hv hd (img.written x)
    exact hR ⟨x, hh, ht, h1, h2.trans hk⟩
  obtain ⟨l, hll, h0, hsince⟩ := exists_last (P := fun m => (heaps ρ m).Linked x)
    (initial_linked ρ hh ht) hl
  obtain ⟨t, k', v, p, c, he, _, ht', hr'⟩ := link_step (inv_run ρ l hll.le) (ρ.step hll) h0
    (hsince (l + 1) (by omega) (by omega))
  have hkk : k' = k := by
    have := rank_later (fun a ha => hsince a (by omega)) (by omega : l + 1 ≤ ρ.length)
    exact WithBot.coe_injective (hr'.symm.trans (this.symm.trans hr))
  subst hkk
  obtain ⟨i, ha, hend, hnone⟩ := none_returned Pc.checks AllValid
    (discharged checks_step fun _ _ => rfl)
    (fun b h1 h2 hb => hv (allValid_later (fun a ha => hsince a (by omega)) h2 hb))
    (fun hc hk hle => insert_late hc hle hk hsince hr hd hv) hll ht' rfl
  exact ⟨x, t, v, i, l, hk, hd, ⟨ha, he, hll, h0, hsince⟩, hend, hnone⟩

theorem remove_pending (ρ : Run (machine V)) (img : (ρ.state ρ.length).Image)
    (hR : k ∈ img.keys) (hA : k ∉ (ρ.state ρ.length).abs) : RemovePending ρ k := by
  obtain ⟨x, hh, ht, hrec, hk⟩ := hR
  obtain ⟨hl, hkey, _⟩ := (inv_run ρ ρ.length le_rfl).mem.recovered (img.written x) hrec
  have hk : ((ρ.state ρ.length).store.node x).key = k := hkey.symm.trans hk
  have hr : rank (ρ.state ρ.length).store x = (k : WithBot ℤ) := by rw [rank_of_ne _ hh, hk]
  have hd : (heaps ρ ρ.length).dead x := by
    by_contra hd
    exact hA ⟨x, hh, ht, hl, hd, hk⟩
  have hv : ¬ AllMarked ((ρ.state ρ.length).store.line x) := fun hv =>
    not_recovered_of_marked (hv _ (img.written x)) hrec
  obtain ⟨l, hll, h0, hsince⟩ := exists_last
    (P := fun m => (heaps ρ m).Linked x ∧ (heaps ρ m).dead x)
    (fun h => initial_linked ρ hh ht h.1) ⟨hl, hd⟩
  obtain ⟨h1, h2⟩ := hsince (l + 1) (by omega) (by omega)
  obtain ⟨hbefore, t, k', p, q, he, _, ht', hr'⟩ := mark_step (inv_run ρ l hll.le) (ρ.step hll)
    h0 h1 h2
  have hkk : k' = k := by
    have := rank_later (fun a ha hb => (hsince a (by omega) hb).1) (by omega : l + 1 ≤ ρ.length)
    exact WithBot.coe_injective (hr'.symm.trans (this.symm.trans hr))
  subst hkk
  obtain ⟨i, ha, hend, hnone⟩ := none_returned Pc.deletes AllMarked
    (discharged deletes_step fun _ _ => rfl)
    (fun b h1 h2 hb => hv (allMarked_later (fun a ha hb => (hsince a (by omega) hb).1) h2 hb))
    (fun hc hk hle => remove_late hc hle hk hsince hr hv) hll ht' rfl
  exact ⟨x, t, i, l, hk, ⟨ha, he, hll, hbefore, hsince⟩, hend, hnone⟩

theorem linkFreeList_durable (ρ : Run (machine V)) (img : (ρ.state ρ.length).Image) :
    (∀ k ∈ (ρ.state ρ.length).abs \ img.keys, InsertPending ρ k) ∧
      ∀ k ∈ img.keys \ (ρ.state ρ.length).abs, RemovePending ρ k :=
  ⟨fun _ hk => insert_pending ρ img hk.1 hk.2, fun _ hk => remove_pending ρ img hk.1 hk.2⟩

section Reused

open Reuse

-- the insert of 5 stops after its CAS; thread 0 comes from the node of 1 to slot 3, which by now
-- holds 10, and so it does not meet the node that it would have to flush
def overlooked : List (Command ℕ) :=
  [inserts 1 1 0 2 0, inserts 1 3 0 3 1, [.call 2 (.insert 5 0)], steps 2 6, [.alloc 2 4],
    steps 2 8, [.call 0 (.contains 5)], steps 0 1, removes 1 1, removes 1 3, inserts 1 10 0 3 1,
    steps 0 2, [.ret 0]].flatten

-- what each slot held right after its last flush
def State.firstImage (s : State V) : s.Image where
  node x := (s.store.line x).contents.getLast (List.cons_ne_nil _ _)
  written _ := List.getLast_mem _

def insertsFive (s : State ℕ) (t : Tid) : Bool :=
  t == 2 || (s.thread t).all fun c => c.1.key != 5 || c.1 == .contains 5

theorem linkFreeList_not_durable :
    ∃ (ρ : Run (Reuse.machine ℕ)) (img : (ρ.state ρ.length).Image),
      ∃ k ∈ (ρ.state ρ.length).abs \ img.keys, ¬ InsertPending ρ k := by
  obtain ⟨ρ, hρ, hfew⟩ := exists_play 0 exec id overlooked (by decide +kernel)
  have hlen : ρ.length = 105 := hρ.length
  have low := low_run hρ (fun hc h => ⟨h, List.all_eq_true.1 (show overlooked.all Command.low = true
    by decide +kernel) _ hc⟩) ρ.length le_rfl
  have last := hρ.last (P := fun s => (walk s 8 head).any (has s 5) &&
    ((List.range 16).all fun x =>
      !((s.firstImage.node x).recovered && (s.firstImage.node x).key == 5)) &&
    (List.range 4).all (insertsFive s)) (by decide +kernel)
  have ret := of_decide_eq_true (hρ.holds 104 (P := fun s =>
    s.thread 0 = some (.contains 5, .ret false 3)) (by decide +kernel))
  simp only [Bool.and_eq_true, List.all_eq_true, and_assoc] at last
  obtain ⟨there, nowhere, others⟩ := last
  have hc : ρ.Completed 0 (.contains 5) false 54 104 := completed id hρ (by decide)
    (by decide +kernel) (by decide +kernel) ret (by decide +kernel)
  refine ⟨ρ, (ρ.state ρ.length).firstImage, 5, ⟨abs_of_walk there, ?_⟩, ?_⟩
  · rintro ⟨x, _, _, hrec, hk⟩
    by_cases hx : x < 16
    · have := nowhere x (List.mem_range.2 hx)
      simp [hrec, hk] at this
    · have hl : (ρ.state ρ.length).firstImage.node x = ⟨0#8, false, false, 0, 0, Ptr.null⟩ := by
        simp [State.firstImage, low.line x (not_lt.1 hx), Line.contents]
      rw [hl] at hk
      cases hk
  · rintro ⟨x, t, v, i, l, _, _, hm, hend, hnone⟩
    obtain ⟨pc, ht⟩ := hend.thread le_rfl
    have ht : (ρ.state ρ.length).thread t = some (.insert 5 v, pc) := ht
    have h2 : t = 2 := by
      have := others t (List.mem_range.2 ((hfew _ le_rfl).lt ht))
      simpa [insertsFive, ht, SetOp.key] using this
    have hl : 54 ≤ l := (hnone hc).1 rfl
    have hll := hm.lt
    have late := hρ.stretch (P := fun e => e.tid ≠ 2) (Q := fun c => c.tid != 2)
      (fun h hq => by rw [tid_of_event (exec_event h)]; simpa using hq) (i := 54) (j := 105)
      (by decide +kernel) (by decide +kernel) hl (by omega)
    rw [hm.event, h2] at late
    exact late rfl

end Reused

end LinkFree.List
