import DurableSets.LinkFree.SkipListLinearizable

namespace LinkFree.SkipList

open Chain

variable {V : Type} {σ σ' : Store V} {L : Set Cursor} {x y p n c slot : Loc} {level : ℕ}
  {op : SetOp V} {pc pc' : Pc} {s s' : State V} {path : Path} {q : Ptr} {k : ℤ}

-- one content of each slot that NVRAM may hold
structure State.Image (s : State V) where
  node : Loc → Node V
  written : ∀ x, node x ∈ (s.store.line x).contents

section Linking

variable (ρ : Run (machine V)) (x : Loc) (t : Tid) (i l : ℕ)

-- event l of the call started with event i linked x at level 0, where it has been ever since
structure LinkedBy (op : SetOp V) : Prop where
  active : ρ.Active t op i (l + 1)
  event : ρ.event l = .tau t
  lt : l < ρ.length
  before : ¬ (heaps ρ l).Linked x
  since : ∀ m, l < m → m ≤ ρ.length → (heaps ρ m).Linked x

structure MarkedBy (op : SetOp V) : Prop where
  active : ρ.Active t op i (l + 1)
  event : ρ.event l = .tau t
  lt : l < ρ.length
  before : ¬ (heaps ρ l).dead x
  since : ∀ m, l < m → m ≤ ρ.length → (heaps ρ m).Linked x ∧ (heaps ρ m).dead x

def NoneReturned (k : ℤ) : Prop :=
  ∀ {u op r a j}, ρ.Completed u op r a j → op.key = k → a ≤ l

-- the insert that linked x has not returned, nor has a call on k that started later
def InsertPending (k : ℤ) : Prop :=
  ∃ t v i l, LinkedBy ρ x t i l (.insert k v) ∧ ρ.Active t (.insert k v) i ρ.length ∧
    NoneReturned ρ l k

-- the remove that marked x has not returned, nor has a call on k that started later
def RemovePending (k : ℤ) : Prop :=
  ∃ t i l, MarkedBy ρ x t i l (.remove k) ∧ ρ.Active t (.remove k) i ρ.length ∧
    NoneReturned ρ l k

end Linking

-- a call that found x, or has linked it, and has not yet made sure that it is in NVRAM
def Pc.checks : Pc → Option Loc
  | .validLoad .found n => some n
  | .validLoad (.linked _) n => some n
  | .validLoad .contains n => some n
  | .validStore .found n _ => some n
  | .validStore (.linked _) n _ => some n
  | .validStore .contains n _ => some n
  | .insertLoad _ n => some n
  | .insertFlush _ n => some n
  | .insertStore _ n => some n
  | _ => none

-- a call that found x marked, or has marked it, and has not yet made sure of it in NVRAM
def Pc.deletes : Pc → Option Loc
  | .deleteLoad _ n => some n
  | .deleteFlush _ n => some n
  | .deleteStore _ n => some n
  | _ => none

theorem checks_step (hm : MemInv σ 1 L) (f : Fit σ L op pc)
    (hn : next σ op slot level pc = some (σ', pc')) (hc : pc.checks = some x) :
    pc'.checks = some x ∨ AllValid (σ.line x) := by
  cases pc with
  | validLoad d n =>
    simp only [next] at hn
    split at hn <;> obtain ⟨rfl, rfl⟩ := Prod.mk.inj (Option.some.inj hn)
    · cases d <;> exact Or.inl hc
    · cases d <;> exact Or.inl hc
  | validStore d n old =>
    obtain ⟨rfl, rfl⟩ := Prod.mk.inj (Option.some.inj hn)
    cases d <;> exact Or.inl hc
  | insertLoad d n =>
    obtain rfl : n = x := Option.some.inj hc
    simp only [next] at hn
    split at hn <;> obtain ⟨rfl, rfl⟩ := Prod.mk.inj (Option.some.inj hn)
    · next hfl => exact Or.inr (hm.insertFlag (f.refs _ (d.mem_refs n)) hfl)
    · exact Or.inl rfl
  | insertFlush d n =>
    obtain ⟨rfl, rfl⟩ := Prod.mk.inj (Option.some.inj hn)
    exact Or.inl hc
  | insertStore d n =>
    obtain rfl : n = x := Option.some.inj hc
    exact Or.inr f.loc.2
  | _ => cases hc

theorem deletes_step (hm : MemInv σ 1 L) (f : Fit σ L op pc)
    (hn : next σ op slot level pc = some (σ', pc')) (hc : pc.deletes = some x) :
    pc'.deletes = some x ∨ AllMarked (σ.line x) := by
  cases pc with
  | deleteLoad d n =>
    obtain rfl : n = x := Option.some.inj hc
    simp only [next] at hn
    split at hn <;> obtain ⟨rfl, rfl⟩ := Prod.mk.inj (Option.some.inj hn)
    · next hfl => exact Or.inr (hm.deleteFlag (f.refs _ (d.mem_refs n)) hfl)
    · exact Or.inl rfl
  | deleteFlush d n =>
    obtain ⟨rfl, rfl⟩ := Prod.mk.inj (Option.some.inj hn)
    exact Or.inl hc
  | deleteStore d n =>
    obtain rfl : n = x := Option.some.inj hc
    exact Or.inr f.loc.2
  | _ => cases hc

section Discharge

variable {ρ : Run (machine V)} {t : Tid} {i l m j : ℕ} {r : Bool}

theorem discharged (clean : Clean ρ) {duty : Pc → Option Loc} {P : Line (Node V) → Prop}
    (hstep : ∀ {σ σ' : Store V} {L : Set Cursor} {op : SetOp V} {pc pc' : Pc} {slot x : Loc}
      {level : ℕ}, MemInv σ 1 L → Fit σ L op pc → next σ op slot level pc = some (σ', pc') →
      duty pc = some x → duty pc' = some x ∨ P (σ.line x))
    (hret : ∀ r, duty (.ret r) = none)
    (hc : ρ.Completed t op r i j) (hi : i < m) (hm : m ≤ j)
    (ht : (ρ.state m).thread t = some (op, pc)) (hd : duty pc = some x) :
    ∃ b, m ≤ b ∧ b < j ∧ P ((ρ.state b).store.line x) := by
  have step : ∀ {n u op pc pc' y}, n < ρ.length → (ρ.state n).thread u = some (op, pc) →
      (ρ.state (n + 1)).thread u = some (op, pc') → ρ.event n = .tau u → duty pc = some y →
      duty pc' = some y ∨ P ((ρ.state n).store.line y) := by
    intro n u op pc pc' y hn hu hu' he hd
    have hs := ρ.step hn
    rw [he] at hs
    obtain ⟨slot, level, σ, hnx, _⟩ := tau_inv hs hu hu'
    have hi := inv_run ρ clean n hn.le
    exact hstep hi.mem (hi.fit hu) hnx hd
  rcases Run.Active.discharge (P := fun b x => P ((ρ.state b).store.line x)) step hi ht hd j hm
    hc.lt.le hc.active with ⟨pc', ht', hd'⟩ | h
  · obtain ⟨hy, _⟩ := ret_run ρ clean hc
    obtain ⟨_, rfl⟩ := Prod.mk.inj (Option.some.inj (hy.symm.trans ht'))
    rw [hret] at hd'
    cases hd'
  · exact h

theorem kept_run (clean : Clean ρ) (hm : m < ρ.length) :
    ∃ h L', Kept (ρ.state m).store (ρ.state m).live h L' (ρ.state (m + 1)).store := by
  have hi := inv_run ρ clean m hm.le
  have idle : (ρ.state (m + 1)).store = (ρ.state m).store →
      ∃ h L', Kept (ρ.state m).store (ρ.state m).live h L' (ρ.state (m + 1)).store := by
    intro he
    rw [he]
    exact ⟨none, _, (Effect.idle none).kept hi.mem⟩
  have hs := ρ.step hm
  have hcl := clean m hm
  have htidy := hi.tidy_one (ρ.event m)
  generalize ρ.state (m + 1) = s' at hs hcl idle
  generalize ρ.event m = e at hs htidy
  cases hs with
  | call t op _ hk => exact idle rfl
  | ret t op r ht => exact idle rfl
  | tau t op pc pc' slot level σ ht hn ha =>
    obtain ⟨L', e, _⟩ := tau_ok hi ht (htidy t op pc rfl ht) hn ha hcl
    exact ⟨_, L', e.kept hi.mem⟩

theorem linked_run (clean : Clean ρ) {P : Store V → Prop}
    (hP : ∀ {σ L h L' σ'}, Kept σ L h L' σ' → (x, 0) ∈ L → P σ → P σ')
    {a : ℕ} (hl : ∀ m, a ≤ m → m ≤ ρ.length → (heaps ρ m).Linked x)
    (h : P (ρ.state a).store) : ∀ m, a ≤ m → m ≤ ρ.length → P (ρ.state m).store := by
  intro m hm
  induction m, hm using Nat.le_induction with
  | base => exact fun _ => h
  | succ m ham ih =>
    intro hm
    obtain ⟨h, L', k⟩ := kept_run clean (m := m) (by omega)
    exact hP k (mem_live_of_linked clean (by omega) (hl m ham (by omega))) (ih (by omega))

theorem allValid_later (clean : Clean ρ) {a : ℕ}
    (hl : ∀ m, a ≤ m → m ≤ ρ.length → (heaps ρ m).Linked x)
    (ha : a ≤ ρ.length) (h : AllValid ((ρ.state a).store.line x)) :
    AllValid ((ρ.state ρ.length).store.line x) :=
  linked_run clean (P := fun σ => AllValid (σ.line x))
    (fun k hx => (k.evolves hx).allValid) hl h ρ.length ha le_rfl

theorem allMarked_later (clean : Clean ρ) {a : ℕ}
    (hl : ∀ m, a ≤ m → m ≤ ρ.length → (heaps ρ m).Linked x)
    (ha : a ≤ ρ.length) (h : AllMarked ((ρ.state a).store.line x)) :
    AllMarked ((ρ.state ρ.length).store.line x) :=
  linked_run clean (P := fun σ => AllMarked (σ.line x))
    (fun k hx => (k.evolves hx).marked) hl h ρ.length ha le_rfl

theorem dead_later (clean : Clean ρ) {a : ℕ}
    (hl : ∀ m, a ≤ m → m ≤ ρ.length → (heaps ρ m).Linked x)
    (ha : a ≤ ρ.length) (h : (heaps ρ a).dead x) : (heaps ρ ρ.length).dead x :=
  linked_run clean (P := fun σ => σ.dead 0 x) (fun k hx => k.dead hx) hl h ρ.length ha le_rfl

theorem rank_later (clean : Clean ρ) {a : ℕ}
    (hl : ∀ m, a ≤ m → m ≤ ρ.length → (heaps ρ m).Linked x)
    (ha : a ≤ ρ.length) : rank (ρ.state ρ.length).store x = rank (ρ.state a).store x :=
  linked_run clean (P := fun σ => rank σ x = rank (ρ.state a).store x)
    (fun k hx h => (k.rank_eq hx).trans h) hl rfl ρ.length ha le_rfl

end Discharge

theorem mark_steady (hn : (σ.node n).next 0 = q) :
    Heap.Steady (σ.level 0) ((σ.setNext n 0 q.mark).level 0) (Tower.floor L 0) where
  head := rfl
  succ {x} _ := by
    change (((σ.setNext n 0 q.mark).node x).next 0).ref = ((σ.node x).next 0).ref
    rw [next_setNext]
    split
    · next h => rw [h.1, hn]; rfl
    · rfl
  rank _ := rank_setNext _ _ _ _ _
  dead {x} _ hd := by
    change (((σ.setNext n 0 q.mark).node x).next 0).marked = true
    rw [next_setNext]
    split
    · rfl
    · exact hd

theorem link_step {e : Event (SetOp V)} (hi : Inv 1 s) (hs : Step s e s')
    (h0 : ¬ (s.store.level 0).Linked x) (h1 : (s'.store.level 0).Linked x) :
    ∃ t k v path, e = .tau t ∧ s'.thread t = some (.insert k v, .validLoad (.linked path) x) ∧
      rank s'.store x = (k : ℤ) := by
  cases hs with
  | call t op idle hk => exact absurd h1 h0
  | ret t op r ht => exact absurd h1 h0
  | tau t op pc pc' slot level σ ht hn ha =>
    have f := hi.fit ht
    have hg := hi.mem.good
    rcases tau_cases f hn with ⟨path, d, n, rfl, hpath, hnext, rfl, rfl⟩ |
      ⟨n, q, rfl, hnext, rfl, rfl⟩ | ⟨d, p, b, z, path, rfl, hnext, rfl⟩ | ⟨_, hframe⟩
    · obtain ⟨sp, hr⟩ := link_splice hi.mem f hpath hnext
      obtain rfl : x = n := ((sp.linked hg).1 h1).resolve_left h0
      have hins : op.IsInsert := f.fits
      cases op with
      | insert k v =>
        exact ⟨t, k, v, path, rfl, goto_thread_self _ _ _ _, (rank_setNext _ _ _ _ _).trans hr⟩
      | _ => exact hins.elim
    · exact absurd (((mark_steady hnext).linked hg).1 h1) h0
    · have hpl := f.refs (p, 0) (by simp [Pc.refs])
      have bp := swing_bypass hi.mem hpl hnext f.loc.2.2.2.2.2
      exact absurd (((bp.level hi.mem.sound.closed).linked hg).1 h1).1 h0
    · exact absurd (((frame_steady hi.mem.sound.closed hframe).linked hg).1 h1) h0

theorem mark_step {e : Event (SetOp V)} (hi : Inv 1 s) (hs : Step s e s')
    (h0 : ¬ ((s.store.level 0).Linked x ∧ s.store.dead 0 x)) (h1 : (s'.store.level 0).Linked x)
    (h2 : s'.store.dead 0 x) :
    ¬ s.store.dead 0 x ∧ ∃ t k, e = .tau t ∧
      s'.thread t = some (.remove k, .deleteLoad (.remove true) x) ∧
      rank s'.store x = (k : ℤ) := by
  cases hs with
  | call t op idle hk => exact absurd ⟨h1, h2⟩ h0
  | ret t op r ht => exact absurd ⟨h1, h2⟩ h0
  | tau t op pc pc' slot level σ ht hn ha =>
    have f := hi.fit ht
    have hg := hi.mem.good
    rcases tau_cases f hn with ⟨path, d, n, rfl, hpath, hnext, rfl, rfl⟩ |
      ⟨n, q, rfl, hnext, rfl, rfl⟩ | ⟨d, p, b, z, path, rfl, hnext, rfl⟩ | ⟨_, hframe⟩
    · obtain ⟨sp, _⟩ := link_splice hi.mem f hpath hnext
      rcases (sp.linked hg).1 h1 with h1 | rfl
      · exact absurd ⟨h1, (sp.dead (hg.live_of_linked h1)).1 h2⟩ h0
      · exact absurd h2 sp.new_alive'
    · have h1 := ((mark_steady hnext).linked hg).1 h1
      have hd : ¬ s.store.dead 0 x := fun h => h0 ⟨h1, h⟩
      obtain rfl : x = n := by
        by_contra hne
        refine hd ?_
        have h2' : (((s.store.setNext n 0 q.mark).node x).next 0).marked = true := h2
        rwa [next_setNext_other _ _ fun h => hne h.1] at h2'
      have hrem : op.IsRemove := f.fits
      cases op with
      | remove k =>
        exact ⟨hd, t, k, rfl, goto_thread_self _ _ _ _,
          (rank_setNext _ _ _ _ _).trans f.loc.1.rank⟩
      | _ => exact hrem.elim
    · have hpl := f.refs (p, 0) (by simp [Pc.refs])
      have bp := (swing_bypass hi.mem hpl hnext f.loc.2.2.2.2.2).level hi.mem.sound.closed
      have h1 := ((bp.linked hg).1 h1).1
      exact absurd ⟨h1, (bp.dead (hg.live_of_linked h1)).1 h2⟩ h0
    · have h1 := ((frame_steady hi.mem.sound.closed hframe).linked hg).1 h1
      have h2' : ((σ.node x).next 0).marked = true := h2
      rw [(hframe x (hi.mem.live_of_linked h1)).1] at h2'
      exact absurd ⟨h1, h2'⟩ h0

section Pending

variable {ρ : Run (machine V)} {l : ℕ}

theorem initial_linked (ρ : Run (machine V)) (hh : x ≠ head) (ht : x ≠ tail) :
    ¬ (heaps ρ 0).Linked x := by
  obtain ⟨zero, junk, h⟩ := ρ.init
  intro hl
  have hs : (x, 0) ∈ sentinels := by
    refine (initial_closed zero junk).reach (x := head) ⟨Or.inl rfl, by decide⟩ ?_
    rw [heaps, h] at hl
    exact hl
  exact hs.1.elim hh ht

theorem met_found (clean : Clean ρ) {i j : ℕ} (hj : j ≤ ρ.length) (hl : l ≤ i)
    (hlink : ∀ m, l < m → m ≤ ρ.length → (heaps ρ m).Linked x)
    (hr : rank (ρ.state ρ.length).store x = (k : WithBot ℤ))
    (h : Found (heaps ρ) (k : WithBot ℤ) i j y) : y = x ∧ ∃ m, l < m ∧ m ≤ j ∧
      ¬ (heaps ρ m).dead x := by
  obtain ⟨m, h1, h2, h3, h4, h5⟩ := h
  have hx := hlink m (by omega) (by omega)
  have hrx : (heaps ρ m).rank x = (k : WithBot ℤ) :=
    (rank_later clean (fun a ha => hlink a (by omega)) (by omega)).symm.trans hr
  obtain rfl := (sorted_run clean (by omega : m ≤ ρ.length)).eq_of_rank h3 hx (h5.trans hrx.symm)
  exact ⟨rfl, m, by omega, h2, h4⟩

theorem met_absent (clean : Clean ρ) {i j : ℕ} (hj : j ≤ ρ.length) (hl : l ≤ i)
    (hlink : ∀ m, l < m → m ≤ ρ.length → (heaps ρ m).Linked x)
    (hr : rank (ρ.state ρ.length).store x = (k : WithBot ℤ)) (h : Absent ρ k i j) :
    (∃ m, l < m ∧ m ≤ j ∧ (heaps ρ m).dead x) ∧ (Careful ρ → MarkedAt ρ i j x) := by
  have hrx : ∀ m, l < m → m ≤ ρ.length → (heaps ρ m).rank x = (k : WithBot ℤ) := fun m h1 h2 =>
    (rank_later clean (fun a ha => hlink a (by omega)) h2).symm.trans hr
  rcases h with ⟨m, h1, h2, h3⟩ | ⟨y, ⟨m, h1, h2, h3, h4, h5⟩, hm⟩
  · exact absurd (hrx m (by omega) (by omega)) (h3 x (hlink m (by omega) (by omega)))
  · have hx := hlink m (by omega) (by omega)
    obtain rfl := (sorted_run clean (by omega : m ≤ ρ.length)).eq_of_rank h3 hx
      (h5.trans (hrx m (by omega) (by omega)).symm)
    exact ⟨⟨m, by omega, h2, h4⟩, hm⟩

theorem insert_late (clean : Clean ρ) {t : Tid} {r : Bool} {i j : ℕ} (hc : ρ.Completed t op r i j)
    (hl : l ≤ i) (hk : op.key = k) (hlink : ∀ m, l < m → m ≤ ρ.length → (heaps ρ m).Linked x)
    (hr : rank (ρ.state ρ.length).store x = (k : WithBot ℤ))
    (hd : ¬ (heaps ρ ρ.length).dead x)
    (hv : ¬ AllValid ((ρ.state ρ.length).store.line x)) : False := by
  subst hk
  obtain ⟨_, _, tr⟩ := ret_run ρ clean hc
  have hj := hc.lt.le
  have never : ∀ m, l < m → m ≤ j → ¬ (heaps ρ m).dead x := fun m h1 h2 h =>
    hd (dead_later clean (fun a ha => hlink a (by omega)) (by omega) h)
  have settled : ∀ y, ¬ Settled ρ op.key i j y := by
    intro y ⟨hf, m, h1, h2, h3⟩
    obtain ⟨rfl, _⟩ := met_found clean hj hl hlink hr hf
    exact hv (allValid_later clean (fun a ha => hlink a (by omega)) (by omega) h3)
  have absent : ¬ Absent ρ op.key i j := by
    intro h
    obtain ⟨⟨m, h1, h2, h3⟩, _⟩ := met_absent clean hj hl hlink hr h
    exact never m h1 h2 h3
  cases op with
  | insert k v => exact tr.elim settled
  | remove k =>
    cases r with
    | true =>
      obtain ⟨y, hf, m, h1, h2, h3⟩ := tr
      obtain ⟨rfl, _⟩ := met_found clean hj hl hlink hr hf
      exact never m (by omega) h2 h3.cur
    | false => exact absent tr
  | contains k =>
    cases r with
    | true => exact Exists.elim tr settled
    | false => exact absent tr

theorem remove_late (clean : Clean ρ) (careful : Careful ρ) {t : Tid} {r : Bool} {i j : ℕ}
    (hc : ρ.Completed t op r i j) (hl : l ≤ i) (hk : op.key = k)
    (hlink : ∀ m, l < m → m ≤ ρ.length → (heaps ρ m).Linked x ∧ (heaps ρ m).dead x)
    (hr : rank (ρ.state ρ.length).store x = (k : WithBot ℤ))
    (hv : ¬ AllMarked ((ρ.state ρ.length).store.line x)) : False := by
  subst hk
  obtain ⟨_, _, tr⟩ := ret_run ρ clean hc
  have hj := hc.lt.le
  have hlink' : ∀ m, l < m → m ≤ ρ.length → (heaps ρ m).Linked x := fun m h1 h2 => (hlink m h1 h2).1
  have found : ∀ y, ¬ Found (heaps ρ) (op.key : WithBot ℤ) i j y := by
    intro y hf
    obtain ⟨rfl, m, h1, h2, h3⟩ := met_found clean hj hl hlink' hr hf
    exact h3 (hlink m h1 (by omega)).2
  have absent : ¬ Absent ρ op.key i j := by
    intro h
    obtain ⟨m, h1, h2, h3⟩ := (met_absent clean hj hl hlink' hr h).2 careful
    exact hv (allMarked_later clean (fun a ha => hlink' a (by omega)) (by omega) h3)
  cases op with
  | insert k v =>
    obtain ⟨y, hf, _⟩ := tr
    exact found y hf
  | remove k =>
    cases r with
    | true =>
      obtain ⟨y, hf, _⟩ := tr
      exact found y hf
    | false => exact absent tr
  | contains k =>
    cases r with
    | true =>
      obtain ⟨y, hf, _⟩ := tr
      exact found y hf
    | false => exact absent tr

theorem still_active (duty : Pc → Option Loc) (P : Line (Node V) → Prop) {t : Tid} {i : ℕ}
    (hdone : ∀ {u op pc r i j m}, ρ.Completed u op r i j → i < m → m ≤ j →
      (ρ.state m).thread u = some (op, pc) → duty pc = some x →
      ∃ b, m ≤ b ∧ b < j ∧ P ((ρ.state b).store.line x))
    (hP : ∀ b, l < b → b ≤ ρ.length → ¬ P ((ρ.state b).store.line x))
    (ha : ρ.Active t op i (l + 1)) (hl : l < ρ.length)
    (ht : (ρ.state (l + 1)).thread t = some (op, pc)) (hd : duty pc = some x) :
    ρ.Active t op i ρ.length := by
  rcases ha.or_completed ρ.length hl le_rfl with h | ⟨r, j, h1, h2, hc⟩
  · exact h
  · obtain ⟨b, h3, h4, h5⟩ := hdone hc ha.lt h1 ht hd
    exact absurd h5 (hP b (by omega) (by omega))

end Pending

section Durable

variable {ρ : Run (machine V)}

theorem insert_pending (clean : Clean ρ) (img : (ρ.state ρ.length).Image) (hh : x ≠ head)
    (ht : x ≠ tail) (hl : (heaps ρ ρ.length).Linked x) (hd : ¬ (heaps ρ ρ.length).dead x)
    (hk : ((ρ.state ρ.length).store.node x).key = k)
    (hv : ¬ isValid (img.node x).metaData = true) : InsertPending ρ x k := by
  have hr : rank (ρ.state ρ.length).store x = (k : WithBot ℤ) := by rw [rank_of_ne _ hh, hk]
  have hv : ¬ AllValid ((ρ.state ρ.length).store.line x) := fun h => hv (h _ (img.written x))
  obtain ⟨l, hll, h0, hsince⟩ := exists_last (P := fun m => (heaps ρ m).Linked x)
    (initial_linked ρ hh ht) hl
  obtain ⟨t, k', v, path, he, ht', hr'⟩ := link_step (inv_run ρ clean l hll.le) (ρ.step hll) h0
    (hsince (l + 1) (by omega) (by omega))
  obtain rfl : k' = k := by
    have := rank_later clean (fun a ha => hsince a (by omega)) (by omega : l + 1 ≤ ρ.length)
    exact WithBot.coe_injective (hr'.symm.trans (this.symm.trans hr))
  obtain ⟨i, ha⟩ := ρ.active_of_thread (by omega : l + 1 ≤ ρ.length) ht'
  have hend := still_active Pc.checks AllValid (discharged clean checks_step fun _ => rfl)
    (fun b h1 h2 hb => hv (allValid_later clean (fun a ha => hsince a (by omega)) h2 hb))
    ha hll ht' rfl
  refine ⟨t, v, i, l, ⟨ha, he, hll, h0, hsince⟩, hend, fun hc hk' => ?_⟩
  by_contra hle
  exact insert_late clean hc (not_le.1 hle).le hk' hsince hr hd hv

theorem exists_marked (clean : Clean ρ) (hh : x ≠ head) (ht : x ≠ tail)
    (hl : (heaps ρ ρ.length).Linked x) (hd : (heaps ρ ρ.length).dead x)
    (hk : ((ρ.state ρ.length).store.node x).key = k) :
    ∃ t i l, MarkedBy ρ x t i l (.remove k) ∧
      (ρ.state (l + 1)).thread t = some (.remove k, .deleteLoad (.remove true) x) := by
  have hr : rank (ρ.state ρ.length).store x = (k : WithBot ℤ) := by rw [rank_of_ne _ hh, hk]
  obtain ⟨l, hll, h0, hsince⟩ := exists_last
    (P := fun m => (heaps ρ m).Linked x ∧ (heaps ρ m).dead x)
    (fun h => initial_linked ρ hh ht h.1) ⟨hl, hd⟩
  obtain ⟨h1, h2⟩ := hsince (l + 1) (by omega) (by omega)
  obtain ⟨hbefore, t, k', he, ht', hr'⟩ := mark_step (inv_run ρ clean l hll.le) (ρ.step hll)
    h0 h1 h2
  obtain rfl : k' = k := by
    have := rank_later clean (fun a ha hb => (hsince a (by omega) hb).1)
      (by omega : l + 1 ≤ ρ.length)
    exact WithBot.coe_injective (hr'.symm.trans (this.symm.trans hr))
  obtain ⟨i, ha⟩ := ρ.active_of_thread (by omega : l + 1 ≤ ρ.length) ht'
  exact ⟨t, i, l, ⟨ha, he, hll, hbefore, hsince⟩, ht'⟩

theorem remove_pending (clean : Clean ρ) (careful : Careful ρ) (img : (ρ.state ρ.length).Image)
    (hh : x ≠ head) (ht : x ≠ tail) (hd : (heaps ρ ρ.length).dead x)
    (hs : (heaps ρ ρ.length).succ x ≠ none)
    (hk : ((ρ.state ρ.length).store.node x).key = k)
    (hv : ((img.node x).next 0).marked = false) : RemovePending ρ x k := by
  have hr : rank (ρ.state ρ.length).store x = (k : WithBot ℤ) := by rw [rank_of_ne _ hh, hk]
  have hv : ¬ AllMarked ((ρ.state ρ.length).store.line x) := by
    intro h
    rw [h _ (img.written x)] at hv
    cases hv
  have hl : (heaps ρ ρ.length).Linked x := by
    by_contra hl
    exact hv ((inv_run ρ clean ρ.length le_rfl).mem.persist hl hd hs)
  obtain ⟨t, i, l, hm, ht'⟩ := exists_marked clean hh ht hl hd hk
  have hlink : ∀ m, l < m → m ≤ ρ.length → (heaps ρ m).Linked x := fun m h1 h2 =>
    (hm.since m h1 h2).1
  have hend := still_active Pc.deletes AllMarked (discharged clean deletes_step fun _ => rfl)
    (fun b h1 h2 hb => hv (allMarked_later clean (fun a ha => hlink a (by omega)) h2 hb))
    hm.active hm.lt ht' rfl
  refine ⟨t, i, l, hm, hend, fun hc hk' => ?_⟩
  by_contra hle
  exact remove_late clean careful hc (not_le.1 hle).le hk' hm.since hr hv

end Durable

-- a node that NVRAM still has unmarked although a remove marked it (a newNode that could not be
-- linked has a marked null), and one that NVRAM does not have although an insert linked it
theorem linkFreeSkipList_durable (ρ : Run (machine V)) (clean : Clean ρ) (careful : Careful ρ)
    (img : (ρ.state ρ.length).Image) (x : Loc) (hh : x ≠ head) (ht : x ≠ tail) :
    (((img.node x).next 0).marked = false → (heaps ρ ρ.length).dead x →
      (heaps ρ ρ.length).succ x ≠ none →
      RemovePending ρ x ((ρ.state ρ.length).store.node x).key) ∧
    ((heaps ρ ρ.length).Linked x → ¬ (heaps ρ ρ.length).dead x →
      ¬ isValid (img.node x).metaData = true →
      InsertPending ρ x ((ρ.state ρ.length).store.node x).key) :=
  ⟨fun hv hd hs => remove_pending clean careful img hh ht hd hs rfl hv,
    fun hl hd hv => insert_pending clean img hh ht hl hd rfl hv⟩

-- thread 0 inserts 5, and its remove(5) stops right after the mark
def markStops : List (Command ℕ) :=
  [[.call 0 (.insert 5 0)], steps 0 42, [.alloc 0 2 1], steps 0 14, [.ret 0, .call 0 (.remove 5)],
    steps 0 45].flatten

-- then thread 1 also calls remove(5)
def markSkipped : List (Command ℕ) :=
  markStops ++ .call 1 (.remove 5) :: (steps 1 44 ++ [.ret 1])

def cautious (s : State V) (t : Tid) : Bool :=
  match s.thread t with
  | some (.remove _, .searchTest 0 _ c _) => !((s.store.node c).next 0).marked
  | _ => true

theorem careful_of_cautious {e : Event (SetOp V)} (h : ∀ t, cautious s t = true) :
    s.Careful e := by
  intro t k p c path _ ht hd _
  have := h t
  unfold Store.dead at hd
  simp [cautious, ht, hd] at this

def careful01 (s : State V) : Bool := cautious s 0 && cautious s 1

-- what the line held right after it was flushed
def State.firstImage (s : State V) : s.Image where
  node x := (s.store.line x).contents.getLast (List.cons_ne_nil _ _)
  written _ := List.getLast_mem _

theorem linkFreeSkipList_durable_markStops : ∃ ρ : Run (machine ℕ), RemovePending ρ 2 5 := by
  obtain ⟨ρ, hρ, hidle⟩ := exists_play 0 (guarded careful01 exec)
    (fun h => (guarded_inv h).2) markStops (by decide +kernel)
  have clean : Clean ρ := clean_of_neverRecycled
    (neverRecycled_of_plays (fun h => (guarded_inv h).2) hρ (by decide +kernel))
  have careful : Careful ρ := by
    intro m hm
    refine careful_of_cautious fun t => ?_
    have h := (guarded_inv (hρ.exec (by rw [← hρ.length]; exact hm))).1
    simp only [careful01, Bool.and_eq_true] at h
    match t with
    | 0 => exact h.1
    | 1 => exact h.2
    | t + 2 => simp [cautious, hidle m hm.le (t + 2) (Nat.le_add_left 2 t)]
  have last := hρ.last (P := fun s =>
    (((s.firstImage).node 2).next 0).marked == false && ((s.store.node 2).next 0).marked &&
      (((s.store.node 2).next 0).ref != none) && (s.store.node 2).key == 5) (by decide +kernel)
  simp only [Bool.and_eq_true, bne_iff_ne, beq_iff_eq, and_assoc] at last
  obtain ⟨h1, h2, h3, h4⟩ := last
  have := (linkFreeSkipList_durable ρ clean careful (ρ.state ρ.length).firstImage 2 (by decide)
    (by decide)).1 h1 h2 h3
  rw [h4] at this
  exact ⟨ρ, this⟩

theorem markSkipped_tid {n : ℕ} {c : Command ℕ} (hn : 105 ≤ n) (h : markSkipped[n]? = some c) :
    c.tid = 1 := by
  have hd : (markSkipped.drop 105)[n - 105]? = some c := by
    rw [List.getElem?_drop, Nat.add_sub_cancel' hn]
    exact h
  have all : ∀ c ∈ markSkipped.drop 105, c.tid = 1 := by
    change ∀ c ∈ .call 1 (.remove 5) :: (steps 1 44 ++ [.ret 1]), c.tid = 1
    simp [steps, Command.tid]
  exact all c (List.mem_of_getElem? hd)

def deleting (s : State V) (t : Tid) : Bool :=
  match s.thread t with
  | some (_, .deleteLoad _ _) => true
  | _ => false

-- thread 1 has answered that 5 is not there, and after a crash it may be there
theorem linkFreeSkipList_not_durable :
    ∃ (ρ : Run (machine ℕ)) (img : (ρ.state ρ.length).Image), Clean ρ ∧
      isValid (img.node 2).metaData = true ∧ ((img.node 2).next 0).marked = false ∧
      (img.node 2).key = 5 ∧ ((ρ.state ρ.length).store.node 2).key = 5 ∧
      (heaps ρ ρ.length).dead 2 ∧
      (∀ y, (heaps ρ ρ.length).Linked y → ((ρ.state ρ.length).store.node y).key = 5 → y = 2) ∧
      (∃ t i l, l < 105 ∧ MarkedBy ρ 2 t i l (.remove 5)) ∧
      ρ.Completed 1 (.remove 5) false 105 150 := by
  obtain ⟨ρ, hρ, _⟩ := exists_play 0 (guarded (fun s => !deleting s 1) exec)
    (fun h => (guarded_inv h).2) markSkipped (by decide +kernel)
  have hlen : ρ.length = 151 := hρ.length
  have test : ∀ m < ρ.length, deleting (ρ.state m) 1 = false := by
    intro m hm
    have h := (guarded_inv (hρ.exec (by rw [← hρ.length]; exact hm))).1
    simpa using h
  have clean : Clean ρ := clean_of_neverRecycled
    (neverRecycled_of_plays (fun h => (guarded_inv h).2) hρ (by decide +kernel))
  have event : ∀ {n c}, markSkipped[n]? = some c →
      exec (ρ.state n) c = some (ρ.event n, ρ.state (n + 1)) := fun h =>
    (guarded_inv (hρ.command h)).2
  have last := hρ.holds 151 (P := fun s =>
    isValid ((s.firstImage).node 2).metaData && (((s.firstImage).node 2).next 0).marked == false &&
      ((s.firstImage).node 2).key == 5 && (s.store.node 2).key == 5 &&
      ((s.store.node 2).next 0).marked &&
      (s.store.node head).key == INT_MIN && (((s.store.node head).next 0).ref == some 2))
    (by decide +kernel)
  simp only [Bool.and_eq_true, beq_iff_eq, and_assoc] at last
  obtain ⟨h1, h2, h3, h4, h5, h6, h7⟩ := last
  have linked : (heaps ρ 151).Linked 2 := Heap.Reach.single h7
  have ret : ρ.event 150 = .ret 1 false := by
    obtain ⟨op, r, ht, he⟩ := exec_ret (event (n := 150) (c := .ret 1) rfl)
    have := hρ.holds 150 (P := fun s =>
      s.thread 1 = some (.remove 5, .ret false)) (by decide +kernel)
    obtain ⟨_, hr⟩ := Prod.mk.inj (Option.some.inj (ht.symm.trans (of_decide_eq_true this)))
    injection hr with hr
    rw [he, hr]
  refine ⟨ρ, (ρ.state ρ.length).firstImage, clean, ?_⟩
  rw [hlen]
  refine ⟨h1, h2, h3, h4, h5, ?_, ?_, ⟨⟨by decide, ?_, ?_⟩, by omega, ret⟩⟩
  · intro y hy hk
    have hy' : y ≠ head := by
      rintro rfl
      rw [h6] at hk
      cases hk
    refine (sorted_run clean hlen.ge).eq_of_rank hy linked ?_
    change rank (ρ.state 151).store y = rank (ρ.state 151).store 2
    rw [rank_of_ne _ hy', rank_of_ne _ (by decide), hk, h4]
  · obtain ⟨t, i, l, hm, ht⟩ := exists_marked (ρ := ρ) (x := 2) (k := 5) clean (by decide)
      (by decide) (by rw [hlen]; exact linked) (by rw [hlen]; exact h5) (by rw [hlen]; exact h4)
    refine ⟨t, i, l, ?_, hm⟩
    by_contra hle
    have hl : l < 151 := hlen ▸ hm.lt
    obtain ⟨c, hc⟩ : ∃ c, markSkipped[l]? = some c := ⟨_, List.getElem?_eq_getElem hl⟩
    have htid := exec_tid (event hc)
    rw [markSkipped_tid (not_lt.1 hle) hc, hm.event] at htid
    obtain rfl : t = 1 := htid
    have hlt : l + 1 < 151 := by
      refine lt_of_le_of_ne hl fun he => ?_
      obtain rfl : l = 150 := by omega
      rw [hm.event] at ret
      cases ret
    have := test (l + 1) (by omega)
    simp [deleting, ht] at this
  · exact (exec_call (event (n := 105) rfl)).2
  · intro n h1 h2
    have hc : markSkipped[n]? = some (.step 1) := getElem?_steps h1 h2
    rw [(exec_tau (event hc)).2]
    exact id

end LinkFree.SkipList
