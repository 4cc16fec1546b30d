import DurableSets.SOFT.ListLinearizable

namespace SOFT.List

open Chain

variable {V : Type} {σ : Store V} {x y n : Loc} {p : PLoc} {op : SetOp V} {pc pc' : Pc}
  {s s' : State V} {t u : Tid} {k : ℤ}

-- one content of each PNode that NVRAM may hold
structure State.Image (s : State V) where
  pnode : PLoc → PNode V
  written : ∀ p, pnode p ∈ (s.store.pline p).contents

def State.Image.keys {s : State V} (img : s.Image) : Set ℤ :=
  {k | ∃ p, (img.pnode p).recovered = true ∧ (img.pnode p).key = k}

def Allocated (ρ : Run (machine V)) (m : ℕ) (p : PLoc) : Prop :=
  (ρ.state m).store.pavail p = true ∧ (ρ.state (m + 1)).store.pavail p = false

structure CrashSafe (ρ : Run (machine V)) (img : (ρ.state ρ.length).Image) : Prop where
  inserted : ∀ {x}, Joined ρ ρ.length x → stateAt ρ ρ.length x = .inserted →
    ∃ p, ((ρ.state ρ.length).store.node x).pptr = some p ∧ (img.pnode p).isValid = true ∧
      (img.pnode p).key = ((ρ.state ρ.length).store.node x).key ∧
      (img.pnode p).value = ((ρ.state ρ.length).store.node x).value
  deleted : ∀ {m x p}, m < ρ.length → Joined ρ m x → stateAt ρ m x ≠ .deleted →
    stateAt ρ (m + 1) x = .deleted → ((ρ.state m).store.node x).pptr = some p →
    (∀ j, m < j → j < ρ.length → ¬ Allocated ρ j p) → ¬ (img.pnode p).isValid = true
  unseen : ∀ k ∈ img.keys \ (ρ.state ρ.length).abs, ∃ x t v i a,
    InList (ρ.state ρ.length).store x ∧ ((ρ.state ρ.length).store.node x).key = k ∧
    stateAt ρ ρ.length x = .intendToInsert ∧ ρ.Grabs Pc.inserts i a x ∧
    ρ.Active t (.insert k v) i ρ.length
  erased : ∀ k ∈ (ρ.state ρ.length).abs \ img.keys, ∃ x t i a,
    InList (ρ.state ρ.length).store x ∧ ((ρ.state ρ.length).store.node x).key = k ∧
    stateAt ρ ρ.length x = .intendToDelete ∧ ρ.Grabs Pc.removes i a x ∧
    ρ.Active t (.remove k) i ρ.length
  insertReturned : ∀ {t k v i j}, ρ.Completed t (.insert k v) true i j → ∃ a x,
    ρ.Grabs Pc.inserts i a x ∧ (k ∈ img.keys ∨ ∃ i' b, ρ.Grabs Pc.removes i' b x)
  removeReturned : ∀ {t k i j}, ρ.Completed t (.remove k) true i j → ∃ a x,
    ρ.Grabs Pc.removes i a x ∧ stateAt ρ ρ.length x = .deleted ∧
    (k ∈ img.keys → ∃ y, y ≠ x ∧ InList (ρ.state ρ.length).store y ∧
      ((ρ.state ρ.length).store.node y).key = k)

def Spent (s : State V) (p : PLoc) : Prop :=
  s.store.pavail p = true ∨ ∃ x, (s.store.node x).pptr = some p ∧
    (s.store.node x).next.state = .deleted ∧
    (InList s.store x ∨ ∃ t op pc, s.thread t = some (op, pc) ∧ pc.retires = some x)

theorem Spent.not_isValid (hi : Inv s) (h : Spent s p) {c : PNode V}
    (hc : c ∈ (s.store.pline p).contents) : ¬ c.isValid = true := by
  rcases h with h | ⟨x, hp, hd, hx⟩
  · obtain ⟨v, hv⟩ := hi.mem.pnode.idle h
    exact hv.not_isValid hc
  · have ho : Owner s.store s.writers x := by
      rcases hx with hx | ⟨t, op, pc, ht, hr⟩
      · exact Or.inl hx
      · exact Or.inr (retires_mem_writers ht hr)
    obtain ⟨q, hq, hm⟩ := hi.mem.pnode.owned ho
    obtain rfl := Option.some.inj (hp.symm.trans hq)
    rw [hd] at hm
    exact hm.not_isValid hc

theorem trimFree_gives {slot : ℕ} {σ' : Store V} (hr : pc.retires = some x)
    (hp : (σ.node x).pptr = some p) (hn : next σ op slot pc = some (σ', pc')) :
    σ'.pavail p = true := by
  cases pc with
  | trimFree c d st n =>
    obtain rfl := Option.some.inj hr
    simp only [next] at hn
    obtain ⟨q, hq, he⟩ := Option.map_eq_some_iff.1 hn
    obtain ⟨rfl, rfl⟩ := Prod.mk.inj he
    obtain rfl := Option.some.inj (hp.symm.trans hq)
    simp [Store.giveP]
  | _ => cases hr

theorem Spent.step (hi : Inv s) {e : Event (SetOp V)} (hs : Step s e s') (h : Spent s p)
    (ha : ¬ (s.store.pavail p = true ∧ s'.store.pavail p = false)) : Spent s' p := by
  rcases h with h | ⟨x, hp, hd, hx⟩
  · left
    cases hp : s'.store.pavail p with
    | true => rfl
    | false => exact absurd ⟨h, hp⟩ ha
  · have keep : ∀ {u op pc}, u ≠ e.tid → s.thread u = some (op, pc) →
        s'.thread u = some (op, pc) := fun hu h => ((machine V).step_other hs hu).trans h
    have hlive : s.store.heap.Live s.roots x := by
      rcases hx with hx | ⟨t, op, pc, ht, hr⟩
      · exact hi.mem.chain.good.live_of_linked hx.1
      · exact (hi.fit ht).refs x (writes_mem_refs (Or.inr hr))
    have hev := evolves_step hi hs hlive
    have hp' := hev.pptr.trans hp
    have hd' := (congrArg Ptr.state (hev.next hd)).trans hd
    cases hs with
    | call t op idle hk =>
      refine Or.inr ⟨x, hp', hd', hx.imp_right ?_⟩
      rintro ⟨u, op1, pc1, hu, hr⟩
      refine ⟨u, op1, pc1, keep ?_ hu, hr⟩
      rintro rfl
      exact absurd (idle.symm.trans hu) nofun
    | ret t op r ht =>
      refine Or.inr ⟨x, hp', hd', hx.imp_right ?_⟩
      rintro ⟨u, op1, pc1, hu, hr⟩
      refine ⟨u, op1, pc1, keep ?_ hu, hr⟩
      rintro rfl
      obtain ⟨rfl, rfl⟩ := Prod.mk.inj (Option.some.inj (ht.symm.trans hu))
      cases hr
    | tau t op pc pc' slot σ ht hn hpa hna =>
      have f := hi.fit ht
      have tau := tau_cases (R := s.roots) (fun n ho => (f.owned n ho).1) hn
      rcases hx with hx | ⟨u, op1, pc1, hu, hr⟩
      · rcases tau.keeps hi.mem f hx with hx' | ⟨_, hr⟩
        · exact Or.inr ⟨x, hp', hd', Or.inl hx'⟩
        · exact Or.inr ⟨x, hp', hd', Or.inr ⟨t, op, pc', goto_thread_self _ _ _ _, hr⟩⟩
      · by_cases he : u = t
        · subst he
          obtain ⟨rfl, rfl⟩ := Prod.mk.inj (Option.some.inj (ht.symm.trans hu))
          exact Or.inl (trimFree_gives hr hp hn)
        · exact Or.inr ⟨x, hp', hd', Or.inr ⟨u, op1, pc1, keep he hu, hr⟩⟩

section Crash

variable {ρ : Run (machine V)} {i j m m' : ℕ}

theorem spent_run (h : Spent (ρ.state m) p)
    (ha : ∀ j, m ≤ j → j < ρ.length → ¬ Allocated ρ j p) :
    ∀ m', m ≤ m' → m' ≤ ρ.length → Spent (ρ.state m') p := by
  intro m' hmm
  induction m', hmm using Nat.le_induction with
  | base => exact fun _ => h
  | succ m' hmm ih =>
    intro hl
    exact (ih (by omega)).step (inv_run ρ m' (by omega)) (ρ.step (by omega)) (ha m' hmm (by omega))

theorem deleted_spent (hm : m < ρ.length) (hj : Joined ρ m x)
    (h0 : stateAt ρ m x ≠ .deleted) (h1 : stateAt ρ (m + 1) x = .deleted)
    (hp : ((ρ.state m).store.node x).pptr = some p) : Spent (ρ.state (m + 1)) p := by
  have hin := (joined_run hj hm.le).2.resolve_right h0
  have g := (sorted_run ρ hm.le).good
  refine Or.inr ⟨x, (hj.evolves hm).pptr.trans hp, h1, Or.inl ⟨?_, hin.2⟩⟩
  have ch := change_run ρ hm
  cases ch with
  | steady s => exact (s.linked g).2 hin.1
  | splice d n c s => exact (s.linked g).2 (Or.inl hin.1)
  | bypass d c e s => exact (s.linked g).2 ⟨hin.1, fun hb => h0 (s.gone hb)⟩

theorem inserted_valid (hm : m ≤ ρ.length) (hj : Joined ρ m x) (hs : stateAt ρ m x = .inserted) :
    ∃ p, ((ρ.state m).store.node x).pptr = some p ∧
      ∀ c ∈ ((ρ.state m).store.pline p).contents, c.isValid = true ∧
        c.key = ((ρ.state m).store.node x).key ∧ c.value = ((ρ.state m).store.node x).value := by
  have hin := (joined_run hj hm).2.resolve_right fun hd => by
    rw [hs] at hd
    cases hd
  obtain ⟨p, hp, hmat⟩ := (inv_run ρ m hm).mem.pnode.owned (Or.inl hin)
  have hs : ((ρ.state m).store.node x).next.state = .inserted := hs
  rw [hs] at hmat
  refine ⟨p, hp, fun c hc => ?_⟩
  obtain ⟨hcr, hd⟩ := hmat c hc
  exact ⟨hcr.isValid hd, hcr.2.2⟩

theorem recovered_node {img : (ρ.state ρ.length).Image} (hk : k ∈ img.keys) :
    ∃ x, InList (ρ.state ρ.length).store x ∧ ((ρ.state ρ.length).store.node x).key = k ∧
      stateAt ρ ρ.length x ≠ .deleted := by
  obtain ⟨p, hr, hk⟩ := hk
  rw [PNode.recovered_eq] at hr
  have hi := inv_run ρ ρ.length le_rfl
  obtain ⟨x, hx, hp, hd⟩ := hi.mem.pnode.valid (img.written p) hr
  obtain ⟨q, hq, hm⟩ := hi.mem.pnode.owned (Or.inl hx)
  obtain rfl := Option.some.inj (hp.symm.trans hq)
  exact ⟨x, hx, (hm.key hd (img.written p) hr).1.symm.trans hk, hd⟩

theorem inserted_mem (img : (ρ.state ρ.length).Image) (hj : Joined ρ ρ.length x)
    (hs : stateAt ρ ρ.length x = .inserted) :
    ((ρ.state ρ.length).store.node x).key ∈ img.keys := by
  obtain ⟨p, hp, h⟩ := inserted_valid le_rfl hj hs
  obtain ⟨h1, h2, _⟩ := h _ (img.written p)
  exact ⟨p, (PNode.recovered_eq _).trans h1, h2⟩

theorem grabbed_run {g : Pc → Option Loc} {P : NodeState → Prop} {r : Bool}
    (hflow : ∀ {n t op pc pc' x}, n < ρ.length → (ρ.state n).thread t = some (op, pc) →
      (ρ.state (n + 1)).thread t = some (op, pc') → ρ.event n = .tau t →
      g pc = some x → g pc' = some x ∨ P (stateAt ρ n x))
    (hret : g (.ret r) = none) (hc : ρ.Completed t op r i j) {a : ℕ} (h : ρ.Grabs g i a x) :
    ∃ b, a < b ∧ b < j ∧ P (stateAt ρ b x) := by
  have haj := h.before hc
  have hia := h.lt
  obtain ⟨pc, pc', _, ht', _, hg⟩ := h.thread hc.active
  rcases Run.Active.discharge (P := fun b x => P (stateAt ρ b x)) hflow (by omega) ht' hg j haj
    hc.lt.le hc.active with ⟨pc1, ht1, hg1⟩ | ⟨b, h1, h2, h3⟩
  · obtain ⟨_, rfl⟩ := Prod.mk.inj (Option.some.inj ((ret_run ρ hc).1.symm.trans ht1))
    exact absurd (hret.symm.trans hg1) nofun
  · exact ⟨b, h1, h2, h3⟩

theorem inserts_done {r : Bool} (hc : ρ.Completed t op r i j) {a : ℕ}
    (h : ρ.Grabs Pc.inserts i a x) :
    ∃ b, a < b ∧ b < j ∧ stateAt ρ b x ≠ .intendToInsert := by
  refine grabbed_run (P := (· ≠ .intendToInsert)) ?_ rfl hc h
  intro n t op pc pc' x hn ht ht' he hg
  have hs := ρ.step hn
  rw [he] at hs
  obtain ⟨slot, σ, hnx, _⟩ := tau_inv hs ht ht'
  exact ((flow_of_next hnx).inserts_keep hg).imp_right And.right

theorem removes_done {r : Bool} (hc : ρ.Completed t op r i j) {a : ℕ}
    (h : ρ.Grabs Pc.removes i a x) :
    ∃ b, a < b ∧ b < j ∧ stateAt ρ b x = .deleted := by
  refine grabbed_run (P := (· = .deleted)) ?_ rfl hc h
  intro n t op pc pc' x hn ht ht' he hg
  have hs := ρ.step hn
  rw [he] at hs
  obtain ⟨slot, σ, hnx, _⟩ := tau_inv hs ht ht'
  exact ((flow_of_next hnx).removes_over ((inv_run ρ n hn.le).fit ht) hg).imp_right And.right

theorem inserts_joined {a : ℕ} (h : ρ.Grabs Pc.inserts i a x) : Joined ρ (a + 1) x := by
  obtain ⟨ha, t, op, pc, pc', he, _, ht, ht', h0, h1⟩ := h
  have hs := ρ.step ha
  rw [he] at hs
  exact ⟨a + 1, le_rfl, (grab_link (inv_run ρ a ha.le) hs ht ht' h0 h1).2⟩

theorem removes_joined {a : ℕ} (h : ρ.Grabs Pc.removes i a x) : Joined ρ a x := by
  obtain ⟨ha, t, op, pc, pc', he, _, ht, ht', h0, h1⟩ := h
  have hs := ρ.step ha
  rw [he] at hs
  exact ⟨a, le_rfl, (grab_mark (inv_run ρ a ha.le) hs ht ht' h0 h1).2⟩

theorem Joined.key (h : Joined ρ m x) (hm : m ≤ m') (hl : m' ≤ ρ.length) :
    ((ρ.state m').store.node x).key = ((ρ.state m).store.node x).key := by
  induction m', hm using Nat.le_induction with
  | base => rfl
  | succ m' hm ih => exact ((h.mono hm).evolves (by omega)).key.trans (ih (by omega))

theorem unseen_pending (img : (ρ.state ρ.length).Image) (hR : k ∈ img.keys)
    (hA : k ∉ (ρ.state ρ.length).abs) : ∃ x t v i a, InList (ρ.state ρ.length).store x ∧
      ((ρ.state ρ.length).store.node x).key = k ∧ stateAt ρ ρ.length x = .intendToInsert ∧
      ρ.Grabs Pc.inserts i a x ∧ ρ.Active t (.insert k v) i ρ.length := by
  obtain ⟨x, hx, hk, hd⟩ := recovered_node hR
  have hst : stateAt ρ ρ.length x = .intendToInsert := by
    by_contra hne
    exact hA (mem_abs.2 ⟨x, hx, visible_iff.2 ⟨hne, hd⟩, hk⟩)
  obtain ⟨t, op, pc, ht, hins⟩ := (helped_run ρ ρ.length le_rfl).inserter hx hst
  obtain ⟨hop, _, hr⟩ := ((inv_run ρ ρ.length le_rfl).fit ht).inserts hins
  obtain ⟨i, ha, hold⟩ := inserting_run ρ ρ.length le_rfl ht
  rcases hold with ⟨h, _⟩ | ⟨y, h, a, _, hg, _⟩
  · exact absurd (h.symm.trans hins) nofun
  · have hy : y = x := by
      rcases h with h | ⟨h, _⟩
      · exact Option.some.inj (h.symm.trans hins)
      · exact absurd (h.symm.trans hins) nofun
    rw [hy] at hg
    cases op with
    | insert k' v =>
      obtain rfl : k' = k := (key_of_rank hr).symm.trans hk
      exact ⟨x, t, v, i, a, hx, hk, hst, hg, ha⟩
    | _ => exact hop.elim

theorem erased_pending (img : (ρ.state ρ.length).Image) (hA : k ∈ (ρ.state ρ.length).abs)
    (hR : k ∉ img.keys) : ∃ x t i a, InList (ρ.state ρ.length).store x ∧
      ((ρ.state ρ.length).store.node x).key = k ∧ stateAt ρ ρ.length x = .intendToDelete ∧
      ρ.Grabs Pc.removes i a x ∧ ρ.Active t (.remove k) i ρ.length := by
  obtain ⟨x, hx, hv, hk⟩ := mem_abs.1 hA
  have hst : stateAt ρ ρ.length x = .intendToDelete :=
    hv.resolve_left fun h => hR (hk ▸ inserted_mem img ⟨_, le_rfl, hx⟩ h)
  obtain ⟨t, op, pc, ht, hrem⟩ := (helped_run ρ ρ.length le_rfl).remover hx hst
  obtain ⟨hop, _, hr, _⟩ := ((inv_run ρ ρ.length le_rfl).fit ht).removes hrem
  obtain ⟨i, ha, hold⟩ := removing_run ρ ρ.length le_rfl ht
  rcases hold with ⟨h, _⟩ | ⟨y, h, a, _, hg, _⟩
  · exact absurd (h.symm.trans hrem) nofun
  · have hy : y = x := by
      rcases h with h | ⟨h, _⟩
      · exact Option.some.inj (h.symm.trans hrem)
      · exact absurd (h.symm.trans hrem) nofun
    rw [hy] at hg
    cases op with
    | remove k' =>
      obtain rfl : k' = k := (key_of_rank hr).symm.trans hk
      exact ⟨x, t, i, a, hx, hk, hst, hg, ha⟩
    | _ => exact hop.elim

theorem insert_returned (img : (ρ.state ρ.length).Image) {v : V}
    (hc : ρ.Completed t (.insert k v) true i j) : ∃ a x, ρ.Grabs Pc.inserts i a x ∧
      (k ∈ img.keys ∨ ∃ i' b, ρ.Grabs Pc.removes i' b x) := by
  obtain ⟨a, x, hg⟩ := ((one_caller ρ).inserted hc).1 rfl
  refine ⟨a, x, hg, ?_⟩
  obtain ⟨b, hab, hbj, hst⟩ := inserts_done hc hg
  have hl := hc.lt
  have hj := inserts_joined hg
  have hjl : Joined ρ ρ.length x := hj.mono (by omega)
  have hage := (hj.mono hab).age (by omega : b ≤ ρ.length) le_rfl
  rcases age_of_ne hage hst with h | h
  · have hk := inserted_mem img hjl h
    rw [hj.key (by omega) le_rfl] at hk
    obtain ⟨u, w, hcall⟩ := (one_caller ρ).insertKey hg
    have hop := hcall.symm.trans hc.active.call
    injection hop with _ hop
    injection hop with hop _
    exact Or.inl (hop ▸ hk)
  · obtain ⟨i', b, _, h⟩ := marked_grabs ρ.length le_rfl hjl
      (by rcases h with h | h <;> rw [h] <;> decide)
    exact Or.inr ⟨i', b, h⟩

theorem remove_returned (img : (ρ.state ρ.length).Image)
    (hc : ρ.Completed t (.remove k) true i j) : ∃ a x, ρ.Grabs Pc.removes i a x ∧
      stateAt ρ ρ.length x = .deleted ∧ (k ∈ img.keys → ∃ y, y ≠ x ∧
        InList (ρ.state ρ.length).store y ∧ ((ρ.state ρ.length).store.node y).key = k) := by
  obtain ⟨a, x, hg⟩ := ((one_caller ρ).removed hc).1 rfl
  obtain ⟨b, hab, hbj, hst⟩ := removes_done hc hg
  have hl := hc.lt
  have hj := removes_joined hg
  have hage := (hj.mono hab.le).age (by omega : b ≤ ρ.length) le_rfl
  rw [hst] at hage
  have hd := deleted_of_age hage
  refine ⟨a, x, hg, hd, fun hk => ?_⟩
  obtain ⟨y, hy, hk, hne⟩ := recovered_node hk
  refine ⟨y, ?_, hy, hk⟩
  rintro rfl
  exact hne hd

theorem deleted_not_valid (img : (ρ.state ρ.length).Image) (hm : m < ρ.length)
    (hj : Joined ρ m x) (h0 : stateAt ρ m x ≠ .deleted) (h1 : stateAt ρ (m + 1) x = .deleted)
    (hp : ((ρ.state m).store.node x).pptr = some p)
    (ha : ∀ j, m < j → j < ρ.length → ¬ Allocated ρ j p) : ¬ (img.pnode p).isValid = true :=
  (spent_run (deleted_spent hm hj h0 h1 hp) ha ρ.length hm le_rfl).not_isValid
    (inv_run ρ ρ.length le_rfl) (img.written p)

end Crash

theorem softList_durable (ρ : Run (machine V)) (img : (ρ.state ρ.length).Image) :
    CrashSafe ρ img where
  inserted hj hs := by
    obtain ⟨p, hp, h⟩ := inserted_valid le_rfl hj hs
    exact ⟨p, hp, h _ (img.written p)⟩
  deleted hm hj h0 h1 hp ha := deleted_not_valid img hm hj h0 h1 hp ha
  unseen _ hk := unseen_pending img hk.1 hk.2
  erased _ hk := erased_pending img hk.1 hk.2
  insertReturned hc := insert_returned img hc
  removeReturned hc := remove_returned img hc

end SOFT.List
