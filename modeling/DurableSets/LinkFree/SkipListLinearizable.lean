import DurableSets.LinkFree.SkipListTrail
import DurableSets.LinkFree.SkipListSchedule

namespace LinkFree.SkipList

open Chain

variable {V : Type} {σ σ' : Store V} {L : Set Cursor} {x y p n c d slot : Loc}
  {i j l m level : ℕ} {op : SetOp V} {pc pc' : Pc} {path : Path} {q : Ptr} {s s' : State V} {k : ℤ}
  {e : Event (SetOp V)}

def State.abs (s : State V) : Set ℤ :=
  {k | ∃ x, x ≠ head ∧ x ≠ tail ∧ (s.store.level 0).Linked x ∧ ¬ s.store.dead 0 x ∧
    (s.store.node x).key = k}

theorem key_of_rank (h : rank σ x = (k : WithBot ℤ)) : (σ.node x).key = k := by
  rw [rank_of_ne σ (ne_head_of_le h.ge)] at h
  exact WithBot.coe_injective h

theorem MemInv.bounded (hm : MemInv σ 1 L) (hx : (σ.level 0).Linked x) (ht : x ≠ tail) :
    rank σ x < (INT_MAX : ℤ) := by
  have hl := hm.live_of_linked hx
  obtain ⟨y, hy, hr⟩ := (hm.sound.ends hl).eq_or_succ.resolve_left ht
  have hlt := hm.ordered (hm.good.live_of_linked hx) hy
  have hle := Heap.Ordered.le hm.ordered ((hm.good.live_of_linked hx).succ hy) hr
  exact (hlt.trans_le hle).trans_eq hm.tail_rank

theorem MemInv.mem_abs (hm : MemInv s.store 1 s.live) :
    k ∈ s.abs ↔ k < INT_MAX ∧ Holds (s.store.level 0) (k : WithBot ℤ) := by
  constructor
  · rintro ⟨x, hh, ht, hl, hd, rfl⟩
    have hb := hm.bounded hl ht
    rw [rank_of_ne _ hh] at hb
    exact ⟨WithBot.coe_lt_coe.1 hb, x, hl, hd, rank_of_ne _ hh⟩
  · rintro ⟨hk, x, hl, hd, hr⟩
    have hr' : rank s.store x = (k : WithBot ℤ) := hr
    refine ⟨x, ne_head_of_le hr'.ge, ?_, hl, hd, key_of_rank hr'⟩
    rintro rfl
    have := hm.tail_rank.symm.trans hr'
    exact absurd (WithBot.coe_injective this) (ne_of_gt hk)

theorem abs_congr (hm : MemInv s.store 1 s.live) (hm' : MemInv s'.store 1 s'.live)
    (h : ∀ k : WithBot ℤ, Holds (s'.store.level 0) k ↔ Holds (s.store.level 0) k) :
    s'.abs = s.abs := by
  ext k
  rw [hm'.mem_abs, hm.mem_abs, h]

section Moments

variable {ρ : Run (machine V)}

theorem mem_abs_of_found (clean : Clean ρ) (hj : j ≤ ρ.length) (hk : k < INT_MAX)
    (h : Found (heaps ρ) (k : WithBot ℤ) i j x) : ρ.During i j fun s => k ∈ s.abs := by
  obtain ⟨m, h1, h2, h3, h4, h5⟩ := h
  exact ⟨m, h1, h2, (inv_run ρ clean m (by omega)).mem.mem_abs.2 ⟨hk, x, h3, h4, h5⟩⟩

theorem not_mem_abs_of_absent (clean : Clean ρ) (hj : j ≤ ρ.length) (h : Absent ρ k i j) :
    ρ.During i j fun s => k ∉ s.abs := by
  rcases h with ⟨m, h1, h2, h3⟩ | ⟨x, ⟨m, h1, h2, h3, h4, h5⟩, _⟩
  · refine ⟨m, h1, h2, fun hk => ?_⟩
    obtain ⟨_, x, hl, _, hr⟩ := (inv_run ρ clean m (by omega)).mem.mem_abs.1 hk
    exact h3 x hl hr
  · refine ⟨m, h1, h2, fun hk => ?_⟩
    obtain ⟨_, y, hl, hd, hr⟩ := (inv_run ρ clean m (by omega)).mem.mem_abs.1 hk
    obtain rfl := (sorted_run clean (by omega : m ≤ ρ.length)).eq_of_rank h3 hl (h5.trans hr.symm)
    exact hd h4

end Moments

def DeleteCtx.took : DeleteCtx → Prop
  | .find _ _ _ _ _ => True
  | .remove r => r = true
  | .contains => False

def ValidCtx.took : ValidCtx → Prop
  | .linked _ => True
  | _ => False

def InsertCtx.took : InsertCtx → Prop
  | .linked _ => True
  | _ => False

def Pc.took (op : SetOp V) : Pc → Prop
  | .findDown _ _ _ _ => True
  | .findLoad _ _ _ _ _ _ => True
  | .findCas _ _ _ _ _ _ => True
  | .deleteLoad d _ => d.took
  | .deleteFlush d _ => d.took
  | .deleteStore d _ => d.took
  | .validLoad d _ => d.took
  | .validStore d _ _ => d.took
  | .insertLoad d _ => d.took
  | .insertFlush d _ => d.took
  | .insertStore d _ => d.took
  | .upperLoad _ _ _ => True
  | .upperCas _ _ _ _ => True
  | .upperLink _ _ _ => True
  | .removeFree _ => True
  | .ret r => ¬ op.IsContains ∧ r = true
  | _ => False

theorem retry_took (op : SetOp V) (c : FindCtx) : c.retry.took op := trivial

theorem findDone_took (op : SetOp V) (c : FindCtx) (p d : Loc) (path : Path) (l : ℕ) :
    (findDone c p d path l).took op := by
  rcases l with _ | l <;> cases c <;> trivial

theorem ret_took {r : Bool} (hf : ¬ op.IsContains) : (Pc.ret r).took op ↔ r = true :=
  ⟨And.right, fun h => ⟨hf, h⟩⟩

theorem not_contains_of_insert (h : op.IsInsert) : ¬ op.IsContains := by
  cases op <;> first | exact id | exact h.elim

theorem not_contains_of_remove (h : op.IsRemove) : ¬ op.IsContains := by
  cases op <;> first | exact id | exact h.elim

theorem not_took_contains {r : Bool} (h : op.IsContains) : ¬ (Pc.ret r).took op :=
  fun ht => ht.1 h

theorem afterDelete_took {e : DeleteCtx} (hf : e.Fits op) : (afterDelete n e).took op ↔ e.took := by
  cases e with
  | find c p d s path => exact Iff.rfl
  | remove r =>
    cases r with
    | true => exact iff_of_true (retry_took op _) rfl
    | false => exact iff_of_false (fun h => Bool.false_ne_true h.2) Bool.false_ne_true
  | contains => exact iff_of_false (not_took_contains hf) id

theorem afterValid_took (e : ValidCtx) : (afterValid σ n e).took op ↔ e.took := by
  cases e <;> exact Iff.rfl

theorem upper_took (hf : op.IsInsert) : (upper σ path n l).took op := by
  unfold upper
  split
  · trivial
  · exact ⟨not_contains_of_insert hf, rfl⟩

theorem afterInsert_took {e : InsertCtx} (hf : e.Fits op) : (afterInsert σ n e).took op ↔ e.took := by
  cases e with
  | found => exact iff_of_false (fun h => Bool.false_ne_true h.2) id
  | linked path => exact iff_of_true (upper_took hf) trivial
  | contains => exact iff_of_false (not_took_contains hf) id

theorem afterSearch_took (σ : Store V) (op : SetOp V) (p c : Loc) (path : Path) :
    ¬ (afterSearch σ op p c path).took op := by
  cases op with
  | insert k v =>
    simp only [afterSearch]
    split <;> exact id
  | remove k =>
    simp only [afterSearch]
    split
    · exact id
    · exact fun h => Bool.false_ne_true h.2
  | contains k => exact not_took_contains trivial

theorem took_step (hf : pc.Fits op) (hn : next σ op slot level pc = some (σ', pc'))
    (hl : ∀ path e n, pc = .linkCas path n → path[0]? = some e →
      (σ.node e.1).next 0 ≠ Ptr.addr e.2)
    (hk : ∀ n q, pc = .markCas n 0 q → (σ.node n).next 0 ≠ q) : pc'.took op ↔ pc.took op := by
  cases pc with
  | searchDown l p path =>
    obtain ⟨s, _, he⟩ := Option.map_eq_some_iff.1 hn
    obtain ⟨rfl, rfl⟩ := Prod.mk.inj he
    exact Iff.rfl
  | searchTest l p c path =>
    simp only [next] at hn
    split at hn
    · obtain ⟨rfl, rfl⟩ := Prod.mk.inj (Option.some.inj hn)
      exact Iff.rfl
    · split at hn <;> obtain ⟨rfl, rfl⟩ := Prod.mk.inj (Option.some.inj hn)
      · cases l with
        | zero => exact iff_of_false (afterSearch_took _ _ _ _ _) id
        | succ l => exact Iff.rfl
      · exact Iff.rfl
  | searchNext l p c path =>
    obtain ⟨s, _, he⟩ := Option.map_eq_some_iff.1 hn
    obtain ⟨rfl, rfl⟩ := Prod.mk.inj he
    exact Iff.rfl
  | findDown c l p path =>
    simp only [next] at hn
    split at hn
    · obtain ⟨rfl, rfl⟩ := Prod.mk.inj (Option.some.inj hn)
      exact Iff.rfl
    · obtain ⟨s, _, he⟩ := Option.map_eq_some_iff.1 hn
      obtain ⟨rfl, rfl⟩ := Prod.mk.inj he
      exact Iff.rfl
  | findLoad c l p d s path =>
    simp only [next] at hn
    split at hn
    · obtain ⟨e, _, he⟩ := Option.map_eq_some_iff.1 hn
      obtain ⟨rfl, rfl⟩ := Prod.mk.inj he
      split <;> exact Iff.rfl
    · split at hn
      · obtain ⟨rfl, rfl⟩ := Prod.mk.inj (Option.some.inj hn)
        split
        · exact iff_of_true (findDone_took _ _ _ _ _ _) trivial
        · exact Iff.rfl
      · obtain ⟨e, _, he⟩ := Option.map_eq_some_iff.1 hn
        obtain ⟨rfl, rfl⟩ := Prod.mk.inj he
        exact Iff.rfl
  | findCas c l p d s path =>
    simp only [next] at hn
    split at hn <;> obtain ⟨rfl, rfl⟩ := Prod.mk.inj (Option.some.inj hn)
    · exact iff_of_true (findDone_took _ _ _ _ _ _) trivial
    · exact Iff.rfl
  | deleteLoad d n =>
    simp only [next] at hn
    split at hn <;> obtain ⟨rfl, rfl⟩ := Prod.mk.inj (Option.some.inj hn)
    · exact afterDelete_took hf
    · exact Iff.rfl
  | deleteStore d n =>
    obtain ⟨rfl, rfl⟩ := Prod.mk.inj (Option.some.inj hn)
    exact afterDelete_took hf
  | validLoad d n =>
    simp only [next] at hn
    split at hn <;> obtain ⟨rfl, rfl⟩ := Prod.mk.inj (Option.some.inj hn)
    · exact afterValid_took d
    · exact Iff.rfl
  | validStore d n old =>
    obtain ⟨rfl, rfl⟩ := Prod.mk.inj (Option.some.inj hn)
    exact afterValid_took d
  | insertLoad d n =>
    simp only [next] at hn
    split at hn <;> obtain ⟨rfl, rfl⟩ := Prod.mk.inj (Option.some.inj hn)
    · exact afterInsert_took hf
    · exact Iff.rfl
  | insertStore d n =>
    obtain ⟨rfl, rfl⟩ := Prod.mk.inj (Option.some.inj hn)
    exact afterInsert_took hf
  | initValue path n l =>
    cases op with
    | insert k v =>
      obtain ⟨rfl, rfl⟩ := Prod.mk.inj (Option.some.inj hn)
      exact Iff.rfl
    | remove k => cases hn
    | contains k => cases hn
  | initNext path n l =>
    simp only [next] at hn
    obtain ⟨e, _, he⟩ := Option.map_eq_some_iff.1 hn
    obtain ⟨rfl, rfl⟩ := Prod.mk.inj he
    split <;> exact Iff.rfl
  | linkCas path n =>
    simp only [next] at hn
    obtain ⟨e, hpath, he⟩ := Option.map_eq_some_iff.1 hn
    rw [if_neg (hl path e n rfl hpath)] at he
    obtain ⟨rfl, rfl⟩ := Prod.mk.inj he
    exact Iff.rfl
  | upperLoad path n l =>
    simp only [next] at hn
    split at hn
    · obtain ⟨rfl, rfl⟩ := Prod.mk.inj (Option.some.inj hn)
      exact iff_of_true ⟨not_contains_of_insert hf, rfl⟩ trivial
    · obtain ⟨e, _, he⟩ := Option.map_eq_some_iff.1 hn
      obtain ⟨rfl, rfl⟩ := Prod.mk.inj he
      split <;> exact Iff.rfl
  | upperCas path n l q =>
    simp only [next] at hn
    obtain ⟨e, _, he⟩ := Option.map_eq_some_iff.1 hn
    split at he <;> obtain ⟨rfl, rfl⟩ := Prod.mk.inj he
    · exact Iff.rfl
    · exact iff_of_true ⟨not_contains_of_insert hf, rfl⟩ trivial
  | upperLink path n l =>
    simp only [next] at hn
    obtain ⟨e, _, he⟩ := Option.map_eq_some_iff.1 hn
    split at he <;> obtain ⟨rfl, rfl⟩ := Prod.mk.inj he
    · exact iff_of_true (upper_took hf) trivial
    · exact Iff.rfl
  | markLoad n l =>
    simp only [next] at hn
    split at hn <;> obtain ⟨rfl, rfl⟩ := Prod.mk.inj (Option.some.inj hn)
    · cases l with
      | zero => exact iff_of_false Bool.false_ne_true id
      | succ l => exact Iff.rfl
    · exact Iff.rfl
  | markCas n l q =>
    simp only [next] at hn
    split at hn <;> obtain ⟨rfl, rfl⟩ := Prod.mk.inj (Option.some.inj hn)
    · next hnext =>
      cases l with
      | zero => exact absurd hnext (hk n q rfl)
      | succ l => exact Iff.rfl
    · exact Iff.rfl
  | removeFree n =>
    obtain ⟨rfl, rfl⟩ := Prod.mk.inj (Option.some.inj hn)
    exact iff_of_true ⟨not_contains_of_remove hf, rfl⟩ trivial
  | containsDown l p =>
    obtain ⟨s, _, he⟩ := Option.map_eq_some_iff.1 hn
    obtain ⟨rfl, rfl⟩ := Prod.mk.inj he
    exact Iff.rfl
  | containsTest l p c =>
    simp only [next] at hn
    split at hn
    · obtain ⟨rfl, rfl⟩ := Prod.mk.inj (Option.some.inj hn)
      exact Iff.rfl
    · split at hn
      · obtain ⟨rfl, rfl⟩ := Prod.mk.inj (Option.some.inj hn)
        exact Iff.rfl
      · cases l <;> obtain ⟨rfl, rfl⟩ := Prod.mk.inj (Option.some.inj hn)
        · exact iff_of_false (not_took_contains hf) id
        · exact Iff.rfl
  | containsPass l p c =>
    simp only [next] at hn
    split at hn
    · split at hn <;> obtain ⟨rfl, rfl⟩ := Prod.mk.inj (Option.some.inj hn) <;> exact Iff.rfl
    · obtain ⟨rfl, rfl⟩ := Prod.mk.inj (Option.some.inj hn)
      exact Iff.rfl
  | containsNext l p c =>
    obtain ⟨s, _, he⟩ := Option.map_eq_some_iff.1 hn
    obtain ⟨rfl, rfl⟩ := Prod.mk.inj he
    exact Iff.rfl
  | ret r => cases hn
  | _ =>
    obtain ⟨rfl, rfl⟩ := Prod.mk.inj (Option.some.inj hn)
    exact Iff.rfl

theorem Inv.sorted (hi : Inv 1 s) : Sorted (s.store.level 0) (Tower.floor s.live 0) :=
  ⟨hi.mem.good, hi.mem.ordered⟩

theorem abs_link {e : Loc × Loc} (hi : Inv 1 s) {t : Tid}
    (ht : s.thread t = some (op, .linkCas path n)) (he : path[0]? = some e)
    (hnext : (s.store.node e.1).next 0 = Ptr.addr e.2) (hi' : Inv 1 s')
    (hσ : s'.store = s.store.setNext e.1 0 (Ptr.addr n)) :
    op.key ∉ s.abs ∧ s'.abs = insert op.key s.abs := by
  have f := hi.fit ht
  have g := hi.sorted
  obtain ⟨sp, hr⟩ := link_splice hi.mem f he hnext
  rw [← hσ] at sp
  have ho : NextOk s.store op path n (s.store.node n).topLevel := f.loc
  have hrn : (s'.store.level 0).rank n = (op.key : ℤ) := by
    change rank s'.store n = _
    rw [hσ, rank_setNext]
    exact hr
  refine ⟨fun hk => ?_, ?_⟩
  · obtain ⟨_, x, hl, _, hrx⟩ := hi.mem.mem_abs.1 hk
    have hel : (e.1, 0) ∈ s.live := f.refs _ (Path.get_refs (i := 0) he).1
    refine g.gap (hi.mem.linked_base hel (dead_of_addr hnext)) (ref_of_addr hnext) ?_ ?_ x hl hrx
    · exact ho.init.gap.levels.below e (List.mem_of_getElem? he)
    · exact ho.init.gap.gap e he
  · ext k
    rw [Set.mem_insert_iff, hi'.mem.mem_abs, hi.mem.mem_abs, holds_splice g sp, hrn,
      WithBot.coe_inj]
    constructor
    · rintro ⟨hk, h | h⟩
      · exact Or.inr ⟨hk, h⟩
      · exact Or.inl h
    · rintro (rfl | ⟨hk, h⟩)
      · exact ⟨f.key, Or.inr rfl⟩
      · exact ⟨hk, Or.inl h⟩

theorem abs_mark (hi : Inv 1 s) {t : Tid} (ht : s.thread t = some (op, .markCas n 0 q))
    (hnext : (s.store.node n).next 0 = q) (hi' : Inv 1 s')
    (hσ : s'.store = s.store.setNext n 0 q.mark) :
    op.key ∈ s.abs ∧ s'.abs = s.abs \ {op.key} := by
  have f := hi.fit ht
  have g := hi.sorted
  have hnl := f.refs (n, 0) (by simp [Pc.refs])
  obtain ⟨ho, hum⟩ := f.loc
  have hal : ¬ s.store.dead 0 n := by
    unfold Store.dead
    rw [hnext, hum]
    exact Bool.false_ne_true
  have hlink := hi.mem.linked_base hnl hal
  have href : ∀ x j, ((s'.store.node x).next j).ref = ((s.store.node x).next j).ref := by
    intro x j
    rw [hσ, next_setNext]
    split
    · next h =>
      obtain ⟨rfl, rfl⟩ := h
      rw [hnext]
      rfl
    · rfl
  have hdead : ∀ y, s'.store.dead 0 y ↔ s.store.dead 0 y ∨ y = n := by
    intro y
    unfold Store.dead
    rw [hσ, next_setNext]
    by_cases he : y = n
    · simp [he, Ptr.mark]
    · simp [he]
  have st : Heap.Steady (s.store.level 0) (s'.store.level 0) (Tower.floor s.live 0) :=
    ⟨rfl, fun _ => href _ _, fun _ => by
      change rank s'.store _ = rank s.store _
      rw [hσ]
      exact rank_setNext _ _ _ _ _, fun _ h => (hdead _).2 (Or.inl h)⟩
  refine ⟨hi.mem.mem_abs.2 ⟨f.key, n, hlink, hal, ho.rank⟩, ?_⟩
  ext k
  have hrn : (s.store.level 0).rank n = (op.key : ℤ) := ho.rank
  rw [Set.mem_sdiff, Set.mem_singleton_iff, hi'.mem.mem_abs, hi.mem.mem_abs,
    holds_kill g st hlink fun y _ => hdead y, hrn, and_assoc, ne_eq, WithBot.coe_inj]

theorem abs_swing {c : FindCtx} {t : Tid} {z : Loc} (hi : Inv 1 s)
    (ht : s.thread t = some (op, .findCas c 0 p d z path))
    (hnext : (s.store.node p).next 0 = Ptr.addr d) (hi' : Inv 1 s')
    (hσ : s'.store = s.store.setNext p 0 (Ptr.addr z)) : s'.abs = s.abs := by
  have f := hi.fit ht
  have hpl := f.refs (p, 0) (by simp [Pc.refs])
  have bp := swing_bypass hi.mem hpl hnext f.loc.2.2.2.2.2
  refine abs_congr hi.mem hi'.mem fun k => ?_
  rw [hσ]
  exact holds_bypass hi.sorted (bp.level hi.mem.sound.closed)

theorem abs_frame (hi : Inv 1 s) (hi' : Inv 1 s')
    (h : ∀ x, (x, 0) ∈ s.live → SameBase s.store s'.store x) : s'.abs = s.abs := by
  have hl : ∀ {x}, (s.store.level 0).Live (Tower.floor s.live 0) x → (x, 0) ∈ s.live :=
    fun hx => hi.mem.sound.closed.live_iff.1 hx
  have hd : ∀ x, (x, 0) ∈ s.live → (s'.store.dead 0 x ↔ s.store.dead 0 x) := by
    intro x hx
    unfold Store.dead
    rw [(h x hx).1]
  have st : Heap.Steady (s.store.level 0) (s'.store.level 0) (Tower.floor s.live 0) :=
    ⟨rfl, fun hx => congrArg Ptr.ref (h _ (hl hx)).1, fun hx => rank_congr (h _ (hl hx)).2,
      fun hx => (hd _ (hl hx)).2⟩
  exact abs_congr hi.mem hi'.mem fun k =>
    holds_steady hi.sorted st fun x hx => hd x (hi.mem.live_of_linked hx)

def State.done (s : State V) (t : Tid) : Prop :=
  ∃ op pc, s.thread t = some (op, pc) ∧ pc.took op

theorem done_iff {t : Tid} (ht : s.thread t = some (op, pc)) : s.done t ↔ pc.took op := by
  constructor
  · rintro ⟨op1, pc1, h, hd⟩
    obtain ⟨rfl, rfl⟩ := Prod.mk.inj (Option.some.inj (ht.symm.trans h))
    exact hd
  · exact fun hd => ⟨op, pc, ht, hd⟩

theorem done_congr {t : Tid} (h : s'.thread t = s.thread t) : s'.done t ↔ s.done t := by
  unfold State.done
  rw [h]

theorem start_took : ¬ (start op).took op := by cases op <;> exact id

theorem oneEffect_idle (M : Machine (State V) (SetOp V) Pc) {t : Tid}
    (habs : s'.abs = s.abs) (hother : ∀ u, u ≠ t → s'.thread u = s.thread u)
    (hM : ∀ s t, M.thread s t = s.thread t)
    (hself : ∀ op pc pc', s.thread t = some (op, pc) → s'.thread t = some (op, pc') →
      (pc'.took op ↔ pc.took op)) : Run.OneEffect M State.abs State.done s s' := by
  refine Or.inl ⟨habs, fun u op pc pc' hu hu' => ?_⟩
  rw [hM] at hu hu'
  by_cases he : u = t
  · subst he
    rw [done_iff hu, done_iff hu']
    exact hself op pc pc' hu hu'
  · exact done_congr (hother u he)

theorem oneEffect_took {t : Tid} {σ : Store V} (ht : s.thread t = some (op, pc))
    (h0 : ¬ pc.took op) (h1 : pc'.took op)
    (he : op.Effect s.abs (s.goto σ t (some (op, pc'))).abs) :
    Run.OneEffect (machine V) State.abs State.done s (s.goto σ t (some (op, pc'))) := by
  have ht' := goto_thread_self s σ t (some (op, pc'))
  refine Or.inr ⟨t, op, pc, pc', ht, ht', ?_, ?_, he, ?_⟩
  · rw [done_iff ht]
    exact h0
  · rw [done_iff ht']
    exact h1
  · exact fun u _ _ _ hne _ _ => done_congr (goto_thread_other _ _ _ hne)

theorem oneEffect_tau {t : Tid} {σ : Store V} (hi : Inv 1 s) (ht : s.thread t = some (op, pc))
    (hn : next s.store op slot level pc = some (σ, pc'))
    (hi' : Inv 1 (s.goto σ t (some (op, pc')))) :
    Run.OneEffect (machine V) State.abs State.done s (s.goto σ t (some (op, pc'))) := by
  have f := hi.fit ht
  have quiet : (s.goto σ t (some (op, pc'))).abs = s.abs →
      (pc'.took op ↔ pc.took op) →
      Run.OneEffect (machine V) State.abs State.done s (s.goto σ t (some (op, pc'))) := by
    intro habs htook
    refine oneEffect_idle _ habs (fun u hu => goto_thread_other _ _ _ hu) (fun _ _ => rfl) ?_
    intro op1 pc1 pc2 h h'
    rw [goto_thread_self] at h'
    obtain ⟨rfl, rfl⟩ := Prod.mk.inj (Option.some.inj (ht.symm.trans h))
    obtain ⟨_, rfl⟩ := Prod.mk.inj (Option.some.inj h')
    exact htook
  rcases tau_cases f hn with ⟨path, e, n, rfl, he, hnext, rfl, rfl⟩ |
    ⟨n, q, rfl, hnext, rfl, rfl⟩ | ⟨c, p, d, z, path, rfl, hnext, rfl⟩ | ⟨hquiet, hframe⟩
  · refine oneEffect_took ht id trivial ?_
    have hins : op.IsInsert := f.fits
    have := abs_link hi ht he hnext hi' rfl
    cases op with
    | insert k v => exact this
    | _ => exact hins.elim
  · refine oneEffect_took ht id rfl ?_
    have hrem : op.IsRemove := f.fits
    have := abs_mark hi ht hnext hi' rfl
    cases op with
    | remove k => exact this
    | _ => exact hrem.elim
  · refine quiet (abs_swing hi ht hnext hi' rfl) (took_step f.fits hn ?_ ?_)
    · exact fun _ _ _ h => nomatch h
    · exact fun _ _ h => nomatch h
  · exact quiet (abs_frame hi hi' hframe) (took_step f.fits hn
      (fun path e n h he hnext => hquiet e.1 (by rw [h]; exact ⟨e, he, rfl, hnext⟩))
      (fun n q h hnext => hquiet n (by rw [h]; exact ⟨rfl, hnext⟩)))

theorem oneEffect_step {e : Event (SetOp V)} (hi : Inv 1 s) (clean : s.Clean s')
    (hs : Step s e s') : Run.OneEffect (machine V) State.abs State.done s s' := by
  have hi' := hi.step (hi.tidy_one e) clean hs
  cases hs with
  | call t op idle hk =>
    refine oneEffect_idle _ ?_ (fun u hu => goto_thread_other _ _ _ hu) (fun _ _ => rfl) ?_
    · exact abs_frame hi hi' fun _ _ => ⟨rfl, rfl⟩
    · intro op1 pc1 pc2 h
      rw [idle] at h
      cases h
  | ret t op r ht =>
    refine oneEffect_idle _ ?_ (fun u hu => goto_thread_other _ _ _ hu) (fun _ _ => rfl) ?_
    · exact abs_frame hi hi' fun _ _ => ⟨rfl, rfl⟩
    · intro op1 pc1 pc2 _ h
      rw [goto_thread_self] at h
      cases h
  | tau t op pc pc' slot level σ ht hn ha => exact oneEffect_tau hi ht hn hi'

theorem initial_abs (zero : V) (junk : Uchar) : (initial zero junk).abs = ∅ := by
  ext k
  simp only [State.abs, Set.mem_ofPred_eq, Set.mem_empty_iff_false, iff_false]
  rintro ⟨x, hh, ht, hl, _⟩
  have hi := inv_initial zero junk (by decide : 0 < 1) (by decide : 1 ≤ MAX_LEVEL)
  rcases (initial_live zero junk (hi.mem.live_of_linked hl)).1 with h | h
  · exact hh h
  · exact ht h

theorem answer_ret {ρ : Run (machine V)} (clean : Clean ρ) {t : Tid} {r : Bool}
    (hc : ρ.Completed t op r i j) :
    op.Answer ((ρ.state j).done t) (fun P => ρ.During i j fun s => P s.abs) r := by
  obtain ⟨ht, hk, tr⟩ := ret_run ρ clean hc
  have hj := hc.lt.le
  have hd : (ρ.state j).done t ↔ ¬ op.IsContains ∧ r = true := done_iff ht
  have hno : r = false → ¬ (ρ.state j).done t := by
    rintro rfl h
    exact Bool.false_ne_true (hd.1 h).2
  cases op with
  | insert k v =>
    cases r with
    | true => exact Or.inl ⟨rfl, hd.2 ⟨id, rfl⟩⟩
    | false =>
      obtain ⟨x, hx⟩ := tr
      exact Or.inr ⟨rfl, hno rfl, mem_abs_of_found clean hj hk hx.1⟩
  | remove k =>
    cases r with
    | true => exact Or.inl ⟨rfl, hd.2 ⟨id, rfl⟩⟩
    | false => exact Or.inr ⟨rfl, hno rfl, not_mem_abs_of_absent clean hj tr⟩
  | contains k =>
    cases r with
    | true =>
      obtain ⟨x, hx⟩ := tr
      obtain ⟨m, h1, h2, h⟩ := mem_abs_of_found clean hj hk hx.1
      exact ⟨m, h1, h2, iff_of_true rfl h⟩
    | false =>
      obtain ⟨m, h1, h2, h⟩ := not_mem_abs_of_absent clean hj tr
      exact ⟨m, h1, h2, iff_of_false Bool.false_ne_true h⟩

theorem linearizable_of_clean (ρ : Run (machine V)) (clean : Clean ρ) :
    ρ.Linearizable State.abs := by
  refine Run.linearizable_of State.done ?_ ?_ ?_ (answer_ret clean)
  · obtain ⟨zero, junk, h⟩ := ρ.init
    rw [h]
    exact initial_abs zero junk
  · exact fun m hm => oneEffect_step (inv_run ρ clean m hm.le) (clean m hm) (ρ.step hm)
  · intro n t op hn he hd
    have hs := ρ.step hn
    rw [he] at hs
    obtain ⟨op1, pc, ht, htook⟩ := hd
    obtain ⟨rfl, _, _⟩ := call_inv hs ht
    exact start_took htook

-- every node that a call can get to or owns is in U, which the sentinels never are
structure Tracked (U : Loc → Prop) (s : State V) : Prop where
  inv : Inv 1 s
  live : ∀ {x}, (x, 0) ∈ s.live → x = head ∨ x = tail ∨ U x
  owned : ∀ {t op pc n}, s.thread t = some (op, pc) → pc.owns = some n → U n
  sentinel : ∀ {x}, x = head ∨ x = tail → s.store.avail x = false

theorem Effect.new {G : ℕ} {h : Option Loc} {L' : Set Cursor} (e : Effect σ G L h L' σ')
    (hx : (x, i) ∈ L') : (x, i) ∈ L ∨ h = some x := by
  cases e with
  | join p n c i live next fresh base new_next level tidy fields =>
    rcases Set.mem_insert_iff.1 hx with he | hx
    · exact Or.inr (congrArg some (Prod.mk.inj he).1.symm)
    · exact Or.inl hx
  | _ => exact Or.inl hx

theorem Tracked.step {U U' : Loc → Prop} {e : Event (SetOp V)} (h : Tracked U s)
    (clean : s.Clean s') (hs : Step s e s') (hU : ∀ x, U x → U' x)
    (hnew : ∀ x, s.store.avail x = true → s'.store.avail x = false → U' x) : Tracked U' s' := by
  have hi' := h.inv.step (h.inv.tidy_one e) clean hs
  have old : ∀ {x}, (x, 0) ∈ s.live → x = head ∨ x = tail ∨ U' x :=
    fun hx => (h.live hx).imp_right (Or.imp_right (hU _))
  cases hs with
  | call t op idle hk =>
    have hl : (s.goto s.store t (some (op, start op))).live ⊆ s.live := by
      refine live_goto h.inv.mem subset_rfl fun op1 pc1 ha => ?_
      obtain ⟨rfl, rfl⟩ := Prod.mk.inj (Option.some.inj ha)
      exact (start_fit h.inv.mem hk).refs
    refine ⟨hi', fun hx => old (hl hx), fun {u op1 pc1 n} hu hn => ?_, h.sentinel⟩
    by_cases he : u = t
    · subst he
      rw [goto_thread_self] at hu
      obtain ⟨rfl, rfl⟩ := Prod.mk.inj (Option.some.inj hu)
      rw [start_owns] at hn
      cases hn
    · rw [goto_thread_other _ _ _ he] at hu
      exact hU _ (h.owned hu hn)
  | ret t op r ht =>
    have hl : (s.goto s.store t none).live ⊆ s.live :=
      live_goto h.inv.mem subset_rfl fun _ _ ha => nomatch ha
    refine ⟨hi', fun hx => old (hl hx), fun {u op1 pc1 n} hu hn => ?_, h.sentinel⟩
    by_cases he : u = t
    · subst he
      rw [goto_thread_self] at hu
      cases hu
    · rw [goto_thread_other _ _ _ he] at hu
      exact hU _ (h.owned hu hn)
  | tau t op pc pc' slot level σ ht hn ha =>
    have f := h.inv.fit ht
    obtain ⟨L', e, f', hown⟩ := tau_ok h.inv ht (h.inv.tidy_one (.tau t) t op pc rfl ht) hn ha clean
    have hl : (s.goto σ t (some (op, pc'))).live ⊆ L' := by
      refine live_goto (e.memInv h.inv.mem) (e.kept h.inv.mem).subset fun op1 pc1 ha => ?_
      obtain ⟨rfl, rfl⟩ := Prod.mk.inj (Option.some.inj ha)
      exact f'.refs
    refine ⟨hi', fun {x} hx => ?_, fun {u op1 pc1 n} hu hn' => ?_, fun {x} hx =>
      sentinel_avail h.inv.mem f hn hx (h.sentinel hx)⟩
    · rcases e.new (hl hx) with hx | hx
      · exact old hx
      · exact Or.inr (Or.inr (hU _ (h.owned ht hx)))
    · by_cases he : u = t
      · subst he
        rw [goto_thread_self] at hu
        obtain ⟨rfl, rfl⟩ := Prod.mk.inj (Option.some.inj hu)
        by_cases ho : pc.owns = some n
        · exact hU _ (h.owned ht ho)
        · obtain ⟨hav, hnl⟩ := (hown n hn').resolve_left ho
          refine hnew n hav ((f'.owned (e.memInv h.inv.mem) hn').resolve_left fun hx => ?_)
          exact (e.kept h.inv.mem).fresh ho hnl hx
      · rw [goto_thread_other _ _ _ he] at hu
        exact hU _ (h.owned hu hn')

theorem tracked_initial (zero : V) (junk : Uchar) (U : Loc → Prop) :
    Tracked U (initial zero junk) where
  inv := inv_initial zero junk (by decide) (by decide)
  live hx := (initial_live zero junk hx).1.imp_right Or.inl
  owned ht := nomatch ht
  sentinel {x} hx := by
    rcases hx with rfl | rfl <;> rfl

section Recycled

variable (ρ : Run (machine V))

def Allocates (m : ℕ) (x : Loc) : Prop :=
  (ρ.state m).store.avail x = true ∧ (ρ.state (m + 1)).store.avail x = false

def NeverRecycled : Prop :=
  ∀ x m n, m < n → n < ρ.length → Allocates ρ m x → ¬ Allocates ρ n x

def Used (m : ℕ) (x : Loc) : Prop := ∃ j < m, Allocates ρ j x

variable {ρ}

theorem clean_of_tracked (never : NeverRecycled ρ) (hm : m < ρ.length)
    (h : Tracked (Used ρ m) (ρ.state m)) : (ρ.state m).Clean (ρ.state (m + 1)) := by
  intro x ha ha' hl
  have sentinel : ¬ (x = head ∨ x = tail) := by
    intro hx
    rw [h.sentinel hx] at ha
    cases ha
  rcases h.live hl with hx | hx | ⟨j, hj, hu⟩
  · exact sentinel (Or.inl hx)
  · exact sentinel (Or.inr hx)
  · exact never x j m hj hm hu ⟨ha, ha'⟩

theorem tracked_run (never : NeverRecycled ρ) :
    ∀ m ≤ ρ.length, Tracked (Used ρ m) (ρ.state m) := by
  refine Run.stepwise ?_ fun m hm ih => ?_
  · obtain ⟨zero, junk, h⟩ := ρ.init
    rw [h]
    exact tracked_initial zero junk _
  · refine ih.step (clean_of_tracked never hm ih) (ρ.step hm) ?_ ?_
    · rintro x ⟨j, hj, hu⟩
      exact ⟨j, by omega, hu⟩
    · exact fun x ha ha' => ⟨m, by omega, ha, ha'⟩

theorem clean_of_neverRecycled (never : NeverRecycled ρ) : Clean ρ :=
  fun m hm => clean_of_tracked never hm (tracked_run never m hm.le)

end Recycled

theorem neverRecycled_of_plays {ex : State V → Command V → Option (Event (SetOp V) × State V)}
    (hex : ∀ {s c r}, ex s c = some r → exec s c = some r) {cs : List (Command V)}
    {ρ : Run (machine V)} (hρ : Plays ex s cs ρ) (hcs : (cs.filterMap Command.takes).Nodup) :
    NeverRecycled ρ := by
  intro x m n hmn hn hm' hn'
  have taken : ∀ {a} (ha : a < cs.length), Allocates ρ a x → cs[a].takes = some x := fun ha h =>
    exec_take (hex (hρ.exec ha)) h.1 h.2
  rw [hρ.length] at hn
  have := List.pairwise_iff_getElem.1 (List.pairwise_filterMap.1 hcs) m n (hmn.trans hn) hn hmn
  exact this x (taken _ hm') x (taken _ hn') rfl

theorem linkFreeSkipList_linearizable (ρ : Run (machine V)) (never : NeverRecycled ρ) :
    ρ.Linearizable State.abs := linearizable_of_clean ρ (clean_of_neverRecycled never)

def insertContains : List (Command ℕ) :=
  [[.call 0 (.insert 5 0)], steps 0 42, [.alloc 0 2 2], steps 0 17, [.ret 0, .call 0 (.contains 5)],
    steps 0 42, [.ret 0]].flatten

theorem linkFreeSkipList_linearizable_insert : ∃ ρ : Run (machine ℕ),
    (ρ.state 105).thread 0 = some (.contains 5, .ret true) ∧ ρ.Linearizable State.abs := by
  obtain ⟨ρ, hρ, _⟩ := exists_play 0 exec (fun h => h) insertContains (by decide +kernel)
  have never : NeverRecycled ρ := neverRecycled_of_plays (fun h => h) hρ (by decide +kernel)
  have found := hρ.holds 105 (P := fun s =>
    s.thread 0 = some (.contains 5, .ret true)) (by decide +kernel)
  exact ⟨ρ, of_decide_eq_true found, linkFreeSkipList_linearizable ρ never⟩

end LinkFree.SkipList
