import DurableSets.Core.Load
import DurableSets.Core.LockFree
import DurableSets.LinkFree.ListProgress

namespace LinkFree.List

open Chain

variable {V : Type} {σ σ' : Store V} {R : Set Loc} {x y p n c d slot : Loc} {op : SetOp V}
  {pc pc' : Pc} {s s' : State V} {t u : Tid}

def TrimCtx.pending : TrimCtx → Bool
  | .inFind => true
  | .inRemove => false

def DeleteCtx.pending : DeleteCtx → Bool
  | .trim c _ => c.pending
  | .contains => false

def ValidCtx.pending : ValidCtx → Bool
  | .lost => true
  | .removing _ _ => true
  | _ => false

-- the node of an insert is not linked yet, the one of a remove not marked by it
def Pc.pending : Pc → Bool
  | .deleteLoad c _ => c.pending
  | .deleteFlush c _ => c.pending
  | .deleteStore c _ => c.pending
  | .trimLoad c _ _ => c.pending
  | .trimCas c _ _ _ => c.pending
  | .trimFree c _ _ => c.pending
  | .validLoad c _ => c.pending
  | .validStore c _ _ => c.pending
  | .insertLoad _ _ => false
  | .insertFlush _ _ => false
  | .insertStore _ _ => false
  | .containsHead => false
  | .containsWalk _ => false
  | .ret _ _ => false
  | _ => true

theorem afterDelete_pending (n : Loc) (c : DeleteCtx) : (afterDelete n c).pending = c.pending := by
  cases c <;> rfl

theorem afterTrim_pending (p n : Loc) (c : TrimCtx) : (afterTrim p n c).pending = c.pending := by
  cases c <;> rfl

theorem afterValid_pending (n : Loc) (c : ValidCtx) : (afterValid n c).pending = c.pending := by
  cases c <;> rfl

theorem next_pending (hn : next σ op slot pc = some (σ', pc')) (h : pc'.pending = true) :
    pc.pending = true := by
  cases pc with
  | deleteLoad c n =>
    simp only [next] at hn
    split at hn <;> obtain ⟨rfl, rfl⟩ := Prod.mk.inj (Option.some.inj hn)
    · rwa [afterDelete_pending] at h
    · exact h
  | deleteFlush c n =>
    obtain ⟨rfl, rfl⟩ := Prod.mk.inj (Option.some.inj hn)
    exact h
  | deleteStore c n =>
    obtain ⟨rfl, rfl⟩ := Prod.mk.inj (Option.some.inj hn)
    rwa [afterDelete_pending] at h
  | trimLoad c p n =>
    obtain ⟨rfl, rfl⟩ := Prod.mk.inj (Option.some.inj hn)
    exact h
  | trimCas c p n q =>
    simp only [next] at hn
    split at hn <;> obtain ⟨rfl, rfl⟩ := Prod.mk.inj (Option.some.inj hn)
    · exact h
    · rwa [afterTrim_pending] at h
  | trimFree c p n =>
    obtain ⟨rfl, rfl⟩ := Prod.mk.inj (Option.some.inj hn)
    rwa [afterTrim_pending] at h
  | validLoad c n =>
    simp only [next] at hn
    split at hn <;> obtain ⟨rfl, rfl⟩ := Prod.mk.inj (Option.some.inj hn)
    · rwa [afterValid_pending] at h
    · exact h
  | validStore c n old =>
    obtain ⟨rfl, rfl⟩ := Prod.mk.inj (Option.some.inj hn)
    rwa [afterValid_pending] at h
  | insertLoad r n =>
    simp only [next] at hn
    split at hn <;> obtain ⟨rfl, rfl⟩ := Prod.mk.inj (Option.some.inj hn) <;> cases h
  | insertFlush r n =>
    obtain ⟨rfl, rfl⟩ := Prod.mk.inj (Option.some.inj hn)
    cases h
  | insertStore r n =>
    obtain ⟨rfl, rfl⟩ := Prod.mk.inj (Option.some.inj hn)
    cases h
  | containsHead =>
    simp only [next] at hn
    split at hn
    · obtain ⟨rfl, rfl⟩ := Prod.mk.inj (Option.some.inj hn)
      cases h
    · cases hn
  | containsWalk c =>
    simp only [next] at hn
    split at hn
    · obtain ⟨d, _, he⟩ := Option.map_eq_some_iff.1 hn
      obtain ⟨rfl, rfl⟩ := Prod.mk.inj he
      cases h
    · split at hn
      · obtain ⟨rfl, rfl⟩ := Prod.mk.inj (Option.some.inj hn)
        cases h
      · split at hn <;> obtain ⟨rfl, rfl⟩ := Prod.mk.inj (Option.some.inj hn) <;> cases h
  | ret r n => cases hn
  | _ => rfl

def Pc.budget (pc : Pc) : ℕ := if pc.pending then 3 else 0

theorem next_budget (hn : next σ op slot pc = some (σ', pc')) : pc'.budget ≤ pc.budget := by
  unfold Pc.budget
  split
  · next h => rw [if_pos (next_pending hn h)]
  · exact Nat.zero_le _

def worth (σ : Store V) (x : Loc) : ℕ := if (σ.node x).next.marked then 1 else 2

theorem worth_congr (h : (σ'.node x).next = (σ.node x).next) : worth σ' x = worth σ x := by
  unfold worth
  rw [h]

theorem worth_pos (σ : Store V) (x : Loc) : 0 < worth σ x := by
  unfold worth
  split <;> decide

theorem worth_le (σ : Store V) (x : Loc) : worth σ x ≤ 2 := by
  unfold worth
  split <;> decide

theorem finite_linked (hm : MemInv σ R) : {x | σ.heap.Linked x}.Finite :=
  Heap.finite_reach (congrArg Ptr.ref hm.tail_next) hm.tail_linked

theorem linkCas_load (hm : MemInv σ R) (f : Fit σ R op (.linkCas p c n))
    (hnext : (σ.node p).next = Ptr.addr c)
    (hσ : σ' = σ.write p { σ.node p with next := Ptr.addr n }) :
    σ'.heap.load (worth σ') ≤ 2 + σ.heap.load (worth σ) := by
  obtain ⟨_, _, _, _, _, hnn⟩ := f.loc
  have fresh := f.fresh n rfl
  have sp := link_splice (f.refs p (by simp [Pc.refs])) hnext fresh hnn
  rw [← hσ] at sp
  have hw : ∀ x, σ.heap.Linked x → worth σ' x = worth σ x := by
    intro x _
    unfold worth
    rw [hσ, node_next]
    split
    · next hx => rw [hx, hnext]; rfl
    · rfl
  rw [Heap.load_splice (finite_linked hm) (fun x => sp.linked hm.good)
    (fun h => fresh (hm.good.live_of_linked h)) hw]
  exact Nat.add_le_add_right (worth_le σ' n) _

theorem markCas_load {q : Ptr} (hm : MemInv σ R) (f : Fit σ R op (.markCas p n q))
    (hnext : (σ.node n).next = q) (hσ : σ' = σ.write n { σ.node n with next := q.mark }) :
    σ'.heap.load (worth σ') < σ.heap.load (worth σ) := by
  obtain ⟨_, _, _, hum⟩ := f.loc
  have hd : ¬ (σ.node n).next.marked = true := by
    rw [hnext, hum]
    exact Bool.false_ne_true
  have hn : σ.heap.Linked n := hm.good.alive (f.refs n (by simp [Pc.refs])) hd
  have hl : ∀ x, σ'.heap.Linked x ↔ σ.heap.Linked x := fun x => Heap.reach_congr fun y _ => by
    change (σ'.node y).next.ref = (σ.node y).next.ref
    rw [hσ, node_next]
    split
    · next hy => rw [hy, hnext]; rfl
    · rfl
  have hw : ∀ x, worth σ' x ≤ worth σ x := by
    intro x
    unfold worth
    rw [hσ, node_next]
    split
    · exact (if_pos rfl).trans_le (by split <;> decide)
    · exact le_rfl
  have hlt : worth σ' n < worth σ n := by
    unfold worth
    rw [if_neg hd, hσ, node_next, if_pos rfl]
    exact (if_pos rfl).trans_lt (by decide)
  exact Heap.load_lt (finite_linked hm) (fun x => (hl x).1) (fun x _ => hw x) hn
    (Or.inr ⟨(hl n).2 hn, hlt⟩)

theorem trimCas_load {t : TrimCtx} {q : Ptr} (hm : MemInv σ R) (f : Fit σ R op (.trimCas t p n q))
    (hnext : (σ.node p).next = Ptr.addr n) (hσ : σ' = σ.write p { σ.node p with next := q }) :
    σ'.heap.load (worth σ') < σ.heap.load (worth σ) := by
  have hpl := f.refs p (by simp [Pc.refs])
  obtain ⟨_, hum, hsn⟩ := f.loc
  have hl : ∀ x, σ'.heap.Linked x ↔ σ.heap.Linked x ∧ x ≠ n := by
    intro x
    rw [hσ]
    exact unlink_linked hm hpl hnext hum hsn
  have hw : ∀ x, worth σ' x ≤ worth σ x := by
    intro x
    unfold worth
    rw [hσ, node_next]
    split
    · next hx => rw [hum, hx, hnext]; exact le_rfl
    · exact le_rfl
  have hn : σ.heap.Linked n :=
    (hm.good.alive hpl (alive_of_addr hnext)).tail (succ_of_addr hnext)
  exact Heap.load_lt (finite_linked hm) (fun x hx => ((hl x).1 hx).1) (fun x _ => hw x) hn
    (Or.inl ⟨fun h => ((hl n).1 h).2 rfl, worth_pos σ n⟩)

theorem step_pays (hm : MemInv σ R) (f : Fit σ R op pc)
    (hn : next σ op slot pc = some (σ', pc')) :
    pc'.budget + σ'.heap.load (worth σ') < pc.budget + σ.heap.load (worth σ) ∨
    (pc'.budget + σ'.heap.load (worth σ') ≤ pc.budget + σ.heap.load (worth σ) ∧
      ∀ x, σ.heap.Live R x →
        (σ'.node x).next = (σ.node x).next ∧ (σ'.node x).key = (σ.node x).key) := by
  have hb := next_budget hn
  rcases tau_cases f.fresh hn with ⟨p, c, n, rfl, hnext, hσ⟩ | ⟨p, n, q, rfl, hnext, hσ⟩ |
    ⟨u, p, n, q, rfl, hnext, hσ⟩ | ⟨_, hsame⟩
  · left
    have hle := linkCas_load hm f hnext hσ
    simp only [next, if_pos hnext] at hn
    obtain ⟨_, rfl⟩ := Prod.mk.inj (Option.some.inj hn)
    change 0 + _ < 3 + _
    omega
  · have := markCas_load hm f hnext hσ
    exact Or.inl (by omega)
  · have := trimCas_load hm f hnext hσ
    exact Or.inl (by omega)
  · right
    have hl : σ'.heap.load (worth σ') = σ.heap.load (worth σ) := by
      refine Heap.load_congr (fun x => Heap.reach_congr fun y hy => ?_) fun x hx => ?_
      · exact congrArg Ptr.ref (hsame y (hm.good.live_of_linked hy)).1
      · exact worth_congr (hsame x (hm.good.live_of_linked hx)).1
    exact ⟨by omega, hsame⟩

theorem ahead_same (hs : ∀ x, σ.heap.Live R x →
      (σ'.node x).next = (σ.node x).next ∧ (σ'.node x).key = (σ.node x).key)
    (hn : σ.heap.Live R n) : ahead σ' n = ahead σ n := by
  unfold ahead
  rw [(hs n hn).1]
  cases hd : (σ.node n).next.ref with
  | none => rfl
  | some d => simp only [left_congr (hs d (hn.succ hd)).2]

theorem measure_same (hm : MemInv σ R) (hs : ∀ x, σ.heap.Live R x →
      (σ'.node x).next = (σ.node x).next ∧ (σ'.node x).key = (σ.node x).key)
    (hr : ∀ r ∈ pc.refs, σ.heap.Live R r) : measure σ' pc = measure σ pc := by
  have key : ∀ {c : Loc}, c ∈ pc.refs → left σ' c = left σ c := fun hc =>
    left_congr (hs _ (hr _ hc)).2
  have hhead := ahead_same hs hm.head_live
  have hw : pc.walk σ' = pc.walk σ := by
    cases pc with
    | find => exact hhead
    | containsHead => exact hhead
    | findTest p c => simp only [Pc.walk, key (show c ∈ [p, c] by simp)]
    | containsWalk c => simp only [Pc.walk, key (show c ∈ [c] by simp)]
    | findNext p n => exact ahead_same hs (hr n (by simp [Pc.refs]))
    | deleteLoad c n | deleteFlush c n | deleteStore c n =>
      rcases c with ⟨_ | _, p⟩ | _
      · exact ahead_same hs (hr n (by simp [Pc.refs, DeleteCtx.refs]))
      · rfl
      · rfl
    | trimLoad c p n | trimCas c p n q | trimFree c p n =>
      cases c with
      | inFind => exact ahead_same hs (hr n (by simp [Pc.refs]))
      | inRemove => rfl
    | _ => rfl
  unfold measure
  rw [hw]

theorem fresh_same (h : ∀ r ∈ pc.refs, (σ'.node r).next = (σ.node r).next) :
    Fresh σ' pc ↔ Fresh σ pc := by
  cases pc with
  | findTest p c | alloc p c | flipLoad p c n | flipStore p c n old | initInsertFlag p c n
  | initDeleteFlag p c n | initKey p c n | initValue p c n | initNext p c n | linkCas p c n =>
    simp only [Fresh, h p (by simp [Pc.refs])]
  | findNext p n => simp only [Fresh, h p (by simp [Pc.refs]), h n (by simp [Pc.refs])]
  | deleteLoad c n | deleteFlush c n | deleteStore c n =>
    rcases c with ⟨_ | _, p⟩ | _
    · simp only [Fresh, h p (by simp [Pc.refs, DeleteCtx.refs])]
    · exact Iff.rfl
    · exact Iff.rfl
  | trimLoad c p n | trimCas c p n q =>
    cases c with
    | inFind => simp only [Fresh, h p (by simp [Pc.refs])]
    | inRemove => exact Iff.rfl
  | trimFree c p n =>
    cases c with
    | inFind => simp only [Fresh, h p (by simp [Pc.refs]), h n (by simp [Pc.refs])]
    | inRemove => exact Iff.rfl
  | removeLoad p n =>
    change ¬ (σ'.node n).next.marked = true ↔ ¬ (σ.node n).next.marked = true
    rw [h n (by simp [Pc.refs])]
  | validLoad c n | validStore c n old =>
    cases c with
    | removing p q => simp only [Fresh, h n (by simp [Pc.refs, ValidCtx.refs])]
    | _ => exact Iff.rfl
  | markCas p n q => simp only [Fresh, h n (by simp [Pc.refs])]
  | _ => exact Iff.rfl

theorem stable_inv (V : Type) : (machine V).Stable Inv where
  init := by
    rintro s ⟨zero, junk, rfl⟩
    exact inv_initial zero junk
  step hi hs := Inv.step hi hs

theorem spends (V : Type) : (machine V).Spends Pc.budget
    (fun s => s.store.heap.load (worth s.store)) (fun s => Fresh s.store)
    (fun s => measure s.store) Inv where
  stable := stable_inv V
  pays {s t s' op pc pc'} hi hs h0 h1 := by
    obtain ⟨slot, σ, hn, _, rfl⟩ := tau_inv hs h0 h1
    have f := hi.fit h0
    rcases step_pays hi.mem f hn with hlt | ⟨hle, hsame⟩
    · exact Or.inl hlt
    · refine Or.inr ⟨hle, fun u p q hu => ?_, ?_⟩
      · have hr := (hi.fit hu).refs
        exact ⟨fresh_same fun r h => (hsame r (hr r h)).1, measure_same hi.mem hsame hr⟩
      · by_cases hf : Fresh s.store pc
        · obtain ⟨hf', hne⟩ := step_fresh f hn hf
          exact Or.inr ⟨fun _ => hf', (step_measure hi.mem f hn).resolve_left hne⟩
        · rcases step_measure hi.mem f hn with rfl | hlt
          · exact Or.inl ⟨hf, trivial⟩
          · exact Or.inr ⟨fun h => absurd h hf, hlt⟩

theorem linkFreeList_lockFree (V : Type) : (machine V).LockFree :=
  (spends V).descends.lockFree

end LinkFree.List
