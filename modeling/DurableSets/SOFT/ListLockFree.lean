import DurableSets.Core.Load
import DurableSets.Core.LockFree
import DurableSets.SOFT.ListHelp
import DurableSets.SOFT.ListProgress

namespace SOFT.List

open Chain

variable {V : Type} {σ σ' : Store V} {R W : Set Loc} {x y n c d : Loc} {p : PLoc} {q : Ptr}
  {slot : ℕ} {op : SetOp V} {pc pc' : Pc} {s s' : State V} {t u : Tid} {st : NodeState}

def TrimCtx.pending : TrimCtx → Bool
  | .inFind _ => true
  | .inRemove => false

def Pc.pending : Pc → Bool
  | .find => true
  | .findLoad _ _ _ => true
  | .trimLoad c _ _ _ => c.pending
  | .trimCas c _ _ _ _ => c.pending
  | .trimFree c _ _ _ => c.pending
  | .allocPNode _ _ _ => true
  | .pnodeAlloc _ _ _ _ => true
  | .allocNode _ _ _ _ _ => true
  | .initNode _ _ _ _ _ _ => true
  | .initNext _ _ _ _ _ => true
  | .linkCas _ _ _ _ _ => true
  | .lostNode _ _ => true
  | .lostPNode _ => true
  | _ => false

theorem afterTrim_pending (d : Loc) (st : NodeState) (t : TrimCtx) :
    (afterTrim d st t).pending = t.pending := by cases t <;> rfl

theorem Flow.pending (h : Flow σ op pc pc') (hp : pc'.pending = true) : pc.pending = true := by
  cases h with
  | trimLost => rwa [afterTrim_pending] at hp
  | trimFree => rwa [afterTrim_pending] at hp
  | _ => first | rfl | exact hp

def Pc.budget (pc : Pc) : ℕ := if pc.pending then 5 else 0

theorem next_budget (hn : next σ op slot pc = some (σ', pc')) : pc'.budget ≤ pc.budget := by
  unfold Pc.budget
  split
  · next h => rw [if_pos ((flow_of_next hn).pending h)]
  · exact Nat.zero_le _

-- the states that a node still has before it, and its removal
def worth (σ : Store V) (x : Loc) : ℕ := 4 - (σ.node x).next.state.age

theorem worth_pos (σ : Store V) (x : Loc) : 0 < worth σ x := by
  unfold worth
  cases (σ.node x).next.state <;> decide

theorem worth_congr (h : (σ'.node x).next.state = (σ.node x).next.state) :
    worth σ' x = worth σ x := by
  unfold worth
  rw [h]

theorem finite_linked (hm : MemInv σ R W) : {x | σ.heap.Linked x}.Finite :=
  Heap.finite_reach (congrArg Ptr.ref hm.chain.tail_next) hm.chain.tail_linked

theorem link_load (hm : MemInv σ R W) (f : Fit σ R W op (.linkCas d st c n p))
    (hn : (σ.node d).next = Ptr.addr c st) :
    (σ.setNext d (Ptr.addr n st)).heap.load (worth (σ.setNext d (Ptr.addr n st))) ≤
      4 + σ.heap.load (worth σ) := by
  have sp := linkCas_splice f hn
  have hw : ∀ x, σ.heap.Linked x → worth (σ.setNext d (Ptr.addr n st)) x = worth σ x := by
    intro x _
    refine worth_congr ?_
    rw [setNext_next]
    split
    · next hx => rw [hx, hn]; rfl
    · rfl
  rw [Heap.load_splice (finite_linked hm) (fun x => sp.linked hm.chain.good)
    (fun h => sp.fresh (hm.chain.good.live_of_linked h)) hw]
  exact Nat.add_le_add_right (Nat.sub_le _ _) _

theorem unlink_load {u : TrimCtx} (hm : MemInv σ R W) (f : Fit σ R W op (.trimCas u d st n q))
    (hn : (σ.node d).next = Ptr.addr n st) :
    (σ.setNext d q).heap.load (worth (σ.setNext d q)) < σ.heap.load (worth σ) := by
  have hl : ∀ x, (σ.setNext d q).heap.Linked x ↔ σ.heap.Linked x ∧ x ≠ n :=
    fun x => trim_linked hm f hn
  obtain ⟨⟨_, hst, _⟩, hq⟩ := f.loc
  have hw : ∀ x, worth (σ.setNext d q) x = worth σ x := by
    intro x
    refine worth_congr ?_
    rw [setNext_next]
    split
    · next hx => rw [hx, hn, hq]; rfl
    · rfl
  have hlinked : σ.heap.Linked n :=
    (hm.chain.good.alive (f.refs d (by simp [Pc.refs])) (alive_of_addr hn hst)).tail
      (succ_of_addr hn)
  exact Heap.load_lt (finite_linked hm) (fun x hx => ((hl x).1 hx).1) (fun x _ => (hw x).le)
    hlinked (Or.inl ⟨fun h => ((hl n).1 h).2 rfl, worth_pos σ n⟩)

theorem advance_load {a b : NodeState} (hm : MemInv σ R W) (f : Fit σ R W op pc)
    (adv : Advances pc n q a b pc') (hn : (σ.node n).next = q.createRef a) :
    (σ.setNext n (q.createRef b)).heap.load (worth (σ.setNext n (q.createRef b))) <
      σ.heap.load (worth σ) := by
  have hage := adv.state
  have st := advance_steady (R := R) (s := b) hn (age_alive hage)
  have hlinked : σ.heap.Linked n := by
    refine hm.chain.good.alive (f.refs n adv.mem_refs) fun hd => ?_
    have hd : (σ.node n).next.state = .deleted := hd
    rw [hn] at hd
    exact age_alive hage hd
  have hlt : worth (σ.setNext n (q.createRef b)) n < worth σ n := by
    unfold worth
    rw [setNext_next, if_pos rfl, hn]
    change 4 - b.age < 4 - a.age
    have hb : b.age ≤ 3 := by cases b <;> decide
    omega
  refine Heap.load_lt (finite_linked hm) (fun x => (st.linked hm.chain.good).1) (fun x _ => ?_)
    hlinked (Or.inr ⟨(st.linked hm.chain.good).2 hlinked, hlt⟩)
  by_cases hx : x = n
  · exact hx ▸ hlt.le
  · refine (worth_congr ?_).le
    rw [setNext_next, if_neg hx]

theorem step_pays (hm : MemInv σ R W) (f : Fit σ R W op pc)
    (hn : next σ op slot pc = some (σ', pc')) :
    pc'.budget + σ'.heap.load (worth σ') < pc.budget + σ.heap.load (worth σ) ∨
    (pc'.budget + σ'.heap.load (worth σ') ≤ pc.budget + σ.heap.load (worth σ) ∧
      ∀ x, σ.heap.Live R x → σ'.node x = σ.node x) := by
  have hb := next_budget hn
  cases tau_cases (fun n h => (f.owned n h).1) hn with
  | link d st c n p hd =>
    have := link_load hm f hd
    left
    change 0 + _ < 5 + _
    omega
  | unlink u d st n q hd =>
    have := unlink_load hm f hd
    exact Or.inl (by omega)
  | advance adv hd =>
    have := advance_load hm f adv hd
    exact Or.inl (by omega)
  | still hsame =>
    right
    have hl : σ'.heap.load (worth σ') = σ.heap.load (worth σ) := by
      refine Heap.load_congr (fun x => ((still_steady hsame).linked hm.chain.good)) fun x hx => ?_
      exact worth_congr (by rw [hsame x (hm.chain.good.live_of_linked hx)])
    exact ⟨by omega, hsame⟩

theorem ahead_same (hs : ∀ x, σ.heap.Live R x → σ'.node x = σ.node x)
    (hn : σ.heap.Live R n) : ahead σ' n = ahead σ n := by
  unfold ahead
  rw [hs n hn]
  cases hd : (σ.node n).next.ref with
  | none => rfl
  | some d => simp only [left_congr (congrArg Node.key (hs d (hn.succ hd)))]

theorem measure_same (hm : MemInv σ R W) (hs : ∀ x, σ.heap.Live R x → σ'.node x = σ.node x)
    (hr : ∀ r ∈ pc.refs, σ.heap.Live R r) : measure σ' pc = measure σ pc := by
  have node : ∀ {c : Loc}, c ∈ pc.refs → σ'.node c = σ.node c := fun hc => hs _ (hr _ hc)
  have key : ∀ {c : Loc}, c ∈ pc.refs → left σ' c = left σ c := fun hc =>
    left_congr (congrArg Node.key (node hc))
  have hhead := ahead_same hs hm.chain.head_live
  have hw : pc.walk σ' = pc.walk σ := by
    cases pc with
    | find => exact hhead
    | containsHead => exact hhead
    | findLoad d st c => simp only [Pc.walk, key (show c ∈ [d, c] by simp)]
    | containsWalk c => simp only [Pc.walk, key (show c ∈ [c] by simp)]
    | trimLoad u d st n | trimCas u d st n q | trimFree u d st n =>
      cases u with
      | inFind e =>
        simp only [Pc.walk, TrimCtx.walk, key (show e ∈ _ by simp [Pc.refs, TrimCtx.refs])]
      | inRemove => rfl
    | _ => rfl
  have hv : pc.weight σ' = pc.weight σ := by
    cases pc with
    | insertTest r n | markTest d st n | deleteTest r d st n =>
      simp only [Pc.weight, testWeight, node (show n ∈ _ by simp [Pc.refs])]
    | insertCas r n q | markCas d st n q | deleteCas r d st n q =>
      simp only [Pc.weight, casWeight, node (show n ∈ _ by simp [Pc.refs])]
    | _ => rfl
  unfold measure
  rw [hw, hv]

theorem fresh_same (h : ∀ r ∈ pc.refs, σ'.node r = σ.node r) : Fresh σ' pc ↔ Fresh σ pc := by
  cases pc with
  | findLoad d st c | allocPNode d st c | pnodeAlloc d st c p | allocNode d st c p v
  | initNode d st c n p v | initNext d st c n p | linkCas d st c n p =>
    simp only [Fresh, h d (by simp [Pc.refs])]
  | trimLoad u d st n | trimCas u d st n q =>
    cases u with
    | inFind e => simp only [Fresh, h d (by simp [Pc.refs])]
    | inRemove => exact Iff.rfl
  | trimFree u d st n =>
    cases u with
    | inFind e => simp only [Fresh, TrimCtx.Fresh, h d (by simp [Pc.refs])]
    | inRemove => exact Iff.rfl
  | _ => exact Iff.rfl

theorem stable_inv (V : Type) : (machine V).Stable Inv where
  init := by
    rintro s ⟨zero, rfl⟩
    exact inv_initial zero
  step hi hs := Inv.step hi hs

theorem spends (V : Type) : (machine V).Spends Pc.budget
    (fun s => s.store.heap.load (worth s.store)) (fun s => Fresh s.store)
    (fun s => measure s.store) Inv where
  stable := stable_inv V
  pays {s t s' op pc pc'} hi hs h0 h1 := by
    obtain ⟨slot, σ, hn, _, _, rfl⟩ := tau_inv hs h0 h1
    have f := hi.fit h0
    rcases step_pays hi.mem f hn with hlt | ⟨hle, hsame⟩
    · exact Or.inl hlt
    · refine Or.inr ⟨hle, fun u p q hu => ?_, ?_⟩
      · have hr := (hi.fit hu).refs
        exact ⟨fresh_same fun r h => hsame r (hr r h), measure_same hi.mem hsame hr⟩
      · by_cases hf : Fresh s.store pc
        · obtain ⟨hf', hne⟩ := step_fresh f hn hf
          exact Or.inr ⟨fun _ => hf', (step_measure hi.mem f hn).resolve_left hne⟩
        · rcases step_measure hi.mem f hn with rfl | hlt
          · exact Or.inl ⟨hf, trivial⟩
          · exact Or.inr ⟨fun h => absurd h hf, hlt⟩

theorem softList_lockFree (V : Type) : (machine V).LockFree :=
  (spends V).descends.lockFree

end SOFT.List
