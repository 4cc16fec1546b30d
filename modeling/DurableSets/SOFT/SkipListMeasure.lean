import DurableSets.Core.Progress
import DurableSets.SOFT.SkipListLinearizable
import Mathlib.Data.Prod.Lex

namespace SOFT.SkipList

open Chain

variable {V : Type} {σ σ' : Store V} {L : Set Cursor} {x y p n c d slot : Loc} {i j level : ℕ}
  {op : SetOp V} {pc pc' : Pc} {path : Path} {q : Ptr}

noncomputable def ahead (σ : Store V) (i : ℕ) (n : Loc) : ℕ := (σ.level i).dist n tail

def stage (phase level rest : ℕ) : ℕ ×ₗ ℕ ×ₗ ℕ := toLex (phase, toLex (level, rest))

-- search, newNode, level 0, find, the upper levels; stateCAS goes through its loop again once
-- if the word that it has read is out of date
noncomputable def Pc.measure (σ : Store V) : Pc → ℕ ×ₗ ℕ ×ₗ ℕ
  | .searchDown i pred _ => stage 5 i (8 * ahead σ i pred)
  | .searchTest i _ _ succ _ => stage 5 i (8 * ahead σ i succ + 1)
  | .searchNext i _ _ succ _ => stage 5 i (8 * ahead σ i succ)
  | .findDown _ i pred _ => stage 2 i (8 * ahead σ i pred)
  | .findLoad _ i _ _ _ succ _ => stage 2 i (8 * ahead σ i succ + 5)
  | .findCas _ i _ _ _ succ _ => stage 2 i (8 * ahead σ i succ + 1)
  | .helpStore _ _ => stage 3 8 0
  | .helpFlush _ _ => stage 3 7 0
  | .stateTest _ _ => stage 3 4 0
  | .stateLoad c n => if σ.stateAt 0 n = c.expected then stage 3 3 0 else stage 3 6 0
  | .stateCas c n q =>
    if (σ.node n).next 0 = q.createRef c.expected then stage 3 2 0 else stage 3 5 0
  | .alloc _ => stage 4 10 0
  | .allocTest _ _ _ => stage 4 9 0
  | .createStart _ _ _ _ => stage 4 8 0
  | .createKey _ _ _ _ => stage 4 7 0
  | .createValue _ _ _ _ => stage 4 6 0
  | .createTopLevel _ _ _ _ => stage 4 5 0
  | .createValidity _ _ _ => stage 4 4 0
  | .initNext _ n i => stage 4 3 ((σ.node n).topLevel - i)
  | .linkCas _ _ => stage 4 2 0
  | .lostStore _ => stage 4 1 0
  | .lostFree _ => stage 4 0 0
  | .upperLoad _ _ i => stage 1 (MAX_LEVEL - i) 3
  | .upperCas _ _ i _ => stage 1 (MAX_LEVEL - i) 2
  | .upperLink _ _ i => stage 1 (MAX_LEVEL - i) 1
  | _ => stage 0 0 0

def Pc.Fails (σ : Store V) : Pc → Prop
  | .lostFree _ => True
  | .findDown _ i pred _ => σ.dead i pred
  | .findCas _ i pred st predNext _ _ => (σ.node pred).next i ≠ Ptr.addr predNext st
  | .upperLink path _ i => ∃ e, path[i]? = some e ∧ (σ.node e.pred).next i ≠ e.succs
  | _ => False

theorem stage_lt {a a' b b' c c' : ℕ} :
    stage a b c < stage a' b' c' ↔ a < a' ∨ a = a' ∧ (b < b' ∨ b = b' ∧ c < c') := by
  simp only [stage, Prod.Lex.toLex_lt_toLex]

theorem ahead_next (hm : MemInv σ 1 L) (hx : (x, i) ∈ L) (hs : ((σ.node x).next i).ref = some y) :
    ahead σ i x = ahead σ i y + 1 := by
  have hy := hm.right hx hs
  exact Heap.dist_succ (hm.sound.tail_end (hm.sound.tail_mem hy)) hs (hm.sound.ends hy)

theorem searchDone_measure (hins : op.IsInsert) (τ : Store V) (e : Entry) (t : NodeState)
    (path : Path) (w : ℕ) : (searchDone τ op e t path i).measure σ < stage 5 i w := by
  cases i with
  | succ i => exact stage_lt.2 (Or.inr ⟨rfl, Or.inl (Nat.lt_succ_self i)⟩)
  | zero =>
    cases op with
    | insert k v =>
      simp only [searchDone, afterSearch]
      split
      · split <;> exact stage_lt.2 (Or.inl (by decide))
      · exact stage_lt.2 (Or.inl (by decide))
    | _ => exact hins.elim

theorem findDone_measure (c : FindCtx) (e : Entry) (path : Path) (w : ℕ) :
    (findDone c e path i).measure σ < stage 2 i w := by
  cases i with
  | succ i => exact stage_lt.2 (Or.inr ⟨rfl, Or.inl (Nat.lt_succ_self i)⟩)
  | zero => cases c <;> exact stage_lt.2 (Or.inl (by decide))

theorem upper_measure (path : Path) (n : Loc) {w : ℕ} (hi : i < MAX_LEVEL) :
    (upper σ' path n (i + 1)).measure σ < stage 1 (MAX_LEVEL - i) w := by
  unfold upper
  split
  · exact stage_lt.2 (Or.inr ⟨rfl, Or.inl (by omega)⟩)
  · exact stage_lt.2 (Or.inl (by decide))

theorem afterState_measure (τ : Store V) (n : Loc) (won : Bool) (c : InsertCtx) :
    (afterState τ n won (.insert c)).measure σ < stage 3 0 0 := by
  cases c with
  | found => exact stage_lt.2 (Or.inl (by decide))
  | linked path =>
    simp only [afterState, upper]
    split <;> exact stage_lt.2 (Or.inl (by decide))

theorem step_measure (hins : op.IsInsert) (hm : MemInv σ 1 L) (f : Fit σ L op pc)
    (hn : next σ op slot level pc = some (σ', pc')) (hf : ¬ pc.Fails σ) :
    pc'.measure σ' < pc.measure σ := by
  have down : ∀ {a b b' r r' : ℕ}, b < b' → stage a b r < stage a b' r' := fun h =>
    stage_lt.2 (Or.inr ⟨rfl, Or.inl h⟩)
  have near : ∀ {a b r r' : ℕ}, r < r' → stage a b r < stage a b r' := fun h =>
    stage_lt.2 (Or.inr ⟨rfl, Or.inr ⟨rfl, h⟩⟩)
  have state : ∀ {c : StateCtx}, c.Fits op → ∃ e, c = .insert e := by
    intro c h
    cases c with
    | insert e => exact ⟨e, rfl⟩
    | _ => exact (insert_not_remove hins h).elim
  have top : ∀ {path n i}, UpperOk σ op path n i → (n, i - 1) ∈ L → i < MAX_LEVEL := fun ho h =>
    ho.lt.trans_le (hm.level h).2
  cases act_of_next hn with
  | @searchDown i p y path hs =>
    have := ahead_next hm (f.refs (p, i) (by simp [Pc.refs])) hs
    exact near (by omega)
  | searchSkip => exact near (Nat.lt_succ_self _)
  | searchStop => exact searchDone_measure hins _ _ _ _ _
  | searchGo => exact near (Nat.lt_succ_self _)
  | @searchNext i p y e st path hs =>
    have := ahead_next hm (f.refs (y, i) (by simp [Pc.refs])) hs
    exact near (by omega)
  | findLost dead => exact absurd dead hf
  | @findDown c i p y path alive hs =>
    have := ahead_next hm (f.refs (p, i) (by simp [Pc.refs])) hs
    exact near (by omega)
  | @findSkip c i p d y e st path dead hs =>
    have := ahead_next hm (f.refs (y, i) (by simp [Pc.refs])) hs
    exact near (by omega)
  | findSame => exact findDone_measure _ _ _ _
  | findCut => exact near (by omega)
  | @findGo c i p d y e st path alive lt hs =>
    have := ahead_next hm (f.refs (y, i) (by simp [Pc.refs])) hs
    exact near (by omega)
  | findWon => exact findDone_measure _ _ _ _
  | findFail hq => exact absurd hq hf
  | helpStore => exact down (by decide)
  | helpFlush => exact down (by decide)
  | stateTest hs =>
    simp only [Pc.measure, if_pos hs]
    exact down (by decide)
  | @stateDone c n hs =>
    obtain ⟨e, rfl⟩ := state f.fits
    exact (afterState_measure _ _ _ e).trans (down (by decide))
  | @stateLoad c n =>
    by_cases hs : σ.stateAt 0 n = c.expected
    · have hq : (σ.node n).next 0 = ((σ.node n).next 0).createRef c.expected := by
        rw [← hs]
        rfl
      simp only [Pc.measure, if_pos hs, if_pos hq]
      exact down (by decide)
    · simp only [Pc.measure, if_neg hs]
      split <;> exact down (by decide)
  | @stateWon c n q hq =>
    obtain ⟨e, rfl⟩ := state f.fits
    refine (afterState_measure _ _ _ e).trans ?_
    simp only [Pc.measure, if_pos hq]
    exact down (by decide)
  | @stateFail c n q hq =>
    simp only [Pc.measure, if_neg hq]
    exact down (by decide)
  | initNext he lt =>
    refine near ?_
    rw [(setNext_data σ _ _ _ _).topLevel]
    omega
  | upperOut => exact stage_lt.2 (Or.inl (by decide))
  | upperSame => exact near (by decide)
  | upperLoad => exact near (by decide)
  | upperWon => exact near (by decide)
  | upperFail => exact stage_lt.2 (Or.inl (by decide))
  | @upperLink path n i => exact upper_measure _ _ (top f.loc.1 (f.refs (n, i - 1) (by simp [Pc.refs])))
  | upperLost he hq => exact absurd ⟨_, he, hq⟩ hf
  | linkWon => exact stage_lt.2 (Or.inl (by decide))
  | lostFree => exact absurd trivial hf
  | markSkip => exact (insert_not_remove hins f.fits).elim
  | markLoad => exact (insert_not_remove hins f.fits).elim
  | markWon => exact (insert_not_remove hins f.fits).elim
  | markFail => exact (insert_not_remove hins f.fits).elim
  | destroyStore => exact (insert_not_remove hins f.fits).elim
  | destroyFlush => exact (insert_not_remove hins f.fits).elim
  | removeFree => exact (insert_not_remove hins f.fits).elim
  | containsDown => exact absurd f.fits (not_contains_of_insert hins)
  | containsSkip => exact absurd f.fits (not_contains_of_insert hins)
  | containsFound => exact absurd f.fits (not_contains_of_insert hins)
  | containsEnd => exact absurd f.fits (not_contains_of_insert hins)
  | containsStep => exact absurd f.fits (not_contains_of_insert hins)
  | containsOut => exact absurd f.fits (not_contains_of_insert hins)
  | containsGo => exact absurd f.fits (not_contains_of_insert hins)
  | containsNext => exact absurd f.fits (not_contains_of_insert hins)
  | _ => exact down (by decide)

end SOFT.SkipList
