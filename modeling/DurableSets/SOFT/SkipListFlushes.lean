import DurableSets.Core.Cost
import DurableSets.SOFT.SkipListTrail

/-! How often the calls of the skip list flush a cache line, whether slots are recycled or not. -/

namespace SOFT.SkipList

variable {V : Type} {σ σ' : Store V} {n slot : Loc} {i k level : ℕ} {op : SetOp V} {pc pc' : Pc}
  {path : Path} {e : Entry} {st : NodeState}

def Pc.flushes : Pc → ℕ
  | .helpFlush _ _ => 1
  | .destroyFlush _ _ => 1
  | _ => 0

def StateCtx.flushed : StateCtx → ℕ
  | .insert _ => 1
  | .mark => 0
  | .delete _ => 1

def Pc.Flushed (op : SetOp V) : Pc → ℕ → Prop
  | .findDown _ _ _ _, k => k = 1
  | .findLoad _ _ _ _ _ _ _, k => k = 1
  | .findCas _ _ _ _ _ _ _, k => k = 1
  | .stateTest c _, k => k = c.flushed
  | .stateLoad c _, k => k = c.flushed
  | .stateCas c _ _, k => k = c.flushed
  | .upperLoad _ _ _, k => k = 1
  | .upperCas _ _ _ _, k => k = 1
  | .upperLink _ _ _, k => k = 1
  | .removeFree _, k => k = 1
  | .ret r, k => op.PaysOnce r k
  | _, k => k = 0

theorem StateCtx.flushed_le (c : StateCtx) : c.flushed ≤ 1 := by
  cases c <;> simp [StateCtx.flushed]

theorem flushed_le (h : pc.Flushed op k) : k ≤ 1 := by
  cases pc with
  | ret r => exact h.le
  | stateTest c n => exact h.trans_le c.flushed_le
  | stateLoad c n => exact h.trans_le c.flushed_le
  | stateCas c n q => exact h.trans_le c.flushed_le
  | findDown c i p path | findLoad c i p st d s path | findCas c i p st d s path => exact h.le
  | upperLoad path n i | upperCas path n i q | upperLink path n i | removeFree n => exact h.le
  | _ => exact h.trans_le (Nat.zero_le 1)

theorem flushed_mark (op : SetOp V) (n : Loc) (i : ℕ) : (mark n i).Flushed op 0 := by
  cases i <;> rfl

theorem flushed_upper (hf : op.IsInsert) : (upper σ path n i).Flushed op 1 := by
  unfold upper
  split
  · rfl
  · exact SetOp.paysOnce_update hf.not_contains

theorem flushed_afterSearch (hf : ¬ op.IsContains) :
    (afterSearch σ op e st path).Flushed op 0 ∧ (afterSearch σ op e st path).Fits op := by
  cases op with
  | insert key value =>
    simp only [afterSearch]
    split
    · split
      · exact ⟨SetOp.paysOnce_false _, trivial⟩
      · exact ⟨rfl, trivial⟩
    · exact ⟨rfl, trivial⟩
  | remove key =>
    simp only [afterSearch]
    split
    · exact ⟨SetOp.paysOnce_false _, trivial⟩
    · split
      · exact ⟨SetOp.paysOnce_false _, trivial⟩
      · exact ⟨flushed_mark _ _ _, mark_fits trivial⟩
  | contains key => exact absurd trivial hf

theorem flushed_searchDone (hf : ¬ op.IsContains) :
    (searchDone σ op e st path i).Flushed op 0 ∧ (searchDone σ op e st path i).Fits op := by
  cases i with
  | zero => exact flushed_afterSearch hf
  | succ i => exact ⟨rfl, hf⟩

theorem flushed_findDone (op : SetOp V) (c : FindCtx) (e : Entry) (path : Path) (i : ℕ) :
    (findDone c e path i).Flushed op 1 := by
  cases i with
  | zero => cases c <;> rfl
  | succ i => rfl

theorem flushed_afterState {c : StateCtx} {won : Bool} (hf : c.Fits op) :
    (afterState σ n won c).Flushed op c.flushed := by
  cases c with
  | insert c =>
    cases c with
    | found => exact SetOp.paysOnce_update (SetOp.IsInsert.not_contains hf)
    | linked path => exact flushed_upper hf
  | mark => rfl
  | delete r =>
    cases r with
    | true => rfl
    | false => exact SetOp.paysOnce_update (SetOp.IsRemove.not_contains hf)

theorem Act.flushed (h : Act σ op slot level pc σ' pc') (hf : pc.Fits op)
    (hk : pc.Flushed op k) : pc'.Flushed op (k + pc.flushes) ∧ pc'.Fits op := by
  have hi : ∀ {r : Bool}, op.IsInsert → op.PaysOnce r 1 := fun h =>
    SetOp.paysOnce_update h.not_contains
  cases h with
  | searchStop =>
    obtain rfl : k = 0 := hk
    exact flushed_searchDone hf
  | findSame =>
    obtain rfl : k = 1 := hk
    exact ⟨flushed_findDone _ _ _ _ _, findDone_fits hf⟩
  | findWon =>
    obtain rfl : k = 1 := hk
    exact ⟨flushed_findDone _ _ _ _ _, findDone_fits hf⟩
  | helpFlush =>
    obtain rfl : k = 0 := hk
    exact ⟨rfl, hf⟩
  | stateDone => exact ⟨by subst hk; exact flushed_afterState hf, afterState_fits hf⟩
  | stateWon => exact ⟨by subst hk; exact flushed_afterState hf, afterState_fits hf⟩
  | lostFree => exact ⟨hk, SetOp.IsInsert.not_contains hf⟩
  | upperOut => exact ⟨by subst hk; exact hi hf, trivial⟩
  | upperFail => exact ⟨by subst hk; exact hi hf, trivial⟩
  | upperLink => exact ⟨by subst hk; exact flushed_upper hf, upper_fits hf⟩
  | markSkip => exact ⟨by subst hk; exact flushed_mark _ _ _, mark_fits hf⟩
  | markWon => exact ⟨by subst hk; exact flushed_mark _ _ _, mark_fits hf⟩
  | destroyFlush =>
    obtain rfl : k = 0 := hk
    exact ⟨rfl, hf⟩
  | removeFree =>
    exact ⟨by subst hk; exact SetOp.paysOnce_update (SetOp.IsRemove.not_contains hf), trivial⟩
  | containsFound => exact ⟨by subst hk; exact SetOp.paysOnce_contains hf, trivial⟩
  | containsEnd => exact ⟨by subst hk; exact SetOp.paysOnce_contains hf, trivial⟩
  | _ => exact ⟨hk, hf⟩

end SOFT.SkipList
