import DurableSets.Core.Cost
import DurableSets.SOFT.ListHelp

/-! How often the calls of the list flush a cache line. -/

namespace SOFT.List

variable {V : Type} {σ σ' : Store V} {R W : Set Loc} {d c : Loc} {op : SetOp V} {pc pc' : Pc}
  {st : NodeState} {s s' : State V} {t : Tid} {r : Bool} {k : ℕ}

def Pc.flushes : Pc → ℕ
  | .createFlush _ _ => 1
  | .destroyFlush _ _ _ _ => 1
  | _ => 0

def TrimCtx.flushed : TrimCtx → ℕ
  | .inFind _ => 0
  | .inRemove => 1

def Pc.Flushed (op : SetOp V) : Pc → ℕ → Prop
  | .insertTest _ _, k => k = 1
  | .insertLoad _ _, k => k = 1
  | .insertCas _ _ _, k => k = 1
  | .deleteTest _ _ _ _, k => k = 1
  | .deleteLoad _ _ _ _, k => k = 1
  | .deleteCas _ _ _ _ _, k => k = 1
  | .trimLoad c _ _ _, k => k = c.flushed
  | .trimCas c _ _ _ _, k => k = c.flushed
  | .trimFree c _ _ _, k => k = c.flushed
  | .ret r, k => op.PaysOnce r k
  | _, k => k = 0

theorem TrimCtx.flushed_le (c : TrimCtx) : c.flushed ≤ 1 := by
  cases c <;> simp [TrimCtx.flushed]

theorem flushed_le (h : pc.Flushed op k) : k ≤ 1 := by
  cases pc with
  | ret r => exact h.le
  | trimLoad c d st n => exact h.trans_le c.flushed_le
  | trimCas c d st n q => exact h.trans_le c.flushed_le
  | trimFree c d st n => exact h.trans_le c.flushed_le
  | insertTest r n | insertLoad r n | insertCas r n q => exact h.le
  | deleteTest r d st n | deleteLoad r d st n | deleteCas r d st n q => exact h.le
  | _ => exact h.trans_le (Nat.zero_le 1)

theorem flushed_afterFind {cs : NodeState} (h : afterFind σ d st c cs op = some pc) :
    pc.Flushed op 0 := by
  cases op with
  | insert key value =>
    simp only [afterFind] at h
    split at h
    · split at h <;> obtain rfl := Option.some.inj h
      · exact SetOp.paysOnce_false _
      · rfl
    · obtain rfl := Option.some.inj h
      rfl
  | remove key =>
    simp only [afterFind] at h
    split at h
    · obtain rfl := Option.some.inj h
      exact SetOp.paysOnce_false _
    · split at h <;> obtain rfl := Option.some.inj h
      · exact SetOp.paysOnce_false _
      · rfl
  | contains key => cases h

theorem flushed_afterTrim {c : TrimCtx} (hf : c.Fits op) (h : k = c.flushed) :
    (afterTrim d st c).Flushed op k := by
  cases c with
  | inFind n => exact h
  | inRemove =>
    subst h
    exact SetOp.paysOnce_update (SetOp.IsRemove.not_contains hf)

theorem Flow.flushed (h : Flow σ op pc pc') (hf : pc.Fits op) (hk : pc.Flushed op k) :
    pc'.Flushed op (k + pc.flushes) := by
  cases h with
  | findStop _ _ h =>
    obtain rfl : k = 0 := hk
    exact flushed_afterFind h
  | trimLost => exact flushed_afterTrim hf hk
  | trimFree => exact flushed_afterTrim hf hk
  | insertDone =>
    obtain rfl : k = 1 := hk
    exact SetOp.paysOnce_update (SetOp.IsInsert.not_contains hf)
  | deleteHelp =>
    obtain rfl : k = 1 := hk
    exact SetOp.paysOnce_update (SetOp.IsRemove.not_contains hf)
  | containsStop =>
    obtain rfl : k = 0 := hk
    exact SetOp.paysOnce_contains hf
  | createFlush =>
    obtain rfl : k = 0 := hk
    rfl
  | destroyFlush =>
    obtain rfl : k = 0 := hk
    rfl
  | _ => exact hk

end SOFT.List
