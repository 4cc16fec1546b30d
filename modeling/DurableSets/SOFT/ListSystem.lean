import DurableSets.Core.Projection
import DurableSets.SOFT.ListDurablyLinearizable
import DurableSets.SOFT.ListLockFree
import DurableSets.SOFT.ListReclaim

/-! The list with the allocators of ssmem under it: slots come from ssmem_alloc, and what a call
gives back waits in a free set until the timestamps allow it to be handed out again. -/

namespace SOFT.List.Memory

open Ssmem

variable {V : Type} {tsList : List Tid} {s s' : State V} {t u : Tid} {e : Event (SetOp V)}

theorem simulates (ρ : Run (machine V tsList)) : ρ.Simulates (List.machine V) State.base where
  init := by
    obtain ⟨zero, fsSize, volatileFsSize, _, h⟩ := ρ.init
    rw [h]
    exact ⟨zero, rfl⟩
  step {m} hm := by
    have hi := inv_run ρ m hm.le
    have hs := ρ.step hm
    generalize ρ.state (m + 1) = s' at hs
    generalize ρ.event m = e at hs
    cases hs with
    | collect t op pc s' ht hc => exact Or.inr ⟨(collect_base hc).1, t, rfl⟩
    | tau t op pc pc' slot σ s' ht hn hr => exact Or.inl (hi.base_tau ht hn hr)
    | call t op b ht hs => exact Or.inl hs
    | ret t r b hs => exact Or.inl hs

def State.unread (t : Tid) (s : State V) : ℕ :=
  (s.alloc.allocator t).pending.length + (s.volatileAlloc.allocator t).pending.length

theorem collect_pending {α : Type*} {P P' : Pool α} {version : Tid → ℕ}
    (h : P.collect version t = some P') :
    (P'.allocator t).pending.length < (P.allocator t).pending.length ∧
      ∀ u, u ≠ t → P'.allocator u = P.allocator u := by
  obtain ⟨a, ha, rfl⟩ := Option.map_eq_some_iff.1 h
  refine ⟨?_, fun u hu => Function.update_of_ne hu _ _⟩
  simp only [Pool.setAllocator, Function.update_self]
  unfold Allocator.tsSetCollect at ha
  split at ha
  · cases ha
  · next cur rest hp =>
    split at ha
    · obtain rfl := Option.some.inj ha
      rw [hp]
      exact Nat.lt_succ_self _
    · cases ha

theorem collect_unread {r : Option Request} (h : s.collect t r = some s') :
    s'.unread t < s.unread t ∧ ∀ u, u ≠ t → s'.unread u = s.unread u := by
  cases r with
  | none => cases h
  | some r =>
    cases r with
    | alloc => cases h
    | volatileAlloc => cases h
    | free p =>
      obtain ⟨P, hP, rfl⟩ := Option.map_eq_some_iff.1 h
      obtain ⟨h1, h2⟩ := collect_pending hP
      refine ⟨Nat.add_lt_add_right h1 _, fun u hu => ?_⟩
      simp only [State.unread, h2 u hu]
    | volatileFree n =>
      obtain ⟨P, hP, rfl⟩ := Option.map_eq_some_iff.1 h
      obtain ⟨h1, h2⟩ := collect_pending hP
      refine ⟨Nat.add_lt_add_left h1 _, fun u hu => ?_⟩
      simp only [State.unread, h2 u hu]

theorem stable_inv (V : Type) (tsList : List Tid) : (machine V tsList).Stable (Inv tsList) where
  init := by
    rintro s ⟨zero, fsSize, volatileFsSize, _, rfl⟩
    exact inv_initial zero fsSize volatileFsSize
  step hi hs := Inv.step hi hs

theorem softList_on_ssmem (V : Type) (tsList : List Tid) :
    (∀ ρ : Run (machine V tsList), ρ.Linearizable (fun s => s.base.abs) ∧
      ∀ img : (ρ.state ρ.length).base.Image, ρ.DurablyLinearizable img.keys) ∧
    (machine V tsList).LockFree := by
  refine ⟨fun ρ => ⟨(simulates ρ).linearizable linearizable_run, fun img => ?_⟩, ?_⟩
  · refine (simulates ρ).durablyLinearizable (fun s R => ∃ img : s.Image, img.keys = R)
      (fun ρ' R hR => ?_) ?_
    · obtain ⟨img', rfl⟩ := hR
      exact durablyLinearizable_run ρ' img'
    · use img
  · refine ((spends V).descends.lift State.base State.unread (stable_inv V tsList) Inv.base
      fun {s t s'} hi hs => ?_).lockFree
    cases hs with
    | tau _ op pc pc' slot σ s' ht hn hr => exact Or.inl (hi.base_tau ht hn hr)
    | collect _ op pc s' ht hc => exact Or.inr ⟨(collect_base hc).1, collect_unread hc⟩

end SOFT.List.Memory
