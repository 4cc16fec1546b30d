import DurableSets.Core.Projection
import DurableSets.LinkFree.ListDurablyLinearizable
import DurableSets.LinkFree.ListReclaim

/-! The list with the allocators of ssmem under it, in the runs whose trims inside find go on from
no node that ssmem may hand out. -/

namespace LinkFree.List.Memory

open Ssmem

variable {V : Type} {tsList : List Tid} {s s' : State V} {t : Tid} {e : Event (SetOp V)}

theorem simulates (ρ : Run (machine V tsList))
    (hok : ∀ m < ρ.length, FreeOk (ρ.state m) (ρ.state (m + 1))) :
    ρ.Simulates (List.machine V) State.base where
  init := by
    obtain ⟨zero, junk, fsSize, _, h⟩ := ρ.init
    rw [h]
    exact ⟨zero, junk, rfl⟩
  step {m} hm := by
    have hi := inv_run ρ hok m hm.le
    have hs := ρ.step hm
    generalize ρ.state (m + 1) = s' at hs
    generalize ρ.event m = e at hs
    cases hs with
    | collect t op pc s' ht hc => exact Or.inr ⟨collect_base hc, t, rfl⟩
    | tau t op pc pc' slot σ s' ht hn hr => exact Or.inl (hi.base_tau ht hn hr)
    | call t op b ht hs => exact Or.inl hs
    | ret t r b hs => exact Or.inl hs

theorem linkFreeList_on_ssmem (ρ : Run (machine V tsList))
    (hok : ∀ m < ρ.length, FreeOk (ρ.state m) (ρ.state (m + 1))) :
    ρ.Linearizable (fun s => s.base.abs) ∧
      ∀ img : (ρ.state ρ.length).base.Image, ρ.DurablyLinearizable img.keys := by
  refine ⟨(simulates ρ hok).linearizable fun ρ' => ?_, fun img => ?_⟩
  · obtain ⟨lin, hlin, _⟩ := List.linearization_run ρ'
    exact ⟨lin, hlin⟩
  · refine (simulates ρ hok).durablyLinearizable (fun s R => ∃ img : s.Image, img.keys = R)
      (fun ρ' R hR => ?_) ?_
    · obtain ⟨img', rfl⟩ := hR
      exact durablyLinearizable_run ρ' img'
    · use img

-- thread 0 trims in its finds, and thread 1 gets a slot that it has given back
theorem linkFreeList_on_ssmem_recycled : ∃ ρ : Run (machine ℕ [0, 1]), 216 < ρ.length ∧
    Allocs ρ 216 1 3 ∧ ρ.Linearizable fun s => s.base.abs := by
  obtain ⟨ρ, hρ⟩ := exists_play [0, 1] 0 (guarded freeOk (exec [0, 1]))
    (fun h => (guarded_inv h).2) recycle (by decide +kernel)
  have hl : 216 < ρ.length := by
    rw [hρ.length]
    decide +kernel
  have before := hρ.holds 216 (P := fun s =>
    s.base.thread 1 = some (.insert 9 0, .alloc 7 tail)) (by decide +kernel)
  have after := hρ.holds 217 (P := fun s =>
    s.base.thread 1 = some (.insert 9 0, .flipLoad 7 tail 3)) (by decide +kernel)
  refine ⟨ρ, hl, ⟨hl, _, _, _, of_decide_eq_true before, of_decide_eq_true after⟩,
    (linkFreeList_on_ssmem ρ fun m hm => ?_).1⟩
  exact freeOk_sound hm (guarded_inv (hρ.exec (by rw [← hρ.length]; exact hm))).1

end LinkFree.List.Memory
