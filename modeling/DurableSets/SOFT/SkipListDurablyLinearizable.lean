import DurableSets.Core.Durable
import DurableSets.SOFT.SkipListDurable
import DurableSets.SOFT.SkipListLinearizable
import DurableSets.SOFT.SkipListStall

/-! The slots that are valid in NVRAM at a crash are those of a set which the calls explain. -/

namespace SOFT.SkipList

open Chain

variable {V : Type} {k : ℤ} {x : Loc} {s : State V} {ρ : Run (machine V)} {lin : ℕ → Option ℕ}

def State.Image.keys (img : s.Image) : Set ℤ :=
  {k | ∃ x, (img.node x).isValid = true ∧ (img.node x).key = k}

theorem Saved.recovered (h : Saved s) (hi : Inv 1 s) {img : s.Image} (hk : k ∈ img.keys) :
    ∃ x, InList s.store x ∧ (s.store.node x).key = k ∧ s.store.stateAt 0 x ≠ .deleted := by
  obtain ⟨x, hv, rfl⟩ := hk
  obtain ⟨hx, hh, hkey⟩ := h.valid hi hv
  have ht : x ≠ tail := by
    rintro rfl
    have hc := (h.sentinel (Or.inr rfl)).not_valid (img.written tail)
    exact Bool.false_ne_true (hc.symm.trans hv)
  obtain ⟨_, _, hd⟩ := (h.live (hi.mem.live_of_linked hx) hh ht).valid (img.written x) hv
  exact ⟨x, ⟨hx, hh, ht⟩, hkey.symm, hd⟩

theorem Saved.inserted_mem (h : Saved s) (hi : Inv 1 s) (img : s.Image) (hx : InList s.store x)
    (hs : s.store.stateAt 0 x = .inserted) : (s.store.node x).key ∈ img.keys := by
  obtain ⟨hv, hkey, _⟩ := h.holds img (hi.mem.live_of_linked hx.1) hx.2.1 hx.2.2 hs
  exact ⟨x, hv, hkey⟩

theorem oneEffect_run (ρ : Run (machine V)) (clean : Clean ρ) (m : ℕ) (hm : m < ρ.length) :
    Run.OneEffect (machine V) State.abs State.done (ρ.state m) (ρ.state (m + 1)) :=
  oneEffect_step (inv_run ρ clean m hm.le) (clean m hm) (helped_run ρ clean m hm.le) (ρ.step hm)

theorem linearization_run (ρ : Run (machine V)) (clean : Clean ρ) :
    ∃ lin, ρ.Linearization State.abs lin ∧
      ∀ {i m}, lin i = some m → ρ.Flip State.done i m := by
  refine Run.linearization_of State.done ?_ (oneEffect_run ρ clean) ?_ (answer_ret clean)
  · obtain ⟨zero, h⟩ := ρ.init
    rw [h]
    exact initial_abs zero
  · intro n t op hn he hd
    have hs := ρ.step hn
    rw [he] at hs
    obtain ⟨op1, pc, ht, htook⟩ := hd
    obtain ⟨rfl, _, _⟩ := call_inv hs ht
    exact start_took htook

theorem unseen_insert (clean : Clean ρ) (hflip : ∀ {i m}, lin i = some m → ρ.Flip State.done i m)
    (img : (ρ.state ρ.length).Image) (hR : k ∈ img.keys) (hA : k ∉ (ρ.state ρ.length).abs) :
    ∃ t v i, ρ.Active t (.insert k v) i ρ.length ∧ lin i = none := by
  have hi := inv_run ρ clean ρ.length le_rfl
  obtain ⟨x, hx, hk, hd⟩ := (saved_run ρ clean ρ.length le_rfl).recovered hi hR
  have hst : (ρ.state ρ.length).store.stateAt 0 x = .intendToInsert := by
    by_contra hne
    exact hA (mem_abs.2 ⟨x, hx, ⟨hne, hd⟩, hk⟩)
  obtain ⟨t, op, pc, ht, hins⟩ := (helped_run ρ clean ρ.length le_rfl).inserter hx hst
  obtain ⟨hop, _, hr⟩ := (hi.fit ht).inserts hi.mem hins
  obtain ⟨i, ha⟩ := ρ.active_of_thread le_rfl ht
  have hno : ¬ (ρ.state ρ.length).done t := fun h =>
    (took_inserts hi.mem (hi.fit ht) hins).1 ((done_iff ht).1 h) hst
  cases op with
  | insert k' v =>
    obtain rfl : k' = k := (key_of_rank hr).symm.trans hk
    exact ⟨t, v, i, ha, ha.not_taken (oneEffect_run ρ clean) hflip hno⟩
  | _ => exact hop.elim

theorem erased_remove (clean : Clean ρ) (hflip : ∀ {i m}, lin i = some m → ρ.Flip State.done i m)
    (img : (ρ.state ρ.length).Image) (hA : k ∈ (ρ.state ρ.length).abs) (hR : k ∉ img.keys) :
    ∃ t i, ρ.Active t (.remove k) i ρ.length ∧ lin i = none := by
  have hi := inv_run ρ clean ρ.length le_rfl
  obtain ⟨x, hx, hv, hk⟩ := mem_abs.1 hA
  have hst : (ρ.state ρ.length).store.stateAt 0 x = .intendToDelete := by
    cases hs : (ρ.state ρ.length).store.stateAt 0 x with
    | inserted => exact absurd (hk ▸ (saved_run ρ clean ρ.length le_rfl).inserted_mem hi img hx hs) hR
    | intendToDelete => rfl
    | intendToInsert => exact absurd hs hv.1
    | deleted => exact absurd hs hv.2
  obtain ⟨t, op, pc, ht, hrem⟩ := (helped_run ρ clean ρ.length le_rfl).remover hx hst
  obtain ⟨hop, _, hr, _⟩ := (hi.fit ht).removes hrem
  obtain ⟨i, ha⟩ := ρ.active_of_thread le_rfl ht
  have hno : ¬ (ρ.state ρ.length).done t := by
    intro h
    have hd := (took_removes hi.mem (hi.fit ht) hrem).1 ((done_iff ht).1 h)
    exact NodeState.noConfusion (hst.symm.trans hd)
  cases op with
  | remove k' =>
    obtain rfl : k' = k := (key_of_rank hr).symm.trans hk
    exact ⟨t, i, ha, ha.not_taken (oneEffect_run ρ clean) hflip hno⟩
  | _ => exact hop.elim

theorem softSkipList_durablyLinearizable (ρ : Run (machine V)) (clean : Clean ρ)
    (img : (ρ.state ρ.length).Image) : ρ.DurablyLinearizable img.keys := by
  obtain ⟨lin, hlin, hflip⟩ := linearization_run ρ clean
  exact ⟨_, lin, hlin.explains, fun k hk => unseen_insert clean hflip img hk.1 hk.2,
    fun k hk => erased_remove clean hflip img hk.1 hk.2⟩

-- a thread has deleted 5 and stopped before it unlinks it, and another inserts 7
theorem softSkipList_durablyLinearizable_deleted : ∃ (ρ : Run (machine ℕ)),
    ρ.length = 110 ∧ ∀ img : (ρ.state ρ.length).Image, ρ.DurablyLinearizable img.keys := by
  obtain ⟨ρ, hρ, _⟩ := exists_play 0 exec (fun h => h) insertAtDeleted (by decide +kernel)
  have clean := clean_of_neverRecycled (neverRecycled_of_plays (fun h => h) hρ (by decide +kernel))
  exact ⟨ρ, hρ.length, fun img => softSkipList_durablyLinearizable ρ clean img⟩

end SOFT.SkipList
