import DurableSets.Core.Durable
import DurableSets.SOFT.ListCrash
import DurableSets.SOFT.ListDurable

/-! The list is durably linearizable: a crash lets only calls take effect that have not, and that
were running. -/

namespace SOFT.List

open Relation

variable {V : Type} {k : ℤ} {ρ : Run (machine V)} {lin : ℕ → Option ℕ} {i : ℕ} {t : Tid}
  {op : SetOp V} {zero : V} {image image' : PLoc → PNode V} {slots : List PLoc}
  {bump : PLoc → Bool} {σ σ' : Store V} {pc pc' : RecoveryPc} {p : PLoc}

theorem unseen_insert (hflip : ∀ {i m}, lin i = some m → ρ.Flip State.done i m)
    (img : (ρ.state ρ.length).Image) (hR : k ∈ img.keys) (hA : k ∉ (ρ.state ρ.length).abs) :
    ∃ t v i, ρ.Active t (.insert k v) i ρ.length ∧ lin i = none := by
  obtain ⟨x, hx, hk, hd⟩ := recovered_node hR
  have hst : stateAt ρ ρ.length x = .intendToInsert := by
    by_contra hne
    exact hA (mem_abs.2 ⟨x, hx, visible_iff.2 ⟨hne, hd⟩, hk⟩)
  obtain ⟨t, op, pc, ht, hins⟩ := (helped_run ρ ρ.length le_rfl).inserter hx hst
  obtain ⟨hop, _, hr⟩ := ((inv_run ρ ρ.length le_rfl).fit ht).inserts hins
  obtain ⟨i, ha⟩ := ρ.active_of_thread le_rfl ht
  have hno : ¬ (ρ.state ρ.length).done t := fun h =>
    (took_inserts hins).1 ((done_iff ht).1 h) hst
  cases op with
  | insert k' v =>
    obtain rfl : k' = k := (key_of_rank hr).symm.trans hk
    exact ⟨t, v, i, ha, ha.not_taken (oneEffect_run ρ) hflip hno⟩
  | _ => exact hop.elim

theorem erased_remove (hflip : ∀ {i m}, lin i = some m → ρ.Flip State.done i m)
    (img : (ρ.state ρ.length).Image) (hA : k ∈ (ρ.state ρ.length).abs) (hR : k ∉ img.keys) :
    ∃ t i, ρ.Active t (.remove k) i ρ.length ∧ lin i = none := by
  obtain ⟨x, hx, hv, hk⟩ := mem_abs.1 hA
  have hst : stateAt ρ ρ.length x = .intendToDelete :=
    hv.resolve_left fun h => hR (hk ▸ inserted_mem img ⟨_, le_rfl, hx⟩ h)
  obtain ⟨t, op, pc, ht, hrem⟩ := (helped_run ρ ρ.length le_rfl).remover hx hst
  obtain ⟨hop, _, hr, _⟩ := ((inv_run ρ ρ.length le_rfl).fit ht).removes hrem
  obtain ⟨i, ha⟩ := ρ.active_of_thread le_rfl ht
  have hno : ¬ (ρ.state ρ.length).done t := by
    intro h
    have hd := (took_removes hrem).1 ((done_iff ht).1 h)
    exact NodeState.noConfusion (hst.symm.trans hd)
  cases op with
  | remove k' =>
    obtain rfl : k' = k := (key_of_rank hr).symm.trans hk
    exact ⟨t, i, ha, ha.not_taken (oneEffect_run ρ) hflip hno⟩
  | _ => exact hop.elim

theorem durablyLinearizable_run (ρ : Run (machine V)) (img : (ρ.state ρ.length).Image) :
    ρ.DurablyLinearizable img.keys := by
  obtain ⟨lin, hlin, hflip⟩ := linearization_run ρ
  exact ⟨_, lin, hlin.explains, fun k hk => unseen_insert hflip img hk.1 hk.2,
    fun k hk => erased_remove hflip img hk.1 hk.2⟩

def Recovers (a b : Store V × RecoveryPc) : Prop :=
  ∃ slot, a.1.avail slot = true ∧ recoveryNext a.1 slot a.2 = some b

structure Covers (zero : V) (image : PLoc → PNode V) (slots : List PLoc) (bump : PLoc → Bool) :
    Prop where
  nodup : slots.Nodup
  outside : ∀ p, p ∉ slots → image p = ⟨false, false, false, 0, zero⟩
  unused : ∀ p, bump p = true → image p = ⟨false, false, false, 0, zero⟩

def Interrupted (slots : List PLoc) (image image' : PLoc → PNode V) : Prop :=
  ∃ zero bump σ pc, Covers zero image slots bump ∧
    ReflTransGen Recovers (restore zero image bump, .scan slots) (σ, pc) ∧
    ∀ p, image' p ∈ (σ.pline p).contents

theorem Covers.restoring (h : Covers zero image slots bump) :
    Restoring image (restore zero image bump) (.scan slots) := by
  have hnot : ∀ p, image p = ⟨false, false, false, 0, zero⟩ → ¬ (image p).isValid = true := by
    intro p hp
    rw [hp]
    exact Bool.false_ne_true
  refine restoring_start h.nodup (fun p hp => ?_) fun p hp => ⟨hnot p (h.unused p hp), ?_⟩
  · by_contra hno
    exact hnot p (h.outside p hno) hp
  · rw [h.unused p hp]

theorem restoring_run (hc : Clear image) {a b : Store V × RecoveryPc}
    (h : Restoring image a.1 a.2) (hr : ReflTransGen Recovers a b) : Restoring image b.1 b.2 := by
  induction hr with
  | refl => exact h
  | tail _ hs ih =>
    obtain ⟨slot, ha, hn⟩ := hs
    exact restoring_step hc ih ha hn

theorem interrupted_kindred (hc : Clear image) (h : Interrupted slots image image') (p : PLoc) :
    Kindred (image p) (image' p) := by
  obtain ⟨zero, bump, σ, pc, hch, hr, hl⟩ := h
  exact (restoring_run hc hch.restoring hr).kindred (hl p)

theorem interrupted_run (hc : Clear image) (h : ReflTransGen (Interrupted slots) image image') :
    Clear image' ∧ ∀ p, ((image' p).isValid = true ↔ (image p).isValid = true) ∧
      (image' p).key = (image p).key := by
  induction h with
  | refl => exact ⟨hc, fun p => ⟨Iff.rfl, rfl⟩⟩
  | tail _ hi ih =>
    have hk := interrupted_kindred ih.1 hi
    exact ⟨ih.1.kindred hk, fun p => ⟨((hk p).isValid ih.1.whole).trans (ih.2 p).1,
      (hk p).key.trans (ih.2 p).2⟩⟩

theorem restored_abs (h : Restoring image σ (.scan [])) :
    State.abs ⟨σ, fun _ => none⟩ = {k | ∃ p, (image p).isValid = true ∧ (image p).key = k} := by
  ext k
  rw [mem_abs]
  constructor
  · rintro ⟨x, hx, _, rfl⟩
    obtain ⟨p, _, hp⟩ := h.node hx
    exact ⟨p, hp.1, hp.key.symm⟩
  · rintro ⟨p, hp, rfl⟩
    obtain ⟨x, hx, hpx⟩ := (h.done hp).resolve_left List.not_mem_nil
    have hx : InList σ x := hx.resolve_right fun hn => (by cases hn)
    obtain ⟨q, _, hq⟩ := h.node hx
    obtain rfl := Option.some.inj (hpx.symm.trans hq.2.1)
    exact ⟨x, hx, Or.inl (h.state hx.1), hq.key⟩

theorem clear_run (ρ : Run (machine V)) (img : (ρ.state ρ.length).Image) : Clear img.pnode := by
  have hw : ∀ m ≤ ρ.length, ∃ use, Phase.Inv use (.running (ρ.state m)) := by
    refine ρ.stepwise ?_ fun m hm h => ?_
    · obtain ⟨zero, h⟩ := ρ.init
      rw [h]
      exact ⟨_, (World.inv_initial zero).phase⟩
    · obtain ⟨use, hi, hu⟩ := h
      exact ⟨_, hi.step (ρ.step hm), hu.step hi (ρ.step hm)⟩
  obtain ⟨use, h⟩ := hw ρ.length le_rfl
  exact (Phase.Inv.left h img.written).1

theorem softList_durablyLinearizable (ρ : Run (machine V)) (img : (ρ.state ρ.length).Image)
    (hi : ReflTransGen (Interrupted slots) img.pnode image) (hc : Covers zero image slots bump)
    (hr : ReflTransGen Recovers (restore zero image bump, .scan slots) (σ, .scan [])) :
    ρ.DurablyLinearizable (State.abs ⟨σ, fun _ => none⟩) := by
  obtain ⟨hcl, hk⟩ := interrupted_run (clear_run ρ img) hi
  have hkeys : State.abs ⟨σ, fun _ => none⟩ = img.keys := by
    rw [restored_abs (restoring_run hcl hc.restoring hr)]
    ext k
    refine exists_congr fun p => ?_
    rw [PNode.recovered_eq, (hk p).1, (hk p).2]
  rw [hkeys]
  exact durablyLinearizable_run ρ img

def recovers : Store V × RecoveryPc → List Loc → Option (Store V × RecoveryPc)
  | a, [] => some a
  | a, x :: xs => if a.1.avail x then (recoveryNext a.1 x a.2).bind fun b => recovers b xs else none

theorem recovers_sound {a b : Store V × RecoveryPc} {xs : List Loc} (h : recovers a xs = some b) :
    ReflTransGen Recovers a b := by
  induction xs generalizing a with
  | nil =>
    obtain rfl := Option.some.inj h
    exact ReflTransGen.refl
  | cons x xs ih =>
    simp only [recovers] at h
    split at h
    · next ha =>
      obtain ⟨c, hc, h⟩ := Option.bind_eq_some_iff.1 h
      exact ReflTransGen.head ⟨x, ha, hc⟩ (ih h)
    · cases h

-- the inserts of 5 and 6 have returned, the insert of 9 is at its PNode, and the remove of 5 has
-- not yet flushed what it wrote
def pendingRemove : List (Command ℕ) :=
  [alone 0 (.insert 5 50) 17 7, alone 0 (.insert 6 60) 18 8, [.call 0 (.insert 9 90)],
    steps 0 11 9, [.call 1 (.remove 5)], steps 1 6 2].flatten

-- slot 9 is in NVRAM as it stands, half made; of the others NVRAM has what was flushed
def State.halfImage (s : State V) : s.Image where
  pnode p := if p = 9 then s.store.pnode p else s.store.flushed p
  written p := by
    split
    · exact List.mem_cons_self
    · exact List.getLast_mem _

theorem Kindred.zeros {c : PNode V} (h : Kindred ⟨false, false, false, 0, zero⟩ c) :
    c = ⟨false, false, false, 0, zero⟩ := by
  obtain ⟨h1, h2, h3, h4, h5⟩ := h
  cases c
  simp_all

theorem softList_durablyLinearizable_pending : ∃ (ρ : Run (machine ℕ))
    (img : (ρ.state ρ.length).Image) (image : PLoc → PNode ℕ) (σ : Store ℕ),
    (ρ.state 18).thread 0 = some (.insert 5 50, .ret true) ∧
    (ρ.state ρ.length).thread 0 = some (.insert 9 90, .createKey true 9) ∧
    (ρ.state ρ.length).thread 1 = some (.remove 5, .destroyFlush true head .inserted 7) ∧
    ReflTransGen (Interrupted [9, 7, 8]) img.pnode image ∧ image 9 ≠ img.pnode 9 ∧
    ReflTransGen Recovers (restore 0 image fun _ => false, .scan [9, 7, 8]) (σ, .scan []) ∧
    ρ.DurablyLinearizable (State.abs ⟨σ, fun _ => none⟩) := by
  obtain ⟨ρ, hρ, hlow⟩ := exists_play 0 pendingRemove (by decide +kernel)
  have first := of_decide_eq_true (hρ.holds 18 (P := fun s =>
    s.thread 0 = some (.insert 5 50, .ret true)) (by decide +kernel))
  have last := hρ.last (P := fun s =>
    decide (s.thread 0 = some (.insert 9 90, .createKey true 9) ∧
      s.thread 1 = some (.remove 5, .destroyFlush true head .inserted 7)) &&
    (List.range 16).all (fun p => [9, 7, 8].contains p ||
      decide (s.halfImage.pnode p = ⟨false, false, false, 0, 0⟩)) &&
    (recovers (restore 0 s.halfImage.pnode fun _ => false, .scan [9, 7, 8]) [2, 2]).any
      fun (b : Store ℕ × RecoveryPc) => decide (b.1.pnode 9 ≠ s.halfImage.pnode 9) &&
        (recovers (restore 0 b.1.pnode fun _ => false, .scan [9, 7, 8])
          [2, 2, 2, 2, 3, 3, 3, 3, 4, 4, 4, 4]).any fun c => decide (c.2 = .scan []))
    (by decide +kernel)
  simp only [Bool.and_eq_true, decide_eq_true_eq, Option.any_eq_true] at last
  obtain ⟨⟨⟨h0, h1⟩, hz⟩, b, hb, hne, ⟨σ, pc⟩, hc, rfl⟩ := last
  have zeros : ∀ p, p ∉ [9, 7, 8] → (ρ.state ρ.length).halfImage.pnode p =
      ⟨false, false, false, 0, 0⟩ := by
    intro p hp
    by_cases hlt : p < 16
    · have := List.all_eq_true.1 hz p (List.mem_range.2 hlt)
      simpa [hp] using this
    · have hl := (hlow _ le_rfl).2.pline p (not_lt.1 hlt)
      have h9 : p ≠ 9 := fun he => hp (he ▸ List.mem_cons_self)
      simp [State.halfImage, h9, Store.flushed, hl, Line.contents]
  have covers : Covers 0 (ρ.state ρ.length).halfImage.pnode [9, 7, 8] fun _ => false :=
    ⟨by decide, zeros, nofun⟩
  have cut : Interrupted [9, 7, 8] (ρ.state ρ.length).halfImage.pnode b.1.pnode :=
    ⟨0, fun _ => false, b.1, b.2, covers, recovers_sound hb, fun _ => List.mem_cons_self⟩
  have covers' : Covers 0 b.1.pnode [9, 7, 8] fun _ => false := by
    refine ⟨by decide, fun p hp => ?_, nofun⟩
    have hk := interrupted_kindred (clear_run ρ _) cut p
    rw [zeros p hp] at hk
    exact hk.zeros
  have hr := recovers_sound hc
  exact ⟨ρ, (ρ.state ρ.length).halfImage, b.1.pnode, σ, first, h0, h1, .single cut, hne, hr,
    softList_durablyLinearizable ρ _ (.single cut) covers' hr⟩

end SOFT.List
