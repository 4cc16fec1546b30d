import DurableSets.Core.Chain
import Mathlib.Data.List.Pairwise

namespace Chain.Heap

variable {α κ : Type*} {H : Heap α κ} {a b x y : α} {xs : List α}

def Path (H : Heap α κ) : α → List α → α → Prop
  | a, [], b => H.succ a = some b
  | a, x :: xs, b => H.succ a = some x ∧ Path H x xs b

theorem Path.reach (h : H.Path a xs b) : H.Reach a b := by
  induction xs generalizing a with
  | nil => exact Reach.single h
  | cons x xs ih => exact Reach.head h.1 (ih h.2)

theorem Path.mem_reach (h : H.Path a xs b) (hx : x ∈ xs) :
    ∃ y, H.succ a = some y ∧ H.Reach y x := by
  induction xs generalizing a with
  | nil => cases hx
  | cons y xs ih =>
    rcases List.mem_cons.1 hx with rfl | hx
    · exact ⟨x, h.1, Reach.refl x⟩
    · obtain ⟨z, hz, hr⟩ := ih h.2 hx
      exact ⟨y, h.1, Reach.head hz hr⟩

theorem exists_path (h : H.Reach a b) (hne : a ≠ b) : ∃ xs, H.Path a xs b ∧ b ∉ xs := by
  induction h using Relation.ReflTransGen.head_induction_on with
  | refl => exact absurd rfl hne
  | @head a c hs _ ih =>
    by_cases hc : c = b
    · exact ⟨[], hc ▸ hs, nofun⟩
    · obtain ⟨xs, hp, hb⟩ := ih hc
      refine ⟨c :: xs, ⟨hs, hp⟩, fun hm => ?_⟩
      rcases List.mem_cons.1 hm with rfl | hm
      · exact hc rfl
      · exact hb hm

theorem Path.mem_iff (h : H.Path a xs b) (hb : H.succ b = none) (hm : b ∉ xs) :
    x ∈ xs ↔ (∃ y, H.succ a = some y ∧ H.Reach y x) ∧ x ≠ b := by
  constructor
  · intro hx
    refine ⟨h.mem_reach hx, ?_⟩
    rintro rfl
    exact hm hx
  · rintro ⟨⟨y, hy, hr⟩, hne⟩
    induction xs generalizing a y with
    | nil =>
      have h : H.succ a = some b := h
      obtain rfl := Option.some.inj (hy.symm.trans h)
      rcases hr.eq_or_succ with rfl | ⟨c, hc, _⟩
      · exact absurd rfl hne
      · exact nomatch hb.symm.trans hc
    | cons z xs ih =>
      obtain rfl := Option.some.inj (hy.symm.trans h.1)
      rcases hr.eq_or_succ with rfl | ⟨c, hc, hr⟩
      · exact List.mem_cons_self
      · exact List.mem_cons_of_mem y (ih h.2 (fun h => hm (List.mem_cons_of_mem y h)) c hc hr)

theorem Path.pairwise {R : Set α} [Preorder κ] (o : H.Ordered R) (ha : H.Live R a)
    (h : H.Path a xs b) : (xs.map H.rank).Pairwise (· < ·) := by
  induction xs generalizing a with
  | nil => exact List.Pairwise.nil
  | cons x xs ih =>
    have hx := ha.succ h.1
    refine List.pairwise_cons.2 ⟨fun k hk => ?_, ih hx h.2⟩
    obtain ⟨y, hy, rfl⟩ := List.mem_map.1 hk
    obtain ⟨z, hz, hr⟩ := h.2.mem_reach hy
    exact (o hx hz).trans_le (o.le (hx.succ hz) hr)

theorem exists_path_ordered {R : Set α} [Preorder κ] (o : H.Ordered R) (ha : H.Live R a)
    (h : H.Reach a b) (hne : a ≠ b) (hb : H.succ b = none) :
    ∃ xs, H.Path a xs b ∧ (xs.map H.rank).Pairwise (· < ·) ∧
      ∀ x, x ∈ xs ↔ H.Reach a x ∧ x ≠ a ∧ x ≠ b := by
  obtain ⟨xs, hp, hm⟩ := exists_path h hne
  refine ⟨xs, hp, hp.pairwise o ha, fun x => ?_⟩
  rw [hp.mem_iff hb hm]
  constructor
  · rintro ⟨⟨y, hy, hr⟩, hxb⟩
    refine ⟨Reach.head hy hr, ?_, hxb⟩
    rintro rfl
    exact o.acyclic ha hy hr
  · rintro ⟨hr, hxa, hxb⟩
    refine ⟨?_, hxb⟩
    rcases hr.eq_or_succ with rfl | ⟨y, hy, hr⟩
    · exact absurd rfl hxa
    · exact ⟨y, hy, hr⟩

theorem eq_of_pairwise {κ : Type*} [PartialOrder κ] {f : α → κ} {ys : List α}
    (hx : (xs.map f).Pairwise (· < ·)) (hy : (ys.map f).Pairwise (· < ·))
    (h : ∀ x, x ∈ xs ↔ x ∈ ys) : xs = ys := by
  rw [List.pairwise_map] at hx hy
  have nodup : ∀ {zs : List α}, zs.Pairwise (fun a b => f a < f b) → zs.Nodup := fun hz =>
    hz.imp fun hlt he => absurd (congrArg f he) hlt.ne
  refine List.Perm.eq_of_pairwise (fun a b _ _ hab hba => absurd hab hba.asymm) hx hy ?_
  exact (List.perm_ext_iff_of_nodup (nodup hx) (nodup hy)).2 h

theorem pairwise_ends {f : α → ℤ} (hs : (xs.map f).Pairwise (· < ·)) (ha : ∀ x ∈ xs, f a < f x)
    (hb : ∀ x ∈ xs, f x < f b) (hab : f a < f b) :
    ((a :: xs ++ [b]).map f).Pairwise (· < ·) := by
  rw [List.cons_append, List.map_cons, List.map_append, List.map_singleton, List.pairwise_cons,
    List.pairwise_append]
  refine ⟨fun k hk => ?_, hs, List.pairwise_singleton _ _, fun k hk k' hk' => ?_⟩
  · rcases List.mem_append.1 hk with hk | hk
    · obtain ⟨x, hx, rfl⟩ := List.mem_map.1 hk
      exact ha x hx
    · obtain rfl := List.mem_singleton.1 hk
      exact hab
  · obtain ⟨x, hx, rfl⟩ := List.mem_map.1 hk
    obtain rfl := List.mem_singleton.1 hk'
    exact hb x hx

end Chain.Heap
