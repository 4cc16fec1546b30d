import DurableSets.Core.Chain

namespace Chain.Heap

variable {α κ : Type*} {H H' : Heap α κ} {p n c x : α} {k : κ}

structure Grows (H H' : Heap α κ) : Prop where
  linked : ∀ {x}, H.Linked x → H'.Linked x
  rank : ∀ {x}, H.Linked x → H'.rank x = H.rank x

theorem Grows.refl (H : Heap α κ) : H.Grows H := ⟨id, fun _ => rfl⟩

variable [Preorder κ]

theorem Grows.lt (g : H.Grows H') (hp : H.Linked p) (h : H.rank p < k) : H'.rank p < k :=
  lt_of_eq_of_lt (g.rank hp) h

theorem Grows.gt (g : H.Grows H') (hp : H.Linked p) (h : k < H.rank p) : k < H'.rank p :=
  lt_of_lt_of_eq h (g.rank hp).symm

theorem Steady.grows (t : Steady H H' {H.head}) (s : H.Solid) : H.Grows H' :=
  ⟨(t.linked s.good).2, fun h => t.rank (live_singleton.2 h)⟩

theorem Splice.grows (t : Splice H H' {H.head} p n c) (s : H.Solid) : H.Grows H' :=
  ⟨fun h => (t.linked s.good).2 (Or.inl h), fun h => t.rank (live_singleton.2 h)⟩

end Chain.Heap
