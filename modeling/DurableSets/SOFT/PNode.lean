import DurableSets.SOFT.Utilities

namespace SOFT

abbrev PLoc := ℕ

structure PNode (V : Type) where
  validStart : Bool
  validEnd : Bool
  deleted : Bool
  key : ℤ
  value : V
deriving DecidableEq

namespace PNode

variable {V : Type}

def alloc (p : PNode V) : Bool := !p.validStart

def isValid (p : PNode V) : Bool := p.validStart == p.validEnd && p.validEnd != p.deleted

def isDeleted (p : PNode V) : Bool := p.validStart == p.validEnd && p.validEnd == p.deleted

-- the slots that recovery() puts back into the set
def recovered (p : PNode V) : Bool := !(!p.isValid || p.isDeleted)

theorem recovered_eq (p : PNode V) : p.recovered = p.isValid := by
  rcases p with ⟨a, b, c, k, v⟩
  cases a <;> cases b <;> cases c <;> rfl

end PNode

-- what is in the way of create and destroy: the validity bit and the data of the node
structure Stamp (V : Type) where
  validity : Bool
  key : ℤ
  value : V

variable {V : Type}

def Created (n : Stamp V) (c : PNode V) : Prop :=
  c.validStart = n.validity ∧ c.validEnd = n.validity ∧ c.key = n.key ∧ c.value = n.value

def Destroyed (n : Stamp V) (c : PNode V) : Prop := Created n c ∧ c.deleted = n.validity

-- a slot that no linked node uses, whose next user will take the validity bit v
def Unused (v : Bool) (c : PNode V) : Prop :=
  c.validStart = !v ∧ c.validEnd = !v ∧ c.deleted = !v

theorem Created.isValid {n : Stamp V} {c : PNode V} (h : Created n c)
    (hd : c.deleted = !n.validity) : c.isValid = true := by
  obtain ⟨h1, h2, _, _⟩ := h
  simp [PNode.isValid, h1, h2, hd]

theorem Destroyed.not_isValid {n : Stamp V} {c : PNode V} (h : Destroyed n c) :
    ¬ c.isValid = true := by
  obtain ⟨⟨h1, h2, _, _⟩, h3⟩ := h
  simp [PNode.isValid, h1, h2, h3]

theorem Destroyed.unused {n : Stamp V} {c : PNode V} (h : Destroyed n c) :
    Unused (!n.validity) c := by
  obtain ⟨⟨h1, h2, _, _⟩, h3⟩ := h
  simp [Unused, h1, h2, h3]

-- what recovery() stores in a slot that it frees is not flushed
def Spare (v : Bool) (l : Line (PNode V)) : Prop :=
  Unused v l.cur ∧ l.All fun c => c.validEnd = (!v) ∧ c.deleted = !v

theorem spare_of_unused {v : Bool} {l : Line (PNode V)} (h : l.All (Unused v)) : Spare v l :=
  ⟨h.cur, fun c hc => (h c hc).2⟩

theorem Spare.not_isValid {v : Bool} {l : Line (PNode V)} {c : PNode V} (h : Spare v l)
    (hc : c ∈ l.contents) : ¬ c.isValid = true := by
  obtain ⟨h1, h2⟩ := h.2 c hc
  simp [PNode.isValid, h1, h2]

def Matches (n : Stamp V) (l : Line (PNode V)) : NodeState → Prop
  | .intendToInsert => l.All fun c =>
      c.deleted = (!n.validity) ∧ (c.validEnd = n.validity → Created n c)
  | .inserted => l.All fun c => Created n c ∧ c.deleted = !n.validity
  | .intendToDelete => l.All (Created n)
  | .deleted => l.All (Destroyed n)

-- what a helper may rely on while others write to the same PNode
structure Progress (n : Stamp V) (a b : Line (PNode V)) : Prop where
  validStart : a.cur.validStart = n.validity → b.cur.validStart = n.validity
  key : a.cur.key = n.key → b.cur.key = n.key
  value : a.cur.value = n.value → b.cur.value = n.value
  validEnd : a.cur.validEnd = n.validity → b.cur.validEnd = n.validity
  deleted : a.cur.deleted = n.validity → b.cur.deleted = n.validity
  created : a.All (Created n) → b.All (Created n)
  destroyed : a.All (Destroyed n) → b.All (Destroyed n)

variable {n : Stamp V} {l : Line (PNode V)} {m : PNode V} {s : NodeState} {v : Bool}

theorem Progress.refl (n : Stamp V) (l : Line (PNode V)) : Progress n l l :=
  ⟨id, id, id, id, id, id, id⟩

theorem progress_flush (n : Stamp V) (l : Line (PNode V)) : Progress n l l.flush :=
  ⟨id, id, id, id, id, Line.All.flush, Line.All.flush⟩

theorem matches_flush (h : Matches n l s) : Matches n l.flush s := by
  cases s <;> exact Line.All.flush h

-- a store of create or destroy: it sets one field to what the node says
structure Fills (n : Stamp V) (a b : PNode V) : Prop where
  validStart : b.validStart = a.validStart ∨ b.validStart = n.validity
  validEnd : b.validEnd = a.validEnd ∨ b.validEnd = n.validity
  key : b.key = a.key ∨ b.key = n.key
  value : b.value = a.value ∨ b.value = n.value
  deleted : b.deleted = a.deleted ∨ b.deleted = n.validity

theorem Fills.created {a b : PNode V} (h : Fills n a b) (hc : Created n a) : Created n b := by
  obtain ⟨h1, h2, h3, h4⟩ := hc
  exact ⟨h.validStart.elim (·.trans h1) id, h.validEnd.elim (·.trans h2) id,
    h.key.elim (·.trans h3) id, h.value.elim (·.trans h4) id⟩

theorem Fills.destroyed {a b : PNode V} (h : Fills n a b) (hc : Destroyed n a) :
    Destroyed n b := ⟨h.created hc.1, h.deleted.elim (·.trans hc.2) id⟩

theorem Fills.progress (h : Fills n l.cur m) : Progress n l (l.write m) where
  validStart hc := h.validStart.elim (·.trans hc) id
  key hc := h.key.elim (·.trans hc) id
  value hc := h.value.elim (·.trans hc) id
  validEnd hc := h.validEnd.elim (·.trans hc) id
  deleted hc := h.deleted.elim (·.trans hc) id
  created hc := hc.write (h.created hc.cur)
  destroyed hc := hc.write (h.destroyed hc.cur)

theorem Fills.matches_create (h : Fills n l.cur m) (hd : m.deleted = l.cur.deleted)
    (he : m.validEnd = l.cur.validEnd ∨ Created n m) (hm : Matches n l s) :
    Matches n (l.write m) s := by
  cases s with
  | intendToInsert =>
    refine Line.All.write hm ⟨hd.trans hm.cur.1, fun hv => ?_⟩
    rcases he with he | he
    · exact h.created (hm.cur.2 (he.symm.trans hv))
    · exact he
  | inserted => exact Line.All.write hm ⟨h.created hm.cur.1, hd.trans hm.cur.2⟩
  | intendToDelete => exact Line.All.write hm (h.created hm.cur)
  | deleted => exact Line.All.write hm (h.destroyed hm.cur)

theorem Fills.matches_destroy (h : Fills n l.cur m)
    (hs : s = .intendToDelete ∨ s = .deleted) (hm : Matches n l s) :
    Matches n (l.write m) s := by
  rcases hs with rfl | rfl
  · exact Line.All.write hm (h.created hm.cur)
  · exact Line.All.write hm (h.destroyed hm.cur)

theorem spare_of_deleted (h : Matches n l .deleted) : Spare (!n.validity) l :=
  spare_of_unused fun c hc => (h c hc).unused

theorem matches_of_spare (h : Spare n.validity l) : Matches n l .intendToInsert := by
  intro c hc
  obtain ⟨h2, h3⟩ := h.2 c hc
  refine ⟨h3, fun hv => ?_⟩
  rw [h2] at hv
  simp at hv

theorem matches_inserted (h : Matches n l .intendToInsert) (hc : l.All (Created n)) :
    Matches n l .inserted := fun c hm => ⟨hc c hm, (h c hm).1⟩

theorem matches_intendToDelete (h : Matches n l .inserted) : Matches n l .intendToDelete :=
  fun c hm => (h c hm).1

theorem Matches.key {c : PNode V} (h : Matches n l s) (hs : s ≠ .deleted) (hc : c ∈ l.contents)
    (hv : c.isValid = true) : c.key = n.key ∧ c.value = n.value := by
  cases s with
  | intendToInsert =>
    obtain ⟨h1, h2⟩ := h c hc
    have hve : c.validEnd = n.validity := by
      simp only [PNode.isValid, h1, Bool.and_eq_true, bne_iff_ne, ne_eq] at hv
      cases hcv : c.validEnd <;> cases hn : n.validity <;> simp_all
    obtain ⟨_, _, h3, h4⟩ := h2 hve
    exact ⟨h3, h4⟩
  | inserted =>
    obtain ⟨⟨_, _, h3, h4⟩, _⟩ := h c hc
    exact ⟨h3, h4⟩
  | intendToDelete =>
    obtain ⟨_, _, h3, h4⟩ := h c hc
    exact ⟨h3, h4⟩
  | deleted => exact absurd rfl hs

theorem Matches.not_isValid {c : PNode V} (h : Matches n l .deleted) (hc : c ∈ l.contents) :
    ¬ c.isValid = true := (h c hc).not_isValid

end SOFT
