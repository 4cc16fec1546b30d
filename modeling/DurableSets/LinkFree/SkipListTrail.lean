import DurableSets.LinkFree.SkipListHistory

namespace LinkFree.SkipList

open Chain

variable {V : Type} {σ σ' : Store V} {L L' : Set Cursor} {x y p n c d slot : Loc}
  {i j l m G level : ℕ} {op : SetOp V} {pc pc' : Pc} {path : Path} {q : Ptr}

/-! ### The nodes from which a call reads level 0 -/

def ValidCtx.anchors (n : Loc) : ValidCtx → List Loc
  | .removing => [n]
  | _ => []

-- each of them was linked at level 0 at some moment of the call
def Pc.anchors : Pc → List Loc
  | .searchDown _ p _ => [p]
  | .searchTest 0 p c _ => [p, c]
  | .searchTest (_ + 1) p _ _ => [p]
  | .searchNext 0 p c _ => [p, c]
  | .searchNext (_ + 1) p _ _ => [p]
  | .validLoad d n => d.anchors n
  | .validStore d n _ => d.anchors n
  | .markLoad n _ => [n]
  | .markCas n _ _ => [n]
  | .containsDown _ p => [p]
  | .containsTest 0 p c => [p, c]
  | .containsTest (_ + 1) p _ => [p]
  | .containsPass 0 p c => [p, c]
  | .containsPass (_ + 1) p _ => [p]
  | .containsNext 0 p c => [p, c]
  | .containsNext (_ + 1) p _ => [p]
  | _ => []

theorem mem_anchors_test {z : Loc} (h : z ∈ (Pc.searchTest l p c path).anchors) :
    z = p ∨ (l = 0 ∧ z = c) := by
  cases l with
  | zero => exact (List.mem_pair.1 h).imp_right fun h => ⟨rfl, h⟩
  | succ l => exact Or.inl (List.mem_singleton.1 h)

theorem mem_anchors_pass {z : Loc} (h : z ∈ (Pc.containsTest l p c).anchors) :
    z = p ∨ (l = 0 ∧ z = c) := by
  cases l with
  | zero => exact (List.mem_pair.1 h).imp_right fun h => ⟨rfl, h⟩
  | succ l => exact Or.inl (List.mem_singleton.1 h)

theorem anchor_pred (l : ℕ) (p c : Loc) (path : Path) : p ∈ (Pc.searchTest l p c path).anchors := by
  cases l <;> exact List.mem_cons_self

theorem anchor_next (l : ℕ) (p c : Loc) (path : Path) :
    (Pc.searchNext l p c path).anchors = (Pc.searchTest l p c path).anchors := by
  cases l <;> rfl

theorem anchor_containsPred (l : ℕ) (p c : Loc) : p ∈ (Pc.containsTest l p c).anchors := by
  cases l <;> exact List.mem_cons_self

theorem anchor_containsPass (l : ℕ) (p c : Loc) :
    (Pc.containsPass l p c).anchors = (Pc.containsTest l p c).anchors := by
  cases l <;> rfl

theorem anchor_containsNext (l : ℕ) (p c : Loc) :
    (Pc.containsNext l p c).anchors = (Pc.containsTest l p c).anchors := by
  cases l <;> rfl

theorem anchors_findDone (c : FindCtx) (p d : Loc) (path : Path) (l : ℕ) :
    (findDone c p d path l).anchors = [] := by
  rcases l with _ | l <;> cases c <;> rfl

theorem MemInv.linked_base (hm : MemInv σ 1 L) (hx : (x, l) ∈ L) (hd : ¬ σ.dead l x) :
    (σ.level 0).Linked x :=
  hm.linked_of_alive (hm.base hx) Nat.one_pos (hm.alive_below hx (Nat.zero_le l) hd)

theorem anchors_step (hm : MemInv σ 1 L) (f : Fit σ L op pc)
    (hn : next σ op slot level pc = some (σ', pc')) :
    ∀ a ∈ pc'.anchors, (∃ b ∈ pc.anchors, (σ.level 0).Reach b a) ∨ (σ.level 0).Linked a := by
  intro a ha
  have keep : a ∈ pc.anchors →
      (∃ b ∈ pc.anchors, (σ.level 0).Reach b a) ∨ (σ.level 0).Linked a :=
    fun h => Or.inl ⟨a, h, Heap.Reach.refl a⟩
  have now : ∀ {z l}, a = z → (z, l) ∈ L → ¬ σ.dead l z →
      (∃ b ∈ pc.anchors, (σ.level 0).Reach b a) ∨ (σ.level 0).Linked a := by
    rintro z l rfl hl hd
    exact Or.inr (hm.linked_base hl hd)
  cases pc with
  | searchDown l p path =>
    simp only [next] at hn
    obtain ⟨s, hs, he⟩ := Option.map_eq_some_iff.1 hn
    obtain ⟨rfl, rfl⟩ := Prod.mk.inj he
    rcases mem_anchors_test ha with rfl | ⟨rfl, rfl⟩
    · exact keep (by simp [Pc.anchors])
    · exact Or.inl ⟨p, by simp [Pc.anchors], Heap.Reach.single hs⟩
  | searchTest l p c path =>
    have hcl := f.refs (c, l) (by simp [Pc.refs])
    simp only [next] at hn
    split at hn
    · obtain ⟨rfl, rfl⟩ := Prod.mk.inj (Option.some.inj hn)
      rw [anchor_next] at ha
      exact keep ha
    · next hmk =>
      split at hn <;> obtain ⟨rfl, rfl⟩ := Prod.mk.inj (Option.some.inj hn)
      · cases l with
        | zero =>
          cases op with
          | insert k v =>
            simp only [searchDone, afterSearch] at ha
            split at ha <;> simp [Pc.anchors, ValidCtx.anchors] at ha
          | remove k =>
            simp only [searchDone, afterSearch] at ha
            split at ha
            · exact now (by simpa [Pc.anchors, ValidCtx.anchors] using ha) hcl hmk
            · simp [Pc.anchors] at ha
          | contains k => simp [searchDone, afterSearch, Pc.anchors] at ha
        | succ l =>
          obtain rfl : a = p := by simpa [searchDone, Pc.anchors] using ha
          exact keep (anchor_pred _ _ _ _)
      · rw [anchor_next] at ha
        rcases mem_anchors_test ha with rfl | ⟨_, rfl⟩ <;> exact now rfl hcl hmk
  | searchNext l p c path =>
    simp only [next] at hn
    obtain ⟨s, hs, he⟩ := Option.map_eq_some_iff.1 hn
    obtain ⟨rfl, rfl⟩ := Prod.mk.inj he
    rcases mem_anchors_test ha with rfl | ⟨rfl, rfl⟩
    · refine keep ?_
      rw [anchor_next]
      exact anchor_pred _ _ _ _
    · exact Or.inl ⟨c, by simp [Pc.anchors], Heap.Reach.single hs⟩
  | findDown c l p path =>
    simp only [next] at hn
    split at hn
    · obtain ⟨rfl, rfl⟩ := Prod.mk.inj (Option.some.inj hn)
      cases ha
    · obtain ⟨s, _, he⟩ := Option.map_eq_some_iff.1 hn
      obtain ⟨rfl, rfl⟩ := Prod.mk.inj he
      cases ha
  | findLoad c l p d s path =>
    simp only [next] at hn
    split at hn
    · obtain ⟨e, _, he⟩ := Option.map_eq_some_iff.1 hn
      obtain ⟨rfl, rfl⟩ := Prod.mk.inj he
      split at ha <;> cases ha
    · split at hn
      · obtain ⟨rfl, rfl⟩ := Prod.mk.inj (Option.some.inj hn)
        split at ha
        · rw [anchors_findDone] at ha
          cases ha
        · cases ha
      · obtain ⟨e, _, he⟩ := Option.map_eq_some_iff.1 hn
        obtain ⟨rfl, rfl⟩ := Prod.mk.inj he
        cases ha
  | findCas c l p d s path =>
    simp only [next] at hn
    split at hn <;> obtain ⟨rfl, rfl⟩ := Prod.mk.inj (Option.some.inj hn)
    · rw [anchors_findDone] at ha
      cases ha
    · cases ha
  | deleteLoad d n =>
    simp only [next] at hn
    split at hn <;> obtain ⟨rfl, rfl⟩ := Prod.mk.inj (Option.some.inj hn)
    · rcases d with ⟨c, _⟩ | r | _
      · cases ha
      · cases r <;> cases ha
      · cases ha
    · cases ha
  | deleteFlush d n =>
    obtain ⟨rfl, rfl⟩ := Prod.mk.inj (Option.some.inj hn)
    cases ha
  | deleteStore d n =>
    obtain ⟨rfl, rfl⟩ := Prod.mk.inj (Option.some.inj hn)
    rcases d with ⟨c, _⟩ | r | _
    · cases ha
    · cases r <;> cases ha
    · cases ha
  | validLoad d n =>
    simp only [next] at hn
    split at hn <;> obtain ⟨rfl, rfl⟩ := Prod.mk.inj (Option.some.inj hn)
    · cases d with
      | removing => exact keep ha
      | _ => cases ha
    · exact keep ha
  | validStore d n old =>
    obtain ⟨rfl, rfl⟩ := Prod.mk.inj (Option.some.inj hn)
    cases d with
    | removing => exact keep ha
    | _ => cases ha
  | insertLoad d n =>
    simp only [next] at hn
    split at hn <;> obtain ⟨rfl, rfl⟩ := Prod.mk.inj (Option.some.inj hn)
    · cases d with
      | linked path =>
        simp only [afterInsert, upper] at ha
        split at ha <;> cases ha
      | _ => cases ha
    · cases ha
  | insertStore d n =>
    obtain ⟨rfl, rfl⟩ := Prod.mk.inj (Option.some.inj hn)
    cases d with
    | linked path =>
      simp only [afterInsert, upper] at ha
      split at ha <;> cases ha
    | _ => cases ha
  | initValue path n l =>
    cases op with
    | insert k v =>
      obtain ⟨rfl, rfl⟩ := Prod.mk.inj (Option.some.inj hn)
      cases ha
    | remove k => cases hn
    | contains k => cases hn
  | initNext path n l =>
    simp only [next] at hn
    obtain ⟨e, _, he⟩ := Option.map_eq_some_iff.1 hn
    obtain ⟨rfl, rfl⟩ := Prod.mk.inj he
    split at ha <;> cases ha
  | linkCas path n =>
    simp only [next] at hn
    obtain ⟨e, _, he⟩ := Option.map_eq_some_iff.1 hn
    split at he <;> obtain ⟨rfl, rfl⟩ := Prod.mk.inj he <;> cases ha
  | lostFree n =>
    obtain ⟨rfl, rfl⟩ := Prod.mk.inj (Option.some.inj hn)
    obtain rfl : a = head := by simpa [retry, Pc.anchors] using ha
    exact Or.inr (Heap.Reach.refl _)
  | upperLoad path n l =>
    simp only [next] at hn
    split at hn
    · obtain ⟨rfl, rfl⟩ := Prod.mk.inj (Option.some.inj hn)
      cases ha
    · obtain ⟨e, _, he⟩ := Option.map_eq_some_iff.1 hn
      obtain ⟨rfl, rfl⟩ := Prod.mk.inj he
      split at ha <;> cases ha
  | upperCas path n l q =>
    simp only [next] at hn
    obtain ⟨e, _, he⟩ := Option.map_eq_some_iff.1 hn
    split at he <;> obtain ⟨rfl, rfl⟩ := Prod.mk.inj he <;> cases ha
  | upperLink path n l =>
    simp only [next] at hn
    obtain ⟨e, _, he⟩ := Option.map_eq_some_iff.1 hn
    split at he <;> obtain ⟨rfl, rfl⟩ := Prod.mk.inj he
    · simp only [upper] at ha
      split at ha <;> cases ha
    · cases ha
  | markLoad n l =>
    simp only [next] at hn
    split at hn <;> obtain ⟨rfl, rfl⟩ := Prod.mk.inj (Option.some.inj hn)
    · cases l with
      | zero => cases ha
      | succ l => exact keep ha
    · exact keep ha
  | markCas n l q =>
    simp only [next] at hn
    split at hn <;> obtain ⟨rfl, rfl⟩ := Prod.mk.inj (Option.some.inj hn)
    · cases l with
      | zero => cases ha
      | succ l => exact keep ha
    · exact keep ha
  | containsDown l p =>
    simp only [next] at hn
    obtain ⟨s, hs, he⟩ := Option.map_eq_some_iff.1 hn
    obtain ⟨rfl, rfl⟩ := Prod.mk.inj he
    rcases mem_anchors_pass ha with rfl | ⟨rfl, rfl⟩
    · exact keep (by simp [Pc.anchors])
    · exact Or.inl ⟨p, by simp [Pc.anchors], Heap.Reach.single hs⟩
  | containsTest l p c =>
    simp only [next] at hn
    split at hn
    · obtain ⟨rfl, rfl⟩ := Prod.mk.inj (Option.some.inj hn)
      rw [anchor_containsPass] at ha
      exact keep ha
    · split at hn
      · obtain ⟨rfl, rfl⟩ := Prod.mk.inj (Option.some.inj hn)
        cases ha
      · cases l with
        | zero =>
          obtain ⟨rfl, rfl⟩ := Prod.mk.inj (Option.some.inj hn)
          cases ha
        | succ l =>
          obtain ⟨rfl, rfl⟩ := Prod.mk.inj (Option.some.inj hn)
          exact keep ha
  | containsPass l p c =>
    simp only [next] at hn
    split at hn
    · split at hn
      · obtain ⟨rfl, rfl⟩ := Prod.mk.inj (Option.some.inj hn)
        cases ha
      · obtain ⟨rfl, rfl⟩ := Prod.mk.inj (Option.some.inj hn)
        rw [anchor_containsNext, ← anchor_containsPass] at ha
        exact keep ha
    · next hmk =>
      obtain ⟨rfl, rfl⟩ := Prod.mk.inj (Option.some.inj hn)
      rw [anchor_containsNext] at ha
      have hcl := f.refs (c, l) (by simp [Pc.refs])
      rcases mem_anchors_pass ha with rfl | ⟨_, rfl⟩ <;> exact now rfl hcl hmk
  | containsNext l p c =>
    simp only [next] at hn
    obtain ⟨s, hs, he⟩ := Option.map_eq_some_iff.1 hn
    obtain ⟨rfl, rfl⟩ := Prod.mk.inj he
    rcases mem_anchors_pass ha with rfl | ⟨rfl, rfl⟩
    · refine keep ?_
      rw [anchor_containsNext]
      exact anchor_containsPred _ _ _
    · exact Or.inl ⟨c, by simp [Pc.anchors], Heap.Reach.single hs⟩
  | ret r => cases hn
  | _ =>
    obtain ⟨rfl, rfl⟩ := Prod.mk.inj (Option.some.inj hn)
    cases ha

theorem Fit.anchors_live (hm : MemInv σ 1 L) (f : Fit σ L op pc) (ha : x ∈ pc.anchors) :
    (x, 0) ∈ L := by
  have of : ∀ l, (x, l) ∈ pc.refs → (x, 0) ∈ L := fun l h => hm.base (f.refs _ h)
  cases pc with
  | searchDown l p path => exact of l (by simp_all [Pc.anchors, Pc.refs])
  | searchTest l p c path =>
    refine of l ?_
    rcases mem_anchors_test ha with rfl | ⟨_, rfl⟩ <;> simp [Pc.refs]
  | searchNext l p c path =>
    rw [anchor_next] at ha
    refine of l ?_
    rcases mem_anchors_test ha with rfl | ⟨_, rfl⟩ <;> simp [Pc.refs]
  | validLoad d n => cases d <;> simp_all [Pc.anchors, ValidCtx.anchors, Pc.refs, ValidCtx.refs]
  | validStore d n old => cases d <;> simp_all [Pc.anchors, ValidCtx.anchors, Pc.refs, ValidCtx.refs]
  | markLoad n l => exact of 0 (by simp_all [Pc.anchors, Pc.refs])
  | markCas n l q => exact of 0 (by simp_all [Pc.anchors, Pc.refs])
  | containsDown l p => exact of l (by simp_all [Pc.anchors, Pc.refs])
  | containsTest l p c =>
    refine of l ?_
    rcases mem_anchors_pass ha with rfl | ⟨_, rfl⟩ <;> simp [Pc.refs]
  | containsPass l p c =>
    rw [anchor_containsPass] at ha
    refine of l ?_
    rcases mem_anchors_pass ha with rfl | ⟨_, rfl⟩ <;> simp [Pc.refs]
  | containsNext l p c =>
    rw [anchor_containsNext] at ha
    refine of l ?_
    rcases mem_anchors_pass ha with rfl | ⟨_, rfl⟩ <;> simp [Pc.refs]
  | _ => cases ha

-- a remove that steps over a marked node of its key at level 0 finds the mark in NVRAM
def State.Careful (s : State V) (e : Event (SetOp V)) : Prop :=
  ∀ t k p c path, e = .tau t → s.thread t = some (.remove k, .searchTest 0 p c path) →
    s.store.dead 0 c → (s.store.node c).key = k → AllMarked (s.store.line c)

def Careful (ρ : Run (machine V)) : Prop := ∀ m < ρ.length, (ρ.state m).Careful (ρ.event m)

section Trail

variable (ρ : Run (machine V)) (k : ℤ) (i m : ℕ)

def ValidAt (x : Loc) : Prop :=
  ∃ j, i < j ∧ j ≤ m ∧ AllValid ((ρ.state j).store.line x)

def MarkedAt (x : Loc) : Prop :=
  ∃ j, i < j ∧ j ≤ m ∧ AllMarked ((ρ.state j).store.line x)

def Absent : Prop :=
  Missing (heaps ρ) (k : WithBot ℤ) i m ∨
    ∃ x, Dying (heaps ρ) (k : WithBot ℤ) i m x ∧ (Careful ρ → MarkedAt ρ i m x)

def Below (x : Loc) : Prop := rank (ρ.state m).store x < (k : WithBot ℤ) ∨ Absent ρ k i m

def UpTo (x : Loc) : Prop := rank (ρ.state m).store x ≤ (k : WithBot ℤ) ∨ Absent ρ k i m

def Settled (x : Loc) : Prop := Found (heaps ρ) (k : WithBot ℤ) i m x ∧ ValidAt ρ i m x

def Removed (x : Loc) : Prop := Found (heaps ρ) (k : WithBot ℤ) i m x ∧ MarkedAt ρ i m x

def FindTrail : FindCtx → Prop
  | .inInsert n _ => Settled ρ k i m n
  | .inRemove n => Removed ρ k i m n

def DeleteTrail (x : Loc) : DeleteCtx → Prop
  | .find c _ _ _ _ => FindTrail ρ k i m c
  | .remove r => if r then Found (heaps ρ) (k : WithBot ℤ) i m x
      else Dying (heaps ρ) (k : WithBot ℤ) i m x
  | .contains => Dying (heaps ρ) (k : WithBot ℤ) i m x

def ValidTrail (x : Loc) : ValidCtx → Prop
  | .lost => True
  | .removing => True
  | _ => Found (heaps ρ) (k : WithBot ℤ) i m x

def RetTrail (r : Bool) : SetOp V → Prop
  | .insert _ _ => ∃ x, Settled ρ k i m x
  | .remove _ => if r then ∃ x, Removed ρ k i m x else Absent ρ k i m
  | .contains _ => if r then ∃ x, Settled ρ k i m x else Absent ρ k i m

def Trail (op : SetOp V) : Pc → Prop
  | .searchTest 0 _ c _ => op.IsRemove → UpTo ρ op.key i m c
  | .searchNext 0 _ c _ => op.IsRemove → Below ρ op.key i m c
  | .findDown c _ _ _ => FindTrail ρ op.key i m c
  | .findLoad c _ _ _ _ _ => FindTrail ρ op.key i m c
  | .findCas c _ _ _ _ _ => FindTrail ρ op.key i m c
  | .deleteLoad d n => DeleteTrail ρ op.key i m n d
  | .deleteFlush d n => DeleteTrail ρ op.key i m n d
  | .deleteStore d n => DeleteTrail ρ op.key i m n d
  | .validLoad d n => ValidTrail ρ op.key i m n d
  | .validStore d n _ => ValidTrail ρ op.key i m n d
  | .insertLoad _ n => Found (heaps ρ) (op.key : WithBot ℤ) i m n
  | .insertFlush _ n => Found (heaps ρ) (op.key : WithBot ℤ) i m n
  | .insertStore _ n => Found (heaps ρ) (op.key : WithBot ℤ) i m n
  | .upperLoad _ n _ => Settled ρ op.key i m n
  | .upperCas _ n _ _ => Settled ρ op.key i m n
  | .upperLink _ n _ => Settled ρ op.key i m n
  | .removeFree n => Removed ρ op.key i m n
  | .containsTest 0 _ c => UpTo ρ op.key i m c
  | .containsPass 0 _ c => UpTo ρ op.key i m c
  | .containsNext 0 _ c => Below ρ op.key i m c
  | .ret r => RetTrail ρ op.key i m r op
  | _ => True

end Trail

section Grow

variable {ρ : Run (machine V)} {k : ℤ} {r : Bool}

theorem ValidAt.succ (h : ValidAt ρ i m x) : ValidAt ρ i (m + 1) x := by
  obtain ⟨j, h1, h2, h3⟩ := h
  exact ⟨j, h1, by omega, h3⟩

theorem MarkedAt.succ (h : MarkedAt ρ i m x) : MarkedAt ρ i (m + 1) x := by
  obtain ⟨j, h1, h2, h3⟩ := h
  exact ⟨j, h1, by omega, h3⟩

theorem Absent.succ (h : Absent ρ k i m) : Absent ρ k i (m + 1) := by
  rcases h with h | ⟨x, h, h'⟩
  · exact Or.inl (h.mono (Nat.le_succ m))
  · exact Or.inr ⟨x, h.mono (Nat.le_succ m), fun hc => (h' hc).succ⟩

theorem Below.succ (h : Below ρ k i m x)
    (hr : rank (ρ.state (m + 1)).store x = rank (ρ.state m).store x) : Below ρ k i (m + 1) x :=
  h.imp (fun h => hr.symm ▸ h) Absent.succ

theorem UpTo.succ (h : UpTo ρ k i m x)
    (hr : rank (ρ.state (m + 1)).store x = rank (ρ.state m).store x) : UpTo ρ k i (m + 1) x :=
  h.imp (fun h => hr.symm ▸ h) Absent.succ

theorem Settled.succ (h : Settled ρ k i m x) : Settled ρ k i (m + 1) x :=
  ⟨Found.succ h.1, h.2.succ⟩

theorem Removed.succ (h : Removed ρ k i m x) : Removed ρ k i (m + 1) x :=
  ⟨Found.succ h.1, h.2.succ⟩

theorem FindTrail.succ {c : FindCtx} (h : FindTrail ρ k i m c) : FindTrail ρ k i (m + 1) c := by
  cases c with
  | inInsert n l => exact Settled.succ h
  | inRemove n => exact Removed.succ h

theorem DeleteTrail.succ {d : DeleteCtx} (h : DeleteTrail ρ k i m x d) :
    DeleteTrail ρ k i (m + 1) x d := by
  cases d with
  | find c p d s path => exact FindTrail.succ h
  | remove r =>
    cases r with
    | true => exact Found.succ h
    | false => exact Dying.succ h
  | contains => exact Dying.succ h

theorem ValidTrail.succ {d : ValidCtx} (h : ValidTrail ρ k i m x d) :
    ValidTrail ρ k i (m + 1) x d := by
  cases d with
  | lost => trivial
  | removing => trivial
  | _ => exact Found.succ h

theorem RetTrail.succ (h : RetTrail ρ k i m r op) : RetTrail ρ k i (m + 1) r op := by
  cases op with
  | insert k' v => exact h.imp fun _ => Settled.succ
  | remove k' =>
    cases r with
    | true => exact Exists.imp (fun _ => Removed.succ) h
    | false => exact Absent.succ h
  | contains k' =>
    cases r with
    | true => exact Exists.imp (fun _ => Settled.succ) h
    | false => exact Absent.succ h

theorem Trail.succ (h : Trail ρ i m op pc)
    (hr : ∀ a ∈ pc.anchors, rank (ρ.state (m + 1)).store a = rank (ρ.state m).store a) :
    Trail ρ i (m + 1) op pc := by
  cases pc with
  | searchTest l p c path =>
    cases l with
    | zero => exact fun hrem => UpTo.succ (h hrem) (hr c (by simp [Pc.anchors]))
    | succ l => trivial
  | searchNext l p c path =>
    cases l with
    | zero => exact fun hrem => Below.succ (h hrem) (hr c (by simp [Pc.anchors]))
    | succ l => trivial
  | findDown c l p path => exact FindTrail.succ h
  | findLoad c l p d s path => exact FindTrail.succ h
  | findCas c l p d s path => exact FindTrail.succ h
  | deleteLoad d n => exact DeleteTrail.succ h
  | deleteFlush d n => exact DeleteTrail.succ h
  | deleteStore d n => exact DeleteTrail.succ h
  | validLoad d n => exact ValidTrail.succ h
  | validStore d n old => exact ValidTrail.succ h
  | insertLoad d n => exact Found.succ h
  | insertFlush d n => exact Found.succ h
  | insertStore d n => exact Found.succ h
  | upperLoad path n l => exact Settled.succ h
  | upperCas path n l q => exact Settled.succ h
  | upperLink path n l => exact Settled.succ h
  | removeFree n => exact Removed.succ h
  | containsTest l p c =>
    cases l with
    | zero => exact UpTo.succ h (hr c (by simp [Pc.anchors]))
    | succ l => trivial
  | containsPass l p c =>
    cases l with
    | zero => exact UpTo.succ h (hr c (by simp [Pc.anchors]))
    | succ l => trivial
  | containsNext l p c =>
    cases l with
    | zero => exact Below.succ h (hr c (by simp [Pc.anchors]))
    | succ l => trivial
  | ret r => exact RetTrail.succ h
  | _ => trivial

/-! ### What one step adds -/

theorem walk_trail (clean : Clean ρ) (hm : m ≤ ρ.length) (hi : i < m)
    (hs : Seen (heaps ρ) i m x) (hlt : rank (ρ.state m).store x < (k : WithBot ℤ))
    (hy : (((ρ.state m).store.node x).next 0).ref = some y) : UpTo ρ k i m y :=
  (hs.next (fun j hj => sorted_run clean (by omega)) hi hy hlt).imp_right Or.inl

theorem found_now (clean : Clean ρ) (hm : m ≤ ρ.length) (hi : i < m)
    (hx : (x, l) ∈ (ρ.state m).live) (hd : ¬ (ρ.state m).store.dead l x)
    (hr : rank (ρ.state m).store x = (k : WithBot ℤ)) :
    Found (heaps ρ) (k : WithBot ℤ) i m x := by
  have hmem := (inv_run ρ clean m hm).mem
  exact ⟨m, hi, le_rfl, hmem.linked_base hx hd, hmem.alive_below hx (Nat.zero_le l) hd, hr⟩

theorem dying_now (hi : i < m) (hs : SeenFrom (heaps ρ) i m x)
    (hd : (ρ.state m).store.dead 0 x) (hr : rank (ρ.state m).store x = (k : WithBot ℤ)) :
    Dying (heaps ρ) (k : WithBot ℤ) i m x := hs.self.dying hi hd hr

theorem UpTo.absent (h : UpTo ρ op.key i m x) (hx : x ≠ head)
    (hle : op.key ≤ ((ρ.state m).store.node x).key)
    (hne : ((ρ.state m).store.node x).key ≠ op.key) : Absent ρ op.key i m := by
  refine h.resolve_left fun h => hne ?_
  rw [rank_of_ne _ hx] at h
  exact le_antisymm (WithBot.coe_le_coe.1 h) hle

theorem afterFind_trail {c : FindCtx} (h : FindTrail ρ op.key i m c) :
    Trail ρ i m op (afterFind c path) := by
  cases c <;> exact h

theorem findDone_trail {c : FindCtx} (h : FindTrail ρ op.key i m c) :
    Trail ρ i m op (findDone c p d path l) := by
  cases l with
  | zero => exact afterFind_trail h
  | succ l => exact h

theorem afterDelete_trail {d : DeleteCtx} (hf : d.Fits op) (h : DeleteTrail ρ op.key i m n d)
    (hd : MarkedAt ρ i m n) : Trail ρ i m op (afterDelete n d) := by
  cases d with
  | find c p d s path => exact h
  | remove r =>
    cases r with
    | true => exact ⟨h, hd⟩
    | false =>
      cases op with
      | remove k => exact Or.inr ⟨n, h, fun _ => hd⟩
      | _ => exact False.elim hf
  | contains =>
    cases op with
    | contains k => exact Or.inr ⟨n, h, fun _ => hd⟩
    | _ => exact False.elim hf

theorem afterValid_trail {σ : Store V} {d : ValidCtx} (h : ValidTrail ρ op.key i m n d) :
    Trail ρ i m op (afterValid σ n d) := by
  cases d with
  | lost => trivial
  | removing => trivial
  | _ => exact h

theorem ret_trail (hf : ¬ op.IsRemove) (hr : op.IsInsert ∨ r = true)
    (h : Settled ρ op.key i m n) : Trail ρ i m op (.ret r) := by
  cases op with
  | insert k v => exact ⟨n, h⟩
  | remove k => exact absurd trivial hf
  | contains k =>
    obtain rfl := hr.resolve_left id
    exact ⟨n, h⟩

theorem upper_trail {σ : Store V} (hf : op.IsInsert) (h : Settled ρ op.key i m n) :
    Trail ρ i m op (upper σ path n l) := by
  unfold upper
  split
  · exact h
  · refine ret_trail ?_ (Or.inl hf) h
    cases op with
    | insert k v => exact id
    | _ => exact False.elim hf

theorem afterInsert_trail {σ : Store V} {d : InsertCtx} (hf : d.Fits op)
    (h : Settled ρ op.key i m n) : Trail ρ i m op (afterInsert σ n d) := by
  have hrem : ¬ op.IsRemove := by
    intro hr
    cases op with
    | remove k => cases d <;> exact hf
    | _ => exact hr
  cases d with
  | linked path => exact upper_trail hf h
  | found => exact ret_trail hrem (Or.inl hf) h
  | contains => exact ret_trail hrem (Or.inr rfl) h

theorem head_anchor (h : x = head) : SeenFrom (heaps ρ) i m x := by
  subst h
  exact seenFrom_of_linked (Heap.Reach.refl _)

theorem searchTest_trail {t : Tid} (clean : Clean ρ) (hm : m < ρ.length) (hi : i < m)
    (he : ρ.event m = .tau t) (ht : (ρ.state m).thread t = some (op, .searchTest l p c path))
    (hs : ∀ a ∈ (Pc.searchTest l p c path).anchors, SeenFrom (heaps ρ) i m a)
    (tr : Trail ρ i m op (.searchTest l p c path))
    (hn : next (ρ.state m).store op slot level (.searchTest l p c path) = some (σ', pc')) :
    Trail ρ i m op pc' := by
  have f := (inv_run ρ clean m hm.le).fit ht
  have hc : c ≠ head := f.loc.2.2.2
  have hcl := f.refs (c, l) (by simp [Pc.refs])
  have hrc := rank_of_ne (ρ.state m).store hc
  simp only [next] at hn
  split at hn
  · next hmk =>
    obtain ⟨rfl, rfl⟩ := Prod.mk.inj (Option.some.inj hn)
    cases l with
    | zero =>
      intro hrem
      rcases tr hrem with hle | ha
      · rcases lt_or_eq_of_le hle with hlt | heq
        · exact Or.inl hlt
        · refine Or.inr (Or.inr ⟨c, dying_now hi (hs c (by simp [Pc.anchors])) hmk heq, ?_⟩)
          intro careful
          cases op with
          | remove k =>
            refine ⟨m, hi, le_rfl, careful m hm t k p c path he ht hmk ?_⟩
            rw [hrc] at heq
            exact WithBot.coe_injective heq
          | _ => exact hrem.elim
      · exact Or.inr ha
    | succ l => trivial
  · next hmk =>
    split at hn <;> obtain ⟨rfl, rfl⟩ := Prod.mk.inj (Option.some.inj hn)
    · next hle =>
      cases l with
      | zero =>
        cases op with
        | insert k v =>
          simp only [searchDone, afterSearch]
          split
          · next hk => exact found_now clean hm.le hi hcl hmk (rank_eq_of_key hk hc)
          · trivial
        | remove k =>
          simp only [searchDone, afterSearch]
          split
          · trivial
          · next hne => exact (tr trivial).absent hc hle hne
        | contains k => exact absurd trivial f.fits
      | succ l => trivial
    · next hle =>
      cases l with
      | zero => exact fun _ => Or.inl (rank_lt_of_key (not_le.1 hle) hc)
      | succ l => trivial

theorem containsTest_trail (clean : Clean ρ) (hm : m < ρ.length) (hi : i < m)
    (f : Fit (ρ.state m).store (ρ.state m).live op (.containsTest l p c))
    (tr : Trail ρ i m op (.containsTest l p c))
    (hn : next (ρ.state m).store op slot level (.containsTest l p c) = some (σ', pc')) :
    Trail ρ i m op pc' := by
  have hc : c ≠ head := f.loc.2.2
  have hcl := f.refs (c, l) (by simp [Pc.refs])
  have hcon : op.IsContains := f.fits
  simp only [next] at hn
  split at hn
  · obtain ⟨rfl, rfl⟩ := Prod.mk.inj (Option.some.inj hn)
    cases l with
    | zero => exact tr
    | succ l => trivial
  · next h =>
    obtain ⟨hlt, hmk⟩ := not_or.1 h
    split at hn
    · next hk =>
      obtain ⟨rfl, rfl⟩ := Prod.mk.inj (Option.some.inj hn)
      exact found_now clean hm.le hi hcl hmk (rank_eq_of_key hk hc)
    · next hne =>
      cases l with
      | zero =>
        obtain ⟨rfl, rfl⟩ := Prod.mk.inj (Option.some.inj hn)
        cases op with
        | contains k => exact UpTo.absent tr hc (not_lt.1 hlt) hne
        | _ => exact hcon.elim
      | succ l =>
        obtain ⟨rfl, rfl⟩ := Prod.mk.inj (Option.some.inj hn)
        trivial

theorem containsPass_trail (hi : i < m)
    (f : Fit (ρ.state m).store (ρ.state m).live op (.containsPass l p c))
    (hm : MemInv (ρ.state m).store 1 (ρ.state m).live)
    (hs : ∀ a ∈ (Pc.containsPass l p c).anchors, SeenFrom (heaps ρ) i m a)
    (tr : Trail ρ i m op (.containsPass l p c))
    (hn : next (ρ.state m).store op slot level (.containsPass l p c) = some (σ', pc')) :
    Trail ρ i m op pc' := by
  simp only [next] at hn
  split at hn
  · next hmk =>
    have hc : c ≠ head := by
      rintro rfl
      exact hm.head_alive l hmk
    split at hn
    · next h =>
      obtain ⟨rfl, rfl⟩ := Prod.mk.inj (Option.some.inj hn)
      obtain ⟨rfl, hk⟩ := h
      exact dying_now hi (hs c (by simp [Pc.anchors])) hmk (rank_eq_of_key hk hc)
    · next h =>
      obtain ⟨rfl, rfl⟩ := Prod.mk.inj (Option.some.inj hn)
      cases l with
      | zero =>
        refine Or.imp_left (fun hle => lt_of_le_of_ne hle fun heq => h ⟨rfl, ?_⟩) tr
        rw [rank_of_ne _ hc] at heq
        exact WithBot.coe_injective heq
      | succ l => trivial
  · next hmk =>
    obtain ⟨rfl, rfl⟩ := Prod.mk.inj (Option.some.inj hn)
    cases l with
    | zero => exact Or.inl (f.loc.2.2.resolve_right hmk)
    | succ l => trivial

theorem Trail.own {t : Tid} (clean : Clean ρ) (hm : m < ρ.length) (hi : i < m)
    (he : ρ.event m = .tau t) (ht : (ρ.state m).thread t = some (op, pc))
    (hs : ∀ a ∈ pc.anchors, SeenFrom (heaps ρ) i m a) (tr : Trail ρ i m op pc)
    (hn : next (ρ.state m).store op slot level pc = some (σ', pc'))
    (hl : ∀ path e n, pc = .linkCas path n → path[0]? = some e →
      ((ρ.state m).store.node e.1).next 0 ≠ Ptr.addr e.2) : Trail ρ i m op pc' := by
  have hmem := (inv_run ρ clean m hm.le).mem
  have f := (inv_run ρ clean m hm.le).fit ht
  cases pc with
  | searchDown l p path =>
    simp only [next] at hn
    obtain ⟨s, hs', he'⟩ := Option.map_eq_some_iff.1 hn
    obtain ⟨rfl, rfl⟩ := Prod.mk.inj he'
    cases l with
    | zero =>
      exact fun _ => walk_trail clean hm.le hi (hs p (by simp [Pc.anchors])).self f.loc.2.1 hs'
    | succ l => trivial
  | searchTest l p c path => exact searchTest_trail clean hm hi he ht hs tr hn
  | searchNext l p c path =>
    simp only [next] at hn
    obtain ⟨s, hs', he'⟩ := Option.map_eq_some_iff.1 hn
    obtain ⟨rfl, rfl⟩ := Prod.mk.inj he'
    cases l with
    | zero =>
      intro hrem
      rcases tr hrem with hlt | ha
      · exact walk_trail clean hm.le hi (hs c (by simp [Pc.anchors])).self hlt hs'
      · exact Or.inr ha
    | succ l => trivial
  | findDown c l p path =>
    simp only [next] at hn
    split at hn
    · obtain ⟨rfl, rfl⟩ := Prod.mk.inj (Option.some.inj hn)
      exact tr
    · obtain ⟨s, _, he'⟩ := Option.map_eq_some_iff.1 hn
      obtain ⟨rfl, rfl⟩ := Prod.mk.inj he'
      exact tr
  | findLoad c l p d s path =>
    simp only [next] at hn
    split at hn
    · obtain ⟨e, _, he'⟩ := Option.map_eq_some_iff.1 hn
      obtain ⟨rfl, rfl⟩ := Prod.mk.inj he'
      split <;> exact tr
    · split at hn
      · obtain ⟨rfl, rfl⟩ := Prod.mk.inj (Option.some.inj hn)
        split
        · exact findDone_trail tr
        · exact tr
      · obtain ⟨e, _, he'⟩ := Option.map_eq_some_iff.1 hn
        obtain ⟨rfl, rfl⟩ := Prod.mk.inj he'
        exact tr
  | findCas c l p d s path =>
    simp only [next] at hn
    split at hn <;> obtain ⟨rfl, rfl⟩ := Prod.mk.inj (Option.some.inj hn)
    · exact findDone_trail tr
    · exact tr
  | deleteLoad d n =>
    simp only [next] at hn
    split at hn <;> obtain ⟨rfl, rfl⟩ := Prod.mk.inj (Option.some.inj hn)
    · next hfl =>
      have hnl := f.refs _ (d.mem_refs n)
      exact afterDelete_trail f.fits tr ⟨m, hi, le_rfl, hmem.deleteFlag hnl hfl⟩
    · exact tr
  | deleteFlush d n =>
    obtain ⟨rfl, rfl⟩ := Prod.mk.inj (Option.some.inj hn)
    exact tr
  | deleteStore d n =>
    obtain ⟨rfl, rfl⟩ := Prod.mk.inj (Option.some.inj hn)
    exact afterDelete_trail f.fits tr ⟨m, hi, le_rfl, f.loc.2⟩
  | validLoad d n =>
    simp only [next] at hn
    split at hn <;> obtain ⟨rfl, rfl⟩ := Prod.mk.inj (Option.some.inj hn)
    · exact afterValid_trail tr
    · exact tr
  | validStore d n old =>
    obtain ⟨rfl, rfl⟩ := Prod.mk.inj (Option.some.inj hn)
    exact afterValid_trail tr
  | insertLoad d n =>
    simp only [next] at hn
    split at hn <;> obtain ⟨rfl, rfl⟩ := Prod.mk.inj (Option.some.inj hn)
    · next hfl =>
      have hnl := f.refs _ (d.mem_refs n)
      exact afterInsert_trail f.fits ⟨tr, m, hi, le_rfl, hmem.insertFlag hnl hfl⟩
    · exact tr
  | insertFlush d n =>
    obtain ⟨rfl, rfl⟩ := Prod.mk.inj (Option.some.inj hn)
    exact tr
  | insertStore d n =>
    obtain ⟨rfl, rfl⟩ := Prod.mk.inj (Option.some.inj hn)
    exact afterInsert_trail f.fits ⟨tr, m, hi, le_rfl, f.loc.2⟩
  | initValue path n l =>
    cases op with
    | insert k v =>
      obtain ⟨rfl, rfl⟩ := Prod.mk.inj (Option.some.inj hn)
      trivial
    | remove k => cases hn
    | contains k => cases hn
  | initNext path n l =>
    simp only [next] at hn
    obtain ⟨e, _, he'⟩ := Option.map_eq_some_iff.1 hn
    obtain ⟨rfl, rfl⟩ := Prod.mk.inj he'
    split <;> trivial
  | linkCas path n =>
    simp only [next] at hn
    obtain ⟨e, hpath, he'⟩ := Option.map_eq_some_iff.1 hn
    rw [if_neg (hl path e n rfl hpath)] at he'
    obtain ⟨rfl, rfl⟩ := Prod.mk.inj he'
    trivial
  | upperLoad path n l =>
    simp only [next] at hn
    have hins : op.IsInsert := f.fits
    split at hn
    · obtain ⟨rfl, rfl⟩ := Prod.mk.inj (Option.some.inj hn)
      refine ret_trail ?_ (Or.inl hins) tr
      cases op <;> first | exact id | exact hins.elim
    · obtain ⟨e, _, he'⟩ := Option.map_eq_some_iff.1 hn
      obtain ⟨rfl, rfl⟩ := Prod.mk.inj he'
      split <;> exact tr
  | upperCas path n l q =>
    simp only [next] at hn
    have hins : op.IsInsert := f.fits
    obtain ⟨e, _, he'⟩ := Option.map_eq_some_iff.1 hn
    split at he' <;> obtain ⟨rfl, rfl⟩ := Prod.mk.inj he'
    · exact tr
    · refine ret_trail ?_ (Or.inl hins) tr
      cases op <;> first | exact id | exact hins.elim
  | upperLink path n l =>
    simp only [next] at hn
    obtain ⟨e, _, he'⟩ := Option.map_eq_some_iff.1 hn
    split at he' <;> obtain ⟨rfl, rfl⟩ := Prod.mk.inj he'
    · exact upper_trail f.fits tr
    · exact tr
  | markLoad n l =>
    simp only [next] at hn
    split at hn <;> obtain ⟨rfl, rfl⟩ := Prod.mk.inj (Option.some.inj hn)
    · next hmk =>
      cases l with
      | zero => exact dying_now hi (hs n (by simp [Pc.anchors])) hmk f.loc.rank
      | succ l => trivial
    · trivial
  | markCas n l q =>
    simp only [next] at hn
    split at hn <;> obtain ⟨rfl, rfl⟩ := Prod.mk.inj (Option.some.inj hn)
    · next hnext =>
      cases l with
      | zero =>
        refine found_now clean hm.le hi (f.refs (n, 0) (by simp [Pc.refs])) ?_ f.loc.1.rank
        unfold Store.dead
        rw [hnext, f.loc.2]
        exact Bool.false_ne_true
      | succ l => trivial
    · trivial
  | removeFree n =>
    obtain ⟨rfl, rfl⟩ := Prod.mk.inj (Option.some.inj hn)
    have hrem : op.IsRemove := f.fits
    cases op with
    | remove k => exact ⟨n, tr⟩
    | _ => exact hrem.elim
  | containsDown l p =>
    simp only [next] at hn
    obtain ⟨s, hs', he'⟩ := Option.map_eq_some_iff.1 hn
    obtain ⟨rfl, rfl⟩ := Prod.mk.inj he'
    cases l with
    | zero => exact walk_trail clean hm.le hi (hs p (by simp [Pc.anchors])).self f.loc.2 hs'
    | succ l => trivial
  | containsTest l p c => exact containsTest_trail clean hm hi f tr hn
  | containsPass l p c => exact containsPass_trail hi f hmem hs tr hn
  | containsNext l p c =>
    simp only [next] at hn
    obtain ⟨s, hs', he'⟩ := Option.map_eq_some_iff.1 hn
    obtain ⟨rfl, rfl⟩ := Prod.mk.inj he'
    cases l with
    | zero =>
      rcases tr with hlt | ha
      · exact walk_trail clean hm.le hi (hs c (by simp [Pc.anchors])).self hlt hs'
      · exact Or.inr ha
    | succ l => trivial
  | ret r => cases hn
  | _ =>
    obtain ⟨rfl, rfl⟩ := Prod.mk.inj (Option.some.inj hn)
    trivial

end Grow

theorem tau_inv {s s' : State V} {t : Tid} {op' : SetOp V} (hs : Step s (.tau t) s')
    (ht : s.thread t = some (op, pc)) (ht' : s'.thread t = some (op', pc')) :
    ∃ slot level σ, next s.store op slot level pc = some (σ, pc') ∧
      s' = s.goto σ t (some (op, pc')) := by
  cases hs with
  | tau _ op1 pc1 pc2 slot level σ h hn ha =>
    rw [ht] at h
    obtain ⟨rfl, rfl⟩ := Prod.mk.inj (Option.some.inj h)
    rw [goto_thread_self] at ht'
    obtain ⟨rfl, rfl⟩ := Prod.mk.inj (Option.some.inj ht')
    exact ⟨slot, level, σ, hn, rfl⟩

theorem call_inv {s s' : State V} {t : Tid} {op' : SetOp V} (hs : Step s (.call t op') s')
    (ht : s'.thread t = some (op, pc)) :
    pc = start op ∧ op.key < INT_MAX ∧ s'.store = s.store := by
  cases hs with
  | call _ _ idle hk =>
    rw [goto_thread_self] at ht
    obtain ⟨rfl, rfl⟩ := Prod.mk.inj (Option.some.inj ht)
    exact ⟨rfl, hk, rfl⟩

theorem ret_inv {s s' : State V} {t : Tid} {r : Bool} (hs : Step s (.ret t r) s') :
    ∃ op, s.thread t = some (op, .ret r) ∧ s'.store = s.store := by
  cases hs with
  | ret _ op _ ht => exact ⟨op, ht, rfl⟩

theorem link_splice (hm : MemInv σ G L) (f : Fit σ L op (.linkCas path n)) {e : Loc × Loc}
    (he : path[0]? = some e) (hnext : (σ.node e.1).next 0 = Ptr.addr e.2) :
    Heap.Splice (σ.level 0) ((σ.setNext e.1 0 (Ptr.addr n)).level 0) (Tower.floor L 0) e.1 n e.2 ∧
      rank σ n = (op.key : ℤ) := by
  have ho : NextOk σ op path n (σ.node n).topLevel := f.loc
  have hfresh : (n, 0) ∉ L := f.fresh _ rfl
  have hel : (e.1, 0) ∈ L := f.refs _ (Path.get_refs (i := 0) he).1
  have hnh : n ≠ head := by
    rintro rfl
    exact hfresh (hm.sound.head_mem (by decide))
  have hrank : rank σ n = (op.key : ℤ) := rank_eq_of_key ho.init.key hnh
  obtain ⟨e', he', hfill⟩ := ho.filled 0 ho.pos
  obtain rfl := Option.some.inj (he.symm.trans he')
  have sp := join_splice (G := G) hel hnext hfresh (fun j h => by omega) (ref_of_addr hfill)
    fun _ => ⟨dead_of_addr hfill, by
      rw [hrank]
      exact ho.init.gap.levels.below e (List.mem_of_getElem? he), by
      rw [hrank]
      exact ho.init.gap.gap e he⟩
  exact ⟨sp.level hm.sound.closed hm.pos, hrank⟩

theorem link_found {e : Loc × Loc} (clean : Clean ρ) (hm : m < ρ.length) (hi : i < m)
    (f : Fit (ρ.state m).store (ρ.state m).live op (.linkCas path n)) (he : path[0]? = some e)
    (hnext : ((ρ.state m).store.node e.1).next 0 = Ptr.addr e.2)
    (hσ : (ρ.state (m + 1)).store = (ρ.state m).store.setNext e.1 0 (Ptr.addr n)) :
    Found (heaps ρ) (op.key : WithBot ℤ) i (m + 1) n := by
  obtain ⟨sp, hr⟩ := link_splice (inv_run ρ clean m hm.le).mem f he hnext
  rw [← hσ] at sp
  have hg : ((ρ.state m).store.level 0).Good (roots ρ m) := (sorted_run clean hm.le).good
  refine ⟨m + 1, by omega, le_rfl, (sp.linked hg).2 (Or.inr rfl), sp.new_alive', ?_⟩
  change rank (ρ.state (m + 1)).store n = _
  rw [hσ, rank_setNext]
  exact hr

theorem trail_run (ρ : Run (machine V)) (clean : Clean ρ) : ∀ m ≤ ρ.length, ∀ {t op pc},
    (ρ.state m).thread t = some (op, pc) → ∃ i, ρ.Active t op i m ∧
      (∀ a ∈ pc.anchors, SeenFrom (heaps ρ) i m a) ∧ Trail ρ i m op pc := by
  refine ρ.active_inv (F := fun i m _ op pc =>
    (∀ a ∈ pc.anchors, SeenFrom (heaps ρ) i m a) ∧ Trail ρ i m op pc) ?_ ?_ ?_
  · intro m t op pc hm he _ ht
    have hs := ρ.step hm
    rw [he] at hs
    obtain ⟨rfl, _, _⟩ := call_inv hs ht
    cases op <;> refine ⟨fun a h => ?_, trivial⟩ <;>
      exact head_anchor (by simpa [start, retry, Pc.anchors] using h)
  · rintro i m t op pc pc' hm ha he ht ht' ⟨seen, tr⟩
    have hs := ρ.step hm
    rw [he] at hs
    obtain ⟨slot, level, σ, hn, hst⟩ := tau_inv hs ht ht'
    have hi := inv_run ρ clean m hm.le
    have f := hi.fit ht
    have ch := change_run clean hm
    have hg := (sorted_run clean hm.le).good
    have hσ : (ρ.state (m + 1)).store = σ := by rw [hst]; rfl
    have hold : ∀ a ∈ pc'.anchors, SeenFrom (heaps ρ) i m a ∧
        (heaps ρ m).Live (roots ρ m) a := by
      intro a h
      rcases anchors_step hi.mem f hn a h with ⟨b, hb, hba⟩ | hl
      · exact ⟨(seen b hb).reach hba, (live_run (f.anchors_live hi.mem hb)).reach hba⟩
      · exact ⟨seenFrom_of_linked hl, hg.live_of_linked hl⟩
    refine ⟨fun a h => (hold a h).1.step hg ch ha.lt (hold a h).2, ?_⟩
    by_cases hl : ∃ path e n, pc = .linkCas path n ∧ path[0]? = some e ∧
        ((ρ.state m).store.node e.1).next 0 = Ptr.addr e.2
    · obtain ⟨path, e, n, rfl, hpath, hnext⟩ := hl
      simp only [next] at hn
      obtain ⟨e', he', hn⟩ := Option.map_eq_some_iff.1 hn
      obtain rfl := Option.some.inj (hpath.symm.trans he')
      rw [if_pos hnext] at hn
      obtain ⟨rfl, rfl⟩ := Prod.mk.inj hn
      exact link_found clean hm ha.lt f hpath hnext hσ
    · refine Trail.succ (Trail.own clean hm ha.lt he ht seen tr hn ?_) fun a h =>
        ch.rank (hold a h).2
      exact fun path e n h hpath hnext => hl ⟨path, e, n, h, hpath, hnext⟩
  · rintro i m t op pc hm ha hne ht ht' ⟨seen, tr⟩
    have hi := inv_run ρ clean m hm.le
    have f := hi.fit ht
    have ch := change_run clean hm
    have hg := (sorted_run clean hm.le).good
    have hl : ∀ a ∈ pc.anchors, (heaps ρ m).Live (roots ρ m) a := fun a h =>
      live_run (f.anchors_live hi.mem h)
    exact ⟨fun a h => (seen a h).step hg ch ha.lt (hl a h), tr.succ fun a h => ch.rank (hl a h)⟩

theorem ret_run (ρ : Run (machine V)) (clean : Clean ρ) {t : Tid} {r : Bool} {i j : ℕ}
    (hc : ρ.Completed t op r i j) :
    (ρ.state j).thread t = some (op, .ret r) ∧ op.key < INT_MAX ∧
      RetTrail ρ op.key i j r op := by
  have hs := ρ.step hc.lt
  rw [hc.ret] at hs
  obtain ⟨op1, ht, _⟩ := ret_inv hs
  obtain ⟨pc, hpc⟩ := hc.active.thread hc.lt.le
  obtain ⟨rfl, rfl⟩ := Prod.mk.inj (Option.some.inj (hpc.symm.trans ht))
  obtain ⟨i', ha, _, tr⟩ := trail_run ρ clean j hc.lt.le ht
  obtain ⟨rfl, _⟩ := ha.unique hc.active
  exact ⟨ht, ((inv_run ρ clean j hc.lt.le).fit ht).key, tr⟩

end LinkFree.SkipList
