import DurableSets.Core.Growth
import DurableSets.Core.Path
import DurableSets.LinkFree.ListRecover

namespace LinkFree.List.Parallel

open Chain

variable {V : Type}

-- the next access of recover() and of the quickInsert it calls, one for each load and store;
-- todo are the slots of the chunks that it has still to look at, failed is an assertion
inductive Pc where
  | scan (todo : List Loc)
  | scanValid (n : Loc) (todo : List Loc)
  | testValid (n : Loc) (todo : List Loc)
  | testMark (n : Loc) (todo : List Loc)
  | resetNext (n : Loc) (todo : List Loc)
  | validLoad (n : Loc) (todo : List Loc)
  | validStore (n : Loc) (oldMetaData : Uchar) (todo : List Loc)
  | free (n : Loc) (todo : List Loc)
  | retry (newNode : Loc) (todo : List Loc)
  | succLoad (newNode pred curr : Loc) (todo : List Loc)
  | compare (newNode pred curr : Loc) (succ : Option Loc) (todo : List Loc)
  | nextStore (newNode pred curr : Loc) (todo : List Loc)
  | link (newNode pred curr : Loc) (todo : List Loc)
  | failed
deriving DecidableEq

def next (σ : Store V) : Pc → Option (Store V × Pc)
  | .scan [] => none
  | .scan (n :: todo) =>
    if (σ.node n).next = Ptr.null then some (σ, .scanValid n todo) else some (σ, .testValid n todo)
  | .scanValid n todo =>
    if isValid (σ.node n).metaData then some (σ, .scan todo) else some (σ, .testValid n todo)
  | .testValid n todo =>
    if isValid (σ.node n).metaData then some (σ, .testMark n todo) else some (σ, .resetNext n todo)
  | .testMark n todo =>
    if (σ.node n).isMarked then some (σ, .resetNext n todo) else some (σ, .retry n todo)
  | .resetNext n todo =>
    some (σ.write n { σ.node n with next := Ptr.null.mark }, .validLoad n todo)
  | .validLoad n todo =>
    if isValid (σ.node n).metaData then some (σ, .free n todo)
    else some (σ, .validStore n (σ.node n).metaData todo)
  | .validStore n old todo =>
    some (σ.write n { σ.node n with metaData := makeValid old }, .free n todo)
  | .free _ todo => some (σ, .scan todo)
  | .retry n todo => (σ.node head).next.ref.map fun c => (σ, .succLoad n head c todo)
  | .succLoad n pred curr todo =>
    if (σ.node curr).isMarked then some (σ, .failed)
    else some (σ, .compare n pred curr (σ.node curr).next.ref todo)
  | .compare n pred curr succ todo =>
    if (σ.node curr).key < (σ.node n).key then succ.map fun c => (σ, .succLoad n curr c todo)
    else if (σ.node curr).key = (σ.node n).key then some (σ, .failed)
    else some (σ, .nextStore n pred curr todo)
  | .nextStore n pred curr todo =>
    some (σ.write n { σ.node n with next := Ptr.addr curr }, .link n pred curr todo)
  | .link n pred curr todo =>
    if (σ.node pred).next = Ptr.addr curr then
      some (σ.write pred { σ.node pred with next := Ptr.addr n }, .scan todo)
    else some (σ, .retry n todo)
  | .failed => none

def Pc.freeing : Pc → List Loc
  | .free n _ => [n]
  | _ => []

-- the calls of recover(), and what was passed to ssmem_free
structure State (V : Type) where
  store : Store V
  pc : Tid → Pc
  freed : List Loc

inductive Step (s : State V) : State V → Prop where
  | tau (t : Tid) (σ : Store V) (pc : Pc) (hn : next s.store (s.pc t) = some (σ, pc)) :
    Step s ⟨σ, Function.update s.pc t pc, (s.pc t).freeing ++ s.freed⟩

def initial (zero : V) (junk : Uchar) (image : Loc → Node V) (slots : Tid → List Loc) :
    State V where
  store := restart zero junk image fun _ => false
  pc t := .scan (slots t)
  freed := []

def Untouched (a : Node V) : Prop := isValid a.metaData = true ∧ a.next = Ptr.null

def Live (a : Node V) : Prop :=
  isValid a.metaData = true ∧ a.next.marked = false ∧ a.next ≠ Ptr.null

structure Chunks (image : Loc → Node V) (slots : Tid → List Loc) : Prop where
  nodup : ∀ t, (slots t).Nodup
  apart : ∀ {t u x}, x ∈ slots t → x ∈ slots u → t = u
  inner : ∀ {t x}, x ∈ slots t → x ≠ head ∧ x ≠ tail
  unique : ∀ {t u x y}, x ∈ slots t → y ∈ slots u → Live (image x) → Live (image y) →
    (image x).key = (image y).key → x = y
  bounded : ∀ {t x}, x ∈ slots t → Live (image x) →
    INT_MIN < (image x).key ∧ (image x).key < INT_MAX

def Pc.todo : Pc → List Loc
  | .scan todo => todo
  | .scanValid n todo => n :: todo
  | .testValid n todo => n :: todo
  | .testMark n todo => n :: todo
  | .resetNext n todo => n :: todo
  | .validLoad n todo => n :: todo
  | .validStore n _ todo => n :: todo
  | .free n todo => n :: todo
  | .retry n todo => n :: todo
  | .succLoad n _ _ todo => n :: todo
  | .compare n _ _ _ todo => n :: todo
  | .nextStore n _ _ todo => n :: todo
  | .link n _ _ todo => n :: todo
  | .failed => []

def Pc.intact : Pc → List Loc
  | .scan todo => todo
  | .scanValid n todo => n :: todo
  | .testValid n todo => n :: todo
  | .testMark n todo => n :: todo
  | .resetNext n todo => n :: todo
  | .validLoad _ todo => todo
  | .validStore _ _ todo => todo
  | .free _ todo => todo
  | .retry _ todo => todo
  | .succLoad _ _ _ todo => todo
  | .compare _ _ _ _ todo => todo
  | .nextStore _ _ _ todo => todo
  | .link _ _ _ todo => todo
  | .failed => []

def Waste (a : Node V) : Prop := ¬ Live a ∧ ¬ Untouched a

def Before (image : Loc → Node V) (σ : Store V) (n p c : Loc) : Prop :=
  Live (image n) ∧ σ.heap.Linked p ∧ σ.heap.Linked c ∧ rank σ p < ((image n).key : ℤ)

def Local (image : Loc → Node V) (σ : Store V) : Pc → Prop
  | .scan _ => True
  | .scanValid n _ => (image n).next = Ptr.null
  | .testValid n _ => ¬ Untouched (image n)
  | .testMark n _ => ¬ Untouched (image n) ∧ isValid (image n).metaData = true
  | .resetNext n _ => Waste (image n)
  | .validLoad n _ => Waste (image n) ∧ (σ.node n).next.marked = true
  | .validStore n _ _ => Waste (image n) ∧ (σ.node n).next.marked = true
  | .free n _ => Waste (image n) ∧ (σ.node n).next.marked = true ∧
      isValid (σ.node n).metaData = true
  | .retry n _ => Live (image n)
  | .succLoad n p c _ => Before image σ n p c
  | .compare n p c succ _ => Before image σ n p c ∧ (c ≠ tail → succ ≠ none) ∧
      ∀ d, succ = some d → σ.heap.Linked d
  | .nextStore n p c _ => Before image σ n p c ∧ (((image n).key : ℤ) : WithBot ℤ) < rank σ c
  | .link n p c _ => Before image σ n p c ∧ (((image n).key : ℤ) : WithBot ℤ) < rank σ c ∧
      (σ.node n).next = Ptr.addr c
  | .failed => False

structure Inv (image : Loc → Node V) (slots : Tid → List Loc) (s : State V) : Prop where
  suffix : ∀ t, ∃ done, slots t = done ++ (s.pc t).todo
  intact : ∀ {t x}, x ∈ (s.pc t).intact → s.store.node x = image x
  same : ∀ {t x}, x ∈ slots t → Live (image x) →
    ∃ q, s.store.node x = { image x with next := q }
  untouched : ∀ {t x}, x ∈ slots t → Untouched (image x) → s.store.node x = image x
  waste : ∀ {t x}, x ∈ slots t → Waste (image x) → x ∉ (s.pc t).todo →
    (s.store.node x).next.marked = true ∧ isValid (s.store.node x).metaData = true
  freed : s.freed.Nodup ∧ ∀ x, x ∈ s.freed ↔
    ∃ t, x ∈ slots t ∧ Waste (image x) ∧ x ∉ (s.pc t).todo
  solid : s.store.heap.Solid
  linked : ∀ {x}, s.store.heap.Linked x ↔ x = head ∨ x = tail ∨
    ∃ t, x ∈ slots t ∧ Live (image x) ∧ x ∉ (s.pc t).todo
  complete : ∀ {x}, s.store.heap.Linked x → x ≠ tail → (s.store.node x).next.ref ≠ none
  atHead : (s.store.node head).key = INT_MIN
  atTail : (s.store.node tail).next = Ptr.null ∧ (s.store.node tail).key = INT_MAX
  loc : ∀ t, Local image s.store (s.pc t)

variable {image : Loc → Node V} {slots : Tid → List Loc} {s s' : State V} {σ : Store V}
  {pc : Pc} {t u : Tid} {n x p c : Loc} {todo : List Loc}

theorem live_iff {a : Node V} : Live a ↔ a.recovered = true := recovered_iff.symm

theorem intact_subset (h : x ∈ pc.intact) : x ∈ pc.todo := by
  cases pc <;> first | exact h | exact List.mem_cons_of_mem _ h

theorem Local.mono (h : Local image s.store pc) (g : s.store.heap.Grows σ.heap)
    (hn : ∀ x ∈ pc.todo, σ.node x = s.store.node x) : Local image σ pc := by
  have hb : ∀ {n p c}, Before image s.store n p c → Before image σ n p c := by
    rintro n p c ⟨h1, h2, h3, h4⟩
    exact ⟨h1, g.linked h2, g.linked h3, g.lt h2 h4⟩
  cases pc with
  | scan todo => trivial
  | scanValid n todo | testValid n todo | testMark n todo | resetNext n todo => exact h
  | validLoad n todo | validStore n old todo | free n todo =>
    simp only [Local, hn n List.mem_cons_self]
    exact h
  | retry n todo => exact h
  | succLoad n p c todo => exact hb h
  | compare n p c succ todo => exact ⟨hb h.1, h.2.1, fun d hd => g.linked (h.2.2 d hd)⟩
  | nextStore n p c todo => exact ⟨hb h.1, g.gt h.1.2.2.1 h.2⟩
  | link n p c todo =>
    refine ⟨hb h.1, g.gt h.1.2.2.1 h.2.1, ?_⟩
    rw [hn n List.mem_cons_self]
    exact h.2.2
  | failed => cases h

namespace Inv

theorem todo_subset (h : Inv image slots s) (hx : x ∈ (s.pc t).todo) : x ∈ slots t := by
  obtain ⟨done, hd⟩ := h.suffix t
  rw [hd]
  exact List.mem_append_right _ hx

theorem nodup (hc : Chunks image slots) (h : Inv image slots s) (t : Tid) :
    (s.pc t).todo.Nodup := by
  obtain ⟨done, hd⟩ := h.suffix t
  have := hc.nodup t
  rw [hd] at this
  exact this.of_append_right

theorem not_linked (hc : Chunks image slots) (h : Inv image slots s) (hx : x ∈ (s.pc t).todo) :
    ¬ s.store.heap.Linked x := by
  have hxs := h.todo_subset hx
  obtain ⟨hh, ht⟩ := hc.inner hxs
  rw [h.linked]
  rintro (he | he | ⟨u, hu, _, hn⟩)
  · exact hh he
  · exact ht he
  · exact hn (hc.apart hxs hu ▸ hx)

theorem done_iff (hc : Chunks image slots) (h : Inv image slots s)
    (ht : (s.pc t).todo = n :: pc.todo) (P : Loc → Prop) :
    (∃ u, x ∈ slots u ∧ P x ∧ x ∉ (Function.update s.pc t pc u).todo) ↔
      (∃ u, x ∈ slots u ∧ P x ∧ x ∉ (s.pc u).todo) ∨ x = n ∧ P n := by
  have hn : n ∈ slots t := h.todo_subset (ht ▸ List.mem_cons_self)
  have hnd := h.nodup hc t
  rw [ht, List.nodup_cons] at hnd
  constructor
  · rintro ⟨u, hu, hP, hx⟩
    by_cases he : x = n
    · exact Or.inr ⟨he, he ▸ hP⟩
    · refine Or.inl ⟨u, hu, hP, ?_⟩
      by_cases hut : u = t
      · subst hut
        rw [Function.update_self] at hx
        rw [ht, List.mem_cons, not_or]
        exact ⟨he, hx⟩
      · rwa [Function.update_of_ne hut] at hx
  · rintro (⟨u, hu, hP, hx⟩ | ⟨rfl, hP⟩)
    · refine ⟨u, hu, hP, ?_⟩
      by_cases hut : u = t
      · subst hut
        rw [Function.update_self]
        rw [ht] at hx
        exact fun hm => hx (List.mem_cons_of_mem _ hm)
      · rwa [Function.update_of_ne hut]
    · exact ⟨t, hn, hP, by rw [Function.update_self]; exact hnd.1⟩

theorem suffix_step (h : Inv image slots s)
    (ht : (s.pc t).todo = pc.todo ∨ ∃ n, (s.pc t).todo = n :: pc.todo) (u : Tid) :
    ∃ done, slots u = done ++ (Function.update s.pc t pc u).todo := by
  obtain ⟨done, hd⟩ := h.suffix u
  by_cases hut : u = t
  · subst hut
    rw [Function.update_self]
    rcases ht with ht | ⟨n, ht⟩
    · exact ⟨done, ht ▸ hd⟩
    · exact ⟨done ++ [n], by rw [hd, ht, List.append_assoc]; rfl⟩
  · rw [Function.update_of_ne hut]
    exact ⟨done, hd⟩

theorem loc_step (h : Inv image slots s) (hl : Local image σ pc)
    (g : s.store.heap.Grows σ.heap)
    (hn : ∀ u, u ≠ t → ∀ x ∈ (s.pc u).todo, σ.node x = s.store.node x) (u : Tid) :
    Local image σ (Function.update s.pc t pc u) := by
  by_cases hut : u = t
  · subst hut
    rwa [Function.update_self]
  · rw [Function.update_of_ne hut]
    exact (h.loc u).mono g (hn u hut)

theorem todo_step (ht : (s.pc t).todo = pc.todo) (u : Tid) :
    (Function.update s.pc t pc u).todo = (s.pc u).todo := by
  by_cases hut : u = t
  · subst hut
    rw [Function.update_self, ht]
  · rw [Function.update_of_ne hut]

theorem read (h : Inv image slots s) (ht : (s.pc t).todo = pc.todo)
    (hi : ∀ x ∈ pc.intact, x ∈ (s.pc t).intact) (hl : Local image s.store pc) :
    Inv image slots ⟨s.store, Function.update s.pc t pc, s.freed⟩ where
  suffix := h.suffix_step (Or.inl ht)
  intact {u x} hx := by
    by_cases hut : u = t
    · subst hut
      simp only [Function.update_self] at hx
      exact h.intact (hi x hx)
    · simp only [Function.update_of_ne hut] at hx
      exact h.intact hx
  same := h.same
  untouched := h.untouched
  waste hx hw hd := h.waste hx hw (by simpa only [todo_step ht] using hd)
  freed := by simpa only [todo_step ht] using h.freed
  solid := h.solid
  linked {x} := by simpa only [todo_step ht] using h.linked (x := x)
  complete := h.complete
  atHead := h.atHead
  atTail := h.atTail
  loc := h.loc_step hl (Chain.Heap.Grows.refl _) fun _ _ _ _ => rfl

theorem skip (hc : Chunks image slots) (h : Inv image slots s)
    (ht : (s.pc t).todo = n :: pc.todo) (hi : ∀ x ∈ pc.intact, x ∈ (s.pc t).intact)
    (hu : Untouched (image n)) (hl : Local image s.store pc) :
    Inv image slots ⟨s.store, Function.update s.pc t pc, s.freed⟩ where
  suffix := h.suffix_step (Or.inr ⟨n, ht⟩)
  intact {u x} hx := by
    by_cases hut : u = t
    · subst hut
      simp only [Function.update_self] at hx
      exact h.intact (hi x hx)
    · simp only [Function.update_of_ne hut] at hx
      exact h.intact hx
  same := h.same
  untouched := h.untouched
  waste {u x} hx hw hd := by
    have hdone := (h.done_iff hc ht fun x => Waste (image x)).1 ⟨u, hx, hw, hd⟩
    rcases hdone with ⟨v, hv, _, hd⟩ | ⟨rfl, hw⟩
    · exact h.waste hv hw hd
    · exact absurd hu hw.2
  freed := by
    refine ⟨h.freed.1, fun x => (h.freed.2 x).trans ?_⟩
    rw [h.done_iff hc ht fun x => Waste (image x)]
    exact (or_iff_left fun he => he.2.2 hu).symm
  solid := h.solid
  linked {x} := by
    rw [h.done_iff hc ht fun x => Live (image x), h.linked]
    exact or_congr_right (or_congr_right (or_iff_left fun he => he.2.2.2 hu.2).symm)
  complete := h.complete
  atHead := h.atHead
  atTail := h.atTail
  loc := h.loc_step hl (Chain.Heap.Grows.refl _) fun _ _ _ _ => rfl

-- a step that writes to the slot in hand
theorem off (hc : Chunks image slots) (h : Inv image slots s) {l : Line (Node V)}
    (hn : n ∈ (s.pc t).todo) (ht : (s.pc t).todo = pc.todo)
    (hi : ∀ x ∈ pc.intact, x ∈ (s.pc t).intact ∧ x ≠ n)
    (hs : Live (image n) → ∃ q, l.cur = { image n with next := q })
    (hu : ¬ Untouched (image n)) (hl : Local image (s.store.setLine n l) pc) :
    Inv image slots ⟨s.store.setLine n l, Function.update s.pc t pc, s.freed⟩ := by
  have hns := h.todo_subset hn
  obtain ⟨hnh, hnt⟩ := hc.inner hns
  have hnl := h.not_linked hc hn
  have st := steady_off (l := l) hnl
  have hother : ∀ {x}, x ≠ n → (s.store.setLine n l).node x = s.store.node x := by
    intro x hx
    rw [node_setLine, if_neg hx]
  have hnode : ∀ {x}, s.store.heap.Linked x → (s.store.setLine n l).node x = s.store.node x := by
    intro x hx
    refine hother ?_
    rintro rfl
    exact hnl hx
  have hlink : ∀ {x}, (s.store.setLine n l).heap.Linked x ↔ s.store.heap.Linked x :=
    st.linked h.solid.good
  refine ⟨h.suffix_step (Or.inl ht), fun {u x} hx => ?_, fun {u x} hx hv => ?_,
    fun {u x} hx hv => ?_, fun {u x} hx hw hd => ?_, ?_, ?_, fun {x} => ?_, fun {x} hx hxt => ?_,
    ?_, ?_, h.loc_step hl (st.grows h.solid) fun u hut x hx => hother ?_⟩
  · by_cases hut : u = t
    · subst hut
      simp only [Function.update_self] at hx
      obtain ⟨hx, hne⟩ := hi x hx
      exact (hother hne).trans (h.intact hx)
    · simp only [Function.update_of_ne hut] at hx
      refine (hother ?_).trans (h.intact hx)
      rintro rfl
      exact hut (hc.apart (h.todo_subset (intact_subset hx)) hns)
  · by_cases he : x = n
    · subst he
      obtain ⟨q, hq⟩ := hs hv
      exact ⟨q, by rw [node_setLine, if_pos rfl, hq]⟩
    · rw [hother he]
      exact h.same hx hv
  · rw [hother (by rintro rfl; exact hu hv)]
    exact h.untouched hx hv
  · simp only [todo_step ht] at hd
    rw [hother (by rintro rfl; exact hd (hc.apart hx hns ▸ hn))]
    exact h.waste hx hw hd
  · simpa only [todo_step ht] using h.freed
  · refine st.solid h.solid fun x hx hd => h.solid.alive hx ?_
    change ((s.store.setLine n l).node x).next.marked = true at hd
    rw [hnode hx] at hd
    exact hd
  · simp only [todo_step ht]
    rw [hlink, h.linked]
  · rw [hnode (hlink.1 hx)]
    exact h.complete (hlink.1 hx) hxt
  · rw [hother (Ne.symm hnh)]
    exact h.atHead
  · rw [hother (Ne.symm hnt)]
    exact h.atTail
  · rintro rfl
    exact hut (hc.apart (h.todo_subset hx) hns)

theorem free (hc : Chunks image slots) (h : Inv image slots s)
    (hpc : s.pc t = .free n todo) :
    Inv image slots ⟨s.store, Function.update s.pc t (.scan todo), n :: s.freed⟩ := by
  have ht : (s.pc t).todo = n :: (Pc.scan todo).todo := by rw [hpc]; rfl
  obtain ⟨hw, hm, hv⟩ : Waste (image n) ∧ (s.store.node n).next.marked = true ∧
      isValid (s.store.node n).metaData = true := by
    have := h.loc t
    rwa [hpc] at this
  refine ⟨h.suffix_step (Or.inr ⟨n, ht⟩), fun {u x} hx => ?_, h.same, h.untouched,
    fun {u x} hx hwx hd => ?_, ⟨?_, fun x => ?_⟩, h.solid, fun {x} => ?_, h.complete, h.atHead,
    h.atTail, h.loc_step trivial (Chain.Heap.Grows.refl _) fun _ _ _ _ => rfl⟩
  · by_cases hut : u = t
    · subst hut
      simp only [Function.update_self] at hx
      exact h.intact (by rw [hpc]; exact hx)
    · simp only [Function.update_of_ne hut] at hx
      exact h.intact hx
  · rcases (h.done_iff hc ht fun x => Waste (image x)).1 ⟨u, hx, hwx, hd⟩ with
      ⟨v, hv, _, hd⟩ | ⟨rfl, _⟩
    · exact h.waste hv hwx hd
    · exact ⟨hm, hv⟩
  · refine List.nodup_cons.2 ⟨fun hf => ?_, h.freed.1⟩
    obtain ⟨u, hu, _, hd⟩ := (h.freed.2 n).1 hf
    have hn : n ∈ (s.pc t).todo := ht ▸ List.mem_cons_self
    exact hd (hc.apart hu (h.todo_subset hn) ▸ hn)
  · rw [List.mem_cons, h.done_iff hc ht fun x => Waste (image x), h.freed.2]
    constructor
    · rintro (rfl | hx)
      · exact Or.inr ⟨rfl, hw⟩
      · exact Or.inl hx
    · rintro (hx | ⟨rfl, _⟩)
      · exact Or.inr hx
      · exact Or.inl rfl
  · rw [h.done_iff hc ht fun x => Live (image x), h.linked]
    exact or_congr_right (or_congr_right (or_iff_left fun he => hw.1 he.2).symm)

theorem link (hc : Chunks image slots) (h : Inv image slots s)
    (hpc : s.pc t = .link n p c todo) (hpn : (s.store.node p).next = Ptr.addr c) :
    Inv image slots ⟨s.store.write p { s.store.node p with next := Ptr.addr n },
      Function.update s.pc t (.scan todo), s.freed⟩ := by
  have ht : (s.pc t).todo = n :: (Pc.scan todo).todo := by rw [hpc]; rfl
  have hmem : n ∈ (s.pc t).todo := ht ▸ List.mem_cons_self
  have hns := h.todo_subset hmem
  obtain ⟨hnh, hnt⟩ := hc.inner hns
  have hnl := h.not_linked hc hmem
  obtain ⟨⟨hlive, hp, hcl, h1⟩, h2, hnn⟩ : Before image s.store n p c ∧
      (((image n).key : ℤ) : WithBot ℤ) < rank s.store c ∧ (s.store.node n).next = Ptr.addr c := by
    have := h.loc t
    rwa [hpc] at this
  obtain ⟨q, hq⟩ := h.same hns hlive
  have hpl : s.store.heap.Live {s.store.heap.head} p := Heap.live_singleton.2 hp
  have sp := link_splice hpl hpn (fun hl => hnl (Heap.live_singleton.1 hl)) hnn
  have hrank := next_rank s.store p (Ptr.addr n) n
  have hrn : rank s.store n = ((image n).key : ℤ) := by rw [rank_of_ne _ hnh, hq]
  have hlink : ∀ {x}, (s.store.write p { s.store.node p with next := Ptr.addr n }).heap.Linked x ↔
      s.store.heap.Linked x ∨ x = n := sp.linked h.solid.good
  have hpt : p ≠ tail := by
    rintro rfl
    rw [h.atTail.1] at hpn
    cases hpn
  have hother : ∀ {x}, x ≠ p →
      (s.store.write p { s.store.node p with next := Ptr.addr n }).node x = s.store.node x :=
    fun hx => by rw [node_write, if_neg hx]
  have hnode := node_next s.store p (Ptr.addr n)
  -- p is a sentinel or a live slot that some thread has linked
  have hps : ∀ {u}, p ∈ slots u → Live (image p) ∧ p ∉ (s.pc u).todo := by
    intro u hu
    obtain ⟨hph, hpt⟩ := hc.inner hu
    rcases h.linked.1 hp with he | he | ⟨v, hv, hlv, hd⟩
    · exact absurd he hph
    · exact absurd he hpt
    · exact ⟨hlv, hc.apart hv hu ▸ hd⟩
  refine ⟨h.suffix_step (Or.inr ⟨n, ht⟩), fun {u x} hx => ?_, fun {u x} hx hv => ?_,
    fun {u x} hx hv => ?_, fun {u x} hx hw hd => ?_, ⟨h.freed.1, fun x => ?_⟩, ?_, fun {x} => ?_,
    fun {x} hx hxt => ?_, ?_, ?_,
    h.loc_step trivial (sp.grows h.solid) fun u hut x hx => hother ?_⟩
  · have hx' : x ∈ (s.pc u).intact := by
      by_cases hut : u = t
      · subst hut
        simp only [Function.update_self] at hx
        rw [hpc]
        exact hx
      · simpa only [Function.update_of_ne hut] using hx
    refine (hother ?_).trans (h.intact hx')
    rintro rfl
    exact (hps (h.todo_subset (intact_subset hx'))).2 (intact_subset hx')
  · obtain ⟨r, hr⟩ := h.same hx hv
    by_cases he : x = p
    · subst he
      exact ⟨Ptr.addr n, by rw [node_write, if_pos rfl, hr]⟩
    · exact ⟨r, (hother he).trans hr⟩
  · refine (hother ?_).trans (h.untouched hx hv)
    rintro rfl
    exact (hps hx).1.2.2 hv.2
  · rcases (h.done_iff hc ht fun x => Waste (image x)).1 ⟨u, hx, hw, hd⟩ with
      ⟨v, hv, _, hd⟩ | ⟨rfl, hw⟩
    · rw [hother (by rintro rfl; exact hw.1 (hps hv).1)]
      exact h.waste hv hw hd
    · exact absurd hlive hw.1
  · rw [h.freed.2, h.done_iff hc ht fun x => Waste (image x)]
    exact (or_iff_left fun he => he.2.1 hlive).symm
  · refine sp.solid h.solid ?_ ?_
    · exact lt_of_lt_of_eq h1 (hrn.symm.trans hrank.symm)
    · exact lt_of_eq_of_lt (hrank.trans hrn) h2
  · rw [hlink, h.linked, h.done_iff hc ht fun x => Live (image x)]
    rw [and_iff_left hlive, or_assoc, or_assoc]
  · rw [hnode]
    split
    · exact nofun
    · rcases hlink.1 hx with hx | rfl
      · exact h.complete hx hxt
      · rw [hnn]
        exact nofun
  · rw [(next_key s.store p (Ptr.addr n) head).1]
    exact h.atHead
  · rw [hother (Ne.symm hpt)]
    exact h.atTail
  · rintro rfl
    exact (hps (h.todo_subset hx)).2 hx

theorem step (hc : Chunks image slots) (h : Inv image slots s) (hs : Step s s') :
    Inv image slots s' := by
  obtain ⟨t, σ, pc', hn⟩ := hs
  have hl := h.loc t
  have hin : ∀ {x}, x ∈ (s.pc t).intact → s.store.node x = image x := h.intact
  cases hpc : s.pc t with
  | scan todo =>
    rw [hpc] at hn hl
    cases todo with
    | nil => cases hn
    | cons n todo =>
      have hnode : s.store.node n = image n := hin (by rw [hpc]; exact List.mem_cons_self)
      simp only [next] at hn
      split at hn <;> obtain ⟨rfl, rfl⟩ := Prod.mk.inj (Option.some.inj hn)
      · next he =>
        have he : (image n).next = Ptr.null := hnode ▸ he
        exact h.read (by rw [hpc]; rfl) (by rw [hpc]; exact fun _ => id) he
      · next he =>
        refine h.read (by rw [hpc]; rfl) (by rw [hpc]; exact fun _ => id) fun hu => he ?_
        rw [hnode]
        exact hu.2
  | scanValid n todo =>
    rw [hpc] at hn hl
    have hnode : s.store.node n = image n := hin (by rw [hpc]; exact List.mem_cons_self)
    simp only [next] at hn
    split at hn <;> obtain ⟨rfl, rfl⟩ := Prod.mk.inj (Option.some.inj hn)
    · next hv =>
      exact h.skip hc (by rw [hpc]; rfl) (by rw [hpc]; exact fun _ => List.mem_cons_of_mem _)
        ⟨hnode ▸ hv, hl⟩ trivial
    · next hv =>
      exact h.read (by rw [hpc]; rfl) (by rw [hpc]; exact fun _ => id)
        fun hu => hv (hnode ▸ hu.1)
  | testValid n todo =>
    rw [hpc] at hn hl
    have hnode : s.store.node n = image n := hin (by rw [hpc]; exact List.mem_cons_self)
    simp only [next] at hn
    split at hn <;> obtain ⟨rfl, rfl⟩ := Prod.mk.inj (Option.some.inj hn)
    · next hv =>
      exact h.read (by rw [hpc]; rfl) (by rw [hpc]; exact fun _ => id) ⟨hl, hnode ▸ hv⟩
    · next hv =>
      exact h.read (by rw [hpc]; rfl) (by rw [hpc]; exact fun _ => id)
        ⟨fun hlv => hv (hnode ▸ hlv.1), hl⟩
  | testMark n todo =>
    rw [hpc] at hn hl
    have hnode : s.store.node n = image n := hin (by rw [hpc]; exact List.mem_cons_self)
    simp only [next, hnode] at hn
    split at hn <;> obtain ⟨rfl, rfl⟩ := Prod.mk.inj (Option.some.inj hn)
    · next hm =>
      exact h.read (by rw [hpc]; rfl) (by rw [hpc]; exact fun _ => id)
        ⟨fun hlv => Bool.false_ne_true (hlv.2.1.symm.trans hm), hl.1⟩
    · next hm =>
      exact h.read (by rw [hpc]; rfl) (by rw [hpc]; exact fun _ => List.mem_cons_of_mem _)
        ⟨hl.2, Bool.eq_false_iff.2 hm, fun he => hl.1 ⟨hl.2, he⟩⟩
  | resetNext n todo =>
    have hnd := h.nodup hc t
    rw [hpc] at hn hl hnd
    obtain ⟨rfl, rfl⟩ := Prod.mk.inj (Option.some.inj hn)
    have hl : Waste (image n) := hl
    refine h.off hc (by rw [hpc]; exact List.mem_cons_self) (by rw [hpc]; rfl) (fun x hx => ?_)
      (fun hlv => absurd hlv hl.1) hl.2 ⟨hl, ?_⟩
    · rw [hpc]
      exact ⟨List.mem_cons_of_mem _ hx, ne_of_mem_of_not_mem hx (List.nodup_cons.1 hnd).1⟩
    · rw [node_setLine, if_pos rfl]
      rfl
  | validLoad n todo =>
    rw [hpc] at hn hl
    simp only [next] at hn
    split at hn <;> obtain ⟨rfl, rfl⟩ := Prod.mk.inj (Option.some.inj hn)
    · next hv =>
      exact h.read (by rw [hpc]; rfl) (by rw [hpc]; exact fun _ => id) ⟨hl.1, hl.2, hv⟩
    · exact h.read (by rw [hpc]; rfl) (by rw [hpc]; exact fun _ => id) hl
  | validStore n old todo =>
    have hnd := h.nodup hc t
    rw [hpc] at hn hl hnd
    obtain ⟨rfl, rfl⟩ := Prod.mk.inj (Option.some.inj hn)
    refine h.off hc (by rw [hpc]; exact List.mem_cons_self) (by rw [hpc]; rfl) (fun x hx => ?_)
      (fun hlv => absurd hlv hl.1.1) hl.1.2 ⟨hl.1, ?_, ?_⟩
    · rw [hpc]
      exact ⟨hx, ne_of_mem_of_not_mem hx (List.nodup_cons.1 hnd).1⟩
    · rw [node_setLine, if_pos rfl]
      exact hl.2
    · rw [node_setLine, if_pos rfl]
      exact isValid_makeValid old
  | free n todo =>
    rw [hpc] at hn
    obtain ⟨rfl, rfl⟩ := Prod.mk.inj (Option.some.inj hn)
    exact h.free hc hpc
  | retry n todo =>
    rw [hpc] at hn hl
    simp only [next] at hn
    obtain ⟨c, hs, he⟩ := Option.map_eq_some_iff.1 hn
    obtain ⟨rfl, rfl⟩ := Prod.mk.inj he
    have hh : s.store.heap.Linked head := Heap.Reach.refl _
    refine h.read (by rw [hpc]; rfl) (by rw [hpc]; exact fun _ => id) ⟨hl, hh, hh.tail hs, ?_⟩
    rw [rank_head]
    exact WithBot.bot_lt_coe _
  | succLoad n p c todo =>
    rw [hpc] at hn hl
    have hcl : s.store.heap.Linked c := hl.2.2.1
    simp only [next] at hn
    split at hn
    · next hd => exact absurd hd (h.solid.alive hcl)
    · obtain ⟨rfl, rfl⟩ := Prod.mk.inj (Option.some.inj hn)
      exact h.read (by rw [hpc]; rfl) (by rw [hpc]; exact fun _ => id)
        ⟨hl, h.complete hcl, fun d hd => hcl.tail hd⟩
  | compare n p c succ todo =>
    have hns : n ∈ slots t := h.todo_subset (by rw [hpc]; exact List.mem_cons_self)
    rw [hpc] at hn hl
    obtain ⟨⟨hlive, hp, hcl, hlt⟩, _, hsucc⟩ := hl
    obtain ⟨q, hq⟩ := h.same hns hlive
    simp only [next, hq] at hn
    -- the head has the least key
    have hrc : c ≠ head → rank s.store c = ((s.store.node c).key : ℤ) := rank_of_ne _
    split at hn
    · next hk =>
      obtain ⟨d, hd, he⟩ := Option.map_eq_some_iff.1 hn
      obtain ⟨rfl, rfl⟩ := Prod.mk.inj he
      refine h.read (by rw [hpc]; rfl) (by rw [hpc]; exact fun _ => id)
        ⟨hlive, hcl, hsucc d hd, ?_⟩
      by_cases hch : c = head
      · rw [hch, rank_head]
        exact WithBot.bot_lt_coe _
      · rw [hrc hch]
        exact WithBot.coe_lt_coe.2 hk
    · next hk =>
      have hb := hc.bounded hns hlive
      have hch : c ≠ head := by
        rintro rfl
        rw [h.atHead] at hk
        exact hk hb.1
      split at hn
      · next he =>
        exfalso
        rcases h.linked.1 hcl with hh | rfl | ⟨u, hu, hlc, hd⟩
        · exact hch hh
        · rw [h.atTail.2] at he
          omega
        · obtain ⟨r, hr⟩ := h.same hu hlc
          rw [hr] at he
          obtain rfl := hc.unique hu hns hlc hlive he
          refine hd (hc.apart hns hu ▸ ?_)
          rw [hpc]
          exact List.mem_cons_self
      · next he =>
        obtain ⟨rfl, rfl⟩ := Prod.mk.inj (Option.some.inj hn)
        refine h.read (by rw [hpc]; rfl) (by rw [hpc]; exact fun _ => id)
          ⟨⟨hlive, hp, hcl, hlt⟩, ?_⟩
        rw [hrc hch]
        exact WithBot.coe_lt_coe.2 (lt_of_le_of_ne (not_lt.1 hk) (Ne.symm he))
  | nextStore n p c todo =>
    have hmem : n ∈ (s.pc t).todo := by rw [hpc]; exact List.mem_cons_self
    have hns := h.todo_subset hmem
    have hnl := h.not_linked hc hmem
    have hnd := h.nodup hc t
    rw [hpc] at hn hl hnd
    obtain ⟨rfl, rfl⟩ := Prod.mk.inj (Option.some.inj hn)
    obtain ⟨⟨hlive, hp, hcl, hlt⟩, hgt⟩ := hl
    have g : s.store.heap.Grows (s.store.setLine n ((s.store.line n).write
        { s.store.node n with next := Ptr.addr c })).heap := (steady_off hnl).grows h.solid
    refine h.off hc hmem (by rw [hpc]; rfl) (fun x hx => ?_) (fun hlv => ?_)
      (fun hu => hlive.2.2 hu.2)
      ⟨⟨hlive, g.linked hp, g.linked hcl, g.lt hp hlt⟩, g.gt hcl hgt, ?_⟩
    · rw [hpc]
      exact ⟨hx, ne_of_mem_of_not_mem hx (List.nodup_cons.1 hnd).1⟩
    · obtain ⟨q, hq⟩ := h.same hns hlv
      exact ⟨Ptr.addr c, by rw [Line.write_cur, hq]⟩
    · rw [node_setLine, if_pos rfl]
      rfl
  | link n p c todo =>
    rw [hpc] at hn hl
    simp only [next] at hn
    split at hn <;> obtain ⟨rfl, rfl⟩ := Prod.mk.inj (Option.some.inj hn)
    · next hpn => exact h.link hc hpc hpn
    · exact h.read (by rw [hpc]; rfl) (by rw [hpc]; exact fun _ => id) hl.1.1
  | failed =>
    rw [hpc] at hn
    cases hn

theorem run (hc : Chunks image slots) (h : Inv image slots s)
    (hr : Relation.ReflTransGen Step s s') : Inv image slots s' := by
  induction hr with
  | refl => exact h
  | tail _ hs ih => exact ih.step hc hs

theorem next_ne_none (hc : Chunks image slots) (h : Inv image slots s)
    (hd : s.pc t ≠ .scan []) : next s.store (s.pc t) ≠ none := by
  have hl := h.loc t
  cases hpc : s.pc t with
  | scan todo =>
    cases todo with
    | nil => exact absurd hpc hd
    | cons n todo =>
      simp only [next]
      split <;> exact nofun
  | retry n todo =>
    have hh : s.store.heap.Linked head := Heap.Reach.refl _
    have hne : head ≠ tail := by decide
    simpa [next] using h.complete hh hne
  | compare n p c succ todo =>
    have hns : n ∈ slots t := h.todo_subset (by rw [hpc]; exact List.mem_cons_self)
    rw [hpc] at hl
    obtain ⟨⟨hlive, _⟩, hsome, _⟩ := hl
    obtain ⟨q, hq⟩ := h.same hns hlive
    have hb := hc.bounded hns hlive
    simp only [next, hq]
    split
    · next hk =>
      have hct : c ≠ tail := by
        rintro rfl
        rw [h.atTail.2] at hk
        omega
      simpa using hsome hct
    · split <;> exact nofun
  | failed =>
    rw [hpc] at hl
    cases hl
  | scanValid n todo | testValid n todo | testMark n todo | validLoad n todo | succLoad n p c todo
  | link n p c todo =>
    simp only [next]
    split <;> exact nofun
  | resetNext n todo | validStore n old todo | free n todo | nextStore n p c todo => exact nofun

theorem init (zero : V) (junk : Uchar) (hc : Chunks image slots) :
    Inv image slots (initial zero junk image slots) := by
  have hslot : ∀ {t x}, x ∈ slots t → (restart zero junk image fun _ => false).node x = image x :=
    fun hx => congrArg Line.cur (if_neg (not_or.2 (hc.inner hx)))
  refine ⟨fun t => ⟨[], rfl⟩, hslot, fun {t x} hx _ => ⟨(image x).next, hslot hx⟩,
    fun hx _ => hslot hx, fun hx _ hn => absurd hx hn, ⟨List.nodup_nil, fun x => ?_⟩,
    restart_solid zero junk image _, fun {x} => ?_, fun {x} hx hxt => ?_, rfl, ⟨rfl, rfl⟩,
    fun _ => trivial⟩
  · exact iff_of_false List.not_mem_nil fun ⟨_, hx, _, hn⟩ => hn hx
  · refine (restart_linked zero junk image _).trans (or_congr_right (or_iff_left ?_).symm)
    exact fun ⟨_, hx, _, hn⟩ => hn hx
  · rcases (restart_linked zero junk image _).1 hx with rfl | rfl
    · exact nofun
    · exact absurd rfl hxt

end Inv

theorem linkFreeList_parallel_recovery (zero : V) (junk : Uchar) (hc : Chunks image slots)
    (hr : Relation.ReflTransGen Step (initial zero junk image slots) s) :
    (∀ t, s.pc t ≠ .scan [] → next s.store (s.pc t) ≠ none) ∧
    ((∀ t, s.pc t = .scan []) →
      (∃ xs, s.store.heap.Path head xs tail ∧
        ((head :: xs ++ [tail]).map fun x => (s.store.node x).key).Pairwise (· < ·) ∧
        (s.store.node tail).key = INT_MAX ∧ (s.store.node tail).next = Ptr.null ∧
        ∀ x, x ∈ xs ↔ ∃ t, x ∈ slots t ∧ Live (image x)) ∧
      ∀ t, ∀ x ∈ slots t,
        (Live (image x) → (s.store.node x).key = (image x).key ∧
          (s.store.node x).value = (image x).value ∧ (s.store.node x).next.marked = false) ∧
        (Untouched (image x) → s.store.node x = image x ∧ x ∉ s.freed) ∧
        (¬ Live (image x) → ¬ Untouched (image x) → s.freed.count x = 1 ∧
          (s.store.node x).next.marked = true ∧ isValid (s.store.node x).metaData = true)) := by
  have h := (Inv.init zero junk hc).run hc hr
  refine ⟨fun t => h.next_ne_none hc, fun hd => ?_⟩
  have htodo : ∀ t, (s.pc t).todo = [] := fun t => by rw [hd t]; rfl
  have hlinked : ∀ {x}, s.store.heap.Linked x ↔ x = head ∨ x = tail ∨
      ∃ t, x ∈ slots t ∧ Live (image x) := by
    intro x
    rw [h.linked]
    simp only [htodo, List.not_mem_nil, not_false_eq_true, and_true]
  have hfreed : ∀ x, x ∈ s.freed ↔ ∃ t, x ∈ slots t ∧ Waste (image x) := by
    intro x
    rw [h.freed.2]
    simp only [htodo, List.not_mem_nil, not_false_eq_true, and_true]
  refine ⟨?_, fun t x hx => ⟨fun hv => ?_, fun hu => ⟨h.untouched hx hu, fun hf => ?_⟩,
    fun hv hu => ?_⟩⟩
  · have hht : head ≠ tail := by decide
    obtain ⟨xs, hp, hs, hm⟩ := Heap.exists_path_ordered h.solid.ordered (Heap.Live.root rfl)
      (hlinked.2 (Or.inr (Or.inl rfl))) hht (congrArg Ptr.ref h.atTail.1)
    have hmem : ∀ x, x ∈ xs ↔ ∃ t, x ∈ slots t ∧ Live (image x) := by
      intro x
      rw [hm]
      constructor
      · rintro ⟨hx, hh, ht⟩
        rcases hlinked.1 hx with he | he | hx
        · exact absurd he hh
        · exact absurd he ht
        · exact hx
      · rintro ⟨t, hx, hv⟩
        exact ⟨hlinked.2 (Or.inr (Or.inr ⟨t, hx, hv⟩)), hc.inner hx⟩
    have hkey : ∀ x ∈ xs, ∃ t, x ∈ slots t ∧ Live (image x) ∧
        (s.store.node x).key = (image x).key := by
      intro x hx
      obtain ⟨t, hx, hv⟩ := (hmem x).1 hx
      obtain ⟨q, hq⟩ := h.same hx hv
      exact ⟨t, hx, hv, by rw [hq]⟩
    refine ⟨xs, hp, Heap.pairwise_ends ?_ (fun x hx => ?_) (fun x hx => ?_) ?_, h.atTail.2,
      h.atTail.1, hmem⟩
    · refine List.pairwise_map.2 ((List.pairwise_map.1 hs).imp_of_mem fun {x y} hx hy hlt => ?_)
      obtain ⟨t, hx, _⟩ := hkey x hx
      obtain ⟨u, hy, _⟩ := hkey y hy
      have hlt : rank s.store x < rank s.store y := hlt
      rw [rank_of_ne _ (hc.inner hx).1, rank_of_ne _ (hc.inner hy).1] at hlt
      exact WithBot.coe_lt_coe.1 hlt
    · obtain ⟨t, hx, hv, he⟩ := hkey x hx
      rw [he, h.atHead]
      exact (hc.bounded hx hv).1
    · obtain ⟨t, hx, hv, he⟩ := hkey x hx
      rw [he, h.atTail.2]
      exact (hc.bounded hx hv).2
    · rw [h.atHead, h.atTail.2]
      decide
  · obtain ⟨q, hq⟩ := h.same hx hv
    exact ⟨by rw [hq], by rw [hq], Bool.eq_false_iff.2 (h.solid.alive
      (hlinked.2 (Or.inr (Or.inr ⟨t, hx, hv⟩))))⟩
  · obtain ⟨u, _, hw⟩ := (hfreed x).1 hf
    exact hw.2 hu
  · have hw := h.waste hx ⟨hv, hu⟩ (by rw [htodo]; exact List.not_mem_nil)
    exact ⟨List.count_eq_one_of_mem h.freed.1 ((hfreed x).2 ⟨t, hx, hv, hu⟩), hw⟩

def schedule (s : State V) : List Tid → Option (State V)
  | [] => some s
  | t :: ts =>
    (next s.store (s.pc t)).bind fun r =>
      schedule ⟨r.1, Function.update s.pc t r.2, (s.pc t).freeing ++ s.freed⟩ ts

theorem run_of_schedule {ts : List Tid} (h : schedule s ts = some s') :
    Relation.ReflTransGen Step s s' := by
  induction ts generalizing s with
  | nil =>
    obtain rfl := Option.some.inj h
    exact Relation.ReflTransGen.refl
  | cons t ts ih =>
    obtain ⟨r, hr, h⟩ := Option.bind_eq_some_iff.1 h
    exact Relation.ReflTransGen.head (.tau t r.1 r.2 hr) (ih h)

def pairImage (x : Loc) : Node ℕ :=
  if x = 2 then ⟨0#8, false, false, 5, 7, Ptr.addr 9⟩
  else if x = 3 then ⟨0#8, false, false, 4, 8, Ptr.addr 9⟩
  else ⟨1#8, false, false, 0, 0, Ptr.null⟩

def pairSlots (t : Tid) : List Loc := if t = 0 then [2, 4] else if t = 1 then [3] else []

theorem chunks_pair : Chunks pairImage pairSlots where
  nodup t := by
    unfold pairSlots
    split
    · decide
    · split <;> decide
  apart ht hu := by grind [pairSlots]
  inner ht := by grind [pairSlots, head, tail]
  unique ht hu _ _ he := by grind [pairSlots, pairImage]
  bounded ht hv := by grind [pairSlots, pairImage, INT_MIN, INT_MAX]

-- thread 1 loses the race for the first link, and then links before the node of thread 0
def pairOrder : List Tid :=
  [0, 0, 0, 0, 0, 0, 0, 1, 1, 1, 1, 1, 1, 1, 0, 1, 1, 1, 1, 1, 1, 0, 0, 0, 0, 0, 0, 0]

theorem linkFreeList_parallel_recovery_two : ∃ s,
    schedule (initial 0 0#8 pairImage pairSlots) pairOrder = some s ∧ s.freed = [4] ∧
    (∃ xs, s.store.heap.Path head xs tail ∧
      ((head :: xs ++ [tail]).map fun x => (s.store.node x).key).Pairwise (· < ·) ∧
      (s.store.node tail).key = INT_MAX ∧ (s.store.node tail).next = Ptr.null ∧
      ∀ x, x ∈ xs ↔ ∃ t, x ∈ pairSlots t ∧ Live (pairImage x)) := by
  obtain ⟨s, hs, hf, hd⟩ : ∃ s, schedule (initial 0 0#8 pairImage pairSlots) pairOrder = some s ∧
      s.freed = [4] ∧ ∀ t, s.pc t = .scan [] := by
    refine ⟨_, rfl, rfl, fun t => ?_⟩
    rcases t with _ | _ | t <;> rfl
  exact ⟨s, hs, hf,
    ((linkFreeList_parallel_recovery 0 0#8 chunks_pair (run_of_schedule hs)).2 hd).1⟩

end LinkFree.List.Parallel
