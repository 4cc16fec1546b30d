import DurableSets.Core.Growth
import DurableSets.SOFT.ListRestore
import Mathlib.Data.List.Nodup

namespace SOFT.List.Parallel

open Chain

variable {V : Type}

-- the next access of recovery() and of the quickInsert it calls; todo are the slots of the
-- chunks that it has still to look at, failed is an assertion
inductive Pc where
  | scan (todo : List PLoc)
  | testDeleted (p : PLoc) (todo : List PLoc)
  | reset (p : PLoc) (todo : List PLoc)
  | free (p : PLoc) (todo : List PLoc)
  | newNode (p : PLoc) (todo : List PLoc)
  | retry (newNode : Loc) (todo : List PLoc)
  | succLoad (newNode pred : Loc) (st : NodeState) (curr : Loc) (todo : List PLoc)
  | compare (newNode pred : Loc) (st : NodeState) (curr : Loc) (succ : Ptr) (todo : List PLoc)
  | nextStore (newNode pred : Loc) (st : NodeState) (curr : Loc) (todo : List PLoc)
  | link (newNode pred : Loc) (st : NodeState) (curr : Loc) (todo : List PLoc)
  | failed
deriving DecidableEq

def next (σ : Store V) (slot : Loc) : Pc → Option (Store V × Pc)
  | .scan [] => none
  | .scan (p :: todo) =>
    if (σ.pnode p).isValid then some (σ, .testDeleted p todo) else some (σ, .reset p todo)
  | .testDeleted p todo =>
    if (σ.pnode p).isDeleted then some (σ, .reset p todo) else some (σ, .newNode p todo)
  | .reset p todo =>
    some (σ.writeP p { σ.pnode p with validStart := (σ.pnode p).validEnd }, .free p todo)
  | .free p todo => some (σ.giveP p, .scan todo)
  | .newNode p todo =>
    some ((σ.take slot).write slot (recoveredNode p (σ.pnode p)), .retry slot todo)
  | .retry n todo =>
    (σ.node head).next.ref.map fun c => (σ, .succLoad n head (σ.node head).next.state c todo)
  | .succLoad n pred st curr todo =>
    if (σ.node curr).next.getState = .deleted then some (σ, .failed)
    else some (σ, .compare n pred st curr (σ.node curr).next todo)
  | .compare n pred st curr succ todo =>
    if (σ.node curr).key < (σ.node n).key then
      succ.ref.map fun c => (σ, .succLoad n curr succ.state c todo)
    else if (σ.node curr).key = (σ.node n).key then some (σ, .failed)
    else some (σ, .nextStore n pred st curr todo)
  | .nextStore n pred st curr todo =>
    some (σ.setNext n (Ptr.addr curr .inserted), .link n pred st curr todo)
  | .link n pred st curr todo =>
    if (σ.node pred).next = Ptr.addr curr st then
      some (σ.setNext pred (Ptr.addr n .inserted), .scan todo)
    else some (σ, .retry n todo)
  | .failed => none

structure State (V : Type) where
  store : Store V
  pc : Tid → Pc

inductive Step (s : State V) : State V → Prop where
  | tau (t : Tid) (slot : Loc) (σ : Store V) (pc : Pc)
    (hn : next s.store slot (s.pc t) = some (σ, pc))
    (ha : ∀ p todo, s.pc t = .newNode p todo → s.store.avail slot = true) :
    Step s ⟨σ, Function.update s.pc t pc⟩

def initial (zero : V) (image : PLoc → PNode V) (fresh : PLoc → Bool)
    (slots : Tid → List PLoc) : State V where
  store := restore zero image fresh
  pc t := .scan (slots t)

-- the slots of the threads' chunks; fresh is the memory of later chunks
structure Chunks (zero : V) (image : PLoc → PNode V) (fresh : PLoc → Bool)
    (slots : Tid → List PLoc) : Prop where
  nodup : ∀ t, (slots t).Nodup
  apart : ∀ {t u p}, p ∈ slots t → p ∈ slots u → t = u
  finite : ∃ n, ∀ t, n ≤ t → slots t = []
  outside : ∀ p, (∃ t, p ∈ slots t) ∨
    fresh p = true ∧ image p = ⟨false, false, false, 0, zero⟩
  inside : ∀ {t p}, p ∈ slots t → fresh p = false
  whole : ∀ {t p}, p ∈ slots t → (image p).validEnd ≠ (image p).deleted →
    (image p).validStart = (image p).validEnd
  unique : ∀ {t u p q}, p ∈ slots t → q ∈ slots u → (image p).isValid = true →
    (image q).isValid = true → (image p).key = (image q).key → p = q
  bounded : ∀ {t p}, p ∈ slots t → (image p).isValid = true →
    INT_MIN < (image p).key ∧ (image p).key < INT_MAX

def Pc.todo : Pc → List PLoc
  | .scan todo => todo
  | .testDeleted p todo => p :: todo
  | .reset p todo => p :: todo
  | .free p todo => p :: todo
  | .newNode p todo => p :: todo
  | .retry _ todo => todo
  | .succLoad _ _ _ _ todo => todo
  | .compare _ _ _ _ _ todo => todo
  | .nextStore _ _ _ _ todo => todo
  | .link _ _ _ _ todo => todo
  | .failed => []

def Pc.pending : Pc → Option Loc
  | .retry n _ => some n
  | .succLoad n _ _ _ _ => some n
  | .compare n _ _ _ _ _ => some n
  | .nextStore n _ _ _ _ => some n
  | .link n _ _ _ _ => some n
  | _ => none

def Before (σ : Store V) (n d : Loc) (st : NodeState) (c : Loc) : Prop :=
  st = .inserted ∧ σ.heap.Linked d ∧ σ.heap.Linked c ∧ rank σ d < (σ.node n).key

def Local (image : PLoc → PNode V) (σ : Store V) : Pc → Prop
  | .scan _ => True
  | .testDeleted p _ => (image p).isValid = true
  | .reset p _ => ¬ (image p).isValid = true
  | .free p _ => ¬ (image p).isValid = true ∧ (σ.pnode p).validStart = (σ.pnode p).validEnd
  | .newNode p _ => (image p).isValid = true
  | .retry _ _ => True
  | .succLoad n d st c _ => Before σ n d st c
  | .compare n d st c succ _ => Before σ n d st c ∧ succ.state = .inserted ∧
      (c ≠ tail → succ.ref ≠ none) ∧ ∀ e, succ.ref = some e → σ.heap.Linked e
  | .nextStore n d st c _ => Before σ n d st c ∧ ((σ.node n).key : WithBot ℤ) < rank σ c
  | .link n d st c _ => Before σ n d st c ∧ ((σ.node n).key : WithBot ℤ) < rank σ c ∧
      (σ.node n).next = Ptr.addr c .inserted
  | .failed => False

structure Pending (image : PLoc → PNode V) (σ : Store V) (slots todo : List PLoc) (n : Loc) :
    Prop where
  unlinked : ¬ σ.heap.Linked n
  taken : σ.avail n = false
  stands : ∃ p ∈ slots, p ∉ todo ∧ Stands image σ p n ∧
    ∀ y, InList σ y → (σ.node y).pptr ≠ some p

structure Inv (zero : V) (image : PLoc → PNode V) (slots : Tid → List PLoc) (s : State V) :
    Prop where
  suffix : ∀ t, ∃ done, slots t = done ++ (s.pc t).todo
  kindred : ∀ {p c}, c ∈ (s.store.pline p).contents → Kindred (image p) c
  spent : ∀ {t p}, p ∈ slots t → ¬ (image p).isValid = true → p ∉ (s.pc t).todo →
    (s.store.pnode p).validStart = (s.store.pnode p).validEnd
  solid : s.store.heap.Solid
  state : ∀ {x}, s.store.heap.Linked x → (s.store.node x).next.state = .inserted
  tail_linked : s.store.heap.Linked tail
  tail_next : (s.store.node tail).next = ⟨none, .inserted⟩
  tail_key : (s.store.node tail).key = INT_MAX
  head_key : (s.store.node head).key = INT_MIN
  complete : ∀ {x}, s.store.heap.Linked x → x ≠ tail → (s.store.node x).next.ref ≠ none
  node : ∀ {x}, InList s.store x → ∃ t p, p ∈ slots t ∧ p ∉ (s.pc t).todo ∧
    Stands image s.store p x
  done : ∀ {t p}, p ∈ slots t → (image p).isValid = true → p ∈ (s.pc t).todo ∨
    ∃ x, (InList s.store x ∨ (s.pc t).pending = some x) ∧ (s.store.node x).pptr = some p
  pending : ∀ {t n}, (s.pc t).pending = some n →
    Pending image s.store (slots t) (s.pc t).todo n
  avail : ∀ {x}, s.store.avail x = true → ¬ s.store.heap.Linked x ∧
    (s.store.node x).pptr = none
  unused : ∃ N : ℕ, ∀ x, N ≤ x → s.store.avail x = true
  pavail : ∀ {p}, s.store.pavail p = true → ¬ (image p).isValid = true ∧
    (s.store.pnode p).validStart = (s.store.pnode p).validEnd
  pfresh : ∀ p, (∃ t, p ∈ slots t) ∨ s.store.pavail p = true
  owned : ∀ {x p}, (s.store.node x).pptr = some p → ∃ t, p ∈ slots t
  loc : ∀ t, Local image s.store (s.pc t)

variable {zero : V} {image : PLoc → PNode V} {fresh : PLoc → Bool} {slots : Tid → List PLoc}
  {s s' : State V} {σ : Store V} {pc : Pc} {t u : Tid} {n x d c slot : Loc} {p q : PLoc}
  {todo : List PLoc} {m : Node V} {st : NodeState}

theorem Local.mono (h : Local image s.store pc) (g : s.store.heap.Grows σ.heap)
    (hn : ∀ n, pc.pending = some n → σ.node n = s.store.node n)
    (hp : ∀ p ∈ pc.todo, σ.pnode p = s.store.pnode p) : Local image σ pc := by
  have hb : ∀ {n d st c}, pc.pending = some n → Before s.store n d st c → Before σ n d st c := by
    rintro n d st c hpn ⟨h1, h2, h3, h4⟩
    refine ⟨h1, g.linked h2, g.linked h3, ?_⟩
    rw [hn n hpn]
    exact g.lt h2 h4
  cases pc with
  | scan todo | retry n todo => trivial
  | testDeleted p todo | reset p todo | newNode p todo => exact h
  | free p todo =>
    refine ⟨h.1, ?_⟩
    rw [hp p List.mem_cons_self]
    exact h.2
  | succLoad n d st c todo => exact hb rfl h
  | compare n d st c succ todo =>
    exact ⟨hb rfl h.1, h.2.1, h.2.2.1, fun e he => g.linked (h.2.2.2 e he)⟩
  | nextStore n d st c todo =>
    refine ⟨hb rfl h.1, ?_⟩
    rw [hn n rfl]
    exact g.gt h.1.2.2.1 h.2
  | link n d st c todo =>
    refine ⟨hb rfl h.1, ?_, ?_⟩
    · rw [hn n rfl]
      exact g.gt h.1.2.2.1 h.2.1
    · rw [hn n rfl]
      exact h.2.2
  | failed => cases h

namespace Inv

theorem todo_subset (h : Inv zero image slots s) (hp : p ∈ (s.pc t).todo) : p ∈ slots t := by
  obtain ⟨done, hd⟩ := h.suffix t
  rw [hd]
  exact List.mem_append_right _ hp

theorem nodup (hc : Chunks zero image fresh slots) (h : Inv zero image slots s) (t : Tid) :
    (s.pc t).todo.Nodup := by
  obtain ⟨done, hd⟩ := h.suffix t
  have := hc.nodup t
  rw [hd] at this
  exact this.of_append_right

theorem suffix_step (h : Inv zero image slots s)
    (ht : (s.pc t).todo = pc.todo ∨ ∃ p, (s.pc t).todo = p :: pc.todo) (u : Tid) :
    ∃ done, slots u = done ++ (Function.update s.pc t pc u).todo := by
  obtain ⟨done, hd⟩ := h.suffix u
  by_cases hut : u = t
  · subst hut
    rw [Function.update_self]
    rcases ht with ht | ⟨p, ht⟩
    · exact ⟨done, ht ▸ hd⟩
    · exact ⟨done ++ [p], by rw [hd, ht, List.append_assoc]; rfl⟩
  · rw [Function.update_of_ne hut]
    exact ⟨done, hd⟩

theorem forall_update {P : Tid → Pc → Prop} (ht : P t pc) (hu : ∀ u, u ≠ t → P u (s.pc u))
    (u : Tid) : P u (Function.update s.pc t pc u) := by
  by_cases hut : u = t
  · subst hut
    rwa [Function.update_self]
  · rw [Function.update_of_ne hut]
    exact hu u hut

theorem valid_iff (hc : Chunks zero image fresh slots) (h : Inv zero image slots s)
    (hp : p ∈ slots t) : (s.store.pnode p).isValid = true ↔ (image p).isValid = true :=
  (h.kindred List.mem_cons_self).isValid fun hne => isValid_iff.2 ⟨hc.whole hp hne, hne⟩

theorem pending_ne (hc : Chunks zero image fresh slots) (h : Inv zero image slots s)
    (ht : (s.pc t).pending = some n) (hu : (s.pc u).pending = some x) (hne : u ≠ t) : x ≠ n := by
  rintro rfl
  obtain ⟨p, hp, _, hs, _⟩ := (h.pending ht).stands
  obtain ⟨q, hq, _, hs', _⟩ := (h.pending hu).stands
  obtain rfl := Option.some.inj (hs.2.1.symm.trans hs'.2.1)
  exact hne (hc.apart hq hp)

theorem read (h : Inv zero image slots s) (ht : (s.pc t).todo = pc.todo)
    (hp : (s.pc t).pending = pc.pending) (hl : Local image s.store pc) :
    Inv zero image slots ⟨s.store, Function.update s.pc t pc⟩ := by
  have htodo : ∀ u, (Function.update s.pc t pc u).todo = (s.pc u).todo :=
    forall_update (P := fun u pc => pc.todo = (s.pc u).todo) ht.symm fun _ _ => rfl
  have hpend : ∀ u, (Function.update s.pc t pc u).pending = (s.pc u).pending :=
    forall_update (P := fun u pc => pc.pending = (s.pc u).pending) hp.symm fun _ _ => rfl
  refine ⟨h.suffix_step (Or.inl ht), h.kindred, fun {u p} => ?_, h.solid, h.state, h.tail_linked,
    h.tail_next, h.tail_key, h.head_key, h.complete, fun {x} => ?_, fun {u p} => ?_,
    fun {u n} => ?_, h.avail, h.unused, h.pavail, h.pfresh, h.owned,
    forall_update (P := fun _ pc => Local image s.store pc) hl fun u _ => h.loc u⟩
  · simpa only [htodo] using h.spent (t := u) (p := p)
  · simpa only [htodo] using h.node (x := x)
  · simpa only [htodo, hpend] using h.done (t := u) (p := p)
  · simpa only [htodo, hpend] using h.pending (t := u) (n := n)

-- the list is as it was when a node outside of it is written
theorem off (h : Inv zero image slots s) (o : Off s.store σ x m)
    (hx : ¬ s.store.heap.Linked x) (hax : σ.avail x = false)
    (hun : ∃ N : ℕ, ∀ y, N ≤ y → σ.avail y = true)
    (hm : ∀ p, m.pptr = some p → ∃ t, p ∈ slots t)
    (hother : ∀ u, u ≠ t → ∀ n, (s.pc u).pending = some n → n ≠ x)
    (ht : (s.pc t).todo = pc.todo ∨ ∃ p, (image p).isValid = true ∧ (s.pc t).todo = p :: pc.todo)
    (hdone : ∀ {p}, p ∈ slots t → (image p).isValid = true →
      (p ∈ (s.pc t).todo ∨ ∃ y, (s.pc t).pending = some y ∧ (s.store.node y).pptr = some p) →
      p ∈ pc.todo ∨ (pc.pending = some x ∧ m.pptr = some p))
    (hp : ∀ {n}, pc.pending = some n → Pending image σ (slots t) pc.todo n)
    (hl : Local image σ pc) : Inv zero image slots ⟨σ, Function.update s.pc t pc⟩ := by
  have hlink : ∀ {y}, σ.heap.Linked y ↔ s.store.heap.Linked y := (o.steady hx).linked h.solid.good
  have hnode : ∀ {y}, s.store.heap.Linked y → σ.node y = s.store.node y := o.kept hx
  have hin : ∀ {y}, InList σ y ↔ InList s.store y := and_congr_left fun _ => hlink
  have hpn : ∀ {q}, σ.pnode q = s.store.pnode q := fun {q} => by rw [Store.pnode, o.pline]; rfl
  have hsub : ∀ u, ∀ q ∈ (Function.update s.pc t pc u).todo, q ∈ (s.pc u).todo := by
    refine forall_update (P := fun u pc => ∀ q ∈ pc.todo, q ∈ (s.pc u).todo) ?_ fun _ _ _ => id
    rcases ht with ht | ⟨p, _, ht⟩ <;> intro q hq <;> rw [ht]
    · exact hq
    · exact List.mem_cons_of_mem p hq
  have hsuf : (s.pc t).todo = pc.todo ∨ ∃ p, (s.pc t).todo = p :: pc.todo :=
    ht.imp_right fun ⟨p, _, hp⟩ => ⟨p, hp⟩
  refine ⟨h.suffix_step hsuf, ?_, fun {u q} hq hv hn => ?_,
    (o.steady hx).solid h.solid fun y hy hd => h.solid.alive hy ?_, fun {y} hy => ?_,
    hlink.2 h.tail_linked, ?_, ?_, ?_, fun {y} hy hyt => ?_, fun {y} hy => ?_, fun {u q} hq hv => ?_,
    fun {u n} => ?_, fun {y} hy => ?_, hun, fun {q} hq => ?_, fun q => ?_, fun {y q} hy => ?_,
    forall_update (P := fun _ pc => Local image σ pc) hl fun u hu => ?_⟩
  · rw [o.pline]
    exact h.kindred
  · rw [hpn]
    refine h.spent hq hv fun hm => hn ?_
    by_cases hut : u = t
    · subst hut
      simp only [Function.update_self]
      rcases ht with ht | ⟨p, hpv, ht⟩ <;> rw [ht] at hm
      · exact hm
      · refine (List.mem_cons.1 hm).resolve_left ?_
        rintro rfl
        exact hv hpv
    · simpa only [Function.update_of_ne hut] using hm
  · change (σ.node y).next.state = .deleted at hd
    rw [hnode hy] at hd
    exact hd
  · rw [hnode (hlink.1 hy)]
    exact h.state (hlink.1 hy)
  · rw [hnode h.tail_linked]
    exact h.tail_next
  · rw [hnode h.tail_linked]
    exact h.tail_key
  · rw [hnode (Heap.Reach.refl head)]
    exact h.head_key
  · rw [hnode (hlink.1 hy)]
    exact h.complete (hlink.1 hy) hyt
  · obtain ⟨u, q, hq, hn, hs⟩ := h.node (hin.1 hy)
    have he := hnode (hin.1 hy).1
    exact ⟨u, q, hq, fun hm => hn (hsub u q hm),
      hs.congr (congrArg Node.pptr he) (congrArg Node.stamp he)⟩
  · by_cases hut : u = t
    · subst hut
      simp only [Function.update_self]
      have hrest := hdone hq hv
      rcases h.done hq hv with hm | ⟨y, hy | hy, hyp⟩
      · exact (hrest (Or.inl hm)).imp_right fun ⟨h1, h2⟩ => ⟨x, Or.inr h1, by rw [o.self, h2]⟩
      · exact Or.inr ⟨y, Or.inl (hin.2 hy), by rw [hnode hy.1, hyp]⟩
      · exact (hrest (Or.inr ⟨y, hy, hyp⟩)).imp_right fun ⟨h1, h2⟩ =>
          ⟨x, Or.inr h1, by rw [o.self, h2]⟩
    · simp only [Function.update_of_ne hut]
      refine (h.done hq hv).imp_right ?_
      rintro ⟨y, hy | hy, hyp⟩
      · exact ⟨y, Or.inl (hin.2 hy), by rw [hnode hy.1, hyp]⟩
      · exact ⟨y, Or.inr hy, by rw [o.other (hother u hut y hy), hyp]⟩
  · by_cases hut : u = t
    · subst hut
      simp only [Function.update_self]
      exact hp
    · simp only [Function.update_of_ne hut]
      intro hn
      have hne := hother u hut n hn
      obtain ⟨h1, h2, q, hq, hqt, hs, hsole⟩ := h.pending hn
      refine ⟨fun hl => h1 (hlink.1 hl), ?_, q, hq, hqt, hs.congr ?_ ?_, fun y hy => ?_⟩
      · rw [Bool.eq_false_iff] at h2 ⊢
        exact fun ha => h2 (o.avail ha)
      · rw [o.other hne]
      · rw [o.other hne]
      · rw [hnode (hin.1 hy).1]
        exact hsole y (hin.1 hy)
  · have hyx : y ≠ x := by
      rintro rfl
      exact Bool.false_ne_true (hax.symm.trans hy)
    obtain ⟨h1, h2⟩ := h.avail (o.avail hy)
    exact ⟨fun hl => h1 (hlink.1 hl), by rw [o.other hyx, h2]⟩
  · rw [o.pavail] at hq
    rw [hpn]
    exact h.pavail hq
  · rw [o.pavail]
    exact h.pfresh q
  · by_cases hyx : y = x
    · subst hyx
      rw [o.self] at hy
      exact hm q hy
    · rw [o.other hyx] at hy
      exact h.owned hy
  · refine (h.loc u).mono ((o.steady hx).grows h.solid) (fun n hn => o.other (hother u hu n hn)) ?_
    exact fun q _ => hpn

theorem plines (h : Inv zero image slots s) {a : PLoc → Bool} {l : PLoc → Line (PNode V)}
    (hk : ∀ {p c}, c ∈ (l p).contents → Kindred (image p) c)
    (hother : ∀ u, u ≠ t → ∀ q ∈ slots u, l q = s.store.pline q)
    (hspent : ∀ {q}, q ∈ slots t → ¬ (image q).isValid = true → q ∉ pc.todo →
      (l q).cur.validStart = (l q).cur.validEnd)
    (ht : (s.pc t).todo = pc.todo ∨
      ∃ p, ¬ (image p).isValid = true ∧ (s.pc t).todo = p :: pc.todo)
    (ha : ∀ {q}, a q = true → ¬ (image q).isValid = true ∧
      (l q).cur.validStart = (l q).cur.validEnd)
    (hpf : ∀ q, s.store.pavail q = true → a q = true)
    (h0 : (s.pc t).pending = none) (h1 : pc.pending = none)
    (hl : Local image { s.store with pline := l, pavail := a } pc) :
    Inv zero image slots ⟨{ s.store with pline := l, pavail := a }, Function.update s.pc t pc⟩ := by
  have hsub : ∀ u, ∀ q ∈ (Function.update s.pc t pc u).todo, q ∈ (s.pc u).todo := by
    refine forall_update (P := fun u pc => ∀ q ∈ pc.todo, q ∈ (s.pc u).todo) ?_ fun _ _ _ => id
    rcases ht with ht | ⟨p, _, ht⟩ <;> intro q hq <;> rw [ht]
    · exact hq
    · exact List.mem_cons_of_mem p hq
  have hpend : ∀ u, (Function.update s.pc t pc u).pending = (s.pc u).pending :=
    forall_update (P := fun u pc => pc.pending = (s.pc u).pending) (h1.trans h0.symm) fun _ _ => rfl
  refine ⟨h.suffix_step (ht.imp_right fun ⟨p, _, hp⟩ => ⟨p, hp⟩), hk, fun {u q} hq hv hn => ?_,
    h.solid, h.state, h.tail_linked, h.tail_next, h.tail_key, h.head_key, h.complete,
    fun {x} hx => ?_, fun {u q} hq hv => ?_, fun {u n} hn => ?_, h.avail, h.unused, ha,
    fun q => (h.pfresh q).imp_right (hpf q), h.owned,
    forall_update (P := fun _ pc => Local image { s.store with pline := l, pavail := a } pc) hl
      fun u hu => ?_⟩
  · by_cases hut : u = t
    · subst hut
      simp only [Function.update_self] at hn
      exact hspent hq hv hn
    · simp only [Function.update_of_ne hut] at hn
      have := h.spent hq hv hn
      rwa [Store.pnode, ← hother u hut q hq] at this
  · obtain ⟨u, q, hq, hn, hs⟩ := h.node hx
    exact ⟨u, q, hq, fun hm => hn (hsub u q hm), hs⟩
  · simp only [hpend]
    refine (h.done hq hv).imp_left fun hm => ?_
    by_cases hut : u = t
    · subst hut
      simp only [Function.update_self]
      rcases ht with ht | ⟨p, hpv, ht⟩ <;> rw [ht] at hm
      · exact hm
      · refine (List.mem_cons.1 hm).resolve_left ?_
        rintro rfl
        exact hpv hv
    · simpa only [Function.update_of_ne hut] using hm
  · rw [hpend] at hn
    obtain ⟨h2, h3, q, hq, hqt, hs, hsole⟩ := h.pending hn
    exact ⟨h2, h3, q, hq, fun hm => hqt (hsub u q hm), hs, hsole⟩
  · refine (h.loc u).mono (Heap.Grows.refl _) (fun _ _ => rfl) fun q hq => ?_
    exact congrArg Line.cur (hother u hu q (h.todo_subset hq))

theorem reset (hc : Chunks zero image fresh slots) (h : Inv zero image slots s)
    (hpc : s.pc t = .reset p todo) : Inv zero image slots
      ⟨s.store.writeP p { s.store.pnode p with validStart := (s.store.pnode p).validEnd },
        Function.update s.pc t (.free p todo)⟩ := by
  have hmem : p ∈ (s.pc t).todo := by rw [hpc]; exact List.mem_cons_self
  have hl : ¬ (image p).isValid = true := by
    have := h.loc t
    rwa [hpc] at this
  have hother : ∀ {q}, q ≠ p → Function.update s.store.pline p ((s.store.pline p).write
      { s.store.pnode p with validStart := (s.store.pnode p).validEnd }) q = s.store.pline q :=
    fun hq => Function.update_of_ne hq _ _
  refine h.plines ?_ (fun u hu q hq => hother ?_) ?_ (Or.inl (by rw [hpc]; rfl)) ?_ (fun _ => id)
    (by rw [hpc]; rfl) rfl ⟨hl, ?_⟩
  · intro q c hq
    by_cases he : q = p
    · subst he
      rw [Function.update_self, Line.mem_write] at hq
      rcases hq with rfl | hq
      · obtain ⟨_, k2, k3, k4, k5⟩ := h.kindred (p := q) List.mem_cons_self
        exact ⟨Or.inr k2, k2, k3, k4, k5⟩
      · exact h.kindred hq
    · rw [hother he] at hq
      exact h.kindred hq
  · rintro rfl
    exact hu (hc.apart hq (h.todo_subset hmem))
  · intro q hq hv hn
    have he : q ≠ p := by
      rintro rfl
      exact hn List.mem_cons_self
    rw [hother he]
    exact h.spent hq hv (by rw [hpc]; exact hn)
  · intro q hq
    refine ⟨(h.pavail hq).1, ?_⟩
    by_cases he : q = p
    · subst he
      rw [Function.update_self]
      rfl
    · rw [hother he]
      exact (h.pavail hq).2
  · change (Function.update s.store.pline p _ p).cur.validStart =
      (Function.update s.store.pline p _ p).cur.validEnd
    rw [Function.update_self]
    rfl

theorem free (h : Inv zero image slots s)
    (hpc : s.pc t = .free p todo) : Inv zero image slots
      ⟨s.store.giveP p, Function.update s.pc t (.scan todo)⟩ := by
  obtain ⟨h1, h2⟩ : ¬ (image p).isValid = true ∧
      (s.store.pnode p).validStart = (s.store.pnode p).validEnd := by
    have := h.loc t
    rwa [hpc] at this
  refine h.plines h.kindred (fun _ _ _ _ => rfl) ?_ (Or.inr ⟨p, h1, by rw [hpc]; rfl⟩) ?_ ?_
    (by rw [hpc]; rfl) rfl trivial
  · intro q hq hv hn
    by_cases he : q = p
    · rw [he]
      exact h2
    · refine h.spent hq hv ?_
      rw [hpc]
      exact fun hm => (List.mem_cons.1 hm).elim he hn
  · intro q hq
    by_cases he : q = p
    · rw [he]
      exact ⟨h1, h2⟩
    · exact h.pavail ((Function.update_of_ne he _ _).symm.trans hq)
  · intro q hq
    by_cases he : q = p
    · rw [he]
      exact Function.update_self _ _ _
    · exact (Function.update_of_ne he _ _).trans hq

theorem newNode (hc : Chunks zero image fresh slots) (h : Inv zero image slots s)
    (hpc : s.pc t = .newNode p todo) (ha : s.store.avail slot = true) : Inv zero image slots
      ⟨(s.store.take slot).write slot (recoveredNode p (s.store.pnode p)),
        Function.update s.pc t (.retry slot todo)⟩ := by
  have hmem : p ∈ (s.pc t).todo := by rw [hpc]; exact List.mem_cons_self
  have hps := h.todo_subset hmem
  have hnd := h.nodup hc t
  have hl : (image p).isValid = true := by
    have := h.loc t
    rwa [hpc] at this
  rw [hpc] at hnd
  have he : s.store.pnode p = image p := (h.kindred List.mem_cons_self).eq hl
  have hx := (h.avail ha).1
  have o : Off s.store ((s.store.take slot).write slot (recoveredNode p (s.store.pnode p))) slot
      (recoveredNode p (s.store.pnode p)) := by
    refine ⟨rfl, fun {y} hy => ?_, rfl, rfl⟩
    by_cases hys : y = slot
    · exact hys ▸ ha
    · exact (Function.update_of_ne hys _ _).symm.trans hy
  have hin : ∀ {y}, InList ((s.store.take slot).write slot (recoveredNode p (s.store.pnode p))) y →
      InList s.store y := fun hy => ⟨((o.steady hx).linked h.solid.good).1 hy.1, hy.2⟩
  refine h.off o hx (Function.update_self _ _ _) ?_ (fun q hq => ?_) (fun u _ n hn => ?_)
    (Or.inr ⟨p, hl, by rw [hpc]; rfl⟩) ?_ ?_ trivial
  · obtain ⟨N, hN⟩ := h.unused
    refine ⟨max N (slot + 1), fun y hy => ?_⟩
    have hne : y ≠ slot := by omega
    exact (Function.update_of_ne hne _ _).trans (hN y (by omega))
  · obtain rfl := Option.some.inj hq
    exact ⟨t, hps⟩
  · rintro rfl
    exact Bool.false_ne_true ((h.pending hn).taken.symm.trans ha)
  · rintro q _ _ (hq | ⟨y, hy, _⟩)
    · rw [hpc] at hq
      rcases List.mem_cons.1 hq with rfl | hq
      · exact Or.inr ⟨rfl, rfl⟩
      · exact Or.inl hq
    · rw [hpc] at hy
      cases hy
  · intro n hn
    obtain rfl := Option.some.inj hn
    refine ⟨fun hl => hx (((o.steady hx).linked h.solid.good).1 hl), Function.update_self _ _ _,
      p, hps, (List.nodup_cons.1 hnd).1, ⟨hl, ?_, ?_⟩, fun y hy hpy => ?_⟩
    · rw [o.self]
      rfl
    · rw [o.self, he]
      rfl
    · rw [o.kept hx (hin hy).1] at hpy
      obtain ⟨u, q, hq, hqt, hst⟩ := h.node (hin hy)
      obtain rfl := Option.some.inj (hpy.symm.trans hst.2.1)
      exact hqt (hc.apart hps hq ▸ hmem)

theorem nextStore (hc : Chunks zero image fresh slots) (h : Inv zero image slots s)
    (hpc : s.pc t = .nextStore n d st c todo) : Inv zero image slots
      ⟨s.store.setNext n (Ptr.addr c .inserted), Function.update s.pc t (.link n d st c todo)⟩ := by
  have hpn : (s.pc t).pending = some n := by rw [hpc]; rfl
  obtain ⟨hnl, hav, p, hp, hpt, hstands, hsole⟩ := h.pending hpn
  obtain ⟨⟨hst, hd, hcl, hlt⟩, hgt⟩ : Before s.store n d st c ∧
      ((s.store.node n).key : WithBot ℤ) < rank s.store c := by
    have := h.loc t
    rwa [hpc] at this
  have o : Off s.store (s.store.setNext n (Ptr.addr c .inserted)) n
      { s.store.node n with next := Ptr.addr c .inserted } := ⟨rfl, id, rfl, rfl⟩
  have hlink : ∀ {y}, (s.store.setNext n (Ptr.addr c .inserted)).heap.Linked y ↔
      s.store.heap.Linked y := (o.steady hnl).linked h.solid.good
  have hrank := setNext_rank s.store n (Ptr.addr c .inserted)
  have hdata := setNext_data s.store n (Ptr.addr c .inserted)
  refine h.off o hnl hav h.unused (fun q hq => h.owned hq)
    (fun u hu m hm => h.pending_ne hc hpn hm hu) (Or.inl (by rw [hpc]; rfl)) ?_ ?_
    ⟨⟨hst, hlink.2 hd, hlink.2 hcl, ?_⟩, ?_, ?_⟩
  · rintro q _ _ (hq | ⟨y, hy, hq⟩)
    · rw [hpc] at hq
      exact Or.inl hq
    · obtain rfl := Option.some.inj (hpn.symm.trans hy)
      exact Or.inr ⟨rfl, hq⟩
  · intro y hy
    obtain rfl := Option.some.inj hy
    rw [hpc] at hpt
    refine ⟨fun hl => hnl (hlink.1 hl), hav, p, hp, hpt,
      hstands.congr (hdata n).2.1 (hdata n).2.2, fun z hz => ?_⟩
    rw [(hdata z).2.1]
    exact hsole z ⟨hlink.1 hz.1, hz.2⟩
  · rw [hrank, (hdata n).1]
    exact hlt
  · rw [hrank, (hdata n).1]
    exact hgt
  · rw [setNext_next, if_pos rfl]

theorem link (hc : Chunks zero image fresh slots) (h : Inv zero image slots s)
    (hpc : s.pc t = .link n d st c todo) (hdn : (s.store.node d).next = Ptr.addr c st) :
    Inv zero image slots
      ⟨s.store.setNext d (Ptr.addr n .inserted), Function.update s.pc t (.scan todo)⟩ := by
  have hpn : (s.pc t).pending = some n := by rw [hpc]; rfl
  obtain ⟨hnl, hav, p, hp, hpt, hstands, hsole⟩ := h.pending hpn
  obtain ⟨⟨rfl, hd, hcl, hlt⟩, hgt, hnn⟩ : Before s.store n d st c ∧
      ((s.store.node n).key : WithBot ℤ) < rank s.store c ∧
      (s.store.node n).next = Ptr.addr c .inserted := by
    have := h.loc t
    rwa [hpc] at this
  have hnh : n ≠ head := by
    rintro rfl
    exact hnl (Heap.Reach.refl _)
  have hnt : n ≠ tail := by
    rintro rfl
    exact hnl h.tail_linked
  have hdt : d ≠ tail := by
    rintro rfl
    rw [h.tail_next] at hdn
    cases hdn
  have sp := link_splice (Heap.live_singleton.2 hd) hdn nofun
    (fun hl => hnl (Heap.live_singleton.1 hl)) hnn nofun
  have hlink : ∀ {y}, (s.store.setNext d (Ptr.addr n .inserted)).heap.Linked y ↔
      s.store.heap.Linked y ∨ y = n := sp.linked h.solid.good
  have hin : ∀ {y}, InList (s.store.setNext d (Ptr.addr n .inserted)) y ↔
      InList s.store y ∨ y = n := by
    intro y
    unfold InList
    rw [hlink, or_and_right]
    refine or_congr_right ⟨And.left, ?_⟩
    rintro rfl
    exact ⟨rfl, hnh, hnt⟩
  have hdata := setNext_data s.store d (Ptr.addr n .inserted)
  have hnext := setNext_next s.store d (Ptr.addr n .inserted)
  have hrank := setNext_rank s.store d (Ptr.addr n .inserted)
  have hrn : rank s.store n = ((s.store.node n).key : ℤ) := rank_of_ne _ hnh
  have htodo : ∀ u, (Function.update s.pc t (.scan todo) u).todo = (s.pc u).todo :=
    forall_update (P := fun u pc => pc.todo = (s.pc u).todo) (by rw [hpc]; rfl) fun _ _ => rfl
  have hpend : ∀ u, u ≠ t →
      (Function.update s.pc t (.scan todo) u).pending = (s.pc u).pending := fun u hu => by
    rw [Function.update_of_ne hu]
  have hnone : (Function.update s.pc t (.scan todo) t).pending = none := by
    rw [Function.update_self]
    rfl
  refine ⟨h.suffix_step (Or.inl (by rw [hpc]; rfl)), h.kindred, fun {u q} hq hv hn => ?_,
    sp.solid h.solid ?_ ?_, fun {y} hy => ?_, hlink.2 (Or.inl h.tail_linked), ?_,
    (hdata tail).1.trans h.tail_key, (hdata head).1.trans h.head_key, fun {y} hy hyt => ?_,
    fun {y} hy => ?_, fun {u q} hq hv => ?_, fun {u m} hm => ?_, fun {y} hy => ?_, h.unused,
    h.pavail, h.pfresh, fun {y q} hy => ?_,
    forall_update (P := fun _ pc => Local image (s.store.setNext d (Ptr.addr n .inserted)) pc)
      trivial fun u hu => ?_⟩
  · simp only [htodo] at hn
    exact h.spent hq hv hn
  · exact lt_of_lt_of_eq hlt (hrn.symm.trans (hrank n).symm)
  · exact lt_of_eq_of_lt ((hrank n).trans hrn) hgt
  · rw [hnext]
    split
    · rfl
    · rcases hlink.1 hy with hy | rfl
      · exact h.state hy
      · rw [hnn]
        rfl
  · rw [hnext, if_neg (Ne.symm hdt)]
    exact h.tail_next
  · rw [hnext]
    split
    · exact Option.some_ne_none _
    · rcases hlink.1 hy with hy | rfl
      · exact h.complete hy hyt
      · rw [hnn]
        exact Option.some_ne_none _
  · simp only [htodo]
    rcases hin.1 hy with hy | rfl
    · obtain ⟨u, q, hq, hqt, hs⟩ := h.node hy
      exact ⟨u, q, hq, hqt, hs.congr (hdata y).2.1 (hdata y).2.2⟩
    · exact ⟨t, p, hp, hpt, hstands.congr (hdata y).2.1 (hdata y).2.2⟩
  · simp only [htodo]
    refine (h.done hq hv).imp_right ?_
    rintro ⟨y, hy | hy, hyp⟩
    · exact ⟨y, Or.inl (hin.2 (Or.inl hy)), (hdata y).2.1.trans hyp⟩
    · by_cases hut : u = t
      · subst hut
        obtain rfl := Option.some.inj (hpn.symm.trans hy)
        exact ⟨n, Or.inl (hin.2 (Or.inr rfl)), (hdata n).2.1.trans hyp⟩
      · exact ⟨y, Or.inr ((hpend u hut).trans hy), (hdata y).2.1.trans hyp⟩
  · by_cases hut : u = t
    · subst hut
      exact nomatch hnone.symm.trans hm
    · have hm := (hpend u hut).symm.trans hm
      have hne := h.pending_ne hc hpn hm hut
      obtain ⟨h1, h2, q, hq, hqt, hs, hsole'⟩ := h.pending hm
      rw [htodo]
      refine ⟨fun hl => (hlink.1 hl).elim h1 hne, h2, q, hq, hqt,
        hs.congr (hdata m).2.1 (hdata m).2.2, fun y hy => ?_⟩
      rw [(hdata y).2.1]
      rcases hin.1 hy with hy | rfl
      · exact hsole' y hy
      · intro he
        obtain rfl := Option.some.inj (hstands.2.1.symm.trans he)
        exact hut (hc.apart hq hp)
  · obtain ⟨h1, h2⟩ := h.avail hy
    refine ⟨fun hl => (hlink.1 hl).elim h1 ?_, (hdata y).2.1.trans h2⟩
    rintro rfl
    exact Bool.false_ne_true (hav.symm.trans hy)
  · exact h.owned ((hdata y).2.1.symm.trans hy)
  · refine (h.loc u).mono (sp.grows h.solid) (fun m hm => ?_) fun _ _ => rfl
    refine node_write_other _ _ ?_
    rintro rfl
    exact (h.pending hm).unlinked hd

theorem step (hc : Chunks zero image fresh slots) (h : Inv zero image slots s) (hs : Step s s') :
    Inv zero image slots s' := by
  obtain ⟨t, slot, σ, pc', hn, ha⟩ := hs
  have hl := h.loc t
  cases hpc : s.pc t with
  | scan todo =>
    rw [hpc] at hn
    cases todo with
    | nil => cases hn
    | cons p todo =>
      have hv := h.valid_iff hc (h.todo_subset (by rw [hpc]; exact List.mem_cons_self))
      simp only [next] at hn
      split at hn <;> obtain ⟨rfl, rfl⟩ := Prod.mk.inj (Option.some.inj hn)
      · next hp => exact h.read (by rw [hpc]; rfl) (by rw [hpc]; rfl) (hv.1 hp)
      · next hp =>
        exact h.read (by rw [hpc]; rfl) (by rw [hpc]; rfl) fun hi => hp (hv.2 hi)
  | testDeleted p todo =>
    rw [hpc] at hn hl
    have hv := h.valid_iff hc (h.todo_subset (by rw [hpc]; exact List.mem_cons_self))
    simp only [next] at hn
    split at hn <;> obtain ⟨rfl, rfl⟩ := Prod.mk.inj (Option.some.inj hn)
    · next hp =>
      have hd := (isValid_iff.1 (hv.2 hl)).2
      simp [PNode.isDeleted, hd] at hp
    · exact h.read (by rw [hpc]; rfl) (by rw [hpc]; rfl) hl
  | reset p todo =>
    rw [hpc] at hn
    obtain ⟨rfl, rfl⟩ := Prod.mk.inj (Option.some.inj hn)
    exact h.reset hc hpc
  | free p todo =>
    rw [hpc] at hn
    obtain ⟨rfl, rfl⟩ := Prod.mk.inj (Option.some.inj hn)
    exact h.free hpc
  | newNode p todo =>
    rw [hpc] at hn
    obtain ⟨rfl, rfl⟩ := Prod.mk.inj (Option.some.inj hn)
    exact h.newNode hc hpc (ha p todo hpc)
  | retry n todo =>
    rw [hpc] at hn
    simp only [next] at hn
    obtain ⟨c, hs, he⟩ := Option.map_eq_some_iff.1 hn
    obtain ⟨rfl, rfl⟩ := Prod.mk.inj he
    have hh : s.store.heap.Linked head := Heap.Reach.refl _
    refine h.read (by rw [hpc]; rfl) (by rw [hpc]; rfl) ⟨h.state hh, hh, hh.tail hs, ?_⟩
    rw [rank_head]
    exact WithBot.bot_lt_coe _
  | succLoad n d st c todo =>
    rw [hpc] at hn hl
    have hcl : s.store.heap.Linked c := hl.2.2.1
    simp only [next] at hn
    split at hn
    · next hd => exact absurd hd (h.solid.alive hcl)
    · obtain ⟨rfl, rfl⟩ := Prod.mk.inj (Option.some.inj hn)
      exact h.read (by rw [hpc]; rfl) (by rw [hpc]; rfl)
        ⟨hl, h.state hcl, h.complete hcl, fun e he => hcl.tail he⟩
  | compare n d st c succ todo =>
    have hpn : (s.pc t).pending = some n := by rw [hpc]; rfl
    obtain ⟨_, _, p, hp, _, hstands, hsole⟩ := h.pending hpn
    rw [hpc] at hn hl
    obtain ⟨⟨hst, hd, hcl, hlt⟩, hss, _, hsucc⟩ := hl
    have hb := hc.bounded hp hstands.1
    simp only [next] at hn
    split at hn
    · next hk =>
      obtain ⟨e, he, heq⟩ := Option.map_eq_some_iff.1 hn
      obtain ⟨rfl, rfl⟩ := Prod.mk.inj heq
      refine h.read (by rw [hpc]; rfl) (by rw [hpc]; rfl) ⟨hss, hcl, hsucc e he, ?_⟩
      by_cases hch : c = head
      · rw [hch, rank_head]
        exact WithBot.bot_lt_coe _
      · rw [rank_of_ne _ hch]
        exact WithBot.coe_lt_coe.2 hk
    · next hk =>
      have hch : c ≠ head := by
        rintro rfl
        rw [h.head_key, hstands.key] at hk
        exact hk hb.1
      split at hn
      · next he =>
        -- the slot of that node has the key, and so it is the slot in hand
        exfalso
        rw [hstands.key] at he
        by_cases hct : c = tail
        · subst hct
          rw [h.tail_key] at he
          omega
        · obtain ⟨u, q, hq, _, hqs⟩ := h.node ⟨hcl, hch, hct⟩
          rw [hqs.key] at he
          obtain rfl := hc.unique hq hp hqs.1 hstands.1 he
          exact hsole c ⟨hcl, hch, hct⟩ hqs.2.1
      · next he =>
        obtain ⟨rfl, rfl⟩ := Prod.mk.inj (Option.some.inj hn)
        refine h.read (by rw [hpc]; rfl) (by rw [hpc]; rfl) ⟨⟨hst, hd, hcl, hlt⟩, ?_⟩
        rw [rank_of_ne _ hch]
        exact WithBot.coe_lt_coe.2 (lt_of_le_of_ne (not_lt.1 hk) (Ne.symm he))
  | nextStore n d st c todo =>
    rw [hpc] at hn
    obtain ⟨rfl, rfl⟩ := Prod.mk.inj (Option.some.inj hn)
    exact h.nextStore hc hpc
  | link n d st c todo =>
    rw [hpc] at hn
    simp only [next] at hn
    split at hn <;> obtain ⟨rfl, rfl⟩ := Prod.mk.inj (Option.some.inj hn)
    · next hdn => exact h.link hc hpc hdn
    · exact h.read (by rw [hpc]; rfl) (by rw [hpc]; rfl) trivial
  | failed =>
    rw [hpc] at hn
    cases hn

theorem run (hc : Chunks zero image fresh slots) (h : Inv zero image slots s)
    (hr : Relation.ReflTransGen Step s s') : Inv zero image slots s' := by
  induction hr with
  | refl => exact h
  | tail _ hs ih => exact ih.step hc hs

theorem exists_next (hc : Chunks zero image fresh slots) (h : Inv zero image slots s)
    (hd : s.pc t ≠ .scan []) :
    ∃ slot, s.store.avail slot = true ∧ next s.store slot (s.pc t) ≠ none := by
  obtain ⟨N, hN⟩ := h.unused
  refine ⟨N, hN N le_rfl, ?_⟩
  have hl := h.loc t
  cases hpc : s.pc t with
  | scan todo =>
    cases todo with
    | nil => exact absurd hpc hd
    | cons p todo =>
      simp only [next]
      split <;> exact nofun
  | retry n todo =>
    have hne : head ≠ tail := by decide
    simpa [next] using h.complete (Heap.Reach.refl head) hne
  | compare n d st c succ todo =>
    have hpn : (s.pc t).pending = some n := by rw [hpc]; rfl
    obtain ⟨_, _, p, hp, _, hstands, _⟩ := h.pending hpn
    rw [hpc] at hl
    have hb := hc.bounded hp hstands.1
    simp only [next]
    split
    · next hk =>
      have hct : c ≠ tail := by
        rintro rfl
        rw [h.tail_key, hstands.key] at hk
        omega
      simpa using hl.2.2.1 hct
    · split <;> exact nofun
  | failed =>
    rw [hpc] at hl
    cases hl
  | testDeleted p todo | succLoad n d st c todo | link n d st c todo =>
    simp only [next]
    split <;> exact nofun
  | reset p todo | free p todo | newNode p todo | nextStore n d st c todo => exact nofun

theorem init (hc : Chunks zero image fresh slots) :
    Inv zero image slots (initial zero image fresh slots) := by
  have hi := (inv_initial zero).mem.chain
  have hlink : ∀ {x}, (restore zero image fresh).heap.Linked x ↔ x = head ∨ x = tail :=
    initial_linked_iff zero
  have hin : ∀ {x}, ¬ InList (restore zero image fresh) x := fun hx =>
    (hlink.1 hx.1).elim hx.2.1 hx.2.2
  have hpptr : ∀ x, ((restore zero image fresh).node x).pptr = none := by
    intro x
    simp only [restore, initialStore]
    split
    · rfl
    · split <;> rfl
  have hout : ∀ {p}, fresh p = true → image p = ⟨false, false, false, 0, zero⟩ := by
    intro p hp
    rcases hc.outside p with ⟨t, ht⟩ | ⟨_, he⟩
    · exact absurd ((hc.inside ht).symm.trans hp) Bool.false_ne_true
    · exact he
  refine ⟨fun t => ⟨[], rfl⟩, fun {p c} hm => ?_, fun hp _ hn => absurd hp hn, initial_solid zero,
    fun {x} _ => ?_, hi.tail_linked, hi.tail_next, hi.tail_key, rfl, fun {x} hx => ?_,
    fun hx => absurd hx hin, fun hp _ => Or.inl hp, (fun h => by cases h),
    fun {x} hx => ⟨fun hl => ?_, hpptr x⟩,
    ⟨2, fun x hx => ?_⟩, fun {p} hp => ?_, fun p => (hc.outside p).imp_right And.left,
    fun {x p} hp => absurd ((hpptr x).symm.trans hp) (by rintro ⟨⟩), fun _ => trivial⟩
  · obtain rfl : c = image p := List.mem_singleton.1 hm
    exact Kindred.refl _
  · exact (congrArg Ptr.state (initial_node zero x)).trans (by split <;> rfl)
  · exact hi.complete (hi.good.live_of_linked hx)
  · exact hi.fresh hx (hi.good.live_of_linked hl)
  · have h0 : x ≠ head := by rintro rfl; exact absurd hx (by decide)
    have h1 : x ≠ tail := by rintro rfl; exact absurd hx (by decide)
    simp [initial, restore, initialStore, h0, h1]
  · have he := hout hp
    refine ⟨by rw [he]; exact Bool.false_ne_true, ?_⟩
    change (image p).validStart = (image p).validEnd
    rw [he]

end Inv

end SOFT.List.Parallel
