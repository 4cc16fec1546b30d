import DurableSets.Core.Schedule
import DurableSets.LinkFree.ListReuse

namespace LinkFree.List

open Chain

variable {V : Type} {σ σ' : Store V} {s s' : State V} {e : Event (SetOp V)} {t u : Tid}
  {op : SetOp V} {pc pc' : Pc} {x y n slot : Loc} {zero : V}

theorem afterFind_owns {p c : Loc} (h : afterFind σ p c op = some pc) : pc.owns = none := by
  cases op <;> simp only [afterFind] at h
  · split at h <;> obtain rfl := Option.some.inj h <;> rfl
  · split at h <;> obtain rfl := Option.some.inj h <;> rfl
  · cases h

theorem afterTrim_owns (p n : Loc) (c : TrimCtx) : (afterTrim p n c).owns = none := by
  cases c <;> rfl

theorem afterValid_owns (n : Loc) (c : ValidCtx) :
    (afterValid n c).owns = (Pc.validLoad c n).owns := by
  cases c <;> rfl

theorem validStore_owns (n : Loc) (c : ValidCtx) (old : Uchar) :
    (Pc.validStore c n old).owns = (Pc.validLoad c n).owns := by
  cases c <;> rfl

theorem owns_next {σ' : Store V} (hn : next σ op slot pc = some (σ', pc')) (hx : pc'.owns = some x) :
    pc.owns = some x ∨ ((∃ p c, pc = .alloc p c) ∧ slot = x) := by
  cases pc with
  | alloc p c =>
    obtain ⟨_, rfl⟩ := Prod.mk.inj (Option.some.inj hn)
    exact Or.inr ⟨⟨p, c, rfl⟩, Option.some.inj hx⟩
  | validLoad c n =>
    simp only [next] at hn
    split at hn <;> obtain ⟨_, rfl⟩ := Prod.mk.inj (Option.some.inj hn)
    · exact Or.inl ((afterValid_owns n c).symm.trans hx)
    · exact Or.inl ((validStore_owns n c _).symm.trans hx)
  | validStore c n old =>
    obtain ⟨_, rfl⟩ := Prod.mk.inj (Option.some.inj hn)
    exact Or.inl ((validStore_owns n c old).trans ((afterValid_owns n c).symm.trans hx))
  | flipLoad p c n | flipStore p c n _ | initInsertFlag p c n | initDeleteFlag p c n
  | initKey p c n | initNext p c n =>
    obtain ⟨_, rfl⟩ := Prod.mk.inj (Option.some.inj hn)
    exact Or.inl hx
  | deleteFlush c n | trimLoad c p n | insertFlush r n | insertStore r n | removeLoad p c
  | lostFree n =>
    obtain ⟨_, rfl⟩ := Prod.mk.inj (Option.some.inj hn)
    cases hx
  | _ =>
    simp only [next] at hn
    grind [Option.map_eq_some_iff, Pc.owns, afterTrim_owns, afterFind_owns, afterDelete_owns]

theorem refs_of_ptr {p : Ptr} (h : p.ref = some y) : y ∈ ptrRefs p := by
  simp [ptrRefs, h]

def Pc.Knows (pc : Pc) (x : Loc) : Prop := x ∈ pc.refs ∨ pc.owns = some x

-- a step stores to one node that the call knows, links only a node that it knows, and writes no
-- key but its own
inductive Stores (σ : Store V) (op : SetOp V) (pc : Pc) : Store V → Prop where
  | same : Stores σ op pc σ
  | take (n : Loc) : Stores σ op pc (σ.take n)
  | give (n : Loc) : Stores σ op pc (σ.give n)
  | flush {n : Loc} (hn : pc.Knows n) : Stores σ op pc (σ.flush n)
  | write {n : Loc} {m : Node V} (hn : pc.Knows n)
      (hk : m.key = (σ.node n).key ∨ m.key = op.key)
      (hl : ∀ y, m.next.ref = some y → (σ.node n).next.ref = some y ∨ pc.Knows y) :
      Stores σ op pc (σ.write n m)

theorem validStore_knows (n : Loc) (c : ValidCtx) (old : Uchar) : (Pc.validStore c n old).Knows n := by
  cases c with
  | lost => exact Or.inr rfl
  | _ => exact Or.inl (by simp [Pc.refs, ValidCtx.refs])

theorem stores_next (hn : next σ op slot pc = some (σ', pc')) : Stores σ op pc σ' := by
  have private_write : ∀ {n m}, pc.owns = some n → m.key = (σ.node n).key ∨ m.key = op.key →
      m.next.ref = (σ.node n).next.ref → Stores σ op pc (σ.write n m) := fun ho hk hl =>
    .write (Or.inr ho) hk fun y hy => Or.inl (hl ▸ hy)
  cases pc with
  | deleteFlush c n =>
    obtain ⟨rfl, _⟩ := Prod.mk.inj (Option.some.inj hn)
    exact .flush (Or.inl (c.mem_refs n))
  | deleteStore c n =>
    obtain ⟨rfl, _⟩ := Prod.mk.inj (Option.some.inj hn)
    exact .write (Or.inl (c.mem_refs n)) (Or.inl rfl) fun y hy => Or.inl hy
  | validStore c n old =>
    obtain ⟨rfl, _⟩ := Prod.mk.inj (Option.some.inj hn)
    exact .write (validStore_knows n c old) (Or.inl rfl) fun y hy => Or.inl hy
  | trimCas c pred curr succ =>
    simp only [next] at hn
    split at hn <;> obtain ⟨rfl, _⟩ := Prod.mk.inj (Option.some.inj hn)
    · refine .write (Or.inl List.mem_cons_self) (Or.inl rfl) fun y hy => Or.inr (Or.inl ?_)
      exact List.mem_cons_of_mem _ (List.mem_cons_of_mem _ (refs_of_ptr hy))
    · exact .same
  | insertFlush r n =>
    obtain ⟨rfl, _⟩ := Prod.mk.inj (Option.some.inj hn)
    exact .flush (Or.inl List.mem_cons_self)
  | insertStore r n =>
    obtain ⟨rfl, _⟩ := Prod.mk.inj (Option.some.inj hn)
    exact .write (Or.inl List.mem_cons_self) (Or.inl rfl) fun y hy => Or.inl hy
  | alloc pred curr =>
    obtain ⟨rfl, _⟩ := Prod.mk.inj (Option.some.inj hn)
    exact .take slot
  | trimFree c pred curr =>
    obtain ⟨rfl, _⟩ := Prod.mk.inj (Option.some.inj hn)
    exact .give curr
  | lostFree n =>
    obtain ⟨rfl, _⟩ := Prod.mk.inj (Option.some.inj hn)
    exact .give n
  | flipStore pred curr n old | initInsertFlag pred curr n | initDeleteFlag pred curr n =>
    obtain ⟨rfl, _⟩ := Prod.mk.inj (Option.some.inj hn)
    exact private_write rfl (Or.inl rfl) rfl
  | initKey pred curr n =>
    obtain ⟨rfl, _⟩ := Prod.mk.inj (Option.some.inj hn)
    exact private_write rfl (Or.inr rfl) rfl
  | initValue pred curr n =>
    cases op with
    | insert k v =>
      obtain ⟨rfl, _⟩ := Prod.mk.inj (Option.some.inj hn)
      exact private_write rfl (Or.inl rfl) rfl
    | _ => cases hn
  | initNext pred curr n =>
    obtain ⟨rfl, _⟩ := Prod.mk.inj (Option.some.inj hn)
    refine .write (Or.inr rfl) (Or.inl rfl) fun y hy => Or.inr (Or.inl ?_)
    obtain rfl : curr = y := Option.some.inj hy
    exact List.mem_cons_of_mem _ List.mem_cons_self
  | linkCas pred curr n =>
    simp only [next] at hn
    split at hn <;> obtain ⟨rfl, _⟩ := Prod.mk.inj (Option.some.inj hn)
    · exact .write (Or.inl List.mem_cons_self) (Or.inl rfl) fun y hy => Or.inr (Or.inr hy)
    · exact .same
  | lostStore n =>
    obtain ⟨rfl, _⟩ := Prod.mk.inj (Option.some.inj hn)
    exact .write (Or.inr rfl) (Or.inl rfl) fun y hy => (Option.some_ne_none y hy.symm).elim
  | markCas pred curr succ =>
    simp only [next] at hn
    split at hn
    · next he =>
      obtain ⟨rfl, _⟩ := Prod.mk.inj (Option.some.inj hn)
      exact .write (Or.inl (List.mem_cons_of_mem _ List.mem_cons_self)) (Or.inl rfl) fun y hy =>
        Or.inl (he ▸ hy)
    · obtain ⟨rfl, _⟩ := Prod.mk.inj (Option.some.inj hn)
      exact .same
  | _ =>
    have read : σ' = σ := by
      simp only [next] at hn
      grind [Option.map_eq_some_iff]
    exact read ▸ .same

theorem node_flush (σ : Store V) (n x : Loc) : (σ.flush n).node x = σ.node x := by
  change (σ.setLine n _).node x = _
  rw [node_setLine]
  split
  · next h => rw [h]; rfl
  · rfl

theorem Stores.line (h : Stores σ op pc σ') (hx : ¬ pc.Knows x) : σ'.line x = σ.line x := by
  cases h with
  | flush hn | write hn _ _ =>
    refine Function.update_of_ne ?_ _ _
    rintro rfl
    exact hx hn
  | _ => rfl

theorem Stores.link (h : Stores σ op pc σ') (hy : (σ'.node x).next.ref = some y) :
    (∃ z, (σ.node z).next.ref = some y) ∨ pc.Knows y := by
  cases h with
  | @write n m hn _ hl =>
    rw [node_write] at hy
    split at hy
    · exact (hl y hy).imp_left fun hy => ⟨n, hy⟩
    · exact Or.inl ⟨x, hy⟩
  | @flush n _ =>
    rw [node_flush] at hy
    exact Or.inl ⟨x, hy⟩
  | _ => exact Or.inl ⟨x, hy⟩

theorem Stores.key (h : Stores σ op pc σ') (x : Loc) :
    (σ'.node x).key = (σ.node x).key ∨ (σ'.node x).key = op.key := by
  cases h with
  | @write n m _ hk _ =>
    rw [node_write]
    split
    · next he => exact he ▸ hk
    · exact Or.inl rfl
  | @flush n _ =>
    rw [node_flush]
    exact Or.inl rfl
  | _ => exact Or.inl rfl

namespace Reuse

inductive Command (V : Type) where
  | call (t : Tid) (op : SetOp V)
  | ret (t : Tid)
  | step (t : Tid)
  | alloc (t : Tid) (slot : Loc)
deriving DecidableEq

def move (s : State V) (t : Tid) (slot : Loc) : Option (Event (SetOp V) × State V) :=
  (s.thread t).bind fun c =>
    (next s.store c.1 slot c.2).map fun r => (.tau t, s.goto r.1 t (some (c.1, r.2)))

def allocating (s : State V) (t : Tid) : Bool :=
  match s.thread t with
  | some (_, .alloc _ _) => true
  | _ => false

def refers (s : State V) (x : Loc) (t : Tid) : Bool :=
  match s.thread t with
  | some (_, pc) => pc.refs.contains x || pc.owns == some x
  | none => false

-- schedules of the threads 0 to 3
def exec (s : State V) : Command V → Option (Event (SetOp V) × State V)
  | .call t op =>
    if t < 4 ∧ (s.thread t).isNone ∧ op.key < INT_MAX then
      some (.call t op, s.goto s.store t (some (op, start op)))
    else none
  | .ret t =>
    match s.thread t with
    | some (_, .ret r _) => some (.ret t r, s.goto s.store t none)
    | _ => none
  | .step t => if allocating s t then none else move s t 0
  | .alloc t slot =>
    if s.store.avail slot = true ∧ (List.range 4).all (fun u => !refers s slot u) = true then
      move s t slot
    else none

def Few (s : State V) : Prop := ∀ u, 4 ≤ u → s.thread u = none

theorem Few.lt (h : Few s) {c : SetOp V × Pc} (ht : s.thread t = some c) : t < 4 := by
  by_contra hge
  exact absurd ((h t (not_lt.1 hge)).symm.trans ht) nofun

theorem Few.unreferenced (h : Few s) (ha : s.store.avail x = true)
    (hr : (List.range 4).all (fun u => !refers s x u) = true) : Unreferenced s x := by
  refine ⟨ha, fun t op pc ht => ?_⟩
  have hx := List.all_eq_true.1 hr t (List.mem_range.2 (h.lt ht))
  simpa [refers, ht] using hx

theorem move_inv (h : move s t slot = some (e, s')) : ∃ op pc σ pc', s.thread t = some (op, pc) ∧
    next s.store op slot pc = some (σ, pc') ∧ e = .tau t ∧ s' = s.goto σ t (some (op, pc')) := by
  obtain ⟨⟨op, pc⟩, ht, h⟩ := Option.bind_eq_some_iff.1 h
  obtain ⟨⟨σ, pc'⟩, hn, h⟩ := Option.map_eq_some_iff.1 h
  obtain ⟨rfl, rfl⟩ := Prod.mk.inj h
  exact ⟨op, pc, σ, pc', ht, hn, rfl, rfl⟩

theorem move_step (h : move s t slot = some (e, s'))
    (ha : ∀ op p c, s.thread t = some (op, .alloc p c) → Unreferenced s slot) :
    Step s e s' ∧ s.thread t ≠ none := by
  obtain ⟨op, pc, σ, pc', ht, hn, rfl, rfl⟩ := move_inv h
  refine ⟨Step.tau t op pc pc' slot σ ht hn ?_, ?_⟩
  · rintro p c rfl
    exact ha op p c ht
  · rw [ht]
    exact nofun

theorem move_event (h : move s t slot = some (e, s')) : e = .tau t := by
  obtain ⟨_, _, _, _, _, _, he, _⟩ := move_inv h
  exact he

def Command.tid : Command V → Tid
  | .call t _ => t
  | .ret t => t
  | .step t => t
  | .alloc t _ => t

def Command.event (s : State V) : Command V → Option (Event (SetOp V))
  | .call t op => some (.call t op)
  | .ret t =>
    match s.thread t with
    | some (_, .ret r _) => some (.ret t r)
    | _ => none
  | .step t => some (.tau t)
  | .alloc t _ => some (.tau t)

def Command.quiet (t : Tid) : Command V → Bool
  | .call u _ => u != t
  | .ret u => u != t
  | _ => true

theorem exec_event {c : Command V} (h : exec s c = some (e, s')) : c.event s = some e := by
  cases c with
  | call t op =>
    simp only [exec] at h
    split at h
    · exact congrArg some (Prod.mk.inj (Option.some.inj h)).1
    · cases h
  | ret t =>
    simp only [exec] at h
    split at h
    · next op r n ht =>
      rw [Command.event, ht]
      exact congrArg some (Prod.mk.inj (Option.some.inj h)).1
    · cases h
  | step t =>
    simp only [exec] at h
    split at h
    · cases h
    · exact congrArg some (move_event h).symm
  | alloc t slot =>
    simp only [exec] at h
    split at h
    · exact congrArg some (move_event h).symm
    · cases h

theorem tid_of_event {c : Command V} (h : c.event s = some e) : e.tid = c.tid := by
  cases c with
  | ret t =>
    simp only [Command.event] at h
    split at h
    · obtain rfl := Option.some.inj h
      rfl
    · cases h
  | _ =>
    obtain rfl := Option.some.inj h
    rfl

theorem quiet_of_event {c : Command V} (h : c.event s = some e) (hc : c.quiet t = true) :
    ¬ e.Boundary t := by
  cases c with
  | call u op =>
    obtain rfl := Option.some.inj h
    simpa [Command.quiet, Event.Boundary] using hc
  | ret u =>
    simp only [Command.event] at h
    split at h
    · obtain rfl := Option.some.inj h
      simpa [Command.quiet, Event.Boundary] using hc
    · cases h
  | _ =>
    obtain rfl := Option.some.inj h
    exact id

theorem exec_step (hf : Few s) {c : Command V} (h : exec s c = some (e, s')) :
    Step s e s' ∧ c.tid < 4 := by
  have running : ∀ {t}, s.thread t ≠ none → t < 4 := fun ht => not_le.1 fun hle => ht (hf _ hle)
  cases c with
  | call t op =>
    simp only [exec] at h
    split at h
    · next hc =>
      obtain ⟨rfl, rfl⟩ := Prod.mk.inj (Option.some.inj h)
      exact ⟨Step.call t op (Option.isNone_iff_eq_none.1 hc.2.1) hc.2.2, hc.1⟩
    · cases h
  | ret t =>
    simp only [exec] at h
    split at h
    · next op r n ht =>
      obtain ⟨rfl, rfl⟩ := Prod.mk.inj (Option.some.inj h)
      have hne : s.thread t ≠ none := fun hn => absurd (ht.symm.trans hn) nofun
      exact ⟨Step.ret t op r n ht, running hne⟩
    · cases h
  | step t =>
    simp only [exec] at h
    split at h
    · cases h
    · next hna =>
      obtain ⟨hs, ht⟩ := move_step h fun op p c ht => absurd (by simp [allocating, ht]) hna
      exact ⟨hs, running ht⟩
  | alloc t slot =>
    simp only [exec] at h
    split at h
    · next ha =>
      obtain ⟨hs, ht⟩ := move_step h fun _ _ _ _ => hf.unreferenced ha.1 ha.2
      exact ⟨hs, running ht⟩
    · cases h

theorem Few.exec (hf : Few s) {c : Command V} (h : exec s c = some (e, s')) : Few s' := by
  obtain ⟨hs, hc⟩ := exec_step hf h
  intro u hu
  refine ((machine V).step_other hs ?_).trans (hf u hu)
  rintro rfl
  exact absurd (tid_of_event (exec_event h) ▸ hc) (not_lt.2 hu)

theorem exists_play (zero : V) (ex : State V → Command V → Option (Event (SetOp V) × State V))
    (hex : ∀ {s c r}, ex s c = some r → exec s c = some r) (cs : List (Command V))
    (h : (play ex (initial zero 0) cs).isSome = true) :
    ∃ ρ : Run (machine V), Plays ex (initial zero 0) cs ρ ∧ ∀ n ≤ ρ.length, Few (ρ.state n) := by
  obtain ⟨s', hs'⟩ := Option.isSome_iff_exists.1 h
  obtain ⟨ρ, hρ⟩ := exists_run (M := machine V) (I := Few)
    (fun hf h => ⟨(exec_step hf (hex h)).1, hf.exec (hex h)⟩) ⟨zero, 0, rfl⟩ (fun _ _ => rfl) hs'
  refine ⟨ρ, hρ, ρ.stepwise ?_ fun m hm ih => ?_⟩
  · exact fun u _ => (machine V).init_idle ρ.init
  · exact ih.exec (hex (hρ.exec (by rw [← hρ.length]; exact hm)))

theorem completed {ex : State V → Command V → Option (Event (SetOp V) × State V)}
    (hex : ∀ {s c r}, ex s c = some r → exec s c = some r) {cs : List (Command V)} {ρ : Run (machine V)}
    (hρ : Plays ex s cs ρ) {i j : ℕ} {r : Bool} (hi : i < j) (call : cs[i]? = some (.call t op))
    (ret : cs[j]? = some (.ret t)) (answer : (ρ.state j).thread t = some (op, .ret r x))
    (quiet : ((cs.take j).drop (i + 1)).all (Command.quiet t) = true) :
    ρ.Completed t op r i j := by
  have hj : j < cs.length := (List.getElem?_eq_some_iff.1 ret).1
  refine ⟨⟨hi, ?_, fun k h1 h2 => ?_⟩, by rw [hρ.length]; exact hj, ?_⟩
  · exact (Option.some.inj (exec_event (hex (hρ.command call)))).symm
  · exact hρ.stretch (fun h hq => quiet_of_event (exec_event (hex h)) hq) hj.le quiet h1 h2
  · have he := exec_event (hex (hρ.command ret))
    rw [Command.event, answer] at he
    exact (Option.some.inj he).symm

def steps (t : Tid) (n : ℕ) : List (Command V) := List.replicate n (.step t)

def inserts (t : Tid) (key : ℤ) (value : V) (slot : Loc) (n : ℕ) : List (Command V) :=
  [[.call t (.insert key value)], steps t (2 + 2 * n), [.alloc t slot], steps t 13, [.ret t]].flatten

def removes (t : Tid) (key : ℤ) : List (Command V) :=
  [[.call t (.remove key)], steps t 11, [.ret t]].flatten

def walk (s : State V) : ℕ → Loc → List Loc
  | 0, _ => []
  | n + 1, x =>
    match (s.store.node x).next.ref with
    | some y => x :: walk s n y
    | none => [x]

theorem reach_of_walk {n : ℕ} {r : Loc} (h : x ∈ walk s n r) : s.store.heap.Reach r x := by
  induction n generalizing r with
  | zero => cases h
  | succ n ih =>
    simp only [walk] at h
    split at h
    · next y hy =>
      rcases List.mem_cons.1 h with rfl | h
      · exact Heap.Reach.refl x
      · exact Heap.Reach.head hy (ih h)
    · obtain rfl := List.mem_singleton.1 h
      exact Heap.Reach.refl x

theorem walk_of_reach {n : ℕ} {r : Loc} (hw : (walk s n r).length < n)
    (h : s.store.heap.Reach r x) : x ∈ walk s n r := by
  induction n generalizing r with
  | zero => exact absurd hw (Nat.not_lt_zero _)
  | succ n ih =>
    simp only [walk] at hw ⊢
    rcases h.eq_or_succ with rfl | ⟨y, hy, h⟩
    · split <;> exact List.mem_cons_self
    · have hy : (s.store.node r).next.ref = some y := hy
      simp only [hy, List.length_cons] at hw ⊢
      exact List.mem_cons_of_mem _ (ih (by omega) h)

def has (s : State V) (k : ℤ) (x : Loc) : Bool :=
  x != head && x != tail && !(s.store.node x).isMarked && (s.store.node x).key == k

theorem abs_of_walk {n : ℕ} {k : ℤ} (h : (walk s n head).any (has s k) = true) : k ∈ s.abs := by
  obtain ⟨x, hx, h⟩ := List.any_eq_true.1 h
  simp only [has, Bool.and_eq_true, bne_iff_ne, Bool.not_eq_true', beq_iff_eq, and_assoc] at h
  obtain ⟨hh, ht, hm, hk⟩ := h
  exact ⟨x, hh, ht, reach_of_walk hx, fun hd => absurd (hm.symm.trans hd) nofun, hk⟩

theorem not_abs_of_walk {n : ℕ} {k : ℤ} (hw : (walk s n head).length < n)
    (h : (walk s n head).all (fun x => !has s k x) = true) : k ∉ s.abs := by
  rintro ⟨x, hh, ht, hl, hd, hk⟩
  have hx := List.all_eq_true.1 h x (walk_of_reach hw hl)
  have hd : (s.store.node x).isMarked = false := Bool.eq_false_iff.2 hd
  simp [has, hh, ht, hk, hd] at hx

-- nothing has happened to the slots from 16 on
structure Low (zero : V) (s : State V) : Prop where
  refs : ∀ {t op pc}, s.thread t = some (op, pc) → (∀ x ∈ pc.refs, x < 16) ∧
    ∀ x, pc.owns = some x → x < 16
  next : ∀ {x y}, (s.store.node x).next.ref = some y → y < 16
  line : ∀ x, 16 ≤ x → s.store.line x = ⟨⟨0#8, false, false, 0, zero, Ptr.null⟩, []⟩

theorem low_initial (zero : V) : Low zero (initial zero 0) := by
  refine ⟨nofun, fun {x y} h => ?_, fun x hx => ?_⟩
  · simp only [initial, initialStore, Store.node] at h
    split at h
    · obtain rfl := Option.some.inj h
      decide
    · split at h <;> cases h
  · have hh : x ≠ head := by
      rintro rfl
      exact absurd hx (by decide)
    have ht : x ≠ tail := by
      rintro rfl
      exact absurd hx (by decide)
    simp only [initial, initialStore, if_neg hh, if_neg ht]

theorem Low.goto (h : Low zero s) {a : Option (SetOp V × Pc)}
    (ha : ∀ op pc, a = some (op, pc) → pc.refs = [] ∧ pc.owns = none) :
    Low zero (s.goto s.store t a) := by
  refine ⟨fun {u op pc} hu => ?_, h.next, h.line⟩
  by_cases he : u = t
  · subst he
    rw [goto_thread_self] at hu
    obtain ⟨h1, h2⟩ := ha _ _ hu
    rw [h1, h2]
    exact ⟨nofun, nofun⟩
  · rw [goto_thread_other _ _ _ he] at hu
    exact h.refs hu

theorem Low.reach (h : Low zero s) (hr : s.store.heap.Reach x y) (hx : x < 16) : y < 16 := by
  induction hr with
  | refl => exact hx
  | tail _ he _ => exact h.next he

theorem Low.tau (h : Low zero s) (ht : s.thread t = some (op, pc))
    (hn : List.next s.store op slot pc = some (σ, pc'))
    (hs : ∀ p c, pc = .alloc p c → slot < 16) : Low zero (s.goto σ t (some (op, pc'))) := by
  obtain ⟨hrefs, howns⟩ := h.refs ht
  refine ⟨fun {u op1 pc1} hu => ?_, fun {x y} hl => ?_, fun x hx => ?_⟩
  · by_cases he : u = t
    · subst he
      rw [goto_thread_self] at hu
      obtain ⟨rfl, rfl⟩ := Prod.mk.inj (Option.some.inj hu)
      refine ⟨fun r hr => ?_, fun x ho => ?_⟩
      · rcases refs_step hn r hr with ⟨q, hq, hqr⟩ | ⟨p, c, rfl, _⟩
        · refine h.reach hqr ?_
          rcases List.mem_cons.1 hq with rfl | hq
          · decide
          · exact hrefs q hq
        · exact howns r rfl
      · rcases owns_next hn ho with ho | ⟨⟨p, c, rfl⟩, rfl⟩
        · exact howns x ho
        · exact hs p c rfl
    · rw [goto_thread_other _ _ _ he] at hu
      exact h.refs hu
  · rcases (stores_next hn).link hl with ⟨z, hz⟩ | hy | hy
    · exact h.next hz
    · exact hrefs y hy
    · exact howns y hy
  · refine ((stores_next hn).line ?_).trans (h.line x hx)
    rintro (hr | ho)
    · exact absurd (hrefs x hr) (not_lt.2 hx)
    · exact absurd (howns x ho) (not_lt.2 hx)

def misses (s : State V) (x : Loc) (t : Tid) : Bool :=
  match s.thread t with
  | some (_, pc) => pc.refs.all fun r => (walk s 32 r).length < 32 && !(walk s 32 r).contains x
  | none => true

def cleanExec (s : State V) : Command V → Option (Event (SetOp V) × State V)
  | .alloc t slot =>
    if slot < 16 ∧ (List.range 4).all (misses s slot) = true then exec s (.alloc t slot) else none
  | c => exec s c

theorem Few.recyclable (h : Few s) (ha : s.store.avail x = true)
    (hr : (List.range 4).all (misses s x) = true) : s.Recyclable x := by
  refine ⟨ha, fun t op pc ht r hm hreach => ?_⟩
  have hx := List.all_eq_true.1 hr t (List.mem_range.2 (h.lt ht))
  simp only [misses, ht, List.all_eq_true, Bool.and_eq_true, decide_eq_true_eq] at hx
  obtain ⟨hlen, hx⟩ := hx r hm
  simp [walk_of_reach hlen hreach] at hx

theorem cleanExec_alloc (h : cleanExec s (.alloc t slot) = some (e, s')) :
    slot < 16 ∧ (List.range 4).all (misses s slot) = true ∧ s.store.avail slot = true ∧
      move s t slot = some (e, s') := by
  simp only [cleanExec] at h
  split at h
  · next hc =>
    simp only [exec] at h
    split at h
    · next ha => exact ⟨hc.1, hc.2, ha.1, h⟩
    · cases h
  · cases h

theorem exec_of_cleanExec {c : Command V} (h : cleanExec s c = some (e, s')) :
    exec s c = some (e, s') := by
  cases c with
  | alloc t slot =>
    simp only [cleanExec] at h
    split at h
    · exact h
    · cases h
  | _ => exact h

theorem cleanExec_step (hf : Few s) {c : Command V} (h : cleanExec s c = some (e, s')) :
    List.Step s e s' := by
  cases c with
  | call t op =>
    simp only [cleanExec, exec] at h
    split at h
    · next hc =>
      obtain ⟨rfl, rfl⟩ := Prod.mk.inj (Option.some.inj h)
      exact List.Step.call t op (Option.isNone_iff_eq_none.1 hc.2.1) hc.2.2
    · cases h
  | ret t =>
    simp only [cleanExec, exec] at h
    split at h
    · next op r n ht =>
      obtain ⟨rfl, rfl⟩ := Prod.mk.inj (Option.some.inj h)
      exact List.Step.ret t op r n ht
    · cases h
  | step t =>
    simp only [cleanExec, exec] at h
    split at h
    · cases h
    · next hna =>
      obtain ⟨op, pc, σ, pc', ht, hn, rfl, rfl⟩ := move_inv h
      refine List.Step.tau t op pc pc' 0 σ ht hn ?_
      rintro p c rfl
      exact absurd (by simp [allocating, ht]) hna
  | alloc t slot =>
    obtain ⟨_, hm, ha, h⟩ := cleanExec_alloc h
    obtain ⟨op, pc, σ, pc', ht, hn, rfl, rfl⟩ := move_inv h
    exact List.Step.tau t op pc pc' slot σ ht hn fun _ _ _ => hf.recyclable ha hm

theorem start_refs (op : SetOp V) : (start op).refs = [] ∧ (start op).owns = none := by
  cases op <;> exact ⟨rfl, rfl⟩

def Command.low : Command V → Bool
  | .alloc _ slot => decide (slot < 16)
  | _ => true

theorem Low.exec (h : Low zero s) {c : Command V} (hc : c.low = true)
    (hx : exec s c = some (e, s')) : Low zero s' := by
  cases c with
  | call t op =>
    simp only [Reuse.exec] at hx
    split at hx
    · obtain ⟨_, rfl⟩ := Prod.mk.inj (Option.some.inj hx)
      refine h.goto fun op1 pc1 he => ?_
      obtain ⟨rfl, rfl⟩ := Prod.mk.inj (Option.some.inj he)
      exact start_refs op
    · cases hx
  | ret t =>
    simp only [Reuse.exec] at hx
    split at hx
    · obtain ⟨_, rfl⟩ := Prod.mk.inj (Option.some.inj hx)
      refine h.goto fun op1 pc1 he => ?_
      cases he
    · cases hx
  | step t =>
    simp only [Reuse.exec] at hx
    split at hx
    · cases hx
    · next hna =>
      obtain ⟨op, pc, σ, pc', ht, hn, _, rfl⟩ := move_inv hx
      refine h.tau ht hn ?_
      rintro p c rfl
      exact absurd (by simp [allocating, ht]) hna
  | alloc t slot =>
    simp only [Reuse.exec] at hx
    split at hx
    · obtain ⟨op, pc, σ, pc', ht, hn, _, rfl⟩ := move_inv hx
      exact h.tau ht hn fun _ _ _ => of_decide_eq_true hc
    · cases hx

theorem low_run {ex : State V → Command V → Option (Event (SetOp V) × State V)}
    {M : Machine (State V) (SetOp V) Pc} {cs : List (Command V)} {ρ : Run M}
    (hρ : Plays ex (initial zero 0) cs ρ)
    (hex : ∀ {s c r}, c ∈ cs → ex s c = some r → exec s c = some r ∧ c.low = true) :
    ∀ n ≤ ρ.length, Low zero (ρ.state n) := by
  refine ρ.stepwise ?_ fun m hm ih => ?_
  · exact Option.some.inj (hρ.state (Nat.zero_le _)) ▸ low_initial zero
  · have hm : m < cs.length := hρ.length ▸ hm
    obtain ⟨hx, hl⟩ := hex (List.getElem_mem hm) (hρ.exec hm)
    exact ih.exec hl hx

theorem low_of_cleanExec {c : Command V} (h : cleanExec s c = some (e, s')) : c.low = true := by
  cases c with
  | alloc t slot => exact decide_eq_true (cleanExec_alloc h).1
  | _ => rfl

theorem exists_clean_play (zero : V) (cs : List (Command V))
    (h : (play cleanExec (initial zero 0) cs).isSome = true) :
    ∃ ρ : Run (List.machine V), Plays cleanExec (initial zero 0) cs ρ ∧
      Low zero (ρ.state ρ.length) := by
  obtain ⟨s', hs'⟩ := Option.isSome_iff_exists.1 h
  obtain ⟨ρ, hρ⟩ := exists_run (M := List.machine V) (I := Few)
    (fun hf h => ⟨cleanExec_step hf h, hf.exec (exec_of_cleanExec h)⟩) ⟨zero, 0, rfl⟩
    (fun _ _ => rfl) hs'
  exact ⟨ρ, hρ, low_run hρ (fun _ h => ⟨exec_of_cleanExec h, low_of_cleanExec h⟩) ρ.length le_rfl⟩

end Reuse

end LinkFree.List
