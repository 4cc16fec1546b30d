import DurableSets.LinkFree.ListMemory

namespace LinkFree.List.Reuse

open Chain

variable {V : Type} {σ σ' : Store V} {s s' : State V} {e : Event (SetOp V)} {t u : Tid}
  {op : SetOp V} {pc pc' : Pc} {x slot : Loc}

-- no running call has the slot in a variable; next pointers may still lead one to it
def Unreferenced (s : State V) (x : Loc) : Prop :=
  s.store.avail x = true ∧ ∀ t op pc, s.thread t = some (op, pc) → x ∉ pc.refs ∧ pc.owns ≠ some x

inductive Step (s : State V) : Event (SetOp V) → State V → Prop where
  | call (t : Tid) (op : SetOp V) (idle : s.thread t = none) (hk : op.key < INT_MAX) :
    Step s (.call t op) (s.goto s.store t (some (op, start op)))
  | ret (t : Tid) (op : SetOp V) (r : Bool) (n : Loc) (h : s.thread t = some (op, .ret r n)) :
    Step s (.ret t r) (s.goto s.store t none)
  | tau (t : Tid) (op : SetOp V) (pc pc' : Pc) (slot : Loc) (σ : Store V)
    (h : s.thread t = some (op, pc)) (hn : next s.store op slot pc = some (σ, pc'))
    (hs : ∀ pred curr, pc = .alloc pred curr → Unreferenced s slot) :
    Step s (.tau t) (s.goto σ t (some (op, pc')))

def machine (V : Type) : Machine (State V) (SetOp V) Pc where
  init s := ∃ zero junk, s = initial zero junk
  step := Step
  thread := State.thread
  init_idle := (List.machine V).init_idle
  step_other := by
    intro s e s' u h hu
    cases h <;> exact goto_thread_other _ _ _ hu
  step_call := by
    intro s t op s' h
    cases h with
    | call _ _ idle _ => exact ⟨idle, _, goto_thread_self _ _ _ _⟩
  step_ret := by
    intro s t r s' h
    cases h with
    | ret _ op _ n h => exact ⟨⟨op, _, h⟩, goto_thread_self _ _ _ _⟩
  step_tau := by
    intro s t s' h
    cases h with
    | tau _ op pc pc' slot σ h hn hs => exact ⟨op, pc, pc', h, goto_thread_self _ _ _ _⟩

theorem unreferenced_of_recyclable (hi : Inv s) (h : s.Recyclable x) : Unreferenced s x := by
  refine ⟨h.1, fun t op pc ht => ⟨fun hx => h.2 t op pc ht x hx (Heap.Reach.refl x), fun ho => ?_⟩⟩
  exact absurd (h.1.symm.trans ((hi.fit ht).avail x (holds_of_owns ho))) nofun

theorem step_of (hi : Inv s) (hs : List.Step s e s') : Step s e s' := by
  cases hs with
  | call t op idle hk => exact Step.call t op idle hk
  | ret t op r n h => exact Step.ret t op r n h
  | tau t op pc pc' slot σ h hn hs =>
    exact Step.tau t op pc pc' slot σ h hn fun p c he => unreferenced_of_recyclable hi (hs p c he)

def Clean (s s' : State V) : Prop :=
  ∀ x, s.store.avail x = true → s'.store.avail x = false → s.Recyclable x

theorem next_take (hn : next σ op slot pc = some (σ', pc')) (h0 : σ.avail x = true)
    (h1 : σ'.avail x = false) : ∃ p c, pc = .alloc p c ∧ slot = x := by
  have hav := congrFun (Memory.next_avail hn) x
  rw [h1] at hav
  have given : ∀ n, false ≠ Function.update σ.avail n true x := by
    intro n
    by_cases he : x = n <;> simp [he, h0]
  cases pc with
  | alloc p c =>
    refine ⟨p, c, rfl, ?_⟩
    by_contra he
    exact absurd (hav.trans (Function.update_of_ne (Ne.symm he) _ _)) (by simp [h0])
  | trimFree c p n => exact absurd hav (given n)
  | lostFree n => exact absurd hav (given n)
  | _ => exact absurd (hav.trans h0) nofun

theorem clean_of (hs : List.Step s e s') : Clean s s' := by
  intro x h0 h1
  cases hs with
  | call t op idle hk => exact absurd (h0.symm.trans h1) nofun
  | ret t op r n h => exact absurd (h0.symm.trans h1) nofun
  | tau t op pc pc' slot σ h hn hs =>
    obtain ⟨p, c, rfl, rfl⟩ := next_take hn h0 h1
    exact hs p c rfl

theorem of_clean (hs : Step s e s') (clean : Clean s s') : List.Step s e s' := by
  cases hs with
  | call t op idle hk => exact List.Step.call t op idle hk
  | ret t op r n h => exact List.Step.ret t op r n h
  | tau t op pc pc' slot σ h hn hs =>
    refine List.Step.tau t op pc pc' slot σ h hn ?_
    rintro p c rfl
    obtain ⟨rfl, _⟩ := Prod.mk.inj (Option.some.inj hn)
    exact clean slot (hs p c rfl).1 (by simp [State.goto, Store.take])

def ofRun (ρ : Run (List.machine V)) : Run (machine V) :=
  ⟨ρ.state, ρ.event, ρ.length, ρ.init, fun hm => step_of (inv_run ρ _ hm.le) (ρ.step hm)⟩

-- the runs of the list are those in which every slot handed out is out of reach
theorem clean_iff (ρ : Run (machine V)) :
    (∀ m < ρ.length, Clean (ρ.state m) (ρ.state (m + 1))) ↔ ∃ ρ', ofRun ρ' = ρ := by
  constructor
  · intro h
    exact ⟨⟨ρ.state, ρ.event, ρ.length, ρ.init, fun hm => of_clean (ρ.step hm) (h _ hm)⟩, rfl⟩
  · rintro ⟨ρ', rfl⟩ m hm
    exact clean_of (ρ'.step hm)

end LinkFree.List.Reuse
