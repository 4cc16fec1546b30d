import DurableSets.Core.Schedule
import DurableSets.SOFT.SkipListRun

namespace SOFT.SkipList

variable {V : Type} {s s' : State V} {e : Event (SetOp V)} {t : Tid} {n m : ℕ}

inductive Command (V : Type) where
  | call (t : Tid) (op : SetOp V)
  | ret (t : Tid)
  | step (t : Tid)
  | alloc (t : Tid) (slot : Loc) (level : ℕ)

def State.move (s : State V) (t : Tid) (slot : Loc) (level : ℕ) : Option (Event (SetOp V) × State V) :=
  (s.thread t).bind fun c =>
    (next s.store c.1 slot level c.2).map fun r => (.tau t, s.goto r.1 t (some (c.1, r.2)))

def State.allocating (s : State V) (t : Tid) : Bool :=
  match s.thread t with
  | some (_, .alloc _) => true
  | _ => false

def exec (s : State V) : Command V → Option (Event (SetOp V) × State V)
  | .call t op =>
    if t < 2 ∧ (s.thread t).isNone ∧ op.key < INTPTR_MAX then
      some (.call t op, s.goto s.store t (some (op, start op)))
    else none
  | .ret t =>
    match s.thread t with
    | some (_, .ret r) => some (.ret t r, s.goto s.store t none)
    | _ => none
  | .step t => if s.allocating t then none else s.move t 0 0
  | .alloc t slot level =>
    if s.store.avail slot = true ∧ 1 ≤ level ∧ level ≤ MAX_LEVEL then s.move t slot level else none

theorem move_step {slot level : ℕ} (h : s.move t slot level = some (e, s'))
    (ha : ∀ op path, s.thread t = some (op, .alloc path) →
      s.store.avail slot = true ∧ 1 ≤ level ∧ level ≤ MAX_LEVEL) : Step s e s' := by
  obtain ⟨⟨op, pc⟩, ht, h⟩ := Option.bind_eq_some_iff.1 h
  obtain ⟨⟨σ, pc'⟩, hn, h⟩ := Option.map_eq_some_iff.1 h
  obtain ⟨rfl, rfl⟩ := Prod.mk.inj h
  refine Step.tau t op pc pc' slot level σ ht hn ?_
  rintro path rfl
  exact ha op path ht

theorem exec_step {c : Command V} (h : exec s c = some (e, s')) : Step s e s' := by
  cases c with
  | call t op =>
    simp only [exec] at h
    split at h
    · next hc =>
      obtain ⟨rfl, rfl⟩ := Prod.mk.inj (Option.some.inj h)
      exact Step.call t op (Option.isNone_iff_eq_none.1 hc.2.1) hc.2.2
    · cases h
  | ret t =>
    simp only [exec] at h
    split at h
    · next op r ht =>
      obtain ⟨rfl, rfl⟩ := Prod.mk.inj (Option.some.inj h)
      exact Step.ret t op r ht
    · cases h
  | step t =>
    simp only [exec] at h
    split at h
    · cases h
    · next hna =>
      refine move_step h fun op path ht => absurd ?_ hna
      simp [State.allocating, ht]
  | alloc t slot level =>
    simp only [exec] at h
    split at h
    · next ha => exact move_step h fun _ _ _ => ha
    · cases h

theorem exec_call {op : SetOp V} (h : exec s (.call t op) = some (e, s')) :
    t < 2 ∧ e = .call t op := by
  simp only [exec] at h
  split at h
  · next hc => exact ⟨hc.1, (Prod.mk.inj (Option.some.inj h)).1.symm⟩
  · cases h

theorem exec_ret (h : exec s (.ret t) = some (e, s')) :
    ∃ op r, s.thread t = some (op, .ret r) ∧ e = .ret t r := by
  simp only [exec] at h
  split at h
  · next op r ht => exact ⟨op, r, ht, (Prod.mk.inj (Option.some.inj h)).1.symm⟩
  · cases h

theorem move_tau {slot level : ℕ} (h : s.move t slot level = some (e, s')) :
    s.thread t ≠ none ∧ e = .tau t := by
  obtain ⟨c, ht, h⟩ := Option.bind_eq_some_iff.1 h
  obtain ⟨r, _, h⟩ := Option.map_eq_some_iff.1 h
  refine ⟨?_, (Prod.mk.inj h).1.symm⟩
  rw [ht]
  exact nofun

theorem exec_tau (h : exec s (.step t) = some (e, s')) : s.thread t ≠ none ∧ e = .tau t := by
  simp only [exec] at h
  split at h
  · cases h
  · exact move_tau h

theorem exec_alloc {slot level : ℕ} (h : exec s (.alloc t slot level) = some (e, s')) :
    s.thread t ≠ none ∧ e = .tau t := by
  simp only [exec] at h
  split at h
  · exact move_tau h
  · cases h

def Command.tid : Command V → Tid
  | .call t _ => t
  | .ret t => t
  | .step t => t
  | .alloc t _ _ => t

theorem exec_tid {c : Command V} (h : exec s c = some (e, s')) : e.tid = c.tid := by
  cases c with
  | call t op =>
    rw [(exec_call h).2]
    rfl
  | ret t =>
    obtain ⟨_, _, _, rfl⟩ := exec_ret h
    rfl
  | step t =>
    rw [(exec_tau h).2]
    rfl
  | alloc t slot level =>
    rw [(exec_alloc h).2]
    rfl

theorem exec_idle {c : Command V} (h : exec s c = some (e, s'))
    (hs : ∀ u, 2 ≤ u → s.thread u = none) : ∀ u, 2 ≤ u → s'.thread u = none := by
  intro u hu
  by_cases he : u = e.tid
  · exfalso
    obtain rfl := he.trans (exec_tid h)
    cases c with
    | call t op => exact absurd (exec_call h).1 (not_lt.2 hu)
    | ret t =>
      obtain ⟨_, _, ht, _⟩ := exec_ret h
      exact absurd ((hs _ hu).symm.trans ht) nofun
    | step t => exact (exec_tau h).1 (hs _ hu)
    | alloc t slot level => exact (exec_alloc h).1 (hs _ hu)
  · exact ((machine V).step_other (exec_step h) he).trans (hs u hu)

theorem exists_play (zero : V)
    (ex : State V → Command V → Option (Event (SetOp V) × State V))
    (hex : ∀ {s c r}, ex s c = some r → exec s c = some r)
    (cs : List (Command V)) (h : (play ex (initial zero) cs).isSome = true) :
    ∃ ρ : Run (machine V), Plays ex (initial zero) cs ρ ∧
      ∀ n ≤ ρ.length, ∀ u, 2 ≤ u → (ρ.state n).thread u = none := by
  obtain ⟨s', hs'⟩ := Option.isSome_iff_exists.1 h
  obtain ⟨ρ, hρ⟩ := exists_run (M := machine V) (I := fun _ => True)
    (fun _ h => ⟨exec_step (hex h), trivial⟩) ⟨zero, rfl⟩ trivial hs'
  refine ⟨ρ, hρ, Run.stepwise ?_ fun m hm ih => ?_⟩
  · exact fun u _ => (machine V).init_idle ρ.init
  · exact exec_idle (hex (hρ.exec (by rw [← hρ.length]; exact hm))) ih

def steps (t : Tid) (n : ℕ) : List (Command V) := List.replicate n (.step t)

def Command.takes : Command V → Option Loc
  | .alloc _ slot _ => some slot
  | _ => none

theorem move_take {slot level : ℕ} {x : Loc} (h : s.move t slot level = some (e, s'))
    (h0 : s.store.avail x = true) (h1 : s'.store.avail x = false) :
    x = slot ∧ s.allocating t = true := by
  obtain ⟨⟨op, pc⟩, ht, h⟩ := Option.bind_eq_some_iff.1 h
  obtain ⟨⟨σ, pc'⟩, hn, h⟩ := Option.map_eq_some_iff.1 h
  obtain ⟨_, rfl⟩ := Prod.mk.inj h
  obtain ⟨rfl, path, rfl⟩ := next_take hn h0 h1
  exact ⟨rfl, by simp [State.allocating, ht]⟩

theorem exec_take {c : Command V} {x : Loc} (h : exec s c = some (e, s'))
    (h0 : s.store.avail x = true) (h1 : s'.store.avail x = false) : c.takes = some x := by
  cases c with
  | alloc t slot level =>
    simp only [exec] at h
    split at h
    · exact congrArg some (move_take h h0 h1).1.symm
    · cases h
  | call t op =>
    simp only [exec] at h
    split at h
    · obtain ⟨_, rfl⟩ := Prod.mk.inj (Option.some.inj h)
      exact absurd (h0.symm.trans h1) nofun
    · cases h
  | ret t =>
    simp only [exec] at h
    split at h
    · obtain ⟨_, rfl⟩ := Prod.mk.inj (Option.some.inj h)
      exact absurd (h0.symm.trans h1) nofun
    · cases h
  | step t =>
    simp only [exec] at h
    split at h
    · cases h
    · next hna => exact absurd (move_take h h0 h1).2 hna

theorem neverRecycled_of_plays {ex : State V → Command V → Option (Event (SetOp V) × State V)}
    (hex : ∀ {s c r}, ex s c = some r → exec s c = some r) {cs : List (Command V)}
    {ρ : Run (machine V)} (hρ : Plays ex s cs ρ) (hcs : (cs.filterMap Command.takes).Nodup) :
    NeverRecycled ρ := by
  intro x m n hmn hn hm' hn'
  have taken : ∀ {a} (ha : a < cs.length), Allocates ρ a x → cs[a].takes = some x := fun ha h =>
    exec_take (hex (hρ.exec ha)) h.1 h.2
  rw [hρ.length] at hn
  have := List.pairwise_iff_getElem.1 (List.pairwise_filterMap.1 hcs) m n (hmn.trans hn) hn hmn
  exact this x (taken _ hm') x (taken _ hn') rfl

end SOFT.SkipList
