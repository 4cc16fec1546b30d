import DurableSets.SOFT.ListRecover
import DurableSets.Ssmem.Arena

namespace SOFT.List

open Ssmem Relation

variable {V : Type}

structure Restart (V : Type) where
  store : Store V
  pc : RecoveryPc
  usage : Usage
  freed : List PLoc

def RecoveryPc.keeps (σ : Store V) : RecoveryPc → List PLoc
  | .scan (p :: _) => if (σ.pnode p).recovered then [p] else []
  | _ => []

inductive Restart.Step (tsList : List Tid) (r : Tid) (s : Restart V) : Restart V → Prop
  | work (slot : Loc) (σ : Store V) (pc : RecoveryPc) (hs : s.store.avail slot = true)
    (hf : ∀ p todo, s.pc ≠ .free p todo) (hn : recoveryNext s.store slot s.pc = some (σ, pc)) :
    Step tsList r s { s with
      store := σ
      pc := pc
      usage := { s.usage with held := s.pc.keeps s.store ++ s.usage.held } }
  | collect (S : System) (hc : s.usage.sys.collect r = some S) :
    Step tsList r s { s with usage := { s.usage with sys := S } }
  | free (p : PLoc) (todo : List PLoc) (S : System) (hp : s.pc = .free p todo)
    (hf : s.usage.sys.free tsList r p = some S) :
    Step tsList r s
      ⟨s.store.giveP p, .scan todo, { s.usage with sys := S }, p :: s.freed⟩

-- a crash leaves the chunks; the free sets are in volatile memory
def crash (tsList : List Tid) (fsSize : Tid → ℕ) (version : Tid → ℕ) (u : Usage) : Usage where
  sys := { u.sys with
    allocator := fun t => Allocator.init tsList (fsSize t)
    version := version }
  held := []
  handed := u.handed

def Restart.start (zero : V) (image : PLoc → PNode V) (size : ℕ) (r : Tid) (u : Usage) :
    Restart V :=
  ⟨restore zero image fun _ => false, .scan ((u.sys.arena r).slots size), u, []⟩

-- what recovery() frees was handed out before, and afterwards no slot has two users
structure RecoverySafe (tsList : List Tid) (size : ℕ) (r : Tid) (s₀ : Restart V) : Prop where
  freed : ∀ s, ReflTransGen (Restart.Step tsList r) s₀ s → ∀ p ∈ s.freed, p ∈ s₀.usage.handed
  apart : ∀ s, ReflTransGen (Restart.Step tsList r) s₀ s → s.pc = .scan [] →
    ∀ u, ReflTransGen (Usage.Step tsList size) s.usage u → u.held.Nodup ∧
      ∀ t mem p S, u.sys.Unmapped size t mem → u.sys.alloc size t mem = some (p, S) → p ∉ u.held

variable {σ σ' : Store V} {pc pc' : RecoveryPc} {slot : Loc} {p : PLoc} {todo : List PLoc}
  {tsList tsList₀ : List Tid} {r : Tid} {size : ℕ} {s s' s₀ : Restart V} {u u₀ : Usage}

theorem recovery_slots (hn : recoveryNext σ slot pc = some (σ', pc')) :
    pc' = .failed ∨ (∃ p todo, pc = .free p todo) ∨
      pc.todo.Perm (pc'.todo ++ pc.keeps σ) := by
  cases pc with
  | scan todo =>
    right
    right
    cases todo with
    | nil => cases hn
    | cons p todo =>
      simp only [recoveryNext] at hn
      split at hn
      · next hv =>
        obtain ⟨_, rfl⟩ := Prod.mk.inj (Option.some.inj hn)
        simp only [RecoveryPc.todo, RecoveryPc.keeps, if_pos hv]
        exact (List.perm_append_comm : ([p] ++ todo).Perm _)
      · next hv =>
        obtain ⟨_, rfl⟩ := Prod.mk.inj (Option.some.inj hn)
        simp only [RecoveryPc.todo, RecoveryPc.keeps, if_neg hv, List.append_nil]
        exact List.Perm.refl _
  | reset p todo =>
    obtain ⟨_, rfl⟩ := Prod.mk.inj (Option.some.inj hn)
    exact Or.inr (Or.inr (by simp [RecoveryPc.todo, RecoveryPc.keeps]))
  | free p todo => exact Or.inr (Or.inl ⟨p, todo, rfl⟩)
  | retry n todo =>
    simp only [recoveryNext] at hn
    obtain ⟨c, _, he⟩ := Option.map_eq_some_iff.1 hn
    obtain ⟨_, rfl⟩ := Prod.mk.inj he
    exact Or.inr (Or.inr (by simp [RecoveryPc.todo, RecoveryPc.keeps]))
  | search n d st c todo =>
    simp only [recoveryNext] at hn
    split at hn
    · obtain ⟨_, rfl⟩ := Prod.mk.inj (Option.some.inj hn)
      exact Or.inl rfl
    · split at hn
      · obtain ⟨c, _, he⟩ := Option.map_eq_some_iff.1 hn
        obtain ⟨_, rfl⟩ := Prod.mk.inj he
        exact Or.inr (Or.inr (by simp [RecoveryPc.todo, RecoveryPc.keeps]))
      · split at hn <;> obtain ⟨_, rfl⟩ := Prod.mk.inj (Option.some.inj hn)
        · exact Or.inl rfl
        · exact Or.inr (Or.inr (by simp [RecoveryPc.todo, RecoveryPc.keeps]))
  | link n d st c todo =>
    simp only [recoveryNext] at hn
    split at hn <;> obtain ⟨_, rfl⟩ := Prod.mk.inj (Option.some.inj hn) <;>
      exact Or.inr (Or.inr (by simp [RecoveryPc.todo, RecoveryPc.keeps]))
  | failed => cases hn

theorem recovery_pnode (hn : recoveryNext σ slot pc = some (σ', pc')) (p : PLoc) :
    (σ'.pnode p).validEnd = (σ.pnode p).validEnd ∧ (σ'.pnode p).deleted = (σ.pnode p).deleted := by
  cases pc with
  | scan todo =>
    cases todo with
    | nil => cases hn
    | cons q todo =>
      simp only [recoveryNext] at hn
      split at hn <;> obtain ⟨rfl, _⟩ := Prod.mk.inj (Option.some.inj hn) <;> exact ⟨rfl, rfl⟩
  | reset q todo =>
    obtain ⟨rfl, _⟩ := Prod.mk.inj (Option.some.inj hn)
    by_cases he : p = q
    · subst he
      simp only [Store.pnode, Store.writeP, pline_setLine_self, Line.write_cur]
      exact ⟨trivial, trivial⟩
    · simp only [Store.pnode, Store.writeP, pline_setLine_other σ _ he]
      exact ⟨trivial, trivial⟩
  | free q todo =>
    obtain ⟨rfl, _⟩ := Prod.mk.inj (Option.some.inj hn)
    exact ⟨rfl, rfl⟩
  | retry n todo =>
    simp only [recoveryNext] at hn
    obtain ⟨c, _, he⟩ := Option.map_eq_some_iff.1 hn
    obtain ⟨rfl, _⟩ := Prod.mk.inj he
    exact ⟨rfl, rfl⟩
  | search n d st c todo =>
    simp only [recoveryNext] at hn
    split at hn
    · obtain ⟨rfl, _⟩ := Prod.mk.inj (Option.some.inj hn)
      exact ⟨rfl, rfl⟩
    · split at hn
      · obtain ⟨c, _, he⟩ := Option.map_eq_some_iff.1 hn
        obtain ⟨rfl, _⟩ := Prod.mk.inj he
        exact ⟨rfl, rfl⟩
      · split at hn <;> obtain ⟨rfl, _⟩ := Prod.mk.inj (Option.some.inj hn) <;> exact ⟨rfl, rfl⟩
  | link n d st c todo =>
    simp only [recoveryNext] at hn
    split at hn <;> obtain ⟨rfl, _⟩ := Prod.mk.inj (Option.some.inj hn) <;> exact ⟨rfl, rfl⟩
  | failed => cases hn

theorem not_recovered (h : (σ.pnode p).validEnd = (σ.pnode p).deleted) :
    ¬ (σ.pnode p).recovered = true := by
  rw [PNode.recovered_eq]
  simp [PNode.isValid, h]

structure Restart.Swept (s₀ s : Restart V) : Prop where
  handed : s.usage.handed = s₀.usage.handed
  zero : ∀ p ∉ s₀.usage.handed, (s.store.pnode p).validEnd = (s.store.pnode p).deleted
  held : ∀ p ∈ s.usage.held, p ∈ s₀.usage.held ∨ p ∈ s₀.usage.handed
  done : s.pc ≠ .failed → ∀ p ∈ s₀.pc.todo, p ∈ s.pc.todo ∨ p ∈ s.usage.held ∨ p ∈ s.freed

theorem Restart.Swept.step (h : s₀.Swept s) (hs : Restart.Step tsList r s s') : s₀.Swept s' := by
  cases hs with
  | work slot σ pc' ha hf hn =>
    have hpc : s.pc ≠ .failed := by
      rintro he
      rw [he] at hn
      cases hn
    refine ⟨h.handed, fun p hp => ?_, fun p hp => ?_, fun hne p hp => ?_⟩
    · obtain ⟨h1, h2⟩ := recovery_pnode hn p
      rw [h1, h2]
      exact h.zero p hp
    · rcases List.mem_append.1 hp with hp | hp
      · right
        by_contra hnot
        cases hpc : s.pc with
        | scan todo =>
          rw [hpc] at hp
          cases todo with
          | nil => cases hp
          | cons q todo =>
            simp only [RecoveryPc.keeps] at hp
            split at hp
            · next hv =>
              obtain rfl := List.mem_singleton.1 hp
              exact not_recovered (h.zero p hnot) hv
            · cases hp
        | _ =>
          rw [hpc] at hp
          cases hp
      · exact h.held p hp
    · rcases recovery_slots hn with he | ⟨q, todo, he⟩ | hperm
      · exact absurd he hne
      · exact absurd he (hf q todo)
      · rcases h.done hpc p hp with hp | hp | hp
        · rcases List.mem_append.1 (hperm.mem_iff.1 hp) with hp | hp
          · exact Or.inl hp
          · exact Or.inr (Or.inl (List.mem_append_left _ hp))
        · exact Or.inr (Or.inl (List.mem_append_right _ hp))
        · exact Or.inr (Or.inr hp)
  | collect S hc => exact ⟨h.handed, h.zero, h.held, h.done⟩
  | free p todo S hp hf =>
    refine ⟨h.handed, h.zero, h.held, fun _ q hq => ?_⟩
    rcases h.done (by rw [hp]; exact nofun) q hq with hq | hq | hq
    · rw [hp] at hq
      rcases List.mem_cons.1 hq with rfl | hq
      · exact Or.inr (Or.inr List.mem_cons_self)
      · exact Or.inl hq
    · exact Or.inr (Or.inl hq)
    · exact Or.inr (Or.inr (List.mem_cons_of_mem _ hq))

theorem Restart.Swept.run (h : s₀.Swept s) (hr : ReflTransGen (Restart.Step tsList r) s s') :
    s₀.Swept s' := by
  induction hr with
  | refl => exact h
  | tail _ hs ih => exact ih.step hs

-- the slots that recovery() has still to look at are as good as in use
def Restart.Owns (tsList : List Tid) (size : ℕ) (s : Restart V) : Prop :=
  s.pc = .failed ∨
    Usage.Inv tsList size ⟨s.usage.sys, s.pc.todo ++ s.usage.held, s.usage.handed⟩

theorem Restart.Owns.step (h : s.Owns tsList size) (hs : Restart.Step tsList r s s') :
    s'.Owns tsList size ∧ ∀ p ∈ s'.freed, p ∈ s.freed ∨ p ∈ s.usage.handed := by
  cases hs with
  | work slot σ pc' ha hf hn =>
    refine ⟨?_, fun p => Or.inl⟩
    rcases h with he | h
    · rw [he] at hn
      cases hn
    · rcases recovery_slots hn with he | ⟨q, todo, he⟩ | hperm
      · exact Or.inl he
      · exact absurd he (hf q todo)
      · right
        have := h.perm (hperm.append_right s.usage.held)
        rwa [List.append_assoc] at this
  | collect S hc => exact ⟨h.imp_right fun h => h.collect hc, fun p => Or.inl⟩
  | free p todo S hp hf =>
    rcases h with he | h
    · rw [he] at hp
      cases hp
    · rw [hp] at h
      have hin : p ∈ p :: todo ++ s.usage.held := List.mem_cons_self
      refine ⟨Or.inr ?_, fun q hq => ?_⟩
      · have := h.free hin hf
        simpa only [RecoveryPc.todo, List.cons_append, List.erase_cons_head] using this
      · rcases List.mem_cons.1 hq with rfl | hq
        · exact Or.inr (h.held q hin)
        · exact Or.inl hq

theorem Restart.Owns.run (h : s.Owns tsList size)
    (hr : ReflTransGen (Restart.Step tsList r) s s') : s'.Owns tsList size ∧
      s'.usage.handed = s.usage.handed ∧ ∀ p ∈ s'.freed, p ∈ s.freed ∨ p ∈ s.usage.handed := by
  induction hr with
  | refl => exact ⟨h, rfl, fun _ => Or.inl⟩
  | tail _ hs ih =>
    obtain ⟨ih1, ih2, ih3⟩ := ih
    obtain ⟨h1, h2⟩ := ih1.step hs
    refine ⟨h1, ?_, fun p hp => ?_⟩
    · cases hs <;> exact ih2
    · rcases h2 p hp with hp | hp
      · exact ih3 p hp
      · exact Or.inr (ih2 ▸ hp)

theorem crash_inv {fsSize version : Tid → ℕ} (h : u.Inv tsList₀ size) (hs : 0 < size)
    (hall : ∀ p ∈ (u.sys.arena r).slots size, p ∈ u.handed) :
    Usage.Inv tsList size
      ⟨(crash tsList fsSize version u).sys, (u.sys.arena r).slots size, u.handed⟩ := by
  obtain ⟨hsound, hslots⟩ : (crash tsList fsSize version u).sys.Sound tsList
      (fun p => p ∉ (u.sys.arena r).slots size) ∧
      ∀ t, ((crash tsList fsSize version u).sys.allocator t).slots = [] :=
    Usage.sound_init (fun t => ⟨fsSize t, rfl⟩) (fun p hf hm => h.handed p (hall p hm) hf)
      h.sound.mapped h.sound.apart
  refine ⟨hsound, (h.layout r).nodup_slots hs, hall, fun t => ?_, h.handed,
    fun t => (h.layout t).congr rfl rfl fun _ => Iff.rfl⟩
  rw [hslots]
  exact nofun

variable {zero : V} {image : PLoc → PNode V} {fsSize version : Tid → ℕ}

theorem swept_start (hz : ∀ p ∉ u.handed, image p = ⟨false, false, false, 0, zero⟩) :
    (Restart.start zero image size r (crash tsList fsSize version u)).Swept
      (Restart.start zero image size r (crash tsList fsSize version u)) := by
  refine ⟨rfl, fun p hp => ?_, fun p => Or.inl, fun _ p => Or.inl⟩
  change (image p).validEnd = (image p).deleted
  rw [hz p hp]

-- nothing is asked of what the slots hold, nor that recovery() returns
theorem recoverySafe_of_exhausted {u₀ : Usage} (h₀ : u₀.Init tsList₀)
    (hr : ReflTransGen (Usage.Step tsList₀ size) u₀ u) (hs : 0 < size)
    (hx : (u.sys.arena r).Exhausted size) :
    RecoverySafe tsList size r
      (Restart.start zero image size r (crash tsList fsSize version u)) := by
  have hu : u.Inv tsList₀ size := h₀.inv.run hs hr
  have hall := ((hu.layout r).forall_handed hs hu.handed).2 hx
  have hown : (Restart.start zero image size r (crash tsList fsSize version u)).Owns
      tsList size := by
    right
    have hi : Usage.Inv tsList size ⟨(crash tsList fsSize version u).sys,
        (u.sys.arena r).slots size, u.handed⟩ := crash_inv hu hs hall
    rwa [← List.append_nil ((u.sys.arena r).slots size)] at hi
  refine ⟨fun s hreach p hp => ?_, fun s hreach hdone v hv => ?_⟩
  · obtain ⟨_, _, hfreed⟩ := hown.run hreach
    exact (hfreed p hp).resolve_left nofun
  · obtain ⟨hi | hi, _, _⟩ := hown.run hreach
    · rw [hdone] at hi
      cases hi
    · rw [hdone] at hi
      have hv := Usage.Inv.run (u := s.usage) hi hs hv
      exact ⟨hv.nodup, fun t mem p S hm ha => (hv.alloc hs hm ha).1⟩

theorem recoverySafe_iff {u₀ : Usage} (h₀ : u₀.Init tsList₀)
    (hr : ReflTransGen (Usage.Step tsList₀ size) u₀ u) (hs : 0 < size)
    (hz : ∀ p ∉ u.handed, image p = ⟨false, false, false, 0, zero⟩)
    (hret : ∃ s, ReflTransGen (Restart.Step tsList r)
      (Restart.start zero image size r (crash tsList fsSize version u)) s ∧ s.pc = .scan []) :
    RecoverySafe tsList size r (Restart.start zero image size r (crash tsList fsSize version u)) ↔
      (u.sys.arena r).Exhausted size := by
  refine ⟨fun hsafe => ?_, recoverySafe_of_exhausted h₀ hr hs⟩
  have hu : u.Inv tsList₀ size := h₀.inv.run hs hr
  refine ((hu.layout r).forall_handed hs hu.handed).1 fun p hp => ?_
  obtain ⟨s, hreach, hdone⟩ := hret
  have hsw := (swept_start hz).run hreach
  rcases hsw.done (by rw [hdone]; exact nofun) p hp with hp | hp | hp
  · rw [hdone] at hp
    cases hp
  · exact (hsw.held p hp).resolve_left nofun
  · exact hsafe.freed s hreach p hp

-- each thread has one chunk, and every other block of memory is free
def blocks : Usage where
  sys := {
    allocator := fun _ => Allocator.init [0] 1
    arena := fun t => ⟨2 * t * SSMEM_DEFAULT_MEM_SIZE, 0, SSMEM_DEFAULT_MEM_SIZE,
      [2 * t * SSMEM_DEFAULT_MEM_SIZE]⟩
    mapped := fun p => p / SSMEM_DEFAULT_MEM_SIZE % 2 == 0
    version := fun _ => 0 }
  held := []
  handed := []

theorem blocks_init : blocks.Init [0] := by
  have hdiv : ∀ {t : Tid} {p : ℕ}, (blocks.sys.arena t).Covers p →
      p / SSMEM_DEFAULT_MEM_SIZE = 2 * t := by
    intro t p hp
    obtain ⟨h1, h2⟩ : 2 * t * SSMEM_DEFAULT_MEM_SIZE ≤ p ∧
      p < 2 * t * SSMEM_DEFAULT_MEM_SIZE + SSMEM_DEFAULT_MEM_SIZE := hp
    refine Nat.div_eq_of_lt_le h1 ?_
    rw [Nat.succ_mul]
    exact h2
  refine ⟨fun t => ⟨1, rfl⟩, fun t => ⟨_, rfl⟩, fun t p hp => ?_, fun t v p h1 h2 => ?_, rfl, rfl⟩
  · change (p / SSMEM_DEFAULT_MEM_SIZE % 2 == 0) = true
    rw [hdiv hp]
    simp
  · exact Nat.eq_of_mul_eq_mul_left Nat.two_pos ((hdiv h1).symm.trans (hdiv h2))

def zeros : PLoc → PNode Unit := fun _ => ⟨false, false, false, 0, ()⟩

theorem blocks_unmapped {q : ℕ} (h1 : SSMEM_DEFAULT_MEM_SIZE ≤ q)
    (h2 : q < SSMEM_DEFAULT_MEM_SIZE + SSMEM_DEFAULT_MEM_SIZE) : blocks.sys.mapped q = false := by
  have : q / SSMEM_DEFAULT_MEM_SIZE = 1 := Nat.div_eq_of_lt_le (by omega) (by omega)
  change (q / SSMEM_DEFAULT_MEM_SIZE % 2 == 0) = false
  rw [this]
  rfl

-- recovery() takes its next step with the memory that new returns, or ssmem_free collects
def Restart.exec (tsList : List Tid) (r : Tid) (s : Restart V) : Option Loc → Option (Restart V)
  | none => (s.usage.sys.collect r).map fun S => { s with usage := { s.usage with sys := S } }
  | some slot =>
    match s.pc with
    | .free p todo => (s.usage.sys.free tsList r p).map fun S =>
        ⟨s.store.giveP p, .scan todo, { s.usage with sys := S }, p :: s.freed⟩
    | pc =>
      if s.store.avail slot then
        (recoveryNext s.store slot pc).map fun n => { s with
          store := n.1
          pc := n.2
          usage := { s.usage with held := pc.keeps s.store ++ s.usage.held } }
      else none

theorem Restart.exec_step {c : Option Loc} (h : s.exec tsList r c = some s') :
    Restart.Step tsList r s s' := by
  cases c with
  | none =>
    obtain ⟨S, hS, rfl⟩ := Option.map_eq_some_iff.1 h
    exact .collect S hS
  | some slot =>
    simp only [Restart.exec] at h
    split at h
    · next p todo hpc =>
      obtain ⟨S, hS, rfl⟩ := Option.map_eq_some_iff.1 h
      exact .free p todo S hpc hS
    · next hpc =>
      split at h
      · next ha =>
        obtain ⟨n, hn, rfl⟩ := Option.map_eq_some_iff.1 h
        exact .work slot n.1 n.2 ha hpc hn
      · cases h

def Restart.schedule (tsList : List Tid) (r : Tid) (s : Restart V) :
    List (Option Loc) → Option (Restart V)
  | [] => some s
  | c :: cs => (s.exec tsList r c).bind fun s' => s'.schedule tsList r cs

theorem Restart.run_of_schedule (cs : List (Option Loc)) (h : s.schedule tsList r cs = some s') :
    ReflTransGen (Restart.Step tsList r) s s' := by
  induction cs generalizing s with
  | nil =>
    obtain rfl := Option.some.inj h
    exact ReflTransGen.refl
  | cons c cs ih =>
    obtain ⟨s1, h1, h⟩ := Option.bind_eq_some_iff.1 h
    exact ReflTransGen.head (Restart.exec_step h1) (ih h)

def third : ℕ := 3 * 2 ^ 22

-- a node with the key 5, one that was removed, one with the key 4, and one half created
def fourSlots (p : PLoc) : PNode ℕ :=
  if p = 0 then ⟨true, true, false, 5, 7⟩
  else if p = third then ⟨true, true, true, 6, 8⟩
  else if p = SSMEM_DEFAULT_MEM_SIZE then ⟨true, true, false, 4, 9⟩
  else if p = SSMEM_DEFAULT_MEM_SIZE + third then ⟨true, false, false, 3, 1⟩
  else ⟨false, false, false, 0, 0⟩

def recoverFour : List (Option Loc) :=
  [[some 2], List.replicate 7 (some 3), List.replicate 6 (some 4), [none, some 4]].flatten

-- both chunks of the allocator are used up, and the slot of the removed node is free
theorem recoverySafe_fourSlots : ∃ u : Usage,
    ReflTransGen (Usage.Step [0] third) blocks u ∧
    u.held = [SSMEM_DEFAULT_MEM_SIZE + third, SSMEM_DEFAULT_MEM_SIZE, 0] ∧
    (∃ s, ReflTransGen (Restart.Step [0] 0)
        (Restart.start 0 fourSlots third 0 (crash [0] (fun _ => 1) (fun _ => 0) u)) s ∧
      s.pc = .scan [] ∧ s.freed = [third, SSMEM_DEFAULT_MEM_SIZE + third] ∧
      s.usage.held = [0, SSMEM_DEFAULT_MEM_SIZE]) ∧
    RecoverySafe [0] third 0
      (Restart.start 0 fourSlots third 0 (crash [0] (fun _ => 1) (fun _ => 0) u)) := by
  have hno : ∀ {mem : ℕ} {S : System}, S.wanted third 0 = none → S.Unmapped third 0 mem := by
    intro mem S h n hn
    cases h.symm.trans hn
  have run : ReflTransGen (Usage.Step [0] third) blocks _ :=
    ReflTransGen.head (Usage.Step.alloc 0 0 0 _ (hno rfl) rfl) <|
    ReflTransGen.head (Usage.Step.alloc 0 0 third _ (hno rfl) rfl) <|
    ReflTransGen.head (Usage.Step.free 0 third _ List.mem_cons_self rfl) <|
    ReflTransGen.head (Usage.Step.alloc 0 SSMEM_DEFAULT_MEM_SIZE SSMEM_DEFAULT_MEM_SIZE _
      (System.unmapped_of rfl fun _ => blocks_unmapped) rfl) <|
    ReflTransGen.single (Usage.Step.alloc 0 0 (SSMEM_DEFAULT_MEM_SIZE + third) _ (hno rfl) rfl)
  refine ⟨_, run, rfl, ⟨_, Restart.run_of_schedule recoverFour rfl, rfl, rfl, rfl⟩, ?_⟩
  refine (recoverySafe_iff blocks_init run (by decide) (fun p hp => ?_)
    ⟨_, Restart.run_of_schedule recoverFour rfl, rfl⟩).2 ⟨by decide, by decide⟩
  have hp : p ∉ [SSMEM_DEFAULT_MEM_SIZE + third, SSMEM_DEFAULT_MEM_SIZE, third, 0] := hp
  simp only [List.mem_cons, List.not_mem_nil, or_false, not_or] at hp
  simp [fourSlots, hp]

-- both slots of the first chunk are freed; then the first one is cut off the chunk, and taken
-- from a collected set as well
theorem recovery_not_safe : blocks.Init [0] ∧ ¬ RecoverySafe [0] (2 ^ 24) 0
    (Restart.start () zeros (2 ^ 24) 0 (crash [0] (fun _ => 1) (fun _ => 0) blocks)) := by
  refine ⟨blocks_init, fun h => ?_⟩
  have first : Restart.Step [0] 0 (Restart.start () zeros (2 ^ 24) 0
      (crash [0] (fun _ => 1) (fun _ => 0) blocks)) _ :=
    Restart.Step.work 2 _ _ rfl (by rintro _ _ ⟨⟩) rfl
  have recovered := h.apart _
    (ReflTransGen.head first <|
      ReflTransGen.head (Restart.Step.work 2 _ _ rfl (by rintro _ _ ⟨⟩) rfl) <|
      ReflTransGen.head (Restart.Step.free 0 _ _ rfl rfl) <|
      ReflTransGen.head (Restart.Step.work 2 _ _ rfl (by rintro _ _ ⟨⟩) rfl) <|
      ReflTransGen.head (Restart.Step.work 2 _ _ rfl (by rintro _ _ ⟨⟩) rfl) <|
      ReflTransGen.head (Restart.Step.collect _ rfl) <|
      ReflTransGen.single (Restart.Step.free (2 ^ 24) _ _ rfl rfl)) rfl
  have used := recovered _
    (ReflTransGen.head (Usage.Step.alloc 0 0 0 _ (fun _ h => by cases h) rfl) <|
      ReflTransGen.head (Usage.Step.alloc 0 SSMEM_DEFAULT_MEM_SIZE SSMEM_DEFAULT_MEM_SIZE _
        (System.unmapped_of rfl fun _ => blocks_unmapped) rfl) <|
      ReflTransGen.head (Usage.Step.collect 0 _ rfl) <|
      ReflTransGen.single (Usage.Step.free 0 SSMEM_DEFAULT_MEM_SIZE _ List.mem_cons_self rfl))
  exact used.2 0 0 0 _ (fun _ h => by cases h) rfl (List.mem_singleton_self 0)

end SOFT.List
