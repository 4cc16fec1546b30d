import DurableSets.Ssmem.Epochs
import Mathlib.Data.List.Nodup
import Mathlib.Logic.Relation

namespace Ssmem

def SSMEM_DEFAULT_MEM_SIZE : ℕ := 32 * 1024 * 1024

def SSMEM_MEM_SIZE_MAX : ℕ := 4 * 1024 * 1024 * 1024

-- the chunk that new slots are cut from, and all chunks so far with the newest first
structure Arena where
  mem : ℕ
  memCurr : ℕ
  memSize : ℕ
  memChunks : List ℕ

-- mapped are the addresses that aligned_alloc has given to some allocator
structure System where
  allocator : Tid → Allocator ℕ
  arena : Tid → Arena
  mapped : ℕ → Bool
  version : Tid → ℕ

-- mem_size is doubled until the object fits; the assertion on the maximum stops the program
def growSize (size : ℕ) : ℕ → ℕ → Option ℕ
  | 0, _ => none
  | n + 1, memSize =>
    if memSize < size then
      if SSMEM_MEM_SIZE_MAX < memSize then none else growSize size n (memSize * 2)
    else some memSize

namespace System

def setAllocator (S : System) (t : Tid) (a : Allocator ℕ) : System :=
  { S with allocator := Function.update S.allocator t a }

def setArena (S : System) (t : Tid) (a : Arena) : System :=
  { S with arena := Function.update S.arena t a }

def wanted (S : System) (size : ℕ) (t : Tid) : Option ℕ :=
  if (S.allocator t).collectedSets.isEmpty ∧ (S.arena t).memSize ≤ (S.arena t).memCurr + size then
    growSize size 64 (S.arena t).memSize
  else none

def Unmapped (S : System) (size : ℕ) (t : Tid) (mem : ℕ) : Prop :=
  ∀ n, S.wanted size t = some n → ∀ p, mem ≤ p → p < mem + n → S.mapped p = false

-- mem is the address of the new chunk if one is wanted
def alloc (S : System) (size : ℕ) (t : Tid) (mem : ℕ) : Option (ℕ × System) :=
  match (S.allocator t).collectedSets with
  | _ :: _ => (S.allocator t).pop.map fun r => (r.1, S.setAllocator t r.2)
  | [] =>
    let a := S.arena t
    if a.memSize ≤ a.memCurr + size then
      (growSize size 64 a.memSize).map fun memSize =>
        (mem, { S.setArena t ⟨mem, size, memSize, mem :: a.memChunks⟩ with
          mapped := fun p => S.mapped p || (decide (mem ≤ p) && decide (p < mem + memSize)) })
    else some (a.mem + a.memCurr, S.setArena t { a with memCurr := a.memCurr + size })

def collect (S : System) (t : Tid) : Option System :=
  ((S.allocator t).tsSetCollect S.version).map (S.setAllocator t)

def free (S : System) (tsList : List Tid) (t : Tid) (obj : ℕ) : Option System :=
  ((S.allocator t).free tsList obj).map fun a =>
    { S.setAllocator t a with version := tsNext S.version t }

end System

-- the allocators, the slots whose user has not freed them, and all slots ever handed out
structure Usage where
  sys : System
  held : List ℕ
  handed : List ℕ

inductive Usage.Step (tsList : List Tid) (size : ℕ) (u : Usage) : Usage → Prop
  | alloc (t : Tid) (mem p : ℕ) (S : System)
    (hm : u.sys.Unmapped size t mem) (ha : u.sys.alloc size t mem = some (p, S)) : Step tsList size u ⟨S, p :: u.held, p :: u.handed⟩
  | collect (t : Tid) (S : System) (hc : u.sys.collect t = some S) :
    Step tsList size u { u with sys := S }
  | free (t : Tid) (p : ℕ) (S : System) (hp : p ∈ u.held) (hf : u.sys.free tsList t p = some S) :
    Step tsList size u { u with sys := S, held := u.held.erase p }

def Arena.Covers (a : Arena) (p : ℕ) : Prop := a.mem ≤ p ∧ p < a.mem + a.memSize

structure Usage.Init (tsList : List Tid) (u : Usage) : Prop where
  allocator : ∀ t, ∃ fsSize, u.sys.allocator t = Allocator.init tsList fsSize
  arena : ∀ t, ∃ mem, u.sys.arena t = ⟨mem, 0, SSMEM_DEFAULT_MEM_SIZE, [mem]⟩
  mapped : ∀ t p, (u.sys.arena t).Covers p → u.sys.mapped p = true
  apart : ∀ t v p, (u.sys.arena t).Covers p → (u.sys.arena v).Covers p → t = v
  held : u.held = []
  handed : u.handed = []

/-! ### No slot is handed out while it is in use -/

variable {tsList : List Tid} {size mem n p q : ℕ} {t v : Tid} {S S' : System}
  {avail avail' : ℕ → Prop} {u u' : Usage}

def System.Fresh (S : System) (p : ℕ) : Prop :=
  S.mapped p = false ∨
    ∃ t, (S.arena t).mem + (S.arena t).memCurr ≤ p ∧ p < (S.arena t).mem + (S.arena t).memSize

open Classical in
noncomputable def System.pool (S : System) : Pool ℕ := ⟨S.allocator, fun p => decide (S.Fresh p)⟩

@[simp] theorem pool_fresh : S.pool.fresh p = true ↔ S.Fresh p := by simp [System.pool]

structure System.Sound (tsList : List Tid) (avail : ℕ → Prop) (S : System) : Prop where
  pool : S.pool.Inv tsList S.version avail fun _ _ => False
  mapped : ∀ {t p}, (S.arena t).Covers p → S.mapped p = true
  apart : ∀ {t v p}, (S.arena t).Covers p → (S.arena v).Covers p → t = v

theorem Pool.Inv.narrow {α : Type*} {version : Tid → ℕ} {avail : α → Prop} {pins : Tid → α → Prop}
    {P P' : Pool α} (h : P.Inv tsList version avail pins)
    (ha : P'.allocator = P.allocator) (hf : ∀ x, P'.fresh x = true → P.fresh x = true) :
    P'.Inv tsList version avail pins where
  timed t := ha ▸ h.timed t
  nodup t := ha ▸ h.nodup t
  apart ht hu := h.apart (ha ▸ ht) (ha ▸ hu)
  held {t x} hx := by
    rw [ha] at hx
    obtain ⟨h1, h2⟩ := h.held hx
    refine ⟨h1, ?_⟩
    rw [← Bool.not_eq_true] at h2 ⊢
    exact fun hx => h2 (hf x hx)
  fresh hx := h.fresh (hf _ hx)

namespace System

@[simp] theorem setArena_self (a : Arena) : (S.setArena t a).arena t = a :=
  Function.update_self _ _ _

theorem setArena_other (a : Arena) (h : v ≠ t) : (S.setArena t a).arena v = S.arena v :=
  Function.update_of_ne h _ _

theorem growSize_le {k : ℕ} (h : growSize size k mem = some n) : size ≤ n ∧ mem ≤ n := by
  induction k generalizing mem with
  | zero => cases h
  | succ k ih =>
    simp only [growSize] at h
    split at h
    · split at h
      · cases h
      · have := ih h
        omega
    · obtain rfl := Option.some.inj h
      omega

theorem unmapped_of (hg : growSize size 64 (S.arena t).memSize = some n)
    (h : ∀ p, mem ≤ p → p < mem + n → S.mapped p = false) : S.Unmapped size t mem := by
  intro k hk
  unfold wanted at hk
  split at hk
  · obtain rfl := Option.some.inj (hg.symm.trans hk)
    exact h
  · cases hk

theorem alloc_cases (h : S.alloc size t mem = some (p, S')) :
    (∃ a, (S.allocator t).pop = some (p, a) ∧ S' = S.setAllocator t a) ∨
    ((S.allocator t).collectedSets = [] ∧ (S.arena t).memSize ≤ (S.arena t).memCurr + size ∧
      p = mem ∧ ∃ n, S.wanted size t = some n ∧ size ≤ n ∧ (S.arena t).memSize ≤ n ∧
      S' = { S.setArena t ⟨mem, size, n, mem :: (S.arena t).memChunks⟩ with
        mapped := fun q => S.mapped q || (decide (mem ≤ q) && decide (q < mem + n)) }) ∨
    ((S.allocator t).collectedSets = [] ∧ (S.arena t).memCurr + size < (S.arena t).memSize ∧
      p = (S.arena t).mem + (S.arena t).memCurr ∧
      S' = S.setArena t { S.arena t with memCurr := (S.arena t).memCurr + size }) := by
  unfold alloc at h
  split at h
  · obtain ⟨⟨m, a⟩, hpop, he⟩ := Option.map_eq_some_iff.1 h
    obtain ⟨rfl, rfl⟩ := Prod.mk.inj he
    exact Or.inl ⟨a, hpop, rfl⟩
  · next hc =>
    right
    simp only at h
    split at h
    · next hle =>
      obtain ⟨n, hn, he⟩ := Option.map_eq_some_iff.1 h
      obtain ⟨rfl, rfl⟩ := Prod.mk.inj he
      refine Or.inl ⟨hc, hle, rfl, n, ?_, (growSize_le hn).1, (growSize_le hn).2, rfl⟩
      unfold wanted
      rw [if_pos ⟨by simp [hc], hle⟩, hn]
    · next hlt =>
      obtain ⟨rfl, rfl⟩ := Prod.mk.inj (Option.some.inj h)
      exact Or.inr ⟨hc, not_le.1 hlt, rfl, rfl⟩

namespace Sound

theorem weaken (h : S.Sound tsList avail) (ha : ∀ p, avail p → avail' p) :
    S.Sound tsList avail' :=
  ⟨h.pool.keep_step ha fun _ _ _ => id, h.mapped, h.apart⟩

theorem narrow (h : S.Sound tsList avail) (ha : S'.allocator = S.allocator)
    (hv : S'.version = S.version) (hp : S.Fresh p) (hf : ∀ q, S'.Fresh q → S.Fresh q ∧ q ≠ p)
    (hm : ∀ {t p}, (S'.arena t).Covers p → S'.mapped p = true)
    (hapart : ∀ {t v p}, (S'.arena t).Covers p → (S'.arena v).Covers p → t = v) :
    avail p ∧ (∀ q, S'.Fresh q → S.Fresh q ∧ q ≠ p) ∧
      S'.Sound tsList fun q => avail q ∧ q ≠ p := by
  refine ⟨(h.pool.fresh (pool_fresh.2 hp)).1, hf, ⟨?_, hm, hapart⟩⟩
  have h1 : S'.pool.Inv tsList S.version avail fun _ _ => False :=
    h.pool.narrow ha fun q hq => pool_fresh.2 (hf q (pool_fresh.1 hq)).1
  rw [hv]
  refine h1.repin (fun _ _ _ => id) fun q hq hav => ⟨hav, ?_⟩
  rintro rfl
  rcases hq with hq | ⟨t, hq⟩
  · exact (hf q (pool_fresh.1 hq)).2 rfl
  · have hq : q ∈ (S.pool.allocator t).slots := by
      change q ∈ (S'.allocator t).slots at hq
      rw [ha] at hq
      exact hq
    exact Bool.false_ne_true ((h.pool.held hq).2.symm.trans (pool_fresh.2 hp))

theorem alloc (h : S.Sound tsList avail) (hs : 0 < size)
    (hm : S.Unmapped size t mem) (ha : S.alloc size t mem = some (p, S')) :
    avail p ∧ (∀ q, S'.Fresh q → S.Fresh q ∧ q ≠ p) ∧
      S'.Sound tsList fun q => avail q ∧ q ≠ p := by
  rcases alloc_cases ha with ⟨a, hpop, rfl⟩ | ⟨_, _, rfl, n, hw, hsn, _, rfl⟩ | ⟨_, hlt, rfl, rfl⟩
  · have hpa : S.pool.alloc t p = some (S.pool.setAllocator t a) := by
      obtain ⟨ms, rest, he, _⟩ := Allocator.pop_inv hpop
      simp only [Pool.alloc, show (S.pool.allocator t) = S.allocator t from rfl, he, hpop,
        Option.bind_some, if_true]
    obtain ⟨h1, _, h2⟩ := h.pool.alloc hpa
    refine ⟨h1, fun q hq => ⟨hq, ?_⟩, ⟨h2, h.mapped, h.apart⟩⟩
    rintro rfl
    have hmem : q ∈ (S.pool.allocator t).slots :=
      (Allocator.perm_pop hpop).mem_iff.2 List.mem_cons_self
    exact Bool.false_ne_true ((h.pool.held hmem).2.symm.trans (pool_fresh.2 hq))
  · have hout := hm n hw
    refine h.narrow rfl rfl (Or.inl (hout p le_rfl (by omega))) ?_ ?_ ?_
    · rintro q (hq | ⟨v, h1, h2⟩)
      · simp only [Bool.or_eq_false_iff, Bool.and_eq_false_iff, decide_eq_false_iff_not] at hq
        refine ⟨Or.inl hq.1, ?_⟩
        rintro rfl
        omega
      · by_cases he : v = t
        · subst he
          simp only [setArena_self] at h1 h2
          exact ⟨Or.inl (hout q (by omega) h2), by omega⟩
        · simp only [setArena_other _ he] at h1 h2
          refine ⟨Or.inr ⟨v, h1, h2⟩, ?_⟩
          rintro rfl
          have := h.mapped (t := v) (p := q) ⟨by omega, h2⟩
          rw [hout q le_rfl (by omega)] at this
          cases this
    · intro v q hq
      simp only [Bool.or_eq_true, Bool.and_eq_true, decide_eq_true_eq]
      by_cases he : v = t
      · subst he
        simp only [setArena_self] at hq
        exact Or.inr hq
      · simp only [setArena_other _ he] at hq
        exact Or.inl (h.mapped hq)
    · intro v w q hv hw'
      have hnew : ∀ {w}, w ≠ t → (S.arena w).Covers q → p ≤ q → q < p + n → False := by
        intro w _ hw h1 h2
        have := h.mapped hw
        rw [hout q h1 h2] at this
        cases this
      by_cases he : v = t <;> by_cases he' : w = t
      · rw [he, he']
      · subst he
        simp only [setArena_self] at hv
        simp only [setArena_other _ he'] at hw'
        exact (hnew he' hw' hv.1 hv.2).elim
      · subst he'
        simp only [setArena_self] at hw'
        simp only [setArena_other _ he] at hv
        exact (hnew he hv hw'.1 hw'.2).elim
      · simp only [setArena_other _ he] at hv
        simp only [setArena_other _ he'] at hw'
        exact h.apart hv hw'
  · have hcov : ∀ {v q}, ((S.setArena t { S.arena t with
        memCurr := (S.arena t).memCurr + size }).arena v).Covers q → (S.arena v).Covers q := by
      intro v q hq
      by_cases he : v = t
      · subst he
        simp only [setArena_self] at hq
        exact hq
      · simp only [setArena_other _ he] at hq
        exact hq
    refine h.narrow rfl rfl (Or.inr ⟨t, le_rfl, by omega⟩) ?_ (fun hq => h.mapped (hcov hq))
      fun hq hq' => h.apart (hcov hq) (hcov hq')
    rintro q (hq | ⟨v, h1, h2⟩)
    · refine ⟨Or.inl hq, ?_⟩
      rintro rfl
      have := h.mapped (t := t) (p := (S.arena t).mem + (S.arena t).memCurr) ⟨by omega, by omega⟩
      exact Bool.false_ne_true (hq.symm.trans this)
    · by_cases he : v = t
      · subst he
        simp only [setArena_self] at h1 h2
        exact ⟨Or.inr ⟨v, by omega, h2⟩, by omega⟩
      · simp only [setArena_other _ he] at h1 h2
        refine ⟨Or.inr ⟨v, h1, h2⟩, ?_⟩
        rintro rfl
        exact he (h.apart ⟨by omega, h2⟩ ⟨by omega, by omega⟩)

theorem collect (h : S.Sound tsList avail) (hc : S.collect t = some S') :
    S'.Sound tsList avail := by
  obtain ⟨a, ha, rfl⟩ := Option.map_eq_some_iff.1 hc
  have hpc : S.pool.collect S.version t = some (S.pool.setAllocator t a) := by
    rw [Pool.collect, show S.pool.allocator t = S.allocator t from rfl, ha]
    rfl
  exact ⟨h.pool.collect hpc, h.mapped, h.apart⟩

theorem free (h : S.Sound tsList avail) (hp : ¬ avail p) (hf : S.free tsList t p = some S') :
    S'.Sound tsList fun q => avail q ∨ q = p := by
  obtain ⟨a, ha, rfl⟩ := Option.map_eq_some_iff.1 hf
  have hpf : S.pool.free tsList t p = some (S.pool.setAllocator t a) := by
    rw [Pool.free, show S.pool.allocator t = S.allocator t from rfl, ha]
    rfl
  have h1 : S.pool.Inv tsList S.version (fun q => avail q ∨ q = p) fun _ _ => False :=
    h.pool.keep_step (fun _ => Or.inl) fun _ _ _ => id
  have h2 := h1.free (fun _ _ => False.elim) (Or.inr rfl)
    (fun hh => hp (h.pool.avail_of_held hh)) hpf
  exact ⟨h2.tick fun _ => False.elim, h.mapped, h.apart⟩

end Sound

end System

/-! ### Which slots of the chunks have been handed out -/

def Within (c p : ℕ) : Prop := c ≤ p ∧ p < c + SSMEM_DEFAULT_MEM_SIZE

-- the objects of an array over each chunk
def Arena.slots (size : ℕ) (a : Arena) : List ℕ :=
  a.memChunks.flatMap fun c => (List.range (SSMEM_DEFAULT_MEM_SIZE / size)).map fun i => c + i * size

def Arena.Exhausted (size : ℕ) (a : Arena) : Prop :=
  ¬ size ∣ SSMEM_DEFAULT_MEM_SIZE ∧ SSMEM_DEFAULT_MEM_SIZE / size * size ≤ a.memCurr

structure Layout (size : ℕ) (u : Usage) (t : Tid) : Prop where
  large : SSMEM_DEFAULT_MEM_SIZE ≤ (u.sys.arena t).memSize
  current : ∃ k, (u.sys.arena t).memCurr = k * size ∧
    ∀ i < k, (u.sys.arena t).mem + i * size ∈ u.handed
  chunks : ∃ older, (u.sys.arena t).memChunks = (u.sys.arena t).mem :: older ∧
    ∀ c ∈ older, ∃ k, SSMEM_DEFAULT_MEM_SIZE ≤ (k + 1) * size ∧
      ∀ i < k, c + i * size ∈ u.handed
  disjoint : (u.sys.arena t).memChunks.Pairwise fun c d => ∀ p, Within c p → ¬ Within d p
  mapped : ∀ c ∈ (u.sys.arena t).memChunks, ∀ p, Within c p → u.sys.mapped p = true
  first : ∃ c ∈ (u.sys.arena t).memChunks,
    (∀ p ∈ u.handed, Within c p → p + size < c + SSMEM_DEFAULT_MEM_SIZE) ∧
    (c = (u.sys.arena t).mem ∧ (u.sys.arena t).memSize = SSMEM_DEFAULT_MEM_SIZE ∨
      ∀ v p, Within c p → ¬ (u.sys.arena v).Covers p)

structure Usage.Inv (tsList : List Tid) (size : ℕ) (u : Usage) : Prop where
  sound : u.sys.Sound tsList fun p => p ∉ u.held
  nodup : u.held.Nodup
  held : ∀ p ∈ u.held, p ∈ u.handed
  slots : ∀ t, ∀ p ∈ (u.sys.allocator t).slots, p ∈ u.handed
  handed : ∀ p ∈ u.handed, ¬ u.sys.Fresh p
  layout : ∀ t, Layout size u t

namespace Usage

theorem sound_init (ha : ∀ t, ∃ fsSize, S.allocator t = Allocator.init tsList fsSize)
    (hf : ∀ p, S.Fresh p → avail p)
    (hm : ∀ {t p}, (S.arena t).Covers p → S.mapped p = true)
    (hapart : ∀ {t v p}, (S.arena t).Covers p → (S.arena v).Covers p → t = v) :
    S.Sound tsList avail ∧ ∀ t, (S.allocator t).slots = [] := by
  have hslots : ∀ t, (S.allocator t).slots = [] := by
    intro t
    obtain ⟨k, hk⟩ := ha t
    rw [hk]
    rfl
  have hpool : ∀ t, (S.pool.allocator t).slots = [] := hslots
  refine ⟨⟨⟨fun t => ?_, fun t => ?_, fun {t v x} hx => ?_, fun {t x} hx => ?_, fun {x} hx => ?_⟩,
    hm, hapart⟩, hslots⟩
  · obtain ⟨k, hk⟩ := ha t
    change (S.allocator t).Timed _ _ _
    rw [hk]
    exact ⟨fun _ => rfl, fun _ ht hn => absurd ht hn, fun _ _ => nofun, List.Pairwise.nil,
      fun _ ht hn => absurd ht hn, fun _ _ => nofun, nofun⟩
  · rw [hpool]
    exact List.nodup_nil
  · rw [hpool] at hx
    cases hx
  · rw [hpool] at hx
    cases hx
  · exact ⟨hf x (pool_fresh.1 hx), fun _ => id⟩

theorem Init.inv (h : Init tsList u) : u.Inv tsList size := by
  have hheld : ∀ p, u.sys.Fresh p → p ∉ u.held := by
    intro p _
    rw [h.held]
    exact List.not_mem_nil
  obtain ⟨hsound, hslots⟩ := sound_init h.allocator hheld (h.mapped _ _) (h.apart _ _ _)
  refine ⟨hsound, ?_, ?_, ?_, ?_, fun t => ?_⟩
  · rw [h.held]
    exact List.nodup_nil
  · rw [h.held]
    exact nofun
  · intro t
    rw [hslots]
    exact nofun
  · rw [h.handed]
    exact nofun
  · obtain ⟨mem, hm⟩ := h.arena t
    refine ⟨?_, ⟨0, ?_, nofun⟩, ⟨[], ?_, nofun⟩, ?_, ?_, mem, ?_, ?_, Or.inl ?_⟩
    · rw [hm]
    · rw [hm, Nat.zero_mul]
    · rw [hm]
    · rw [hm]
      exact List.pairwise_singleton _ _
    · intro c hc p hp
      rw [hm] at hc
      obtain rfl := List.mem_singleton.1 hc
      refine h.mapped t p ?_
      rw [hm]
      exact hp
    · rw [hm]
      exact List.mem_singleton_self _
    · rw [h.handed]
      exact nofun
    · rw [hm]
      exact ⟨rfl, rfl⟩

end Usage

namespace Layout

theorem congr (h : Layout size u t) (ha : u'.sys.arena = u.sys.arena)
    (hm : u'.sys.mapped = u.sys.mapped) (hh : ∀ p, p ∈ u'.handed ↔ p ∈ u.handed) :
    Layout size u' t := by
  obtain ⟨h1, h2, h3, h4, h5, h6⟩ := h
  refine ⟨?_, ?_, ?_, ?_, ?_, ?_⟩ <;> simp only [ha, hm, hh] <;> assumption

theorem bump {held : List ℕ} (h : Layout size u t) (hs : u.sys.Sound tsList avail)
    (hlt : (u.sys.arena v).memCurr + size < (u.sys.arena v).memSize) :
    Layout size ⟨u.sys.setArena v { u.sys.arena v with
      memCurr := (u.sys.arena v).memCurr + size }, held,
      ((u.sys.arena v).mem + (u.sys.arena v).memCurr) :: u.handed⟩ t := by
  have harena : ∀ w, ∃ c, (u.sys.setArena v { u.sys.arena v with
      memCurr := (u.sys.arena v).memCurr + size }).arena w = { u.sys.arena w with memCurr := c } := by
    intro w
    by_cases he : w = v
    · subst he
      exact ⟨_, System.setArena_self _⟩
    · exact ⟨_, System.setArena_other _ he⟩
  obtain ⟨c0, hc0⟩ := harena t
  obtain ⟨k, hk, hall⟩ := h.current
  obtain ⟨older, hold, holder⟩ := h.chunks
  obtain ⟨c, hc, hpast, haux⟩ := h.first
  have hcov : (u.sys.arena v).Covers ((u.sys.arena v).mem + (u.sys.arena v).memCurr) :=
    ⟨by omega, by omega⟩
  refine ⟨?_, ?_, ⟨older, ?_, ?_⟩, ?_, ?_, c, ?_, ?_, ?_⟩
  · simp only [hc0]
    exact h.large
  · by_cases he : t = v
    · subst he
      simp only [System.setArena_self]
      refine ⟨k + 1, by rw [hk, Nat.succ_mul], fun i hi => ?_⟩
      rcases Nat.lt_succ_iff_lt_or_eq.1 hi with hi | rfl
      · exact List.mem_cons_of_mem _ (hall i hi)
      · rw [hk]
        exact List.mem_cons_self
    · simp only [System.setArena_other _ he]
      exact ⟨k, hk, fun i hi => List.mem_cons_of_mem _ (hall i hi)⟩
  · simp only [hc0]
    exact hold
  · intro d hd
    obtain ⟨j, hj, hallj⟩ := holder d hd
    exact ⟨j, hj, fun i hi => List.mem_cons_of_mem _ (hallj i hi)⟩
  · simp only [hc0]
    exact h.disjoint
  · simp only [hc0]
    exact h.mapped
  · simp only [hc0]
    exact hc
  · intro p hp hw
    rcases List.mem_cons.1 hp with rfl | hp
    · rcases haux with ⟨rfl, hsz⟩ | hno
      · have he : v = t := hs.apart hcov ⟨hw.1, by rw [hsz]; exact hw.2⟩
        subst he
        omega
      · exact absurd hcov (hno v _ hw)
    · exact hpast p hp hw
  · rcases haux with ⟨rfl, hsz⟩ | hno
    · left
      simp only [hc0]
      exact ⟨trivial, hsz⟩
    · right
      intro w p hw hp
      obtain ⟨c1, hc1⟩ := harena w
      simp only [hc1] at hp
      exact hno w p hw hp

theorem chunk {held : List ℕ} (h : Layout size u t) (hs : u.sys.Sound tsList avail)
    (hfull : (u.sys.arena v).memSize ≤ (u.sys.arena v).memCurr + size)
    (hn : (u.sys.arena v).memSize ≤ n) (hlarge : SSMEM_DEFAULT_MEM_SIZE ≤ (u.sys.arena v).memSize)
    (hout : ∀ q, mem ≤ q → q < mem + n → u.sys.mapped q = false) :
    Layout size ⟨{ u.sys.setArena v ⟨mem, size, n, mem :: (u.sys.arena v).memChunks⟩ with
      mapped := fun q => u.sys.mapped q || (decide (mem ≤ q) && decide (q < mem + n)) }, held,
      mem :: u.handed⟩ t := by
  obtain ⟨k, hk, hall⟩ := h.current
  obtain ⟨older, hold, holder⟩ := h.chunks
  obtain ⟨c, hc, hpast, haux⟩ := h.first
  have hnew : ∀ {c p}, c ∈ (u.sys.arena t).memChunks → Within c p → ¬ Within mem p := by
    intro c p hc hp hp'
    have := h.mapped c hc p hp
    rw [hout p hp'.1 (by have := hp'.2; omega)] at this
    cases this
  have hpast' : ∀ p ∈ mem :: u.handed, Within c p → p + size < c + SSMEM_DEFAULT_MEM_SIZE := by
    intro p hp hw
    rcases List.mem_cons.1 hp with rfl | hp
    · exact absurd ⟨le_rfl, by unfold SSMEM_DEFAULT_MEM_SIZE; omega⟩ (hnew hc hw)
    · exact hpast p hp hw
  have hother : ∀ w p, Within c p → (w = v → False) → (u.sys.arena w).Covers p →
      c = (u.sys.arena t).mem ∧ (u.sys.arena t).memSize = SSMEM_DEFAULT_MEM_SIZE ∧ w = t := by
    intro w p hw _ hp
    rcases haux with ⟨h1, h2⟩ | hno
    · refine ⟨h1, h2, hs.apart hp ?_⟩
      rw [h1] at hw
      exact ⟨hw.1, by rw [h2]; exact hw.2⟩
    · exact absurd hp (hno w p hw)
  by_cases he : t = v
  · subst he
    refine ⟨?_, ?_, ⟨(u.sys.arena t).memChunks, ?_, ?_⟩, ?_, ?_, c, ?_, hpast', Or.inr ?_⟩
    · simp only [System.setArena_self]
      exact hlarge.trans hn
    · simp only [System.setArena_self]
      refine ⟨1, (Nat.one_mul _).symm, fun i hi => ?_⟩
      obtain rfl : i = 0 := by omega
      simp
    · simp only [System.setArena_self]
    · intro d hd
      rw [hold] at hd
      rcases List.mem_cons.1 hd with rfl | hd
      · refine ⟨k, ?_, fun i hi => List.mem_cons_of_mem _ (hall i hi)⟩
        rw [Nat.succ_mul, ← hk]
        exact hlarge.trans hfull
      · obtain ⟨j, hj, hallj⟩ := holder d hd
        exact ⟨j, hj, fun i hi => List.mem_cons_of_mem _ (hallj i hi)⟩
    · simp only [System.setArena_self]
      exact List.pairwise_cons.2 ⟨fun d hd p hp hp' => hnew hd hp' hp, h.disjoint⟩
    · simp only [System.setArena_self]
      intro d hd p hp
      simp only [Bool.or_eq_true, Bool.and_eq_true, decide_eq_true_eq]
      rcases List.mem_cons.1 hd with rfl | hd
      · exact Or.inr ⟨hp.1, by have := hp.2; omega⟩
      · exact Or.inl (h.mapped d hd p hp)
    · simp only [System.setArena_self]
      exact List.mem_cons_of_mem _ hc
    · intro w p hw hp
      by_cases hwv : w = t
      · subst hwv
        simp only [System.setArena_self] at hp
        have := h.mapped c hc p hw
        rw [hout p hp.1 hp.2] at this
        cases this
      · simp only [System.setArena_other _ hwv] at hp
        exact hwv (hother w p hw hwv hp).2.2
  · refine ⟨?_, ⟨k, ?_, ?_⟩, ⟨older, ?_, ?_⟩, ?_, ?_, c, ?_, hpast', ?_⟩
    · simp only [System.setArena_other _ he]
      exact h.large
    · simp only [System.setArena_other _ he]
      exact hk
    · simp only [System.setArena_other _ he]
      exact fun i hi => List.mem_cons_of_mem _ (hall i hi)
    · simp only [System.setArena_other _ he]
      exact hold
    · intro d hd
      obtain ⟨j, hj, hallj⟩ := holder d hd
      exact ⟨j, hj, fun i hi => List.mem_cons_of_mem _ (hallj i hi)⟩
    · simp only [System.setArena_other _ he]
      exact h.disjoint
    · simp only [System.setArena_other _ he]
      intro d hd p hp
      simp only [Bool.or_eq_true]
      exact Or.inl (h.mapped d hd p hp)
    · simp only [System.setArena_other _ he]
      exact hc
    · simp only [System.setArena_other _ he]
      refine haux.imp_right fun hno w p hw hp => ?_
      by_cases hwv : w = v
      · subst hwv
        simp only [System.setArena_self] at hp
        have := h.mapped c hc p hw
        rw [hout p hp.1 hp.2] at this
        cases this
      · simp only [System.setArena_other _ hwv] at hp
        exact hno w p hw hp

-- the slots of all chunks are the ones handed out just if the newest chunk has none left and
-- no chunk has a last slot that ends where it ends
theorem forall_handed (h : Layout size u t) (hs : 0 < size)
    (hf : ∀ p ∈ u.handed, ¬ u.sys.Fresh p) :
    (∀ p ∈ (u.sys.arena t).slots size, p ∈ u.handed) ↔ (u.sys.arena t).Exhausted size := by
  obtain ⟨older, hold, holder⟩ := h.chunks
  have hslot : ∀ {p}, p ∈ (u.sys.arena t).slots size ↔ ∃ c ∈ (u.sys.arena t).memChunks,
      ∃ i < SSMEM_DEFAULT_MEM_SIZE / size, c + i * size = p := by
    intro p
    simp [Arena.slots]
  have hdiv : ∀ {i}, i < SSMEM_DEFAULT_MEM_SIZE / size →
      i * size + size ≤ SSMEM_DEFAULT_MEM_SIZE := fun {i} hi => by
    rw [← Nat.succ_mul]
    exact (Nat.mul_le_mul_right size hi).trans (Nat.div_mul_le_self _ _)
  constructor
  · intro hall
    refine ⟨fun hd => ?_, ?_⟩
    · -- the last slot of the chunk of ssmem_alloc_init
      obtain ⟨c, hc, hpast, _⟩ := h.first
      have hle : size ≤ SSMEM_DEFAULT_MEM_SIZE := Nat.le_of_dvd (by decide) hd
      have hpos : 0 < SSMEM_DEFAULT_MEM_SIZE / size := Nat.div_pos hle hs
      obtain ⟨j, hj⟩ := Nat.exists_eq_succ_of_ne_zero hpos.ne'
      have hend : j * size + size = SSMEM_DEFAULT_MEM_SIZE := by
        rw [← Nat.succ_mul, ← hj]
        exact Nat.div_mul_cancel hd
      have := hpast _ (hall _ (hslot.2 ⟨c, hc, j, by omega, rfl⟩)) ⟨by omega, by omega⟩
      omega
    · by_contra hlt
      obtain ⟨k, hk, _⟩ := h.current
      have hk' : k < SSMEM_DEFAULT_MEM_SIZE / size := by
        rw [hk] at hlt
        exact Nat.lt_of_mul_lt_mul_right (not_le.1 hlt)
      refine hf _ (hall _ (hslot.2 ⟨(u.sys.arena t).mem, ?_, k, hk', rfl⟩)) (Or.inr ⟨t, ?_, ?_⟩)
      · rw [hold]
        exact List.mem_cons_self
      · rw [hk]
      · have := hdiv hk'
        have := h.large
        omega
  · rintro ⟨hnd, hle⟩ p hp
    obtain ⟨c, hc, i, hi, rfl⟩ := hslot.1 hp
    rw [hold] at hc
    rcases List.mem_cons.1 hc with rfl | hc
    · obtain ⟨k, hk, hall⟩ := h.current
      refine hall i (lt_of_lt_of_le hi ?_)
      rw [hk] at hle
      exact Nat.le_of_mul_le_mul_right hle hs
    · obtain ⟨k, hk, hall⟩ := holder c hc
      refine hall i (lt_of_lt_of_le hi ?_)
      rw [← Nat.lt_succ_iff, Nat.div_lt_iff_lt_mul hs]
      exact lt_of_le_of_ne hk fun he => hnd ⟨k + 1, by rw [he, Nat.mul_comm]⟩

theorem nodup_slots (h : Layout size u t) (hs : 0 < size) :
    ((u.sys.arena t).slots size).Nodup := by
  have hwithin : ∀ {c i}, i < SSMEM_DEFAULT_MEM_SIZE / size → Within c (c + i * size) := by
    intro c i hi
    refine ⟨by omega, ?_⟩
    have h1 : i * size + size ≤ SSMEM_DEFAULT_MEM_SIZE := by
      rw [← Nat.succ_mul]
      exact (Nat.mul_le_mul_right size hi).trans (Nat.div_mul_le_self _ _)
    omega
  refine List.nodup_flatMap.2 ⟨fun c _ => ?_, h.disjoint.imp fun {c d} hcd => ?_⟩
  · refine List.nodup_range.map fun i j hij => ?_
    exact Nat.eq_of_mul_eq_mul_right hs (Nat.add_left_cancel hij)
  · intro p hp hp'
    simp only [List.mem_map, List.mem_range] at hp hp'
    obtain ⟨i, hi, rfl⟩ := hp
    obtain ⟨j, hj, he⟩ := hp'
    exact hcd _ (hwithin hi) (he ▸ hwithin hj)

end Layout

namespace Usage.Inv

theorem perm {held : List ℕ} (h : u.Inv tsList size) (hp : u.held.Perm held) :
    Inv tsList size { u with held := held } where
  sound := h.sound.weaken fun _ hn hm => hn (hp.mem_iff.2 hm)
  nodup := hp.nodup_iff.1 h.nodup
  held p hm := h.held p (hp.mem_iff.2 hm)
  slots := h.slots
  handed := h.handed
  layout t := (h.layout t).congr rfl rfl fun _ => Iff.rfl

theorem slots_setAllocator {a : Allocator ℕ} (hs : ∀ t, ∀ p ∈ (S.allocator t).slots, p ∈ u.handed)
    (ha : ∀ p ∈ a.slots, p ∈ u.handed) (v : Tid) :
    ∀ p ∈ ((S.setAllocator t a).allocator v).slots, p ∈ u.handed := by
  intro p hp
  by_cases he : v = t
  · subst he
    rw [show (S.setAllocator v a).allocator v = a from Function.update_self _ _ _] at hp
    exact ha p hp
  · rw [show (S.setAllocator t a).allocator v = S.allocator v from Function.update_of_ne he _ _]
      at hp
    exact hs v p hp

theorem alloc (h : u.Inv tsList size) (hs : 0 < size)
    (hm : u.sys.Unmapped size t mem) (ha : u.sys.alloc size t mem = some (p, S)) :
    p ∉ u.held ∧ Inv tsList size ⟨S, p :: u.held, p :: u.handed⟩ := by
  obtain ⟨hp, hfresh, hsound⟩ := h.sound.alloc hs hm ha
  have hself : p ∈ u.handed → ∀ q, q ∈ p :: u.handed ↔ q ∈ u.handed := by
    intro hp q
    rw [List.mem_cons, or_iff_right_iff_imp]
    rintro rfl
    exact hp
  refine ⟨hp, hsound.weaken fun q hq hmem => ?_, List.nodup_cons.2 ⟨hp, h.nodup⟩, ?_, ?_, ?_, ?_⟩
  · rcases List.mem_cons.1 hmem with rfl | hmem
    · exact hq.2 rfl
    · exact hq.1 hmem
  · intro q hq
    rcases List.mem_cons.1 hq with rfl | hq
    · exact List.mem_cons_self
    · exact List.mem_cons_of_mem _ (h.held q hq)
  · intro v q hq
    rcases System.alloc_cases ha with ⟨a, hpop, rfl⟩ | ⟨_, _, _, n, _, _, _, rfl⟩ | ⟨_, _, _, rfl⟩
    · refine List.mem_cons_of_mem _ (slots_setAllocator h.slots (fun r hr => h.slots t r ?_) v q hq)
      exact (Allocator.perm_pop hpop).mem_iff.2 (List.mem_cons_of_mem _ hr)
    · exact List.mem_cons_of_mem _ (h.slots v q hq)
    · exact List.mem_cons_of_mem _ (h.slots v q hq)
  · intro q hq hf
    obtain ⟨hf, hne⟩ := hfresh q hf
    rcases List.mem_cons.1 hq with rfl | hq
    · exact hne rfl
    · exact h.handed q hq hf
  · intro v
    rcases System.alloc_cases ha with ⟨a, hpop, rfl⟩ | ⟨_, hle, rfl, n, hw, _, hn, rfl⟩ |
      ⟨_, hlt, rfl, rfl⟩
    · have hp : p ∈ u.handed :=
        h.slots t p ((Allocator.perm_pop hpop).mem_iff.2 List.mem_cons_self)
      exact (h.layout v).congr rfl rfl (hself hp)
    · exact (h.layout v).chunk h.sound hle hn (h.layout t).large (hm n hw)
    · exact (h.layout v).bump h.sound hlt

theorem collect (h : u.Inv tsList size) (hc : u.sys.collect t = some S) :
    Inv tsList size { u with sys := S } := by
  refine ⟨h.sound.collect hc, h.nodup, h.held, ?_, ?_, ?_⟩ <;>
    obtain ⟨a, ha, rfl⟩ := Option.map_eq_some_iff.1 hc
  · refine slots_setAllocator h.slots fun p hp => h.slots t p ?_
    rwa [← Allocator.slots_tsSetCollect ha]
  · exact h.handed
  · exact fun v => (h.layout v).congr rfl rfl fun _ => Iff.rfl

theorem free (h : u.Inv tsList size) (hp : p ∈ u.held) (hf : u.sys.free tsList t p = some S) :
    Inv tsList size { u with sys := S, held := u.held.erase p } := by
  refine ⟨(h.sound.free (not_not.2 hp) hf).weaken fun q hq hmem => ?_, h.nodup.erase p,
    fun q hq => h.held q (List.mem_of_mem_erase hq), ?_, ?_, ?_⟩
  · rw [h.nodup.mem_erase_iff] at hmem
    exact hq.elim (· hmem.2) hmem.1
  all_goals obtain ⟨a, ha, rfl⟩ := Option.map_eq_some_iff.1 hf
  · refine slots_setAllocator h.slots fun q hq => ?_
    rcases List.mem_cons.1 ((Allocator.perm_free ha).mem_iff.1 hq) with rfl | hq
    · exact h.held q hp
    · exact h.slots t q hq
  · exact h.handed
  · exact fun v => (h.layout v).congr rfl rfl fun _ => Iff.rfl

theorem step (h : u.Inv tsList size) (hs : 0 < size) (hst : Step tsList size u u') :
    u'.Inv tsList size := by
  cases hst with
  | alloc t mem p S hm ha => exact (h.alloc hs hm ha).2
  | collect t S hc => exact h.collect hc
  | free t p S hp hf => exact h.free hp hf

theorem run (h : u.Inv tsList size) (hs : 0 < size)
    (hr : Relation.ReflTransGen (Step tsList size) u u') : u'.Inv tsList size := by
  induction hr with
  | refl => exact h
  | tail _ hst ih => exact ih.step hs hst

end Usage.Inv

end Ssmem
