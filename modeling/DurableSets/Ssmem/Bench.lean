import DurableSets.Ssmem.Epochs
import Mathlib.Logic.Relation

namespace Ssmem

def SSMEM_GC_FREE_SET_SIZE : ℕ := 507

-- the next access of a thread to what ssmem.c keeps; k counts the allocators of a thread in
-- the order of their ssmem_alloc_init, and thread 0 is the one that runs runBench
inductive BenchPc where
  | unborn
  | allocInit (k : ℕ)
  | subscribe (k : ℕ)
  | subscribeCas (k : ℕ) (next : List Tid)
  | tsListLen (k : ℕ)
  | freeSetNew (k : ℕ)
  | start (j : ℕ)
  | rest
  | initBarrier
  | waiting
  | idle
  | free (k obj : ℕ)
  | collect (k obj : ℕ)
  | tsNext
deriving DecidableEq

-- tsList are the ids along ssmem_ts_list, tsLocal tells whether ssmem_ts_local is set, cut is
-- the number of slots cut off chunks, and held are the slots of each kind in use
structure Bench where
  tsList : List Tid
  tsListLen : ℕ
  version : Tid → ℕ
  tsLocal : Tid → Bool
  allocator : Tid → ℕ → Option (Allocator ℕ)
  crossing : ℕ
  cut : ℕ
  held : ℕ → List ℕ
  pc : Tid → BenchPc

namespace Bench

def goto (s : Bench) (t : Tid) (pc : BenchPc) : Bench :=
  { s with pc := Function.update s.pc t pc }

def setAllocator (s : Bench) (t : Tid) (k : ℕ) (a : Allocator ℕ) : Bench :=
  { s with
    allocator :=
      Function.update s.allocator t (Function.update (s.allocator t) k (some a)) }

-- runBench goes on to its threads, and a thread from the allocators of specificInit, of which
-- there are extra, to alloc
def afterInit (extra : ℕ) (t : Tid) (k : ℕ) : BenchPc :=
  if t = 0 then .start 1 else if k < extra then .allocInit (k + 1) else .initBarrier

-- a new ts_set is not initialised, and init_barrier is used once
inductive Step (n extra : ℕ) (s : Bench) : Bench → Prop
  | gcThreadInit (t : Tid) (k : ℕ) (hpc : s.pc t = .allocInit k) (hl : s.tsLocal t = false) :
    Step n extra s ({ s with
      tsLocal := Function.update s.tsLocal t true
      version := Function.update s.version t 0 }.goto t (.subscribe k))
  | subscribed (t : Tid) (k : ℕ) (hpc : s.pc t = .allocInit k) (hl : s.tsLocal t = true) :
    Step n extra s (s.goto t (.freeSetNew k))
  | subscribe (t : Tid) (k : ℕ) (hpc : s.pc t = .subscribe k) :
    Step n extra s (s.goto t (.subscribeCas k s.tsList))
  | subscribeCas (t : Tid) (k : ℕ) (next : List Tid) (hpc : s.pc t = .subscribeCas k next)
    (hc : s.tsList = next) :
    Step n extra s ({ s with tsList := t :: next }.goto t (.tsListLen k))
  | subscribeLost (t : Tid) (k : ℕ) (next : List Tid) (hpc : s.pc t = .subscribeCas k next)
    (hc : s.tsList ≠ next) : Step n extra s (s.goto t (.subscribe k))
  | tsListLen (t : Tid) (k : ℕ) (hpc : s.pc t = .tsListLen k) :
    Step n extra s ({ s with tsListLen := s.tsListLen + 1 }.goto t (.freeSetNew k))
  | freeSetNew (t : Tid) (k : ℕ) (hpc : s.pc t = .freeSetNew k) :
    Step n extra s ((s.setAllocator t k (Allocator.init [] SSMEM_GC_FREE_SET_SIZE)).goto t
      (afterInit extra t k))
  | start (j : ℕ) (hpc : s.pc 0 = .start j) (hj : j < n + 1) :
    Step n extra s ((s.goto j (.allocInit 0)).goto 0 (.start (j + 1)))
  | rest (j : ℕ) (hpc : s.pc 0 = .start j) (hj : n + 1 ≤ j) : Step n extra s (s.goto 0 .rest)
  | arrive (t : Tid) (hpc : s.pc t = .initBarrier) :
    Step n extra s ({ s with crossing := s.crossing + 1 }.goto t .waiting)
  | leave (t : Tid) (hpc : s.pc t = .waiting) (hc : s.crossing = n) :
    Step n extra s (s.goto t .idle)
  | pop (t : Tid) (k m : ℕ) (a a' : Allocator ℕ) (hpc : s.pc t = .idle) (hk : k ≤ extra)
    (ha : s.allocator t k = some a) (hp : a.pop = some (m, a')) :
    Step n extra s { s.setAllocator t k a' with
      held := Function.update s.held k (m :: s.held k) }
  | cut (t : Tid) (k : ℕ) (a : Allocator ℕ) (hpc : s.pc t = .idle) (hk : k ≤ extra)
    (ha : s.allocator t k = some a) (hc : a.collectedSets = []) :
    Step n extra s { s with
      cut := s.cut + 1
      held := Function.update s.held k (s.cut :: s.held k) }
  | callFree (t : Tid) (k obj : ℕ) (hpc : s.pc t = .idle) (hk : k ≤ extra)
    (hh : obj ∈ s.held k) :
    Step n extra s ({ s with
      held := Function.update s.held k ((s.held k).erase obj) }.goto t (.free k obj))
  | push (t : Tid) (k obj : ℕ) (a : Allocator ℕ) (hpc : s.pc t = .free k obj)
    (ha : s.allocator t k = some a) (hf : a.isFull = false) :
    Step n extra s ((s.setAllocator t k (a.push obj)).goto t .tsNext)
  | stamp (t : Tid) (k obj : ℕ) (a : Allocator ℕ) (tsSet : Tid → ℕ)
    (hpc : s.pc t = .free k obj) (ha : s.allocator t k = some a) (hf : a.isFull = true) :
    Step n extra s ((s.setAllocator t k
      { a with freeSet := ⟨a.freeSet.set, tsSet⟩, pending := s.tsList }).goto t (.collect k obj))
  | collect (t : Tid) (k obj : ℕ) (a a' : Allocator ℕ) (hpc : s.pc t = .collect k obj)
    (ha : s.allocator t k = some a) (hc : a.tsSetCollect s.version = some a') :
    Step n extra s (s.setAllocator t k a')
  | reclaim (t : Tid) (k obj : ℕ) (a a' : Allocator ℕ) (hpc : s.pc t = .collect k obj)
    (ha : s.allocator t k = some a) (hf : a.free (List.range s.tsListLen) obj = some a') :
    Step n extra s ((s.setAllocator t k a').goto t .tsNext)
  | tsNext (t : Tid) (hpc : s.pc t = .tsNext) :
    Step n extra s ({ s with version := Ssmem.tsNext s.version t }.goto t .idle)

structure Init (s : Bench) : Prop where
  tsList : s.tsList = []
  tsListLen : s.tsListLen = 0
  tsLocal : ∀ t, s.tsLocal t = false
  allocator : ∀ t k, s.allocator t k = none
  crossing : s.crossing = 0
  held : ∀ k, s.held k = []
  main : s.pc 0 = .allocInit 0
  unborn : ∀ t, t ≠ 0 → s.pc t = .unborn

def Reachable (n extra : ℕ) (s : Bench) : Prop :=
  ∃ s₀, Init s₀ ∧ Relation.ReflTransGen (Step n extra) s₀ s

-- thread t is about to call ssmem_mem_reclaim on allocator a
structure Stamped (s : Bench) (t : Tid) (k : ℕ) (a : Allocator ℕ) : Prop where
  pc : ∃ obj, s.pc t = .collect k obj
  allocator : s.allocator t k = some a
  pending : a.pending = []

-- thread t is about to stamp the full set of allocator a
structure Full (s : Bench) (t : Tid) (k : ℕ) (a : Allocator ℕ) : Prop where
  pc : ∃ obj, s.pc t = .free k obj
  allocator : s.allocator t k = some a
  full : a.isFull = true

/-- A full set is collected at the next full set if all threads have called `ssmem_free`
between the two stamps; an `ssmem_alloc` then takes a slot of a collected set. -/
def Reclaims (n extra : ℕ) : Prop :=
  ∀ (s₁ s₂ s₃ : Bench) (t : Tid) (k : ℕ) (a₁ a₂ a₃ : Allocator ℕ), Reachable n extra s₁ →
    s₁.Stamped t k a₁ → Relation.ReflTransGen (Step n extra) s₁ s₂ →
    s₂.Full t k a₂ → a₂.fullSets.head? = some a₁.freeSet →
    (∀ u, 1 ≤ u → u ≤ n → s₁.version u < s₂.version u) →
    Relation.ReflTransGen (Step n extra) s₂ s₃ →
    s₃.Stamped t k a₃ → a₃.fullSets.head? = some a₁.freeSet →
    let a := a₃.memReclaim (List.range s₃.tsListLen)
    a₁.freeSet.set ∈ a.collectedSets ∧ a.pop.isSome

variable {n extra k j : ℕ} {s s' : Bench} {t u : Tid} {pc : BenchPc} {a a' : Allocator ℕ}

@[simp] theorem goto_self : (s.goto t pc).pc t = pc := Function.update_self _ _ _

theorem goto_other (h : u ≠ t) : (s.goto t pc).pc u = s.pc u := Function.update_of_ne h _ _

@[simp] theorem setAllocator_self : (s.setAllocator t k a).allocator t k = some a := by
  simp only [setAllocator, Function.update_self]

theorem setAllocator_cases (h : (s.setAllocator t k a).allocator u j = some a') :
    (u = t ∧ j = k ∧ a' = a) ∨ ¬ (u = t ∧ j = k) ∧ s.allocator u j = some a' := by
  unfold setAllocator at h
  by_cases hu : u = t
  · subst hu
    by_cases hj : j = k
    · subst hj
      simp only [Function.update_self] at h
      exact Or.inl ⟨rfl, rfl, (Option.some.inj h).symm⟩
    · simp only [Function.update_self, Function.update_of_ne hj] at h
      exact Or.inr ⟨fun he => hj he.2, h⟩
  · simp only [Function.update_of_ne hu] at h
    exact Or.inr ⟨fun he => hu he.1, h⟩

-- how far runBench has come
def stage : BenchPc → ℕ
  | .allocInit _ => 0
  | .subscribe _ => 1
  | .subscribeCas _ _ => 1
  | .tsListLen _ => 2
  | .freeSetNew _ => 3
  | .start _ => 4
  | .rest => 4
  | _ => 5

structure Main (n : ℕ) (s : Bench) : Prop where
  booting : stage (s.pc 0) ≤ 4
  tsLocal : stage (s.pc 0) = 0 → s.tsLocal 0 = false
  version : 1 ≤ stage (s.pc 0) → s.version 0 = 0
  tsList : 2 ≤ stage (s.pc 0) → 0 ∈ s.tsList
  tsListLen : 3 ≤ stage (s.pc 0) → 0 < s.tsListLen
  born : ∀ t, t ≠ 0 → s.pc t ≠ .unborn → t ≤ n ∧ 4 ≤ stage (s.pc 0)
  started : ∀ j, s.pc 0 = .start j → 1 ≤ j

namespace Main

theorem init (h : Init s) : Main n s := by
  have hs : stage (s.pc 0) = 0 := by rw [h.main, stage]
  refine ⟨by omega, fun _ => h.tsLocal 0, by omega, by omega, by omega, fun t ht hn => ?_, ?_⟩
  · exact absurd (h.unborn t ht) hn
  · intro j hj
    rw [h.main] at hj
    cases hj

theorem keep (h : Main n s) (hpc : s'.pc 0 = s.pc 0) (hv : s'.version 0 = s.version 0)
    (hl : s'.tsLocal 0 = s.tsLocal 0) (hm : 0 ∈ s.tsList → 0 ∈ s'.tsList)
    (hlen : s.tsListLen ≤ s'.tsListLen) (hb : ∀ t, s'.pc t ≠ .unborn → s.pc t ≠ .unborn) :
    Main n s' := by
  refine ⟨hpc ▸ h.booting, ?_, ?_, ?_, ?_, fun t ht hn => ?_, hpc ▸ h.started⟩ <;> rw [hpc]
  · exact hl ▸ h.tsLocal
  · exact hv ▸ h.version
  · exact fun hs => hm (h.tsList hs)
  · exact fun hs => (h.tsListLen hs).trans_le hlen
  · exact h.born t ht (hb t hn)

theorem goto (h : Main n s) (ht : t ≠ 0) (hb : s.pc t ≠ .unborn) : Main n (s.goto t pc) := by
  refine h.keep (goto_other ht.symm) rfl rfl id le_rfl fun u hu => ?_
  by_cases he : u = t
  · exact he ▸ hb
  · rwa [goto_other he] at hu

theorem boot (h : Main n s) (hs : stage (s.pc 0) < 4) (hp : stage pc ≤ 4)
    (hl : stage pc = 0 → s'.tsLocal 0 = false) (hv : 1 ≤ stage pc → s'.version 0 = 0)
    (hm : 2 ≤ stage pc → 0 ∈ s'.tsList) (hlen : 3 ≤ stage pc → 0 < s'.tsListLen)
    (hpc : s'.pc = Function.update s.pc 0 pc) (hj : ∀ j, pc = .start j → 1 ≤ j) : Main n s' := by
  have h0 : s'.pc 0 = pc := by rw [hpc, Function.update_self]
  refine ⟨h0 ▸ hp, h0 ▸ hl, h0 ▸ hv, h0 ▸ hm, h0 ▸ hlen, fun t ht hn => ?_, h0 ▸ hj⟩
  rw [hpc, Function.update_of_ne ht] at hn
  have := (h.born t ht hn).2
  omega

theorem ne_zero (h : Main n s) (hpc : s.pc t = pc) (hs : stage pc = 5) : t ≠ 0 := by
  rintro rfl
  have := h.booting
  rw [hpc] at this
  omega

theorem of_eq (h : Main n s) (hpc : s'.pc = s.pc) (hv : s'.version = s.version)
    (hl : s'.tsLocal = s.tsLocal) (hm : s'.tsList = s.tsList) (hlen : s'.tsListLen = s.tsListLen) :
    Main n s' :=
  h.keep (congrFun hpc 0) (congrFun hv 0) (congrFun hl 0) (hm ▸ id) hlen.ge (hpc ▸ fun _ => id)

theorem step (h : Main n s) (hs : Step n extra s s') : Main n s' := by
  cases hs with
  | gcThreadInit t k hpc hl =>
    by_cases ht : t = 0
    · subst ht
      refine h.boot (by simp [hpc, stage]) (by simp [stage]) (by simp [stage]) (fun _ => ?_)
        (by simp [stage]) (by simp [stage]) rfl (by simp)
      exact Function.update_self (0 : Tid) (0 : ℕ) s.version
    · refine (h.goto ht (by simp [hpc])).keep rfl ?_ ?_ id le_rfl fun _ => id <;>
        exact Function.update_of_ne (Ne.symm ht) _ _
  | subscribed t k hpc hl =>
    by_cases ht : t = 0
    · subst ht
      exact absurd (h.tsLocal (by rw [hpc, stage])) (by rw [hl]; decide)
    · exact h.goto ht (by simp [hpc])
  | subscribe t k hpc =>
    by_cases ht : t = 0
    · subst ht
      have h0 : stage (s.pc 0) = 1 := by rw [hpc, stage]
      exact h.boot (by omega) (by simp [stage]) (by simp [stage]) (fun _ => h.version h0.ge)
        (by simp [stage]) (by simp [stage]) rfl (by simp)
    · exact h.goto ht (by simp [hpc])
  | subscribeCas t k next hpc hc =>
    by_cases ht : t = 0
    · subst ht
      have h0 : stage (s.pc 0) = 1 := by rw [hpc, stage]
      exact h.boot (by omega) (by simp [stage]) (by simp [stage]) (fun _ => h.version h0.ge)
        (fun _ => List.mem_cons_self) (by simp [stage]) rfl (by simp)
    · exact (h.goto ht (by simp [hpc])).keep rfl rfl rfl
        (fun hm => List.mem_cons_of_mem _ (hc ▸ hm)) le_rfl fun _ => id
  | subscribeLost t k next hpc hc =>
    by_cases ht : t = 0
    · subst ht
      have h0 : stage (s.pc 0) = 1 := by rw [hpc, stage]
      exact h.boot (by omega) (by simp [stage]) (by simp [stage]) (fun _ => h.version h0.ge)
        (by simp [stage]) (by simp [stage]) rfl (by simp)
    · exact h.goto ht (by simp [hpc])
  | tsListLen t k hpc =>
    by_cases ht : t = 0
    · subst ht
      have h0 : stage (s.pc 0) = 2 := by rw [hpc, stage]
      exact h.boot (by omega) (by simp [stage]) (by simp [stage]) (fun _ => h.version (by omega))
        (fun _ => h.tsList h0.ge) (fun _ => Nat.succ_pos _) rfl (by simp)
    · exact (h.goto ht (by simp [hpc])).keep rfl rfl rfl id (Nat.le_succ _) fun _ => id
  | freeSetNew t k hpc =>
    by_cases ht : t = 0
    · subst ht
      have h0 : stage (s.pc 0) = 3 := by rw [hpc, stage]
      exact h.boot (by omega) (by simp [afterInit, stage]) (by simp [afterInit, stage])
        (fun _ => h.version (by omega)) (fun _ => h.tsList (by omega))
        (fun _ => h.tsListLen h0.ge) rfl (by simp [afterInit])
    · exact (h.goto ht (by simp [hpc])).of_eq rfl rfl rfl rfl rfl
  | start j hpc hj =>
    have h0 : stage (s.pc 0) = 4 := by rw [hpc, stage]
    have hj0 : j ≠ 0 := by have := h.started j hpc; omega
    refine ⟨?_, ?_, fun _ => h.version (by omega), fun _ => h.tsList (by omega),
      fun _ => h.tsListLen (by omega), fun t ht hn => ?_, fun i hi => ?_⟩ <;>
      simp only [goto_self, stage] at *
    · exact le_rfl
    · simp
    · refine ⟨?_, le_rfl⟩
      by_cases he : t = j
      · exact he ▸ Nat.le_of_lt_succ hj
      · rw [goto_other ht, goto_other he] at hn
        exact (h.born t ht hn).1
    · cases hi
      omega
  | rest j hpc hj =>
    have h0 : stage (s.pc 0) = 4 := by rw [hpc, stage]
    refine ⟨?_, ?_, fun _ => h.version (by omega), fun _ => h.tsList (by omega),
      fun _ => h.tsListLen (by omega), fun t ht hn => ?_, fun i hi => ?_⟩ <;>
      simp only [goto_self, stage] at *
    · exact le_rfl
    · simp
    · rw [goto_other ht] at hn
      exact ⟨(h.born t ht hn).1, le_rfl⟩
    · cases hi
  | arrive t hpc => exact (h.goto (h.ne_zero hpc rfl) (by simp [hpc])).of_eq rfl rfl rfl rfl rfl
  | leave t hpc hc => exact h.goto (h.ne_zero hpc rfl) (by simp [hpc])
  | pop | cut | collect => exact h.of_eq rfl rfl rfl rfl rfl
  | callFree t k obj hpc =>
    exact (h.goto (h.ne_zero hpc rfl) (by simp [hpc])).of_eq rfl rfl rfl rfl rfl
  | push t k obj a hpc =>
    exact (h.goto (h.ne_zero hpc rfl) (by simp [hpc])).of_eq rfl rfl rfl rfl rfl
  | stamp t k obj a tsSet hpc =>
    exact (h.goto (h.ne_zero hpc rfl) (by simp [hpc])).of_eq rfl rfl rfl rfl rfl
  | reclaim t k obj a a' hpc =>
    exact (h.goto (h.ne_zero hpc rfl) (by simp [hpc])).of_eq rfl rfl rfl rfl rfl
  | tsNext t hpc =>
    have ht := h.ne_zero hpc rfl
    exact (h.goto ht (by simp [hpc])).keep rfl (Function.update_of_ne ht.symm _ _) rfl id le_rfl
      fun _ => id

end Main

structure Stale (s : Bench) : Prop where
  allocator : ∀ t k a, s.allocator t k = some a → a.fsSize = SSMEM_GC_FREE_SET_SIZE ∧
    a.collectedSets = [] ∧ ∀ F ∈ a.fullSets, F.tsSet 0 = 0
  collect : ∀ t k obj a, s.pc t = .collect k obj → s.allocator t k = some a →
    0 ∈ a.pending ∨ a.freeSet.tsSet 0 = 0

theorem tsCompare_stale {tsList : List Tid} {sNew sOld : Tid → ℕ} (hm : 0 ∈ tsList)
    (hn : sNew 0 = 0) : tsCompare tsList sNew sOld = false := by
  rw [tsCompare, List.all_eq_false]
  exact ⟨0, hm, by simp [hn]⟩

theorem memReclaim_stale {tsList : List Tid} (hm : 0 ∈ tsList) (hn : a.freeSet.tsSet 0 = 0) :
    a.memReclaim tsList = a := by
  unfold Allocator.memReclaim
  split
  · rfl
  · rw [tsCompare_stale hm hn]
    rfl

namespace Stale

theorem init (h : Init s) : Stale s where
  allocator t k a ha := by
    rw [h.allocator t k] at ha
    cases ha
  collect t k obj a _ ha := by
    rw [h.allocator t k] at ha
    cases ha

theorem goto (h : Stale s) (hpc : ∀ k obj, pc ≠ .collect k obj) : Stale (s.goto t pc) where
  allocator := h.allocator
  collect u k obj a hc ha := by
    by_cases hu : u = t
    · rw [hu, goto_self] at hc
      exact absurd hc (hpc k obj)
    · rw [goto_other hu] at hc
      exact h.collect u k obj a hc ha

theorem of_eq (h : Stale s) (hpc : s'.pc = s.pc) (ha : s'.allocator = s.allocator) : Stale s' :=
  ⟨ha ▸ h.allocator, hpc ▸ ha ▸ h.collect⟩

theorem update (h : Stale s) (hpc : ∀ u, u ≠ t → s'.pc u = s.pc u)
    (ha : s'.allocator = (s.setAllocator t k a).allocator)
    (hs : a.fsSize = SSMEM_GC_FREE_SET_SIZE) (hc : a.collectedSets = [])
    (hf : ∀ F ∈ a.fullSets, F.tsSet 0 = 0)
    (hst : ∀ j obj, s'.pc t = .collect j obj →
      j = k ∧ (0 ∈ a.pending ∨ a.freeSet.tsSet 0 = 0)) : Stale s' where
  allocator u j a' ha' := by
    rw [ha] at ha'
    rcases setAllocator_cases ha' with ⟨_, _, rfl⟩ | ⟨_, ha'⟩
    · exact ⟨hs, hc, hf⟩
    · exact h.allocator u j a' ha'
  collect u j obj a' hpc' ha' := by
    rw [ha] at ha'
    rcases setAllocator_cases ha' with ⟨rfl, rfl, rfl⟩ | ⟨hne, ha'⟩
    · exact (hst j obj hpc').2
    · by_cases hu : u = t
      · subst hu
        exact absurd ⟨rfl, (hst j obj hpc').1⟩ hne
      · exact h.collect u j obj a' (hpc u hu ▸ hpc') ha'

theorem step (h : Stale s) (hm : Main n s) (hs : Step n extra s s') : Stale s' := by
  cases hs with
  | gcThreadInit t k | subscribeCas t k | tsListLen t k | arrive t | tsNext t | callFree t k =>
    exact (h.goto (by simp)).of_eq rfl rfl
  | subscribed t k | subscribe t k | subscribeLost t k | rest j | leave t =>
    exact h.goto (by simp)
  | freeSetNew t k hpc =>
    refine h.update (t := t) (k := k) (fun u => goto_other) rfl rfl rfl (by simp [Allocator.init])
      fun j obj hc => ?_
    rw [goto_self, afterInit] at hc
    split at hc
    · cases hc
    · split at hc <;> cases hc
  | start j => exact (h.goto (by simp)).goto (by simp)
  | pop t k m a a' hpc hk ha hp =>
    obtain ⟨ms, rest, he, _⟩ := Allocator.pop_inv hp
    rw [(h.allocator t k a ha).2.1] at he
    cases he
  | cut => exact h.of_eq rfl rfl
  | push t k obj a hpc ha hf =>
    obtain ⟨h1, h2, h3⟩ := h.allocator t k a ha
    refine h.update (t := t) (k := k) (fun u => goto_other) rfl h1 h2 h3 fun j obj' hc => ?_
    rw [goto_self] at hc
    cases hc
  | stamp t k obj a tsSet hpc ha hf =>
    obtain ⟨h1, h2, h3⟩ := h.allocator t k a ha
    have h4 := (hm.born t (hm.ne_zero hpc rfl) (by simp [hpc])).2
    refine h.update (t := t) (k := k) (fun u => goto_other) rfl h1 h2 h3 fun j obj' hc => ?_
    rw [goto_self] at hc
    cases hc
    exact ⟨rfl, Or.inl (hm.tsList (by omega))⟩
  | collect t k obj a a' hpc ha hc =>
    obtain ⟨h1, h2, h3⟩ := h.allocator t k a ha
    have h4 := (hm.born t (hm.ne_zero hpc rfl) (by simp [hpc])).2
    have hv := hm.version (by omega)
    unfold Allocator.tsSetCollect at hc
    split at hc
    · cases hc
    · next cur rest hpend =>
      split at hc
      · obtain rfl := Option.some.inj hc
        refine h.update (t := t) (k := k) (fun _ _ => rfl) rfl h1 h2 h3 fun j obj' hc => ?_
        rw [show (s.setAllocator t k _).pc t = s.pc t from rfl, hpc] at hc
        cases hc
        refine ⟨rfl, ?_⟩
        by_cases hcur : cur = 0
        · subst hcur
          simp only [Function.update_self]
          exact Or.inr hv
        · simp only [Function.update_of_ne (Ne.symm hcur)]
          have := h.collect t k obj a hpc ha
          rw [hpend, List.mem_cons, or_iff_right (Ne.symm hcur)] at this
          exact this
      · cases hc
  | reclaim t k obj a a' hpc ha hf =>
    obtain ⟨h1, h2, h3⟩ := h.allocator t k a ha
    have h4 := (hm.born t (hm.ne_zero hpc rfl) (by simp [hpc])).2
    have hlen : 0 ∈ List.range s.tsListLen := List.mem_range.2 (hm.tsListLen (by omega))
    have hpc' : ∀ j obj', ((s.setAllocator t k a').goto t .tsNext).pc t ≠ .collect j obj' := by
      simp
    unfold Allocator.free at hf
    split at hf
    · split at hf
      · next hpend =>
        have h0 : a.freeSet.tsSet 0 = 0 := by
          have := h.collect t k obj a hpc ha
          rwa [hpend, or_iff_right (List.not_mem_nil)] at this
        rw [memReclaim_stale hlen h0] at hf
        obtain rfl := Option.some.inj hf
        refine h.update (t := t) (k := k) (fun u => goto_other) rfl h1 h2 (fun F hF => ?_)
          fun j obj' hc => absurd hc (hpc' j obj')
        rcases List.mem_cons.1 hF with rfl | hF
        · exact h0
        · exact h3 F hF
      · cases hf
    · obtain rfl := Option.some.inj hf
      exact h.update (t := t) (k := k) (fun u => goto_other) rfl h1 h2 h3
        fun j obj' hc => absurd hc (hpc' j obj')

end Stale

theorem reachable_inv (h : Reachable n extra s) : Main n s ∧ Stale s := by
  obtain ⟨s₀, h0, hr⟩ := h
  induction hr with
  | refl => exact ⟨Main.init h0, Stale.init h0⟩
  | tail _ hs ih => exact ⟨ih.1.step hs, ih.2.step ih.1 hs⟩

end Bench

end Ssmem
