import DurableSets.Ssmem.Bench

namespace Ssmem

namespace Bench

open Relation

variable {n extra k j : ℕ} {s s' s'' : Bench} {t u : Tid} {a a' : Allocator ℕ}

structure Alone (n extra : ℕ) (t : Tid) (s s' : Bench) : Prop where
  run : ReflTransGen (Step n extra) s s'
  pc : ∀ u, u ≠ t → s'.pc u = s.pc u
  allocator : ∀ u, u ≠ t → s'.allocator u = s.allocator u
  version : ∀ u, u ≠ t → s'.version u = s.version u
  tsLocal : ∀ u, u ≠ t → s'.tsLocal u = s.tsLocal u

namespace Alone

theorem refl (n extra : ℕ) (t : Tid) (s : Bench) : Alone n extra t s s :=
  ⟨.refl, fun _ _ => rfl, fun _ _ => rfl, fun _ _ => rfl, fun _ _ => rfl⟩

theorem trans (h : Alone n extra t s s') (h' : Alone n extra t s' s'') :
    Alone n extra t s s'' where
  run := h.run.trans h'.run
  pc u hu := (h'.pc u hu).trans (h.pc u hu)
  allocator u hu := (h'.allocator u hu).trans (h.allocator u hu)
  version u hu := (h'.version u hu).trans (h.version u hu)
  tsLocal u hu := (h'.tsLocal u hu).trans (h.tsLocal u hu)

end Alone

theorem exists_registered (n extra : ℕ) (hpc : s.pc t = .allocInit k)
    (hl : s.tsLocal t = false) :
    ∃ s', Alone n extra t s s' ∧ s'.pc t = afterInit extra t k ∧ s'.tsLocal t = true ∧
      s'.allocator t k = some (Allocator.init [] SSMEM_GC_FREE_SET_SIZE) ∧
      s'.crossing = s.crossing := by
  refine ⟨_, ⟨.head (.gcThreadInit t k hpc hl) <| .head (.subscribe t k goto_self) <|
    .head (.subscribeCas t k _ goto_self rfl) <| .head (.tsListLen t k goto_self) <|
    .single (.freeSetNew t k goto_self), fun u hu => ?_, fun u hu => ?_, fun u hu => ?_,
    fun u hu => ?_⟩, goto_self, ?_, setAllocator_self, rfl⟩
  · simp only [goto, setAllocator, Function.update_of_ne hu]
  · simp only [goto, setAllocator, Function.update_of_ne hu]
  · simp only [goto, setAllocator, Function.update_of_ne hu]
  · simp only [goto, setAllocator, Function.update_of_ne hu]
  · simp only [goto, setAllocator, Function.update_self]

theorem exists_registered_again (n : ℕ) (ht : t ≠ 0) (hk : k < extra)
    (hpc : s.pc t = afterInit extra t k) (hl : s.tsLocal t = true) :
    ∃ s', Alone n extra t s s' ∧ s'.pc t = afterInit extra t (k + 1) ∧ s'.tsLocal t = true ∧
      s'.allocator t 0 = s.allocator t 0 ∧ s'.crossing = s.crossing := by
  rw [afterInit, if_neg ht, if_pos hk] at hpc
  refine ⟨_, ⟨.head (.subscribed t (k + 1) hpc hl) <| .single (.freeSetNew t _ goto_self),
    fun u hu => ?_, fun u hu => ?_, fun _ _ => rfl, fun _ _ => rfl⟩, goto_self, hl, ?_, rfl⟩
  · simp only [goto, setAllocator, Function.update_of_ne hu]
  · simp only [goto, setAllocator, Function.update_of_ne hu]
  · simp only [goto, setAllocator, Function.update_self, Function.update_of_ne (Nat.succ_ne_zero k).symm]

theorem exists_initialized (n : ℕ) (ht : t ≠ 0) (hk : k ≤ extra)
    (hpc : s.pc t = afterInit extra t k) (hl : s.tsLocal t = true) :
    ∃ s', Alone n extra t s s' ∧ s'.pc t = .initBarrier ∧
      s'.allocator t 0 = s.allocator t 0 ∧ s'.crossing = s.crossing := by
  induction hd : extra - k generalizing k s with
  | zero =>
    refine ⟨s, .refl _ _ _ _, ?_, rfl, rfl⟩
    rw [hpc, afterInit, if_neg ht, if_neg (by omega)]
  | succ d ih =>
    obtain ⟨s₁, h₁, hpc₁, hl₁, ha₁, hc₁⟩ := exists_registered_again n ht (by omega) hpc hl
    obtain ⟨s₂, h₂, hpc₂, ha₂, hc₂⟩ := ih (by omega) hpc₁ hl₁ (by omega)
    exact ⟨s₂, h₁.trans h₂, hpc₂, ha₂.trans ha₁, hc₂.trans hc₁⟩

theorem exists_enrolled (n extra : ℕ) (ht : t ≠ 0) (hpc : s.pc t = .allocInit 0) (hl : s.tsLocal t = false) :
    ∃ s', Alone n extra t s s' ∧ s'.pc t = .waiting ∧
      s'.allocator t 0 = some (Allocator.init [] SSMEM_GC_FREE_SET_SIZE) ∧
      s'.crossing = s.crossing + 1 := by
  obtain ⟨s₁, h₁, hpc₁, hl₁, ha₁, hc₁⟩ := exists_registered n extra hpc hl
  obtain ⟨s₂, h₂, hpc₂, ha₂, hc₂⟩ := exists_initialized n ht (Nat.zero_le _) hpc₁ hl₁
  refine ⟨_, (h₁.trans h₂).trans ⟨.single (.arrive t hpc₂), fun u => goto_other, fun _ _ => rfl,
    fun _ _ => rfl, fun _ _ => rfl⟩, goto_self, ha₂.trans ha₁, ?_⟩
  exact congrArg Nat.succ (hc₂.trans hc₁)

theorem exists_each (n extra : ℕ) {P Q : Tid → Bench → Prop} {R : ℕ → Bench → Prop}
    (hstep : ∀ j s, j < n → R j s → P (j + 1) s → ∃ s', ReflTransGen (Step n extra) s s' ∧
      R (j + 1) s' ∧ Q (j + 1) s' ∧ ∀ u, u ≠ j + 1 → (P u s → P u s') ∧ (Q u s → Q u s'))
    (hR : R 0 s) (hP : ∀ u, 1 ≤ u → u ≤ n → P u s) :
    ∃ s', ReflTransGen (Step n extra) s s' ∧ R n s' ∧ ∀ u, 1 ≤ u → u ≤ n → Q u s' := by
  have key : ∀ j ≤ n, ∃ s', ReflTransGen (Step n extra) s s' ∧ R j s' ∧
      (∀ u, 1 ≤ u → u ≤ j → Q u s') ∧ ∀ u, j < u → u ≤ n → P u s' := by
    intro j hj
    induction j with
    | zero => exact ⟨s, .refl, hR, fun u h1 h2 => absurd h1 (by omega), hP⟩
    | succ j ih =>
      obtain ⟨s₁, hr₁, hR₁, hQ₁, hP₁⟩ := ih (by omega)
      obtain ⟨s₂, hr₂, hR₂, hQ₂, hk⟩ := hstep j s₁ hj hR₁ (hP₁ _ (Nat.lt_succ_self j) hj)
      refine ⟨s₂, hr₁.trans hr₂, hR₂, fun u h1 h2 => ?_, fun u h1 h2 => ?_⟩
      · by_cases hu : u = j + 1
        · exact hu ▸ hQ₂
        · exact (hk u hu).2 (hQ₁ u h1 (Nat.le_of_lt_succ (lt_of_le_of_ne h2 hu)))
      · exact (hk u h1.ne').1 (hP₁ u (Nat.lt_of_succ_lt h1) h2)
  obtain ⟨s', hr, hR', hQ, _⟩ := key n le_rfl
  exact ⟨s', hr, hR', hQ⟩

theorem exists_started (n extra : ℕ) (h : Init s) :
    ∃ s', ReflTransGen (Step n extra) s s' ∧ s'.crossing = 0 ∧
      ∀ u, 1 ≤ u → u ≤ n → s'.pc u = .allocInit 0 ∧ s'.tsLocal u = false := by
  obtain ⟨s₁, h₁, hpc₁, _, _, hc₁⟩ := exists_registered n extra h.main (h.tsLocal 0)
  obtain ⟨s₂, hr₂, ⟨_, hc₂⟩, h₂⟩ := exists_each n extra
    (P := fun u s => s.tsLocal u = false)
    (Q := fun u s => s.pc u = .allocInit 0 ∧ s.tsLocal u = false)
    (R := fun j s => s.pc 0 = .start (j + 1) ∧ s.crossing = 0)
    (fun j s hj hR hP => by
      refine ⟨_, .single (.start (j + 1) hR.1 (Nat.succ_lt_succ hj)), ⟨goto_self, hR.2⟩,
        ⟨?_, hP⟩, fun u hu => ⟨id, fun hQ => ⟨?_, hQ.2⟩⟩⟩
      · rw [goto_other (Nat.succ_ne_zero j), goto_self]
      · by_cases h0 : u = 0
        · rw [h0, hR.1] at hQ
          cases hQ.1
        · rw [goto_other h0, goto_other hu, hQ.1])
    ⟨hpc₁, hc₁.trans h.crossing⟩
    fun u h1 _ => (h₁.tsLocal u (Nat.one_le_iff_ne_zero.1 h1)).trans (h.tsLocal u)
  exact ⟨s₂, h₁.run.trans hr₂, hc₂, h₂⟩

theorem exists_ready (n extra : ℕ) (h : Init s) : ∃ s', ReflTransGen (Step n extra) s s' ∧
    ∀ u, 1 ≤ u → u ≤ n → s'.pc u = .idle ∧
      s'.allocator u 0 = some (Allocator.init [] SSMEM_GC_FREE_SET_SIZE) := by
  obtain ⟨s₁, hr₁, hc₁, h₁⟩ := exists_started n extra h
  obtain ⟨s₂, hr₂, hc₂, h₂⟩ := exists_each n extra
    (P := fun u s => s.pc u = .allocInit 0 ∧ s.tsLocal u = false)
    (Q := fun u s => s.pc u = .waiting ∧
      s.allocator u 0 = some (Allocator.init [] SSMEM_GC_FREE_SET_SIZE))
    (R := fun j s => s.crossing = j)
    (fun j s _ hR hP => by
      obtain ⟨s', h', hpc, ha, hc⟩ := exists_enrolled n extra (Nat.succ_ne_zero j) hP.1 hP.2
      refine ⟨s', h'.run, hc.trans (congrArg Nat.succ hR), ⟨hpc, ha⟩, fun u hu => ⟨?_, ?_⟩⟩
      · rw [h'.pc u hu, h'.tsLocal u hu]
        exact id
      · rw [h'.pc u hu, h'.allocator u hu]
        exact id)
    hc₁ h₁
  obtain ⟨s₃, hr₃, _, h₃⟩ := exists_each n extra
    (P := fun u s => s.pc u = .waiting ∧
      s.allocator u 0 = some (Allocator.init [] SSMEM_GC_FREE_SET_SIZE))
    (Q := fun u s => s.pc u = .idle ∧
      s.allocator u 0 = some (Allocator.init [] SSMEM_GC_FREE_SET_SIZE))
    (R := fun _ s => s.crossing = n)
    (fun j s _ hR hP => by
      refine ⟨_, .single (.leave (j + 1) hP.1 hR), hR, ⟨goto_self, hP.2⟩, fun u hu => ⟨?_, ?_⟩⟩
      · rw [goto_other hu]
        exact id
      · rw [goto_other hu]
        exact id)
    hc₂ h₂
  exact ⟨s₃, (hr₁.trans hr₂).trans hr₃, h₃⟩

theorem Reachable.trans (h : Reachable n extra s) (hr : ReflTransGen (Step n extra) s s') :
    Reachable n extra s' := by
  obtain ⟨s₀, h0, hr0⟩ := h
  exact ⟨s₀, h0, hr0.trans hr⟩

theorem Reachable.collectedSets (h : Reachable n extra s) (ha : s.allocator t k = some a) :
    a.collectedSets = [] := ((reachable_inv h).2.allocator t k a ha).2.1

theorem Reachable.isFull (h : Reachable n extra s) (ha : s.allocator t k = some a) :
    a.isFull = true ↔ a.freeSet.set.length = SSMEM_GC_FREE_SET_SIZE := by
  rw [Allocator.isFull, beq_iff_eq, ((reachable_inv h).2.allocator t k a ha).1]

theorem exists_freed (h : Reachable n extra s) (hpc : s.pc t = .idle)
    (ha : s.allocator t 0 = some a) (hf : a.isFull = false) :
    ∃ s' m, Alone n extra t s s' ∧ s'.pc t = .idle ∧ s'.allocator t 0 = some (a.push m) ∧
      s'.version t = s.version t + 1 := by
  refine ⟨_, s.cut, ⟨.head (.cut t 0 a hpc (Nat.zero_le _) ha (h.collectedSets ha)) <|
    .head (.callFree t 0 s.cut hpc (Nat.zero_le _) ?_) <|
    .head (.push t 0 s.cut a goto_self ha hf) <| .single (.tsNext t goto_self),
    fun u hu => ?_, fun u hu => ?_, fun u hu => ?_, fun _ _ => rfl⟩, goto_self,
    setAllocator_self, Function.update_self _ _ _⟩
  · simp only [Function.update_self, List.mem_cons_self]
  · simp only [goto, setAllocator, Function.update_of_ne hu]
  · simp only [goto, setAllocator, Function.update_of_ne hu]
  · exact Function.update_of_ne hu _ _

theorem exists_filled (h : Reachable n extra s) (hpc : s.pc t = .idle)
    (ha : s.allocator t 0 = some a) (m : ℕ)
    (hm : a.freeSet.set.length + m = SSMEM_GC_FREE_SET_SIZE) :
    ∃ s' a', Alone n extra t s s' ∧ s'.pc t = .idle ∧ s'.allocator t 0 = some a' ∧
      a'.isFull = true ∧ a'.fullSets = a.fullSets ∧ s.version t ≤ s'.version t := by
  induction m generalizing s a with
  | zero => exact ⟨s, a, .refl _ _ _ _, hpc, ha, (h.isFull ha).2 hm, rfl, le_rfl⟩
  | succ m ih =>
    have hf : a.isFull = false := by
      rw [← Bool.not_eq_true, h.isFull ha]
      omega
    obtain ⟨s₁, x, h₁, hpc₁, ha₁, hv₁⟩ := exists_freed h hpc ha hf
    obtain ⟨s₂, a₂, h₂, hpc₂, ha₂, hf₂, hs₂, hv₂⟩ := ih (h.trans h₁.run) hpc₁ ha₁ (by
      rw [← hm, Allocator.push, List.length_cons]
      omega)
    exact ⟨s₂, a₂, h₁.trans h₂, hpc₂, ha₂, hf₂, hs₂, by omega⟩

theorem exists_full (h : Reachable n extra s) (hpc : s.pc t = .idle)
    (ha : s.allocator t 0 = some a) (hf : a.isFull = true) :
    ∃ s', Alone n extra t s s' ∧ s'.Full t 0 a ∧ s'.version t = s.version t := by
  refine ⟨_, ⟨.head (.cut t 0 a hpc (Nat.zero_le _) ha (h.collectedSets ha)) <|
    .single (.callFree t 0 s.cut hpc (Nat.zero_le _) ?_), fun u => goto_other, fun _ _ => rfl,
    fun _ _ => rfl, fun _ _ => rfl⟩, ⟨⟨s.cut, goto_self⟩, ha, hf⟩, rfl⟩
  simp only [Function.update_self, List.mem_cons_self]

theorem exists_tsSetCollect (version : Tid → ℕ) {cur : Tid} {rest : List Tid}
    (hp : a.pending = cur :: rest) (hf : a.isFull = true) :
    ∃ a', a.tsSetCollect version = some a' ∧ a'.isFull = true ∧ a'.pending = rest ∧
      a'.fullSets = a.fullSets := by
  refine ⟨{ a with
    freeSet := ⟨a.freeSet.set, Function.update a.freeSet.tsSet cur (version cur)⟩
    pending := rest }, ?_, hf, rfl, rfl⟩
  simp only [Allocator.tsSetCollect, hp, if_pos hf]

theorem exists_collected (n extra : ℕ) {obj : ℕ} (hpc : s.pc t = .collect k obj)
    (ha : s.allocator t k = some a) (hf : a.isFull = true) :
    ∃ s' a', Alone n extra t s s' ∧ s'.Stamped t k a' ∧ a'.isFull = true ∧
      a'.fullSets = a.fullSets ∧ s'.version t = s.version t := by
  induction hp : a.pending generalizing s a with
  | nil => exact ⟨s, a, .refl _ _ _ _, ⟨⟨obj, hpc⟩, ha, hp⟩, hf, rfl, rfl⟩
  | cons cur rest ih =>
    obtain ⟨a', hc, hf', hp', he'⟩ := exists_tsSetCollect s.version hp hf
    obtain ⟨s₁, a₁, h₁, hs₁, hf₁, he₁, hv₁⟩ :=
      ih (s := s.setAllocator t k a') hpc setAllocator_self hf' hp'
    refine ⟨s₁, a₁, Alone.trans ⟨.single (.collect t k obj a a' hpc ha hc), fun _ _ => rfl,
      fun u hu => ?_, fun _ _ => rfl, fun _ _ => rfl⟩ h₁, hs₁, hf₁, he₁.trans he', hv₁⟩
    exact Function.update_of_ne hu _ _

theorem exists_stamped (n extra : ℕ) (h : s.Full t k a) :
    ∃ s' a', Alone n extra t s s' ∧ s'.Stamped t k a' ∧ a'.isFull = true ∧
      a'.fullSets = a.fullSets ∧ s'.version t = s.version t := by
  obtain ⟨obj, hpc⟩ := h.pc
  obtain ⟨s₁, a₁, h₁, hs₁, hf₁, he₁, hv₁⟩ := exists_collected n extra (t := t) (k := k)
    (s := (s.setAllocator t k { a with
      freeSet := ⟨a.freeSet.set, fun _ => 0⟩, pending := s.tsList }).goto t (.collect k obj))
    goto_self setAllocator_self h.full
  refine ⟨s₁, a₁, Alone.trans ⟨.single (.stamp t k obj a _ hpc h.allocator h.full),
    fun u => goto_other, fun u hu => ?_, fun _ _ => rfl, fun _ _ => rfl⟩ h₁, hs₁, hf₁, he₁, hv₁⟩
  exact Function.update_of_ne hu _ _

theorem Reachable.memReclaim (h : Reachable n extra s) (hs : s.Stamped t k a) :
    a.memReclaim (List.range s.tsListLen) = a := by
  obtain ⟨hm, hst⟩ := reachable_inv h
  obtain ⟨obj, hpc⟩ := hs.pc
  have h4 := (hm.born t (hm.ne_zero hpc rfl) (by simp [hpc])).2
  refine memReclaim_stale (List.mem_range.2 (hm.tsListLen (by omega))) ?_
  have := hst.collect t k obj a hpc hs.allocator
  rwa [hs.pending, or_iff_right List.not_mem_nil] at this

theorem exists_reclaimed (h : Reachable n extra s) (hs : s.Stamped t k a)
    (hf : a.isFull = true) :
    ∃ s' a', Alone n extra t s s' ∧ s'.pc t = .idle ∧ s'.allocator t k = some a' ∧
      a'.freeSet.set.length = 1 ∧ a'.fullSets = a.freeSet :: a.fullSets ∧
      s'.version t = s.version t + 1 := by
  obtain ⟨obj, hpc⟩ := hs.pc
  have hfree : a.free (List.range s.tsListLen) obj =
      some ((a.getAvail (List.range s.tsListLen)).push obj) := by
    rw [Allocator.free, if_pos hf, hs.pending, h.memReclaim hs]
  refine ⟨_, _, ⟨.head (.reclaim t k obj a _ hpc hs.allocator hfree) <|
    .single (.tsNext t goto_self), fun u hu => ?_, fun u hu => ?_, fun u hu => ?_,
    fun _ _ => rfl⟩, goto_self, setAllocator_self, rfl, rfl, Function.update_self _ _ _⟩
  · simp only [goto, setAllocator, Function.update_of_ne hu]
  · exact Function.update_of_ne hu _ _
  · exact Function.update_of_ne hu _ _

theorem exists_all_freed (h : Reachable n extra s)
    (hu : ∀ u, 1 ≤ u → u ≤ n → u ≠ t → s.pc u = .idle ∧
      s.allocator u 0 = some (Allocator.init [] SSMEM_GC_FREE_SET_SIZE)) :
    ∃ s', ReflTransGen (Step n extra) s s' ∧ s'.pc t = s.pc t ∧
      s'.allocator t = s.allocator t ∧ s'.version t = s.version t ∧
      ∀ u, 1 ≤ u → u ≤ n → u ≠ t → s.version u < s'.version u := by
  obtain ⟨s', hr, ⟨_, h1, h2, h3⟩, hv⟩ := exists_each n extra
    (P := fun u s₁ => u ≠ t → s₁.pc u = .idle ∧ s₁.version u = s.version u ∧
      s₁.allocator u 0 = some (Allocator.init [] SSMEM_GC_FREE_SET_SIZE))
    (Q := fun u s₁ => u ≠ t → s.version u < s₁.version u)
    (R := fun _ s₁ => Reachable n extra s₁ ∧ s₁.pc t = s.pc t ∧
      s₁.allocator t = s.allocator t ∧ s₁.version t = s.version t)
    (fun j s₁ _ hR hP => by
      by_cases hj : j + 1 = t
      · exact ⟨s₁, .refl, hR, fun hne => absurd hj hne, fun _ _ => ⟨id, id⟩⟩
      · obtain ⟨hreach, h1, h2, h3⟩ := hR
        obtain ⟨hpc, hv, ha⟩ := hP hj
        obtain ⟨s₂, _, h₂, _, _, hv₂⟩ := exists_freed hreach hpc ha (by decide)
        refine ⟨s₂, h₂.run, ⟨hreach.trans h₂.run, (h₂.pc t (Ne.symm hj)).trans h1,
          (h₂.allocator t (Ne.symm hj)).trans h2, (h₂.version t (Ne.symm hj)).trans h3⟩,
          fun _ => by omega, fun u hu => ?_⟩
        rw [h₂.pc u hu, h₂.version u hu, h₂.allocator u hu]
        exact ⟨id, id⟩)
    ⟨h, rfl, rfl, rfl⟩ fun u h1 h2 hne => ⟨(hu u h1 h2 hne).1, rfl, (hu u h1 h2 hne).2⟩
  exact ⟨s', hr, h1, h2, h3, hv⟩

theorem not_reclaims (hn : 0 < n) (h : Init s) : ¬ Reclaims n extra := by
  intro hrec
  obtain ⟨s₀, hr₀, h₀⟩ := exists_ready n extra h
  have hreach₀ : Reachable n extra s₀ := ⟨s, h, hr₀⟩
  obtain ⟨hpc₀, ha₀⟩ := h₀ 1 le_rfl hn
  -- thread 1 fills its first set and stamps it
  obtain ⟨s₁, a₁, h₁, hpc₁, ha₁, hf₁, hs₁, _⟩ :=
    exists_filled hreach₀ hpc₀ ha₀ SSMEM_GC_FREE_SET_SIZE (Nat.zero_add _)
  have hreach₁ := hreach₀.trans h₁.run
  obtain ⟨s₂, h₂, hfull₂, _⟩ := exists_full hreach₁ hpc₁ ha₁ hf₁
  obtain ⟨s₃, a₃, h₃, hst₃, hf₃, hs₃, _⟩ := exists_stamped n extra hfull₂
  have hreach₃ := (hreach₁.trans h₂.run).trans h₃.run
  obtain ⟨s₄, a₄, h₄, hpc₄, ha₄, hlen₄, hs₄, hv₄⟩ := exists_reclaimed hreach₃ hst₃ hf₃
  have hreach₄ := hreach₃.trans h₄.run
  -- the other threads free something
  have hsolo := ((h₁.trans h₂).trans h₃).trans h₄
  obtain ⟨s₅, hr₅, hpc₅, ha₅, hv₅, hvs₅⟩ := exists_all_freed (t := 1) hreach₄
    fun u hu1 hun hne => by
      rw [hsolo.pc u hne, hsolo.allocator u hne]
      exact h₀ u hu1 hun
  have hreach₅ := hreach₄.trans hr₅
  -- thread 1 fills its next set and stamps it
  obtain ⟨s₆, a₆, h₆, hpc₆, ha₆, hf₆, hs₆, hv₆⟩ :=
    exists_filled hreach₅ (hpc₅.trans hpc₄) ((congrFun ha₅ 0).trans ha₄) 506 (by rw [hlen₄]; rfl)
  have hreach₆ := hreach₅.trans h₆.run
  obtain ⟨s₇, h₇, hfull₇, hv₇⟩ := exists_full hreach₆ hpc₆ ha₆ hf₆
  obtain ⟨s₈, a₈, h₈, hst₈, _, hs₈, _⟩ := exists_stamped n extra hfull₇
  have hhead : a₆.fullSets.head? = some a₃.freeSet := by rw [hs₆, hs₄]; rfl
  have hver : ∀ u, 1 ≤ u → u ≤ n → s₃.version u < s₇.version u := by
    intro u hu1 hun
    by_cases hne : u = 1
    · subst hne
      omega
    · rw [h₇.version u hne, h₆.version u hne, ← h₄.version u hne]
      exact hvs₅ u hu1 hun hne
  obtain ⟨hmem, _⟩ := hrec s₃ s₇ s₈ 1 0 a₃ a₆ a₈ hreach₃ hst₃
    (((h₄.run.trans hr₅).trans h₆.run).trans h₇.run) hfull₇ hhead hver h₈.run hst₈
    (hs₈ ▸ hhead)
  have hreach₈ := (hreach₆.trans h₇.run).trans h₈.run
  rw [hreach₈.memReclaim hst₈, hreach₈.collectedSets hst₈.allocator] at hmem
  exact absurd hmem List.not_mem_nil

def called : Bench where
  tsList := []
  tsListLen := 0
  version _ := 0
  tsLocal _ := false
  allocator _ _ := none
  crossing := 0
  cut := 0
  held _ := []
  pc t := if t = 0 then .allocInit 0 else .unborn

theorem init_called : Init called :=
  ⟨rfl, rfl, fun _ => rfl, fun _ _ => rfl, rfl, fun _ => rfl, rfl, fun _ ht => if_neg ht⟩

theorem reclaims_iff (n extra : ℕ) :
    (∀ s, Reachable n extra s → ∀ t k a, s.allocator t k = some a → a.collectedSets = []) ∧
    (Reclaims n extra ↔ n = 0) := by
  refine ⟨fun s hs t k a ha => hs.collectedSets ha, fun h => ?_, ?_⟩
  · by_contra hn
    exact not_reclaims (Nat.pos_of_ne_zero hn) init_called h
  · rintro rfl s₁ _ _ t k a₁ _ _ h₁ hst
    -- there is no other thread
    obtain ⟨hm, _⟩ := reachable_inv h₁
    obtain ⟨obj, hpc⟩ := hst.pc
    have ht := hm.ne_zero hpc rfl
    exact absurd (hm.born t ht (by simp [hpc])).1 (Nat.pos_of_ne_zero ht).not_ge

theorem not_reclaims_one : ¬ Reclaims 1 0 := not_reclaims Nat.one_pos init_called

end Bench

end Ssmem
