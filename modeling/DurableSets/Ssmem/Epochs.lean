import DurableSets.Ssmem.Allocator

namespace Ssmem

variable {α : Type*} {tsList : List Tid} {version : Tid → ℕ} {pins pins' : Tid → α → Prop}
  {avail avail' : α → Prop} {a a' : Allocator α} {t u : Tid} {x m : α}

theorem tsCompare_lt {sNew sOld : Tid → ℕ} (h : tsCompare tsList sNew sOld = true)
    (hle : sOld t ≤ sNew t) (ht : t ∈ tsList) : sOld t < sNew t := by
  have hlt := of_decide_eq_true (List.all_eq_true.1 h t ht)
  refine lt_of_le_of_ne hle fun he => ?_
  rw [he] at hlt
  exact lt_irrefl _ hlt

namespace Allocator

def slots (a : Allocator α) : List α :=
  a.freeSet.set ++ a.fullSets.flatMap FreeSet.set ++ a.collectedSets.flatten

-- the version of t is on record for the set that x lies in
def Stamped (a : Allocator α) (t : Tid) (x : α) : Prop :=
  (x ∈ a.freeSet.set ∧ t ∉ a.pending) ∨ ∃ F ∈ a.fullSets, x ∈ F.set

-- a thread that still has access to a slot has not moved on since the slot's set was stamped
structure Timed (tsList : List Tid) (version : Tid → ℕ) (pins : Tid → α → Prop)
    (a : Allocator α) : Prop where
  pending : a.isFull = false → a.pending = tsList
  newest : ∀ t ∈ tsList, t ∉ a.pending →
    a.freeSet.tsSet t ≤ version t ∧ ∀ F ∈ a.fullSets, F.tsSet t ≤ a.freeSet.tsSet t
  past : ∀ t ∈ tsList, ∀ F ∈ a.fullSets, F.tsSet t ≤ version t
  sorted : a.fullSets.Pairwise fun F G => ∀ t ∈ tsList, G.tsSet t ≤ F.tsSet t
  pinned : ∀ t ∈ tsList, t ∉ a.pending → ∀ x ∈ a.freeSet.set, pins t x →
    version t ≤ a.freeSet.tsSet t
  pinnedFull : ∀ t ∈ tsList, ∀ F ∈ a.fullSets, ∀ x ∈ F.set, pins t x → version t ≤ F.tsSet t
  collected : ∀ s ∈ a.collectedSets, ∀ x ∈ s, ∀ t, ¬ pins t x

theorem mem_slots : x ∈ a.slots ↔ x ∈ a.freeSet.set ∨ (∃ F ∈ a.fullSets, x ∈ F.set) ∨
    ∃ s ∈ a.collectedSets, x ∈ s := by
  simp [slots]

theorem perm_memReclaim : (a.memReclaim tsList).slots.Perm a.slots := by
  unfold memReclaim
  split
  · exact List.Perm.refl _
  · next F rest h =>
    split
    · simp only [slots, h, List.flatMap_nil, List.append_nil, List.flatten_append,
        List.append_assoc, ← List.flatMap_def]
      exact List.Perm.append_left _ List.perm_append_comm
    · exact List.Perm.refl _

theorem slots_getAvail : (a.getAvail tsList).slots = a.slots := by
  simp [slots, getAvail]

theorem slots_push : (a.push x).slots = x :: a.slots := rfl

theorem slots_tsSetCollect (h : a.tsSetCollect version = some a') : a'.slots = a.slots := by
  unfold tsSetCollect at h
  split at h
  · cases h
  · split at h
    · obtain rfl := Option.some.inj h
      rfl
    · cases h

theorem perm_free (h : a.free tsList x = some a') : a'.slots.Perm (x :: a.slots) := by
  unfold free at h
  split at h
  · split at h
    · obtain rfl := Option.some.inj h
      rw [slots_push, slots_getAvail]
      exact perm_memReclaim.cons x
    · cases h
  · obtain rfl := Option.some.inj h
    rw [slots_push]

theorem fullSets_memReclaim {F : FreeSet α} (h : F ∈ (a.memReclaim tsList).fullSets) :
    F ∈ a.fullSets := by
  unfold memReclaim at h
  split at h
  · exact h
  · split at h
    · cases h
    · exact h

theorem freeSet_memReclaim : (a.memReclaim tsList).freeSet = a.freeSet := by
  unfold memReclaim
  split
  · rfl
  · split <;> rfl

theorem pending_memReclaim : (a.memReclaim tsList).pending = a.pending := by
  unfold memReclaim
  split
  · rfl
  · split <;> rfl

theorem stamped_of_free {F : FreeSet α} (h : a.free tsList x = some a') (hF : F ∈ a'.fullSets)
    (hm : m ∈ F.set) : a.Stamped t m := by
  unfold free at h
  split at h
  · split at h
    · next hp =>
      obtain rfl := Option.some.inj h
      rcases List.mem_cons.1 hF with rfl | hF
      · rw [freeSet_memReclaim] at hm
        exact Or.inl ⟨hm, by simp [hp]⟩
      · exact Or.inr ⟨F, fullSets_memReclaim hF, hm⟩
    · cases h
  · obtain rfl := Option.some.inj h
    exact Or.inr ⟨F, hF, hm⟩

theorem pop_inv (h : a.pop = some (m, a')) : ∃ ms rest, a.collectedSets = (m :: ms) :: rest ∧
    a' = { a with collectedSets := if ms.isEmpty then rest else ms :: rest } := by
  unfold pop at h
  split at h
  · next n ms rest he =>
    obtain ⟨rfl, rfl⟩ := Prod.mk.inj (Option.some.inj h)
    exact ⟨ms, rest, he, rfl⟩
  · cases h

theorem perm_pop (h : a.pop = some (m, a')) : a.slots.Perm (m :: a'.slots) := by
  obtain ⟨ms, rest, he, rfl⟩ := pop_inv h
  have hflat : (if ms.isEmpty then rest else ms :: rest).flatten = ms ++ rest.flatten := by
    cases ms <;> rfl
  simp only [slots, he, hflat, List.flatten_cons]
  exact List.perm_middle

namespace Timed

theorem repin (h : Timed tsList version pins a)
    (hp : ∀ t, ∀ x ∈ a.slots, pins' t x → pins t x) : Timed tsList version pins' a where
  pending := h.pending
  newest := h.newest
  past := h.past
  sorted := h.sorted
  pinned t ht hn x hx hpx := h.pinned t ht hn x hx (hp t x (mem_slots.2 (Or.inl hx)) hpx)
  pinnedFull t ht F hF x hx hpx :=
    h.pinnedFull t ht F hF x hx (hp t x (mem_slots.2 (Or.inr (Or.inl ⟨F, hF, hx⟩))) hpx)
  collected s hs x hx t hpx :=
    h.collected s hs x hx t (hp t x (mem_slots.2 (Or.inr (Or.inr ⟨s, hs, hx⟩))) hpx)

theorem tick (h : Timed tsList version pins a) (hu : ∀ x, pins u x → ¬ a.Stamped u x) :
    Timed tsList (tsNext version u) pins a := by
  have hle : ∀ t, version t ≤ tsNext version u t := by
    intro t
    unfold tsNext
    rw [Function.update_apply]
    split
    · next he => rw [he]; omega
    · exact le_rfl
  have hold : ∀ t x, pins t x → a.Stamped t x → tsNext version u t = version t := by
    intro t x hp hs
    refine Function.update_of_ne ?_ _ _
    rintro rfl
    exact hu x hp hs
  refine ⟨h.pending, ?_, ?_, h.sorted, ?_, ?_, h.collected⟩
  · exact fun t ht hn => ⟨(h.newest t ht hn).1.trans (hle t), (h.newest t ht hn).2⟩
  · exact fun t ht F hF => (h.past t ht F hF).trans (hle t)
  · intro t ht hn x hx hp
    rw [hold t x hp (Or.inl ⟨hx, hn⟩)]
    exact h.pinned t ht hn x hx hp
  · intro t ht F hF x hx hp
    rw [hold t x hp (Or.inr ⟨F, hF, hx⟩)]
    exact h.pinnedFull t ht F hF x hx hp

theorem tsSetCollect (h : Timed tsList version pins a)
    (hc : a.tsSetCollect version = some a') : Timed tsList version pins a' := by
  unfold Allocator.tsSetCollect at hc
  split at hc
  · cases hc
  · next cur rest hpend =>
    split at hc
    · next hfull =>
      obtain rfl := Option.some.inj hc
      -- the stamps of the threads read before stay, that of cur is its version now
      have hstamp : ∀ t, t ∉ rest → t ∉ a.pending ∨ t = cur := by
        intro t ht
        by_cases he : t = cur
        · exact Or.inr he
        · left
          rw [hpend]
          simp [he, ht]
      refine ⟨?_, ?_, h.past, h.sorted, ?_, h.pinnedFull, h.collected⟩
      · intro hf
        exact absurd (hf.symm.trans hfull) Bool.false_ne_true
      · intro t ht hn
        by_cases he : t = cur
        · subst he
          simp only [Function.update_self]
          exact ⟨le_rfl, h.past t ht⟩
        · simp only [Function.update_of_ne he]
          exact h.newest t ht ((hstamp t hn).resolve_right he)
      · intro t ht hn x hx hp
        by_cases he : t = cur
        · subst he
          simp only [Function.update_self]
          exact le_rfl
        · simp only [Function.update_of_ne he]
          exact h.pinned t ht ((hstamp t hn).resolve_right he) x hx hp
    · cases hc

theorem push (h : Timed tsList version pins a) (hp : a.pending = tsList) :
    Timed tsList version pins (a.push x) where
  pending _ := hp
  newest := h.newest
  past := h.past
  sorted := h.sorted
  pinned t ht hn := absurd (hp.symm ▸ ht : t ∈ a.pending) hn
  pinnedFull := h.pinnedFull
  collected := h.collected

-- the set stamped last is newer in every component, so nobody refers to the older ones
theorem memReclaim (h : Timed tsList version pins a) (hp : a.pending = [])
    (hin : ∀ t x, pins t x → t ∈ tsList) : Timed tsList version pins (a.memReclaim tsList) := by
  unfold Allocator.memReclaim
  split
  · exact h
  · next F rest hfull =>
    split
    · next hcmp =>
      have hnot : ∀ t, t ∉ a.pending := by simp [hp]
      have hold : ∀ G ∈ F :: rest, ∀ x ∈ G.set, ∀ t, ¬ pins t x := by
        intro G hG x hx t hpx
        have ht := hin t x hpx
        have hsort := h.sorted
        rw [hfull, List.pairwise_cons] at hsort
        have hGF : G.tsSet t ≤ F.tsSet t := by
          rcases List.mem_cons.1 hG with rfl | hG
          · exact le_rfl
          · exact hsort.1 G hG t ht
        obtain ⟨hnow, hnew⟩ := h.newest t ht (hnot t)
        have hlt := tsCompare_lt hcmp (hnew F (by simp [hfull])) ht
        have hle := h.pinnedFull t ht G (hfull ▸ hG) x hx hpx
        omega
      refine ⟨h.pending, fun t ht hn => ⟨(h.newest t ht hn).1, nofun⟩, fun _ _ => nofun,
        List.Pairwise.nil, h.pinned, fun _ _ => nofun, ?_⟩
      intro s hs x hx t
      rcases List.mem_append.1 hs with hs | hs
      · exact h.collected s hs x hx t
      · obtain ⟨G, hG, rfl⟩ := List.mem_map.1 hs
        exact hold G hG x hx t
    · exact h

theorem getAvail (h : Timed tsList version pins a) (hp : a.pending = []) :
    Timed tsList version pins (a.getAvail tsList) := by
  have hnot : ∀ t, t ∉ a.pending := by simp [hp]
  refine ⟨fun _ => rfl, fun t ht hn => absurd ht hn, ?_, ?_, fun t ht hn => absurd ht hn, ?_,
    h.collected⟩
  · intro t ht F hF
    rcases List.mem_cons.1 hF with rfl | hF
    · exact (h.newest t ht (hnot t)).1
    · exact h.past t ht F hF
  · exact List.pairwise_cons.2 ⟨fun G hG t ht => (h.newest t ht (hnot t)).2 G hG, h.sorted⟩
  · intro t ht F hF x hx hpx
    rcases List.mem_cons.1 hF with rfl | hF
    · exact h.pinned t ht (hnot t) x hx hpx
    · exact h.pinnedFull t ht F hF x hx hpx

theorem free (h : Timed tsList version pins a) (hin : ∀ t x, pins t x → t ∈ tsList)
    (hf : a.free tsList x = some a') : Timed tsList version pins a' ∧ a'.pending = tsList := by
  unfold Allocator.free at hf
  split at hf
  · split at hf
    · next hp =>
      obtain rfl := Option.some.inj hf
      have hp' : (a.memReclaim tsList).pending = [] := pending_memReclaim.trans hp
      exact ⟨((h.memReclaim hp hin).getAvail hp').push rfl, rfl⟩
    · cases hf
  · next hfull =>
    obtain rfl := Option.some.inj hf
    have hp := h.pending (by simpa using hfull)
    exact ⟨h.push hp, hp⟩

theorem pop (h : Timed tsList version pins a) (hp : a.pop = some (m, a')) :
    Timed tsList version pins a' ∧ ∀ t, ¬ pins t m := by
  obtain ⟨ms, rest, he, rfl⟩ := pop_inv hp
  refine ⟨⟨h.pending, h.newest, h.past, h.sorted, h.pinned, h.pinnedFull, ?_⟩, ?_⟩
  · intro s hs x hx
    have hs : s ∈ ms :: rest := by
      split at hs
      · exact List.mem_cons_of_mem _ hs
      · exact hs
    rcases List.mem_cons.1 hs with rfl | hs
    · exact h.collected (m :: s) (by simp [he]) x (List.mem_cons_of_mem _ hx)
    · exact h.collected s (by simp [he, hs]) x hx
  · exact h.collected (m :: ms) (by simp [he]) m (by simp)

end Timed

end Allocator

namespace Pool

variable {P P' : Pool α}

structure Inv (tsList : List Tid) (version : Tid → ℕ) (avail : α → Prop) (pins : Tid → α → Prop)
    (P : Pool α) : Prop where
  timed : ∀ t, (P.allocator t).Timed tsList version pins
  nodup : ∀ t, (P.allocator t).slots.Nodup
  apart : ∀ {t u x}, x ∈ (P.allocator t).slots → x ∈ (P.allocator u).slots → t = u
  held : ∀ {t x}, x ∈ (P.allocator t).slots → avail x ∧ P.fresh x = false
  fresh : ∀ {x}, P.fresh x = true → avail x ∧ ∀ t, ¬ pins t x

def Held (P : Pool α) (x : α) : Prop := P.fresh x = true ∨ ∃ t, x ∈ (P.allocator t).slots

def Stamped (P : Pool α) (t : Tid) (x : α) : Prop := ∃ u, (P.allocator u).Stamped t x

theorem Inv.avail_of_held (h : Inv tsList version avail pins P) (hx : P.Held x) : avail x := by
  rcases hx with hx | ⟨t, hx⟩
  · exact (h.fresh hx).1
  · exact (h.held hx).1

theorem Stamped.held (h : P.Stamped t x) : P.Held x := by
  obtain ⟨u, ⟨hx, _⟩ | ⟨F, hF, hx⟩⟩ := h
  · exact Or.inr ⟨u, Allocator.mem_slots.2 (Or.inl hx)⟩
  · exact Or.inr ⟨u, Allocator.mem_slots.2 (Or.inr (Or.inl ⟨F, hF, hx⟩))⟩

theorem Inv.repin (h : Inv tsList version avail pins P)
    (hp : ∀ t x, P.Held x → pins' t x → pins t x) (hf : ∀ x, P.Held x → avail x → avail' x) :
    Inv tsList version avail' pins' P where
  timed t := (h.timed t).repin fun u x hx => hp u x (Or.inr ⟨t, hx⟩)
  nodup := h.nodup
  apart := h.apart
  held {t x} hx := ⟨hf x (Or.inr ⟨t, hx⟩) (h.held hx).1, (h.held hx).2⟩
  fresh {x} hx := ⟨hf x (Or.inl hx) (h.fresh hx).1,
    fun t hpx => (h.fresh hx).2 t (hp t x (Or.inl hx) hpx)⟩

theorem Inv.tick (h : Inv tsList version avail pins P) (hu : ∀ x, pins u x → ¬ P.Stamped u x) :
    Inv tsList (tsNext version u) avail pins P where
  timed t := (h.timed t).tick fun x hp hs => hu x hp ⟨t, hs⟩
  nodup := h.nodup
  apart := h.apart
  held := h.held
  fresh := h.fresh

theorem setAllocator_self (P : Pool α) (t : Tid) (a : Allocator α) :
    (P.setAllocator t a).allocator t = a := Function.update_self _ _ _

theorem setAllocator_other (P : Pool α) (a : Allocator α) (h : u ≠ t) :
    (P.setAllocator t a).allocator u = P.allocator u := Function.update_of_ne h _ _

theorem Inv.setAllocator (h : Inv tsList version avail pins P)
    (ht : a.Timed tsList version pins) (hd : a.slots.Nodup)
    (hs : ∀ x ∈ a.slots, x ∈ (P.allocator t).slots ∨
      (avail x ∧ P.fresh x = false ∧ ∀ u, x ∉ (P.allocator u).slots)) :
    Inv tsList version avail pins (P.setAllocator t a) := by
  have hheld : ∀ x ∈ a.slots, avail x ∧ P.fresh x = false := by
    intro x hx
    rcases hs x hx with hx | ⟨h1, h2, _⟩
    · exact h.held hx
    · exact ⟨h1, h2⟩
  have hother : ∀ {u x}, u ≠ t → x ∈ a.slots → x ∉ (P.allocator u).slots := by
    intro u x hu hx hxu
    rcases hs x hx with hx | ⟨_, _, hx⟩
    · exact hu (h.apart hxu hx)
    · exact hx u hxu
  refine ⟨fun u => ?_, fun u => ?_, fun {u v x} hu hv => ?_, fun {u x} hu => ?_, h.fresh⟩
  · by_cases he : u = t
    · subst he
      rw [setAllocator_self]
      exact ht
    · rw [setAllocator_other P a he]
      exact h.timed u
  · by_cases he : u = t
    · subst he
      rw [setAllocator_self]
      exact hd
    · rw [setAllocator_other P a he]
      exact h.nodup u
  · by_cases he : u = t <;> by_cases he' : v = t
    · rw [he, he']
    · subst he
      rw [setAllocator_self] at hu
      rw [setAllocator_other P a he'] at hv
      exact absurd hv (hother he' hu)
    · subst he'
      rw [setAllocator_self] at hv
      rw [setAllocator_other P a he] at hu
      exact absurd hu (hother he hv)
    · rw [setAllocator_other P a he] at hu
      rw [setAllocator_other P a he'] at hv
      exact h.apart hu hv
  · by_cases he : u = t
    · subst he
      rw [setAllocator_self] at hu
      exact hheld x hu
    · rw [setAllocator_other P a he] at hu
      exact h.held hu

theorem Inv.collect (h : Inv tsList version avail pins P) (hc : P.collect version t = some P') :
    Inv tsList version avail pins P' := by
  obtain ⟨a, ha, rfl⟩ := Option.map_eq_some_iff.1 hc
  have hs := Allocator.slots_tsSetCollect ha
  exact h.setAllocator ((h.timed t).tsSetCollect ha) (hs ▸ h.nodup t) fun x hx => Or.inl (hs ▸ hx)

theorem Inv.free (h : Inv tsList version avail pins P) (hin : ∀ t x, pins t x → t ∈ tsList)
    (hx : avail x) (hn : ¬ P.Held x) (hf : P.free tsList t x = some P') :
    Inv tsList version avail pins P' := by
  obtain ⟨a, ha, rfl⟩ := Option.map_eq_some_iff.1 hf
  have hs := Allocator.perm_free ha
  have hno : ∀ u, x ∉ (P.allocator u).slots := fun u hu => hn (Or.inr ⟨u, hu⟩)
  refine h.setAllocator ((h.timed t).free hin ha).1
    (hs.nodup_iff.2 (List.nodup_cons.2 ⟨hno t, h.nodup t⟩)) fun y hy => ?_
  rcases List.mem_cons.1 (hs.mem_iff.1 hy) with rfl | hy
  · exact Or.inr ⟨hx, by simpa using fun he => hn (Or.inl he), hno⟩
  · exact Or.inl hy

theorem Inv.alloc [DecidableEq α] (h : Inv tsList version avail pins P) (ha : P.alloc t x = some P') :
    avail x ∧ (∀ u, ¬ pins u x) ∧ Inv tsList version (fun y => avail y ∧ y ≠ x) pins P' := by
  unfold Pool.alloc at ha
  split at ha
  · split at ha
    · next hfr =>
      obtain rfl := Option.some.inj ha
      refine ⟨(h.fresh hfr).1, (h.fresh hfr).2, h.timed, h.nodup, h.apart, ?_, ?_⟩
      · intro u y hy
        have hne : y ≠ x := by
          rintro rfl
          exact absurd ((h.held hy).2.symm.trans hfr) Bool.false_ne_true
        exact ⟨⟨(h.held hy).1, hne⟩, by simp [hne, (h.held hy).2]⟩
      · intro y hy
        have hne : y ≠ x := by
          rintro rfl
          simp at hy
        simp only [Function.update_of_ne hne] at hy
        exact ⟨⟨(h.fresh hy).1, hne⟩, (h.fresh hy).2⟩
    · cases ha
  · obtain ⟨⟨m, a⟩, hpop, hm⟩ := Option.bind_eq_some_iff.1 ha
    split at hm
    · next he =>
      obtain rfl : m = x := he
      obtain rfl := Option.some.inj hm
      have hperm := Allocator.perm_pop hpop
      have hm : m ∈ (P.allocator t).slots := hperm.mem_iff.2 (List.mem_cons_self)
      have hnd := hperm.nodup_iff.1 (h.nodup t)
      rw [List.nodup_cons] at hnd
      obtain ⟨htimed, hpin⟩ := (h.timed t).pop hpop
      have hinv : Inv tsList version avail pins (P.setAllocator t a) :=
        h.setAllocator htimed hnd.2
          fun y hy => Or.inl (hperm.mem_iff.2 (List.mem_cons_of_mem _ hy))
      refine ⟨(h.held hm).1, hpin, hinv.repin (fun _ _ _ hp => hp) fun y hy hf => ⟨hf, ?_⟩⟩
      rintro rfl
      rcases hy with hy | ⟨u, hy⟩
      · exact absurd ((h.held hm).2.symm.trans hy) Bool.false_ne_true
      · by_cases he : u = t
        · subst he
          rw [setAllocator_self] at hy
          exact hnd.1 hy
        · rw [setAllocator_other P a he] at hy
          exact he (h.apart hy hm)
    · cases hm

theorem Inv.stamped_free (h : Inv tsList version avail pins P)
    (hin : ∀ t x, pins t x → t ∈ tsList) (hu : u ∈ tsList) (hf : P.free tsList t x = some P')
    (hs : P'.Stamped u m) : P.Stamped u m := by
  obtain ⟨a, ha, rfl⟩ := Option.map_eq_some_iff.1 hf
  obtain ⟨v, hs⟩ := hs
  by_cases he : v = t
  · subst he
    rw [setAllocator_self] at hs
    rcases hs with ⟨_, hs⟩ | ⟨F, hF, hm⟩
    · rw [((h.timed v).free hin ha).2] at hs
      exact absurd hu hs
    · exact ⟨v, Allocator.stamped_of_free ha hF hm⟩
  · rw [setAllocator_other P a he] at hs
    exact ⟨v, hs⟩

theorem Inv.keep_step (h : Inv tsList version avail pins P) (hA : ∀ y, avail y → avail' y)
    (hp : ∀ u y, avail' y → pins' u y → pins u y) : Inv tsList version avail' pins' P :=
  h.repin (fun u y hy => hp u y (hA y (h.avail_of_held hy))) fun y _ => hA y

theorem Inv.alloc_step [DecidableEq α] (h : Inv tsList version avail pins P)
    (ha : P.alloc t x = some P') (hA : ∀ y, avail y → y ≠ x → avail' y)
    (hp : ∀ u y, avail' y → pins' u y → pins u y) : Inv tsList version avail' pins' P' :=
  (h.alloc ha).2.2.keep_step (fun y hy => hA y hy.1 hy.2) hp

theorem Inv.free_step (h : Inv tsList version avail pins P) (hf : P.free tsList t x = some P')
    (ht : t ∈ tsList) (hin : ∀ u y, pins' u y → u ∈ tsList) (hx : ¬ avail x) (hx' : avail' x)
    (hA : ∀ y, avail y → avail' y) (hp : ∀ u y, avail' y → pins' u y → pins u y)
    (hs : ∀ y, pins' t y → ¬ P.Stamped t y) :
    Inv tsList (tsNext version t) avail' pins' P' := by
  have h1 : Inv tsList version avail' pins' P := h.keep_step hA hp
  have h2 := h1.free hin hx' (fun hheld => hx (h.avail_of_held hheld)) hf
  exact h2.tick fun y hy hst => hs y hy (h1.stamped_free hin ht hf hst)

theorem inv_init {fsSize : Tid → ℕ} {fr : α → Bool} (hf : ∀ x, fr x = true → avail x)
    (hp : ∀ x, fr x = true → ∀ t, ¬ pins t x) :
    Inv tsList version avail pins (Pool.init tsList fsSize fr) := by
  have hs : ∀ t, ((Pool.init tsList fsSize fr).allocator t).slots = [] := fun _ => rfl
  refine ⟨fun t => ⟨fun _ => rfl, fun _ ht hn => absurd ht hn, fun _ _ => nofun, List.Pairwise.nil,
    fun _ ht hn => absurd ht hn, fun _ _ => nofun, nofun⟩, fun t => ?_, fun {t u x} h => ?_,
    fun {t x} h => ?_, fun {x} h => ⟨hf x h, hp x h⟩⟩
  · rw [hs]
    exact List.nodup_nil
  · rw [hs] at h
    cases h
  · rw [hs] at h
    cases h

end Pool

end Ssmem
