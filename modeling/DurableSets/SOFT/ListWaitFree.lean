import DurableSets.Core.Cost
import DurableSets.Core.Sequential
import DurableSets.SOFT.ListHelp
import DurableSets.SOFT.ListProgress
import DurableSets.SOFT.ListSchedule

namespace SOFT.List

variable {V : Type} {σ σ' : Store V} {x n : Loc} {slot : ℕ} {q : Ptr} {op : SetOp V} {pc pc' : Pc}
  {lo : ℤ} {ρ : Run (machine V)} {m : ℕ} {t : Tid}

-- every key that the calls bring, and so every key in memory, is at least lo
structure From (lo : ℤ) (s : State V) : Prop where
  node : ∀ {x}, x ≠ head → lo ≤ (s.store.node x).key
  call : ∀ {t op pc}, s.thread t = some (op, pc) → lo ≤ op.key

theorem from_run (h0 : lo ≤ 0) (h : ρ.KeysFrom lo) : ∀ m ≤ ρ.length, From lo (ρ.state m) := by
  refine Run.stepwise ?_ fun m hm ih => ?_
  · obtain ⟨zero, h⟩ := ρ.init
    rw [h]
    refine ⟨fun {x} hx => ?_, fun h => by cases h⟩
    simp only [initial, initialStore, if_neg hx]
    split
    · exact h0.trans (show (0 : ℤ) ≤ INT_MAX by decide)
    · exact h0
  · have hs := ρ.step hm
    generalize he : ρ.event m = e at hs
    generalize ρ.state (m + 1) = s' at hs
    have thread : ∀ {σ a u}, (∀ op pc, a = some (op, pc) → lo ≤ op.key) →
        ∀ {t op pc}, ((ρ.state m).goto σ u a).thread t = some (op, pc) → lo ≤ op.key := by
      intro σ a u ha t op pc ht
      by_cases hu : t = u
      · subst hu
        exact ha op pc ((goto_thread_self _ _ _ _).symm.trans ht)
      · exact ih.call ((goto_thread_other _ _ _ hu).symm.trans ht)
    cases hs with
    | call t op idle hk =>
      refine ⟨ih.node, thread fun op1 pc1 h1 => ?_⟩
      obtain ⟨rfl, _⟩ := Prod.mk.inj (Option.some.inj h1)
      exact h m t op hm he
    | ret t op r ht => exact ⟨ih.node, thread fun op1 pc1 h1 => by cases h1⟩
    | tau t op pc pc' slot σ ht hn hp ha =>
      refine ⟨fun {x} hx => ?_, thread fun op1 pc1 h1 => ?_⟩
      · rcases (stores_next hn).key x with h | h
        · exact (ih.node hx).trans h.ge
        · exact (ih.call ht).trans h.ge
      · obtain ⟨rfl, _⟩ := Prod.mk.inj (Option.some.inj h1)
        exact ih.call ht

def Pc.Walked (σ : Store V) (lo : ℤ) (op : SetOp V) : Pc → ℕ → Prop
  | .containsHead, k => k = 0
  | .containsWalk c, k => c ≠ head ∧ k ≤ (min (σ.node c).key op.key - lo).toNat + 1
  | .ret _, k => k ≤ (op.key - lo).toNat + 2
  | _, _ => True

theorem key_run (hm : m < ρ.length) (hx : (ρ.state m).store.heap.Live (ρ.state m).roots x)
    (hh : x ≠ head) : ((ρ.state (m + 1)).store.node x).key = ((ρ.state m).store.node x).key := by
  have h : rank (ρ.state (m + 1)).store x = rank (ρ.state m).store x := (change_run ρ hm).rank hx
  rw [rank_of_ne _ hh, rank_of_ne _ hh] at h
  exact WithBot.coe_injective h

theorem metered_walk (h0 : lo ≤ 0) (h : ρ.KeysFrom lo) : ρ.Metered (fun _ => 1)
    fun n op pc k => op.IsContains → pc.Walked (ρ.state n).store lo op k where
  call {n t op pc} hn he ht hc := by
    have hs := ρ.step hn
    rw [he] at hs
    obtain ⟨rfl, _, _⟩ := call_inv hs ht
    cases op with
    | contains k => rfl
    | insert k v => exact hc.elim
    | remove k => exact hc.elim
  own {n t op pc pc' k} hn he ht ht' hk hc := by
    have hs := ρ.step hn
    rw [he] at hs
    obtain ⟨slot, σ, hn', _, _, _⟩ := tau_inv hs ht ht'
    have hm := (inv_run ρ n hn.le).mem
    have f := (inv_run ρ n hn.le).fit ht
    have hf := f.fits
    have hi : ¬ op.IsInsert := fun h => h.not_contains hc
    have hr : ¬ op.IsRemove := fun h => h.not_contains hc
    have hk := hk hc
    cases flow_of_next hn' with
    | containsHead hs =>
      obtain rfl : k = 0 := hk
      exact ⟨hm.chain.succ_ne_head hm.chain.head_live hs, Nat.le_add_left 1 _⟩
    | @containsNext c e lt hs =>
      obtain ⟨hh, hk⟩ := hk
      have hcl := f.refs c (by simp [Pc.refs])
      have heh := hm.chain.succ_ne_head hcl hs
      have hlt : rank (ρ.state n).store c < rank (ρ.state n).store e := hm.chain.ordered hcl hs
      rw [rank_of_ne _ hh, rank_of_ne _ heh] at hlt
      have hlt := WithBot.coe_lt_coe.1 hlt
      have hlo := (from_run h0 h n hn.le).node hh
      refine ⟨heh, ?_⟩
      rw [key_run hn (hcl.succ hs) heh]
      rw [min_eq_left lt.le] at hk
      have : ((ρ.state n).store.node c).key + 1 ≤ min ((ρ.state n).store.node e).key op.key :=
        le_min hlt lt
      omega
    | containsStop le =>
      obtain ⟨_, hk⟩ := hk
      rw [min_eq_right le] at hk
      exact Nat.succ_le_succ hk
    | @trimLost t d n st q => cases t <;> first | exact absurd hc hf | exact absurd hf hr
    | @trimFree t d n st => cases t <;> first | exact absurd hc hf | exact absurd hf hr
    | _ => first | exact absurd hf hi | exact absurd hf hr | exact absurd hc hf | trivial
  other {n t op pc k} hn hne ht hk hc := by
    have f := (inv_run ρ n hn.le).fit ht
    have hk := hk hc
    cases pc with
    | containsWalk c =>
      obtain ⟨hh, hk⟩ := hk
      refine ⟨hh, ?_⟩
      rwa [key_run hn (f.refs c (by simp [Pc.refs])) hh]
    | _ => exact hk

theorem walked_le {k : ℕ} (hf : pc.Fits op) (hc : op.IsContains) (h : pc.Walked σ lo op k) :
    k ≤ (op.key - lo).toNat + 2 := by
  have hi : ¬ op.IsInsert := fun h => h.not_contains hc
  have hr : ¬ op.IsRemove := fun h => h.not_contains hc
  cases pc with
  | containsHead => exact h.trans_le (Nat.zero_le _)
  | containsWalk c =>
    have := min_le_right (σ.node c).key op.key
    have := h.2
    omega
  | ret r => exact h
  | trimLoad c _ _ _ | trimCas c _ _ _ _ | trimFree c _ _ _ =>
    cases c <;> first | exact absurd hc hf | exact absurd hf hr
  | _ => first | exact absurd hf hi | exact absurd hf hr | exact absurd hc hf

theorem softList_contains_waitFree (ρ : Run (machine V)) (lo : ℤ) (h0 : lo ≤ 0)
    (h : ρ.KeysFrom lo) : ρ.WaitFree SetOp.IsContains fun op => (op.key - lo).toNat + 2 := by
  intro t op i n hn ha hc
  obtain ⟨pc, ht⟩ := ha.thread hn
  have sane : Sane (ρ.state n) := ⟨inv_run ρ n hn, bounded_run ρ n hn⟩
  refine ⟨walked_le ((inv_run ρ n hn).fit ht).fits hc ((metered_walk h0 h).paid hn ha ht hc), ?_⟩
  rcases sane.can t with h | h
  · exact absurd (h.symm.trans ht) nofun
  · exact h

def Command.atLeast (lo : ℤ) : Command V → Bool
  | .call _ op => lo ≤ op.key
  | _ => true

theorem exec_atLeast {s s' : State V} {c : Command V} {e : Event (SetOp V)}
    (h : exec s c = some (e, s')) (hc : c.atLeast lo = true) : ∀ t op, e = .call t op → lo ≤ op.key := by
  rintro t op rfl
  cases c with
  | call u op1 =>
    simp only [exec] at h
    split at h
    · obtain ⟨rfl, rfl⟩ := Event.call.inj (Prod.mk.inj (Option.some.inj h)).1
      exact of_decide_eq_true hc
    · cases h
  | ret u =>
    simp only [exec] at h
    split at h <;> cases h
  | step u slot =>
    simp only [exec] at h
    split at h
    · obtain ⟨c, _, h⟩ := Option.bind_eq_some_iff.1 h
      obtain ⟨r, _, h⟩ := Option.map_eq_some_iff.1 h
      cases h
    · cases h

-- a contains(7) has passed the nodes of -3 and 2 while the nodes of 4 and -4 were linked
def walking : List (Command ℕ) :=
  [alone 0 (.insert (-3) 30) 17 2, alone 0 (.insert 2 20) 18 3, [.call 1 (.contains 7)],
    steps 1 2 0, alone 0 (.insert 4 40) 19 4, alone 0 (.insert (-4) 50) 17 5, steps 1 1 0].flatten

theorem softList_contains_waitFree_walking : ∃ (ρ : Run (machine ℕ)) (i : ℕ),
    ρ.Active 1 (.contains 7) i ρ.length ∧
    (ρ.state ρ.length).thread 1 = some (.contains 7, .containsWalk 4) ∧
    ((ρ.state ρ.length).store.node 4).key = 4 ∧ ρ.spent (fun _ => 1) 1 i ρ.length ≤ 13 ∧
    ρ.WaitFree SetOp.IsContains fun op => (op.key - -4).toNat + 2 := by
  obtain ⟨ρ, hρ, _⟩ := exists_play 0 walking (by decide +kernel)
  have last := hρ.last (P := fun s => decide (s.thread 1 =
    some (.contains 7, .containsWalk 4)) && decide ((s.store.node 4).key = 4)) (by decide +kernel)
  rw [Bool.and_eq_true, decide_eq_true_eq, decide_eq_true_eq] at last
  have keys : ρ.KeysFrom (-4) := fun n t op hn => by
    rw [hρ.length] at hn
    exact hρ.stretch exec_atLeast le_rfl (by decide +kernel) (Nat.zero_le n) hn t op
  have waitFree := softList_contains_waitFree ρ (-4) (by decide) keys
  obtain ⟨i, ha⟩ := ρ.active_of_thread le_rfl last.1
  exact ⟨ρ, i, ha, last.1, last.2, (waitFree 1 _ i _ le_rfl ha trivial).1, waitFree⟩

end SOFT.List
