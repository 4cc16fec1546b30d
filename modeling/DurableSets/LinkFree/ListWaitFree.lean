import DurableSets.Core.Cost
import DurableSets.Core.Sequential
import DurableSets.LinkFree.ListHistory
import DurableSets.LinkFree.ListProgress
import DurableSets.LinkFree.ListSchedule

namespace LinkFree.List

variable {V : Type} {σ σ' : Store V} {x n : Loc} {slot : Loc} {op : SetOp V} {pc pc' : Pc}
  {lo : ℤ} {ρ : Run (machine V)} {m k : ℕ} {t : Tid}

-- every key that the calls bring, and so every key in memory, is at least lo
structure From (lo : ℤ) (s : State V) : Prop where
  node : ∀ {x}, x ≠ head → lo ≤ (s.store.node x).key
  call : ∀ {t op pc}, s.thread t = some (op, pc) → lo ≤ op.key

theorem from_run (h0 : lo ≤ 0) (h : ρ.KeysFrom lo) : ∀ m ≤ ρ.length, From lo (ρ.state m) := by
  refine Run.stepwise ?_ fun m hm ih => ?_
  · obtain ⟨zero, junk, h⟩ := ρ.init
    rw [h]
    refine ⟨fun {x} hx => ?_, fun h => by cases h⟩
    simp only [initial, initialStore, Store.node, if_neg hx]
    split
    · exact h0.trans (show (0 : ℤ) ≤ INT_MAX by decide)
    · exact h0
  · have hs := ρ.step hm
    generalize he : ρ.event m = e at hs
    generalize ρ.state (m + 1) = s' at hs
    have thread : ∀ {σ a u}, (∀ op pc, a = some (op, pc) → lo ≤ op.key) →
        ∀ {t op pc}, ((ρ.state m).goto σ u a).thread t = some (op, pc) → lo ≤ op.key := by
      intro σ a u ha t op pc ht
      by_cases hu : t = u
      · subst hu
        exact ha op pc ((goto_thread_self _ _ _ _).symm.trans ht)
      · exact ih.call ((goto_thread_other _ _ _ hu).symm.trans ht)
    cases hs with
    | call t op idle hk =>
      refine ⟨ih.node, thread fun op1 pc1 h1 => ?_⟩
      obtain ⟨rfl, _⟩ := Prod.mk.inj (Option.some.inj h1)
      exact h m t op hm he
    | ret t op r n ht => exact ⟨ih.node, thread fun op1 pc1 h1 => by cases h1⟩
    | tau t op pc pc' slot σ ht hn hs =>
      refine ⟨fun {x} hx => ?_, thread fun op1 pc1 h1 => ?_⟩
      · rcases (stores_next hn).key x with h | h
        · exact (ih.node hx).trans h.ge
        · exact (ih.call ht).trans h.ge
      · obtain ⟨rfl, _⟩ := Prod.mk.inj (Option.some.inj h1)
        exact ih.call ht

theorem key_run (hm : m < ρ.length) (hx : (ρ.state m).store.heap.Live (ρ.state m).roots x)
    (hh : x ≠ head) : ((ρ.state (m + 1)).store.node x).key = ((ρ.state m).store.node x).key := by
  have h : rank (ρ.state (m + 1)).store x = rank (ρ.state m).store x := (change_run ρ hm).rank hx
  rw [rank_of_ne _ hh, rank_of_ne _ hh] at h
  exact WithBot.coe_injective h

inductive Reads (σ : Store V) (op : SetOp V) : Pc → Pc → Prop
  | first {c : Loc} (h : σ.heap.succ head = some c) : Reads σ op .containsHead (.containsWalk c)
  | go {c e : Loc} (lt : (σ.node c).key < op.key) (h : σ.heap.succ c = some e) :
    Reads σ op (.containsWalk c) (.containsWalk e)
  | absent {c : Loc} (le : op.key ≤ (σ.node c).key) : Reads σ op (.containsWalk c) (.ret false c)
  | marked {c : Loc} (le : op.key ≤ (σ.node c).key) :
    Reads σ op (.containsWalk c) (.deleteLoad .contains c)
  | found {c : Loc} (le : op.key ≤ (σ.node c).key) :
    Reads σ op (.containsWalk c) (.validLoad .contains c)
  | deleteSkip {n : Loc} : Reads σ op (.deleteLoad .contains n) (.ret false n)
  | deleteLoad {n : Loc} : Reads σ op (.deleteLoad .contains n) (.deleteFlush .contains n)
  | deleteFlush {n : Loc} : Reads σ op (.deleteFlush .contains n) (.deleteStore .contains n)
  | deleteStore {n : Loc} : Reads σ op (.deleteStore .contains n) (.ret false n)
  | validSkip {n : Loc} : Reads σ op (.validLoad .contains n) (.insertLoad true n)
  | validLoad {n : Loc} {old : Uchar} :
    Reads σ op (.validLoad .contains n) (.validStore .contains n old)
  | validStore {n : Loc} {old : Uchar} :
    Reads σ op (.validStore .contains n old) (.insertLoad true n)
  | insertSkip {r : Bool} {n : Loc} : Reads σ op (.insertLoad r n) (.ret r n)
  | insertLoad {r : Bool} {n : Loc} : Reads σ op (.insertLoad r n) (.insertFlush r n)
  | insertFlush {r : Bool} {n : Loc} : Reads σ op (.insertFlush r n) (.insertStore r n)
  | insertStore {r : Bool} {n : Loc} : Reads σ op (.insertStore r n) (.ret r n)

theorem reads_of_next (hc : op.IsContains) (hf : pc.Fits op)
    (hn : next σ op slot pc = some (σ', pc')) : Reads σ op pc pc' := by
  have hi : ¬ op.IsInsert := fun h => h.not_contains hc
  have hr : ¬ op.IsRemove := fun h => h.not_contains hc
  have trim : ∀ {c : TrimCtx}, ¬ c.Fits op := by
    intro c h
    cases c with
    | inFind => exact h hc
    | inRemove => exact hr h
  cases pc with
  | containsHead =>
    simp only [next] at hn
    split at hn
    · next c hs =>
      obtain ⟨rfl, rfl⟩ := Prod.mk.inj (Option.some.inj hn)
      exact .first (congrArg Ptr.ref hs)
    · cases hn
  | containsWalk c =>
    simp only [next] at hn
    split at hn
    · next lt =>
      obtain ⟨e, he, h⟩ := Option.map_eq_some_iff.1 hn
      obtain ⟨rfl, rfl⟩ := Prod.mk.inj h
      exact .go lt he
    · next le =>
      split at hn
      · obtain ⟨rfl, rfl⟩ := Prod.mk.inj (Option.some.inj hn)
        exact .absent (not_lt.1 le)
      · split at hn <;> obtain ⟨rfl, rfl⟩ := Prod.mk.inj (Option.some.inj hn)
        · exact .marked (not_lt.1 le)
        · exact .found (not_lt.1 le)
  | deleteLoad c n =>
    cases c with
    | trim c p => exact absurd hf trim
    | contains =>
      simp only [next] at hn
      split at hn <;> obtain ⟨rfl, rfl⟩ := Prod.mk.inj (Option.some.inj hn)
      · exact .deleteSkip
      · exact .deleteLoad
  | deleteFlush c n =>
    cases c with
    | trim c p => exact absurd hf trim
    | contains =>
      obtain ⟨rfl, rfl⟩ := Prod.mk.inj (Option.some.inj hn)
      exact .deleteFlush
  | deleteStore c n =>
    cases c with
    | trim c p => exact absurd hf trim
    | contains =>
      obtain ⟨rfl, rfl⟩ := Prod.mk.inj (Option.some.inj hn)
      exact .deleteStore
  | validLoad c n =>
    cases c with
    | contains =>
      simp only [next] at hn
      split at hn <;> obtain ⟨rfl, rfl⟩ := Prod.mk.inj (Option.some.inj hn)
      · exact .validSkip
      · exact .validLoad
    | removing p q => exact absurd hf hr
    | _ => exact absurd hf hi
  | validStore c n old =>
    cases c with
    | contains =>
      obtain ⟨rfl, rfl⟩ := Prod.mk.inj (Option.some.inj hn)
      exact .validStore
    | removing p q => exact absurd hf hr
    | _ => exact absurd hf hi
  | insertLoad r n =>
    simp only [next] at hn
    split at hn <;> obtain ⟨rfl, rfl⟩ := Prod.mk.inj (Option.some.inj hn)
    · exact .insertSkip
    · exact .insertLoad
  | insertFlush r n =>
    obtain ⟨rfl, rfl⟩ := Prod.mk.inj (Option.some.inj hn)
    exact .insertFlush
  | insertStore r n =>
    obtain ⟨rfl, rfl⟩ := Prod.mk.inj (Option.some.inj hn)
    exact .insertStore
  | ret r n => cases hn
  | trimLoad c p n | trimCas c p n q | trimFree c p n => exact absurd hf trim
  | _ => first | exact absurd hf hi | exact absurd hf hr | exact absurd hc hf

def Pc.late : Pc → ℕ
  | .deleteFlush _ _ => 1
  | .deleteStore _ _ => 2
  | .validStore _ _ _ => 1
  | .insertLoad _ _ => 2
  | .insertFlush _ _ => 3
  | .insertStore _ _ => 4
  | .ret _ _ => 5
  | _ => 0

theorem Pc.late_le (pc : Pc) : pc.late ≤ 5 := by
  cases pc <;> simp [Pc.late]

def Pc.Walked (σ : Store V) (lo : ℤ) (op : SetOp V) : Pc → ℕ → Prop
  | .containsHead, k => k = 0
  | .containsWalk c, k => c ≠ head ∧ k ≤ (min (σ.node c).key op.key - lo).toNat + 1
  | pc, k => k ≤ (op.key - lo).toNat + 2 + pc.late

theorem walked_le (h : pc.Walked σ lo op k) : k ≤ (op.key - lo).toNat + 7 := by
  cases pc with
  | containsHead => exact h.trans_le (Nat.zero_le _)
  | containsWalk c =>
    have := min_le_right (σ.node c).key op.key
    have := h.2
    omega
  | _ => exact le_trans h (Nat.add_le_add_left (Pc.late_le _) _)

theorem Reads.walked (h : Reads (ρ.state m).store op pc pc') (hm : m < ρ.length)
    (f : Fit (ρ.state m).store (ρ.state m).roots op pc)
    (low : ∀ x, x ≠ head → lo ≤ ((ρ.state m).store.node x).key)
    (hk : pc.Walked (ρ.state m).store lo op k) :
    pc'.Walked (ρ.state (m + 1)).store lo op (k + 1) := by
  have hi := (inv_run ρ m hm.le).mem
  have stop : ∀ {c k}, op.key ≤ ((ρ.state m).store.node c).key →
      k ≤ (min ((ρ.state m).store.node c).key op.key - lo).toNat + 1 →
      k + 1 ≤ (op.key - lo).toNat + 2 := by
    intro c k le hk
    rw [min_eq_right le] at hk
    exact Nat.succ_le_succ hk
  cases h with
  | first hs =>
    obtain rfl : k = 0 := hk
    exact ⟨hi.succ_ne_head hi.head_live hs, Nat.le_add_left 1 _⟩
  | @go c e lt hs =>
    obtain ⟨hh, hk⟩ := hk
    have hcl := f.refs c (by simp [Pc.refs])
    have heh := hi.succ_ne_head hcl hs
    have hlt : rank (ρ.state m).store c < rank (ρ.state m).store e := hi.ordered hcl hs
    rw [rank_of_ne _ hh, rank_of_ne _ heh] at hlt
    have hlt := WithBot.coe_lt_coe.1 hlt
    have hlo := low c hh
    refine ⟨heh, ?_⟩
    rw [key_run hm (hcl.succ hs) heh]
    rw [min_eq_left lt.le] at hk
    have : ((ρ.state m).store.node c).key + 1 ≤ min ((ρ.state m).store.node e).key op.key :=
      le_min hlt lt
    omega
  | absent le => exact (stop le hk.2).trans (Nat.le_add_right _ _)
  | marked le => exact stop le hk.2
  | found le => exact stop le hk.2
  | _ =>
    simp only [Pc.Walked, Pc.late] at hk ⊢
    omega

theorem metered_walk (h0 : lo ≤ 0) (h : ρ.KeysFrom lo) : ρ.Metered (fun _ => 1)
    fun n op pc k => op.IsContains → pc.Walked (ρ.state n).store lo op k where
  call {n t op pc} hn he ht hc := by
    have hs := ρ.step hn
    rw [he] at hs
    obtain ⟨rfl, _, _⟩ := call_inv hs ht
    cases op with
    | contains k => rfl
    | insert k v => exact hc.elim
    | remove k => exact hc.elim
  own {n t op pc pc' k} hn he ht ht' hk hc := by
    have hs := ρ.step hn
    rw [he] at hs
    obtain ⟨slot, σ, hn', _, _⟩ := tau_inv hs ht ht'
    have f := (inv_run ρ n hn.le).fit ht
    exact (reads_of_next hc f.fits hn').walked hn f
      (fun x hx => (from_run h0 h n hn.le).node hx) (hk hc)
  other {n t op pc k} hn hne ht hk hc := by
    have f := (inv_run ρ n hn.le).fit ht
    have hk := hk hc
    cases pc with
    | containsWalk c =>
      obtain ⟨hh, hk⟩ := hk
      refine ⟨hh, ?_⟩
      rwa [key_run hn (f.refs c (by simp [Pc.refs])) hh]
    | _ => exact hk

def Pc.flushes : Pc → ℕ
  | .deleteFlush _ _ => 1
  | .insertFlush _ _ => 1
  | _ => 0

def Pc.flushed : Pc → ℕ
  | .deleteStore _ _ => 1
  | .insertStore _ _ => 1
  | .ret _ _ => 1
  | _ => 0

theorem Reads.flushed (h : Reads σ op pc pc') : pc.flushes + pc.flushed ≤ pc'.flushed := by
  cases h <;> simp [Pc.flushes, Pc.flushed]

theorem Pc.flushed_le (pc : Pc) : pc.flushed ≤ 1 := by
  cases pc <;> simp [Pc.flushed]

theorem metered_flushes (ρ : Run (machine V)) : ρ.Metered Pc.flushes
    fun _ op pc k => op.IsContains → k ≤ pc.flushed where
  call _ _ _ _ := Nat.zero_le _
  own {n t op pc pc' k} hn he ht ht' hk hc := by
    have hs := ρ.step hn
    rw [he] at hs
    obtain ⟨slot, σ, hn', _, _⟩ := tau_inv hs ht ht'
    have hr := (reads_of_next hc ((inv_run ρ n hn.le).fit ht).fits hn').flushed
    exact (Nat.add_le_add_right (hk hc) _).trans ((Nat.add_comm _ _).trans_le hr)
  other _ _ _ hk := hk

theorem linkFreeList_contains_waitFree (ρ : Run (machine V)) (lo : ℤ) (h0 : lo ≤ 0)
    (h : ρ.KeysFrom lo) : ρ.WaitFree SetOp.IsContains (fun op => (op.key - lo).toNat + 7) ∧
      ρ.Priced Pc.flushes (fun op k => op.IsContains → k ≤ 1)
        fun op _ k => op.IsContains → k ≤ 1 := by
  constructor
  · intro t op i n hn ha hc
    obtain ⟨pc, ht⟩ := ha.thread hn
    have sane : Sane (ρ.state n) := ⟨inv_run ρ n hn, bounded_run ρ n hn⟩
    refine ⟨walked_le ((metered_walk h0 h).paid hn ha ht hc), ?_⟩
    rcases sane.can t with h | h
    · exact absurd (h.symm.trans ht) nofun
    · exact h
  · exact (metered_flushes ρ).priced (fun _ _ hk hc => (hk hc).trans (Pc.flushed_le _))
      fun _ _ _ hk hc => (hk hc).trans (Pc.flushed_le _)

section Helping

open Reuse

def Reuse.Command.atLeast (lo : ℤ) : Command V → Bool
  | .call _ op => lo ≤ op.key
  | _ => true

theorem event_atLeast {s s' : State V} {c : Command V} {e : Event (SetOp V)}
    (h : cleanExec s c = some (e, s')) (hc : c.atLeast lo = true) :
    ∀ t op, e = .call t op → lo ≤ op.key := by
  rintro t op rfl
  have he := exec_event (exec_of_cleanExec h)
  cases c with
  | call u op1 =>
    obtain ⟨rfl, rfl⟩ := Event.call.inj (Option.some.inj he)
    exact of_decide_eq_true hc
  | ret u =>
    simp only [Command.event] at he
    split at he <;> cases he
  | _ => cases he

-- a contains(7) has passed the node of -3 and that of 4, which was linked in front of it, and has
-- flushed the node of 7 for an insert that has stopped before it
def helping : List (Command ℕ) :=
  [inserts 0 (-3) 30 2 0, [.call 2 (.insert 7 70)], steps 2 4, [.alloc 2 3], steps 2 8,
    [.call 1 (.contains 7)], steps 1 1, inserts 0 4 40 4 1, inserts 0 (-4) 50 5 0,
    steps 1 7].flatten

theorem linkFreeList_contains_waitFree_helping : ∃ (ρ : Run (machine ℕ)) (i : ℕ),
    ρ.Active 1 (.contains 7) i ρ.length ∧
    (ρ.state ρ.length).thread 1 = some (.contains 7, .insertStore true 3) ∧
    (ρ.state ρ.length).thread 2 = some (.insert 7 70, .validLoad .linked 3) ∧
    ρ.spent (fun _ => 1) 1 i ρ.length ≤ 18 ∧ ρ.spent Pc.flushes 1 i ρ.length ≤ 1 ∧
    ρ.WaitFree SetOp.IsContains (fun op => (op.key - -4).toNat + 7) ∧
    ρ.Priced Pc.flushes (fun op k => op.IsContains → k ≤ 1) fun op _ k => op.IsContains → k ≤ 1 := by
  obtain ⟨ρ, hρ, _⟩ := exists_clean_play 0 helping (by decide +kernel)
  have last := hρ.last (P := fun s =>
    decide (s.thread 1 = some (.contains 7, .insertStore true 3)) &&
    decide (s.thread 2 = some (.insert 7 70, .validLoad .linked 3))) (by decide +kernel)
  rw [Bool.and_eq_true, decide_eq_true_eq, decide_eq_true_eq] at last
  have keys : ρ.KeysFrom (-4) := fun n t op hn => by
    rw [hρ.length] at hn
    exact hρ.stretch event_atLeast le_rfl (by decide +kernel) (Nat.zero_le n) hn t op
  obtain ⟨waitFree, priced⟩ := linkFreeList_contains_waitFree ρ (-4) (by decide) keys
  obtain ⟨i, ha⟩ := ρ.active_of_thread le_rfl last.1
  exact ⟨ρ, i, ha, last.1, last.2, (waitFree 1 _ i _ le_rfl ha trivial).1,
    priced.active le_rfl ha trivial, waitFree, priced⟩

end Helping

end LinkFree.List
