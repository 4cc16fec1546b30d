import DurableSets.Core.Undo
import DurableSets.LinkFree.ListCrash

/-! The list is durably linearizable: a crash may undo the last change of a key, when the call
that made it has not returned and no call that has returned depends on it. -/

namespace LinkFree.List

open Chain Relation

variable {V : Type} {σ σ' : Store V} {x n slot : Loc} {op : SetOp V} {pc : Pc} {k : ℤ}
  {ρ : Run (machine V)} {lin : ℕ → Option ℕ} {i j l m : ℕ} {t : Tid} {r : Bool}

theorem linearization_run (ρ : Run (machine V)) : ∃ lin, ρ.Linearization State.abs lin ∧
    ∀ {i m}, lin i = some m → ρ.Flip State.done i m := by
  refine Run.linearization_of State.done ?_ ?_ ?_ answer_ret
  · obtain ⟨zero, junk, h⟩ := ρ.init
    rw [h]
    exact initial_abs zero junk
  · exact fun m hm => oneEffect_step (inv_run ρ m hm.le) (ρ.step hm)
  · intro n t op hn he hd
    have hs := ρ.step hn
    rw [he] at hs
    obtain ⟨op1, pc, ht, htook⟩ := hd
    obtain ⟨rfl, _, _⟩ := call_inv hs ht
    exact start_took htook

def Finds (op : SetOp V) (r : Bool) : Prop := op.IsInsert ∨ (op.IsContains ∧ r = true)

theorem finds_of_sawIn (h : op.SawIn r) : Finds op r := by
  cases op with
  | insert k v => exact Or.inl trivial
  | remove k => exact h.elim
  | contains k => exact Or.inr ⟨trivial, h⟩

theorem absent_of_sawOut (hc : ρ.Completed t op r i j) (h : op.SawOut r) :
    Absent ρ op.key i j := by
  obtain ⟨x, _, _, tr⟩ := ret_run ρ hc
  cases op with
  | insert k v => exact h.elim
  | remove k =>
    obtain rfl : r = false := h
    exact tr
  | contains k =>
    obtain rfl : r = false := h
    exact tr

theorem not_finds_remove (h : Finds op r) : ¬ op.IsRemove := by
  intro hr
  cases op with
  | remove k => exact h.elim id fun h => h.1
  | _ => exact hr

theorem afterDelete_finds {d : DeleteCtx} (hf : d.Fits op) (h : Finds op r) :
    afterDelete n d ≠ .ret r x := by
  cases d with
  | trim t p => exact Pc.noConfusion
  | contains =>
    intro he
    injection he with he _
    subst he
    cases op with
    | contains k => exact h.elim id fun h => Bool.false_ne_true h.2
    | _ => exact hf

theorem afterTrim_finds {p : Loc} {t : TrimCtx} (hf : t.Fits op) (h : Finds op r) :
    afterTrim p n t ≠ .ret r x := by
  cases t with
  | inFind => exact Pc.noConfusion
  | inRemove => exact fun _ => not_finds_remove h hf

theorem afterFind_finds {p c : Loc} (ha : afterFind σ p c op = some (.ret r n)) : ¬ Finds op r := by
  cases op with
  | insert k v =>
    simp only [afterFind] at ha
    split at ha <;> cases ha
  | remove k => exact fun h => not_finds_remove h trivial
  | contains k => cases ha

theorem ret_checks (hn : next σ op slot pc = some (σ', .ret r n)) (hf : pc.Fits op)
    (h : Finds op r) : pc = .insertLoad r n ∨ pc = .insertStore r n := by
  cases pc with
  | findTest p c =>
    simp only [next] at hn
    split at hn
    · cases hn
    · split at hn
      · obtain ⟨q, ha, he⟩ := Option.map_eq_some_iff.1 hn
        obtain ⟨_, rfl⟩ := Prod.mk.inj he
        exact absurd h (afterFind_finds ha)
      · cases hn
  | findNext p c =>
    simp only [next] at hn
    obtain ⟨d, _, he⟩ := Option.map_eq_some_iff.1 hn
    cases he
  | deleteLoad d m =>
    simp only [next] at hn
    split at hn
    · exact absurd (Prod.mk.inj (Option.some.inj hn)).2 (afterDelete_finds hf h)
    · cases hn
  | deleteStore d m =>
    exact absurd (Prod.mk.inj (Option.some.inj hn)).2 (afterDelete_finds hf h)
  | trimCas t p m q =>
    simp only [next] at hn
    split at hn
    · cases hn
    · exact absurd (Prod.mk.inj (Option.some.inj hn)).2 (afterTrim_finds hf h)
  | trimFree t p m =>
    exact absurd (Prod.mk.inj (Option.some.inj hn)).2 (afterTrim_finds hf h)
  | validLoad d m =>
    simp only [next] at hn
    split at hn
    · cases d <;> cases hn
    · cases hn
  | validStore d m old =>
    simp only [next] at hn
    cases d <;> cases hn
  | insertLoad b m =>
    simp only [next] at hn
    split at hn <;> cases hn
    exact Or.inl rfl
  | insertStore b m =>
    obtain ⟨_, he⟩ := Prod.mk.inj (Option.some.inj hn)
    cases he
    exact Or.inr rfl
  | initValue p c m => cases op <;> cases hn
  | containsWalk c =>
    simp only [next] at hn
    split at hn
    · obtain ⟨d, _, he⟩ := Option.map_eq_some_iff.1 hn
      cases he
    · split at hn
      · obtain ⟨_, he⟩ := Prod.mk.inj (Option.some.inj hn)
        cases he
        cases op with
        | contains k => exact h.elim False.elim fun h => absurd h.2 Bool.false_ne_true
        | _ => exact hf.elim
      · split at hn <;> cases hn
  | _ =>
    simp only [next] at hn
    first
      | cases hn
      | (split at hn <;> cases hn)

theorem found_run (ρ : Run (machine V)) : ∀ m ≤ ρ.length, ∀ {t op pc},
    (ρ.state m).thread t = some (op, pc) → ∃ i, ρ.Active t op i m ∧
      ∀ r x, pc = .ret r x → Finds op r → ∃ b pc', i < b ∧ b ≤ m ∧
        (ρ.state b).thread t = some (op, pc') ∧ pc'.checks = some x ∧
        Found (heaps ρ) (op.key : WithBot ℤ) i b x := by
  refine ρ.active_inv (F := fun i m t op pc => ∀ r x, pc = .ret r x → Finds op r →
    ∃ b pc', i < b ∧ b ≤ m ∧ (ρ.state b).thread t = some (op, pc') ∧ pc'.checks = some x ∧
      Found (heaps ρ) (op.key : WithBot ℤ) i b x) ?_ ?_ ?_
  · rintro m t op pc hm he _ ht r x rfl _
    have hs := ρ.step hm
    rw [he] at hs
    obtain ⟨hst, _⟩ := call_inv hs ht
    cases op <;> cases hst
  · rintro i m t op pc pc' hm ha he ht ht' _ r x rfl hf
    have hs := ρ.step hm
    rw [he] at hs
    obtain ⟨slot, σ, hn, _, _⟩ := tau_inv hs ht ht'
    have hfit := ((inv_run ρ m hm.le).fit ht).fits
    obtain ⟨i', ha', _, tr⟩ := trail_run ρ m hm.le ht
    obtain ⟨rfl, _⟩ := ha'.unique ha
    refine ⟨m, pc, ha.lt, Nat.le_succ m, ht, ?_⟩
    rcases ret_checks hn hfit hf with rfl | rfl <;> exact ⟨rfl, tr⟩
  · rintro i m t op pc hm ha hne ht ht' h r x hpc hf
    obtain ⟨b, pc', h1, h2, h3⟩ := h r x hpc hf
    exact ⟨b, pc', h1, h2.trans (Nat.le_succ m), h3⟩

theorem chains_run (ρ : Run (machine V)) :
    Chains (heaps ρ) (fun m => (ρ.state m).roots) ρ.length :=
  ⟨fun _ hm => sorted_run ρ hm, fun _ hm => change_run ρ hm⟩

theorem mem_abs_run (ht : x ≠ tail) (hl : (heaps ρ ρ.length).Linked x)
    (hr : (heaps ρ ρ.length).rank x = (k : WithBot ℤ)) :
    ∀ m ≤ ρ.length, k ∈ (ρ.state m).abs ↔ Holds (heaps ρ m) (k : WithBot ℤ) := by
  have hi := (inv_run ρ ρ.length le_rfl).mem
  have hb : rank (ρ.state ρ.length).store x < INT_MAX :=
    hi.bounded (hi.good.live_of_linked hl) ht
  have hr : rank (ρ.state ρ.length).store x = (k : WithBot ℤ) := hr
  rw [hr] at hb
  intro m hm
  rw [(inv_run ρ m hm).mem.mem_abs]
  exact and_iff_right (WithBot.coe_lt_coe.1 hb)

section Undoable

variable {img : (ρ.state ρ.length).Image}

theorem insert_undoable (hlin : ρ.Linearization State.abs lin)
    (hflip : ∀ {i m}, lin i = some m → ρ.Flip State.done i m) (h : InsertPending ρ k) :
    ∃ l, k ∉ (ρ.state l).abs ∧ ρ.Undoable (fun m => (ρ.state m).abs) lin k l := by
  obtain ⟨x, t, v, i, l, hk, hd, hby, hend, hnone⟩ := h
  have hl := hby.lt
  have hh : x ≠ head := by
    rintro rfl
    exact hby.before (Heap.Reach.refl _)
  have ht : x ≠ tail := by
    rintro rfl
    exact hby.before (inv_run ρ l hl.le).mem.tail_linked
  have hr : rank (ρ.state ρ.length).store x = (k : WithBot ℤ) := by rw [rank_of_ne _ hh, hk]
  refine ⟨l, hlin.undo_link hflip done_congr (chains_run ρ)
    (mem_abs_run ht (hby.since ρ.length hl le_rfl) hr) hl hby.event hby.active hend rfl hr
    hby.before hby.since hd fun {u op r a j} hc hkey => ⟨(hnone hc).1 hkey, fun hs => ?_⟩⟩
  -- what a call found that returned after x was linked, it had found before
  subst hkey
  obtain ⟨y, hu, _⟩ := ret_run ρ hc
  obtain ⟨a', hact, hb⟩ := found_run ρ j hc.lt.le hu
  obtain ⟨rfl, _⟩ := hact.unique hc.active
  obtain ⟨b, pc, h1, h2, h3, h4, hf⟩ := hb r y rfl (finds_of_sawIn hs)
  refine ⟨b, y, h2, hf, ?_⟩
  rintro rfl
  by_contra hlt
  exact (hnone hc).2 b pc h1 (not_le.1 hlt) h2 h3 h4

theorem remove_undoable (hlin : ρ.Linearization State.abs lin)
    (hflip : ∀ {i m}, lin i = some m → ρ.Flip State.done i m) (hR : k ∈ img.keys)
    (h : RemovePending ρ k) :
    ∃ l, k ∈ (ρ.state l).abs ∧ ρ.Undoable (fun m => (ρ.state m).abs) lin k l := by
  obtain ⟨x, t, i, l, hk, hby, hend, hnone⟩ := h
  obtain ⟨y, hyh, hyt, hrec, hky⟩ := hR
  have hl := hby.lt
  obtain ⟨hx, hxd⟩ := hby.since ρ.length hl le_rfl
  obtain ⟨hy, hkey, _⟩ := (inv_run ρ ρ.length le_rfl).mem.recovered (img.written y) hrec
  have hry : rank (ρ.state ρ.length).store y = (k : WithBot ℤ) := by
    rw [rank_of_ne _ hyh, ← hkey, hky]
  have hh : x ≠ head := by
    rintro rfl
    exact (inv_run ρ ρ.length le_rfl).mem.head_alive hxd
  have hr : rank (ρ.state ρ.length).store x = (k : WithBot ℤ) := by rw [rank_of_ne _ hh, hk]
  obtain rfl := (sorted_run ρ le_rfl).eq_of_rank hx hy (hr.trans hry.symm)
  have hv : ¬ AllMarked ((ρ.state ρ.length).store.line x) := fun hv =>
    not_recovered_of_marked (hv _ (img.written x)) hrec
  refine ⟨l, hlin.undo_mark hflip done_congr (chains_run ρ) (mem_abs_run hyt hx hr) hl hby.event
    hby.active hend rfl hr (initial_linked ρ hyh hyt) hby.before hby.since
    fun {u op r a j} hc hkey => ⟨(hnone hc).1 hkey, fun hs => ?_⟩⟩
  -- a call that met x marked in NVRAM met it in an earlier life of the slot
  subst hkey
  refine (absent_of_sawOut hc hs).imp id ?_
  rintro ⟨y, hdy, m, h1, h2, h3⟩
  refine ⟨y, hdy, m, h1, h2, h3.cur, ?_⟩
  rintro rfl
  by_contra hlt
  have hj := hc.lt
  exact hv (allMarked_later (fun b hb hbl => (hby.since b (by omega) hbl).1) (by omega) h3)

end Undoable

theorem durablyLinearizable_run (ρ : Run (machine V)) (img : (ρ.state ρ.length).Image) :
    ρ.DurablyLinearizable img.keys := by
  obtain ⟨lin, hlin, hflip⟩ := linearization_run ρ
  refine hlin.durably fun k he => ?_
  by_cases hk : k ∈ img.keys
  · obtain ⟨l, hin, hu⟩ := remove_undoable hlin hflip hk
      (remove_pending ρ img hk fun h => he (iff_of_true h hk))
    exact ⟨l, iff_of_true hin hk, hu⟩
  · obtain ⟨l, hout, hu⟩ := insert_undoable hlin hflip
      (insert_pending ρ img (by_contra fun h => he (iff_of_false h hk)) hk)
    exact ⟨l, iff_of_false hout hk, hu⟩

theorem recovered_abs {zero : V} {junk : Uchar} {image : Loc → Node V} {σ : Store V}
    (h : Recovering zero junk image σ (.scan [])) :
    State.abs ⟨σ, fun _ => none⟩ = {k | ∃ x, Alive image x ∧ (image x).key = k} := by
  ext k
  constructor
  · rintro ⟨x, hh, ht, hl, _, rfl⟩
    obtain ⟨hx, _⟩ := ((h.linked.1 hl).resolve_left hh).resolve_left ht
    exact ⟨x, hx, (h.key_eq hx).symm⟩
  · rintro ⟨x, hx, rfl⟩
    have hl : σ.heap.Linked x := h.linked.2 (Or.inr (Or.inr ⟨hx, List.not_mem_nil⟩))
    exact ⟨x, hx.1, hx.2.1, hl, h.solid.alive hl, h.key_eq hx⟩

theorem linkFreeList_durablyLinearizable (ρ : Run (machine V)) (img : (ρ.state ρ.length).Image)
    {slots : List Loc} {image : Loc → Node V} {zero : V} {junk : Uchar} {bump : Loc → Bool}
    {σ : Store V} (hi : ReflTransGen (Interrupted slots) img.node image)
    (hc : Chunks zero image slots bump)
    (hr : ReflTransGen Recovers (restart zero junk image bump, .scan slots) (σ, .scan [])) :
    ρ.DurablyLinearizable (State.abs ⟨σ, fun _ => none⟩) := by
  obtain ⟨hcl, hs⟩ := interrupted_run (clear_of_left (inv_run ρ ρ.length le_rfl)
    (unflagged_run ρ ρ.length le_rfl) img.left) hi
  have hkeys : State.abs ⟨σ, fun _ => none⟩ = img.keys := by
    rw [recovered_abs (recovering_run hcl (recovering_start junk hc) hr)]
    ext k
    constructor
    · rintro ⟨x, hx, rfl⟩
      have hx' := (same_alive hs).1 hx
      exact ⟨x, hx'.1, hx'.2.1, hx'.2.2, ((hs x hx.1 hx.2.1).2 hx'.2.2).1.symm⟩
    · rintro ⟨x, hh, ht, hrec, rfl⟩
      exact ⟨x, (same_alive hs).2 ⟨hh, ht, hrec⟩, ((hs x hh ht).2 hrec).1⟩
  rw [hkeys]
  exact durablyLinearizable_run ρ img

section CutOff

open Reuse

theorem linkFreeList_durablyLinearizable_cutOff : ∃ (ρ : Run (machine ℕ))
    (img : (ρ.state ρ.length).Image) (image : Loc → Node ℕ) (σ : Store ℕ),
    (ρ.state 17).thread 0 = some (.insert 5 50, .ret true 2) ∧
    (ρ.state ρ.length).thread 1 = some (.insert 7 70, .initValue 2 tail 4) ∧
    (ρ.state ρ.length).thread 2 = some (.remove 5, .deleteFlush (.trim .inRemove head) 2) ∧
    ReflTransGen (Interrupted [3, 4, 2]) img.node image ∧ image 4 ≠ img.node 4 ∧
    ReflTransGen Recovers (restart 0 0 image (spare [3, 4, 2]), .scan [3, 4, 2]) (σ, .scan []) ∧
    5 ∈ State.abs ⟨σ, fun _ => none⟩ ∧ ρ.DurablyLinearizable (State.abs ⟨σ, fun _ => none⟩) := by
  obtain ⟨ρ, image, σ, hρ, cuts, chunks, hr, hP⟩ := exists_cutOff (P := fun s image σ =>
    decide (s.thread 1 = some (.insert 7 70, .initValue 2 tail 4)) &&
    decide (s.thread 2 = some (.remove 5, .deleteFlush (.trim .inRemove head) 2)) &&
    decide (image 4 ≠ s.halfImage.node 4) &&
    (walk ⟨σ, fun _ => none⟩ 8 head).any (has ⟨σ, fun _ => none⟩ 5)) (by decide +kernel)
  have first := of_decide_eq_true (hρ.holds 17 (P := fun s =>
    s.thread 0 = some (.insert 5 50, .ret true 2)) (by decide +kernel))
  simp only [Bool.and_eq_true, decide_eq_true_eq, and_assoc] at hP
  obtain ⟨h1, h2, h4, h5⟩ := hP
  exact ⟨ρ, (ρ.state ρ.length).halfImage, image, σ, first, h1, h2, cuts, h4, hr, abs_of_walk h5,
    linkFreeList_durablyLinearizable ρ _ cuts chunks hr⟩

end CutOff

end LinkFree.List
