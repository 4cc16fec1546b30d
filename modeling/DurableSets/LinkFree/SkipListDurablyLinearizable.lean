import DurableSets.Core.Undo
import DurableSets.LinkFree.SkipListImage

/-! What NVRAM holds of the skip list at a crash is what the calls that have returned make of the
set, with some of those that were running. -/

namespace LinkFree.SkipList

open Chain

variable {V : Type} {σ σ' : Store V} {x n slot : Loc} {level : ℕ} {op : SetOp V} {pc : Pc} {k : ℤ}
  {ρ : Run (machine V)} {lin : ℕ → Option ℕ} {i j l m : ℕ} {t : Tid} {r : Bool}

theorem linearization_run (clean : Clean ρ) : ∃ lin, ρ.Linearization State.abs lin ∧
    ∀ {i m}, lin i = some m → ρ.Flip State.done i m := by
  refine Run.linearization_of State.done ?_ ?_ ?_ (answer_ret clean)
  · obtain ⟨zero, junk, h⟩ := ρ.init
    rw [h]
    exact initial_abs zero junk
  · exact fun m hm => oneEffect_step (inv_run ρ clean m hm.le) (clean m hm) (ρ.step hm)
  · intro n t op hn he hd
    have hs := ρ.step hn
    rw [he] at hs
    obtain ⟨op1, pc, ht, htook⟩ := hd
    obtain ⟨rfl, _, _⟩ := call_inv hs ht
    exact start_took htook

theorem exists_invalid {s : State V} (img : s.Image) (hv : ¬ AllValid (s.store.line x)) :
    ∃ img' : s.Image, ¬ isValid (img'.node x).metaData = true := by
  obtain ⟨a, ha, hv⟩ : ∃ a ∈ (s.store.line x).contents,
      ¬ isValid a.metaData = true := by
    by_contra hno
    push Not at hno
    exact hv hno
  refine ⟨⟨Function.update img.node x a, fun y => ?_⟩, ?_⟩
  · by_cases hy : y = x
    · subst hy
      rwa [Function.update_self]
    · rw [Function.update_of_ne hy]
      exact img.written y
  · change ¬ isValid (Function.update img.node x a x).metaData = true
    rwa [Function.update_self]

theorem unsaved_insert (clean : Clean ρ) {img : (ρ.state ρ.length).Image}
    (hA : k ∈ (ρ.state ρ.length).abs) (hR : k ∉ img.keys) :
    ∃ x, x ≠ head ∧ x ≠ tail ∧ ((ρ.state ρ.length).store.node x).key = k ∧
      ¬ (heaps ρ ρ.length).dead x ∧ ¬ AllValid ((ρ.state ρ.length).store.line x) ∧
      InsertPending ρ x k := by
  obtain ⟨x, hh, ht, hl, hd, hk⟩ := hA
  have hv : ¬ AllValid ((ρ.state ρ.length).store.line x) := by
    intro hv
    obtain ⟨hr, hkey⟩ := (sealed_run ρ clean ρ.length le_rfl).store.saved
      (mem_live_of_linked clean le_rfl hl) ht hd hv (img.written x)
    exact hR ⟨x, hh, ht, hr, hkey.trans hk⟩
  obtain ⟨img', hv'⟩ := exists_invalid img hv
  exact ⟨x, hh, ht, hk, hd, hv, insert_pending clean img' hh ht hl hd hk hv'⟩

theorem unsaved_remove (clean : Clean ρ) (careful : Careful ρ) {img : (ρ.state ρ.length).Image}
    (hR : k ∈ img.keys) (hA : k ∉ (ρ.state ρ.length).abs) :
    ∃ x, x ≠ head ∧ x ≠ tail ∧ ((ρ.state ρ.length).store.node x).key = k ∧
      (img.node x).recovered = true ∧ RemovePending ρ x k := by
  obtain ⟨x, hh, ht, hr, hl, hk⟩ := (sealed_run ρ clean ρ.length le_rfl).recovered hR
  have hm := (inv_run ρ clean ρ.length le_rfl).mem
  have hd : (heaps ρ ρ.length).dead x := by
    by_contra hd
    exact hA ⟨x, hh, ht, hl, hd, hk⟩
  have hs : (heaps ρ ρ.length).succ x ≠ none := by
    obtain ⟨y, hy⟩ := hm.sound.succ_ne_none (hm.live_of_linked hl) ht
    have hy : (heaps ρ ρ.length).succ x = some y := hy
    rw [hy]
    exact Option.some_ne_none y
  exact ⟨x, hh, ht, hk, hr,
    remove_pending clean careful img hh ht hd hs hk (Node.recovered_iff.1 hr).2.1⟩

section SawIn

theorem not_remove_of_sawIn (h : op.SawIn r) : ¬ op.IsRemove := by
  intro hr
  cases op with
  | remove k => exact h
  | _ => exact hr

theorem eq_false_of_sawIn (h : op.SawIn r) (hop : op.IsInsert) : r = false := by
  cases op with
  | insert k v => exact h
  | _ => exact hop.elim

theorem eq_true_of_sawIn (h : op.SawIn r) (hop : op.IsContains) : r = true := by
  cases op with
  | contains k => exact h
  | _ => exact hop.elim

theorem upper_ret {path : Path} (h : upper σ path n i = .ret r) : r = true := by
  unfold upper at h
  split at h
  · cases h
  · injection h with h
    exact h.symm

theorem afterSearch_ret {p c : Loc} {path : Path} (h : afterSearch σ op p c path = .ret r) :
    ¬ op.IsInsert ∧ r = false := by
  cases op with
  | insert k v =>
    simp only [afterSearch] at h
    split at h <;> cases h
  | remove k =>
    simp only [afterSearch] at h
    split at h
    · cases h
    · injection h with h
      exact ⟨id, h.symm⟩
  | contains k =>
    injection h with h
    exact ⟨id, h.symm⟩

theorem afterDelete_ret {d : DeleteCtx} (h : afterDelete n d = .ret r) (hf : d.Fits op) :
    ¬ op.IsInsert ∧ r = false := by
  have other : ¬ op.IsInsert := by
    cases d with
    | find => cases h
    | _ => cases op <;> first | exact hf.elim | exact id
  cases d with
  | find => cases h
  | remove b =>
    cases b with
    | true => cases h
    | false =>
      injection h with h
      exact ⟨other, h.symm⟩
  | contains =>
    injection h with h
    exact ⟨other, h.symm⟩

theorem findDone_ne_ret (c : FindCtx) (p d : Loc) (path : Path) (i : ℕ) :
    findDone c p d path i ≠ .ret r := by
  cases i <;> cases c <;> exact Pc.noConfusion

theorem marked_ne_ret (n : Loc) (b : Bool) (i : ℕ) : marked n b i ≠ .ret r := by
  cases i <;> exact Pc.noConfusion

theorem afterValid_ne_ret (σ : Store V) (n : Loc) (d : ValidCtx) : afterValid σ n d ≠ .ret r := by
  cases d <;> exact Pc.noConfusion

theorem ret_seen (hn : next σ op slot level pc = some (σ', .ret r)) (hf : pc.Fits op)
    (h : op.SawIn r) : ∃ d x, pc = .insertLoad d x ∨ pc = .insertStore d x := by
  have clash : ¬ (¬ op.IsInsert ∧ r = false) := by
    rintro ⟨hop, rfl⟩
    cases op with
    | insert k v => exact hop trivial
    | remove k => exact h
    | contains k => cases h
  have late : op.IsInsert → r ≠ true := fun hop hr => by
    rw [eq_false_of_sawIn h hop] at hr
    cases hr
  cases pc with
  | insertLoad d n => exact ⟨d, n, Or.inl rfl⟩
  | insertStore d n => exact ⟨d, n, Or.inr rfl⟩
  | searchTest i p c path =>
    simp only [next] at hn
    split at hn
    · cases hn
    · split at hn
      · have hr := (Prod.mk.inj (Option.some.inj hn)).2
        cases i with
        | zero => exact absurd (afterSearch_ret hr) clash
        | succ i => cases hr
      · cases hn
  | deleteLoad d n =>
    simp only [next] at hn
    split at hn
    · exact absurd (afterDelete_ret (Prod.mk.inj (Option.some.inj hn)).2 hf) clash
    · cases hn
  | deleteStore d n =>
    exact absurd (afterDelete_ret (Prod.mk.inj (Option.some.inj hn)).2 hf) clash
  | upperLoad path n i =>
    simp only [next] at hn
    split at hn
    · cases hn
      exact absurd rfl (late hf)
    · obtain ⟨e, _, he⟩ := Option.map_eq_some_iff.1 hn
      have hr := (Prod.mk.inj he).2
      split at hr <;> cases hr
  | upperCas path n i q =>
    simp only [next] at hn
    obtain ⟨e, _, he⟩ := Option.map_eq_some_iff.1 hn
    split at he
    · cases he
    · cases he
      exact absurd rfl (late hf)
  | upperLink path n i =>
    simp only [next] at hn
    obtain ⟨e, _, he⟩ := Option.map_eq_some_iff.1 hn
    split at he
    · exact absurd (upper_ret (Prod.mk.inj he).2) (late hf)
    · cases he
  | removeFree n => exact absurd hf (not_remove_of_sawIn h)
  | containsTest i p c =>
    simp only [next] at hn
    split at hn
    · cases hn
    · split at hn
      · cases hn
      · cases i with
        | zero =>
          cases hn
          cases eq_true_of_sawIn h hf
        | succ i => cases hn
  | searchDown i p path | searchNext i p c path | containsDown i p | containsNext i p c =>
    obtain ⟨z, _, he⟩ := Option.map_eq_some_iff.1 hn
    cases he
  | initNext path n i =>
    obtain ⟨e, _, he⟩ := Option.map_eq_some_iff.1 hn
    have hr := (Prod.mk.inj he).2
    split at hr <;> cases hr
  | findDown c i p path =>
    simp only [next] at hn
    split at hn
    · cases hn
    · obtain ⟨z, _, he⟩ := Option.map_eq_some_iff.1 hn
      cases he
  | findLoad c i p d z path =>
    simp only [next] at hn
    split at hn
    · obtain ⟨w, _, he⟩ := Option.map_eq_some_iff.1 hn
      have hr := (Prod.mk.inj he).2
      split at hr <;> cases hr
    · split at hn
      · have hr := (Prod.mk.inj (Option.some.inj hn)).2
        split at hr
        · exact absurd hr (findDone_ne_ret c p z path i)
        · cases hr
      · obtain ⟨w, _, he⟩ := Option.map_eq_some_iff.1 hn
        cases he
  | findCas c i p d z path =>
    simp only [next] at hn
    split at hn
    · exact absurd (Prod.mk.inj (Option.some.inj hn)).2 (findDone_ne_ret c p z path i)
    · cases hn
  | validLoad d n =>
    simp only [next] at hn
    split at hn
    · exact absurd (Prod.mk.inj (Option.some.inj hn)).2 (afterValid_ne_ret σ n d)
    · cases hn
  | validStore d n old =>
    exact absurd (Prod.mk.inj (Option.some.inj hn)).2 (afterValid_ne_ret _ n d)
  | initValue path n l => cases op <;> cases hn
  | linkCas path n =>
    simp only [next] at hn
    obtain ⟨e, _, he⟩ := Option.map_eq_some_iff.1 hn
    split at he <;> cases he
  | markLoad n i =>
    simp only [next] at hn
    split at hn
    · exact absurd (Prod.mk.inj (Option.some.inj hn)).2 (marked_ne_ret n false i)
    · cases hn
  | markCas n i q =>
    simp only [next] at hn
    split at hn
    · exact absurd (Prod.mk.inj (Option.some.inj hn)).2 (marked_ne_ret n true i)
    · cases hn
  | containsPass i p c =>
    simp only [next] at hn
    split at hn
    · split at hn <;> cases hn
    · cases hn
  | _ => cases hn

end SawIn

theorem found_run (clean : Clean ρ) : ∀ m ≤ ρ.length, ∀ {t op pc},
    (ρ.state m).thread t = some (op, pc) → ∃ i, ρ.Active t op i m ∧
      ∀ r, pc = .ret r → op.SawIn r → ∃ x b pc', i < b ∧ b ≤ m ∧
        (ρ.state b).thread t = some (op, pc') ∧ pc'.checks = some x ∧
        Found (heaps ρ) (op.key : WithBot ℤ) i b x := by
  refine ρ.active_inv (F := fun i m t op pc => ∀ r, pc = .ret r → op.SawIn r →
    ∃ x b pc', i < b ∧ b ≤ m ∧ (ρ.state b).thread t = some (op, pc') ∧ pc'.checks = some x ∧
      Found (heaps ρ) (op.key : WithBot ℤ) i b x) ?_ ?_ ?_
  · rintro m t op pc hm he _ ht r rfl _
    have hs := ρ.step hm
    rw [he] at hs
    obtain ⟨hst, _⟩ := call_inv hs ht
    cases op <;> cases hst
  · rintro i m t op pc pc' hm ha he ht ht' _ r rfl hf
    have hs := ρ.step hm
    rw [he] at hs
    obtain ⟨slot, level, σ, hn, _⟩ := tau_inv hs ht ht'
    have hfit := ((inv_run ρ clean m hm.le).fit ht).fits
    obtain ⟨i', ha', _, tr⟩ := trail_run ρ clean m hm.le ht
    obtain ⟨rfl, _⟩ := ha'.unique ha
    obtain ⟨d, x, hpc⟩ := ret_seen hn hfit hf
    refine ⟨x, m, pc, ha.lt, Nat.le_succ m, ht, ?_⟩
    rcases hpc with rfl | rfl <;> exact ⟨rfl, tr⟩
  · rintro i m t op pc hm ha hne ht ht' h r hpc hf
    obtain ⟨x, b, pc', h1, h2, h3⟩ := h r hpc hf
    exact ⟨x, b, pc', h1, h2.trans (Nat.le_succ m), h3⟩

theorem absent_of_sawOut (clean : Clean ρ) (hc : ρ.Completed t op r i j) (h : op.SawOut r) :
    Absent ρ op.key i j := by
  obtain ⟨_, _, tr⟩ := ret_run ρ clean hc
  cases op with
  | insert k v => exact h.elim
  | remove k =>
    obtain rfl : r = false := h
    exact tr
  | contains k =>
    obtain rfl : r = false := h
    exact tr

theorem chains_run (clean : Clean ρ) : Chains (heaps ρ) (roots ρ) ρ.length :=
  ⟨fun _ hm => sorted_run clean hm, fun _ hm => change_run clean hm⟩

theorem mem_abs_run (clean : Clean ρ) (ht : x ≠ tail) (hl : (heaps ρ ρ.length).Linked x)
    (hr : (heaps ρ ρ.length).rank x = (k : WithBot ℤ)) :
    ∀ m ≤ ρ.length, k ∈ (ρ.state m).abs ↔ Holds (heaps ρ m) (k : WithBot ℤ) := by
  have hb := (inv_run ρ clean ρ.length le_rfl).mem.bounded hl ht
  have hr : rank (ρ.state ρ.length).store x = (k : WithBot ℤ) := hr
  rw [hr] at hb
  intro m hm
  rw [(inv_run ρ clean m hm).mem.mem_abs]
  exact and_iff_right (WithBot.coe_lt_coe.1 hb)

section Undoable

variable {img : (ρ.state ρ.length).Image}

theorem insert_undoable (clean : Clean ρ) (hlin : ρ.Linearization State.abs lin)
    (hflip : ∀ {i m}, lin i = some m → ρ.Flip State.done i m) (hA : k ∈ (ρ.state ρ.length).abs)
    (hR : k ∉ img.keys) :
    ∃ l, k ∉ (ρ.state l).abs ∧ ρ.Undoable (fun m => (ρ.state m).abs) lin k l := by
  obtain ⟨x, hh, ht, hk, hd, hv, t, v, i, l, hby, hend, hnone⟩ := unsaved_insert clean hA hR
  have hl := hby.lt
  have hx := hby.since ρ.length hl le_rfl
  have hr : rank (ρ.state ρ.length).store x = (k : WithBot ℤ) := by rw [rank_of_ne _ hh, hk]
  refine ⟨l, hlin.undo_link hflip done_congr (chains_run clean) (mem_abs_run clean ht hx hr) hl
    hby.event hby.active hend rfl hr hby.before hby.since hd
    fun {u op r a j} hc hkey => ⟨hnone hc hkey, fun hs => ?_⟩⟩
  -- what a call found that returned after x was linked, it had found before
  subst hkey
  obtain ⟨hu, _⟩ := ret_run ρ clean hc
  obtain ⟨a', hact, hb⟩ := found_run clean j hc.lt.le hu
  obtain ⟨rfl, _⟩ := hact.unique hc.active
  obtain ⟨y, b, pc, h1, h2, h3, h4, hf⟩ := hb r rfl hs
  refine ⟨b, y, h2, hf, ?_⟩
  rintro rfl
  by_contra hlt
  obtain ⟨c, h5, h6, h7⟩ := discharged clean checks_step (fun _ => rfl) hc h1 h2 h3 h4
  have hj := hc.lt
  exact hv (allValid_later clean (fun b hb => hby.since b (by omega)) (by omega) h7)

theorem remove_undoable (clean : Clean ρ) (careful : Careful ρ)
    (hlin : ρ.Linearization State.abs lin)
    (hflip : ∀ {i m}, lin i = some m → ρ.Flip State.done i m) (hR : k ∈ img.keys)
    (hA : k ∉ (ρ.state ρ.length).abs) :
    ∃ l, k ∈ (ρ.state l).abs ∧ ρ.Undoable (fun m => (ρ.state m).abs) lin k l := by
  obtain ⟨x, hh, ht, hk, hrec, t, i, l, hby, hend, hnone⟩ := unsaved_remove clean careful hR hA
  have hl := hby.lt
  have hx := (hby.since ρ.length hl le_rfl).1
  have hr : rank (ρ.state ρ.length).store x = (k : WithBot ℤ) := by rw [rank_of_ne _ hh, hk]
  have hv : ¬ AllMarked ((ρ.state ρ.length).store.line x) := fun hv =>
    not_recovered_of_marked (hv _ (img.written x)) hrec
  refine ⟨l, hlin.undo_mark hflip done_congr (chains_run clean) (mem_abs_run clean ht hx hr) hl
    hby.event hby.active hend rfl hr (initial_linked ρ hh ht) hby.before hby.since
    fun {u op r a j} hc hkey => ⟨hnone hc hkey, fun hs => ?_⟩⟩
  -- a call that met x marked in NVRAM met it in an earlier life of the slot
  subst hkey
  refine (absent_of_sawOut clean hc hs).imp id ?_
  rintro ⟨y, hdy, hmarked⟩
  obtain ⟨m, h1, h2, h3⟩ := hmarked careful
  refine ⟨y, hdy, m, h1, h2, h3.cur, ?_⟩
  rintro rfl
  by_contra hlt
  have hj := hc.lt
  exact hv (allMarked_later clean (fun b hb hbl => (hby.since b (by omega) hbl).1) (by omega) h3)

end Undoable

theorem linkFreeSkipList_durablyLinearizable (ρ : Run (machine V)) (clean : Clean ρ)
    (careful : Careful ρ) (img : (ρ.state ρ.length).Image) : ρ.DurablyLinearizable img.keys := by
  obtain ⟨lin, hlin, hflip⟩ := linearization_run clean
  refine hlin.durably fun k he => ?_
  by_cases hk : k ∈ img.keys
  · obtain ⟨l, hin, hu⟩ := remove_undoable clean careful hlin hflip hk
      fun h => he (iff_of_true h hk)
    exact ⟨l, iff_of_true hin hk, hu⟩
  · obtain ⟨l, hout, hu⟩ := insert_undoable clean hlin hflip
      (by_contra fun h => he (iff_of_false h hk)) hk
    exact ⟨l, iff_of_false hout hk, hu⟩

-- thread 0 has marked 5 and not flushed it; thread 1 asks for 5, flushes the mark and answers
def containsAtMarked : List (Command ℕ) :=
  markStops ++ .call 1 (.contains 5) :: (steps 1 46 ++ [.ret 1])

theorem linkFreeSkipList_durablyLinearizable_marked : ∃ (ρ : Run (machine ℕ)),
    ρ.length = 153 ∧ ∀ img : (ρ.state ρ.length).Image, ρ.DurablyLinearizable img.keys := by
  obtain ⟨ρ, hρ, hidle⟩ := exists_play 0 (guarded careful01 exec) (fun h => (guarded_inv h).2)
    containsAtMarked (by decide +kernel)
  have clean : Clean ρ := clean_of_neverRecycled
    (neverRecycled_of_plays (fun h => (guarded_inv h).2) hρ (by decide +kernel))
  have careful : Careful ρ := by
    intro m hm
    have h := (guarded_inv (hρ.exec (by rw [← hρ.length]; exact hm))).1
    simp only [careful01, Bool.and_eq_true] at h
    refine careful_of_cautious fun t => ?_
    rcases t with _ | _ | t
    · exact h.1
    · exact h.2
    · simp [cautious, hidle m hm.le (t + 2) (Nat.le_add_left 2 t)]
  exact ⟨ρ, hρ.length, fun img => linkFreeSkipList_durablyLinearizable ρ clean careful img⟩

end LinkFree.SkipList
