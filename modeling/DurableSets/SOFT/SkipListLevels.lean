import DurableSets.Core.Path
import DurableSets.SOFT.SkipListSearch

namespace SOFT.SkipList

open Chain

variable {V : Type} {σ τ υ : Store V} {x y p c d s : Loc} {i j l fuel : ℕ} {k : ℤ}
  {st : NodeState} {us vs ws xs as bs : List Loc} {op : SetOp V}

theorem getLastD_mem (us : List Loc) (p : Loc) : us.getLastD p ∈ p :: us := by
  induction us generalizing p with
  | nil => exact List.mem_cons_self
  | cons u us ih =>
    rw [List.getLastD_cons]
    exact List.mem_cons_of_mem p (ih u)

-- p and the nodes xs behind it are INSERTED at level i, and the tail follows
def Links (σ : Store V) (i : ℕ) : Loc → List Loc → Prop
  | p, [] => (σ.node p).next i = Ptr.addr tail .inserted
  | p, x :: xs => (σ.node p).next i = Ptr.addr x .inserted ∧ Links σ i x xs

namespace Links

theorem next (h : Links σ i p ws) : (σ.node p).next i = Ptr.addr (ws.headD tail) .inserted := by
  cases ws with
  | nil => exact h
  | cons w ws => exact h.1

theorem after (h : Links σ i p (us ++ ws)) : Links σ i (us.getLastD p) ws := by
  induction us generalizing p with
  | nil => exact h
  | cons u us ih =>
    rw [List.getLastD_cons]
    exact ih h.2

theorem state (h : Links σ i p xs) : ∀ x ∈ p :: xs, σ.stateAt i x = .inserted := by
  induction xs generalizing p with
  | nil =>
    intro x hx
    obtain rfl := List.mem_singleton.1 hx
    exact state_of_addr h
  | cons y xs ih =>
    intro x hx
    rcases List.mem_cons.1 hx with rfl | hx
    · exact state_of_addr h.1
    · exact ih h.2 x hx

theorem path (h : Links σ i p xs) : (σ.level i).Path p xs tail := by
  induction xs generalizing p with
  | nil => exact ref_of_addr h
  | cons x xs ih => exact ⟨ref_of_addr h.1, ih h.2⟩

theorem relink (h : Links σ i p ws) (hx : (τ.node x).next i = Ptr.addr (ws.headD tail) .inserted)
    (same : ∀ y ∈ ws, (τ.node y).next i = (σ.node y).next i) : Links τ i x ws := by
  induction ws generalizing p x with
  | nil => exact hx
  | cons w ws ih =>
    refine ⟨hx, ih h.2 ?_ fun y hy => same y (List.mem_cons_of_mem w hy)⟩
    exact (same w List.mem_cons_self).trans h.2.next

theorem congr (h : Links σ i p xs)
    (same : ∀ y ∈ p :: xs, (τ.node y).next i = (σ.node y).next i) : Links τ i p xs :=
  h.relink ((same p List.mem_cons_self).trans h.next) fun y hy =>
    same y (List.mem_cons_of_mem p hy)

theorem replace (h : Links σ i p (us ++ xs)) (hw : Links τ i (us.getLastD p) ws)
    (nodup : (p :: us).Nodup)
    (same : ∀ y ∈ p :: us, y ≠ us.getLastD p → (τ.node y).next i = (σ.node y).next i) :
    Links τ i p (us ++ ws) := by
  induction us generalizing p with
  | nil => exact hw
  | cons u us ih =>
    rw [List.getLastD_cons] at hw same
    have hp : p ≠ us.getLastD u := by
      rintro rfl
      exact (List.nodup_cons.1 nodup).1 (getLastD_mem us u)
    refine ⟨(same p List.mem_cons_self hp).trans h.1, ih h.2 hw (List.nodup_cons.1 nodup).2 ?_⟩
    exact fun y hy hne => same y (List.mem_cons_of_mem p hy) hne

theorem carry (h : Links σ i c (us ++ ws)) (hp : p ∈ c :: us) :
    ∃ vs, Links σ i p (vs ++ ws) ∧ vs.getLastD p = us.getLastD c ∧ vs.Sublist us := by
  induction us generalizing c with
  | nil =>
    obtain rfl := List.mem_singleton.1 hp
    exact ⟨[], h, rfl, List.Sublist.refl _⟩
  | cons u us ih =>
    rcases List.mem_cons.1 hp with rfl | hp
    · exact ⟨u :: us, h, rfl, List.Sublist.refl _⟩
    · obtain ⟨vs, hv, he, hm⟩ := ih h.2 hp
      exact ⟨vs, hv, he.trans List.getLastD_cons.symm, hm.cons u⟩

end Links

def Store.tall (σ : Store V) (i : ℕ) (xs : List Loc) : List Loc :=
  xs.filter fun x => i < (σ.node x).topLevel

theorem mem_tall : x ∈ σ.tall i xs ↔ x ∈ xs ∧ i < (σ.node x).topLevel := by
  simp [Store.tall]

structure Live (n : Node V) : Prop where
  low : 1 ≤ n.topLevel
  high : n.topLevel ≤ MAX_LEVEL
  below : n.key < INTPTR_MAX
  start : n.validStart = n.pValidity
  helped : n.validEnd = n.pValidity
  kept : n.deleted = !n.pValidity

structure Free (n : Node V) : Prop where
  helped : n.validEnd = n.validStart
  destroyed : n.deleted = n.validStart

structure Represents (σ : Store V) (xs : List Loc) : Prop where
  sorted : (xs.map fun x => (σ.node x).key).Pairwise (· < ·)
  proper : ∀ x ∈ xs, x ≠ head ∧ x ≠ tail
  live : ∀ x ∈ xs, Live (σ.node x)
  levels : ∀ i < MAX_LEVEL, Links σ i head (σ.tall i xs)
  taken : ∀ x, x ∈ xs ∨ x = head ∨ x = tail → σ.avail x = false
  free : ∀ x, x ∉ xs → x ≠ head → x ≠ tail → σ.avail x = true ∧ Free (σ.node x)
  tail_next : ∀ i, (σ.node tail).next i = ⟨none, .inserted⟩
  tail_key : (σ.node tail).key = INTPTR_MAX

structure Cut (σ : Store V) (k : ℤ) (as bs : List Loc) : Prop where
  left : ∀ x ∈ as, (σ.node x).key < k
  right : ∀ x ∈ bs, k ≤ (σ.node x).key

theorem exists_cut (h : (xs.map fun x => (σ.node x).key).Pairwise (· < ·)) (k : ℤ) :
    ∃ as bs, xs = as ++ bs ∧ Cut σ k as bs := by
  induction xs with
  | nil => exact ⟨[], [], rfl, nofun, nofun⟩
  | cons x xs ih =>
    obtain ⟨hx, hxs⟩ := List.pairwise_cons.1 h
    by_cases hk : (σ.node x).key < k
    · obtain ⟨as, bs, rfl, hc⟩ := ih hxs
      refine ⟨x :: as, bs, rfl, fun y hy => ?_, hc.right⟩
      rcases List.mem_cons.1 hy with rfl | hy
      · exact hk
      · exact hc.left y hy
    · refine ⟨[], x :: xs, rfl, nofun, fun y hy => ?_⟩
      rcases List.mem_cons.1 hy with rfl | hy
      · exact not_lt.1 hk
      · exact (not_lt.1 hk).trans (hx _ (List.mem_map_of_mem hy)).le

def Store.pred (σ : Store V) (i : ℕ) (as : List Loc) : Loc := (σ.tall i as).getLastD head

def Store.succ (σ : Store V) (i : ℕ) (bs : List Loc) : Loc := (σ.tall i bs).headD tail

def Store.entry (σ : Store V) (as bs : List Loc) (i : ℕ) : Entry :=
  ⟨σ.pred i as, σ.succ i bs, .inserted⟩

def Store.answer (σ : Store V) (as bs : List Loc) (i : ℕ) : Answer :=
  (List.range i).map fun j => (σ.entry as bs j, .inserted)

theorem tall_append (σ : Store V) (i : ℕ) (as bs : List Loc) :
    σ.tall i (as ++ bs) = σ.tall i as ++ σ.tall i bs := List.filter_append _ _

theorem tall_down (h : x ∈ σ.tall (i + 1) xs) : x ∈ σ.tall i xs := by
  rw [mem_tall] at h ⊢
  exact ⟨h.1, by omega⟩

theorem answer_succ (σ : Store V) (as bs : List Loc) (i : ℕ) (path : Answer) :
    σ.answer as bs (i + 1) ++ path = σ.answer as bs i ++ (σ.entry as bs i, .inserted) :: path := by
  simp [Store.answer, List.range_succ]

theorem headD_cases (ws : List Loc) : ws.headD tail = tail ∨ ws.headD tail ∈ ws := by
  cases ws with
  | nil => exact Or.inl rfl
  | cons w ws => exact Or.inr List.mem_cons_self

namespace Represents

theorem nodup (h : Represents σ xs) : xs.Nodup := by
  have := h.sorted
  rw [List.pairwise_map] at this
  exact this.imp fun hlt he => absurd (congrArg (fun x => (σ.node x).key) he) hlt.ne

theorem level (h : Represents σ (as ++ bs)) (hi : i < MAX_LEVEL) :
    Links σ i head (σ.tall i as ++ σ.tall i bs) := tall_append σ i as bs ▸ h.levels i hi

theorem tail_state (h : Represents σ xs) (i : ℕ) : σ.stateAt i tail = .inserted := by
  unfold Store.stateAt
  rw [h.tail_next]

theorem succ_state (h : Represents σ (as ++ bs)) (hi : i < MAX_LEVEL) :
    σ.stateAt i (σ.succ i bs) = .inserted := by
  rcases headD_cases (σ.tall i bs) with he | hm
  · unfold Store.succ
    rw [he]
    exact h.tail_state i
  · exact (h.level hi).state _ (List.mem_cons_of_mem _ (List.mem_append_right _ hm))

theorem succ_key (h : Represents σ (as ++ bs)) (hc : Cut σ k as bs) (hk : k ≤ INTPTR_MAX)
    (i : ℕ) : k ≤ (σ.node (σ.succ i bs)).key := by
  rcases headD_cases (σ.tall i bs) with he | hm
  · unfold Store.succ
    rw [he, h.tail_key]
    exact hk
  · exact hc.right _ (mem_tall.1 hm).1

theorem tall_zero (h : Represents σ (as ++ bs)) : σ.tall 0 bs = bs :=
  List.filter_eq_self.2 fun x hx =>
    decide_eq_true (h.live x (List.mem_append_right as hx)).low

theorem found_iff (h : Represents σ (as ++ bs)) (hc : Cut σ k as bs) (hk : k < INTPTR_MAX) :
    (σ.node (σ.succ 0 bs)).key = k ↔ ∃ x ∈ bs, (σ.node x).key = k := by
  unfold Store.succ
  rw [h.tall_zero]
  cases bs with
  | nil =>
    refine ⟨fun he => ?_, fun ⟨x, hx, _⟩ => nomatch hx⟩
    exact absurd (h.tail_key.symm.trans he) hk.ne'
  | cons b bs =>
    refine ⟨fun he => ⟨b, List.mem_cons_self, he⟩, ?_⟩
    rintro ⟨x, hx, he⟩
    rcases List.mem_cons.1 hx with rfl | hx
    · exact he
    · have hs := (h.sorted.sublist ((List.sublist_append_right as (b :: bs)).map _))
      have hlt := (List.pairwise_cons.1 hs).1 _ (List.mem_map_of_mem hx)
      rw [he] at hlt
      exact absurd hlt (not_lt.2 (hc.right b List.mem_cons_self))

theorem walk (h : Represents σ (as ++ bs)) (hi : i < MAX_LEVEL)
    (hx : x = head ∨ x ∈ σ.tall i as) : ∃ vs, Links σ i x (vs ++ σ.tall i bs) ∧
      vs.getLastD x = σ.pred i as ∧ vs.Sublist (σ.tall i as) :=
  (h.level hi).carry (List.mem_cons.2 hx)

theorem pred_carried (σ : Store V) (i : ℕ) (as : List Loc) :
    σ.pred i as = head ∨ σ.pred i as ∈ σ.tall i as := List.mem_cons.1 (getLastD_mem _ head)

end Represents

theorem walk_noCleanup (h : Links σ i p (vs ++ ws)) (hv : ∀ v ∈ vs, (σ.node v).key < k)
    (hs : σ.stateAt i (ws.headD tail) = .inserted) (hk : k ≤ (σ.node (ws.headD tail)).key)
    (hf : vs.length < fuel) :
    noCleanupLevel σ k i fuel p .inserted ((vs ++ ws).headD tail) =
      some (⟨vs.getLastD p, ws.headD tail, .inserted⟩, .inserted) := by
  obtain ⟨fuel, rfl⟩ := Nat.exists_eq_add_of_le' (by omega : 1 ≤ fuel)
  induction vs generalizing p fuel with
  | nil =>
    have hs : ((σ.node (ws.headD tail)).next i).getState = .inserted := hs
    simp only [List.nil_append, noCleanupLevel, hs, if_pos hk]
    rfl
  | cons v vs ih =>
    have hvs : ((σ.node v).next i).getState = .inserted :=
      h.state v (List.mem_cons_of_mem p List.mem_cons_self)
    have hlt := hv v List.mem_cons_self
    simp only [List.cons_append, List.headD_cons, noCleanupLevel, hvs, if_neg (not_le.2 hlt)]
    rw [h.2.next, List.getLastD_cons]
    obtain ⟨fuel, rfl⟩ := Nat.exists_eq_add_of_le' (show 1 ≤ fuel by
      simp only [List.length_cons] at hf
      omega)
    exact ih h.2 (fun w hw => hv w (List.mem_cons_of_mem v hw)) fuel (by
      simp only [List.length_cons] at hf
      omega)

theorem walk_levels (h : Represents σ (as ++ bs)) (hc : Cut σ k as bs) (hk : k ≤ INTPTR_MAX)
    (hf : as.length < fuel) (hi : i ≤ MAX_LEVEL)
    (hx : ∀ j, i = j + 1 → x = head ∨ x ∈ σ.tall j as) (path : Answer) :
    noCleanupLevels σ k fuel i x path = some (σ.answer as bs i ++ path) := by
  induction i generalizing x path with
  | zero => rfl
  | succ i ih =>
    obtain ⟨vs, hl, hlast, hsub⟩ := h.walk hi (hx i rfl)
    have level := walk_noCleanup hl (fun v hv => hc.left v (mem_tall.1 (hsub.subset hv)).1)
      (h.succ_state hi) (h.succ_key hc hk i)
      ((hsub.length_le.trans (List.length_filter_le _ _)).trans_lt hf)
    have down : ∀ j, i = j + 1 → σ.pred i as = head ∨ σ.pred i as ∈ σ.tall j as := by
      rintro j rfl
      exact (Represents.pred_carried σ _ as).imp_right tall_down
    rw [answer_succ, ← ih (by omega) down]
    simp only [noCleanupLevels, hl.next]
    change (noCleanupLevel σ k i fuel x .inserted _).bind _ = _
    rw [level, hlast]
    rfl

theorem search_moves (op : SetOp V) (h : Represents σ (as ++ bs)) (hc : Cut σ op.key as bs)
    (hk : op.key < INTPTR_MAX) : ∃ rest, σ.answer as bs MAX_LEVEL =
      (σ.entry as bs 0, .inserted) :: rest ∧ Relation.ReflTransGen (Moves op) (σ, retry)
        (σ, afterSearch σ op (σ.entry as bs 0) .inserted (shown op rest)) := by
  have levels := walk_levels (x := head) (i := MAX_LEVEL) h hc hk.le (Nat.lt_succ_self _) le_rfl
    (fun _ _ => Or.inl rfl) []
  rw [List.append_nil] at levels
  have hfind : findNoCleanup σ op.key (as.length + 1) = some
      (foundAt σ op.key (σ.answer as bs MAX_LEVEL), σ.answer as bs MAX_LEVEL) := by
    rw [findNoCleanup, levels]
    rfl
  obtain ⟨e, st, rest, hr, hw⟩ := findNoCleanup_moves hfind
  have hr : σ.answer as bs MAX_LEVEL = (e, st) :: rest := hr
  have he : (σ.answer as bs MAX_LEVEL)[0]? = some (σ.entry as bs 0, .inserted) := by
    simp [Store.answer, MAX_LEVEL]
  rw [hr] at he
  obtain ⟨rfl, rfl⟩ := Prod.mk.inj (Option.some.inj he)
  exact ⟨rest, hr, hw⟩

theorem contains_level (h : Links σ i p (vs ++ ws)) (hv : ∀ v ∈ vs, (σ.node v).key < op.key) :
    Relation.ReflTransGen (Moves op) (σ, .containsTest i p ((vs ++ ws).headD tail))
      (σ, .containsTest i (vs.getLastD p) (ws.headD tail)) := by
  induction vs generalizing p with
  | nil => exact Relation.ReflTransGen.refl
  | cons v vs ih =>
    have hvs : σ.stateAt i v = .inserted := h.state v (List.mem_cons_of_mem p List.mem_cons_self)
    have inn : ¬ isOut ((σ.node v).next i).getState = true := by
      rw [show ((σ.node v).next i).getState = .inserted from hvs]
      decide
    rw [List.getLastD_cons]
    have hnext : Relation.ReflTransGen (Moves op) (σ, .containsNext i v v) _ :=
      step_moves (ih h.2 fun w hw => hv w (List.mem_cons_of_mem v hw)) fun _ _ => by
        simp only [next, h.2.next]
        rfl
    have hpass : Relation.ReflTransGen (Moves op) (σ, .containsPass i p v) _ :=
      step_moves hnext fun _ _ => if_neg inn
    exact step_moves hpass fun _ _ => if_pos (Or.inl (hv v List.mem_cons_self))

def missed (p : Loc) : ℕ → Pc
  | 0 => .ret false
  | j + 1 => .containsDown j p

theorem contains_walk (h : Represents σ (as ++ bs)) (hc : Cut σ op.key as bs)
    (hk : op.key < INTPTR_MAX) (hi : i < MAX_LEVEL) (hx : x = head ∨ x ∈ σ.tall i as) :
    Relation.ReflTransGen (Moves op) (σ, .containsDown i x)
      (σ, .containsTest i (σ.pred i as) (σ.succ i bs)) ∧
    ((σ.node (σ.succ i bs)).key = op.key → Relation.ReflTransGen (Moves op)
      (σ, .containsTest i (σ.pred i as) (σ.succ i bs)) (σ, .ret true)) ∧
    ((σ.node (σ.succ i bs)).key ≠ op.key → ∀ slot level,
      next σ op slot level (.containsTest i (σ.pred i as) (σ.succ i bs)) =
        some (σ, missed (σ.pred i as) i)) := by
  obtain ⟨vs, hl, hlast, hsub⟩ := h.walk hi hx
  have level := contains_level hl fun v hv => hc.left v (mem_tall.1 (hsub.subset hv)).1
  rw [hlast] at level
  have stop : ¬ ((σ.node (σ.succ i bs)).key < op.key ∨
      isOut ((σ.node (σ.succ i bs)).next i).getState = true) := by
    refine not_or.2 ⟨not_lt.2 (h.succ_key hc hk.le i), ?_⟩
    rw [show ((σ.node (σ.succ i bs)).next i).getState = .inserted from h.succ_state hi]
    decide
  refine ⟨step_moves level fun _ _ => by simp only [next, hl.next]; rfl, fun he => ?_,
    fun he _ _ => ?_⟩
  · refine step_moves Relation.ReflTransGen.refl fun _ _ => ?_
    simp only [next]
    rw [if_neg stop, if_pos he]
  · simp only [next]
    rw [if_neg stop, if_neg he]
    cases i <;> rfl

theorem contains_moves (op : SetOp V) (h : Represents σ (as ++ bs)) (hc : Cut σ op.key as bs)
    (hk : op.key < INTPTR_MAX) (hi : i < MAX_LEVEL) (hx : x = head ∨ x ∈ σ.tall i as) : ∃ r,
    (r = true ↔ ∃ x ∈ bs, (σ.node x).key = op.key) ∧
      Relation.ReflTransGen (Moves op) (σ, .containsDown i x) (σ, .ret r) := by
  induction i generalizing x with
  | zero =>
    obtain ⟨walk, hin⟩ := contains_walk h hc hk hi hx
    by_cases he : (σ.node (σ.succ 0 bs)).key = op.key
    · exact ⟨true, ⟨fun _ => (h.found_iff hc hk).1 he, fun _ => rfl⟩, walk.trans (hin.1 he)⟩
    · refine ⟨false, ⟨nofun, fun hf => absurd ((h.found_iff hc hk).2 hf) he⟩, walk.trans ?_⟩
      exact step_moves Relation.ReflTransGen.refl (hin.2 he)
  | succ i ih =>
    obtain ⟨walk, hin⟩ := contains_walk h hc hk hi hx
    by_cases he : (σ.node (σ.succ (i + 1) bs)).key = op.key
    · refine ⟨true, ⟨fun _ => ?_, fun _ => rfl⟩, walk.trans (hin.1 he)⟩
      rcases headD_cases (σ.tall (i + 1) bs) with ht | hm
      · unfold Store.succ at he
        rw [ht, h.tail_key] at he
        exact absurd he hk.ne'
      · exact ⟨_, (mem_tall.1 hm).1, he⟩
    · obtain ⟨r, hr, hw⟩ := ih (by omega) ((Represents.pred_carried σ (i + 1) as).imp_right tall_down)
      exact ⟨r, hr, walk.trans (step_moves hw (hin.2 he))⟩

end SOFT.SkipList
