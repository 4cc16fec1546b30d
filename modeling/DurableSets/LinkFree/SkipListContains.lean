import DurableSets.Core.Slope
import DurableSets.LinkFree.SkipListProgress

/-! contains comes to an end whatever the other threads do, although above level 0 a node may be
linked in front of others with the same key. -/

namespace LinkFree.SkipList

open Chain

variable {V : Type} {σ σ' : Store V} {L : Set Cursor} {x n slot : Loc} {i G level : ℕ}
  {op : SetOp V} {pc pc' : Pc} {s s' : State V} {t : Tid} {e : Event (SetOp V)}

theorem upper_linked (hm : MemInv σ G L) (f : Fit σ L op pc)
    (hn : next σ op slot level pc = some (σ', pc')) (hi : 1 ≤ i) (hx : (x, i) ∈ L)
    (hnew : (n, i) ∉ L) (hs : ((σ'.node x).next i).ref = some n) :
    ∃ path e, pc = .upperLink path n i ∧ path[i]? = some e ∧ (σ.node x).next i = Ptr.addr e.2 ∧
      x = e.1 ∧ σ' = σ.setNext x i (Ptr.addr n) := by
  have stay : (σ'.node x).next i = (σ.node x).next i → False := fun h =>
    hnew (hm.right hx (h ▸ hs))
  have apart : ∀ {m j}, pc.pending = some (m, j) → j ≤ i → x ≠ m := by
    rintro m j hm' hj rfl
    exact f.fresh _ hm' (hm.sound.closed.lower hx hj)
  cases pc with
  | findCas c j p d s path =>
    simp only [next] at hn
    split at hn <;> obtain ⟨rfl, rfl⟩ := Prod.mk.inj (Option.some.inj hn)
    · by_cases he : x = p ∧ i = j
      · obtain ⟨rfl, rfl⟩ := he
        rw [next_setNext_self] at hs
        obtain rfl : s = n := Option.some.inj hs
        exact absurd (f.refs (s, i) (by simp [Pc.refs])) hnew
      · exact (stay (next_setNext_other σ _ he)).elim
    · exact (stay rfl).elim
  | deleteFlush d m =>
    obtain ⟨rfl, rfl⟩ := Prod.mk.inj (Option.some.inj hn)
    exact (stay (congrFun (next_flush σ m x) i)).elim
  | deleteStore d m =>
    obtain ⟨rfl, rfl⟩ := Prod.mk.inj (Option.some.inj hn)
    exact (stay (congrFun (next_write (by rfl) x) i)).elim
  | validStore d m old =>
    obtain ⟨rfl, rfl⟩ := Prod.mk.inj (Option.some.inj hn)
    exact (stay (congrFun (next_write (by rfl) x) i)).elim
  | insertFlush d m =>
    obtain ⟨rfl, rfl⟩ := Prod.mk.inj (Option.some.inj hn)
    exact (stay (congrFun (next_flush σ m x) i)).elim
  | insertStore d m =>
    obtain ⟨rfl, rfl⟩ := Prod.mk.inj (Option.some.inj hn)
    exact (stay (congrFun (next_write (by rfl) x) i)).elim
  | initValue path m l =>
    cases op with
    | insert k v =>
      obtain ⟨rfl, rfl⟩ := Prod.mk.inj (Option.some.inj hn)
      exact (stay (congrFun (next_write (by rfl) x) i)).elim
    | remove k => cases hn
    | contains k => cases hn
  | flipStore path m l old | initInsertFlag path m l | initDeleteFlag path m l | initKey path m l
  | initTopLevel path m l =>
    obtain ⟨rfl, rfl⟩ := Prod.mk.inj (Option.some.inj hn)
    exact (stay (congrFun (next_write (by rfl) x) i)).elim
  | initNext path m j =>
    obtain ⟨a, _, he⟩ := Option.map_eq_some_iff.1 hn
    obtain ⟨rfl, rfl⟩ := Prod.mk.inj he
    exact (stay (next_setNext_other σ _ fun h => apart rfl (Nat.zero_le i) h.1)).elim
  | lostStore m =>
    obtain ⟨rfl, rfl⟩ := Prod.mk.inj (Option.some.inj hn)
    exact (stay (next_setNext_other σ _ fun h => apart rfl (Nat.zero_le i) h.1)).elim
  | linkCas path m =>
    simp only [next] at hn
    obtain ⟨a, _, he⟩ := Option.map_eq_some_iff.1 hn
    split at he <;> obtain ⟨rfl, rfl⟩ := Prod.mk.inj he
    · exact (stay (next_setNext_other σ _ fun h => by omega)).elim
    · exact (stay rfl).elim
  | upperCas path m j q =>
    simp only [next] at hn
    obtain ⟨a, _, he⟩ := Option.map_eq_some_iff.1 hn
    split at he <;> obtain ⟨rfl, rfl⟩ := Prod.mk.inj he
    · refine (stay (next_setNext_other σ _ fun h => ?_)).elim
      exact apart rfl h.2.ge h.1
    · exact (stay rfl).elim
  | upperLink path m j =>
    simp only [next] at hn
    obtain ⟨a, hpath, he⟩ := Option.map_eq_some_iff.1 hn
    split at he <;> obtain ⟨rfl, rfl⟩ := Prod.mk.inj he
    · next hnext =>
      by_cases he : x = a.1 ∧ i = j
      · obtain ⟨rfl, rfl⟩ := he
        rw [next_setNext_self] at hs
        obtain rfl : m = n := Option.some.inj hs
        exact ⟨path, a, rfl, hpath, hnext, rfl, rfl⟩
      · exact (stay (next_setNext_other σ _ he)).elim
    · exact (stay rfl).elim
  | markCas m j q =>
    simp only [next] at hn
    split at hn <;> obtain ⟨rfl, rfl⟩ := Prod.mk.inj (Option.some.inj hn)
    · next hq =>
      by_cases he : x = m ∧ i = j
      · obtain ⟨rfl, rfl⟩ := he
        rw [next_setNext_self, ← hq] at hs
        exact absurd (hm.right hx hs) hnew
      · exact (stay (next_setNext_other σ _ he)).elim
    · exact (stay rfl).elim
  | ret r => cases hn
  | _ =>
    refine (stay ?_).elim
    simp only [next] at hn
    repeat' split at hn
    all_goals first
      | obtain ⟨rfl, rfl⟩ := Prod.mk.inj (Option.some.inj hn)
        rfl
      | obtain ⟨z, _, he⟩ := Option.map_eq_some_iff.1 hn
        obtain ⟨rfl, rfl⟩ := Prod.mk.inj he
        rfl

theorem Inv.climbs (hi : Inv 1 s) (clean : s.Clean s') (hs : Step s e s') :
    ∃ L', Tower.Climbs s.store.tower s'.store.tower s.live L' ∧ s'.live ⊆ L' := by
  cases hs with
  | call t op idle hk =>
    refine ⟨s.live, (Tower.Change.steady (steady_of_eq rfl)).climbs (G := 1) hi.mem.sound.closed
      fun _ hp hn h h' => ?_, live_goto hi.mem subset_rfl fun op1 pc1 ha => ?_⟩
    · exact absurd (hi.mem.right hp h') hn
    · obtain ⟨rfl, rfl⟩ := Prod.mk.inj (Option.some.inj ha)
      exact (start_fit hi.mem hk).refs
  | ret t op r ht =>
    refine ⟨s.live, (Tower.Change.steady (steady_of_eq rfl)).climbs (G := 1) hi.mem.sound.closed
      fun _ hp hn h h' => ?_, live_goto hi.mem subset_rfl fun op1 pc1 ha => by cases ha⟩
    exact absurd (hi.mem.right hp h') hn
  | tau t op pc pc' slot level σ ht hn ha =>
    have f := hi.fit ht
    obtain ⟨L', ef, f', _⟩ := tau_ok hi ht (hi.tidy_one (.tau t) t op pc rfl ht) hn ha clean
    have k := ef.kept hi.mem
    refine ⟨L', (ef.change hi.mem).climbs hi.mem.sound.closed fun hG hp hnew hs hs' => ?_,
      live_goto (ef.memInv hi.mem) k.subset fun op1 pc1 ha => ?_⟩
    · obtain ⟨path, a, rfl, hpath, hnext, rfl, rfl⟩ := upper_linked hi.mem f hn hG hp hnew hs'
      obtain ⟨hup, _⟩ := f.loc
      have hmem := List.mem_of_getElem? hpath
      obtain rfl := Option.some.inj ((ref_of_addr hnext).symm.trans hs)
      refine ⟨(hup.levels.below a hmem).trans_eq ?_, le_trans ?_ (hup.levels.above a hmem)⟩
      · exact ((rank_setNext s.store _ _ _ _).trans hup.rank).symm
      · exact ((rank_setNext s.store _ _ _ _).trans hup.rank).le
    · obtain ⟨rfl, rfl⟩ := Prod.mk.inj (Option.some.inj ha)
      exact f'.refs

structure Climbing (s : State V) : Prop where
  sane : Sane s
  rising : s.store.tower.Rising s.live

theorem stable_climbing : (cleanMachine V).Stable Climbing where
  init {s} h := by
    obtain ⟨zero, junk, rfl⟩ := h
    refine ⟨⟨inv_initial zero junk (by decide) (by decide), bounded_initial zero junk⟩, ⟨?_⟩⟩
    intro x y i hx hs
    by_cases hh : x = head
    · exact (if_pos hh).trans_le bot_le
    · have hs : (((initialStore zero junk).node x).next i).ref = some y := hs
      simp only [initialStore, Store.node, if_neg hh] at hs
      split at hs <;> cases hs
  step h hs := by
    obtain ⟨L', cl, hL⟩ := h.sane.1.climbs hs.2 hs.1
    exact ⟨h.sane.step hs, (cl.rising h.rising h.sane.1.mem.sound.closed).mono hL⟩

def Pc.late : Pc → ℕ
  | .validLoad _ _ => 5
  | .validStore _ _ _ => 4
  | .insertLoad _ _ => 3
  | .insertFlush _ _ => 2
  | .deleteLoad _ _ => 3
  | .deleteFlush _ _ => 2
  | .insertStore _ _ => 1
  | .deleteStore _ _ => 1
  | _ => 0

noncomputable def Pc.readWay (σ : Store V) : Pc → ℕ ×ₗ ℕ ×ₗ ℕ ×ₗ ℕ
  | .containsDown i _ => toLex (3 * i + 3, toLex (0, toLex (0, 0)))
  | .containsTest i _ curr => σ.tower.way INT_MAX (3 * i + 1) i curr 2
  | .containsPass i _ curr => σ.tower.way INT_MAX (3 * i + 1) i curr 1
  | .containsNext i _ curr => σ.tower.way INT_MAX (3 * i + 1) i curr 0
  | pc => toLex (0, toLex (0, toLex (0, pc.late)))

theorem readWay_step (hm : MemInv σ 1 L) (r : σ.tower.Rising L) (f : Fit σ L op pc)
    (hc : op.IsContains) (hn : next σ op slot level pc = some (σ', pc')) :
    pc'.readWay σ' < pc.readWay σ := by
  have hi : ¬ op.IsInsert := fun h => h.not_contains hc
  have hr : ¬ op.IsRemove := fun h => h.not_contains hc
  have late : ∀ {a b : ℕ}, a < b → (toLex (0, toLex (0, toLex (0, a))) : ℕ ×ₗ ℕ ×ₗ ℕ ×ₗ ℕ) <
      toLex (0, toLex (0, toLex (0, b))) := fun h =>
    Prod.Lex.toLex_lt_toLex.2 (Or.inr ⟨rfl, Prod.Lex.toLex_lt_toLex.2 (Or.inr ⟨rfl,
      Prod.Lex.toLex_lt_toLex.2 (Or.inr ⟨rfl, h⟩)⟩)⟩)
  have found : ∀ {c : FindCtx}, ¬ c.Fits op := by
    intro c h
    cases c with
    | inInsert m l => exact hi h
    | inRemove m => exact hr h
  cases pc with
  | containsDown i p =>
    obtain ⟨c, _, he⟩ := Option.map_eq_some_iff.1 hn
    obtain ⟨rfl, rfl⟩ := Prod.mk.inj he
    exact Tower.way_lt (Nat.lt_succ_self _)
  | containsTest i p c =>
    simp only [next] at hn
    split at hn
    · obtain ⟨rfl, rfl⟩ := Prod.mk.inj (Option.some.inj hn)
      exact Tower.way_near (by decide)
    · split at hn
      · obtain ⟨rfl, rfl⟩ := Prod.mk.inj (Option.some.inj hn)
        exact Tower.lt_way (Nat.succ_pos _)
      · cases i <;> obtain ⟨rfl, rfl⟩ := Prod.mk.inj (Option.some.inj hn)
        · exact Tower.lt_way (Nat.succ_pos _)
        · exact Tower.lt_way (Nat.lt_succ_self _)
  | containsPass i p c =>
    simp only [next] at hn
    split at hn
    · split at hn <;> obtain ⟨rfl, rfl⟩ := Prod.mk.inj (Option.some.inj hn)
      · exact Tower.lt_way (Nat.succ_pos _)
      · exact Tower.way_near (by decide)
    · obtain ⟨rfl, rfl⟩ := Prod.mk.inj (Option.some.inj hn)
      exact Tower.way_near (by decide)
  | containsNext i p c =>
    obtain ⟨d, hs, he⟩ := Option.map_eq_some_iff.1 hn
    obtain ⟨rfl, rfl⟩ := Prod.mk.inj he
    exact Tower.way_next r hm.sound (f.refs (c, i) (by simp [Pc.refs])) hs hm.tail_rank
  | deleteLoad c n =>
    cases c with
    | find c p d s path => exact absurd f.fits found
    | remove r => exact absurd f.fits hr
    | contains =>
      simp only [next] at hn
      split at hn <;> obtain ⟨rfl, rfl⟩ := Prod.mk.inj (Option.some.inj hn)
      · exact late (show 0 < 3 by decide)
      · exact late (show 2 < 3 by decide)
  | deleteFlush c n =>
    obtain ⟨rfl, rfl⟩ := Prod.mk.inj (Option.some.inj hn)
    exact late (show 1 < 2 by decide)
  | deleteStore c n =>
    cases c with
    | find c p d s path => exact absurd f.fits found
    | remove r => exact absurd f.fits hr
    | contains =>
      obtain ⟨rfl, rfl⟩ := Prod.mk.inj (Option.some.inj hn)
      exact late (show 0 < 1 by decide)
  | validLoad c n =>
    cases c with
    | contains =>
      simp only [next] at hn
      split at hn <;> obtain ⟨rfl, rfl⟩ := Prod.mk.inj (Option.some.inj hn)
      · exact late (show 3 < 5 by decide)
      · exact late (show 4 < 5 by decide)
    | removing => exact absurd f.fits hr
    | _ => exact absurd f.fits hi
  | validStore c n old =>
    cases c with
    | contains =>
      obtain ⟨rfl, rfl⟩ := Prod.mk.inj (Option.some.inj hn)
      exact late (show 3 < 4 by decide)
    | removing => exact absurd f.fits hr
    | _ => exact absurd f.fits hi
  | insertLoad c n =>
    cases c with
    | contains =>
      simp only [next] at hn
      split at hn <;> obtain ⟨rfl, rfl⟩ := Prod.mk.inj (Option.some.inj hn)
      · exact late (show 0 < 3 by decide)
      · exact late (show 2 < 3 by decide)
    | _ => exact absurd f.fits hi
  | insertFlush c n =>
    obtain ⟨rfl, rfl⟩ := Prod.mk.inj (Option.some.inj hn)
    exact late (show 1 < 2 by decide)
  | insertStore c n =>
    cases c with
    | contains =>
      obtain ⟨rfl, rfl⟩ := Prod.mk.inj (Option.some.inj hn)
      exact late (show 0 < 1 by decide)
    | _ => exact absurd f.fits hi
  | ret r => cases hn
  | findDown | findLoad | findCas => exact absurd f.fits found
  | _ => first | exact absurd f.fits hi | exact absurd f.fits hr | exact absurd hc f.fits

theorem readWay_other (h : Climbing s) (clean : s.Clean s') (hs : Step s e s')
    (f : Fit s.store s.live op pc) : pc.readWay s'.store ≤ pc.readWay s.store := by
  obtain ⟨L', cl, _⟩ := h.sane.1.climbs clean hs
  have near : ∀ {x i a d}, (x, i) ∈ s.live → s'.store.tower.way INT_MAX a i x d ≤
      s.store.tower.way INT_MAX a i x d := fun hx =>
    Tower.way_congr (cl.rank hx) (cl.flat_le h.rising h.sane.1.mem.sound hx)
  cases pc with
  | containsTest i p c => exact near (f.refs (c, i) (by simp [Pc.refs]))
  | containsPass i p c => exact near (f.refs (c, i) (by simp [Pc.refs]))
  | containsNext i p c => exact near (f.refs (c, i) (by simp [Pc.refs]))
  | _ => exact le_rfl

theorem linkFreeSkipList_contains_returns :
    (cleanMachine V).StarvationFree SetOp.IsContains := by
  refine Machine.starvationFree_of_rank (fun s pc => pc.readWay s.store) stable_climbing
    (fun h _ ht => h.sane.can ht) ?_ ?_
  · intro s t s' op pc pc' h hc hs ht ht'
    obtain ⟨slot, level, σ, hn, rfl⟩ := tau_inv hs.1 ht ht'
    exact readWay_step h.sane.1.mem h.rising (h.sane.1.fit ht) hc hn
  · intro s e s' t op pc h hc hs _ ht
    exact readWay_other h hs.2 hs.1 (h.sane.1.fit ht)

end LinkFree.SkipList
