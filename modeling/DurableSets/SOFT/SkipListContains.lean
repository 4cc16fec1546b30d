import DurableSets.Core.Slope
import DurableSets.SOFT.SkipListRemove

/-! contains comes to an end whatever the other threads do, although above level 0 a node may be
linked in front of others with the same key. -/

namespace SOFT.SkipList

open Chain

variable {V : Type} {σ σ' : Store V} {L : Set Cursor} {x n slot : Loc} {i G level : ℕ}
  {op : SetOp V} {pc pc' : Pc} {s s' : State V} {t : Tid} {e : Event (SetOp V)}

theorem next_write {a : Node V} (h : a.next = (σ.node n).next) (x : Loc) :
    ((σ.write n a).node x).next = (σ.node x).next := by
  rw [node_write]
  split
  · next he => rw [h, he]
  · rfl

theorem upper_linked (hm : MemInv σ G L) (f : Fit σ L op pc)
    (hn : next σ op slot level pc = some (σ', pc')) (hi : 1 ≤ i) (hx : (x, i) ∈ L)
    (hnew : (n, i) ∉ L) (hs : ((σ'.node x).next i).ref = some n) :
    ∃ path e, pc = .upperLink path n i ∧ path[i]? = some e ∧ (σ.node x).next i = e.succs ∧
      x = e.pred ∧ σ' = σ.setNext x i (Ptr.addr n .inserted) := by
  have stay : (σ'.node x).next i = (σ.node x).next i → False := fun h =>
    hnew (hm.right hx (h ▸ hs))
  have apart : ∀ {m j}, pc.pending = some (m, j) → j ≤ i → x ≠ m := by
    rintro m j hm' hj rfl
    exact f.fresh _ hm' (hm.sound.closed.lower hx hj)
  have swap : ∀ {m j q}, σ' = σ.setNext m j q → (x = m → i = j → False) → False := by
    rintro m j q rfl h
    exact stay (next_setNext_other σ q fun he => h (Prod.mk.inj he).1 (Prod.mk.inj he).2)
  cases act_of_next hn with
  | @findWon c j p d s st path hq =>
    refine (swap rfl ?_).elim
    rintro rfl rfl
    rw [next_setNext_self] at hs
    obtain rfl : s = n := Option.some.inj hs
    exact hnew (f.refs (s, i) (by simp [Pc.refs]))
  | initNext => exact (swap rfl fun h _ => apart rfl (Nat.zero_le i) h).elim
  | initLast => exact (swap rfl fun h _ => apart rfl (Nat.zero_le i) h).elim
  | linkWon => exact (swap rfl fun _ h => by omega).elim
  | stateWon => exact (swap rfl fun _ h => by omega).elim
  | upperWon => exact (swap rfl fun h h' => apart rfl h'.ge h).elim
  | @upperLink path m j a hpath hq =>
    by_cases he : x = a.pred ∧ i = j
    · obtain ⟨rfl, rfl⟩ := he
      rw [next_setNext_self] at hs
      obtain rfl : m = n := Option.some.inj hs
      exact ⟨path, a, rfl, hpath, hq, rfl, rfl⟩
    · exact (swap rfl fun h h' => he ⟨h, h'⟩).elim
  | @markWon m j q hq =>
    refine (swap rfl ?_).elim
    rintro rfl rfl
    rw [next_setNext_self] at hs
    refine hnew (hm.right hx ?_)
    rw [hq]
    exact hs
  | @helpFlush c m => exact (stay (congrFun (touch_same (same_flush σ m) x).next i)).elim
  | @destroyFlush r m => exact (stay (congrFun (touch_same (same_flush σ m) x).next i)).elim
  | helpStore | createStart | createKey | createValue | createTopLevel | createValidity
  | lostStore | destroyStore => exact (stay (congrFun (next_write (by rfl) x) i)).elim
  | _ => exact (stay rfl).elim

theorem Inv.climbs (hi : Inv 1 s) (clean : s.Clean s') (hs : Step s e s') :
    ∃ L', Tower.Climbs s.store.tower s'.store.tower s.live L' ∧ s'.live ⊆ L' := by
  cases hs with
  | call t op idle hk =>
    refine ⟨s.live, (Tower.Change.steady (steady_of_eq rfl)).climbs (G := 1) hi.mem.sound.closed
      fun _ hp hn h h' => ?_, live_goto hi.mem subset_rfl fun op1 pc1 ha => ?_⟩
    · exact absurd (hi.mem.right hp h') hn
    · obtain ⟨rfl, rfl⟩ := Prod.mk.inj (Option.some.inj ha)
      exact (start_fit hi.mem hk).refs
  | ret t op r ht =>
    refine ⟨s.live, (Tower.Change.steady (steady_of_eq rfl)).climbs (G := 1) hi.mem.sound.closed
      fun _ hp hn h h' => ?_, live_goto hi.mem subset_rfl fun op1 pc1 ha => by cases ha⟩
    exact absurd (hi.mem.right hp h') hn
  | tau t op pc pc' slot level σ ht hn ha =>
    have f := hi.fit ht
    obtain ⟨L', ef, f', _⟩ := tau_ok hi ht (hi.tidy_one (.tau t) t op pc rfl ht) hn ha clean
    have k := ef.kept hi.mem
    refine ⟨L', (ef.change hi.mem).climbs hi.mem.sound.closed fun hG hp hnew hs hs' => ?_,
      live_goto (ef.memInv hi.mem) k.subset fun op1 pc1 ha => ?_⟩
    · obtain ⟨path, a, rfl, hpath, hnext, rfl, rfl⟩ := upper_linked hi.mem f hn hG hp hnew hs'
      obtain ⟨hup, _⟩ := f.loc
      have hmem := List.mem_of_getElem? hpath
      obtain rfl := Option.some.inj ((ref_of_addr hnext).symm.trans hs)
      refine ⟨(hup.levels.below a hmem).trans_eq ?_, le_trans ?_ (hup.levels.above a hmem)⟩
      · exact ((rank_setNext s.store _ _ _ _).trans hup.rank).symm
      · exact ((rank_setNext s.store _ _ _ _).trans hup.rank).le
    · obtain ⟨rfl, rfl⟩ := Prod.mk.inj (Option.some.inj ha)
      exact f'.refs

structure Climbing (s : State V) : Prop where
  sane : Sane s
  passing : s.Passing
  rising : s.store.tower.Rising s.live

theorem stable_climbing : (cleanMachine V).Stable Climbing where
  init {s} h := by
    obtain ⟨zero, rfl⟩ := h
    refine ⟨⟨inv_initial zero (by decide) (by decide), bounded_initial zero⟩,
      fun t op pc h => (by cases h), ⟨?_⟩⟩
    intro x y i hx hs
    by_cases hh : x = head
    · exact (if_pos hh).trans_le bot_le
    · have hs : (((initialStore zero).node x).next i).ref = some y := hs
      simp only [initialStore, Store.node, if_neg hh] at hs
      split at hs <;> cases hs
  step h hs := by
    obtain ⟨L', cl, hL⟩ := h.sane.1.climbs hs.2 hs.1
    exact ⟨h.sane.step hs, h.passing.step h.sane.1 hs.1,
      (cl.rising h.rising h.sane.1.mem.sound.closed).mono hL⟩

noncomputable def Pc.readWay (σ : Store V) : Pc → ℕ ×ₗ ℕ ×ₗ ℕ ×ₗ ℕ
  | .containsDown i _ => toLex (3 * i + 3, toLex (0, toLex (0, 0)))
  | .containsTest i _ curr => σ.tower.way INTPTR_MAX (3 * i + 1) i curr 2
  | .containsPass i _ curr => σ.tower.way INTPTR_MAX (3 * i + 1) i curr 1
  | .containsNext i _ curr => σ.tower.way INTPTR_MAX (3 * i + 1) i curr 0
  | _ => toLex (0, toLex (0, toLex (0, 0)))

theorem StateCtx.Fits.not_contains {c : StateCtx} (h : c.Fits op) : ¬ op.IsContains := by
  cases c with
  | insert c => exact SetOp.IsInsert.not_contains h
  | mark => exact SetOp.IsRemove.not_contains h
  | delete r => exact SetOp.IsRemove.not_contains h

theorem FindCtx.Fits.not_contains {c : FindCtx} (h : c.Fits op) : ¬ op.IsContains := by
  cases c with
  | inInsert m l => exact SetOp.IsInsert.not_contains h
  | inRemove m => exact SetOp.IsRemove.not_contains h

theorem readWay_step (hm : MemInv σ 1 L) (r : σ.tower.Rising L) (f : Fit σ L op pc)
    (hc : op.IsContains) (hn : next σ op slot level pc = some (σ', pc')) :
    pc'.readWay σ' < pc.readWay σ := by
  have hi : ¬ op.IsInsert := fun h => h.not_contains hc
  have hr : ¬ op.IsRemove := fun h => h.not_contains hc
  cases act_of_next hn with
  | containsDown => exact Tower.way_lt (Nat.lt_succ_self _)
  | containsSkip => exact Tower.way_near (by decide)
  | containsFound => exact Tower.lt_way (Nat.succ_pos _)
  | containsEnd => exact Tower.lt_way (Nat.succ_pos _)
  | containsStep => exact Tower.lt_way (Nat.lt_succ_self _)
  | containsOut => exact Tower.way_near (by decide)
  | containsGo => exact Tower.way_near (by decide)
  | @containsNext i p y e hs =>
    exact Tower.way_next r hm.sound (f.refs (y, i) (by simp [Pc.refs])) hs hm.tail_rank
  | findLost | findDown | findSkip | findSame | findCut | findGo | findWon | findFail =>
    exact absurd hc (FindCtx.Fits.not_contains f.fits)
  | stateTest | stateDone | stateLoad | stateWon | stateFail =>
    exact absurd hc (StateCtx.Fits.not_contains f.fits)
  | _ => first | exact absurd f.fits hi | exact absurd f.fits hr | exact absurd hc f.fits

theorem readWay_other (h : Climbing s) (clean : s.Clean s') (hs : Step s e s')
    (f : Fit s.store s.live op pc) : pc.readWay s'.store ≤ pc.readWay s.store := by
  obtain ⟨L', cl, _⟩ := h.sane.1.climbs clean hs
  have near : ∀ {x i a d}, (x, i) ∈ s.live → s'.store.tower.way INTPTR_MAX a i x d ≤
      s.store.tower.way INTPTR_MAX a i x d := fun hx =>
    Tower.way_congr (cl.rank hx) (cl.flat_le h.rising h.sane.1.mem.sound hx)
  cases pc with
  | containsTest i p c => exact near (f.refs (c, i) (by simp [Pc.refs]))
  | containsPass i p c => exact near (f.refs (c, i) (by simp [Pc.refs]))
  | containsNext i p c => exact near (f.refs (c, i) (by simp [Pc.refs]))
  | _ => exact le_rfl

theorem softSkipList_contains_returns :
    (cleanMachine V).StarvationFree SetOp.IsContains := by
  refine Machine.starvationFree_of_rank (fun s pc => pc.readWay s.store) stable_climbing ?_ ?_ ?_
  · intro s t op pc h hc ht
    exact h.sane.others_can (fun hi => hi.not_contains hc) ht (h.passing t op pc ht)
  · intro s t s' op pc pc' h hc hs ht ht'
    obtain ⟨slot, level, σ, hn, _, rfl⟩ := tau_inv hs.1 ht ht'
    exact readWay_step h.sane.1.mem h.rising (h.sane.1.fit ht) hc hn
  · intro s e s' t op pc h hc hs _ ht
    exact readWay_other h hs.2 hs.1 (h.sane.1.fit ht)

end SOFT.SkipList
