import DurableSets.SOFT.SkipListProgress
import DurableSets.SOFT.SkipListSchedule

namespace SOFT.SkipList

open Chain

variable {V : Type} {σ σ' : Store V} {L : Set Cursor} {x y p n c d slot : Loc} {i j level : ℕ}
  {op : SetOp V} {pc pc' : Pc} {path : Path} {k : ℤ} {st : NodeState} {s s' : State V} {t : Tid}

-- k is there, or there is a place for it between two neighbours that are not DELETED
inductive Direct (σ : Store V) (k : ℤ) : Prop where
  | present (x : Loc) (linked : (σ.level 0).Linked x) (alive : ¬ σ.dead 0 x)
    (key : rank σ x = (k : WithBot ℤ))
  | between (a b : Loc) (linked : (σ.level 0).Linked a) (pred : ¬ σ.dead 0 a)
    (next : ((σ.node a).next 0).ref = some b) (alive : ¬ σ.dead 0 b)
    (below : rank σ a < (k : WithBot ℤ)) (above : (k : WithBot ℤ) < rank σ b)

def Ready (σ : Store V) (path : Path) : Prop :=
  ∃ e, path[0]? = some e ∧ (σ.node e.pred).next 0 = e.succs

-- the insert has found k or linked its node, or it can
def Pc.Unblocked (σ : Store V) (k : ℤ) (pc : Pc) : Prop :=
  ∀ path, pc.trying = some path → Direct σ k ∨ Ready σ path

theorem SameBase.dead (h : SameBase σ σ' x) : σ'.dead 0 x ↔ σ.dead 0 x := by
  unfold Store.dead
  rw [h.state]

theorem SameBase.symm (h : SameBase σ σ' x) : SameBase σ' σ x := ⟨h.1.symm, h.2.symm⟩

theorem direct_of_same
    (h : ∀ x, (σ.level 0).Linked x → (σ'.level 0).Linked x ∧ SameBase σ σ' x)
    (hd : Direct σ k) : Direct σ' k := by
  cases hd with
  | present x hl ha hk =>
    obtain ⟨hl', hx⟩ := h x hl
    exact Direct.present x hl' (fun hd => ha (hx.dead.1 hd)) ((rank_congr hx.2).trans hk)
  | between a b hl hp hn ha h1 h2 =>
    obtain ⟨hl', hsa⟩ := h a hl
    obtain ⟨_, hsb⟩ := h b (Heap.Reach.tail hl hn)
    refine Direct.between a b hl' (fun hd => hp (hsa.dead.1 hd))
      ((congrArg Ptr.ref hsa.1).trans hn) (fun hd => ha (hsb.dead.1 hd)) ?_ ?_
    · rwa [rank_congr hsa.2]
    · rwa [rank_congr hsb.2]

theorem direct_congr (hm : MemInv σ 1 L) (h : ∀ x, (x, 0) ∈ L → SameBase σ σ' x) :
    Direct σ' k ↔ Direct σ k := by
  have linked : ∀ {x}, (σ'.level 0).Linked x ↔ (σ.level 0).Linked x :=
    (still_steady hm.sound.closed h).linked hm.good
  refine ⟨direct_of_same fun x hl => ?_, direct_of_same fun x hl => ?_⟩
  · exact ⟨linked.1 hl, (h x (hm.live_of_linked (linked.1 hl))).symm⟩
  · exact ⟨linked.2 hl, h x (hm.live_of_linked hl)⟩

theorem not_ready_nil (σ : Store V) : ¬ Ready σ [] := fun ⟨e, he, _⟩ => by simp at he

theorem ready_congr (hr : ∀ r ∈ Path.refs 0 path, r ∈ L) (h : ∀ x, (x, 0) ∈ L → SameBase σ σ' x) :
    Ready σ' path ↔ Ready σ path := by
  have same : ∀ e, path[0]? = some e → (σ'.node e.pred).next 0 = (σ.node e.pred).next 0 :=
    fun e he => (h e.pred (hr _ (Path.get_refs (i := 0) he).1)).1
  exact exists_congr fun e => and_congr_right fun he => by rw [same e he]

theorem direct_of_ready (hm : MemInv σ 1 L) (hp : (p, 0) ∈ L) (hpr : rank σ p < (k : WithBot ℤ))
    (ht : st ≠ .deleted) (hcd : ¬ σ.dead 0 c) (hcr : (k : WithBot ℤ) < rank σ c)
    (h : Ready σ (⟨p, c, st⟩ :: path)) : Direct σ k := by
  obtain ⟨e, he, hn⟩ := h
  obtain rfl : (⟨p, c, st⟩ : Entry) = e := by simpa using he
  have hd : ¬ σ.dead 0 p := alive_of_addr hn ht
  exact Direct.between p c (hm.linked_of_alive hp Nat.one_pos hd) hd (ref_of_addr hn) hcd hpr hcr

theorem trying_step (hins : op.IsInsert) (hm : MemInv σ 1 L) (f : Fit σ L op pc)
    (hn : next σ op slot level pc = some (σ', pc')) (ht : pc.trying = some path) :
    (Ready σ path ∧ pc'.trying = none) ∨ (∀ x, (x, 0) ∈ L → SameBase σ σ' x) ∧
      ((pc'.trying = none ∧ Direct σ op.key) ∨ ∃ path', pc'.trying = some path' ∧
        (path' = path ∨ ¬ Ready σ path ∧ (Ready σ' path' → Direct σ op.key))) := by
  by_cases hr : Ready σ path ∧ pc'.trying = none
  · exact Or.inl hr
  refine Or.inr ⟨?_, ?_⟩
  · cases tau_cases f hn with
    | link q n e he hq =>
      obtain rfl := Option.some.inj ht
      exact absurd ⟨⟨e, he, hq⟩, rfl⟩ hr
    | state => cases ht
    | unlink => cases ht
    | still h => exact h
  · have stay : pc'.trying = some path → ((pc'.trying = none ∧ Direct σ op.key) ∨
        ∃ path', pc'.trying = some path' ∧
          (path' = path ∨ ¬ Ready σ path ∧ (Ready σ' path' → Direct σ op.key))) :=
      fun h => Or.inr ⟨path, h, Or.inl rfl⟩
    cases act_of_next hn with
    | searchDown => exact stay ht
    | searchSkip => exact stay ht
    | searchGo => exact stay ht
    | searchNext => exact stay ht
    | @searchStop i p y st q alive le =>
      obtain rfl := Option.some.inj ht
      cases i with
      | succ i => exact stay rfl
      | zero =>
        obtain ⟨_, hpr, _, htag, hyh⟩ := f.loc
        have hpl := f.refs (p, 0) (by simp [Pc.refs])
        have hyl := f.refs (y, 0) (by simp [Pc.refs])
        cases op with
        | insert k v =>
          simp only [searchDone, afterSearch]
          split
          · next hk =>
            refine Or.inl ⟨?_, Direct.present y (hm.linked_of_alive hyl Nat.one_pos alive) alive
              (rank_eq_of_key hk hyh)⟩
            split <;> rfl
          · next hne =>
            refine Or.inr ⟨_, rfl, Or.inr ⟨not_ready_nil σ, fun hr => ?_⟩⟩
            have hlt : k < (σ.node y).key := lt_of_le_of_ne le fun h => hne h.symm
            refine direct_of_ready hm hpl hpr htag.1 alive ?_ hr
            rw [rank_of_ne _ hyh]
            exact WithBot.coe_lt_coe.2 hlt
        | _ => exact hins.elim
    | alloc => exact stay ht
    | allocTest => exact stay ht
    | createStart => exact stay ht
    | createKey => exact stay ht
    | createValue => exact stay ht
    | createTopLevel => exact stay ht
    | createValidity => exact stay ht
    | initNext => exact stay ht
    | initLast => exact stay ht
    | @linkWon q n e he hq =>
      obtain rfl := Option.some.inj ht
      exact absurd ⟨⟨e, he, hq⟩, rfl⟩ hr
    | @linkFail q n e he hq =>
      obtain rfl := Option.some.inj ht
      refine Or.inr ⟨[], rfl, Or.inr ⟨?_, fun h => absurd h (not_ready_nil _)⟩⟩
      rintro ⟨a, ha, h⟩
      obtain rfl := Option.some.inj (he.symm.trans ha)
      exact hq h
    | lostStore => exact stay ht
    | lostFree => exact stay ht
    | _ => cases ht

def Pc.Blocked (σ : Store V) (k : ℤ) (pc : Pc) : Prop :=
  ∃ path, pc.trying = some path ∧ ¬ Direct σ k ∧ ¬ Ready σ path

theorem not_unblocked : ¬ pc.Unblocked σ k ↔ pc.Blocked σ k := by
  unfold Pc.Unblocked Pc.Blocked
  push Not
  rfl

theorem trying_refs (h : pc.trying = some path) (hr : ∀ r ∈ pc.refs, r ∈ L) :
    ∀ r ∈ Path.refs 0 path, r ∈ L := by
  cases pc with
  | searchDown i p q =>
    cases h
    exact fun r h => absurd h (by simp [Path.refs])
  | searchTest i p st c q =>
    cases h
    exact fun r h => absurd h (by simp [Path.refs])
  | searchNext i p st c q =>
    cases h
    exact fun r h => absurd h (by simp [Path.refs])
  | _ => cases h <;> exact hr

theorem blocked_step (hins : op.IsInsert) (hm : MemInv σ 1 L) (f : Fit σ L op pc)
    (hn : next σ op slot level pc = some (σ', pc')) (h : pc.Blocked σ op.key) :
    pc'.Blocked σ' op.key := by
  obtain ⟨path, ht, hd, hr⟩ := h
  rcases trying_step hins hm f hn ht with ⟨h, _⟩ | ⟨frame, ⟨_, h⟩ | ⟨path', ht', h⟩⟩
  · exact absurd h hr
  · exact absurd h hd
  · refine ⟨path', ht', fun h => hd ((direct_congr hm frame).1 h), fun hr' => ?_⟩
    rcases h with rfl | ⟨_, h⟩
    · exact hr ((ready_congr (trying_refs ht f.refs) frame).1 hr')
    · exact hd (h hr')

-- it tries for ever
theorem blocked_forever (h : (cleanMachine V).Returns t s) (hs : Sane s) (hins : op.IsInsert)
    (ht : s.thread t = some (op, pc)) (hb : pc.Blocked s.store op.key) : False := by
  induction h generalizing pc with
  | here h => exact absurd (ht.symm.trans h) nofun
  | later can _ ih =>
    obtain ⟨s', hstep⟩ := can
    rcases solo_cases ht hstep with hd | ⟨pc', slot, level, ht', hn⟩
    · rcases hstep with ⟨hstep, _⟩ | ⟨r, hstep, _⟩
      · cases hstep with
        | tau _ op1 pc1 pc' slot level σ h hn ha =>
          exact absurd ((goto_thread_self _ _ _ _).symm.trans hd) nofun
      · cases hstep with
        | ret _ op1 _ h =>
          obtain ⟨_, rfl⟩ := Prod.mk.inj (Option.some.inj (ht.symm.trans h))
          obtain ⟨path, htry, _⟩ := hb
          cases htry
    · exact ih s' hstep (hs.solo hstep) ht'
        (blocked_step hins hs.1.mem (hs.1.fit ht) hn hb)

-- a walk at level 0 that has p behind it and c in front of it gets there
inductive Aims (σ : Store V) (k : ℤ) (p c : Loc) : Prop where
  | present (x : Loc) (alive : ¬ σ.dead 0 x) (key : rank σ x = (k : WithBot ℤ))
    (reach : (σ.level 0).Reach c x)
  | between (a b : Loc) (pred : ¬ σ.dead 0 a) (next : ((σ.node a).next 0).ref = some b)
    (alive : ¬ σ.dead 0 b) (below : rank σ a < (k : WithBot ℤ))
    (above : (k : WithBot ℤ) < rank σ b) (reach : (p = a ∧ c = b) ∨ (σ.level 0).Reach c a)

theorem Direct.aims (hd : Direct σ k) (hm : MemInv σ 1 L) (hp : (p, 0) ∈ L) (ha : ¬ σ.dead 0 p)
    (hlt : rank σ p < (k : WithBot ℤ)) (hs : ((σ.node p).next 0).ref = some c) : Aims σ k p c := by
  have hpl := hm.linked_of_alive hp Nat.one_pos ha
  have le : ∀ {x y}, (σ.level 0).Linked x → (σ.level 0).Reach x y → rank σ x ≤ rank σ y :=
    fun hx => Heap.Ordered.le hm.ordered (hm.good.live_of_linked hx)
  cases hd with
  | present x hl hx hk =>
    refine Aims.present x hx hk ?_
    rcases Heap.Reach.total hpl hl with h | h
    · refine h.succ_of_ne ?_ hs
      rintro rfl
      exact absurd hlt (not_lt.2 hk.ge)
    · exact absurd ((le hl h).trans_lt hlt) (not_lt.2 hk.ge)
  | between a b hl hpa hn hb h1 h2 =>
    refine Aims.between a b hpa hn hb h1 h2 ?_
    by_cases he : p = a
    · subst he
      exact Or.inl ⟨rfl, Option.some.inj (hs.symm.trans hn)⟩
    · rcases Heap.Reach.total hpl hl with h | h
      · exact Or.inr (h.succ_of_ne he hs)
      · have hbp := h.succ_of_ne (Ne.symm he) hn
        have hbl : (σ.level 0).Linked b := Heap.Reach.tail hl hn
        exact absurd ((le hbl hbp).trans_lt hlt) (not_lt.2 h2.le)

theorem Aims.pass (h : Aims σ k p c) (hc : σ.dead 0 c) (hs : ((σ.node c).next 0).ref = some d) :
    Aims σ k p d := by
  cases h with
  | present x hx hk hr =>
    refine Aims.present x hx hk (hr.succ_of_ne ?_ hs)
    rintro rfl
    exact hx hc
  | between a b hpa hn hb h1 h2 hr =>
    refine Aims.between a b hpa hn hb h1 h2 (Or.inr ?_)
    rcases hr with ⟨_, rfl⟩ | hr
    · exact absurd hc hb
    · refine hr.succ_of_ne ?_ hs
      rintro rfl
      exact hpa hc

theorem Aims.step (h : Aims σ k p c) (hlt : rank σ c < (k : WithBot ℤ))
    (hs : ((σ.node c).next 0).ref = some d) : Aims σ k c d := by
  cases h with
  | present x hx hk hr =>
    refine Aims.present x hx hk (hr.succ_of_ne ?_ hs)
    rintro rfl
    exact absurd hlt (not_lt.2 hk.ge)
  | between a b hpa hn hb h1 h2 hr =>
    refine Aims.between a b hpa hn hb h1 h2 ?_
    rcases hr with ⟨_, rfl⟩ | hr
    · exact absurd hlt (not_lt.2 h2.le)
    · by_cases he : c = a
      · subst he
        exact Or.inl ⟨rfl, Option.some.inj (hs.symm.trans hn)⟩
      · exact Or.inr (hr.succ_of_ne he hs)

theorem Aims.arrive (h : Aims σ k p c) (hm : MemInv σ 1 L) (hc : (c, 0) ∈ L)
    (hle : (k : WithBot ℤ) ≤ rank σ c) :
    rank σ c = (k : WithBot ℤ) ∨ ((σ.node p).next 0).ref = some c := by
  have le : ∀ {y}, (σ.level 0).Reach c y → rank σ c ≤ rank σ y :=
    Heap.Ordered.le hm.ordered (Heap.Live.root hc)
  cases h with
  | present x hx hk hr => exact Or.inl (le_antisymm ((le hr).trans hk.le) hle)
  | between a b hpa hn hb h1 h2 hr =>
    rcases hr with ⟨rfl, rfl⟩ | hr
    · exact Or.inr hn
    · exact absurd (hle.trans (le hr)) (not_le.2 h1)

-- the state that the search ascribes to pred at level 0 is the one that it has
def Pc.Keen (σ : Store V) (k : ℤ) : Pc → Prop
  | .searchDown i pred _ => Direct σ k ∧ ¬ σ.dead i pred ∧ σ.stateAt 0 pred = .inserted
  | .searchTest i pred st succ _ => Direct σ k ∧ ¬ σ.dead i pred ∧
      (i = 0 → Aims σ k pred succ ∧ st = σ.stateAt 0 pred)
  | .searchNext i pred st succ _ => Direct σ k ∧ ¬ σ.dead i pred ∧
      (i = 0 → (∀ d, ((σ.node succ).next 0).ref = some d → Aims σ k pred d) ∧
        st = σ.stateAt 0 pred)
  | pc => ∃ path, pc.trying = some path ∧ Ready σ path

theorem keen_of_ready (ht : pc.trying = some path) (hr : Ready σ path) : pc.Keen σ k := by
  have hne : some path ≠ some [] := by
    rintro h
    obtain rfl := Option.some.inj h
    exact not_ready_nil σ hr
  cases pc with
  | searchDown i p q => exact absurd ht.symm hne
  | searchTest i p st c q => exact absurd ht.symm hne
  | searchNext i p st c q => exact absurd ht.symm hne
  | _ => exact ⟨path, ht, hr⟩

theorem keen_step (hins : op.IsInsert) (hm : MemInv σ 1 L) (f : Fit σ L op pc)
    (hn : next σ op slot level pc = some (σ', pc')) (h : pc.Keen σ op.key) :
    pc'.Keen σ' op.key ∨ pc'.trying = none := by
  have init : ∀ path, pc.trying = some path → Ready σ path →
      pc'.Keen σ' op.key ∨ pc'.trying = none := by
    intro path ht hr
    rcases trying_step hins hm f hn ht with ⟨_, h⟩ | ⟨frame, ⟨h, _⟩ | ⟨path', ht', rfl | ⟨h, _⟩⟩⟩
    · exact Or.inr h
    · exact Or.inr h
    · exact Or.inl (keen_of_ready ht' ((ready_congr (trying_refs ht f.refs) frame).2 hr))
    · exact absurd hr h
  cases pc with
  | searchDown i p q =>
    obtain ⟨hd, ha, hst⟩ := h
    obtain ⟨y, hs, he⟩ := Option.map_eq_some_iff.1 hn
    obtain ⟨rfl, rfl⟩ := Prod.mk.inj he
    refine Or.inl ⟨hd, ha, ?_⟩
    rintro rfl
    exact ⟨hd.aims hm (f.refs (p, 0) (by simp [Pc.refs])) ha f.loc.2.1 hs, hst.symm⟩
  | searchTest i p st y q =>
    obtain ⟨hd, ha, haim⟩ := h
    obtain ⟨hi, hpr, _, _, hyh⟩ := f.loc
    have hpl := f.refs (p, i) (by simp [Pc.refs])
    have hyl := f.refs (y, i) (by simp [Pc.refs])
    simp only [next] at hn
    split at hn
    · next hdead =>
      obtain ⟨rfl, rfl⟩ := Prod.mk.inj (Option.some.inj hn)
      refine Or.inl ⟨hd, ha, ?_⟩
      rintro rfl
      exact ⟨fun d hs => (haim rfl).1.pass hdead hs, (haim rfl).2⟩
    · next halive =>
      split at hn <;> obtain ⟨rfl, rfl⟩ := Prod.mk.inj (Option.some.inj hn)
      · next hle =>
        cases i with
        | succ i =>
          exact Or.inl ⟨hd, hm.alive_below hpl (Nat.le_succ i) ha,
            hm.inserted_below hpl (Nat.le_add_left 1 i) ha⟩
        | zero =>
          cases op with
          | insert k v =>
            simp only [searchDone, afterSearch]
            split
            · refine Or.inr ?_
              split <;> rfl
            · next hne =>
              refine Or.inl ⟨_, rfl, ⟨p, y, st⟩, rfl, ?_⟩
              obtain ⟨haim, hst⟩ := haim rfl
              have hs := (haim.arrive hm hyl (le_rank_of_key hle hyh)).resolve_left fun hr => hne ?_
              · rw [addr_of_succ hs, hst]
                rfl
              · rw [rank_of_ne _ hyh] at hr
                exact WithBot.coe_injective hr
          | _ => exact hins.elim
      · next hle =>
        refine Or.inl ⟨hd, halive, ?_⟩
        rintro rfl
        exact ⟨fun d hs => (haim rfl).1.step (rank_lt_of_key (not_le.1 hle) hyh) hs, rfl⟩
  | searchNext i p st y q =>
    obtain ⟨hd, ha, haim⟩ := h
    obtain ⟨z, hs, he⟩ := Option.map_eq_some_iff.1 hn
    obtain ⟨rfl, rfl⟩ := Prod.mk.inj he
    refine Or.inl ⟨hd, ha, ?_⟩
    rintro rfl
    exact ⟨(haim rfl).1 z hs, (haim rfl).2⟩
  | _ =>
    obtain ⟨path, ht, hr⟩ := h
    exact init path ht hr

theorem keen_not_fails (h : pc.Keen σ k) : ¬ pc.Fails σ := by
  cases pc with
  | lostFree n =>
    obtain ⟨path, ht, hr⟩ := h
    obtain rfl := Option.some.inj ht
    exact absurd hr (not_ready_nil σ)
  | findDown c i p path =>
    obtain ⟨_, ht, _⟩ := h
    cases ht
  | findCas c i p st d s path =>
    obtain ⟨_, ht, _⟩ := h
    cases ht
  | upperLink path n i =>
    obtain ⟨_, ht, _⟩ := h
    cases ht
  | _ => exact id

theorem Sane.returns_keen (h : Sane s) (hins : op.IsInsert) (ht : s.thread t = some (op, pc))
    (hk : pc.Keen s.store op.key) : (cleanMachine V).Returns t s := by
  refine h.returns_of hins (I := fun σ pc => pc.Keen σ op.key) ?_ ht hk
  intro s s' pc pc' slot level h h' ht ht' hn hk
  have f := h.1.fit ht
  rcases keen_step hins h.1.mem f hn hk with hk' | hs
  · exact Or.inr ⟨hk', step_measure hins h.1.mem f hn (keen_not_fails hk)⟩
  · exact Or.inl (h'.returns_settled hins ht' hs)

-- it may first have to give up what it had prepared
theorem Sane.returns_direct (h : Sane s) (hins : op.IsInsert) (ht : s.thread t = some (op, pc))
    (htry : pc.trying = some path) (hd : Direct s.store op.key) :
    (cleanMachine V).Returns t s := by
  refine h.returns_of hins
    (I := fun σ pc => (∃ path, pc.trying = some path) ∧ Direct σ op.key) ?_ ht ⟨⟨path, htry⟩, hd⟩
  rintro s s' pc pc' slot level h h' ht ht' hn ⟨⟨path, htry⟩, hd⟩
  have f := h.1.fit ht
  rcases trying_step hins h.1.mem f hn htry with
    ⟨_, hs⟩ | ⟨frame, ⟨hs, _⟩ | ⟨path', htry', _⟩⟩
  · exact Or.inl (h'.returns_settled hins ht' hs)
  · exact Or.inl (h'.returns_settled hins ht' hs)
  · have hd' := (direct_congr h.1.mem frame).2 hd
    by_cases hf : pc.Fails s.store
    · cases pc with
      | lostFree n =>
        obtain ⟨hσ, rfl⟩ := Prod.mk.inj (Option.some.inj hn)
        exact Or.inl (h'.returns_keen hins ht'
          ⟨hd', h'.1.mem.head_alive _, h'.1.mem.head_state 0⟩)
      | findDown c i p path => cases htry
      | findCas c i p st d s path => cases htry
      | upperLink path n i => cases htry
      | _ => exact hf.elim
    · exact Or.inr ⟨⟨⟨path', htry'⟩, hd'⟩, step_measure hins h.1.mem f hn hf⟩

theorem returns_iff (h : Sane s) (hins : op.IsInsert) (ht : s.thread t = some (op, pc)) :
    (cleanMachine V).Returns t s ↔ pc.Unblocked s.store op.key := by
  constructor
  · intro hr
    by_contra hb
    exact blocked_forever hr h hins ht (not_unblocked.1 hb)
  · intro hu
    cases htry : pc.trying with
    | none => exact h.returns_settled hins ht htry
    | some path =>
      rcases hu path htry with hd | hr
      · exact h.returns_direct hins ht htry hd
      · exact h.returns_keen hins ht (keen_of_ready htry hr)

theorem softSkipList_insert_returns (ρ : Run (machine V)) (clean : Clean ρ) (t : Tid)
    (key : ℤ) (value : V) (pc : Pc)
    (ht : (ρ.state ρ.length).thread t = some (.insert key value, pc)) :
    (cleanMachine V).Returns t (ρ.state ρ.length) ↔
      pc.Unblocked (ρ.state ρ.length).store key := by
  have hins : (SetOp.insert key value).IsInsert := trivial
  exact returns_iff (sane_run ρ clean ρ.length le_rfl) hins ht

def insertNext : List (Command ℕ) :=
  [[.call 0 (.insert 5 0)], steps 0 42, [.alloc 0 2 1], steps 0 13,
    [.ret 0, .call 0 (.insert 7 0)]].flatten

-- the same, but thread 1 has set the node of 5 to DELETED and stopped
def insertAtDeleted : List (Command ℕ) :=
  [[.call 0 (.insert 5 0)], steps 0 42, [.alloc 0 2 1], steps 0 13, [.ret 0, .call 1 (.remove 5)],
    steps 1 50, [.call 0 (.insert 7 0)]].flatten

theorem softSkipList_insert_returns_insertNext : ∃ ρ : Run (machine ℕ),
    (ρ.state ρ.length).thread 0 = some (.insert 7 0, retry) ∧
      (cleanMachine ℕ).Returns 0 (ρ.state ρ.length) := by
  obtain ⟨ρ, hρ, _⟩ := exists_play 0 exec (fun h => h) insertNext (by decide +kernel)
  have clean := clean_of_neverRecycled (neverRecycled_of_plays (fun h => h) hρ (by decide +kernel))
  have last := hρ.last (P := fun s =>
    decide (s.thread 0 = some (.insert 7 0, retry)) &&
      ((s.store.node head).next 0 == Ptr.addr 2 .inserted) && ((s.store.node 2).next 0 == Ptr.addr tail .inserted) &&
      (s.store.node 2).key == 5) (by decide +kernel)
  simp only [Bool.and_eq_true, beq_iff_eq, decide_eq_true_eq, and_assoc] at last
  obtain ⟨h1, h2, h3, h4⟩ := last
  have mem := (inv_run ρ clean ρ.length le_rfl).mem
  refine ⟨ρ, h1, (softSkipList_insert_returns ρ clean 0 7 0 retry h1).2 fun path _ => Or.inl ?_⟩
  refine Direct.between 2 tail (Heap.Reach.single (ref_of_addr h2))
    (alive_of_addr h3 (by decide)) (ref_of_addr h3) ?_ ?_ ?_
  · exact fun h => mem.ne_tail_of_dead h rfl
  · rw [rank_of_ne _ (by decide), h4]
    exact WithBot.coe_lt_coe.2 (by decide)
  · rw [mem.tail_rank]
    exact WithBot.coe_lt_coe.2 (by decide)

theorem softSkipList_insert_stalls : ∃ ρ : Run (machine ℕ), NeverRecycled ρ ∧
    (ρ.state ρ.length).thread 0 = some (.insert 7 0, retry) ∧
      ¬ (cleanMachine ℕ).Returns 0 (ρ.state ρ.length) := by
  obtain ⟨ρ, hρ, _⟩ := exists_play 0 exec (fun h => h) insertAtDeleted (by decide +kernel)
  have never := neverRecycled_of_plays (fun h => h) hρ (by decide +kernel)
  have clean := clean_of_neverRecycled never
  have last := hρ.last (P := fun s =>
    decide (s.thread 0 = some (.insert 7 0, retry)) &&
      ((s.store.node head).next 0 == Ptr.addr 2 .inserted) && ((s.store.node 2).next 0 == Ptr.addr tail .deleted) &&
      (s.store.node 2).key == 5) (by decide +kernel)
  simp only [Bool.and_eq_true, beq_iff_eq, decide_eq_true_eq, and_assoc] at last
  obtain ⟨h1, h2, h3, h4⟩ := last
  have hs := sane_run ρ clean ρ.length le_rfl
  have dead : (ρ.state ρ.length).store.dead 0 2 := state_of_addr h3
  have linked : ∀ x, ((ρ.state ρ.length).store.level 0).Linked x → x = head ∨ x = 2 ∨ x = tail := by
    intro x hx
    rcases hx.eq_or_succ with rfl | ⟨a, ha, hx⟩
    · exact Or.inl rfl
    · obtain rfl := Option.some.inj ((ref_of_addr h2).symm.trans ha)
      rcases hx.eq_or_succ with rfl | ⟨b, hb, hx⟩
      · exact Or.inr (Or.inl rfl)
      · obtain rfl : tail = b := Option.some.inj ((congrArg Ptr.ref h3).symm.trans hb)
        rcases hx.eq_or_succ with rfl | ⟨c, hc, _⟩
        · exact Or.inr (Or.inr rfl)
        · exact absurd ((congrArg Ptr.ref (hs.1.mem.tail_next 0)).symm.trans hc) nofun
  have blocked : retry.Blocked (ρ.state ρ.length).store 7 := by
    refine ⟨[], rfl, fun hd => ?_, not_ready_nil _⟩
    cases hd with
    | present x hl ha hk =>
      rcases linked x hl with rfl | rfl | rfl
      · rw [rank_head] at hk
        cases hk
      · exact ha dead
      · rw [hs.1.mem.tail_rank] at hk
        exact absurd (WithBot.coe_injective hk) (by decide)
    | between a b hl ha hn hb _ _ =>
      rcases linked a hl with rfl | rfl | rfl
      · obtain rfl : 2 = b := Option.some.inj ((ref_of_addr h2).symm.trans hn)
        exact hb dead
      · exact ha dead
      · rw [hs.1.mem.tail_next] at hn
        cases hn
  have hins : (SetOp.insert 7 0 : SetOp ℕ).IsInsert := trivial
  exact ⟨ρ, never, h1, fun hr => blocked_forever hr hs hins h1 blocked⟩

end SOFT.SkipList
