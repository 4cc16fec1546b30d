import DurableSets.LinkFree.SkipListLinearizable

namespace LinkFree.SkipList

open Chain

variable {V : Type} {σ σ' : Store V} {L L' : Set Cursor} {x y p n d slot : Loc} {i level : ℕ}
  {op : SetOp V} {pc pc' : Pc} {path : Path} {h : Option Loc} {s s' : State V}

namespace MemInv

variable (hm : MemInv σ MAX_LEVEL L)

include hm

theorem sorted (hi : i < MAX_LEVEL) : Sorted (σ.level i) (Tower.floor L i) :=
  ⟨hm.sound.good hi, hm.sound.ordered hi⟩

theorem live_of_linked_at (hi : i < MAX_LEVEL) (hx : (σ.level i).Linked x) : (x, i) ∈ L :=
  hm.sound.closed.live_iff.1 ((hm.sound.good hi).live_of_linked hx)

theorem dead_of_linked (hi : i < MAX_LEVEL) (hx : (σ.level i).Linked x) (hd : σ.dead 0 x) :
    σ.dead i x := by
  have hxl := hm.live_of_linked_at hi hx
  exact hm.topDown (hm.base hxl) (Nat.zero_le i) (hm.level hxl).1 hd

end MemInv

theorem Effect.unlinked (hm : MemInv σ MAX_LEVEL L) (e : Effect σ MAX_LEVEL L h L' σ')
    (hi : i < MAX_LEVEL) (hx : (x, 0) ∈ L) (hd : σ.dead 0 x) (hl : (σ'.level i).Linked x) :
    (σ.level i).Linked x := by
  have ch := (e.change hm).level hm.sound.closed hi
  have hd' : (σ'.level i).dead x :=
    (e.memInv hm).dead_of_linked hi hl ((e.kept hm).dead hx hd)
  exact (ch.linked_or (hm.sound.good hi) hl).resolve_right fun h => h hd'

def FindCtx.Off (σ : Store V) (i : ℕ) : FindCtx → Prop
  | .inInsert _ _ => True
  | .inRemove n => ∀ j, i ≤ j → j < MAX_LEVEL → ¬ (σ.level j).Linked n

def FindCtx.Past (σ : Store V) (op : SetOp V) (i : ℕ) (d : Loc) : FindCtx → Prop
  | .inInsert _ _ => True
  | .inRemove n => (σ.level i).Linked n → rank σ d ≤ (op.key : ℤ)

def DeleteCtx.Clears (σ : Store V) (op : SetOp V) : DeleteCtx → Prop
  | .find c _ predNext _ _ => c.Off σ 1 ∧ c.Past σ op 0 predNext
  | .remove _ => True
  | .contains => True

def Pc.Clears (σ : Store V) (op : SetOp V) : Pc → Prop
  | .findDown c i _ _ => c.Off σ (i + 1)
  | .findLoad c i _ predNext _ _ => c.Off σ (i + 1) ∧ c.Past σ op i predNext
  | .findCas c i _ _ succ _ => c.Off σ (i + 1) ∧ ∀ n, c = .inRemove n → succ ≠ n
  | .deleteLoad c _ => c.Clears σ op
  | .deleteFlush c _ => c.Clears σ op
  | .deleteStore c _ => c.Clears σ op
  | .removeFree n => ∀ j < MAX_LEVEL, ¬ (σ.level j).Linked n
  | _ => True

theorem Effect.off (hm : MemInv σ MAX_LEVEL L) (e : Effect σ MAX_LEVEL L h L' σ') {c : FindCtx}
    (hr : ∀ r ∈ c.refs, r ∈ L) (hc : c.Ok σ op) (ho : c.Off σ i) : c.Off σ' i := by
  cases c with
  | inInsert n l => trivial
  | inRemove n =>
    exact fun j h1 h2 hl => ho j h1 h2 (e.unlinked hm h2 (hr (n, 0) (by simp [FindCtx.refs])) hc.2 hl)

theorem Effect.past (hm : MemInv σ MAX_LEVEL L) (e : Effect σ MAX_LEVEL L h L' σ') {c : FindCtx}
    (hi : i < MAX_LEVEL) (hr : ∀ r ∈ c.refs, r ∈ L) (hc : c.Ok σ op) (hd : (d, i) ∈ L)
    (ho : c.Past σ op i d) : c.Past σ' op i d := by
  cases c with
  | inInsert n l => trivial
  | inRemove n =>
    intro hl
    rw [(e.kept hm).rank_eq hd]
    exact ho (e.unlinked hm hi (hr (n, 0) (by simp [FindCtx.refs])) hc.2 hl)

theorem Effect.deleteClears (hm : MemInv σ MAX_LEVEL L) (e : Effect σ MAX_LEVEL L h L' σ')
    {c : DeleteCtx} (hr : ∀ r ∈ c.refs n, r ∈ L) (hc : DeleteOk σ op n c) (ho : c.Clears σ op) :
    c.Clears σ' op := by
  cases c with
  | find c p d s path =>
    obtain ⟨_, _, _, _, _, _, hok⟩ := hc
    have hrc : ∀ r ∈ c.refs, r ∈ L := fun r h => hr r (by simp [DeleteCtx.refs, h])
    exact ⟨e.off hm hrc hok ho.1,
      e.past hm (by decide) hrc hok (hr (d, 0) (by simp [DeleteCtx.refs])) ho.2⟩
  | _ => trivial

theorem Effect.clears (hm : MemInv σ MAX_LEVEL L) (e : Effect σ MAX_LEVEL L h L' σ')
    (f : Fit σ L op pc) (hc : pc.Clears σ op) : pc.Clears σ' op := by
  cases pc with
  | findDown c i p path =>
    exact e.off hm (fun r h => f.refs r (by simp [Pc.refs, h])) f.loc.2.2.2 hc
  | findLoad c i p d s path =>
    obtain ⟨hi, _, _, hok, _⟩ := f.loc
    have hrc : ∀ r ∈ c.refs, r ∈ L := fun r h => f.refs r (by simp [Pc.refs, h])
    exact ⟨e.off hm hrc hok hc.1, e.past hm hi hrc hok (f.refs (d, i) (by simp [Pc.refs])) hc.2⟩
  | findCas c i p d s path =>
    exact ⟨e.off hm (fun r h => f.refs r (by simp [Pc.refs, h])) f.loc.2.2.2.1 hc.1, hc.2⟩
  | deleteLoad c n => exact e.deleteClears hm f.refs f.loc hc
  | deleteFlush c n => exact e.deleteClears hm f.refs f.loc hc
  | deleteStore c n => exact e.deleteClears hm f.refs f.loc.1 hc
  | removeFree n =>
    exact fun j hj hl => hc j hj (e.unlinked hm hj (f.refs (n, 0) (by simp [Pc.refs])) f.loc.2 hl)
  | _ => trivial

theorem retry_clears (c : FindCtx) : c.retry.Clears σ op := by
  cases c with
  | inInsert n l => trivial
  | inRemove n => exact fun j h1 h2 => absurd h2 (not_lt.2 h1)

theorem past_of_pred {c : FindCtx} (hm : MemInv σ MAX_LEVEL L) (hi : i < MAX_LEVEL)
    (hc : c.Ok σ op) (hp : (p, i) ∈ L) (hd : ¬ σ.dead i p) (hlt : rank σ p < (op.key : ℤ))
    (hs : ((σ.node p).next i).ref = some y) : c.Past σ op i y := by
  cases c with
  | inInsert n l => trivial
  | inRemove n =>
    intro hl
    by_contra hle
    exact (hm.sorted hi).gap (hm.linked_of_alive hp hi hd) hs hlt (not_le.1 hle) n hl hc.1

theorem off_of_past {c : FindCtx} (hm : MemInv σ MAX_LEVEL L) (hi : i < MAX_LEVEL)
    (hc : c.Ok σ op) (ho : c.Off σ (i + 1)) (hy : (y, i) ∈ L) (hd : ¬ σ.dead i y)
    (hle : ((op.key : ℤ) : WithBot ℤ) ≤ rank σ y) (hp : c.Past σ op i y) : c.Off σ i := by
  cases c with
  | inInsert n l => trivial
  | inRemove n =>
    intro j h1 h2
    rcases Nat.lt_or_eq_of_le h1 with h1 | rfl
    · exact ho j h1 h2
    · intro hl
      have hr : rank σ y = rank σ n := (le_antisymm (hp hl) hle).trans hc.1.symm
      obtain rfl := (hm.sorted hi).eq_of_rank (hm.linked_of_alive hy hi hd) hl hr
      exact hd (hm.dead_of_linked hi hl hc.2)

theorem off_of_link {c : FindCtx} (hm : MemInv σ MAX_LEVEL L) (hi : i < MAX_LEVEL)
    (hc : c.Ok σ op) (ho : c.Off σ (i + 1)) (hp : (p, i) ∈ L)
    (hs : (σ.node p).next i = Ptr.addr y) (hlt : rank σ p < (op.key : ℤ))
    (hle : ((op.key : ℤ) : WithBot ℤ) ≤ rank σ y) (hy : ∀ n, c = .inRemove n → y ≠ n) :
    c.Off σ i := by
  cases c with
  | inInsert n l => trivial
  | inRemove n =>
    intro j h1 h2
    rcases Nat.lt_or_eq_of_le h1 with h1 | rfl
    · exact ho j h1 h2
    · intro hl
      have hpl := hm.linked_of_alive hp hi (dead_of_addr hs)
      rcases lt_or_eq_of_le hle with hlt' | heq
      · exact (hm.sorted hi).gap hpl (ref_of_addr hs) hlt hlt' n hl hc.1
      · have hyl : (σ.level i).Linked y := Heap.Reach.tail hpl (ref_of_addr hs)
        exact hy n rfl ((hm.sorted hi).eq_of_rank hyl hl (heq.symm.trans hc.1.symm))

theorem findDone_clears {c : FindCtx} (ho : c.Off σ i) :
    (findDone c p y path i).Clears σ op := by
  cases i with
  | zero =>
    cases c with
    | inInsert n l => trivial
    | inRemove n => exact fun j hj => ho j (Nat.zero_le j) hj
  | succ i => exact ho

theorem afterDelete_clears {c : DeleteCtx} (ho : c.Clears σ op) :
    (afterDelete n c).Clears σ op := by
  cases c with
  | find c p d s path => exact ho
  | remove r =>
    cases r with
    | true => exact retry_clears (.inRemove n)
    | false => trivial
  | contains => trivial

theorem clears_findDown {c : FindCtx} (hm : MemInv σ MAX_LEVEL L)
    (f : Fit σ L op (.findDown c i p path)) (hc : (Pc.findDown c i p path).Clears σ op)
    (hn : next σ op slot level (.findDown c i p path) = some (σ', pc')) : pc'.Clears σ' op := by
  obtain ⟨hi, hp, _, hok⟩ := f.loc
  simp only [next] at hn
  split at hn
  · obtain ⟨rfl, rfl⟩ := Prod.mk.inj (Option.some.inj hn)
    exact retry_clears c
  · next hmk =>
    obtain ⟨s, hs, he⟩ := Option.map_eq_some_iff.1 hn
    obtain ⟨rfl, rfl⟩ := Prod.mk.inj he
    exact ⟨hc, past_of_pred hm hi hok (f.refs (p, i) (by simp [Pc.refs])) hmk hp hs⟩

theorem clears_findLoad {c : FindCtx} {y : Loc} (hm : MemInv σ MAX_LEVEL L)
    (f : Fit σ L op (.findLoad c i p d y path)) (hc : (Pc.findLoad c i p d y path).Clears σ op)
    (hn : next σ op slot level (.findLoad c i p d y path) = some (σ', pc')) :
    pc'.Clears σ' op := by
  obtain ⟨hi, hp, _, hok, hyh, _⟩ := f.loc
  have hyl := f.refs (y, i) (by simp [Pc.refs])
  simp only [next] at hn
  split at hn
  · obtain ⟨e, hs, he⟩ := Option.map_eq_some_iff.1 hn
    obtain ⟨rfl, rfl⟩ := Prod.mk.inj he
    split
    · next h0 =>
      subst h0
      exact hc
    · exact hc
  · next hmk =>
    split at hn
    · next hk =>
      obtain ⟨rfl, rfl⟩ := Prod.mk.inj (Option.some.inj hn)
      split
      · next hdy =>
        subst hdy
        exact findDone_clears (off_of_past hm hi hok hc.1 hyl hmk (le_rank_of_key hk hyh) hc.2)
      · refine ⟨hc.1, ?_⟩
        rintro n rfl rfl
        exact hmk (hm.topDown (hm.base hyl) (Nat.zero_le i) (hm.level hyl).1 hok.2)
    · next hk =>
      obtain ⟨e, hs, he⟩ := Option.map_eq_some_iff.1 hn
      obtain ⟨rfl, rfl⟩ := Prod.mk.inj he
      exact ⟨hc.1, past_of_pred hm hi hok hyl hmk (rank_lt_of_key (not_le.1 hk) hyh) hs⟩

theorem clears_findCas {c : FindCtx} {y : Loc} (hm : MemInv σ MAX_LEVEL L)
    (f : Fit σ L op (.findCas c i p d y path)) (hc : (Pc.findCas c i p d y path).Clears σ op)
    (hn : next σ op slot level (.findCas c i p d y path) = some (σ', pc')) :
    pc'.Clears σ' op := by
  obtain ⟨hi, hp, _, hok, hle, path⟩ := f.loc
  have hpl := f.refs (p, i) (by simp [Pc.refs])
  have hyl := f.refs (y, i) (by simp [Pc.refs])
  have hrc : ∀ r ∈ c.refs, r ∈ L := fun r h => f.refs r (by simp [Pc.refs, h])
  simp only [next] at hn
  split at hn <;> obtain ⟨rfl, rfl⟩ := Prod.mk.inj (Option.some.inj hn)
  · next hnext =>
    have e : Effect σ MAX_LEVEL L none L (σ.setNext p i (Ptr.addr y)) :=
      Effect.swing p d y i none hpl hnext path
    have k := e.kept hm
    refine findDone_clears (off_of_link (e.memInv hm) hi (k.findOk hrc hok)
      (e.off hm hrc hok hc.1) hpl (next_setNext_self σ p i _) ?_ ?_ hc.2)
    · exact (k.rank_eq hpl).trans_lt hp
    · exact hle.trans_eq (k.rank_eq hyl).symm
  · exact retry_clears c

theorem searchDone_clears (τ : Store V) (p c : Loc) (path : Path) (i : ℕ) :
    (searchDone τ op p c path i).Clears σ op := by
  cases i with
  | zero => cases op <;> simp only [searchDone, afterSearch] <;> first | trivial | (split <;> trivial)
  | succ i => trivial

theorem upper_clears (τ : Store V) (path : Path) (n : Loc) (i : ℕ) :
    (upper τ path n i).Clears σ op := by
  unfold upper
  split <;> trivial

theorem afterInsert_clears (τ : Store V) (n : Loc) (c : InsertCtx) :
    (afterInsert τ n c).Clears σ op := by
  cases c with
  | linked path => exact upper_clears τ path n 1
  | _ => trivial

theorem afterValid_clears (τ : Store V) (n : Loc) (c : ValidCtx) :
    (afterValid τ n c).Clears σ op := by
  cases c <;> trivial

theorem marked_clears (n : Loc) (r : Bool) (i : ℕ) : (marked n r i).Clears σ op := by
  cases i <;> trivial

theorem Effect.clears_step (hm : MemInv σ MAX_LEVEL L) (e : Effect σ MAX_LEVEL L h L' σ')
    (f : Fit σ L op pc) (hc : pc.Clears σ op)
    (hn : next σ op slot level pc = some (σ', pc')) : pc'.Clears σ' op := by
  have hc' := e.clears hm f hc
  cases pc with
  | findDown c i p path => exact clears_findDown hm f hc hn
  | findLoad c i p d y path => exact clears_findLoad hm f hc hn
  | findCas c i p d y path => exact clears_findCas hm f hc hn
  | deleteLoad c n =>
    simp only [next] at hn
    split at hn <;> obtain ⟨rfl, rfl⟩ := Prod.mk.inj (Option.some.inj hn)
    · exact afterDelete_clears hc
    · exact hc
  | deleteFlush c n =>
    obtain ⟨rfl, rfl⟩ := Prod.mk.inj (Option.some.inj hn)
    exact hc'
  | deleteStore c n =>
    obtain ⟨rfl, rfl⟩ := Prod.mk.inj (Option.some.inj hn)
    exact afterDelete_clears hc'
  | searchTest i p c path =>
    simp only [next] at hn
    split at hn
    · obtain ⟨rfl, rfl⟩ := Prod.mk.inj (Option.some.inj hn)
      trivial
    · split at hn <;> obtain ⟨rfl, rfl⟩ := Prod.mk.inj (Option.some.inj hn)
      · exact searchDone_clears _ _ _ _ _
      · trivial
  | validLoad c n =>
    simp only [next] at hn
    split at hn <;> obtain ⟨rfl, rfl⟩ := Prod.mk.inj (Option.some.inj hn)
    · exact afterValid_clears _ _ _
    · trivial
  | validStore c n old =>
    obtain ⟨rfl, rfl⟩ := Prod.mk.inj (Option.some.inj hn)
    exact afterValid_clears _ _ _
  | insertLoad c n =>
    simp only [next] at hn
    split at hn <;> obtain ⟨rfl, rfl⟩ := Prod.mk.inj (Option.some.inj hn)
    · exact afterInsert_clears _ _ _
    · trivial
  | insertStore c n =>
    obtain ⟨rfl, rfl⟩ := Prod.mk.inj (Option.some.inj hn)
    exact afterInsert_clears _ _ _
  | initValue path n l =>
    cases op with
    | insert k v =>
      obtain ⟨rfl, rfl⟩ := Prod.mk.inj (Option.some.inj hn)
      trivial
    | _ => cases hn
  | initNext path n i =>
    obtain ⟨e, _, he⟩ := Option.map_eq_some_iff.1 hn
    obtain ⟨rfl, rfl⟩ := Prod.mk.inj he
    split <;> trivial
  | upperLoad path n i =>
    simp only [next] at hn
    split at hn
    · obtain ⟨rfl, rfl⟩ := Prod.mk.inj (Option.some.inj hn)
      trivial
    · obtain ⟨e, _, he⟩ := Option.map_eq_some_iff.1 hn
      obtain ⟨rfl, rfl⟩ := Prod.mk.inj he
      split <;> trivial
  | upperLink path n i =>
    simp only [next] at hn
    obtain ⟨e, _, he⟩ := Option.map_eq_some_iff.1 hn
    split at he <;> obtain ⟨rfl, rfl⟩ := Prod.mk.inj he
    · exact upper_clears _ _ _ _
    · exact retry_clears (.inInsert n i)
  | markLoad n i =>
    simp only [next] at hn
    split at hn <;> obtain ⟨rfl, rfl⟩ := Prod.mk.inj (Option.some.inj hn)
    · exact marked_clears _ _ _
    · trivial
  | markCas n i q =>
    simp only [next] at hn
    split at hn <;> obtain ⟨rfl, rfl⟩ := Prod.mk.inj (Option.some.inj hn)
    · exact marked_clears _ _ _
    · trivial
  | containsTest i p c =>
    simp only [next] at hn
    split at hn
    · obtain ⟨rfl, rfl⟩ := Prod.mk.inj (Option.some.inj hn)
      trivial
    · split at hn
      · obtain ⟨rfl, rfl⟩ := Prod.mk.inj (Option.some.inj hn)
        trivial
      · cases i <;> obtain ⟨rfl, rfl⟩ := Prod.mk.inj (Option.some.inj hn) <;> trivial
  | containsPass i p c =>
    simp only [next] at hn
    split at hn
    · split at hn <;> obtain ⟨rfl, rfl⟩ := Prod.mk.inj (Option.some.inj hn) <;> trivial
    · obtain ⟨rfl, rfl⟩ := Prod.mk.inj (Option.some.inj hn)
      trivial
  | linkCas path n =>
    simp only [next] at hn
    obtain ⟨e, _, he⟩ := Option.map_eq_some_iff.1 hn
    split at he <;> obtain ⟨rfl, rfl⟩ := Prod.mk.inj he <;> trivial
  | upperCas path n i q =>
    simp only [next] at hn
    obtain ⟨e, _, he⟩ := Option.map_eq_some_iff.1 hn
    split at he <;> obtain ⟨rfl, rfl⟩ := Prod.mk.inj he <;> trivial
  | searchDown i p path =>
    obtain ⟨e, _, he⟩ := Option.map_eq_some_iff.1 hn
    obtain ⟨rfl, rfl⟩ := Prod.mk.inj he
    trivial
  | searchNext i p c path =>
    obtain ⟨e, _, he⟩ := Option.map_eq_some_iff.1 hn
    obtain ⟨rfl, rfl⟩ := Prod.mk.inj he
    trivial
  | containsDown i p =>
    obtain ⟨e, _, he⟩ := Option.map_eq_some_iff.1 hn
    obtain ⟨rfl, rfl⟩ := Prod.mk.inj he
    trivial
  | containsNext i p c =>
    obtain ⟨e, _, he⟩ := Option.map_eq_some_iff.1 hn
    obtain ⟨rfl, rfl⟩ := Prod.mk.inj he
    trivial
  | ret r => cases hn
  | _ =>
    obtain ⟨rfl, rfl⟩ := Prod.mk.inj (Option.some.inj hn)
    trivial

theorem start_clears (op : SetOp V) : (start op).Clears σ op := by cases op <;> trivial

theorem avail_step (hn : next σ op slot level pc = some (σ', pc')) (h0 : σ.avail x = false)
    (h1 : σ'.avail x = true) :
    σ'.line = σ.line ∧ (pc = .lostFree x ∨ pc = .removeFree x) := by
  have given : ∀ n, σ' = σ.give n → σ'.line = σ.line ∧ x = n := by
    rintro n rfl
    refine ⟨rfl, ?_⟩
    by_contra he
    have : σ.avail x = true := by simpa [Store.give, he] using h1
    rw [h0] at this
    cases this
  cases pc with
  | alloc path =>
    obtain ⟨rfl, rfl⟩ := Prod.mk.inj (Option.some.inj hn)
    by_cases he : x = slot
    · simp [Store.take, he] at h1
    · simp [Store.take, he, h0] at h1
  | lostFree n =>
    obtain ⟨rfl, rfl⟩ := Prod.mk.inj (Option.some.inj hn)
    obtain ⟨h, rfl⟩ := given n rfl
    exact ⟨h, Or.inl rfl⟩
  | removeFree n =>
    obtain ⟨rfl, rfl⟩ := Prod.mk.inj (Option.some.inj hn)
    obtain ⟨h, rfl⟩ := given n rfl
    exact ⟨h, Or.inr rfl⟩
  | _ =>
    rw [avail_frame hn (fun _ h => by cases h) (fun _ h => by cases h) (fun _ h => by cases h), h0]
      at h1
    cases h1

structure Reclaimed (s : State V) : Prop where
  inv : Inv MAX_LEVEL s
  clears : ∀ {t op pc}, s.thread t = some (op, pc) → pc.Clears s.store op
  dead : ∀ {x}, s.store.avail x = true → (x, 0) ∈ s.live → s.store.dead 0 x
  unlinked : ∀ {x i}, s.store.avail x = true → i < MAX_LEVEL → ¬ (s.store.level i).Linked x

theorem Effect.same_line (e : Effect σ MAX_LEVEL L h L' σ') (hl : σ'.line = σ.line) : L' = L := by
  cases e with
  | join p n c i live next fresh base new_next level tidy fields =>
    have hp := congrFun hl p
    unfold Store.setNext at hp
    rw [line_write_self] at hp
    have := congrArg (fun l : Line (Node V) => l.older.length) hp
    simp [Line.write, Line.contents] at this
  | _ => rfl

theorem Reclaimed.step_idle (h : Reclaimed s) {t : Tid} (a : Option (SetOp V × Pc))
    (hi : Inv MAX_LEVEL (s.goto s.store t a))
    (hr : ∀ op pc, a = some (op, pc) → (∀ r ∈ pc.refs, r ∈ s.live) ∧ pc.Clears s.store op) :
    Reclaimed (s.goto s.store t a) where
  inv := hi
  clears {u op pc} hu := by
    by_cases he : u = t
    · subst he
      rw [goto_thread_self] at hu
      exact (hr op pc hu).2
    · rw [goto_thread_other _ _ _ he] at hu
      exact h.clears hu
  dead hx hl := h.dead hx (live_goto h.inv.mem subset_rfl (fun op pc ha => (hr op pc ha).1) hl)
  unlinked := h.unlinked

theorem Reclaimed.step_tau (h : Reclaimed s) {t : Tid} (ht : s.thread t = some (op, pc))
    (hn : next s.store op slot level pc = some (σ, pc'))
    (hi : Inv MAX_LEVEL (s.goto σ t (some (op, pc'))))
    (ok : StepOk s.store MAX_LEVEL s.live op pc σ pc') :
    Reclaimed (s.goto σ t (some (op, pc'))) := by
  obtain ⟨L', e, f', _⟩ := ok
  have hm := h.inv.mem
  have f := h.inv.fit ht
  have hm' := e.memInv hm
  have hlive : (s.goto σ t (some (op, pc'))).live ⊆ L' := by
    refine live_goto hm' (e.kept hm).subset fun op1 pc1 ha => ?_
    obtain ⟨rfl, rfl⟩ := Prod.mk.inj (Option.some.inj ha)
    exact f'.refs
  have old : ∀ {x}, s.store.avail x = true → (x, 0) ∈ L' → (x, 0) ∈ s.live := by
    intro x hx hl
    rcases e.new hl with hl | ho
    · exact hl
    · refine (f.owned hm ho).resolve_right fun ha => ?_
      rw [hx] at ha
      cases ha
  have given : ∀ {x}, s.store.avail x = false → σ.avail x = true → (x, 0) ∈ L' →
      (x, 0) ∈ s.live ∧ σ.line = s.store.line ∧ pc = .removeFree x := by
    intro x h0 h1 hl
    obtain ⟨hline, hpc⟩ := avail_step hn h0 h1
    rw [e.same_line hline] at hl
    refine ⟨hl, hline, hpc.resolve_left ?_⟩
    rintro rfl
    exact f.fresh _ rfl hl
  refine ⟨hi, fun {u op1 pc1} hu => ?_, fun {x} hx hl => ?_, fun {x i} hx hlt hl => ?_⟩
  · by_cases he : u = t
    · subst he
      rw [goto_thread_self] at hu
      obtain ⟨rfl, rfl⟩ := Prod.mk.inj (Option.some.inj hu)
      exact e.clears_step hm f (h.clears ht) hn
    · rw [goto_thread_other _ _ _ he] at hu
      exact e.clears hm (h.inv.fit hu) (h.clears hu)
  · cases h0 : s.store.avail x with
    | true =>
      have hxl := old h0 (hlive hl)
      exact (e.kept hm).dead hxl (h.dead h0 hxl)
    | false =>
      obtain ⟨hxl, _, rfl⟩ := given h0 hx (hlive hl)
      exact (e.kept hm).dead hxl f.loc.2
  · have hxl := hm'.base (hm'.live_of_linked_at hlt hl)
    cases h0 : s.store.avail x with
    | true =>
      have hxl := old h0 hxl
      exact h.unlinked h0 hlt (e.unlinked hm hlt hxl (h.dead h0 hxl) hl)
    | false =>
      obtain ⟨hxl, _, rfl⟩ := given h0 hx hxl
      exact h.clears ht i hlt (e.unlinked hm hlt hxl f.loc.2 hl)

theorem Reclaimed.step (h : Reclaimed s) {e : Event (SetOp V)} (tidy : s.Tidy MAX_LEVEL e)
    (clean : s.Clean s') (hs : Step s e s') : Reclaimed s' := by
  have hi := h.inv.step tidy clean hs
  cases hs with
  | call t op idle hk =>
    refine h.step_idle _ hi fun op1 pc1 ha => ?_
    obtain ⟨rfl, rfl⟩ := Prod.mk.inj (Option.some.inj ha)
    exact ⟨(start_fit h.inv.mem hk).refs, start_clears op⟩
  | ret t op r ht => exact h.step_idle none hi fun _ _ h => nomatch h
  | tau t op pc pc' slot level σ ht hn ha =>
    exact h.step_tau ht hn hi (tau_ok h.inv ht (tidy t op pc rfl ht) hn ha clean)

theorem reclaimed_initial (zero : V) (junk : Uchar) : Reclaimed (initial zero junk) where
  inv := inv_initial zero junk (by decide) le_rfl
  clears ht := nomatch ht
  dead {x} hx hl := by
    rcases (initial_live zero junk hl).1 with h | h <;> obtain rfl : x = _ := h <;> cases hx
  unlinked {x i} hx hi hl := by
    have hm := (inv_initial (G := MAX_LEVEL) zero junk (by decide) le_rfl).mem
    rcases (initial_live zero junk (hm.live_of_linked_at hi hl)).1 with h | h <;>
      obtain rfl : x = _ := h <;> cases hx

def Tidy (ρ : Run (machine V)) : Prop := ∀ m < ρ.length, (ρ.state m).Tidy MAX_LEVEL (ρ.event m)

theorem reclaimed_run (ρ : Run (machine V)) (clean : Clean ρ) (tidy : Tidy ρ) :
    ∀ m ≤ ρ.length, Reclaimed (ρ.state m) := by
  refine Run.stepwise ?_ fun m hm ih => ih.step (tidy m hm) (clean m hm) (ρ.step hm)
  obtain ⟨zero, junk, h⟩ := ρ.init
  rw [h]
  exact reclaimed_initial zero junk

theorem linkFreeSkipList_freed_unlinked (ρ : Run (machine V)) (clean : Clean ρ) (tidy : Tidy ρ) :
    ∀ m ≤ ρ.length, ∀ x, (ρ.state m).store.avail x = true → ∀ i < MAX_LEVEL,
      ¬ ((ρ.state m).store.level i).Linked x :=
  fun m hm _ hx _ hi => (reclaimed_run ρ clean tidy m hm).unlinked hx hi

def insertRemove : List (Command ℕ) :=
  [[.call 0 (.insert 5 0)], steps 0 42, [.alloc 0 2 2], steps 0 17, [.ret 0, .call 1 (.remove 5)],
    steps 1 98].flatten

-- thread 0 is about to link its node at level 1 while thread 1 removes and frees it
def linkFreed : List (Command ℕ) :=
  [[.call 0 (.insert 5 0)], steps 0 42, [.alloc 0 2 2], steps 0 16, [.call 1 (.remove 5)],
    steps 1 96, steps 0 1].flatten

def orderly (s : State V) (t : Tid) : Bool :=
  match s.thread t with
  | some (_, .upperLink path n i) =>
    match path[i]? with
    | some e => !((s.store.node n).next i).marked && n != head && e.2 != head &&
        (s.store.node n).key < (s.store.node e.2).key
    | none => true
  | _ => true

theorem tidy_of_orderly {e : Event (SetOp V)} (h : ∀ t, orderly s t = true) :
    s.Tidy MAX_LEVEL e := by
  intro t op pc _ ht
  cases pc with
  | upperLink path n i =>
    intro _ d hd _
    have := h t
    simp only [orderly, ht, hd, Bool.and_eq_true, bne_iff_ne, decide_eq_true_eq] at this
    obtain ⟨⟨⟨h1, h2⟩, h3⟩, h4⟩ := this
    refine ⟨by unfold Store.dead; simpa using h1, ?_⟩
    rw [rank_of_ne _ h2, rank_of_ne _ h3]
    exact WithBot.coe_lt_coe.2 h4
  | _ => trivial

def orderly01 (s : State V) : Bool := orderly s 0 && orderly s 1

theorem linkFreeSkipList_freed_unlinked_insertRemove : ∃ ρ : Run (machine ℕ),
    (ρ.state 160).thread 1 = some (.remove 5, .removeFree 2) ∧
      ∀ i < MAX_LEVEL, ¬ ((ρ.state 161).store.level i).Linked 2 := by
  obtain ⟨ρ, hρ, hidle⟩ := exists_play 0 (guarded orderly01 exec) (fun h => (guarded_inv h).2)
    insertRemove (by decide +kernel)
  have hlen : ρ.length = 161 := hρ.length
  have clean : Clean ρ := clean_of_neverRecycled
    (neverRecycled_of_plays (fun h => (guarded_inv h).2) hρ (by decide +kernel))
  have tidy : Tidy ρ := by
    intro m hm
    refine tidy_of_orderly fun t => ?_
    have h := (guarded_inv (hρ.exec (by rw [← hρ.length]; exact hm))).1
    simp only [orderly01, Bool.and_eq_true] at h
    match t with
    | 0 => exact h.1
    | 1 => exact h.2
    | t + 2 => simp [orderly, hidle m hm.le (t + 2) (Nat.le_add_left 2 t)]
  have freed := hρ.holds 160 (P := fun s =>
    s.thread 1 = some (.remove 5, .removeFree 2)) (by decide +kernel)
  have given := hρ.holds 161 (P := fun s => s.store.avail 2) (by decide +kernel)
  exact ⟨ρ, of_decide_eq_true freed,
    linkFreeSkipList_freed_unlinked ρ clean tidy 161 hlen.ge 2 given⟩

theorem linkFreeSkipList_freed_linked : ∃ ρ : Run (machine ℕ), NeverRecycled ρ ∧ ρ.length = 158 ∧
    (ρ.state 156).thread 1 = some (.remove 5, .removeFree 2) ∧ ρ.event 156 = .tau 1 ∧
    (∀ m, 156 < m → m ≤ 158 → (ρ.state m).store.avail 2 = true) ∧
    ((ρ.state 158).store.level 1).Linked 2 := by
  obtain ⟨ρ, hρ, _⟩ := exists_play 0 exec (fun h => h) linkFreed (by decide +kernel)
  have freed := hρ.holds 156 (P := fun s =>
    s.thread 1 = some (.remove 5, .removeFree 2)) (by decide +kernel)
  have given := hρ.holds 157 (P := fun s => s.store.avail 2) (by decide +kernel)
  have linked := hρ.holds 158 (P := fun s =>
    s.store.avail 2 && (((s.store.node head).next 1).ref == some 2)) (by decide +kernel)
  simp only [Bool.and_eq_true, beq_iff_eq] at linked
  refine ⟨ρ, neverRecycled_of_plays (fun h => h) hρ (by decide +kernel), hρ.length,
    of_decide_eq_true freed, (exec_tau (hρ.command (c := .step 1) rfl)).2, fun m h1 h2 => ?_,
    Heap.Reach.single linked.2⟩
  obtain rfl | rfl : m = 157 ∨ m = 158 := by omega
  · exact given
  · exact linked.1

end LinkFree.SkipList
