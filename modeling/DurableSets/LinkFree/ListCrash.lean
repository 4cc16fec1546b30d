import DurableSets.LinkFree.ListDurable
import DurableSets.LinkFree.ListRecover
import DurableSets.LinkFree.ListSchedule

namespace LinkFree.List

open Chain Relation

variable {V : Type} {σ σ' : Store V} {s s' : State V} {image image' : Loc → Node V} {x n p c : Loc}
  {t : Tid} {op : SetOp V} {pc : Pc} {slots : List Loc} {zero : V} {junk : Uchar}
  {bump : Loc → Bool}

theorem unflagged_run (ρ : Run (machine V)) : ∀ m ≤ ρ.length, Unflagged (ρ.state m).store := by
  refine Run.stepwise ?_ fun m hm h => unflagged_step (inv_run ρ m hm.le) h (ρ.step hm)
  obtain ⟨zero, junk, h⟩ := ρ.init
  rw [h]
  exact unflagged_initial zero junk

theorem State.Image.left (img : s.Image) : Left s.store img.node := fun x _ _ => img.written x

theorem linked_value {k : ℤ} {v : V} {e : Event (SetOp V)} (hi : Inv s) (hs : Step s e s')
    (he : e = .tau t) (ht : s.thread t = some (.insert k v, .linkCas p c x))
    (ht' : s'.thread t = some (.insert k v, .validLoad .linked x)) :
    (s'.store.node x).value = v := by
  subst he
  obtain ⟨slot, σ, hn, _, rfl⟩ := tau_inv hs ht ht'
  simp only [next] at hn
  split at hn
  · obtain ⟨rfl, _⟩ := Prod.mk.inj (Option.some.inj hn)
    have hloc := (hi.fit ht).loc
    exact (next_key _ _ _ _).2.1.trans (hloc.2.2.2.2.1.2 k v rfl)
  · obtain ⟨_, he⟩ := Prod.mk.inj (Option.some.inj hn)
    cases he

theorem linkedBy_of_alive (ρ : Run (machine V)) (hl : Left (ρ.state ρ.length).store image)
    (hx : Alive image x) :
    ∃ t i l, LinkedBy ρ x t i l (.insert (image x).key (image x).value) := by
  obtain ⟨hh, ht, hr⟩ := hx
  obtain ⟨hlink, hkey, hvalue⟩ := (inv_run ρ ρ.length le_rfl).mem.recovered (hl x hh ht) hr
  obtain ⟨l, hll, h0, hsince⟩ := exists_last (P := fun m => (heaps ρ m).Linked x)
    (initial_linked ρ hh ht) hlink
  obtain ⟨t, k, v, p, c, he, hs, hs', hrank⟩ := link_step (inv_run ρ l hll.le) (ρ.step hll) h0
    (hsince (l + 1) (by omega) (by omega))
  have hv := linked_value (inv_run ρ l hll.le) (ρ.step hll) he hs hs'
  have hk : (image x).key = k := by
    have := rank_later (fun a ha => hsince a (by omega)) (by omega : l + 1 ≤ ρ.length)
    rw [hrank, rank_of_ne _ hh, ← hkey] at this
    exact WithBot.coe_injective this
  have hv' : (image x).value = v := by
    rw [hvalue]
    exact linked_run (P := fun σ => (σ.node x).value = v)
      (fun k hx h => (k.evolves hx).value.trans h) (fun a ha => hsince a (by omega)) hv
      ρ.length (by omega) le_rfl
  obtain ⟨i, ha⟩ := ρ.active_of_thread (by omega : l + 1 ≤ ρ.length) hs'
  rw [hk, hv']
  exact ⟨t, i, l, ha, he, hll, h0, hsince⟩

theorem linkFreeList_unambiguous (ρ : Run (machine V)) (img : (ρ.state ρ.length).Image) :
    (∀ x y, Alive img.node x → Alive img.node y → (img.node x).key = (img.node y).key → x = y) ∧
      (∀ x, Alive img.node x → (img.node x).deleteFlag = false ∧
        ∃ t i l, LinkedBy ρ x t i l (.insert (img.node x).key (img.node x).value)) ∧
      ∀ zero junk slots bump, Chunks zero img.node slots bump → ∀ σ,
        ¬ ReflTransGen Recovers (restart zero junk img.node bump, .scan slots) (σ, .failed) := by
  have hc : Clear img.node := clear_of_left (inv_run ρ ρ.length le_rfl)
    (unflagged_run ρ ρ.length le_rfl) img.left
  refine ⟨fun _ _ => hc.unique, fun x hx => ⟨hc.unflagged hx, linkedBy_of_alive ρ img.left hx⟩,
    fun zero junk slots bump h σ hr => ?_⟩
  exact (recovering_run hc (recovering_start junk h) hr).loc

section Reused

open Reuse

-- slot 3 is in use for an insert of (5, 8) that has not linked it; the insert of 5 by thread 0
-- comes to it from the node of 1, makes it valid and flushes it
def unlinked : List (Command ℕ) :=
  [inserts 1 1 0 2 0, inserts 1 3 0 3 1, [.call 0 (.insert 5 0)], steps 0 2, removes 1 1,
    removes 1 3, [.call 1 (.insert 5 8)], steps 1 2, [.alloc 1 3], steps 1 7, steps 0 7,
    [.ret 0]].flatten

def State.lastImage (s : State V) : s.Image where
  node := s.store.node
  written x := by simp [Store.node]

theorem linkFreeList_ambiguous : ∃ (ρ : Run (Reuse.machine ℕ)) (img : (ρ.state ρ.length).Image)
    (x : Loc), Alive img.node x ∧ ∀ t i l op, ¬ LinkedBy ρ x t i l op := by
  obtain ⟨ρ, hρ, _⟩ := exists_play 0 exec id unlinked (by decide +kernel)
  have last := hρ.last (P := fun s => (s.store.node 3).recovered &&
    decide ((walk s 8 head).length < 8) && !(walk s 8 head).contains 3) (by decide +kernel)
  simp only [Bool.and_eq_true, decide_eq_true_eq, Bool.not_eq_true', and_assoc] at last
  obtain ⟨hrec, hshort, hwalk⟩ := last
  refine ⟨ρ, (ρ.state ρ.length).lastImage, 3, ⟨by decide, by decide, hrec⟩, fun t i l op h => ?_⟩
  have hl := walk_of_reach hshort (h.since ρ.length h.lt le_rfl)
  simp [hl] at hwalk

end Reused

theorem interrupted_same (hc : Clear image) (h : Interrupted slots image image')
    (hh : x ≠ head) (ht : x ≠ tail) : Same (image x) (image' x) := by
  obtain ⟨zero, junk, bump, σ, pc, hch, hr, hl⟩ := h
  exact (recovering_run hc (recovering_start junk hch) hr).same hh ht (hl x hh ht)

theorem same_alive (h : ∀ x, x ≠ head → x ≠ tail → Same (image x) (image' x)) :
    Alive image' x ↔ Alive image x := by
  refine and_congr_right fun hh => and_congr_right fun ht => ?_
  rw [(h x hh ht).1]

theorem Clear.same (hc : Clear image)
    (h : ∀ x, x ≠ head → x ≠ tail → Same (image x) (image' x)) : Clear image' := by
  have hdata : ∀ {x}, Alive image' x → (image' x).key = (image x).key ∧
      (image' x).deleteFlag = (image x).deleteFlag := by
    intro x hx
    have hs := h x hx.1 hx.2.1
    obtain ⟨h1, _, h2⟩ := hs.2 (hs.1.symm.trans hx.2.2)
    exact ⟨h1, h2⟩
  refine ⟨fun {x y} hx hy he => ?_, fun {x} hx => ?_, fun {x} hx => ?_⟩
  · rw [(hdata hx).1, (hdata hy).1] at he
    exact hc.unique ((same_alive h).1 hx) ((same_alive h).1 hy) he
  · rw [(hdata hx).1]
    exact hc.bounded ((same_alive h).1 hx)
  · rw [(hdata hx).2]
    exact hc.unflagged ((same_alive h).1 hx)

theorem Same.trans {a b d : Node V} (h : Same a b) (k : Same b d) : Same a d := by
  refine ⟨k.1.trans h.1, fun hr => ?_⟩
  obtain ⟨h1, h2, h3⟩ := h.2 hr
  obtain ⟨k1, k2, k3⟩ := k.2 (h.1.trans hr)
  exact ⟨k1.trans h1, k2.trans h2, k3.trans h3⟩

theorem interrupted_run (hc : Clear image) (h : ReflTransGen (Interrupted slots) image image') :
    Clear image' ∧ ∀ x, x ≠ head → x ≠ tail → Same (image x) (image' x) := by
  induction h with
  | refl => exact ⟨hc, fun x _ _ => Same.refl _⟩
  | tail _ hi ih =>
    have hs := fun x hh ht => interrupted_same (x := x) ih.1 hi hh ht
    exact ⟨ih.1.same hs, fun x hh ht => (ih.2 x hh ht).trans (hs x hh ht)⟩

theorem interrupted_outside (hc : Clear image) (h : Interrupted slots image image')
    (hx : x ∉ slots) (hh : x ≠ head) (ht : x ≠ tail) : image' x = image x := by
  obtain ⟨zero, junk, bump, σ, pc, hch, hr, hl⟩ := h
  have hd : ¬ Alive image x := fun ha => by
    have hr := ha.2.2
    rw [(hch.unused x (hch.outside x hh ht hx)).2.2, recovered_iff] at hr
    exact hr.2.2 rfl
  have hline := (outside_run hc (recovering_start junk hch) hr hx hd hh ht).1
  have hlx : (restart zero junk image bump).line x = ⟨image x, []⟩ := if_neg (not_or.2 ⟨hh, ht⟩)
  have hm := hl x hh ht
  rw [hline, hlx] at hm
  exact List.mem_singleton.1 hm

theorem Chunks.interrupted (h : Chunks zero image slots bump) (hc : Clear image)
    (hb : ∀ x ∈ slots, bump x = false) (hi : Interrupted slots image image') :
    Chunks zero image' slots bump := by
  refine ⟨h.nodup, h.inner, h.outside, fun x hx => ?_⟩
  obtain ⟨hh, ht, he⟩ := h.unused x hx
  have hm : x ∉ slots := fun hm => Bool.false_ne_true ((hb x hm).symm.trans hx)
  exact ⟨hh, ht, (interrupted_outside hc hi hm hh ht).trans he⟩

-- the states of a list over any number of crashes, each followed by recover() until one of them
-- is not interrupted
inductive Lived : State V → Prop
  | initial (zero : V) (junk : Uchar) : Lived (initial zero junk)
  | step {s s' : State V} {e : Event (SetOp V)} (h : Lived s) (hs : Step s e s') : Lived s'
  | recovered {s : State V} {image image' : Loc → Node V} {slots : List Loc} {zero : V}
    {junk : Uchar} {bump : Loc → Bool} {σ : Store V} (h : Lived s) (hl : Left s.store image)
    (hi : ReflTransGen (Interrupted slots) image image') (hc : Chunks zero image' slots bump)
    (hr : ReflTransGen Recovers (restart zero junk image' bump, .scan slots) (σ, .scan [])) :
    Lived ⟨σ, fun _ => none⟩

theorem Lived.inv (h : Lived s) : Inv s ∧ Unflagged s.store := by
  induction h with
  | initial zero junk => exact ⟨inv_initial zero junk, unflagged_initial zero junk⟩
  | step _ hs ih => exact ⟨ih.1.step hs, unflagged_step ih.1 ih.2 hs⟩
  | @recovered s image image' slots zero junk bump σ _ hl hi hch hr ih =>
    have hc := (interrupted_run (clear_of_left ih.1 ih.2 hl) hi).1
    have hd := recovering_run hc (recovering_start junk hch) hr
    exact ⟨hd.inv hc, hd.unflagged hc⟩

section CutOff

open Reuse

def recovers : ℕ → Store V × RecoverPc → Option (Store V × RecoverPc)
  | 0, a => some a
  | n + 1, a => (recoverNext a.1 a.2).bind (recovers n)

theorem recovers_sound {a b : Store V × RecoverPc} {m : ℕ} (h : recovers m a = some b) :
    ReflTransGen Recovers a b := by
  induction m generalizing a with
  | zero =>
    obtain rfl := Option.some.inj h
    exact ReflTransGen.refl
  | succ m ih =>
    obtain ⟨c, hc, h⟩ := Option.bind_eq_some_iff.1 h
    exact ReflTransGen.head hc (ih h)

-- every other slot is as it came from the allocator's chunk
def unusedBut [DecidableEq V] (zero : V) (s : State V) (slots : List Loc) : Bool :=
  (List.range 16).all fun x => x == head || x == tail || slots.contains x ||
    decide ((s.store.line x).contents = [⟨0#8, false, false, 0, zero, Ptr.null⟩])

def spare (slots : List Loc) (x : Loc) : Bool := x != head && x != tail && !slots.contains x

theorem chunks_of [DecidableEq V] (h : Low zero s) (hl : Left s.store image) (hn : slots.Nodup)
    (hi : ∀ x ∈ slots, x ≠ head ∧ x ≠ tail) (hs : unusedBut zero s slots = true) :
    Chunks zero image slots (spare slots) := by
  refine ⟨hn, hi, fun x hh ht hx => by simp [spare, hh, ht, hx], fun x hx => ?_⟩
  simp only [spare, Bool.and_eq_true, bne_iff_ne, Bool.not_eq_true', List.contains_eq_mem,
    decide_eq_false_iff_not, and_assoc] at hx
  obtain ⟨hh, ht, hx⟩ := hx
  have blank : (s.store.line x).contents = [⟨0#8, false, false, 0, zero, Ptr.null⟩] := by
    by_cases hlt : x < 16
    · simpa [hh, ht, hx] using List.all_eq_true.1 hs x (List.mem_range.2 hlt)
    · rw [h.line x (not_lt.1 hlt)]
      rfl
  have hm := hl x hh ht
  rw [blank] at hm
  exact ⟨hh, ht, List.mem_singleton.1 hm⟩

theorem interrupted_of {zero : V} {m : ℕ} {b : Store V × RecoverPc}
    (hc : Chunks zero image slots bump)
    (h : recovers m (restart zero 0 image bump, .scan slots) = some b) :
    Interrupted slots image b.1.node :=
  ⟨zero, 0, bump, b.1, b.2, hc, recovers_sound h, fun _ _ _ => List.mem_cons_self⟩

-- the insert of 5 has returned, 3 was inserted and removed, the insert of 7 has not yet linked its
-- node, and the mark of the node of 5 is not yet in NVRAM
def cutOff : List (Command ℕ) :=
  [inserts 0 5 50 2 0, inserts 0 3 30 3 0, removes 0 3, [.call 1 (.insert 7 70)], steps 1 4,
    [.alloc 1 4], steps 1 5, [.call 2 (.remove 5)], steps 2 6].flatten

-- slot 4 is in NVRAM as it stands, half made; of the others NVRAM has what was flushed
def State.halfImage (s : State V) : s.Image where
  node x := if x = 4 then s.store.node x else s.firstImage.node x
  written x := by
    split
    · exact List.mem_cons_self
    · exact s.firstImage.written x

def recoversThen (P : (Loc → Node ℕ) → Store ℕ → Bool) (s : State ℕ) : Bool :=
  unusedBut 0 s [3, 4, 2] &&
  (recovers 2 (restart 0 0 s.halfImage.node (spare [3, 4, 2]), .scan [3, 4, 2])).any fun b =>
  (recovers 12 (restart 0 0 b.1.node (spare [3, 4, 2]), .scan [3, 4, 2])).any fun c =>
  (recovers 12 (restart 0 0 c.1.node (spare [3, 4, 2]), .scan [3, 4, 2])).any fun d =>
    decide (d.2 = .scan []) && P c.1.node d.1

theorem exists_cutOff {P : State ℕ → (Loc → Node ℕ) → Store ℕ → Bool}
    (h : (play cleanExec (initial 0 0) cutOff).any (fun s => recoversThen (P s) s) = true) :
    ∃ (ρ : Run (machine ℕ)) (image : Loc → Node ℕ) (σ : Store ℕ),
      Plays cleanExec (initial 0 0) cutOff ρ ∧
      ReflTransGen (Interrupted [3, 4, 2]) (ρ.state ρ.length).halfImage.node image ∧
      Chunks 0 image [3, 4, 2] (spare [3, 4, 2]) ∧
      ReflTransGen Recovers (restart 0 0 image (spare [3, 4, 2]), .scan [3, 4, 2])
        (σ, .scan []) ∧
      P (ρ.state ρ.length) image σ = true := by
  obtain ⟨s, hs, _⟩ := (Option.any_eq_true _ _).1 h
  obtain ⟨ρ, hρ, hlow⟩ := exists_clean_play 0 cutOff (Option.isSome_iff_exists.2 ⟨s, hs⟩)
  have last := hρ.last h
  simp only [recoversThen, Bool.and_eq_true, decide_eq_true_eq, Option.any_eq_true] at last
  obtain ⟨hunused, b, hb, c, hc, ⟨σ, pc⟩, hd, rfl, hP⟩ := last
  have left := (ρ.state ρ.length).halfImage.left
  have clear := clear_of_left (inv_run ρ ρ.length le_rfl) (unflagged_run ρ ρ.length le_rfl) left
  have chunks := chunks_of hlow left (by decide) (by decide) hunused
  have first := interrupted_of chunks hb
  have chunks' := chunks.interrupted clear (by decide) first
  have second := interrupted_of chunks' hc
  have clear' := (interrupted_run clear (.single first)).1
  exact ⟨ρ, c.1.node, σ, hρ, .tail (.single first) second,
    chunks'.interrupted clear' (by decide) second, recovers_sound hd, hP⟩

end CutOff

end LinkFree.List
