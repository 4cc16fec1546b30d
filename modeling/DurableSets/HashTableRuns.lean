import DurableSets.Core.BucketRuns
import DurableSets.HashTables
import DurableSets.LinkFree.ListDurablyLinearizable
import DurableSets.LinkFree.ListLockFree
import DurableSets.SOFT.ListDurablyLinearizable
import DurableSets.SOFT.ListLockFree

/-! The hash tables with any number of threads: each is one set, and no thread waits for another,
because so it is with the lists of the array. -/

variable {V : Type} {BUCKET_NUM : ℕ}

namespace LinkFree.HashTable

def State.abs (T : State V BUCKET_NUM) : Set ℤ := Table.keys List.State.abs T

def State.Image (T : State V BUCKET_NUM) : Type := ∀ b, (T.bucket b).Image

def State.Image.keys {T : State V BUCKET_NUM} (img : State.Image T) : Set ℤ :=
  {k | ∃ b, k ∈ (img b).keys}

theorem linearizable_run (h : 0 < BUCKET_NUM) (ρ : Run (machine V h)) :
    ρ.Linearizable State.abs := by
  refine Table.linearizable (fun ρ' => ?_) ρ
  obtain ⟨lin, hlin, _⟩ := List.linearization_run ρ'
  exact ⟨lin, hlin⟩

theorem durablyLinearizable_run (h : 0 < BUCKET_NUM) (ρ : Run (machine V h))
    (img : State.Image (ρ.state ρ.length)) :
    ρ.DurablyLinearizable (State.Image.keys img) := by
  refine Table.durablyLinearizable (fun s R => ∃ img : s.Image, img.keys = R)
    (fun ρ' R hR => ?_) ρ (fun b => (img b).keys) fun b => ?_
  · obtain ⟨img', rfl⟩ := hR
    exact List.durablyLinearizable_run ρ' img'
  · use img b

section Schedule

open List.Reuse

def called : Command V → Option ℤ
  | .call _ op => some op.key
  | _ => none

theorem executes (V : Type) :
    Table.Executes (List.machine V) cleanExec Command.tid called Few where
  sound hf h := ⟨cleanExec_step hf h, hf.exec (exec_of_cleanExec h)⟩
  call {s c e s' k} h hc := by
    have he := exec_event (exec_of_cleanExec h)
    cases c with
    | call t op => exact ⟨op, (Option.some.inj he).symm, Option.some.inj hc⟩
    | _ => cases hc
  other {s c e s'} h hc := by
    have he := exec_event (exec_of_cleanExec h)
    cases c with
    | call t op => cases hc
    | ret t =>
      simp only [Command.event] at he
      split at he
      · exact Or.inr ⟨_, (Option.some.inj he).symm⟩
      · cases he
    | _ => exact Or.inl (Option.some.inj he).symm

-- what each slot of the table held right after its last flush
def State.firstImage (T : State V BUCKET_NUM) : State.Image T := fun b => (T.bucket b).firstImage

-- 5 is in list 2 and 4 in list 1; a contains(5) is on its way, and a remove(5) has not yet flushed
-- its mark
def pending : List (Command ℕ) :=
  [inserts 0 5 50 2 0, [.call 1 (.contains 5)], steps 1 1, inserts 0 4 40 3 0,
    [.call 2 (.remove 5)], steps 2 6].flatten

theorem exists_pending : ∃ ρ : Run (machine ℕ (by decide : 0 < 3)),
    ((ρ.state ρ.length).bucket 2).thread 1 = some (.contains 5, .containsWalk 2) ∧
    ((ρ.state ρ.length).bucket 2).thread 2 =
      some (.remove 5, .deleteFlush (.trim .inRemove List.head) 2) ∧
    4 ∈ (ρ.state ρ.length).abs ∧ 5 ∉ (ρ.state ρ.length).abs ∧
    5 ∈ (State.firstImage (ρ.state ρ.length)).keys := by
  let T : State ℕ 3 := new (by decide) 0 fun _ => 0
  obtain ⟨ρ, hρ⟩ := (executes ℕ).exists_play (T := T) (getBucket (by decide : 0 < 3))
    pending (fun _ => ⟨0, 0, rfl⟩) (fun _ _ _ => rfl) (by decide +kernel)
  have last := hρ.last (P := fun T =>
    decide ((T.bucket 2).thread 1 = some (.contains 5, .containsWalk 2)) &&
    decide ((T.bucket 2).thread 2 =
      some (.remove 5, .deleteFlush (.trim .inRemove List.head) 2)) &&
    (walk (T.bucket 1) 8 List.head).any (has (T.bucket 1) 4) &&
    ((T.bucket 2).firstImage.node 2).recovered &&
    decide (((T.bucket 2).firstImage.node 2).key = 5) &&
    (List.finRange 3).all fun b => decide ((walk (T.bucket b) 8 List.head).length < 8) &&
      (walk (T.bucket b) 8 List.head).all fun x => !has (T.bucket b) 5 x) (by decide +kernel)
  simp only [Bool.and_eq_true, decide_eq_true_eq, and_assoc] at last
  obtain ⟨h1, h2, h4, hr, hk, h5⟩ := last
  refine ⟨ρ, h1, h2, ⟨1, abs_of_walk h4⟩, ?_, ⟨2, 2, by decide, by decide, hr, hk⟩⟩
  rintro ⟨b, hb⟩
  have hw := List.all_eq_true.1 h5 b (List.mem_finRange b)
  rw [Bool.and_eq_true, decide_eq_true_eq] at hw
  exact not_abs_of_walk hw.1 hw.2 hb

end Schedule

end LinkFree.HashTable

namespace SOFT.HashTable

def State.abs (T : State V BUCKET_NUM) : Set ℤ := Table.keys List.State.abs T

def State.Image (T : State V BUCKET_NUM) : Type := ∀ b, (T.bucket b).Image

def State.Image.keys {T : State V BUCKET_NUM} (img : State.Image T) : Set ℤ :=
  {k | ∃ b, k ∈ (img b).keys}

theorem linearizable_run (h : 0 < BUCKET_NUM) (ρ : Run (machine V h)) :
    ρ.Linearizable State.abs :=
  Table.linearizable List.linearizable_run ρ

theorem durablyLinearizable_run (h : 0 < BUCKET_NUM) (ρ : Run (machine V h))
    (img : State.Image (ρ.state ρ.length)) :
    ρ.DurablyLinearizable (State.Image.keys img) := by
  refine Table.durablyLinearizable (fun s R => ∃ img : s.Image, img.keys = R)
    (fun ρ' R hR => ?_) ρ (fun b => (img b).keys) fun b => ?_
  · obtain ⟨img', rfl⟩ := hR
    exact List.durablyLinearizable_run ρ' img'
  · use img b

def called : List.Command V → Option ℤ
  | .call _ op => some op.key
  | _ => none

theorem executes (V : Type) :
    Table.Executes (List.machine V) List.exec List.Command.tid called List.Few where
  sound hf h := ⟨(List.exec_step hf h).1, hf.exec h⟩
  call {s c e s' k} h hc := by
    cases c with
    | call t op =>
      simp only [List.exec] at h
      split at h
      · exact ⟨op, (Prod.mk.inj (Option.some.inj h)).1.symm, Option.some.inj hc⟩
      · cases h
    | _ => cases hc
  other {s c e s'} h hc := by
    cases c with
    | call t op => cases hc
    | ret t =>
      simp only [List.exec] at h
      split at h
      · exact Or.inr ⟨_, (Prod.mk.inj (Option.some.inj h)).1.symm⟩
      · cases h
    | step t slot =>
      simp only [List.exec] at h
      split at h
      · obtain ⟨c, _, h⟩ := Option.bind_eq_some_iff.1 h
        obtain ⟨r, _, h⟩ := Option.map_eq_some_iff.1 h
        exact Or.inl (Prod.mk.inj h).1.symm
      · cases h

def State.firstImage (T : State V BUCKET_NUM) : State.Image T := fun b =>
  ⟨(T.bucket b).store.flushed, fun _ => List.getLast_mem _⟩

-- 5 is in list 2 and 4 in list 1; a remove(5) has not yet flushed what it wrote
def pending : List (List.Command ℕ) :=
  [List.alone 0 (.insert 5 50) 17 2, List.alone 0 (.insert 4 40) 17 3, [.call 1 (.remove 5)],
    List.steps 1 6 0].flatten

theorem exists_pending : ∃ ρ : Run (machine ℕ (by decide : 0 < 3)),
    ((ρ.state ρ.length).bucket 2).thread 1 =
      some (.remove 5, .destroyFlush true List.head .inserted 2) ∧
    4 ∈ (State.firstImage (ρ.state ρ.length)).keys ∧
    5 ∈ (State.firstImage (ρ.state ρ.length)).keys := by
  let T : State ℕ 3 := new (by decide) 0
  obtain ⟨ρ, hρ⟩ := (executes ℕ).exists_play (T := T) (getBucket (by decide : 0 < 3))
    pending (fun _ => ⟨0, rfl⟩) (fun _ _ _ => rfl) (by decide +kernel)
  have last := hρ.last (P := fun T =>
    decide ((T.bucket 2).thread 1 = some (.remove 5, .destroyFlush true List.head .inserted 2)) &&
    ((T.bucket 1).store.flushed 3).recovered && decide (((T.bucket 1).store.flushed 3).key = 4) &&
    ((T.bucket 2).store.flushed 2).recovered && decide (((T.bucket 2).store.flushed 2).key = 5))
    (by decide +kernel)
  simp only [Bool.and_eq_true, decide_eq_true_eq, and_assoc] at last
  obtain ⟨h1, h2, h3, h4, h5⟩ := last
  exact ⟨ρ, h1, ⟨1, 3, h2, h3⟩, ⟨2, 2, h4, h5⟩⟩

end SOFT.HashTable

namespace HashTables

theorem hashTables_linearizable (h : 0 < BUCKET_NUM) :
    (∀ ρ : Run (LinkFree.HashTable.machine V h), ρ.Linearizable LinkFree.HashTable.State.abs) ∧
      ∀ ρ : Run (SOFT.HashTable.machine V h), ρ.Linearizable SOFT.HashTable.State.abs :=
  ⟨LinkFree.HashTable.linearizable_run h, SOFT.HashTable.linearizable_run h⟩

theorem hashTables_linearizable_pending :
    (∃ ρ : Run (LinkFree.HashTable.machine ℕ (by decide : 0 < 3)),
      ((ρ.state ρ.length).bucket 2).thread 1 = some (.contains 5, .containsWalk 2) ∧
      4 ∈ (ρ.state ρ.length).abs ∧ 5 ∉ (ρ.state ρ.length).abs ∧
      ρ.Linearizable LinkFree.HashTable.State.abs) ∧
    ∃ ρ : Run (SOFT.HashTable.machine ℕ (by decide : 0 < 3)),
      ((ρ.state ρ.length).bucket 2).thread 1 =
        some (.remove 5, .destroyFlush true SOFT.List.head .inserted 2) ∧
      ρ.Linearizable SOFT.HashTable.State.abs := by
  obtain ⟨ρ, h1, _, h4, h5, _⟩ := LinkFree.HashTable.exists_pending
  obtain ⟨ρ', h1', _⟩ := SOFT.HashTable.exists_pending
  have h := hashTables_linearizable (V := ℕ) (by decide : 0 < 3)
  exact ⟨⟨ρ, h1, h4, h5, h.1 ρ⟩, ⟨ρ', h1', h.2 ρ'⟩⟩

theorem hashTables_durablyLinearizable (h : 0 < BUCKET_NUM) :
    (∀ (ρ : Run (LinkFree.HashTable.machine V h))
      (img : LinkFree.HashTable.State.Image (ρ.state ρ.length)), ρ.DurablyLinearizable img.keys) ∧
    ∀ (ρ : Run (SOFT.HashTable.machine V h))
      (img : SOFT.HashTable.State.Image (ρ.state ρ.length)), ρ.DurablyLinearizable img.keys :=
  ⟨LinkFree.HashTable.durablyLinearizable_run h, SOFT.HashTable.durablyLinearizable_run h⟩

theorem hashTables_durablyLinearizable_pending :
    (∃ (ρ : Run (LinkFree.HashTable.machine ℕ (by decide : 0 < 3)))
      (img : LinkFree.HashTable.State.Image (ρ.state ρ.length)),
      ((ρ.state ρ.length).bucket 2).thread 2 =
        some (.remove 5, .deleteFlush (.trim .inRemove LinkFree.List.head) 2) ∧
      5 ∉ (ρ.state ρ.length).abs ∧ 5 ∈ img.keys ∧ ρ.DurablyLinearizable img.keys) ∧
    ∃ (ρ : Run (SOFT.HashTable.machine ℕ (by decide : 0 < 3)))
      (img : SOFT.HashTable.State.Image (ρ.state ρ.length)),
      ((ρ.state ρ.length).bucket 2).thread 1 =
        some (.remove 5, .destroyFlush true SOFT.List.head .inserted 2) ∧
      4 ∈ img.keys ∧ 5 ∈ img.keys ∧ ρ.DurablyLinearizable img.keys := by
  obtain ⟨ρ, _, h2, _, h5, hi⟩ := LinkFree.HashTable.exists_pending
  obtain ⟨ρ', h1', h4', h5'⟩ := SOFT.HashTable.exists_pending
  have h := hashTables_durablyLinearizable (V := ℕ) (by decide : 0 < 3)
  exact ⟨⟨ρ, _, h2, h5, hi, h.1 ρ _⟩, ⟨ρ', _, h1', h4', h5', h.2 ρ' _⟩⟩

theorem hashTables_lockFree (V : Type) (h : 0 < BUCKET_NUM) :
    (LinkFree.HashTable.machine V h).LockFree ∧ (SOFT.HashTable.machine V h).LockFree :=
  ⟨Table.lockFree (LinkFree.List.spends V).descends, Table.lockFree (SOFT.List.spends V).descends⟩

theorem hashTables_lockFree_three :
    (LinkFree.HashTable.machine Unit (by decide : 0 < 3)).LockFree ∧
      (SOFT.HashTable.machine Unit (by decide : 0 < 3)).LockFree :=
  hashTables_lockFree Unit (by decide)

end HashTables
