import DurableSets.LinkFree.ListRecover
import DurableSets.SOFT.ListRecover
import DurableSets.Ssmem.Arena
import DurableSets.Ssmem.ZeroMemory

namespace UnusedSlots

open Ssmem

variable {size slot i p : ℕ} {image image' : ℕ → LineBytes} {N : Nvram}

-- n bytes from p on, the lowest first
def word (image : ℕ → LineBytes) (p : ℕ) : ℕ → ℕ
  | 0 => 0
  | n + 1 => (byteAt image p).toNat + 256 * word image (p + 1) n

def boolAt (image : ℕ → LineBytes) (p : ℕ) : Bool := byteAt image p != 0

def intAt (image : ℕ → LineBytes) (p : ℕ) : ℤ := (BitVec.ofNat 64 (word image p 8)).toInt

-- the lowest bit of a pointer is its mark
def ptrAt (image : ℕ → LineBytes) (p : ℕ) : LinkFree.Ptr :=
  let w := word image p 8
  ⟨if w / 2 = 0 then none else some (w / 2 * 2), w % 2 == 1⟩

def sizeofNode : ℕ := 32

def nodeAt (image : ℕ → LineBytes) (p : ℕ) : LinkFree.List.Node ℤ where
  metaData := byteAt image p
  insertFlag := boolAt image (p + 1)
  deleteFlag := boolAt image (p + 2)
  key := intAt image (p + 8)
  value := intAt image (p + 16)
  next := ptrAt image (p + 24)

def pnodeAt (image : ℕ → LineBytes) (p : ℕ) : SOFT.PNode ℤ where
  validStart := boolAt image p
  validEnd := boolAt image (p + 1)
  deleted := boolAt image (p + 2)
  key := intAt image (p + 8)
  value := intAt image (p + 16)

-- recover() goes on to the next slot, and recovery() does not put the slot into the set
structure NeverInitialized (image : ℕ → LineBytes) (p : ℕ) : Prop where
  skipped : ∀ (σ : LinkFree.List.Store ℤ) n todo, σ.node n = nodeAt image p →
    LinkFree.List.recoverNext σ (.scan (n :: todo)) = some (σ, .scan todo)
  invalid : (pnodeAt image p).isValid = false

-- after a crash at any point from the publication of the chunk on
def ZeroAfterCrash (size slot : ℕ) (N : Nvram) : Prop :=
  ∀ c image i, Relation.ReflTransGen (Chunk.Step size slot) (Chunk.published N size) c →
    c.nvram.Left image → c.Unused size slot i →
    (∀ p, i * slot ≤ p → p < i * slot + slot → byteAt image p = 0) ∧
    (sizeofNode ≤ slot → NeverInitialized image (i * slot))

theorem word_congr {n : ℕ} (h : ∀ q, p ≤ q → q < p + n → byteAt image q = byteAt image' q) :
    word image p n = word image' p n := by
  induction n generalizing p with
  | zero => rfl
  | succ n ih =>
    rw [word, word, h p le_rfl (by omega), ih fun q h1 h2 => h q (by omega) (by omega)]

theorem nodeAt_congr
    (h : ∀ q, p ≤ q → q < p + sizeofNode → byteAt image q = byteAt image' q) :
    nodeAt image p = nodeAt image' p := by
  have hw : ∀ d, d + 8 ≤ sizeofNode → word image (p + d) 8 = word image' (p + d) 8 :=
    fun d hd => word_congr fun q h1 h2 => h q (by omega) (by omega)
  unfold sizeofNode at h hw
  unfold nodeAt boolAt intAt ptrAt
  rw [h p le_rfl (by omega), h (p + 1) (by omega) (by omega), h (p + 2) (by omega) (by omega),
    hw 8 (by omega), hw 16 (by omega), hw 24 (by omega)]

theorem pnodeAt_congr
    (h : ∀ q, p ≤ q → q < p + sizeofNode → byteAt image q = byteAt image' q) :
    pnodeAt image p = pnodeAt image' p := by
  have hw : ∀ d, d + 8 ≤ sizeofNode → word image (p + d) 8 = word image' (p + d) 8 :=
    fun d hd => word_congr fun q h1 h2 => h q (by omega) (by omega)
  unfold sizeofNode at h hw
  unfold pnodeAt boolAt intAt
  rw [h p le_rfl (by omega), h (p + 1) (by omega) (by omega), h (p + 2) (by omega) (by omega),
    hw 8 (by omega), hw 16 (by omega)]

theorem word_zero (p n : ℕ) : word (fun _ _ => 0) p n = 0 := by
  induction n generalizing p with
  | zero => rfl
  | succ n ih =>
    rw [word, ih, byteAt]
    rfl

theorem neverInitialized_of_zero
    (h : ∀ q, p ≤ q → q < p + sizeofNode → byteAt image q = 0) : NeverInitialized image p := by
  have hz : ∀ q, p ≤ q → q < p + sizeofNode → byteAt image q = byteAt (fun _ _ => 0) q := h
  refine ⟨fun σ n todo hn => ?_, ?_⟩
  · rw [nodeAt_congr hz] at hn
    have hnext : (σ.node n).next = LinkFree.Ptr.null := by
      rw [hn, nodeAt, ptrAt, word_zero]
      rfl
    have hvalid : LinkFree.isValid (σ.node n).metaData = true := by
      rw [hn]
      exact (by decide : LinkFree.isValid 0#8 = true)
    rw [LinkFree.List.recoverNext, if_pos ⟨hnext, hvalid⟩]
  · rw [pnodeAt_congr hz]
    rfl

theorem lt_slots (h : i * slot + slot ≤ size) (hp : p < i * slot + slot) :
    p < size / slot * slot := by
  rcases Nat.eq_zero_or_pos slot with rfl | hs
  · omega
  · rw [← Nat.succ_mul] at h hp
    exact lt_of_lt_of_le hp (Nat.mul_le_mul_right slot ((Nat.le_div_iff_mul_le hs).2 h))

theorem zeroAfterCrash_iff_blank :
    ZeroAfterCrash size slot N ↔ (Chunk.published N size).Blank (size / slot * slot) := by
  constructor
  · intro h p _ hp a ha
    obtain ⟨image, hl, rfl⟩ := Nvram.may_iff_left.1 ha
    have hs : 0 < slot := Nat.pos_of_ne_zero (by rintro rfl; omega)
    have hle := Nat.div_mul_le_self p slot
    have hlt := Nat.lt_div_mul_add hs (a := p)
    have hi : p / slot < size / slot := (Nat.div_lt_iff_lt_mul hs).2 hp
    have hend := (Nat.mul_le_mul_right slot hi).trans (Nat.div_mul_le_self size slot)
    rw [Nat.succ_mul] at hend
    exact (h _ image (p / slot) .refl hl ⟨Nat.zero_le _, hend⟩).1 p hle hlt
  · intro h c image i hr hl hu
    have hzero : ∀ p, i * slot ≤ p → p < i * slot + slot → byteAt image p = 0 := fun p h1 h2 =>
      h.run hr p (hu.1.trans h1) (lt_slots hu.2 h2) _ (Nvram.may_iff_left.2 ⟨image, hl, rfl⟩)
    exact ⟨hzero, fun hs => neverInitialized_of_zero fun q h1 h2 => hzero q h1 (by omega)⟩

theorem zeroAfterCrash_iff : ZeroAfterCrash size slot N ↔
    ∀ p < size / slot * slot, ¬ Visited size (lineOf p) → ∀ a, N.May p a → a = 0 :=
  zeroAfterCrash_iff_blank.trans (published_blank (Nat.div_mul_le_self _ _))

theorem left_slot (h : N.Left image)
    (hv : ∀ q, p ≤ q → q < p + sizeofNode → ¬ Visited size (lineOf q)) :
    ∃ image', (Chunk.published N size).nvram.Left image' ∧
      nodeAt image' p = nodeAt image p ∧ pnodeAt image' p = pnodeAt image p := by
  obtain ⟨image', hl, he⟩ := Nvram.left_zeroMemory size h
  exact ⟨image', hl, nodeAt_congr fun q h1 h2 => he q (hv q h1 h2),
    pnodeAt_congr fun q h1 h2 => he q (hv q h1 h2)⟩

theorem exists_not_visited (hd : CACHE_LINE_SIZE ∣ size) (hsize : CACHE_LINE_SIZE < size)
    (hs : 0 < slot) (hle : slot ≤ size) :
    ∃ p < size / slot * slot, ¬ Visited size (lineOf p) := by
  obtain ⟨m, rfl⟩ := hd
  have h1 := Nat.lt_div_mul_add hs (a := CACHE_LINE_SIZE * m)
  have h2 := Nat.mul_le_mul_right slot (Nat.div_pos hle hs)
  unfold Visited lineOf CACHE_LINE_SIZE at *
  refine ⟨(m + 63) / 64 * 64, by omega, ?_⟩
  rw [Nat.mul_div_cancel _ (by decide), Nat.mul_div_cancel_left _ (by decide)]
  omega

/-- The loop of `ssmem_zero_memory` leaves out the lines from a 64th of the chunk on, so that
their bytes are zero after a crash exactly when they were zero before. -/
theorem unused_slots_zero_iff (size slot : ℕ) (N : Nvram) :
    (ZeroAfterCrash size slot N ↔
      ∀ p < size / slot * slot, ¬ Visited size (lineOf p) → ∀ a, N.May p a → a = 0) ∧
    (CACHE_LINE_SIZE ∣ size → 0 < size → 0 < slot → slot ≤ size →
      ((∀ M, ZeroAfterCrash size slot M) ↔ size = CACHE_LINE_SIZE)) := by
  refine ⟨zeroAfterCrash_iff, fun hd hpos hs hle => ⟨fun h => ?_, ?_⟩⟩
  · by_contra hne
    obtain ⟨p, hp, hv⟩ := exists_not_visited hd
      (lt_of_le_of_ne (Nat.le_of_dvd hpos hd) (Ne.symm hne)) hs hle
    have := zeroAfterCrash_iff.1 (h ⟨fun _ => ⟨fun _ => 1, []⟩⟩) p hp hv 1
      ⟨_, Line.mem_contents.2 (Or.inl rfl), rfl⟩
    exact absurd this (by decide)
  · rintro rfl M
    refine zeroAfterCrash_iff.2 fun p hp hv => absurd ?_ hv
    have := hp.trans_le (Nat.div_mul_le_self _ _)
    unfold Visited lineOf
    rw [Nat.div_eq_of_lt this]
    decide

theorem unused_slots_zero_in_one_line :
    (∀ M, ZeroAfterCrash 64 sizeofNode M) ↔ 64 = CACHE_LINE_SIZE :=
  (unused_slots_zero_iff 64 sizeofNode ⟨fun _ => ⟨fun _ => 0, []⟩⟩).2 (by decide) (by decide)
    (by decide) (by decide)

-- two nodes in each line, both of which look alive
def leftover : LineBytes := fun o =>
  if o.val % 32 = 0 then 0x81 else if o.val % 32 = 1 then 1
  else if o.val % 32 = 24 then 64 else 0

theorem not_visited {q : ℕ} (h : 524288 ≤ q) :
    ¬ Visited SSMEM_DEFAULT_MEM_SIZE (lineOf q) := by
  unfold Visited lineOf SSMEM_DEFAULT_MEM_SIZE CACHE_LINE_SIZE
  omega

-- recovery() would find a node in slot 16384 of the chunk
theorem unused_slots_not_zero :
    ¬ ZeroAfterCrash SSMEM_DEFAULT_MEM_SIZE sizeofNode ⟨fun _ => ⟨leftover, []⟩⟩ := by
  intro h
  have hl : Nvram.Left ⟨fun _ => ⟨leftover, []⟩⟩ fun _ => leftover :=
    fun _ => Line.mem_contents.2 (Or.inl rfl)
  obtain ⟨image', hl', _, hp⟩ :=
    left_slot (p := 16384 * sizeofNode) hl fun q hq _ => not_visited hq
  have hinv := ((h _ image' 16384 .refl hl' ⟨Nat.zero_le _, by decide⟩).2 le_rfl).invalid
  rw [hp] at hinv
  exact absurd hinv (by decide)

end UnusedSlots
