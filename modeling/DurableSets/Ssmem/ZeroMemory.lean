import DurableSets.Core.Line
import Mathlib.Data.BitVec
import Mathlib.Logic.Function.Basic
import Mathlib.Logic.Relation

namespace Ssmem

def CACHE_LINE_SIZE : ℕ := 64

abbrev Byte := BitVec 8

abbrev LineBytes := Fin CACHE_LINE_SIZE → Byte

-- the lines of a chunk; a byte is named by its distance from the start of the chunk
structure Nvram where
  line : ℕ → Line LineBytes

def lineOf (p : ℕ) : ℕ := p / CACHE_LINE_SIZE

def offset (p : ℕ) : Fin CACHE_LINE_SIZE := ⟨p % CACHE_LINE_SIZE, Nat.mod_lt _ (by decide)⟩

namespace Nvram

def setLine (N : Nvram) (i : ℕ) (l : Line LineBytes) : Nvram := ⟨Function.update N.line i l⟩

def read (N : Nvram) (p : ℕ) : Byte := (N.line (lineOf p)).cur (offset p)

def store (N : Nvram) (p : ℕ) (b : Byte) : Nvram :=
  N.setLine (lineOf p)
    ((N.line (lineOf p)).write (Function.update (N.line (lineOf p)).cur (offset p) b))

def barrier (N : Nvram) (p : ℕ) : Nvram := N.setLine (lineOf p) (N.line (lineOf p)).flush

def memset (N : Nvram) (b : Byte) : ℕ → Nvram
  | 0 => N
  | n + 1 => (N.memset b n).store n b

-- the loop of ssmem_zero_memory: the bound is a number of lines, the step one of bytes
def flushLoop (N : Nvram) (memSize i : ℕ) : Nvram :=
  if i < memSize / CACHE_LINE_SIZE then
    (N.barrier i).flushLoop memSize (i + CACHE_LINE_SIZE)
  else N
termination_by memSize / CACHE_LINE_SIZE - i
decreasing_by
  have : 0 < CACHE_LINE_SIZE := by decide
  omega

def zeroMemory (N : Nvram) (memSize : ℕ) : Nvram := (N.memset 0 memSize).flushLoop memSize 0

def Left (N : Nvram) (image : ℕ → LineBytes) : Prop := ∀ i, image i ∈ (N.line i).contents

def May (N : Nvram) (p : ℕ) (a : Byte) : Prop :=
  ∃ c ∈ (N.line (lineOf p)).contents, c (offset p) = a

end Nvram

def Visited (memSize i : ℕ) : Prop := i * CACHE_LINE_SIZE < memSize / CACHE_LINE_SIZE

instance (memSize i : ℕ) : Decidable (Visited memSize i) := inferInstanceAs (Decidable (_ < _))

def byteAt (image : ℕ → LineBytes) (p : ℕ) : Byte := image (lineOf p) (offset p)

theorem eq_of_lineOf {p q : ℕ} (h : lineOf p = lineOf q) (ho : offset p = offset q) : p = q := by
  have ho : p % CACHE_LINE_SIZE = q % CACHE_LINE_SIZE := congrArg Fin.val ho
  rw [← Nat.div_add_mod p CACHE_LINE_SIZE, ← Nat.div_add_mod q CACHE_LINE_SIZE, ho]
  rw [show p / CACHE_LINE_SIZE = q / CACHE_LINE_SIZE from h]

namespace Nvram

variable {N : Nvram} {p q n i memSize : ℕ} {a b : Byte}

@[simp] theorem setLine_self (l : Line LineBytes) : (N.setLine i l).line i = l :=
  Function.update_self _ _ _

theorem setLine_other {j : ℕ} (l : Line LineBytes) (h : j ≠ i) :
    (N.setLine i l).line j = N.line j := Function.update_of_ne h _ _

theorem may_read (N : Nvram) (p : ℕ) : N.May p (N.read p) :=
  ⟨_, Line.mem_contents.2 (Or.inl rfl), rfl⟩

theorem read_store : (N.store q b).read p = if p = q then b else N.read p := by
  unfold store read
  by_cases hl : lineOf p = lineOf q
  · rw [hl, setLine_self, Line.write_cur]
    by_cases hpq : p = q
    · rw [if_pos hpq, hpq, Function.update_self]
    · rw [if_neg hpq, Function.update_of_ne fun ho => hpq (eq_of_lineOf hl ho)]
  · rw [setLine_other _ hl, if_neg fun hpq => hl (congrArg lineOf hpq)]

theorem may_store : (N.store q b).May p a ↔ N.May p a ∨ p = q ∧ a = b := by
  by_cases hl : lineOf p = lineOf q
  · have hread : (Function.update (N.line (lineOf q)).cur (offset q) b) (offset p) =
        if p = q then b else N.read p := by
      rw [← read_store, read, hl, store, setLine_self, Line.write_cur]
    unfold May store
    rw [hl, setLine_self]
    constructor
    · rintro ⟨c, hc, rfl⟩
      rcases Line.mem_write.1 hc with rfl | hc
      · rw [hread]
        split
        · next hpq => exact Or.inr ⟨hpq, rfl⟩
        · exact Or.inl ⟨_, Line.mem_contents.2 (Or.inl rfl), by rw [read, hl]⟩
      · exact Or.inl ⟨c, hc, rfl⟩
    · rintro (⟨c, hc, rfl⟩ | ⟨hpq, rfl⟩)
      · exact ⟨c, Line.mem_write.2 (Or.inr hc), rfl⟩
      · exact ⟨_, Line.mem_write.2 (Or.inl rfl), by rw [hread, if_pos hpq]⟩
  · unfold May store
    rw [setLine_other _ hl, or_iff_left fun h => hl (congrArg lineOf h.1)]

theorem line_barrier :
    (N.barrier q).line i = if i = lineOf q then (N.line i).flush else N.line i := by
  unfold barrier
  split
  · next hi => rw [hi, setLine_self]
  · next hi => rw [setLine_other _ hi]

theorem may_of_barrier (h : (N.barrier q).May p a) : N.May p a := by
  obtain ⟨c, hc, rfl⟩ := h
  rw [line_barrier] at hc
  split at hc
  · rw [Line.mem_flush.1 hc]
    exact N.may_read p
  · exact ⟨c, hc, rfl⟩

theorem read_memset : (N.memset b n).read p = if p < n then b else N.read p := by
  induction n with
  | zero => rfl
  | succ n ih =>
    rw [memset, read_store, ih]
    grind

theorem may_memset : (N.memset b n).May p a ↔ N.May p a ∨ p < n ∧ a = b := by
  induction n with
  | zero => simp [memset]
  | succ n ih =>
    rw [memset, may_store, ih]
    grind

theorem mem_memset {c : LineBytes} (h : c ∈ (N.line i).contents) :
    c ∈ ((N.memset b n).line i).contents := by
  induction n with
  | zero => exact h
  | succ n ih =>
    rw [memset, store]
    by_cases hi : i = lineOf n
    · subst hi
      rw [setLine_self]
      exact Line.mem_write.2 (Or.inr ih)
    · rwa [setLine_other _ hi]

theorem line_flushLoop (hi : CACHE_LINE_SIZE ∣ i) : (N.flushLoop memSize i).line n =
    if i ≤ n * CACHE_LINE_SIZE ∧ Visited memSize n then (N.line n).flush else N.line n := by
  induction N, i using flushLoop.induct memSize with
  | case1 N i hlt ih =>
    obtain ⟨m, rfl⟩ := hi
    have hline : lineOf (CACHE_LINE_SIZE * m) = m := Nat.mul_div_cancel_left m (by decide)
    rw [flushLoop, if_pos hlt, ih (Dvd.intro (m + 1) rfl), line_barrier, hline]
    unfold Visited CACHE_LINE_SIZE at *
    by_cases hnm : n = m
    · rw [if_neg (by omega), if_pos hnm, if_pos (by omega)]
    · rw [if_neg hnm]
      exact if_congr (by omega) rfl rfl
  | case2 N i hge =>
    rw [flushLoop, if_neg hge, if_neg]
    unfold Visited
    omega

theorem line_zeroMemory : (N.zeroMemory memSize).line n =
    if Visited memSize n then ((N.memset 0 memSize).line n).flush
    else (N.memset 0 memSize).line n := by
  rw [zeroMemory, line_flushLoop (dvd_zero _)]
  exact if_congr (and_iff_right (Nat.zero_le _)) rfl rfl

theorem may_zeroMemory (hp : p < memSize) :
    (N.zeroMemory memSize).May p a ↔ a = 0 ∨ ¬ Visited memSize (lineOf p) ∧ N.May p a := by
  have hread : ((N.memset 0 memSize).line (lineOf p)).cur (offset p) = 0 := by
    rw [← read, read_memset, if_pos hp]
  unfold May
  rw [line_zeroMemory]
  by_cases hf : Visited memSize (lineOf p)
  · rw [if_pos hf, or_iff_left fun h => h.1 hf]
    constructor
    · rintro ⟨c, hc, rfl⟩
      rw [Line.mem_flush.1 hc, hread]
    · rintro rfl
      exact ⟨_, Line.mem_flush.2 rfl, hread⟩
  · rw [if_neg hf, and_iff_right hf, ← May, may_memset, ← May, and_iff_right hp, or_comm]

theorem left_zeroMemory (memSize : ℕ) {image : ℕ → LineBytes} (h : N.Left image) :
    ∃ image', (N.zeroMemory memSize).Left image' ∧
      ∀ p, ¬ Visited memSize (lineOf p) → byteAt image' p = byteAt image p := by
  refine ⟨fun n => if Visited memSize n then ((N.memset 0 memSize).line n).cur else image n,
    fun n => ?_, fun p hp => ?_⟩
  · rw [line_zeroMemory]
    dsimp only
    split
    · exact Line.mem_flush.2 rfl
    · exact mem_memset (h n)
  · rw [byteAt, if_neg hp, byteAt]

theorem may_iff_left : N.May p a ↔ ∃ image, N.Left image ∧ byteAt image p = a := by
  constructor
  · rintro ⟨c, hc, rfl⟩
    refine ⟨Function.update (fun i => (N.line i).cur) (lineOf p) c, fun i => ?_, ?_⟩
    · by_cases he : i = lineOf p
      · subst he
        rwa [Function.update_self]
      · rw [Function.update_of_ne he]
        exact Line.mem_contents.2 (Or.inl rfl)
    · rw [byteAt, Function.update_self]
  · rintro ⟨image, hl, rfl⟩
    exact ⟨_, hl _, rfl⟩

end Nvram

structure Chunk where
  nvram : Nvram
  memCurr : ℕ

def Chunk.published (N : Nvram) (size : ℕ) : Chunk := ⟨N.zeroMemory size, 0⟩

-- ssmem_alloc cuts slots off, and their users store to them and flush them; the first slot of
-- a chunk that ssmem_alloc has asked for is not compared with mem_size
inductive Chunk.Step (size slot : ℕ) (c : Chunk) : Chunk → Prop
  | first (hc : c.memCurr = 0) (hs : slot ≤ size) : Step size slot c { c with memCurr := slot }
  | alloc (hs : c.memCurr + slot < size) :
    Step size slot c { c with memCurr := c.memCurr + slot }
  | store (p : ℕ) (b : Byte) (hp : p < c.memCurr) :
    Step size slot c { c with nvram := c.nvram.store p b }
  | barrier (p : ℕ) (hp : p < c.memCurr) :
    Step size slot c { c with nvram := c.nvram.barrier p }

def Chunk.Unused (size slot : ℕ) (c : Chunk) (i : ℕ) : Prop :=
  c.memCurr ≤ i * slot ∧ i * slot + slot ≤ size

def Chunk.Blank (n : ℕ) (c : Chunk) : Prop :=
  ∀ p, c.memCurr ≤ p → p < n → ∀ a, c.nvram.May p a → a = 0

variable {n size slot : ℕ} {c c' : Chunk}

namespace Chunk.Blank

theorem step (h : c.Blank n) (hs : c.Step size slot c') : c'.Blank n := by
  intro p hp hlt a ha
  cases hs with
  | first hc hs => exact h p (by omega) hlt a ha
  | alloc hs => exact h p (le_trans (Nat.le_add_right _ _) hp) hlt a ha
  | store q b hq =>
    rcases Nvram.may_store.1 ha with ha | ⟨rfl, _⟩
    · exact h p hp hlt a ha
    · exact absurd hq (not_lt.2 hp)
  | barrier q hq => exact h p hp hlt a (Nvram.may_of_barrier ha)

theorem run (h : c.Blank n) (hr : Relation.ReflTransGen (Step size slot) c c') :
    c'.Blank n := by
  induction hr with
  | refl => exact h
  | tail _ hs ih => exact ih.step hs

end Chunk.Blank

theorem published_blank {N : Nvram} (hs : n ≤ size) :
    (Chunk.published N size).Blank n ↔
      ∀ p < n, ¬ Visited size (lineOf p) → ∀ a, N.May p a → a = 0 := by
  constructor
  · intro h p hp hf a ha
    exact h p (Nat.zero_le p) hp a ((Nvram.may_zeroMemory (lt_of_lt_of_le hp hs)).2
      (Or.inr ⟨hf, ha⟩))
  · intro h p _ hp a ha
    rcases (Nvram.may_zeroMemory (lt_of_lt_of_le hp hs)).1 ha with ha | ⟨hf, ha⟩
    · exact ha
    · exact h p hp hf a ha

end Ssmem
