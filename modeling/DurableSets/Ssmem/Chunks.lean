import DurableSets.Core.Line
import DurableSets.Ssmem.Arena
import Mathlib.Data.List.Pairwise

namespace Ssmem

structure ListNode where
  obj : ℕ
  next : Option Loc

inductive Caller where
  | init
  | alloc
deriving DecidableEq

-- the next access of ssmem_alloc_init_fs_size, ssmem_alloc or ssmem_free; idle is between
-- two calls
inductive ChunkPc where
  | init
  | listNodeNew (k : Caller)
  | objStore (n : Loc) (k : Caller)
  | nextStore (n : Loc) (k : Caller)
  | nodeBarrier (n : Loc) (k : Caller)
  | memChunksStore (n : Loc) (k : Caller)
  | memChunksBarrier (k : Caller)
  | freeSetNew
  | idle
  | alloc
  | cut
  | free (obj : ℕ)
deriving DecidableEq

-- the accesses of ssmem_alloc_init_fs_size up to the flush of mem_chunks
def ChunkPc.boot : ChunkPc → Bool
  | .init => true
  | .listNodeNew k => k == .init
  | .objStore _ k => k == .init
  | .nextStore _ k => k == .init
  | .nodeBarrier _ k => k == .init
  | .memChunksStore _ k => k == .init
  | .memChunksBarrier k => k == .init
  | _ => false

-- a completed ssmem_alloc with what it returned, or the call of an ssmem_free
inductive Call where
  | alloc (m : ℕ)
  | free (obj : ℕ)
deriving DecidableEq

-- one allocator, the nodes of its list of chunks, what malloc and aligned_alloc have given
-- out, and the calls so far with the latest first
structure Chunked where
  allocator : Allocator ℕ
  mem : ℕ
  memCurr : ℕ
  memSize : ℕ
  memChunks : Line (Option Loc)
  node : Loc → Line ListNode
  made : Loc → Bool
  mapped : ℕ → Bool
  pc : ChunkPc
  log : List Call

def Held (p : ℕ) : List Call → Prop
  | [] => False
  | .alloc m :: log => p = m ∨ Held p log
  | .free obj :: log => p ≠ obj ∧ Held p log

namespace Chunked

def goto (s : Chunked) (pc : ChunkPc) : Chunked := { s with pc := pc }

def Unmapped (s : Chunked) (mem n : ℕ) : Prop := ∀ p, mem ≤ p → p < mem + n → s.mapped p = false

def alignedAlloc (s : Chunked) (mem n : ℕ) : Chunked :=
  { s with
    mem := mem
    memCurr := 0
    memSize := n
    mapped := fun p => s.mapped p || (decide (mem ≤ p) && decide (p < mem + n)) }

def writeNode (s : Chunked) (n : Loc) (a : ListNode) : Chunked :=
  { s with node := Function.update s.node n ((s.node n).write a) }

def flushNode (s : Chunked) (n : Loc) : Chunked :=
  { s with node := Function.update s.node n (s.node n).flush }

-- the second argument of ssmem_list_node_new
def nextOf (s : Chunked) : Caller → Option Loc
  | .init => none
  | .alloc => s.memChunks.cur

def after : Caller → ChunkPc
  | .init => .freeSetNew
  | .alloc => .cut

-- the versions that ssmem_ts_set_collect reads and the threads it reads them of are any
inductive Step (size : ℕ) (s : Chunked) : Chunked → Prop
  | init (mem : ℕ) (hpc : s.pc = .init) (hm : s.Unmapped mem SSMEM_DEFAULT_MEM_SIZE) :
    Step size s ((s.alignedAlloc mem SSMEM_DEFAULT_MEM_SIZE).goto (.listNodeNew .init))
  | listNodeNew (n : Loc) (k : Caller) (hpc : s.pc = .listNodeNew k) (hn : s.made n = false) :
    Step size s { s with made := Function.update s.made n true, pc := .objStore n k }
  | objStore (n : Loc) (k : Caller) (hpc : s.pc = .objStore n k) :
    Step size s ((s.writeNode n { (s.node n).cur with obj := s.mem }).goto (.nextStore n k))
  | nextStore (n : Loc) (k : Caller) (hpc : s.pc = .nextStore n k) :
    Step size s
      ((s.writeNode n { (s.node n).cur with next := s.nextOf k }).goto (.nodeBarrier n k))
  | nodeBarrier (n : Loc) (k : Caller) (hpc : s.pc = .nodeBarrier n k) :
    Step size s ((s.flushNode n).goto (.memChunksStore n k))
  | memChunksStore (n : Loc) (k : Caller) (hpc : s.pc = .memChunksStore n k) :
    Step size s { s with memChunks := s.memChunks.write (some n), pc := .memChunksBarrier k }
  | memChunksBarrier (k : Caller) (hpc : s.pc = .memChunksBarrier k) :
    Step size s { s with memChunks := s.memChunks.flush, pc := after k }
  | freeSetNew (tsList : List Tid) (fsSize : ℕ) (hpc : s.pc = .freeSetNew) :
    Step size s { s with allocator := Allocator.init tsList fsSize, pc := .idle }
  | callAlloc (hpc : s.pc = .idle) : Step size s (s.goto .alloc)
  | pop (m : ℕ) (a : Allocator ℕ) (hpc : s.pc = .alloc) (ha : s.allocator.pop = some (m, a)) :
    Step size s { s with allocator := a, pc := .idle, log := .alloc m :: s.log }
  | grow (mem n : ℕ) (hpc : s.pc = .alloc) (hc : s.allocator.collectedSets = [])
    (hle : s.memSize ≤ s.memCurr + size) (hn : growSize size 64 s.memSize = some n)
    (hm : s.Unmapped mem n) : Step size s ((s.alignedAlloc mem n).goto (.listNodeNew .alloc))
  | fits (hpc : s.pc = .alloc) (hc : s.allocator.collectedSets = [])
    (hlt : s.memCurr + size < s.memSize) : Step size s (s.goto .cut)
  | cut (hpc : s.pc = .cut) :
    Step size s { s with
      memCurr := s.memCurr + size
      pc := .idle
      log := .alloc (s.mem + s.memCurr) :: s.log }
  | callFree (obj : ℕ) (hpc : s.pc = .idle) (hh : Held obj s.log) :
    Step size s { s with pc := .free obj, log := .free obj :: s.log }
  | collect (obj : ℕ) (version : Tid → ℕ) (a : Allocator ℕ) (hpc : s.pc = .free obj)
    (ha : s.allocator.tsSetCollect version = some a) : Step size s { s with allocator := a }
  | free (obj : ℕ) (tsList : List Tid) (a : Allocator ℕ) (hpc : s.pc = .free obj)
    (ha : s.allocator.free tsList obj = some a) :
    Step size s { s with allocator := a, pc := .idle }

-- before ssmem_alloc_init_fs_size; the fields of the allocator hold anything
def Init (s : Chunked) : Prop := s.pc = .init ∧ s.log = []

-- what a crash may leave of the nodes and of mem_chunks in NVRAM
def Left (s : Chunked) (image : Loc → ListNode) (root : Option Loc) : Prop :=
  (∀ l, image l ∈ (s.node l).contents) ∧ root ∈ s.memChunks.contents

end Chunked

def Listed (image : Loc → ListNode) : Option Loc → List (Loc × ℕ) → Prop
  | root, [] => root = none
  | root, (l, c) :: cells => root = some l ∧ (image l).obj = c ∧ Listed image (image l).next cells

-- the two loops of recover() and of recovery() over the chunks
def scan (size : ℕ) (chunks : List ℕ) : List ℕ :=
  chunks.flatMap fun c => (List.range (SSMEM_DEFAULT_MEM_SIZE / size)).map fun i => c + i * size

def Apart (n p q : ℕ) : Prop := p + n ≤ q ∨ q + n ≤ p

-- no chunk is being linked, and none is cut
def ChunkPc.calm : ChunkPc → Bool
  | .freeSetNew => true
  | .idle => true
  | .alloc => true
  | .free _ => true
  | _ => false

/-! ### The list of chunks -/

variable {size p q m c d i j : ℕ} {s s' : Chunked} {cells rest : List (Loc × ℕ)} {l n : Loc}
  {r : Option Loc} {node node' : Loc → Line ListNode} {log : List Call} {k : Caller}

def Flushed (node : Loc → Line ListNode) : Option Loc → List (Loc × ℕ) → Prop
  | root, [] => root = none
  | root, (l, c) :: cells => root = some l ∧ ∃ q, node l = ⟨⟨c, q⟩, []⟩ ∧ Flushed node q cells

theorem Flushed.congr (h : Flushed node r cells)
    (he : ∀ l ∈ cells.map Prod.fst, node' l = node l) : Flushed node' r cells := by
  induction cells generalizing r with
  | nil => exact h
  | cons a cells ih =>
    obtain ⟨hr, q, hl, h⟩ := h
    refine ⟨hr, q, ?_, ih h fun l hl => he l (List.mem_cons_of_mem _ hl)⟩
    rw [he _ List.mem_cons_self, hl]

theorem Flushed.listed {image : Loc → ListNode} (h : Flushed node r cells)
    (hi : ∀ l, image l ∈ (node l).contents) : Listed image r cells := by
  induction cells generalizing r with
  | nil => exact h
  | cons a cells ih =>
    obtain ⟨hr, q, hl, h⟩ := h
    have ha : image a.1 = ⟨a.2, q⟩ := by
      have := hi a.1
      rw [hl] at this
      simpa [Line.contents] using this
    refine ⟨hr, by rw [ha], ?_⟩
    rw [ha]
    exact ih h

theorem held_of_not_freed (h : .free p ∉ log) (rest : List Call) :
    Held p (log ++ .alloc p :: rest) := by
  induction log with
  | nil => exact Or.inl rfl
  | cons a log ih =>
    have ih := ih fun hm => h (List.mem_cons_of_mem _ hm)
    cases a with
    | alloc m => exact Or.inr ih
    | free obj =>
      refine ⟨?_, ih⟩
      rintro rfl
      exact h List.mem_cons_self

theorem handed_of_held (h : Held p log) : .alloc p ∈ log := by
  induction log with
  | nil => cases h
  | cons a log ih =>
    cases a with
    | alloc m =>
      rcases h with rfl | h
      · exact List.mem_cons_self
      · exact List.mem_cons_of_mem _ (ih h)
    | free obj => exact List.mem_cons_of_mem _ (ih h.2)

theorem mem_scan {chunks : List ℕ} : m ∈ scan size chunks ↔
    ∃ c ∈ chunks, ∃ i < SSMEM_DEFAULT_MEM_SIZE / size, m = c + i * size := by
  simp [scan, eq_comm]

instance : Std.Symm (Apart m) := ⟨fun _ _ => Or.symm⟩

theorem slot_le (hi : i < SSMEM_DEFAULT_MEM_SIZE / size) :
    i * size + size ≤ SSMEM_DEFAULT_MEM_SIZE := by
  rw [← Nat.succ_mul]
  exact (Nat.mul_le_mul_right size hi).trans (Nat.div_mul_le_self _ _)

theorem apart_slots (hi : i < SSMEM_DEFAULT_MEM_SIZE / size)
    (hj : j < SSMEM_DEFAULT_MEM_SIZE / size) (hc : c = d ∨ Apart SSMEM_DEFAULT_MEM_SIZE c d)
    (hne : c + i * size ≠ d + j * size) : Apart size (c + i * size) (d + j * size) := by
  have hi := slot_le hi
  have hj := slot_le hj
  rcases hc with rfl | hc
  · rcases lt_trichotomy i j with hlt | rfl | hlt
    · have := Nat.mul_le_mul_right size hlt
      rw [Nat.succ_mul] at this
      exact Or.inl (by omega)
    · exact absurd rfl hne
    · have := Nat.mul_le_mul_right size hlt
      rw [Nat.succ_mul] at this
      exact Or.inr (by omega)
  · rcases hc with hc | hc
    · exact Or.inl (by omega)
    · exact Or.inr (by omega)

theorem apart_or_eq {cs : List ℕ} (h : cs.Pairwise (Apart SSMEM_DEFAULT_MEM_SIZE)) (hc : c ∈ cs)
    (hd : d ∈ cs) : c = d ∨ Apart SSMEM_DEFAULT_MEM_SIZE c d := by
  by_cases he : c = d
  · exact Or.inl he
  · exact Or.inr (h.forall hc hd he)

theorem apart_of_unmapped {mapped : ℕ → Bool}
    (hm : ∀ p, m ≤ p → p < m + SSMEM_DEFAULT_MEM_SIZE → mapped p = false)
    (hc : ∀ p, Within c p → mapped p = true) : Apart SSMEM_DEFAULT_MEM_SIZE m c := by
  by_contra hn
  simp only [Apart, not_or, not_le] at hn
  obtain ⟨h1, h2⟩ := hn
  have hf := hm (max m c) (le_max_left m c) (by omega)
  rw [hc (max m c) ⟨le_max_right m c, by omega⟩] at hf
  cases hf

theorem growSize_self (h : size ≤ m) : growSize size 64 m = some m := by
  simp [growSize, not_lt.2 h]

namespace Chunked

def root (s : Chunked) : Option Loc :=
  match s.pc with
  | .memChunksBarrier _ => s.memChunks.cur
  | pc => if pc.boot then none else s.memChunks.cur

structure Linking (s : Chunked) (cells : List (Loc × ℕ)) (k : Caller) : Prop where
  memCurr : s.memCurr = 0
  memSize : s.memSize = SSMEM_DEFAULT_MEM_SIZE
  mapped : ∀ p, Within s.mem p → s.mapped p = true
  apart : ∀ c ∈ cells.map Prod.snd, Apart SSMEM_DEFAULT_MEM_SIZE s.mem c
  older : k = .alloc → s.memChunks.older = []
  log : k = .init → s.log = []

structure Current (size : ℕ) (s : Chunked) (cells : List (Loc × ℕ)) : Prop where
  memCurr : size ∣ s.memCurr
  memSize : s.memSize = SSMEM_DEFAULT_MEM_SIZE
  head : (cells.map Prod.snd).head? = some s.mem

def Stage (size : ℕ) (s : Chunked) (cells : List (Loc × ℕ)) : ChunkPc → Prop
  | .init => s.log = []
  | .listNodeNew k => s.Linking cells k
  | .objStore n k => s.Linking cells k ∧ n ∉ cells.map Prod.fst ∧ s.made n = true
  | .nextStore n k => s.Linking cells k ∧ n ∉ cells.map Prod.fst ∧ s.made n = true ∧
      (s.node n).cur.obj = s.mem
  | .nodeBarrier n k => s.Linking cells k ∧ n ∉ cells.map Prod.fst ∧ s.made n = true ∧
      (s.node n).cur = ⟨s.mem, s.root⟩
  | .memChunksStore n k => s.Linking cells k ∧ n ∉ cells.map Prod.fst ∧ s.made n = true ∧
      s.node n = ⟨⟨s.mem, s.root⟩, []⟩
  | .memChunksBarrier k => s.memCurr = 0 ∧ s.Current size cells ∧
      (k = .alloc → ∃ r, s.memChunks.older = [r] ∧ Flushed s.node r cells.tail)
  | .cut => s.Current size cells ∧ s.memChunks.older = [] ∧
      s.memCurr + size < SSMEM_DEFAULT_MEM_SIZE
  | _ => s.Current size cells ∧ s.memChunks.older = []

theorem root_calm (h : s.pc.calm = true) : s.root = s.memChunks.cur := by
  unfold root
  cases hpc : s.pc <;> simp_all [ChunkPc.calm, ChunkPc.boot]

theorem stage_calm {pc : ChunkPc} (h : pc.calm = true) :
    s.Stage size cells pc ↔ s.Current size cells ∧ s.memChunks.older = [] := by
  cases pc <;> first | rfl | cases h

structure Inv (size : ℕ) (s : Chunked) (cells : List (Loc × ℕ)) : Prop where
  walk : Flushed s.node s.root cells
  nodes : (cells.map Prod.fst).Nodup
  made : ∀ l ∈ cells.map Prod.fst, s.made l = true
  mapped : ∀ c ∈ cells.map Prod.snd, ∀ p, Within c p → s.mapped p = true
  apart : (cells.map Prod.snd).Pairwise (Apart SSMEM_DEFAULT_MEM_SIZE)
  handed : ∀ m, .alloc m ∈ s.log → ∃ c ∈ cells.map Prod.snd,
    ∃ i < SSMEM_DEFAULT_MEM_SIZE / size, m = c + i * size ∧ (c = s.mem → i * size < s.memCurr)
  stage : s.Stage size cells s.pc

namespace Inv

variable {k : Caller} {mem : ℕ}

theorem init (h : Init s) : s.Inv size [] where
  walk := by simp [Flushed, root, h.1, ChunkPc.boot]
  nodes := List.nodup_nil
  made _ h := nomatch h
  mapped _ h := nomatch h
  apart := List.Pairwise.nil
  handed m hm := by
    rw [h.2] at hm
    cases hm
  stage := by
    rw [h.1]
    exact h.2

theorem begin (h : s.Inv size cells) (hm : s.Unmapped mem SSMEM_DEFAULT_MEM_SIZE)
    (hr : ((s.alignedAlloc mem SSMEM_DEFAULT_MEM_SIZE).goto (.listNodeNew k)).root = s.root)
    (ho : k = .alloc → s.memChunks.older = []) (hl : k = .init → s.log = []) :
    ((s.alignedAlloc mem SSMEM_DEFAULT_MEM_SIZE).goto (.listNodeNew k)).Inv size cells := by
  have hapart : ∀ c ∈ cells.map Prod.snd, Apart SSMEM_DEFAULT_MEM_SIZE mem c :=
    fun c hc => apart_of_unmapped hm (h.mapped c hc)
  refine ⟨hr ▸ h.walk, h.nodes, h.made, fun c hc p hp => ?_, h.apart, fun m hl => ?_,
    rfl, rfl, fun p hp => ?_, hapart, ho, hl⟩
  · simp [alignedAlloc, goto, h.mapped c hc p hp]
  · obtain ⟨c, hc, i, hi, hm, _⟩ := h.handed m hl
    refine ⟨c, hc, i, hi, hm, ?_⟩
    rintro rfl
    have := hapart _ hc
    simp only [Apart, SSMEM_DEFAULT_MEM_SIZE] at this
    omega
  · have := hp.1
    have := hp.2
    simp_all [alignedAlloc, goto]

theorem listNodeNew (h : s.Inv size cells) (hpc : s.pc = .listNodeNew k)
    (hn : s.made n = false) :
    Inv size { s with made := Function.update s.made n true, pc := .objStore n k } cells := by
  have hs : s.Linking cells k := by
    have := h.stage
    rwa [hpc] at this
  have hw := h.walk
  have hnot : n ∉ cells.map Prod.fst := by
    intro hm
    rw [h.made n hm] at hn
    cases hn
  refine ⟨?_, h.nodes, fun l hl => ?_, h.mapped, h.apart, h.handed,
    ⟨hs.memCurr, hs.memSize, hs.mapped, hs.apart, hs.older, hs.log⟩, hnot, ?_⟩
  · simpa [root, hpc, ChunkPc.boot] using hw
  · by_cases he : l = n
    · simp [he]
    · simp [he, h.made l hl]
  · simp

theorem write_other (h : s.Inv size cells) {a : ListNode} {pc : ChunkPc}
    (hn : n ∉ cells.map Prod.fst) (hr : ((s.writeNode n a).goto pc).root = s.root)
    (hs : ((s.writeNode n a).goto pc).Stage size cells pc) :
    ((s.writeNode n a).goto pc).Inv size cells := by
  refine ⟨hr ▸ h.walk.congr fun l hl => ?_, h.nodes, h.made, h.mapped, h.apart, h.handed, hs⟩
  exact Function.update_of_ne (ne_of_mem_of_not_mem hl hn) _ _

theorem linking_writeNode (h : s.Linking cells k) (a : ListNode) (pc : ChunkPc) :
    ((s.writeNode n a).goto pc).Linking cells k :=
  ⟨h.memCurr, h.memSize, h.mapped, h.apart, h.older, h.log⟩

theorem objStore (h : s.Inv size cells) (hpc : s.pc = .objStore n k) :
    Inv size ((s.writeNode n { (s.node n).cur with obj := s.mem }).goto (.nextStore n k)) cells := by
  obtain ⟨hs, hn, hm⟩ : s.Linking cells k ∧ n ∉ cells.map Prod.fst ∧ s.made n = true := by
    have := h.stage
    rwa [hpc] at this
  refine h.write_other hn ?_ ⟨linking_writeNode hs _ _, hn, hm, ?_⟩
  · simp [root, hpc, goto, writeNode, ChunkPc.boot]
  · simp [goto, writeNode]

theorem nextStore (h : s.Inv size cells) (hpc : s.pc = .nextStore n k) :
    Inv size ((s.writeNode n { (s.node n).cur with next := s.nextOf k }).goto (.nodeBarrier n k))
      cells := by
  obtain ⟨hs, hn, hm, ho⟩ : s.Linking cells k ∧ n ∉ cells.map Prod.fst ∧ s.made n = true ∧
      (s.node n).cur.obj = s.mem := by
    have := h.stage
    rwa [hpc] at this
  refine h.write_other hn ?_ ⟨linking_writeNode hs _ _, hn, hm, ?_⟩
  · simp [root, hpc, goto, writeNode, ChunkPc.boot]
  · cases k <;> simp [goto, writeNode, root, ChunkPc.boot, nextOf, ho]

theorem nodeBarrier (h : s.Inv size cells) (hpc : s.pc = .nodeBarrier n k) :
    Inv size ((s.flushNode n).goto (.memChunksStore n k)) cells := by
  obtain ⟨hs, hn, hm, ho⟩ : s.Linking cells k ∧ n ∉ cells.map Prod.fst ∧ s.made n = true ∧
      (s.node n).cur = ⟨s.mem, s.root⟩ := by
    have := h.stage
    rwa [hpc] at this
  have hr : ((s.flushNode n).goto (.memChunksStore n k)).root = s.root := by
    simp [root, hpc, goto, flushNode, ChunkPc.boot]
  refine ⟨hr ▸ h.walk.congr fun l hl => ?_, h.nodes, h.made, h.mapped, h.apart, h.handed,
    ⟨hs.memCurr, hs.memSize, hs.mapped, hs.apart, hs.older, hs.log⟩, hn, hm, ?_⟩
  · exact Function.update_of_ne (ne_of_mem_of_not_mem hl hn) _ _
  · rw [hr]
    simp [goto, flushNode, Line.flush, ho]

theorem memChunksStore (h : s.Inv size cells) (hpc : s.pc = .memChunksStore n k) :
    Inv size { s with memChunks := s.memChunks.write (some n), pc := .memChunksBarrier k }
      ((n, s.mem) :: cells) := by
  obtain ⟨hs, hn, hm, ho⟩ : s.Linking cells k ∧ n ∉ cells.map Prod.fst ∧ s.made n = true ∧
      s.node n = ⟨⟨s.mem, s.root⟩, []⟩ := by
    have := h.stage
    rwa [hpc] at this
  refine ⟨⟨rfl, _, ho, h.walk⟩, List.nodup_cons.2 ⟨hn, h.nodes⟩, fun l hl => ?_, fun c hc => ?_,
    List.pairwise_cons.2 ⟨hs.apart, h.apart⟩, fun m hl => ?_, hs.memCurr,
    ⟨?_, hs.memSize, rfl⟩, ?_⟩
  · rcases List.mem_cons.1 hl with rfl | hl
    · exact hm
    · exact h.made l hl
  · rcases List.mem_cons.1 hc with rfl | hc
    · exact hs.mapped
    · exact h.mapped c hc
  · obtain ⟨c, hc, hi⟩ := h.handed m hl
    exact ⟨c, List.mem_cons_of_mem _ hc, hi⟩
  · exact hs.memCurr ▸ Nat.dvd_zero size
  · rintro rfl
    refine ⟨s.memChunks.cur, ?_, ?_⟩
    · simp [Line.write, Line.contents, hs.older rfl]
    · have := h.walk
      simpa [root, hpc, ChunkPc.boot] using this

theorem memChunksBarrier (hM : size < SSMEM_DEFAULT_MEM_SIZE) (h : s.Inv size cells)
    (hpc : s.pc = .memChunksBarrier k) :
    Inv size { s with memChunks := s.memChunks.flush, pc := after k } cells := by
  obtain ⟨h0, hs, _⟩ : s.memCurr = 0 ∧ s.Current size cells ∧
      (k = .alloc → ∃ r, s.memChunks.older = [r] ∧ Flushed s.node r cells.tail) := by
    have := h.stage
    rwa [hpc] at this
  have hw := h.walk
  refine ⟨?_, h.nodes, h.made, h.mapped, h.apart, h.handed, ?_⟩
  · cases k <;> simpa [root, hpc, after, ChunkPc.boot] using hw
  · cases k with
    | init => exact ⟨⟨hs.memCurr, hs.memSize, hs.head⟩, rfl⟩
    | alloc => exact ⟨⟨hs.memCurr, hs.memSize, hs.head⟩, rfl, by simpa [h0] using hM⟩

theorem calm (h : s.Inv size cells) (hc : s.pc.calm = true) {pc : ChunkPc}
    (hpc : pc.calm = true) {a : Allocator ℕ} (hl : ∀ m, .alloc m ∈ log → .alloc m ∈ s.log) :
    Inv size { s with allocator := a, pc := pc, log := log } cells := by
  have hw := h.walk
  rw [root_calm hc] at hw
  obtain ⟨hs, ho⟩ := (stage_calm hc).1 h.stage
  refine ⟨?_, h.nodes, h.made, h.mapped, h.apart, fun m hm => h.handed m (hl m hm), ?_⟩
  · rwa [root_calm (s := { s with allocator := a, pc := pc, log := log }) hpc]
  · exact (stage_calm hpc).2 ⟨⟨hs.memCurr, hs.memSize, hs.head⟩, ho⟩

theorem grow (h : s.Inv size cells) (hpc : s.pc = .alloc)
    (hm : s.Unmapped mem SSMEM_DEFAULT_MEM_SIZE) :
    ((s.alignedAlloc mem SSMEM_DEFAULT_MEM_SIZE).goto (.listNodeNew .alloc)).Inv size cells := by
  have hc : s.pc.calm = true := by rw [hpc]; rfl
  obtain ⟨_, ho⟩ := (stage_calm hc).1 h.stage
  refine h.begin hm ?_ (fun _ => ho) nofun
  rw [root_calm hc]
  rfl

theorem fits (h : s.Inv size cells) (hpc : s.pc = .alloc) (hlt : s.memCurr + size < s.memSize) :
    (s.goto .cut).Inv size cells := by
  have hc : s.pc.calm = true := by rw [hpc]; rfl
  obtain ⟨hs, ho⟩ := (stage_calm hc).1 h.stage
  refine ⟨?_, h.nodes, h.made, h.mapped, h.apart, h.handed,
    ⟨hs.memCurr, hs.memSize, hs.head⟩, ho, hs.memSize ▸ hlt⟩
  have hw := h.walk
  rwa [root_calm hc] at hw

theorem cut (h0 : 0 < size) (h : s.Inv size cells) (hpc : s.pc = .cut) :
    .alloc (s.mem + s.memCurr) ∉ s.log ∧ Inv size { s with
      memCurr := s.memCurr + size
      pc := .idle
      log := .alloc (s.mem + s.memCurr) :: s.log } cells := by
  obtain ⟨hs, ho, hlt⟩ : s.Current size cells ∧ s.memChunks.older = [] ∧
      s.memCurr + size < SSMEM_DEFAULT_MEM_SIZE := by
    have := h.stage
    rwa [hpc] at this
  obtain ⟨k, hk⟩ := hs.memCurr
  have hmem : s.mem ∈ cells.map Prod.snd := List.mem_of_mem_head? hs.head
  have hki : k < SSMEM_DEFAULT_MEM_SIZE / size := by
    refine (Nat.le_div_iff_mul_le h0).2 ?_
    rw [Nat.succ_mul, Nat.mul_comm, ← hk]
    exact hlt.le
  refine ⟨fun hl => ?_, ?_, h.nodes, h.made, h.mapped, h.apart, fun m hl => ?_,
    ⟨(Nat.dvd_add_self_right).2 ⟨k, hk⟩, hs.memSize, hs.head⟩, ho⟩
  · obtain ⟨c, hc, i, hi, he, hb⟩ := h.handed _ hl
    have hi' := slot_le hi
    rcases apart_or_eq h.apart hc hmem with rfl | ha
    · have := hb rfl
      omega
    · rcases ha with ha | ha <;> omega
  · have hw := h.walk
    simpa [root, hpc, ChunkPc.boot] using hw
  · rcases List.mem_cons.1 hl with he | hl
    · obtain rfl := Call.alloc.inj he
      refine ⟨s.mem, hmem, k, hki, ?_, fun _ => ?_⟩
      · rw [hk, Nat.mul_comm]
      · rw [Nat.mul_comm, ← hk]
        exact Nat.lt_add_of_pos_right h0
    · obtain ⟨c, hc, i, hi, he, hb⟩ := h.handed m hl
      exact ⟨c, hc, i, hi, he, fun hm => (hb hm).trans (by simpa using h0)⟩

theorem apart_handed (h : s.Inv size cells) (hp : .alloc p ∈ s.log) (hq : .alloc q ∈ s.log)
    (hne : p ≠ q) : Apart size p q := by
  obtain ⟨c, hc, i, hi, rfl, _⟩ := h.handed p hp
  obtain ⟨d, hd, j, hj, rfl, _⟩ := h.handed q hq
  exact apart_slots hi hj (apart_or_eq h.apart hc hd) hne

end Inv

def slots (s : Chunked) : List ℕ :=
  match s.pc with
  | .freeSetNew => []
  | .free obj => obj :: s.allocator.slots
  | .memChunksBarrier k => if k = .init then [] else s.allocator.slots
  | pc => if pc.boot then [] else s.allocator.slots

structure Accounts (size : ℕ) (s : Chunked) : Prop where
  nodup : s.slots.Nodup
  freed : ∀ p ∈ s.slots, .alloc p ∈ s.log ∧ ¬ Held p s.log
  apart : ∀ l₁ l₂ l₃ p q, s.log = l₁ ++ .alloc q :: (l₂ ++ .alloc p :: l₃) → .free p ∉ l₂ →
    Apart size p q

namespace Accounts

theorem congr (h : Accounts size s) (hs : s'.slots = s.slots) (hl : s'.log = s.log) :
    Accounts size s' := by
  obtain ⟨h1, h2, h3⟩ := h
  exact ⟨hs ▸ h1, by rwa [hs, hl], by rwa [hl]⟩

theorem init (h : Init s) : Accounts size s where
  nodup := by simp [slots, h.1, ChunkPc.boot]
  freed p hp := by simp [slots, h.1, ChunkPc.boot] at hp
  apart l₁ l₂ l₃ p q he := by simp [h.2] at he

theorem alloc (h : Accounts size s) (hi : s'.Inv size cells) (hl : s'.log = .alloc m :: s.log)
    (hm : ¬ Held m s.log) (hp : s.slots.Perm (m :: s'.slots) ∨
      s'.slots = s.slots ∧ .alloc m ∉ s.log) : Accounts size s' := by
  have hs : s'.slots.Nodup ∧ ∀ p ∈ s'.slots, p ∈ s.slots ∧ p ≠ m := by
    rcases hp with hp | ⟨he, hn⟩
    · obtain ⟨h1, h2⟩ := List.nodup_cons.1 (hp.nodup_iff.1 h.nodup)
      exact ⟨h2, fun p hm => ⟨hp.mem_iff.2 (List.mem_cons_of_mem _ hm), ne_of_mem_of_not_mem hm h1⟩⟩
    · rw [he]
      refine ⟨h.nodup, fun p hp => ⟨hp, ?_⟩⟩
      rintro rfl
      exact hn (h.freed p hp).1
  refine ⟨hs.1, fun p hp => ?_, fun l₁ l₂ l₃ p q he hf => ?_⟩
  · obtain ⟨hp, hne⟩ := hs.2 p hp
    rw [hl]
    exact ⟨List.mem_cons_of_mem _ (h.freed p hp).1, fun hh => hh.elim hne (h.freed p hp).2⟩
  · rw [hl] at he
    cases l₁ with
    | nil =>
      obtain ⟨he, ht⟩ := List.cons.inj he
      obtain rfl := Call.alloc.inj he
      have hh : Held p s.log := ht ▸ held_of_not_freed hf l₃
      refine hi.apart_handed ?_ (hl ▸ List.mem_cons_self) fun he => hm (he ▸ hh)
      rw [hl]
      exact List.mem_cons_of_mem _ (handed_of_held hh)
    | cons a l₁ => exact h.apart l₁ l₂ l₃ p q (List.cons.inj he).2 hf

theorem callFree (h : Accounts size s) (hpc : s.pc = .idle) (hh : Held p s.log) :
    Accounts size { s with pc := .free p, log := .free p :: s.log } := by
  have hs : s.slots = s.allocator.slots := by simp [slots, hpc, ChunkPc.boot]
  obtain ⟨h1, h2, h3⟩ := h
  rw [hs] at h1 h2
  refine ⟨List.nodup_cons.2 ⟨fun hm => (h2 p hm).2 hh, h1⟩, fun q hq => ?_,
    fun l₁ l₂ l₃ a b he hf => ?_⟩
  · rcases List.mem_cons.1 hq with rfl | hq
    · exact ⟨List.mem_cons_of_mem _ (handed_of_held hh), fun hn => hn.1 rfl⟩
    · exact ⟨List.mem_cons_of_mem _ (h2 q hq).1, fun hn => (h2 q hq).2 hn.2⟩
  · cases l₁ with
    | nil => cases (List.cons.inj he).1
    | cons c l₁ => exact h3 l₁ l₂ l₃ a b (List.cons.inj he).2 hf

theorem free (h : Accounts size s) (hpc : s.pc = .free p) {tsList : List Tid} {a : Allocator ℕ}
    (ha : s.allocator.free tsList p = some a) :
    Accounts size { s with allocator := a, pc := .idle } := by
  have hp : a.slots.Perm s.slots := by
    simpa [slots, hpc, ChunkPc.boot] using Allocator.perm_free ha
  exact ⟨hp.nodup_iff.2 h.nodup, fun q hq => h.freed q (hp.mem_iff.1 hq), h.apart⟩

end Accounts

theorem step (h0 : 0 < size) (hM : size < SSMEM_DEFAULT_MEM_SIZE) (h : s.Inv size cells)
    (ha : s.Accounts size) (hst : Step size s s') :
    (∃ cells', s'.Inv size cells') ∧ s'.Accounts size := by
  cases hst with
  | init mem hpc hm =>
    have hl : s.log = [] := by
      have := h.stage
      rwa [hpc] at this
    refine ⟨⟨cells, h.begin hm ?_ nofun fun _ => hl⟩, ha.congr ?_ rfl⟩
    · simp [root, hpc, goto, ChunkPc.boot]
    · simp [slots, hpc, goto, ChunkPc.boot]
  | listNodeNew n k hpc hn =>
    exact ⟨⟨cells, h.listNodeNew hpc hn⟩, ha.congr (by simp [slots, hpc, ChunkPc.boot]) rfl⟩
  | objStore n k hpc =>
    refine ⟨⟨cells, h.objStore hpc⟩, ha.congr ?_ rfl⟩
    simp [slots, hpc, goto, writeNode, ChunkPc.boot]
  | nextStore n k hpc =>
    refine ⟨⟨cells, h.nextStore hpc⟩, ha.congr ?_ rfl⟩
    simp [slots, hpc, goto, writeNode, ChunkPc.boot]
  | nodeBarrier n k hpc =>
    refine ⟨⟨cells, h.nodeBarrier hpc⟩, ha.congr ?_ rfl⟩
    simp [slots, hpc, goto, flushNode, ChunkPc.boot]
  | memChunksStore n k hpc =>
    exact ⟨⟨_, h.memChunksStore hpc⟩, ha.congr (by simp [slots, hpc, ChunkPc.boot]) rfl⟩
  | memChunksBarrier k hpc =>
    refine ⟨⟨cells, h.memChunksBarrier hM hpc⟩, ha.congr ?_ rfl⟩
    cases k <;> simp [slots, hpc, after, ChunkPc.boot]
  | freeSetNew tsList fsSize hpc =>
    refine ⟨⟨cells, h.calm (by rw [hpc]; rfl) rfl fun _ => id⟩, ha.congr ?_ rfl⟩
    simp [slots, hpc, ChunkPc.boot, Allocator.init, Allocator.slots]
  | callAlloc hpc =>
    refine ⟨⟨cells, h.calm (by rw [hpc]; rfl) rfl fun _ => id⟩, ha.congr ?_ rfl⟩
    simp [slots, hpc, goto, ChunkPc.boot]
  | pop m a hpc hp =>
    have hs : s.slots = s.allocator.slots := by simp [slots, hpc, ChunkPc.boot]
    have hperm := Allocator.perm_pop hp
    obtain ⟨hm, hn⟩ := ha.freed m (hs ▸ hperm.mem_iff.2 List.mem_cons_self)
    have hinv : Inv size { s with allocator := a, pc := .idle, log := .alloc m :: s.log } cells :=
      h.calm (by rw [hpc]; rfl) rfl
        fun p hp => (List.mem_cons.1 hp).elim (fun he => Call.alloc.inj he ▸ hm) id
    exact ⟨⟨cells, hinv⟩, ha.alloc hinv rfl hn (Or.inl (hs ▸ hperm))⟩
  | grow mem n hpc _ hle hn hm =>
    have hs : s.memSize = SSMEM_DEFAULT_MEM_SIZE :=
      ((stage_calm (by rw [hpc]; rfl)).1 h.stage).1.memSize
    obtain rfl : SSMEM_DEFAULT_MEM_SIZE = n :=
      Option.some.inj ((growSize_self hM.le).symm.trans (hs ▸ hn))
    exact ⟨⟨cells, h.grow hpc hm⟩, ha.congr (by simp [slots, hpc, goto, ChunkPc.boot, alignedAlloc]) rfl⟩
  | fits hpc _ hlt =>
    exact ⟨⟨cells, h.fits hpc hlt⟩, ha.congr (by simp [slots, hpc, goto, ChunkPc.boot]) rfl⟩
  | cut hpc =>
    obtain ⟨hn, hinv⟩ := h.cut h0 hpc
    refine ⟨⟨cells, hinv⟩, ha.alloc hinv rfl (fun hh => hn (handed_of_held hh)) (Or.inr ⟨?_, hn⟩)⟩
    simp [slots, hpc, ChunkPc.boot]
  | callFree obj hpc hh =>
    exact ⟨⟨cells, h.calm (by rw [hpc]; rfl) rfl (by simp)⟩, ha.callFree hpc hh⟩
  | collect obj version a hpc hc =>
    have hc' : s.pc.calm = true := by rw [hpc]; rfl
    refine ⟨⟨cells, h.calm hc' hc' fun _ => id⟩, ha.congr ?_ rfl⟩
    simp [slots, hpc, Allocator.slots_tsSetCollect hc]
  | free obj tsList a hpc hf =>
    exact ⟨⟨cells, h.calm (by rw [hpc]; rfl) rfl fun _ => id⟩, ha.free hpc hf⟩

theorem run (h0 : 0 < size) (hM : size < SSMEM_DEFAULT_MEM_SIZE) {s₀ : Chunked} (hi : Init s₀)
    (hr : Relation.ReflTransGen (Step size) s₀ s) :
    (∃ cells, s.Inv size cells) ∧ s.Accounts size := by
  induction hr with
  | refl => exact ⟨⟨[], Inv.init hi⟩, Accounts.init hi⟩
  | tail _ hst ih =>
    obtain ⟨⟨cells, h⟩, ha⟩ := ih
    exact step h0 hM h ha hst

namespace Inv

theorem contents (h : s.Inv size cells) (hb : s.pc.boot = false) : s.root = s.memChunks.cur ∧
    (s.memChunks.older = [] ∨ s.memCurr = 0 ∧ s.Current size cells ∧
      ∃ r, s.memChunks.older = [r] ∧ Flushed s.node r cells.tail) := by
  have hs := h.stage
  have hr : s.root = s.memChunks.cur := by
    cases hpc : s.pc <;> simp_all [root]
  refine ⟨hr, ?_⟩
  cases hpc : s.pc with
  | memChunksBarrier k =>
    rw [hpc] at hs hb
    exact Or.inr ⟨hs.1, hs.2.1, hs.2.2 (by cases k <;> first | rfl | cases hb)⟩
  | init => simp [hpc, ChunkPc.boot] at hb
  | cut =>
    rw [hpc] at hs
    exact Or.inl hs.2.1
  | listNodeNew k =>
    rw [hpc] at hs hb
    exact Or.inl (hs.older (by cases k <;> first | rfl | cases hb))
  | objStore n k | nextStore n k | nodeBarrier n k | memChunksStore n k =>
    rw [hpc] at hs hb
    exact Or.inl (hs.1.older (by cases k <;> first | rfl | cases hb))
  | freeSetNew | idle | alloc | free obj => exact Or.inl ((stage_calm (by rw [hpc]; rfl)).1 h.stage).2

theorem left (h : s.Inv size cells) (hb : s.pc.boot = false) {image : Loc → ListNode}
    {root : Option Loc} (hl : s.Left image root) : ∃ cells : List (Loc × ℕ),
      Listed image root cells ∧ (cells.map Prod.fst).Nodup ∧
      (cells.map Prod.snd).Pairwise (Apart SSMEM_DEFAULT_MEM_SIZE) ∧
      (∀ c ∈ cells.map Prod.snd, ∀ p, Within c p → s.mapped p = true) ∧
      ∀ m, .alloc m ∈ s.log → m ∈ scan size (cells.map Prod.snd) := by
  have hcur : root = s.memChunks.cur → ∃ cells : List (Loc × ℕ),
      Listed image root cells ∧ (cells.map Prod.fst).Nodup ∧
      (cells.map Prod.snd).Pairwise (Apart SSMEM_DEFAULT_MEM_SIZE) ∧
      (∀ c ∈ cells.map Prod.snd, ∀ p, Within c p → s.mapped p = true) ∧
      ∀ m, .alloc m ∈ s.log → m ∈ scan size (cells.map Prod.snd) := by
    rintro rfl
    refine ⟨cells, ?_, h.nodes, h.apart, h.mapped, fun m hm => ?_⟩
    · rw [← (h.contents hb).1]
      exact h.walk.listed hl.1
    · obtain ⟨c, hc, i, hi, he, _⟩ := h.handed m hm
      exact mem_scan.2 ⟨c, hc, i, hi, he⟩
  rcases (h.contents hb).2 with ho | ⟨h0, hs, r, ho, hw⟩
  · refine hcur ?_
    have := hl.2
    rw [Line.contents, ho] at this
    exact List.mem_singleton.1 this
  · rcases Line.mem_contents.1 hl.2 with hr | hr
    · exact hcur hr
    · -- the crash comes before the flush of mem_chunks: no slot of the new chunk is handed out
      rw [ho, List.mem_singleton] at hr
      subst hr
      have hsub : ∀ c ∈ cells.tail.map Prod.snd, c ∈ cells.map Prod.snd := by
        intro c hc
        rw [List.map_tail] at hc
        exact List.mem_of_mem_tail hc
      refine ⟨cells.tail, hw.listed hl.1, ?_, ?_, fun c hc => h.mapped c (hsub c hc), fun m hm => ?_⟩
      · rw [List.map_tail]
        exact h.nodes.sublist (List.tail_sublist _)
      · rw [List.map_tail]
        exact h.apart.sublist (List.tail_sublist _)
      · obtain ⟨c, hc, i, hi, he, hlt⟩ := h.handed m hm
        refine mem_scan.2 ⟨c, ?_, i, hi, he⟩
        have hhead := hs.head
        rw [List.map_tail]
        cases hcs : cells.map Prod.snd with
        | nil =>
          rw [hcs] at hc
          cases hc
        | cons d cs =>
          rw [hcs] at hc hhead
          rcases List.mem_cons.1 hc with rfl | hc
          · have := hlt (Option.some.inj hhead)
            omega
          · exact hc

end Inv

end Chunked

theorem ssmem_recovery_visits {size : ℕ} (h0 : 0 < size) (hM : size < SSMEM_DEFAULT_MEM_SIZE)
    {s₀ s : Chunked} (hi : s₀.Init) (hr : Relation.ReflTransGen (Chunked.Step size) s₀ s)
    (hb : s.pc.boot = false) :
    (∀ image root, s.Left image root → ∃ cells : List (Loc × ℕ),
      Listed image root cells ∧ (cells.map Prod.fst).Nodup ∧
      (cells.map Prod.snd).Pairwise (Apart SSMEM_DEFAULT_MEM_SIZE) ∧
      (∀ c ∈ cells.map Prod.snd, ∀ p, Within c p → s.mapped p = true) ∧
      ∀ m, .alloc m ∈ s.log → m ∈ scan size (cells.map Prod.snd)) ∧
    ∀ l₁ l₂ l₃ p q, s.log = l₁ ++ .alloc q :: (l₂ ++ .alloc p :: l₃) → .free p ∉ l₂ →
      Apart size p q := by
  obtain ⟨⟨cells, h⟩, ha⟩ := Chunked.run h0 hM hi hr
  exact ⟨fun image root hl => h.left hb hl, ha.apart⟩

namespace Chunked

def zeroed : Chunked :=
  ⟨⟨0, ⟨[], fun _ => 0⟩, [], [], []⟩, 0, 0, 0, ⟨none, []⟩, fun _ => ⟨⟨0, none⟩, []⟩, fun _ => false,
    fun _ => false, .init, []⟩

end Chunked

theorem unmapped_above {mapped : ℕ → Bool} (h : ∀ p, m ≤ p → mapped p = false) (hm : c + n ≤ m)
    (p : ℕ) (hp : m ≤ p) : (mapped p || (decide (c ≤ p) && decide (p < c + n))) = false := by
  simp [h p hp, not_lt.2 (hm.trans hp)]

-- the three slots of two chunks are freed, and the first one is handed out again; then a third
-- chunk is linked, and a crash may find mem_chunks without it
theorem ssmem_recovery_visits_recycled : ∃ s : Chunked,
    s.pc = .memChunksBarrier .alloc ∧ s.memChunks.contents = [some 2, some 1] ∧
    s.log = [.alloc (SSMEM_DEFAULT_MEM_SIZE + 3 * 2 ^ 22), .alloc 0, .free SSMEM_DEFAULT_MEM_SIZE,
      .free (3 * 2 ^ 22), .free 0, .alloc SSMEM_DEFAULT_MEM_SIZE, .alloc (3 * 2 ^ 22), .alloc 0] ∧
    (∀ image root, s.Left image root → ∃ cells : List (Loc × ℕ),
      Listed image root cells ∧ (cells.map Prod.fst).Nodup ∧
      (cells.map Prod.snd).Pairwise (Apart SSMEM_DEFAULT_MEM_SIZE) ∧
      (∀ c ∈ cells.map Prod.snd, ∀ p, Within c p → s.mapped p = true) ∧
      ∀ m, .alloc m ∈ s.log → m ∈ scan (3 * 2 ^ 22) (cells.map Prod.snd)) ∧
    ∀ l₁ l₂ l₃ p q, s.log = l₁ ++ .alloc q :: (l₂ ++ .alloc p :: l₃) → .free p ∉ l₂ →
      Apart (3 * 2 ^ 22) p q := by
  have second : ∀ p, SSMEM_DEFAULT_MEM_SIZE ≤ p →
      (false || (decide (0 ≤ p) && decide (p < 0 + SSMEM_DEFAULT_MEM_SIZE))) = false :=
    unmapped_above (fun _ _ => rfl) (le_of_eq (Nat.zero_add _))
  have third := unmapped_above (m := 2 * SSMEM_DEFAULT_MEM_SIZE) (c := SSMEM_DEFAULT_MEM_SIZE)
    (fun p hp => second p (le_trans (by decide) hp)) (le_of_eq (Nat.two_mul _).symm)
  have booted : Relation.ReflTransGen (Chunked.Step (3 * 2 ^ 22)) Chunked.zeroed _ :=
    (((((((Relation.ReflTransGen.refl.tail (.init 0 rfl fun _ _ _ => rfl)).tail
      (.listNodeNew 0 _ rfl rfl)).tail (.objStore 0 _ rfl)).tail (.nextStore 0 _ rfl)).tail
      (.nodeBarrier 0 _ rfl)).tail (.memChunksStore 0 _ rfl)).tail (.memChunksBarrier _ rfl)).tail
      (.freeSetNew [0] 1 rfl)
  have filled := (((((booted.tail (.callAlloc rfl)).tail (.fits rfl rfl (by decide))).tail
    (.cut rfl)).tail (.callAlloc rfl)).tail (.fits rfl rfl (by decide))).tail (.cut rfl)
  have grown := ((((((((filled.tail (.callAlloc rfl)).tail
    (.grow SSMEM_DEFAULT_MEM_SIZE SSMEM_DEFAULT_MEM_SIZE rfl rfl (by decide) rfl
      fun p hp _ => second p hp)).tail
    (.listNodeNew 1 _ rfl rfl)).tail (.objStore 1 _ rfl)).tail (.nextStore 1 _ rfl)).tail
    (.nodeBarrier 1 _ rfl)).tail (.memChunksStore 1 _ rfl)).tail (.memChunksBarrier _ rfl)).tail
    (.cut rfl)
  have freed := (((((((grown.tail (.callFree 0 rfl (Or.inr (Or.inr (Or.inl rfl))))).tail
    (.free 0 [0] _ rfl rfl)).tail
    (.callFree (3 * 2 ^ 22) rfl ⟨by decide, Or.inr (Or.inl rfl)⟩)).tail
    (.collect _ (fun _ => 1) _ rfl rfl)).tail (.free _ [0] _ rfl rfl)).tail
    (.callFree SSMEM_DEFAULT_MEM_SIZE rfl ⟨by decide, by decide, Or.inl rfl⟩)).tail
    (.collect _ (fun _ => 2) _ rfl rfl)).tail (.free _ [0] _ rfl rfl)
  have recycled := ((((freed.tail (.callAlloc rfl)).tail (.pop 0 _ rfl rfl)).tail
    (.callAlloc rfl)).tail (.fits rfl rfl (by decide))).tail (.cut rfl)
  have linking := ((((((recycled.tail (.callAlloc rfl)).tail
    (.grow (2 * SSMEM_DEFAULT_MEM_SIZE) SSMEM_DEFAULT_MEM_SIZE rfl rfl (by decide) rfl
      fun p hp _ => third p hp)).tail
    (.listNodeNew 2 _ rfl rfl)).tail (.objStore 2 _ rfl)).tail (.nextStore 2 _ rfl)).tail
    (.nodeBarrier 2 _ rfl)).tail (.memChunksStore 2 _ rfl)
  exact ⟨_, rfl, rfl, rfl, ssmem_recovery_visits (by decide) (by decide)
    (show Chunked.zeroed.Init from ⟨rfl, rfl⟩) linking rfl⟩

end Ssmem
