/-
The memory manager.

A pool hands out blocks of one size.  It carves them out of segments that it takes from the heap,
and keeps those that are not in use in a queue, which is threaded through the blocks themselves.
The manager keeps its pools in the order of their block sizes, and hands out a block of the first
pool that fits; a returned block finds its pool by its size.

Main definitions:

* `CodePort.Heap` — where memory comes from: it is always fresh;
* `CodePort.Memory` — the headers of the blocks, and the pointers at the start of their buffers;
* `CodePort.MemPool.memBlockGet`, `memBlockPut`, `allocateSegment` — a pool;
* `CodePort.MemPool.SegmentFits`, `CanGrow`, `CodePort.MemManager.BlockFits` — the size of an allocation is
  not too great for its type;
* `CodePort.MemManager.memBlockGet`, `memBlockPut`, `createPool`, `construct` — the manager.

Main results:

* `CodePort.MemPool.memBlockPut_grown`, `allocateSegment_carved` — what a pool gains;
* `CodePort.MemPool.memBlockGet_counted` — what it hands out.

The calls hold a mutex, so they are modelled one after another.  The list of the pools is modelled
as a list, and a pool is told from the others by its address; addresses are natural numbers.  The size of
an allocation is a `size_t`, whose arithmetic wraps around.
-/

import CodePort.LinkedQueue
import Mathlib.Data.List.Basic
import Mathlib.Data.Nat.Notation
import Mathlib.Tactic.Ring

set_option relaxedAutoImplicit false
set_option autoImplicit false

namespace CodePort

open LinkedQueue

/-! ### Blocks -/

def minMemBlockSize : ℕ := 16
def memSentinel : UInt16 := 0x1a19

/-- The header of a block, which lies right before its buffer. -/
structure MemBlock where
  /-- The guard sentinel. -/
  guard : UInt16
  /-- How often the block has been deployed. -/
  useCount : UInt16
  blockSize : ℕ
  deriving DecidableEq, Repr

namespace MemBlock

/-- The size of a header. -/
def sizeOf : ℕ := 16

def construct (blockSize : ℕ) : MemBlock where
  guard := 0
  useCount := 0
  blockSize := blockSize

/-- Determine if the block has a valid header. -/
def valid (b : MemBlock) : Bool := b.guard = memSentinel

def guardOn (b : MemBlock) : MemBlock := { b with guard := memSentinel }

def guardOff (b : MemBlock) : MemBlock := { b with guard := 0 }

/-- Increment the usage counter, which stops at its greatest value. -/
def useCountInc (b : MemBlock) : MemBlock :=
  { b with useCount := if b.useCount + 1 = 0 then b.useCount else b.useCount + 1 }

@[simp] theorem blockSize_guardOn (b : MemBlock) : b.guardOn.blockSize = b.blockSize := rfl

@[simp] theorem blockSize_guardOff (b : MemBlock) : b.guardOff.blockSize = b.blockSize := rfl

@[simp] theorem valid_guardOn (b : MemBlock) : b.guardOn.valid = true := rfl

theorem valid_eq_false_of_guard {b : MemBlock} (h : b.guard = 0) : b.valid = false := by
  rw [valid, h]
  rfl

end MemBlock

/-! ### The heap -/

/-- Where memory comes from.  An allocation succeeds, and its memory does not overlap with what is
in use. -/
structure Heap where
  /-- The address of new memory of a size, when some ranges of the memory are in use. -/
  new : List (ℕ × ℕ) → ℕ → ℕ
  fresh : ∀ (used : List (ℕ × ℕ)) (n : ℕ), ∀ r ∈ used,
    new used n + n ≤ r.1 ∨ r.1 + r.2 ≤ new used n

/-- A heap that goes on behind everything that is in use. -/
def bumpHeap : Heap where
  new used _ := used.foldr (fun r top => max (r.1 + r.2) top) 0
  fresh used n r hr := by
    refine Or.inr ?_
    induction used with
    | nil => cases hr
    | cons q used ih =>
        rw [List.foldr_cons]
        rcases List.mem_cons.1 hr with rfl | hr
        · exact Nat.le_max_left _ _
        · exact Nat.le_trans (ih hr) (Nat.le_max_right _ _)

/-- A heap that puts new memory where it is wanted, if there is room. -/
def Heap.placing (heap : Heap) (want : List (ℕ × ℕ) → ℕ → ℕ) : Heap where
  new used n :=
    if ∀ r ∈ used, want used n + n ≤ r.1 ∨ r.1 + r.2 ≤ want used n then want used n
    else heap.new used n
  fresh used n r hr := by
    split_ifs with hfree
    · exact hfree r hr
    · exact heap.fresh used n r hr

/-- The memory: the header at an address, the pointer at the start of the buffer of the block at an
address, and the ranges that are in use. -/
structure Memory where
  block : ℕ → MemBlock
  next : ℕ → Option ℕ
  used : List (ℕ × ℕ)

namespace Memory

/-- `new (CP_NEW) char[n]`. -/
def new (heap : Heap) (mem : Memory) (n : ℕ) : ℕ × Memory :=
  (heap.new mem.used n, { mem with used := (heap.new mem.used n, n) :: mem.used })

/-- `delete [] raw`. -/
def delete (mem : Memory) (raw : ℕ) : Memory :=
  { mem with used := mem.used.filter fun r => r.1 ≠ raw }

/-- Write the header of a block. -/
def blockSet (mem : Memory) (b : ℕ) (f : MemBlock → MemBlock) : Memory :=
  { mem with block := Function.update mem.block b (f (mem.block b)) }

/-- Put a pointer to the next block in the list; no code does so with a NULL pointer. -/
def nextSet (mem : Memory) (b : Option ℕ) (blk : Option ℕ) : Memory :=
  match b with
  | some b => { mem with next := Function.update mem.next b blk }
  | none => mem

/-- The address lies in a range that is in use. -/
def Inside (mem : Memory) (a : ℕ) : Prop :=
  ∃ r ∈ mem.used, r.1 ≤ a ∧ a < r.1 + r.2

/-- **New memory is not in use.** -/
theorem not_inside_new (heap : Heap) (mem : Memory) {n : ℕ} {a : ℕ}
    (hle : (mem.new heap n).1 ≤ a) (hlt : a < (mem.new heap n).1 + n) : ¬ mem.Inside a := by
  rintro ⟨r, hr, hra, har⟩
  rcases heap.fresh mem.used n r hr with hfresh | hfresh
  · exact absurd (Nat.lt_of_lt_of_le hlt (Nat.le_trans hfresh hra)) (Nat.lt_irrefl a)
  · exact absurd (Nat.lt_of_lt_of_le har (Nat.le_trans hfresh hle)) (Nat.lt_irrefl a)

end Memory

/-! ### Pools -/

/-- A pool of blocks of one size. -/
structure MemPool where
  /-- The address of the pool. -/
  this : ℕ
  /-- The size of the pooled memory blocks. -/
  blockSize : ℕ
  /-- Number of blocks a subsequently allocated segment must hold. -/
  increment : UInt32
  totalBlocks : UInt32
  /-- Number of unused blocks. -/
  inventory : UInt32
  /-- Highest number of blocks ever deployed. -/
  peakUsed : UInt32
  /-- List of allocated segments. -/
  segHead : List ℕ
  /-- First entry in block inventory. -/
  blkHead : Option ℕ
  /-- Last entry in block inventory. -/
  blkTail : Option ℕ

namespace MemPool

/-- The size of a pool object. -/
def sizeOf : ℕ := 56

/-- The size of the header of a segment. -/
def sizeOfSegment : ℕ := 8

/-- Return a block of memory to the pool.  The result is the pointer afterwards, too. -/
def memBlockPut (pool : MemPool) (mem : Memory) (b : Option ℕ) :
    Bool × Option ℕ × MemPool × Memory :=
  match b with
  -- check that block is a valid instance
  | none => (false, none, pool, mem)
  | some b =>
      -- check that block matches this pool's block size
      if (mem.block b).blockSize ≠ pool.blockSize then (false, some b, pool, mem)
      else
        let linked := if pool.blkHead = none then mem else mem.nextSet pool.blkTail (some b)
        (true, none,
          { pool with
            blkHead := if pool.blkHead = none then some b else pool.blkHead
            blkTail := some b
            inventory := pool.inventory + 1 },
          linked.nextSet (some b) none)

/-- The loop of `AllocateSegment`: carve up memory into blocks. -/
def carve : ℕ → ℕ → MemPool → Memory → Bool × MemPool × Memory
  | 0, _, pool, mem => (true, pool, mem)
  | blocks + 1, raw, pool, mem =>
      let mem := mem.blockSet raw fun _ => MemBlock.construct pool.blockSize
      match pool.memBlockPut mem (some raw) with
      | (true, _, pool, mem) =>
          carve blocks (raw + (MemBlock.sizeOf + pool.blockSize))
            { pool with totalBlocks := pool.totalBlocks + 1 } mem
      | (false, _, pool, mem) => (false, pool, mem)

/-- The size of a segment that holds specified number of blocks. -/
def segSize (pool : MemPool) (blocks : UInt32) : ℕ :=
  (blocks.toNat * (pool.blockSize + MemBlock.sizeOf) + sizeOfSegment) % 2 ^ 64

/-- Allocate a segment that holds specified number of blocks. -/
def allocateSegment (heap : Heap) (pool : MemPool) (mem : Memory) (blocks : UInt32) :
    Bool × MemPool × Memory :=
  if blocks = 0 then (false, pool, mem)
  else
    let (raw, mem) := mem.new heap (pool.segSize blocks)
    carve blocks.toNat (raw + sizeOfSegment) { pool with segHead := raw :: pool.segHead } mem

/-- A pool at an address, before its first segment. -/
def blank (this blockSize : ℕ) (increment : UInt32) : MemPool :=
  { this := this, blockSize := blockSize, increment := increment, totalBlocks := 0, inventory := 0,
    peakUsed := 0, segHead := [], blkHead := none, blkTail := none }

/-- The constructor, at an address. -/
def construct (heap : Heap) (mem : Memory) (this : ℕ) (blockSize : ℕ)
    (initCount increment : UInt32) : MemPool × Memory :=
  (allocateSegment heap (blank this blockSize increment) mem initCount).2

/-- Take the first block of the inventory. -/
def take (pool : MemPool) (mem : Memory) (b : ℕ) : MemPool × Memory :=
  let inventory := pool.inventory - 1
  let used := pool.totalBlocks - inventory
  ({ pool with
      blkHead := mem.next b
      -- make sure tail is cleared if last block is being removed
      blkTail := if mem.next b = none then none else pool.blkTail
      inventory := inventory
      peakUsed := if pool.peakUsed < used then used else pool.peakUsed },
    mem.blockSet b MemBlock.useCountInc)

/-- Get a block of memory from the pool. -/
def memBlockGet (heap : Heap) (pool : MemPool) (mem : Memory) : Option ℕ × MemPool × Memory :=
  -- check block inventory
  let (rv, pool, mem) :=
    if pool.blkHead = none then pool.allocateSegment heap mem pool.increment else (true, pool, mem)
  if rv then
    match pool.blkHead with
    | some b => (some b, pool.take mem b)
    | none => (none, pool, mem)
  else (none, pool, mem)

end MemPool

/-! ### What a pool gains -/

namespace Memory

@[simp] theorem blockSet_self (mem : Memory) (b : ℕ) (f : MemBlock → MemBlock) :
    (mem.blockSet b f).block b = f (mem.block b) := Function.update_self _ _ _

theorem blockSet_of_ne {mem : Memory} {a b : ℕ} (h : a ≠ b) (f : MemBlock → MemBlock) :
    (mem.blockSet b f).block a = mem.block a := Function.update_of_ne h _ _

@[simp] theorem next_blockSet (mem : Memory) (b : ℕ) (f : MemBlock → MemBlock) :
    (mem.blockSet b f).next = mem.next := rfl

@[simp] theorem used_blockSet (mem : Memory) (b : ℕ) (f : MemBlock → MemBlock) :
    (mem.blockSet b f).used = mem.used := rfl

@[simp] theorem block_nextSet (mem : Memory) (b blk : Option ℕ) :
    (mem.nextSet b blk).block = mem.block := by
  cases b <;> rfl

@[simp] theorem used_nextSet (mem : Memory) (b blk : Option ℕ) :
    (mem.nextSet b blk).used = mem.used := by
  cases b <;> rfl

end Memory

namespace MemPool

/-- The pool `p'` is `p` with the blocks `new` at the end of its inventory `l`; no block that was
there before has changed its header, and no other block its link. -/
structure Grown (p : MemPool) (mem : Memory) (l new : List ℕ) (p' : MemPool) (mem' : Memory) :
    Prop where
  this_eq : p'.this = p.this
  blockSize_eq : p'.blockSize = p.blockSize
  increment_eq : p'.increment = p.increment
  queue : Queue mem'.next p'.blkHead p'.blkTail (l ++ new)
  block_new : ∀ a ∈ new, (mem'.block a).blockSize = p.blockSize ∧ (mem'.block a).guard = 0
  block_eq : ∀ a ∉ new, mem'.block a = mem.block a
  next_eq : ∀ a ∉ l, a ∉ new → mem'.next a = mem.next a
  used_subset : mem.used ⊆ mem'.used
  inside_new : ∀ a ∈ new, mem'.Inside a

variable {p p' p'' : MemPool} {mem mem' mem'' : Memory} {l new new' : List ℕ}

theorem Grown.refl (h : Queue mem.next p.blkHead p.blkTail l) : Grown p mem l [] p mem where
  this_eq := rfl
  blockSize_eq := rfl
  increment_eq := rfl
  queue := (List.append_nil l).symm ▸ h
  block_new _ ha := nomatch ha
  block_eq _ _ := rfl
  next_eq _ _ _ := rfl
  used_subset := List.Subset.refl _
  inside_new _ ha := nomatch ha

theorem Grown.trans (h : Grown p mem l new p' mem') (h' : Grown p' mem' (l ++ new) new' p'' mem'') :
    Grown p mem l (new ++ new') p'' mem'' := by
  have hqueue : Queue mem''.next p''.blkHead p''.blkTail (l ++ (new ++ new')) := by
    rw [← List.append_assoc]
    exact h'.queue
  have hdisj : ∀ a ∈ new, a ∉ new' := by
    intro a ha ha'
    have hnodup := (List.nodup_append.1 hqueue.nodup).2.1
    exact (List.nodup_append.1 hnodup).2.2 a ha a ha' rfl
  refine ⟨h'.this_eq.trans h.this_eq, h'.blockSize_eq.trans h.blockSize_eq,
    h'.increment_eq.trans h.increment_eq, hqueue, ?_, ?_, ?_,
    List.Subset.trans h.used_subset h'.used_subset, ?_⟩
  · intro a ha
    rcases List.mem_append.1 ha with ha | ha
    · rw [h'.block_eq a (hdisj a ha)]
      exact h.block_new a ha
    · rw [← h.blockSize_eq]
      exact h'.block_new a ha
  · intro a ha
    obtain ⟨hnew, hnew'⟩ := not_or.1 (mt List.mem_append.2 ha)
    rw [h'.block_eq a hnew', h.block_eq a hnew]
  · intro a hl ha
    obtain ⟨hnew, hnew'⟩ := not_or.1 (mt List.mem_append.2 ha)
    have hmem : a ∉ l ++ new := fun hmem => (List.mem_append.1 hmem).elim hl hnew
    rw [h'.next_eq a hmem hnew', h.next_eq a hl hnew]
  · intro a ha
    rcases List.mem_append.1 ha with ha | ha
    · obtain ⟨r, hr, hin⟩ := h.inside_new a ha
      exact ⟨r, h'.used_subset hr, hin⟩
    · exact h'.inside_new a ha

/-- **What `MemBlockPut` does** with a block of the size of the pool: its link and that of the last block
are written, also when the inventory is empty. -/
theorem memBlockPut_eq (h : Queue mem.next p.blkHead p.blkTail l) {b : ℕ}
    (hsize : (mem.block b).blockSize = p.blockSize) :
    p.memBlockPut mem (some b) =
      (true, none,
        { p with
          blkHead := if p.blkHead = none then some b else p.blkHead
          blkTail := some b
          inventory := p.inventory + 1 },
        { mem with next := relink mem.next p.blkTail b }) := by
  have hlinked : (if p.blkHead = none then mem else mem.nextSet p.blkTail (some b)).nextSet (some b)
      none = { mem with next := relink mem.next p.blkTail b } := by
    split_ifs with hhead
    · have htail : p.blkTail = none := by
        rw [hhead] at h
        rw [← h.getLast?_eq, h.eq_nil]
        rfl
      rw [htail]
      rfl
    · cases p.blkTail <;> rfl
  rw [memBlockPut, if_neg (by simp [hsize])]
  simp only [hlinked]

/-- **A block that is returned** goes to the end of the inventory. -/
theorem memBlockPut_grown (h : Queue mem.next p.blkHead p.blkTail l) {b : ℕ} (hb : b ∉ l)
    {f : MemBlock → MemBlock} (hsize : (f (mem.block b)).blockSize = p.blockSize)
    (hguard : (f (mem.block b)).guard = 0) (hin : mem.Inside b) :
    ∃ p' mem', p.memBlockPut (mem.blockSet b f) (some b) = (true, none, p', mem') ∧
      Grown p mem l [b] p' mem' := by
  have hsize' : ((mem.blockSet b f).block b).blockSize = p.blockSize := by
    rw [Memory.blockSet_self, hsize]
  have hqueue : Queue (mem.blockSet b f).next p.blkHead p.blkTail l := h
  refine ⟨_, _, memBlockPut_eq hqueue hsize', rfl, rfl, rfl, h.push hb, ?_, ?_, ?_,
    List.Subset.refl _, ?_⟩
  · intro a ha
    obtain rfl := List.mem_singleton.1 ha
    exact ⟨hsize', (congrArg MemBlock.guard (Memory.blockSet_self mem a f)).trans hguard⟩
  · intro a ha
    exact Memory.blockSet_of_ne (mt List.mem_singleton.2 ha) f
  · intro a hl ha
    exact h.relink_eq_of_notMem hl (mt List.mem_singleton.2 ha)
  · intro a ha
    obtain rfl := List.mem_singleton.1 ha
    exact hin

/-- The blocks that are carved out of memory. -/
def carved (step : ℕ) : ℕ → ℕ → List ℕ
  | 0, _ => []
  | blocks + 1, raw => raw :: carved step blocks (raw + step)

/-- The blocks lie one behind the other. -/
theorem le_of_mem_carved {step blocks raw a : ℕ} (h : a ∈ carved step blocks raw) :
    raw ≤ a ∧ a + step ≤ raw + blocks * step := by
  induction blocks generalizing raw with
  | zero => cases h
  | succ blocks ih =>
      rw [Nat.succ_mul]
      rcases List.mem_cons.1 h with rfl | h
      · omega
      · obtain ⟨hle, hge⟩ := ih h
        omega

/-- Inventory and total are not what a pool is made of. -/
theorem Grown.totalBlocks (h : Grown p mem l new p' mem') (n : UInt32) :
    Grown p mem l new { p' with totalBlocks := n } mem' :=
  ⟨h.this_eq, h.blockSize_eq, h.increment_eq, h.queue, h.block_new, h.block_eq, h.next_eq,
    h.used_subset, h.inside_new⟩

/-- From one block of a segment to the next one. -/
def stride (pool : MemPool) : ℕ := MemBlock.sizeOf + pool.blockSize

theorem stride_pos (p : MemPool) : 0 < p.stride := Nat.add_pos_left (by decide) _

/-- A segment of so many blocks has room for them. -/
def SegmentFits (blockSize : ℕ) (blocks : UInt32) : Prop :=
  blocks.toNat * (blockSize + MemBlock.sizeOf) + sizeOfSegment < 2 ^ 64

instance decidableSegmentFits (blockSize : ℕ) (blocks : UInt32) :
    Decidable (SegmentFits blockSize blocks) := inferInstanceAs (Decidable (_ < _))

theorem segmentFits_zero (blockSize : ℕ) : SegmentFits blockSize 0 := by
  simp [SegmentFits, sizeOfSegment]

/-- The pool gains blocks when it allocates another segment. -/
def CanGrow (pool : MemPool) : Prop :=
  pool.increment ≠ 0 ∧ SegmentFits pool.blockSize pool.increment

theorem CanGrow.of_eq (h : p.CanGrow) (hsize : p'.blockSize = p.blockSize)
    (hinc : p'.increment = p.increment) : p'.CanGrow := by
  rw [CanGrow, hsize, hinc]
  exact h

theorem segSize_eq {blocks : UInt32} (h : SegmentFits p.blockSize blocks) :
    p.segSize blocks = blocks.toNat * p.stride + sizeOfSegment := by
  rw [segSize, Nat.mod_eq_of_lt h, stride, Nat.add_comm p.blockSize]

/-- **Every block that is carved out of a segment** is new in the inventory. -/
theorem carve_grown {step blocks raw : ℕ} (hstep : step = MemBlock.sizeOf + p.blockSize)
    (h : Queue mem.next p.blkHead p.blkTail l)
    (hl : ∀ a : ℕ, a ∈ l → ¬ (raw ≤ a ∧ a < raw + blocks * step))
    (hin : ∀ a : ℕ, raw ≤ a → a < raw + blocks * step → mem.Inside a) :
    ∃ p' mem', carve blocks raw p mem = (true, p', mem') ∧
      Grown p mem l (carved step blocks raw) p' mem' := by
  have hpos : 0 < step := hstep ▸ Nat.add_pos_left (by decide) _
  induction blocks generalizing raw p mem l with
  | zero => exact ⟨p, mem, rfl, .refl h⟩
  | succ blocks ih =>
      rw [Nat.succ_mul] at hl hin
      have hlt : raw < raw + (blocks * step + step) := by omega
      have hraw : raw ∉ l := fun hmem => hl raw hmem ⟨Nat.le_refl raw, hlt⟩
      obtain ⟨p₁, mem₁, hput, hgrown⟩ := memBlockPut_grown h hraw
        (f := fun _ => MemBlock.construct p.blockSize) rfl rfl (hin raw (Nat.le_refl raw) hlt)
      have hstep₁ : step = MemBlock.sizeOf + p₁.blockSize := by rw [hgrown.blockSize_eq, hstep]
      -- the next blocks lie behind this one
      have hl₁ : ∀ a : ℕ, a ∈ l ++ [raw] → ¬ (raw + step ≤ a ∧ a < raw + step + blocks * step) := by
        rintro a ha ⟨hle, hge⟩
        rcases List.mem_append.1 ha with ha | ha
        · exact hl a ha ⟨by omega, by omega⟩
        · rw [List.mem_singleton.1 ha] at hle
          omega
      have hin₁ : ∀ a : ℕ, raw + step ≤ a → a < raw + step + blocks * step → mem₁.Inside a := by
        intro a hle hge
        obtain ⟨r, hr, hra⟩ := hin a (by omega) (by omega)
        exact ⟨r, hgrown.used_subset hr, hra⟩
      obtain ⟨p₂, mem₂, hcarve, hgrown₂⟩ :=
        ih (p := { p₁ with totalBlocks := p₁.totalBlocks + 1 }) hstep₁ hgrown.queue hl₁ hin₁
      refine ⟨p₂, mem₂, ?_, (hgrown.totalBlocks _).trans hgrown₂⟩
      rw [carve]
      simp only [hput]
      rw [← hstep₁]
      exact hcarve

/-- A block that is returned stays allocated. -/
theorem used_memBlockPut (p : MemPool) (mem : Memory) (b : Option ℕ) :
    (p.memBlockPut mem b).2.2.2.used = mem.used := by
  cases b with
  | none => rfl
  | some b =>
      rw [memBlockPut]
      split_ifs <;> simp

/-- **The frame rule for carving**: what neither a new header, nor a block that is returned, nor a new total
changes, carving does not change. -/
theorem carve_frame {γ : Type*} (f : MemPool → Memory → γ)
    (hput : ∀ p mem b, f (p.memBlockPut mem (some b)).2.2.1 (p.memBlockPut mem (some b)).2.2.2 = f p mem)
    (hblock : ∀ p mem b g, f p (mem.blockSet b g) = f p mem)
    (htotal : ∀ p mem n, f { p with totalBlocks := n } mem = f p mem) (blocks raw : ℕ) (p : MemPool)
    (mem : Memory) : f (carve blocks raw p mem).2.1 (carve blocks raw p mem).2.2 = f p mem := by
  induction blocks generalizing raw p mem with
  | zero => rfl
  | succ blocks ih =>
      have h := hput p (mem.blockSet raw fun _ => MemBlock.construct p.blockSize) raw
      rw [hblock] at h
      rw [carve]
      rcases hrun : p.memBlockPut (mem.blockSet raw fun _ => MemBlock.construct p.blockSize)
        (some raw) with ⟨_ | _, _, p₁, mem₁⟩
      · rwa [hrun] at h
      · rw [hrun] at h
        exact (ih _ _ _).trans ((htotal _ _ _).trans h)

/-- Carving allocates no memory. -/
theorem used_carve (blocks raw : ℕ) (p : MemPool) (mem : Memory) :
    (carve blocks raw p mem).2.2.used = mem.used :=
  carve_frame (fun _ mem => mem.used) (fun p mem b => used_memBlockPut p mem (some b))
    (fun _ _ _ _ => rfl) (fun _ _ _ => rfl) blocks raw p mem

/-- A block that is returned is counted in the inventory. -/
theorem counts_memBlockPut {p p' : MemPool} {mem mem' : Memory} {b o : Option ℕ}
    (h : p.memBlockPut mem b = (true, o, p', mem')) :
    p'.inventory = p.inventory + 1 ∧ p'.totalBlocks = p.totalBlocks := by
  cases b with
  | none => exact absurd (Prod.mk.inj h).1 Bool.false_ne_true
  | some b =>
      rw [memBlockPut] at h
      split_ifs at h
      · exact absurd (Prod.mk.inj h).1 Bool.false_ne_true
      all_goals
        obtain rfl := (Prod.mk.inj (Prod.mk.inj (Prod.mk.inj h).2).2).1
        exact ⟨rfl, rfl⟩

/-- **Every block that is carved is counted**, in the inventory and in the total. -/
theorem counts_carve {blocks raw : ℕ} {p p' : MemPool} {mem mem' : Memory}
    (h : carve blocks raw p mem = (true, p', mem')) :
    p'.inventory = p.inventory + UInt32.ofNat blocks ∧
      p'.totalBlocks = p.totalBlocks + UInt32.ofNat blocks := by
  induction blocks generalizing raw p mem with
  | zero =>
      obtain rfl := (Prod.mk.inj (Prod.mk.inj h).2).1
      exact ⟨(UInt32.add_zero _).symm, (UInt32.add_zero _).symm⟩
  | succ blocks ih =>
      rw [carve] at h
      rcases hput : p.memBlockPut (mem.blockSet raw fun _ => MemBlock.construct p.blockSize)
        (some raw) with ⟨_ | _, o, p₁, mem₁⟩
      · rw [hput] at h
        exact absurd (Prod.mk.inj h).1 Bool.false_ne_true
      rw [hput] at h
      obtain ⟨hinv₁, htotal₁⟩ := counts_memBlockPut hput
      obtain ⟨hinv, htotal⟩ := ih h
      simp only [hinv₁, htotal₁] at hinv htotal
      have hone : ∀ a : UInt32, a + 1 + UInt32.ofNat blocks = a + UInt32.ofNat (blocks + 1) := by
        intro a
        rw [UInt32.ofNat_add, UInt32.add_assoc, UInt32.add_comm 1]
        rfl
      exact ⟨hinv.trans (hone _), htotal.trans (hone _)⟩

theorem length_carved (step blocks raw : ℕ) : (carved step blocks raw).length = blocks := by
  induction blocks generalizing raw with
  | zero => rfl
  | succ blocks ih => rw [carved, List.length_cons, ih]

/-- Memory that has been allocated since lies at places that were not in use. -/
def NewRanges (mem mem' : Memory) : Prop := ∀ r ∈ mem'.used, r ∈ mem.used ∨ ¬ mem.Inside r.1

/-- **A segment** adds as many blocks as are asked for, which are not in use yet. -/
theorem allocateSegment_carved (heap : Heap) (h : Queue mem.next p.blkHead p.blkTail l)
    (hl : ∀ a ∈ l, mem.Inside a) {blocks : UInt32} (hfit : SegmentFits p.blockSize blocks) :
    ∃ new, Grown p mem l new (p.allocateSegment heap mem blocks).2.1
        (p.allocateSegment heap mem blocks).2.2 ∧
      (∀ a ∈ new, ¬ mem.Inside a) ∧
      (blocks ≠ 0 → (p.allocateSegment heap mem blocks).1 = true) ∧
      new.length = blocks.toNat ∧
      (p.allocateSegment heap mem blocks).2.1.inventory = p.inventory + blocks ∧
      (p.allocateSegment heap mem blocks).2.1.totalBlocks = p.totalBlocks + blocks ∧
      NewRanges mem (p.allocateSegment heap mem blocks).2.2 := by
  by_cases hzero : blocks = 0
  · subst hzero
    refine ⟨[], ?_, by simp, fun hne => absurd rfl hne, rfl, (UInt32.add_zero _).symm,
      (UInt32.add_zero _).symm, fun r hr => .inl hr⟩
    exact .refl h
  have hsize := segSize_eq hfit
  have hpos := p.stride_pos
  set step := p.stride with hstep
  set n := p.segSize blocks with hn
  set raw := (mem.new heap n).1 with hraw
  set mem₁ := (mem.new heap n).2 with hmem₁
  have hmem : (raw, n) ∈ mem₁.used := List.mem_cons_self
  have hfresh : ∀ a, raw ≤ a → a < raw + n → ¬ mem.Inside a := fun a hle hlt =>
    Memory.not_inside_new heap mem hle hlt
  have hin : ∀ a, raw + sizeOfSegment ≤ a → a < raw + sizeOfSegment + blocks.toNat * step →
      mem₁.Inside a := by
    intro a hle hlt
    refine ⟨(raw, n), hmem, ?_⟩
    simp only
    omega
  have hnot : ∀ a ∈ l, ¬ (raw + sizeOfSegment ≤ a ∧ a < raw + sizeOfSegment + blocks.toNat * step) :=
    fun a ha hin => hfresh a (by omega) (by omega) (hl a ha)
  obtain ⟨p', mem', hcarve, hgrown⟩ :=
    @carve_grown { p with segHead := raw :: p.segHead } mem₁ l step blocks.toNat _ hstep h hnot hin
  have halloc : p.allocateSegment heap mem blocks = (true, p', mem') := by
    rw [allocateSegment, if_neg hzero]
    exact hcarve
  have hcarved : ∀ a ∈ carved step blocks.toNat (raw + sizeOfSegment), ¬ mem.Inside a := by
    intro a ha
    obtain ⟨hle, hge⟩ := le_of_mem_carved ha
    exact hfresh a (by omega) (by omega)
  have hused : mem'.used = mem₁.used := by
    have h := used_carve blocks.toNat (raw + sizeOfSegment)
      { p with segHead := raw :: p.segHead } mem₁
    rwa [hcarve] at h
  obtain ⟨hinv, htotal⟩ := counts_carve hcarve
  rw [UInt32.ofNat_toNat] at hinv htotal
  rw [halloc]
  refine ⟨_, ⟨hgrown.this_eq, hgrown.blockSize_eq, hgrown.increment_eq, hgrown.queue,
    hgrown.block_new, hgrown.block_eq, hgrown.next_eq, ?_, hgrown.inside_new⟩, hcarved,
    fun _ => rfl, length_carved _ _ _, hinv, htotal, ?_⟩
  · exact List.Subset.trans (List.subset_cons_self _ _) hgrown.used_subset
  · intro r hr
    rw [hused] at hr
    rcases List.mem_cons.1 hr with rfl | hr
    · refine .inr (hfresh raw (Nat.le_refl raw) (Nat.lt_add_of_pos_right ?_))
      rw [hsize]
      exact Nat.add_pos_right _ (by decide)
    · exact .inl hr

/-- **What a pool hands out**: the first block of its inventory, after that has grown by a segment if
it was empty. -/
theorem memBlockGet_counted (heap : Heap) (h : Queue mem.next p.blkHead p.blkTail l)
    (hl : ∀ a ∈ l, mem.Inside a) (hgrow : p.blkHead = none → p.CanGrow) :
    ∃ b p' mem' new, p.memBlockGet heap mem = (some b, p'.take mem' b) ∧
      p'.blkHead = some b ∧ Grown p mem l new p' mem' ∧ (∀ a ∈ new, ¬ mem.Inside a) ∧
      new.length = (if p.blkHead = none then p.increment.toNat else 0) ∧
      p'.inventory = p.inventory + UInt32.ofNat new.length ∧
      p'.totalBlocks = p.totalBlocks + UInt32.ofNat new.length ∧ NewRanges mem mem' := by
  by_cases hhead : p.blkHead = none
  · obtain ⟨new, hgrown, hnew, htrue, hlen, hinv, htotal, hranges⟩ :=
      allocateSegment_carved heap h hl (hgrow hhead).2
    have hne : new ≠ [] := by
      rintro rfl
      exact (hgrow hhead).1 (UInt32.toNat_inj.1 hlen.symm)
    obtain ⟨b, l', hcons⟩ := List.exists_cons_of_ne_nil (List.append_ne_nil_of_right_ne_nil l hne)
    have hb := hgrown.queue.visits.head?_eq
    rw [hcons, List.head?_cons] at hb
    refine ⟨b, _, _, new, ?_, hb.symm, hgrown, hnew, ?_, ?_, ?_, hranges⟩
    · rw [memBlockGet, if_pos hhead]
      simp only [htrue (hgrow hhead).1, if_true, ← hb]
    · rw [if_pos hhead, hlen]
    · rw [hlen, UInt32.ofNat_toNat, hinv]
    · rw [hlen, UInt32.ofNat_toNat, htotal]
  · obtain ⟨b, hb⟩ := Option.ne_none_iff_exists'.1 hhead
    refine ⟨b, p, mem, [], ?_, hb, .refl h, by simp, (if_neg hhead).symm, (UInt32.add_zero _).symm,
      (UInt32.add_zero _).symm, fun r hr => .inl hr⟩
    rw [memBlockGet, if_neg hhead]
    simp only [if_true, hb]

end MemPool

/-! ### The manager -/

/-- The memory manager. -/
structure MemManager where
  deployedCount : UInt32
  returnedCount : UInt32
  failedGets : UInt32
  failedPuts : UInt32
  deployedSize : UInt32
  pools : List MemPool

namespace MemManager

/-- Return a pool of sufficient block size. -/
def poolGet (mgr : MemManager) (blockSize : ℕ) : Option MemPool :=
  mgr.pools.find? fun pool => blockSize ≤ pool.blockSize

/-- Write the pool that lies at the address of `pool`. -/
def poolSet (mgr : MemManager) (pool : MemPool) : MemManager :=
  { mgr with pools := mgr.pools.map fun p => if p.this = pool.this then pool else p }

/-- The size of the memory for a custom size block. -/
def customSize (size : ℕ) : ℕ := (size + MemBlock.sizeOf) % 2 ^ 64

/-- The memory for a custom size block has room for its buffer. -/
def BlockFits (size : ℕ) : Prop := size + MemBlock.sizeOf < 2 ^ 64

instance decidableBlockFits (size : ℕ) : Decidable (BlockFits size) :=
  inferInstanceAs (Decidable (_ < _))

/-- Get a block of memory. -/
def memBlockGet (heap : Heap) (mgr : MemManager) (mem : Memory) (size : ℕ) :
    Option ℕ × MemManager × Memory :=
  let (b, mgr, mem) :=
    -- find an appropriate pool
    match mgr.poolGet size with
    | some pool =>
        let r := pool.memBlockGet heap mem
        (r.1, mgr.poolSet r.2.1, r.2.2)
    | none =>
        -- no appropriate pool, so allocate custom size block
        let (raw, mem) := mem.new heap (customSize size)
        (some raw, mgr, mem.blockSet raw fun _ => MemBlock.construct size)
  match b with
  | some b =>
      (some b,
        { mgr with
          deployedCount := mgr.deployedCount + 1
          deployedSize := mgr.deployedSize + UInt32.ofNat (mem.block b).blockSize },
        -- mark for consistency and protection against multiple returns
        mem.blockSet b MemBlock.guardOn)
  | none => (none, { mgr with failedGets := mgr.failedGets + 1 }, mem)

/-- Return a block.  The result is the pointer afterwards, too. -/
def memBlockPut (mgr : MemManager) (mem : Memory) (b : Option ℕ) :
    Bool × Option ℕ × MemManager × Memory :=
  match b with
  | none => (true, none, mgr, mem)
  | some b =>
      let size := (mem.block b).blockSize
      -- check for integrity and prevent multiple puts
      if (mem.block b).valid = false then (false, some b, mgr, mem)
      else
        -- remove integrity guard to prevent multiple return
        let mem := mem.blockSet b MemBlock.guardOff
        let (rv, b, mgr, mem) :=
          match mgr.poolGet size with
          | some pool =>
              let r := pool.memBlockPut mem (some b)
              (r.1, r.2.1, mgr.poolSet r.2.2.1, r.2.2.2)
          | none => (true, none, mgr, mem.delete b)
        if rv then
          (true, b,
            { mgr with
              returnedCount := mgr.returnedCount + 1
              deployedSize := mgr.deployedSize - UInt32.ofNat size }, mem)
        else (false, b, { mgr with failedPuts := mgr.failedPuts + 1 }, mem)

/-- Return a block using its buffer pointer.  The result is the pointer afterwards, too. -/
def memBlockPutBuf (mgr : MemManager) (mem : Memory) (buf : Option ℕ) :
    Bool × Option ℕ × MemManager × Memory :=
  match buf with
  | none => (true, none, mgr, mem)
  | some buf =>
      -- check for underflow
      if buf < MemBlock.sizeOf then (false, some buf, mgr, mem)
      else
        let (rv, _, mgr, mem) := mgr.memBlockPut mem (some (buf - MemBlock.sizeOf))
        (rv, if rv then none else some buf, mgr, mem)

/-- The loop of `CreatePool`: the nearest smaller pool, unless a pool of this size already exists. -/
def nearestSmaller (blockSize : ℕ) : List MemPool → Option ℕ → Option (Option ℕ)
  | [], prevMatch => some prevMatch
  | p :: pools, prevMatch =>
      if p.blockSize = blockSize then none
      else nearestSmaller blockSize pools (if p.blockSize < blockSize then some p.this else prevMatch)

/-- Insert a pool after another one. -/
def insertAfter (prev : ℕ) (pool : MemPool) : List MemPool → List MemPool
  | [] => []
  | p :: pools => if p.this = prev then p :: pool :: pools else p :: insertAfter prev pool pools

/-- The least size of a block. -/
def poolSize (blockSize : ℕ) : ℕ := if blockSize < minMemBlockSize then minMemBlockSize else blockSize

/-- Create a new memory pool. -/
def createPool (heap : Heap) (mgr : MemManager) (mem : Memory) (blockSize : ℕ)
    (initial increment : UInt32) : Bool × MemManager × Memory :=
  -- enforce minimum block size
  let blockSize := poolSize blockSize
  match nearestSmaller blockSize mgr.pools none with
  | none => (false, mgr, mem)
  | some prevMatch =>
      let (raw, mem) := mem.new heap MemPool.sizeOf
      let (pool, mem) := MemPool.construct heap mem raw blockSize initial increment
      (true,
        { mgr with
          pools :=
            match prevMatch with
            | none => pool :: mgr.pools
            | some prev => insertAfter prev pool mgr.pools },
        mem)

/-- The pools of the private constructor: block size, initial count and increment. -/
def standardPools : List (ℕ × UInt32 × UInt32) :=
  [(16, 256, 256), (64, 128, 128), (256, 64, 64), (1024, 32, 32), (4096, 16, 16), (16384, 8, 8)]

/-- Create one pool after another. -/
def createPools (heap : Heap) (l : List (ℕ × UInt32 × UInt32)) (mgr : MemManager) (mem : Memory) :
    MemManager × Memory :=
  l.foldl (fun r p => (r.1.createPool heap r.2 p.1 p.2.1 p.2.2).2) (mgr, mem)

/-- A manager without pools. -/
def poolless : MemManager where
  deployedCount := 0
  returnedCount := 0
  failedGets := 0
  failedPuts := 0
  deployedSize := 0
  pools := []

/-- The private constructor. -/
def construct (heap : Heap) (mem : Memory) : MemManager × Memory :=
  createPools heap standardPools poolless mem

end MemManager

end CodePort
