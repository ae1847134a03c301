/-
The inventory of a pool.

The inventory is threaded through the buffers of the blocks, which belong to their holders while they are
deployed.  Nevertheless it is at any time the queue of the blocks that are not deployed, in the order in
which they came back, whatever the holders write and however often the heap fails.  The counters have 32
bits: they count the blocks as long as there are not more of them deployed, or free.

Main definitions:

* `CodePort.PoolWorld`, `CodePort.poolStep` — a pool, its memory and the holders of its blocks;
* `CodePort.PoolWorld.Exact` — the inventory and the counters are what they are meant to be;
* `CodePort.PoolWorld.Sound` — the invariant of every run;
* `CodePort.PoolWorld.Counts` — the condition on a call.

Main results:

* `CodePort.PoolWorld.Sound.step` — **one call keeps the invariant**;
* `CodePort.PoolWorld.Sound.link_apart` — a holder writes to no header and no link but its own;
* `CodePort.pool_exact_iff` — **the inventory and the counters are exact throughout a run** if and only if
  no call of it deploys or frees more blocks than are counted.
-/

import CodePort.MemMgrFail
import CodePort.MemMgrRun
import CodePort.StepSystem

set_option relaxedAutoImplicit false
set_option autoImplicit false

namespace CodePort

open LinkedQueue

/-! ### A pool and the holders of its blocks -/

namespace MemPool

/-- The size of a pointer. -/
def sizeOfPointer : ℕ := 8

/-- The blocks that `AllocateSegment` carves. -/
def segment (new : NothrowNew) (pool : MemPool) (blocks : UInt32) : List ℕ :=
  match new (pool.segSize blocks) with
  | none => []
  | some raw => carved pool.stride blocks.toNat (raw + sizeOfSegment)

end MemPool

/-- The arguments of the constructor: there is an increment, and a block has room for a pointer. -/
structure PoolArgs where
  blockSize : ℕ
  initCount : UInt32
  increment : UInt32
  pointer_le : MemPool.sizeOfPointer ≤ blockSize
  increment_ne : increment ≠ 0

/-- A pool and its memory, with what has happened to its blocks. -/
structure PoolWorld where
  pool : MemPool
  mem : Memory
  /-- The blocks of the pool. -/
  blocks : List ℕ
  /-- The blocks that somebody holds. -/
  deployed : List ℕ
  /-- The largest number of blocks ever deployed. -/
  mostDeployed : ℕ
  /-- The blocks in the order in which they came into the inventory: carved, or put back. -/
  entered : List ℕ
  /-- The blocks in the order in which they were handed out. -/
  handedOut : List ℕ

/-- A call, or what a holder does to a block. -/
inductive PoolOp
  | memBlockGet (heap : NothrowHeap)
  | memBlockPut (b : ℕ)
  /-- The holder of a block writes to the start of its buffer. -/
  | write (b : ℕ) (ptr : Option ℕ)

/-- What a call answers. -/
inductive PoolAnswer
  | got (b : Option ℕ)
  | put (rv : Bool)
  | written
  deriving DecidableEq

namespace PoolWorld

/-- The world after the constructor. -/
def initial (args : PoolArgs) (heap : NothrowHeap) (mem : Memory) (this : ℕ) : PoolWorld :=
  let new := heap.new mem.used
  let r := MemPool.constructOr new mem this args.blockSize args.initCount args.increment
  let blocks := (MemPool.blank this args.blockSize args.increment).segment new args.initCount
  { pool := r.1, mem := r.2, blocks := blocks, deployed := [], mostDeployed := 0, entered := blocks,
    handedOut := [] }

/-- The blocks that are carved when a block is requested. -/
def gained (w : PoolWorld) (heap : NothrowHeap) : List ℕ :=
  if w.pool.blkHead = none then w.pool.segment (heap.new w.mem.used) w.pool.increment else []

/-- The pool has some more blocks. -/
def grow (w : PoolWorld) (pool : MemPool) (mem : Memory) (new : List ℕ) : PoolWorld :=
  { w with pool := pool, mem := mem, blocks := w.blocks ++ new, entered := w.entered ++ new }

/-- A block is handed out. -/
def deploy (w : PoolWorld) (b : ℕ) : PoolWorld :=
  { w with
    deployed := b :: w.deployed
    mostDeployed := max w.mostDeployed (w.deployed.length + 1)
    handedOut := w.handedOut ++ [b] }

end PoolWorld

/-- One call.  A block that is put back or written to is deployed. -/
def poolStep (w : PoolWorld) : PoolOp → Option (PoolAnswer × PoolWorld)
  | .memBlockGet heap =>
      let r := w.pool.memBlockGetOr (heap.new w.mem.used) w.mem none
      let grown := w.grow r.2.2.1 r.2.2.2 (w.gained heap)
      some (.got r.2.1, match r.2.1 with
        | some b => grown.deploy b
        | none => grown)
  | .memBlockPut b =>
      if b ∈ w.deployed then
        let r := w.pool.memBlockPut w.mem (some b)
        let returned : PoolWorld := { w with pool := r.2.2.1, mem := r.2.2.2 }
        some (.put r.1,
          if r.1 then { returned with deployed := w.deployed.erase b, entered := w.entered ++ [b] }
          else returned)
      else none
  | .write b ptr =>
      if b ∈ w.deployed then some (.written, { w with mem := w.mem.nextSet (some b) ptr }) else none

namespace PoolWorld

/-- **The inventory and the counters are exact.**  The links lead from the first entry to the last one,
without meeting a block twice (both are NULL if there is none), and the blocks that they visit are the
blocks of the pool that are not deployed; those came in behind everything that has been handed out. -/
structure Exact (w : PoolWorld) : Prop where
  inventory : ∃ l, Queue w.mem.next w.pool.blkHead w.pool.blkTail l ∧
    (∀ b, b ∈ l ↔ b ∈ w.blocks ∧ b ∉ w.deployed) ∧ w.pool.inventory.toNat = l.length ∧
    w.entered = w.handedOut ++ l
  deployed_eq : (w.pool.totalBlocks - w.pool.inventory).toNat = w.deployed.length
  peakUsed_eq : w.pool.peakUsed.toNat = w.mostDeployed

end PoolWorld

/-! ### Segments -/

namespace MemPool

variable {p p' : MemPool} {mem mem' : Memory} {l : List ℕ}

theorem peakUsed_memBlockPut (p : MemPool) (mem : Memory) (b : Option ℕ) :
    (p.memBlockPut mem b).2.2.1.peakUsed = p.peakUsed := by
  cases b with
  | none => rfl
  | some b =>
      rw [memBlockPut]
      split_ifs <;> rfl

/-- Carving hands out nothing. -/
theorem peakUsed_carve (blocks raw : ℕ) (p : MemPool) (mem : Memory) :
    (carve blocks raw p mem).2.1.peakUsed = p.peakUsed :=
  carve_frame (fun p _ => p.peakUsed) (fun p mem b => peakUsed_memBlockPut p mem (some b))
    (fun _ _ _ _ => rfl) (fun _ _ _ => rfl) blocks raw p mem

/-- The blocks of a segment do not overlap. -/
theorem pairwise_carved (step blocks raw : ℕ) :
    (carved step blocks raw).Pairwise fun a b => a + step ≤ b ∨ b + step ≤ a := by
  induction blocks generalizing raw with
  | zero => exact .nil
  | succ blocks ih => exact .cons (fun a ha => .inl (le_of_mem_carved ha).1) (ih _)

/-- What a segment at `raw` brings. -/
structure Segmented (p : MemPool) (mem : Memory) (l : List ℕ) (blocks : UInt32) (raw : ℕ)
    (p' : MemPool) (mem' : Memory) : Prop where
  grown : Grown p mem l (carved p.stride blocks.toNat (raw + sizeOfSegment)) p' mem'
  inventory_eq : p'.inventory = p.inventory + blocks
  totalBlocks_eq : p'.totalBlocks = p.totalBlocks + blocks
  peakUsed_eq : p'.peakUsed = p.peakUsed
  used_eq : mem'.used = (raw, p.segSize blocks) :: mem.used
  fresh : ∀ r ∈ mem.used, raw + p.segSize blocks ≤ r.1 ∨ r.1 + r.2 ≤ raw

/-- **A segment that there is memory for.** -/
theorem allocateSegmentOr_segmented {heap : NothrowHeap} {blocks : UInt32} {raw : ℕ}
    (h : Queue mem.next p.blkHead p.blkTail l) (hl : ∀ a ∈ l, mem.Inside a) (hne : blocks ≠ 0)
    (hfit : SegmentFits p.blockSize blocks)
    (hnew : heap.new mem.used (p.segSize blocks) = some raw) :
    ∃ p' mem', p.allocateSegmentOr (heap.new mem.used) mem blocks = (true, p', mem') ∧
      Segmented p mem l blocks raw p' mem' := by
  have hfresh := heap.fresh mem.used _ raw hnew
  set mem₁ : Memory := { mem with used := (raw, p.segSize blocks) :: mem.used } with hmem₁
  have hsize := segSize_eq hfit
  have hin : ∀ a : ℕ, raw + sizeOfSegment ≤ a → a < raw + sizeOfSegment + blocks.toNat * p.stride →
      mem₁.Inside a := by
    intro a hle hlt
    refine ⟨(raw, p.segSize blocks), List.mem_cons_self, ?_⟩
    simp only
    omega
  have hnot : ∀ a ∈ l,
      ¬ (raw + sizeOfSegment ≤ a ∧ a < raw + sizeOfSegment + blocks.toNat * p.stride) := by
    rintro a ha ⟨hle, hlt⟩
    obtain ⟨r, hr, hra, har⟩ := hl a ha
    rcases hfresh r hr with hout | hout <;> omega
  obtain ⟨p', mem', hcarve, hgrown⟩ :=
    @carve_grown { p with segHead := raw :: p.segHead } mem₁ l p.stride blocks.toNat _ rfl h hnot hin
  have hused := used_carve blocks.toNat (raw + sizeOfSegment)
    { p with segHead := raw :: p.segHead } mem₁
  have hpeak := peakUsed_carve blocks.toNat (raw + sizeOfSegment)
    { p with segHead := raw :: p.segHead } mem₁
  rw [hcarve] at hused hpeak
  obtain ⟨hinv, htotal⟩ := counts_carve hcarve
  rw [UInt32.ofNat_toNat] at hinv htotal
  refine ⟨p', mem', ?_, ⟨hgrown.this_eq, hgrown.blockSize_eq, hgrown.increment_eq, hgrown.queue,
    hgrown.block_new, hgrown.block_eq, hgrown.next_eq, ?_, hgrown.inside_new⟩, hinv, htotal, hpeak,
    hused, hfresh⟩
  · rw [allocateSegmentOr, if_neg hne, hnew]
    exact hcarve
  · exact List.Subset.trans (List.subset_cons_self _ _) hgrown.used_subset

end MemPool

/-! ### The invariant -/

namespace PoolWorld

/-- The first block of the inventory is handed out. -/
def handOut (w : PoolWorld) (b : ℕ) : PoolWorld :=
  { w with pool := (w.pool.take w.mem b).1, mem := (w.pool.take w.mem b).2 }.deploy b

/-- A block goes to the end of the inventory. -/
def putBack (w : PoolWorld) (b : ℕ) : PoolWorld :=
  { w with
    pool := { w.pool with
      blkHead := if w.pool.blkHead = none then some b else w.pool.blkHead
      blkTail := some b
      inventory := w.pool.inventory + 1 }
    mem := { w.mem with next := relink w.mem.next w.pool.blkTail b }
    deployed := w.deployed.erase b
    entered := w.entered ++ [b] }

/-- **The invariant.**  `l` are the blocks that are not deployed. -/
structure Sound (w : PoolWorld) (l : List ℕ) : Prop where
  increment_ne : w.pool.increment ≠ 0
  fits : MemPool.SegmentFits w.pool.blockSize w.pool.increment
  pointer_le : MemPool.sizeOfPointer ≤ w.pool.blockSize
  queue : Queue w.mem.next w.pool.blkHead w.pool.blkTail l
  perm : w.blocks.Perm (l ++ w.deployed)
  /-- Blocks do not overlap. -/
  apart : w.blocks.Pairwise fun a b => a + w.pool.stride ≤ b ∨ b + w.pool.stride ≤ a
  blockSize_eq : ∀ b ∈ w.blocks, (w.mem.block b).blockSize = w.pool.blockSize
  /-- Every block lies in a range that is in use. -/
  room : ∀ b ∈ w.blocks, ∃ r ∈ w.mem.used, r.1 ≤ b ∧ b + w.pool.stride ≤ r.1 + r.2
  inventory_eq : w.pool.inventory = UInt32.ofNat l.length
  totalBlocks_eq : w.pool.totalBlocks = UInt32.ofNat w.blocks.length
  deployed_le : w.deployed.length ≤ w.mostDeployed
  peakUsed_eq : w.mostDeployed < 2 ^ 32 → w.pool.peakUsed.toNat = w.mostDeployed
  entered_eq : w.entered = w.handedOut ++ l

namespace Sound

variable {w w' : PoolWorld} {l : List ℕ}

theorem nodup (h : w.Sound l) : w.blocks.Nodup := by
  refine h.apart.imp fun hab heq => ?_
  have hpos := w.pool.stride_pos
  omega

theorem nodup_append (h : w.Sound l) : (l ++ w.deployed).Nodup := h.perm.nodup_iff.1 h.nodup

theorem length_eq (h : w.Sound l) : w.blocks.length = l.length + w.deployed.length := by
  rw [h.perm.length_eq, List.length_append]

theorem mem_iff (h : w.Sound l) (b : ℕ) : b ∈ l ↔ b ∈ w.blocks ∧ b ∉ w.deployed := by
  rw [h.perm.mem_iff, List.mem_append]
  constructor
  · intro hb
    exact ⟨.inl hb, fun hd => (List.nodup_append.1 h.nodup_append).2.2 b hb b hd rfl⟩
  · rintro ⟨hb | hb, hd⟩
    · exact hb
    · exact absurd hb hd

theorem mem_blocks_of_deployed (h : w.Sound l) {b : ℕ} (hb : b ∈ w.deployed) : b ∈ w.blocks :=
  h.perm.mem_iff.2 (List.mem_append_right l hb)

theorem notMem_of_deployed (h : w.Sound l) {b : ℕ} (hb : b ∈ w.deployed) : b ∉ l :=
  fun hl => ((h.mem_iff b).1 hl).2 hb

theorem inside (h : w.Sound l) {b : ℕ} (hb : b ∈ w.blocks) : w.mem.Inside b := by
  obtain ⟨r, hr, hle, hge⟩ := h.room b hb
  have hpos := w.pool.stride_pos
  exact ⟨r, hr, hle, by omega⟩

/-- **The link of a block lies in its own buffer**, so whoever writes to another block, or to its header,
does not change it. -/
theorem link_apart (h : w.Sound l) {a b : ℕ} (ha : a ∈ w.blocks) (hb : b ∈ w.blocks) (hab : a ≠ b)
    {i j : ℕ} (hi : i < MemPool.sizeOfPointer) (hj : j < MemBlock.sizeOf + w.pool.blockSize) :
    a + MemBlock.sizeOf + i ≠ b + j := by
  have hptr := h.pointer_le
  have hsymm : Std.Symm fun a b => a + w.pool.stride ≤ b ∨ b + w.pool.stride ≤ a :=
    ⟨fun _ _ hab => hab.symm⟩
  have happart := h.apart.forall ha hb hab
  rw [MemPool.stride] at happart
  omega

/-- The difference of the counters is the number of blocks deployed, modulo 2^32. -/
theorem sub_eq (h : w.Sound l) :
    w.pool.totalBlocks - w.pool.inventory = UInt32.ofNat w.deployed.length := by
  rw [h.totalBlocks_eq, h.inventory_eq, h.length_eq, Nat.add_comm, UInt32.ofNat_add,
    UInt32.add_sub_cancel]

/-- **A sound world is exact** unless more blocks are free, or have been deployed, than are counted. -/
theorem exact (h : w.Sound l) (hl : l.length < 2 ^ 32) (hmost : w.mostDeployed < 2 ^ 32) : w.Exact where
  inventory := by
    refine ⟨l, h.queue, h.mem_iff, ?_, h.entered_eq⟩
    rw [h.inventory_eq, UInt32.toNat_ofNat_of_lt' hl]
  deployed_eq := by
    rw [h.sub_eq, UInt32.toNat_ofNat_of_lt' (h.deployed_le.trans_lt hmost)]
  peakUsed_eq := h.peakUsed_eq hmost

/-- So many free blocks are not counted. -/
theorem not_exact_of_free (h : w.Sound l) (hl : 2 ^ 32 ≤ l.length) : ¬ w.Exact := by
  intro hexact
  obtain ⟨l', hqueue, -, hlen, -⟩ := hexact.inventory
  obtain rfl := h.queue.visits.unique hqueue.visits
  have hlt := w.pool.inventory.toNat_lt
  omega

/-- So many deployed blocks are not counted. -/
theorem not_exact_of_deployed (hdep : 2 ^ 32 ≤ w.deployed.length) : ¬ w.Exact := by
  intro hexact
  have hlen := hexact.deployed_eq
  have hlt := (w.pool.totalBlocks - w.pool.inventory).toNat_lt
  omega

/-! ### Steps -/

/-- **A segment** keeps the invariant. -/
theorem gain (h : w.Sound l) {blocks : UInt32} (hfit : MemPool.SegmentFits w.pool.blockSize blocks)
    {raw : ℕ} {p' : MemPool} {mem' : Memory} (hseg : w.pool.Segmented w.mem l blocks raw p' mem') :
    (w.grow p' mem' (MemPool.carved w.pool.stride blocks.toNat (raw + MemPool.sizeOfSegment))).Sound
      (l ++ MemPool.carved w.pool.stride blocks.toNat (raw + MemPool.sizeOfSegment)) := by
  set new := MemPool.carved w.pool.stride blocks.toNat (raw + MemPool.sizeOfSegment) with hnew
  have hstride : p'.stride = w.pool.stride := by
    rw [MemPool.stride, MemPool.stride, hseg.grown.blockSize_eq]
  have hrange : ∀ b ∈ new, raw ≤ b ∧ b + w.pool.stride ≤ raw + w.pool.segSize blocks := by
    intro b hb
    obtain ⟨hle, hge⟩ := MemPool.le_of_mem_carved hb
    rw [MemPool.segSize_eq hfit]
    omega
  have hcross : ∀ a ∈ w.blocks, ∀ b ∈ new, a + w.pool.stride ≤ b ∨ b + w.pool.stride ≤ a := by
    intro a ha b hb
    obtain ⟨r, hr, hra, har⟩ := h.room a ha
    obtain ⟨hle, hge⟩ := hrange b hb
    rcases hseg.fresh r hr with hout | hout <;> omega
  have hnotMem : ∀ a ∈ w.blocks, a ∉ new := by
    intro a ha hmem
    have hpos := w.pool.stride_pos
    have := hcross a ha a hmem
    omega
  have hlen : new.length = blocks.toNat := MemPool.length_carved _ _ _
  exact
    { increment_ne := by
        rw [PoolWorld.grow, hseg.grown.increment_eq]
        exact h.increment_ne
      fits := by
        rw [PoolWorld.grow, hseg.grown.increment_eq, hseg.grown.blockSize_eq]
        exact h.fits
      pointer_le := by
        rw [PoolWorld.grow, hseg.grown.blockSize_eq]
        exact h.pointer_le
      queue := hseg.grown.queue
      perm := by
        have hperm := h.perm.append_right new
        rw [List.append_assoc] at hperm ⊢
        exact hperm.trans (List.perm_append_comm.append_left l)
      apart := by
        rw [PoolWorld.grow, hstride]
        exact List.pairwise_append.2 ⟨h.apart, MemPool.pairwise_carved _ _ _, hcross⟩
      blockSize_eq := by
        intro b hb
        rw [PoolWorld.grow, hseg.grown.blockSize_eq]
        rcases List.mem_append.1 hb with hb | hb
        · rw [hseg.grown.block_eq b (hnotMem b hb)]
          exact h.blockSize_eq b hb
        · exact (hseg.grown.block_new b hb).1
      room := by
        intro b hb
        rw [PoolWorld.grow, hstride, hseg.used_eq]
        rcases List.mem_append.1 hb with hb | hb
        · obtain ⟨r, hr, hin⟩ := h.room b hb
          exact ⟨r, List.mem_cons_of_mem _ hr, hin⟩
        · exact ⟨_, List.mem_cons_self, hrange b hb⟩
      inventory_eq := by
        rw [PoolWorld.grow, hseg.inventory_eq, h.inventory_eq, List.length_append, hlen, UInt32.ofNat_add,
          UInt32.ofNat_toNat]
      totalBlocks_eq := by
        rw [PoolWorld.grow, hseg.totalBlocks_eq, h.totalBlocks_eq, List.length_append, hlen,
          UInt32.ofNat_add, UInt32.ofNat_toNat]
      deployed_le := h.deployed_le
      peakUsed_eq := by
        rw [PoolWorld.grow, hseg.peakUsed_eq]
        exact h.peakUsed_eq
      entered_eq := by
        rw [PoolWorld.grow, h.entered_eq, List.append_assoc] }

/-- **A block that is handed out** is the one that came in first. -/
theorem handOut (h : w.Sound l) {b : ℕ} (hb : w.pool.blkHead = some b) :
    ∃ l', l = b :: l' ∧ (w.handOut b).Sound l' := by
  have hqueue := h.queue
  rw [hb] at hqueue
  obtain ⟨l', rfl, hpop⟩ := hqueue.pop
  have hinv : w.pool.inventory - 1 = UInt32.ofNat l'.length := by
    rw [h.inventory_eq, List.length_cons, UInt32.ofNat_add]
    exact UInt32.add_sub_cancel _ _
  have hlen : w.blocks.length = l'.length + (w.deployed.length + 1) := by
    rw [h.length_eq, List.length_cons]
    omega
  have hused : w.pool.totalBlocks - (w.pool.inventory - 1) = UInt32.ofNat (w.deployed.length + 1) := by
    rw [hinv, h.totalBlocks_eq, hlen, Nat.add_comm, UInt32.ofNat_add, UInt32.add_sub_cancel]
  refine ⟨l', rfl, ?_⟩
  exact
    { increment_ne := h.increment_ne
      fits := h.fits
      pointer_le := h.pointer_le
      queue := hpop
      perm := h.perm.trans List.perm_middle.symm
      apart := h.apart
      blockSize_eq := by
        intro a ha
        rcases eq_or_ne a b with rfl | hab
        · exact (congrArg MemBlock.blockSize (Memory.blockSet_self w.mem a _)).trans (h.blockSize_eq a ha)
        · exact (congrArg MemBlock.blockSize (Memory.blockSet_of_ne hab _)).trans (h.blockSize_eq a ha)
      room := h.room
      inventory_eq := hinv
      totalBlocks_eq := h.totalBlocks_eq
      deployed_le := le_max_right _ _
      peakUsed_eq := by
        intro hmost
        obtain ⟨hold, hnew⟩ := max_lt_iff.1 hmost
        have hpeak := h.peakUsed_eq hold
        have hnat : (UInt32.ofNat (w.deployed.length + 1)).toNat = w.deployed.length + 1 :=
          UInt32.toNat_ofNat_of_lt' hnew
        change (if w.pool.peakUsed < w.pool.totalBlocks - (w.pool.inventory - 1) then
          w.pool.totalBlocks - (w.pool.inventory - 1) else w.pool.peakUsed).toNat =
            max w.mostDeployed (w.deployed.length + 1)
        rw [hused]
        split_ifs with hlt
        all_goals rw [UInt32.lt_iff_toNat_lt, hpeak, hnat] at hlt
        · rw [hnat, max_eq_right (Nat.le_of_lt hlt)]
        · rw [hpeak, max_eq_left (Nat.le_of_not_lt hlt)]
      entered_eq := by
        change w.entered = w.handedOut ++ [b] ++ l'
        rw [h.entered_eq, List.append_assoc]
        rfl }

/-- **A block that is put back** goes behind all others. -/
theorem putBack (h : w.Sound l) {b : ℕ} (hb : b ∈ w.deployed) :
    poolStep w (.memBlockPut b) = some (.put true, w.putBack b) ∧ (w.putBack b).Sound (l ++ [b]) := by
  have hblock := h.mem_blocks_of_deployed hb
  have hnot := h.notMem_of_deployed hb
  refine ⟨by rw [poolStep, if_pos hb, MemPool.memBlockPut_eq h.queue (h.blockSize_eq b hblock)]; rfl, ?_⟩
  exact
    { increment_ne := h.increment_ne
      fits := h.fits
      pointer_le := h.pointer_le
      queue := h.queue.push hnot
      perm := by
        rw [List.append_assoc]
        exact h.perm.trans ((List.perm_cons_erase hb).append_left l)
      apart := h.apart
      blockSize_eq := h.blockSize_eq
      room := h.room
      inventory_eq := by
        change w.pool.inventory + 1 = _
        rw [h.inventory_eq, List.length_append, UInt32.ofNat_add]
        rfl
      totalBlocks_eq := h.totalBlocks_eq
      deployed_le := (List.length_erase_le).trans h.deployed_le
      peakUsed_eq := h.peakUsed_eq
      entered_eq := by
        change w.entered ++ [b] = _
        rw [h.entered_eq, List.append_assoc]
        rfl }

/-- **What a holder writes** leaves the inventory alone. -/
theorem write (h : w.Sound l) {b : ℕ} (hb : b ∈ w.deployed) (ptr : Option ℕ) :
    Sound { w with mem := w.mem.nextSet (some b) ptr } l :=
  { h with
    queue := h.queue.congr fun a ha =>
      Function.update_of_ne (fun hab : a = b => h.notMem_of_deployed hb (hab ▸ ha)) _ _ }

end Sound

/-! ### Requests -/

section Get

variable {w : PoolWorld} {heap : NothrowHeap} {b : ℕ}

theorem poolStep_get_of_head (hb : w.pool.blkHead = some b) :
    poolStep w (.memBlockGet heap) = some (.got (some b), w.handOut b) := by
  have hne : w.pool.blkHead ≠ none := by simp [hb]
  simp [poolStep, MemPool.memBlockGetOr, gained, hb, grow, handOut]

theorem poolStep_get_of_none (hhead : w.pool.blkHead = none)
    (hnew : heap.new w.mem.used (w.pool.segSize w.pool.increment) = none) :
    poolStep w (.memBlockGet heap) = some (.got none, w) := by
  have halloc := @MemPool.allocateSegmentOr_of_none _ w.pool w.mem _ hnew
  simp [poolStep, MemPool.memBlockGetOr, gained, hhead, grow, halloc, MemPool.segment, hnew]

theorem poolStep_get_of_segment (hhead : w.pool.blkHead = none) {p' : MemPool} {mem' : Memory}
    (halloc : w.pool.allocateSegmentOr (heap.new w.mem.used) w.mem w.pool.increment =
      (true, p', mem')) (hb : p'.blkHead = some b) :
    poolStep w (.memBlockGet heap) =
      some (.got (some b), (w.grow p' mem' (w.gained heap)).handOut b) := by
  simp [poolStep, MemPool.memBlockGetOr, hhead, grow, halloc, hb, handOut]

/-- The request finds a block, or memory for a segment. -/
def Served (w : PoolWorld) (heap : NothrowHeap) : Prop :=
  w.pool.blkHead = none → heap.new w.mem.used (w.pool.segSize w.pool.increment) ≠ none

instance decidableServed (w : PoolWorld) (heap : NothrowHeap) : Decidable (w.Served heap) :=
  inferInstanceAs (Decidable (_ → _))

/-- **A request that is served** hands out one block more. -/
theorem Sound.get {l : List ℕ} (h : w.Sound l) (hserved : w.Served heap) :
    ∃ b w' l', poolStep w (.memBlockGet heap) = some (.got (some b), w') ∧ w'.Sound l' ∧
      (l.length < 2 ^ 32 → l'.length < 2 ^ 32) ∧ w'.deployed = b :: w.deployed ∧
      w'.mostDeployed = max w.mostDeployed (w.deployed.length + 1) := by
  cases hhead : w.pool.blkHead with
  | some b =>
      obtain ⟨l', rfl, hsound⟩ := h.handOut hhead
      refine ⟨b, w.handOut b, l', poolStep_get_of_head hhead, hsound, fun hlt => ?_, rfl, rfl⟩
      rw [List.length_cons] at hlt
      omega
  | none =>
      obtain ⟨raw, hraw⟩ := Option.ne_none_iff_exists'.1 (hserved hhead)
      have hinside : ∀ a ∈ l, w.mem.Inside a := fun a ha => h.inside ((h.mem_iff a).1 ha).1
      obtain ⟨p', mem', halloc, hseg⟩ :=
        MemPool.allocateSegmentOr_segmented h.queue hinside h.increment_ne h.fits hraw
      have hgained : w.gained heap =
          MemPool.carved w.pool.stride w.pool.increment.toNat (raw + MemPool.sizeOfSegment) := by
        rw [gained, if_pos hhead, MemPool.segment, hraw]
      have hgain := h.gain h.fits hseg
      rw [← hgained] at hgain
      -- the inventory was empty, and the segment has a block
      have hqueue := h.queue
      rw [hhead] at hqueue
      obtain rfl := hqueue.eq_nil
      have hlen : (w.gained heap).length = w.pool.increment.toNat := by
        rw [hgained, MemPool.length_carved]
      have hfirst : (w.gained heap).head? = p'.blkHead := hgain.queue.visits.head?_eq
      obtain ⟨b, hb⟩ : ∃ b, p'.blkHead = some b := by
        refine Option.ne_none_iff_exists'.1 fun hnil => h.increment_ne (UInt32.toNat_inj.1 ?_)
        rw [hnil] at hfirst
        rw [← hlen, List.head?_eq_none_iff.1 hfirst]
        rfl
      obtain ⟨l', hl', hsound⟩ := hgain.handOut hb
      refine ⟨b, _, l', poolStep_get_of_segment hhead halloc hb, hsound, fun _ => ?_, rfl, rfl⟩
      have hcons := congrArg List.length hl'
      rw [List.nil_append, hlen, List.length_cons] at hcons
      have hlt := w.pool.increment.toNat_lt
      omega

end Get

/-! ### Runs -/

/-- The condition on a call: the blocks that are deployed, or free, are still counted after it. -/
def Counts (w : PoolWorld) : PoolOp → Prop
  | .memBlockGet heap => w.Served heap → w.deployed.length + 1 < 2 ^ 32
  | .memBlockPut b => b ∈ w.deployed → w.blocks.length - w.deployed.length + 1 < 2 ^ 32
  | .write _ _ => True

instance decidableCounts (w : PoolWorld) (op : PoolOp) : Decidable (w.Counts op) :=
  match op with
  | .memBlockGet heap => inferInstanceAs (Decidable (w.Served heap → w.deployed.length + 1 < 2 ^ 32))
  | .memBlockPut b => inferInstanceAs
      (Decidable (b ∈ w.deployed → w.blocks.length - w.deployed.length + 1 < 2 ^ 32))
  | .write _ _ => .isTrue trivial

/-- The invariant of a run whose calls meet the condition. -/
def Counted (w : PoolWorld) : Prop :=
  ∃ l, w.Sound l ∧ l.length < 2 ^ 32 ∧ w.mostDeployed < 2 ^ 32

variable {w w' : PoolWorld}

theorem Counted.exact (h : w.Counted) : w.Exact := by
  obtain ⟨l, hsound, hl, hmost⟩ := h
  exact hsound.exact hl hmost

/-- **One call keeps the invariant**, and keeps all blocks counted if it meets the condition. -/
theorem Sound.step {l : List ℕ} (h : w.Sound l) {op : PoolOp} {a : PoolAnswer}
    (hstep : poolStep w op = some (a, w')) : ∃ l', w'.Sound l' ∧
      (w.Counts op → l.length < 2 ^ 32 → w.mostDeployed < 2 ^ 32 →
        l'.length < 2 ^ 32 ∧ w'.mostDeployed < 2 ^ 32) := by
  cases op with
  | memBlockGet heap =>
      by_cases hserved : w.Served heap
      · obtain ⟨b, w₁, l', hget, hsound, hl', -, hmost'⟩ := h.get hserved
        obtain ⟨-, rfl⟩ := Prod.mk.inj (Option.some.inj (hget.symm.trans hstep))
        refine ⟨l', hsound, fun hop hl hmost => ⟨hl' hl, ?_⟩⟩
        rw [hmost']
        exact max_lt hmost (hop hserved)
      · obtain ⟨hhead, hnew⟩ := Classical.not_imp.1 hserved
        rw [poolStep_get_of_none hhead (not_not.1 hnew)] at hstep
        obtain ⟨-, rfl⟩ := Prod.mk.inj (Option.some.inj hstep)
        exact ⟨l, h, fun _ hl hmost => ⟨hl, hmost⟩⟩
  | memBlockPut b =>
      by_cases hb : b ∈ w.deployed
      · obtain ⟨hput, hsound⟩ := h.putBack hb
        obtain ⟨-, rfl⟩ := Prod.mk.inj (Option.some.inj (hput.symm.trans hstep))
        refine ⟨_, hsound, fun hop hl hmost => ⟨?_, hmost⟩⟩
        have hfree := hop hb
        rw [h.length_eq] at hfree
        rw [List.length_append, List.length_singleton]
        omega
      · rw [poolStep, if_neg hb] at hstep
        cases hstep
  | write b ptr =>
      rw [poolStep] at hstep
      split_ifs at hstep with hb
      obtain ⟨-, rfl⟩ := Prod.mk.inj (Option.some.inj hstep)
      exact ⟨l, h.write hb ptr, fun _ hl hmost => ⟨hl, hmost⟩⟩

theorem Counted.step (h : w.Counted) {op : PoolOp} (hop : w.Counts op) {a : PoolAnswer}
    (hstep : poolStep w op = some (a, w')) : w'.Counted := by
  obtain ⟨l, hsound, hl, hmost⟩ := h
  obtain ⟨l', hsound', hcounted⟩ := hsound.step hstep
  exact ⟨l', hsound', hcounted hop hl hmost⟩

/-- **A call that does not meet it** leaves counters that are wrong. -/
theorem Counted.not_exact (h : w.Counted) {op : PoolOp} (hop : ¬ w.Counts op) :
    ∃ a w', poolStep w op = some (a, w') ∧ ¬ w'.Exact := by
  obtain ⟨l, hsound, hl, hmost⟩ := h
  cases op with
  | memBlockGet heap =>
      obtain ⟨hserved, hmany⟩ := Classical.not_imp.1 hop
      obtain ⟨b, w', l', hget, -, -, hdep, -⟩ := hsound.get hserved
      refine ⟨_, w', hget, Sound.not_exact_of_deployed ?_⟩
      rw [hdep, List.length_cons]
      omega
  | memBlockPut b =>
      obtain ⟨hb, hmany⟩ := Classical.not_imp.1 hop
      obtain ⟨hput, hsound'⟩ := hsound.putBack hb
      refine ⟨_, _, hput, hsound'.not_exact_of_free ?_⟩
      rw [hsound.length_eq] at hmany
      rw [List.length_append, List.length_singleton]
      omega
  | write b ptr => exact absurd trivial hop

end PoolWorld

/-- The sizes of the segments fit into a `size_t`. -/
def PoolArgs.SizesFit (args : PoolArgs) : Prop :=
  ∀ blocks ∈ [args.initCount, args.increment],
    blocks.toNat * (args.blockSize + MemBlock.sizeOf) + MemPool.sizeOfSegment < 2 ^ 64

namespace PoolWorld

/-- **The constructor** makes a sound world, in which no block has been deployed. -/
theorem sound_initial (args : PoolArgs) (hfit : args.SizesFit) (heap : NothrowHeap) (mem : Memory)
    (this : ℕ) : ∃ l, (initial args heap mem this).Sound l ∧ l.length < 2 ^ 32 ∧
      (initial args heap mem this).deployed = [] ∧ (initial args heap mem this).mostDeployed = 0 := by
  set blank := MemPool.blank this args.blockSize args.increment with hblank
  have hnone : Sound ⟨blank, mem, [], [], 0, [], []⟩ [] :=
    { increment_ne := args.increment_ne
      fits := hfit args.increment (by simp)
      pointer_le := args.pointer_le
      queue := .empty
      perm := .refl _
      apart := .nil
      blockSize_eq := fun b hb => absurd hb List.not_mem_nil
      room := fun b hb => absurd hb List.not_mem_nil
      inventory_eq := rfl
      totalBlocks_eq := rfl
      deployed_le := le_rfl
      peakUsed_eq := fun _ => rfl
      entered_eq := rfl }
  have hcases : (blank.allocateSegmentOr (heap.new mem.used) mem args.initCount = (false, blank, mem) ∧
      blank.segment (heap.new mem.used) args.initCount = []) ∨
      ∃ raw, args.initCount ≠ 0 ∧ heap.new mem.used (blank.segSize args.initCount) = some raw := by
    cases hnew : heap.new mem.used (blank.segSize args.initCount) with
    | none => exact .inl ⟨MemPool.allocateSegmentOr_of_none hnew, by rw [MemPool.segment, hnew]⟩
    | some raw =>
        by_cases hzero : args.initCount = 0
        · refine .inl ⟨by rw [MemPool.allocateSegmentOr, if_pos hzero], ?_⟩
          rw [MemPool.segment, hnew, hzero]
          rfl
        · exact .inr ⟨raw, hzero, rfl⟩
  rcases hcases with ⟨halloc, hsegment⟩ | ⟨raw, hne, hnew⟩
  · have hworld : initial args heap mem this = ⟨blank, mem, [], [], 0, [], []⟩ := by
      rw [initial, MemPool.constructOr, ← hblank, halloc, hsegment]
    rw [hworld]
    exact ⟨[], hnone, by simp, rfl, rfl⟩
  · obtain ⟨p', mem', halloc, hseg⟩ := MemPool.allocateSegmentOr_segmented (p := blank) (l := [])
      .empty (fun a ha => absurd ha List.not_mem_nil) hne (hfit args.initCount (by simp)) hnew
    have hgain := hnone.gain (hfit args.initCount (by simp)) hseg
    have hworld : initial args heap mem this = PoolWorld.grow ⟨blank, mem, [], [], 0, [], []⟩ p' mem'
        (MemPool.carved blank.stride args.initCount.toNat (raw + MemPool.sizeOfSegment)) := by
      rw [initial, MemPool.constructOr, ← hblank, halloc, MemPool.segment, hnew]
      rfl
    rw [hworld]
    refine ⟨_, hgain, ?_, rfl, rfl⟩
    rw [List.nil_append, MemPool.length_carved]
    exact args.initCount.toNat_lt

/-- **The inventory is right in every run**: it is the queue of the blocks that are not deployed, in the
order in which they came in, also when the counters are not exact. -/
theorem sound_of_run (args : PoolArgs) (hfit : args.SizesFit) (heap : NothrowHeap) (mem : Memory)
    (this : ℕ) {ops : List PoolOp} {as : List PoolAnswer} {w : PoolWorld}
    (h : StepSystem.run poolStep ops (initial args heap mem this) = some (as, w)) : ∃ l, w.Sound l := by
  obtain ⟨l, hsound, -⟩ := sound_initial args hfit heap mem this
  refine StepSystem.run_invariant (I := fun w : PoolWorld => ∃ l, w.Sound l) ?_ ⟨l, hsound⟩ h
  rintro w op a w' ⟨l, hsound⟩ hstep
  obtain ⟨l', hsound', -⟩ := hsound.step hstep
  exact ⟨l', hsound'⟩

end PoolWorld

/-- **The inventory and the counters are exact throughout a run** if and only if no call deploys, or
frees, more blocks than the counters count.  The heap may fail in every call, and holders may write what
they like. -/
theorem pool_exact_iff (args : PoolArgs) (hfit : args.SizesFit) (heap : NothrowHeap) (mem : Memory)
    (this : ℕ) (ops : List PoolOp) :
    (∀ pre as w, pre <+: ops →
      StepSystem.run poolStep pre (PoolWorld.initial args heap mem this) = some (as, w) → w.Exact) ↔
      StepSystem.Meets poolStep PoolWorld.Counts ops (PoolWorld.initial args heap mem this) := by
  obtain ⟨l, hsound, hlen, -, hmost⟩ := PoolWorld.sound_initial args hfit heap mem this
  have hcounted : (PoolWorld.initial args heap mem this).Counted :=
    ⟨l, hsound, hlen, by rw [hmost]; decide⟩
  exact @StepSystem.forall_prefix_iff_meets PoolWorld PoolOp PoolAnswer poolStep
    (fun _ w => w.Counted) (fun _ w => w.Exact) PoolWorld.Counts
    (fun h hop hstep => h.step hop hstep) (fun h => h.exact) (fun h hop => h.not_exact hop)
    [] _ hcounted ops

/-- A pool of blocks of 16 octets, which grows by one block at a time. -/
def onePool : PoolArgs := ⟨16, 1, 1, by decide, by decide⟩

theorem sizesFit_onePool : onePool.SizesFit := by
  intro blocks hblocks
  obtain rfl : blocks = 1 := by simpa [onePool] using hblocks
  change 1 * (16 + 16) + 8 < 2 ^ 64
  omega

/-- On a heap that does not fail, every request is served. -/
theorem PoolWorld.Sound.exists_run_get {w : PoolWorld} {l : List ℕ} (h : w.Sound l) (n : ℕ) :
    ∃ as w', StepSystem.run poolStep (List.replicate n (.memBlockGet bumpHeap.nothrow)) w =
      some (as, w') ∧ w'.deployed.length = w.deployed.length + n := by
  induction n generalizing w l with
  | zero => exact ⟨[], w, rfl, rfl⟩
  | succ n ih =>
      have hserved : w.Served bumpHeap.nothrow := fun _ => Option.some_ne_none _
      obtain ⟨b, w₁, l₁, hget, hsound, -, hdep, -⟩ := h.get hserved
      obtain ⟨as, w', hrun, hlen⟩ := ih hsound
      refine ⟨_, w', StepSystem.run_cons_eq_some.2 ⟨_, w₁, as, hget, hrun, rfl⟩, ?_⟩
      rw [hlen, hdep, List.length_cons]
      omega

/-- The pool grows twice, a block is put back and handed out again, and a request fails. -/
def samplePoolOps : List PoolOp :=
  [.memBlockGet bumpHeap.nothrow, .write 8 (some 8), .memBlockGet bumpHeap.nothrow,
    .memBlockGet bumpHeap.nothrow, .memBlockPut 48, .memBlockPut 8, .write 88 (some 48),
    .memBlockGet fullHeap, .memBlockGet fullHeap, .memBlockGet fullHeap, .memBlockPut 88]

/-- The blocks come back in the order in which they were put in, and all is counted. -/
theorem pool_exact_iff_sample :
    StepSystem.Meets poolStep PoolWorld.Counts samplePoolOps
        (PoolWorld.initial onePool bumpHeap.nothrow unusedMemory 64) ∧
      ∃ w, StepSystem.run poolStep samplePoolOps
          (PoolWorld.initial onePool bumpHeap.nothrow unusedMemory 64) =
        some ([.got (some 8), .written, .got (some 48), .got (some 88), .put true, .put true, .written,
          .got (some 48), .got (some 8), .got none, .put true], w) ∧
        w.mostDeployed = 3 ∧ w.Exact := by
  have hcounts : StepSystem.Meets poolStep PoolWorld.Counts samplePoolOps
      (PoolWorld.initial onePool bumpHeap.nothrow unusedMemory 64) := by
    decide +kernel
  have hend : ((StepSystem.run poolStep samplePoolOps
      (PoolWorld.initial onePool bumpHeap.nothrow unusedMemory 64)).any fun r =>
        decide (r.1 = [.got (some 8), .written, .got (some 48), .got (some 88), .put true, .put true,
          .written, .got (some 48), .got (some 8), .got none, .put true] ∧ r.2.mostDeployed = 3)) =
      true := by
    decide +kernel
  obtain ⟨⟨as, w⟩, hrun, hw⟩ := (Option.any_eq_true _ _).1 hend
  obtain ⟨rfl, hmost⟩ := of_decide_eq_true hw
  exact ⟨hcounts, w, hrun, hmost, (pool_exact_iff onePool sizesFit_onePool bumpHeap.nothrow unusedMemory
    64 samplePoolOps).2 hcounts _ _ w (List.prefix_refl _) hrun⟩

/-- After 2^32 requests the difference of the counters is not the number of blocks deployed. -/
theorem pool_miscounts : ∃ as w,
    StepSystem.run poolStep (List.replicate (2 ^ 32) (.memBlockGet bumpHeap.nothrow))
      (PoolWorld.initial onePool bumpHeap.nothrow unusedMemory 64) = some (as, w) ∧
    w.deployed.length = 2 ^ 32 ∧ (w.pool.totalBlocks - w.pool.inventory).toNat ≠ w.deployed.length ∧
    ¬ w.Exact := by
  obtain ⟨l, hsound, -, hdep, -⟩ :=
    PoolWorld.sound_initial onePool sizesFit_onePool bumpHeap.nothrow unusedMemory 64
  obtain ⟨as, w, hrun, hlen⟩ := hsound.exists_run_get (2 ^ 32)
  rw [hdep, List.length_nil, Nat.zero_add] at hlen
  have hlt := (w.pool.totalBlocks - w.pool.inventory).toNat_lt
  refine ⟨as, w, hrun, hlen, ?_, PoolWorld.Sound.not_exact_of_deployed hlen.ge⟩
  rw [hlen]
  exact hlt.ne

end CodePort
