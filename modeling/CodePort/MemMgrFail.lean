/-
Allocation failures.

`new (CP_NEW)` returns NULL when the heap has no memory.  The pool and the manager test for that, but
the last statement of `MemManager::MemBlockGet` marks the block whether there is one or not, and the
operators of a pooled class return the buffer of the block whether there is one or not.

Main definitions:

* `CodePort.NothrowNew`, `CodePort.NothrowHeap` — what `new (CP_NEW)` returns;
* `CodePort.MemPool.allocateSegmentOr`, `constructOr`, `memBlockGetOr`,
  `CodePort.MemManager.memBlockGetOr`, `createPoolOr` — the functions of a pool and of the manager on a
  heap that may fail;
* `CodePort.PooledBase.newNothrow`, `newArrayNothrow` — the operators;
* `CodePort.MemManager.Exhausted` — neither a block of a pool nor memory can be obtained;
* `CodePort.MemManager.FailureReported` — what a caller expects of a request that fails.

Main results:

* `CodePort.MemManager.memBlockGetOr_eq`, `createPoolOr_eq` — on a heap that does not fail these are the
  functions of the memory manager;
* `CodePort.MemManager.memBlockGetOr_of_serves` — so they are when the allocation of a call succeeds;
* `CodePort.memBlockGet_failure` — **no failure is reported as expected**: the counters and the lists
  are right, but the guard is written through the pointer that was not set, and the operators return an
  address that is not NULL.
-/

import CodePort.MemMgr

set_option relaxedAutoImplicit false
set_option autoImplicit false

namespace CodePort

/-- What `new (CP_NEW) char[n]` returns: the address of new memory, or NULL. -/
abbrev NothrowNew := ℕ → Option ℕ

/-- What `new (CP_NEW) char[n]` returns when some ranges of the memory are in use: the address of memory
that does not overlap with them, or NULL. -/
structure NothrowHeap where
  new : List (ℕ × ℕ) → NothrowNew
  fresh : ∀ (used : List (ℕ × ℕ)) (n raw : ℕ), new used n = some raw → ∀ r ∈ used,
    raw + n ≤ r.1 ∨ r.1 + r.2 ≤ raw

/-- A heap that does not fail is one. -/
def Heap.nothrow (heap : Heap) : NothrowHeap where
  new used n := some (heap.new used n)
  fresh used n raw h := by
    obtain rfl := Option.some.inj h
    exact heap.fresh used n

/-- A heap that has no memory. -/
def fullHeap : NothrowHeap where
  new _ _ := none
  fresh _ _ _ h := by cases h

/-- A heap that does what this one does, and something else where that one fails. -/
def NothrowHeap.total (heap : NothrowHeap) : Heap where
  new used n := (heap.new used n).getD (bumpHeap.new used n)
  fresh used n r hr := by
    cases hnew : heap.new used n with
    | none => exact bumpHeap.fresh used n r hr
    | some raw => exact heap.fresh used n raw hnew r hr

theorem NothrowHeap.new_eq_total {heap : NothrowHeap} {used : List (ℕ × ℕ)} {n : ℕ}
    (h : heap.new used n ≠ none) : heap.new used n = some (heap.total.new used n) := by
  obtain ⟨raw, hraw⟩ := Option.ne_none_iff_exists'.1 h
  simp only [total, hraw, Option.getD_some]

/-- There is memory for the first segment of a new pool. -/
def NothrowHeap.ServesSegment (heap : NothrowHeap) (mem : Memory) (blockSize : ℕ) (initial : UInt32) :
    Prop :=
  ∀ raw ∈ heap.new mem.used MemPool.sizeOf,
    heap.new ((raw, MemPool.sizeOf) :: mem.used) ((MemPool.blank raw blockSize 0).segSize initial) ≠ none

instance decidableServesSegment (heap : NothrowHeap) (mem : Memory) (blockSize : ℕ) (initial : UInt32) :
    Decidable (heap.ServesSegment mem blockSize initial) :=
  inferInstanceAs (Decidable (∀ raw ∈ heap.new mem.used MemPool.sizeOf,
    heap.new ((raw, MemPool.sizeOf) :: mem.used)
      ((MemPool.blank raw blockSize 0).segSize initial) ≠ none))

namespace MemPool

/-- Allocate a segment that holds specified number of blocks, if there is memory for it. -/
def allocateSegmentOr (new : NothrowNew) (pool : MemPool) (mem : Memory) (blocks : UInt32) :
    Bool × MemPool × Memory :=
  if blocks = 0 then (false, pool, mem)
  else
    match new (pool.segSize blocks) with
    | none => (false, pool, mem)
    | some raw =>
        carve blocks.toNat (raw + sizeOfSegment) { pool with segHead := raw :: pool.segHead }
          { mem with used := (raw, pool.segSize blocks) :: mem.used }

/-- The constructor; a failure is logged. -/
def constructOr (new : NothrowNew) (mem : Memory) (this blockSize : ℕ) (initCount increment : UInt32) :
    MemPool × Memory :=
  ((blank this blockSize increment).allocateSegmentOr new mem initCount).2

/-- Get a block of memory from the pool; `ptr` is the pointer of the caller, which the result has as it
is afterwards. -/
def memBlockGetOr (new : NothrowNew) (pool : MemPool) (mem : Memory) (ptr : Option ℕ) :
    Bool × Option ℕ × MemPool × Memory :=
  -- check block inventory
  let (rv, pool, mem) :=
    if pool.blkHead = none then pool.allocateSegmentOr new mem pool.increment else (true, pool, mem)
  if rv then
    match pool.blkHead with
    | some b => (true, some b, pool.take mem b)
    | none => (false, none, pool, mem)
  else (false, ptr, pool, mem)

end MemPool

namespace MemManager

/-- What a call of `MemBlockGet` leaves. -/
structure Got where
  rv : Bool
  /-- The pointer of the caller. -/
  ptr : Option ℕ
  mgr : MemManager
  mem : Memory
  /-- The pointers that a guard has been written through. -/
  guarded : List (Option ℕ)

/-- Get a block of memory.  A write through the NULL pointer changes no block; it is only recorded. -/
def memBlockGetOr (new : NothrowNew) (mgr : MemManager) (mem : Memory) (ptr : Option ℕ) (size : ℕ) :
    Got :=
  let (rv, ptr, mgr, mem) :=
    -- find an appropriate pool
    match mgr.poolGet size with
    | some pool =>
        let r := pool.memBlockGetOr new mem ptr
        (r.1, r.2.1, mgr.poolSet r.2.2.1, r.2.2.2)
    | none =>
        -- no appropriate pool, so allocate custom size block
        match new (customSize size) with
        | some raw =>
            (true, some raw, mgr,
              Memory.blockSet { mem with used := (raw, customSize size) :: mem.used } raw
                fun _ => MemBlock.construct size)
        | none => (false, ptr, mgr, mem)
  let mgr :=
    if rv then
      { mgr with
        deployedCount := mgr.deployedCount + 1
        deployedSize := mgr.deployedSize +
          UInt32.ofNat ((ptr.map fun b => (mem.block b).blockSize).getD 0) }
    else { mgr with failedGets := mgr.failedGets + 1 }
  -- mark for consistency and protection against multiple returns
  { rv := rv
    ptr := ptr
    mgr := mgr
    mem := match ptr with
      | some b => mem.blockSet b MemBlock.guardOn
      | none => mem
    guarded := [ptr] }

/-- Create a new memory pool, if there is memory for the pool object. -/
def createPoolOr (heap : NothrowHeap) (mgr : MemManager) (mem : Memory) (blockSize : ℕ)
    (initial increment : UInt32) : Bool × MemManager × Memory :=
  -- enforce minimum block size
  let blockSize := poolSize blockSize
  match nearestSmaller blockSize mgr.pools none with
  | none => (false, mgr, mem)
  | some prevMatch =>
      match heap.new mem.used MemPool.sizeOf with
      | none => (false, mgr, mem)
      | some raw =>
          let mem := { mem with used := (raw, MemPool.sizeOf) :: mem.used }
          let (pool, mem) :=
            MemPool.constructOr (heap.new mem.used) mem raw blockSize initial increment
          (true,
            { mgr with
              pools :=
                match prevMatch with
                | none => pool :: mgr.pools
                | some prev => insertAfter prev pool mgr.pools },
            mem)

end MemManager

/-! ### Pooled classes -/

namespace PooledBase

/-- The address of the buffer of a block; NULL is 0. -/
def buffGet (block : Option ℕ) : ℕ := block.getD 0 + MemBlock.sizeOf

/-- The `new` operator that doesn't throw exceptions: the address that it returns, if the write through the
NULL pointer does not end the process. -/
def newNothrow (new : NothrowNew) (mgr : MemManager) (mem : Memory) (size : ℕ) : ℕ :=
  -- a failure is logged
  buffGet (mgr.memBlockGetOr new mem none size).ptr

/-- The array `new` operator that doesn't throw exceptions: the address that it returns. -/
def newArrayNothrow (new : NothrowNew) (mgr : MemManager) (mem : Memory) (size : ℕ) : ℕ :=
  buffGet (mgr.memBlockGetOr new mem none size).ptr

end PooledBase

/-! ### A heap that does not fail -/

namespace MemPool

/-- Where the allocation succeeds, a pool allocates its segment there. -/
theorem allocateSegmentOr_of_new {heap : Heap} {new : NothrowNew} {pool : MemPool} {mem : Memory}
    {blocks : UInt32}
    (h : blocks ≠ 0 → new (pool.segSize blocks) = some (heap.new mem.used (pool.segSize blocks))) :
    pool.allocateSegmentOr new mem blocks = pool.allocateSegment heap mem blocks := by
  rw [allocateSegmentOr, allocateSegment]
  split_ifs with hzero
  · rfl
  · rw [h hzero]
    rfl

/-- On a heap that does not fail, a pool allocates its segments there. -/
theorem allocateSegmentOr_eq (heap : Heap) (pool : MemPool) (mem : Memory) (blocks : UInt32) :
    pool.allocateSegmentOr (fun n => some (heap.new mem.used n)) mem blocks =
      pool.allocateSegment heap mem blocks := allocateSegmentOr_of_new fun _ => rfl

/-- Where the allocation succeeds, a pool hands out the block that it hands out there. -/
theorem memBlockGetOr_of_new {heap : Heap} {new : NothrowNew} {pool p' : MemPool} {mem mem' : Memory}
    {b : ℕ} (h : pool.blkHead = none → pool.increment ≠ 0 →
      new (pool.segSize pool.increment) = some (heap.new mem.used (pool.segSize pool.increment)))
    (hget : pool.memBlockGet heap mem = (some b, p', mem')) (ptr : Option ℕ) :
    pool.memBlockGetOr new mem ptr = (true, some b, p', mem') := by
  have halloc : (if pool.blkHead = none then pool.allocateSegmentOr new mem pool.increment
      else (true, pool, mem)) = if pool.blkHead = none then pool.allocateSegment heap mem pool.increment
      else (true, pool, mem) := by
    split_ifs with hblk
    · exact allocateSegmentOr_of_new (h hblk)
    · rfl
  rw [memBlockGet] at hget
  rw [memBlockGetOr, halloc]
  generalize (if pool.blkHead = none then pool.allocateSegment heap mem pool.increment
    else (true, pool, mem)) = r at hget ⊢
  obtain ⟨rv, pool', mem'⟩ := r
  cases rv with
  | false => cases hget
  | true =>
      dsimp only at hget ⊢
      rw [if_pos rfl] at hget ⊢
      cases hhead : pool'.blkHead with
      | none =>
          rw [hhead] at hget
          cases hget
      | some b =>
          rw [hhead] at hget
          cases hget
          rfl

theorem memBlockGetOr_eq (heap : Heap) (pool : MemPool) (mem : Memory) :
    pool.memBlockGetOr (fun n => some (heap.new mem.used n)) mem none =
      ((pool.memBlockGet heap mem).1.isSome, pool.memBlockGet heap mem) := by
  rw [memBlockGetOr, memBlockGet, allocateSegmentOr_eq]
  generalize (if pool.blkHead = none then pool.allocateSegment heap mem pool.increment
    else (true, pool, mem)) = r
  obtain ⟨rv, pool', mem'⟩ := r
  cases rv with
  | false => rfl
  | true =>
      dsimp only
      rw [if_pos rfl, if_pos rfl]
      cases pool'.blkHead with
      | none => rfl
      | some b => rfl

/-- A segment that there is no memory for. -/
theorem allocateSegmentOr_of_none {new : NothrowNew} {pool : MemPool} {mem : Memory} {blocks : UInt32}
    (hnew : new (pool.segSize blocks) = none) :
    pool.allocateSegmentOr new mem blocks = (false, pool, mem) := by
  rw [allocateSegmentOr, hnew]
  exact ite_self _

/-- A pool that gets no memory stays as it is, and so does the pointer. -/
theorem memBlockGetOr_of_exhausted {new : NothrowNew} {pool : MemPool} (mem : Memory) (ptr : Option ℕ)
    (hblk : pool.blkHead = none)
    (hnew : pool.increment = 0 ∨
      new (pool.segSize pool.increment) = none) :
    pool.memBlockGetOr new mem ptr = (false, ptr, pool, mem) := by
  have halloc : pool.allocateSegmentOr new mem pool.increment = (false, pool, mem) := by
    rcases hnew with hzero | hnone
    · rw [allocateSegmentOr, if_pos hzero]
    · exact allocateSegmentOr_of_none hnone
  rw [memBlockGetOr, if_pos hblk, halloc]
  rfl

end MemPool

namespace MemManager

/-- **On a heap that does not fail**, `MemBlockGet` is the function of the memory manager, for a caller
whose pointer is NULL. -/
theorem memBlockGetOr_eq (heap : Heap) (mgr : MemManager) (mem : Memory) (size : ℕ) :
    let r := mgr.memBlockGetOr (fun n => some (heap.new mem.used n)) mem none size
    r.rv = (mgr.memBlockGet heap mem size).1.isSome ∧
      (r.ptr, r.mgr, r.mem) = mgr.memBlockGet heap mem size := by
  dsimp only
  rw [memBlockGetOr, memBlockGet]
  cases mgr.poolGet size with
  | none => exact ⟨rfl, rfl⟩
  | some pool =>
      dsimp only
      rw [MemPool.memBlockGetOr_eq]
      cases (pool.memBlockGet heap mem).1 with
      | none => exact ⟨rfl, rfl⟩
      | some b => exact ⟨rfl, rfl⟩

/-! ### Failures -/

/-- Neither a block of a pool nor memory can be obtained: the pool for the size, if there is one, has no
block and no memory for a segment, or else there is no memory for a custom size block. -/
structure Exhausted (new : NothrowNew) (mgr : MemManager) (size : ℕ) : Prop where
  pool : ∀ pool, mgr.poolGet size = some pool → pool.blkHead = none ∧
    (pool.increment = 0 ∨ new (pool.segSize pool.increment) = none)
  custom : mgr.poolGet size = none → new (customSize size) = none

instance decidableExhausted (new : NothrowNew) (mgr : MemManager) (size : ℕ) :
    Decidable (mgr.Exhausted new size) :=
  decidable_of_iff ((∀ pool ∈ mgr.poolGet size, pool.blkHead = none ∧
      (pool.increment = 0 ∨ new (pool.segSize pool.increment) = none)) ∧
      (mgr.poolGet size = none → new (customSize size) = none))
    ⟨fun h => ⟨h.1, h.2⟩, fun h => ⟨h.pool, h.custom⟩⟩

/-- **What a caller expects of a request that fails**: it is counted, nothing else changes, nothing is
written through a block pointer, and the operators return NULL. -/
structure FailureReported (new : NothrowNew) (mgr : MemManager) (mem : Memory) (ptr : Option ℕ)
    (size : ℕ) : Prop where
  returns : (mgr.memBlockGetOr new mem ptr size).rv = false
  counted : (mgr.memBlockGetOr new mem ptr size).mgr = { mgr with failedGets := mgr.failedGets + 1 }
  lists : (mgr.memBlockGetOr new mem ptr size).mem.next = mem.next
  unwritten : (mgr.memBlockGetOr new mem ptr size).guarded = []
  nothrow : PooledBase.newNothrow new mgr mem size = 0
  nothrow_array : PooledBase.newArrayNothrow new mgr mem size = 0

variable {new : NothrowNew} {mgr : MemManager} {mem : Memory} {ptr : Option ℕ} {size : ℕ}

/-- Writing a pool back as it is changes nothing, since pools lie at different addresses. -/
theorem poolSet_self {pool : MemPool} (hpools : (mgr.pools.map MemPool.this).Nodup)
    (h : pool ∈ mgr.pools) : mgr.poolSet pool = mgr := by
  have hmap : mgr.pools.map (fun p => if p.this = pool.this then pool else p) = mgr.pools := by
    refine (List.map_congr_left fun p hp => ?_).trans (List.map_id mgr.pools)
    split_ifs with hthis
    · exact (List.inj_on_of_nodup_map hpools h hp hthis.symm)
    · rfl
  rw [poolSet, hmap]

/-- **What a request that fails does**: it is counted and logged, the statistics, the pools and their
lists stay as they are, and the guard is written through the pointer of the caller. -/
theorem memBlockGetOr_of_exhausted (mem : Memory) (ptr : Option ℕ)
    (hpools : (mgr.pools.map MemPool.this).Nodup)
    (h : mgr.Exhausted new size) :
    mgr.memBlockGetOr new mem ptr size =
      { rv := false
        ptr := ptr
        mgr := { mgr with failedGets := mgr.failedGets + 1 }
        mem := match ptr with
          | some b => mem.blockSet b MemBlock.guardOn
          | none => mem
        guarded := [ptr] } := by
  rw [memBlockGetOr]
  cases hpool : mgr.poolGet size with
  | none =>
      dsimp only
      rw [h.custom hpool]
      rfl
  | some pool =>
      obtain ⟨hblk, hnew⟩ := h.pool pool hpool
      have hmem : pool ∈ mgr.pools := List.mem_of_find?_eq_some hpool
      dsimp only
      rw [MemPool.memBlockGetOr_of_exhausted mem ptr hblk hnew]
      dsimp only
      rw [poolSet_self hpools hmem]
      rfl

theorem of_not_exhausted_pool (h : ¬ mgr.Exhausted new size) {pool : MemPool}
    (hpool : mgr.poolGet size = some pool) (hblk : pool.blkHead = none) :
    pool.increment ≠ 0 ∧ new (pool.segSize pool.increment) ≠ none := by
  rw [← not_or]
  refine fun hfails => h ⟨fun p hp => ?_, fun hnone => ?_⟩
  · obtain rfl := Option.some.inj (hpool.symm.trans hp)
    exact ⟨hblk, hfails⟩
  · exact absurd (hpool.symm.trans hnone) (Option.some_ne_none pool)

theorem of_not_exhausted_custom (h : ¬ mgr.Exhausted new size) (hpool : mgr.poolGet size = none) :
    new (customSize size) ≠ none := by
  refine fun hnew => h ⟨fun p hp => ?_, fun _ => hnew⟩
  exact absurd (hpool.symm.trans hp) (Option.some_ne_none p).symm

/-- **A request that does not fail** is answered as on a heap that never fails. -/
theorem memBlockGetOr_of_not_exhausted {heap : NothrowHeap} {mgr' : MemManager} {mem' : Memory} {b : ℕ}
    (h : ¬ mgr.Exhausted (heap.new mem.used) size)
    (hget : mgr.memBlockGet heap.total mem size = (some b, mgr', mem')) (ptr : Option ℕ) :
    mgr.memBlockGetOr (heap.new mem.used) mem ptr size =
      { rv := true, ptr := some b, mgr := mgr', mem := mem', guarded := [some b] } := by
  rw [memBlockGet] at hget
  rw [memBlockGetOr]
  cases hpool : mgr.poolGet size with
  | none =>
      have hnew := NothrowHeap.new_eq_total (of_not_exhausted_custom h hpool)
      rw [hpool] at hget
      dsimp only at hget ⊢
      rw [hnew]
      cases hget
      rfl
  | some pool =>
      rw [hpool] at hget
      dsimp only at hget ⊢
      rcases hrun : pool.memBlockGet heap.total mem with ⟨_ | b₁, p', mem₁⟩
      · rw [hrun] at hget
        cases hget
      · rw [MemPool.memBlockGetOr_of_new (fun hblk _ => NothrowHeap.new_eq_total
          (of_not_exhausted_pool h hpool hblk).2) hrun ptr]
        rw [hrun] at hget
        cases hget
        rfl

/-! ### Creating a pool -/

/-- No second pool of one size is created. -/
theorem nearestSmaller_eq_none {blockSize : ℕ} {pools : List MemPool}
    (h : ∃ p ∈ pools, p.blockSize = blockSize) (prev : Option ℕ) :
    nearestSmaller blockSize pools prev = none := by
  induction pools generalizing prev with
  | nil => simp at h
  | cons q pools ih =>
      obtain ⟨p, hp, hsize⟩ := h
      rw [nearestSmaller]
      by_cases heq : q.blockSize = blockSize
      · exact if_pos heq
      · rw [if_neg heq]
        rcases List.mem_cons.1 hp with rfl | hp
        · exact absurd hsize heq
        · exact ih ⟨p, hp, hsize⟩ _

/-- Nothing happens when there is a pool of this size, or no memory for the pool object. -/
theorem createPoolOr_of_fails {heap : NothrowHeap} {blockSize : ℕ} (initial increment : UInt32)
    (h : (∃ p ∈ mgr.pools, p.blockSize = poolSize blockSize) ∨
      heap.new mem.used MemPool.sizeOf = none) :
    mgr.createPoolOr heap mem blockSize initial increment = (false, mgr, mem) := by
  rw [createPoolOr]
  rcases h with hexists | hnone
  · rw [nearestSmaller_eq_none hexists]
  · cases nearestSmaller (poolSize blockSize) mgr.pools none with
    | none => rfl
    | some prev =>
        dsimp only
        rw [hnone]

/-- **Otherwise a pool is created**, without blocks if there is no memory for its first segment. -/
theorem createPoolOr_eq {heap : NothrowHeap} (blockSize : ℕ) (initial increment : UInt32)
    (h : heap.new mem.used MemPool.sizeOf ≠ none) :
    ∃ n, (n = 0 ∨ n = initial ∧ heap.ServesSegment mem (poolSize blockSize) initial) ∧
      mgr.createPoolOr heap mem blockSize initial increment =
        mgr.createPool heap.total mem blockSize n increment := by
  have hraw := NothrowHeap.new_eq_total h
  -- the two functions differ at most in the constructor of the pool
  have hconstruct : ∀ n, (∀ this, heap.new mem.used MemPool.sizeOf = some this →
      let mem' : Memory := { mem with used := (this, MemPool.sizeOf) :: mem.used }
      MemPool.constructOr (heap.new mem'.used) mem' this (poolSize blockSize) initial increment =
        MemPool.construct heap.total mem' this (poolSize blockSize) n increment) →
      mgr.createPoolOr heap mem blockSize initial increment =
        mgr.createPool heap.total mem blockSize n increment := by
    intro n heq
    have heq := heq _ hraw
    dsimp only at heq
    rw [createPoolOr, createPool]
    cases nearestSmaller (poolSize blockSize) mgr.pools none with
    | none => rfl
    | some prev =>
        dsimp only
        rw [hraw]
        dsimp only [Memory.new]
        cases prev <;> simp only [heq]
  by_cases hserves : heap.ServesSegment mem (poolSize blockSize) initial
  · refine ⟨initial, .inr ⟨rfl, hserves⟩, hconstruct initial fun this hthis => ?_⟩
    exact congrArg Prod.snd (MemPool.allocateSegmentOr_of_new fun _ =>
      NothrowHeap.new_eq_total (hserves this hthis))
  · refine ⟨0, .inl rfl, hconstruct 0 fun this hthis => ?_⟩
    have hnone : heap.new ((this, MemPool.sizeOf) :: mem.used)
        ((MemPool.blank this (poolSize blockSize) increment).segSize initial) = none := by
      by_contra hne
      exact hserves fun raw hr => by
        obtain rfl := Option.some.inj (hthis.symm.trans hr)
        exact hne
    exact congrArg Prod.snd (MemPool.allocateSegmentOr_of_none hnone)

end MemManager

/-- **No failure is reported as expected**, in any state of the manager and for any size.  When neither a
block of a pool nor memory can be obtained, the request returns `false` and is counted, and the
statistics, the pools and their lists stay as they are; but the guard is written through the pointer of
the caller, and the operators return the address 16 instead of NULL. -/
theorem memBlockGet_failure (new : NothrowNew) (mgr : MemManager) (mem : Memory) (ptr : Option ℕ)
    (size : ℕ) (hpools : (mgr.pools.map MemPool.this).Nodup) (h : mgr.Exhausted new size) :
    ¬ mgr.FailureReported new mem ptr size ∧
      (mgr.memBlockGetOr new mem ptr size).rv = false ∧
      (mgr.memBlockGetOr new mem ptr size).mgr = { mgr with failedGets := mgr.failedGets + 1 } ∧
      (mgr.memBlockGetOr new mem ptr size).mem.next = mem.next ∧
      (mgr.memBlockGetOr new mem ptr size).guarded = [ptr] ∧
      PooledBase.newNothrow new mgr mem size = 16 ∧
      PooledBase.newArrayNothrow new mgr mem size = 16 := by
  have hget := fun ptr => MemManager.memBlockGetOr_of_exhausted mem ptr hpools h
  refine ⟨fun hreported => ?_, ?_, ?_, ?_, ?_, ?_, ?_⟩
  · have hunwritten := hreported.unwritten
    rw [hget ptr] at hunwritten
    simp at hunwritten
  · rw [hget ptr]
  · rw [hget ptr]
  · rw [hget ptr]
    cases ptr <;> rfl
  · rw [hget ptr]
  · rw [PooledBase.newNothrow, hget none]
    rfl
  · rw [PooledBase.newArrayNothrow, hget none]
    rfl

/-- A memory in which nothing has been written. -/
def blankMemory : Memory where
  block _ := MemBlock.construct 0
  next _ := none
  used := []

/-- A manager with one pool, of blocks of 16 octets, which are all in use. -/
def usedUpManager : MemManager :=
  { MemManager.poolless with
    pools := [{ this := 64, blockSize := 16, increment := 256, totalBlocks := 256, inventory := 0,
                peakUsed := 256, segHead := [4096], blkHead := none, blkTail := none }] }

theorem exhausted_usedUpManager : usedUpManager.Exhausted (fun _ => none) 8 := by
  refine ⟨fun pool hpool => ?_, fun _ => rfl⟩
  obtain rfl := Option.some.inj hpool
  exact ⟨rfl, Or.inr rfl⟩

/-- A request of 8 octets when the pool is used up: the operator returns 16. -/
theorem memBlockGet_failure_pool :
    PooledBase.newNothrow (fun _ => none) usedUpManager blankMemory 8 = 16 :=
  (memBlockGet_failure (fun _ => none) usedUpManager blankMemory none 8 (by decide)
    exhausted_usedUpManager).2.2.2.2.2.1

/-- A request of 20000 octets, for which there is no pool: the guard is written through the NULL pointer,
and the operator returns 16. -/
theorem memBlockGet_failure_custom :
    (usedUpManager.memBlockGetOr (fun _ => none) blankMemory none 20000).guarded = [none] ∧
      PooledBase.newNothrow (fun _ => none) usedUpManager blankMemory 20000 ≠ 0 ∧
      ¬ usedUpManager.FailureReported (fun _ => none) blankMemory none 20000 := by
  refine ⟨rfl, by decide, fun h => ?_⟩
  exact absurd h.nothrow (by decide)

end CodePort
