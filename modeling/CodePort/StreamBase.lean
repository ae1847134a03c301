/-
The stream base class.

`StreamBase` keeps a sequence of octets in a list of memory blocks and two positions in it, the
cursor and the end of the written data, each as a block number and an offset inside the block.
Where the blocks come from is left to the classes derived from it, through six virtual functions;
here those are the class `CodePort.BlockStore`, and `StreamBase` is generic in it.

An index that runs over blocks is a natural number: a block holds at least one octet, so the
number of blocks stays far below the range of the counters of the source.

Main definitions:

* `CodePort.BlockStore` — the virtual functions `MemoryFree` … `BlockSize`;
* `CodePort.StreamBase` — the four position members over a block store;
* `CodePort.StreamBase.arrayRd`, `arrayWr`, `seek`, `clear`, `pos`, `lenGet`, `readable` — the
  member functions of that name.

`ArrayRd` is split in two: the loop computes which pieces of which blocks `memcpy` copies
(`CodePort.Chunk`), and the octets are read from the store afterwards; the loop changes no block.
`ArrayWr` may allocate without end when a class hands out useless blocks, so its loop is
a fixed point in `Option`, and `none` stands for a call that never returns.
-/

import Mathlib.Data.List.Basic
import Mathlib.Data.List.TakeDrop
import Mathlib.Tactic.Linarith

set_option relaxedAutoImplicit false
set_option autoImplicit false

namespace CodePort

/-! ### The virtual functions -/

/-- The memory functions that a class derived from `StreamBase` overrides. -/
class BlockStore (β : Type) where
  /-- Free any allocated storage. -/
  memoryFree : β → β
  /-- Add memory to the stream. -/
  memoryAdd : β → ℕ → Bool × β
  /-- The stream has some memory. -/
  memoryChk : β → Bool
  /-- The block is valid. -/
  validBlock : β → ℕ → Bool
  /-- The memory from the block's pointer on; `none` is the NULL pointer. -/
  blockMemPtr : β → ℕ → Option (List UInt8)
  /-- `memcpy` to an offset from the block's pointer. -/
  blockMemWr : β → ℕ → ℕ → List UInt8 → β
  /-- The memory block size. -/
  blockSize : β → ℕ → ℕ

open BlockStore

/-- The position members of a stream over the block store `β`. -/
structure StreamBase (β : Type) where
  /-- The derived class's storage. -/
  store : β
  /-- Index of the current block. -/
  curBlock : ℕ
  /-- Position in the current block. -/
  curPos : ℕ
  /-- Index of the last block. -/
  lastBlock : ℕ
  /-- Last used position in the last block. -/
  lastPos : ℕ

/-- One `memcpy` of `ArrayRd`: `size` octets from `offset` in block `block`. -/
structure Chunk where
  block : ℕ
  offset : ℕ
  size : ℕ
  deriving DecidableEq, Repr

namespace StreamBase

variable {β : Type} [BlockStore β]

/-- True when at least one character can be read. -/
def readable (s : StreamBase β) : Bool :=
  memoryChk s.store &&
    (decide (s.curBlock < s.lastBlock) || decide (s.curPos < s.lastPos))

/-- The sizes of the blocks before block `n`, added up. -/
def sizeBefore (b : β) (n : ℕ) : ℕ := ((List.range n).map (blockSize b)).sum

theorem sizeBefore_succ (b : β) (n : ℕ) :
    sizeBefore b (n + 1) = sizeBefore b n + blockSize b n := by
  rw [sizeBefore, List.range_succ, List.map_append, List.sum_append]
  simp [sizeBefore]

theorem sizeBefore_mono (b : β) {m n : ℕ} (h : m ≤ n) : sizeBefore b m ≤ sizeBefore b n := by
  induction n, h using Nat.le_induction with
  | base => exact le_rfl
  | succ n _ ih => rw [sizeBefore_succ]; omega

/-- The current stream position. -/
def pos (s : StreamBase β) : ℕ := sizeBefore s.store s.curBlock + s.curPos

/-- The stream data size. -/
def lenGet (s : StreamBase β) : ℕ := sizeBefore s.store s.lastBlock + s.lastPos

/-! ### Reading -/

/-- How much can be read from the current block. -/
def readSize (s : StreamBase β) : ℕ :=
  if s.curBlock < s.lastBlock then blockSize s.store s.curBlock - s.curPos
  else s.lastPos - s.curPos

/-- The loop of `ArrayRd`: the pieces it copies and the position it stops at. -/
def arrayRdLoop (s : StreamBase β) (leftToRead : ℕ) : List Chunk × StreamBase β :=
  if leftToRead = 0 then ([], s)
  else if 0 < s.readSize then
    match blockMemPtr s.store s.curBlock with
    | none => ([], s)
    | some _ =>
        let n := min s.readSize leftToRead
        let r := arrayRdLoop { s with curPos := s.curPos + n } (leftToRead - n)
        (⟨s.curBlock, s.curPos, n⟩ :: r.1, r.2)
  else if s.curBlock < s.lastBlock then
    -- index to next block
    arrayRdLoop { s with curBlock := s.curBlock + 1, curPos := 0 } leftToRead
  else
    -- no more data available to read so exit loop
    ([], s)
termination_by (leftToRead, s.lastBlock - s.curBlock)
decreasing_by
  · exact Prod.Lex.left _ _ (by omega)
  · exact Prod.Lex.right _ (by omega)

/-- The octets one `memcpy` of `ArrayRd` copies.  What lies behind the block's memory is unknown
and stands as zero. -/
def chunkOctets (b : β) (c : Chunk) : List UInt8 :=
  match blockMemPtr b c.block with
  | none => []
  | some mem => (mem.drop c.offset).takeD c.size 0

/-- The pieces `ArrayRd` copies for a request of `len` octets, and the stream afterwards. -/
def arrayRdChunks (s : StreamBase β) (len : ℕ) : List Chunk × StreamBase β :=
  if len = 0 then ([], s)
  else if s.readable then s.arrayRdLoop len
  else ([], s)

/-- Read up to `len` octets from the stream into an array.  The result is what the array holds up
to the returned count. -/
def arrayRd (s : StreamBase β) (len : ℕ) : List UInt8 × StreamBase β :=
  ((s.arrayRdChunks len).1.flatMap (chunkOctets s.store), (s.arrayRdChunks len).2)

/-- The stream over another store. -/
def withStore (s : StreamBase β) (c : β) : StreamBase β := { s with store := c }

/-- What the loop of `ArrayRd` copies depends on the sizes of the blocks only, not on what they
hold. -/
theorem arrayRdLoop_congr {c : β} (s : StreamBase β) (left : ℕ)
    (hsize : blockSize c = blockSize s.store)
    (hptr : ∀ k, (blockMemPtr c k).isSome = (blockMemPtr s.store k).isSome) :
    (s.withStore c).arrayRdLoop left =
      ((s.arrayRdLoop left).1, (s.arrayRdLoop left).2.withStore c) := by
  have hread : (s.withStore c).readSize = s.readSize := by
    simp only [readSize, withStore, hsize]
  induction s, left using arrayRdLoop.induct with
  | case1 s => rw [arrayRdLoop, if_pos rfl, arrayRdLoop, if_pos rfl]
  | case2 s left h0 hrs hnull =>
      have hc : blockMemPtr c s.curBlock = none := by
        have := hptr s.curBlock
        rwa [hnull, Option.isSome_none, Option.isSome_eq_false_iff,
          Option.isNone_iff_eq_none] at this
      rw [arrayRdLoop.eq_1 s, if_neg h0, if_pos hrs, hnull, arrayRdLoop.eq_1 (s.withStore c),
        if_neg h0, hread, if_pos hrs]
      simp only [withStore, hc]
  | case3 s left h0 hrs mem hmem n ih =>
      obtain ⟨mem', hmem'⟩ : ∃ mem', blockMemPtr c s.curBlock = some mem' := by
        have := hptr s.curBlock
        rwa [hmem, Option.isSome_some, Option.isSome_iff_exists] at this
      have hloop := ih hsize hptr (by simp only [readSize, withStore, hsize])
      rw [arrayRdLoop.eq_1 s, if_neg h0, if_pos hrs, hmem, arrayRdLoop.eq_1 (s.withStore c),
        if_neg h0, hread, if_pos hrs]
      simp only [withStore, hmem']
      exact congrArg (fun r => (Chunk.mk s.curBlock s.curPos n :: r.1, r.2)) hloop
  | case4 s left h0 hrs hlt ih =>
      have hloop := ih hsize hptr (by simp only [readSize, withStore, hsize])
      rw [arrayRdLoop.eq_1 s, if_neg h0, if_neg hrs, if_pos hlt, arrayRdLoop.eq_1 (s.withStore c),
        if_neg h0, hread, if_neg hrs]
      exact (if_pos hlt).trans hloop
  | case5 s left h0 hrs hlt =>
      rw [arrayRdLoop.eq_1 s, if_neg h0, if_neg hrs, if_neg hlt, arrayRdLoop.eq_1 (s.withStore c),
        if_neg h0, hread, if_neg hrs]
      exact if_neg hlt

/-- **Reading does not see what lies behind the memory of a block**: a store whose blocks are
filled up with zeros reads the same. -/
theorem arrayRd_congr {s : StreamBase β} {c : β} (len : ℕ)
    (hchk : memoryChk c = memoryChk s.store) (hsize : blockSize c = blockSize s.store)
    (hptr : ∀ k, (blockMemPtr c k).isSome = (blockMemPtr s.store k).isSome)
    (hoctets : ∀ chunk, chunkOctets c chunk = chunkOctets s.store chunk) :
    (s.withStore c).arrayRd len = ((s.arrayRd len).1, (s.arrayRd len).2.withStore c) := by
  have hread : (s.withStore c).readable = s.readable := by
    rw [readable, readable]
    exact congrArg (· && _) hchk
  have hchunks : (s.withStore c).arrayRdChunks len =
      ((s.arrayRdChunks len).1, (s.arrayRdChunks len).2.withStore c) := by
    simp only [arrayRdChunks, hread]
    split_ifs
    · rfl
    · exact arrayRdLoop_congr s len hsize hptr
    · rfl
  rw [arrayRd, arrayRd, hchunks]
  simp only
  rw [show chunkOctets (s.withStore c).store = chunkOctets s.store from funext hoctets]

/-! ### Writing -/

/-- The loop of `ArrayWr`, which stores `buf` from `numWritten` on. -/
def arrayWrLoop (buf : List UInt8) (s : StreamBase β) (numWritten leftToWrite : ℕ) :
    Option (ℕ × StreamBase β) :=
  if leftToWrite = 0 then some (numWritten, s)
  else if s.curPos < blockSize s.store s.curBlock then
    let n := min (blockSize s.store s.curBlock - s.curPos) leftToWrite
    match blockMemPtr s.store s.curBlock with
    | none => some (numWritten, s)
    | some _ =>
        { s with
          store := blockMemWr s.store s.curBlock s.curPos ((buf.drop numWritten).take n)
          curPos := s.curPos + n } |>.arrayWrLoop buf (numWritten + n) (leftToWrite - n)
  else if validBlock s.store (s.curBlock + 1) then
    -- index to next block position
    { s with curBlock := s.curBlock + 1, curPos := 0 } |>.arrayWrLoop buf numWritten leftToWrite
  else
    match memoryAdd s.store leftToWrite with
    | (true, store) =>
        { s with store := store, curBlock := s.curBlock + 1, curPos := 0 }
          |>.arrayWrLoop buf numWritten leftToWrite
    | (false, store) =>
        -- abort if failed to acquire a block
        some (numWritten, { s with store := store, curBlock := s.curBlock + 1, curPos := 0 })
partial_fixpoint

/-- The end of the data follows a cursor that has passed it. -/
def adjustLast (s : StreamBase β) : StreamBase β :=
  if s.lastBlock < s.curBlock then { s with lastBlock := s.curBlock, lastPos := s.curPos }
  else if s.lastBlock = s.curBlock then
    if s.lastPos < s.curPos then { s with lastPos := s.curPos } else s
  else s

/-- Write the octets of an array to the stream.  The result is the returned count. -/
def arrayWr (s : StreamBase β) (buf : List UInt8) : Option (ℕ × StreamBase β) :=
  if buf.length = 0 then some (0, s)
  else
    -- make sure at least one block is allocated
    let m := if memoryChk s.store then (true, s.store) else memoryAdd s.store buf.length
    if m.1 then do
      let r ← arrayWrLoop buf { s with store := m.2 } 0 buf.length
      pure (r.1, r.2.adjustLast)
    else some (0, { s with store := m.2 })

/-- A property of the store that block writes and new blocks keep is kept by the write loop. -/
theorem arrayWrLoop_store {Q : β → Prop} (hwr : ∀ b k off d, Q b → Q (blockMemWr b k off d))
    (hadd : ∀ b n, Q b → Q (memoryAdd b n).2) {buf : List UInt8} {s : StreamBase β}
    {nw left : ℕ} {r : ℕ × StreamBase β} (hrun : arrayWrLoop buf s nw left = some r)
    (hs : Q s.store) : Q r.2.store := by
  refine arrayWrLoop.partial_correctness buf (fun s _ _ r => Q s.store → Q r.2.store) ?_ s nw left
    r hrun hs
  intro loop ih s nw left r hrun hs
  split_ifs at hrun with h0 hroom hvalid
  · obtain rfl := Option.some_inj.1 hrun
    exact hs
  · cases hmem : blockMemPtr s.store s.curBlock with
    | none =>
        rw [hmem] at hrun
        obtain rfl := Option.some_inj.1 hrun
        exact hs
    | some mem =>
        rw [hmem] at hrun
        exact ih _ _ _ _ hrun (hwr _ _ _ _ hs)
  · exact ih _ _ _ _ hrun hs
  · have hq := hadd s.store left hs
    rcases hm : memoryAdd s.store left with ⟨ok, store⟩
    rw [hm] at hrun hq
    cases ok with
    | true => exact ih _ _ _ _ hrun hq
    | false =>
        obtain rfl := Option.some_inj.1 hrun
        exact hq

omit [BlockStore β] in
@[simp] theorem store_adjustLast (s : StreamBase β) : s.adjustLast.store = s.store := by
  rw [adjustLast]
  split_ifs <;> rfl

/-- **A property of the store that block writes and new blocks keep is kept by `ArrayWr`.** -/
theorem arrayWr_store {Q : β → Prop} (hwr : ∀ b k off d, Q b → Q (blockMemWr b k off d))
    (hadd : ∀ b n, Q b → Q (memoryAdd b n).2) {buf : List UInt8} {s : StreamBase β}
    {r : ℕ × StreamBase β} (hrun : s.arrayWr buf = some r) (hs : Q s.store) : Q r.2.store := by
  rw [arrayWr] at hrun
  split at hrun
  · obtain rfl := Option.some_inj.1 hrun
    exact hs
  · -- the store on which the loop starts
    set m := if memoryChk s.store then (true, s.store) else memoryAdd s.store buf.length with hm
    have hq : Q m.2 := by
      rw [hm]
      split
      · exact hs
      · exact hadd _ _ hs
    simp only at hrun
    split at hrun
    · obtain ⟨r', hloop, hr⟩ := Option.bind_eq_some_iff.1 hrun
      obtain rfl := Option.some_inj.1 hr
      rw [store_adjustLast]
      exact arrayWrLoop_store hwr hadd hloop hq
    · obtain rfl := Option.some_inj.1 hrun
      exact hq

/-! ### Moving -/

/-- Clears the stream and seeks to zero. -/
def clear (s : StreamBase β) : StreamBase β :=
  { store := memoryFree s.store, lastBlock := 0, lastPos := 0, curBlock := 0, curPos := 0 }

/-- How many octets of block `i`, which is not behind the last one, belong to the stream. -/
def usedSize (s : StreamBase β) (i : ℕ) : ℕ :=
  if i < s.lastBlock then blockSize s.store i else s.lastPos

/-- The octets up to the end of a block that is not behind the last one. -/
theorem sizeBefore_add_usedSize {s : StreamBase β} {i : ℕ} (hi : i < s.lastBlock) :
    sizeBefore s.store i + s.usedSize i = sizeBefore s.store (i + 1) := by
  rw [usedSize, if_pos hi, sizeBefore_succ]

theorem sizeBefore_add_usedSize_last (s : StreamBase β) :
    sizeBefore s.store s.lastBlock + s.usedSize s.lastBlock = s.lenGet := by
  rw [usedSize, if_neg (lt_irrefl _), lenGet]

/-- The loop of `Seek`, at block `i`, which starts at stream position `loc`. -/
def seekLoop (p : ℕ) (s : StreamBase β) (i loc : ℕ) : Bool × StreamBase β :=
  if validBlock s.store i && decide (i ≤ s.lastBlock) then
    -- check if seek position has been found or overshot
    if p ≤ loc + s.usedSize i then (true, { s with curBlock := i, curPos := p - loc })
    else seekLoop p { s with curBlock := i, curPos := s.usedSize i } (i + 1) (loc + s.usedSize i)
  else (false, s)
termination_by s.lastBlock + 1 - i
decreasing_by simp_all; omega

/-- **`Seek` moves the cursor only.** -/
theorem seekLoop_frame (p : ℕ) (s : StreamBase β) (i loc : ℕ) :
    (seekLoop p s i loc).2.store = s.store ∧ (seekLoop p s i loc).2.lastBlock = s.lastBlock ∧
      (seekLoop p s i loc).2.lastPos = s.lastPos := by
  fun_induction seekLoop p s i loc with
  | case1 s i loc hvalid hp => exact ⟨rfl, rfl, rfl⟩
  | case2 s i loc hvalid hp ih => exact ih
  | case3 s i loc hvalid => exact ⟨rfl, rfl, rfl⟩

/-- Seeks to the position specified. -/
def seek (s : StreamBase β) (p : ℕ) : Bool × StreamBase β := seekLoop p s 0 0

end StreamBase

end CodePort
