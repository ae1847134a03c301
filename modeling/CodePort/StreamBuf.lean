/-
The stream buffer class.

`StreamBuf` takes the memory of a stream from the memory manager, one block at a time, and gives
every block back when the stream is cleared.  The memory manager stands as a source that answers
every request as it likes, so the results hold whatever the sizes of its blocks are.

Main definitions:

* `CodePort.MemSource` — the answers of `MemManager::MemBlockGet`;
* `CodePort.StreamBuf` — a stream over memory blocks, with `transferBlocksFrom`;
* `CodePort.StreamOp` — a call on a family of streams, and what it does (`streamStep`) and what
  it does to sequences with a cursor (`flatStep`).

Main results:

* `CodePort.StreamBuf.represents_construct` — a new stream is an empty sequence;
* `CodePort.StreamBuf.represents_transferBlocksFrom` — **transferring the blocks moves the
  sequence**;
* `CodePort.streamStep_each` — what every call keeps on one stream, it keeps on a family;
* `CodePort.streamStep_simulates` — every call answers like the same call on sequences;
* `CodePort.streamBuf_run_refines_flat` — **so does every series of calls**.
-/

import CodePort.StreamFlat
import CodePort.StepSystem

set_option relaxedAutoImplicit false
set_option autoImplicit false

namespace CodePort

/-! ### The memory manager -/

/-- What `MemManager::MemBlockGet` answers to each call: no block, or one that is large enough. -/
structure MemSource where
  /-- The answer to a call, by its number and the requested size. -/
  answer : ℕ → ℕ → Option (List UInt8)
  size_le : ∀ {i n block}, answer i n = some block → n ≤ block.length
  /-- The number of calls so far. -/
  calls : ℕ

/-- Every call is answered with a block. -/
def MemSource.Plentiful (m : MemSource) : Prop := ∀ i n, m.answer i n ≠ none

/-- `MemManager::MemBlockGet`. -/
def MemSource.memBlockGet (m : MemSource) (size : ℕ) : Option (List UInt8) × MemSource :=
  (m.answer m.calls size, { m with calls := m.calls + 1 })

/-! ### The block store of a stream buffer -/

/-- The minimum size of a stream block. -/
def minStreamBlockSize : ℕ := 256

/-- The vector of memory blocks of a stream buffer, and where it gets them. -/
structure StrmBufMem where
  vecBlocks : List (List UInt8)
  mem : MemSource

namespace StrmBufMem

/-- Free any allocated storage. -/
def memoryFree (b : StrmBufMem) : StrmBufMem := { b with vecBlocks := [] }

/-- Add memory to the stream. -/
def memoryAdd (b : StrmBufMem) (size : ℕ) : Bool × StrmBufMem :=
  match b.mem.memBlockGet (max minStreamBlockSize size) with
  | (some block, mem) => (true, ⟨b.vecBlocks ++ [block], mem⟩)
  | (none, mem) => (false, { b with mem := mem })

/-- Returns true if the block is valid. -/
def validBlock (b : StrmBufMem) (block : ℕ) : Bool := decide (block < b.vecBlocks.length)

/-- The specified memory block size. -/
def blockSize (b : StrmBufMem) (block : ℕ) : ℕ := (b.vecBlocks[block]?.getD []).length

instance : BlockStore StrmBufMem where
  memoryFree := memoryFree
  memoryAdd := memoryAdd
  memoryChk b := decide (0 < b.vecBlocks.length)
  validBlock := validBlock
  blockMemPtr b block := b.vecBlocks[block]?
  blockMemWr b block offset d :=
    { b with vecBlocks := b.vecBlocks.modify block (BlockList.overwrite · offset d) }
  blockSize := blockSize

theorem modify_eq_set {b : StrmBufMem} {k : ℕ} (hk : k < b.vecBlocks.length)
    (f : List UInt8 → List UInt8) :
    b.vecBlocks.modify k f = b.vecBlocks.set k (f b.vecBlocks[k]) := by
  rw [List.modify_eq_set_getElem?, List.getElem?_eq_getElem hk]
  rfl

/-- The memory blocks of a stream buffer obey the laws of a block store. -/
instance : LawfulBlockStore StrmBufMem where
  blocks := vecBlocks
  Ready b := b.mem.Plentiful ∧ ∀ x ∈ b.vecBlocks, 0 < x.length
  length_pos h := h.2
  memoryChk_eq {b} _ := by
    simp only [BlockStore.memoryChk, List.length_pos_iff]
  validBlock_eq _ _ := rfl
  blockSize_eq {b} _ k hk := by
    simp only [BlockStore.blockSize, blockSize, List.getElem?_eq_getElem hk, Option.getD_some]
  blockMemPtr_eq {b} _ k hk := ⟨[], by
    simp only [BlockStore.blockMemPtr, List.getElem?_eq_getElem hk, List.append_nil]⟩
  ready_memWr {b} h k off d hk hd := by
    refine ⟨h.1, ?_⟩
    simp only [BlockStore.blockMemWr]
    rw [modify_eq_set hk]
    intro x hx
    rcases List.mem_or_eq_of_mem_set hx with hx | rfl
    · exact h.2 x hx
    · rw [BlockList.length_overwrite_of_le hd]
      exact h.2 _ (List.getElem_mem hk)
  blocks_memWr {b} _ k off d hk _ := modify_eq_set hk _
  memoryAdd_eq {b} h n hn := by
    obtain ⟨block, hblock⟩ := Option.ne_none_iff_exists'.1
      (h.1 b.mem.calls (max minStreamBlockSize n))
    refine ⟨⟨b.vecBlocks ++ [block], (b.mem.memBlockGet n).2⟩, [block], ?_, ⟨h.1, ?_⟩, by simp,
      by simpa using hn, rfl⟩
    · simp only [BlockStore.memoryAdd, memoryAdd, MemSource.memBlockGet, hblock]
    · intro x hx
      rcases List.mem_append.1 hx with hx | hx
      · exact h.2 x hx
      · have hsize := b.mem.size_le hblock
        have hmin : 0 < max minStreamBlockSize n := lt_max_of_lt_left (Nat.succ_pos _)
        rw [List.mem_singleton.1 hx]
        exact hmin.trans_le hsize
  ready_memoryFree h := ⟨h.1, by simp [BlockStore.memoryFree, memoryFree]⟩
  blocks_memoryFree _ := rfl

end StrmBufMem

/-! ### Stream buffers -/

/-- The stream buffer class. -/
abbrev StreamBuf := StreamBase StrmBufMem

namespace StreamBuf

open StreamBase

/-- The constructor. -/
def construct (mem : MemSource) (size : ℕ) : StreamBuf :=
  { store := (StrmBufMem.memoryAdd ⟨[], mem⟩ size).2
    curBlock := 0, curPos := 0, lastBlock := 0, lastPos := 0 }

/-- Transfer memory blocks from `src`.  The result is the stream and what is left of `src`. -/
def transferBlocksFrom (s src : StreamBuf) : StreamBuf × StreamBuf :=
  let s' := s.clear
  ({ store := { s'.store with vecBlocks := src.store.vecBlocks }
     curBlock := src.curBlock, curPos := src.curPos
     lastBlock := src.lastBlock, lastPos := src.lastPos },
   -- empty src vector otherwise src.Clear() will deallocate the blocks
   ({ src with store := { src.store with vecBlocks := [] } } : StreamBuf).clear)

/-- A stream without blocks is the empty sequence without storage. -/
theorem represents_of_vecBlocks_nil {s : StreamBuf} (hb : s.store.vecBlocks = [])
    (hmem : s.store.mem.Plentiful)
    (hpos : s.curBlock = 0 ∧ s.curPos = 0 ∧ s.lastBlock = 0 ∧ s.lastPos = 0) :
    s.Represents (FlatStream.empty false) := by
  have hblks : s.blks = [] := hb
  obtain ⟨hcb, hcp, hlb, hlp⟩ := hpos
  refine ⟨?_, by simp [octets, hblks], by simp [pos, hcb, hcp, sizeBefore], by simp [hblks]⟩
  exact
    { ready := ⟨hmem, by simp [hb]⟩
      unbacked := fun _ => ⟨hlb, hlp⟩
      lastBlock_lt := fun hn => absurd hblks hn
      lastPos_le := by omega
      lastPos_pos := by omega
      curBlock_le := by omega
      curPos_le := by omega
      curPos_le_lastPos := by omega }

/-- **A new stream is an empty sequence that owns storage.** -/
theorem represents_construct {mem : MemSource} (hmem : mem.Plentiful) (size : ℕ) :
    (construct mem size).Represents (FlatStream.empty true) := by
  obtain ⟨block, hblock⟩ := Option.ne_none_iff_exists'.1
    (hmem mem.calls (max minStreamBlockSize size))
  have hst : (construct mem size).store = ⟨[block], { mem with calls := mem.calls + 1 }⟩ := by
    simp only [construct, StrmBufMem.memoryAdd, MemSource.memBlockGet, hblock, List.nil_append]
  have hblks : (construct mem size).blks = [block] := congrArg StrmBufMem.vecBlocks hst
  have hsize := mem.size_le hblock
  have hmin : 0 < max minStreamBlockSize size := lt_max_of_lt_left (Nat.succ_pos _)
  refine ⟨?_, ?_, by simp [pos, construct, sizeBefore], by simp [hblks]⟩
  · exact
      { ready := by
          rw [hst]
          exact ⟨hmem, fun x hx => by rw [List.mem_singleton.1 hx]; omega⟩
        unbacked := fun _ => ⟨rfl, rfl⟩
        lastBlock_lt := fun _ => by rw [hblks]; exact Nat.one_pos
        lastPos_le := Nat.zero_le _
        lastPos_pos := fun h => absurd h (lt_irrefl _)
        curBlock_le := le_rfl
        curPos_le := fun _ => Nat.zero_le _
        curPos_le_lastPos := fun _ => le_rfl }
  · simp [octets, lenGet, construct, sizeBefore]

/-- The members of a stream that the memory manager's answers do not touch. -/
theorem represents_congr {s t : StreamBuf} {f : FlatStream UInt8} (h : s.Represents f)
    (hb : t.store.vecBlocks = s.store.vecBlocks) (hmem : t.store.mem.Plentiful)
    (hpos : t.curBlock = s.curBlock ∧ t.curPos = s.curPos ∧ t.lastBlock = s.lastBlock ∧
      t.lastPos = s.lastPos) : t.Represents f := by
  obtain ⟨hcb, hcp, hlb, hlp⟩ := hpos
  have hsize : ∀ k, BlockStore.blockSize t.store k = BlockStore.blockSize s.store k := by
    intro k
    simp only [BlockStore.blockSize, StrmBufMem.blockSize, hb]
  have hbefore : ∀ k, sizeBefore t.store k = sizeBefore s.store k := by
    intro k
    simp only [sizeBefore, funext hsize]
  have hblks : t.blks = s.blks := hb
  refine ⟨?_, ?_, ?_, ?_⟩
  · exact
      { ready := ⟨hmem, by rw [hb]; exact h.wf.ready.2⟩
        unbacked := by rw [hblks, hlb, hlp]; exact h.wf.unbacked
        lastBlock_lt := by rw [hblks, hlb]; exact h.wf.lastBlock_lt
        lastPos_le := by rw [hlb, hlp, hsize]; exact h.wf.lastPos_le
        lastPos_pos := by rw [hlb, hlp]; exact h.wf.lastPos_pos
        curBlock_le := by rw [hcb, hlb]; exact h.wf.curBlock_le
        curPos_le := by rw [hcb, hlb, hcp, hsize]; exact h.wf.curPos_le
        curPos_le_lastPos := by rw [hcb, hlb, hcp, hlp]; exact h.wf.curPos_le_lastPos }
  · rw [← h.octets_eq, octets, octets, lenGet, lenGet, hblks, hbefore, hlb, hlp]
  · rw [← h.pos_eq, pos, pos, hbefore, hcb, hcp]
  · rw [hblks]; exact h.backed_iff

/-- **`TransferBlocksFrom` moves octets and position**, and leaves the source empty. -/
theorem represents_transferBlocksFrom {s src : StreamBuf} {f g : FlatStream UInt8}
    (h : s.Represents f) (hsrc : src.Represents g) :
    (s.transferBlocksFrom src).1.Represents g ∧
      (s.transferBlocksFrom src).2.Represents (FlatStream.empty false) := by
  constructor
  · exact represents_congr hsrc rfl h.wf.ready.1 ⟨rfl, rfl, rfl, rfl⟩
  · exact represents_of_vecBlocks_nil rfl hsrc.wf.ready.1 ⟨rfl, rfl, rfl, rfl⟩

end StreamBuf

/-! ### Series of calls -/

/-- A call on one stream of a family, or on two different ones. -/
inductive StreamOp (ι : Type)
  | arrayWr (i : ι) (buf : List UInt8)
  | arrayRd (i : ι) (len : ℕ)
  | seek (i : ι) (p : ℕ)
  | clear (i : ι)
  | transferBlocksFrom (i src : ι) (hne : i ≠ src)

/-- What a call returns. -/
inductive StreamAnswer
  /-- `ArrayWr` returns the number of octets it stored. -/
  | written (n : ℕ)
  /-- `ArrayRd` returns the number of octets it copied to the array, which are these. -/
  | octets (d : List UInt8)
  /-- `Seek` returns whether it found the position. -/
  | found (b : Bool)
  /-- The other calls return nothing. -/
  | done
  deriving DecidableEq

variable {ι : Type} [DecidableEq ι]

/-- A call on a family of stream buffers.  It is refused when it never returns. -/
def streamStep (w : ι → StreamBuf) : StreamOp ι → Option (StreamAnswer × (ι → StreamBuf))
  | .arrayWr i buf =>
      ((w i).arrayWr buf).map fun r => (.written r.1, Function.update w i r.2)
  | .arrayRd i len =>
      some (.octets ((w i).arrayRd len).1, Function.update w i ((w i).arrayRd len).2)
  | .seek i p => some (.found ((w i).seek p).1, Function.update w i ((w i).seek p).2)
  | .clear i => some (.done, Function.update w i (w i).clear)
  | .transferBlocksFrom i src _ =>
      some (.done, Function.update (Function.update w i ((w i).transferBlocksFrom (w src)).1)
        src ((w i).transferBlocksFrom (w src)).2)

/-- The same call on a family of sequences with a cursor. -/
def flatStep (w : ι → FlatStream UInt8) : StreamOp ι → StreamAnswer × (ι → FlatStream UInt8)
  | .arrayWr i buf => (.written buf.length, Function.update w i ((w i).write buf))
  | .arrayRd i len => (.octets ((w i).read len).1, Function.update w i ((w i).read len).2)
  | .seek i p => (.found ((w i).seek p).1, Function.update w i ((w i).seek p).2)
  | .clear i => (.done, Function.update w i (FlatStream.empty false))
  | .transferBlocksFrom i src _ =>
      (.done, Function.update (Function.update w i (w src)) src (FlatStream.empty false))

/-- Families stay related when related members replace one of them. -/
theorem represents_update {w : ι → StreamBuf} {f : ι → FlatStream UInt8}
    (h : ∀ i, (w i).Represents (f i)) {i : ι} {s : StreamBuf} {g : FlatStream UInt8}
    (hs : s.Represents g) :
    ∀ j, (Function.update w i s j).Represents (Function.update f i g j) := by
  intro j
  by_cases hj : j = i
  · subst hj
    rw [Function.update_self, Function.update_self]
    exact hs
  · rw [Function.update_of_ne hj, Function.update_of_ne hj]
    exact h j

/-- **Every call answers like the same call on sequences**, and keeps the families related. -/
theorem streamStep_simulates {w : ι → StreamBuf} {f : ι → FlatStream UInt8} (o : StreamOp ι)
    (h : ∀ i, (w i).Represents (f i)) :
    ∃ w', streamStep w o = some ((flatStep f o).1, w') ∧
      ∀ i, (w' i).Represents ((flatStep f o).2 i) := by
  cases o with
  | arrayWr i buf =>
      obtain ⟨s', hrun, hs', -⟩ := (h i).arrayWr buf
      exact ⟨_, by rw [streamStep, hrun]; rfl, represents_update h hs'⟩
  | arrayRd i len =>
      obtain ⟨hd, hs'⟩ := (h i).arrayRd len
      exact ⟨_, by rw [streamStep, hd]; rfl, represents_update h hs'⟩
  | seek i p =>
      obtain ⟨hb, hs'⟩ := (h i).seek p
      exact ⟨_, by rw [streamStep, hb]; rfl, represents_update h hs'⟩
  | clear i => exact ⟨_, rfl, represents_update h (h i).clear⟩
  | transferBlocksFrom i src hne =>
      obtain ⟨hs', hsrc'⟩ := StreamBuf.represents_transferBlocksFrom (h i) (h src)
      exact ⟨_, rfl, represents_update (represents_update h hs') hsrc'⟩

/-- **What every call keeps on the streams that it is about, it keeps on all streams of a family.** -/
theorem streamStep_each {I : StreamBuf → Prop}
    (hwr : ∀ {s : StreamBuf} {buf : List UInt8} {r : ℕ × StreamBuf}, I s → s.arrayWr buf = some r → I r.2)
    (hrd : ∀ {s : StreamBuf} (len : ℕ), I s → I (s.arrayRd len).2)
    (hseek : ∀ {s : StreamBuf} (p : ℕ), I s → I (s.seek p).2)
    (hclear : ∀ {s : StreamBuf}, I s → I s.clear)
    (htransfer : ∀ {s src : StreamBuf}, I s → I src →
      I (s.transferBlocksFrom src).1 ∧ I (s.transferBlocksFrom src).2)
    {w w' : ι → StreamBuf} {o : StreamOp ι} {a : StreamAnswer}
    (hstep : streamStep w o = some (a, w')) (h : ∀ i, I (w i)) : ∀ j, I (w' j) := by
  have hupdate : ∀ {f : ι → StreamBuf} (i : ι) {s : StreamBuf}, (∀ i, I (f i)) → I s →
      ∀ j, I (Function.update f i s j) := by
    intro f i s hf hs j
    by_cases hj : j = i
    · subst hj
      rw [Function.update_self]
      exact hs
    · rw [Function.update_of_ne hj]
      exact hf j
  cases o with
  | arrayWr i buf =>
      obtain ⟨r, hr, heq⟩ := Option.map_eq_some_iff.1 hstep
      obtain ⟨-, rfl⟩ := Prod.mk.inj heq
      exact hupdate i h (hwr (h i) hr)
  | arrayRd i len =>
      obtain ⟨-, rfl⟩ := Prod.mk.inj (Option.some.inj hstep)
      exact hupdate i h (hrd len (h i))
  | seek i p =>
      obtain ⟨-, rfl⟩ := Prod.mk.inj (Option.some.inj hstep)
      exact hupdate i h (hseek p (h i))
  | clear i =>
      obtain ⟨-, rfl⟩ := Prod.mk.inj (Option.some.inj hstep)
      exact hupdate i h (hclear (h i))
  | transferBlocksFrom i src hne =>
      obtain ⟨-, rfl⟩ := Prod.mk.inj (Option.some.inj hstep)
      obtain ⟨hdst, hsrc⟩ := htransfer (h i) (h src)
      exact hupdate src (hupdate i h hdst) hsrc

/-- The new streams of a family. -/
def newStreams (mem : ι → MemSource) (size : ι → ℕ) (i : ι) : StreamBuf :=
  StreamBuf.construct (mem i) (size i)

/-- **A stream buffer is a sequence with a cursor**: every series of calls on new streams returns,
each call with the answer it has on sequences, and afterwards `Pos()`, `LenGet()` and `Readable()`
are the cursor, the length, and whether the cursor lies before the end. -/
theorem streamBuf_run_refines_flat (mem : ι → MemSource) (hmem : ∀ i, (mem i).Plentiful)
    (size : ι → ℕ) (ops : List (StreamOp ι)) :
    ∃ (answers : List StreamAnswer) (w : ι → StreamBuf) (f : ι → FlatStream UInt8),
      StepSystem.run streamStep ops (newStreams mem size) = some (answers, w) ∧
      StepSystem.run (fun f o => some (flatStep f o)) ops (fun _ => FlatStream.empty true) =
        some (answers, f) ∧
      ∀ i, (w i).pos = (f i).pos ∧ (w i).lenGet = (f i).content.length ∧
        (w i).readable = decide ((f i).pos < (f i).content.length) := by
  have h₀ : ∀ i, (newStreams mem size i).Represents (FlatStream.empty true) :=
    fun i => StreamBuf.represents_construct (hmem i) (size i)
  obtain ⟨answers, w, f, hw, hf, hR⟩ := StepSystem.run_simulates
    (R := fun (w : ι → StreamBuf) (f : ι → FlatStream UInt8) => ∀ i, (w i).Represents (f i))
    (fun o h => streamStep_simulates o h) ops h₀
  exact ⟨answers, w, f, hw, hf, fun i => ⟨(hR i).pos_eq, (hR i).lenGet_eq, (hR i).readable_eq⟩⟩

/-- A memory manager whose blocks are one octet larger than requested. -/
def sampleMem : MemSource where
  answer _ n := some (List.replicate (n + 1) 0)
  size_le h := by
    obtain rfl := Option.some.inj h
    simp
  calls := 0

theorem plentiful_sampleMem : sampleMem.Plentiful := fun _ _ => by simp [sampleMem]

/-- Two streams; one is written, transferred, and read back in part. -/
theorem streamBuf_run_refines_flat_two :
    (∀ i : Bool, ((fun _ => sampleMem) i).Plentiful) ∧
    ∃ (answers : List StreamAnswer) (w : Bool → StreamBuf) (f : Bool → FlatStream UInt8),
      StepSystem.run streamStep
        [.arrayWr true [1, 2, 3], .transferBlocksFrom false true (by decide), .seek false 1,
          .arrayRd false 5] (newStreams (fun _ => sampleMem) fun _ => 0) = some (answers, w) ∧
      StepSystem.run (fun f o => some (flatStep f o))
        [.arrayWr true [1, 2, 3], .transferBlocksFrom false true (by decide), .seek false 1,
          .arrayRd false 5] (fun _ => FlatStream.empty true) = some (answers, f) ∧
      ∀ i, (w i).pos = (f i).pos ∧ (w i).lenGet = (f i).content.length ∧
        (w i).readable = decide ((f i).pos < (f i).content.length) :=
  ⟨fun _ => plentiful_sampleMem,
    streamBuf_run_refines_flat (fun _ => sampleMem) (fun _ => plentiful_sampleMem) (fun _ => 0) _⟩

end CodePort
