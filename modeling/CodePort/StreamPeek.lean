/-
Looking at the next octet of a stream.

A position between two blocks has two cursors: behind the last octet of the first block and in front of
the first octet of the second.  Reads, writes and seeks leave the first one, and only the loop of a read
goes on to the second.  `Peek` looks at the cursor as it stands, so at the edge of a block it reads behind
the memory of the block.

Main definitions:

* `CodePort.StreamBase.peekChunk`, `peek` — the octet that `Peek` reads, and what it returns;
* `CodePort.StreamBase.PeekAgrees` — what `Peek` owes to a read;
* `CodePort.StreamBase.AtEdge` — the cursor stands right behind a block that is not the last one.

Main results:

* `CodePort.StreamBuf.peekAgrees_of_not_atEdge` — inside a block `Peek` agrees with a read;
* `CodePort.peek_agrees_iff` — **after every series of calls, `Peek` agrees with a read if and only if the
  cursor does not stand at the edge of a block**.
-/

import CodePort.StreamPlaced
import CodePort.SerDesNative

set_option relaxedAutoImplicit false
set_option autoImplicit false

namespace CodePort

open BlockStore BlockList

namespace StreamBase

variable {β : Type} [BlockStore β]

/-- The octet that `Peek` reads: the one at the cursor, when something can be read and the address is not
NULL. -/
def peekChunk (s : StreamBase β) : Option Chunk :=
  if s.readable then
    match blockMemPtr s.store s.curBlock with
    | some _ => some ⟨s.curBlock, s.curPos, 1⟩
    | none => none
  else none

/-- Observe the next character available to read.  The members of the stream stay as they are. -/
def peek (s : StreamBase β) : UInt8 :=
  match s.peekChunk with
  | some chunk => (chunkOctets s.store chunk).headD 0
  | none => 0

/-- **What `Peek` owes to a read**: it reads inside the size of an allocated block only, and returns the
octet that a read would return now. -/
structure PeekAgrees (s : StreamBase β) : Prop where
  inside : ∀ chunk ∈ s.peekChunk,
    validBlock s.store chunk.block = true ∧ chunk.offset + chunk.size ≤ blockSize s.store chunk.block
  read_eq : ((readOctet : Extract β UInt8).run s).1 = some s.peek

/-- The cursor stands right behind the last octet of a block that is not the last one. -/
def AtEdge (s : StreamBase β) : Prop :=
  s.curBlock < s.lastBlock ∧ s.curPos = blockSize s.store s.curBlock

/-- What a read of one octet returns. -/
theorem run_readOctet_fst {s : StreamBase β} (h : s.readable = true) :
    ((readOctet : Extract β UInt8).run s).1 =
      ((s.arrayRdLoop 1).1.flatMap (chunkOctets s.store)).head? := by
  show (s.arrayRd 1).1.head? = _
  rw [arrayRd, arrayRdChunks, if_neg Nat.one_ne_zero, if_pos h]

/-- Away from an edge there is something to read in the current block. -/
theorem Placed.readSize_pos {s : StreamBase β} (h : s.Placed) (hread : s.readable = true)
    (hedge : ¬ s.AtEdge) : 0 < s.readSize := by
  have hcur := h.curPos_le_blockSize
  rw [readable, Bool.and_eq_true, Bool.or_eq_true, decide_eq_true_eq, decide_eq_true_eq] at hread
  rw [readSize]
  split_ifs with hlt
  · have hne : s.curPos ≠ blockSize s.store s.curBlock := fun heq => hedge ⟨hlt, heq⟩
    omega
  · rcases hread.2 with hlt' | hpos
    · exact absurd hlt' hlt
    · omega

/-- What can be read from the current block lies in it. -/
theorem Placed.add_readSize_le {s : StreamBase β} (h : s.Placed) :
    s.curPos + s.readSize ≤ blockSize s.store s.curBlock := by
  have hused := usedSize_le h h.curBlock_le
  have hcur := h.curPos_le
  rw [readSize_eq]
  omega

end StreamBase

namespace StreamBuf

open StreamBase

theorem blockSize_of_length_le {b : StrmBufMem} {k : ℕ} (hk : b.vecBlocks.length ≤ k) :
    blockSize b k = 0 := by
  have hnone : b.vecBlocks[k]? = none := List.getElem?_eq_none hk
  simp only [blockSize, StrmBufMem.blockSize, hnone, Option.getD_none, List.length_nil]

/-- **Away from an edge `Peek` agrees with a read**: it reads the octet that the first `memcpy` copies. -/
theorem peekAgrees_of_not_atEdge {s : StreamBuf} (h : s.Placed) (hread : s.readable = true)
    (hedge : ¬ s.AtEdge) : s.PeekAgrees := by
  have hpos := h.readSize_pos hread hedge
  have hinside := h.add_readSize_le
  have hvalid : s.curBlock < s.store.vecBlocks.length := by
    by_contra hge
    rw [blockSize_of_length_le (not_lt.1 hge)] at hinside
    omega
  have hptr : blockMemPtr s.store s.curBlock = some s.store.vecBlocks[s.curBlock] :=
    List.getElem?_eq_getElem hvalid
  have hpeek : s.peekChunk = some ⟨s.curBlock, s.curPos, 1⟩ := by
    rw [peekChunk, if_pos hread, hptr]
  constructor
  · intro chunk hchunk
    rw [hpeek] at hchunk
    obtain rfl := Option.some.inj hchunk
    refine ⟨decide_eq_true hvalid, ?_⟩
    show s.curPos + 1 ≤ blockSize s.store s.curBlock
    omega
  · have hloop : (s.arrayRdLoop 1).1 = [⟨s.curBlock, s.curPos, 1⟩] := by
      rw [arrayRdLoop, if_neg Nat.one_ne_zero, if_pos hpos, hptr, min_eq_right hpos]
      simp only
      rw [arrayRdLoop, if_pos (Nat.sub_self 1)]
    have hoctet : (chunkOctets s.store ⟨s.curBlock, s.curPos, 1⟩).length = 1 := by
      rw [chunkOctets, hptr]
      exact List.takeD_length _ _ _
    obtain ⟨ch, hch⟩ := List.length_eq_one_iff.1 hoctet
    rw [run_readOctet_fst hread, hloop, List.flatMap_singleton, peek, hpeek]
    simp only [hch, List.head?_cons, List.headD_cons]

/-- There is nothing to read behind the last block. -/
theorem arrayRdLoop_of_length_le {s : StreamBuf} {left : ℕ} (h : s.Placed)
    (hcur : s.store.vecBlocks.length ≤ s.curBlock) : (s.arrayRdLoop left).1 = [] := by
  induction s, left using arrayRdLoop.induct with
  | case1 s => rw [arrayRdLoop, if_pos rfl]
  | case2 s left h0 hrs hnull => rw [arrayRdLoop, if_neg h0, if_pos hrs, hnull]
  | case3 s left h0 hrs mem hmem n ih =>
      have hinside := h.add_readSize_le
      rw [blockSize_of_length_le hcur] at hinside
      omega
  | case4 s left h0 hrs hlt ih =>
      rw [arrayRdLoop, if_neg h0, if_neg hrs, if_pos hlt]
      exact ih ⟨h.lastPos_le, hlt, Nat.zero_le _⟩ (Nat.le_succ_of_le hcur)
  | case5 s left h0 hrs hlt => rw [arrayRdLoop, if_neg h0, if_neg hrs, if_neg hlt]

/-- **At the edge of a block `Peek` reads behind it**, or nothing that a read would return. -/
theorem not_peekAgrees_of_atEdge {s : StreamBuf} (h : s.Placed) (hread : s.readable = true)
    (hedge : s.AtEdge) : ¬ s.PeekAgrees := by
  intro hagrees
  rcases Nat.lt_or_ge s.curBlock s.store.vecBlocks.length with hvalid | hcur
  · have hptr : blockMemPtr s.store s.curBlock = some s.store.vecBlocks[s.curBlock] :=
      List.getElem?_eq_getElem hvalid
    have hpeek : s.peekChunk = some ⟨s.curBlock, s.curPos, 1⟩ := by
      rw [peekChunk, if_pos hread, hptr]
    have hinside : s.curPos + 1 ≤ blockSize s.store s.curBlock := (hagrees.inside _ hpeek).2
    have hend := hedge.2
    omega
  · have hnothing := hagrees.read_eq
    rw [run_readOctet_fst hread, arrayRdLoop_of_length_le h hcur] at hnothing
    exact absurd hnothing (by simp)

end StreamBuf

/-- **After every series of calls on new streams, `Peek` agrees with a read if and only if the cursor does
not stand at the edge of a block**, whatever the sizes of the blocks are. -/
theorem peek_agrees_iff {ι : Type} [DecidableEq ι] (mem : ι → MemSource) (size : ι → ℕ)
    (ops : List (StreamOp ι)) (answers : List StreamAnswer) (w : ι → StreamBuf)
    (hrun : StepSystem.run streamStep ops (newStreams mem size) = some (answers, w)) (i : ι)
    (hread : (w i).readable = true) : (w i).PeekAgrees ↔ ¬ (w i).AtEdge := by
  have hplaced := placed_run hrun i
  constructor
  · exact fun hagrees hedge => StreamBuf.not_peekAgrees_of_atEdge hplaced hread hedge hagrees
  · exact StreamBuf.peekAgrees_of_not_atEdge hplaced hread

/-- A stream of three octets, in the middle. -/
theorem peek_agrees_iff_middle :
    ∃ (answers : List StreamAnswer) (w : Unit → StreamBuf),
      StepSystem.run streamStep [.arrayWr () [1, 2, 3], .seek () 1]
        (newStreams (fun _ => sampleMem) fun _ => 0) = some (answers, w) ∧
      (w ()).readable = true ∧ ((w ()).PeekAgrees ↔ ¬ (w ()).AtEdge) := by
  have h₀ : ∀ i : Unit, (newStreams (fun _ => sampleMem) (fun _ => 0) i).Represents
      (FlatStream.empty true) := fun _ => StreamBuf.represents_construct plentiful_sampleMem 0
  obtain ⟨answers, w, f, hrun, hflat, hrep⟩ := StepSystem.run_simulates
    (R := fun (w : Unit → StreamBuf) (f : Unit → FlatStream UInt8) => ∀ i, (w i).Represents (f i))
    (fun o h => streamStep_simulates o h) [.arrayWr () [1, 2, 3], .seek () 1] h₀
  have hread : (w ()).readable = true := by
    rw [(hrep ()).readable_eq]
    obtain ⟨-, rfl⟩ := Prod.mk.inj (Option.some.inj hflat)
    rfl
  exact ⟨answers, w, hrun, hread, peek_agrees_iff _ _ _ _ _ hrun () hread⟩

/-! ### The edge of a block -/

namespace StreamBuf

open StreamBase

/-- A write keeps the sizes of the blocks. -/
theorem blockSize_arrayWr {s s' : StreamBuf} {f : FlatStream UInt8} (h : s.Represents f)
    (hb : s.blks ≠ []) {buf : List UInt8} {n k : ℕ} (hbuf : 0 < buf.length)
    (hrun : s.arrayWr buf = some (n, s')) (hk : k < s.blks.length) :
    blockSize s'.store k = blockSize s.store k := by
  have hchk : memoryChk s.store = true := decide_eq_true (List.length_pos_iff.2 hb)
  obtain ⟨t, hloop, hdone⟩ := arrayWrLoop_spec buf buf.length s 0 (h.wf.wrInv hb) (by omega)
  rw [arrayWr, if_neg (by omega), hchk, if_pos rfl, if_pos rfl, hloop] at hrun
  obtain ⟨-, rfl⟩ := Prod.mk.inj (Option.some.inj hrun)
  rw [store_adjustLast]
  exact hdone.blockSize_eq h.wf.ready hk

/-- A seek to the end of the first block leaves the cursor at its edge, when it is not the last one. -/
theorem atEdge_seek {s : StreamBuf} (hb : s.store.vecBlocks ≠ []) (hlast : 0 < s.lastBlock) :
    s.seek (blockSize s.store 0) = (true, { s with curBlock := 0, curPos := blockSize s.store 0 }) ∧
      ({ s with curBlock := 0, curPos := blockSize s.store 0 } : StreamBuf).AtEdge := by
  have hvalid : validBlock s.store 0 = true := decide_eq_true (List.length_pos_iff.2 hb)
  refine ⟨?_, hlast, rfl⟩
  rw [seek, seekLoop, hvalid, decide_eq_true (Nat.zero_le _), Bool.and_true, if_pos rfl, usedSize,
    if_pos hlast, Nat.zero_add, if_pos le_rfl, Nat.sub_zero]

end StreamBuf

/-- A memory manager whose blocks are as large as requested. -/
def exactMem : MemSource where
  answer _ n := some (List.replicate n 0)
  size_le h := by
    obtain rfl := Option.some.inj h
    simp
  calls := 0

theorem plentiful_exactMem : exactMem.Plentiful := fun _ _ => by simp [exactMem]

/-- One octet more than a new stream has room for leads to a second block. -/
theorem exists_second_block {buf : List UInt8} (hbuf : buf.length = 257) :
    ∃ s : StreamBuf, (StreamBuf.construct exactMem 0).arrayWr buf = some (257, s) ∧
      s.store.vecBlocks ≠ [] ∧ blockSize s.store 0 = 256 ∧ 0 < s.lastBlock := by
  have hrep := StreamBuf.represents_construct plentiful_exactMem 0
  have hblks : (StreamBuf.construct exactMem 0).store.vecBlocks = [List.replicate 256 0] := rfl
  obtain ⟨s, hwr, hrep', -⟩ := hrep.arrayWr buf
  have hplaced := StreamBuf.placed_arrayWr (StreamBuf.placed_construct exactMem 0) hwr
  have hsize : blockSize s.store 0 = 256 := by
    rw [StreamBuf.blockSize_arrayWr hrep (List.cons_ne_nil _ _) (by omega) hwr Nat.one_pos]
    simp only [blockSize, StrmBufMem.blockSize, hblks, List.getElem?_cons_zero, Option.getD_some,
      List.length_replicate]
  have hlen : s.lenGet = 257 := by
    rw [hrep'.lenGet_eq, FlatStream.content_write_of_atEnd (by rfl), FlatStream.content_empty,
      List.nil_append, hbuf]
  have hne : buf ≠ [] := List.length_pos_iff.1 (by omega)
  refine ⟨s, hbuf ▸ hwr, hrep'.backed_iff.2 (FlatStream.write_of_ne_nil _ hne).2.2, hsize, ?_⟩
  by_contra hzero
  have hle : s.lastPos ≤ blockSize s.store s.lastBlock := hplaced.lastPos_le
  have hstart : StreamBase.sizeBefore s.store 0 = 0 := rfl
  rw [Nat.eq_zero_of_not_pos hzero, hsize] at hle
  rw [StreamBase.lenGet, Nat.eq_zero_of_not_pos hzero] at hlen
  omega

/-- A block of 256 octets and one more: at position 256 there is an octet to read, but `Peek` reads behind
the first block. -/
theorem peek_not_agrees :
    ∃ (answers : List StreamAnswer) (w : Unit → StreamBuf),
      StepSystem.run streamStep [.arrayWr () (List.replicate 257 7), .seek () 256]
        (newStreams (fun _ => exactMem) fun _ => 0) = some (answers, w) ∧
      (w ()).readable = true ∧ ¬ (w ()).PeekAgrees := by
  obtain ⟨s, hwr, hb, hsize, hlast⟩ := exists_second_block (List.length_replicate (n := 257) (a := 7))
  obtain ⟨hseek, hedge⟩ := StreamBuf.atEdge_seek hb hlast
  rw [hsize] at hseek hedge
  have hrun : StepSystem.run streamStep [.arrayWr () (List.replicate 257 7), .seek () 256]
      (newStreams (fun _ => exactMem) fun _ => 0) = some ([.written 257, .found true],
        Function.update (Function.update (newStreams (fun _ => exactMem) fun _ => 0) () s) ()
          { s with curBlock := 0, curPos := 256 }) := by
    simp only [StepSystem.run, streamStep, newStreams, hwr, Option.map_some, Option.bind_some,
      Function.update_self, hseek]
  have hread : ({ s with curBlock := 0, curPos := 256 } : StreamBuf).readable = true := by
    rw [StreamBase.readable, Bool.and_eq_true]
    exact ⟨decide_eq_true (List.length_pos_iff.2 hb), by rw [decide_eq_true hlast, Bool.true_or]⟩
  refine ⟨_, _, hrun, ?_, ?_⟩
  · rw [Function.update_self]
    exact hread
  · have hplaced := placed_run hrun ()
    rw [Function.update_self] at hplaced ⊢
    exact StreamBuf.not_peekAgrees_of_atEdge hplaced hread hedge

end CodePort
