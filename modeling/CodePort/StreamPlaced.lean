/-
Where the positions of a stream lie.

The cursor of a stream lies in front of the end of the data or at it, and both lie in their blocks.  This
holds after all calls on a stream, whatever the memory manager answers to them: also when a write has run
out of memory, where the end lies behind the last block.

Main definitions:

* `CodePort.StreamBase.Placed` — the invariant.

Main results:

* `CodePort.StreamBuf.placed_arrayWr` and its siblings — every call keeps it;
* `CodePort.placed_run` — **so does every series of calls**;
* `CodePort.StreamBuf.seek_placed` — **`Seek` moves to the position or to the end**.
-/

import CodePort.StreamFail

set_option relaxedAutoImplicit false
set_option autoImplicit false

namespace CodePort

open BlockStore BlockList

namespace StreamBase

variable {β : Type} [BlockStore β]

/-- The end of the data lies in its block, and the cursor in front of it or at it. -/
structure Placed (s : StreamBase β) : Prop where
  lastPos_le : s.lastPos ≤ blockSize s.store s.lastBlock
  curBlock_le : s.curBlock ≤ s.lastBlock
  curPos_le : s.curPos ≤ s.usedSize s.curBlock

/-- What can be read from the current block. -/
theorem readSize_eq (s : StreamBase β) : s.readSize = s.usedSize s.curBlock - s.curPos := by
  rw [readSize, usedSize]
  split_ifs <;> rfl

theorem usedSize_le {s : StreamBase β} (h : s.Placed) {i : ℕ} (hi : i ≤ s.lastBlock) :
    s.usedSize i ≤ blockSize s.store i := by
  rw [usedSize]
  split_ifs with hlt
  · exact le_rfl
  · obtain rfl : i = s.lastBlock := by omega
    exact h.lastPos_le

/-- The cursor lies in its block. -/
theorem Placed.curPos_le_blockSize {s : StreamBase β} (h : s.Placed) :
    s.curPos ≤ blockSize s.store s.curBlock :=
  h.curPos_le.trans (usedSize_le h h.curBlock_le)

/-- The octets in front of a block and in it. -/
theorem sizeBefore_add_usedSize_le {s : StreamBase β} {i : ℕ} (hi : i ≤ s.lastBlock) :
    sizeBefore s.store i + s.usedSize i ≤ s.lenGet := by
  rcases Nat.lt_or_ge i s.lastBlock with hlt | hge
  · rw [sizeBefore_add_usedSize hlt, lenGet]
    have := sizeBefore_mono s.store (show i + 1 ≤ s.lastBlock from hlt)
    omega
  · obtain rfl : i = s.lastBlock := le_antisymm hi hge
    exact (sizeBefore_add_usedSize_last s).le

theorem Placed.pos_le_lenGet {s : StreamBase β} (h : s.Placed) : s.pos ≤ s.lenGet := by
  have hle := sizeBefore_add_usedSize_le h.curBlock_le
  have hcur := h.curPos_le
  rw [pos]
  omega

/-! ### Reading and clearing -/

theorem Placed.arrayRdLoop {s : StreamBase β} (h : s.Placed) (left : ℕ) :
    (s.arrayRdLoop left).2.Placed := by
  induction s, left using arrayRdLoop.induct with
  | case1 s =>
      rw [StreamBase.arrayRdLoop, if_pos rfl]
      exact h
  | case2 s left h0 hrs hnull =>
      rw [StreamBase.arrayRdLoop, if_neg h0, if_pos hrs, hnull]
      exact h
  | case3 s left h0 hrs mem hmem n ih =>
      rw [StreamBase.arrayRdLoop, if_neg h0, if_pos hrs, hmem]
      refine ih ⟨h.lastPos_le, h.curBlock_le, ?_⟩
      have hn : n ≤ s.readSize := min_le_left _ _
      have hcur := h.curPos_le
      rw [readSize_eq] at hn
      show s.curPos + n ≤ s.usedSize s.curBlock
      omega
  | case4 s left h0 hrs hlt ih =>
      rw [StreamBase.arrayRdLoop, if_neg h0, if_neg hrs, if_pos hlt]
      exact ih ⟨h.lastPos_le, hlt, Nat.zero_le _⟩
  | case5 s left h0 hrs hlt =>
      rw [StreamBase.arrayRdLoop, if_neg h0, if_neg hrs, if_neg hlt]
      exact h

theorem Placed.arrayRd {s : StreamBase β} (h : s.Placed) (len : ℕ) : (s.arrayRd len).2.Placed := by
  simp only [StreamBase.arrayRd, arrayRdChunks]
  split_ifs
  · exact h
  · exact h.arrayRdLoop len
  · exact h

theorem placed_clear (s : StreamBase β) : s.clear.Placed :=
  ⟨Nat.zero_le _, le_rfl, Nat.zero_le _⟩

/-! ### Seeking -/

theorem Placed.seekLoop {s : StreamBase β} (h : s.Placed) (p i loc : ℕ) :
    (seekLoop p s i loc).2.Placed := by
  fun_induction StreamBase.seekLoop p s i loc with
  | case1 s i loc hvalid hp =>
      have hi : i ≤ s.lastBlock := of_decide_eq_true (Bool.and_eq_true_iff.1 hvalid).2
      refine ⟨h.lastPos_le, hi, ?_⟩
      show p - loc ≤ s.usedSize i
      omega
  | case2 s i loc hvalid hp ih =>
      have hi : i ≤ s.lastBlock := of_decide_eq_true (Bool.and_eq_true_iff.1 hvalid).2
      exact ih ⟨h.lastPos_le, hi, le_rfl⟩
  | case3 s i loc hvalid => exact h

theorem Placed.seek {s : StreamBase β} (h : s.Placed) (p : ℕ) : (s.seek p).2.Placed :=
  h.seekLoop p 0 0

end StreamBase

namespace StreamBuf

open StreamBase

/-! ### Writing -/

theorem blockSize_memWr_le (b : StrmBufMem) (k off : ℕ) (d : List UInt8) (i : ℕ) :
    blockSize b i ≤ blockSize (blockMemWr b k off d) i := by
  simp only [blockSize, StrmBufMem.blockSize, blockMemWr, List.getElem?_modify]
  cases b.vecBlocks[i]? with
  | none => exact Nat.zero_le _
  | some block =>
      rw [Option.map_eq_map, Option.map_some, Option.getD_some, Option.getD_some]
      split_ifs
      · exact le_length_overwrite block off d
      · exact le_rfl

theorem blockSize_memoryAdd_le (b : StrmBufMem) (n i : ℕ) :
    blockSize b i ≤ blockSize (memoryAdd b n).2 i := by
  rcases hadd : memoryAdd b n with ⟨ok, store⟩
  simp only [blockSize, StrmBufMem.blockSize]
  cases ok with
  | true =>
      obtain ⟨block, hblocks, -⟩ := vecBlocks_of_added hadd
      rcases Nat.lt_or_ge i b.vecBlocks.length with hi | hi
      · rw [hblocks, List.getElem?_append_left hi]
      · rw [List.getElem?_eq_none hi]
        exact Nat.zero_le _
  | false => rw [vecBlocks_of_refused hadd]

/-- What the loop of `ArrayWr` keeps: both positions lie in their blocks, while the cursor may already
have passed the end. -/
def InBlocks (s : StreamBuf) : Prop :=
  s.lastPos ≤ blockSize s.store s.lastBlock ∧ s.curPos ≤ blockSize s.store s.curBlock

theorem inBlocks_arrayWrLoop {buf : List UInt8} {s : StreamBuf} {nw left : ℕ} {r : ℕ × StreamBuf}
    (hrun : arrayWrLoop buf s nw left = some r) (hs : InBlocks s) : InBlocks r.2 := by
  refine arrayWrLoop.partial_correctness buf (fun (s : StreamBuf) _ _ r => InBlocks s → InBlocks r.2)
    ?_ s nw left r hrun hs
  intro loop ih s nw left r hrun hs
  obtain ⟨hlast, hcur⟩ := hs
  split_ifs at hrun with h0 hroom hvalid
  · obtain rfl := Option.some_inj.1 hrun
    exact ⟨hlast, hcur⟩
  · cases hmem : blockMemPtr s.store s.curBlock with
    | none =>
        rw [hmem] at hrun
        obtain rfl := Option.some_inj.1 hrun
        exact ⟨hlast, hcur⟩
    | some mem =>
        rw [hmem] at hrun
        refine ih _ _ _ _ hrun ⟨hlast.trans (blockSize_memWr_le _ _ _ _ _), ?_⟩
        refine le_trans ?_ (blockSize_memWr_le _ _ _ _ _)
        show s.curPos + min (blockSize s.store s.curBlock - s.curPos) left ≤ blockSize s.store s.curBlock
        omega
  · exact ih _ _ _ _ hrun ⟨hlast, Nat.zero_le _⟩
  · have hgrow := blockSize_memoryAdd_le s.store left
    rcases hadd : memoryAdd s.store left with ⟨ok, store⟩
    rw [hadd] at hrun hgrow
    cases ok with
    | true => exact ih _ _ _ _ hrun ⟨hlast.trans (hgrow _), Nat.zero_le _⟩
    | false =>
        obtain rfl := Option.some_inj.1 hrun
        exact ⟨hlast.trans (hgrow _), Nat.zero_le _⟩

/-- **The end follows a cursor that has passed it.** -/
theorem placed_adjustLast {s : StreamBuf} (h : InBlocks s) : s.adjustLast.Placed := by
  obtain ⟨hlast, hcur⟩ := h
  rw [adjustLast]
  split_ifs with hlt heq hpos
  · refine ⟨hcur, le_rfl, ?_⟩
    show s.curPos ≤ usedSize { s with lastBlock := s.curBlock, lastPos := s.curPos } s.curBlock
    rw [usedSize, if_neg (lt_irrefl _)]
  · refine ⟨?_, heq.ge, ?_⟩
    · show s.curPos ≤ blockSize s.store s.lastBlock
      rw [heq]
      exact hcur
    · show s.curPos ≤ usedSize { s with lastPos := s.curPos } s.curBlock
      rw [usedSize, if_neg heq.not_gt]
  · refine ⟨hlast, heq.ge, ?_⟩
    rw [usedSize, if_neg (by omega)]
    omega
  · refine ⟨hlast, by omega, ?_⟩
    rw [usedSize, if_pos (by omega)]
    exact hcur

theorem placed_arrayWr {s : StreamBuf} (h : s.Placed) {buf : List UInt8} {r : ℕ × StreamBuf}
    (hrun : s.arrayWr buf = some r) : r.2.Placed := by
  rw [arrayWr] at hrun
  split at hrun
  · obtain rfl := Option.some_inj.1 hrun
    exact h
  · -- the store on which the loop starts
    set m := if memoryChk s.store then (true, s.store) else memoryAdd s.store buf.length with hm
    have hgrow : ∀ i, blockSize s.store i ≤ blockSize m.2 i := by
      intro i
      rw [hm]
      split
      · exact le_rfl
      · exact blockSize_memoryAdd_le _ _ _
    simp only at hrun
    split at hrun
    · obtain ⟨r', hloop, hr⟩ := Option.bind_eq_some_iff.1 hrun
      obtain rfl := Option.some_inj.1 hr
      exact placed_adjustLast (inBlocks_arrayWrLoop hloop
        ⟨h.lastPos_le.trans (hgrow _), h.curPos_le_blockSize.trans (hgrow _)⟩)
    · obtain rfl := Option.some_inj.1 hrun
      refine ⟨h.lastPos_le.trans (hgrow _), h.curBlock_le, h.curPos_le.trans ?_⟩
      show s.usedSize s.curBlock ≤ usedSize { s with store := m.2 } s.curBlock
      rw [usedSize, usedSize]
      split_ifs
      · exact hgrow _
      · exact le_rfl

theorem placed_transferBlocksFrom {s src : StreamBuf} (h : src.Placed) :
    (s.transferBlocksFrom src).1.Placed ∧ (s.transferBlocksFrom src).2.Placed :=
  ⟨⟨h.lastPos_le, h.curBlock_le, h.curPos_le⟩, placed_clear _⟩

theorem placed_construct (mem : MemSource) (size : ℕ) : (construct mem size).Placed :=
  ⟨Nat.zero_le _, le_rfl, Nat.zero_le _⟩

/-! ### Seeking -/

/-- There are no octets behind the last block. -/
theorem sizeBefore_of_length_le {b : StrmBufMem} {m n : ℕ} (hm : b.vecBlocks.length ≤ m) (hmn : m ≤ n) :
    sizeBefore b n = sizeBefore b m := by
  induction n, hmn using Nat.le_induction with
  | base => rfl
  | succ n hmn ih =>
      have hnone : b.vecBlocks[n]? = none := List.getElem?_eq_none (hm.trans hmn)
      have hsize : blockSize b n = 0 := by
        simp only [blockSize, StrmBufMem.blockSize, hnone, Option.getD_none, List.length_nil]
      rw [sizeBefore_succ, hsize, Nat.add_zero, ih]

/-- A stream ends where its blocks end, at the latest. -/
theorem lenGet_eq_of_length_le {s : StreamBuf} (h : s.Placed) {i : ℕ}
    (hi : s.store.vecBlocks.length ≤ i) (hlast : i ≤ s.lastBlock) :
    s.lenGet = sizeBefore s.store i := by
  have hend := sizeBefore_of_length_le hi (Nat.le_succ_of_le hlast)
  have hle := h.lastPos_le
  have hmono := sizeBefore_mono s.store hlast
  rw [sizeBefore_succ] at hend
  rw [lenGet]
  omega

/-- **The loop of `Seek`** at a block: it has moved the cursor to the start of the block, unless that is
the first one, which has octets only in front of the position it looks for. -/
theorem seekLoop_placed {p : ℕ} {s₀ : StreamBuf} (h : s₀.Placed) (hb : s₀.store.vecBlocks ≠ []) (n : ℕ) :
    ∀ (s : StreamBuf) (i : ℕ), s₀.lastBlock + 1 - i = n → i ≤ s₀.lastBlock →
      s.store = s₀.store → s.lastBlock = s₀.lastBlock → s.lastPos = s₀.lastPos →
      (i = 0 ∨ s.pos = sizeBefore s₀.store i ∧ sizeBefore s₀.store i < p) →
      (seekLoop p s i (sizeBefore s₀.store i)).1 = decide (p ≤ s₀.lenGet) ∧
        (seekLoop p s i (sizeBefore s₀.store i)).2.pos = min p s₀.lenGet := by
  induction n with
  | zero => intro s i hn hi; omega
  | succ n ih =>
      intro s i hn hi hst hlb hlp hpos
      have hused : s.usedSize i = s₀.usedSize i := by simp only [usedSize, hst, hlb, hlp]
      have hle := sizeBefore_add_usedSize_le hi
      have hzero : sizeBefore s₀.store 0 = 0 := rfl
      rw [seekLoop, hst, hlb, decide_eq_true hi, Bool.and_true, hused]
      split_ifs with hvalid hp
      · -- the position lies in this block
        have hstart : sizeBefore s₀.store i ≤ p := by
          rcases hpos with rfl | ⟨-, hlt⟩
          · exact Nat.zero_le p
          · exact hlt.le
        refine ⟨(decide_eq_true (by omega)).symm, ?_⟩
        show sizeBefore s₀.store i + (p - sizeBefore s₀.store i) = min p s₀.lenGet
        omega
      · -- it lies behind this block
        rcases Nat.lt_or_ge i s₀.lastBlock with hlt | hge
        · rw [sizeBefore_add_usedSize hlt] at hp ⊢
          refine ih _ (i + 1) (by omega) hlt rfl rfl hlp (.inr ⟨?_, by omega⟩)
          exact sizeBefore_add_usedSize hlt
        · obtain rfl : i = s₀.lastBlock := le_antisymm hi hge
          rw [sizeBefore_add_usedSize_last] at hp ⊢
          have hend : ¬ (validBlock s₀.store (s₀.lastBlock + 1) &&
              decide (s₀.lastBlock + 1 ≤ s₀.lastBlock)) = true := by
            rw [decide_eq_false (by omega), Bool.and_false]
            exact Bool.false_ne_true
          rw [seekLoop, if_neg hend]
          refine ⟨(decide_eq_false hp).symm, ?_⟩
          show sizeBefore s₀.store s₀.lastBlock + s₀.usedSize s₀.lastBlock = min p s₀.lenGet
          rw [sizeBefore_add_usedSize_last]
          omega
      · -- the blocks end in front of it
        have hlen : s₀.store.vecBlocks.length ≤ i := by
          simpa [validBlock, StrmBufMem.validBlock] using hvalid
        have hpos0 := List.length_pos_iff.2 hb
        have hall := lenGet_eq_of_length_le h hlen hi
        obtain ⟨hcur, hlt⟩ := hpos.resolve_left (by omega)
        refine ⟨(decide_eq_false (by omega)).symm, ?_⟩
        show s.pos = min p s₀.lenGet
        omega

/-- **`Seek` moves to the position, or to the end** when that comes before it. -/
theorem seek_placed {s : StreamBuf} (h : s.Placed) (hb : s.store.vecBlocks ≠ []) (p : ℕ) :
    (s.seek p).1 = decide (p ≤ s.lenGet) ∧ (s.seek p).2.pos = min p s.lenGet :=
  seekLoop_placed h hb _ s 0 rfl (Nat.zero_le _) rfl rfl rfl (.inl rfl)

end StreamBuf

/-! ### Every series of calls -/

variable {ι : Type} [DecidableEq ι]

theorem placed_streamStep {w w' : ι → StreamBuf} {o : StreamOp ι} {a : StreamAnswer}
    (hstep : streamStep w o = some (a, w')) (h : ∀ i, (w i).Placed) : ∀ j, (w' j).Placed :=
  streamStep_each (I := StreamBase.Placed) (fun hs hrun => StreamBuf.placed_arrayWr hs hrun)
    (fun len hs => hs.arrayRd len) (fun p hs => hs.seek p) (fun _ => StreamBase.placed_clear _)
    (fun _ hsrc => StreamBuf.placed_transferBlocksFrom hsrc) hstep h

/-- **After every series of calls on new streams the positions lie in their blocks**, whatever the memory
manager has answered. -/
theorem placed_run {mem : ι → MemSource} {size : ι → ℕ} {ops : List (StreamOp ι)}
    {answers : List StreamAnswer} {w : ι → StreamBuf}
    (hrun : StepSystem.run streamStep ops (newStreams mem size) = some (answers, w)) (i : ι) :
    (w i).Placed :=
  StepSystem.run_invariant (I := fun w : ι → StreamBuf => ∀ i, (w i).Placed)
    (fun h hstep => placed_streamStep hstep h) (fun _ => StreamBuf.placed_construct _ _) hrun i

end CodePort
