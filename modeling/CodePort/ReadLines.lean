/-
A stream read line by line.

Calls of `ReadLine` that keep the terminator take the octets from the cursor on apart into lines, until one
returns false.  Here the stream is any stream buffer that calls have left, also one whose last write has run
out of memory.

Main definitions:

* `CodePort.StreamBase.unread` — the octets from the cursor on;
* `CodePort.StreamBase.readLines` — the calls of `ReadLine`, until one returns false.

Main results:

* `CodePort.StreamBuf.unread_arrayRdLoop` — reading takes the first of the octets from the cursor on;
* `CodePort.StreamBase.ReadsNext.readLines` — the calls end, and return the pieces of what is left;
* `CodePort.readLines_partition` — **the lines partition what is left of the stream**.
-/

import CodePort.SplitAfter
import CodePort.StreamLine
import CodePort.StreamPeek

set_option relaxedAutoImplicit false
set_option autoImplicit false

namespace CodePort

open BlockStore BlockList SerDesNative SplitAfter

/-! ### Reading where the cursor stands -/

/-- The octets from the cursor on. -/
def StreamBase.unread {β : Type} [BlockStore β] [LawfulBlockStore β] (s : StreamBase β) : List UInt8 :=
  s.octets.drop s.pos

namespace StreamBuf

open StreamBase

/-- The sizes of the blocks before a block add up to the index it starts at, also behind the last one. -/
theorem sizeBefore_eq_start (b : StrmBufMem) (n : ℕ) :
    sizeBefore b n = BlockList.start b.vecBlocks n := by
  induction n with
  | zero => simp [sizeBefore]
  | succ n ih =>
      rw [sizeBefore_succ, ih, BlockList.start, BlockList.start, List.take_add_one, List.sum_append,
        List.getElem?_map]
      simp only [blockSize, StrmBufMem.blockSize]
      cases b.vecBlocks[n]? <;> simp

/-- The end of the data lies in the blocks. -/
theorem lenGet_le_length {s : StreamBuf} (h : s.Placed) :
    s.lenGet ≤ s.store.vecBlocks.flatten.length := by
  have hlast : s.lenGet ≤ sizeBefore s.store (s.lastBlock + 1) := by
    rw [sizeBefore_succ, lenGet]
    exact Nat.add_le_add_left h.lastPos_le _
  rw [sizeBefore_eq_start] at hlast
  exact hlast.trans (start_le_length _ _)

theorem length_unread {s : StreamBuf} (h : s.Placed) : s.unread.length = s.lenGet - s.pos := by
  rw [unread, List.length_drop, octets, List.length_take]
  exact congrArg (· - s.pos) (min_eq_left (lenGet_le_length h))

/-- What is left in the current block lies in front of the end. -/
theorem pos_add_readSize_le {s : StreamBuf} (h : s.Placed) : s.pos + s.readSize ≤ s.lenGet := by
  have hle := sizeBefore_add_usedSize_le h.curBlock_le
  have hcur := h.curPos_le
  rw [readSize_eq, pos]
  omega

/-- A block that has octets left to read is there. -/
theorem curBlock_lt_of_readSize_pos {s : StreamBuf} (h : s.Placed) (hrs : 0 < s.readSize) :
    s.curBlock < s.store.vecBlocks.length := by
  by_contra hcur
  have hinside := h.add_readSize_le
  rw [blockSize_of_length_le (not_lt.1 hcur)] at hinside
  omega

/-- One `memcpy` inside the current block reads the octets at the cursor. -/
theorem chunkOctets_placed {s : StreamBuf} (h : s.Placed) {n : ℕ} (hn : n ≤ s.readSize)
    (hblock : s.curBlock < s.store.vecBlocks.length) :
    chunkOctets s.store ⟨s.curBlock, s.curPos, n⟩ = s.unread.take n := by
  have hend := pos_add_readSize_le h
  have hsize : s.curPos + n ≤ s.store.vecBlocks[s.curBlock].length := by
    have hinside := h.add_readSize_le
    simp only [blockSize, StrmBufMem.blockSize, List.getElem?_eq_getElem hblock,
      Option.getD_some] at hinside
    omega
  have hmem : blockMemPtr s.store s.curBlock = some s.store.vecBlocks[s.curBlock] :=
    List.getElem?_eq_getElem hblock
  simp only [chunkOctets, hmem]
  rw [List.takeD_eq_take _ (by rw [List.length_drop]; omega), take_drop_flatten hblock hsize, unread,
    octets, List.drop_take, List.take_take, Nat.min_eq_left (by omega), pos, sizeBefore_eq_start]
  rfl

/-- **The loop of `ArrayRd`** copies the first of the octets from the cursor on, and leaves the others. -/
theorem unread_arrayRdLoop (s : StreamBuf) (left : ℕ) (h : s.Placed) :
    (s.arrayRdLoop left).1.flatMap (chunkOctets s.store) = s.unread.take left ∧
      (s.arrayRdLoop left).2.unread = s.unread.drop left := by
  induction s, left using arrayRdLoop.induct with
  | case1 s =>
      rw [arrayRdLoop, if_pos rfl]
      exact ⟨rfl, rfl⟩
  | case2 s left h0 hrs hnull =>
      -- a block that has octets has an address
      have hcur := curBlock_lt_of_readSize_pos h hrs
      have hmem : blockMemPtr s.store s.curBlock = some s.store.vecBlocks[s.curBlock] :=
        List.getElem?_eq_getElem hcur
      exact absurd (hnull.symm.trans hmem) (by simp)
  | case3 s left h0 hrs mem hmem n ih =>
      have hn : n ≤ s.readSize := min_le_left _ _
      have hle : n ≤ left := min_le_right _ _
      have hplaced : ({ s with curPos := s.curPos + n } : StreamBuf).Placed := by
        refine ⟨h.lastPos_le, h.curBlock_le, ?_⟩
        have hcur := h.curPos_le
        rw [readSize_eq] at hn
        show s.curPos + n ≤ s.usedSize s.curBlock
        omega
      have hunread : ({ s with curPos := s.curPos + n } : StreamBuf).unread = s.unread.drop n := by
        rw [unread, unread, List.drop_drop, pos, pos, ← Nat.add_assoc]
        rfl
      have hchunk := chunkOctets_placed h hn (curBlock_lt_of_readSize_pos h hrs)
      obtain ⟨hd, hrest⟩ := ih hplaced
      rw [hunread] at hd hrest
      rw [arrayRdLoop, if_neg h0, if_pos hrs, hmem]
      constructor
      · show chunkOctets s.store ⟨s.curBlock, s.curPos, n⟩ ++ _ = _
        rw [hchunk]
        refine (congrArg (s.unread.take n ++ ·) hd).trans ?_
        rw [← List.take_add, Nat.add_sub_cancel' hle]
      · refine hrest.trans ?_
        rw [List.drop_drop, Nat.add_sub_cancel' hle]
  | case4 s left h0 hrs hlt ih =>
      have hplaced : ({ s with curBlock := s.curBlock + 1, curPos := 0 } : StreamBuf).Placed :=
        ⟨h.lastPos_le, hlt, Nat.zero_le _⟩
      have hpos : ({ s with curBlock := s.curBlock + 1, curPos := 0 } : StreamBuf).pos = s.pos := by
        have hcur := h.curPos_le
        rw [readSize_eq, usedSize, if_pos hlt] at hrs
        rw [usedSize, if_pos hlt] at hcur
        rw [pos, pos, sizeBefore_succ]
        simp only
        omega
      have hunread : ({ s with curBlock := s.curBlock + 1, curPos := 0 } : StreamBuf).unread =
          s.unread := by
        rw [unread, unread, hpos]
        rfl
      have hnext := ih hplaced
      rw [hunread] at hnext
      rw [arrayRdLoop, if_neg h0, if_neg hrs, if_pos hlt]
      exact hnext
  | case5 s left h0 hrs hlt =>
      have hend : s.unread = [] := by
        have hcur := h.curBlock_le
        have hlen := length_unread h
        rw [readSize, if_neg hlt] at hrs
        rw [pos, lenGet, le_antisymm hcur (not_lt.1 hlt)] at hlen
        exact List.eq_nil_of_length_eq_zero (by omega)
      rw [arrayRdLoop, if_neg h0, if_neg hrs, if_neg hlt, hend]
      simp

/-- What `Readable()` refuses has nothing left to read. -/
theorem unread_of_not_readable {s : StreamBuf} (h : s.Placed) (hread : ¬ s.readable = true) :
    s.unread = [] := by
  by_cases hb : s.store.vecBlocks = []
  · have hoctets : s.octets = [] := by
      rw [octets, show s.blks = [] from hb]
      exact List.take_nil
    rw [unread, hoctets, List.drop_nil]
  · have hchk : memoryChk s.store = true := decide_eq_true (List.length_pos_iff.2 hb)
    rw [readable, hchk, Bool.true_and, Bool.or_eq_true, decide_eq_true_eq, decide_eq_true_eq,
      not_or] at hread
    have hlen := length_unread h
    rw [pos, lenGet, le_antisymm h.curBlock_le (not_lt.1 hread.1)] at hlen
    exact List.eq_nil_of_length_eq_zero (by omega)

theorem unread_arrayRd {s : StreamBuf} (h : s.Placed) (len : ℕ) :
    (s.arrayRd len).1 = s.unread.take len ∧ (s.arrayRd len).2.unread = s.unread.drop len := by
  rw [arrayRd, arrayRdChunks]
  split_ifs with h0 hread
  · rw [h0]
    exact ⟨rfl, rfl⟩
  · exact unread_arrayRdLoop s len h
  · rw [unread_of_not_readable h hread]
    exact ⟨List.take_nil.symm, List.drop_nil.symm⟩

/-- **Each read of an octet takes the first one from the cursor on**, wherever calls have left the
stream. -/
theorem readsNext_placed : ReadsNext fun (s : StreamBuf) l => s.Placed ∧ s.unread = l := by
  rintro s l ⟨h, rfl⟩
  obtain ⟨hoctets, hunread⟩ := unread_arrayRd h 1
  refine ⟨(s.arrayRd 1).2, ?_, h.arrayRd 1, by rw [hunread, List.drop_one]⟩
  change ((s.arrayRd 1).1.head?, (s.arrayRd 1).2) = _
  rw [hoctets]
  cases s.unread <;> rfl

end StreamBuf

/-! ### Lines -/

namespace StreamBase

section Lines

variable {β : Type} [BlockStore β]

/-- The calls of `ReadLine` that keep the terminator, until one returns false: the lines of those that
returned true. -/
def readLines (s : StreamBase β) (term : UInt8) : Option (List (List UInt8) × StreamBase β) := do
  let (ok, line, s) ← s.readLine term false
  if ok then
    let (lines, s) ← s |>.readLines term
    some (line :: lines, s)
  else some ([], s)
partial_fixpoint

variable {R : StreamBase β → List UInt8 → Prop} {term : UInt8} {s : StreamBase β}

/-- A line that ends with the terminator. -/
theorem ReadsNext.readLine (hR : ReadsNext R) {l r : List UInt8} (hl : term ∉ l)
    (h : R s (l ++ term :: r)) :
    ∃ s', s.readLine term false = some (true, lineOf l ++ [term], s') ∧ R s' r := by
  obtain ⟨s', hs', hrest⟩ := readLineLoop_term hR false hl [] h
  refine ⟨s', ?_, hrest⟩
  rw [StreamBase.readLine, hs']
  simp

/-- The last line. -/
theorem ReadsNext.readLine_end (hR : ReadsNext R) {l : List UInt8} (hl : term ∉ l) (h : R s l) :
    ∃ s', s.readLine term false = some (decide (lineOf l ≠ []), lineOf l, s') ∧ R s' [] := by
  obtain ⟨s', hs', hrest⟩ := readLineLoop_end hR false hl [] h
  refine ⟨s', ?_, hrest⟩
  rw [StreamBase.readLine, hs']
  simp [List.length_pos_iff]

/-- Where nothing is left there is no line. -/
theorem ReadsNext.readLines_nil (hR : ReadsNext R) (term : UInt8) (h : R s []) :
    ∃ s', s.readLines term = some ([], s') ∧ R s' [] := by
  obtain ⟨s', hs', hrest⟩ := hR.readLine_end List.not_mem_nil h
  refine ⟨s', ?_, hrest⟩
  rw [StreamBase.readLines, hs']
  rfl

/-- **The calls end, and return the pieces of what is left**, without the zeros in it. -/
theorem ReadsNext.readLines (hR : ReadsNext R) (hterm : term ≠ 0) (l : List UInt8) (h : R s l) :
    ∃ s', s.readLines term = some (splitAfter term (lineOf l), s') ∧ R s' [] := by
  induction l using SplitAfter.induction term generalizing s with
  | nil => exact hR.readLines_nil term h
  | last l hl hne =>
      obtain ⟨s₁, hs₁, hrest⟩ := hR.readLine_end hl h
      by_cases hline : lineOf l = []
      · -- only zeros were left
        refine ⟨s₁, ?_, hrest⟩
        rw [StreamBase.readLines, hs₁]
        simp [hline]
      · obtain ⟨s', hs', hend⟩ := hR.readLines_nil term hrest
        have hnot : term ∉ lineOf l := fun hmem => hl (List.mem_of_mem_filter hmem)
        refine ⟨s', ?_, hend⟩
        rw [StreamBase.readLines, hs₁, splitAfter_of_notMem hnot hline]
        simp [hline, hs']
  | piece l r hl ih =>
      obtain ⟨s₁, hs₁, hrest⟩ := hR.readLine hl h
      obtain ⟨s', hs', hend⟩ := ih hrest
      have hnot : term ∉ lineOf l := fun hmem => hl (List.mem_of_mem_filter hmem)
      have hlines : lineOf (l ++ term :: r) = lineOf l ++ term :: lineOf r := by
        rw [lineOf_append]
        simp [lineOf, hterm]
      refine ⟨s', ?_, hend⟩
      rw [StreamBase.readLines, hs₁, hlines, splitAfter_append_cons hnot]
      simp [hs']

end Lines

end StreamBase

/-- **The lines partition what is left of a stream**, after every series of calls on new streams, whatever
their memory managers have answered: the calls of `ReadLine` end, the lines make up the octets from the
cursor on without the zeros, every line but possibly the last ends with the terminator, and it stands
nowhere else in a line. -/
theorem readLines_partition {ι : Type} [DecidableEq ι] (mem : ι → MemSource) (size : ι → ℕ)
    (ops : List (StreamOp ι)) (answers : List StreamAnswer) (w : ι → StreamBuf)
    (hrun : StepSystem.run streamStep ops (newStreams mem size) = some (answers, w)) (i : ι)
    (term : UInt8) (hterm : term ≠ 0) :
    ∃ lines s, (w i).readLines term = some (lines, s) ∧
      lines.flatten = ((w i).octets.drop (w i).pos).filter (· ≠ 0) ∧
      (∀ line ∈ lines.dropLast, line.getLast? = some term) ∧
      ∀ line ∈ lines, term ∉ line.dropLast := by
  obtain ⟨s, hs, -⟩ :=
    StreamBuf.readsNext_placed.readLines hterm (w i).unread ⟨placed_run hrun i, rfl⟩
  exact ⟨_, s, hs, flatten_splitAfter term _, getLast?_of_mem_dropLast term _,
    notMem_dropLast_of_mem term _⟩

/-- A line, an empty one, and the start of a third, behind an octet that is not read. -/
theorem readLines_partition_three :
    ∃ (answers : List StreamAnswer) (w : Unit → StreamBuf),
      StepSystem.run streamStep [.arrayWr () [7, 97, 0, 10, 10, 98], .seek () 1]
        (newStreams (fun _ => sampleMem) fun _ => 0) = some (answers, w) ∧
      ∃ lines s, (w ()).readLines 10 = some (lines, s) ∧
        lines.flatten = ((w ()).octets.drop (w ()).pos).filter (· ≠ 0) ∧
        (∀ line ∈ lines.dropLast, line.getLast? = some 10) ∧ ∀ line ∈ lines, 10 ∉ line.dropLast := by
  have h₀ : ∀ i : Unit, (newStreams (fun _ => sampleMem) (fun _ => 0) i).Represents
      (FlatStream.empty true) := fun _ => StreamBuf.represents_construct plentiful_sampleMem 0
  obtain ⟨answers, w, f, hrun, -, -⟩ := StepSystem.run_simulates
    (R := fun (w : Unit → StreamBuf) (f : Unit → FlatStream UInt8) => ∀ i, (w i).Represents (f i))
    (fun o h => streamStep_simulates o h) [.arrayWr () [7, 97, 0, 10, 10, 98], .seek () 1] h₀
  exact ⟨answers, w, hrun, readLines_partition _ _ _ _ _ hrun () 10 (by decide)⟩

end CodePort
