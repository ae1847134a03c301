/-
The segment stream class.

`IpcStreamSeg` is a stream over a chain of message segments: block `k` of the stream is the payload
area of segment `k`.  New segments take their header from a template or from the segment before
them, and `Finalize` settles the length of the last one before the chain is handed over.

Main definitions:

* `CodePort.IpcStreamSegMem` — the chain, with the memory functions of the class;
* `CodePort.IpcStreamSeg` — the stream over it, with `segmentInject`, `segmentExtract`, `finalize`.

Main results:

* the instance of `CodePort.LawfulBlockStore` — **the payload areas of a chain of full-size
  segments are a block store**;
* `CodePort.IpcStreamSeg.represents_of_segs_nil` — a stream without segments is empty.
-/

import CodePort.IpcSegment
import CodePort.StreamFlat
import Mathlib.Tactic.Ring

set_option relaxedAutoImplicit false
set_option autoImplicit false

namespace CodePort

open IpcSegment BlockList Octets

/-! ### The chain of segments -/

/-- The chain of comm segments of a segment stream, from the head to the tail. -/
structure IpcStreamSegMem where
  /-- The memory manager. -/
  pools : MemPools
  /-- Number of comm segments in list. -/
  blockCount : ℕ
  /-- Template for segment field values. -/
  template : IpcSegment
  /-- The list of comm segments. -/
  segs : List IpcSegment

namespace IpcStreamSegMem

/-- Free any allocated storage. -/
def memoryFree (b : IpcStreamSegMem) : IpcStreamSegMem := { b with blockCount := 0, segs := [] }

/-- Add one new segment to the chain. -/
def addSegment (b : IpcStreamSegMem) : IpcStreamSegMem :=
  let ptr := construct b.pools
  -- update the block count
  let blockCount := b.blockCount + 1
  match b.segs.getLast? with
  | none =>
      -- copy template segment fields to new segment
      let ptr := ptr.assign b.pools b.template
      { b with blockCount := blockCount, segs := [ptr.setFragNum blockCount] }
  | some tail =>
      -- set the multi-part flag when collection transitions past one segment
      let tail :=
        if b.segs.length = 1 then tail.setOptions (tail.options ||| optMultipart) else tail
      -- copy segment fields to new segment
      let ptr := ptr.assign b.pools tail
      -- mark previous tail segment as full of data
      let tail := (tail.setDataLen capacity).bufLenSet (capacity + segData)
      { b with
        blockCount := blockCount
        segs := b.segs.dropLast ++ [tail, ptr.setFragNum blockCount] }

/-- The loop of `MemoryAdd`.  A segment whose memory is not there cannot be created. -/
def memoryAddLoop (rv : Bool) : ℕ → IpcStreamSegMem → Bool × IpcStreamSegMem
  | 0, b => (rv, b)
  | i + 1, b =>
      if (b.pools.blockSize segMaxLen).isSome then memoryAddLoop true i b.addSegment
      else (false, b)

/-- The number of segments for a number of octets. -/
def segCount (size : ℕ) : ℕ := size / capacity + if size % capacity ≠ 0 then 1 else 0

/-- Add memory to the stream. -/
def memoryAdd (b : IpcStreamSegMem) (size : ℕ) : Bool × IpcStreamSegMem :=
  memoryAddLoop false (segCount size) b

/-- Returns the block's memory pointer. -/
def blockMemPtr (b : IpcStreamSegMem) (block : ℕ) : Option (List UInt8) :=
  b.segs[block]?.bind fun s => s.buf.block.map fun m => m.drop segData

/-- `memcpy` to an offset from the block's memory pointer. -/
def blockMemWr (b : IpcStreamSegMem) (block offset : ℕ) (d : List UInt8) : IpcStreamSegMem :=
  { b with segs := b.segs.modify block fun s => ⟨s.buf.memWr (segData + offset) d⟩ }

instance : BlockStore IpcStreamSegMem where
  memoryFree := memoryFree
  memoryAdd := memoryAdd
  memoryChk b := !b.segs.isEmpty
  validBlock b block := decide (block < b.blockCount)
  blockMemPtr := blockMemPtr
  blockMemWr := blockMemWr
  blockSize _ _ := capacity

/-! ### The payload areas -/

/-- The payload area of a segment. -/
def window (s : IpcSegment) : List UInt8 := s.body.take capacity

/-- A chain of full-size segments, with memory for more. -/
structure Ready (b : IpcStreamSegMem) : Prop where
  blockSize_ne : b.pools.blockSize segMaxLen ≠ none
  blockCount_eq : b.blockCount = b.segs.length
  full : ∀ s ∈ b.segs, s.Full

theorem length_window {s : IpcSegment} (h : s.Full) : (window s).length = capacity := by
  rw [window, List.length_take]
  exact min_eq_left h.length_body

theorem window_hdrWr {s : IpcSegment} (h : s.Full) {offset : ℕ} {d : List UInt8}
    (hd : offset + d.length ≤ segData) : window (s.hdrWr offset d) = window s := by
  rw [window, body_hdrWr h hd, window]

theorem window_bodyWr {s : IpcSegment} (h : s.Full) {offset : ℕ} {d : List UInt8}
    (hd : offset + d.length ≤ capacity) :
    window ⟨s.buf.memWr (segData + offset) d⟩ = overwrite (window s) offset d := by
  have hlen := h.length_body
  have htake := take_overwrite (l := s.body) (p := offset) (e := capacity) (by omega) hlen d
  rw [max_eq_left hd] at htake
  rw [window, body_bodyWr h, htake, window]

theorem Full.bodyWr {s : IpcSegment} (h : s.Full) (offset : ℕ) (d : List UInt8) :
    (⟨s.buf.memWr (segData + offset) d⟩ : IpcSegment).Full :=
  h.trans (s.buf.size_memWr_le _ _)

theorem modify_eq_set {b : IpcStreamSegMem} {k : ℕ} (hk : k < b.segs.length)
    (f : IpcSegment → IpcSegment) : b.segs.modify k f = b.segs.set k (f b.segs[k]) := by
  rw [List.modify_eq_set_getElem?, List.getElem?_eq_getElem hk]
  rfl

theorem ready_blockMemWr {b : IpcStreamSegMem} (h : Ready b) (k off : ℕ) (d : List UInt8) :
    Ready (b.blockMemWr k off d) := by
  refine ⟨h.blockSize_ne, ?_, ?_⟩
  · rw [blockMemWr, List.length_modify]
    exact h.blockCount_eq
  · rcases Nat.lt_or_ge k b.segs.length with hk | hk
    · rw [blockMemWr, modify_eq_set hk]
      intro s hs
      rcases List.mem_or_eq_of_mem_set hs with hs | rfl
      · exact h.full s hs
      · exact Full.bodyWr (h.full _ (List.getElem_mem hk)) _ _
    · rw [blockMemWr, List.modify_eq_self hk]
      exact h.full

/-! ### Adding segments -/

/-- Marking a tail as full leaves its payload. -/
theorem markFull {s : IpcSegment} (h : s.Full) (len : ℕ) :
    ((s.setDataLen capacity).bufLenSet len).Full ∧
      window ((s.setDataLen capacity).bufLenSet len) = window s := by
  refine ⟨(h.hdrWr _ _).bufLenSet _, ?_⟩
  change window (s.setDataLen capacity) = window s
  exact window_hdrWr h (by rw [length_toBE]; decide)

theorem setOptions_spec {s : IpcSegment} (h : s.Full) (data : UInt8) :
    (s.setOptions data).Full ∧ window (s.setOptions data) = window s :=
  ⟨h.hdrWr _ _, window_hdrWr h (by rw [List.length_singleton]; decide)⟩

theorem length_addSegment (b : IpcStreamSegMem) :
    b.addSegment.segs.length = b.segs.length + 1 := by
  rcases List.eq_nil_or_concat b.segs with h | ⟨init, tail, h⟩
  · simp [addSegment, h]
  · simp [addSegment, h]

/-- **One new segment** brings one payload area and leaves the others. -/
theorem addSegment_spec {b : IpcStreamSegMem} (h : Ready b) :
    Ready b.addSegment ∧ ∃ x : List UInt8, x.length = capacity ∧
      b.addSegment.segs.map window = b.segs.map window ++ [x] := by
  have hnew : ∀ rhs : IpcSegment,
      (((construct b.pools).assign b.pools rhs).setFragNum (b.blockCount + 1)).Full := by
    intro rhs
    exact (full_assign_construct h.blockSize_ne rhs).hdrWr _ _
  have hcount := h.blockCount_eq
  rcases List.eq_nil_or_concat b.segs with hs | ⟨init, tail, hs⟩
  · have hadd : b.addSegment.segs =
        [((construct b.pools).assign b.pools b.template).setFragNum (b.blockCount + 1)] := by
      simp [addSegment, hs]
    have hcnt : b.addSegment.blockCount = b.blockCount + 1 := by simp [addSegment, hs]
    have hpools : b.addSegment.pools = b.pools := by simp [addSegment, hs]
    refine ⟨⟨hpools ▸ h.blockSize_ne, ?_, ?_⟩, _, length_window (hnew b.template), ?_⟩
    · rw [hcnt, hadd, hcount, hs]
      rfl
    · rw [hadd]
      intro s hmem
      rw [List.mem_singleton.1 hmem]
      exact hnew _
    · rw [hadd, hs]
      rfl
  · rw [List.concat_eq_append] at hs
    set tail' := if b.segs.length = 1 then tail.setOptions (tail.options ||| optMultipart) else tail
      with htail'
    have hadd : b.addSegment.segs = init ++ [(tail'.setDataLen capacity).bufLenSet
        (capacity + segData), ((construct b.pools).assign b.pools tail').setFragNum
          (b.blockCount + 1)] := by
      simp [addSegment, hs, htail']
    have hcnt : b.addSegment.blockCount = b.blockCount + 1 := by simp [addSegment, hs]
    have hpools : b.addSegment.pools = b.pools := by simp [addSegment, hs]
    have hfull : tail.Full := h.full tail (by rw [hs]; simp)
    have hfull' : tail'.Full ∧ window tail' = window tail := by
      rw [htail']
      split
      · exact setOptions_spec hfull _
      · exact ⟨hfull, rfl⟩
    obtain ⟨hmark, hwin⟩ := markFull hfull'.1 (capacity + segData)
    refine ⟨⟨hpools ▸ h.blockSize_ne, ?_, ?_⟩, _, length_window (hnew tail'), ?_⟩
    · rw [hcnt, hadd, hcount, hs]
      simp
    · rw [hadd]
      intro s hmem
      rcases List.mem_append.1 hmem with hmem | hmem
      · exact h.full s (by rw [hs]; exact List.mem_append_left _ hmem)
      · rcases List.mem_cons.1 hmem with rfl | hmem
        · exact hmark
        · rw [List.mem_singleton.1 hmem]
          exact hnew _
    · rw [hadd, hs, List.map_append, List.map_cons, hwin, hfull'.2]
      simp

/-- What every new segment keeps, `MemoryAdd` keeps. -/
theorem memoryAddLoop_invariant {Q : IpcStreamSegMem → Prop} (hQ : ∀ b, Q b → Q b.addSegment)
    (i : ℕ) : ∀ (rv : Bool) (b : IpcStreamSegMem), Q b → Q (memoryAddLoop rv i b).2 := by
  induction i with
  | zero =>
      intro rv b h
      exact h
  | succ i ih =>
      intro rv b h
      rw [memoryAddLoop]
      split
      · exact ih _ _ (hQ b h)
      · exact h

/-- **The loop of `MemoryAdd`** appends as many payload areas as it is asked for. -/
theorem memoryAddLoop_spec (i : ℕ) : ∀ (rv : Bool) (b : IpcStreamSegMem), Ready b →
    (memoryAddLoop rv i b).1 = (rv || decide (0 < i)) ∧ Ready (memoryAddLoop rv i b).2 ∧
      ∃ new : List (List UInt8), new.length = i ∧ (∀ x ∈ new, x.length = capacity) ∧
        (memoryAddLoop rv i b).2.segs.map window = b.segs.map window ++ new := by
  induction i with
  | zero =>
      intro rv b h
      exact ⟨by simp [memoryAddLoop], h, [], rfl, by simp, by simp [memoryAddLoop]⟩
  | succ i ih =>
      intro rv b h
      obtain ⟨hready, x, hx, hmap⟩ := addSegment_spec h
      obtain ⟨hrv, hready', new, hlen, hnew, hmap'⟩ := ih true b.addSegment hready
      rw [memoryAddLoop, if_pos (Option.isSome_iff_ne_none.2 h.blockSize_ne)]
      refine ⟨by simp [hrv], hready', x :: new, by rw [List.length_cons, hlen], ?_, ?_⟩
      · intro y hy
        rcases List.mem_cons.1 hy with rfl | hy
        · exact hx
        · exact hnew y hy
      · rw [hmap', hmap, List.append_assoc, List.singleton_append]

theorem segCount_pos {n : ℕ} (hn : 0 < n) : 0 < segCount n := by
  rw [segCount, show capacity = 1000 from rfl]
  split <;> omega

/-- One segment less would not be enough. -/
theorem segCount_tight {n : ℕ} (hn : 0 < n) :
    (segCount n - 1) * capacity < n ∧ n ≤ segCount n * capacity := by
  rw [segCount, show capacity = 1000 from rfl]
  split <;> omega

theorem length_flatten_of_forall {bs : List (List UInt8)} {n : ℕ}
    (h : ∀ x ∈ bs, x.length = n) : bs.flatten.length = bs.length * n := by
  rw [List.length_flatten, List.map_congr_left h, List.map_const', List.sum_replicate_nat]

theorem blockSize_window {b : IpcStreamSegMem} (h : b.Ready) {k : ℕ}
    (hk : k < (b.segs.map window).length) :
    BlockStore.blockSize b k = ((b.segs.map window)[k]).length := by
  rw [List.getElem_map, length_window (h.full _ (List.getElem_mem _))]
  rfl

/-- The payload area of a segment starts with its window. -/
theorem blockMemPtr_window {b : IpcStreamSegMem} (h : b.Ready) {k : ℕ}
    (hk : k < (b.segs.map window).length) :
    ∃ r, BlockStore.blockMemPtr b k = some ((b.segs.map window)[k] ++ r) := by
  have hk' : k < b.segs.length := by simpa using hk
  have hfull := h.full _ (List.getElem_mem hk')
  obtain ⟨mem, hmem⟩ : ∃ mem, (b.segs[k]).buf.block = some mem := by
    cases hb : (b.segs[k]).buf.block with
    | none =>
        have := hfull.size_pos
        simp [Buffer.size, Buffer.mem, hb] at this
    | some mem => exact ⟨mem, rfl⟩
  refine ⟨(b.segs[k]).body.drop capacity, ?_⟩
  rw [List.getElem_map, window, List.take_append_drop]
  simp only [BlockStore.blockMemPtr, blockMemPtr, List.getElem?_eq_getElem hk', Option.bind_some,
    hmem, Option.map_some, body, Buffer.mem, Option.getD_some]

/-- **The payload areas of a chain of full-size segments are a block store.** -/
instance : LawfulBlockStore IpcStreamSegMem where
  blocks b := b.segs.map window
  Ready := Ready
  length_pos h x hx := by
    obtain ⟨s, hs, rfl⟩ := List.mem_map.1 hx
    rw [length_window (h.full s hs)]
    decide
  memoryChk_eq {b} _ := by
    simp only [BlockStore.memoryChk]
    cases b.segs <;> simp
  validBlock_eq {b} h k := by
    simp only [BlockStore.validBlock, h.blockCount_eq, List.length_map]
  blockSize_eq h k hk := blockSize_window h hk
  blockMemPtr_eq h k hk := blockMemPtr_window h hk
  ready_memWr h k off d _ _ := ready_blockMemWr h k off d
  blocks_memWr {b} h k off d hk hd := by
    have hk' : k < b.segs.length := by simpa using hk
    have hfull := h.full _ (List.getElem_mem hk')
    rw [List.getElem_map, length_window hfull] at hd
    simp only [BlockStore.blockMemWr, blockMemWr]
    rw [modify_eq_set hk', List.map_set, window_bodyWr hfull hd, List.getElem_map]
  memoryAdd_eq {b} h n hn := by
    obtain ⟨hrv, hready, new, hlen, hnew, hmap⟩ := memoryAddLoop_spec (segCount n) false b h
    have hpos := segCount_pos hn
    refine ⟨(memoryAdd b n).2, new, Prod.ext ?_ rfl, hready, ?_, ?_, hmap⟩
    · exact hrv.trans (by simp [hpos])
    · intro hc
      rw [hc, List.length_nil] at hlen
      omega
    · rw [length_flatten_of_forall fun x hx => hnew x (List.dropLast_subset _ hx),
        List.length_dropLast, hlen]
      exact (segCount_tight hn).1
  ready_memoryFree h := ⟨h.blockSize_ne, rfl, by simp [BlockStore.memoryFree, memoryFree]⟩
  blocks_memoryFree _ := rfl

end IpcStreamSegMem

/-! ### Segment streams -/

/-- The stream segment class. -/
abbrev IpcStreamSeg := StreamBase IpcStreamSegMem

namespace IpcStreamSeg

open StreamBase

/-- The constructor. -/
def construct (m : MemPools) (size : ℕ) : IpcStreamSeg where
  store := (IpcStreamSegMem.memoryAdd ⟨m, 0, IpcSegment.construct m, []⟩ size).2
  curBlock := 0
  curPos := 0
  lastBlock := 0
  lastPos := 0

/-- Set the segment field template. -/
def setTemplate (s : IpcStreamSeg) (seg : IpcSegment) : IpcStreamSeg :=
  { s with store := { s.store with template := s.store.template.assign s.store.pools seg } }

/-- Inject an external segment: the list that it heads. -/
def segmentInject (s : IpcStreamSeg) (segs : List IpcSegment) : IpcStreamSeg :=
  -- remove any existing memory blocks
  let s := s.clear
  match segs.getLast? with
  | none => s
  | some tail =>
      { s with
        store := { s.store with blockCount := segs.length, segs := segs }
        lastBlock := segs.length - 1
        -- set the position in the final block
        lastPos := tail.dataLen }

/-- Extract the block storage. -/
def segmentExtract (s : IpcStreamSeg) : List IpcSegment × IpcStreamSeg :=
  (s.store.segs, ({ s with store := { s.store with segs := [] } } : IpcStreamSeg).clear)

/-- Prepare for transmit. -/
def finalize (s : IpcStreamSeg) : IpcStreamSeg :=
  match s.store.segs.getLast? with
  | none => s
  | some tail =>
      -- set the actual length of the last segment
      let tail := (tail.setDataLen s.lastPos).bufLenSet (s.lastPos + segData)
      -- set the opt_Initial flag on the highest numbered segment
      let tail :=
        if s.store.segs.length = 1 then tail else tail.setOptions (tail.options ||| optInitial)
      { s with store := { s.store with segs := s.store.segs.dropLast ++ [tail] } }

/-- A stream without segments is empty. -/
theorem represents_of_segs_nil {s : IpcStreamSeg} (hready : IpcStreamSegMem.Ready s.store)
    (hsegs : s.store.segs = []) (hl : s.lastBlock = 0 ∧ s.lastPos = 0)
    (hc : s.curBlock = 0 ∧ s.curPos = 0) : s.Represents (FlatStream.empty false) := by
  have hb : s.blks = [] := by
    change s.store.segs.map IpcStreamSegMem.window = []
    rw [hsegs, List.map_nil]
  have hwf : s.Wf :=
    { ready := hready
      unbacked := fun _ => hl
      lastBlock_lt := fun hn => absurd hb hn
      lastPos_le := by rw [hl.2]; exact Nat.zero_le _
      lastPos_pos := fun hlt => absurd hl.1 (by omega)
      curBlock_le := by omega
      curPos_le := fun hlt => absurd hlt (by omega)
      curPos_le_lastPos := fun _ => by omega }
  refine ⟨hwf, ?_, ?_, by simp [hb]⟩
  · rw [octets, hb]
    simp
  · rw [pos, hc.1, hc.2]
    rfl

end IpcStreamSeg

end CodePort
