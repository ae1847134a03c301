/-
The message decoder.

`LoadSegment` injects a chain of received segments into the stream of the decoder and reads the
message from it.  For the stream every payload but the last one has the constant size of a block, and
the length of the last one is what a field of its header says.  How many octets have been received
plays no part.

Main definitions:

* `CodePort.IpcDecoder` — the class, with `loadSegment`;
* `CodePort.StreamBase.readStep` — the calls that read a stream, answered by what they copy;
* `CodePort.Accepted` — a datagram that `Recv` accepts as an in-band message;
* `CodePort.LengthsFit` — no payload is shorter than the stream takes it to be.

Main results:

* `CodePort.StreamBase.readStep_inside` — **every read stays inside the used part of a block**;
* `CodePort.IpcDecoder.reads_received_iff` — **the exact condition** under which every read stays
  inside the payload octets that were received;
* `CodePort.IpcDecoder.reads_unreceived` — a segment without payload is read behind its end.
-/

import CodePort.IpcAccumMap
import CodePort.IpcReassembly
import CodePort.IpcTransport
import CodePort.SerDesFactory

set_option relaxedAutoImplicit false
set_option autoImplicit false

namespace CodePort

open BlockStore IpcSegment StepSystem

/-! ### The calls that read a stream -/

/-- The piece that is copied lies inside the used part of a block of the stream. -/
def Chunk.Inside {β : Type} [BlockStore β] (s : StreamBase β) (c : Chunk) : Prop :=
  c.block ≤ s.lastBlock ∧ c.offset + c.size ≤ s.usedSize c.block

namespace StreamBase

variable {β : Type} [BlockStore β]

/-- A call that reads a stream or moves its cursor. -/
inductive ReadOp
  | seek (p : ℕ)
  | arrayRd (len : ℕ)

/-- What a call copies, and the stream afterwards. -/
def readStep (s : StreamBase β) : ReadOp → Option (List Chunk × StreamBase β)
  | .seek p => some ([], (s.seek p).2)
  | .arrayRd len => some (s.arrayRdChunks len)

/-- The stream `t` is `s` with its cursor somewhere else, not behind the last block. -/
structure Moved (s t : StreamBase β) : Prop where
  store_eq : t.store = s.store
  lastBlock_eq : t.lastBlock = s.lastBlock
  lastPos_eq : t.lastPos = s.lastPos
  curBlock_le : t.curBlock ≤ t.lastBlock

variable {s t u : StreamBase β}

omit [BlockStore β] in
theorem Moved.refl (h : s.curBlock ≤ s.lastBlock) : s.Moved s := ⟨rfl, rfl, rfl, h⟩

omit [BlockStore β] in
theorem Moved.trans (h : s.Moved t) (h' : t.Moved u) : s.Moved u :=
  ⟨h'.store_eq.trans h.store_eq, h'.lastBlock_eq.trans h.lastBlock_eq,
    h'.lastPos_eq.trans h.lastPos_eq, h'.curBlock_le⟩

theorem Moved.inside (h : s.Moved t) {c : Chunk} (hc : c.Inside t) : c.Inside s := by
  rw [Chunk.Inside, usedSize, h.store_eq, h.lastBlock_eq, h.lastPos_eq] at hc
  exact hc

/-- What is left of a block is all in its used part. -/
theorem inside_readSize (h : s.curBlock ≤ s.lastBlock) {n : ℕ} (hn : n ≤ s.readSize)
    (hpos : 0 < s.readSize) : Chunk.Inside s ⟨s.curBlock, s.curPos, n⟩ := by
  refine ⟨h, ?_⟩
  change s.curPos + n ≤ s.usedSize s.curBlock
  rw [readSize] at hn hpos
  rw [usedSize]
  split_ifs at hn hpos ⊢ <;> omega

/-- **The loop of `ArrayRd` stays inside the used parts of the blocks**, whatever the members of the
stream say about them. -/
theorem arrayRdLoop_inside (s : StreamBase β) (left : ℕ) (h : s.curBlock ≤ s.lastBlock) :
    (∀ c ∈ (s.arrayRdLoop left).1, c.Inside s) ∧ s.Moved (s.arrayRdLoop left).2 := by
  induction s, left using arrayRdLoop.induct with
  | case1 s =>
      rw [arrayRdLoop, if_pos rfl]
      exact ⟨by simp, .refl h⟩
  | case2 s left h0 hrs hnull =>
      rw [arrayRdLoop, if_neg h0, if_pos hrs, hnull]
      exact ⟨by simp, .refl h⟩
  | case3 s left h0 hrs mem hmem n ih =>
      obtain ⟨hin, hmoved⟩ := ih h
      have hfirst : Moved s { s with curPos := s.curPos + n } := ⟨rfl, rfl, rfl, h⟩
      rw [arrayRdLoop, if_neg h0, if_pos hrs, hmem]
      refine ⟨?_, hfirst.trans hmoved⟩
      intro c hc
      rcases List.mem_cons.1 hc with rfl | hc
      · exact inside_readSize h (min_le_left _ _) hrs
      · exact hfirst.inside (hin c hc)
  | case4 s left h0 hrs hlt ih =>
      obtain ⟨hin, hmoved⟩ := ih hlt
      have hnext : Moved s { s with curBlock := s.curBlock + 1, curPos := 0 } := ⟨rfl, rfl, rfl, hlt⟩
      rw [arrayRdLoop, if_neg h0, if_neg hrs, if_pos hlt]
      exact ⟨fun c hc => hnext.inside (hin c hc), hnext.trans hmoved⟩
  | case5 s left h0 hrs hlt =>
      rw [arrayRdLoop, if_neg h0, if_neg hrs, if_neg hlt]
      exact ⟨by simp, .refl h⟩

/-- The loop of `Seek` moves the cursor only, and not behind the last block. -/
theorem moved_seekLoop (p : ℕ) (s : StreamBase β) (i loc : ℕ) (h : s.curBlock ≤ s.lastBlock) :
    s.Moved (seekLoop p s i loc).2 := by
  fun_induction seekLoop p s i loc with
  | case1 s i loc hvalid hp =>
      rw [Bool.and_eq_true, decide_eq_true_iff] at hvalid
      exact ⟨rfl, rfl, rfl, hvalid.2⟩
  | case2 s i loc hvalid hp ih =>
      rw [Bool.and_eq_true, decide_eq_true_iff] at hvalid
      have hnext : s.Moved { s with curBlock := i, curPos := s.usedSize i } :=
        ⟨rfl, rfl, rfl, hvalid.2⟩
      exact hnext.trans (ih hvalid.2)
  | case3 s i loc hvalid => exact .refl h

/-- **Every read stays inside the used part of a block.** -/
theorem readStep_inside {o : ReadOp} {out : List Chunk} (h : s.curBlock ≤ s.lastBlock)
    (hstep : s.readStep o = some (out, t)) : (∀ c ∈ out, c.Inside s) ∧ s.Moved t := by
  cases o with
  | seek p =>
      obtain ⟨rfl, rfl⟩ := Prod.mk.inj (Option.some.inj hstep)
      exact ⟨by simp, moved_seekLoop p s 0 0 h⟩
  | arrayRd len =>
      have heq : s.arrayRdChunks len = (out, t) := Option.some.inj hstep
      rw [arrayRdChunks] at heq
      split_ifs at heq
      · obtain ⟨rfl, rfl⟩ := Prod.mk.inj heq
        exact ⟨by simp, .refl h⟩
      · have hloop := arrayRdLoop_inside s len h
        rw [heq] at hloop
        exact hloop
      · obtain ⟨rfl, rfl⟩ := Prod.mk.inj heq
        exact ⟨by simp, .refl h⟩

/-- So does every series of reads. -/
theorem run_readStep_inside {ops : List ReadOp} {outs : List (List Chunk)}
    (h : s.curBlock ≤ s.lastBlock) (hrun : run readStep ops s = some (outs, t)) :
    (∀ c ∈ outs.flatten, c.Inside s) ∧ s.Moved t := by
  have hstep : ∀ {u : StreamBase β} {o : ReadOp} {out : List Chunk} {u' : StreamBase β},
      s.Moved u → u.readStep o = some (out, u') → (∀ c ∈ out, c.Inside s) ∧ s.Moved u' := by
    intro u o out u' hu ho
    obtain ⟨hin, hmoved⟩ := readStep_inside hu.curBlock_le ho
    exact ⟨fun c hc => hu.inside (hin c hc), hu.trans hmoved⟩
  obtain ⟨houts, ht⟩ := run_answers hstep (Moved.refl h) hrun
  refine ⟨?_, ht⟩
  intro c hc
  obtain ⟨out, hout, hcout⟩ := List.mem_flatten.1 hc
  exact houts out hout c hcout

/-- `Read` into a buffer is a series of reads. -/
theorem reads_readBuf (s : StreamBase β) (m : MemPools) (buf : Buffer) (len : ℕ) :
    ∃ ops outs, run readStep ops s = some (outs, (s.readBuf m buf len).2.2) := by
  rcases s.readBuf_stream m buf len with ⟨length, heq⟩ | heq
  · rw [heq]
    exact ⟨[.arrayRd length], [(s.arrayRdChunks length).1], rfl⟩
  · rw [heq]
    exact ⟨[], [], rfl⟩

/-! ### Reading a whole block -/

/-- A read of what is left of a block copies it in one piece. -/
theorem arrayRdLoop_readSize (h0 : 0 < s.readSize)
    (hptr : blockMemPtr s.store s.curBlock ≠ none) :
    (s.arrayRdLoop s.readSize).1 = [⟨s.curBlock, s.curPos, s.readSize⟩] := by
  obtain ⟨mem, hmem⟩ := Option.ne_none_iff_exists'.1 hptr
  rw [arrayRdLoop, if_neg h0.ne', if_pos h0, hmem]
  simp only [min_self, Nat.sub_self]
  rw [arrayRdLoop, if_pos rfl]

/-- A read from the start of a block that is not the last one copies the whole block first. -/
theorem arrayRdLoop_block {left : ℕ} (hpos : s.curPos = 0) (hlt : s.curBlock < s.lastBlock)
    (hsize : 0 < blockSize s.store s.curBlock) (hptr : blockMemPtr s.store s.curBlock ≠ none)
    (hleft : blockSize s.store s.curBlock ≤ left) :
    (s.arrayRdLoop left).1 = ⟨s.curBlock, 0, blockSize s.store s.curBlock⟩ ::
      (({ s with curBlock := s.curBlock + 1, curPos := 0 } : StreamBase β).arrayRdLoop
        (left - blockSize s.store s.curBlock)).1 := by
  obtain ⟨mem, hmem⟩ := Option.ne_none_iff_exists'.1 hptr
  have hread : s.readSize = blockSize s.store s.curBlock := by
    rw [readSize, if_pos hlt, hpos, Nat.sub_zero]
  have hmin : min s.readSize left = blockSize s.store s.curBlock := by
    rw [hread, min_eq_left hleft]
  rw [arrayRdLoop, if_neg (by omega), if_pos (by omega), hmem]
  simp only [hmin, hpos, Nat.zero_add, List.cons.injEq, true_and]
  -- behind the block the loop goes on with the next one
  rcases Nat.eq_zero_or_pos (left - blockSize s.store s.curBlock) with h0 | h0
  · rw [h0, arrayRdLoop, if_pos rfl, arrayRdLoop, if_pos rfl]
  · rw [arrayRdLoop, if_neg h0.ne', if_neg, if_pos hlt]
    rw [readSize, if_pos (show s.curBlock < s.lastBlock from hlt), Nat.sub_self]
    exact lt_irrefl 0

/-- A read that is long enough copies every block before the last one as a whole. -/
theorem block_mem_arrayRdLoop {size n left : ℕ} (hpos : s.curPos = 0)
    (hlt : s.curBlock + n < s.lastBlock) (hsize : ∀ k, blockSize s.store k = size) (h0 : 0 < size)
    (hptr : ∀ k < s.lastBlock, blockMemPtr s.store k ≠ none) (hleft : (n + 1) * size ≤ left) :
    ⟨s.curBlock + n, 0, size⟩ ∈ (s.arrayRdLoop left).1 := by
  induction n generalizing s left with
  | zero =>
      rw [arrayRdLoop_block hpos hlt (by rw [hsize]; exact h0) (hptr _ hlt) (by rw [hsize]; omega),
        hsize]
      exact List.mem_cons_self
  | succ n ih =>
      have hcur : s.curBlock < s.lastBlock := by omega
      have hmul : (n + 1 + 1) * size = (n + 1) * size + size := Nat.succ_mul _ _
      rw [arrayRdLoop_block hpos hcur (by rw [hsize]; exact h0) (hptr _ hcur)
        (by rw [hsize]; omega), hsize]
      refine List.mem_cons_of_mem _ ?_
      have hrest := @ih { s with curBlock := s.curBlock + 1, curPos := 0 } (left - size) rfl
        (by simp only; omega) hsize hptr (by omega)
      rwa [show s.curBlock + 1 + n = s.curBlock + (n + 1) by omega] at hrest

end StreamBase

/-! ### The decoder -/

namespace IpcSegment

/-! The message type codes. -/

def msgRaw : UInt8 := 0
def msgDatum : UInt8 := 1
def msgControl : UInt8 := 2

end IpcSegment

open StreamBase

/-- The message decoder class. -/
structure IpcDecoder where
  /-- Buffer containing the decoded message. -/
  buffer : Buffer
  /-- Datum containing the decoded message. -/
  message : Datum
  /-- Segment stream used to decode an incoming datum. -/
  stream : IpcStreamSeg

namespace IpcDecoder

/-- The constructor. -/
def construct (m : MemPools) : IpcDecoder :=
  ⟨Buffer.construct m 0, Datum.construct m (ascii "Decoded") false, IpcStreamSeg.construct m 0⟩

/-- The members, cleared. -/
def clear (le : Bool) (m : MemPools) (dc : IpcDecoder) : IpcDecoder :=
  ⟨dc.buffer.clear 0, dc.message.clear le m, dc.stream.clear⟩

/-- The stream that a chain of segments is read from. -/
def inject (dc : IpcDecoder) (segs : List IpcSegment) : IpcStreamSeg :=
  IpcStreamSeg.segmentInject dc.stream.clear segs

/-- Load a segment list into the decoder. -/
def loadSegment (le : Bool) (m : MemPools) (tags : SerDesIdl.TagOrder) (fac : SerDesFactory)
    (dc : IpcDecoder) (segs : List IpcSegment) : Option (Bool × SerDesFactory × IpcDecoder) :=
  match segs with
  | [] => some (false, fac, dc.clear le m)
  | head :: _ =>
      -- load the segment stream
      let stream := dc.inject segs
      let dc := dc.clear le m
      -- decode the message
      if head.msgType = msgRaw ∨ head.msgType = msgControl then
        -- copy it into the buffer
        let s := (stream.seek 0).2
        let r := s.readBuf m dc.buffer s.lenGet
        some (decide (r.1 = r.2.2.lenGet), fac, { dc with buffer := r.2.1, stream := r.2.2 })
      else if head.msgType = msgDatum then
        -- attempt to decode the datum
        (dc.message.decodeAs le m tags fac false serDesAuto stream).map fun r =>
          (r.1, r.2.2.1, { dc with message := r.2.1, stream := r.2.2.2 })
      else some (false, fac, { dc with stream := stream })

/-- What `LoadSegment` does with the stream of a raw or a control message is a series of reads. -/
theorem loadSegment_raw (le : Bool) (m : MemPools) (tags : SerDesIdl.TagOrder)
    (fac : SerDesFactory) (dc : IpcDecoder) {head : IpcSegment} {tail : List IpcSegment}
    (h : head.msgType = msgRaw ∨ head.msgType = msgControl) :
    ∃ rv dc' ops outs, dc.loadSegment le m tags fac (head :: tail) = some (rv, fac, dc') ∧
      run readStep ops (dc.inject (head :: tail)) = some (outs, dc'.stream) := by
  set s := ((dc.inject (head :: tail)).seek 0).2
  have hseek : run readStep [.seek 0] (dc.inject (head :: tail)) = some ([[]], s) := rfl
  obtain ⟨ops, outs, hrun⟩ := reads_readBuf s m (dc.clear le m).buffer s.lenGet
  exact ⟨_, _, .seek 0 :: ops, [] :: outs, if_pos h, run_append hseek hrun⟩

end IpcDecoder

/-! ### Received segments -/

/-- `Recv` accepts a datagram as an in-band message, and this is the segment afterwards.  A device
answers an `int`, so it never reads 2^31 octets. -/
def Accepted (octets : List UInt8) (s : IpcSegment) : Prop :=
  ∃ (δ : Type) (m : MemPools) (t : IpcTransport δ) (dev : IoDev δ) (s₀ : IpcSegment) (d : δ),
    t.ptrRecvDevice = some dev ∧ (dev.recv d s₀.buf.size).1 = some octets ∧
      octets.length < 0x80000000 ∧ (t.recv m s₀ d).rv = true ∧ (t.recv m s₀ d).seg = s

/-- **An accepted segment** holds what was received, its length is in the bounds, and it has a
block. -/
theorem Accepted.spec {octets : List UInt8} {s : IpcSegment} (h : Accepted octets s) :
    s.buf.data = octets ∧ segData ≤ octets.length ∧ octets.length ≤ segMaxLen ∧
      s.buf.block ≠ none := by
  obtain ⟨δ, m, t, dev, s₀, d, hdev, hl, hlt, hrv, rfl⟩ := h
  simp only [IpcTransport.recv, hdev, IpcTransport.recvSegment] at hrv ⊢
  have hroom : ((s₀.buf.resize m s₀.buf.size).1 &&
      (s₀.buf.resize m s₀.buf.size).2.block.isSome) = true := by
    by_contra hc
    simp only [IoDev.recvBuf, hc, if_false] at hrv
    exact absurd hrv (by simp [kError])
  obtain ⟨hroom₁, hroom₂⟩ := Bool.and_eq_true_iff.1 hroom
  obtain ⟨hrcvd, hdata, -, -⟩ := IoDev.recvBuf_of_room hroom₁ hroom₂ hl hlt
  rw [hrcvd] at hrv ⊢
  split_ifs at hrv ⊢ with hpos hin
  have hlow : segData ≤ octets.length := by exact_mod_cast hin.1
  refine ⟨hdata, hlow, by exact_mod_cast hin.2, IpcSegment.block_ne_none ?_⟩
  rw [← Buffer.length_data, hdata]
  exact lt_of_lt_of_le (by decide) hlow

/-- Every datagram with a length in the bounds is accepted by a new segment, whatever it says. -/
theorem exists_accepted {octets : List UInt8} (hlow : segData ≤ octets.length)
    (hhigh : octets.length ≤ segMaxLen) : ∃ s, Accepted octets s := by
  set s₀ := IpcSegment.construct exactPools with hs₀
  have hsize : segMaxLen ≤ s₀.buf.size := full_construct (Option.some_ne_none _)
  have hmax : segMaxLen = 1024 := rfl
  have hmin : segData = 24 := rfl
  obtain ⟨block, hblock⟩ : ∃ block, s₀.buf.block = some block := by
    cases hb : s₀.buf.block with
    | none => simp [Buffer.size, Buffer.mem, hb, hmax] at hsize
    | some block => exact ⟨block, rfl⟩
  have hkeeps : s₀.buf.keeps s₀.buf.size = true := Buffer.keeps_size (by omega)
  have hresize : s₀.buf.resize exactPools s₀.buf.size = (true, s₀.buf) := by
    rw [Buffer.resize, if_pos hkeeps]
  have hread : (listDev.recv octets s₀.buf.size).1 = some octets :=
    congrArg some (List.take_of_length_le (hhigh.trans hsize))
  have hlt : octets.length < 0x80000000 := by omega
  obtain ⟨hrcvd, -, -, -⟩ := IoDev.recvBuf_of_room (by rw [hresize])
    (by rw [hresize, hblock]; rfl) hread hlt
  refine ⟨_, List UInt8, exactPools, ⟨none, some listDev, ∅⟩, listDev, s₀, octets, rfl, hread, hlt,
    ?_, rfl⟩
  simp only [IpcTransport.recv, IpcTransport.recvSegment, hrcvd]
  rw [if_pos (by omega), if_pos (by omega)]

/-- The payload length that the header of a datagram announces. -/
def announced (octets : List UInt8) : ℕ := readUint16B (octets.drop segDataLen)

theorem Accepted.dataLen_eq {octets : List UInt8} {s : IpcSegment} (h : Accepted octets s) :
    s.dataLen = announced octets := by
  obtain ⟨hdata, hlow, -, -⟩ := h.spec
  have hlow : 24 ≤ octets.length := hlow
  rw [IpcSegment.dataLen, announced, ← s.buf.data_append_drop, hdata, show segDataLen = 22 from rfl,
    List.drop_append_of_le_length (by omega), readUint16B, readUint16B,
    List.takeD_eq_take _ (by simp; omega), List.takeD_eq_take _ (by simp; omega),
    List.take_append_of_le_length (by simp; omega)]

/-- No payload is shorter than the stream takes it to be: all datagrams but the last one are full,
and the last one announces no more payload than it has. -/
def LengthsFit (octets : List (List UInt8)) : Prop :=
  (∀ d ∈ octets.dropLast, d.length = segMaxLen) ∧
    ∀ d ∈ octets.getLast?, announced d ≤ d.length - segData

/-- All octets that are copied are payload octets that were received. -/
def Chunk.Received (octets : List (List UInt8)) (c : Chunk) : Prop :=
  ∀ i, c.offset ≤ i → i < c.offset + c.size →
    ∃ d, octets[c.block]? = some d ∧ i < d.length - segData

namespace IpcDecoder

variable {octets : List (List UInt8)} {segs : List IpcSegment}

/-- The datagram and the segment at one place of a chain. -/
theorem accepted_getElem (h : List.Forall₂ Accepted octets segs) {k : ℕ} (hk : k < octets.length) :
    ∃ s, segs[k]? = some s ∧ Accepted octets[k] s := by
  obtain ⟨hlen, hall⟩ := List.forall₂_iff_get.1 h
  have hk' : k < segs.length := by omega
  exact ⟨segs[k], List.getElem?_eq_getElem hk', hall k hk hk'⟩

/-- The stream of a chain, in terms of what was received. -/
theorem inject_spec (dc : IpcDecoder) (h : List.Forall₂ Accepted octets segs) :
    (dc.inject segs).curBlock = 0 ∧ (dc.inject segs).curPos = 0 ∧
      (dc.inject segs).lastBlock = octets.length - 1 ∧
      (dc.inject segs).lastPos = (octets.getLast?.map announced).getD 0 ∧
      (dc.inject segs).store.segs = segs := by
  have hlen := h.length_eq
  rcases Nat.eq_zero_or_pos octets.length with h0 | hpos
  · obtain rfl := List.length_eq_zero_iff.1 h0
    obtain rfl := List.forall₂_nil_left_iff.1 h
    exact ⟨rfl, rfl, rfl, rfl, rfl⟩
  · -- the last datagram is the one of the tail
    obtain ⟨tail, htail, hacc⟩ := accepted_getElem h (show octets.length - 1 < octets.length by omega)
    have hlast : segs.getLast? = some tail := by
      rw [List.getLast?_eq_getElem?, ← hlen, htail]
    have hlast' : octets.getLast? = some octets[octets.length - 1] := by
      rw [List.getLast?_eq_getElem?, List.getElem?_eq_getElem]
    simp only [inject, IpcStreamSeg.segmentInject, hlast, hlast', Option.map_some, Option.getD_some,
      hacc.dataLen_eq, hlen, and_true]
    exact ⟨rfl, rfl⟩

/-- Every block of the stream of a chain has an address. -/
theorem blockMemPtr_inject (dc : IpcDecoder) (h : List.Forall₂ Accepted octets segs) {k : ℕ}
    (hk : k < octets.length) : blockMemPtr (dc.inject segs).store k ≠ none := by
  obtain ⟨s, hs, hacc⟩ := accepted_getElem h hk
  obtain ⟨-, -, -, hblock⟩ := hacc.spec
  simp only [BlockStore.blockMemPtr, IpcStreamSegMem.blockMemPtr, (inject_spec dc h).2.2.2.2, hs,
    Option.bind_some, ne_eq, Option.map_eq_none_iff]
  exact hblock

/-- A read that is long enough copies the whole block of every datagram before the last one. -/
theorem block_mem_inject (dc : IpcDecoder) (h : List.Forall₂ Accepted octets segs) {k : ℕ}
    (hk : k + 1 < octets.length) :
    ⟨k, 0, capacity⟩ ∈ ((dc.inject segs).arrayRdChunks ((k + 1) * capacity)).1 := by
  obtain ⟨hcur, hpos, hlb, -, hsegs⟩ := inject_spec dc h
  have hlt : (dc.inject segs).curBlock + k < (dc.inject segs).lastBlock := by omega
  have hread : (dc.inject segs).readable = true := by
    have hne : segs ≠ [] := by
      rw [← List.length_pos_iff, ← h.length_eq]
      omega
    simp only [readable, BlockStore.memoryChk, hsegs, List.isEmpty_eq_false_iff.2 hne]
    simp only [Bool.not_false, Bool.true_and, Bool.or_eq_true, decide_eq_true_eq]
    exact .inl (by omega)
  have hmem := block_mem_arrayRdLoop hpos hlt (fun _ => rfl) (show 0 < capacity by decide)
    (fun j hj => blockMemPtr_inject dc h (by omega)) le_rfl
  rw [hcur, Nat.zero_add] at hmem
  rw [arrayRdChunks, if_neg (Nat.mul_pos (Nat.succ_pos k) (by decide)).ne', if_pos hread]
  exact hmem

/-- **The exact condition of the reads of a decoder.**  The end of the stream, and every octet that
any series of reads of it copies, lies inside the payload octets that were received, if and only if no
payload is shorter than the stream takes it to be. -/
theorem reads_received_iff (dc : IpcDecoder) (h : List.Forall₂ Accepted octets segs) :
    ((∀ d ∈ octets.getLast?, (dc.inject segs).lastPos ≤ d.length - segData) ∧
      ∀ ops outs s, run readStep ops (dc.inject segs) = some (outs, s) →
        ∀ c ∈ outs.flatten, c.Received octets) ↔ LengthsFit octets := by
  obtain ⟨hcur, hpos, hlb, hlp, hsegs⟩ := inject_spec dc h
  have hend : ∀ d ∈ octets.getLast?, (dc.inject segs).lastPos = announced d := by
    intro d hd
    rw [hlp, Option.mem_def.1 hd]
    rfl
  constructor
  · rintro ⟨htail, hreads⟩
    refine ⟨?_, fun d hd => hend d hd ▸ htail d hd⟩
    intro d hd
    -- a read from the start copies the whole block of this datagram
    obtain ⟨k, hk, rfl⟩ := List.mem_iff_getElem.1 hd
    rw [List.length_dropLast] at hk
    rw [List.getElem_dropLast]
    have hrun := hreads [.arrayRd ((k + 1) * capacity)] _ _ rfl ⟨k, 0, capacity⟩
      (by rw [List.flatten_singleton]; exact block_mem_inject dc h (by omega))
    have hlast : capacity - 1 < 0 + capacity := by decide
    obtain ⟨d, hd, hlt⟩ := hrun (capacity - 1) (Nat.zero_le _) hlast
    rw [show octets[k]? = some octets[k] from List.getElem?_eq_getElem (by omega),
      Option.some_inj] at hd
    obtain ⟨s, -, hacc⟩ := accepted_getElem h (show k < octets.length by omega)
    obtain ⟨-, -, hle, -⟩ := hacc.spec
    rw [hd] at hle ⊢
    rw [show capacity = 1000 from rfl, show segData = 24 from rfl] at hlt
    rw [show segMaxLen = 1024 from rfl] at hle ⊢
    omega
  · rintro ⟨hfull, htail⟩
    refine ⟨fun d hd => hend d hd ▸ htail d hd, ?_⟩
    intro ops outs s hrun c hc i hlo hhi
    obtain ⟨hin, -⟩ := run_readStep_inside (by rw [hcur]; exact Nat.zero_le _) hrun
    obtain ⟨hblock, hused⟩ := hin c hc
    have hi : i < (dc.inject segs).usedSize c.block := by omega
    rw [hlb] at hblock
    rw [usedSize, hlb] at hi
    split_ifs at hi with hlt
    · -- a datagram before the last one
      refine ⟨octets[c.block], List.getElem?_eq_getElem (by omega), ?_⟩
      have hmem : octets[c.block] ∈ octets.dropLast :=
        List.mem_iff_getElem.2 ⟨c.block, by rw [List.length_dropLast]; omega,
          List.getElem_dropLast _⟩
      rw [hfull _ hmem]
      exact hi
    · rcases List.eq_nil_or_concat octets with rfl | ⟨init, d, rfl⟩
      · exact absurd hi (by rw [hlp]; exact Nat.not_lt_zero i)
      · have hlast : d ∈ (init.concat d).getLast? := by simp
        have hk : c.block = init.length := by
          rw [List.length_concat] at hblock hlt
          omega
        refine ⟨d, by simp [hk], ?_⟩
        rw [hend d hlast] at hi
        exact lt_of_lt_of_le hi (htail d hlast)

/-- A datagram that announces `len` octets of payload. -/
def datagram (len : ℕ) (payload : List UInt8) : List UInt8 :=
  List.replicate 22 0 ++ Octets.toBE 2 len ++ payload

/-- A datagram without payload that announces `len` octets of it. -/
def bareDatagram (len : ℕ) : List UInt8 := datagram len []

/-- A message of 2500 octets in three datagrams. -/
def threeDatagrams : List (List UInt8) :=
  [datagram 1000 (List.replicate 1000 1), datagram 1000 (List.replicate 1000 2),
    datagram 500 (List.replicate 500 3)]

/-- A read of 2000 octets copies the payloads of the first two. -/
theorem reads_received_three : ∃ segs, List.Forall₂ Accepted threeDatagrams segs ∧
    ((construct exactPools).inject segs).lastPos = 500 ∧
    (∃ outs t, run readStep [.arrayRd 2000] ((construct exactPools).inject segs) = some (outs, t) ∧
      ⟨1, 0, 1000⟩ ∈ outs.flatten) ∧
    ∀ ops outs t, run readStep ops ((construct exactPools).inject segs) = some (outs, t) →
      ∀ c ∈ outs.flatten, c.Received threeDatagrams := by
  have hlen : ∀ d ∈ threeDatagrams, segData ≤ d.length ∧ d.length ≤ segMaxLen := by decide +kernel
  obtain ⟨s₁, hs₁⟩ := exists_accepted (hlen _ (.head _)).1 (hlen _ (.head _)).2
  obtain ⟨s₂, hs₂⟩ := exists_accepted (hlen _ (.tail _ (.head _))).1 (hlen _ (.tail _ (.head _))).2
  obtain ⟨s₃, hs₃⟩ := exists_accepted (hlen _ (.tail _ (.tail _ (.head _)))).1
    (hlen _ (.tail _ (.tail _ (.head _)))).2
  have h : List.Forall₂ Accepted threeDatagrams [s₁, s₂, s₃] := .cons hs₁ (.cons hs₂ (.cons hs₃ .nil))
  have hfit : LengthsFit threeDatagrams := by
    refine ⟨by decide +kernel, fun d hd => ?_⟩
    obtain rfl := Option.some.inj hd
    decide +kernel
  obtain ⟨-, -, -, hlp, -⟩ := inject_spec (construct exactPools) h
  refine ⟨_, h, hlp.trans (by decide +kernel), ⟨_, _, rfl, ?_⟩,
    ((reads_received_iff (construct exactPools) h).2 hfit).2⟩
  rw [List.flatten_singleton]
  exact block_mem_inject _ h (k := 1) (by decide)

/-- **A segment without payload is read behind its end.**  The accumulator hands it on like any
other, and the first read takes as many octets from behind the header as the header announces. -/
theorem reads_unreceived : ∃ s, Accepted (bareDatagram 65535) s ∧
    IpcAccumMap.accumulate ∅ 0 ⟨0, s⟩ = ([⟨0, s⟩], ∅) ∧
    ((construct exactPools).inject [s]).lastPos = 65535 ∧
    (((construct exactPools).inject [s]).arrayRdChunks 65535).1 = [⟨0, 0, 65535⟩] ∧
    ¬ (Chunk.mk 0 0 65535).Received [bareDatagram 65535] := by
  obtain ⟨s, hs⟩ := @exists_accepted (bareDatagram 65535) (by decide) (by decide)
  have hchain : List.Forall₂ Accepted [bareDatagram 65535] [s] := .cons hs .nil
  obtain ⟨hcur, hpos, hlb, hlp, hsegs⟩ := inject_spec (construct exactPools) hchain
  have hptr := blockMemPtr_inject (construct exactPools) hchain (show 0 < 1 from Nat.one_pos)
  set st := (construct exactPools).inject [s]
  have hlp : st.lastPos = 65535 := hlp.trans (by decide)
  refine ⟨s, hs, ?_, hlp, ?_, ?_⟩
  · obtain ⟨hdata, -, -, -⟩ := hs.spec
    have hlen : segData ≤ s.buf.dataLen := by
      rw [← Buffer.length_data, hdata]
      decide
    have hmulti : SegPtr.multipart ⟨0, s⟩ = false := by
      rw [SegPtr.multipart, options_eq hlen, hdata]
      decide
    rw [IpcAccumMap.accumulate, hmulti]
    rfl
  · have hread : st.readable = true := by
      simp [readable, BlockStore.memoryChk, hsegs, hcur, hpos, hlp]
    have hsize : st.readSize = 65535 := by
      rw [readSize, hcur, hlb, hpos, hlp]
      rfl
    have hloop := @arrayRdLoop_readSize _ _ st (by rw [hsize]; decide) (by rw [hcur]; exact hptr)
    rw [hsize, hcur, hpos] at hloop
    rw [arrayRdChunks, if_neg (by decide), if_pos hread, hloop]
  · intro h
    obtain ⟨d, hd, hlt⟩ := h 0 (Nat.zero_le _) (by decide)
    obtain rfl : bareDatagram 65535 = d := Option.some.inj hd
    exact absurd hlt (by decide)

end IpcDecoder

end CodePort
