/-
Fragment numbers of the messages that a node sends.

The sending functions of a node write a payload to a segment stream and queue the segments that it is
made of.  A segment gets the count of the blocks so far as its fragment number, which the header keeps in
two octets, and nobody compares the count with what two octets can hold.

Main definitions:

* `CodePort.SendNode`, `createSegment`, `sendBuf`, `sendDat` — the sending functions;
* `CodePort.SendNode.Sent` — a message of so many segments has been queued;
* `CodePort.FragmentsNumbered` — what the receiver of a message expects.

Main results:

* `CodePort.IpcStreamSeg.writable_built` — the invariant of the stream that is written;
* `CodePort.fragNums_fragments` — the fragment numbers of a message, modulo `2 ^ 16`;
* `CodePort.send_fragNums_iff` — **the fragment numbers are right if and only if two octets hold them
  all**.
-/

import CodePort.BufferStream
import CodePort.EncodeMaintains
import CodePort.IpcReassembly
import CodePort.IpcTransmitQueue

set_option relaxedAutoImplicit false
set_option autoImplicit false

namespace CodePort

open IpcSegment IpcStreamSegMem Octets

/-! ### Sending -/

/-- The members of a node that the sending functions use. -/
structure SendNode where
  /-- The instance initialized successfully. -/
  valid : Bool
  nodeAddr : ℕ
  transmitQueue : IpcTransmitQueue

/-- The arguments of a sending function other than its payload. -/
structure SendArgs where
  address : ℕ
  msgType : UInt8
  ctlCode : UInt8
  context : ℕ
  priority : UInt8

/-- What a sending function answers. -/
structure SendResult where
  /-- The message ID, or 0. -/
  rv : ℕ
  transmitQueue : IpcTransmitQueue
  /-- The segments of the message as they were put into the queue. -/
  queued : List SegPtr

namespace SendNode

/-- Create a segment and populate fields. -/
def createSegment (m : MemPools) (node : SendNode) (args : SendArgs) : Option IpcSegment :=
  if args.address = 0 then none
  -- a segment whose memory is not there cannot be created
  else if (m.blockSize segMaxLen).isSome then
    some ((((((IpcSegment.construct m).setPriority args.priority).setSrcAddr node.nodeAddr).setDstAddr
      args.address).setContext args.context).setMsgType args.msgType |>.setCtlCode args.ctlCode)
  else none

/-- The stream with the template of a message, if the node is valid and the template can be created. -/
def openStream (m : MemPools) (node : SendNode) (args : SendArgs) : Option IpcStreamSeg :=
  if node.valid then
    (node.createSegment m args).map fun pSeg => (IpcStreamSeg.construct m 0).setTemplate pSeg
  else none

/-- Nothing is sent. -/
def refuse (node : SendNode) : SendResult := ⟨0, node.transmitQueue, []⟩

/-- `TransmitMessage` of the segments of a stream, which lie at the addresses `addr`. -/
def transmit (addr : ℕ → ℕ) (node : SendNode) (strm : IpcStreamSeg) : Option SendResult :=
  let chain := strm.finalize.segmentExtract.1.mapIdx fun i seg => (⟨addr i, seg⟩ : SegPtr)
  (node.transmitQueue.transmitMessage chain).map fun r =>
    ⟨r.1, r.2, chain.modifyHead fun head => head.setMsgId r.1⟩

/-- `SendBuf`.  The buffer is the octets that are to be sent; `none` is the NULL pointer. -/
def sendBuf (m : MemPools) (addr : ℕ → ℕ) (node : SendNode) (args : SendArgs)
    (pBuf : Option (List UInt8)) : Option SendResult :=
  match pBuf with
  | none => some node.refuse
  | some buf =>
      if buf.length = 0 then some node.refuse
      else
        match node.openStream m args with
        | none => some node.refuse
        | some strm => do
            -- copy payload into segment stream
            let r ← strm.arrayWr buf
            if r.1 = buf.length then node.transmit addr r.2 else some node.refuse

/-- `SendDat`. -/
def sendDat (le : Bool) (m : MemPools) (xml : SerDesXml) (fac : SerDesFactory) (addr : ℕ → ℕ)
    (node : SendNode) (args : SendArgs) (dat : Datum) : Option SendResult :=
  match node.openStream m args with
  | none => some node.refuse
  | some strm => do
      let r ← dat.encodeAs le m xml fac serDesNative .none strm
      if r.1 then node.transmit addr r.2.2 else some node.refuse

end SendNode

/-! ### The fragment numbers of a chain -/

/-- The number of a fragment is read back modulo `2 ^ 16`. -/
theorem fragNum_fragment {base : List UInt8} (hbase : base.length = segData) {n i : ℕ}
    {payload : List UInt8} {s : IpcSegment}
    (hdata : s.buf.data = fragHead base n i (slice payload i).length ++ slice payload i) :
    s.fragNum = (i + 1) % 2 ^ 16 := by
  have hhead := length_fragHead hbase n i (slice payload i).length
  have hlen : segData ≤ s.buf.dataLen := by
    rw [← Buffer.length_data, hdata, List.length_append, hhead]
    exact Nat.le_add_right _ _
  rw [fragNum_eq hlen, hdata, fieldAt_append (by rw [hhead]; decide), fieldAt_fragHead_fragNum hbase,
    ofBE_toBE, show 256 ^ 2 = 2 ^ 16 from rfl]

/-- **The fragment numbers of a message**, modulo `2 ^ 16`. -/
theorem fragNums_fragments {base payload : List UInt8} (hbase : base.length = segData)
    {segs : List IpcSegment} (hdata : segs.map (fun x => x.buf.data) = fragments base payload) :
    segs.map IpcSegment.fragNum =
      (List.range (segCount payload.length)).map fun i => (i + 1) % 2 ^ 16 := by
  obtain ⟨hlen, hget⟩ := data_fragments rfl hdata
  refine List.ext_getElem (by simp [hlen]) fun i h₁ h₂ => ?_
  rw [List.getElem_map, List.getElem_map, List.getElem_range]
  exact fragNum_fragment hbase (hget i (by simpa using h₁))

/-- The message ID is another field. -/
theorem fragNum_setMsgId {s : IpcSegment} (h : s.Full) (id : ℕ) :
    (s.setMsgId id).fragNum = s.fragNum := by
  have hle : segMsgId ≤ s.buf.mem.length := le_trans (by decide) h
  change ofBE (fieldAt (s.setMsgId id).buf.mem segFragNum 2) = ofBE (fieldAt s.buf.mem segFragNum 2)
  rw [setMsgId, hdrWr, Buffer.mem_memWr h.size_pos,
    fieldAt_overwrite_of_disjoint hle (.inl (by decide))]

/-! ### The stream that is written -/

namespace IpcStreamSeg

/-- A stream that has been written from its start, with headers from `base`: it stands at its end, no
segment is spare and the chain keeps its invariant. -/
structure Built (base : List UInt8) (s : IpcStreamSeg) : Prop where
  atEnd : ∃ f, s.Represents f ∧ f.AtEnd
  noSpare : s.NoSpare
  chain : Chain base s.store

theorem Built.clear {base : List UInt8} {s : IpcStreamSeg} (h : Built base s) :
    Built base s.clear := by
  obtain ⟨f, hrep, -⟩ := h.atEnd
  obtain ⟨tailLen, hcov, -⟩ := h.chain.sigs
  have hready : LawfulBlockStore.Ready (BlockStore.memoryFree s.store) :=
    LawfulBlockStore.ready_memoryFree h.chain.ready
  exact ⟨⟨_, hrep.clear, rfl⟩, Nat.zero_le _, hready, h.chain.base_eq, h.chain.template, tailLen, hcov,
    rfl⟩

/-- A write to such a stream stores everything. -/
theorem Built.arrayWr {base : List UInt8} {s : IpcStreamSeg} (h : Built base s) (d : List UInt8) :
    ∃ t, s.arrayWr d = some (d.length, t) ∧ Built base t ∧ t.octets = s.octets ++ d := by
  obtain ⟨f, hrep, hend⟩ := h.atEnd
  obtain ⟨t, hrun, ht, hspare⟩ := hrep.arrayWr d
  have hoctets : t.octets = s.octets ++ d := by
    rw [ht.octets_eq, FlatStream.content_write_of_atEnd hend, hrep.octets_eq]
  have hchain : Chain base t.store :=
    StreamBase.arrayWr_store (Q := Chain base) (fun _ k off d hb => chain_blockMemWr hb k off d)
      (fun _ n hb => chain_memoryAdd hb n) hrun h.chain
  exact ⟨t, hrun, ⟨⟨_, ht, FlatStream.atEnd_write hend d⟩, hspare h.noSpare, hchain⟩, hoctets⟩

/-- **The invariant of the stream that is written.** -/
theorem writable_built (base : List UInt8) : Writable (Built base) where
  clear _ h := h.clear
  arrayWr s d r h hr := by
    obtain ⟨t, ht, hbuilt, -⟩ := h.arrayWr d
    obtain rfl := Option.some.inj (ht.symm.trans hr)
    exact hbuilt

/-- **The segments that are extracted from such a stream.** -/
theorem Built.extract {base : List UInt8} {s : IpcStreamSeg} (h : Built base s)
    (hne : s.octets ≠ []) :
    s.finalize.segmentExtract.1.map IpcSegment.fragNum =
        (List.range (segCount s.octets.length)).map (fun i => (i + 1) % 2 ^ 16) ∧
      ∀ x ∈ s.finalize.segmentExtract.1, x.Full := by
  obtain ⟨f, hrep, -⟩ := h.atEnd
  have hcontent : s.octets = f.content := hrep.octets_eq
  rw [hcontent] at hne ⊢
  obtain ⟨hdata, hfull⟩ := data_finalize hrep h.noSpare h.chain.signed hne
  exact ⟨fragNums_fragments h.chain.length_base hdata, hfull⟩

/-- A new stream with the template of a message. -/
theorem built_withTemplate {m : MemPools} (hm : m.blockSize segMaxLen ≠ none) {seg : IpcSegment}
    (hlen : 2 ≤ seg.buf.dataLen) :
    Built (baseHead m (some seg)) ((IpcStreamSeg.construct m 0).setTemplate seg) ∧
      ((IpcStreamSeg.construct m 0).setTemplate seg).octets = [] := by
  have hchain := @chain_withTemplate m hm (some seg) hlen
  obtain ⟨hsegs, -, -⟩ := segs_withTemplate m (some seg)
  obtain ⟨hlast, hpos, hcur⟩ := pos_withTemplate m (some seg)
  have hrep := represents_of_segs_nil hchain.ready hsegs ⟨hlast, hpos⟩ hcur
  refine ⟨⟨⟨_, hrep, rfl⟩, ?_, hchain⟩, hrep.octets_eq⟩
  change ((withTemplate m (some seg)).store.segs.map window).length ≤ _
  rw [hsegs]
  exact Nat.zero_le _

end IpcStreamSeg

/-! ### The queue -/

namespace IpcTransmitQueue

/-- A message is put somewhere into a queue without NULL pointers. -/
theorem insertPriority_perm (priority : UInt8) (chain : List SegPtr) {q : List (List SegPtr)}
    (hq : ∀ c ∈ q, c ≠ []) :
    ∃ q', insertPriority priority chain q = some q' ∧ q'.Perm (chain :: q) := by
  induction q with
  | nil => exact ⟨[chain], rfl, .refl _⟩
  | cons c q ih =>
      obtain ⟨p, tail, rfl⟩ := List.exists_cons_of_ne_nil (hq c List.mem_cons_self)
      rw [insertPriority]
      split_ifs
      · exact ⟨_, rfl, .refl _⟩
      · obtain ⟨q', hq', hperm⟩ := ih fun c hc => hq c (List.mem_cons_of_mem _ hc)
        rw [hq', Option.map_some]
        exact ⟨_, rfl, (hperm.cons _).trans (.swap _ _ _)⟩

end IpcTransmitQueue

/-! ### What is sent -/

/-- The greatest fragment number that a header can hold. -/
def maxFragNum : ℕ := 65535

namespace SendNode

/-- A message of `n` segments has been queued, with the fragment numbers modulo `2 ^ 16`. -/
structure Sent (node : SendNode) (n : ℕ) (r : SendResult) : Prop where
  rv_ne : r.rv ≠ 0
  queue : r.transmitQueue.priorityQueue.Perm (r.queued :: node.transmitQueue.priorityQueue)
  fragNums : r.queued.map (fun p => p.seg.fragNum) = (List.range n).map fun i => (i + 1) % 2 ^ 16

/-- The call has queued a message, or nothing. -/
def Queued (node : SendNode) (r : SendResult) : Prop :=
  r.rv ≠ 0 ∧ r.transmitQueue.priorityQueue.Perm (r.queued :: node.transmitQueue.priorityQueue) ∨
    r = node.refuse

/-- **What the receiver of a message expects**: the fragments have the numbers from 1 on, and a payload
that needs more segments than there are numbers is refused. -/
structure FragmentsNumbered (node : SendNode) (needed : ℕ) (r : SendResult) : Prop where
  numbered : r.queued.map (fun p => p.seg.fragNum) = List.range' 1 r.queued.length
  refused : maxFragNum < needed → r = node.refuse

variable {m : MemPools} {node : SendNode} {args : SendArgs} {n : ℕ} {r : SendResult}

theorem fragmentsNumbered_refuse (node : SendNode) (needed : ℕ) :
    FragmentsNumbered node needed node.refuse := ⟨rfl, fun _ => rfl⟩

/-- The fragments of a message have the right numbers if and only if two octets hold them all. -/
theorem Sent.fragmentsNumbered_iff (h : Sent node n r) :
    FragmentsNumbered node n r ↔ n ≤ maxFragNum := by
  constructor
  · intro hnum
    by_contra hlt
    have hrefuse := hnum.refused (not_le.1 hlt)
    exact h.rv_ne (hrefuse ▸ rfl)
  · intro hle
    have hlen : r.queued.length = n := by
      have := congrArg List.length h.fragNums
      simpa using this
    refine ⟨?_, fun hlt => absurd hle (not_le.2 hlt)⟩
    rw [h.fragNums, hlen, List.range'_eq_map_range]
    refine List.map_congr_left fun i hi => ?_
    have hi' := List.mem_range.1 hi
    have hmax : maxFragNum = 65535 := rfl
    rw [Nat.mod_eq_of_lt (by omega), Nat.add_comm]

theorem Sent.queued (h : Sent node n r) : Queued node r := .inl ⟨h.rv_ne, h.queue⟩

/-- **The segments of a stream are queued.** -/
theorem transmit_sent (addr : ℕ → ℕ) {base : List UInt8} {strm : IpcStreamSeg} (hbuilt : strm.Built base)
    (hne : strm.octets ≠ []) (hq : ∀ c ∈ node.transmitQueue.priorityQueue, c ≠ []) :
    ∃ r, node.transmit addr strm = some r ∧ Sent node (segCount strm.octets.length) r := by
  obtain ⟨hnums, hfull⟩ := hbuilt.extract hne
  have hpos := segCount_pos (List.length_pos_iff.2 hne)
  rw [transmit]
  generalize strm.finalize.segmentExtract.1 = segs at hnums hfull
  cases segs with
  | nil =>
      have hlen := congrArg List.length hnums
      simp only [List.map_nil, List.length_nil, List.length_map, List.length_range] at hlen
      omega
  | cons seg segs =>
      set tail := segs.mapIdx fun i seg => (⟨addr (i + 1), seg⟩ : SegPtr) with htail
      have hmap : tail.map (fun p => p.seg.fragNum) = segs.map IpcSegment.fragNum := by
        refine List.ext_getElem (by simp [htail]) fun i h₁ h₂ => ?_
        simp [htail]
      simp only [List.mapIdx_cons, ← htail, IpcTransmitQueue.transmitMessage, List.modifyHead_cons]
      set id := IpcTransmitQueue.nextMsgId node.transmitQueue.msgId with hid
      obtain ⟨q', hq', hperm⟩ := IpcTransmitQueue.insertPriority_perm seg.priority
        ((⟨addr 0, seg⟩ : SegPtr).setMsgId id :: tail) hq
      refine ⟨_, by rw [hq', Option.map_some, Option.map_some], ?_, hperm, ?_⟩
      · exact (nextMsgId_pos _).ne'
      · have hhead : ((⟨addr 0, seg⟩ : SegPtr).setMsgId id).seg.fragNum = seg.fragNum :=
          fragNum_setMsgId (hfull seg List.mem_cons_self) id
        rw [← hnums, List.map_cons, List.map_cons, hmap, hhead]

/-- A template has a header. -/
theorem dataLen_createSegment (hm : m.blockSize segMaxLen ≠ none) {seg : IpcSegment}
    (h : node.createSegment m args = some seg) : 2 ≤ seg.buf.dataLen := by
  rw [createSegment] at h
  split_ifs at h
  obtain rfl := Option.some.inj h
  change 2 ≤ (((Buffer.construct m segMaxLen).clear 0).lenSet segData).dataLen
  rw [Buffer.dataLen_lenSet (le_size_clear hm)]
  decide

/-- When there is a stream for the payload. -/
theorem openStream_spec (hm : m.blockSize segMaxLen ≠ none) :
    (node.openStream m args = none ↔ ¬ (node.valid = true ∧ args.address ≠ 0)) ∧
      ∀ strm, node.openStream m args = some strm → strm.octets = [] ∧ ∃ base, strm.Built base := by
  constructor
  · rw [openStream, createSegment]
    have hsome : (m.blockSize segMaxLen).isSome = true := Option.isSome_iff_ne_none.2 hm
    rw [if_pos hsome]
    split_ifs with hvalid haddr <;> simp_all
  · intro strm h
    rw [openStream] at h
    split_ifs at h
    obtain ⟨seg, hseg, rfl⟩ := Option.map_eq_some_iff.1 h
    obtain ⟨hbuilt, hoctets⟩ := IpcStreamSeg.built_withTemplate hm (dataLen_createSegment hm hseg)
    exact ⟨hoctets, _, hbuilt⟩

/-- Every buffer is sent, however long it is. -/
theorem sendBuf_sent (addr : ℕ → ℕ) (hm : m.blockSize segMaxLen ≠ none)
    (hq : ∀ c ∈ node.transmitQueue.priorityQueue, c ≠ []) (hvalid : node.valid = true)
    (haddr : args.address ≠ 0) {buf : List UInt8} (hne : buf ≠ []) :
    ∃ r, node.sendBuf m addr args (some buf) = some r ∧ Sent node (segCount buf.length) r := by
  obtain ⟨hnone, hopen⟩ := @openStream_spec m node args hm
  obtain ⟨strm, hstrm⟩ := Option.ne_none_iff_exists'.1 (mt hnone.1 fun h => h ⟨hvalid, haddr⟩)
  obtain ⟨hoctets, base, hbuilt⟩ := hopen strm hstrm
  obtain ⟨t, ht, hbuilt', hwritten⟩ := hbuilt.arrayWr buf
  rw [hoctets, List.nil_append] at hwritten
  obtain ⟨r, hr, hsent⟩ := transmit_sent addr hbuilt' (by rw [hwritten]; exact hne) hq
  rw [hwritten] at hsent
  refine ⟨r, ?_, hsent⟩
  have hlen : buf.length ≠ 0 := fun h => hne (List.length_eq_zero_iff.1 h)
  simp only [sendBuf, if_neg hlen, hstrm, ht, Option.bind_eq_bind, Option.bind_some, if_true, hr]

end SendNode

namespace SerDesFactory

/-- A pool of native serializers hands out one of them. -/
theorem PoolOf.take_native {pool : List SerDes} (h : PoolOf serDesNative pool) :
    (poolTake pool).1 = some .native := by
  have hnative : ∀ sd : SerDes, sd.nameGet = serDesNative → sd = .native := by
    intro sd hsd
    cases sd with
    | native => rfl
    | xml => exact absurd hsd (by decide)
    | idl ser =>
        have hne : serDesIdl ≠ serDesNative := by decide
        exact absurd hsd hne
  match pool with
  | [] => exact absurd rfl h.ne_nil
  | [sd] =>
      obtain rfl := hnative sd (h.nameGet_eq sd List.mem_cons_self)
      rfl
  | sd :: _ :: _ =>
      obtain rfl := hnative sd (h.nameGet_eq sd List.mem_cons_self)
      rfl

theorem Stocked.serDesGet_native {fac : SerDesFactory} (h : fac.Stocked) :
    (fac.serDesGet serDesNative).1 = some .native := by
  obtain ⟨idl, native, xml, -, hnative, -, hpools⟩ := h
  have hne : serDesIdl ≠ serDesNative := by decide
  have hget : (poolGet serDesNative fac.pools).1 = some .native := by
    rw [hpools, poolGet, if_neg hne, poolGet, if_pos rfl]
    exact hnative.take_native
  exact hget

end SerDesFactory

/-- A native encoding of a datum that is not inert, with the serializers in their places. -/
theorem Datum.encodeAs_native {le : Bool} {m : MemPools} (xml : SerDesXml) {fac : SerDesFactory}
    (hfac : fac.Stocked) {dat : Datum} (hact : dat.isInert = false) {strm s : IpcStreamSeg}
    (hs : dat.encode le m .none strm = some (true, s)) :
    ∃ fac', dat.encodeAs le m xml fac serDesNative .none strm = some (true, fac', s) := by
  rcases hget : fac.serDesGet serDesNative with ⟨sd, fac₁⟩
  have hsd := hfac.serDesGet_native
  rw [hget] at hsd
  obtain rfl : sd = some .native := hsd
  refine ⟨(fac₁.serDesPut (some .native)).2, ?_⟩
  rw [Datum.encodeAs, hact, if_neg Bool.false_ne_true, hget]
  simp only [SerDes.encode, hs, Option.map_some]

namespace SendNode

variable {m : MemPools} {node : SendNode} {args : SendArgs}

/-- **Whatever the encoder leaves in the stream is sent**, however long it is. -/
theorem sendDat_sent (le : Bool) (addr : ℕ → ℕ) (hm : m.blockSize segMaxLen ≠ none) (xml : SerDesXml)
    {fac : SerDesFactory} (hfac : fac.Stocked)
    (hq : ∀ c ∈ node.transmitQueue.priorityQueue, c ≠ []) {strm : IpcStreamSeg}
    (hstrm : node.openStream m args = some strm) {dat : Datum} (hact : dat.isInert = false) :
    ∃ fac' s r, dat.encodeAs le m xml fac serDesNative .none strm = some (true, fac', s) ∧
      node.sendDat le m xml fac addr args dat = some r ∧ Sent node (segCount s.octets.length) r := by
  obtain ⟨-, base, hbuilt⟩ := (openStream_spec hm).2 strm hstrm
  obtain ⟨f, hrep, -⟩ := hbuilt.atEnd
  obtain ⟨s, c, hs, hc, f', hrep', -, hcontent⟩ := Datum.ends_encodeNative le m hact .none hrep
  have hbuilt' : IpcStreamSeg.Built base s :=
    Datum.maintains_encode (IpcStreamSeg.writable_built base) le m dat .none hbuilt _ hs
  have hne : s.octets ≠ [] := by
    rw [show s.octets = f'.content from hrep'.octets_eq, hcontent]
    exact hc
  obtain ⟨r, hr, hsent⟩ := transmit_sent addr hbuilt' hne hq
  obtain ⟨fac', hrun⟩ := Datum.encodeAs_native xml hfac hact hs
  refine ⟨fac', s, r, hrun, ?_, hsent⟩
  simp only [sendDat, hstrm, hrun, Option.bind_eq_bind, Option.bind_some, if_true, hr]

/-- **The fragment numbers are right if and only if two octets hold them all.**  Whatever a node sends, it
queues a message or nothing.  For a buffer, the segments have the expected numbers, or the payload is
refused, if and only if the buffer needs no more segments than there are numbers, or would not be sent at
all; and so for a datum, whose payload is what the encoder leaves in the stream. -/
theorem send_fragNums_iff (hm : m.blockSize segMaxLen ≠ none) (addr : ℕ → ℕ) (node : SendNode)
    (hq : ∀ c ∈ node.transmitQueue.priorityQueue, c ≠ []) (args : SendArgs) :
    (∀ pBuf : Option (List UInt8), ∃ r, node.sendBuf m addr args pBuf = some r ∧ node.Queued r ∧
      (node.FragmentsNumbered (segCount (pBuf.getD []).length) r ↔
        (node.valid = true → args.address ≠ 0 → segCount (pBuf.getD []).length ≤ maxFragNum))) ∧
    ∀ (le : Bool) (xml : SerDesXml) (ops : List SerDesFactory.FactoryOp) (as : List (Option SerDes))
      (fac : SerDesFactory),
      StepSystem.run SerDesFactory.factoryStep ops SerDesFactory.construct = some (as, fac) →
      ∀ dat : Datum,
        (¬ (node.valid = true ∧ args.address ≠ 0) →
          node.sendDat le m xml fac addr args dat = some node.refuse) ∧
        ∀ strm, node.openStream m args = some strm →
          ∃ rv fac' s r, dat.encodeAs le m xml fac serDesNative .none strm = some (rv, fac', s) ∧
            node.sendDat le m xml fac addr args dat = some r ∧ node.Queued r ∧
            (node.FragmentsNumbered (segCount s.octets.length) r ↔
              (dat.isInert = false → segCount s.octets.length ≤ maxFragNum)) := by
  constructor
  · intro pBuf
    by_cases hsends : node.valid = true ∧ args.address ≠ 0 ∧ pBuf.getD [] ≠ []
    · obtain ⟨hvalid, haddr, hne⟩ := hsends
      obtain ⟨buf, rfl⟩ : ∃ buf, pBuf = some buf := by
        cases pBuf with
        | none => exact absurd rfl hne
        | some buf => exact ⟨buf, rfl⟩
      rw [Option.getD_some] at hne ⊢
      obtain ⟨r, hr, hsent⟩ := sendBuf_sent addr hm hq hvalid haddr hne
      refine ⟨r, hr, hsent.queued, ?_⟩
      rw [hsent.fragmentsNumbered_iff]
      exact ⟨fun h _ _ => h, fun h => h hvalid haddr⟩
    · refine ⟨node.refuse, ?_, .inr rfl, iff_of_true (fragmentsNumbered_refuse node _) ?_⟩
      · cases pBuf with
        | none => rfl
        | some buf =>
            rw [sendBuf]
            split_ifs with hlen
            · rfl
            · have hclosed : ¬ (node.valid = true ∧ args.address ≠ 0) := fun h =>
                hsends ⟨h.1, h.2, fun hnil => hlen (List.length_eq_zero_iff.2 hnil)⟩
              rw [(openStream_spec hm).1.2 hclosed]
      · intro hvalid haddr
        have hnil : pBuf.getD [] = [] := by
          by_contra hne
          exact hsends ⟨hvalid, haddr, hne⟩
        rw [hnil]
        decide
  · intro le xml ops as fac hfac dat
    have hstocked := SerDesFactory.stocked_run hfac
    constructor
    · intro hclosed
      rw [sendDat, (openStream_spec hm).1.2 hclosed]
    · intro strm hstrm
      cases hact : dat.isInert with
      | true =>
          have hrun : dat.encodeAs le m xml fac serDesNative .none strm = some (false, fac, strm) := by
            rw [Datum.encodeAs, hact, if_pos rfl]
          refine ⟨false, fac, strm, node.refuse, hrun, ?_, .inr rfl,
            iff_of_true (fragmentsNumbered_refuse node _) nofun⟩
          simp only [sendDat, hstrm, hrun, Option.bind_eq_bind, Option.bind_some, Bool.false_eq_true,
            if_false]
      | false =>
          obtain ⟨fac', s, r, hrun, hr, hsent⟩ := sendDat_sent le addr hm xml hstocked hq hstrm hact
          refine ⟨true, fac', s, r, hrun, hr, hsent.queued, ?_⟩
          rw [hsent.fragmentsNumbered_iff]
          exact ⟨fun h _ => h, fun h => h rfl⟩

/-- A node that has sent nothing yet, and a message without a control code. -/
def sampleNode : SendNode := ⟨true, 1, IpcTransmitQueue.construct⟩

def sampleArgs : SendArgs := ⟨2, 0, 0, 0, ipcDefaultPriority⟩

/-- A message of three segments. -/
theorem send_fragNums_iff_three :
    ∃ r, sampleNode.sendBuf exactPools id sampleArgs (some (List.replicate 2500 7)) = some r ∧
      sampleNode.Queued r ∧ (r.queued.map fun p => p.seg.fragNum) = [1, 2, 3] ∧
      sampleNode.FragmentsNumbered 3 r := by
  have hlen : (List.replicate 2500 (7 : UInt8)).length = 2500 := List.length_replicate
  have hcount : segCount 2500 = 3 := by decide
  obtain ⟨r, hr, hqueued, hiff⟩ := (@send_fragNums_iff exactPools (Option.some_ne_none _) id sampleNode
    nofun sampleArgs).1 (some (List.replicate 2500 7))
  obtain ⟨r', hr', hsent⟩ := @sendBuf_sent exactPools sampleNode sampleArgs id (Option.some_ne_none _) nofun
    rfl (by decide) (List.replicate 2500 7) (List.ne_nil_of_length_pos (by rw [hlen]; decide))
  obtain rfl := Option.some.inj (hr'.symm.trans hr)
  rw [Option.getD_some, hlen, hcount] at hiff
  rw [hlen, hcount] at hsent
  exact ⟨r', hr, hqueued, hsent.fragNums.trans (by decide), hiff.2 fun _ _ => by decide⟩

/-- One octet more than 65535 segments hold: the message is queued, and its last segment has the number
0. -/
theorem sendBuf_fragNum_wraps : ∃ r,
    sampleNode.sendBuf exactPools id sampleArgs (some (List.replicate 65535001 0)) = some r ∧
      r.rv ≠ 0 ∧ r.queued.length = 65536 ∧
      (r.queued.map fun p => p.seg.fragNum)[65535]? = some 0 ∧
      ¬ sampleNode.FragmentsNumbered 65536 r := by
  have hne : List.replicate 65535001 (0 : UInt8) ≠ [] :=
    List.ne_nil_of_length_pos (by rw [List.length_replicate]; exact Nat.succ_pos _)
  obtain ⟨r, hr, hsent⟩ := @sendBuf_sent exactPools sampleNode sampleArgs id (Option.some_ne_none _) nofun
    rfl (by decide) _ hne
  have hcount : segCount 65535001 = 65536 := by
    rw [segCount, show capacity = 1000 from rfl, if_pos (by decide)]
  rw [List.length_replicate, hcount] at hsent
  have hlen : r.queued.length = 65536 := by
    have := congrArg List.length hsent.fragNums
    rwa [List.length_map, List.length_map, List.length_range] at this
  refine ⟨r, hr, hsent.rv_ne, hlen, ?_, ?_⟩
  · rw [hsent.fragNums, List.getElem?_map, List.getElem?_range (by omega)]
    rfl
  · rw [hsent.fragmentsNumbered_iff, show maxFragNum = 65535 from rfl]
    omega

end SendNode

end CodePort
