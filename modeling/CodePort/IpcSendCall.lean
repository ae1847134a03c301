/-
What a sending function puts into the transmit queue.

A node sends a control code, a buffer or a datum.  Each of the three functions creates a segment with
the fields of the message; the last two use it as the template of a stream, write their payload to the
stream and queue the segments that it is made of, and the first queues the segment itself.

Main definitions:

* `CodePort.SendNode.sendSeg`, `sendCtl` — the other two sending functions of a node;
* `CodePort.SendCall` — a call of one of the functions, with the message that it is to send;
* `CodePort.SendCall.Fits` — the payload has no more fragments than a header can number.

Main results:

* `CodePort.SendNode.get_createSegment` — the fields of a message are in its template;
* `CodePort.IpcStreamSeg.Built.onWire` — what a stream is cut into;
* `CodePort.SendCall.run_spec` — **a call queues the segments of its message, or nothing**.
-/

import CodePort.IpcSend
import CodePort.MessageView

set_option relaxedAutoImplicit false
set_option autoImplicit false

namespace CodePort

open Octets IpcSegment IpcStreamSeg IpcStreamSegMem

namespace IpcSegment

def optControl : UInt8 := 0x80

end IpcSegment

/-! ### The fields of a new segment -/

namespace SendArgs

/-- The arguments are numbers of 32 bits. -/
structure Fits (args : SendArgs) : Prop where
  address : args.address < 2 ^ 32
  context : args.context < 2 ^ 32

/-- The setters that `CreateSegment` calls. -/
def setters (args : SendArgs) (nodeAddr : ℕ) : List HeaderOp :=
  [.priority args.priority, .srcAddr (.ofNat nodeAddr), .dstAddr (.ofNat args.address),
    .context (.ofNat args.context), .msgType args.msgType, .ctlCode args.ctlCode]

/-- The message with the fields that the arguments say. -/
def view (args : SendArgs) (nodeAddr id : ℕ) (payload : List UInt8) : MessageView :=
  ⟨nodeAddr, args.address, id, args.context, args.msgType.toNat, args.ctlCode.toNat, payload⟩

end SendArgs

namespace SendNode

variable {m : MemPools} {node : SendNode} {args : SendArgs} {seg : IpcSegment}

/-- A segment is created with the setters. -/
theorem createSegment_eq (haddr : node.nodeAddr < 2 ^ 32) (hargs : args.Fits)
    (h : node.createSegment m args = some seg) :
    seg = (args.setters node.nodeAddr).foldl HeaderOp.apply (IpcSegment.construct m) := by
  rw [createSegment] at h
  split_ifs at h
  obtain rfl := Option.some.inj h
  simp only [SendArgs.setters, List.foldl_cons, List.foldl_nil, HeaderOp.apply,
    UInt32.toNat_ofNat_of_lt' haddr, UInt32.toNat_ofNat_of_lt' hargs.address,
    UInt32.toNat_ofNat_of_lt' hargs.context]

end SendNode

namespace IpcSegment

variable {m : MemPools}

theorem dataLen_construct (hm : m.blockSize segMaxLen ≠ none) :
    (IpcSegment.construct m).buf.dataLen = segData := Buffer.dataLen_lenSet (le_size_clear hm)

/-- A new segment has no options and no payload. -/
theorem get_construct (hm : m.blockSize segMaxLen ≠ none) :
    (IpcSegment.construct m).get .options = 0 ∧ (IpcSegment.construct m).get .dataLen = 0 := by
  have hhead : (IpcSegment.construct m).head = freshHead := head_clear (le_size_construct hm)
  constructor
  · change (IpcSegment.construct m).options.toNat = 0
    rw [options, octetAt_eq _ (by decide), hhead]
    decide
  · change ofBE (fieldAt (IpcSegment.construct m).buf.mem segDataLen 2) = 0
    rw [← head_append_body, hhead, fieldAt_append (by decide)]
    decide

/-- A segment that has the fields of a message, and neither a payload nor the flags of a message of
several segments. -/
structure Heads (seg : IpcSegment) (args : SendArgs) (nodeAddr : ℕ) : Prop where
  full : seg.Full
  length_eq : seg.buf.dataLen = segData
  dataLen_eq : seg.dataLen = 0
  multipart : seg.options &&& optMultipart = 0
  initial : seg.options &&& optInitial = 0
  read_eq : ∀ id payload, { MessageView.read seg.get payload with msgId := id } =
    args.view nodeAddr id payload

variable {seg : IpcSegment} {args : SendArgs} {nodeAddr : ℕ}

theorem Heads.plainHead (h : seg.Heads args nodeAddr) : PlainHead seg.buf.data := by
  have hopt := options_eq h.length_eq.ge
  refine ⟨by rw [Buffer.length_data, h.length_eq], ?_, ?_⟩
  · have := h.multipart
    rw [hopt] at this
    exact unflagged_of_options (by decide) this
  · have := h.initial
    rw [hopt] at this
    exact unflagged_of_options (by decide) this

/-- The message in the octets of the segment, when it gets its ID. -/
theorem Heads.read_wire (h : seg.Heads args nodeAddr) (id : ℕ) (payload : List UInt8) :
    { MessageView.read (wireGet seg.buf.data) payload with msgId := id } =
      args.view nodeAddr id payload := by
  rw [← h.read_eq id payload]
  rw [MessageView.read_congr fun f _ => (get_eq_wireGet h.length_eq.ge f).symm]

/-- Such a segment is a message without payload. -/
theorem Heads.onWire (h : seg.Heads args nodeAddr) :
    OnWire (.read (wireGet seg.buf.data) []) [seg.buf.data] := by
  have hget : seg.get .dataLen = wireGet seg.buf.data .dataLen := get_eq_wireGet h.length_eq.ge _
  exact .bare h.plainHead (hget.symm.trans h.dataLen_eq)

/-- An option other than the two flags may be set in it. -/
theorem Heads.setOptions (h : seg.Heads args nodeAddr) (data : UInt8)
    (hmp : (data &&& 0xfc) &&& optMultipart = 0) (hin : (data &&& 0xfc) &&& optInitial = 0) :
    (seg.setOptions data).Heads args nodeAddr := by
  have hget := HeaderOp.get_apply h.full (.options data)
  have hopt : (seg.setOptions data).options = data &&& 0xfc := UInt8.toNat_inj.1 (hget .options)
  refine ⟨HeaderOp.full_apply h.full (.options data), h.length_eq, ?_, ?_, ?_, fun id payload => ?_⟩
  · exact (hget .dataLen).trans h.dataLen_eq
  · rw [hopt, hmp]
  · rw [hopt, hin]
  · have hread : MessageView.read (seg.setOptions data).get payload = .read seg.get payload := by
      exact MessageView.read_congr (fun f hf => (hget f).trans (if_neg hf.1)) payload
    rw [hread]
    exact h.read_eq id payload

end IpcSegment

namespace SendNode

variable {m : MemPools} {node : SendNode} {args : SendArgs} {seg : IpcSegment}

/-- **The fields of a message are in its template.** -/
theorem heads_createSegment (hm : m.blockSize segMaxLen ≠ none) (haddr : node.nodeAddr < 2 ^ 32)
    (hargs : args.Fits) (h : node.createSegment m args = some seg) : seg.Heads args node.nodeAddr := by
  obtain rfl := createSegment_eq haddr hargs h
  have hfull := full_construct hm
  have hget := fun f => HeaderOp.get_foldl hfull f (args.setters node.nodeAddr)
  obtain ⟨hoptions, hdataLen⟩ := get_construct hm
  have hopt : ((args.setters node.nodeAddr).foldl HeaderOp.apply (IpcSegment.construct m)).options = 0 :=
    UInt8.toNat_inj.1 ((hget .options).trans hoptions)
  refine ⟨HeaderOp.full_foldl hfull _, dataLen_construct hm, ?_, ?_, ?_, fun id payload => ?_⟩
  · exact (hget .dataLen).trans hdataLen
  · rw [hopt]
    decide
  · rw [hopt]
    decide
  · simp only [MessageView.read, hget, SendArgs.view]
    simp [HeaderOp.lastSet, SendArgs.setters, HeaderOp.field, HeaderOp.value,
      UInt32.toNat_ofNat_of_lt' haddr, UInt32.toNat_ofNat_of_lt' hargs.address,
      UInt32.toNat_ofNat_of_lt' hargs.context]

end SendNode

/-! ### The segments of a stream -/

theorem priority_eq {s : IpcSegment} (h : segData ≤ s.buf.dataLen) :
    s.priority = s.buf.data.getD segOptions 0 &&& 0x03 := by
  have hlt : segOptions < s.buf.data.length := by
    rw [Buffer.length_data]
    exact lt_of_lt_of_le (by decide) h
  rw [priority, octetAt, ← s.buf.data_append_drop, List.getD_eq_getElem?_getD,
    List.getD_eq_getElem?_getD, List.getElem?_append_left hlt]

theorem flagged_priority (o : UInt8) : flagged optMultipart o &&& 0x03 = o &&& 0x03 ∧
    flagged optInitial o &&& 0x03 = o &&& 0x03 := by
  revert o
  exact forall_octet (by decide +kernel)

/-- The fragments of a message share its priority. -/
theorem priority_fragment {base payload : List UInt8} (hbase : base.length = segData) {n i : ℕ}
    {s : IpcSegment}
    (hdata : s.buf.data = fragHead base n i (slice payload i).length ++ slice payload i) :
    s.priority = base.getD segOptions 0 &&& 0x03 := by
  have hhead := length_fragHead hbase n i (slice payload i).length
  have hlen : segData ≤ s.buf.dataLen := by
    rw [← Buffer.length_data, hdata, List.length_append, hhead]
    exact Nat.le_add_right _ _
  have hlt : segOptions < (fragHead base n i (slice payload i).length).length := by
    rw [hhead]
    decide
  rw [priority_eq hlen, hdata, List.getD_eq_getElem?_getD, List.getElem?_append_left hlt,
    ← List.getD_eq_getElem?_getD, getD_fragHead hbase]
  split_ifs
  · rw [(flagged_priority _).2, (flagged_priority _).1]
  · rw [(flagged_priority _).1]
  · rfl

namespace IpcStreamSeg

/-- **What a stream is cut into**: the fragments of what has been written to it. -/
theorem Built.fragments {base : List UInt8} {s : IpcStreamSeg} (h : s.Built base) (hne : s.octets ≠ []) :
    s.finalize.segmentExtract.1.map (fun x => x.buf.data) = CodePort.fragments base s.octets ∧
      ∀ x ∈ s.finalize.segmentExtract.1, x.Full := by
  obtain ⟨f, hrep, -⟩ := h.atEnd
  have hcontent : s.octets = f.content := hrep.octets_eq
  rw [hcontent] at hne ⊢
  exact data_finalize hrep h.noSpare h.chain.signed hne

/-- The segments of a stream, at addresses. -/
def chainAt (addr : ℕ → ℕ) (s : IpcStreamSeg) : List SegPtr :=
  s.finalize.segmentExtract.1.mapIdx fun i seg => ⟨addr i, seg⟩

theorem map_seg_chainAt (addr : ℕ → ℕ) (s : IpcStreamSeg) :
    (s.chainAt addr).map SegPtr.seg = s.finalize.segmentExtract.1 := by
  refine List.ext_getElem (by simp [chainAt]) fun i h₁ h₂ => ?_
  simp [chainAt]

/-- The segments of a stream are a chain for the transmit queue, and carry what has been written. -/
theorem Built.onWire {base : List UInt8} {s : IpcStreamSeg} (h : s.Built base) (hbase : PlainHead base)
    (hne : s.octets ≠ []) (hcount : segCount s.octets.length < 2 ^ 16) (addr : ℕ → ℕ) :
    IsChain (s.chainAt addr) ∧
      OnWire (.read (wireGet base) s.octets) ((s.chainAt addr).map SegPtr.wire) := by
  obtain ⟨hdata, hfull⟩ := h.fragments hne
  rw [← map_seg_chainAt addr] at hdata hfull
  have hwire : (s.chainAt addr).map SegPtr.wire = CodePort.fragments base s.octets := by
    rw [← hdata, List.map_map]
    rfl
  have hon := hwire ▸ OnWire.fragments hbase hne hcount
  refine ⟨⟨fun hnil => hon.length_mem.1 (by rw [hnil]; rfl),
    fun p hp => hfull _ (List.mem_map_of_mem hp), ?_⟩, hon⟩
  have hprio : ∀ p ∈ s.chainAt addr, p.seg.priority = base.getD segOptions 0 &&& 0x03 := by
    intro p hp
    obtain ⟨i, -, hi⟩ := mem_fragments (hwire ▸ List.mem_map_of_mem hp)
    exact priority_fragment hbase.length_eq hi
  intro p hp q hq
  rw [hprio p hp, hprio q hq]

end IpcStreamSeg

/-! ### The sending functions -/

namespace SendNode

/-- `TransmitMessage` of a chain of segments, and the segments as they were put into the queue. -/
def transmitChain (node : SendNode) (chain : List SegPtr) : Option SendResult :=
  (node.transmitQueue.transmitMessage chain).map fun r =>
    ⟨r.1, r.2, chain.modifyHead fun head => head.setMsgId r.1⟩

/-- `SendSeg`; the empty chain is the NULL pointer. -/
def sendSeg (node : SendNode) (chain : List SegPtr) : Option SendResult :=
  if node.valid ∧ chain ≠ [] then node.transmitChain chain else some node.refuse

/-- `SendCtl`.  The segment lies at the address `addr`. -/
def sendCtl (m : MemPools) (addr : ℕ) (node : SendNode) (args : SendArgs) : Option SendResult :=
  if node.valid then
    match node.createSegment m { args with msgType := msgControl } with
    | none => some node.refuse
    -- set the control option flag
    | some pSeg => node.transmitChain [⟨addr, pSeg.setOptions optControl⟩]
  else some node.refuse

end SendNode

/-- A call of a sending function. -/
inductive SendCall
  | sendCtl (args : SendArgs)
  | sendBuf (args : SendArgs) (pBuf : Option (List UInt8))
  /-- `SendDat`, with the state of the factory that the encoder meets. -/
  | sendDat (args : SendArgs) (fac : SerDesFactory) (dat : Datum)

namespace SendCall

/-- The arguments of the call, with the message type that the function gives to the segment. -/
def args : SendCall → SendArgs
  | sendCtl args => { args with msgType := msgControl }
  | sendBuf args _ => args
  | sendDat args _ _ => { args with msgType := msgDatum }

variable (le : Bool) (m : MemPools) (xml : SerDesXml) (node : SendNode)

/-- What the call writes to its stream. -/
def payload : SendCall → List UInt8
  | sendCtl _ => []
  | sendBuf _ pBuf => pBuf.getD []
  | sendDat args fac dat =>
      (((node.openStream m { args with msgType := msgDatum }).bind fun strm =>
        dat.encodeAs le m xml fac serDesNative .none strm).map fun r => r.2.2.octets).getD []

/-- The message that the call is to send, with the ID that it returns. -/
def view (call : SendCall) (id : ℕ) : MessageView :=
  call.args.view node.nodeAddr id (call.payload le m xml node)

/-- Run the call; its segments lie at the addresses `addr`. -/
def run (call : SendCall) (addr : ℕ → ℕ) : Option SendResult :=
  match call with
  | sendCtl args => node.sendCtl m (addr 0) args
  | sendBuf args pBuf => node.sendBuf m addr args pBuf
  | sendDat args fac dat => node.sendDat le m xml fac addr { args with msgType := msgDatum } dat

/-- The arguments are numbers of 32 bits, the serializers are there, and a header can number the
fragments of the payload. -/
structure Fits (call : SendCall) : Prop where
  args : call.args.Fits
  count : segCount (call.payload le m xml node).length < 2 ^ 16
  stocked : ∀ args fac dat, call = .sendDat args fac dat → fac.Stocked

/-- The call queues the segments of its message, which get the message ID that it returns. -/
def Queues (call : SendCall) (r : SendResult) : Prop :=
  ∃ chain v, IsChain chain ∧ OnWire v (chain.map SegPtr.wire) ∧
    (∀ id, { v with msgId := id } = call.view le m xml node id) ∧ node.transmitChain chain = some r

end SendCall

namespace SendNode

variable {m : MemPools} {node : SendNode} {args : SendArgs}

/-- The stream that a payload is written to. -/
theorem openStream_built (hm : m.blockSize segMaxLen ≠ none) (haddr : node.nodeAddr < 2 ^ 32)
    (hargs : args.Fits) {strm : IpcStreamSeg} (h : node.openStream m args = some strm) :
    ∃ base, strm.Built base ∧ strm.octets = [] ∧ PlainHead base ∧ ∀ id payload,
      { MessageView.read (wireGet base) payload with msgId := id } =
        args.view node.nodeAddr id payload := by
  rw [openStream] at h
  split_ifs at h
  obtain ⟨seg, hseg, rfl⟩ := Option.map_eq_some_iff.1 h
  have hheads := heads_createSegment hm haddr hargs hseg
  have hlen := dataLen_createSegment hm hseg
  obtain ⟨hbuilt, hoctets⟩ := built_withTemplate hm hlen
  have hbase : baseHead m (some seg) = seg.buf.data := by
    rw [@baseHead_eq m hm (some seg) hlen]
    change seg.buf.data.takeD segData 0 = _
    rw [← hheads.plainHead.length_eq, List.takeD_eq_take _ le_rfl, List.take_length]
  rw [hbase] at hbuilt
  exact ⟨_, hbuilt, hoctets, hheads.plainHead, hheads.read_wire⟩

/-- The segments of what has been written to the stream are queued. -/
theorem queues_transmit {le : Bool} {xml : SerDesXml} {call : SendCall} {addr : ℕ → ℕ}
    {base : List UInt8} {strm : IpcStreamSeg} (hbuilt : strm.Built base) (hbase : PlainHead base)
    (hview : ∀ id payload, { MessageView.read (wireGet base) payload with msgId := id } =
      call.args.view node.nodeAddr id payload) (hne : strm.octets ≠ [])
    (hpayload : call.payload le m xml node = strm.octets) (hfits : call.Fits le m xml node)
    {r : SendResult} (h : node.transmit addr strm = some r) : call.Queues le m xml node r := by
  have hcount := hfits.count
  rw [hpayload] at hcount
  obtain ⟨hchain, hon⟩ := hbuilt.onWire hbase hne hcount addr
  refine ⟨_, _, hchain, hon, fun id => ?_, h⟩
  rw [SendCall.view, hpayload]
  exact hview id strm.octets

end SendNode

namespace SendCall

variable {le : Bool} {m : MemPools} {xml : SerDesXml} {node : SendNode} {addr : ℕ → ℕ} {r : SendResult}

theorem run_sendCtl (hm : m.blockSize segMaxLen ≠ none) (haddr : node.nodeAddr < 2 ^ 32) {args : SendArgs}
    (hfits : (sendCtl args).Fits le m xml node)
    (h : (sendCtl args).run le m xml node addr = some r) :
    r = node.refuse ∨ (sendCtl args).Queues le m xml node r := by
  rw [run, SendNode.sendCtl] at h
  split_ifs at h
  · cases hseg : node.createSegment m { args with msgType := msgControl } with
    | none =>
        rw [hseg] at h
        exact .inl (Option.some.inj h).symm
    | some seg =>
        rw [hseg] at h
        have hheads := (SendNode.heads_createSegment hm haddr hfits.args hseg).setOptions
          optControl (by decide) (by decide)
        refine .inr ⟨_, _, ⟨List.cons_ne_nil _ _, ?_, ?_⟩, hheads.onWire, fun id => ?_, h⟩
        · simpa using hheads.full
        · simp
        · exact hheads.read_wire id []
  · exact .inl (Option.some.inj h).symm

theorem run_sendBuf (hm : m.blockSize segMaxLen ≠ none) (haddr : node.nodeAddr < 2 ^ 32) {args : SendArgs}
    {pBuf : Option (List UInt8)} (hfits : (sendBuf args pBuf).Fits le m xml node)
    (h : (sendBuf args pBuf).run le m xml node addr = some r) :
    r = node.refuse ∨ (sendBuf args pBuf).Queues le m xml node r := by
  cases pBuf with
  | none => exact .inl (Option.some.inj h).symm
  | some buf =>
      rw [run, SendNode.sendBuf] at h
      split_ifs at h with hlen
      · exact .inl (Option.some.inj h).symm
      · cases hopen : node.openStream m args with
        | none =>
            rw [hopen] at h
            exact .inl (Option.some.inj h).symm
        | some strm =>
            obtain ⟨base, hbuilt, hoctets, hbase, hview⟩ :=
              SendNode.openStream_built hm haddr hfits.args hopen
            obtain ⟨t, ht, hbuilt', hwritten⟩ := hbuilt.arrayWr buf
            rw [hoctets, List.nil_append] at hwritten
            simp only [hopen, ht, Option.bind_eq_bind, Option.bind_some, if_true] at h
            refine .inr (SendNode.queues_transmit hbuilt' hbase hview ?_ hwritten.symm hfits h)
            rw [hwritten]
            exact fun hnil => hlen (List.length_eq_zero_iff.2 hnil)

theorem run_sendDat (hm : m.blockSize segMaxLen ≠ none) (haddr : node.nodeAddr < 2 ^ 32) {args : SendArgs}
    {fac : SerDesFactory} {dat : Datum} (hfits : (sendDat args fac dat).Fits le m xml node)
    (h : (sendDat args fac dat).run le m xml node addr = some r) :
    r = node.refuse ∨ (sendDat args fac dat).Queues le m xml node r := by
  rw [run, SendNode.sendDat] at h
  cases hopen : node.openStream m { args with msgType := msgDatum } with
  | none =>
      rw [hopen] at h
      exact .inl (Option.some.inj h).symm
  | some strm =>
      rw [hopen] at h
      cases hact : dat.isInert with
      | true =>
          have hrun : dat.encodeAs le m xml fac serDesNative .none strm = some (false, fac, strm) := by
            rw [Datum.encodeAs, hact, if_pos rfl]
          simp only [hrun, Option.bind_eq_bind, Option.bind_some, Bool.false_eq_true, if_false] at h
          exact .inl (Option.some.inj h).symm
      | false =>
          obtain ⟨base, hbuilt, -, hbase, hview⟩ :=
            SendNode.openStream_built hm haddr hfits.args hopen
          obtain ⟨f, hrep, -⟩ := hbuilt.atEnd
          obtain ⟨s, c, hs, hc, f', hrep', -, hcontent⟩ := Datum.ends_encodeNative le m hact .none hrep
          have hbuilt' : IpcStreamSeg.Built base s :=
            Datum.maintains_encode (writable_built base) le m dat .none hbuilt _ hs
          obtain ⟨fac', hrun⟩ := Datum.encodeAs_native xml (hfits.stocked _ _ _ rfl) hact hs
          have hpayload : (sendDat args fac dat).payload le m xml node = s.octets := by
            simp only [payload, hopen, Option.bind_some, hrun, Option.map_some, Option.getD_some]
          simp only [hrun, Option.bind_eq_bind, Option.bind_some, if_true] at h
          refine .inr (SendNode.queues_transmit hbuilt' hbase hview ?_ hpayload hfits h)
          rw [show s.octets = f'.content from hrep'.octets_eq, hcontent]
          exact hc

/-- **A call queues the segments of its message, or nothing.** -/
theorem run_spec (hm : m.blockSize segMaxLen ≠ none) (haddr : node.nodeAddr < 2 ^ 32) {call : SendCall}
    (hfits : call.Fits le m xml node) (h : call.run le m xml node addr = some r) :
    r = node.refuse ∨ call.Queues le m xml node r := by
  cases call with
  | sendCtl args => exact run_sendCtl hm haddr hfits h
  | sendBuf args pBuf => exact run_sendBuf hm haddr hfits h
  | sendDat args fac dat => exact run_sendDat hm haddr hfits h

end SendCall

end CodePort
