/-
What arrives.

A message that is put into a context of the receiver is a message that some call has sent, and what a
decoder makes of it is what the call was given: the octets of a buffer, or a tree of data.

Main definitions:

* `CodePort.IpcDecoder.Reads` — what a decoder makes of the message of a call.

Main results:

* `CodePort.SendCall.payload_sendDat` — a datum is sent as its native encoding;
* `CodePort.link_reads` — **every message that arrives is read as what was sent**.
-/

import CodePort.IpcLink
import CodePort.IpcMessage

set_option relaxedAutoImplicit false
set_option autoImplicit false

namespace CodePort

open IpcSegment StepSystem SerDesNative

/-! ### What has been sent -/

namespace SendCall

variable {le : Bool} {m : MemPools} {xml : SerDesXml} {node : SendNode} {addr : ℕ → ℕ} {r : SendResult}

/-- A call that returns a message ID had a valid node and an address. -/
theorem valid_of_rv {call : SendCall} (h : call.run le m xml node addr = some r) (hrv : r.rv ≠ 0) :
    node.valid = true ∧ call.args.address ≠ 0 := by
  have hrefuse : some node.refuse = some r → False := fun heq => hrv (Option.some.inj heq ▸ rfl)
  have hopen : ∀ {args : SendArgs}, ¬ (node.valid = true ∧ args.address ≠ 0) →
      node.openStream m args = none := by
    intro args hnot
    rw [SendNode.openStream, SendNode.createSegment]
    split_ifs with hvalid haddr
    · rfl
    · exact absurd ⟨hvalid, haddr⟩ hnot
    · rfl
    · rfl
  by_contra hnot
  cases call with
  | sendCtl args =>
      rw [run, SendNode.sendCtl, SendNode.createSegment] at h
      split_ifs at h with hvalid haddr
      · exact hrefuse h
      · exact hnot ⟨hvalid, haddr⟩
      · exact hrefuse h
      · exact hrefuse h
  | sendBuf args pBuf =>
      cases pBuf with
      | none => exact hrefuse h
      | some buf =>
          have hnone : node.openStream m args = none := hopen hnot
          simp only [run, SendNode.sendBuf, hnone, ite_self] at h
          exact hrefuse h
  | sendDat args fac dat =>
      have hopen' := @hopen { args with msgType := msgDatum } hnot
      rw [run, SendNode.sendDat, hopen'] at h
      exact hrefuse h

/-- **A datum is sent as its native encoding.** -/
theorem payload_sendDat (hm : m.blockSize segMaxLen ≠ none) {args : SendArgs} {fac : SerDesFactory}
    (hfac : fac.Stocked) {dat : Datum} (hvalid : node.valid = true) (haddr : args.address ≠ 0)
    (hdat : dat.Encodable) : (sendDat args fac dat).payload le m xml node = packageOctets le dat := by
  obtain ⟨hnone, hopen⟩ := @SendNode.openStream_spec m node { args with msgType := msgDatum } hm
  obtain ⟨strm, hstrm⟩ := Option.ne_none_iff_exists'.1 (mt hnone.1 fun h => h ⟨hvalid, haddr⟩)
  obtain ⟨-, base, hbuilt⟩ := hopen strm hstrm
  obtain ⟨f, hrep, -⟩ := hbuilt.atEnd
  obtain ⟨s, hs, f', hrep', -, hcontent⟩ := Datum.encode_spec le m hdat hrep
  have hact : dat.isInert = false := by
    cases dat
    exact hdat.1
  obtain ⟨fac', hrun⟩ := Datum.encodeAs_native xml hfac hact hs
  have hoctets : s.octets = packageOctets le dat := hrep'.octets_eq.trans hcontent
  simp only [payload, hstrm, Option.bind_some, hrun, Option.map_some, Option.getD_some, hoctets]

/-- A datum is sent, if the node is valid and there is an address. -/
theorem exists_run_sendDat (addr : ℕ → ℕ) (hm : m.blockSize segMaxLen ≠ none) {args : SendArgs}
    {fac : SerDesFactory} (hfac : fac.Stocked) (hq : ∀ c ∈ node.transmitQueue.priorityQueue, c ≠ [])
    (hvalid : node.valid = true) (haddr : args.address ≠ 0) {dat : Datum} (hact : dat.isInert = false) :
    ∃ r, (sendDat args fac dat).run le m xml node addr = some r ∧ r.rv ≠ 0 := by
  obtain ⟨hnone, -⟩ := @SendNode.openStream_spec m node { args with msgType := msgDatum } hm
  obtain ⟨strm, hstrm⟩ := Option.ne_none_iff_exists'.1 (mt hnone.1 fun h => h ⟨hvalid, haddr⟩)
  obtain ⟨_, _, r, -, hr, hsent⟩ := SendNode.sendDat_sent le addr hm xml hfac hq hstrm hact
  exact ⟨r, hr, hsent.rv_ne⟩

end SendCall

variable {δ : Type*} {e : LinkEnds δ}

/-- What is true of a call whose message has been sent. -/
structure SendCall.Accepted (e : LinkEnds δ) (call : SendCall) : Prop where
  fits : call.Fits e.le e.sendPools e.xml (e.node IpcTransmitQueue.construct)
  valid : e.valid = true
  address_ne : call.args.address ≠ 0

/-- Only a call of a sending function answers with a message ID. -/
theorem exists_run_of_sent {s s' : IpcLink δ} {o : LinkOp} {call : SendCall} {id : ℕ}
    (hstep : linkStep e s o = some (.sent call id, s')) : ∃ addr r, o = .send call addr ∧
      call.run e.le e.sendPools e.xml (e.node s.transmit.queue) addr = some r ∧ r.rv = id := by
  cases o with
  | send call' addr =>
      obtain ⟨r, hr, heq⟩ := Option.map_eq_some_iff.1 hstep
      obtain ⟨rfl, rfl⟩ := LinkAnswer.sent.inj (congrArg Prod.fst heq)
      exact ⟨addr, r, rfl, hr, rfl⟩
  | give =>
      obtain ⟨_, -, heq⟩ := Option.map_eq_some_iff.1 hstep
      cases congrArg Prod.fst heq
  | take =>
      rw [linkStep] at hstep
      split_ifs at hstep
      obtain ⟨_, -, heq⟩ := Option.map_eq_some_iff.1 hstep
      cases congrArg Prod.fst heq
  | get =>
      obtain ⟨_, -, heq⟩ := Option.map_eq_some_iff.1 hstep
      cases congrArg Prod.fst heq
  | xmit =>
      rw [linkStep] at hstep
      cases hx : s.xmit with
      | none =>
          rw [hx] at hstep
          cases hstep
      | some p =>
          rw [hx] at hstep
          cases congrArg Prod.fst (Option.some.inj hstep)
  | recv =>
      rw [linkStep] at hstep
      split_ifs at hstep
      obtain ⟨_, -, heq⟩ := Option.map_eq_some_iff.1 hstep
      cases congrArg Prod.fst heq
  | submit putOk =>
      obtain ⟨_, -, heq⟩ := Option.map_eq_some_iff.1 hstep
      cases congrArg Prod.fst heq
  | accum now submitOk drained =>
      obtain ⟨_, -, hrest⟩ := Option.bind_eq_some_iff.1 hstep
      obtain ⟨_, -, heq⟩ := Option.map_eq_some_iff.1 hrest
      cases congrArg Prod.fst heq
  | contexts contextMap => cases congrArg Prod.fst (Option.some.inj hstep)

/-- A call of a sending function that returns is a step. -/
theorem linkStep_send {s : IpcLink δ} {call : SendCall} {addr : ℕ → ℕ} {r : SendResult}
    (hr : call.run e.le e.sendPools e.xml (e.node s.transmit.queue) addr = some r) :
    ∃ s', linkStep e s (.send call addr) = some (.sent call r.rv, s') ∧
      s'.transmit.queue = r.transmitQueue := ⟨_, congrArg (Option.map _) hr, rfl⟩

/-- A message ID in the answers of a run is that of a call of the run. -/
theorem exists_send_of_run {s s' : IpcLink δ} {ops : List LinkOp} {as : List LinkAnswer}
    (hrun : run (linkStep e) ops s = some (as, s')) {call : SendCall} {id : ℕ}
    (hmem : LinkAnswer.sent call id ∈ as) : ∃ addr, LinkOp.send call addr ∈ ops := by
  obtain ⟨pre, post, rfl⟩ := List.append_of_mem hmem
  obtain ⟨os₁, os₂, s₁, rfl, -, hrest⟩ := run_split hrun
  obtain ⟨o, os, t, rfl, hstep, -⟩ := exists_step_of_run hrest
  obtain ⟨addr, -, rfl, -, -⟩ := exists_run_of_sent hstep
  exact ⟨addr, List.mem_append_right _ List.mem_cons_self⟩

/-- A call that answers with a message ID was a proper one. -/
theorem accepted_of_step {s s' : IpcLink δ} {o : LinkOp} (ho : o.Sound e) {call : SendCall} {id : ℕ}
    (hstep : linkStep e s o = some (.sent call id, s')) (hid : id ≠ 0) : call.Accepted e := by
  obtain ⟨addr, r, rfl, hr, rfl⟩ := exists_run_of_sent hstep
  obtain ⟨hvalid, haddr⟩ := SendCall.valid_of_rv hr hid
  exact ⟨ho, hvalid, haddr⟩

/-- Every call that returned a message ID was a proper one. -/
theorem accepted_of_run {s s' : IpcLink δ} {ops : List LinkOp} {as : List LinkAnswer}
    (hops : ∀ o ∈ ops, o.Sound e) (hrun : run (linkStep e) ops s = some (as, s')) {call : SendCall}
    {id : ℕ} (hmem : LinkAnswer.sent call id ∈ as) (hid : id ≠ 0) : call.Accepted e := by
  have hmeets : Meets (linkStep e) (fun _ o => True ∧ o.Sound e) ops s :=
    (Meets.of_forall fun _ _ => trivial).and_forall hops
  have hstart : ∀ call id, LinkAnswer.sent call id ∈ ([] : List LinkAnswer) → id ≠ 0 → call.Accepted e :=
    fun _ _ hmem => absurd hmem List.not_mem_nil
  refine run_history_of_meets (I := fun as _ => ∀ call id, LinkAnswer.sent call id ∈ as → id ≠ 0 →
    call.Accepted e) ?_ hstart hrun hmeets call id hmem hid
  intro as s o a s' hI ho hstep call id hmem hid
  rcases List.mem_append.1 hmem with hmem | hmem
  · exact hI call id hmem hid
  · obtain rfl := List.mem_singleton.1 hmem
    exact accepted_of_step ho.2 hstep hid

/-! ### What is read -/

/-- **What a decoder makes of the message of a call**: the buffer of a control message is empty, that of
a raw message has the octets of the buffer that was sent, and the datum of a message is the one that was
sent, with the name that the decoder had if it has none. -/
def IpcDecoder.Reads (le : Bool) (m : MemPools) (tags : SerDesIdl.TagOrder) (fac : SerDesFactory)
    (dc : IpcDecoder) (l : List SegPtr) (sentLe : Bool) : SendCall → Prop
  | .sendCtl _ => ∃ dc', dc.loadSegment le m tags fac (l.map SegPtr.seg) = some (true, fac, dc') ∧
      dc'.buffer.data = []
  | .sendBuf args pBuf => args.msgType = msgRaw ∨ args.msgType = msgControl →
      ∃ dc', dc.loadSegment le m tags fac (l.map SegPtr.seg) = some (true, fac, dc') ∧
        dc'.buffer.data = pBuf.getD []
  | .sendDat _ _ dat => dat.Encodable → (dat.tree sentLe).All Value.Plain →
      ∃ fac' dc', dc.loadSegment le m tags fac (l.map SegPtr.seg) = some (true, fac', dc') ∧
        fac'.Stocked ∧ dc'.message.tree le = (dat.tree sentLe).named (dc.message.nameGet le m)

/-- A decoder that has the segments of the message of a call reads it. -/
theorem IpcDecoder.reads_of_onWire {le : Bool} {m : MemPools} (hm : m.Plentiful)
    (tags : SerDesIdl.TagOrder) {fac : SerDesFactory} (hfac : fac.Stocked) {dc : IpcDecoder}
    (hact : dc.message.isInert = false) (hroom : e.sendPools.blockSize segMaxLen ≠ none)
    {call : SendCall} (hcall : call.Accepted e) {id : ℕ} {l : List SegPtr}
    (h : OnWire (call.view e.le e.sendPools e.xml (e.node IpcTransmitQueue.construct) id)
      (l.map SegPtr.wire)) : dc.Reads le m tags fac l e.le call := by
  cases call with
  | sendCtl args =>
      obtain ⟨dc', hload, hdata, -⟩ := loadSegment_buffer hm h (.inr rfl)
      exact ⟨dc', hload, hdata⟩
  | sendBuf args pBuf =>
      intro htype
      obtain ⟨dc', hload, hdata, -⟩ := loadSegment_buffer hm h
        (htype.imp (congrArg UInt8.toNat) (congrArg UInt8.toNat))
      exact ⟨dc', hload, hdata⟩
  | sendDat args fac' dat =>
      intro hdat hplain
      exact loadSegment_datum hm hfac h rfl hdat hplain
        (SendCall.payload_sendDat hroom (hcall.fits.stocked _ _ _ rfl) hcall.valid hcall.address_ne hdat) hact

/-- What has been delivered has the octets of a message that was sent. -/
theorem Delivering.exists_onWire {msgs : List SentMessage} {l : List SegPtr} {ws : List (List UInt8)}
    {m : AList fun _ : ℕ => IpcAccum} {delivered : List (ℕ × List SegPtr)}
    (h : Delivering msgs l ws m delivered) {d : ℕ × List SegPtr} (hd : d ∈ delivered) :
    ∃ x ∈ msgs, OnWire x.1 (d.2.map SegPtr.wire) ∧ x.1.context = d.1 := by
  obtain ⟨done, todo, hmsgs, hdone, -, -⟩ := h.split
  obtain ⟨i, hi, rfl⟩ := List.getElem_of_mem hd
  have hi' : i < done.length := hdone.length_eq ▸ hi
  obtain ⟨hctx, hwire⟩ := hdone.get hi hi'
  have hmem : done[i] ∈ msgs := hmsgs.symm.subset (List.mem_append_left _ (List.getElem_mem hi'))
  exact ⟨done[i], hmem, hwire ▸ h.sent.onWire _ hmem, hctx.symm⟩

/-- **A message in a context is that of a call** that returned its message ID, and has the octets of it. -/
theorem exists_sent_of_delivery {sendDev recvDev : IoDev δ} {stream : δ → List UInt8} {full : δ → Prop}
    (hconn : e.Connected sendDev recvDev stream full) {d : δ} (hd : stream d = []) {ops : List LinkOp}
    (hops : ∀ o ∈ ops, o.Sound e) {as : List LinkAnswer} {s : IpcLink δ}
    (hrun : run (linkStep e) ops (IpcLink.construct d) = some (as, s))
    (hcount : (sentViews e as).length < 2 ^ 32) {m : ℕ × List SegPtr} (hm : m ∈ deliveries as) :
    ∃ call id, LinkAnswer.sent call id ∈ as ∧ id ≠ 0 ∧ call.args.context = m.1 ∧ call.Accepted e ∧
      OnWire (call.view e.le e.sendPools e.xml (e.node IpcTransmitQueue.construct) id)
        (m.2.map SegPtr.wire) := by
  obtain ⟨t, msgs, l, frames, h⟩ := isLinked_run hconn hd hops hrun hcount
  obtain ⟨x, hx, hon, hctx⟩ := h.delivering.exists_onWire hm
  have hview : x.1 ∈ sentViews e as := h.views ▸ List.mem_map_of_mem hx
  obtain ⟨a, ha, hsent⟩ := List.mem_filterMap.1 hview
  cases a with
  | sent call id =>
      rw [LinkAnswer.sentView] at hsent
      split_ifs at hsent with hid
      have hx' := Option.some.inj hsent
      rw [← hx'] at hon hctx
      exact ⟨call, id, ha, hid, hctx, accepted_of_run hops hrun ha hid, hon⟩
  | delivered d => cases hsent
  | done => cases hsent

/-- **Every message that arrives is read as what was sent.**  In every run of the link a message in a
context is that of some call that returned its message ID, the context is the one that the call named,
and a decoder finds what the call was given. -/
theorem link_reads {sendDev recvDev : IoDev δ} {stream : δ → List UInt8} {full : δ → Prop}
    (hconn : e.Connected sendDev recvDev stream full) {d : δ} (hd : stream d = []) {ops : List LinkOp}
    (hops : ∀ o ∈ ops, o.Sound e) {as : List LinkAnswer} {s : IpcLink δ}
    (hrun : run (linkStep e) ops (IpcLink.construct d) = some (as, s))
    (hcount : (sentViews e as).length < 2 ^ 32) (hroom : e.recvPools.Plentiful) (le : Bool)
    (tags : SerDesIdl.TagOrder) {fac : SerDesFactory} (hfac : fac.Stocked) {dc : IpcDecoder}
    (hact : dc.message.isInert = false) {m : ℕ × List SegPtr} (hm : m ∈ deliveries as) :
    ∃ call id, LinkAnswer.sent call id ∈ as ∧ id ≠ 0 ∧ call.args.context = m.1 ∧
      dc.Reads le e.recvPools tags fac m.2 e.le call := by
  obtain ⟨call, id, hmem, hid, hctx, hcall, hon⟩ := exists_sent_of_delivery hconn hd hops hrun hcount hm
  exact ⟨call, id, hmem, hid, hctx, IpcDecoder.reads_of_onWire hroom tags hfac hact hconn.sendSegment
    hcall hon⟩

/-- A buffer of two segments. -/
def bufferCall : SendCall := .sendBuf ⟨2, msgRaw, 5, 7, 3⟩ (some (List.replicate 1500 0xab))

/-- A datum that overtakes it. -/
def datumCall : SendCall := .sendDat ⟨2, msgDatum, 6, 9, 0⟩ SerDesFactory.construct sampleDatum

/-- The texts of the datum have one line. -/
theorem plain_sampleDatum : (sampleDatum.tree true).All Value.Plain := by
  refine ⟨fun a x hx => ?_, ⟨fun a x hx => ?_, trivial⟩, trivial⟩
  · cases a with
    | val =>
        obtain rfl := Option.some.inj hx
        trivial
    | _ => cases hx
  · cases a with
    | info =>
        obtain rfl := Option.some.inj hx
        refine not_laterLine_of_notMem _ ?_
        change 10 ∉ SerDesNative.valueOctets (.text (ascii "text"))
        decide
    | _ => cases hx

/-- Both are sent. -/
def payloadOps : List LinkOp := [.send bufferCall id, .send datumCall id]

theorem sound_payloadOps : ∀ o ∈ payloadOps, o.Sound pipeEnds := by
  have hbuf : LinkOp.Sound pipeEnds (.send bufferCall id) := by
    refine ⟨⟨(by decide : 2 < 2 ^ 32), (by decide : 7 < 2 ^ 32)⟩, ?_, fun _ _ _ h => SendCall.noConfusion h⟩
    change IpcStreamSegMem.segCount (List.replicate 1500 (0xab : UInt8)).length < 2 ^ 16
    rw [List.length_replicate]
    decide
  have hdat : LinkOp.Sound pipeEnds (.send datumCall id) := by
    refine ⟨⟨(by decide : 2 < 2 ^ 32), (by decide : 9 < 2 ^ 32)⟩, ?_, fun _ _ _ h => ?_⟩
    · rw [datumCall, SendCall.payload_sendDat (Option.some_ne_none _) SerDesFactory.stocked_construct rfl
        (by decide) encodable_sampleDatum]
      decide +kernel
    · obtain ⟨-, rfl, -⟩ := SendCall.sendDat.inj h
      exact SerDesFactory.stocked_construct
  simp only [payloadOps, List.forall_mem_cons]
  exact ⟨hbuf, hdat, fun _ ho => absurd ho List.not_mem_nil⟩

/-- Both calls put their messages into the transmit queue. -/
theorem exists_run_payloadOps : ∃ as s,
    run (linkStep pipeEnds) payloadOps (IpcLink.construct []) = some (as, s) ∧
      (sentViews pipeEnds as).map MessageView.context = [7, 9] := by
  obtain ⟨r, hr, hsent⟩ := @SendNode.sendBuf_sent exactPools (pipeEnds.node IpcTransmitQueue.construct)
    ⟨2, msgRaw, 5, 7, 3⟩ id (Option.some_ne_none _) (fun c hc => absurd hc List.not_mem_nil) rfl (by decide)
    (List.replicate 1500 0xab) (List.ne_nil_of_length_pos (by rw [List.length_replicate]; decide))
  have hcall : bufferCall.run true exactPools SerDesIdl.construct
      (pipeEnds.node IpcTransmitQueue.construct) id = some r := hr
  obtain ⟨s, hs, hqueue⟩ := @linkStep_send _ pipeEnds (IpcLink.construct []) _ _ _ hcall
  have hchains : ∀ c ∈ (pipeEnds.node s.transmit.queue).transmitQueue.priorityQueue, c ≠ [] := by
    intro c hc hnil
    have hc' : c ∈ r.transmitQueue.priorityQueue := hqueue ▸ hc
    obtain rfl := List.mem_singleton.1 (hsent.queue.subset hc')
    have hlen := congrArg List.length hsent.fragNums
    rw [hnil, List.length_replicate] at hlen
    exact absurd hlen (by decide)
  obtain ⟨r', hr', hrv⟩ := @SendCall.exists_run_sendDat true exactPools SerDesIdl.construct
    (pipeEnds.node s.transmit.queue) id (Option.some_ne_none _) ⟨2, msgDatum, 6, 9, 0⟩
    SerDesFactory.construct SerDesFactory.stocked_construct hchains rfl (by decide) sampleDatum rfl
  obtain ⟨u, hu, -⟩ := @linkStep_send _ pipeEnds s datumCall _ _ hr'
  refine ⟨[.sent bufferCall r.rv, .sent datumCall r'.rv], u,
    run_cons_eq_some.2 ⟨_, s, _, hs, run_cons_eq_some.2 ⟨_, u, [], hu, rfl, rfl⟩, rfl⟩, ?_⟩
  have hbuf : (LinkAnswer.sent bufferCall r.rv).sentView pipeEnds = some (bufferCall.view true exactPools
      SerDesIdl.construct (pipeEnds.node IpcTransmitQueue.construct) r.rv) := if_neg hsent.rv_ne
  have hdat : (LinkAnswer.sent datumCall r'.rv).sentView pipeEnds = some (datumCall.view true exactPools
      SerDesIdl.construct (pipeEnds.node IpcTransmitQueue.construct) r'.rv) := if_neg hrv
  rw [sentViews, List.filterMap_cons_some hbuf, List.filterMap_cons_some hdat]
  rfl

/-- Both messages come to the receiver in the end. -/
theorem run_payloadOps : ∃ ops as s, (∀ o ∈ ops, o.IsTurn) ∧
    run (linkStep pipeEnds) (payloadOps ++ ops) (IpcLink.construct []) = some (as, s) ∧
      (sentViews pipeEnds as).length < 2 ^ 32 ∧ ((deliveries as).map Prod.fst).Perm [7, 9] := by
  obtain ⟨as, s, hrun, hviews⟩ := exists_run_payloadOps
  have hcount : (sentViews pipeEnds as).length < 2 ^ 32 := by
    rw [← List.length_map MessageView.context, hviews]
    decide
  obtain ⟨t, msgs, l, frames, h⟩ := isLinked_run connected_pipeEnds rfl sound_payloadOps hrun hcount
  obtain ⟨ops, as', s', t', l', frames', hturns, hrest, h', hidle⟩ := link_drain connected_pipeEnds h
  have hsame := h'.views.symm.trans h.views
  obtain ⟨missing, hperm, hnone⟩ := h'.contexts_perm (connected_pipeEnds.recvRoom _ le_rfl)
  rw [hnone hidle, List.append_nil, hsame, hviews] at hperm
  exact ⟨ops, _, s', hturns, run_append hrun hrest, hsame ▸ hcount, hperm⟩

/-- Both messages are read: the octets of the buffer, and the tree of the datum. -/
theorem link_reads_payload : ∃ ops as s mbuf mdat, (∀ o ∈ ops, o.IsTurn) ∧
    run (linkStep pipeEnds) (payloadOps ++ ops) (IpcLink.construct []) = some (as, s) ∧
      mbuf ∈ deliveries as ∧ mbuf.1 = 7 ∧ mdat ∈ deliveries as ∧ mdat.1 = 9 ∧
      (∃ dc', (IpcDecoder.construct exactPools).loadSegment true exactPools sampleTags
        SerDesFactory.construct (mbuf.2.map SegPtr.seg) = some (true, SerDesFactory.construct, dc') ∧
          dc'.buffer.data = List.replicate 1500 0xab) ∧
      ∃ fac' dc', (IpcDecoder.construct exactPools).loadSegment true exactPools sampleTags
        SerDesFactory.construct (mdat.2.map SegPtr.seg) = some (true, fac', dc') ∧
          dc'.message.tree true = (sampleDatum.tree true).named
            ((IpcDecoder.construct exactPools).message.nameGet true exactPools) := by
  obtain ⟨ops, as, s, hturns, hrun, hcount, hperm⟩ := run_payloadOps
  have hsound : ∀ o ∈ payloadOps ++ ops, o.Sound pipeEnds :=
    List.forall_mem_append.2 ⟨sound_payloadOps, fun o ho => (hturns o ho).sound pipeEnds⟩
  have hreads := fun {m} (hm : m ∈ deliveries as) => link_reads connected_pipeEnds rfl hsound hrun hcount
    plentiful_exactPools true sampleTags SerDesFactory.stocked_construct
    (rfl : (IpcDecoder.construct exactPools).message.isInert = false) hm
  -- the call is one of the two, and the context tells which one
  have hcalls : ∀ {call id}, LinkAnswer.sent call id ∈ as → call = bufferCall ∨ call = datumCall := by
    intro call id hmem
    obtain ⟨addr, hsend⟩ := exists_send_of_run hrun hmem
    rcases List.mem_append.1 hsend with hsend | hturn
    · simp only [payloadOps, List.mem_cons, LinkOp.send.injEq, List.not_mem_nil, or_false] at hsend
      exact hsend.imp And.left And.left
    · exact (hturns _ hturn).elim
  obtain ⟨mbuf, hmbuf, hseven⟩ := List.mem_map.1 (hperm.mem_iff.2 (by decide : 7 ∈ [7, 9]))
  obtain ⟨mdat, hmdat, hnine⟩ := List.mem_map.1 (hperm.mem_iff.2 (by decide : 9 ∈ [7, 9]))
  refine ⟨ops, as, s, mbuf, mdat, hturns, hrun, hmbuf, hseven, hmdat, hnine, ?_, ?_⟩
  · obtain ⟨call, id, hmem, -, hctx, hread⟩ := hreads hmbuf
    rcases hcalls hmem with rfl | rfl
    · exact hread (.inl rfl)
    · exact absurd (hctx.trans hseven) (by decide)
  · obtain ⟨call, id, hmem, -, hctx, hread⟩ := hreads hmdat
    rcases hcalls hmem with rfl | rfl
    · exact absurd (hctx.trans hnine) (by decide)
    · obtain ⟨fac', dc', hload, -, htree⟩ := hread encodable_sampleDatum plain_sampleDatum
      exact ⟨fac', dc', hload, htree⟩

end CodePort
