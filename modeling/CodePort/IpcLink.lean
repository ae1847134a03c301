/-
A link between two nodes.

One node sends: any number of tasks call its sending functions, and its transmit thread takes the
segments from the transmit queue, one at a time, and hands them to the transport.  The frames go
through a byte stream.  The other node receives: its receive thread takes frames from the stream and
submits the segments to the queue of the accumulator thread, which puts the messages together and
delivers them to contexts.  All of this goes on at the same time, and segments of messages of
different priorities overtake each other on the way.

A segment is lost when the queue of the accumulator thread stays full for longer than `SubmitSegment`
waits, and a payload of 2^16 fragments or more, which a header cannot number, is not put together.  The
runs in which neither happens are those of `CodePort.LinkOp.Sound`.

Main definitions:

* `CodePort.LinkEnds` — the two nodes, and what connects them;
* `CodePort.linkStep` — **one step of any of the threads of the two nodes**;
* `CodePort.Linked` — the invariant of the link.

Main results:

* `CodePort.Linked.step` — every step keeps the invariant;
* `CodePort.link_drain` — the threads can always finish what has been begun;
* `CodePort.link_delivers` — **every message is delivered exactly once**, and says what was sent.
-/

import CodePort.IpcAccumQueue
import CodePort.IpcSending
import CodePort.IpcStrmDevice

set_option relaxedAutoImplicit false
set_option autoImplicit false

namespace CodePort

open IpcSegment IpcAccumMap StepSystem

variable {δ : Type*}

/-! ### The two nodes -/

/-- The two ends of a link. -/
structure LinkEnds (δ : Type*) where
  /-- The byte order of the sender. -/
  le : Bool
  /-- The memory of the sender. -/
  sendPools : MemPools
  /-- The serializer for XML that the encoder of the sender meets. -/
  xml : SerDesXml
  /-- The sender has initialized successfully. -/
  valid : Bool
  /-- The address of the sender. -/
  nodeAddr : ℕ
  sender : IpcTransport δ
  /-- The memory of the receiver. -/
  recvPools : MemPools
  receiver : IpcTransport δ

/-- The members of the sending node that its sending functions use. -/
def LinkEnds.node (e : LinkEnds δ) (q : IpcTransmitQueue) : SendNode := ⟨e.valid, e.nodeAddr, q⟩

/-- The threads of the two nodes, and what is between them. -/
structure IpcLink (δ : Type*) where
  /-- The transmit queue, and the calls in progress. -/
  transmit : TransmitState
  /-- The segment that `XmitThread` is about to send. -/
  xmit : Option SegPtr
  /-- `RecvThread`, and what is behind the devices. -/
  recv : RecvLoop δ
  /-- The incoming segment queue. -/
  accumQueue : IpcAccumQueue
  maps : IpcAccumMap

/-- A link that nobody has used. -/
def IpcLink.construct (d : δ) : IpcLink δ :=
  ⟨TransmitState.construct, none, ⟨0, none, d⟩, IpcAccumQueue.construct, IpcAccumMap.construct⟩

/-- The steps of the threads. -/
inductive LinkOp
  /-- A task calls a sending function, up to the end of the section of `TransmitMessage`. -/
  | send (call : SendCall) (addr : ℕ → ℕ)
  /-- `TransmitMessage` signals the transmit thread. -/
  | give
  /-- `XmitThread` takes the semaphore. -/
  | take
  /-- `XmitThread` gets the next segment. -/
  | get
  /-- `XmitThread` hands its segment to the transport. -/
  | xmit
  /-- A turn of `RecvThread`, up to the call of `SubmitSegment`. -/
  | recv
  /-- `SubmitSegment` returns; `putOk` says that it has got a place in the queue. -/
  | submit (putOk : Bool)
  /-- A turn of `AccumThread` that gets a segment from the queue. -/
  | accum (now : ℕ) (submitOk : Bool) (drained : ℕ)
  /-- The tasks of the receiver register handlers and take messages out of the contexts. -/
  | contexts (contextMap : AList fun _ : ℕ => IpcContext)

/-- What a step answers. -/
inductive LinkAnswer
  /-- The call will return the message ID, or 0. -/
  | sent (call : SendCall) (id : ℕ)
  /-- The message that has been put into a context, if any. -/
  | delivered (d : Option (ℕ × List SegPtr))
  | done

/-- One step. -/
def linkStep (e : LinkEnds δ) (s : IpcLink δ) : LinkOp → Option (LinkAnswer × IpcLink δ)
  | .send call addr =>
      (call.run e.le e.sendPools e.xml (e.node s.transmit.queue) addr).map fun r =>
        (.sent call r.rv, { s with
          transmit := { s.transmit with
            queue := r.transmitQueue
            giving := if r.rv = 0 then s.transmit.giving else s.transmit.giving + 1 } })
  | .give => (transmitStep s.transmit .give).map fun r => (.done, { s with transmit := r.2 })
  | .take =>
      if s.transmit.getting = 0 ∧ s.xmit = none then
        (transmitStep s.transmit .take).map fun r => (.done, { s with transmit := r.2 })
      else none
  | .get =>
      (transmitStep s.transmit .get).map fun r =>
        (.done, { s with transmit := r.2, xmit := r.1.received.head? })
  | .xmit =>
      match s.xmit with
      | none => none
      | some p =>
          let a := (NodeTransport.stream e.sender).send e.sendPools (some p) s.recv.env
          some (.done, { s with xmit := none, recv := { s.recv with env := a.env } })
  | .recv =>
      if s.accumQueue.submitting = none then
        (recvLoop e.recvPools (.stream e.receiver) s.recv ()).map fun r =>
          (.done, { s with recv := r.2, accumQueue := s.accumQueue.receive r.1 })
      else none
  | .submit putOk => (s.accumQueue.submit putOk).map fun q => (.done, { s with accumQueue := q })
  | .accum now submitOk drained =>
      s.accumQueue.get.bind fun q =>
        (s.maps.accumStep ⟨some q.1, false, now, submitOk, drained⟩).map fun r =>
          (.delivered r.1.delivered, { s with accumQueue := q.2, maps := r.2 })
  | .contexts contextMap => some (.done, { s with maps := { s.maps with contextMap := contextMap } })

/-! ### What is sent and what is delivered -/

/-- The message that a call has sent. -/
def LinkAnswer.sentView (e : LinkEnds δ) : LinkAnswer → Option MessageView
  | .sent call id =>
      if id = 0 then none
      else some (call.view e.le e.sendPools e.xml (e.node IpcTransmitQueue.construct) id)
  | _ => none

/-- The messages that have been sent, in the order of the calls. -/
def sentViews (e : LinkEnds δ) (as : List LinkAnswer) : List MessageView :=
  as.filterMap (LinkAnswer.sentView e)

/-- The context and the message that a step has put into it. -/
def LinkAnswer.delivery : LinkAnswer → Option (ℕ × List SegPtr)
  | .delivered d => d
  | _ => none

/-- What has been delivered, in order. -/
def deliveries (as : List LinkAnswer) : List (ℕ × List SegPtr) := as.filterMap LinkAnswer.delivery

/-- `SubmitSegment` never gives up, and a call has proper arguments and a payload whose fragments a header
can number. -/
def LinkOp.Sound (e : LinkEnds δ) : LinkOp → Prop
  | .send call _ => call.Fits e.le e.sendPools e.xml (e.node IpcTransmitQueue.construct)
  | .submit putOk => putOk = true
  | _ => True

/-- **What connects the two nodes**: the devices of the transports have one byte stream between them,
the node has an address, and there is memory for segments and for frame headers. -/
structure LinkEnds.Connected (e : LinkEnds δ) (sendDev recvDev : IoDev δ) (stream : δ → List UInt8)
    (full : δ → Prop) : Prop where
  nodeAddr_lt : e.nodeAddr < 2 ^ 32
  sendDevice : ∀ addr, e.sender.sendDeviceGet addr = some sendDev
  recvDevice : e.receiver.ptrRecvDevice = some recvDev
  writes : sendDev.WritesFully stream
  reads : recvDev.ReadsFully stream full
  idles : recvDev.Idles stream full
  sendSegment : e.sendPools.blockSize segMaxLen ≠ none
  sendHeader : e.sendPools.blockSize IpcStrmTransport.ipcStrmHeaderLen ≠ none
  recvRoom : ∀ n ≤ segMaxLen, e.recvPools.blockSize n ≠ none

/-! ### The invariant -/

/-- The octets that are on their way, when the frames with the octets in `frames` are on the stream and
the table of the transmit queue is `t`. -/
def IpcLink.onWay (s : IpcLink δ) (frames : List (List UInt8)) (t : List Message) : List (List UInt8) :=
  s.accumQueue.segments.map SegPtr.wire ++ (frames ++ outgoing s.xmit t)

/-- **The invariant of the link** after the answers `as`: the sender keeps its invariant, and `msgs` says
what has been sent; the stream holds the frames of `frames`; and the delivery goes on, with the segments
in `l` accumulated and everything else on its way. -/
structure Linked (e : LinkEnds δ) (stream : δ → List UInt8) (as : List LinkAnswer) (s : IpcLink δ)
    (t : List Message) (msgs : List SentMessage) (l : List SegPtr) (frames : List (List UInt8)) :
    Prop where
  sending : Sending e.nodeAddr s.transmit s.xmit t msgs
  views : msgs.map Prod.fst = sentViews e as
  stream_eq : stream s.recv.env = frames.flatMap frameOctets
  recvSeg : ∀ p ∈ s.recv.pSeg, p.seg.Full
  delivering : Delivering msgs l (s.onWay frames t) s.maps.accumMap (deliveries as)

section

variable {e : LinkEnds δ} {stream : δ → List UInt8} {as : List LinkAnswer} {s s' : IpcLink δ}
  {t : List Message} {msgs : List SentMessage} {l : List SegPtr} {frames : List (List UInt8)}

@[simp] theorem sentViews_concat (e : LinkEnds δ) (as : List LinkAnswer) (a : LinkAnswer) :
    sentViews e (as ++ [a]) = sentViews e as ++ (a.sentView e).toList := by
  rw [sentViews, List.filterMap_append, sentViews]
  cases h : a.sentView e <;> simp [h]

@[simp] theorem deliveries_concat (as : List LinkAnswer) (a : LinkAnswer) :
    deliveries (as ++ [a]) = deliveries as ++ a.delivery.toList := by
  rw [deliveries, List.filterMap_append, deliveries]
  cases h : a.delivery <;> simp [h]

theorem linked_construct (e : LinkEnds δ) {d : δ} (hd : stream d = []) :
    Linked e stream [] (IpcLink.construct d) [] [] [] [] where
  sending := Sending.construct e.nodeAddr
  views := rfl
  stream_eq := hd
  recvSeg := fun p hp => absurd hp (Option.not_mem_none p)
  delivering := Delivering.nil

/-- A step that neither sends nor delivers. -/
theorem Linked.quiet (h : Linked e stream as s t msgs l frames) {u : TransmitState}
    {x : Option SegPtr} {t' : List Message} {recv : RecvLoop δ} {accumQueue : IpcAccumQueue}
    {frames' : List (List UInt8)} (hsending : Sending e.nodeAddr u x t' msgs)
    (hstream : stream recv.env = frames'.flatMap frameOctets) (hrecv : ∀ p ∈ recv.pSeg, p.seg.Full)
    (hway : (s.onWay frames t).Perm (IpcLink.onWay ⟨u, x, recv, accumQueue, s.maps⟩ frames' t')) :
    Linked e stream (as ++ [.done]) ⟨u, x, recv, accumQueue, s.maps⟩ t' msgs l frames' where
  sending := hsending
  views := by rw [sentViews_concat, h.views]; exact (List.append_nil _).symm
  stream_eq := hstream
  recvSeg := hrecv
  delivering := by
    rw [deliveries_concat]
    exact (List.append_nil (deliveries as)).symm ▸ h.delivering.perm hway

theorem Linked.give (h : Linked e stream as s t msgs l frames) {a : LinkAnswer}
    (hstep : linkStep e s .give = some (a, s')) : Linked e stream (as ++ [a]) s' t msgs l frames := by
  obtain ⟨⟨b, u⟩, hu, heq⟩ := Option.map_eq_some_iff.1 hstep
  obtain ⟨rfl, rfl⟩ := Prod.mk.inj heq
  exact h.quiet (h.sending.give hu) h.stream_eq h.recvSeg (.refl _)

theorem Linked.take (h : Linked e stream as s t msgs l frames) {a : LinkAnswer}
    (hstep : linkStep e s .take = some (a, s')) : Linked e stream (as ++ [a]) s' t msgs l frames := by
  rw [linkStep] at hstep
  split_ifs at hstep with hfree
  obtain ⟨⟨b, u⟩, hu, heq⟩ := Option.map_eq_some_iff.1 hstep
  obtain ⟨rfl, rfl⟩ := Prod.mk.inj heq
  have hsending := h.sending
  rw [hfree.2] at hsending
  have htaken := hsending.take hfree.1 hu
  rw [← hfree.2] at htaken
  exact h.quiet htaken h.stream_eq h.recvSeg (.refl _)

/-- **The transmit thread gets a segment**: it is the next one of a message. -/
theorem Linked.get (h : Linked e stream as s t msgs l frames) {a : LinkAnswer}
    (hstep : linkStep e s .get = some (a, s')) :
    ∃ t', s.xmit = none ∧ Linked e stream (as ++ [a]) s' t' msgs l frames ∧
      (s.transmit.queue.priorityQueue ≠ [] → ∀ c,
        sendWork c s'.transmit s'.xmit t' < sendWork c s.transmit none t) := by
  obtain ⟨⟨b, u⟩, hu, heq⟩ := Option.map_eq_some_iff.1 hstep
  obtain ⟨rfl, rfl⟩ := Prod.mk.inj heq
  obtain ⟨t', hnone, hsending, hperm, hless⟩ := h.sending.get hu
  refine ⟨t', hnone, h.quiet hsending h.stream_eq h.recvSeg ?_, hless⟩
  rw [IpcLink.onWay, hnone]
  exact (hperm.append_left _).append_left _

/-- What is on its way has the length of a segment, and the length that it says. -/
theorem Linked.length_onWay (h : Linked e stream as s t msgs l frames) {w : List UInt8}
    (hw : w ∈ s.onWay frames t) : segData ≤ w.length ∧ w.length ≤ segMaxLen ∧
      w.length = segData + wireGet w .dataLen := by
  have hin := h.delivering.flow.subset (List.mem_append_right _ hw)
  obtain ⟨x, hx, hwx⟩ := List.mem_flatMap.1 hin
  exact (h.delivering.sent.onWire x hx).length_mem.2 w hwx

section

variable {sendDev recvDev : IoDev δ} {full : δ → Prop}

/-- **The transmit thread sends its segment**: its frame is on the stream. -/
theorem Linked.xmit (hconn : e.Connected sendDev recvDev stream full)
    (h : Linked e stream as s t msgs l frames) {a : LinkAnswer}
    (hstep : linkStep e s .xmit = some (a, s')) :
    Linked e stream (as ++ [a]) s' t msgs l (frames ++ s.xmit.toList.map SegPtr.wire) := by
  rw [linkStep] at hstep
  cases hx : s.xmit with
  | none =>
      rw [hx] at hstep
      exact absurd hstep (by simp)
  | some p =>
      rw [hx] at hstep
      obtain ⟨rfl, rfl⟩ := Prod.mk.inj (Option.some.inj hstep)
      obtain ⟨hlen, hmax, hseg⟩ := h.length_onWay (w := p.wire) (by simp [IpcLink.onWay, outgoing, hx])
      obtain ⟨-, hput⟩ := IpcStrmTransport.send_frame hconn.sendHeader
        (hconn.sendDevice p.seg.dstAddr) hconn.writes hlen hmax hseg s.recv.env
      refine h.quiet h.sending.handOver ?_ h.recvSeg ?_
      · change stream (IpcStrmTransport.send e.sendPools e.sender (some p) s.recv.env).env = _
        rw [hput, h.stream_eq, List.flatMap_append]
        simp
      · simp [IpcLink.onWay, outgoing, hx]

/-- **The receive thread takes a frame from the stream**, if there is one. -/
theorem Linked.recv (hconn : e.Connected sendDev recvDev stream full)
    (h : Linked e stream as s t msgs l frames) {a : LinkAnswer}
    (hstep : linkStep e s .recv = some (a, s')) :
    Linked e stream (as ++ [a]) s' t msgs l frames.tail := by
  rw [linkStep] at hstep
  split_ifs at hstep with hfree
  have hsegments := IpcAccumQueue.segments_receive hfree
  obtain ⟨⟨b, u⟩, hu, heq⟩ := Option.map_eq_some_iff.1 hstep
  obtain ⟨rfl, rfl⟩ := Prod.mk.inj heq
  cases frames with
  | nil =>
      obtain ⟨u', hu', hfull, hrest⟩ := recvLoop_idle hconn.reads hconn.idles
        (hconn.recvRoom _ le_rfl) hconn.recvDevice h.recvSeg h.stream_eq
      obtain ⟨rfl, rfl⟩ := Prod.mk.inj (Option.some.inj (hu.symm.trans hu'))
      exact h.quiet h.sending hrest hfull (.of_eq (by simp [IpcLink.onWay, hsegments]))
  | cons w frames =>
      obtain ⟨hlen, hmax, -⟩ := h.length_onWay (w := w) (by simp [IpcLink.onWay])
      have hs := h.stream_eq
      rw [List.flatMap_cons] at hs
      obtain ⟨p, u', hu', rfl, hfull, hrest⟩ := recvLoop_wire hconn.reads hconn.recvRoom
        hconn.recvDevice hlen hmax h.recvSeg hs
      obtain ⟨rfl, rfl⟩ := Prod.mk.inj (Option.some.inj (hu.symm.trans hu'))
      exact h.quiet h.sending hrest hfull (.of_eq (by simp [IpcLink.onWay, hsegments]))

end

/-- **The receive thread gets a place for its segment.** -/
theorem Linked.submit (h : Linked e stream as s t msgs l frames) {a : LinkAnswer}
    (hstep : linkStep e s (.submit true) = some (a, s')) :
    Linked e stream (as ++ [a]) s' t msgs l frames := by
  obtain ⟨q, hq, heq⟩ := Option.map_eq_some_iff.1 hstep
  obtain ⟨rfl, rfl⟩ := Prod.mk.inj heq
  obtain ⟨hsegments, -⟩ := IpcAccumQueue.submit_spec hq
  exact h.quiet h.sending h.stream_eq h.recvSeg (.of_eq (by rw [IpcLink.onWay, IpcLink.onWay, hsegments]))

/-- **The accumulator thread takes a segment from its queue.** -/
theorem Linked.accum (h : Linked e stream as s t msgs l frames) {a : LinkAnswer} {now drained : ℕ}
    {submitOk : Bool} (hstep : linkStep e s (.accum now submitOk drained) = some (a, s')) :
    ∃ l', Linked e stream (as ++ [a]) s' t msgs l' frames := by
  obtain ⟨⟨p, q⟩, hq, hrest⟩ := Option.bind_eq_some_iff.1 hstep
  obtain ⟨r, hr, heq⟩ := Option.map_eq_some_iff.1 hrest
  obtain ⟨rfl, rfl⟩ := Prod.mk.inj heq
  obtain rfl := Option.some.inj hr
  obtain ⟨hsegments, -⟩ := IpcAccumQueue.get_spec hq
  have hway : s.onWay frames t = p.wire :: IpcLink.onWay { s with accumQueue := q } frames t := by
    simp [IpcLink.onWay, hsegments]
  have hdel := h.delivering
  rw [hway] at hdel
  exact ⟨l ++ [p],
    { sending := h.sending
      views := by rw [sentViews_concat, h.views]; exact (List.append_nil _).symm
      stream_eq := h.stream_eq
      recvSeg := h.recvSeg
      delivering := by
        rw [deliveries_concat]
        exact hdel.receive _ }⟩

theorem Linked.contexts (h : Linked e stream as s t msgs l frames) {a : LinkAnswer}
    {contextMap : AList fun _ : ℕ => IpcContext}
    (hstep : linkStep e s (.contexts contextMap) = some (a, s')) :
    Linked e stream (as ++ [a]) s' t msgs l frames := by
  obtain ⟨rfl, rfl⟩ := Prod.mk.inj (Option.some.inj hstep)
  exact
    { sending := h.sending
      views := by rw [sentViews_concat, h.views]; exact (List.append_nil _).symm
      stream_eq := h.stream_eq
      recvSeg := h.recvSeg
      delivering := by
        rw [deliveries_concat]
        exact (List.append_nil (deliveries as)).symm ▸ h.delivering }

/-- **A message is put into the queue**: it gets the next message ID. -/
theorem Linked.queued (h : Linked e stream as s t msgs l frames) {call : SendCall} {r : SendResult}
    (hq : call.Queues e.le e.sendPools e.xml (e.node s.transmit.queue) r)
    (hcount : (sentViews e (as ++ [.sent call r.rv])).length < 2 ^ 32) :
    ∃ t' msgs', Linked e stream (as ++ [.sent call r.rv]) { s with
      transmit := { s.transmit with
        queue := r.transmitQueue
        giving := if r.rv = 0 then s.transmit.giving else s.transmit.giving + 1 } } t' msgs' l frames := by
  have hviews := congrArg List.length h.views
  rw [List.length_map, h.sending.length_eq] at hviews
  have hlt : t.length + 1 < 2 ^ 32 := by
    have hpos : r.rv ≠ 0 := SendCall.Queues.rv_ne_zero hq
    rw [sentViews_concat, LinkAnswer.sentView, if_neg hpos, Option.toList_some, List.length_append,
      List.length_singleton, ← hviews] at hcount
    exact hcount
  have hnode : Sending (e.node s.transmit.queue).nodeAddr s.transmit s.xmit t msgs := h.sending
  obtain ⟨hrv, t', y, -, hview, hon, hout, hsending⟩ := hnode.queued rfl hq hlt
  have hpos : r.rv ≠ 0 := hrv ▸ Nat.succ_ne_zero _
  have hid : y.1.msgId = t.length + 1 := by
    rw [hview, ← hrv]
    rfl
  refine ⟨t', msgs ++ [y], ?_⟩
  rw [if_neg hpos]
  exact
    { sending := hsending
      views := by
        rw [List.map_append, h.views, List.map_singleton, sentViews_concat, LinkAnswer.sentView,
          if_neg hpos, hview]
        exact congrArg (fun v => sentViews e as ++ [v]) (SendCall.view_queue e.le e.sendPools e.xml
          (e.node IpcTransmitQueue.construct) s.transmit.queue call r.rv)
      stream_eq := h.stream_eq
      recvSeg := h.recvSeg
      delivering := by
        have hdel := h.delivering.send hon (h.sending.guid_notMem hlt hid)
        rw [deliveries_concat]
        refine (List.append_nil (deliveries as)).symm ▸ hdel.perm (.of_eq ?_)
        rw [IpcLink.onWay, IpcLink.onWay, hout, List.append_assoc, List.append_assoc] }

/-- **A call of a sending function**: it has put its message into the queue, or done nothing. -/
theorem Linked.send {sendDev recvDev : IoDev δ} {full : δ → Prop}
    (hconn : e.Connected sendDev recvDev stream full) (h : Linked e stream as s t msgs l frames)
    {call : SendCall} {addr : ℕ → ℕ} {a : LinkAnswer}
    (hfits : call.Fits e.le e.sendPools e.xml (e.node IpcTransmitQueue.construct))
    (hstep : linkStep e s (.send call addr) = some (a, s'))
    (hcount : (sentViews e (as ++ [a])).length < 2 ^ 32) :
    ∃ t' msgs', Linked e stream (as ++ [a]) s' t' msgs' l frames := by
  obtain ⟨r, hr, heq⟩ := Option.map_eq_some_iff.1 hstep
  obtain ⟨rfl, rfl⟩ := Prod.mk.inj heq
  rcases SendCall.run_spec hconn.sendSegment hconn.nodeAddr_lt (hfits.queue s.transmit.queue) hr with rfl | hq
  · refine ⟨t, msgs,
      { sending := h.sending
        views := by rw [sentViews_concat, h.views]; exact (List.append_nil _).symm
        stream_eq := h.stream_eq
        recvSeg := h.recvSeg
        delivering := by
          rw [deliveries_concat]
          exact (List.append_nil (deliveries as)).symm ▸ h.delivering }⟩
  · exact h.queued hq hcount

/-- The link is in some state that the invariant allows. -/
def IsLinked (e : LinkEnds δ) (stream : δ → List UInt8) (as : List LinkAnswer) (s : IpcLink δ) : Prop :=
  ∃ t msgs l frames, Linked e stream as s t msgs l frames

/-- **Every step keeps the invariant.** -/
theorem Linked.step {sendDev recvDev : IoDev δ} {full : δ → Prop}
    (hconn : e.Connected sendDev recvDev stream full) (h : Linked e stream as s t msgs l frames)
    {o : LinkOp} (ho : o.Sound e) {a : LinkAnswer} (hstep : linkStep e s o = some (a, s'))
    (hcount : (sentViews e (as ++ [a])).length < 2 ^ 32) : IsLinked e stream (as ++ [a]) s' := by
  cases o with
  | send call addr =>
      obtain ⟨t', msgs', h'⟩ := h.send hconn ho hstep hcount
      exact ⟨t', msgs', l, frames, h'⟩
  | give => exact ⟨t, msgs, l, frames, h.give hstep⟩
  | take => exact ⟨t, msgs, l, frames, h.take hstep⟩
  | get =>
      obtain ⟨t', -, h', -⟩ := h.get hstep
      exact ⟨t', msgs, l, frames, h'⟩
  | xmit => exact ⟨t, msgs, l, _, h.xmit hconn hstep⟩
  | recv => exact ⟨t, msgs, l, _, h.recv hconn hstep⟩
  | submit putOk =>
      obtain rfl : putOk = true := ho
      exact ⟨t, msgs, l, frames, h.submit hstep⟩
  | accum now submitOk drained =>
      obtain ⟨l', h'⟩ := h.accum hstep
      exact ⟨t, msgs, l', frames, h'⟩
  | contexts contextMap => exact ⟨t, msgs, l, frames, h.contexts hstep⟩

theorem isLinked_run {sendDev recvDev : IoDev δ} {full : δ → Prop}
    (hconn : e.Connected sendDev recvDev stream full) {d : δ} (hd : stream d = []) {ops : List LinkOp}
    (hops : ∀ o ∈ ops, o.Sound e) (hrun : run (linkStep e) ops (IpcLink.construct d) = some (as, s))
    (hcount : (sentViews e as).length < 2 ^ 32) : IsLinked e stream as s := by
  have hstep : ∀ {as : List LinkAnswer} {s : IpcLink δ} {o : LinkOp} {a : LinkAnswer} {s' : IpcLink δ},
      ((sentViews e as).length < 2 ^ 32 → IsLinked e stream as s) → True ∧ o.Sound e →
        linkStep e s o = some (a, s') →
          (sentViews e (as ++ [a])).length < 2 ^ 32 → IsLinked e stream (as ++ [a]) s' := by
    intro as s o a s' hI ho hst hlt
    have hle : (sentViews e as).length < 2 ^ 32 := by
      rw [sentViews_concat, List.length_append] at hlt
      omega
    obtain ⟨t, msgs, l, frames, h⟩ := hI hle
    exact h.step hconn ho.2 hst hlt
  have hmeets : Meets (linkStep e) (fun _ o => True ∧ o.Sound e) ops (IpcLink.construct d) :=
    (Meets.of_forall fun _ _ => trivial).and_forall hops
  have hstart : (sentViews e []).length < 2 ^ 32 → IsLinked e stream [] (IpcLink.construct d) :=
    fun _ => ⟨[], [], [], [], linked_construct e hd⟩
  exact run_history_of_meets (I := fun as s => (sentViews e as).length < 2 ^ 32 → IsLinked e stream as s)
    hstep hstart hrun hmeets hcount

/-! ### The end of the work -/

/-- Nothing is on its way. -/
structure IpcLink.Idle (s : IpcLink δ) (stream : δ → List UInt8) : Prop where
  queue : s.transmit.queue.priorityQueue = []
  xmit : s.xmit = none
  stream : stream s.recv.env = []
  accumQueue : s.accumQueue.segments = []

theorem frameOctets_ne_nil (w : List UInt8) : frameOctets w ≠ [] := by
  intro hnil
  have := congrArg List.length hnil
  rw [frameOctets, List.length_append, IpcStrmTransport.length_headerOctets] at this
  exact absurd (Nat.eq_zero_of_add_eq_zero_right this) (by decide)

theorem Linked.frames_eq_nil (h : Linked e stream as s t msgs l frames)
    (hs : stream s.recv.env = []) : frames = [] := by
  cases frames with
  | nil => rfl
  | cons w frames =>
      have hstream := h.stream_eq
      rw [hs, List.flatMap_cons] at hstream
      exact absurd (List.append_eq_nil_iff.1 hstream.symm).1 (frameOctets_ne_nil w)

theorem Linked.onWay_of_idle (h : Linked e stream as s t msgs l frames) (hidle : s.Idle stream) :
    s.onWay frames t = [] := by
  have hsending := h.sending
  rw [hidle.xmit] at hsending
  rw [IpcLink.onWay, hidle.accumQueue, hidle.xmit, h.frames_eq_nil hidle.stream,
    hsending.outgoing_eq_nil hidle.queue]
  rfl

/-- What the threads have left to do. -/
def IpcLink.work (s : IpcLink δ) (frames : List (List UInt8)) (t : List Message) : ℕ :=
  sendWork 5 s.transmit s.xmit t + 4 * frames.length + s.accumQueue.work

/-- A step that sends nothing and gives nothing up. -/
def LinkOp.IsTurn : LinkOp → Prop
  | .send _ _ => False
  | .submit putOk => putOk = true
  | _ => True

theorem LinkOp.IsTurn.sound {o : LinkOp} (h : o.IsTurn) (e : LinkEnds δ) : o.Sound e := by
  cases o with
  | send call addr => exact h.elim
  | submit putOk => exact h
  | _ => trivial

/-- **A thread can go on** as long as something is on its way, and then there is less to do. -/
theorem Linked.progress {sendDev recvDev : IoDev δ} {full : δ → Prop}
    (hconn : e.Connected sendDev recvDev stream full) (h : Linked e stream as s t msgs l frames)
    (hbusy : ¬ s.Idle stream) :
    ∃ o a s' t' l' frames', o.IsTurn ∧ linkStep e s o = some (a, s') ∧
      Linked e stream (as ++ [a]) s' t' msgs l' frames' ∧ s'.work frames' t' < s.work frames t := by
  by_cases hq : s.accumQueue.segments = []
  swap
  · rcases IpcAccumQueue.exists_turn hq with ⟨p, q, hget⟩ | ⟨q, hsubmit⟩
    · obtain ⟨a, s', hstep, hs'⟩ : ∃ a s', linkStep e s (.accum 0 true 0) = some (a, s') ∧
          s'.work frames t + 2 = s.work frames t := by
        obtain ⟨-, hwork⟩ := IpcAccumQueue.get_spec hget
        refine ⟨_, _, by rw [linkStep, hget]; rfl, ?_⟩
        simp only [IpcLink.work]
        omega
      obtain ⟨l', h'⟩ := h.accum hstep
      exact ⟨.accum 0 true 0, a, s', t, l', frames, trivial, hstep, h', by omega⟩
    · have hstep : linkStep e s (.submit true) = some (.done, { s with accumQueue := q }) := by
        rw [linkStep, hsubmit, Option.map_some]
      obtain ⟨-, hwork⟩ := IpcAccumQueue.submit_spec hsubmit
      refine ⟨.submit true, _, _, _, _, _, rfl, hstep, h.submit hstep, ?_⟩
      simp only [IpcLink.work]
      omega
  · have hfree := IpcAccumQueue.submitting_eq_none hq
    cases hf : frames with
    | cons w fs =>
        obtain ⟨⟨out, u⟩, hu⟩ : ∃ r, recvLoop e.recvPools (.stream e.receiver) s.recv () = some r := ⟨_, rfl⟩
        have hstep : linkStep e s .recv =
            some (.done, { s with recv := u, accumQueue := s.accumQueue.receive out }) := by
          rw [linkStep, if_pos hfree, hu, Option.map_some]
        refine ⟨.recv, _, _, _, _, _, trivial, hstep, h.recv hconn hstep, ?_⟩
        have hout : out.toList.length ≤ 1 := by cases out <;> simp
        simp only [IpcLink.work, IpcAccumQueue.work_receive hfree, hf, List.tail_cons, List.length_cons]
        omega
    | nil =>
        cases hx : s.xmit with
        | some p =>
            obtain ⟨a, s', hstep⟩ : ∃ a s', linkStep e s .xmit = some (a, s') := by
              rw [linkStep, hx]
              exact ⟨_, _, rfl⟩
            have h' := h.xmit hconn hstep
            refine ⟨.xmit, _, _, _, _, _, trivial, hstep, h', ?_⟩
            rw [linkStep, hx] at hstep
            obtain ⟨-, rfl⟩ := Prod.mk.inj (Option.some.inj hstep)
            simp only [IpcLink.work, sendWork, hx, hf, Option.toList_some, Option.toList_none,
              List.length_append, List.length_map, List.length_cons, List.length_nil]
            omega
        | none =>
            have hne : s.transmit.queue.priorityQueue ≠ [] := fun hnil =>
              hbusy ⟨hnil, hx, by rw [h.stream_eq, hf]; rfl, hq⟩
            have hsending := h.sending
            rw [hx] at hsending
            rcases hsending.progress hne with ⟨hget, u, hu, hless⟩ | ⟨u, hu, hless⟩ | ⟨b, u, hu⟩
            · have hstep : linkStep e s .take = some (.done, { s with transmit := u }) := by
                rw [linkStep, if_pos ⟨hget, hx⟩, hu, Option.map_some]
              refine ⟨.take, _, _, _, _, _, trivial, hstep, h.take hstep, ?_⟩
              have := hless 5
              simp only [IpcLink.work, hf, hx]
              omega
            · have hstep : linkStep e s .give = some (.done, { s with transmit := u }) := by
                rw [linkStep, hu, Option.map_some]
              refine ⟨.give, _, _, _, _, _, trivial, hstep, h.give hstep, ?_⟩
              have := hless 5
              simp only [IpcLink.work, hf, hx]
              omega
            · have hstep : linkStep e s .get = some (.done, { s with
                  transmit := u
                  xmit := b.received.head? }) := by
                rw [linkStep, hu, Option.map_some]
              obtain ⟨t', -, h', hless⟩ := h.get hstep
              refine ⟨.get, _, _, _, _, _, trivial, hstep, h', ?_⟩
              have := hless hne 5
              simp only [IpcLink.work, hf, hx] at this ⊢
              omega

/-- **The threads can finish**: some turns bring the link to a state in which nothing is on its way. -/
theorem link_drain {sendDev recvDev : IoDev δ} {full : δ → Prop}
    (hconn : e.Connected sendDev recvDev stream full) (h : Linked e stream as s t msgs l frames) :
    ∃ ops as' s' t' l' frames', (∀ o ∈ ops, o.IsTurn) ∧ run (linkStep e) ops s = some (as', s') ∧
      Linked e stream (as ++ as') s' t' msgs l' frames' ∧ s'.Idle stream := by
  induction hn : s.work frames t using Nat.strong_induction_on generalizing as s t l frames with
  | _ n ih =>
      by_cases hidle : s.Idle stream
      · exact ⟨[], [], s, t, l, frames, fun _ ho => absurd ho List.not_mem_nil, rfl,
          (List.append_nil as).symm ▸ h, hidle⟩
      · obtain ⟨o, a, s₁, t₁, l₁, frames₁, hturn, hstep, h₁, hless⟩ := h.progress hconn hidle
        obtain ⟨ops, as', s', t', l', frames', hturns, hrun, h', hidle'⟩ :=
          ih _ (hn ▸ hless) h₁ rfl
        refine ⟨o :: ops, a :: as', s', t', l', frames', List.forall_mem_cons.2 ⟨hturn, hturns⟩,
          run_cons_eq_some.2 ⟨a, s₁, as', hstep, hrun, rfl⟩, ?_, hidle'⟩
        rwa [List.append_cons]

/-- No two messages that have been sent are equal. -/
theorem Linked.nodup_sentViews (h : Linked e stream as s t msgs l frames) : (sentViews e as).Nodup := by
  have hnodup := h.delivering.sent.nodup
  rw [← h.views]
  refine List.Nodup.of_map MessageView.guid ?_
  rwa [List.map_map]

/-- The contexts in which messages have arrived, and those of the messages that are missing, are the
contexts to which messages have been sent. -/
theorem Linked.contexts_perm {m : MemPools} (hm : m.blockSize segMaxLen ≠ none)
    (h : Linked e stream as s t msgs l frames) :
    ∃ missing : List ℕ, ((deliveries as).map Prod.fst ++ missing).Perm
      ((sentViews e as).map MessageView.context) ∧ (s.Idle stream → missing = []) := by
  obtain ⟨missing, hperm, hctx, hleft⟩ := h.delivering.views hm (IpcDecoder.construct m)
  rw [h.views] at hperm
  refine ⟨missing.map MessageView.context, ?_, fun hidle => ?_⟩
  · have hmap := hperm.map MessageView.context
    rw [List.map_append, List.map_map] at hmap
    rw [← List.map_congr_left hctx]
    exact hmap
  · rw [Delivering.missing_eq_nil hleft (h.onWay_of_idle hidle)]
    rfl

/-- **Every message is delivered exactly once.**  Whatever the threads of the two nodes have done, and
in whatever order, the messages that have been delivered are messages that have been sent, each of them
once, as a reader finds them in the segments, and each is in the context that it names; when nothing is
on its way none is missing; and the threads can always go on until that is so. -/
theorem link_delivers {sendDev recvDev : IoDev δ} {full : δ → Prop}
    (hconn : e.Connected sendDev recvDev stream full) {d : δ} (hd : stream d = []) {ops : List LinkOp}
    (hops : ∀ o ∈ ops, o.Sound e) (hrun : run (linkStep e) ops (IpcLink.construct d) = some (as, s))
    (hcount : (sentViews e as).length < 2 ^ 32) (dc : IpcDecoder) :
    (sentViews e as).Nodup ∧
    (∃ missing, ((deliveries as).map (fun m => dc.view m.2) ++ missing).Perm (sentViews e as) ∧
      (s.Idle stream → missing = [])) ∧
    (∀ m ∈ deliveries as, (dc.view m.2).context = m.1) ∧
    ∃ ops' as' s', (∀ o ∈ ops', o.IsTurn) ∧ run (linkStep e) ops' s = some (as', s') ∧
      s'.Idle stream ∧ ((deliveries (as ++ as')).map fun m => dc.view m.2).Perm (sentViews e as) := by
  have hm := hconn.recvRoom segMaxLen le_rfl
  obtain ⟨t, msgs, l, frames, h⟩ := isLinked_run hconn hd hops hrun hcount
  obtain ⟨missing, hperm, hctx, hleft⟩ := h.delivering.views hm dc
  rw [h.views] at hperm
  refine ⟨h.nodup_sentViews, ⟨missing, hperm, fun hidle =>
    Delivering.missing_eq_nil hleft (h.onWay_of_idle hidle)⟩, hctx, ?_⟩
  obtain ⟨ops', as', s', t', l', frames', hturns, hrun', h', hidle⟩ := link_drain hconn h
  obtain ⟨missing', hperm', -, hleft'⟩ := h'.delivering.views hm dc
  rw [Delivering.missing_eq_nil hleft' (h'.onWay_of_idle hidle), List.append_nil, h.views] at hperm'
  exact ⟨ops', as', s', hturns, hrun', hidle, hperm'⟩

end

/-! ### A pipe -/

/-- A device with a pipe behind it: what is sent is put behind the octets that are there. -/
def pipeDev : IoDev (List UInt8) where
  send d l := (some l.length, d ++ l)
  recv := listDev.recv
  fullRead := listDev.fullRead
  send_le h := @IoDev.send_le _ listDev [] _ _ h
  recv_le := listDev.recv_le

/-- A node that sends through the pipe, and one that receives from it. -/
def pipeEnds : LinkEnds (List UInt8) where
  le := true
  sendPools := exactPools
  xml := SerDesIdl.construct
  valid := true
  nodeAddr := 1
  sender := ⟨some pipeDev, none, ∅⟩
  recvPools := exactPools
  receiver := ⟨none, some pipeDev, ∅⟩

theorem connected_pipeEnds : pipeEnds.Connected pipeDev pipeDev id fun _ => True where
  nodeAddr_lt := by decide
  sendDevice _ := rfl
  recvDevice := rfl
  writes := ⟨fun _ _ => rfl, fun _ _ => rfl⟩
  reads := ⟨fun _ => trivial, fun _ => rfl, fun _ _ => ⟨rfl, rfl, trivial⟩⟩
  idles := ⟨fun d n _ hd => by simp_all [pipeDev, listDev], fun d n _ hd => by simp_all [pipeDev, listDev]⟩
  sendSegment := Option.some_ne_none _
  sendHeader := Option.some_ne_none _
  recvRoom _ _ := Option.some_ne_none _

/-- Two messages are sent, and the second one overtakes the first. -/
def pipeOps : List LinkOp :=
  [.send (.sendCtl ⟨2, 0, 5, 7, 3⟩) id, .give, .send (.sendCtl ⟨2, 0, 6, 9, 0⟩) id, .give, .take, .get,
    .xmit, .recv, .submit true, .accum 0 true 0]

theorem sound_pipeOps : ∀ o ∈ pipeOps, o.Sound pipeEnds := by
  have hctl : ∀ args : SendArgs, args.address < 2 ^ 32 → args.context < 2 ^ 32 →
      LinkOp.Sound pipeEnds (.send (.sendCtl args) id) := fun args haddr hctx =>
    ⟨⟨haddr, hctx⟩, (by decide : IpcStreamSegMem.segCount 0 < 2 ^ 16), fun _ _ _ h => SendCall.noConfusion h⟩
  simp only [pipeOps, List.forall_mem_cons]
  exact ⟨hctl _ (by decide) (by decide), trivial, hctl _ (by decide) (by decide), trivial, trivial,
    trivial, trivial, trivial, rfl, trivial, fun _ ho => absurd ho List.not_mem_nil⟩

/-- What has happened by then. -/
theorem run_pipeOps : ∃ as s, run (linkStep pipeEnds) pipeOps (IpcLink.construct []) = some (as, s) ∧
    (deliveries as).map Prod.fst = [9] ∧ (sentViews pipeEnds as).map MessageView.context = [7, 9] ∧
      (sentViews pipeEnds as).length < 2 ^ 32 := by
  have hruns : (run (linkStep pipeEnds) pipeOps (IpcLink.construct [])).map (fun r =>
      ((deliveries r.1).map Prod.fst, (sentViews pipeEnds r.1).map MessageView.context)) =
        some ([9], [7, 9]) := by
    decide +kernel
  obtain ⟨⟨as, s⟩, hrun, hboth⟩ := Option.map_eq_some_iff.1 hruns
  obtain ⟨hgot, hsent⟩ := Prod.mk.inj hboth
  refine ⟨as, s, hrun, hgot, hsent, ?_⟩
  rw [← List.length_map MessageView.context, hsent]
  decide

theorem link_delivers_overtaken : ∃ as s,
    run (linkStep pipeEnds) pipeOps (IpcLink.construct []) = some (as, s) ∧
      (deliveries as).map Prod.fst = [9] ∧ (sentViews pipeEnds as).map MessageView.context = [7, 9] ∧
      ∃ ops' as' s', (∀ o ∈ ops', o.IsTurn) ∧ run (linkStep pipeEnds) ops' s = some (as', s') ∧
        s'.Idle id ∧ ((deliveries (as ++ as')).map fun m =>
          (IpcDecoder.construct exactPools).view m.2).Perm (sentViews pipeEnds as) := by
  obtain ⟨as, s, hrun, hgot, hsent, hcount⟩ := run_pipeOps
  exact ⟨as, s, hrun, hgot, hsent, (link_delivers connected_pipeEnds rfl sound_pipeOps hrun hcount
    (IpcDecoder.construct exactPools)).2.2.2⟩

end CodePort
