/-
The ends of a transaction.

A handler of a server gets a packet with the segments of a request, and answers to the node that has
sent it, with the message ID of the request as the context of the answer.  The client has a handle with
that message ID, waits for a message in the context, and finds the answer in the decoder of the handle.

Main definitions:

* `CodePort.IpcPacket` — the message packet class, with `setPtrSeg` and `sendResponse`;
* `CodePort.IpcHandle` — the transaction handle class, with `waitReply` and `response`.

Main results:

* `CodePort.IpcPacket.sendResponse_eq_some` — what a packet needs to answer, and what it answers;
* `CodePort.IpcHandle.gets_of_reads` — **a client that waits gets the datum that was sent**.
-/

import CodePort.IpcArrival
import CodePort.IpcReply

set_option relaxedAutoImplicit false
set_option autoImplicit false

namespace CodePort

open IpcSegment

/-! ### Packets -/

/-- The message packet class. -/
structure IpcPacket where
  /-- There is a node used for communications to the remote client. -/
  ptrNode : Bool
  /-- The segments of the incoming message; the empty list is the NULL pointer. -/
  ptrSeg : List SegPtr
  /-- Datum containing the response. -/
  rsp : Datum
  decoder : IpcDecoder

namespace IpcPacket

/-- The constructor. -/
def construct (m : MemPools) : IpcPacket :=
  ⟨false, [], Datum.construct m (ascii "Response") false, IpcDecoder.construct m⟩

/-- A header field of the incoming message, or 0. -/
def field (pkt : IpcPacket) (f : HeaderField) : ℕ := (pkt.ptrSeg.head?.map fun p => p.seg.get f).getD 0

def msgType (pkt : IpcPacket) : ℕ := pkt.field .msgType
def msgId (pkt : IpcPacket) : ℕ := pkt.field .msgId
def srcAddr (pkt : IpcPacket) : ℕ := pkt.field .srcAddr
def context (pkt : IpcPacket) : ℕ := pkt.field .context
def ctlCode (pkt : IpcPacket) : ℕ := pkt.field .ctlCode

/-- Store a segment into the message packet and decode. -/
def setPtrSeg (le : Bool) (m : MemPools) (tags : SerDesIdl.TagOrder) (fac : SerDesFactory)
    (pkt : IpcPacket) (l : List SegPtr) : Option (Bool × SerDesFactory × IpcPacket) :=
  (pkt.decoder.loadSegment le m tags fac (l.map SegPtr.seg)).map fun r =>
    (r.1, r.2.1, { pkt with ptrSeg := l, decoder := r.2.2 })

/-- The call of `SendDat` by which `SendResponse` answers the message originator, if it makes one. -/
def sendResponse (pkt : IpcPacket) (fac : SerDesFactory) : Option SendCall :=
  if pkt.msgId ≠ 0 ∧ pkt.srcAddr ≠ 0 ∧ pkt.ptrNode then
    some (.sendDat ⟨pkt.srcAddr, msgDatum, 0, pkt.msgId, ipcDefaultPriority⟩ fac pkt.rsp)
  else none

/-- What a packet needs to answer, and what it answers. -/
theorem sendResponse_eq_some {pkt : IpcPacket} {fac : SerDesFactory} {call : SendCall}
    (h : pkt.sendResponse fac = some call) :
    pkt.msgId ≠ 0 ∧ pkt.srcAddr ≠ 0 ∧
      call = .sendDat ⟨pkt.srcAddr, msgDatum, 0, pkt.msgId, ipcDefaultPriority⟩ fac pkt.rsp := by
  rw [sendResponse] at h
  split_ifs at h with hc
  exact ⟨hc.1, hc.2.1, (Option.some.inj h).symm⟩

/-- The numbers that a packet passes on have 32 bits. -/
theorem fits_args (pkt : IpcPacket) :
    SendArgs.Fits ⟨pkt.srcAddr, msgDatum, 0, pkt.msgId, ipcDefaultPriority⟩ := by
  have hfield : ∀ f : HeaderField, (∀ s : IpcSegment, s.get f < 2 ^ 32) → pkt.field f < 2 ^ 32 := by
    intro f hf
    rw [field]
    cases pkt.ptrSeg.head? with
    | none => exact Nat.two_pow_pos 32
    | some p => exact hf p.seg
  have hread : ∀ l : List UInt8, readUint32B l < 2 ^ 32 := fun l => by
    have := Octets.ofBE_lt (l.takeD 4 0)
    rwa [List.takeD_length] at this
  exact ⟨hfield .srcAddr fun s => hread _, hfield .msgId fun s => hread _⟩

/-- A packet with the segments of a message has its fields. -/
theorem field_of_onWire {v : MessageView} {pkt : IpcPacket}
    (h : OnWire v (pkt.ptrSeg.map SegPtr.wire)) : pkt.msgId = v.msgId ∧ pkt.srcAddr = v.srcAddr := by
  obtain ⟨ptrNode, ptrSeg, rsp, decoder⟩ := pkt
  obtain ⟨p, l, rfl⟩ := List.exists_cons_of_ne_nil (l := ptrSeg) fun hnil => h.length_mem.1 (by
    rw [hnil]
    rfl)
  exact ⟨congrArg MessageView.msgId h.head, congrArg MessageView.srcAddr h.head⟩

end IpcPacket

/-! ### Handles -/

/-- The transaction handle class. -/
structure IpcHandle where
  /-- Message ID of the original outgoing message. -/
  msgId : ℕ
  /-- There is an associated comms node. -/
  ptrNode : Bool
  /-- The message decoder object, if there is one. -/
  ptrDecoder : Option IpcDecoder

namespace IpcHandle

/-- The constructor. -/
def construct (ptrNode : Bool) : IpcHandle := ⟨0, ptrNode, none⟩

/-- The setter of the message ID. -/
def setMsgId (h : IpcHandle) (msgId : ℕ) : IpcHandle := { h with msgId := msgId }

/-- Wait for a reply, in the contexts of the node; `created` says that a decoder can be created. -/
def waitReply (le : Bool) (m : MemPools) (tags : SerDesIdl.TagOrder) (fac : SerDesFactory)
    (h : IpcHandle) (contexts : AList fun _ : ℕ => IpcContext) (created : Bool) :
    Option (Bool × SerDesFactory × IpcHandle × AList fun _ : ℕ => IpcContext) :=
  if h.ptrNode ∧ h.msgId ≠ 0 then
    -- wait for a response to arrive
    let r := IpcAccumMap.getResponse contexts h.msgId
    if r.1.1 then
      -- create a decoder object if one doesn't already exist
      match h.ptrDecoder.or (if created then some (IpcDecoder.construct m) else none) with
      | none => some (false, fac, h, r.2)
      | some dc =>
          -- load the received segment list into the decoder object
          (dc.loadSegment le m tags fac (r.1.2.map SegPtr.seg)).map fun q =>
            (q.1, q.2.1, { h with ptrDecoder := some q.2.2 }, r.2)
    else some (false, fac, h, r.2)
  else some (false, fac, h, contexts)

/-- Return the received response; `inert` is the inert datum. -/
def response (h : IpcHandle) (inert : Datum) : Datum := (h.ptrDecoder.map IpcDecoder.message).getD inert

/-- A client that waits with a new handle for the message of a context gets a datum, as long as the
context holds the message and no handler is registered. -/
def Gets (le : Bool) (m : MemPools) (tags : SerDesIdl.TagOrder) (msg : ℕ × List SegPtr) (sentLe : Bool)
    (dat : Datum) : Prop :=
  ∀ (fac : SerDesFactory) (contexts : AList fun _ : ℕ => IpcContext) (c : IpcContext), fac.Stocked →
    contexts.lookup msg.1 = some c → c.dispatcher = none → 0 < c.sem → c.ptrHead = msg.2 →
      ∃ fac' h' contexts', ((construct true).setMsgId msg.1).waitReply le m tags fac contexts true =
          some (true, fac', h', contexts') ∧ contexts'.lookup msg.1 = none ∧
        ∀ inert, (h'.response inert).tree le =
          (dat.tree sentLe).named ((IpcDecoder.construct m).message.nameGet le m)

/-- **A client that waits gets the datum that was sent**, with the name of a new decoder if it has
none. -/
theorem gets_of_reads {le : Bool} {m : MemPools} {tags : SerDesIdl.TagOrder} {msg : ℕ × List SegPtr}
    (hid : msg.1 ≠ 0) {args : SendArgs} {fac₀ : SerDesFactory} {dat : Datum} {sentLe : Bool}
    (hreads : ∀ fac : SerDesFactory, fac.Stocked →
      (IpcDecoder.construct m).Reads le m tags fac msg.2 sentLe (.sendDat args fac₀ dat))
    (hdat : dat.Encodable) (hplain : (dat.tree sentLe).All Value.Plain) :
    Gets le m tags msg sentLe dat := by
  obtain ⟨id, l⟩ := msg
  rintro fac contexts c hfac hlookup hd hsem rfl
  replace hid : id ≠ 0 := hid
  replace hlookup : contexts.lookup id = some c := hlookup
  obtain ⟨fac', dc', hload, -, htree⟩ := hreads fac hfac hdat hplain
  have hget := getResponse_of_stored hlookup hd hsem
  have hnone : (IpcAccumMap.getResponse contexts id).2.lookup id = none := by
    have hok : (((contexts.lookup id).getD IpcContext.construct).messageGet).1.1 = true :=
      congrArg Prod.fst hget
    rw [IpcAccumMap.getResponse, hok, if_pos rfl, IpcAccumMap.removeContext, if_neg hid]
    exact AList.lookup_erase _ _
  refine ⟨fac', ⟨id, true, some dc'⟩, (IpcAccumMap.getResponse contexts id).2, ?_, hnone, fun _ => htree⟩
  simp only [waitReply, setMsgId, construct, hget, hid, hload, ne_eq, not_false_eq_true, and_self,
    if_true, Option.none_or, Option.map_some]

end IpcHandle

end CodePort
