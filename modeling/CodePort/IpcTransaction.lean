/-
Requests and responses.

A client sends requests over one link and a server sends responses over another, while the threads of
both nodes go on.  A handler of the server may answer a request that has been delivered to it at any
time, in any order, and more than once; what the server sends of its own accord goes to context 0.
The client is to find in a context the responses to one request, and to no other.

Main definitions:

* `CodePort.transactionStep` — **one step of any thread of the client or the server**;
* `CodePort.IsReply` — what a message in a context of the client has to do with a request;
* `CodePort.answered` — the message IDs of the requests that have been answered.

Main results:

* `CodePort.exists_run_request`, `exists_run_response` — what the two links do in a transaction;
* `CodePort.transaction_correlated` — **a response is found in the context of its request**.
-/

import CodePort.IpcPacket

set_option relaxedAutoImplicit false
set_option autoImplicit false

namespace CodePort

open StepSystem SerDesNative

variable {δ : Type*}

/-! ### The two links -/

/-- The link from the client to the server, and the link back. -/
structure TransactionEnds (δ : Type*) where
  request : LinkEnds δ
  response : LinkEnds δ

/-- The two links, and the messages that have been delivered to the server. -/
structure TransactionState (δ : Type*) where
  request : IpcLink δ
  response : IpcLink δ
  received : List (ℕ × List SegPtr)

/-- Two links that nobody has used. -/
def TransactionState.construct (d d' : δ) : TransactionState δ :=
  ⟨IpcLink.construct d, IpcLink.construct d', []⟩

/-- The steps of the threads of both nodes. -/
inductive TransactionOp
  /-- A step of the link to the server; the client may send what it likes. -/
  | request (o : LinkOp)
  /-- A step of the link to the client. -/
  | response (o : LinkOp)
  /-- A handler of the server answers one of the messages that have been delivered, by
  `SendResponse` of the packet that it has got. -/
  | respond (index : ℕ) (pkt : IpcPacket) (fac : SerDesFactory) (addr : ℕ → ℕ)

/-- What a step answers. -/
inductive TransactionAnswer
  | request (a : LinkAnswer)
  | response (a : LinkAnswer)
  /-- A packet from some context has been answered. -/
  | responded (context : ℕ) (pkt : IpcPacket) (a : LinkAnswer)
  /-- `SendResponse` has returned false. -/
  | refused

/-- One step. -/
def transactionStep (e : TransactionEnds δ) (s : TransactionState δ) :
    TransactionOp → Option (TransactionAnswer × TransactionState δ)
  | .request o =>
      (linkStep e.request s.request o).map fun r =>
        (.request r.1, { s with request := r.2, received := s.received ++ r.1.delivery.toList })
  | .response o =>
      (linkStep e.response s.response o).map fun r => (.response r.1, { s with response := r.2 })
  | .respond index pkt fac addr =>
      (s.received[index]?).bind fun msg =>
        let pkt := { pkt with ptrSeg := msg.2 }
        match pkt.sendResponse fac with
        | none => some (.refused, s)
        | some call =>
            (linkStep e.response s.response (.send call addr)).map fun r =>
              (.responded msg.1 pkt r.1, { s with response := r.2 })

/-- What a step can do. -/
inductive TransactionStep (e : TransactionEnds δ) (s : TransactionState δ) :
    TransactionOp → TransactionAnswer → TransactionState δ → Prop
  | request {o a t} (hstep : linkStep e.request s.request o = some (a, t)) :
      TransactionStep e s (.request o) (.request a)
        { s with request := t, received := s.received ++ a.delivery.toList }
  | response {o a t} (hstep : linkStep e.response s.response o = some (a, t)) :
      TransactionStep e s (.response o) (.response a) { s with response := t }
  | responded {index pkt fac addr msg call a t} (hmsg : msg ∈ s.received)
      (hcall : IpcPacket.sendResponse { pkt with ptrSeg := msg.2 } fac = some call)
      (hstep : linkStep e.response s.response (.send call addr) = some (a, t)) :
      TransactionStep e s (.respond index pkt fac addr)
        (.responded msg.1 { pkt with ptrSeg := msg.2 } a) { s with response := t }
  | refused {index pkt fac addr} : TransactionStep e s (.respond index pkt fac addr) .refused s

theorem transactionStep_cases {e : TransactionEnds δ} {s s' : TransactionState δ} {o : TransactionOp}
    {a : TransactionAnswer} (h : transactionStep e s o = some (a, s')) : TransactionStep e s o a s' := by
  cases o with
  | request o =>
      obtain ⟨r, hr, heq⟩ := Option.map_eq_some_iff.1 h
      obtain ⟨rfl, rfl⟩ := Prod.mk.inj heq
      exact .request hr
  | response o =>
      obtain ⟨r, hr, heq⟩ := Option.map_eq_some_iff.1 h
      obtain ⟨rfl, rfl⟩ := Prod.mk.inj heq
      exact .response hr
  | respond index pkt fac addr =>
      obtain ⟨msg, hmsg, hrest⟩ := Option.bind_eq_some_iff.1 h
      cases hcall : IpcPacket.sendResponse { pkt with ptrSeg := msg.2 } fac with
      | none =>
          simp only [hcall, Option.some_inj] at hrest
          obtain ⟨rfl, rfl⟩ := Prod.mk.inj hrest
          exact .refused
      | some call =>
          simp only [hcall] at hrest
          obtain ⟨r, hr, heq⟩ := Option.map_eq_some_iff.1 hrest
          obtain ⟨rfl, rfl⟩ := Prod.mk.inj heq
          exact .responded (List.mem_of_getElem? hmsg) hcall hr

/-- The steps are proper ones of the links, what the server sends of its own accord goes to context 0,
and a response is a datum that can be encoded into the fragments that a header can number. -/
def TransactionOp.Sound (e : TransactionEnds δ) : TransactionOp → Prop
  | .request o => o.Sound e.request
  | .response o => o.Sound e.response ∧ ∀ call addr, o = .send call addr → call.args.context = 0
  | .respond _ pkt fac _ => fac.Stocked ∧ pkt.rsp.Encodable ∧
      IpcStreamSegMem.segCount (packageOctets e.response.le pkt.rsp).length < 2 ^ 16

/-- A step that sends nothing. -/
def TransactionOp.IsTurn : TransactionOp → Prop
  | .request o => o.IsTurn
  | .response o => o.IsTurn
  | .respond _ _ _ _ => False

/-! ### What a run of the transaction is for the links -/

namespace TransactionAnswer

/-- What the link to the server has answered. -/
def requestPart : TransactionAnswer → Option LinkAnswer
  | .request a => some a
  | _ => none

/-- What the link to the client has answered. -/
def responsePart : TransactionAnswer → Option LinkAnswer
  | .response a => some a
  | .responded _ _ a => some a
  | _ => none

/-- The message ID of the request that has been answered. -/
def answeredId : TransactionAnswer → Option ℕ
  | .responded _ pkt (.sent _ id) => if id = 0 then none else some pkt.msgId
  | _ => none

end TransactionAnswer

/-- What the link to the server has answered. -/
def requestAnswers (as : List TransactionAnswer) : List LinkAnswer :=
  as.filterMap TransactionAnswer.requestPart

/-- What the link to the client has answered. -/
def responseAnswers (as : List TransactionAnswer) : List LinkAnswer :=
  as.filterMap TransactionAnswer.responsePart

/-- **The message IDs of the requests that have been answered**, once for each answer. -/
def answered (as : List TransactionAnswer) : List ℕ := as.filterMap TransactionAnswer.answeredId

theorem responseAnswers_append (as bs : List TransactionAnswer) :
    responseAnswers (as ++ bs) = responseAnswers as ++ responseAnswers bs := List.filterMap_append

@[simp] theorem requestAnswers_map_request (las : List LinkAnswer) :
    requestAnswers (las.map .request) = las := by
  rw [requestAnswers, List.filterMap_map]
  exact List.filterMap_some

@[simp] theorem responseAnswers_map_request (las : List LinkAnswer) :
    responseAnswers (las.map .request) = [] := by
  rw [responseAnswers, List.filterMap_map]
  exact List.filterMap_eq_nil_iff.2 fun _ _ => rfl

@[simp] theorem responseAnswers_map_response (las : List LinkAnswer) :
    responseAnswers (las.map .response) = las := by
  rw [responseAnswers, List.filterMap_map]
  exact List.filterMap_some

@[simp] theorem answered_map_request (las : List LinkAnswer) : answered (las.map .request) = [] := by
  rw [answered, List.filterMap_map]
  exact List.filterMap_eq_nil_iff.2 fun _ _ => rfl

section

variable {e : TransactionEnds δ} {s s' : TransactionState δ} {ops : List TransactionOp}
  {as : List TransactionAnswer}

/-- The call by which a packet is answered is a proper one. -/
theorem IpcPacket.fits_sendResponse (hm : e.response.sendPools.blockSize IpcSegment.segMaxLen ≠ none)
    {pkt : IpcPacket} {fac : SerDesFactory} (hfac : fac.Stocked) (hrsp : pkt.rsp.Encodable)
    (hcount : IpcStreamSegMem.segCount (packageOctets e.response.le pkt.rsp).length < 2 ^ 16)
    {call : SendCall} (h : pkt.sendResponse fac = some call) :
    call.Fits e.response.le e.response.sendPools e.response.xml
      (e.response.node IpcTransmitQueue.construct) := by
  obtain ⟨-, haddr, rfl⟩ := IpcPacket.sendResponse_eq_some h
  refine ⟨pkt.fits_args, ?_, fun args fac' dat heq => ?_⟩
  · cases hvalid : e.response.valid with
    | true =>
        rw [SendCall.payload_sendDat hm hfac hvalid haddr hrsp]
        exact hcount
    | false =>
        have hopen : ∀ args : SendArgs,
            (e.response.node IpcTransmitQueue.construct).openStream e.response.sendPools args = none :=
          fun _ => if_neg (by rw [LinkEnds.node, hvalid]; exact Bool.false_ne_true)
        rw [SendCall.payload, hopen]
        exact (by decide : IpcStreamSegMem.segCount 0 < 2 ^ 16)
  · cases heq
    exact hfac

/-- **What the link to the server does in a transaction.** -/
theorem exists_run_request (hops : ∀ o ∈ ops, o.Sound e)
    (hrun : run (transactionStep e) ops s = some (as, s')) :
    ∃ ops', (∀ o ∈ ops', LinkOp.Sound e.request o) ∧
      run (linkStep e.request) ops' s.request = some (requestAnswers as, s'.request) := by
  refine exists_run_part (fun {s o a s'} ho hstep => ?_) hops hrun
  cases transactionStep_cases hstep with
  | request hlink => exact .inr ⟨_, _, ho, rfl, hlink⟩
  | response => exact .inl ⟨rfl, rfl⟩
  | responded => exact .inl ⟨rfl, rfl⟩
  | refused => exact .inl ⟨rfl, rfl⟩

/-- **What the link to the client does in a transaction.** -/
theorem exists_run_response (hm : e.response.sendPools.blockSize IpcSegment.segMaxLen ≠ none)
    (hops : ∀ o ∈ ops, o.Sound e) (hrun : run (transactionStep e) ops s = some (as, s')) :
    ∃ ops', (∀ o ∈ ops', LinkOp.Sound e.response o) ∧
      run (linkStep e.response) ops' s.response = some (responseAnswers as, s'.response) := by
  refine exists_run_part (fun {s o a s'} ho hstep => ?_) hops hrun
  cases transactionStep_cases hstep with
  | request => exact .inl ⟨rfl, rfl⟩
  | response hlink => exact .inr ⟨_, _, ho.1, rfl, hlink⟩
  | @responded index pkt fac addr msg call a t hmsg hcall hlink =>
      obtain ⟨hfac, hrsp, hcount⟩ := ho
      exact .inr ⟨.send call addr, a,
        @IpcPacket.fits_sendResponse _ e hm { pkt with ptrSeg := msg.2 } _ hfac hrsp hcount _ hcall,
        rfl, hlink⟩
  | refused => exact .inl ⟨rfl, rfl⟩

/-- The link to the server can go on in a transaction. -/
theorem run_request {los : List LinkOp} {las : List LinkAnswer} {t : IpcLink δ}
    (h : run (linkStep e.request) los s.request = some (las, t)) :
    run (transactionStep e) (los.map .request) s = some (las.map .request,
      { s with request := t, received := s.received ++ deliveries las }) := by
  induction los generalizing s las with
  | nil =>
      obtain ⟨rfl, rfl⟩ := Prod.mk.inj (Option.some.inj h)
      rw [show deliveries [] = [] from rfl, List.append_nil]
      rfl
  | cons o los ih =>
      obtain ⟨a, u, bs, hstep, hrun, rfl⟩ := run_cons_eq_some.1 h
      have hrun' := @ih { s with request := u, received := s.received ++ a.delivery.toList } bs hrun
      have hreceived : s.received ++ a.delivery.toList ++ deliveries bs =
          s.received ++ deliveries (a :: bs) := by
        rw [List.append_assoc, deliveries, deliveries, List.filterMap_cons]
        cases a.delivery <;> rfl
      rw [hreceived] at hrun'
      refine run_cons_eq_some.2 ⟨.request a, _, _, ?_, hrun', rfl⟩
      rw [transactionStep, hstep]
      rfl

/-- The link to the client can go on in a transaction. -/
theorem run_response {los : List LinkOp} {las : List LinkAnswer} {t : IpcLink δ}
    (h : run (linkStep e.response) los s.response = some (las, t)) :
    run (transactionStep e) (los.map .response) s = some (las.map .response, { s with response := t }) := by
  induction los generalizing s las with
  | nil =>
      obtain ⟨rfl, rfl⟩ := Prod.mk.inj (Option.some.inj h)
      rfl
  | cons o los ih =>
      obtain ⟨a, u, bs, hstep, hrun, rfl⟩ := run_cons_eq_some.1 h
      refine run_cons_eq_some.2 ⟨.response a, { s with response := u }, _, ?_, ih hrun, rfl⟩
      rw [transactionStep, hstep]
      rfl

/-! ### What has been answered -/

/-- What explains an answer: what the server has sent of its own accord went to context 0, and a response
is the call by which a packet with a received message is answered. -/
def TransactionAnswer.Explained (received : List (ℕ × List SegPtr)) : TransactionAnswer → Prop
  | .response a => ∀ call id, a = .sent call id → call.args.context = 0
  | .responded context pkt a => (context, pkt.ptrSeg) ∈ received ∧ pkt.rsp.Encodable ∧
      ∃ fac call id, pkt.sendResponse fac = some call ∧ a = .sent call id
  | _ => True

/-- What has been received explains no less when more is received. -/
theorem TransactionAnswer.Explained.append {received : List (ℕ × List SegPtr)} {a : TransactionAnswer}
    (h : a.Explained received) (more : List (ℕ × List SegPtr)) : a.Explained (received ++ more) := by
  cases a with
  | request b => trivial
  | response b => exact h
  | responded context pkt b => exact ⟨List.mem_append_left _ h.1, h.2⟩
  | refused => trivial

/-- **The history of a transaction**: the server has received what has been delivered to it, and every
answer is explained. -/
structure Transacted (as : List TransactionAnswer) (s : TransactionState δ) : Prop where
  received : s.received = deliveries (requestAnswers as)
  explained : ∀ a ∈ as, a.Explained s.received

/-- Every step goes on with the history. -/
theorem Transacted.step (h : Transacted as s) {o : TransactionOp} (ho : o.Sound e)
    {a : TransactionAnswer} (hstep : transactionStep e s o = some (a, s')) : Transacted (as ++ [a]) s' := by
  have hrequest : requestAnswers (as ++ [a]) = requestAnswers as ++ a.requestPart.toList := by
    rw [requestAnswers, List.filterMap_append, requestAnswers]
    cases hpart : a.requestPart <;> simp [hpart]
  -- a step that delivers nothing to the server
  have hquiet : a.requestPart = none → a.Explained s.received → s'.received = s.received →
      Transacted (as ++ [a]) s' := by
    intro hnone ha hsame
    rw [hnone, Option.toList_none, List.append_nil] at hrequest
    refine ⟨by rw [hrequest, hsame, h.received], ?_⟩
    rw [hsame]
    exact List.forall_mem_append.2 ⟨h.explained, List.forall_mem_singleton.2 ha⟩
  cases transactionStep_cases hstep with
  | @request o b t hlink =>
      refine ⟨?_, List.forall_mem_append.2 ⟨fun x hx => (h.explained x hx).append _,
        List.forall_mem_singleton.2 trivial⟩⟩
      change s.received ++ b.delivery.toList = _
      rw [hrequest, h.received]
      exact (deliveries_concat _ b).symm
  | @response o b t hlink =>
      refine hquiet rfl (fun call id hsent => ?_) rfl
      rw [hsent] at hlink
      obtain ⟨addr, r, rfl, -, -⟩ := exists_run_of_sent hlink
      exact ho.2 call addr rfl
  | @responded index pkt fac addr msg call b t hmsg hcall hlink =>
      obtain ⟨r, -, heq⟩ := Option.map_eq_some_iff.1 hlink
      exact hquiet rfl ⟨hmsg, ho.2.1, fac, call, r.rv, hcall, (congrArg Prod.fst heq).symm⟩ rfl
  | refused => exact hquiet rfl trivial rfl

theorem transacted_run {d d' : δ} (hops : ∀ o ∈ ops, o.Sound e)
    (hrun : run (transactionStep e) ops (TransactionState.construct d d') = some (as, s)) :
    Transacted as s := by
  have hmeets : Meets (transactionStep e) (fun _ o => True ∧ o.Sound e) ops
      (TransactionState.construct d d') := (Meets.of_forall fun _ _ => trivial).and_forall hops
  exact run_history_of_meets (I := Transacted) (fun h ho hstep => h.step ho.2 hstep)
    ⟨rfl, fun a ha => absurd ha List.not_mem_nil⟩ hrun hmeets

/-- **What has been sent to the contexts of the client** other than 0 is what has been answered. -/
theorem answered_eq {received : List (ℕ × List SegPtr)} (h : ∀ a ∈ as, a.Explained received) :
    ((sentViews e.response (responseAnswers as)).map MessageView.context).filter (· ≠ 0) = answered as := by
  rw [sentViews, responseAnswers, List.filterMap_filterMap, List.map_filterMap, List.filter_filterMap,
    answered]
  refine List.filterMap_congr fun a ha => ?_
  have hexp := h a ha
  cases a with
  | request b => rfl
  | refused => rfl
  | response b =>
      cases b with
      | sent call id =>
          have hzero : call.args.context = 0 := hexp call id rfl
          by_cases hid : id = 0
          · simp [TransactionAnswer.responsePart, TransactionAnswer.answeredId, LinkAnswer.sentView, hid]
          · simp [TransactionAnswer.responsePart, TransactionAnswer.answeredId, LinkAnswer.sentView, hid,
              SendCall.view, SendArgs.view, hzero]
      | delivered d => rfl
      | done => rfl
  | responded context pkt b =>
      obtain ⟨-, -, fac, call, id, hcall, rfl⟩ := hexp
      obtain ⟨hne, -, rfl⟩ := IpcPacket.sendResponse_eq_some hcall
      by_cases hid : id = 0
      · simp [TransactionAnswer.responsePart, TransactionAnswer.answeredId, LinkAnswer.sentView, hid]
      · simp [TransactionAnswer.responsePart, TransactionAnswer.answeredId, LinkAnswer.sentView, hid,
          SendCall.view, SendArgs.view, SendCall.args, hne]

end

/-! ### Message IDs and contexts -/

section

variable {e : LinkEnds δ} {stream : δ → List UInt8} {as : List LinkAnswer} {s : IpcLink δ}
  {t : List Message} {msgs : List SentMessage} {l : List SegPtr} {frames : List (List UInt8)}

/-- The message IDs that the calls have returned are different. -/
theorem Linked.nodup_msgId (h : Linked e stream as s t msgs l frames) :
    ((sentViews e as).map MessageView.msgId).Nodup := by
  have hids := congrArg (List.map Prod.snd) h.sending.ids
  rw [List.map_map, List.map_map] at hids
  rw [← h.views, List.map_map]
  change (msgs.map (Prod.snd ∘ fun x => (x.1.srcAddr, x.1.msgId))).Nodup
  rw [hids]
  exact (List.map_id _).symm ▸ List.nodup_range'

/-- **No two calls return the same message ID.** -/
theorem Linked.sent_unique (h : Linked e stream as s t msgs l frames) {call call' : SendCall} {id : ℕ}
    (hid : id ≠ 0) (hmem : LinkAnswer.sent call id ∈ as) (hmem' : LinkAnswer.sent call' id ∈ as) :
    call' = call := by
  have hnodup := h.nodup_msgId
  rw [sentViews, List.map_filterMap, List.Nodup, List.pairwise_filterMap] at hnodup
  have hget : ∀ c : SendCall, id ∈ ((LinkAnswer.sent c id).sentView e).map MessageView.msgId := by
    intro c
    rw [LinkAnswer.sentView, if_neg hid]
    rfl
  by_contra hne
  have hdiff : LinkAnswer.sent call' id ≠ .sent call id := fun heq => hne (LinkAnswer.sent.inj heq).1
  have hsymm : Std.Symm fun a a' : LinkAnswer => ∀ b ∈ (a.sentView e).map MessageView.msgId,
      ∀ b' ∈ (a'.sentView e).map MessageView.msgId, b ≠ b' :=
    ⟨fun a a' hR b hb b' hb' heq => hR b' hb' b hb heq.symm⟩
  exact hnodup.forall hmem' hmem hdiff id (hget call') id (hget call) rfl

end

/-! ### Responses -/

/-- **What a message in a context of the client has to do with a request.** -/
structure IsReply (e : TransactionEnds δ) (tags : SerDesIdl.TagOrder) (as : List TransactionAnswer)
    (m : ℕ × List SegPtr) (call : SendCall) (pkt : IpcPacket) : Prop where
  /-- The client has sent the request, and the context is the message ID that it has got for it. -/
  sent : LinkAnswer.sent call m.1 ∈ requestAnswers as
  /-- It has got that message ID for no other request. -/
  unique : ∀ call', LinkAnswer.sent call' m.1 ∈ requestAnswers as → call' = call
  /-- The packet has the segments of the request, -/
  received : (call.args.context, pkt.ptrSeg) ∈ deliveries (requestAnswers as)
  /-- a decoder of the server reads it, -/
  reads : ∀ fac : SerDesFactory, fac.Stocked → (IpcDecoder.construct e.request.recvPools).Reads
    e.response.le e.request.recvPools tags fac pkt.ptrSeg e.request.le call
  /-- and it has been answered. -/
  responded : ∃ a, TransactionAnswer.responded call.args.context pkt a ∈ as
  /-- A handle of the client that waits for the reply gets the response of the packet. -/
  gets : (pkt.rsp.tree e.response.le).All Value.Plain →
    IpcHandle.Gets e.request.le e.response.recvPools tags m e.response.le pkt.rsp

/-- Both links are connected, and both nodes have memory for what they receive. -/
structure TransactionEnds.Connected (e : TransactionEnds δ) (stream stream' : δ → List UInt8) : Prop where
  request : ∃ sendDev recvDev full, e.request.Connected sendDev recvDev stream full
  response : ∃ sendDev recvDev full, e.response.Connected sendDev recvDev stream' full
  requestRoom : e.request.recvPools.Plentiful
  responseRoom : e.response.recvPools.Plentiful

section

variable {e : TransactionEnds δ} {stream stream' : δ → List UInt8} {d d' : δ} {s : TransactionState δ}
  {ops : List TransactionOp} {as : List TransactionAnswer}

/-- Both links keep their invariant in a transaction. -/
theorem isLinked_transaction (hconn : e.Connected stream stream') (hd : stream d = [])
    (hd' : stream' d' = []) (hops : ∀ o ∈ ops, o.Sound e)
    (hrun : run (transactionStep e) ops (TransactionState.construct d d') = some (as, s))
    (hcount : (sentViews e.request (requestAnswers as)).length < 2 ^ 32)
    (hcount' : (sentViews e.response (responseAnswers as)).length < 2 ^ 32) :
    IsLinked e.request stream (requestAnswers as) s.request ∧
      IsLinked e.response stream' (responseAnswers as) s.response := by
  obtain ⟨_, _, _, hreq⟩ := hconn.request
  obtain ⟨_, _, _, hrsp⟩ := hconn.response
  obtain ⟨ops₁, hops₁, hrun₁⟩ := exists_run_request hops hrun
  obtain ⟨ops₂, hops₂, hrun₂⟩ := exists_run_response hrsp.sendSegment hops hrun
  exact ⟨isLinked_run hreq hd hops₁ hrun₁ hcount, isLinked_run hrsp hd' hops₂ hrun₂ hcount'⟩

/-- **A message in a context of the client other than 0 is the response to a request.** -/
theorem exists_isReply (hconn : e.Connected stream stream') (hd : stream d = [])
    (hd' : stream' d' = []) (hops : ∀ o ∈ ops, o.Sound e)
    (hrun : run (transactionStep e) ops (TransactionState.construct d d') = some (as, s))
    (hcount : (sentViews e.request (requestAnswers as)).length < 2 ^ 32)
    (hcount' : (sentViews e.response (responseAnswers as)).length < 2 ^ 32)
    (tags : SerDesIdl.TagOrder) {m : ℕ × List SegPtr} (hm : m ∈ deliveries (responseAnswers as))
    (hne : m.1 ≠ 0) : ∃ call pkt, IsReply e tags as m call pkt := by
  obtain ⟨_, _, _, hreq⟩ := hconn.request
  obtain ⟨_, _, _, hrsp⟩ := hconn.response
  obtain ⟨ops₁, hops₁, hrun₁⟩ := exists_run_request hops hrun
  obtain ⟨ops₂, hops₂, hrun₂⟩ := exists_run_response hrsp.sendSegment hops hrun
  have hhistory := transacted_run hops hrun
  -- the call of the server that has sent the message
  obtain ⟨call', id', hsent', -, hctx', hacc', hon'⟩ :=
    exists_sent_of_delivery hrsp hd' hops₂ hrun₂ hcount' hm
  obtain ⟨a, ha, hpart⟩ := List.mem_filterMap.1 hsent'
  have hexp := hhistory.explained a ha
  cases a with
  | request b => cases hpart
  | refused => cases hpart
  | response b => exact absurd (hctx'.symm.trans (hexp call' id' (Option.some.inj hpart))) hne
  | responded context pkt b =>
      obtain ⟨hrecv, hrsp', fac', call'', id'', hcall, rfl⟩ := hexp
      obtain ⟨rfl, rfl⟩ := LinkAnswer.sent.inj (Option.some.inj hpart)
      obtain ⟨-, -, rfl⟩ := IpcPacket.sendResponse_eq_some hcall
      -- the call of the client that has sent the request
      rw [hhistory.received] at hrecv
      obtain ⟨call, id, hsent, hid, hctx, hacc, hon⟩ :=
        exists_sent_of_delivery hreq hd hops₁ hrun₁ hcount hrecv
      have hmsgId : m.1 = id := hctx'.symm.trans (IpcPacket.field_of_onWire hon).1
      obtain ⟨t, msgs, l, frames, hlinked⟩ := isLinked_run hreq hd hops₁ hrun₁ hcount
      subst hctx
      refine ⟨call, pkt, hmsgId ▸ hsent, fun c hc => hlinked.sent_unique hid hsent (hmsgId ▸ hc), hrecv,
        fun fac hfac => ?_, ⟨_, ha⟩, fun hplain => ?_⟩
      · exact IpcDecoder.reads_of_onWire hconn.requestRoom tags hfac rfl hreq.sendSegment hacc hon
      · have hreads := fun (fac : SerDesFactory) (hfac : fac.Stocked) =>
          @IpcDecoder.reads_of_onWire _ e.response e.request.le _ hconn.responseRoom tags fac hfac
            (IpcDecoder.construct e.response.recvPools) rfl hrsp.sendSegment _ hacc' _ m.2 hon'
        exact IpcHandle.gets_of_reads hne hreads hrsp' hplain

/-- The contexts other than 0 in which messages have arrived. -/
def replyContexts (as : List TransactionAnswer) : List ℕ :=
  ((deliveries (responseAnswers as)).map Prod.fst).filter (· ≠ 0)

/-- **A response is found in the context of its request.**  Whatever the threads of both nodes have done,
and in whatever order the requests have been answered: every message in a context of the client other
than 0 is the response to the one request with that message ID, which the server has read as it was sent
and the client reads as it was answered; no response arrives twice; and the threads can always go on
until every request that has been answered has its response. -/
theorem transaction_correlated (hconn : e.Connected stream stream') (hd : stream d = [])
    (hd' : stream' d' = []) (hops : ∀ o ∈ ops, o.Sound e)
    (hrun : run (transactionStep e) ops (TransactionState.construct d d') = some (as, s))
    (hcount : (sentViews e.request (requestAnswers as)).length < 2 ^ 32)
    (hcount' : (sentViews e.response (responseAnswers as)).length < 2 ^ 32)
    (tags : SerDesIdl.TagOrder) :
    (∀ m ∈ deliveries (responseAnswers as), m.1 ≠ 0 → ∃ call pkt, IsReply e tags as m call pkt) ∧
    (∃ missing, (replyContexts as ++ missing).Perm (answered as)) ∧
    ∃ ops' as' s', (∀ o ∈ ops', o.IsTurn) ∧ run (transactionStep e) ops' s = some (as', s') ∧
      s'.request.Idle stream ∧ s'.response.Idle stream' ∧
        (replyContexts (as ++ as')).Perm (answered as) := by
  have hlinked := isLinked_transaction hconn hd hd' hops hrun hcount hcount'
  have hanswered := @answered_eq _ e as s.received (transacted_run hops hrun).explained
  refine ⟨fun m hm hne => exists_isReply hconn hd hd' hops hrun hcount hcount' tags hm hne, ?_, ?_⟩
  · obtain ⟨-, t, msgs, l, frames, h⟩ := hlinked
    obtain ⟨missing, hperm, -⟩ := h.contexts_perm (hconn.responseRoom _)
    have hfilter := hperm.filter (· ≠ 0)
    rw [hanswered, List.filter_append] at hfilter
    exact ⟨_, hfilter⟩
  · obtain ⟨_, _, _, hreq⟩ := hconn.request
    obtain ⟨_, _, _, hrsp⟩ := hconn.response
    obtain ⟨⟨t₁, msgs₁, l₁, frames₁, h₁⟩, t₂, msgs₂, l₂, frames₂, h₂⟩ := hlinked
    obtain ⟨los₁, las₁, u₁, _, _, _, hturns₁, hrun₁, -, hidle₁⟩ := link_drain hreq h₁
    obtain ⟨los₂, las₂, u₂, _, _, _, hturns₂, hrun₂, h₂', hidle₂⟩ := link_drain hrsp h₂
    have hrun₁' := run_request hrun₁
    have hrun₂' := @run_response _ e
      { s with request := u₁, received := s.received ++ deliveries las₁ } _ _ _ hrun₂
    refine ⟨_, _, _, ?_, run_append hrun₁' hrun₂', hidle₁, hidle₂, ?_⟩
    · intro o ho
      rcases List.mem_append.1 ho with ho | ho
      · obtain ⟨lo, hlo, rfl⟩ := List.mem_map.1 ho
        exact hturns₁ lo hlo
      · obtain ⟨lo, hlo, rfl⟩ := List.mem_map.1 ho
        exact hturns₂ lo hlo
    · have hall : responseAnswers (as ++ (las₁.map .request ++ las₂.map .response)) =
          responseAnswers as ++ las₂ := by
        simp [responseAnswers_append]
      obtain ⟨missing, hperm, hnone⟩ := h₂'.contexts_perm (hconn.responseRoom _)
      have hsame : sentViews e.response (responseAnswers as ++ las₂) =
          sentViews e.response (responseAnswers as) := h₂'.views.symm.trans h₂.views
      rw [hnone hidle₂, List.append_nil, hsame] at hperm
      rw [replyContexts, hall, ← hanswered]
      exact hperm.filter _

end

/-! ### Two pipes -/

/-- Two nodes with the addresses 1 and 2, and a pipe in each direction. -/
def pipeTransaction : TransactionEnds (List UInt8) := ⟨pipeEnds, { pipeEnds with nodeAddr := 2 }⟩

theorem connected_pipeTransaction : pipeTransaction.Connected id id where
  request := ⟨_, _, _, connected_pipeEnds⟩
  response := ⟨pipeDev, pipeDev, fun _ => True,
    { connected_pipeEnds with nodeAddr_lt := (by decide : 2 < 2 ^ 32) }⟩
  requestRoom := plentiful_exactPools
  responseRoom := plentiful_exactPools

/-- A request without payload is sent and delivered. -/
def requestOps : List LinkOp :=
  [.send (.sendCtl ⟨2, 0, 5, 0, 3⟩) id, .give, .take, .get, .xmit, .recv, .submit true, .accum 0 true 0]

/-- The packet of a handler that answers with a datum. -/
def samplePacket : IpcPacket := ⟨true, [], sampleDatum, IpcDecoder.construct exactPools⟩

/-- The call that answers the request with the message ID 1 of the node 1. -/
def sampleCall : SendCall :=
  .sendDat ⟨1, IpcSegment.msgDatum, 0, 1, IpcSegment.ipcDefaultPriority⟩ SerDesFactory.construct sampleDatum

def transactionOps : List TransactionOp :=
  requestOps.map .request ++ [.respond 0 samplePacket SerDesFactory.construct id]

theorem sound_transactionOps : ∀ o ∈ transactionOps, o.Sound pipeTransaction := by
  have hctl : LinkOp.Sound pipeEnds (.send (.sendCtl ⟨2, 0, 5, 0, 3⟩) id) :=
    ⟨⟨(by decide : 2 < 2 ^ 32), (by decide : 0 < 2 ^ 32)⟩,
      (by decide : IpcStreamSegMem.segCount 0 < 2 ^ 16), fun _ _ _ h => SendCall.noConfusion h⟩
  have hrsp : IpcStreamSegMem.segCount (packageOctets true sampleDatum).length < 2 ^ 16 := by
    decide +kernel
  refine List.forall_mem_append.2 ⟨?_, List.forall_mem_singleton.2
    ⟨SerDesFactory.stocked_construct, encodable_sampleDatum, hrsp⟩⟩
  simp only [requestOps, List.map_cons, List.forall_mem_cons, List.map_nil]
  exact ⟨hctl, trivial, trivial, trivial, trivial, trivial, rfl, trivial,
    fun _ ho => absurd ho List.not_mem_nil⟩

/-- What has happened by then: the request with the message ID 1 has been answered. -/
theorem run_transactionOps : ∃ as s,
    run (transactionStep pipeTransaction) transactionOps (TransactionState.construct [] []) = some (as, s) ∧
      answered as = [1] ∧ (sentViews pipeTransaction.request (requestAnswers as)).length = 1 ∧
      (responseAnswers as).length = 1 := by
  have hlink : (run (linkStep pipeEnds) requestOps (IpcLink.construct [])).map (fun r =>
      ((deliveries r.1).map fun m => (IpcPacket.msgId { samplePacket with ptrSeg := m.2 },
        IpcPacket.srcAddr { samplePacket with ptrSeg := m.2 }), (sentViews pipeEnds r.1).length)) =
          some ([(1, 1)], 1) := by
    decide +kernel
  obtain ⟨⟨las, t⟩, hrun, hboth⟩ := Option.map_eq_some_iff.1 hlink
  obtain ⟨hgot, hsent⟩ := Prod.mk.inj hboth
  obtain ⟨msg, hmsg⟩ := List.length_eq_one_iff.1 ((List.length_map _).symm.trans (congrArg List.length hgot))
  rw [hmsg, List.map_singleton, List.singleton_inj] at hgot
  obtain ⟨hid, haddr⟩ := Prod.mk.inj hgot
  have hrun' := @run_request _ pipeTransaction (TransactionState.construct [] []) _ _ _ hrun
  rw [hmsg] at hrun'
  -- the response
  have hcall : IpcPacket.sendResponse { samplePacket with ptrSeg := msg.2 } SerDesFactory.construct =
      some sampleCall := by
    rw [IpcPacket.sendResponse, hid, haddr]
    rfl
  obtain ⟨r, hr, hrv⟩ := @SendCall.exists_run_sendDat true exactPools SerDesIdl.construct
    (pipeTransaction.response.node IpcTransmitQueue.construct) id (Option.some_ne_none _)
    ⟨1, IpcSegment.msgDatum, 0, 1, IpcSegment.ipcDefaultPriority⟩ SerDesFactory.construct
    SerDesFactory.stocked_construct (fun c hc => absurd hc List.not_mem_nil) rfl (by decide) sampleDatum rfl
  obtain ⟨u, hu⟩ : ∃ u, linkStep pipeTransaction.response (IpcLink.construct []) (.send sampleCall id) =
      some (.sent sampleCall r.rv, u) := ⟨_, congrArg (Option.map _) hr⟩
  obtain ⟨s, hs⟩ : ∃ s, transactionStep pipeTransaction
      { TransactionState.construct [] [] with request := t, received := [msg] }
      (.respond 0 samplePacket SerDesFactory.construct id) =
        some (.responded msg.1 { samplePacket with ptrSeg := msg.2 } (.sent sampleCall r.rv), s) := by
    refine ⟨{ request := t, response := u, received := [msg] }, ?_⟩
    change (match IpcPacket.sendResponse { samplePacket with ptrSeg := msg.2 } SerDesFactory.construct with
      | none => _
      | some call => _) = _
    rw [hcall]
    exact congrArg (Option.map _) hu
  refine ⟨_, s, run_append hrun' (run_cons_eq_some.2 ⟨_, _, _, hs, rfl, rfl⟩), ?_, ?_, ?_⟩
  · have hanswer : TransactionAnswer.answeredId (.responded msg.1 { samplePacket with ptrSeg := msg.2 }
        (.sent sampleCall r.rv)) = some 1 := by
      rw [TransactionAnswer.answeredId, if_neg hrv, hid]
    rw [answered, List.filterMap_append, ← answered, answered_map_request, List.filterMap_cons_some hanswer]
    rfl
  · rw [requestAnswers, List.filterMap_append, ← requestAnswers, requestAnswers_map_request]
    exact (congrArg (fun as => (sentViews pipeEnds as).length) (List.append_nil las)).trans hsent
  · rw [responseAnswers_append, responseAnswers_map_request]
    rfl

/-- The request has its response when the threads have finished. -/
theorem transaction_correlated_pipe : ∃ as s,
    run (transactionStep pipeTransaction) transactionOps (TransactionState.construct [] []) = some (as, s) ∧
      answered as = [1] ∧ ∃ ops' as' s', (∀ o ∈ ops', o.IsTurn) ∧
        run (transactionStep pipeTransaction) ops' s = some (as', s') ∧ s'.request.Idle id ∧
          s'.response.Idle id ∧ replyContexts (as ++ as') = [1] := by
  obtain ⟨as, s, hrun, hanswered, hsent, hresponded⟩ := run_transactionOps
  have hle : (sentViews pipeTransaction.response (responseAnswers as)).length ≤ 1 :=
    hresponded ▸ List.length_filterMap_le _ _
  obtain ⟨-, -, ops', as', s', hturns, hrun', hidle, hidle', hperm⟩ :=
    transaction_correlated connected_pipeTransaction rfl rfl sound_transactionOps hrun (by rw [hsent]; decide)
      (lt_of_le_of_lt hle (by decide)) sampleTags
  rw [hanswered] at hperm
  exact ⟨as, s, hrun, hanswered, ops', as', s', hturns, hrun', hidle, hidle', List.perm_singleton.1 hperm⟩

end CodePort
