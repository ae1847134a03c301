/-
Hops of segments in the network.

A segment is on its way to a node as soon as its message has been put into the transmit queue of another
one: it waits there, in the queue of the router, in the hand of the router, in the queue of the node, or in
the queue of its accumulator thread.  A broadcast is on its way to every node at once, until it comes to the
hand of the router, which holds it once for each of the nodes that it has still to send it to.

Main definitions:

* `CodePort.Underway` — the delivery to one node, with a multiset of octets on their way;
* `CodePort.IpcNetwork.way` — everything that is on its way to a node, and what the router has given up;
* `CodePort.Networked` — **the invariant of the network**.

Main results:

* `CodePort.Networked.queued` — a message is put into the transmit queue of a node;
* `CodePort.Networked.xmit`, `route`, `forward`, `recv` — **a segment goes one hop further**;
* `CodePort.Networked.accum` — a segment is submitted to the accumulators.
-/

import CodePort.IpcNetwork
import Mathlib.Algebra.BigOperators.Fin
import Mathlib.Tactic.Abel

set_option relaxedAutoImplicit false
set_option autoImplicit false

namespace CodePort

open IpcSegment IpcAccumMap StepSystem

variable {ι : Type*} [DecidableEq ι]

/-! ### What is on its way -/

/-- A multiset of octets for one node is on its way, and the delivery to the node goes on. -/
def Underway (msgs : List SentMessage) (way : Multiset (List UInt8)) (m : AList fun _ : ℕ => IpcAccum)
    (delivered : List (ℕ × List SegPtr)) : Prop :=
  ∃ (l : List SegPtr) (ws : List (List UInt8)), (ws : Multiset (List UInt8)) = way ∧
    Delivering msgs l ws m delivered

namespace Underway

variable {msgs : List SentMessage} {way : Multiset (List UInt8)} {m : AList fun _ : ℕ => IpcAccum}
  {delivered : List (ℕ × List SegPtr)}

theorem nil : Underway [] 0 ∅ [] := ⟨[], [], rfl, Delivering.nil⟩

theorem sent (h : Underway msgs way m delivered) : AreSent msgs := by
  obtain ⟨l, ws, -, hdel⟩ := h
  exact hdel.sent

theorem mem_sent (h : Underway msgs way m delivered) {w : List UInt8} (hw : w ∈ way) :
    w ∈ msgs.flatMap Prod.snd := by
  obtain ⟨l, ws, rfl, hdel⟩ := h
  exact hdel.flow.subset (List.mem_append_right _ (Multiset.mem_coe.1 hw))

theorem send (h : Underway msgs way m delivered) {x : SentMessage} (hx : OnWire x.1 x.2)
    (hnew : x.1.guid ∉ msgs.map fun y => y.1.guid) :
    Underway (msgs ++ [x]) (way + (x.2 : Multiset (List UInt8))) m delivered := by
  obtain ⟨l, ws, rfl, hdel⟩ := h
  exact ⟨l, ws ++ x.2, (Multiset.coe_add _ _).symm, hdel.send hx hnew⟩

theorem receive {s : IpcAccumMap} {p : SegPtr} (h : Underway msgs (p.wire ::ₘ way) s.accumMap delivered)
    (i : AccumIn) : Underway msgs way (receive s i p).2.accumMap
      (delivered ++ (IpcAccumMap.receive s i p).1.delivered.toList) := by
  obtain ⟨l, ws, hws, hdel⟩ := h
  obtain ⟨ws', rfl⟩ := Quot.exists_rep way
  have hperm : ws.Perm (p.wire :: ws') := Multiset.coe_eq_coe.1 hws
  exact ⟨l ++ [p], ws', rfl, (hdel.perm hperm).receive i⟩

end Underway

/-- Two parts of a whole change. -/
theorem add_add_eq_of_parts {M : Type*} [AddCommMonoid M] {a a' b b' x y : M} (h : b' + x = b + y) :
    a' + b' + (x + a) = a + b + (y + a') := by
  rw [add_comm x a, add_add_add_comm, h, add_comm y a', add_add_add_comm a, add_comm a a']

/-- A part moves from one place to another. -/
theorem add_add_add_right_move {M : Type*} [AddCommMonoid M] (a b c d x : M) :
    a + x + b + c + d = a + b + (c + x) + d := by
  abel

namespace IpcNetwork

variable [Fintype ι]

/-- The octets that have not come past the router: what waits in its queue, and what the nodes have still
to hand to their transports. -/
def carried (s : IpcNetwork ι) (t : ι → List Message) : Multiset (List UInt8) :=
  ((s.queues routerDevice).msgs : Multiset (List UInt8)) +
    ∑ i, (outgoing (s.node i).xmit (t i) : Multiset (List UInt8))

/-- The octets in the hand of the router that are still to be sent to a node. -/
def inHand (e : NetworkEnds ι) (s : IpcNetwork ι) (j : ι) : List (List UInt8) :=
  (s.router.nodes.filter fun q => q.ioDevice = IpcRouter.ioDevice (e.node j).nodeAddr).map
    fun _ => s.router.seg.buf.data

/-- The octets that have come to a node and have not been accumulated. -/
def inbox (e : NetworkEnds ι) (s : IpcNetwork ι) (j : ι) : List (List UInt8) :=
  (s.node j).accumQueue.segments.map SegPtr.wire ++ (s.queues (IpcRouter.ioDevice (e.node j).nodeAddr)).msgs

/-- **What is on its way to a node**, and what the router has given up. -/
def way (e : NetworkEnds ι) (s : IpcNetwork ι) (t : ι → List Message) (drops : List (List UInt8))
    (j : ι) : Multiset (List UInt8) :=
  (inbox e s j : Multiset (List UInt8)) + (inHand e s j : Multiset (List UInt8)) +
    (s.carried t).filter (fun w => IsFor (e.node j).nodeAddr (wireGet w .dstAddr)) +
      (drops : Multiset (List UInt8))

end IpcNetwork

/-- The messages for a node. -/
def messagesFor (a : UInt32) (msgs : List SentMessage) : List SentMessage :=
  msgs.filter fun y => IsFor a y.1.dstAddr

/-- The messages from a node. -/
def messagesFrom (a : UInt32) (msgs : List SentMessage) : List SentMessage :=
  msgs.filter fun y => y.1.srcAddr = a.toNat

variable [Fintype ι]

/-- **The invariant of the network** after the answers `as`: every node keeps the invariant of its sending
half, and `msgs` says what has been sent; what has not come past the router belongs to it; the router
sends to queues of nodes; and for every node the delivery goes on. -/
structure Networked (e : NetworkEnds ι) (as : List (NetworkAnswer ι)) (s : IpcNetwork ι)
    (t : ι → List Message) (msgs : List SentMessage) : Prop where
  sending : ∀ i, Sending (e.node i).nodeAddr.toNat (s.node i).transmit (s.node i).xmit (t i)
    (messagesFrom (e.node i).nodeAddr msgs)
  sources : ∀ y ∈ msgs, ∃ i, y.1.srcAddr = (e.node i).nodeAddr.toNat
  sent : AreSent msgs
  views : msgs.map Prod.fst = networkViews e as
  carried : ∀ w ∈ s.carried t, w ∈ msgs.flatMap Prod.snd
  inHand : s.router.nodes ≠ [] → s.router.seg.buf.data ∈ msgs.flatMap Prod.snd
  targets : ∀ q ∈ s.router.nodes, ∃ a ∈ e.router.nodeQueues, q = IpcRouter.queue a
  shape : ∀ name, (s.queues name).msgSize = segMaxLen ∧ (s.queues name).maxMsgs = ipcCommsQueueDepth
  recvSeg : ∀ i, ∀ p ∈ (s.node i).pSeg, p.seg.Full
  routerSeg : s.router.seg.Full
  delivering : ∀ j, Underway (messagesFor (e.node j).nodeAddr msgs)
    (s.way e t (networkDrops e j as) j) (s.node j).maps.accumMap (networkDeliveries j as)

namespace IpcNetwork

variable {e : NetworkEnds ι} {s : IpcNetwork ι} {t : ι → List Message} {i : ι} {n : NetworkNode}
  {d : MsgQueues} {r : List Message}

omit [DecidableEq ι] in
theorem carried_construct (e : NetworkEnds ι) : (construct e).carried (fun _ => []) = 0 := by
  change 0 + ∑ i : ι, (0 : Multiset (List UInt8)) = 0
  rw [Finset.sum_const_zero, add_zero]

/-- What one node carries is a part of what is carried. -/
theorem carried_setNode (s : IpcNetwork ι) (t : ι → List Message) (i : ι) (n : NetworkNode)
    (d : MsgQueues) (r : List Message) :
    (s.setNode i n d).carried (Function.update t i r) +
        ((outgoing (s.node i).xmit (t i) : Multiset (List UInt8)) +
          ((s.queues routerDevice).msgs : Multiset (List UInt8))) =
      s.carried t + ((outgoing n.xmit r : Multiset (List UInt8)) +
        ((d routerDevice).msgs : Multiset (List UInt8))) := by
  have hsum := sum_add_eq_sum_add (t := i)
    (f := fun k => (outgoing (s.node k).xmit (t k) : Multiset (List UInt8)))
    (g := fun k => (outgoing ((s.setNode i n d).node k).xmit (Function.update t i r k) :
      Multiset (List UInt8))) fun k hk => by
        rw [setNode_node_of_ne hk, Function.update_of_ne hk]
  simp only [setNode_node_self, Function.update_self] at hsum
  exact add_add_eq_of_parts hsum

/-- A node that has kept what it carries. -/
theorem carried_setNode_of_perm {s : IpcNetwork ι} {t : ι → List Message} {i : ι} {n : NetworkNode}
    {d : MsgQueues} {r : List Message} (hout : (outgoing (s.node i).xmit (t i)).Perm (outgoing n.xmit r))
    (hd : (d routerDevice).msgs = (s.queues routerDevice).msgs) :
    (s.setNode i n d).carried (Function.update t i r) = s.carried t := by
  have h := carried_setNode s t i n d r
  rw [hd, Multiset.coe_eq_coe.2 hout] at h
  exact add_right_cancel h

omit [Fintype ι] in
/-- What one node keeps, all nodes keep. -/
theorem apply_setNode {β : Type*} (f : NetworkNode → β) {s : IpcNetwork ι} {i : ι} {n : NetworkNode}
    (hn : f n = f (s.node i)) (d : MsgQueues) (j : ι) : f ((s.setNode i n d).node j) = f (s.node j) := by
  by_cases hj : j = i
  · subst hj
    rw [setNode_node_self, hn]
  · rw [setNode_node_of_ne hj]

omit [Fintype ι] in
theorem segments_setNode {s : IpcNetwork ι} {i : ι} {n : NetworkNode}
    (hn : n.accumQueue.segments = (s.node i).accumQueue.segments) (d : MsgQueues) (j : ι) :
    ((s.setNode i n d).node j).accumQueue.segments = (s.node j).accumQueue.segments :=
  apply_setNode (fun n => n.accumQueue.segments) hn d j

omit [Fintype ι] in
/-- A node that leaves the queues and its own incoming segment queue alone. -/
theorem inbox_setNode (e : NetworkEnds ι) (s : IpcNetwork ι) {i : ι} {n : NetworkNode}
    (hn : n.accumQueue.segments = (s.node i).accumQueue.segments) (j : ι) :
    (s.setNode i n s.queues).inbox e j = s.inbox e j := by
  rw [inbox, inbox, segments_setNode hn]
  rfl

omit [Fintype ι] in
/-- A queue of a node has accepted the octets of a segment. -/
theorem inbox_put {e : NetworkEnds ι} (hconn : e.Connected) {s s' : IpcNetwork ι} {k : ι}
    {w : List UInt8} (hn : ∀ j, (s'.node j).accumQueue.segments = (s.node j).accumQueue.segments)
    (hq : s'.queues = s.queues.put (IpcRouter.ioDevice (e.node k).nodeAddr) w)
    (hacc : (s.queues (IpcRouter.ioDevice (e.node k).nodeAddr)).Accepts w) (j : ι) :
    s'.inbox e j = s.inbox e j ++ if j = k then [w] else [] := by
  rw [inbox, inbox, hn, hq]
  split_ifs with hj
  · subst hj
    rw [MsgQueues.msgs_put hacc, List.append_assoc]
  · rw [MsgQueues.put_of_ne (mt hconn.ioDevice_inj.1 hj), List.append_nil]

omit [Fintype ι] in
theorem accumMap_setNode {s : IpcNetwork ι} {i : ι} {n : NetworkNode}
    (hn : n.maps.accumMap = (s.node i).maps.accumMap) (d : MsgQueues) (j : ι) :
    ((s.setNode i n d).node j).maps.accumMap = (s.node j).maps.accumMap :=
  apply_setNode (fun n => n.maps.accumMap) hn d j

end IpcNetwork

/-! ### Messages -/

/-- The octets of a message are for the nodes that the message is for. -/
theorem OnWire.filter_isFor {v : MessageView} {ws : List (List UInt8)} (h : OnWire v ws) (a : UInt32) :
    (ws : Multiset (List UInt8)).filter (fun w => IsFor a (wireGet w .dstAddr)) =
      if IsFor a v.dstAddr then (ws : Multiset (List UInt8)) else 0 := by
  have hdst : ∀ w ∈ (ws : Multiset (List UInt8)), wireGet w .dstAddr = v.dstAddr := fun w hw =>
    congrArg MessageView.dstAddr (h.read_mem (Multiset.mem_coe.1 hw))
  split_ifs with hfor
  · exact Multiset.filter_eq_self.2 fun w hw => hdst w hw ▸ hfor
  · exact Multiset.filter_eq_nil.2 fun w hw => hdst w hw ▸ hfor

theorem messagesFor_concat (a : UInt32) (msgs : List SentMessage) (y : SentMessage) :
    messagesFor a (msgs ++ [y]) = messagesFor a msgs ++ if IsFor a y.1.dstAddr then [y] else [] := by
  rw [messagesFor, List.filter_append, messagesFor]
  split_ifs with hfor
  · rw [List.filter_cons_of_pos (by simpa using hfor), List.filter_nil]
  · rw [List.filter_cons_of_neg (by simpa using hfor), List.filter_nil]

theorem messagesFrom_concat (a : UInt32) (msgs : List SentMessage) (y : SentMessage) :
    messagesFrom a (msgs ++ [y]) =
      messagesFrom a msgs ++ if y.1.srcAddr = a.toNat then [y] else [] := by
  rw [messagesFrom, List.filter_append, messagesFrom]
  split_ifs with hfrom
  · rw [List.filter_cons_of_pos (by simpa using hfrom), List.filter_nil]
  · rw [List.filter_cons_of_neg (by simpa using hfrom), List.filter_nil]

namespace Networked

variable {e : NetworkEnds ι} {as : List (NetworkAnswer ι)} {s s' : IpcNetwork ι} {t : ι → List Message}
  {msgs : List SentMessage} {i : ι} {n : NetworkNode} {d : MsgQueues} {r : List Message} {a : LinkAnswer}

theorem construct (e : NetworkEnds ι) (hconn : e.Connected) :
    Networked e [] (IpcNetwork.construct e) (fun _ => []) [] where
  sending i := Sending.construct _
  sources y hy := absurd hy List.not_mem_nil
  sent := ⟨fun x hx => absurd hx List.not_mem_nil, List.nodup_nil⟩
  views := rfl
  carried w hw := by
    rw [IpcNetwork.carried_construct] at hw
    exact absurd hw (Multiset.notMem_zero w)
  inHand hne := absurd rfl hne
  targets q hq := absurd hq List.not_mem_nil
  shape name := ⟨rfl, rfl⟩
  recvSeg i p hp := absurd hp (Option.not_mem_none p)
  routerSeg := full_construct hconn.routerRoom
  delivering j := by
    have hzero : (IpcNetwork.construct e).way e (fun _ => []) (networkDrops e j []) j = 0 := by
      rw [IpcNetwork.way, IpcNetwork.carried_construct]
      rfl
    rw [hzero]
    exact Underway.nil

/-- A step of a node that sends nothing. -/
theorem moved (h : Networked e as s t msgs)
    (hsending : Sending (e.node i).nodeAddr.toNat n.transmit n.xmit r
      (messagesFrom (e.node i).nodeAddr msgs))
    (hcarried : ∀ w ∈ (s.setNode i n d).carried (Function.update t i r), w ∈ s.carried t)
    (hshape : ∀ name, (d name).msgSize = segMaxLen ∧ (d name).maxMsgs = ipcCommsQueueDepth)
    (hseg : ∀ p ∈ n.pSeg, p.seg.Full) (ha : (e.node i).sentView a = none)
    (hdel : ∀ j, Underway (messagesFor (e.node j).nodeAddr msgs)
      ((s.setNode i n d).way e (Function.update t i r) (networkDrops e j as) j)
      ((s.setNode i n d).node j).maps.accumMap (networkDeliveries j (as ++ [.node i a]))) :
    Networked e (as ++ [.node i a]) (s.setNode i n d) (Function.update t i r) msgs where
  sending k := by
    by_cases hk : k = i
    · subst hk
      rw [IpcNetwork.setNode_node_self, Function.update_self]
      exact hsending
    · rw [IpcNetwork.setNode_node_of_ne hk, Function.update_of_ne hk]
      exact h.sending k
  sources := h.sources
  sent := h.sent
  views := by
    rw [networkViews_concat, NetworkAnswer.sentView, ha, h.views]
    exact (List.append_nil _).symm
  carried w hw := h.carried w (hcarried w hw)
  inHand := h.inHand
  targets := h.targets
  shape := hshape
  recvSeg k := by
    by_cases hk : k = i
    · subst hk
      rw [IpcNetwork.setNode_node_self]
      exact hseg
    · rw [IpcNetwork.setNode_node_of_ne hk]
      exact h.recvSeg k
  routerSeg := h.routerSeg
  delivering j := by
    rw [networkDrops_concat]
    exact (List.append_nil (networkDrops e j as)).symm ▸ hdel j

/-- A step of a node that neither sends nor delivers, and moves nothing past the router. -/
theorem quiet (h : Networked e as s t msgs)
    (hsending : Sending (e.node i).nodeAddr.toNat n.transmit n.xmit r
      (messagesFrom (e.node i).nodeAddr msgs))
    (hcarried : (s.setNode i n d).carried (Function.update t i r) = s.carried t)
    (hshape : ∀ name, (d name).msgSize = segMaxLen ∧ (d name).maxMsgs = ipcCommsQueueDepth)
    (hseg : ∀ p ∈ n.pSeg, p.seg.Full) (hmaps : n.maps.accumMap = (s.node i).maps.accumMap)
    (hinbox : ∀ j, ((s.setNode i n d).inbox e j).Perm (s.inbox e j))
    (ha : (e.node i).sentView a = none) (hdel : a.delivery = none) :
    Networked e (as ++ [.node i a]) (s.setNode i n d) (Function.update t i r) msgs := by
  refine h.moved hsending (fun w hw => hcarried ▸ hw) hshape hseg ha fun j => ?_
  have hnone : NetworkAnswer.delivery j (.node i a) = none := by
    rw [NetworkAnswer.delivery, hdel, ite_self]
  rw [networkDeliveries_concat, hnone, IpcNetwork.accumMap_setNode hmaps, IpcNetwork.way, hcarried,
    Multiset.coe_eq_coe.2 (hinbox j)]
  exact (List.append_nil (networkDeliveries j as)).symm ▸ h.delivering j

/-- A step of a node that leaves the queues alone. -/
theorem unsent (h : Networked e as s t msgs)
    (hsending : Sending (e.node i).nodeAddr.toNat n.transmit n.xmit r
      (messagesFrom (e.node i).nodeAddr msgs))
    (hout : (outgoing (s.node i).xmit (t i)).Perm (outgoing n.xmit r))
    (hseg : n.pSeg = (s.node i).pSeg) (hmaps : n.maps.accumMap = (s.node i).maps.accumMap)
    (hqueue : n.accumQueue.segments = (s.node i).accumQueue.segments)
    (ha : (e.node i).sentView a = none)
    (hdel : a.delivery = none) :
    Networked e (as ++ [.node i a]) (s.setNode i n s.queues) (Function.update t i r) msgs := by
  refine h.quiet hsending (IpcNetwork.carried_setNode_of_perm hout rfl) h.shape
    (hseg ▸ h.recvSeg i) hmaps (fun j => ?_) ha hdel
  rw [IpcNetwork.inbox_setNode e s hqueue]

theorem give (h : Networked e as s t msgs)
    (hstep : nodeStep (e.node i) (s.node i) s.queues .give = some (a, n, d)) :
    Networked e (as ++ [.node i a]) (s.setNode i n d) t msgs := by
  obtain ⟨⟨b, u⟩, hu, heq⟩ := Option.map_eq_some_iff.1 hstep
  obtain ⟨rfl, hrest⟩ := Prod.mk.inj heq
  obtain ⟨rfl, rfl⟩ := Prod.mk.inj hrest
  rw [← Function.update_eq_self i t]
  exact h.unsent ((h.sending i).give hu) (.refl _) rfl rfl rfl rfl rfl

theorem take (h : Networked e as s t msgs)
    (hstep : nodeStep (e.node i) (s.node i) s.queues .take = some (a, n, d)) :
    Networked e (as ++ [.node i a]) (s.setNode i n d) t msgs := by
  rw [nodeStep] at hstep
  split_ifs at hstep with hfree
  obtain ⟨⟨b, u⟩, hu, heq⟩ := Option.map_eq_some_iff.1 hstep
  obtain ⟨rfl, hrest⟩ := Prod.mk.inj heq
  obtain ⟨rfl, rfl⟩ := Prod.mk.inj hrest
  have hsending := h.sending i
  rw [hfree.2] at hsending
  have htaken := hsending.take hfree.1 hu
  rw [← hfree.2] at htaken
  rw [← Function.update_eq_self i t]
  exact h.unsent htaken (.refl _) rfl rfl rfl rfl rfl

/-- **The transmit thread of a node gets a segment**: it is the next one of a message. -/
theorem get (h : Networked e as s t msgs)
    (hstep : nodeStep (e.node i) (s.node i) s.queues .get = some (a, n, d)) :
    ∃ r, (s.node i).xmit = none ∧
      Networked e (as ++ [.node i a]) (s.setNode i n d) (Function.update t i r) msgs ∧
      ((s.node i).transmit.queue.priorityQueue ≠ [] → ∀ c,
        sendWork c n.transmit n.xmit r < sendWork c (s.node i).transmit none (t i)) := by
  obtain ⟨⟨b, u⟩, hu, heq⟩ := Option.map_eq_some_iff.1 hstep
  obtain ⟨rfl, hrest⟩ := Prod.mk.inj heq
  obtain ⟨rfl, rfl⟩ := Prod.mk.inj hrest
  obtain ⟨r, hnone, hsending, hperm, hless⟩ := (h.sending i).get hu
  exact ⟨r, hnone, h.unsent hsending (hnone ▸ hperm) rfl rfl rfl rfl rfl, hless⟩

theorem contexts (h : Networked e as s t msgs) {contextMap : AList fun _ : ℕ => IpcContext}
    (hstep : nodeStep (e.node i) (s.node i) s.queues (.contexts contextMap) = some (a, n, d)) :
    Networked e (as ++ [.node i a]) (s.setNode i n d) t msgs := by
  obtain ⟨rfl, hrest⟩ := Prod.mk.inj (Option.some.inj hstep)
  obtain ⟨rfl, rfl⟩ := Prod.mk.inj hrest
  rw [← Function.update_eq_self i t]
  exact h.unsent (h.sending i) (.refl _) rfl rfl rfl rfl rfl

/-! ### Hops -/

/-- What has not come past the router has the length of a segment, and the length that it says. -/
theorem length_mem (h : Networked e as s t msgs) {w : List UInt8} (hw : w ∈ msgs.flatMap Prod.snd) :
    segData ≤ w.length ∧ w.length ≤ segMaxLen ∧ w.length = segData + wireGet w .dataLen := by
  obtain ⟨x, hx, hwx⟩ := List.mem_flatMap.1 hw
  exact (h.sent.onWire x hx).length_mem.2 w hwx

/-- What is in the queue of a node has been sent. -/
theorem mem_sent_of_queue (h : Networked e as s t msgs) {w : List UInt8}
    (hw : w ∈ (s.queues (IpcRouter.ioDevice (e.node i).nodeAddr)).msgs) : w ∈ msgs.flatMap Prod.snd := by
  have hway : w ∈ s.way e t (networkDrops e i as) i := by
    simp only [IpcNetwork.way, IpcNetwork.inbox, Multiset.mem_add, Multiset.mem_coe, List.mem_append]
    exact Or.inl (Or.inl (Or.inl (Or.inr hw)))
  obtain ⟨x, hx, hwx⟩ := List.mem_flatMap.1 ((h.delivering i).mem_sent hway)
  exact List.mem_flatMap.2 ⟨x, List.mem_of_mem_filter hx, hwx⟩

/-- The next message ID of a node has not been used. -/
theorem guid_notMem (h : Networked e as s t msgs) (hlt : msgs.length + 1 < 2 ^ 32) {v : MessageView}
    (hsrc : v.srcAddr = (e.node i).nodeAddr.toNat) (hid : v.msgId = (t i).length + 1) :
    v.guid ∉ msgs.map fun y => y.1.guid := by
  have hle : ∀ k, (t k).length ≤ msgs.length := fun k =>
    (h.sending k).length_eq ▸ List.length_filter_le _ _
  intro hmem
  obtain ⟨y, hy, hg⟩ := List.mem_map.1 hmem
  obtain ⟨k, hk⟩ := h.sources y hy
  have hyk : y ∈ messagesFrom (e.node k).nodeAddr msgs := List.mem_filter.2 ⟨hy, by simpa using hk⟩
  obtain ⟨-, -, hyid⟩ := (h.sending k).msgId_mem hyk
  have hki := hle k
  have hii := hle i
  obtain ⟨hsame, hsameId⟩ := MessageView.guid_inj (by omega) (by omega) hg
  have hyi : y ∈ messagesFrom (e.node i).nodeAddr msgs :=
    List.mem_filter.2 ⟨hy, by simpa using hsame.trans hsrc⟩
  obtain ⟨-, -, hyid'⟩ := (h.sending i).msgId_mem hyi
  omega

/-- **A message is put into the transmit queue of a node.** -/
theorem queued (hconn : e.Connected) (h : Networked e as s t msgs) {call : SendCall} {r : SendResult}
    (hq : call.Queues (e.node i).le (e.node i).pools (e.node i).xml
      ((e.node i).node (s.node i).transmit.queue) r)
    (hcount : (networkViews e (as ++ [.node i (.sent call r.rv)])).length < 2 ^ 32) :
    ∃ t' msgs', Networked e (as ++ [.node i (.sent call r.rv)]) (s.setNode i { s.node i with
      transmit := { (s.node i).transmit with
        queue := r.transmitQueue
        giving := if r.rv = 0 then (s.node i).transmit.giving else (s.node i).transmit.giving + 1 } }
      s.queues) t' msgs' := by
  have hpos : r.rv ≠ 0 := SendCall.Queues.rv_ne_zero hq
  have hview : (e.node i).sentView (.sent call r.rv) = some (call.view (e.node i).le (e.node i).pools
      (e.node i).xml ((e.node i).node IpcTransmitQueue.construct) r.rv) := if_neg hpos
  have hlt : msgs.length + 1 < 2 ^ 32 := by
    rw [networkViews_concat, NetworkAnswer.sentView, hview, List.length_append, ← h.views,
      List.length_map] at hcount
    exact hcount
  have hle : (t i).length ≤ msgs.length := (h.sending i).length_eq ▸ List.length_filter_le _ _
  have hnode : Sending ((e.node i).node (s.node i).transmit.queue).nodeAddr (s.node i).transmit
    (s.node i).xmit (t i) (messagesFrom (e.node i).nodeAddr msgs) := h.sending i
  obtain ⟨hrv, ti, y, -, hy, hon, hout, hsending⟩ := hnode.queued rfl hq (by omega)
  have hsrc : y.1.srcAddr = (e.node i).nodeAddr.toNat := hy ▸ rfl
  have hid : y.1.msgId = (t i).length + 1 := hrv ▸ hy ▸ rfl
  have hnew := h.guid_notMem hlt hsrc hid
  rw [if_neg hpos]
  set n : NetworkNode := { s.node i with
    transmit := { (s.node i).transmit with
      queue := r.transmitQueue
      giving := (s.node i).transmit.giving + 1 } } with hn
  -- what the node carries has grown by the octets of the message
  have hcarried : (s.setNode i n s.queues).carried (Function.update t i ti) =
      s.carried t + (y.2 : Multiset (List UInt8)) := by
    have hgrown := IpcNetwork.carried_setNode s t i n s.queues ti
    have hxmit : n.xmit = (s.node i).xmit := rfl
    refine add_right_cancel (hgrown.trans ?_)
    rw [hxmit, hout, ← Multiset.coe_add,
      add_comm (outgoing (s.node i).xmit (t i) : Multiset (List UInt8)), add_assoc, ← add_assoc]
  have hmono : ∀ w ∈ msgs.flatMap Prod.snd, w ∈ (msgs ++ [y]).flatMap Prod.snd := by
    intro w hw
    rw [List.flatMap_append]
    exact List.mem_append_left _ hw
  refine ⟨Function.update t i ti, msgs ++ [y], ?_⟩
  exact
    { sending := fun k => by
        rw [messagesFrom_concat, hsrc]
        by_cases hk : k = i
        · subst hk
          rw [if_pos rfl, IpcNetwork.setNode_node_self, Function.update_self]
          exact hsending
        · have hne : (e.node i).nodeAddr.toNat ≠ (e.node k).nodeAddr.toNat := fun hc =>
            hk (hconn.addr_inj k i (UInt32.toNat_inj.1 hc.symm))
          rw [if_neg hne, List.append_nil, IpcNetwork.setNode_node_of_ne hk, Function.update_of_ne hk]
          exact h.sending k
      sources := fun z hz => by
        rcases List.mem_append.1 hz with hz | hz
        · exact h.sources z hz
        · rw [List.mem_singleton.1 hz]
          exact ⟨i, hsrc⟩
      sent := h.sent.append hon hnew
      views := by
        rw [List.map_append, h.views, List.map_singleton, networkViews_concat, NetworkAnswer.sentView,
          hview, hy]
        exact congrArg (fun v => networkViews e as ++ [v]) (SendCall.view_queue _ _ _
          ((e.node i).node IpcTransmitQueue.construct) (s.node i).transmit.queue call r.rv)
      carried := fun w hw => by
        rw [hcarried, Multiset.mem_add] at hw
        rcases hw with hw | hw
        · exact hmono w (h.carried w hw)
        · rw [List.flatMap_append, List.flatMap_singleton]
          exact List.mem_append_right _ (Multiset.mem_coe.1 hw)
      inHand := fun hne => hmono _ (h.inHand hne)
      targets := h.targets
      shape := h.shape
      recvSeg := fun k => by
        by_cases hk : k = i
        · subst hk
          rw [IpcNetwork.setNode_node_self]
          exact h.recvSeg k
        · rw [IpcNetwork.setNode_node_of_ne hk]
          exact h.recvSeg k
      routerSeg := h.routerSeg
      delivering := fun j => by
        have hold := h.delivering j
        have hnone : NetworkAnswer.delivery j (.node i (.sent call r.rv)) = none := ite_self none
        have hmaps : n.maps.accumMap = (s.node i).maps.accumMap := rfl
        have hqueue : n.accumQueue.segments = (s.node i).accumQueue.segments := rfl
        rw [networkDeliveries_concat, hnone, networkDrops_concat, IpcNetwork.accumMap_setNode hmaps,
          messagesFor_concat, IpcNetwork.way, IpcNetwork.inbox_setNode e s hqueue, hcarried,
          Multiset.filter_add, hon.filter_isFor]
        simp only [Option.toList_none, List.append_nil, NetworkAnswer.drop]
        split_ifs with hfor
        · have hnew' : y.1.guid ∉ (messagesFor (e.node j).nodeAddr msgs).map fun z => z.1.guid :=
            fun hmem => hnew (List.map_subset _ (List.filter_subset_self _) hmem)
          rw [← add_assoc, add_right_comm]
          exact hold.send hon hnew'
        · rw [add_zero, List.append_nil]
          exact hold }

theorem shape_put (h : Networked e as s t msgs) (name w name' : List UInt8) :
    ((s.queues.put name w) name').msgSize = segMaxLen ∧
      ((s.queues.put name w) name').maxMsgs = ipcCommsQueueDepth := by
  obtain ⟨hsize, hdepth⟩ := MsgQueues.shape_put s.queues name w name'
  exact ⟨hsize.trans (h.shape name').1, hdepth.trans (h.shape name').2⟩

theorem shape_pop (h : Networked e as s t msgs) (name name' : List UInt8) :
    ((s.queues.pop name) name').msgSize = segMaxLen ∧
      ((s.queues.pop name) name').maxMsgs = ipcCommsQueueDepth := by
  obtain ⟨hsize, hdepth⟩ := MsgQueues.shape_pop s.queues name name'
  exact ⟨hsize.trans (h.shape name').1, hdepth.trans (h.shape name').2⟩

section

variable {p : SegPtr}

omit [DecidableEq ι] [Fintype ι] in
/-- The segment that the transmit thread of a node holds is the first one that the node carries. -/
theorem outgoing_eq (hx : (s.node i).xmit = some p) :
    outgoing (s.node i).xmit (t i) = p.wire :: outgoing none (t i) := by
  rw [hx]
  rfl

omit [DecidableEq ι] in
theorem mem_carried (hx : (s.node i).xmit = some p) : p.wire ∈ s.carried t := by
  refine Multiset.mem_add.2 (Or.inr (Multiset.mem_sum.2 ⟨i, Finset.mem_univ i, ?_⟩))
  rw [outgoing_eq hx]
  exact Multiset.mem_coe.2 List.mem_cons_self

/-- The queue of the router accepts the segment. -/
theorem xmit_router (hconn : e.Connected) (h : Networked e as s t msgs) (hx : (s.node i).xmit = some p)
    (hacc : (s.queues routerDevice).Accepts p.wire) :
    Networked e (as ++ [.node i .done])
      (s.setNode i (s.node i).handOver (s.queues.put routerDevice p.wire)) t msgs := by
  rw [← Function.update_eq_self i t]
  refine h.quiet (h.sending i).handOver ?_ (h.shape_put _ _) (h.recvSeg i) rfl (fun j => ?_) rfl rfl
  · have hmoved := IpcNetwork.carried_setNode s t i (s.node i).handOver
      (s.queues.put routerDevice p.wire) (t i)
    rw [outgoing_eq hx, MsgQueues.msgs_put hacc, ← Multiset.cons_coe, ← Multiset.coe_add,
      Multiset.coe_singleton, ← Multiset.singleton_add, add_assoc,
      ← add_assoc (outgoing (s.node i).handOver.xmit (t i) : Multiset (List UInt8)),
      add_comm _ ({p.wire} : Multiset (List UInt8))] at hmoved
    exact add_right_cancel hmoved
  · rw [IpcNetwork.inbox, IpcNetwork.inbox, IpcNetwork.segments_setNode (n := (s.node i).handOver) rfl]
    exact .of_eq (congrArg _ (congrArg MsgQueue.msgs (MsgQueues.put_of_ne (hconn.ioDevice_ne j))))

/-- The queue of a node accepts the segment. -/
theorem xmit_direct (hconn : e.Connected) (h : Networked e as s t msgs) (hx : (s.node i).xmit = some p)
    {k : ι} (hdst : wireGet p.wire .dstAddr = (e.node k).nodeAddr.toNat)
    (hacc : (s.queues (IpcRouter.ioDevice (e.node k).nodeAddr)).Accepts p.wire) :
    Networked e (as ++ [.node i .done]) (s.setNode i (s.node i).handOver
      (s.queues.put (IpcRouter.ioDevice (e.node k).nodeAddr) p.wire)) t msgs := by
  rw [← Function.update_eq_self i t]
  have hcarried : (s.setNode i (s.node i).handOver
      (s.queues.put (IpcRouter.ioDevice (e.node k).nodeAddr) p.wire)).carried
        (Function.update t i (t i)) + {p.wire} = s.carried t := by
    have hmoved := IpcNetwork.carried_setNode s t i (s.node i).handOver
      (s.queues.put (IpcRouter.ioDevice (e.node k).nodeAddr) p.wire) (t i)
    rw [outgoing_eq hx, MsgQueues.put_of_ne (hconn.ioDevice_ne k).symm, ← Multiset.cons_coe,
      ← Multiset.singleton_add, add_assoc, ← add_assoc] at hmoved
    exact add_right_cancel hmoved
  refine h.moved (h.sending i).handOver (fun w hw => ?_) (h.shape_put _ _) (h.recvSeg i) rfl fun j => ?_
  · rw [← hcarried]
    exact Multiset.mem_add.2 (Or.inl hw)
  · have hnone : NetworkAnswer.delivery j (.node i .done) = none := ite_self none
    have hold := h.delivering j
    rw [IpcNetwork.way, ← hcarried, Multiset.filter_add, Multiset.filter_singleton, hdst] at hold
    have hbox : (s.setNode i (s.node i).handOver
        (s.queues.put (IpcRouter.ioDevice (e.node k).nodeAddr) p.wire)).inbox e j =
          s.inbox e j ++ if j = k then [p.wire] else [] :=
      IpcNetwork.inbox_put hconn (IpcNetwork.segments_setNode (n := (s.node i).handOver) rfl _)
        (IpcNetwork.setNode_queues _ _ _ _) hacc j
    rw [networkDeliveries_concat, hnone, IpcNetwork.accumMap_setNode (n := (s.node i).handOver) rfl,
      IpcNetwork.way, hbox]
    simp only [hconn.isFor_iff, Option.toList_none, List.append_nil] at hold ⊢
    split_ifs at hold ⊢ with hj
    · rw [← Multiset.coe_add, Multiset.coe_singleton, add_add_add_right_move]
      exact hold
    · rw [Multiset.empty_eq_zero, add_zero] at hold
      rw [List.append_nil]
      exact hold

end

/-- The segment that the transmit thread of a node holds is sent to the queue of the router, or to that
of the node that it is for. -/
theorem xmit_spec (hconn : e.Connected) (h : Networked e as s t msgs) {p : SegPtr}
    (hx : (s.node i).xmit = some p) :
    ∃ name, (name = routerDevice ∨ ∃ k, name = IpcRouter.ioDevice (e.node k).nodeAddr ∧
        wireGet p.wire .dstAddr = (e.node k).nodeAddr.toNat) ∧
      ((e.node i).transport.send (some p) s.queues).rv = decide ((s.queues name).Accepts p.wire) ∧
      nodeStep (e.node i) (s.node i) s.queues .xmit =
        some (.done, (s.node i).handOver, s.queues.put name p.wire) := by
  obtain ⟨hlen, hmax, hseg⟩ := h.length_mem (h.carried _ (mem_carried hx))
  have hdl : p.wire.length = p.seg.buf.dataLen := Buffer.length_data _
  have hdst : p.seg.dstAddr = wireGet p.wire .dstAddr := get_eq_wireGet (hdl ▸ hlen) .dstAddr
  have hnode : nodeStep (e.node i) (s.node i) s.queues .xmit =
      some (.done, (s.node i).handOver, ((e.node i).transport.send (some p) s.queues).env) := by
    rw [nodeStep, hx]
    rfl
  rw [hnode]
  rcases hconn.sendDevice i p.seg.dstAddr with hdev | ⟨k, hk, hdev⟩
  · obtain ⟨hrv, henv⟩ := IpcTransport.send_queueDev (d := s.queues) hconn.waits hdev hlen hmax hseg
    exact ⟨_, Or.inl rfl, hrv, by rw [henv]⟩
  · obtain ⟨hrv, henv⟩ := IpcTransport.send_queueDev (d := s.queues) hconn.waits hdev hlen hmax hseg
    exact ⟨_, Or.inr ⟨k, rfl, hdst.symm.trans hk⟩, hrv, by rw [henv]⟩

/-- **The transmit thread of a node sends its segment**, to the router or to another node. -/
theorem xmit (hconn : e.Connected) (h : Networked e as s t msgs)
    (hcareful : (NetworkOp.node i .xmit).Careful e s)
    (hstep : nodeStep (e.node i) (s.node i) s.queues .xmit = some (a, n, d)) :
    Networked e (as ++ [.node i a]) (s.setNode i n d) t msgs := by
  cases hx : (s.node i).xmit with
  | none =>
      rw [nodeStep, hx] at hstep
      exact absurd hstep (by simp)
  | some p =>
      obtain ⟨name, hname, hrv, hnode⟩ := h.xmit_spec hconn hx
      have hacc := of_decide_eq_true (hrv.symm.trans (hcareful p hx))
      obtain ⟨rfl, hrest⟩ := Prod.mk.inj (Option.some.inj (hnode.symm.trans hstep))
      obtain ⟨rfl, rfl⟩ := Prod.mk.inj hrest
      rcases hname with rfl | ⟨k, rfl, hdst⟩
      · exact h.xmit_router hconn hx hacc
      · exact h.xmit_direct hconn hx hdst hacc

/-- The receive thread of a node has taken a segment, or nothing, from the queue of the node. -/
theorem received (hconn : e.Connected) (h : Networked e as s t msgs) {out : List SegPtr}
    (htransmit : n.transmit = (s.node i).transmit) (hxmit : n.xmit = (s.node i).xmit)
    (hseg : ∀ p ∈ n.pSeg, p.seg.Full) (hmaps : n.maps = (s.node i).maps)
    (hqueue : n.accumQueue.segments = (s.node i).accumQueue.segments ++ out)
    (hout : out.map SegPtr.wire = (s.queues (IpcRouter.ioDevice (e.node i).nodeAddr)).msgs.take 1) :
    Networked e (as ++ [.node i .done])
      (s.setNode i n (s.queues.pop (IpcRouter.ioDevice (e.node i).nodeAddr))) t msgs := by
  rw [← Function.update_eq_self i t]
  refine h.quiet (htransmit ▸ hxmit ▸ h.sending i) (IpcNetwork.carried_setNode_of_perm (hxmit ▸ .refl _)
    (congrArg MsgQueue.msgs (MsgQueues.pop_of_ne (hconn.ioDevice_ne i).symm))) (h.shape_pop _) hseg
      (congrArg IpcAccumMap.accumMap hmaps) (fun j => .of_eq ?_) rfl rfl
  rw [IpcNetwork.inbox, IpcNetwork.inbox, IpcNetwork.setNode_queues]
  by_cases hj : j = i
  · subst hj
    rw [IpcNetwork.setNode_node_self, hqueue, MsgQueues.msgs_pop, List.map_append, hout,
      List.append_assoc, ← List.drop_one, List.take_append_drop]
  · rw [IpcNetwork.setNode_node_of_ne hj, MsgQueues.pop_of_ne (mt hconn.ioDevice_inj.1 hj)]

/-- **The receive thread of a node takes a segment from the queue of the node**, if there is one. -/
theorem recv (hconn : e.Connected) (h : Networked e as s t msgs)
    (hstep : nodeStep (e.node i) (s.node i) s.queues .recv = some (a, n, d)) :
    Networked e (as ++ [.node i a]) (s.setNode i n d) t msgs ∧ n.transmit = (s.node i).transmit ∧
      n.xmit = (s.node i).xmit ∧ n.accumQueue.work = (s.node i).accumQueue.work +
        3 * ((s.queues (IpcRouter.ioDevice (e.node i).nodeAddr)).msgs.take 1).length ∧
      d = s.queues.pop (IpcRouter.ioDevice (e.node i).nodeAddr) := by
  obtain ⟨out, u, hu, hwires, hfull, henv⟩ := recvLoop_datagram hconn.waits (s := ⟨(s.node i).created,
    (s.node i).pSeg, s.queues⟩) (hconn.nodeRoom i) (hconn.recvDevice i) (h.shape _).1
    (fun w hw => (h.length_mem (h.mem_sent_of_queue hw)).1) (h.recvSeg i)
  rw [nodeStep, hu] at hstep
  split_ifs at hstep with hfree
  obtain ⟨rfl, hrest⟩ := Prod.mk.inj (Option.some.inj hstep)
  obtain ⟨rfl, rfl⟩ := Prod.mk.inj hrest
  have hlen : out.toList.length =
      ((s.queues (IpcRouter.ioDevice (e.node i).nodeAddr)).msgs.take 1).length := by
    rw [← List.length_map SegPtr.wire]
    exact congrArg List.length hwires
  refine ⟨?_, rfl, rfl, hlen ▸ IpcAccumQueue.work_receive hfree out, henv⟩
  rw [henv]
  exact h.received hconn rfl rfl hfull rfl (IpcAccumQueue.segments_receive hfree out) hwires

/-- **The receive thread of a node gets a place for its segment.** -/
theorem submit (h : Networked e as s t msgs)
    (hstep : nodeStep (e.node i) (s.node i) s.queues (.submit true) = some (a, n, d)) :
    Networked e (as ++ [.node i a]) (s.setNode i n d) t msgs ∧ n.transmit = (s.node i).transmit ∧
      n.xmit = (s.node i).xmit ∧ n.accumQueue.work + 1 = (s.node i).accumQueue.work ∧ d = s.queues := by
  obtain ⟨q, hq, heq⟩ := Option.map_eq_some_iff.1 hstep
  obtain ⟨rfl, hrest⟩ := Prod.mk.inj heq
  obtain ⟨rfl, rfl⟩ := Prod.mk.inj hrest
  obtain ⟨hsegments, hwork⟩ := IpcAccumQueue.submit_spec hq
  refine ⟨?_, rfl, rfl, hwork, rfl⟩
  rw [← Function.update_eq_self i t]
  exact h.unsent (h.sending i) (.refl _) rfl rfl hsegments rfl rfl

/-- The accumulator thread of a node has submitted a segment from its queue. -/
theorem accumulated (h : Networked e as s t msgs) {p : SegPtr} {x : AccumIn}
    (hqueue : (s.node i).accumQueue.segments = p :: n.accumQueue.segments)
    (htransmit : n.transmit = (s.node i).transmit) (hxmit : n.xmit = (s.node i).xmit)
    (hseg : n.pSeg = (s.node i).pSeg) (hmaps : n.maps = (receive (s.node i).maps x p).2) :
    Networked e (as ++ [.node i (.delivered (receive (s.node i).maps x p).1.delivered)])
      (s.setNode i n s.queues) t msgs := by
  have hcarried : (s.setNode i n s.queues).carried (Function.update t i (t i)) = s.carried t :=
    IpcNetwork.carried_setNode_of_perm (hxmit ▸ .refl _) rfl
  rw [← Function.update_eq_self i t]
  refine h.moved (htransmit ▸ hxmit ▸ h.sending i) (fun w hw => hcarried ▸ hw) h.shape
    (hseg ▸ h.recvSeg i) rfl fun j => ?_
  have hold := h.delivering j
  rw [networkDeliveries_concat, IpcNetwork.way, hcarried, IpcNetwork.inbox, NetworkAnswer.delivery]
  rw [IpcNetwork.way, IpcNetwork.inbox] at hold
  by_cases hj : j = i
  · subst hj
    rw [hqueue, List.map_cons, List.cons_append, ← Multiset.cons_coe, Multiset.cons_add, Multiset.cons_add,
      Multiset.cons_add] at hold
    rw [IpcNetwork.setNode_node_self, hmaps, if_pos rfl]
    exact hold.receive x
  · rw [IpcNetwork.setNode_node_of_ne hj, if_neg (Ne.symm hj), Option.toList_none, List.append_nil]
    exact hold

/-- **The accumulator thread of a node takes a segment from its queue.** -/
theorem accum (h : Networked e as s t msgs) {now drained : ℕ} {submitOk : Bool}
    (hstep : nodeStep (e.node i) (s.node i) s.queues (.accum now submitOk drained) = some (a, n, d)) :
    Networked e (as ++ [.node i a]) (s.setNode i n d) t msgs ∧ n.transmit = (s.node i).transmit ∧
      n.xmit = (s.node i).xmit ∧ n.accumQueue.work + 2 = (s.node i).accumQueue.work ∧ d = s.queues := by
  obtain ⟨⟨p, q⟩, hq, hsome⟩ := Option.bind_eq_some_iff.1 hstep
  obtain ⟨r, hr, heq⟩ := Option.map_eq_some_iff.1 hsome
  obtain ⟨rfl, hrest⟩ := Prod.mk.inj heq
  obtain ⟨rfl, rfl⟩ := Prod.mk.inj hrest
  obtain rfl := Option.some.inj hr
  obtain ⟨hsegments, hwork⟩ := IpcAccumQueue.get_spec hq
  exact ⟨h.accumulated hsegments rfl rfl rfl rfl, rfl, rfl, hwork, rfl⟩

/-! ### The router -/

/-- A step of the router. -/
theorem routed (h : Networked e as s t msgs) {router : RouterThread} {a : NetworkAnswer ι}
    (hview : a.sentView e = none) (hdel : ∀ j, a.delivery j = none)
    (hcarried : ∀ w ∈ (s.setRouter router d).carried t, w ∈ s.carried t)
    (hhand : router.nodes ≠ [] → router.seg.buf.data ∈ msgs.flatMap Prod.snd)
    (htargets : ∀ q ∈ router.nodes, ∃ b ∈ e.router.nodeQueues, q = IpcRouter.queue b)
    (hshape : ∀ name, (d name).msgSize = segMaxLen ∧ (d name).maxMsgs = ipcCommsQueueDepth)
    (hfull : router.seg.Full)
    (hway : ∀ j, (s.setRouter router d).way e t (networkDrops e j (as ++ [a])) j =
      s.way e t (networkDrops e j as) j) :
    Networked e (as ++ [a]) (s.setRouter router d) t msgs where
  sending := h.sending
  sources := h.sources
  sent := h.sent
  views := by
    rw [networkViews_concat, hview, h.views]
    exact (List.append_nil _).symm
  carried w hw := h.carried w (hcarried w hw)
  inHand := hhand
  targets := htargets
  shape := hshape
  recvSeg := h.recvSeg
  routerSeg := hfull
  delivering j := by
    rw [hway, networkDeliveries_concat, hdel]
    exact (List.append_nil (networkDeliveries j as)).symm ▸ h.delivering j

/-- What is in the queue of the router has been sent. -/
theorem mem_sent_of_router (h : Networked e as s t msgs) {w : List UInt8}
    (hw : w ∈ (s.queues routerDevice).msgs) : w ∈ msgs.flatMap Prod.snd :=
  h.carried w (Multiset.mem_add.2 (Or.inl (Multiset.mem_coe.2 hw)))

/-- The router thread, when it has no segment in its hand. -/
theorem route_spec (hconn : e.Connected) (h : Networked e as s t msgs) {a : NetworkAnswer ι}
    (hstep : networkStep e s .route = some (a, s')) :
    a = .routed ∧ s.router.nodes = [] ∧ ∃ b : RouterThread,
      s' = s.setRouter b (s.queues.pop routerDevice) ∧ b.seg.Full ∧
      b.seg.buf.data = (s.queues routerDevice).msgs.headD [] ∧
      b.nodes = ((s.queues routerDevice).msgs.head?.map fun w =>
        e.router.targets (.ofNat (wireGet w .dstAddr))).getD [] := by
  rw [networkStep] at hstep
  split_ifs at hstep with hnodes
  obtain ⟨rfl, rfl⟩ := Prod.mk.inj (Option.some.inj hstep)
  obtain ⟨hrv, hdata, hfull, henv⟩ := RouterThread.recv_spec hconn.waits h.routerSeg e.routerPools
    (h.shape routerDevice).1 fun w hw => (h.length_mem (h.mem_sent_of_router hw)).1
  set b := RouterThread.recv e.host e.routerPools s.router.seg s.queues with hb
  refine ⟨rfl, List.isEmpty_iff.1 hnodes, ⟨b.seg, if b.rv then e.router.targets (.ofNat b.seg.dstAddr)
    else []⟩, by rw [henv], hfull, hdata, ?_⟩
  rw [hrv]
  cases hmsgs : (s.queues routerDevice).msgs with
  | nil => rfl
  | cons w rest =>
      rw [hmsgs, List.headD_cons] at hdata
      have hlen := (h.length_mem (h.mem_sent_of_router (hmsgs ▸ List.mem_cons_self))).1
      have hget : b.seg.dstAddr = wireGet b.seg.buf.data .dstAddr := by
        refine get_eq_wireGet ?_ .dstAddr
        rw [← Buffer.length_data, hdata]
        exact hlen
      rw [hget, hdata]
      rfl

/-- **The router thread takes a segment from its queue**, and finds out where it goes. -/
theorem route (hconn : e.Connected) (h : Networked e as s t msgs) {a : NetworkAnswer ι}
    (hstep : networkStep e s .route = some (a, s')) : Networked e (as ++ [a]) s' t msgs := by
  obtain ⟨rfl, hidle, b, rfl, hfull, hdata, hnodes⟩ := h.route_spec hconn hstep
  have hcarried : s.carried t = ((s.queues routerDevice).msgs.head?.toList : Multiset (List UInt8)) +
      (s.setRouter b (s.queues.pop routerDevice)).carried t := by
    rw [IpcNetwork.carried, IpcNetwork.carried, ← add_assoc, Multiset.coe_add]
    refine congrArg (fun l : List (List UInt8) => (l : Multiset (List UInt8)) + _) ?_
    rw [IpcNetwork.setRouter_queues, MsgQueues.msgs_pop]
    cases (s.queues routerDevice).msgs <;> rfl
  have hinbox : ∀ j, (s.setRouter b (s.queues.pop routerDevice)).inbox e j = s.inbox e j := fun j =>
    congrArg (_ ++ ·) (congrArg MsgQueue.msgs (MsgQueues.pop_of_ne (hconn.ioDevice_ne j)))
  refine h.routed rfl (fun j => rfl) (fun w hw => ?_) (fun hne => ?_) (fun q hq => ?_) (h.shape_pop _)
    hfull fun j => ?_
  · rw [hcarried]
    exact Multiset.mem_add.2 (Or.inr hw)
  · cases hmsgs : (s.queues routerDevice).msgs with
    | nil =>
        rw [hmsgs] at hnodes
        exact absurd hnodes hne
    | cons w rest =>
        rw [hdata, hmsgs, List.headD_cons]
        exact h.mem_sent_of_router (hmsgs ▸ List.mem_cons_self)
  · rw [hnodes] at hq
    cases hmsgs : (s.queues routerDevice).msgs with
    | nil =>
        rw [hmsgs] at hq
        exact absurd hq List.not_mem_nil
    | cons w rest =>
        rw [hmsgs] at hq
        exact hconn.routes.mem_targets hq
  · rw [networkDrops_concat, IpcNetwork.way, IpcNetwork.way, hinbox, hcarried, Multiset.filter_add,
      IpcNetwork.inHand, IpcNetwork.inHand, IpcNetwork.setRouter_router, hidle, hnodes, hdata]
    cases hmsgs : (s.queues routerDevice).msgs with
    | nil => simp [NetworkAnswer.drop]
    | cons w rest =>
        simp only [List.head?_cons, Option.map_some, Option.getD_some, Option.toList_some,
          Multiset.coe_singleton, Multiset.filter_singleton, List.headD_cons,
          hconn.routes.filter_targets (hconn.registered j), isFor_wireGet]
        split_ifs <;> simp [NetworkAnswer.drop, add_assoc]

/-- The router thread, when it has a segment in its hand. -/
theorem forward_spec (hconn : e.Connected) (h : Networked e as s t msgs) {a : NetworkAnswer ι}
    (hstep : networkStep e s .forward = some (a, s')) :
    ∃ (nodes : List RouterQueue) (q : RouterQueue), s.router.nodes = nodes ++ [q] ∧
      a = .forwarded q s.router.seg.buf.data
        (decide ((s.queues q.ioDevice).Accepts s.router.seg.buf.data)) ∧
      s' = s.setRouter ⟨s.router.seg, nodes⟩ (s.queues.put q.ioDevice s.router.seg.buf.data) := by
  rw [networkStep] at hstep
  rcases List.eq_nil_or_concat s.router.nodes with hnil | ⟨nodes, q, hnodes⟩
  · rw [hnil] at hstep
    exact absurd hstep (by simp)
  · rw [List.concat_eq_append] at hnodes
    rw [hnodes, List.getLast?_concat] at hstep
    obtain ⟨rfl, rfl⟩ := Prod.mk.inj (Option.some.inj hstep)
    have hne : s.router.nodes ≠ [] := by
      rw [hnodes]
      exact List.append_ne_nil_of_right_ne_nil _ (List.cons_ne_nil _ _)
    obtain ⟨hlen, hmax, -⟩ := h.length_mem (h.inHand hne)
    rw [Buffer.length_data] at hlen hmax
    rw [RouterThread.send_spec hconn.waits hlen hmax, List.dropLast_concat]
    exact ⟨nodes, q, hnodes, rfl, rfl⟩

/-- **The router thread sends its segment to the next queue**, or gives it up if there is no room. -/
theorem forward (hconn : e.Connected) (h : Networked e as s t msgs) {a : NetworkAnswer ι}
    (hstep : networkStep e s .forward = some (a, s')) : Networked e (as ++ [a]) s' t msgs := by
  obtain ⟨nodes, q, hnodes, rfl, rfl⟩ := h.forward_spec hconn hstep
  have hq : q ∈ s.router.nodes := hnodes ▸ List.mem_append_right _ List.mem_cons_self
  have hhand := h.inHand (List.ne_nil_of_mem hq)
  obtain ⟨b, hb, rfl⟩ := h.targets q hq
  have hne : routerDevice ≠ (IpcRouter.queue b).ioDevice :=
    (IpcRouter.ioDevice_ne_routerDevice (hconn.routes.addr b hb).1).symm
  set d := s.queues.put (IpcRouter.queue b).ioDevice s.router.seg.buf.data with hd
  have hcarried : (s.setRouter ⟨s.router.seg, nodes⟩ d).carried t = s.carried t :=
    congrArg (fun q : MsgQueue => (q.msgs : Multiset (List UInt8)) + _) (MsgQueues.put_of_ne hne)
  refine h.routed rfl (fun j => rfl) (fun w hw => hcarried ▸ hw) (fun _ => hhand)
    (fun q' hq' => h.targets q' (hnodes ▸ List.mem_append_left _ hq')) (h.shape_put _ _) h.routerSeg
      fun j => ?_
  rw [networkDrops_concat, IpcNetwork.way, IpcNetwork.way, hcarried, IpcNetwork.inHand,
    IpcNetwork.inHand, hnodes, List.filter_append, List.map_append, drop_forwarded]
  by_cases hj : b = (e.node j).nodeAddr
  · subst hj
    rw [List.filter_cons_of_pos (by simp [IpcRouter.queue]), List.filter_nil, List.map_singleton]
    by_cases hacc : (s.queues (IpcRouter.queue (e.node j).nodeAddr).ioDevice).Accepts s.router.seg.buf.data
    · have hbox : (s.setRouter ⟨s.router.seg, nodes⟩ d).inbox e j =
          s.inbox e j ++ if j = j then [s.router.seg.buf.data] else [] := by
        refine IpcNetwork.inbox_put hconn (fun _ => ?_) ?_ hacc j <;> rfl
      rw [hbox, if_pos rfl, if_neg fun hno => of_decide_eq_false hno.1 hacc, Option.toList_none,
        List.append_nil, ← Multiset.coe_add, ← Multiset.coe_add, IpcNetwork.setRouter_router]
      abel
    · have hbox : (s.setRouter ⟨s.router.seg, nodes⟩ d).inbox e j = s.inbox e j := by
        rw [hd, MsgQueues.put_of_not hacc]
        rfl
      rw [hbox, if_pos ⟨decide_eq_false hacc, rfl⟩, Option.toList_some, ← Multiset.coe_add,
        ← Multiset.coe_add, IpcNetwork.setRouter_router]
      abel
  · have hdev : IpcRouter.ioDevice (e.node j).nodeAddr ≠ (IpcRouter.queue b).ioDevice := fun hc =>
      hj (IpcRouter.ioDevice_inj.1 hc).symm
    have hbox : (s.setRouter ⟨s.router.seg, nodes⟩ d).inbox e j = s.inbox e j :=
      congrArg (_ ++ ·) (congrArg MsgQueue.msgs (MsgQueues.put_of_ne hdev))
    rw [hbox, List.filter_cons_of_neg (by simpa using hdev.symm), List.filter_nil, List.map_nil,
      List.append_nil, if_neg fun hno => hdev hno.2.symm, Option.toList_none, List.append_nil]
    rfl

end Networked

end CodePort
