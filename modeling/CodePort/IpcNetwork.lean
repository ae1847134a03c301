/-
A network of nodes around a router.

The nodes send to the queue of the router, or to the queue of a node for which they have a direct send
device.  The router thread takes the segments from its queue, one at a time, and puts each into the queue
of the node that it is addressed to, or, if it is a broadcast, into the queues of all nodes, one after
another.  Every node has its transmit thread, its receive thread and its accumulator thread, and any
number of tasks that call the sending functions.  All of this goes on at the same time.

The queues have an end.  The transmit thread of a node cannot put a segment into a queue that is full,
and that case is left out here.  The router waits for a while, and then gives the segment up.  On a host
that looks at the deadlines of calls that need not wait nothing would be received, so the host is taken to
be one that does not.

Main definitions:

* `CodePort.NetworkEnds` — the nodes, the router and the host, with `Connected`, what connects them;
* `CodePort.nodeStep`, `networkStep` — **one step of any of the threads**;
* `CodePort.NetworkOp.Careful` — a segment is not sent to a queue that is full;
* `CodePort.networkViews`, `networkDeliveries`, `networkDrops` — what has been sent, delivered to a node,
  and given up by the router.

Main results:

* `CodePort.isFor_wireGet` — the router asks the octets of a segment whether it is for a node;
* `CodePort.NetworkEnds.Connected.isFor_iff` — a segment for one node is for no other one.
-/

import CodePort.IpcLink
import CodePort.IpcRouting

set_option relaxedAutoImplicit false
set_option autoImplicit false

namespace CodePort

open IpcSegment IpcAccumMap StepSystem

/-! ### The nodes and the router -/

/-- A node. -/
structure NodeEnds where
  le : Bool
  pools : MemPools
  xml : SerDesXml
  /-- The node has initialized successfully. -/
  valid : Bool
  nodeAddr : UInt32
  transport : IpcTransport MsgQueues

/-- The members of the node that its sending functions use. -/
def NodeEnds.node (e : NodeEnds) (q : IpcTransmitQueue) : SendNode := ⟨e.valid, e.nodeAddr.toNat, q⟩

/-- The message that a call of the node has sent. -/
def NodeEnds.sentView (e : NodeEnds) : LinkAnswer → Option MessageView
  | .sent call id =>
      if id = 0 then none
      else some (call.view e.le e.pools e.xml (e.node IpcTransmitQueue.construct) id)
  | _ => none

/-- The nodes of a network, and the router with its registry, on one host. -/
structure NetworkEnds (ι : Type*) where
  host : MqHost
  node : ι → NodeEnds
  /-- The memory of the router. -/
  routerPools : MemPools
  router : IpcRouter

variable {ι : Type*}

/-! ### Addresses -/

/-- A destination address is the one of a node, or that of all nodes. -/
def IsFor (a : UInt32) (dst : ℕ) : Prop := dst = a.toNat ∨ dst = broadcastAddr.toNat

instance (a : UInt32) (dst : ℕ) : Decidable (IsFor a dst) := inferInstanceAs (Decidable (_ ∨ _))

/-- The router asks the octets of a segment whether it is for a node. -/
theorem isFor_wireGet (a : UInt32) (w : List UInt8) :
    (UInt32.ofNat (wireGet w .dstAddr) = a ∨ UInt32.ofNat (wireGet w .dstAddr) = broadcastAddr) ↔
      IsFor a (wireGet w .dstAddr) := by
  have hlt : wireGet w .dstAddr < 2 ^ 32 := by
    have h := Octets.ofBE_lt (fieldAt w HeaderField.dstAddr.offset 4)
    rwa [fieldAt, List.takeD_length] at h
  rw [IsFor, ← UInt32.toNat_inj, ← UInt32.toNat_inj, UInt32.toNat_ofNat_of_lt' hlt]

/-- **What connects the nodes**: every node has an address of its own, for which the router has stored its
queue, and receives from that queue; it sends to the queue of the router, or to that of a node; there is
memory for segments; and the host looks at the deadline of a call only when that has to wait. -/
structure NetworkEnds.Connected (e : NetworkEnds ι) : Prop where
  waits : e.host.checksAlways = false
  addr_inj : ∀ i j, (e.node i).nodeAddr = (e.node j).nodeAddr → i = j
  routes : e.router.Routes
  registered : ∀ i, (e.node i).nodeAddr ∈ e.router.nodeQueues
  recvDevice : ∀ i, (e.node i).transport.ptrRecvDevice =
    some (queueDev e.host kReceiveTimeout (IpcRouter.ioDevice (e.node i).nodeAddr))
  sendDevice : ∀ i a,
    (e.node i).transport.sendDeviceGet a = some (queueDev e.host kInfiniteTimeout routerDevice) ∨
    ∃ j, a = (e.node j).nodeAddr.toNat ∧ (e.node i).transport.sendDeviceGet a =
      some (queueDev e.host kInfiniteTimeout (IpcRouter.ioDevice (e.node j).nodeAddr))
  nodeRoom : ∀ i, (e.node i).pools.blockSize segMaxLen ≠ none
  routerRoom : e.routerPools.blockSize segMaxLen ≠ none

namespace NetworkEnds.Connected

variable {e : NetworkEnds ι}

/-- A segment for one node is for no other one. -/
theorem isFor_iff (hconn : e.Connected) (j k : ι) :
    IsFor (e.node j).nodeAddr (e.node k).nodeAddr.toNat ↔ j = k := by
  rw [IsFor, UInt32.toNat_inj, UInt32.toNat_inj]
  constructor
  · rintro (heq | hall)
    · exact (hconn.addr_inj k j heq).symm
    · exact absurd hall (hconn.routes.addr _ (hconn.registered k)).2
  · rintro rfl
    exact Or.inl rfl

theorem ioDevice_ne (hconn : e.Connected) (j : ι) :
    IpcRouter.ioDevice (e.node j).nodeAddr ≠ routerDevice :=
  IpcRouter.ioDevice_ne_routerDevice (hconn.routes.addr _ (hconn.registered j)).1

theorem ioDevice_inj (hconn : e.Connected) {j k : ι} :
    IpcRouter.ioDevice (e.node j).nodeAddr = IpcRouter.ioDevice (e.node k).nodeAddr ↔ j = k :=
  IpcRouter.ioDevice_inj.trans ⟨hconn.addr_inj j k, fun h => h ▸ rfl⟩

end NetworkEnds.Connected

/-! ### The threads -/

/-- The threads of a node. -/
structure NetworkNode where
  /-- The transmit queue, and the calls in progress. -/
  transmit : TransmitState
  /-- The segment that `XmitThread` is about to send. -/
  xmit : Option SegPtr
  /-- How many segments `RecvThread` has created. -/
  created : ℕ
  /-- The segment that `RecvThread` receives into. -/
  pSeg : Option SegPtr
  /-- The incoming segment queue. -/
  accumQueue : IpcAccumQueue
  maps : IpcAccumMap

/-- A node that nobody has used. -/
def NetworkNode.construct : NetworkNode :=
  ⟨TransmitState.construct, none, 0, none, IpcAccumQueue.construct, IpcAccumMap.construct⟩

/-- `XmitThread` has handed its segment to the transport. -/
def NetworkNode.handOver (n : NetworkNode) : NetworkNode := { n with xmit := none }

/-- The threads of all nodes and of the router, and the message queues between them. -/
structure IpcNetwork (ι : Type*) where
  node : ι → NetworkNode
  router : RouterThread
  queues : MsgQueues

/-- A network that nobody has used. -/
def IpcNetwork.construct (e : NetworkEnds ι) : IpcNetwork ι :=
  ⟨fun _ => NetworkNode.construct, ⟨IpcSegment.construct e.routerPools, []⟩,
    fun _ => MsgQueue.construct segMaxLen ipcCommsQueueDepth⟩

/-- The steps of the threads. -/
inductive NetworkOp (ι : Type*)
  | node (i : ι) (o : LinkOp)
  /-- The router thread takes a segment from its queue, and finds out where it goes. -/
  | route
  /-- The router thread sends its segment to the next queue. -/
  | forward

/-- What a step answers. -/
inductive NetworkAnswer (ι : Type*)
  | node (i : ι) (a : LinkAnswer)
  | routed
  /-- The octets have been sent to a queue, which has accepted them or not. -/
  | forwarded (q : RouterQueue) (octets : List UInt8) (rv : Bool)

/-- One step of a thread of a node. -/
def nodeStep (e : NodeEnds) (n : NetworkNode) (d : MsgQueues) :
    LinkOp → Option (LinkAnswer × NetworkNode × MsgQueues)
  | .send call addr =>
      (call.run e.le e.pools e.xml (e.node n.transmit.queue) addr).map fun r =>
        (.sent call r.rv, { n with
          transmit := { n.transmit with
            queue := r.transmitQueue
            giving := if r.rv = 0 then n.transmit.giving else n.transmit.giving + 1 } }, d)
  | .give => (transmitStep n.transmit .give).map fun r => (.done, { n with transmit := r.2 }, d)
  | .take =>
      if n.transmit.getting = 0 ∧ n.xmit = none then
        (transmitStep n.transmit .take).map fun r => (.done, { n with transmit := r.2 }, d)
      else none
  | .get =>
      (transmitStep n.transmit .get).map fun r =>
        (.done, { n with transmit := r.2, xmit := r.1.received.head? }, d)
  | .xmit =>
      match n.xmit with
      | none => none
      | some p =>
          let a := (NodeTransport.standard e.transport).send e.pools (some p) d
          some (.done, n.handOver, a.env)
  | .recv =>
      if n.accumQueue.submitting = none then
        (recvLoop e.pools (.standard e.transport) ⟨n.created, n.pSeg, d⟩ ()).map fun r =>
          (.done, { n with
            created := r.2.created
            pSeg := r.2.pSeg
            accumQueue := n.accumQueue.receive r.1 }, r.2.env)
      else none
  | .submit putOk => (n.accumQueue.submit putOk).map fun q => (.done, { n with accumQueue := q }, d)
  | .accum now submitOk drained =>
      n.accumQueue.get.bind fun q =>
        (n.maps.accumStep ⟨some q.1, false, now, submitOk, drained⟩).map fun r =>
          (.delivered r.1.delivered, { n with accumQueue := q.2, maps := r.2 }, d)
  | .contexts contextMap => some (.done, { n with maps := { n.maps with contextMap := contextMap } }, d)

variable [DecidableEq ι]

/-- The threads of one node have come to another state, and the queues too. -/
def IpcNetwork.setNode (s : IpcNetwork ι) (i : ι) (n : NetworkNode) (d : MsgQueues) : IpcNetwork ι :=
  { s with node := Function.update s.node i n, queues := d }

@[simp] theorem IpcNetwork.setNode_node_self (s : IpcNetwork ι) (i : ι) (n : NetworkNode)
    (d : MsgQueues) : (s.setNode i n d).node i = n := Function.update_self _ _ _

@[simp] theorem IpcNetwork.setNode_queues (s : IpcNetwork ι) (i : ι) (n : NetworkNode)
    (d : MsgQueues) : (s.setNode i n d).queues = d := rfl

@[simp] theorem IpcNetwork.setNode_router (s : IpcNetwork ι) (i : ι) (n : NetworkNode)
    (d : MsgQueues) : (s.setNode i n d).router = s.router := rfl

theorem IpcNetwork.setNode_node_of_ne {i k : ι} (h : k ≠ i) (s : IpcNetwork ι) (n : NetworkNode)
    (d : MsgQueues) : (s.setNode i n d).node k = s.node k := Function.update_of_ne h _ _

/-- The router thread has come to another state, and the queues too. -/
def IpcNetwork.setRouter (s : IpcNetwork ι) (router : RouterThread) (d : MsgQueues) : IpcNetwork ι :=
  { s with router := router, queues := d }

omit [DecidableEq ι] in
@[simp] theorem IpcNetwork.setRouter_router (s : IpcNetwork ι) (router : RouterThread) (d : MsgQueues) :
    (s.setRouter router d).router = router := rfl

omit [DecidableEq ι] in
@[simp] theorem IpcNetwork.setRouter_queues (s : IpcNetwork ι) (router : RouterThread) (d : MsgQueues) :
    (s.setRouter router d).queues = d := rfl

/-- One step. -/
def networkStep (e : NetworkEnds ι) (s : IpcNetwork ι) :
    NetworkOp ι → Option (NetworkAnswer ι × IpcNetwork ι)
  | .node i o =>
      (nodeStep (e.node i) (s.node i) s.queues o).map fun r => (.node i r.1, s.setNode i r.2.1 r.2.2)
  | .route =>
      if s.router.nodes.isEmpty then
        let a := RouterThread.recv e.host e.routerPools s.router.seg s.queues
        some (.routed,
          s.setRouter ⟨a.seg, if a.rv then e.router.targets (.ofNat a.seg.dstAddr) else []⟩ a.env)
      else none
  | .forward =>
      -- the vector is emptied from its back
      match s.router.nodes.getLast? with
      | none => none
      | some q =>
          let a := RouterThread.send e.host q s.router.seg s.queues
          some (.forwarded q s.router.seg.buf.data a.1,
            s.setRouter ⟨s.router.seg, s.router.nodes.dropLast⟩ a.2)

/-! ### What is sent, delivered and given up -/

/-- The message that a step has sent. -/
def NetworkAnswer.sentView (e : NetworkEnds ι) : NetworkAnswer ι → Option MessageView
  | .node i a => (e.node i).sentView a
  | _ => none

/-- The context of a node and the message that a step has put into it. -/
def NetworkAnswer.delivery (j : ι) : NetworkAnswer ι → Option (ℕ × List SegPtr)
  | .node i a => if i = j then a.delivery else none
  | _ => none

/-- The octets for a node that the router has given up. -/
def NetworkAnswer.drop (e : NetworkEnds ι) (j : ι) : NetworkAnswer ι → Option (List UInt8)
  | .forwarded q octets false =>
      if q.ioDevice = IpcRouter.ioDevice (e.node j).nodeAddr then some octets else none
  | _ => none

omit [DecidableEq ι] in
theorem drop_forwarded (e : NetworkEnds ι) (j : ι) (q : RouterQueue) (octets : List UInt8) (rv : Bool) :
    NetworkAnswer.drop e j (.forwarded q octets rv) =
      if rv = false ∧ q.ioDevice = IpcRouter.ioDevice (e.node j).nodeAddr then some octets else none := by
  cases rv with
  | false => simp [NetworkAnswer.drop]
  | true => rfl

/-- The messages that have been sent, in the order of the calls. -/
def networkViews (e : NetworkEnds ι) (as : List (NetworkAnswer ι)) : List MessageView :=
  as.filterMap (NetworkAnswer.sentView e)

/-- What has been delivered to a node, in order. -/
def networkDeliveries (j : ι) (as : List (NetworkAnswer ι)) : List (ℕ × List SegPtr) :=
  as.filterMap (NetworkAnswer.delivery j)

/-- What the router has given up for a node. -/
def networkDrops (e : NetworkEnds ι) (j : ι) (as : List (NetworkAnswer ι)) : List (List UInt8) :=
  as.filterMap (NetworkAnswer.drop e j)

omit [DecidableEq ι] in
@[simp] theorem networkViews_concat (e : NetworkEnds ι) (as : List (NetworkAnswer ι))
    (a : NetworkAnswer ι) : networkViews e (as ++ [a]) = networkViews e as ++ (a.sentView e).toList := by
  rw [networkViews, List.filterMap_append, networkViews]
  cases h : a.sentView e <;> simp [h]

@[simp] theorem networkDeliveries_concat (j : ι) (as : List (NetworkAnswer ι)) (a : NetworkAnswer ι) :
    networkDeliveries j (as ++ [a]) = networkDeliveries j as ++ (a.delivery j).toList := by
  rw [networkDeliveries, List.filterMap_append, networkDeliveries]
  cases h : a.delivery j <;> simp [h]

omit [DecidableEq ι] in
@[simp] theorem networkDrops_concat (e : NetworkEnds ι) (j : ι) (as : List (NetworkAnswer ι))
    (a : NetworkAnswer ι) : networkDrops e j (as ++ [a]) = networkDrops e j as ++ (a.drop e j).toList := by
  rw [networkDrops, List.filterMap_append, networkDrops]
  cases h : a.drop e j <;> simp [h]

/-- `SubmitSegment` never gives up, and a call has proper arguments and a payload whose fragments a header
can number. -/
def NetworkOp.Sound (e : NetworkEnds ι) : NetworkOp ι → Prop
  | .node i (.send call _) =>
      call.Fits (e.node i).le (e.node i).pools (e.node i).xml ((e.node i).node IpcTransmitQueue.construct)
  | .node _ (.submit putOk) => putOk = true
  | _ => True

/-- The transport of a node takes the segment that it is given: the queue is not full. -/
def NetworkOp.Careful (e : NetworkEnds ι) (s : IpcNetwork ι) : NetworkOp ι → Prop
  | .node i .xmit => ∀ p ∈ (s.node i).xmit, ((e.node i).transport.send (some p) s.queues).rv = true
  | _ => True

instance (e : NetworkEnds ι) (s : IpcNetwork ι) (o : NetworkOp ι) : Decidable (o.Careful e s) := by
  cases o with
  | node i o =>
      cases o with
      | xmit =>
          exact inferInstanceAs (Decidable (∀ p ∈ (s.node i).xmit,
            ((e.node i).transport.send (some p) s.queues).rv = true))
      | send call addr => exact isTrue trivial
      | give => exact isTrue trivial
      | take => exact isTrue trivial
      | get => exact isTrue trivial
      | recv => exact isTrue trivial
      | submit putOk => exact isTrue trivial
      | accum now submitOk drained => exact isTrue trivial
      | contexts contextMap => exact isTrue trivial
  | route => exact isTrue trivial
  | forward => exact isTrue trivial

end CodePort
