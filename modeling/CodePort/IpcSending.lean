/-
The sending half of a node.

Any number of tasks call the sending functions of a node, and its transmit thread takes the segments
from the transmit queue, one at a time, and hands them to the transport.  What the transport makes of
them, a stream or the datagrams of a message queue, does not matter here: this is what a node owes to
any network behind it.

Main definitions:

* `CodePort.outgoing` — the octets that a node has still to hand to its transport;
* `CodePort.Sending` — **the invariant of the sending half**: the messages, with the message IDs from 1
  on, and the transmit queue that holds what is left of them;
* `CodePort.sendWork` — what the sending half has left to do.

Main results:

* `CodePort.Sending.queued` — a call adds a message with the next message ID;
* `CodePort.Sending.get` — the segment that the transmit thread gets has been waiting;
* `CodePort.Sending.progress` — **the transmit thread never stalls**.
-/

import CodePort.IpcDelivery
import CodePort.IpcSendCall

set_option relaxedAutoImplicit false
set_option autoImplicit false

namespace CodePort

open IpcSegment

/-- The octets of the segments of a message that wait in the transmit queue. -/
def Message.waitingWires (m : Message) : List (List UInt8) := (m.segments.drop m.out).map SegPtr.wire

/-- The octets that a node has still to hand to its transport: the segment that the transmit thread
holds, and what waits in the transmit queue. -/
def outgoing (x : Option SegPtr) (t : List Message) : List (List UInt8) :=
  x.toList.map SegPtr.wire ++ t.flatMap Message.waitingWires

/-- **The invariant of the sending half** of the node with an address: the transmit queue behaves like
the table `t`, the transmit thread holds the segment `x` if any, and `msgs` says what the messages of the
table say. -/
structure Sending (nodeAddr : ℕ) (u : TransmitState) (x : Option SegPtr) (t : List Message)
    (msgs : List SentMessage) : Prop where
  queues : Queues u t
  awake : Awake u
  turn : u.getting + x.toList.length ≤ 1
  counter : u.queue.msgId = t.length
  wires : msgs.map Prod.snd = t.map fun m => m.segments.map SegPtr.wire
  ids : msgs.map (fun y => (y.1.srcAddr, y.1.msgId)) =
    (List.range' 1 t.length).map fun id => (nodeAddr, id)

/-- What the sending half has left to do, when a segment that the transmit thread holds is worth `c`
steps. -/
def sendWork (c : ℕ) (u : TransmitState) (x : Option SegPtr) (t : List Message) : ℕ :=
  u.giving + (1 - u.getting) + (c + 2) * waitingCount t + c * x.toList.length

/-! ### The octets of a message -/

/-- The first segment of a message that waits is handed out. -/
theorem Message.waitingWires_eq_cons {m : Message} {p : SegPtr} (hp : m.chain[m.out]? = some p) :
    m.waitingWires = (p.setMsgId m.id).wire :: m.next.waitingWires := by
  have hget : m.segments[m.out]? = some (p.setMsgId m.id) := by
    rw [Message.segments, List.getElem?_map, hp, Option.map_some]
  obtain ⟨hlt, heq⟩ := List.getElem?_eq_some_iff.1 hget
  rw [Message.waitingWires, List.drop_eq_getElem_cons hlt, heq, List.map_cons]
  rfl

/-- The segments of a message that is put into the queue have its message ID. -/
theorem wires_segments {chain : List SegPtr} (hchain : IsChain chain) {v : MessageView}
    (hon : OnWire v (chain.map SegPtr.wire)) (id out : ℕ) :
    (Message.segments ⟨id, chain, out⟩).map SegPtr.wire = (chain.map SegPtr.wire).map (stamp id) := by
  rw [Message.segments, List.map_map, List.map_map]
  refine List.map_congr_left fun p hp => ?_
  exact SegPtr.wire_setMsgId (hchain.full p hp) (hon.length_mem.2 _ (List.mem_map_of_mem hp)).1 id

/-- A queue without entries has handed out all messages. -/
theorem Message.not_waiting_of_queueOf {t : List Message} (h : queueOf t = []) :
    ∀ m ∈ t, m.waiting = false := by
  rw [queueOf, List.map_eq_nil_iff] at h
  have hperm := StableInsert.perm_insertAll Message.priority (t.filter Message.waiting)
  rw [h, List.nil_perm] at hperm
  intro m hm
  simpa using List.filter_eq_nil_iff.1 hperm m hm

/-- What a call writes to its stream does not depend on the transmit queue. -/
theorem SendCall.payload_queue (le : Bool) (m : MemPools) (xml : SerDesXml) (node : SendNode)
    (q : IpcTransmitQueue) (call : SendCall) :
    call.payload le m xml { node with transmitQueue := q } = call.payload le m xml node := by
  cases call <;> rfl

theorem SendCall.view_queue (le : Bool) (m : MemPools) (xml : SerDesXml) (node : SendNode)
    (q : IpcTransmitQueue) (call : SendCall) (id : ℕ) :
    call.view le m xml { node with transmitQueue := q } id = call.view le m xml node id := by
  rw [view, view, call.payload_queue le m xml node q]

theorem SendCall.Fits.queue {le : Bool} {m : MemPools} {xml : SerDesXml} {node : SendNode}
    {call : SendCall} (h : call.Fits le m xml node) (q : IpcTransmitQueue) :
    call.Fits le m xml { node with transmitQueue := q } :=
  ⟨h.args, (call.payload_queue le m xml node q).symm ▸ h.count, h.stocked⟩

/-- A call that queues its message returns a message ID. -/
theorem SendCall.Queues.rv_ne_zero {le : Bool} {m : MemPools} {xml : SerDesXml} {node : SendNode}
    {call : SendCall} {r : SendResult} (h : call.Queues le m xml node r) : r.rv ≠ 0 := by
  obtain ⟨chain, v, hchain, -, -, hr⟩ := h
  obtain ⟨head, tail, rfl⟩ := List.exists_cons_of_ne_nil hchain.ne_nil
  obtain ⟨put, hput, rfl⟩ := Option.map_eq_some_iff.1 hr
  obtain ⟨chains, -, rfl⟩ := Option.map_eq_some_iff.1 hput
  exact (nextMsgId_pos _).ne'

/-- Two messages with one ID have one source and one number, when the numbers are those of 32 bits. -/
theorem MessageView.guid_inj {v w : MessageView} (hv : v.msgId < 2 ^ 32) (hw : w.msgId < 2 ^ 32)
    (h : v.guid = w.guid) : v.srcAddr = w.srcAddr ∧ v.msgId = w.msgId := by
  rw [MessageView.guid, MessageView.guid] at h
  omega

namespace Sending

variable {nodeAddr : ℕ} {u u' : TransmitState} {x : Option SegPtr} {t : List Message}
  {msgs : List SentMessage} {a : TransmitAnswer}

theorem construct (nodeAddr : ℕ) : Sending nodeAddr TransmitState.construct none [] [] where
  queues := queues_construct
  awake := awake_construct
  turn := Nat.zero_le 1
  counter := rfl
  wires := rfl
  ids := rfl

/-- The messages have the address of the node, and the message IDs up to their number. -/
theorem msgId_mem (h : Sending nodeAddr u x t msgs) {y : SentMessage} (hy : y ∈ msgs) :
    y.1.srcAddr = nodeAddr ∧ 1 ≤ y.1.msgId ∧ y.1.msgId ≤ t.length := by
  have hmem : (y.1.srcAddr, y.1.msgId) ∈ (List.range' 1 t.length).map fun id => (nodeAddr, id) :=
    h.ids ▸ List.mem_map_of_mem hy
  obtain ⟨id, hid, heq⟩ := List.mem_map.1 hmem
  obtain ⟨hsrc, hmsg⟩ := Prod.mk.inj heq
  have := List.mem_range'_1.1 hid
  omega

theorem length_eq (h : Sending nodeAddr u x t msgs) : msgs.length = t.length := by
  simpa using congrArg List.length h.wires

/-- A step of the transmit queue that hands nothing out, and answers nothing. -/
theorem quiet (h : Sending nodeAddr u x t msgs) {o : TransmitOp} (hsends : o.Sends)
    (hstep : transmitStep u o = some (a, u')) (hsame : ∀ t', Message.Step t o a t' → t' = t)
    (hid : u'.queue.msgId = u.queue.msgId) (hturn : u'.getting + x.toList.length ≤ 1) :
    Sending nodeAddr u' x t msgs := by
  obtain ⟨t', ht', hq⟩ := h.queues.step hsends hstep
  obtain rfl := hsame t' ht'
  exact
    { queues := hq
      awake := h.awake.step hstep
      turn := hturn
      counter := hid.trans h.counter
      wires := h.wires
      ids := h.ids }

/-- `TransmitMessage` signals the transmit thread. -/
theorem give (h : Sending nodeAddr u x t msgs) (hstep : transmitStep u .give = some (a, u')) :
    Sending nodeAddr u' x t msgs := by
  have hframe : u'.queue.msgId = u.queue.msgId ∧ u'.getting = u.getting := by
    rw [transmitStep] at hstep
    split_ifs at hstep
    obtain ⟨-, rfl⟩ := Prod.mk.inj (Option.some.inj hstep)
    exact ⟨rfl, rfl⟩
  refine h.quiet (o := .give) trivial hstep (fun t' ht' => ?_) hframe.1 (hframe.2 ▸ h.turn)
  cases ht'
  rfl

/-- The transmit thread, which holds no segment, takes the semaphore. -/
theorem take (h : Sending nodeAddr u none t msgs) (hget : u.getting = 0)
    (hstep : transmitStep u .take = some (a, u')) : Sending nodeAddr u' none t msgs := by
  obtain ⟨sem, -, hsem⟩ := Option.map_eq_some_iff.1 hstep
  obtain ⟨-, rfl⟩ := Prod.mk.inj hsem
  refine h.quiet (o := .take) trivial hstep (fun t' ht' => ?_) rfl ?_
  · cases ht'
    rfl
  · rw [hget]
    exact le_refl 1

/-- The transmit thread hands its segment to the transport. -/
theorem handOver (h : Sending nodeAddr u x t msgs) : Sending nodeAddr u none t msgs where
  queues := h.queues
  awake := h.awake
  turn := le_trans (Nat.add_le_add_left (Nat.zero_le _) _) h.turn
  counter := h.counter
  wires := h.wires
  ids := h.ids

/-- **The transmit thread gets a segment**: it has been waiting, and the thread has held none. -/
theorem get (h : Sending nodeAddr u x t msgs) (hstep : transmitStep u .get = some (a, u')) :
    ∃ t', x = none ∧ Sending nodeAddr u' a.received.head? t' msgs ∧
      (outgoing none t).Perm (outgoing a.received.head? t') ∧
      (u.queue.priorityQueue ≠ [] → ∀ c,
        sendWork c u' a.received.head? t' < sendWork c u none t) := by
  obtain ⟨t', ht', hq⟩ := h.queues.step (o := .get) trivial hstep
  have hturn := h.turn
  have hawake := h.awake.step hstep
  have hstep' := hstep
  rw [transmitStep] at hstep'
  split_ifs at hstep' with hpos
  obtain ⟨rfl, rfl⟩ := Prod.mk.inj (Option.some.inj hstep')
  have hnone : x = none := by
    cases x with
    | none => rfl
    | some p =>
        rw [Option.toList_some, List.length_singleton] at hturn
        omega
  subst hnone
  generalize hanswer : u.queue.segmentGet.1 = answer at ht'
  refine ⟨t', rfl, ?_⟩
  rw [Option.toList_none, List.length_nil] at hturn
  cases ht' with
  | @got t₁ m t₂ p hp hid hlt hle =>
      refine ⟨?_, ?_, fun _ c => ?_⟩
      · exact
          { queues := hq
            awake := hawake
            turn := by
              change u.getting - 1 + 1 ≤ 1
              omega
            counter := by
              rw [List.length_append, List.length_cons]
              exact h.counter.trans (by rw [List.length_append, List.length_cons])
            wires := by
              rw [h.wires, List.map_append, List.map_append, List.map_cons, List.map_cons]
              rfl
            ids := by
              rw [h.ids, List.length_append, List.length_append, List.length_cons, List.length_cons] }
      · simp only [outgoing, Option.toList_none, List.map_nil, List.nil_append, List.flatMap_append,
          List.flatMap_cons, Message.waitingWires_eq_cons hp, TransmitAnswer.received,
          List.head?_cons, Option.toList_some, List.map_cons, List.cons_append]
        exact List.perm_middle
      · simp only [sendWork, waitingCount_next hp, TransmitAnswer.received, List.head?_cons,
          Option.toList_some, Option.toList_none, List.length_cons, List.length_nil,
          Nat.mul_add, Nat.add_mul]
        omega
  | empty hall =>
      refine ⟨?_, List.Perm.refl _, fun hne => absurd (h.queues.queue_eq.trans ?_) hne⟩
      · exact
          { queues := hq
            awake := hawake
            turn := by
              change u.getting - 1 + 0 ≤ 1
              omega
            counter := h.counter
            wires := h.wires
            ids := h.ids }
      · rw [queueOf, List.filter_eq_nil_iff.2 fun m hm => by simp [hall m hm]]
        rfl

/-- **A message is put into the queue**: it gets the next message ID. -/
theorem queued {le : Bool} {m : MemPools} {xml : SerDesXml} {node : SendNode} {call : SendCall}
    {r : SendResult} (h : Sending node.nodeAddr u x t msgs) (hnode : node.transmitQueue = u.queue)
    (hq : call.Queues le m xml node r) (hlt : t.length + 1 < 2 ^ 32) :
    r.rv = t.length + 1 ∧ ∃ t' y, t'.length = t.length + 1 ∧ y.1 = call.view le m xml node r.rv ∧
      OnWire y.1 y.2 ∧ outgoing x t' = outgoing x t ++ y.2 ∧
      Sending node.nodeAddr { u with queue := r.transmitQueue, giving := u.giving + 1 } x t'
        (msgs ++ [y]) := by
  obtain ⟨chain, v, hchain, hon, hview, hr⟩ := hq
  obtain ⟨head, tail, rfl⟩ := List.exists_cons_of_ne_nil hchain.ne_nil
  obtain ⟨id, hid⟩ : ∃ id, IpcTransmitQueue.nextMsgId u.queue.msgId = id := ⟨_, rfl⟩
  obtain ⟨chains, hput, hrv, hrq⟩ : ∃ chains, u.queue.transmitMessage (head :: tail) =
      some (id, { u.queue with msgId := id, priorityQueue := chains }) ∧ r.rv = id ∧
      r.transmitQueue = { u.queue with msgId := id, priorityQueue := chains } := by
    rw [SendNode.transmitChain, hnode] at hr
    obtain ⟨put, hput, rfl⟩ := Option.map_eq_some_iff.1 hr
    obtain ⟨chains, -, rfl⟩ := Option.map_eq_some_iff.1 hput
    subst hid
    exact ⟨chains, hput, rfl, rfl⟩
  rw [hrv, hrq]
  -- the counter of the queue is the number of the messages
  have hnext : id = t.length + 1 := by
    rw [← hid, IpcTransmitQueue.nextMsgId, h.counter, Nat.mod_eq_of_lt hlt,
      if_neg (Nat.succ_ne_zero _)]
  set v' : TransmitState := { u with
    queue := { u.queue with msgId := id, priorityQueue := chains }
    giving := u.giving + 1 } with hv'
  have hstep : transmitStep u (.transmit (head :: tail)) = some (.sent id, v') := by
    rw [transmitStep, hput, Option.map_some, hv']
    rfl
  obtain ⟨t', ht', hqueues⟩ := h.queues.step (o := .transmit (head :: tail)) hchain hstep
  cases ht'
  -- the message
  set y : SentMessage := ({ v with msgId := id % 2 ^ 32 },
    (Message.segments ⟨id, head :: tail, 0⟩).map SegPtr.wire) with hy
  have hyview : y.1 = call.view le m xml node id := by
    rw [← hview id, hy, Nat.mod_eq_of_lt (by omega)]
  have hyon : OnWire y.1 y.2 := by
    rw [hy, wires_segments hchain hon]
    exact hon.setMsgId id
  have hyid : (y.1.srcAddr, y.1.msgId) = (node.nodeAddr, id) := by
    rw [hyview]
    rfl
  refine ⟨hnext, t ++ [⟨id, head :: tail, 0⟩], y, ?_, hyview, hyon, ?_, ?_⟩
  · rw [List.length_append, List.length_singleton]
  · simp only [outgoing, List.flatMap_append, List.flatMap_singleton, List.append_assoc]
    rfl
  · exact
      { queues := hqueues
        awake := h.awake.step hstep
        turn := h.turn
        counter := by
          rw [List.length_append, List.length_singleton]
          exact hnext
        wires := by
          rw [List.map_append, h.wires, List.map_append]
          rfl
        ids := by
          rw [List.map_append, h.ids, List.length_append, List.length_singleton, List.range'_concat,
            List.map_append, List.map_singleton, List.map_singleton, hyid, hnext, Nat.one_mul,
            Nat.add_comm] }

/-- The next message ID has not been used. -/
theorem guid_notMem (h : Sending nodeAddr u x t msgs) (hlt : t.length + 1 < 2 ^ 32)
    {v : MessageView} (hid : v.msgId = t.length + 1) :
    v.guid ∉ msgs.map fun y => y.1.guid := by
  intro hmem
  obtain ⟨y, hy, hg⟩ := List.mem_map.1 hmem
  obtain ⟨-, -, hle⟩ := h.msgId_mem hy
  have := (MessageView.guid_inj (by omega) (by omega) hg).2
  omega

/-! ### Progress -/

/-- Nothing is left to be sent when the queue is empty and the transmit thread holds nothing. -/
theorem outgoing_eq_nil (h : Sending nodeAddr u none t msgs) (hq : u.queue.priorityQueue = []) :
    outgoing none t = [] := by
  have hwait := Message.not_waiting_of_queueOf (h.queues.queue_eq.symm.trans hq)
  rw [outgoing, Option.toList_none, List.map_nil, List.nil_append, List.flatMap_eq_nil_iff]
  intro m hm
  have hlen : m.segments.length = m.chain.length := List.length_map _
  have hout : ¬ m.out < m.chain.length := fun hc =>
    Bool.false_ne_true ((hwait m hm).symm.trans (Message.waiting_iff.2 hc))
  rw [Message.waitingWires, List.drop_eq_nil_of_le (by omega), List.map_nil]

/-- **The transmit thread never stalls**: while messages wait, it can take the semaphore or get a segment,
or a call is about to signal it, and then there is less to do. -/
theorem progress (h : Sending nodeAddr u none t msgs) (hne : u.queue.priorityQueue ≠ []) :
    (u.getting = 0 ∧ ∃ u', transmitStep u .take = some (.done, u') ∧
        ∀ c, sendWork c u' none t < sendWork c u none t) ∨
      (∃ u', transmitStep u .give = some (.done, u') ∧
        ∀ c, sendWork c u' none t < sendWork c u none t) ∨
      ∃ a u', transmitStep u .get = some (a, u') := by
  by_cases hget : u.getting = 0
  · rcases h.awake.signalled hne with hcount | hgive | hpos
    · obtain ⟨sem, hsem⟩ := Option.ne_none_iff_exists'.1 (SemLite.take_ne_none hcount)
      refine .inl ⟨hget, { u with
        queue := { u.queue with semTransmit := sem }
        getting := u.getting + 1 }, ?_, fun c => ?_⟩
      · rw [transmitStep, hsem]
        rfl
      · simp only [sendWork]
        omega
    · refine .inr (.inl ⟨{ u with
        queue := { u.queue with semTransmit := u.queue.semTransmit.give.2 }
        giving := u.giving - 1 }, ?_, fun c => ?_⟩)
      · rw [transmitStep, if_pos hgive]
      · simp only [sendWork]
        omega
    · omega
  · refine .inr (.inr ⟨.got u.queue.segmentGet.1, { u with
      queue := u.queue.segmentGet.2
      getting := u.getting - 1 }, ?_⟩)
    rw [transmitStep, if_pos (Nat.pos_of_ne_zero hget)]

end Sending

end CodePort
