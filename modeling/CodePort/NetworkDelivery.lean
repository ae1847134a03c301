/-
The delivery in a network.

Every step of any of the threads keeps the invariant of the network.  When no thread has anything left to
do, the only segments that have not been accumulated are those that the router has given up, so a message
that is missing is one of them.  And as long as something is on its way, some thread can go on: what is
near its destination goes first, so that there is room in the queues.

Main definitions:

* `CodePort.IpcNetwork.Idle` — no thread has anything left to do;
* `CodePort.IpcNetwork.work` — how much they have left to do.

Main results:

* `CodePort.isNetworked_run` — the invariant holds after every run;
* `CodePort.Networked.progress` — some thread can go on, and gives nothing up;
* `CodePort.network_delivers` — **every message is delivered once to every node that it is for**, unless
  the router has given up a part of it.
-/

import CodePort.NetworkHops

set_option relaxedAutoImplicit false
set_option autoImplicit false

namespace CodePort

open IpcSegment IpcAccumMap StepSystem

variable {ι : Type*} [DecidableEq ι] [Fintype ι]

/-! ### Every step -/

/-- The network is in some state that the invariant allows. -/
def IsNetworked (e : NetworkEnds ι) (as : List (NetworkAnswer ι)) (s : IpcNetwork ι) : Prop :=
  ∃ t msgs, Networked e as s t msgs

namespace Networked

variable {e : NetworkEnds ι} {as : List (NetworkAnswer ι)} {s s' : IpcNetwork ι} {t : ι → List Message}
  {msgs : List SentMessage} {i : ι} {n : NetworkNode} {d : MsgQueues} {a : LinkAnswer}

/-- **A call of a sending function of a node**: it has put its message into the queue, or done nothing. -/
theorem send (hconn : e.Connected) (h : Networked e as s t msgs) {call : SendCall} {addr : ℕ → ℕ}
    (hfits : call.Fits (e.node i).le (e.node i).pools (e.node i).xml
      ((e.node i).node IpcTransmitQueue.construct))
    (hstep : nodeStep (e.node i) (s.node i) s.queues (.send call addr) = some (a, n, d))
    (hcount : (networkViews e (as ++ [.node i a])).length < 2 ^ 32) :
    IsNetworked e (as ++ [.node i a]) (s.setNode i n d) := by
  obtain ⟨r, hr, heq⟩ := Option.map_eq_some_iff.1 hstep
  obtain ⟨rfl, hrest⟩ := Prod.mk.inj heq
  obtain ⟨rfl, rfl⟩ := Prod.mk.inj hrest
  rcases SendCall.run_spec (hconn.nodeRoom i) (e.node i).nodeAddr.toNat_lt
    (hfits.queue (s.node i).transmit.queue) hr with rfl | hq
  · exact ⟨Function.update t i (t i), msgs, h.unsent (h.sending i) (.refl _) rfl rfl rfl rfl rfl⟩
  · exact h.queued hconn hq hcount

/-- Every step of a thread of a node keeps the invariant. -/
theorem node_step (hconn : e.Connected) (h : Networked e as s t msgs) {o : LinkOp}
    (hsound : (NetworkOp.node i o).Sound e) (hcareful : (NetworkOp.node i o).Careful e s)
    (hstep : nodeStep (e.node i) (s.node i) s.queues o = some (a, n, d))
    (hcount : (networkViews e (as ++ [.node i a])).length < 2 ^ 32) :
    IsNetworked e (as ++ [.node i a]) (s.setNode i n d) := by
  cases o with
  | send call addr => exact h.send hconn hsound hstep hcount
  | give => exact ⟨t, msgs, h.give hstep⟩
  | take => exact ⟨t, msgs, h.take hstep⟩
  | get =>
      obtain ⟨r, -, h', -⟩ := h.get hstep
      exact ⟨_, msgs, h'⟩
  | xmit => exact ⟨t, msgs, h.xmit hconn hcareful hstep⟩
  | recv => exact ⟨t, msgs, (h.recv hconn hstep).1⟩
  | submit putOk =>
      obtain rfl : putOk = true := hsound
      exact ⟨t, msgs, (h.submit hstep).1⟩
  | accum now submitOk drained => exact ⟨t, msgs, (h.accum hstep).1⟩
  | contexts contextMap => exact ⟨t, msgs, h.contexts hstep⟩

/-- **Every step keeps the invariant.** -/
theorem step (hconn : e.Connected) (h : Networked e as s t msgs) {o : NetworkOp ι}
    (hsound : o.Sound e) (hcareful : o.Careful e s) {a : NetworkAnswer ι}
    (hstep : networkStep e s o = some (a, s')) (hcount : (networkViews e (as ++ [a])).length < 2 ^ 32) :
    IsNetworked e (as ++ [a]) s' := by
  cases o with
  | node i o =>
      obtain ⟨⟨b, n, d⟩, hnode, heq⟩ := Option.map_eq_some_iff.1 hstep
      obtain ⟨rfl, rfl⟩ := Prod.mk.inj heq
      exact h.node_step hconn hsound hcareful hnode hcount
  | route => exact ⟨t, msgs, h.route hconn hstep⟩
  | forward => exact ⟨t, msgs, h.forward hconn hstep⟩

end Networked

theorem isNetworked_run {e : NetworkEnds ι} (hconn : e.Connected) {ops : List (NetworkOp ι)}
    {as : List (NetworkAnswer ι)} {s : IpcNetwork ι} (hops : ∀ o ∈ ops, o.Sound e)
    (hcareful : Meets (networkStep e) (fun s o => o.Careful e s) ops (IpcNetwork.construct e))
    (hrun : run (networkStep e) ops (IpcNetwork.construct e) = some (as, s))
    (hcount : (networkViews e as).length < 2 ^ 32) : IsNetworked e as s := by
  have hstep : ∀ {as : List (NetworkAnswer ι)} {s : IpcNetwork ι} {o : NetworkOp ι}
      {a : NetworkAnswer ι} {s' : IpcNetwork ι},
      ((networkViews e as).length < 2 ^ 32 → IsNetworked e as s) → o.Careful e s ∧ o.Sound e →
        networkStep e s o = some (a, s') →
          (networkViews e (as ++ [a])).length < 2 ^ 32 → IsNetworked e (as ++ [a]) s' := by
    intro as s o a s' hI ho hst hlt
    have hle : (networkViews e as).length < 2 ^ 32 := by
      rw [networkViews_concat, List.length_append] at hlt
      omega
    obtain ⟨t, msgs, h⟩ := hI hle
    exact h.step hconn ho.2 ho.1 hst hlt
  have hstart : (networkViews e []).length < 2 ^ 32 → IsNetworked e [] (IpcNetwork.construct e) :=
    fun _ => ⟨_, [], Networked.construct e hconn⟩
  exact run_history_of_meets
    (I := fun as s => (networkViews e as).length < 2 ^ 32 → IsNetworked e as s)
    hstep hstart hrun (hcareful.and_forall hops) hcount

/-! ### The end of the work -/

/-- No thread has anything left to do. -/
structure IpcNetwork.Idle (e : NetworkEnds ι) (s : IpcNetwork ι) : Prop where
  queue : ∀ i, (s.node i).transmit.queue.priorityQueue = []
  xmit : ∀ i, (s.node i).xmit = none
  routerQueue : (s.queues routerDevice).msgs = []
  nodes : s.router.nodes = []
  nodeQueue : ∀ i, (s.queues (IpcRouter.ioDevice (e.node i).nodeAddr)).msgs = []
  accumQueue : ∀ i, (s.node i).accumQueue.segments = []

/-- What is missing then has been given up. -/
theorem Networked.way_of_idle {e : NetworkEnds ι} {as : List (NetworkAnswer ι)} {s : IpcNetwork ι}
    {t : ι → List Message} {msgs : List SentMessage} (h : Networked e as s t msgs) (hidle : s.Idle e)
    (j : ι) : s.way e t (networkDrops e j as) j = (networkDrops e j as : Multiset (List UInt8)) := by
  have hout : ∀ i, outgoing (s.node i).xmit (t i) = [] := by
    intro i
    have hsending := h.sending i
    rw [hidle.xmit] at hsending ⊢
    exact hsending.outgoing_eq_nil (hidle.queue i)
  have hcarried : s.carried t = 0 := by
    rw [IpcNetwork.carried, hidle.routerQueue, Finset.sum_congr rfl fun i _ => by rw [hout i]]
    change 0 + ∑ i : ι, (0 : Multiset (List UInt8)) = 0
    rw [Finset.sum_const_zero, add_zero]
  rw [IpcNetwork.way, hcarried, IpcNetwork.inbox, IpcNetwork.inHand, hidle.accumQueue, hidle.nodeQueue,
    hidle.nodes]
  exact zero_add _

/-- A step that sends nothing, and in which no node gives anything up. -/
def NetworkOp.IsTurn : NetworkOp ι → Prop
  | .node _ o => o.IsTurn
  | _ => True

/-! ### Progress -/

namespace IpcNetwork

/-- How many queues the router may send a segment to. -/
def fanOut (e : NetworkEnds ι) : ℕ := e.router.nodeQueues.entries.length + 1

/-- What is left to do with the segments that a node has still to send. -/
def sendLeft (e : NetworkEnds ι) (s : IpcNetwork ι) (t : ι → List Message) : ℕ :=
  ∑ i, sendWork (5 * fanOut e + 2) (s.node i).transmit (s.node i).xmit (t i)

/-- What is left to do with the segments that have come to a node. -/
def boxWork (e : NetworkEnds ι) (s : IpcNetwork ι) (i : ι) : ℕ :=
  4 * (s.queues (IpcRouter.ioDevice (e.node i).nodeAddr)).msgs.length + (s.node i).accumQueue.work

/-- What the threads have left to do. -/
def work (e : NetworkEnds ι) (s : IpcNetwork ι) (t : ι → List Message) : ℕ :=
  s.sendLeft e t + (5 * fanOut e + 1) * (s.queues routerDevice).msgs.length + 5 * s.router.nodes.length +
    ∑ i, s.boxWork e i

variable {e : NetworkEnds ι} {s s' : IpcNetwork ι} {t : ι → List Message} {i : ι} {n : NetworkNode}
  {d : MsgQueues} {r : List Message}

theorem sendLeft_setNode (e : NetworkEnds ι) (s : IpcNetwork ι) (t : ι → List Message) (i : ι)
    (n : NetworkNode) (d : MsgQueues) (r : List Message) :
    (s.setNode i n d).sendLeft e (Function.update t i r) +
        sendWork (5 * fanOut e + 2) (s.node i).transmit (s.node i).xmit (t i) =
      s.sendLeft e t + sendWork (5 * fanOut e + 2) n.transmit n.xmit r := by
  have hsum := sum_add_eq_sum_add (t := i)
    (f := fun k => sendWork (5 * fanOut e + 2) (s.node k).transmit (s.node k).xmit (t k))
    (g := fun k => sendWork (5 * fanOut e + 2) ((s.setNode i n d).node k).transmit
      ((s.setNode i n d).node k).xmit (Function.update t i r k)) fun k hk => by
        rw [setNode_node_of_ne hk, Function.update_of_ne hk]
  simp only [setNode_node_self, Function.update_self] at hsum
  exact hsum

/-- A node that has the same segments to send as before. -/
theorem sendLeft_setNode_of_eq (htransmit : n.transmit = (s.node i).transmit)
    (hxmit : n.xmit = (s.node i).xmit) : (s.setNode i n d).sendLeft e t = s.sendLeft e t := by
  have h := sendLeft_setNode e s t i n d (t i)
  rw [htransmit, hxmit, Function.update_eq_self] at h
  exact Nat.add_right_cancel h

omit [Fintype ι] in
theorem boxWork_setNode (e : NetworkEnds ι) (hn : n.accumQueue.work = (s.node i).accumQueue.work)
    (d : MsgQueues) (k : ι) : (s.setNode i n d).boxWork e k =
      4 * (d (IpcRouter.ioDevice (e.node k).nodeAddr)).msgs.length + (s.node k).accumQueue.work := by
  rw [boxWork, apply_setNode (fun n => n.accumQueue.work) hn, setNode_queues]

/-- A node that has less to send. -/
theorem work_setNode_lt (hn : n.accumQueue.work = (s.node i).accumQueue.work)
    (hless : sendWork (5 * fanOut e + 2) n.transmit n.xmit r <
      sendWork (5 * fanOut e + 2) (s.node i).transmit (s.node i).xmit (t i)) :
    (s.setNode i n s.queues).work e (Function.update t i r) < s.work e t := by
  have hsend := sendLeft_setNode e s t i n s.queues r
  rw [work, work, setNode_queues, setNode_router,
    Finset.sum_congr rfl fun k _ => boxWork_setNode e hn s.queues k]
  change _ + ∑ k, s.boxWork e k < _
  omega

/-- One node has got other segments. -/
theorem sum_boxWork (h : ∀ k, k ≠ i → s'.boxWork e k = s.boxWork e k) :
    ∑ k, s'.boxWork e k + s.boxWork e i = ∑ k, s.boxWork e k + s'.boxWork e i :=
  sum_add_eq_sum_add h

end IpcNetwork

namespace Networked

variable {e : NetworkEnds ι} {as : List (NetworkAnswer ι)} {s : IpcNetwork ι} {t : ι → List Message}
  {msgs : List SentMessage} {i : ι}

/-- What a thread that can go on does: it gives nothing up, and then there is less to do. -/
def GoesOn (e : NetworkEnds ι) (as : List (NetworkAnswer ι)) (s : IpcNetwork ι) (t : ι → List Message)
    (msgs : List SentMessage) : Prop :=
  ∃ (o : NetworkOp ι) (a : NetworkAnswer ι) (s' : IpcNetwork ι) (t' : ι → List Message),
    o.IsTurn ∧ o.Careful e s ∧ networkStep e s o = some (a, s') ∧ (∀ j, a.drop e j = none) ∧
      Networked e (as ++ [a]) s' t' msgs ∧ s'.work e t' < s.work e t

/-- A step of a thread of a node. -/
theorem goesOn_node {o : LinkOp} {a : LinkAnswer} {n : NetworkNode} {d : MsgQueues} {t' : ι → List Message}
    (hturn : (NetworkOp.node i o).IsTurn) (hcareful : (NetworkOp.node i o).Careful e s)
    (hstep : nodeStep (e.node i) (s.node i) s.queues o = some (a, n, d))
    (h : Networked e (as ++ [.node i a]) (s.setNode i n d) t' msgs)
    (hless : (s.setNode i n d).work e t' < s.work e t) : GoesOn e as s t msgs :=
  ⟨.node i o, .node i a, s.setNode i n d, t', hturn, hcareful, by rw [networkStep, hstep]; rfl,
    fun _ => rfl, h, hless⟩

/-- A step of a node that leaves the queues alone and has less to do with what has come to the node. -/
theorem goesOn_inbox {o : LinkOp} {a : LinkAnswer} {n : NetworkNode}
    (hturn : (NetworkOp.node i o).IsTurn) (hcareful : (NetworkOp.node i o).Careful e s)
    (hstep : nodeStep (e.node i) (s.node i) s.queues o = some (a, n, s.queues))
    (h : Networked e (as ++ [.node i a]) (s.setNode i n s.queues) t msgs)
    (htransmit : n.transmit = (s.node i).transmit) (hxmit : n.xmit = (s.node i).xmit)
    (hless : n.accumQueue.work < (s.node i).accumQueue.work) : GoesOn e as s t msgs := by
  refine goesOn_node hturn hcareful hstep h ?_
  have hsum : ∑ k, (s.setNode i n s.queues).boxWork e k + s.boxWork e i =
      ∑ k, s.boxWork e k + (s.setNode i n s.queues).boxWork e i :=
    IpcNetwork.sum_boxWork fun k hk => by
      rw [IpcNetwork.boxWork, IpcNetwork.setNode_node_of_ne hk]
      rfl
  have hbox : (s.setNode i n s.queues).boxWork e i < s.boxWork e i := by
    simp only [IpcNetwork.boxWork, IpcNetwork.setNode_node_self, IpcNetwork.setNode_queues]
    omega
  rw [IpcNetwork.work, IpcNetwork.work, IpcNetwork.sendLeft_setNode_of_eq htransmit hxmit,
    IpcNetwork.setNode_queues, IpcNetwork.setNode_router]
  omega

/-- The accumulator thread, or the receive thread with its segment, can go on. -/
theorem goesOn_accum (h : Networked e as s t msgs) (hq : (s.node i).accumQueue.segments ≠ []) :
    GoesOn e as s t msgs := by
  rcases IpcAccumQueue.exists_turn hq with ⟨p, q, hget⟩ | ⟨q, hsubmit⟩
  · obtain ⟨a, n, d, hstep⟩ : ∃ a n d,
        nodeStep (e.node i) (s.node i) s.queues (.accum 0 true 0) = some (a, n, d) := by
      rw [nodeStep, hget]
      exact ⟨_, _, _, rfl⟩
    obtain ⟨h', htransmit, hxmit, hwork, rfl⟩ := h.accum hstep
    exact goesOn_inbox (o := .accum 0 true 0) trivial trivial hstep h' htransmit hxmit (by omega)
  · obtain ⟨a, n, d, hstep⟩ : ∃ a n d,
        nodeStep (e.node i) (s.node i) s.queues (.submit true) = some (a, n, d) := by
      rw [nodeStep, hsubmit]
      exact ⟨_, _, _, rfl⟩
    obtain ⟨h', htransmit, hxmit, hwork, rfl⟩ := h.submit hstep
    exact goesOn_inbox (o := .submit true) rfl trivial hstep h' htransmit hxmit (by omega)

/-- A receive thread can go on. -/
theorem goesOn_recv (hconn : e.Connected) (h : Networked e as s t msgs)
    (hfree : (s.node i).accumQueue.submitting = none)
    (hq : (s.queues (IpcRouter.ioDevice (e.node i).nodeAddr)).msgs ≠ []) : GoesOn e as s t msgs := by
  obtain ⟨a, n, d, hstep⟩ : ∃ a n d,
      nodeStep (e.node i) (s.node i) s.queues .recv = some (a, n, d) := by
    rw [nodeStep, if_pos hfree]
    exact ⟨_, _, _, rfl⟩
  obtain ⟨h', htransmit, hxmit, hwork, rfl⟩ := h.recv hconn hstep
  refine goesOn_node (o := .recv) trivial trivial hstep h' ?_
  have hsum : ∑ k, (s.setNode i n (s.queues.pop (IpcRouter.ioDevice (e.node i).nodeAddr))).boxWork e k +
      s.boxWork e i = ∑ k, s.boxWork e k +
        (s.setNode i n (s.queues.pop (IpcRouter.ioDevice (e.node i).nodeAddr))).boxWork e i :=
    IpcNetwork.sum_boxWork fun k hk => by
      rw [IpcNetwork.boxWork, IpcNetwork.setNode_node_of_ne hk, IpcNetwork.setNode_queues,
        MsgQueues.pop_of_ne (mt hconn.ioDevice_inj.1 hk)]
      rfl
  have hbox : (s.setNode i n (s.queues.pop (IpcRouter.ioDevice (e.node i).nodeAddr))).boxWork e i + 1 =
      s.boxWork e i := by
    obtain ⟨w, rest, hmsgs⟩ := List.exists_cons_of_ne_nil hq
    simp only [IpcNetwork.boxWork, IpcNetwork.setNode_node_self, IpcNetwork.setNode_queues,
      MsgQueues.msgs_pop, hwork, hmsgs, List.tail_cons, List.take_succ_cons, List.take_zero,
      List.length_cons, List.length_nil]
    omega
  rw [IpcNetwork.work, IpcNetwork.work, IpcNetwork.sendLeft_setNode_of_eq htransmit hxmit,
    IpcNetwork.setNode_queues, IpcNetwork.setNode_router, MsgQueues.pop_of_ne (hconn.ioDevice_ne i).symm]
  omega

/-- A queue that is empty accepts a segment. -/
theorem accepts_of_nil (h : Networked e as s t msgs) {name w : List UInt8}
    (hmsgs : (s.queues name).msgs = []) (hw : w ∈ msgs.flatMap Prod.snd) : (s.queues name).Accepts w := by
  obtain ⟨hsize, hdepth⟩ := h.shape name
  refine ⟨hsize ▸ (h.length_mem hw).2.1, ?_⟩
  rw [hmsgs, hdepth]
  decide

/-- The router thread can go on with the segment in its hand, when the queues of the nodes are empty. -/
theorem goesOn_forward (hconn : e.Connected) (h : Networked e as s t msgs)
    (hempty : ∀ i, (s.queues (IpcRouter.ioDevice (e.node i).nodeAddr)).msgs = [])
    (hnodes : s.router.nodes ≠ []) : GoesOn e as s t msgs := by
  obtain ⟨a, s', hstep⟩ : ∃ a s', networkStep e s .forward = some (a, s') := by
    rw [networkStep, List.getLast?_eq_getLast_of_ne_nil hnodes]
    exact ⟨_, _, rfl⟩
  have h' := h.forward hconn hstep
  obtain ⟨nodes, q, hq, rfl, rfl⟩ := h.forward_spec hconn hstep
  refine ⟨.forward, _, _, t, trivial, trivial, hstep, fun j => ?_, h', ?_⟩
  · rw [drop_forwarded, if_neg]
    rintro ⟨hno, hdev⟩
    exact of_decide_eq_false hno (h.accepts_of_nil (hdev ▸ hempty j) (h.inHand hnodes))
  · obtain ⟨b, hb, rfl⟩ := h.targets q (hq ▸ List.mem_append_right _ List.mem_cons_self)
    set d := s.queues.put (IpcRouter.queue b).ioDevice s.router.seg.buf.data with hd
    have hne : routerDevice ≠ (IpcRouter.queue b).ioDevice :=
      (IpcRouter.ioDevice_ne_routerDevice (hconn.routes.addr b hb).1).symm
    have hother : ∀ k, (e.node k).nodeAddr ≠ b →
        (s.setRouter ⟨s.router.seg, nodes⟩ d).boxWork e k = s.boxWork e k := by
      intro k hk
      have hdev : IpcRouter.ioDevice (e.node k).nodeAddr ≠ (IpcRouter.queue b).ioDevice := fun hc =>
        hk (IpcRouter.ioDevice_inj.1 hc)
      rw [IpcNetwork.boxWork, IpcNetwork.setRouter_queues, hd, MsgQueues.put_of_ne hdev]
      rfl
    -- at most one node gets the segment
    have hboxes : ∑ k, (s.setRouter ⟨s.router.seg, nodes⟩ d).boxWork e k ≤ ∑ k, s.boxWork e k + 4 := by
      by_cases hnode : ∃ i, (e.node i).nodeAddr = b
      · obtain ⟨i, rfl⟩ := hnode
        have hsum : ∑ k, (s.setRouter ⟨s.router.seg, nodes⟩ d).boxWork e k + s.boxWork e i =
            ∑ k, s.boxWork e k + (s.setRouter ⟨s.router.seg, nodes⟩ d).boxWork e i :=
          IpcNetwork.sum_boxWork fun k hk => hother k fun heq => hk (hconn.addr_inj k i heq)
        have hlen := MsgQueues.length_put_le s.queues (IpcRouter.queue (e.node i).nodeAddr).ioDevice
          s.router.seg.buf.data (IpcRouter.ioDevice (e.node i).nodeAddr)
        have hbox : (s.setRouter ⟨s.router.seg, nodes⟩ d).boxWork e i ≤ s.boxWork e i + 4 := by
          change 4 * _ + (s.node i).accumQueue.work ≤ 4 * _ + (s.node i).accumQueue.work + 4
          rw [IpcNetwork.setRouter_queues, hd]
          omega
        omega
      · rw [Finset.sum_congr rfl fun k _ => hother k fun heq => hnode ⟨k, heq⟩]
        exact Nat.le_add_right _ _
    have hsend : (s.setRouter ⟨s.router.seg, nodes⟩ d).sendLeft e t = s.sendLeft e t := rfl
    rw [IpcNetwork.work, IpcNetwork.work, hsend, IpcNetwork.setRouter_queues, IpcNetwork.setRouter_router,
      hd, MsgQueues.put_of_ne hne, ← hd, hq, List.length_append, List.length_singleton]
    dsimp only
    omega

/-- The router thread can go on with the next segment in its queue. -/
theorem goesOn_route (hconn : e.Connected) (h : Networked e as s t msgs) (hnodes : s.router.nodes = [])
    (hq : (s.queues routerDevice).msgs ≠ []) : GoesOn e as s t msgs := by
  obtain ⟨a, s', hstep⟩ : ∃ a s', networkStep e s .route = some (a, s') := by
    rw [networkStep, hnodes]
    exact ⟨_, _, rfl⟩
  have h' := h.route hconn hstep
  obtain ⟨rfl, -, b, rfl, -, -, hb⟩ := h.route_spec hconn hstep
  refine ⟨.route, _, _, t, trivial, trivial, hstep, fun j => rfl, h', ?_⟩
  obtain ⟨w, rest, hmsgs⟩ := List.exists_cons_of_ne_nil hq
  have hlen : b.nodes.length ≤ IpcNetwork.fanOut e := by
    rw [hb, hmsgs]
    exact IpcRouter.Routes.length_targets_le _ _
  have hboxes : ∑ k, (s.setRouter b (s.queues.pop routerDevice)).boxWork e k = ∑ k, s.boxWork e k :=
    Finset.sum_congr rfl fun k _ =>
      congrArg (fun q : MsgQueue => 4 * q.msgs.length + (s.node k).accumQueue.work)
        (MsgQueues.pop_of_ne (hconn.ioDevice_ne k))
  have hsend : (s.setRouter b (s.queues.pop routerDevice)).sendLeft e t = s.sendLeft e t := rfl
  rw [IpcNetwork.work, IpcNetwork.work, hsend, IpcNetwork.setRouter_queues, IpcNetwork.setRouter_router,
    MsgQueues.msgs_pop, hmsgs, hnodes, List.tail_cons, List.length_cons,
    hboxes, Nat.mul_add, List.length_nil]
  omega

/-- A transmit thread can go on with the segment that it holds, when the queues are empty. -/
theorem goesOn_xmit (hconn : e.Connected) (h : Networked e as s t msgs)
    (hrouter : (s.queues routerDevice).msgs = [])
    (hempty : ∀ i, (s.queues (IpcRouter.ioDevice (e.node i).nodeAddr)).msgs = []) {p : SegPtr}
    (hx : (s.node i).xmit = some p) : GoesOn e as s t msgs := by
  obtain ⟨name, hname, hrv, hstep⟩ := h.xmit_spec hconn hx
  have hmsgs : (s.queues name).msgs = [] := by
    rcases hname with rfl | ⟨k, rfl, -⟩
    · exact hrouter
    · exact hempty k
  have hacc := h.accepts_of_nil hmsgs (h.carried _ (mem_carried hx))
  have hcareful : (NetworkOp.node i .xmit).Careful e s := by
    intro q hq
    obtain rfl := Option.some.inj (hx.symm.trans hq)
    exact hrv.trans (decide_eq_true hacc)
  refine goesOn_node (o := .xmit) trivial hcareful hstep (h.xmit hconn hcareful hstep) ?_
  have hsend := IpcNetwork.sendLeft_setNode e s t i (s.node i).handOver (s.queues.put name p.wire) (t i)
  rw [Function.update_eq_self] at hsend
  have hless : sendWork (5 * IpcNetwork.fanOut e + 2) (s.node i).handOver.transmit
      (s.node i).handOver.xmit (t i) + (5 * IpcNetwork.fanOut e + 2) =
        sendWork (5 * IpcNetwork.fanOut e + 2) (s.node i).transmit (s.node i).xmit (t i) := by
    rw [hx]
    simp only [sendWork, NetworkNode.handOver, Option.toList_none, Option.toList_some, List.length_nil,
      List.length_singleton]
    omega
  have haccum : (s.node i).handOver.accumQueue.work = (s.node i).accumQueue.work := rfl
  have hlen := MsgQueues.length_put_le s.queues name p.wire name
  rw [IpcNetwork.work, IpcNetwork.work, IpcNetwork.setNode_queues, IpcNetwork.setNode_router]
  rcases hname with rfl | ⟨k, rfl, -⟩
  · have hboxes : ∑ k, (s.setNode i (s.node i).handOver (s.queues.put routerDevice p.wire)).boxWork e k =
        ∑ k, s.boxWork e k :=
      Finset.sum_congr rfl fun k _ => by
        rw [IpcNetwork.boxWork_setNode e haccum, MsgQueues.put_of_ne (hconn.ioDevice_ne k)]
        rfl
    rw [hmsgs, List.length_nil] at hlen ⊢
    have hmul := Nat.mul_le_mul_left (5 * IpcNetwork.fanOut e + 1) hlen
    omega
  · set d := s.queues.put (IpcRouter.ioDevice (e.node k).nodeAddr) p.wire with hd
    have hsum : ∑ l, (s.setNode i (s.node i).handOver d).boxWork e l + s.boxWork e k =
        ∑ l, s.boxWork e l + (s.setNode i (s.node i).handOver d).boxWork e k :=
      IpcNetwork.sum_boxWork fun l hl => by
        rw [IpcNetwork.boxWork_setNode e haccum, hd, MsgQueues.put_of_ne (mt hconn.ioDevice_inj.1 hl)]
        rfl
    have hbox : (s.setNode i (s.node i).handOver d).boxWork e k ≤ s.boxWork e k + 4 := by
      rw [IpcNetwork.boxWork_setNode e haccum, IpcNetwork.boxWork]
      omega
    have hpos : 0 < IpcNetwork.fanOut e := Nat.succ_pos _
    rw [hd, MsgQueues.put_of_ne (hconn.ioDevice_ne k).symm, ← hd]
    omega

/-- A step of the transmit queue of a node that hands nothing out. -/
theorem goesOn_transmit {o : LinkOp} {u : TransmitState} (hturn : (NetworkOp.node i o).IsTurn)
    (hcareful : (NetworkOp.node i o).Careful e s)
    (hstep : nodeStep (e.node i) (s.node i) s.queues o =
      some (.done, { s.node i with transmit := u }, s.queues))
    (h : Networked e (as ++ [.node i .done]) (s.setNode i { s.node i with transmit := u } s.queues) t msgs)
    (hless : sendWork (5 * IpcNetwork.fanOut e + 2) u (s.node i).xmit (t i) <
      sendWork (5 * IpcNetwork.fanOut e + 2) (s.node i).transmit (s.node i).xmit (t i)) :
    GoesOn e as s t msgs := by
  have hwork := IpcNetwork.work_setNode_lt (n := { s.node i with transmit := u }) rfl hless
  rw [Function.update_eq_self] at hwork
  exact goesOn_node hturn hcareful hstep h hwork

/-- A transmit thread can go on with its queue. -/
theorem goesOn_queue (h : Networked e as s t msgs) (hx : (s.node i).xmit = none)
    (hq : (s.node i).transmit.queue.priorityQueue ≠ []) : GoesOn e as s t msgs := by
  have hsending := h.sending i
  rw [hx] at hsending
  rcases hsending.progress hq with ⟨hget, u, hu, hless⟩ | ⟨u, hu, hless⟩ | ⟨b, u, hu⟩
  · have hstep : nodeStep (e.node i) (s.node i) s.queues .take =
        some (.done, { s.node i with transmit := u }, s.queues) := by
      rw [nodeStep, if_pos ⟨hget, hx⟩, hu, Option.map_some]
    exact goesOn_transmit (o := .take) trivial trivial hstep (h.take hstep) (by rw [hx]; exact hless _)
  · have hstep : nodeStep (e.node i) (s.node i) s.queues .give =
        some (.done, { s.node i with transmit := u }, s.queues) := by
      rw [nodeStep, hu, Option.map_some]
    exact goesOn_transmit (o := .give) trivial trivial hstep (h.give hstep) (by rw [hx]; exact hless _)
  · have hstep : nodeStep (e.node i) (s.node i) s.queues .get = some (.done, { s.node i with
        transmit := u
        xmit := b.received.head? }, s.queues) := by
      rw [nodeStep, hu, Option.map_some]
    obtain ⟨r, -, h', hless⟩ := h.get hstep
    have hlt := hless hq (5 * IpcNetwork.fanOut e + 2)
    rw [← hx] at hlt
    exact goesOn_node (o := .get) trivial trivial hstep h' (IpcNetwork.work_setNode_lt rfl hlt)

/-- **Some thread can go on** as long as something is on its way. -/
theorem progress (hconn : e.Connected) (h : Networked e as s t msgs) (hbusy : ¬ s.Idle e) :
    GoesOn e as s t msgs := by
  by_cases haccum : ∃ i, (s.node i).accumQueue.segments ≠ []
  · obtain ⟨i, hi⟩ := haccum
    exact h.goesOn_accum hi
  have hdone : ∀ i, (s.node i).accumQueue.segments = [] := fun i =>
    not_not.1 fun hne => haccum ⟨i, hne⟩
  by_cases hqueue : ∃ i, (s.queues (IpcRouter.ioDevice (e.node i).nodeAddr)).msgs ≠ []
  · obtain ⟨i, hi⟩ := hqueue
    exact h.goesOn_recv hconn (IpcAccumQueue.submitting_eq_none (hdone i)) hi
  have hempty : ∀ i, (s.queues (IpcRouter.ioDevice (e.node i).nodeAddr)).msgs = [] := fun i =>
    not_not.1 fun hne => hqueue ⟨i, hne⟩
  by_cases hnodes : s.router.nodes = []
  swap
  · exact h.goesOn_forward hconn hempty hnodes
  by_cases hrouter : (s.queues routerDevice).msgs = []
  swap
  · exact h.goesOn_route hconn hnodes hrouter
  by_cases hxmit : ∃ i p, (s.node i).xmit = some p
  · obtain ⟨i, p, hx⟩ := hxmit
    exact h.goesOn_xmit hconn hrouter hempty hx
  have hnone : ∀ i, (s.node i).xmit = none := fun i =>
    Option.eq_none_iff_forall_ne_some.2 fun p hp => hxmit ⟨i, p, hp⟩
  by_cases hpriority : ∃ i, (s.node i).transmit.queue.priorityQueue ≠ []
  · obtain ⟨i, hi⟩ := hpriority
    exact h.goesOn_queue (hnone i) hi
  exact absurd ⟨fun i => not_not.1 fun hne => hpriority ⟨i, hne⟩, hnone, hrouter, hnodes, hempty, hdone⟩ hbusy

end Networked

/-- **The threads can finish**, and give nothing up: some turns bring the network to a state in which no
thread has anything left to do. -/
theorem network_drain {e : NetworkEnds ι} (hconn : e.Connected) {as : List (NetworkAnswer ι)}
    {s : IpcNetwork ι} {t : ι → List Message} {msgs : List SentMessage} (h : Networked e as s t msgs) :
    ∃ ops as' s' t', (∀ o ∈ ops, o.IsTurn) ∧ Meets (networkStep e) (fun s o => o.Careful e s) ops s ∧
      run (networkStep e) ops s = some (as', s') ∧ Networked e (as ++ as') s' t' msgs ∧ s'.Idle e ∧
      ∀ j, networkDrops e j as' = [] := by
  induction hn : s.work e t using Nat.strong_induction_on generalizing as s t with
  | _ n ih =>
      by_cases hidle : s.Idle e
      · exact ⟨[], [], s, t, fun _ ho => absurd ho List.not_mem_nil, trivial, rfl,
          (List.append_nil as).symm ▸ h, hidle, fun _ => rfl⟩
      · obtain ⟨o, a, s₁, t₁, hturn, hcareful, hstep, hdrop, h₁, hless⟩ := h.progress hconn hidle
        obtain ⟨ops, as', s', t', hturns, hmeets, hrun, h', hidle', hdrops⟩ := ih _ (hn ▸ hless) h₁ rfl
        refine ⟨o :: ops, a :: as', s', t', List.forall_mem_cons.2 ⟨hturn, hturns⟩, ⟨hcareful, ?_⟩,
          run_cons_eq_some.2 ⟨a, s₁, as', hstep, hrun, rfl⟩, ?_, hidle', fun j => ?_⟩
        · intro b s₂ hstep₂
          obtain ⟨-, rfl⟩ := Prod.mk.inj (Option.some.inj (hstep.symm.trans hstep₂))
          exact hmeets
        · rwa [List.append_cons]
        · rw [networkDrops, List.filterMap_cons_none (hdrop j)]
          exact hdrops j

/-! ### The delivery -/

/-- The messages for a node that have been sent. -/
def viewsFor (e : NetworkEnds ι) (j : ι) (as : List (NetworkAnswer ι)) : List MessageView :=
  (networkViews e as).filter fun v => IsFor (e.node j).nodeAddr v.dstAddr

namespace Networked

variable {e : NetworkEnds ι} {as : List (NetworkAnswer ι)} {s : IpcNetwork ι} {t : ι → List Message}
  {msgs : List SentMessage}

theorem map_messagesFor (h : Networked e as s t msgs) (j : ι) :
    (messagesFor (e.node j).nodeAddr msgs).map Prod.fst = viewsFor e j as := by
  rw [viewsFor, ← h.views, List.filter_map]
  rfl

/-- No two messages for a node are equal. -/
theorem nodup_viewsFor (h : Networked e as s t msgs) (j : ι) : (viewsFor e j as).Nodup := by
  have hnodup := (h.delivering j).sent.nodup
  rw [← h.map_messagesFor j]
  refine List.Nodup.of_map MessageView.guid ?_
  rwa [List.map_map]

/-- What has been delivered to a node are messages for it.  Of a message that is missing something is on
its way, or has been given up. -/
theorem viewsFor_perm (hconn : e.Connected) (h : Networked e as s t msgs) (dc : IpcDecoder) (j : ι) :
    ∃ missing, ((networkDeliveries j as).map (fun m => dc.view m.2) ++ missing).Perm (viewsFor e j as) ∧
      (∀ m ∈ networkDeliveries j as, (dc.view m.2).context = m.1) ∧
      (s.Idle e → ∀ v ∈ missing, ∃ w ∈ networkDrops e j as, wireGuid w = v.guid) := by
  obtain ⟨l, ws, hws, hdel⟩ := h.delivering j
  obtain ⟨missing, hperm, hctx, hleft⟩ := hdel.views (hconn.nodeRoom j) dc
  rw [h.map_messagesFor] at hperm
  refine ⟨missing, hperm, hctx, fun hidle v hv => ?_⟩
  obtain ⟨w, hw, hg⟩ := hleft v hv
  rw [h.way_of_idle hidle] at hws
  exact ⟨w, (Multiset.coe_eq_coe.1 hws).subset hw, hg⟩

end Networked

/-- **Every message is delivered exactly once to every node that it is for.**  Whatever the threads of the
nodes and of the router have done, and in whatever order, the messages that have been delivered to a node
are messages that were sent to it or to all nodes, each of them once, as a reader finds them in the
segments, and each is in the context that it names; when no thread has anything left to do, the router has
given up a segment of every message that is missing; and the threads can always go on until that is so,
without giving up any more. -/
theorem network_delivers {e : NetworkEnds ι} (hconn : e.Connected) {ops : List (NetworkOp ι)}
    {as : List (NetworkAnswer ι)} {s : IpcNetwork ι} (hops : ∀ o ∈ ops, o.Sound e)
    (hcareful : Meets (networkStep e) (fun s o => o.Careful e s) ops (IpcNetwork.construct e))
    (hrun : run (networkStep e) ops (IpcNetwork.construct e) = some (as, s))
    (hcount : (networkViews e as).length < 2 ^ 32) (dc : IpcDecoder) :
    (∀ j, (viewsFor e j as).Nodup ∧
      (∃ missing,
        ((networkDeliveries j as).map (fun m => dc.view m.2) ++ missing).Perm (viewsFor e j as) ∧
        (s.Idle e → ∀ v ∈ missing, ∃ w ∈ networkDrops e j as, wireGuid w = v.guid)) ∧
      ∀ m ∈ networkDeliveries j as, (dc.view m.2).context = m.1) ∧
    ∃ ops' as' s', (∀ o ∈ ops', o.IsTurn) ∧
      Meets (networkStep e) (fun s o => o.Careful e s) ops' s ∧
      run (networkStep e) ops' s = some (as', s') ∧ s'.Idle e ∧
      ∀ j, ∃ missing,
        ((networkDeliveries j (as ++ as')).map (fun m => dc.view m.2) ++ missing).Perm (viewsFor e j as) ∧
        ∀ v ∈ missing, ∃ w ∈ networkDrops e j as, wireGuid w = v.guid := by
  obtain ⟨t, msgs, h⟩ := isNetworked_run hconn hops hcareful hrun hcount
  refine ⟨fun j => ?_, ?_⟩
  · obtain ⟨missing, hperm, hctx, hleft⟩ := h.viewsFor_perm hconn dc j
    exact ⟨h.nodup_viewsFor j, ⟨missing, hperm, hleft⟩, hctx⟩
  · obtain ⟨ops', as', s', t', hturns, hmeets, hrun', h', hidle, hdrops⟩ := network_drain hconn h
    refine ⟨ops', as', s', hturns, hmeets, hrun', hidle, fun j => ?_⟩
    obtain ⟨missing, hperm, -, hleft⟩ := h'.viewsFor_perm hconn dc j
    rw [← h'.map_messagesFor j, h.map_messagesFor j] at hperm
    refine ⟨missing, hperm, fun v hv => ?_⟩
    obtain ⟨w, hw, hg⟩ := hleft hidle v hv
    rw [networkDrops, List.filterMap_append] at hw
    rcases List.mem_append.1 hw with hw | hw
    · exact ⟨w, hw, hg⟩
    · have hnone : w ∈ networkDrops e j as' := hw
      rw [hdrops j] at hnone
      exact absurd hnone List.not_mem_nil

/-! ### Two nodes -/

/-- Two nodes are created. -/
def sampleCreates : List RouterOp :=
  [.nodeCreate 0 (ascii "A"), .acquire 0, .store 0 true, .nodeCreate 0 (ascii "B"), .acquire 0,
    .store 0 true]

/-- The registry with them. -/
def sampleRegistry : IpcRouter :=
  (({ IpcRouter.construct with nextNodeAddr := 18 }).nodeAddStore (ascii "A") 16).nodeAddStore (ascii "B") 17

theorem run_sampleCreates : ∃ as w, run routerStep sampleCreates RouterWorld.initial = some (as, w) ∧
    w.router = sampleRegistry := ⟨_, _, rfl, rfl⟩

/-- A host whose clock stands still. -/
def sampleHost : MqHost := ⟨fun _ => ⟨0, 0⟩, false⟩

/-- The two nodes; the second one has a direct send device for the first one. -/
def sampleNetwork : NetworkEnds Bool where
  host := sampleHost
  node second :=
    { le := true
      pools := exactPools
      xml := SerDesIdl.construct
      valid := true
      nodeAddr := if second then 17 else 16
      transport :=
        ⟨some (queueDev sampleHost kInfiniteTimeout routerDevice),
          some (queueDev sampleHost kReceiveTimeout (IpcRouter.ioDevice (if second then 17 else 16))),
          if second then
            AList.insert 16 (some (queueDev sampleHost kInfiniteTimeout (IpcRouter.ioDevice 16))) ∅
          else ∅⟩ }
  routerPools := exactPools
  router := sampleRegistry

theorem connected_sampleNetwork : sampleNetwork.Connected where
  waits := rfl
  addr_inj := by decide
  routes := by
    obtain ⟨as, w, hrun, hw⟩ := run_sampleCreates
    have hroutes := routes_run hrun
    rw [hw] at hroutes
    exact hroutes
  registered := by decide
  recvDevice i := rfl
  sendDevice i a := by
    cases i with
    | false => exact Or.inl rfl
    | true =>
        by_cases ha : a = 16
        · subst ha
          exact Or.inr ⟨false, rfl, rfl⟩
        · refine Or.inl ?_
          change ((AList.insert 16 _ ∅).lookup a).getD _ = _
          rw [AList.lookup_insert_ne ha]
          rfl
  nodeRoom _ := Option.some_ne_none _
  routerRoom := Option.some_ne_none _

/-- The first node sends a broadcast, and the second one a message to the first one. -/
def sampleNetworkOps : List (NetworkOp Bool) :=
  [.node false (.send (.sendCtl ⟨0xffffffff, 0, 5, 7, 0⟩) id), .node false .give, .node false .take,
    .node false .get, .node false .xmit, .node true (.send (.sendCtl ⟨16, 0, 6, 9, 0⟩) id),
    .node true .give, .route, .node true .take, .node true .get, .forward, .node true .xmit,
    .node true .recv, .node true (.submit true), .node true (.accum 0 true 0), .node false .recv,
    .node false (.submit true), .node false (.accum 0 true 0)]

theorem sound_sampleNetworkOps : ∀ o ∈ sampleNetworkOps, o.Sound sampleNetwork := by
  have hctl : ∀ i, ∀ args : SendArgs, args.address < 2 ^ 32 → args.context < 2 ^ 32 →
      NetworkOp.Sound sampleNetwork (.node i (.send (.sendCtl args) id)) := fun i args haddr hctx =>
    ⟨⟨haddr, hctx⟩, (by decide : IpcStreamSegMem.segCount 0 < 2 ^ 16), fun _ _ _ h => SendCall.noConfusion h⟩
  simp only [sampleNetworkOps, List.forall_mem_cons]
  exact ⟨hctl _ _ (by decide) (by decide), trivial, trivial, trivial, trivial,
    hctl _ _ (by decide) (by decide), trivial, trivial, trivial, trivial, trivial, trivial, trivial, rfl,
    trivial, trivial, rfl, trivial, fun _ ho => absurd ho List.not_mem_nil⟩

theorem careful_sampleNetworkOps : Meets (networkStep sampleNetwork)
    (fun s o => o.Careful sampleNetwork s) sampleNetworkOps (IpcNetwork.construct sampleNetwork) := by
  decide +kernel

/-- What has happened by then: the broadcast has come to the second node, and the other message, which did
not go through the router, to the first one. -/
theorem run_sampleNetworkOps : ∃ as s,
    run (networkStep sampleNetwork) sampleNetworkOps (IpcNetwork.construct sampleNetwork) = some (as, s) ∧
      (networkDeliveries true as).map Prod.fst = [7] ∧ (networkDeliveries false as).map Prod.fst = [9] ∧
      (viewsFor sampleNetwork false as).map MessageView.context = [7, 9] ∧
      (networkViews sampleNetwork as).length < 2 ^ 32 := by
  have hruns : (run (networkStep sampleNetwork) sampleNetworkOps
      (IpcNetwork.construct sampleNetwork)).map (fun r =>
        ((networkDeliveries true r.1).map Prod.fst, (networkDeliveries false r.1).map Prod.fst,
          (viewsFor sampleNetwork false r.1).map MessageView.context,
          (networkViews sampleNetwork r.1).length)) = some ([7], [9], [7, 9], 2) := by
    decide +kernel
  obtain ⟨⟨as, s⟩, hrun, hall⟩ := Option.map_eq_some_iff.1 hruns
  simp only [Prod.mk.injEq] at hall
  obtain ⟨hsecond, hfirst, hviews, hcount⟩ := hall
  refine ⟨as, s, hrun, hsecond, hfirst, hviews, ?_⟩
  rw [hcount]
  decide

theorem network_delivers_broadcast : ∃ as s,
    run (networkStep sampleNetwork) sampleNetworkOps (IpcNetwork.construct sampleNetwork) = some (as, s) ∧
      (networkDeliveries true as).map Prod.fst = [7] ∧ (networkDeliveries false as).map Prod.fst = [9] ∧
      (viewsFor sampleNetwork false as).map MessageView.context = [7, 9] ∧
      ∃ ops' as' s', (∀ o ∈ ops', o.IsTurn) ∧
        Meets (networkStep sampleNetwork) (fun s o => o.Careful sampleNetwork s) ops' s ∧
        run (networkStep sampleNetwork) ops' s = some (as', s') ∧ s'.Idle sampleNetwork ∧
        ∀ j, ∃ missing, ((networkDeliveries j (as ++ as')).map
            (fun m => (IpcDecoder.construct exactPools).view m.2) ++ missing).Perm
              (viewsFor sampleNetwork j as) ∧
          ∀ v ∈ missing, ∃ w ∈ networkDrops sampleNetwork j as, wireGuid w = v.guid := by
  obtain ⟨as, s, hrun, hsecond, hfirst, hviews, hcount⟩ := run_sampleNetworkOps
  exact ⟨as, s, hrun, hsecond, hfirst, hviews, (network_delivers connected_sampleNetwork
    sound_sampleNetworkOps careful_sampleNetworkOps hrun hcount (IpcDecoder.construct exactPools)).2⟩

end CodePort
