/-
The thread of the message router.

The router receives a segment from its own queue and sends it to the queue of the node that it is
addressed to, or, if it is a broadcast, to the queues of all nodes.  The queues are those that the
registry has stored, so what matters here about the registry is that every address has the queue with
the device name of the address, and that no two addresses have one name.

Main definitions:

* `CodePort.IpcRouter.queueFind`, `targets` — the queues that a segment is sent to;
* `CodePort.RouterThread` — the variables of the thread, with `recv` and `send`;
* `CodePort.IpcRouter.Routes` — what the thread relies on in the registry.

Main results:

* `CodePort.IpcRouter.ioDevice_inj` — addresses have different device names;
* `CodePort.routes_run` — **every registry that its callers can bring about is one to rely on**;
* `CodePort.IpcRouter.Routes.filter_targets` — **a node is sent a segment once**, if it is addressed to
  the node or to all, and otherwise not at all.
-/

import CodePort.IpcRouter
import CodePort.MsgQueues
import Mathlib.Data.List.Sort

set_option relaxedAutoImplicit false
set_option autoImplicit false

namespace CodePort

open IpcSegment StepSystem

/-- The device name of the router itself. -/
def routerDevice : List UInt8 := ascii "00000000"

namespace IpcRouter

/-! ### Where a segment goes -/

/-- The queue of an address. -/
def queueFind (r : IpcRouter) (address : UInt32) : Option RouterQueue := r.nodeQueues.lookup address

/-- The queues of all nodes, in the order of the map. -/
def allQueues (r : IpcRouter) : List RouterQueue :=
  (r.nodeQueues.entries.insertionSort fun e e' => e.1 ≤ e'.1).map Sigma.snd

/-- The queues that `Send` sends a segment to. -/
def targets (r : IpcRouter) (address : UInt32) : List RouterQueue :=
  match r.queueFind address with
  | some q => [q]
  -- a broadcast goes to a vector of all nodes
  | none => if address = broadcastAddr then r.allQueues else []

/-- **What the thread relies on**: an address with a queue is the address of a node, and the queue is
the one of that address. -/
structure Routes (r : IpcRouter) : Prop where
  queue_eq : ∀ a, ∀ q ∈ r.nodeQueues.lookup a, q = queue a
  addr : ∀ a ∈ r.nodeQueues, ipcNodeAddrMinVal ≤ a ∧ a ≠ broadcastAddr

/-! ### Device names -/

/-- The number that a device name says. -/
theorem foldl_ioDevice (a : UInt32) :
    (ioDevice a).foldl (fun n c => 10 * n + (c.toNat - 48)) 0 = a.toNat := by
  have hzeros : ∀ k, (List.replicate k (48 : UInt8)).foldl (fun n c => 10 * n + (c.toNat - 48)) 0 = 0 := by
    intro k
    induction k with
    | zero => rfl
    | succ k ih => exact ih
  have hmod : a.toNat % 2 ^ 32 = a.toNat := Nat.mod_eq_of_lt a.toNat_lt
  simp only [ioDevice, genStr, uintToStr, hmod]
  split_ifs
  · rw [List.foldl_append, hzeros, foldl_decText]
  · exact foldl_decText _

/-- **Addresses have different device names.** -/
theorem ioDevice_inj {a b : UInt32} : ioDevice a = ioDevice b ↔ a = b := by
  refine ⟨fun h => UInt32.toNat_inj.1 ?_, congrArg ioDevice⟩
  rw [← foldl_ioDevice a, h, foldl_ioDevice]

theorem ioDevice_ne_routerDevice {a : UInt32} (h : ipcNodeAddrMinVal ≤ a) : ioDevice a ≠ routerDevice := by
  intro heq
  have hzero : ioDevice 0 = routerDevice := by decide
  rw [ioDevice_inj.1 (heq.trans hzero.symm)] at h
  exact absurd h (by decide)

namespace Routes

variable {r : IpcRouter} {a address : UInt32}

theorem lookup (h : r.Routes) (ha : a ∈ r.nodeQueues) : r.nodeQueues.lookup a = some (queue a) := by
  obtain ⟨q, hq⟩ := Option.isSome_iff_exists.1 (AList.lookup_isSome.2 ha)
  rw [hq, h.queue_eq a q hq]

/-- A segment is sent to queues of nodes. -/
theorem mem_targets (h : r.Routes) {q : RouterQueue} (hq : q ∈ r.targets address) :
    ∃ b ∈ r.nodeQueues, q = queue b := by
  rw [targets] at hq
  cases hfind : r.queueFind address with
  | some q' =>
      rw [hfind] at hq
      rw [List.mem_singleton.1 hq]
      exact ⟨address, AList.lookup_isSome.1 (Option.isSome_of_eq_some hfind), h.queue_eq _ _ hfind⟩
  | none =>
      rw [hfind] at hq
      simp only at hq
      split_ifs at hq
      · obtain ⟨⟨b, q'⟩, he, rfl⟩ := List.mem_map.1 hq
        have hlook : r.nodeQueues.lookup b = some q' :=
          AList.mem_lookup_iff.2 ((List.mem_insertionSort _).1 he)
        exact ⟨b, AList.lookup_isSome.1 (Option.isSome_of_eq_some hlook), h.queue_eq _ _ hlook⟩
      · exact absurd hq List.not_mem_nil

theorem length_targets_le (r : IpcRouter) (address : UInt32) :
    (r.targets address).length ≤ r.nodeQueues.entries.length + 1 := by
  rw [targets]
  cases r.queueFind address with
  | some q => exact Nat.le_add_left _ _
  | none =>
      simp only
      split_ifs
      · rw [allQueues, List.length_map, List.length_insertionSort]
        exact Nat.le_succ _
      · exact Nat.zero_le _

/-- The queue of a node is once among the queues of all nodes. -/
theorem filter_allQueues (h : r.Routes) (ha : a ∈ r.nodeQueues) :
    r.allQueues.filter (fun q => q.ioDevice = ioDevice a) = [queue a] := by
  set sorted := r.nodeQueues.entries.insertionSort fun e e' => e.1 ≤ e'.1 with hsorted
  have hmem : ∀ e, e ∈ sorted ↔ r.nodeQueues.lookup e.1 = some e.2 := fun e =>
    (List.mem_insertionSort _).trans AList.mem_lookup_iff.symm
  have hnodup : sorted.Nodup :=
    (List.perm_insertionSort _ _).nodup_iff.2 r.nodeQueues.nodupKeys.nodup
  have hone : (sorted.filter fun e => e.2.ioDevice = ioDevice a) = [⟨a, queue a⟩] := by
    refine List.perm_singleton.1 ((List.perm_ext_iff_of_nodup (hnodup.filter _)
      (List.nodup_singleton _)).2 fun e => ?_)
    rw [List.mem_filter, hmem, decide_eq_true_iff, List.mem_singleton]
    constructor
    · rintro ⟨hlook, hdev⟩
      obtain ⟨b, q⟩ := e
      obtain rfl := h.queue_eq b q hlook
      rw [ioDevice_inj.1 hdev]
    · rintro rfl
      exact ⟨h.lookup ha, rfl⟩
  rw [allQueues, ← hsorted, List.filter_map]
  exact congrArg (List.map Sigma.snd) hone

/-- **A node is sent a segment once**, if it is addressed to the node or to all, and otherwise not at
all. -/
theorem filter_targets (h : r.Routes) (ha : a ∈ r.nodeQueues) (address : UInt32) :
    (r.targets address).filter (fun q => q.ioDevice = ioDevice a) =
      if address = a ∨ address = broadcastAddr then [queue a] else [] := by
  rw [targets]
  cases hfind : r.queueFind address with
  | some q =>
      have hmem : address ∈ r.nodeQueues := AList.lookup_isSome.1 (Option.isSome_of_eq_some hfind)
      obtain rfl := h.queue_eq address q hfind
      have hnot := (h.addr address hmem).2
      by_cases heq : address = a
      · subst heq
        simp [queue]
      · rw [if_neg (not_or.2 ⟨heq, hnot⟩)]
        exact List.filter_eq_nil_iff.2 fun q hq => by
          rw [List.mem_singleton.1 hq, decide_eq_true_iff]
          exact fun hdev => heq (ioDevice_inj.1 hdev)
  | none =>
      have hne : address ≠ a := by
        rintro rfl
        exact absurd (hfind.symm.trans (h.lookup ha)) (by simp)
      simp only
      by_cases hall : address = broadcastAddr
      · rw [if_pos hall, if_pos (Or.inr hall), h.filter_allQueues ha]
      · rw [if_neg hall, if_neg (not_or.2 ⟨hne, hall⟩), List.filter_nil]

end Routes

end IpcRouter

/-! ### The registries that there are -/

/-- What the sections of the registry keep. -/
structure RouterWorld.Kept (w : RouterWorld) : Prop where
  next_ge : ipcNodeAddrMinVal ≤ w.router.nextNodeAddr
  storing : ∀ t n a, w.pc t = .storing n a → ipcNodeAddrMinVal ≤ a ∧ a ≠ broadcastAddr
  routes : w.router.Routes

namespace RouterWorld.Kept

variable {w w' : RouterWorld}

theorem initial : RouterWorld.initial.Kept where
  next_ge := by decide
  storing t n a h := absurd h RouterPc.noConfusion
  routes := ⟨fun a q hq => absurd hq (by simp [RouterWorld.initial, IpcRouter.construct]),
    fun a ha => absurd ha (AList.notMem_empty a)⟩

/-- A caller moves, and does not come to store a record. -/
theorem goto (h : w.Kept) (t : ℕ) {pc : RouterPc} (hpc : ∀ n a, pc ≠ .storing n a) : (w.goto t pc).Kept where
  next_ge := h.next_ge
  storing t' n a hstoring := by
    rcases moved_cases hstoring with ⟨-, heq⟩ | ⟨-, hold⟩
    · exact absurd heq.symm (hpc n a)
    · exact h.storing t' n a hold
  routes := h.routes

/-- An address is acquired. -/
theorem acquire (h : w.Kept) (t : ℕ) (nodeName : List UInt8)
    (hlt : w.router.nextNodeAddr < broadcastAddr) :
    ({ w with router := { w.router with nextNodeAddr := w.router.nextNodeAddr + 1 } }.goto t
      (.storing nodeName w.router.nextNodeAddr)).Kept where
  next_ge := by
    have hge := UInt32.le_iff_toNat_le.1 h.next_ge
    have hmax := UInt32.lt_iff_toNat_lt.1 hlt
    have hall : broadcastAddr.toNat = 2 ^ 32 - 1 := by decide
    have hone : (1 : UInt32).toNat = 1 := rfl
    refine UInt32.le_iff_toNat_le.2 (hge.trans ?_)
    change _ ≤ (w.router.nextNodeAddr + 1).toNat
    rw [UInt32.toNat_add, hone]
    omega
  storing t' n a hstoring := by
    rcases moved_cases hstoring with ⟨-, heq⟩ | ⟨-, hold⟩
    · obtain ⟨-, rfl⟩ := RouterPc.storing.inj heq
      exact ⟨h.next_ge, RouterWorld.ne_broadcast_of_lt hlt⟩
    · exact h.storing t' n a hold
  routes := ⟨h.routes.queue_eq, h.routes.addr⟩

/-- A record is stored. -/
theorem store (h : w.Kept) {t : ℕ} {nodeName : List UInt8} {a : UInt32}
    (hpc : w.pc t = .storing nodeName a) :
    ({ w with router := w.router.nodeAddStore nodeName a }.goto t .idle).Kept := by
  have hidle : ∀ n b, RouterPc.idle ≠ .storing n b := fun _ _ hc => RouterPc.noConfusion hc
  have hstored : Kept { w with router := w.router.nodeAddStore nodeName a } := by
    refine ⟨h.next_ge, h.storing, ⟨fun b q hq => ?_, fun b hb => ?_⟩⟩
    · change (w.router.nodeQueues.insert a (IpcRouter.queue a)).lookup b = some q at hq
      by_cases hb : b = a
      · subst hb
        rw [AList.lookup_insert] at hq
        exact (Option.some.inj hq).symm
      · rw [AList.lookup_insert_ne hb] at hq
        exact h.routes.queue_eq b q hq
    · rcases (AList.mem_insert _).1 hb with rfl | hb
      · exact h.storing t nodeName b hpc
      · exact h.routes.addr b hb
  exact hstored.goto t hidle

/-- A node is deleted. -/
theorem nodeDel (h : w.Kept) (a : UInt32) : Kept { w with router := (w.router.nodeDel a).2 } := by
  have hqueues : (w.router.nodeDel a).2.nodeQueues = w.router.nodeQueues.erase a ∧
      (w.router.nodeDel a).2.nextNodeAddr = w.router.nextNodeAddr := by
    rw [IpcRouter.nodeDel]
    simp only
    split <;> exact ⟨rfl, rfl⟩
  refine ⟨hqueues.2 ▸ h.next_ge, h.storing, ⟨fun b q hq => ?_, fun b hb => ?_⟩⟩
  · rw [hqueues.1] at hq
    by_cases hb : b = a
    · subst hb
      rw [AList.lookup_erase] at hq
      exact absurd hq (Option.not_mem_none q)
    · rw [AList.lookup_erase_ne hb] at hq
      exact h.routes.queue_eq b q hq
  · rw [hqueues.1] at hb
    exact h.routes.addr b (AList.mem_erase.1 hb).2

/-- **Every section keeps the registry one to rely on.** -/
theorem step (h : w.Kept) {o : RouterOp} {x : RouterAnswer} (hstep : routerStep w o = some (x, w')) :
    w'.Kept := by
  cases o with
  | nodeCreate t nodeName =>
      rw [routerStep] at hstep
      cases hpc : w.pc t with
      | idle =>
          rw [hpc] at hstep
          simp only at hstep
          split_ifs at hstep <;> obtain ⟨-, rfl⟩ := Prod.mk.inj (Option.some.inj hstep)
          · exact h.goto t fun _ _ hc => RouterPc.noConfusion hc
          · exact h
      | adding n => rw [hpc] at hstep; exact absurd hstep (by simp)
      | storing n a => rw [hpc] at hstep; exact absurd hstep (by simp)
  | acquire t =>
      rw [routerStep] at hstep
      cases hpc : w.pc t with
      | adding nodeName =>
          rw [hpc] at hstep
          by_cases hlt : w.router.nextNodeAddr < broadcastAddr
          · have hne : w.router.nextNodeAddr ≠ 0 := RouterWorld.ne_zero_of_ge h.next_ge
            simp only [IpcRouter.nodeAddAcquire, if_pos hlt, if_neg hne] at hstep
            obtain ⟨-, rfl⟩ := Prod.mk.inj (Option.some.inj hstep)
            exact h.acquire t nodeName hlt
          · simp only [IpcRouter.nodeAddAcquire, if_neg hlt, if_true] at hstep
            obtain ⟨-, rfl⟩ := Prod.mk.inj (Option.some.inj hstep)
            exact h.goto t fun _ _ hc => RouterPc.noConfusion hc
      | idle => rw [hpc] at hstep; exact absurd hstep (by simp)
      | storing n a => rw [hpc] at hstep; exact absurd hstep (by simp)
  | store t valid =>
      rw [routerStep] at hstep
      cases hpc : w.pc t with
      | storing nodeName a =>
          rw [hpc] at hstep
          simp only at hstep
          split_ifs at hstep <;> obtain ⟨-, rfl⟩ := Prod.mk.inj (Option.some.inj hstep)
          · exact h.store hpc
          · exact h.goto t fun _ _ hc => RouterPc.noConfusion hc
      | idle => rw [hpc] at hstep; exact absurd hstep (by simp)
      | adding n => rw [hpc] at hstep; exact absurd hstep (by simp)
  | nodeDel t a =>
      rw [routerStep] at hstep
      cases hpc : w.pc t with
      | idle =>
          rw [hpc] at hstep
          simp only at hstep
          split_ifs at hstep
          obtain ⟨-, rfl⟩ := Prod.mk.inj (Option.some.inj hstep)
          exact h.nodeDel a
      | adding n => rw [hpc] at hstep; exact absurd hstep (by simp)
      | storing n b => rw [hpc] at hstep; exact absurd hstep (by simp)

end RouterWorld.Kept

/-- **Every registry that its callers can bring about is one to rely on.** -/
theorem routes_run {ops : List RouterOp} {as : List RouterAnswer} {w : RouterWorld}
    (hrun : run routerStep ops RouterWorld.initial = some (as, w)) : w.router.Routes :=
  (run_invariant (I := RouterWorld.Kept) (fun h hstep => h.step hstep) RouterWorld.Kept.initial hrun).routes

/-! ### The thread -/

/-- The variables of the router thread. -/
structure RouterThread where
  /-- The segment that it receives into. -/
  seg : IpcSegment
  /-- The queues that the segment is still to be sent to. -/
  nodes : List RouterQueue

namespace RouterThread

/-- `Recv`, as the thread calls it. -/
def recv (host : MqHost) (m : MemPools) (seg : IpcSegment) (d : MsgQueues) : RecvAnswer MsgQueues :=
  let r := (queueDev host kReceiveTimeout routerDevice).recvBuf m seg.buf seg.buf.size d
  ⟨decide (r.rcvd ≥ segData), ⟨r.buf⟩, r.env⟩

/-- `Send` to one queue. -/
def send (host : MqHost) (q : RouterQueue) (seg : IpcSegment) (d : MsgQueues) : Bool × MsgQueues :=
  let r := (queueDev host kTransmitTimeout q.ioDevice).sendBuf seg.buf seg.buf.size d
  (decide (r.1 > 0), r.2)

variable {host : MqHost} {seg : IpcSegment} {d : MsgQueues}

/-- **The thread takes a segment from its queue**, if there is one. -/
theorem recv_spec (hwaits : host.checksAlways = false) (h : seg.Full) (m : MemPools)
    (hsize : (d routerDevice).msgSize = segMaxLen)
    (hlen : ∀ w ∈ (d routerDevice).msgs, segData ≤ w.length) :
    let a := recv host m seg d
    a.rv = !(d routerDevice).msgs.isEmpty ∧ a.seg.buf.data = (d routerDevice).msgs.headD [] ∧
      a.seg.Full ∧ a.env = d.pop routerDevice := by
  obtain ⟨hrcvd, hdata, hfull, henv⟩ := @recvBuf_queueDev host kReceiveTimeout _ d hwaits _ h m
    (hsize.trans_le h) (hsize ▸ by decide)
  refine ⟨?_, hdata, hfull, henv.trans (MsgQueues.ite_pop d routerDevice)⟩
  simp only [recv, hrcvd]
  have h24 : segData = 24 := rfl
  cases hmsgs : (d routerDevice).msgs with
  | nil => rfl
  | cons w q =>
      have hmin := hlen w (hmsgs ▸ List.mem_cons_self)
      rw [List.headD_cons, List.isEmpty_cons, Bool.not_false, decide_eq_true_iff]
      omega

/-- **A segment is put into a queue**, if that accepts it. -/
theorem send_spec (hwaits : host.checksAlways = false) {q : RouterQueue}
    (hpos : segData ≤ seg.buf.dataLen) (hmax : seg.buf.dataLen ≤ segMaxLen) :
    send host q seg d = (decide ((d q.ioDevice).Accepts seg.buf.data), d.put q.ioDevice seg.buf.data) := by
  have h24 : segData = 24 := rfl
  have h1024 : segMaxLen = 1024 := rfl
  rw [send, sendBuf_queueDev hwaits (by omega) (by omega)]
  refine Prod.ext (decide_eq_decide.2 ?_) rfl
  split_ifs with hacc
  · exact iff_of_true (by omega) hacc
  · exact iff_of_false (by omega) hacc

end RouterThread

end CodePort
