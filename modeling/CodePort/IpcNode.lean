/-
The communication threads of a node.

The transmit thread takes segments from the transmit queue and hands them to the transport.  The
receive thread receives into a segment of its own, and hands it on when something has arrived.

Main definitions:

* `CodePort.NodeTransport` — a transport of one of the two classes;
* `CodePort.xmitTurn`, `xmitRun` — `XmitThread`, and the segments it deletes;
* `CodePort.recvTurn` — one turn of `RecvThread` up to the submission of the segment.

Main results:

* `CodePort.deleted_xmitTurn` — what becomes of a segment that is sent;
* `CodePort.xmitThread_deletes_once` — **when every segment is deleted exactly once**.
-/

import CodePort.IpcStrmTransport
import CodePort.IpcTransmitQueue

set_option relaxedAutoImplicit false
set_option autoImplicit false

namespace CodePort

open IpcSegment

variable {δ : Type*}

/-! ### The transport of a node -/

/-- A transport of one of the two classes, whose `Send` and `Recv` are virtual. -/
inductive NodeTransport (δ : Type*)
  | standard (t : IpcTransport δ)
  | stream (t : IpcTransport δ)

namespace NodeTransport

def send (m : MemPools) : NodeTransport δ → Option SegPtr → δ → SendAnswer δ
  | standard t => t.send
  | stream t => IpcStrmTransport.send m t

def recv (m : MemPools) : NodeTransport δ → IpcSegment → δ → RecvAnswer δ
  | standard t => t.recv m
  | stream t => IpcStrmTransport.recv m t

/-- There is a device for the address of the segment, and it takes everything that is sent to
it: the segment, and before it the header of a frame if the transport is a stream. -/
def Delivers (m : MemPools) : NodeTransport δ → SegPtr → δ → Prop
  | standard t, p, d => ∃ dev, t.sendDeviceGet p.seg.dstAddr = some dev ∧
      IpcTransport.TakesSegment dev p.seg d
  | stream t, p, d => m.blockSize IpcStrmTransport.ipcStrmHeaderLen ≠ none ∧
      ∃ dev, t.sendDeviceGet p.seg.dstAddr = some dev ∧ IpcStrmTransport.TakesFrame m dev p.seg d

/-- **A transport disposes of every segment it is given**, whether it could send it or not. -/
theorem deleted_send (m : MemPools) (t : NodeTransport δ) (p : SegPtr) (d : δ) :
    (t.send m (some p) d).deleted = [p] := by
  cases t with
  | standard t => exact t.deleted_send p d
  | stream t => exact IpcStrmTransport.deleted_send m t p d

theorem rv_send_iff (m : MemPools) (t : NodeTransport δ) (p : SegPtr) (d : δ) :
    (t.send m (some p) d).rv = true ↔ t.Delivers m p d := by
  cases t with
  | standard t => exact t.rv_send_iff p d
  | stream t => exact IpcStrmTransport.rv_send_iff m t p d

end NodeTransport

/-! ### The transmit thread -/

/-- What one turn of `XmitThread` meets. -/
structure XmitIn (δ : Type*) where
  /-- The transmit queue when the semaphore has been taken; `none` if that timed out. -/
  queue : Option IpcTransmitQueue
  /-- The transport of the node; `none` is the NULL pointer. -/
  transport : Option (NodeTransport δ)
  env : δ
  pools : MemPools

/-- What `SegmentGet` answers in a turn. -/
def XmitIn.get (i : XmitIn δ) : IpcTransmitQueue.GetAnswer :=
  match i.queue with
  | none => ⟨false, none⟩
  | some q => q.segmentGet.1

/-- The variables of `XmitThread`. -/
structure XmitState where
  pSeg : Option SegPtr
  count : ℕ

def maxTransmitCount : ℕ := 4

/-- One turn of `XmitThread`: the segments that are deleted in it. -/
def xmitTurn (s : XmitState) (i : XmitIn δ) : List SegPtr × XmitState :=
  -- the out parameter keeps its value if the call does not set it
  let pSeg := (i.get.segment.map List.head?).getD s.pSeg
  if i.get.rv then
    let r : List SegPtr × XmitState :=
      match pSeg with
      | none => ([], ⟨none, s.count⟩)
      | some p =>
          match i.transport with
          | none => ([], ⟨none, s.count + 1⟩)
          | some t =>
              let a := t.send i.pools (some p) i.env
              -- delete the segment if it could not be sent
              (a.deleted ++ (if a.rv = false then [p] else []), ⟨none, s.count + 1⟩)
    -- yield the CPU if a burst is completed
    (r.1, if r.2.count > maxTransmitCount then { r.2 with count := 0 } else r.2)
  else ([], { s with pSeg := pSeg })

/-- `XmitThread`: the segments that are deleted in each of its turns. -/
def xmitRun : List (XmitIn δ) → XmitState → List (List SegPtr)
  | [], _ => []
  | i :: is, s => (xmitTurn s i).1 :: xmitRun is (xmitTurn s i).2

/-- The variables at the start of the thread. -/
def XmitState.construct : XmitState := ⟨none, 0⟩

/-- The segment that a turn takes from the queue. -/
def XmitIn.taken (i : XmitIn δ) : Option SegPtr :=
  if i.get.rv then (i.get.segment.bind List.head?) else none

/-- The segment that a turn takes, if any, is delivered by the transport. -/
def XmitIn.Sends (i : XmitIn δ) : Prop :=
  ∀ p ∈ i.taken, ∃ t, i.transport = some t ∧ t.Delivers i.pools p i.env

theorem IpcTransmitQueue.popFront_segment (q : List (List SegPtr)) :
    ((popFront q).1.rv = true ∧ ∃ p, (popFront q).1.segment = some [p]) ∨
      ((popFront q).1.rv = false ∧
        ((popFront q).1.segment = none ∨ (popFront q).1.segment = some [])) := by
  match q with
  | [] => exact Or.inr ⟨rfl, Or.inl rfl⟩
  | [] :: _ => exact Or.inr ⟨rfl, Or.inr rfl⟩
  | [p] :: _ => exact Or.inl ⟨rfl, p, rfl⟩
  | (p :: _ :: _) :: _ => exact Or.inl ⟨rfl, p, rfl⟩

/-- `SegmentGet` answers with one segment, or it fails. -/
theorem XmitIn.get_segment (i : XmitIn δ) :
    (i.get.rv = true ∧ ∃ p, i.get.segment = some [p]) ∨
      (i.get.rv = false ∧ (i.get.segment = none ∨ i.get.segment = some [])) := by
  cases hq : i.queue with
  | none => simp [get, hq]
  | some q =>
      rw [get, hq]
      exact IpcTransmitQueue.popFront_segment q.priorityQueue

/-- **What becomes of a segment that is sent**: the transport deletes it, and the thread deletes it
again if the transport could not deliver it. -/
theorem deleted_xmitTurn {s : XmitState} (hs : s.pSeg = none) (i : XmitIn δ) :
    (xmitTurn s i).2.pSeg = none ∧ ((xmitTurn s i).1 = i.taken.toList ↔ i.Sends) := by
  rcases i.get_segment with ⟨hrv, p, hseg⟩ | ⟨hrv, hseg⟩
  · have htaken : i.taken = some p := by simp [XmitIn.taken, hrv, hseg]
    have hsends : i.Sends ↔ ∃ t, i.transport = some t ∧ t.Delivers i.pools p i.env := by
      simp [XmitIn.Sends, htaken]
    simp only [xmitTurn, hrv, hseg, if_true, Option.map_some, List.head?_cons, Option.getD_some]
    rw [hsends, htaken]
    cases ht : i.transport with
    | none =>
        constructor
        · simp only
          split_ifs <;> rfl
        · simp
    | some t =>
        constructor
        · simp only
          split_ifs <;> rfl
        · simp only [NodeTransport.deleted_send, Option.toList_some, Option.some.injEq,
            exists_eq_left', ← NodeTransport.rv_send_iff]
          cases (t.send i.pools (some p) i.env).rv <;> simp
  · have htaken : i.taken = none := by simp [XmitIn.taken, hrv]
    have hsends : i.Sends := by simp [XmitIn.Sends, htaken]
    rcases hseg with hseg | hseg <;> simp [xmitTurn, hrv, hseg, hs, htaken, hsends]

/-- **Segment ownership on the transmit side.**  Over any sequence of segments, every segment is
deleted exactly once if and only if the transport delivers all of them: there is a device for each,
and it takes everything that is sent to it. -/
theorem xmitThread_deletes_once (is : List (XmitIn δ)) :
    xmitRun is XmitState.construct = is.map (fun i => i.taken.toList) ↔ ∀ i ∈ is, i.Sends := by
  have hrun : ∀ {s : XmitState}, s.pSeg = none →
      (xmitRun is s = is.map (fun i => i.taken.toList) ↔ ∀ i ∈ is, i.Sends) := by
    induction is with
    | nil => simp [xmitRun]
    | cons i is ih =>
        intro s hs
        obtain ⟨hnext, hiff⟩ := deleted_xmitTurn hs i
        rw [xmitRun, List.map_cons, List.cons.injEq, hiff, ih hnext, List.forall_mem_cons]
  exact hrun rfl

/-- A device that takes nothing. -/
def fullDevice : IoDev Unit where
  send _ _ := (some 0, ())
  recv _ _ := (none, ())
  fullRead _ _ := ()
  send_le h := by rw [← Option.some.inj h]; exact Nat.zero_le _
  recv_le h := by simp at h

/-- A turn that takes a segment, and a transport whose only device is full. -/
def failingTurn : XmitIn Unit where
  queue := some { IpcTransmitQueue.construct with priorityQueue := [[newSegment 0 2]] }
  transport := some (.standard ⟨some fullDevice, none, ∅⟩)
  env := ()
  pools := exactPools

/-- The segment of a send that fails is deleted twice. -/
theorem xmitThread_deletes_twice :
    xmitRun [failingTurn] XmitState.construct = [[newSegment 0 2, newSegment 0 2]] ∧
      [failingTurn].map (fun i => i.taken.toList) = [[newSegment 0 2]] := by
  decide +kernel

/-! ### The receive thread -/

/-- What a turn of `RecvThread` does up to the submission of the segment. -/
structure RecvTurn (δ : Type*) where
  /-- The segment that has been received, which is submitted next. -/
  received : Option SegPtr
  /-- The variable of the thread. -/
  pSeg : Option SegPtr
  env : δ

/-- One turn of `RecvThread` up to the submission of the segment.  `fresh` is the segment that `new`
returns, which is asked for only when the thread has no segment left. -/
def recvTurn (pSeg fresh : Option SegPtr) (recv : IpcSegment → δ → RecvAnswer δ) (d : δ) :
    RecvTurn δ :=
  match pSeg.or fresh with
  -- if a segment can't be created suspend the thread
  | none => ⟨none, none, d⟩
  | some p =>
      let a := recv p.seg d
      let p : SegPtr := { p with seg := a.seg }
      if a.rv then ⟨some p, none, a.env⟩ else ⟨none, some p, a.env⟩

/-- A turn passes on the segment it has, or keeps it. -/
theorem recvTurn_addr (pSeg fresh : Option SegPtr) (recv : IpcSegment → δ → RecvAnswer δ) (d : δ) :
    ((recvTurn pSeg fresh recv d).received.toList ++
      (recvTurn pSeg fresh recv d).pSeg.toList).map SegPtr.addr =
      (pSeg.or fresh).toList.map SegPtr.addr := by
  rw [recvTurn]
  cases pSeg.or fresh with
  | none => rfl
  | some p =>
      simp only
      split_ifs <;> rfl

end CodePort
