/-
The buffer of a segment.

Every field of a segment is written at its offset from the start of the buffer, and nobody asks how large
the buffer is: it is allocated for a full segment, and is meant to stay so.  A transport receives into the
buffer, though, and resizes it first to the length that it expects.

Main definitions:

* `CodePort.IpcSegment.dataSet`, `dataSetBuffer`, `dataSetLong` — the forms of `DataSet`;
* `CodePort.SegmentOp` — an operation on a segment;
* `CodePort.IpcStrmTransport.framePayload` — when a frame is received into the segment, and its length;
* `CodePort.Buffer.RoomFor` — a resize leaves room for a full segment.

Main results:

* `CodePort.SegmentOp.full_apply_iff` — what an operation does to the size;
* `CodePort.segment_full_iff` — **the buffer holds a full segment at every moment if and only if no frame
  is received for which the buffer shrinks**.
-/

import CodePort.IpcStrmTransport
import CodePort.NativeResult
import CodePort.StepSystem

set_option relaxedAutoImplicit false
set_option autoImplicit false

namespace CodePort

open BlockList IpcSegment Octets

/-! ### Payload and copies -/

namespace IpcSegment

/-- Stores the payload data.  The result is the return value and the segment. -/
def dataSet (s : IpcSegment) (d : List UInt8) : Bool × IpcSegment :=
  -- copy only up to maximum segment capacity
  let copyLen := if d.length < capacity then d.length else capacity
  let s : IpcSegment := ⟨s.buf.memWr segData (d.take copyLen)⟩
  (decide (d.length = copyLen), (s.setDataLen copyLen).bufLenSet (segData + copyLen))

/-- Stores the data of a buffer as the payload. -/
def dataSetBuffer (s : IpcSegment) (data : Buffer) : Bool × IpcSegment :=
  s.dataSet (data.mem.take data.lenGet)

/-- Stores a long word as the payload. -/
def dataSetLong (s : IpcSegment) (value : ℕ) : Bool × IpcSegment := s.dataSet (toBE 4 value)

/-- The copy constructor. -/
def copyConstruct (m : MemPools) (rhs : IpcSegment) : IpcSegment :=
  (⟨Buffer.construct m segMaxLen⟩ : IpcSegment).assign m rhs

end IpcSegment

/-- An operation on a segment.  The transports come with what is behind their device. -/
inductive SegmentOp (δ : Type*)
  /-- The segment is copied, and the copy takes its place. -/
  | copy
  /-- Another segment is assigned to it. -/
  | assign (rhs : IpcSegment)
  | assignSelf
  | clear
  | options (data : UInt8)
  | priority (data : UInt8)
  | fragNum (val : ℕ)
  | srcAddr (addr : ℕ)
  | dstAddr (addr : ℕ)
  | msgId (val : ℕ)
  | context (val : ℕ)
  | msgType (val : UInt8)
  | ctlCode (val : UInt8)
  | dataLen (len : ℕ)
  | dataSetLong (value : ℕ)
  | dataSetBuffer (data : Buffer)
  | dataSet (d : List UInt8)
  /-- `IpcTransport::Recv`. -/
  | recv (t : IpcTransport δ) (d : δ)
  /-- `IpcStrmTransport::Recv`. -/
  | strmRecv (t : IpcTransport δ) (d : δ)

namespace SegmentOp

variable {δ : Type*}

/-- The segment after an operation. -/
def apply (m : MemPools) (s : IpcSegment) : SegmentOp δ → IpcSegment
  | copy => copyConstruct m s
  | assign rhs => s.assign m rhs
  | assignSelf => s
  | clear => s.clear
  | options data => s.setOptions data
  | priority data => s.setPriority data
  | fragNum val => s.setFragNum val
  | srcAddr addr => s.setSrcAddr addr
  | dstAddr addr => s.setDstAddr addr
  | msgId val => s.setMsgId val
  | context val => s.setContext val
  | msgType val => s.setMsgType val
  | ctlCode val => s.setCtlCode val
  | dataLen len => s.setDataLen len
  | dataSetLong value => (s.dataSetLong value).2
  | dataSetBuffer data => (s.dataSetBuffer data).2
  | dataSet d => (s.dataSet d).2
  | recv t d => (t.recv m s d).seg
  | strmRecv t d => (IpcStrmTransport.recv m t s d).seg

/-- The operation writes fields or payload of the segment, and nothing else. -/
def Writes : SegmentOp δ → Prop
  | copy | assign _ | assignSelf | recv _ _ | strmRecv _ _ => False
  | _ => True

end SegmentOp

/-! ### Sizes -/

namespace Buffer

theorem length_overwrite_le (l : List UInt8) (p : ℕ) (d : List UInt8) :
    (overwrite l p d).length ≤ max l.length p + d.length := by
  rw [overwrite, List.length_append, List.length_append, List.length_take, List.length_drop]
  omega

/-- A write that ends in the block leaves the size. -/
theorem size_memWr_of_le {b : Buffer} {p : ℕ} {d : List UInt8} (h : p + d.length ≤ b.size) :
    (b.memWr p d).size = b.size := by
  cases hb : b.block with
  | none => simp [memWr, size, mem, hb]
  | some x =>
      rw [size_of_block hb] at h ⊢
      simp only [memWr, size, mem, hb, Option.map_some, Option.getD_some]
      exact length_overwrite_of_le h

/-- There is room for a full segment after a resize: the block is kept, or the pool has a large one. -/
def RoomFor (m : MemPools) (b : Buffer) (newSize : ℕ) : Prop :=
  b.keeps newSize = true ∨ 0 < newSize ∧ ∃ k, m.blockSize newSize = some k ∧ segMaxLen ≤ k

/-- **When a resize leaves room for a full segment**, in a buffer that had it. -/
theorem le_size_resize_iff {m : MemPools} {b : Buffer} (hb : segMaxLen ≤ b.size) (n : ℕ) :
    segMaxLen ≤ (b.resize m n).2.size ↔ RoomFor m b n := by
  rw [RoomFor, resize]
  by_cases hkeeps : b.keeps n = true
  · rw [if_pos hkeeps]
    exact iff_of_true hb (.inl hkeeps)
  · rw [if_neg hkeeps]
    have hpos : ¬ segMaxLen ≤ 0 := by decide
    simp only [hkeeps, size, mem, freshBlock]
    by_cases hn : 0 < n
    · rw [if_pos hn]
      cases hk : m.blockSize n with
      | none => simp [hpos]
      | some k => simp [hn]
    · rw [if_neg hn]
      simp [hn, hpos]

end Buffer

namespace IoDev

variable {δ : Type*}

/-- A transfer into a buffer stays in the block that the resize has made. -/
theorem size_recvBuf (dev : IoDev δ) (m : MemPools) (b : Buffer) (rcvLen : ℕ) (d : δ) :
    (dev.recvBuf m b rcvLen d).buf.size = (b.resize m rcvLen).2.size := by
  simp only [recvBuf]
  by_cases hroom : ((b.resize m rcvLen).1 && (b.resize m rcvLen).2.block.isSome) = true
  · rw [if_pos hroom]
    cases hl : (dev.recv d rcvLen).1 with
    | none => rfl
    | some l =>
        have hlen := dev.recv_le hl
        have hle := Buffer.le_size_resize (Bool.and_eq_true_iff.1 hroom).1
        rw [Buffer.size_lenSet]
        exact Buffer.size_memWr_of_le (by omega)
  · rw [if_neg hroom]
    rfl

end IoDev

namespace IpcSegment

variable {s : IpcSegment}

theorem size_hdrWr (h : s.Full) {offset : ℕ} {d : List UInt8} (hd : offset + d.length ≤ segData) :
    (s.hdrWr offset d).buf.size = s.buf.size :=
  Buffer.size_memWr_of_le (hd.trans (le_trans (by decide) h))

/-- Clearing a segment makes it no larger than its first two fields, if it is not larger already. -/
theorem size_clear_le (s : IpcSegment) : s.clear.buf.size ≤ max s.buf.size 2 := by
  have hwr : ∀ (b : Buffer) (p : ℕ) (x : UInt8), p ≤ 1 →
      (b.memWr p [x]).size ≤ max b.size 2 := by
    intro b p x hp
    cases hb : b.block with
    | none => simp [Buffer.memWr, Buffer.size, Buffer.mem, hb]
    | some l =>
        have hle := Buffer.length_overwrite_le l p [x]
        rw [List.length_singleton] at hle
        simp only [Buffer.memWr, Buffer.size, Buffer.mem, hb, Option.map_some, Option.getD_some]
        rcases Nat.lt_or_ge p l.length with hlt | hge
        · rw [length_overwrite_of_le (by rw [List.length_singleton]; omega)]
          exact le_max_left _ _
        · omega
  have hver := hwr ((s.buf.clear 0).lenSet segData) segVersion 0 (by decide)
  rw [size_clear_lenSet] at hver
  exact (hwr _ segOptions _ (by decide)).trans (max_le hver (le_max_right _ _))

/-- A segment is full after it has been cleared if and only if it was so before. -/
theorem full_clear_iff (s : IpcSegment) : s.clear.Full ↔ s.Full := by
  refine ⟨fun h => ?_, full_clear⟩
  have hle := size_clear_le s
  have hmax : segMaxLen = 1024 := rfl
  have h' : segMaxLen ≤ s.clear.buf.size := h
  have hgoal : segMaxLen ≤ s.buf.size := by omega
  exact hgoal

theorem size_clear (h : s.Full) : s.clear.buf.size = s.buf.size := by
  have hle := size_clear_le s
  have h2 : 2 ≤ s.buf.size := le_trans (by decide) h
  have hge : s.buf.size ≤ s.clear.buf.size := by
    rw [← size_clear_lenSet s.buf segData]
    exact (Buffer.size_memWr_le _ _ _).trans (Buffer.size_memWr_le _ _ _)
  omega

theorem size_dataSet (h : s.Full) (d : List UInt8) : (s.dataSet d).2.buf.size = s.buf.size := by
  have hcap : segMaxLen = segData + capacity := rfl
  have hsize : segMaxLen ≤ s.buf.size := h
  set copyLen := if d.length < capacity then d.length else capacity with hcopy
  have hlen : copyLen ≤ capacity := by
    rw [hcopy]
    split_ifs <;> omega
  have hpay : (s.buf.memWr segData (d.take copyLen)).size = s.buf.size :=
    Buffer.size_memWr_of_le (by
      have := List.length_take_le copyLen d
      omega)
  have hfull : (⟨s.buf.memWr segData (d.take copyLen)⟩ : IpcSegment).Full := hsize.trans hpay.ge
  exact (size_hdrWr hfull (by rw [length_toBE]; decide)).trans hpay

/-- An assignment makes room for a full segment. -/
theorem full_assign {m : MemPools} (hm : m.Plentiful) (s rhs : IpcSegment) : (s.assign m rhs).Full := by
  have hsize : segMaxLen ≤ (s.buf.resize m segMaxLen).2.size :=
    Buffer.le_size_resize (Buffer.resize_fst hm s.buf segMaxLen)
  rw [assign]
  split_ifs
  · exact hsize.trans (Buffer.size_memWr_le ((s.buf.resize m segMaxLen).2.lenSet rhs.buf.lenGet) _ _)
  · exact hsize

end IpcSegment

/-! ### Receiving -/

namespace IpcTransport

variable {δ : Type*}

theorem full_recvSegment_iff {m : MemPools} {s : IpcSegment} (h : s.Full) (dev : IoDev δ) (rcvLen : ℕ)
    (d : δ) : (recvSegment dev m s rcvLen d).seg.Full ↔ s.buf.RoomFor m rcvLen := by
  have hsize : (⟨(dev.recvBuf m s.buf rcvLen d).buf⟩ : IpcSegment).Full ↔ s.buf.RoomFor m rcvLen := by
    rw [← Buffer.le_size_resize_iff h, ← dev.size_recvBuf m s.buf rcvLen d]
    rfl
  simp only [recvSegment]
  split_ifs
  · exact hsize
  · exact (full_clear_iff _).trans hsize
  · exact hsize

/-- A full segment keeps its block when a datagram is received into it. -/
theorem roomFor_size {m : MemPools} {s : IpcSegment} (h : s.Full) : s.buf.RoomFor m s.buf.size :=
  .inl (Buffer.keeps_size h.size_pos)

end IpcTransport

namespace IpcStrmTransport

variable {δ : Type*}

/-- When a frame is received into the segment: the device, the length that the frame gives for its
payload, and what is behind the device then. -/
def framePayload (m : MemPools) (t : IpcTransport δ) (s : IpcSegment) (d : δ) :
    Option (IoDev δ × ℕ × δ) :=
  match t.ptrRecvDevice with
  | none => none
  | some dev =>
      let h := dev.recvBuf m (Buffer.construct m ipcStrmHeaderLen) ipcStrmHeaderLen
        (dev.fullRead true d)
      if h.rcvd = ipcStrmHeaderLen then
        match decodeHeader h.buf with
        | none => none
        | some (opCode, rcvLen) =>
            if opCode = opCodeIpcMsg ∧ rcvLen > 0 ∧ rcvLen ≤ s.buf.size then
              some (dev, rcvLen, h.env)
            else
              -- what could not be discarded is received
              let r := dev.recvBuf m Buffer.empty rcvLen h.env
              if r.rcvd ≠ rcvLen then some (dev, rcvLen, r.env) else none
      else none

/-- The segment after `Recv`. -/
theorem seg_recv (m : MemPools) (t : IpcTransport δ) (s : IpcSegment) (d : δ) :
    (recv m t s d).seg = ((framePayload m t s d).map fun p =>
      (IpcTransport.recvSegment p.1 m s p.2.1 p.2.2).seg).getD s := by
  rw [recv, framePayload]
  cases t.ptrRecvDevice with
  | none => rfl
  | some dev =>
      simp only
      split_ifs with hhdr
      · cases decodeHeader (dev.recvBuf m (Buffer.construct m ipcStrmHeaderLen) ipcStrmHeaderLen
          (dev.fullRead true d)).buf with
        | none => rfl
        | some r =>
            obtain ⟨opCode, rcvLen⟩ := r
            simp only
            split_ifs <;> rfl
      · rfl

end IpcStrmTransport

/-! ### Operations -/

namespace SegmentOp

variable {δ : Type*}

/-- The operation receives a frame for which the buffer becomes too small. -/
def Shrinks (m : MemPools) (s : IpcSegment) : SegmentOp δ → Prop
  | strmRecv t d => ∃ p, IpcStrmTransport.framePayload m t s d = some p ∧ ¬ s.buf.RoomFor m p.2.1
  | _ => False

/-- **What an operation does to the size**: a full segment stays full, unless the operation receives a
frame for which the buffer becomes too small. -/
theorem full_apply_iff {m : MemPools} (hm : m.Plentiful) {s : IpcSegment} (h : s.Full)
    (o : SegmentOp δ) : (o.apply m s).Full ↔ ¬ o.Shrinks m s := by
  cases o with
  | strmRecv t d =>
      rw [apply, IpcStrmTransport.seg_recv, Shrinks]
      cases IpcStrmTransport.framePayload m t s d with
      | none => exact iff_of_true h (by simp)
      | some p => simpa using IpcTransport.full_recvSegment_iff h p.1 p.2.1 p.2.2
  | recv t d =>
      refine iff_of_true ?_ not_false
      rw [apply, IpcTransport.recv]
      cases t.ptrRecvDevice with
      | none => exact h
      | some dev =>
          exact (IpcTransport.full_recvSegment_iff h dev _ d).2 (IpcTransport.roomFor_size h)
  | copy => exact iff_of_true (full_assign hm _ s) not_false
  | assign rhs => exact iff_of_true (full_assign hm s rhs) not_false
  | assignSelf => exact iff_of_true h not_false
  | clear => exact iff_of_true (full_clear h) not_false
  | dataSetLong value => exact iff_of_true (h.trans (size_dataSet h _).ge) not_false
  | dataSetBuffer data => exact iff_of_true (h.trans (size_dataSet h _).ge) not_false
  | dataSet d => exact iff_of_true (h.trans (size_dataSet h d).ge) not_false
  | _ => exact iff_of_true (h.hdrWr _ _) not_false

/-- **No field and no payload is written behind the end of the buffer**, which would make it longer. -/
theorem size_apply (m : MemPools) {s : IpcSegment} (h : s.Full) {o : SegmentOp δ} (ho : o.Writes) :
    (o.apply m s).buf.size = s.buf.size := by
  cases o with
  | copy | assign | assignSelf | recv | strmRecv => exact ho.elim
  | clear => exact size_clear h
  | dataSetLong | dataSetBuffer | dataSet => exact size_dataSet h _
  | fragNum | dataLen => exact size_hdrWr h (by rw [length_toBE]; decide)
  | srcAddr | dstAddr | msgId | context => exact size_hdrWr h (by rw [length_toBE]; decide)
  | options | priority | msgType | ctlCode =>
      exact size_hdrWr h (by rw [List.length_singleton]; decide)

end SegmentOp

/-- **The buffer of a segment holds a full segment at every moment** of a history of operations if and only
if no frame is received for which it shrinks; and while it does, nothing is written behind its end. -/
theorem segment_full_iff {δ : Type*} {m : MemPools} (hm : m.Plentiful) {s : IpcSegment}
    (hs : s = IpcSegment.construct m ∨ ∃ rhs, s = copyConstruct m rhs) (ops : List (SegmentOp δ)) :
    ((∀ pre, pre <+: ops → (pre.foldl (SegmentOp.apply m) s).Full) ↔
      ∀ pre o post, ops = pre ++ o :: post → ¬ o.Shrinks m (pre.foldl (SegmentOp.apply m) s)) ∧
    ∀ (s' : IpcSegment) (o : SegmentOp δ), s'.Full → o.Writes →
      (o.apply m s').buf.size = s'.buf.size := by
  have hfull : s.Full := by
    rcases hs with rfl | ⟨rhs, rfl⟩
    · exact full_construct (hm segMaxLen)
    · exact full_assign hm _ rhs
  refine ⟨?_, fun s' o h ho => SegmentOp.size_apply m h ho⟩
  exact StepSystem.forall_prefix_iff (P := IpcSegment.Full) (H := SegmentOp.Shrinks m)
    (fun _ o h => SegmentOp.full_apply_iff hm h o) hfull ops

/-- A segment gets a fragment number and a payload. -/
def sampleWrites : List (SegmentOp Unit) := [.fragNum 3, .dataSet [1, 2]]

theorem segment_full_iff_written :
    ((∀ pre, pre <+: sampleWrites → (pre.foldl (SegmentOp.apply defaultPools)
        (IpcSegment.construct defaultPools)).Full) ↔
      ∀ pre o post, sampleWrites = pre ++ o :: post → ¬ o.Shrinks defaultPools
        (pre.foldl (SegmentOp.apply defaultPools) (IpcSegment.construct defaultPools))) ∧
    ((IpcSegment.construct defaultPools).dataSet [1, 2]).2.buf.size =
      (IpcSegment.construct defaultPools).buf.size := by
  obtain ⟨hiff, hsize⟩ := segment_full_iff plentiful_defaultPools (.inl rfl) sampleWrites
  exact ⟨hiff, hsize _ (.dataSet [1, 2]) (full_construct (plentiful_defaultPools segMaxLen)) trivial⟩

/-- A frame with a segment that has no payload. -/
def shortFrame : List UInt8 := IpcStrmTransport.headerOctets 3 24 ++ List.replicate 24 0

/-- The stream transport receives the frame, and the segment is left with a buffer of 64 octets; a payload
that fits into a segment is then written behind its end. -/
theorem strmRecv_shrinks : ∃ r : RecvAnswer (List UInt8),
    IpcStrmTransport.recv defaultPools ⟨none, some listDev, ∅⟩ (IpcSegment.construct defaultPools)
      shortFrame = r ∧
    r.rv = true ∧ r.seg.buf.size = 64 ∧ ¬ r.seg.Full ∧
      (r.seg.dataSet (List.replicate 1000 0)).2.buf.size = 1024 := by
  have hrv : (IpcStrmTransport.recv defaultPools ⟨none, some listDev, ∅⟩
      (IpcSegment.construct defaultPools) shortFrame).rv = true := by decide +kernel
  have hsize : (IpcStrmTransport.recv defaultPools ⟨none, some listDev, ∅⟩
      (IpcSegment.construct defaultPools) shortFrame).seg.buf.size = 64 := by decide +kernel
  have hset : ((IpcStrmTransport.recv defaultPools ⟨none, some listDev, ∅⟩
      (IpcSegment.construct defaultPools) shortFrame).seg.dataSet
        (List.replicate 1000 0)).2.buf.size = 1024 := by decide +kernel
  refine ⟨_, rfl, hrv, hsize, ?_, hset⟩
  rw [IpcSegment.Full, hsize]
  decide

end CodePort
