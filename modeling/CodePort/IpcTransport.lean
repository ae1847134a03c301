/-
Devices and the transport base class.

A transport sends every segment to a device, the one that is registered for its address or the
default one, and disposes of the segment afterwards.  It receives a segment as one datagram.

Main definitions:

* `CodePort.IoDev` — a device, of which only the transfers of octets matter;
* `CodePort.IpcTransport` — the base class, with `send` and `recv`;
* `CodePort.IpcTransport.send` — its answer says which segments were deleted.

Main results:

* `CodePort.IoDev.recvBuf_of_room` — **what a transfer into a buffer leaves in it**;
* `CodePort.IpcTransport.deleted_send` — the segment is deleted, whatever the device does;
* `CodePort.IpcTransport.rv_send_iff` — a send succeeds when the device takes the whole segment.
-/

import CodePort.IpcAccum
import Mathlib.Data.List.AList

set_option relaxedAutoImplicit false
set_option autoImplicit false

namespace CodePort

open IpcSegment

/-! ### Devices -/

/-- A device with a state `δ` behind it.  A transfer answers how much was transferred, and `none`
if it failed altogether. -/
structure IoDev (δ : Type*) where
  /-- `Send` of octets: how many were written. -/
  send : δ → List UInt8 → Option ℕ × δ
  /-- `Recv` of at most so many octets: the octets that were read. -/
  recv : δ → ℕ → Option (List UInt8) × δ
  /-- Set the full read flag. -/
  fullRead : Bool → δ → δ
  send_le : ∀ {d l n}, (send d l).1 = some n → n ≤ l.length
  recv_le : ∀ {d n l}, (recv d n).1 = some l → l.length ≤ n

/-- The conversion of a length to `int`. -/
def toInt (n : ℕ) : ℤ := Int.bmod n 0x100000000

theorem toInt_of_lt {n : ℕ} (h : n < 0x80000000) : toInt n = n :=
  Int.bmod_eq_of_le_mul_two (by omega) (by omega)

/-- The error value. -/
def kError : ℤ := -1

namespace IoDev

variable {δ : Type*}

/-- `Send` of a buffer. -/
def sendBuf (dev : IoDev δ) (buf : Buffer) (sndLen : ℕ) (d : δ) : ℤ × δ :=
  -- make sure transmit length is always less than data length
  let length := if buf.lenGet > sndLen then sndLen else buf.lenGet
  match buf.block with
  | none => (kError, d)
  | some m =>
      let r := dev.send d (m.take length)
      ((r.1.map toInt).getD kError, r.2)

/-- What `Recv` into a buffer answers. -/
structure BufAnswer (δ : Type*) where
  rcvd : ℤ
  buf : Buffer
  env : δ

/-- `Recv` into a buffer. -/
def recvBuf (dev : IoDev δ) (m : MemPools) (buf : Buffer) (rcvLen : ℕ) (d : δ) : BufAnswer δ :=
  -- make sure there is enough buffer space to receive the number of octets requested
  let r := buf.resize m rcvLen
  if r.1 && r.2.block.isSome then
    let a := dev.recv d rcvLen
    match a.1 with
    | none => ⟨kError, r.2.lenSet 0, a.2⟩
    | some l =>
        -- if data was received, set the buffer's data length accordingly
        let rv := toInt l.length
        ⟨rv, (r.2.memWr 0 l).lenSet (if rv > 0 then rv.toNat else 0), a.2⟩
  else ⟨kError, r.2.lenSet 0, d⟩

/-- **A transfer into a buffer with room for it**: the buffer holds what the device has read. -/
theorem recvBuf_of_room {dev : IoDev δ} {m : MemPools} {buf : Buffer} {rcvLen : ℕ} {d : δ}
    {l : List UInt8} (hroom : (buf.resize m rcvLen).1 = true)
    (hblock : (buf.resize m rcvLen).2.block.isSome = true) (hl : (dev.recv d rcvLen).1 = some l)
    (hlen : l.length < 0x80000000) :
    (dev.recvBuf m buf rcvLen d).rcvd = l.length ∧ (dev.recvBuf m buf rcvLen d).buf.data = l ∧
      (buf.resize m rcvLen).2.size ≤ (dev.recvBuf m buf rcvLen d).buf.size ∧
      (dev.recvBuf m buf rcvLen d).env = (dev.recv d rcvLen).2 := by
  have hcap : l.length ≤ (buf.resize m rcvLen).2.size :=
    (dev.recv_le hl).trans (Buffer.le_size_resize hroom)
  have hdata := Buffer.data_lenSet_memWr hcap
  have hset : (if (l.length : ℤ) > 0 then (l.length : ℤ).toNat else 0) = l.length := by
    rw [Int.toNat_natCast]
    split_ifs <;> omega
  simp only [recvBuf, hroom, hblock, Bool.and_self, if_true, hl, toInt_of_lt hlen, hset, hdata,
    true_and, and_true, Buffer.size_lenSet]
  exact Buffer.size_memWr_le _ _ _

end IoDev

/-- A device with a list of octets behind it, which takes everything that is sent to it. -/
def listDev : IoDev (List UInt8) where
  send d l := (some l.length, d)
  recv d n := (some (d.take n), d.drop n)
  fullRead _ d := d
  send_le h := (Option.some.inj h).ge
  recv_le h := by
    rw [← Option.some.inj h, List.length_take]
    exact min_le_left _ _

/-! ### The transport -/

/-- The IPC transport base class. -/
structure IpcTransport (δ : Type*) where
  /-- Device to send messages; `none` is the NULL pointer, here and below. -/
  ptrSendDevice : Option (IoDev δ)
  /-- Device to receive messages. -/
  ptrRecvDevice : Option (IoDev δ)
  /-- Map of send devices by node address. -/
  sendDevices : AList fun _ : ℕ => Option (IoDev δ)

/-- What `Send` answers, and the segments it deletes. -/
structure SendAnswer (δ : Type*) where
  rv : Bool
  deleted : List SegPtr
  env : δ

/-- What `Recv` answers, and the segment afterwards. -/
structure RecvAnswer (δ : Type*) where
  rv : Bool
  seg : IpcSegment
  env : δ

/-- Properly dispose of a segment after transmission: the standard transport keeps no history, so
it deletes the segment. -/
def segmentDispose (pSeg : Option SegPtr) : List SegPtr := pSeg.toList

namespace IpcTransport

variable {δ : Type*}

/-- Return the appropriate send device. -/
def sendDeviceGet (t : IpcTransport δ) (nodeAddr : ℕ) : Option (IoDev δ) :=
  (t.sendDevices.lookup nodeAddr).getD t.ptrSendDevice

/-- `Send`. -/
def send (t : IpcTransport δ) (pSeg : Option SegPtr) (d : δ) : SendAnswer δ :=
  match pSeg with
  | none => ⟨false, [], d⟩
  | some p =>
      match t.sendDeviceGet p.seg.dstAddr with
      | none => ⟨false, segmentDispose pSeg, d⟩
      | some dev =>
          let r := dev.sendBuf p.seg.buf p.seg.buf.size d
          ⟨decide (r.1 ≥ 0 ∧ r.1 = p.seg.segLen), segmentDispose pSeg, r.2⟩

/-- Receive into the buffer of a segment, and decide what has been received. -/
def recvSegment (dev : IoDev δ) (m : MemPools) (s : IpcSegment) (rcvLen : ℕ) (d : δ) :
    RecvAnswer δ :=
  let r := dev.recvBuf m s.buf rcvLen d
  if r.rcvd > 0 then
    -- determine if in-band or out of band message
    if r.rcvd ≥ segData ∧ r.rcvd ≤ segMaxLen then ⟨true, ⟨r.buf⟩, r.env⟩
    -- something else, discard it
    else ⟨false, (⟨r.buf⟩ : IpcSegment).clear, r.env⟩
  else ⟨false, ⟨r.buf⟩, r.env⟩

/-- `Recv` into a segment. -/
def recv (m : MemPools) (t : IpcTransport δ) (s : IpcSegment) (d : δ) : RecvAnswer δ :=
  match t.ptrRecvDevice with
  | none => ⟨false, s, d⟩
  | some dev => recvSegment dev m s s.buf.size d

/-- The device takes the whole segment: it answers the length of the segment. -/
def TakesSegment (dev : IoDev δ) (s : IpcSegment) (d : δ) : Prop :=
  (dev.sendBuf s.buf s.buf.size d).1 = s.segLen

/-- **The segment is deleted, whatever the device does.** -/
theorem deleted_send (t : IpcTransport δ) (p : SegPtr) (d : δ) :
    (t.send (some p) d).deleted = [p] := by
  rw [send]
  cases t.sendDeviceGet p.seg.dstAddr <;> rfl

/-- A send succeeds when there is a device that takes the whole segment. -/
theorem rv_send_iff (t : IpcTransport δ) (p : SegPtr) (d : δ) :
    (t.send (some p) d).rv = true ↔
      ∃ dev, t.sendDeviceGet p.seg.dstAddr = some dev ∧ TakesSegment dev p.seg d := by
  rw [send]
  cases t.sendDeviceGet p.seg.dstAddr with
  | none => simp
  | some dev =>
      simp only [decide_eq_true_eq, Option.some.injEq, exists_eq_left', TakesSegment]
      omega

end IpcTransport

end CodePort
