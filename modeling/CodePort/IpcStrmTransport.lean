/-
The stream transport.

A stream has no datagrams, so a segment travels in a frame: a header with an identifier, an
operation code and a length, and that many octets behind it.

Main definitions:

* `CodePort.IpcStrmTransport.encodeHeader`, `decodeHeader` — the frame header;
* `CodePort.IpcStrmTransport.send`, `recv` — what the stream transport overrides.

Main results:

* `CodePort.IpcStrmTransport.decode_encodeHeader` — **a header reads back**;
* `CodePort.IpcStrmTransport.deleted_send` — the segment is deleted, whatever the device does;
* `CodePort.IpcStrmTransport.rv_send_iff` — a send succeeds when the device takes the header and the
  whole segment.
-/

import CodePort.IpcTransport

set_option relaxedAutoImplicit false
set_option autoImplicit false

namespace CodePort

open IpcSegment Octets

namespace IpcStrmTransport

def ipcStrmHeaderLen : ℕ := 0x0008
def ipcStrmHeaderId : ℕ := 0x1a19

def opCodeIpcMsg : ℕ := 0x0003

/-! ### The frame header -/

/-- Generate the stream header. -/
def encodeHeader (m : MemPools) (header : Buffer) (opCode length : ℕ) : Bool × Buffer :=
  let r := header.resize m ipcStrmHeaderLen
  if r.1 then
    -- insert the header id, the opcode and the payload length
    let buf := ((r.2.memWr 0 (toBE 2 ipcStrmHeaderId)).memWr 2 (toBE 2 opCode)).memWr 4
      (toBE 4 length)
    (true, buf.lenSet ipcStrmHeaderLen)
  else (false, r.2)

/-- Extract the opcode and the payload length of a stream header. -/
def decodeHeader (header : Buffer) : Option (ℕ × ℕ) :=
  if header.lenGet ≥ ipcStrmHeaderLen then
    -- confirm the header id
    if readUint16B header.mem = ipcStrmHeaderId then
      some (readUint16B (header.mem.drop 2), readUint32B (header.mem.drop 4))
    else none
  else none

variable {δ : Type*}

/-! ### Sending -/

/-- `Send`. -/
def send (m : MemPools) (t : IpcTransport δ) (pSeg : Option SegPtr) (d : δ) : SendAnswer δ :=
  match pSeg with
  | none => ⟨false, [], d⟩
  | some p =>
      -- generate the stream header
      let header := encodeHeader m (Buffer.construct m ipcStrmHeaderLen) opCodeIpcMsg p.seg.segLen
      if header.1 then
        match t.sendDeviceGet p.seg.dstAddr with
        | none => ⟨false, segmentDispose pSeg, d⟩
        | some dev =>
            -- send the stream header
            let sent := dev.sendBuf header.2 header.2.size d
            if sent.1 ≥ 0 ∧ sent.1 = header.2.lenGet then
              -- send the stream payload
              let r := dev.sendBuf p.seg.buf p.seg.buf.size sent.2
              ⟨decide (r.1 ≥ 0 ∧ r.1 = p.seg.segLen), segmentDispose pSeg, r.2⟩
            else ⟨false, segmentDispose pSeg, sent.2⟩
      else ⟨false, segmentDispose pSeg, d⟩

/-- The header of the frame that a segment is sent in. -/
def headerOf (m : MemPools) (s : IpcSegment) : Buffer :=
  (encodeHeader m (Buffer.construct m ipcStrmHeaderLen) opCodeIpcMsg s.segLen).2

/-- The device takes the header and then the whole segment. -/
def TakesFrame (m : MemPools) (dev : IoDev δ) (s : IpcSegment) (d : δ) : Prop :=
  (dev.sendBuf (headerOf m s) (headerOf m s).size d).1 = ipcStrmHeaderLen ∧
    IpcTransport.TakesSegment dev s (dev.sendBuf (headerOf m s) (headerOf m s).size d).2

/-- **The segment is deleted, whatever the device does.** -/
theorem deleted_send (m : MemPools) (t : IpcTransport δ) (p : SegPtr) (d : δ) :
    (send m t (some p) d).deleted = [p] := by
  rw [send]
  split_ifs
  · cases t.sendDeviceGet p.seg.dstAddr with
    | none => rfl
    | some dev =>
        simp only
        split_ifs <;> rfl
  · rfl

/-- The octets of a frame header. -/
def headerOctets (opCode length : ℕ) : List UInt8 :=
  toBE 2 ipcStrmHeaderId ++ toBE 2 opCode ++ toBE 4 length

@[simp] theorem length_headerOctets (opCode length : ℕ) :
    (headerOctets opCode length).length = ipcStrmHeaderLen := by
  simp [headerOctets, ipcStrmHeaderLen]

/-- A header that is generated fills its buffer. -/
theorem encodeHeader_spec {m : MemPools} {header : Buffer} {opCode length : ℕ}
    (h : (encodeHeader m header opCode length).1 = true) :
    (encodeHeader m header opCode length).2.data = headerOctets opCode length ∧
      (encodeHeader m header opCode length).2.lenGet = ipcStrmHeaderLen := by
  have hr : (header.resize m ipcStrmHeaderLen).1 = true := by
    by_contra hc
    rw [encodeHeader, if_neg hc] at h
    exact Bool.false_ne_true h
  have hsize := Buffer.le_size_resize hr
  set b := (header.resize m ipcStrmHeaderLen).2 with hb
  have hmem : (((b.memWr 0 (toBE 2 ipcStrmHeaderId)).memWr 2 (toBE 2 opCode)).memWr 4
      (toBE 4 length)) = b.memWr 0 (headerOctets opCode length) := by
    have h₁ := Buffer.memWr_memWr (Nat.zero_le b.size) (toBE 2 ipcStrmHeaderId) (toBE 2 opCode)
    have h₂ := Buffer.memWr_memWr (Nat.zero_le b.size) (toBE 2 ipcStrmHeaderId ++ toBE 2 opCode)
      (toBE 4 length)
    rw [length_toBE, Nat.zero_add] at h₁
    rw [List.length_append, length_toBE, length_toBE, Nat.zero_add, ← h₁] at h₂
    exact h₂
  rw [encodeHeader, if_pos hr, ← hb, hmem]
  have hdata := Buffer.data_lenSet_memWr (d := headerOctets opCode length) (b := b)
    (by rw [length_headerOctets]; exact hsize)
  rw [length_headerOctets] at hdata
  refine ⟨hdata, ?_⟩
  rw [Buffer.lenGet, ← Buffer.length_data, hdata, length_headerOctets]

/-- The fields of a buffer that holds a header. -/
theorem decodeHeader_of_data {header : Buffer} {opCode length : ℕ}
    (h : header.data = headerOctets opCode length) :
    decodeHeader header = some (opCode % 2 ^ 16, length % 2 ^ 32) := by
  have hlen : header.lenGet = ipcStrmHeaderLen := by
    rw [Buffer.lenGet, ← Buffer.length_data, h, length_headerOctets]
  have hmem : header.mem = headerOctets opCode length ++ header.mem.drop header.dataLen := by
    rw [← h, header.data_append_drop]
  rw [headerOctets, List.append_assoc, List.append_assoc] at hmem
  have hfield : ∀ (w n : ℕ) (l : List UInt8), ofBE ((toBE w n ++ l).takeD w 0) = n % 256 ^ w := by
    intro w n l
    rw [List.takeD_eq_take _ (by simp), List.take_left' (length_toBE w n), ofBE_toBE]
  have hid : readUint16B header.mem = ipcStrmHeaderId := by
    rw [hmem, readUint16B, hfield]
    rfl
  have hop : readUint16B (header.mem.drop 2) = opCode % 2 ^ 16 := by
    rw [hmem, List.drop_left' (length_toBE 2 _), readUint16B, hfield]
    rfl
  have hlength : readUint32B (header.mem.drop 4) = length % 2 ^ 32 := by
    rw [hmem, ← List.append_assoc, List.drop_left' (by simp), readUint32B, hfield]
    rfl
  rw [decodeHeader, if_pos hlen.ge, if_pos hid, hop, hlength]

/-- **A header reads back.** -/
theorem decode_encodeHeader {m : MemPools} {header : Buffer} {opCode length : ℕ}
    (h : (encodeHeader m header opCode length).1 = true) (hop : opCode < 2 ^ 16)
    (hlen : length < 2 ^ 32) :
    decodeHeader (encodeHeader m header opCode length).2 = some (opCode, length) := by
  rw [decodeHeader_of_data (encodeHeader_spec h).1, Nat.mod_eq_of_lt hop, Nat.mod_eq_of_lt hlen]

/-- The header is generated when there is memory for it. -/
theorem encodeHeader_construct (m : MemPools) (opCode length : ℕ) :
    (encodeHeader m (Buffer.construct m ipcStrmHeaderLen) opCode length).1 = true ↔
      m.blockSize ipcStrmHeaderLen ≠ none := by
  have hiff : (encodeHeader m (Buffer.construct m ipcStrmHeaderLen) opCode length).1 = true ↔
      ((Buffer.construct m ipcStrmHeaderLen).resize m ipcStrmHeaderLen).1 = true := by
    rw [encodeHeader]
    split_ifs with h <;> simp [h]
  have hpos : 0 < ipcStrmHeaderLen := by decide
  rw [hiff]
  cases hk : m.blockSize ipcStrmHeaderLen with
  | none =>
      have hfresh : Buffer.freshBlock m ipcStrmHeaderLen = none := by
        rw [Buffer.freshBlock, if_pos hpos, hk, Option.map_none]
      have hnone : (Buffer.construct m ipcStrmHeaderLen).block = none := hfresh
      simp [Buffer.resize, Buffer.keeps, hnone, hfresh, hpos.ne']
  | some k =>
      have hfresh : (Buffer.freshBlock m ipcStrmHeaderLen).isSome := by
        rw [Buffer.freshBlock, if_pos hpos, hk]
        rfl
      rw [Buffer.resize]
      split_ifs <;> simp [hfresh]

/-- A send succeeds when there is memory for the header, and a device that takes the header and then
the whole segment. -/
theorem rv_send_iff (m : MemPools) (t : IpcTransport δ) (p : SegPtr) (d : δ) :
    (send m t (some p) d).rv = true ↔ m.blockSize ipcStrmHeaderLen ≠ none ∧
      ∃ dev, t.sendDeviceGet p.seg.dstAddr = some dev ∧ TakesFrame m dev p.seg d := by
  rw [send, ← encodeHeader_construct m opCodeIpcMsg p.seg.segLen]
  split_ifs with h
  · have hlen : ((headerOf m p.seg).lenGet : ℤ) = ipcStrmHeaderLen :=
      congrArg Nat.cast (encodeHeader_spec h).2
    rw [← headerOf]
    cases t.sendDeviceGet p.seg.dstAddr with
    | none => simp
    | some dev =>
        simp only [h, Option.some.injEq, exists_eq_left', true_and, TakesFrame, hlen]
        split_ifs with hsent
        · simp only [hsent.2, true_and, decide_eq_true_eq, IpcTransport.TakesSegment]
          omega
        · refine iff_of_false not_false fun hc => hsent ⟨?_, hc.1⟩
          rw [hc.1]
          omega
  · simp [h]

/-! ### Receiving -/

/-- `Recv` into a segment. -/
def recv (m : MemPools) (t : IpcTransport δ) (s : IpcSegment) (d : δ) : RecvAnswer δ :=
  match t.ptrRecvDevice with
  | none => ⟨false, s, d⟩
  | some dev =>
      -- make sure device is in full read mode, and receive stream header
      let h := dev.recvBuf m (Buffer.construct m ipcStrmHeaderLen) ipcStrmHeaderLen
        (dev.fullRead true d)
      if h.rcvd = ipcStrmHeaderLen then
        match decodeHeader h.buf with
        | none => ⟨false, s, h.env⟩
        | some (opCode, rcvLen) =>
            -- validate header values
            if opCode = opCodeIpcMsg ∧ rcvLen > 0 ∧ rcvLen ≤ s.buf.size then
              IpcTransport.recvSegment dev m s rcvLen h.env
            else
              -- not an IPC message so just read and discard
              let r := dev.recvBuf m Buffer.empty rcvLen h.env
              if r.rcvd ≠ rcvLen then IpcTransport.recvSegment dev m s rcvLen r.env
              else ⟨false, s, r.env⟩
      else ⟨false, s, h.env⟩

end IpcStrmTransport

end CodePort
