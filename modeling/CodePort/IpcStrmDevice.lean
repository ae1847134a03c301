/-
A byte stream between two stream transports.

A stream transport sends a segment as a frame, header and payload, through its send device, and the
transport at the other end reads frames from its receive device.  Here the two devices have one byte
stream between them: what is written is put behind it, and what is read is taken from its front.

Main definitions:

* `CodePort.IoDev.WritesFully`, `IoDev.Idles` — what is asked of the two devices;
* `CodePort.frameOctets` — the frame of the octets of a segment.

Main results:

* `CodePort.IpcStrmTransport.send_frame` — a segment that is sent is a frame on the stream;
* `CodePort.recvLoop_wire` — **a turn of the receive thread takes it from there**;
* `CodePort.recvLoop_idle` — a turn that finds the stream empty changes nothing.
-/

import CodePort.IpcStrmRecv
import CodePort.MessageView

set_option relaxedAutoImplicit false
set_option autoImplicit false

namespace CodePort

open IpcSegment IpcStrmTransport

variable {δ : Type*}

/-! ### Devices -/

namespace IoDev

/-- The device takes everything that is sent to it, and puts it behind the stream. -/
structure WritesFully (dev : IoDev δ) (stream : δ → List UInt8) : Prop where
  length : ∀ d l, (dev.send d l).1 = some l.length
  stream : ∀ d l, stream (dev.send d l).2 = stream d ++ l

/-- In full read mode the device reads nothing from an empty stream: it gives up waiting, or answers
that there is nothing. -/
structure Idles (dev : IoDev δ) (stream : δ → List UInt8) (full : δ → Prop) : Prop where
  recv : ∀ d n, full d → stream d = [] → (dev.recv d n).1.getD [] = []
  stream : ∀ d n, full d → stream d = [] → stream (dev.recv d n).2 = []

variable {dev : IoDev δ} {stream : δ → List UInt8} {full : δ → Prop}

/-- A buffer that is sent as a whole is behind the stream afterwards. -/
theorem WritesFully.sendBuf (h : dev.WritesFully stream) {buf : Buffer} (hpos : 0 < buf.dataLen)
    (hlt : buf.dataLen < 0x80000000) (d : δ) :
    (dev.sendBuf buf buf.size d).1 = buf.dataLen ∧
      stream (dev.sendBuf buf buf.size d).2 = stream d ++ buf.data := by
  have hle : ¬ buf.lenGet > buf.size := not_lt.2 buf.dataLen_le
  obtain ⟨mem, hmem⟩ : ∃ mem, buf.block = some mem :=
    Option.ne_none_iff_exists'.1 (@IpcSegment.block_ne_none ⟨buf⟩ hpos)
  have hdata : buf.data = mem.take buf.dataLen := by rw [Buffer.data, Buffer.mem, hmem, Option.getD_some]
  have hlen : (mem.take buf.dataLen).length = buf.dataLen := by rw [← hdata, Buffer.length_data]
  rw [IoDev.sendBuf, if_neg hle]
  simp only [hmem, Buffer.lenGet, h.length, h.stream, hlen, Option.map_some, Option.getD_some,
    toInt_of_lt hlt, hdata, and_self]

/-- A transfer from an empty stream fails, or reads nothing. -/
theorem Idles.recvBuf (h : dev.Idles stream full) (m : MemPools) (buf : Buffer) (n : ℕ) {d : δ}
    (hfull : full d) (hd : stream d = []) :
    (dev.recvBuf m buf n d).rcvd ≤ 0 ∧ stream (dev.recvBuf m buf n d).env = [] := by
  have hread := h.recv d n hfull hd
  have hrest := h.stream d n hfull hd
  have herror : kError ≤ 0 := by decide
  simp only [IoDev.recvBuf]
  split_ifs
  · cases hl : (dev.recv d n).1 with
    | none => exact ⟨herror, hrest⟩
    | some l =>
        rw [hl, Option.getD_some] at hread
        rw [hread]
        exact ⟨le_refl (0 : ℤ), hrest⟩
  · exact ⟨herror, hd⟩

end IoDev

/-! ### Frames -/

/-- The frame that a segment is sent in. -/
def frameOctets (w : List UInt8) : List UInt8 := headerOctets opCodeIpcMsg w.length ++ w

namespace IpcStrmTransport

/-- **A segment that is sent is a frame on the stream.** -/
theorem send_frame {m : MemPools} (hm : m.blockSize ipcStrmHeaderLen ≠ none) {t : IpcTransport δ}
    {dev : IoDev δ} {stream : δ → List UInt8} {p : SegPtr}
    (hdev : t.sendDeviceGet p.seg.dstAddr = some dev) (hwrites : dev.WritesFully stream)
    (hlen : segData ≤ p.wire.length) (hmax : p.wire.length ≤ segMaxLen)
    (hseg : p.wire.length = segData + wireGet p.wire .dataLen) (d : δ) :
    (send m t (some p) d).rv = true ∧
      stream (send m t (some p) d).env = stream d ++ frameOctets p.wire := by
  have hdl : p.wire.length = p.seg.buf.dataLen := Buffer.length_data _
  have hsegLen : p.seg.segLen = p.wire.length := (SegPtr.segLen_eq hlen).trans hseg.symm
  have h24 : segData = 24 := rfl
  have h1024 : segMaxLen = 1024 := rfl
  have henc := (encodeHeader_construct m opCodeIpcMsg p.seg.segLen).2 hm
  obtain ⟨hdata, hhdr⟩ := encodeHeader_spec henc
  have h8 : ipcStrmHeaderLen = 8 := rfl
  obtain ⟨hsent, hstream⟩ := @IoDev.WritesFully.sendBuf _ _ _ hwrites (encodeHeader m
    (Buffer.construct m ipcStrmHeaderLen) opCodeIpcMsg p.seg.segLen).2
    (by rw [Buffer.lenGet] at hhdr; omega) (by rw [Buffer.lenGet] at hhdr; omega) d
  have hboth : ∀ d', (dev.sendBuf p.seg.buf p.seg.buf.size d').1 = p.seg.segLen ∧
      stream (dev.sendBuf p.seg.buf p.seg.buf.size d').2 = stream d' ++ p.wire := by
    intro d'
    rw [hsegLen, hdl]
    exact hwrites.sendBuf (by omega) (by omega) d'
  rw [Buffer.lenGet] at hhdr
  simp only [send, henc, if_true, hdev, hsent, hhdr, Buffer.lenGet]
  rw [if_pos ⟨by omega, trivial⟩]
  obtain ⟨hrv, hput⟩ := hboth (dev.sendBuf (encodeHeader m (Buffer.construct m ipcStrmHeaderLen)
    opCodeIpcMsg p.seg.segLen).2 (encodeHeader m (Buffer.construct m ipcStrmHeaderLen) opCodeIpcMsg
      p.seg.segLen).2.size d).2
  refine ⟨?_, ?_⟩
  · rw [hrv, decide_eq_true_iff]
    omega
  · rw [hput, hstream, hdata, frameOctets, hsegLen, List.append_assoc]

/-- A transport that finds the stream empty keeps its segment. -/
theorem recv_idle {m : MemPools} {t : IpcTransport δ} {dev : IoDev δ}
    (hdev : t.ptrRecvDevice = some dev) {stream : δ → List UInt8} {full : δ → Prop}
    (hreads : dev.ReadsFully stream full) (hidles : dev.Idles stream full) (s : IpcSegment) {d : δ}
    (hd : stream d = []) : (recv m t s d).rv = false ∧ (recv m t s d).seg = s ∧
      stream (recv m t s d).env = [] := by
  obtain ⟨hle, hrest⟩ := hidles.recvBuf m (Buffer.construct m ipcStrmHeaderLen) ipcStrmHeaderLen
    (hreads.full_fullRead d) ((hreads.stream_fullRead d).trans hd)
  have h8 : ipcStrmHeaderLen = 8 := rfl
  simp only [recv, hdev]
  rw [if_neg (by omega)]
  exact ⟨rfl, rfl, hrest⟩

end IpcStrmTransport

/-! ### The receive thread -/

section

variable {dev : IoDev δ} {stream : δ → List UInt8} {full : δ → Prop} {m : MemPools}
  {t : IpcTransport δ}

/-- **A turn of the receive thread takes a frame from the stream**, and receives the segment in it. -/
theorem recvLoop_wire (hreads : dev.ReadsFully stream full)
    (hm : ∀ n ≤ segMaxLen, m.blockSize n ≠ none) (hdev : t.ptrRecvDevice = some dev)
    {w : List UInt8} (hlen : segData ≤ w.length) (hmax : w.length ≤ segMaxLen) {s : RecvLoop δ}
    (hp : ∀ p ∈ s.pSeg, p.seg.Full) {r : List UInt8} (hs : stream s.env = frameOctets w ++ r) :
    ∃ p s', recvLoop m (.stream t) s () = some (some p, s') ∧ p.wire = w ∧
      (∀ q ∈ s'.pSeg, q.seg.Full) ∧ stream s'.env = r := by
  have h24 : segData = 24 := rfl
  have h1024 : segMaxLen = 1024 := rfl
  let f : Frame := ⟨opCodeIpcMsg, w, by decide, by omega⟩
  have hf : f.Harmless m := ⟨Nat.lt_of_lt_of_le (by decide) hlen,
    Nat.lt_of_le_of_lt hmax (by decide), hm _ hmax, fun _ hlt => absurd hlen (not_le.2 hlt)⟩
  have hmsg : f.message = some w := if_pos ⟨rfl, hlen, hmax⟩
  obtain ⟨out, s', hstep, hout, hfull, hrest⟩ :=
    recvLoop_frame hreads (hm _ (by decide)) (hm _ le_rfl) hdev hf hp hs
  rw [hmsg] at hout
  obtain ⟨p, rfl, hwire⟩ := Option.map_eq_some_iff.1 hout
  exact ⟨p, s', hstep, hwire, hfull, hrest⟩

/-- A turn that finds the stream empty changes nothing. -/
theorem recvLoop_idle (hreads : dev.ReadsFully stream full) (hidles : dev.Idles stream full)
    (hm : m.blockSize segMaxLen ≠ none) (hdev : t.ptrRecvDevice = some dev) {s : RecvLoop δ}
    (hp : ∀ p ∈ s.pSeg, p.seg.Full) (hs : stream s.env = []) :
    ∃ s', recvLoop m (.stream t) s () = some (none, s') ∧ (∀ q ∈ s'.pSeg, q.seg.Full) ∧
      stream s'.env = [] := by
  obtain ⟨p, hor, hfull⟩ := RecvLoop.exists_seg hm hp
  obtain ⟨hrv, hkeep, hrest⟩ := IpcStrmTransport.recv_idle (m := m) hdev hreads hidles p.seg hs
  have hturn : recvTurn s.pSeg (some ⟨s.created, IpcSegment.construct m⟩)
      ((NodeTransport.stream t).recv m) s.env =
        ⟨none, some p, (IpcStrmTransport.recv m t p.seg s.env).env⟩ := by
    simp only [recvTurn, hor, NodeTransport.recv, hrv, hkeep, Bool.false_eq_true, if_false]
  refine ⟨_, by rw [recvLoop, hturn], ?_, hrest⟩
  intro q hq
  rw [← Option.some.inj hq]
  exact hfull

end

end CodePort
