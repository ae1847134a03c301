/-
Frames on a byte stream.

The receive thread calls `Recv` of the stream transport again and again, with the same segment until
something has been received into it.  `Recv` sizes the buffer of that segment to the length that a
frame announces, and measures later frames by the size of the buffer, so what a frame leaves behind
decides about the frames after it.

Main definitions:

* `CodePort.IoDev.ReadsFully` — a device in full read mode, and the byte stream behind it;
* `CodePort.Frame` — a complete frame, with the message that it carries;
* `CodePort.Frame.Harmless` — the frame leaves the thread a segment of full size;
* `CodePort.recvLoop` — one turn of `RecvThread`, with the segments that it creates.

Main results:

* `CodePort.Frame.Harmless.recv` — what `Recv` makes of one frame;
* `CodePort.recvThread_frames` — **every message arrives once, in order**, and nothing else does, as
  long as all frames are harmless;
* `CodePort.recvThread_loses_message` — a frame without payload costs the messages behind it.
-/

import CodePort.IpcNode
import CodePort.StepSystem

set_option relaxedAutoImplicit false
set_option autoImplicit false

namespace CodePort

open IpcSegment IpcStrmTransport StepSystem

variable {δ : Type*}

/-! ### The byte stream -/

namespace IoDev

/-- In full read mode the device reads exactly the octets it is asked for, in order, as long as the
stream behind it has them. -/
structure ReadsFully (dev : IoDev δ) (stream : δ → List UInt8) (full : δ → Prop) : Prop where
  full_fullRead : ∀ d, full (dev.fullRead true d)
  stream_fullRead : ∀ d, stream (dev.fullRead true d) = stream d
  recv : ∀ {d n}, full d → n ≤ (stream d).length →
    (dev.recv d n).1 = some ((stream d).take n) ∧ stream (dev.recv d n).2 = (stream d).drop n ∧
      full (dev.recv d n).2

variable {dev : IoDev δ} {stream : δ → List UInt8} {full : δ → Prop}

/-- A transfer into a buffer takes its octets from the front of the stream. -/
theorem ReadsFully.recvBuf (h : dev.ReadsFully stream full) {m : MemPools} (buf : Buffer) {d : δ}
    {l r : List UInt8} (hfull : full d) (hs : stream d = l ++ r) (hpos : 0 < l.length)
    (hlt : l.length < 0x80000000) (hm : m.blockSize l.length ≠ none) :
    (dev.recvBuf m buf l.length d).rcvd = l.length ∧
      (dev.recvBuf m buf l.length d).buf.data = l ∧
      (buf.resize m l.length).2.size ≤ (dev.recvBuf m buf l.length d).buf.size ∧
      stream (dev.recvBuf m buf l.length d).env = r ∧ full (dev.recvBuf m buf l.length d).env := by
  obtain ⟨hread, hrest, hfull'⟩ := @h.recv d l.length hfull (by rw [hs]; simp)
  rw [hs, List.take_left] at hread
  rw [hs, List.drop_left] at hrest
  obtain ⟨hroom, hblock⟩ := Buffer.resize_of_blockSize hpos hm buf
  obtain ⟨hrcvd, hdata, hsize, henv⟩ := recvBuf_of_room hroom hblock hread hlt
  exact ⟨hrcvd, hdata, hsize, by rw [henv, hrest], by rw [henv]; exact hfull'⟩

end IoDev

/-! ### Frames -/

/-- A complete frame: an opcode, and a payload whose length fits in the length field. -/
structure Frame where
  opCode : ℕ
  payload : List UInt8
  opCode_lt : opCode < 2 ^ 16
  length_lt : payload.length < 2 ^ 32

namespace Frame

/-- The octets of a frame. -/
def octets (f : Frame) : List UInt8 := headerOctets f.opCode f.payload.length ++ f.payload

/-- The message that a frame carries, if it is of the right kind and has the length of a segment. -/
def message (f : Frame) : Option (List UInt8) :=
  if f.opCode = opCodeIpcMsg ∧ segData ≤ f.payload.length ∧ f.payload.length ≤ segMaxLen then
    some f.payload
  else none

/-- The frame does no harm to the segment of the receive thread: it has a payload, whose length is an
`int` and for which there is memory, and a message shorter than a header does not make the buffer
smaller than a segment. -/
structure Harmless (m : MemPools) (f : Frame) : Prop where
  length_pos : 0 < f.payload.length
  length_lt : f.payload.length < 0x80000000
  blockSize_ne : m.blockSize f.payload.length ≠ none
  le_blockSize : f.opCode = opCodeIpcMsg → f.payload.length < segData →
    ∀ k, m.blockSize f.payload.length = some k → segMaxLen ≤ k

variable {dev : IoDev δ} {stream : δ → List UInt8} {full : δ → Prop} {m : MemPools} {f : Frame}

/-- **What is received of the payload** of a frame that passes for a message: the message, or a
segment of full size is left. -/
theorem Harmless.recvSegment (hf : f.Harmless m) (h : dev.ReadsFully stream full)
    {s : IpcSegment} (hs : s.Full) {d : δ} {r : List UInt8} (hfull : full d)
    (hd : stream d = f.payload ++ r) (hop : f.opCode = opCodeIpcMsg) :
    (IpcTransport.recvSegment dev m s f.payload.length d).rv = f.message.isSome ∧
      (∀ msg ∈ f.message,
        (IpcTransport.recvSegment dev m s f.payload.length d).seg.buf.data = msg) ∧
      (f.message = none → (IpcTransport.recvSegment dev m s f.payload.length d).seg.Full) ∧
      stream (IpcTransport.recvSegment dev m s f.payload.length d).env = r := by
  obtain ⟨hrcvd, hdata, hsize, hrest, -⟩ :=
    h.recvBuf s.buf hfull hd hf.length_pos hf.length_lt hf.blockSize_ne
  have hpos := hf.length_pos
  rw [IpcTransport.recvSegment]
  simp only [hrcvd]
  rw [if_pos (by omega)]
  by_cases hin : segData ≤ f.payload.length ∧ f.payload.length ≤ segMaxLen
  · have hmsg : f.message = some f.payload := if_pos ⟨hop, hin⟩
    rw [if_pos (by omega), hmsg]
    exact ⟨rfl, fun msg hm => hdata.trans (Option.some.inj hm),
      fun hc => absurd hc (Option.some_ne_none _), hrest⟩
  · have hmsg : f.message = none := if_neg fun hc => hin hc.2
    rw [if_neg (by omega), hmsg]
    refine ⟨rfl, fun msg hm => absurd hm (Option.not_mem_none _),
      fun _ => full_clear (le_trans ?_ hsize), hrest⟩
    rcases Nat.lt_or_ge f.payload.length segData with hlt | hge
    · -- a short message has its own block
      obtain ⟨k, hk⟩ := Option.ne_none_iff_exists'.1 hf.blockSize_ne
      have hfit : segMaxLen ≤ s.buf.size := hs
      have hhalf : 2 * f.payload.length ≤ s.buf.size := by
        rw [show segMaxLen = 1024 from rfl] at hfit
        rw [show segData = 24 from rfl] at hlt
        omega
      rw [Buffer.size_resize_of_le_half hf.length_pos hhalf hk]
      exact hf.le_blockSize hop hlt k hk
    · have hroom := Buffer.resize_of_blockSize hf.length_pos hf.blockSize_ne s.buf
      exact le_trans (by omega) (Buffer.le_size_resize hroom.1)

/-- What is left of the stream when the header of a frame has been read. -/
theorem recvHeader (h : dev.ReadsFully stream full) (hhdr : m.blockSize ipcStrmHeaderLen ≠ none)
    {d : δ} {r : List UInt8} (hd : stream d = f.octets ++ r) :
    ∃ a, dev.recvBuf m (Buffer.construct m ipcStrmHeaderLen) ipcStrmHeaderLen
        (dev.fullRead true d) = a ∧ a.rcvd = ipcStrmHeaderLen ∧
      decodeHeader a.buf = some (f.opCode, f.payload.length) ∧
      stream a.env = f.payload ++ r ∧ full a.env := by
  have hlen := length_headerOctets f.opCode f.payload.length
  have hs : stream (dev.fullRead true d) =
      headerOctets f.opCode f.payload.length ++ (f.payload ++ r) := by
    rw [h.stream_fullRead, hd, octets, List.append_assoc]
  obtain ⟨hrcvd, hdata, -, hrest, hfull⟩ := h.recvBuf (Buffer.construct m ipcStrmHeaderLen)
    (h.full_fullRead d) hs (by rw [hlen]; decide) (by rw [hlen]; decide) (by rw [hlen]; exact hhdr)
  rw [hlen] at hrcvd hdata hrest hfull
  refine ⟨_, rfl, hrcvd, ?_, hrest, hfull⟩
  rw [decodeHeader_of_data hdata, Nat.mod_eq_of_lt f.opCode_lt, Nat.mod_eq_of_lt f.length_lt]

/-- **What `Recv` makes of one frame.**  It answers true for a message, which is then in the segment;
otherwise a segment of full size is left.  In both cases the frame has been taken from the stream. -/
theorem Harmless.recv (hf : f.Harmless m) (h : dev.ReadsFully stream full)
    (hhdr : m.blockSize ipcStrmHeaderLen ≠ none) {t : IpcTransport δ}
    (hdev : t.ptrRecvDevice = some dev) {s : IpcSegment} (hs : s.Full) {d : δ} {r : List UInt8}
    (hd : stream d = f.octets ++ r) :
    (IpcStrmTransport.recv m t s d).rv = f.message.isSome ∧
      (∀ msg ∈ f.message, (IpcStrmTransport.recv m t s d).seg.buf.data = msg) ∧
      (f.message = none → (IpcStrmTransport.recv m t s d).seg.Full) ∧
      stream (IpcStrmTransport.recv m t s d).env = r := by
  obtain ⟨a, ha, hrcvd, hdecode, hpayload, hfull⟩ := recvHeader h hhdr hd
  have hfit : segMaxLen ≤ s.buf.size := hs
  simp only [IpcStrmTransport.recv, hdev, ha, if_pos hrcvd, hdecode]
  split_ifs with hmsg hfail
  · exact hf.recvSegment h hs hfull hpayload hmsg.1
  · -- the transfer of what is discarded does not fail
    obtain ⟨hall, -⟩ := h.recvBuf Buffer.empty hfull hpayload hf.length_pos hf.length_lt
      hf.blockSize_ne
    exact absurd hall hfail
  · obtain ⟨-, -, -, hrest, -⟩ := h.recvBuf Buffer.empty hfull hpayload hf.length_pos hf.length_lt
      hf.blockSize_ne
    have hnone : f.message = none :=
      if_neg fun hc => hmsg ⟨hc.1, hf.length_pos, hc.2.2.trans hfit⟩
    rw [hnone]
    exact ⟨rfl, fun msg hm => absurd hm (Option.not_mem_none _), fun _ => hs, hrest⟩

end Frame

/-! ### The receive thread -/

/-- The receive thread: how many segments it has created, its variable, and what is behind the
device. -/
structure RecvLoop (δ : Type*) where
  created : ℕ
  pSeg : Option SegPtr
  env : δ

/-- One turn of `RecvThread`: its answer is the segment that has been received.  A segment is created
when the thread has none left. -/
def recvLoop (m : MemPools) (tr : NodeTransport δ) (s : RecvLoop δ) (_ : Unit) :
    Option (Option SegPtr × RecvLoop δ) :=
  let r := recvTurn s.pSeg (some ⟨s.created, IpcSegment.construct m⟩) (tr.recv m) s.env
  some (r.received, ⟨if s.pSeg.isNone then s.created + 1 else s.created, r.pSeg, r.env⟩)

section

variable {dev : IoDev δ} {stream : δ → List UInt8} {full : δ → Prop} {m : MemPools}
  {t : IpcTransport δ}

/-- The segment of a turn has a full-size buffer. -/
theorem RecvLoop.exists_seg (hm : m.blockSize segMaxLen ≠ none) {s : RecvLoop δ}
    (hp : ∀ p ∈ s.pSeg, p.seg.Full) :
    ∃ p, s.pSeg.or (some ⟨s.created, IpcSegment.construct m⟩) = some p ∧ p.seg.Full := by
  cases hseg : s.pSeg with
  | none => exact ⟨_, rfl, full_construct hm⟩
  | some p => exact ⟨p, rfl, hp p hseg⟩

/-- One turn of the thread takes one frame from the stream, and receives the message in it. -/
theorem recvLoop_frame (h : dev.ReadsFully stream full)
    (hhdr : m.blockSize ipcStrmHeaderLen ≠ none) (hseg : m.blockSize segMaxLen ≠ none)
    (hdev : t.ptrRecvDevice = some dev) {f : Frame} (hf : f.Harmless m) {s : RecvLoop δ}
    (hp : ∀ p ∈ s.pSeg, p.seg.Full) {r : List UInt8} (hs : stream s.env = f.octets ++ r) :
    ∃ out s', recvLoop m (.stream t) s () = some (out, s') ∧
      out.map (fun p => p.seg.buf.data) = f.message ∧ (∀ p ∈ s'.pSeg, p.seg.Full) ∧
      stream s'.env = r := by
  obtain ⟨p, hor, hfull⟩ := RecvLoop.exists_seg hseg hp
  obtain ⟨hrv, hdata, hleft, hrest⟩ := hf.recv h hhdr hdev hfull hs
  refine ⟨_, _, rfl, ?_⟩
  simp only [recvTurn, hor, NodeTransport.recv, hrv]
  cases hmsg : f.message with
  | none => exact ⟨rfl, fun q hq => Option.some.inj hq ▸ hleft hmsg, hrest⟩
  | some msg =>
      exact ⟨congrArg some (hdata msg hmsg), fun q hq => absurd hq (Option.not_mem_none _), hrest⟩

/-- **Stream transport framing.**  In every run of the receive thread over harmless frames each turn
takes one frame from the stream; a message is received in its turn, with its payload, and in the turns
of all other frames nothing is received. -/
theorem recvThread_frames (h : dev.ReadsFully stream full)
    (hhdr : m.blockSize ipcStrmHeaderLen ≠ none) (hseg : m.blockSize segMaxLen ≠ none)
    (hdev : t.ptrRecvDevice = some dev) {fs : List Frame} (hfs : ∀ f ∈ fs, f.Harmless m)
    {s : RecvLoop δ} (hp : ∀ p ∈ s.pSeg, p.seg.Full) {r : List UInt8}
    (hs : stream s.env = fs.flatMap Frame.octets ++ r) :
    ∃ outs s', run (recvLoop m (.stream t)) (List.replicate fs.length ()) s = some (outs, s') ∧
      outs.map (Option.map fun p => p.seg.buf.data) = fs.map Frame.message ∧
      stream s'.env = r := by
  induction fs generalizing s with
  | nil => exact ⟨[], s, rfl, rfl, hs⟩
  | cons f fs ih =>
      obtain ⟨hf, hfs⟩ := List.forall_mem_cons.1 hfs
      rw [List.flatMap_cons, List.append_assoc] at hs
      obtain ⟨out, s₁, hstep, hout, hp₁, hs₁⟩ := recvLoop_frame h hhdr hseg hdev hf hp hs
      obtain ⟨outs, s', hrun, houts, hrest⟩ := ih hfs hp₁ hs₁
      refine ⟨out :: outs, s', run_cons_eq_some.2 ⟨out, s₁, outs, hstep, hrun, rfl⟩, ?_, hrest⟩
      rw [List.map_cons, List.map_cons, hout, houts]

end

/-! ### Sample frames -/

theorem readsFully_listDev : listDev.ReadsFully id fun _ => True where
  full_fullRead _ := trivial
  stream_fullRead _ := rfl
  recv _ _ := ⟨rfl, rfl, trivial⟩

/-- A frame of an operation that is not a message, with `n` octets of payload. -/
def foreignFrame (n : ℕ) (h : n < 2 ^ 32) : Frame where
  opCode := 1
  payload := List.replicate n 0
  opCode_lt := by decide
  length_lt := by rwa [List.length_replicate]

/-- A frame with a message that is a header without payload. -/
def bareFrame : Frame where
  opCode := opCodeIpcMsg
  payload := List.replicate 24 0
  opCode_lt := by decide
  length_lt := by decide

/-- A receive thread that is about to start. -/
def startThread (fs : List Frame) : RecvLoop (List UInt8) := ⟨0, none, fs.flatMap Frame.octets⟩

theorem recvThread_frames_two : ∃ outs s',
    run (recvLoop exactPools (.stream ⟨none, some listDev, ∅⟩)) (List.replicate 2 ())
        (startThread [foreignFrame 1 (by decide), bareFrame]) = some (outs, s') ∧
      outs.map (Option.map fun p => p.seg.buf.data) = [none, some (List.replicate 24 0)] ∧
      s'.env = [] := by
  have hfs : ∀ f ∈ [foreignFrame 1 (by decide), bareFrame], f.Harmless exactPools := by
    intro f hf
    rcases List.mem_cons.1 hf with rfl | hf
    · exact ⟨by decide, by decide, Option.some_ne_none _, fun hc => absurd hc (by decide)⟩
    · rw [List.mem_singleton.1 hf]
      exact ⟨by decide, by decide, Option.some_ne_none _, fun _ hc => absurd hc (by decide)⟩
  have hrun := @recvThread_frames _ _ _ _ _ ⟨none, some listDev, ∅⟩ readsFully_listDev
    (Option.some_ne_none _) (Option.some_ne_none _) rfl _ hfs
    (startThread [foreignFrame 1 (by decide), bareFrame])
    (fun p hp => absurd hp (Option.not_mem_none _)) [] (List.append_nil _).symm
  obtain ⟨outs, s', hrun, houts, henv⟩ := hrun
  exact ⟨outs, s', hrun, houts, henv⟩

/-- A frame without payload costs the message behind it: the buffer of the segment is given back, and
no message fits in the segment any more. -/
theorem recvThread_loses_message : ∃ outs s',
    run (recvLoop exactPools (.stream ⟨none, some listDev, ∅⟩)) (List.replicate 2 ())
        (startThread [foreignFrame 0 (by decide), bareFrame]) = some (outs, s') ∧
      s'.env = [] ∧ outs = [none, none] ∧
      [foreignFrame 0 (by decide), bareFrame].map Frame.message =
        [none, some (List.replicate 24 0)] := by
  refine ⟨_, _, rfl, ?_, ?_, ?_⟩ <;> decide +kernel

end CodePort
