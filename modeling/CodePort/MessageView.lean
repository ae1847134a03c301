/-
What a message says.

A message travels as a list of segments, each of which repeats the header fields of the message and
carries a slice of its payload.  Here a message is what a reader finds: the fields that all segments
share, and the payload.  The octets of the segments determine it, and whoever has them, in whatever
order, has the message.

Main definitions:

* `CodePort.wireGet` — a header field, read from the octets of a segment;
* `CodePort.MessageView` — the fields of a message, and its payload;
* `CodePort.OnWire` — the octets of the segments of a message;
* `CodePort.IpcDecoder.view` — what a decoder finds in a chain of segments.

Main results:

* `CodePort.OnWire.setMsgId` — the message ID can be put into the segments later;
* `CodePort.OnWire.isMessage` — segments with these octets are a message for the accumulator map;
* `CodePort.OnWire.view` — **a decoder that has the segments finds the message**.
-/

import CodePort.IpcDecoder
import CodePort.IpcTransmitQueue
import CodePort.SegmentFields

set_option relaxedAutoImplicit false
set_option autoImplicit false

namespace CodePort

open BlockList Octets IpcSegment IpcStreamSeg IpcStreamSegMem

/-! ### Fields on the wire -/

/-- The octets of a segment that are sent. -/
def SegPtr.wire (p : SegPtr) : List UInt8 := p.seg.buf.data

/-- What the getter of a field makes of the octets of a segment. -/
def wireGet (w : List UInt8) (f : HeaderField) : ℕ := f.decode (fieldAt w f.offset f.width)

/-- A field of a segment is read from the octets that are sent. -/
theorem get_eq_wireGet {s : IpcSegment} (h : segData ≤ s.buf.dataLen) (f : HeaderField) :
    s.get f = wireGet s.buf.data f := by
  rw [get_eq_decode, wireGet, ← fieldAt_data (f.offset_add_width_le.trans h)]
  rfl

/-- The length of the segment is read from the octets that are sent. -/
theorem SegPtr.segLen_eq {p : SegPtr} (h : segData ≤ p.wire.length) :
    p.seg.segLen = segData + wireGet p.wire .dataLen := by
  rw [SegPtr.wire, Buffer.length_data] at h
  have hget : p.seg.dataLen = wireGet p.wire .dataLen := get_eq_wireGet h .dataLen
  rw [IpcSegment.segLen, hget]

/-- A field that all segments of a message share. -/
def HeaderField.Shared (f : HeaderField) : Prop :=
  f ≠ .options ∧ f ≠ .priority ∧ f ≠ .fragNum ∧ f ≠ .dataLen

instance (f : HeaderField) : Decidable f.Shared := by
  unfold HeaderField.Shared
  infer_instance

/-- The window of a shared field lies behind the options, and apart from the two fields that differ. -/
theorem HeaderField.Shared.apart {f : HeaderField} (h : f.Shared) :
    (f.offset + f.width ≤ segOptions ∨ segFragNum ≤ f.offset) ∧
      (f.offset + f.width ≤ segFragNum ∨ segFragNum + 2 ≤ f.offset) ∧
      (f.offset + f.width ≤ segDataLen ∨ segDataLen + 2 ≤ f.offset) := by
  revert h
  cases f <;> decide

theorem fieldAt_addFlag_of_apart {h : List UInt8} (hlen : h.length = segData) (flag : UInt8) {q w : ℕ}
    (hq : q + w ≤ segOptions ∨ segFragNum ≤ q) : fieldAt (addFlag flag h) q w = fieldAt h q w := by
  refine fieldAt_congr fun j hj hj' => getElem?_addFlag hlen flag ?_
  have hone : segOptions = 1 := rfl
  have htwo : segFragNum = 2 := rfl
  omega

/-- **A shared field of a fragment** is the field of the header it was made from. -/
theorem wireGet_fragment {base : List UInt8} (hbase : base.length = segData) (n i : ℕ) (l : List UInt8)
    {f : HeaderField} (hf : f.Shared) : wireGet (fragHead base n i l.length ++ l) f = wireGet base f := by
  obtain ⟨hopt, hnum, hlen⟩ := hf.apart
  have hmulti := length_multiHead hbase n
  have hchain := length_chainHead hbase n i
  have hover : (overwrite (chainHead base n i) segDataLen (toBE 2 l.length)).length = segData := by
    rw [length_overwrite_of_le (by rw [hchain, length_toBE]; decide), hchain]
  have hhead := length_fragHead hbase n i l.length
  have h₁ : fieldAt (multiHead base n) f.offset f.width = fieldAt base f.offset f.width := by
    rw [multiHead]
    split
    · exact fieldAt_addFlag_of_apart hbase _ hopt
    · rfl
  have h₂ : fieldAt (chainHead base n i) f.offset f.width = fieldAt base f.offset f.width := by
    rw [chainHead, fieldAt_overwrite_of_disjoint (by rw [hmulti]; decide)
      (by rw [length_toBE]; exact hnum), h₁]
  have h₃ : fieldAt (overwrite (chainHead base n i) segDataLen (toBE 2 l.length)) f.offset f.width =
      fieldAt base f.offset f.width := by
    rw [fieldAt_overwrite_of_disjoint (by rw [hchain]; decide) (by rw [length_toBE]; exact hlen), h₂]
  rw [wireGet, fieldAt_append (by rw [hhead]; exact f.offset_add_width_le), wireGet]
  simp only [fragHead]
  split
  · rw [fieldAt_addFlag_of_apart hover _ hopt, h₃]
  · rw [h₃]

/-! ### The message ID -/

/-- What `MsgId` makes of the octets of a segment. -/
def stamp (id : ℕ) (w : List UInt8) : List UInt8 := overwrite w segMsgId (toBE 4 id)

theorem length_stamp {w : List UInt8} (h : segData ≤ w.length) (id : ℕ) :
    (stamp id w).length = w.length :=
  length_overwrite_of_le (le_trans (by rw [length_toBE]; decide) h)

/-- The message ID is set in the octets that are sent. -/
theorem SegPtr.wire_setMsgId {p : SegPtr} (hfull : p.seg.Full) (h : segData ≤ p.wire.length) (id : ℕ) :
    (p.setMsgId id).wire = stamp id p.wire := by
  have hlen : segData ≤ p.seg.buf.dataLen := by rwa [wire, Buffer.length_data] at h
  have htake := take_overwrite (l := p.seg.buf.mem) (p := segMsgId) (e := p.seg.buf.dataLen)
    (le_trans (by decide) hlen) p.seg.buf.dataLen_le (toBE 4 id)
  rw [max_eq_left (le_trans (by rw [length_toBE]; decide) hlen)] at htake
  change (p.seg.setMsgId id).buf.data = _
  rw [Buffer.data, IpcSegment.setMsgId, hdrWr, Buffer.mem_memWr hfull.size_pos]
  exact htake

/-- The message ID is a field of its own. -/
theorem wireGet_stamp {w : List UInt8} (h : segData ≤ w.length) (id : ℕ) (f : HeaderField) :
    wireGet (stamp id w) f = if f = .msgId then id % 2 ^ 32 else wireGet w f := by
  have hle : segMsgId ≤ w.length := le_trans (by decide) h
  have hself : fieldAt (stamp id w) segMsgId 4 = toBE 4 id := by
    have := fieldAt_overwrite_self (d := toBE 4 id) hle
    rwa [length_toBE] at this
  have hapart : ∀ {o n : ℕ}, (o + n ≤ segMsgId ∨ segMsgId + 4 ≤ o) →
      fieldAt (stamp id w) o n = fieldAt w o n := fun ho =>
    fieldAt_overwrite_of_disjoint hle (by rwa [length_toBE])
  split_ifs with hf
  · subst hf
    rw [wireGet]
    change ofBE (fieldAt (stamp id w) segMsgId 4) = _
    rw [hself, ofBE_toBE, show 256 ^ 4 = 2 ^ 32 from rfl]
  · rw [wireGet, wireGet, hapart]
    revert hf
    cases f <;> decide

/-- The header of a fragment that gets the message ID is made from a header that has it. -/
theorem fragHead_stamp {base : List UInt8} (hbase : base.length = segData) (n i len id : ℕ) :
    fragHead (stamp id base) n i len = stamp id (fragHead base n i len) := by
  have hmulti := length_multiHead hbase n
  have hchain := length_chainHead hbase n i
  have hover : (overwrite (chainHead base n i) segDataLen (toBE 2 len)).length = segData := by
    rw [length_overwrite_of_le (by rw [hchain, length_toBE]; decide), hchain]
  have h₁ : multiHead (stamp id base) n = stamp id (multiHead base n) := by
    rw [multiHead, multiHead]
    split
    · exact addFlag_overwrite _ (by decide) (by rw [hbase]; decide)
    · rfl
  have h₂ : chainHead (stamp id base) n i = stamp id (chainHead base n i) := by
    rw [chainHead, h₁, chainHead]
    exact (overwrite_comm (by rw [length_toBE]; decide) (by rw [hmulti]; decide)).symm
  have h₃ : overwrite (chainHead (stamp id base) n i) segDataLen (toBE 2 len) =
      stamp id (overwrite (chainHead base n i) segDataLen (toBE 2 len)) := by
    rw [h₂]
    exact overwrite_comm (by rw [length_toBE]; decide) (by rw [hchain]; decide)
  simp only [fragHead, h₃]
  split
  · exact addFlag_overwrite _ (by decide) (by rw [hover]; decide)
  · rfl

/-! ### Messages -/

/-- What a message says. -/
structure MessageView where
  srcAddr : ℕ
  dstAddr : ℕ
  msgId : ℕ
  context : ℕ
  msgType : ℕ
  ctlCode : ℕ
  payload : List UInt8
  deriving DecidableEq

/-- The message with the fields that a reader gets, and a payload. -/
def MessageView.read (get : HeaderField → ℕ) (payload : List UInt8) : MessageView :=
  ⟨get .srcAddr, get .dstAddr, get .msgId, get .context, get .msgType, get .ctlCode, payload⟩

/-- Two readers that agree on the shared fields read the same message. -/
theorem MessageView.read_congr {get get' : HeaderField → ℕ} (h : ∀ f, f.Shared → get f = get' f)
    (payload : List UInt8) : read get payload = read get' payload := by
  rw [read, read, h .srcAddr (by decide), h .dstAddr (by decide), h .msgId (by decide),
    h .context (by decide), h .msgType (by decide), h .ctlCode (by decide)]

/-- A header without the flags of a message of several segments. -/
structure PlainHead (base : List UInt8) : Prop where
  length_eq : base.length = segData
  multipart : base.getD segOptions 0 &&& optMultipart = 0
  initial : base.getD segOptions 0 &&& optInitial = 0

theorem PlainHead.stamp {base : List UInt8} (h : PlainHead base) (id : ℕ) : PlainHead (stamp id base) := by
  have hget : (CodePort.stamp id base).getD segOptions 0 = base.getD segOptions 0 :=
    getD_overwrite_options (by decide) (by rw [h.length_eq]; decide)
  refine ⟨(length_stamp h.length_eq.ge id).trans h.length_eq, ?_, ?_⟩
  · rw [hget]
    exact h.multipart
  · rw [hget]
    exact h.initial

/-- **The octets of the segments of a message**: the fragments of its payload, or a header alone. -/
inductive OnWire : MessageView → List (List UInt8) → Prop
  | fragments {base payload : List UInt8} (hbase : PlainHead base) (hne : payload ≠ [])
      (hcount : segCount payload.length < 2 ^ 16) :
      OnWire (.read (wireGet base) payload) (CodePort.fragments base payload)
  | bare {base : List UInt8} (hbase : PlainHead base) (hlen : wireGet base .dataLen = 0) :
      OnWire (.read (wireGet base) []) [base]

namespace OnWire

variable {v : MessageView} {ws : List (List UInt8)}

/-- **The message ID can be put into the segments later.** -/
theorem setMsgId (h : OnWire v ws) (id : ℕ) :
    OnWire { v with msgId := id % 2 ^ 32 } (ws.map (stamp id)) := by
  have hread : ∀ {base : List UInt8}, PlainHead base → ∀ payload,
      ({ MessageView.read (wireGet base) payload with msgId := id % 2 ^ 32 } : MessageView) =
        .read (wireGet (stamp id base)) payload := by
    intro base hbase payload
    simp only [MessageView.read, wireGet_stamp hbase.length_eq.ge]
    rfl
  cases h with
  | @fragments base payload hbase hne hcount =>
      have hmap : (CodePort.fragments base payload).map (stamp id) =
          CodePort.fragments (stamp id base) payload := by
        rw [CodePort.fragments, CodePort.fragments, List.map_map]
        refine List.map_congr_left fun i _ => ?_
        rw [fragHead_stamp hbase.length_eq]
        refine overwrite_append_left ?_ _
        rw [length_fragHead hbase.length_eq, length_toBE]
        decide
      rw [hread hbase, hmap]
      exact .fragments (hbase.stamp id) hne hcount
  | @bare base hbase hlen =>
      rw [hread hbase]
      refine .bare (hbase.stamp id) ?_
      rw [wireGet_stamp hbase.length_eq.ge, if_neg (by decide), hlen]

/-- There is a segment, and every segment is a header and as much payload as it says. -/
theorem length_mem (h : OnWire v ws) : ws ≠ [] ∧ ∀ w ∈ ws, segData ≤ w.length ∧
    w.length ≤ segMaxLen ∧ w.length = segData + wireGet w .dataLen := by
  cases h with
  | @fragments base payload hbase hne hcount =>
      have hpos := segCount_pos (List.length_pos_iff.2 hne)
      refine ⟨?_, fun w hw => ?_⟩
      · intro hnil
        have := congrArg List.length hnil
        simp only [CodePort.fragments, List.length_map, List.length_range, List.length_nil] at this
        omega
      · obtain ⟨i, hi, rfl⟩ := mem_fragments hw
        have hhead := length_fragHead hbase.length_eq (segCount payload.length) i (slice payload i).length
        have hle := length_slice_le payload i
        have hcap : capacity = 1000 := rfl
        have hdata : segData = 24 := rfl
        have hmax : segMaxLen = 1024 := rfl
        have hget : wireGet (fragHead base (segCount payload.length) i (slice payload i).length ++
            slice payload i) .dataLen = (slice payload i).length := by
          rw [wireGet]
          change ofBE (fieldAt _ segDataLen 2) = _
          rw [fieldAt_append (by rw [hhead]; decide), fieldAt_fragHead_dataLen hbase.length_eq,
            ofBE_toBE_of_lt (by omega)]
        rw [hget, List.length_append, hhead]
        omega
  | @bare base hbase hlen =>
      refine ⟨List.cons_ne_nil _ _, fun w hw => ?_⟩
      rw [List.mem_singleton.1 hw, hbase.length_eq, hlen]
      decide

/-- Every segment says who sends the message to whom, and what it is about. -/
theorem read_mem (h : OnWire v ws) {w : List UInt8} (hw : w ∈ ws) :
    MessageView.read (wireGet w) v.payload = v := by
  cases h with
  | @fragments base payload hbase hne hcount =>
      obtain ⟨i, -, rfl⟩ := mem_fragments hw
      exact MessageView.read_congr (fun f hf => wireGet_fragment hbase.length_eq _ i _ hf) payload
  | bare => rw [List.mem_singleton.1 hw]; rfl

/-- The segments of a message share its globally unique ID. -/
theorem guid (h : OnWire v ws) {p : SegPtr} (hp : p.wire ∈ ws) :
    p.guid = v.srcAddr * 2 ^ 32 + v.msgId := by
  have hlen := (h.length_mem.2 _ hp).1
  rw [SegPtr.wire, Buffer.length_data] at hlen
  have hsrc : p.seg.srcAddr = wireGet p.wire .srcAddr := get_eq_wireGet hlen .srcAddr
  have hid : p.seg.msgId = wireGet p.wire .msgId := get_eq_wireGet hlen .msgId
  rw [← h.read_mem hp, SegPtr.guid, IpcSegment.guid, hsrc, hid]
  rfl

/-- **Segments with the octets of a message**, in any order, are a message for the accumulator map. -/
theorem isMessage (h : OnWire v ws) {l : List SegPtr} (hl : (l.map SegPtr.wire).Perm ws) :
    IsMessage l := by
  cases h with
  | @fragments base payload hbase hne hcount =>
      obtain ⟨hnums, hflags⟩ := arrived_fields hbase.length_eq (fun _ => hbase.multipart) hbase.initial
        hcount hl
      by_cases hn : 1 < segCount payload.length
      · refine .inr ⟨segCount payload.length, by omega, hnums, fun p hp => (hflags p hp).1.2 hn,
          fun p hp => (hflags p hp).2.1.trans (and_iff_right hn)⟩
      · have hpos := segCount_pos (List.length_pos_iff.2 hne)
        have hlen := hnums.length_eq
        rw [List.length_map, List.length_range', show segCount payload.length = 1 by omega] at hlen
        obtain ⟨p, rfl⟩ := List.length_eq_one_iff.1 hlen
        refine .inl ⟨p, rfl, ?_⟩
        rw [← Bool.not_eq_true, (hflags p List.mem_cons_self).1]
        exact hn
  | @bare base hbase hlen =>
      obtain ⟨p, rfl⟩ := List.length_eq_one_iff.1 ((List.length_map _).symm.trans hl.length_eq)
      have hwire : p.seg.buf.data = base := List.singleton_inj.1 (List.perm_singleton.1 hl)
      have hdl : segData ≤ p.seg.buf.dataLen := by
        rw [← Buffer.length_data, hwire, hbase.length_eq]
      refine .inl ⟨p, rfl, ?_⟩
      rw [SegPtr.multipart, options_eq hdl, hwire]
      exact decide_eq_false (not_not.2 ((unflagged _).1 hbase.multipart))

/-- Segments that are sorted by their fragment numbers are in the order in which they were sent. -/
theorem map_wire_of_sorted (h : OnWire v ws) {l : List SegPtr} (hl : (l.map SegPtr.wire).Perm ws)
    (hsorted : l.Pairwise fun a b => a.fragNum < b.fragNum) : l.map SegPtr.wire = ws := by
  cases h with
  | @fragments base payload hbase hne hcount =>
      obtain ⟨-, hflags⟩ := arrived_fields hbase.length_eq (fun _ => hbase.multipart) hbase.initial
        hcount hl
      have hnum : ∀ p ∈ l, p.fragNum = numOf p.wire := fun p hp => fragNum_eq (hflags p hp).2.2
      have hlt₁ : (l.map SegPtr.wire).Pairwise fun a b => numOf a < numOf b := by
        rw [List.pairwise_map]
        refine hsorted.imp_of_mem fun {a b} ha hb hab => ?_
        rw [← hnum a ha, ← hnum b hb]
        exact hab
      have hlt₂ : (CodePort.fragments base payload).Pairwise fun a b => numOf a < numOf b := by
        rw [← List.pairwise_map, map_numOf_fragments hbase.length_eq hcount]
        exact List.pairwise_lt_range'
      exact @List.Perm.eq_of_pairwise _ (fun a b => numOf a < numOf b) _ _
        (fun a b _ _ hab hba => absurd hba hab.asymm) hlt₁ hlt₂ hl
  | bare => exact List.perm_singleton.1 hl

end OnWire

/-! ### What a reader finds -/

/-- What a decoder finds in a chain of segments: the fields of the first one, and what its stream
reads. -/
def IpcDecoder.view (dc : IpcDecoder) (l : List SegPtr) : MessageView :=
  let s := dc.inject (l.map SegPtr.seg)
  .read (fun f => (l.head?.map fun p => p.seg.get f).getD 0) (s.arrayRd s.lenGet).1

/-- The fields of a chain are those of any of its segments. -/
theorem OnWire.head {v : MessageView} {p : SegPtr} {l : List SegPtr}
    (h : OnWire v ((p :: l).map SegPtr.wire)) : MessageView.read p.seg.get v.payload = v := by
  have hmem : p.wire ∈ (p :: l).map SegPtr.wire := List.mem_cons_self
  have hlen := (h.length_mem.2 _ hmem).1
  rw [SegPtr.wire, Buffer.length_data] at hlen
  rw [MessageView.read_congr (fun f _ => get_eq_wireGet hlen f)]
  exact h.read_mem hmem

/-- The stream over a header alone is empty. -/
theorem lenGet_inject_bare {base : List UInt8} (hbase : base.length = segData)
    (hlen : wireGet base .dataLen = 0) (s : IpcStreamSeg) {segs : List IpcSegment}
    (hdata : segs.map (fun x => x.buf.data) = [base]) : (s.segmentInject segs).lenGet = 0 := by
  obtain ⟨x, hx⟩ := List.length_eq_one_iff.1 ((List.length_map _).symm.trans (congrArg List.length hdata))
  rw [hx, List.map_singleton, List.singleton_inj] at hdata
  have hdl : segData ≤ x.buf.dataLen := by rw [← Buffer.length_data, hdata, hbase]
  have hzero : x.dataLen = 0 := by
    have hget : x.dataLen = wireGet x.buf.data .dataLen := get_eq_wireGet hdl .dataLen
    rw [hget, hdata, hlen]
  rw [hx, StreamBase.lenGet, sizeBefore_eq_mul]
  change 0 * capacity + x.dataLen = 0
  rw [hzero, Nat.zero_mul]

/-- **A decoder that has the segments finds the message.** -/
theorem OnWire.view {m : MemPools} (hm : m.blockSize segMaxLen ≠ none) {v : MessageView}
    {l : List SegPtr} (h : OnWire v (l.map SegPtr.wire)) (dc : IpcDecoder) : dc.view l = v := by
  obtain ⟨p, tail, rfl⟩ : ∃ p tail, l = p :: tail := by
    obtain ⟨hne, -⟩ := h.length_mem
    exact List.exists_cons_of_ne_nil fun hnil => hne (by rw [hnil]; rfl)
  have hhead := h.head
  set segs := (p :: tail).map SegPtr.seg with hsegs
  have hdata : segs.map (fun x => x.buf.data) = (p :: tail).map SegPtr.wire := by
    rw [hsegs, List.map_map]
    rfl
  have hpayload : ((dc.inject segs).arrayRd (dc.inject segs).lenGet).1 = v.payload := by
    generalize hws : (p :: tail).map SegPtr.wire = ws at h hdata
    cases h with
    | @fragments base payload hbase hne hcount =>
        obtain ⟨hlen, hread⟩ := read_inject hbase.length_eq hm dc.stream.clear hne hcount hdata
        rw [IpcDecoder.inject, hlen, hread]
        rfl
    | @bare base hbase hlen =>
        have hlenGet := lenGet_inject_bare hbase.length_eq hlen dc.stream.clear hdata
        rw [← IpcDecoder.inject] at hlenGet
        rw [hlenGet]
        rfl
  rw [IpcDecoder.view, ← hsegs, hpayload]
  exact hhead

end CodePort
