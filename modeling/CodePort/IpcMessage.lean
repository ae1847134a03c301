/-
What a decoder makes of a message.

The segments of a message that has arrived are injected into the stream of a decoder.  A segment
that came over the wire may have a block that is just large enough for its octets, so the stream is
not one of full blocks; but it cannot be told from one.

Main definitions:

* `CodePort.OnWire.Injected` — the stream of the decoder reads as the payload.

Main results:

* `CodePort.IpcStreamSeg.storesAlike_padded` — blocks that are too short do not matter;
* `CodePort.Datum.decodeAs_alike` — a datum is decoded from a stream that only reads like its
  encoding;
* `CodePort.OnWire.loadSegment_raw`, `OnWire.loadSegment_datum` — **the decoder finds the payload, or
  the datum that was encoded**.
-/

import CodePort.IpcSendCall
import CodePort.NamedDecode
import CodePort.NativeFailed
import CodePort.StreamAlike

set_option relaxedAutoImplicit false
set_option autoImplicit false

namespace CodePort

open IpcSegment StreamBase SerDesNative

/-! ### Blocks that are too short -/

namespace IpcStreamSeg

open IpcStreamSegMem

/-- The memory of a segment, and of the same segment filled up. -/
theorem blockMemPtr_padded (m : MemPools) {b : IpcStreamSegMem} {segs : List IpcSegment}
    (hsegs : b.segs = segs) (hpos : ∀ s ∈ segs, segData ≤ s.buf.dataLen) (k : ℕ) :
    BlockStore.blockMemPtr (paddedStore m segs) k = (BlockStore.blockMemPtr b k).map fun mem =>
      mem ++ List.replicate (segMaxLen - (segData + mem.length)) 0 := by
  simp only [BlockStore.blockMemPtr, blockMemPtr, paddedStore, hsegs, List.getElem?_map]
  cases hk : segs[k]? with
  | none => rfl
  | some s =>
      have hdl := hpos s (List.mem_of_getElem? hk)
      have hle : segData ≤ s.buf.size := hdl.trans s.buf.dataLen_le
      obtain ⟨mem, hmem⟩ := Option.ne_none_iff_exists'.1 (block_ne_none (lt_of_lt_of_le (by decide) hdl))
      have hmem' : s.buf.mem = mem := by rw [Buffer.mem, hmem, Option.getD_some]
      rw [Buffer.size, hmem'] at hle
      simp only [Option.map_some, Option.bind_some, padded, hmem, hmem', Buffer.size]
      rw [List.drop_append_of_le_length hle, List.length_drop, Nat.add_sub_cancel' hle]

/-- **Blocks that are too short do not matter** to a reader. -/
theorem storesAlike_padded (m : MemPools) {b : IpcStreamSegMem} {segs : List IpcSegment}
    (hsegs : b.segs = segs) (hcount : b.blockCount = segs.length)
    (hpos : ∀ s ∈ segs, segData ≤ s.buf.dataLen) : StoresAlike b (paddedStore m segs) where
  memoryChk_eq := by simp only [BlockStore.memoryChk, paddedStore, hsegs, List.isEmpty_map]
  validBlock_eq k := by
    change decide (k < segs.length) = decide (k < b.blockCount)
    rw [hcount]
  blockSize_eq := rfl
  isSome_eq k := by rw [blockMemPtr_padded m hsegs hpos, Option.isSome_map]
  octets_eq chunk := by
    rw [chunkOctets, chunkOctets, blockMemPtr_padded m hsegs hpos]
    cases BlockStore.blockMemPtr b chunk.block with
    | none => rfl
    | some mem => exact drop_takeD_append_replicate _ _ _ _

end IpcStreamSeg

/-! ### The stream of the decoder -/

/-- The stream reads as the payload: it is empty, or cannot be told from a stream that holds the
payload. -/
def Injected (s : IpcStreamSeg) (payload : List UInt8) : Prop :=
  (payload = [] ∧ s.lenGet = 0) ∨ ∃ (t : IpcStreamSeg) (f : FlatStream UInt8),
    s.Alike t ∧ t.Represents f ∧ f.content = payload

/-- **A decoder that has the segments of a message reads its payload.** -/
theorem OnWire.injected {m : MemPools} (hm : m.blockSize segMaxLen ≠ none) {v : MessageView}
    {l : List SegPtr} (h : OnWire v (l.map SegPtr.wire)) (dc : IpcDecoder) :
    Injected (dc.inject (l.map SegPtr.seg)) v.payload := by
  set segs := l.map SegPtr.seg with hsegs
  have hdata : segs.map (fun x => x.buf.data) = l.map SegPtr.wire := by
    rw [hsegs, List.map_map]
    rfl
  have hpos : ∀ x ∈ segs, segData ≤ x.buf.dataLen := by
    intro x hx
    rw [← Buffer.length_data]
    exact (h.length_mem.2 _ (hdata ▸ List.mem_map_of_mem hx)).1
  generalize hws : l.map SegPtr.wire = ws at h hdata
  cases h with
  | @fragments base payload hbase hne hcount =>
      obtain ⟨n, hn⟩ : ∃ n, IpcStreamSegMem.segCount payload.length = n + 1 :=
        Nat.exists_eq_succ_of_ne_zero (IpcStreamSegMem.segCount_pos (List.length_pos_iff.2 hne)).ne'
      have heq := IpcStreamSeg.segmentInject_fragments hbase.length_eq dc.stream.clear hn (by omega) hdata
      have hstore := congrArg StreamBase.store heq
      refine .inr ⟨_, _, alike_withStore (IpcStreamSeg.storesAlike_padded m ?_ ?_ hpos),
        IpcStreamSeg.represents_inject hbase.length_eq hm dc.stream.clear hne hcount hdata, rfl⟩
      · exact congrArg IpcStreamSegMem.segs hstore
      · exact congrArg IpcStreamSegMem.blockCount hstore
  | @bare base hbase hlen =>
      exact .inl ⟨rfl, lenGet_inject_bare hbase.length_eq hlen dc.stream.clear hdata⟩

/-- Nothing is read of a stream that is empty. -/
theorem readBuf_of_lenGet_eq_zero (m : MemPools) {s : IpcStreamSeg} (h : s.lenGet = 0) (buf : Buffer) :
    (s.readBuf m buf s.lenGet).1 = (s.readBuf m buf s.lenGet).2.2.lenGet ∧
      (s.readBuf m buf s.lenGet).2.1.data = [] := by
  have hrd : s.arrayRd 0 = ([], s) := rfl
  simp only [StreamBase.readBuf, h, if_neg (Nat.not_lt_zero buf.size), ite_self, if_true, hrd]
  exact ⟨rfl, Buffer.data_lenSet_memWr (Nat.zero_le _)⟩

/-- All of a stream is read from its start. -/
theorem readBuf_all {m : MemPools} (hm : m.Plentiful) {s : IpcStreamSeg} {payload : List UInt8}
    (h : s.HasRest payload) (hlen : s.lenGet = payload.length) (buf : Buffer) :
    (s.readBuf m buf s.lenGet).1 = (s.readBuf m buf s.lenGet).2.2.lenGet ∧
      (s.readBuf m buf s.lenGet).2.1.data = payload := by
  have hrest : s.HasRest (payload ++ []) := by rwa [List.append_nil]
  obtain ⟨hd, -⟩ := hrest.arrayRd
  obtain ⟨f, hrep, -⟩ := h
  have hread := (reading_readBuf hrep.wf m buf s.lenGet).lenGet_eq
  -- there is enough room, at least after the buffer has been resized
  obtain ⟨r, hr, hok, hroom⟩ : ∃ r, (if buf.size < payload.length then buf.resize m payload.length
      else (true, buf)) = r ∧ r.1 = true ∧ payload.length ≤ r.2.size := by
    refine ⟨_, rfl, ?_⟩
    split_ifs with hsize
    · exact ⟨Buffer.resize_fst hm _ _, Buffer.le_size_resize (Buffer.resize_fst hm _ _)⟩
    · exact ⟨rfl, not_lt.1 hsize⟩
  rw [hread]
  simp only [StreamBase.readBuf, hlen, lt_irrefl, if_false, hr, hok, if_true, hd, true_and]
  exact Buffer.data_lenSet_memWr hroom

/-- **The payload is read into a buffer**, from the start of the stream to its end. -/
theorem Injected.readBuf {m : MemPools} (hm : m.Plentiful) {s : IpcStreamSeg} {payload : List UInt8}
    (h : Injected s payload) (buf : Buffer) :
    ((s.seek 0).2.readBuf m buf (s.seek 0).2.lenGet).1 =
        ((s.seek 0).2.readBuf m buf (s.seek 0).2.lenGet).2.2.lenGet ∧
      ((s.seek 0).2.readBuf m buf (s.seek 0).2.lenGet).2.1.data = payload := by
  rcases h with ⟨rfl, hzero⟩ | ⟨t, f, halike, hrep, rfl⟩
  · refine readBuf_of_lenGet_eq_zero m ?_ buf
    obtain ⟨hstore, hlb, hlp⟩ := seekLoop_frame 0 s 0 0
    rw [StreamBase.seek, lenGet, hstore, hlb, hlp]
    exact hzero
  · obtain ⟨-, hseek⟩ := halike.seek 0
    have hrep' := (hrep.seek 0).2
    have hrest : (t.seek 0).2.HasRest f.content := ⟨_, hrep', f.rest_seek_zero⟩
    have hlen : (t.seek 0).2.lenGet = f.content.length := by
      rw [hrep'.lenGet_eq, f.content_seek]
    obtain ⟨hrv, hdata⟩ := readBuf_all hm hrest hlen buf
    obtain ⟨hsame, hbuf, hmoved⟩ := hseek.readBuf m buf (s.seek 0).2.lenGet
    rw [← hseek.lenGet_eq] at hsame hbuf hmoved ⊢
    rw [← hsame, ← hbuf, ← hmoved.lenGet_eq]
    exact ⟨hrv, hdata⟩

/-! ### A datum in a stream that only reads like its encoding -/

/-- Stocked pools stay so when a serializer is taken out and put back. -/
theorem SerDesFactory.Stocked.getPut {fac fac' : SerDesFactory} (h : fac.Stocked) {enc : List UInt8}
    {sd : Option SerDes} (hget : fac.serDesGet enc = (sd, fac')) : (fac'.serDesPut sd).2.Stocked := by
  have hfac' : fac'.Stocked := h.step (o := .serDesGet enc) (congrArg some hget)
  exact hfac'.step (o := .serDesPut sd) rfl

/-- **A datum is decoded from a stream that only reads like its encoding**, whatever serializer is
asked first. -/
theorem Datum.decodeAs_alike {le le' : Bool} {m : MemPools} (hm : m.Plentiful)
    (tags : SerDesIdl.TagOrder) {fac : SerDesFactory} (hfac : fac.Stocked) {dat : Datum}
    (hdat : dat.Encodable) (hplain : (dat.tree le).All Value.Plain) {s t : IpcStreamSeg}
    (halike : s.Alike t) {f : FlatStream UInt8} (hrep : t.Represents f)
    (hf : f.content = packageOctets le dat) {dst : Datum} (hact : dst.isInert = false) :
    ∃ dst' fac' s', dst.decodeAs le' m tags fac false serDesAuto s = some (true, dst', fac', s') ∧
      fac'.Stocked ∧ dst'.tree le' = (dat.tree le).named (dst.nameGet le' m) := by
  obtain ⟨dst', t₂, hdec, htree⟩ := native_decode_named le le' hm hdat hrep hf hact
  rw [Datum.decode, if_neg (by simp [hact])] at hdec
  -- the encoding of the stream that it reads like is detected
  have hcontains : SerDes.Contains t (packageOctets le dat) := ⟨hrep.wf, hrep.octets_eq.trans hf⟩
  obtain ⟨⟨t₁, ht₁⟩, hsame⟩ := hfac.detects_native hcontains
    ((isHeader_package_iff le hdat (Nat.zero_le _) rfl).2 hplain)
  obtain ⟨s₁, hs₁, halike₁⟩ := fac.alike_detectEncoding halike.symm ht₁
  obtain ⟨sd, fac₁, hget⟩ : ∃ sd fac₁, fac.serDesGet serDesNative = (sd, fac₁) := ⟨_, _, rfl⟩
  have hsd : sd = some .native := by
    rw [← hfac.serDesGet_native, hget]
  have hauto : ∀ {u u' : IpcStreamSeg}, fac.detectEncoding u = some (serDesNative, u') →
      dst.decodeAs le' m tags fac false serDesAuto u =
        (SerDesNative.decode le' m u' dst false).map fun r =>
          (r.1, r.2.1, (fac₁.serDesPut (some .native)).2, r.2.2) := by
    intro u u' hu
    rw [Datum.decodeAs, if_neg (by simp [hact]), if_pos rfl, hu]
    simp only [Option.bind_eq_bind, Option.bind_some, if_neg (show serDesNative ≠ [] by decide), hget,
      hsd, SerDes.decode, Option.pure_def]
    rw [Option.map_eq_bind]
    rfl
  have hnative : dst.decodeAs le' m tags fac false serDesNative t =
      some (true, dst', (fac₁.serDesPut (some .native)).2, t₂) := by
    rw [Datum.decodeAs, if_neg (by simp [hact]), if_neg (show serDesNative ≠ serDesAuto by decide)]
    simp only [Option.pure_def, Option.bind_eq_bind, Option.bind_some,
      if_neg (show serDesNative ≠ [] by decide), hget, hsd, SerDes.decode, hdec]
  rw [← hsame, hauto ht₁] at hnative
  obtain ⟨r, hr, heq⟩ := Option.map_eq_some_iff.1 hnative
  obtain ⟨s₂, hs₂, -⟩ := alike_decode halike₁ hr
  refine ⟨dst', _, s₂, ?_, hfac.getPut hget, htree⟩
  rw [hauto hs₁, hs₂, Option.map_some, hsd]
  have h₁ : r.1 = true := congrArg Prod.fst heq
  have h₂ : r.2.1 = dst' := congrArg (fun x => x.2.1) heq
  rw [h₁, h₂]

/-! ### The decoder -/

/-- The type of a message is that of its first segment. -/
theorem OnWire.msgType {v : MessageView} {p : SegPtr} {l : List SegPtr}
    (h : OnWire v ((p :: l).map SegPtr.wire)) : p.seg.msgType.toNat = v.msgType :=
  congrArg MessageView.msgType h.head

namespace IpcDecoder

variable {le : Bool} {m : MemPools} {tags : SerDesIdl.TagOrder} {fac : SerDesFactory} {dc : IpcDecoder}
  {v : MessageView} {l : List SegPtr}

/-- **A raw or a control message** is found in the buffer. -/
theorem loadSegment_buffer (hm : m.Plentiful) (h : OnWire v (l.map SegPtr.wire))
    (htype : v.msgType = msgRaw.toNat ∨ v.msgType = msgControl.toNat) :
    ∃ dc', dc.loadSegment le m tags fac (l.map SegPtr.seg) = some (true, fac, dc') ∧
      dc'.buffer.data = v.payload ∧ dc'.message = dc.message.clear le m := by
  have hinj := h.injected (hm _) dc
  obtain ⟨p, tail, rfl⟩ := List.exists_cons_of_ne_nil (l := l) fun hnil => h.length_mem.1 (by rw [hnil]; rfl)
  have hhead : p.seg.msgType = msgRaw ∨ p.seg.msgType = msgControl := by
    rw [← h.msgType] at htype
    exact htype.imp UInt8.toNat_inj.1 UInt8.toNat_inj.1
  obtain ⟨hrv, hdata⟩ := hinj.readBuf hm (dc.clear le m).buffer
  set s := ((dc.inject ((p :: tail).map SegPtr.seg)).seek 0).2 with hs
  obtain ⟨r, hr⟩ : ∃ r, s.readBuf m (dc.clear le m).buffer s.lenGet = r := ⟨_, rfl⟩
  rw [hr] at hrv hdata
  refine ⟨{ dc.clear le m with buffer := r.2.1, stream := r.2.2 }, ?_, hdata, rfl⟩
  rw [List.map_cons] at hs ⊢
  rw [loadSegment]
  dsimp only
  rw [if_pos hhead, ← hs, hr, decide_eq_true hrv]

/-- **A datum is found as it was encoded**, except that a root without a name has the one that the
message of the decoder had. -/
theorem loadSegment_datum (hm : m.Plentiful) (hfac : fac.Stocked) (h : OnWire v (l.map SegPtr.wire))
    (htype : v.msgType = msgDatum.toNat) {le' : Bool} {dat : Datum} (hdat : dat.Encodable)
    (hplain : (dat.tree le').All Value.Plain) (hpayload : v.payload = packageOctets le' dat)
    (hact : dc.message.isInert = false) :
    ∃ fac' dc', dc.loadSegment le m tags fac (l.map SegPtr.seg) = some (true, fac', dc') ∧
      fac'.Stocked ∧ dc'.message.tree le = (dat.tree le').named (dc.message.nameGet le m) := by
  have hinj := h.injected (hm _) dc
  obtain ⟨p, tail, rfl⟩ := List.exists_cons_of_ne_nil (l := l) fun hnil => h.length_mem.1 (by rw [hnil]; rfl)
  have hhead : p.seg.msgType = msgDatum := by
    rw [← h.msgType] at htype
    exact UInt8.toNat_inj.1 htype
  rcases hinj with ⟨hnil, -⟩ | ⟨t, f, halike, hrep, hf⟩
  · rw [hpayload] at hnil
    exact absurd hnil (List.cons_ne_nil _ _)
  have hact' : (dc.message.clear le m).isInert = false := by rw [Datum.clear_eq hact]
  obtain ⟨dst', fac', s', hdec, hstocked, htree⟩ := Datum.decodeAs_alike hm tags hfac hdat hplain halike
    hrep (hf.trans hpayload) hact'
  rw [Datum.nameGet_clear hm hact] at htree
  refine ⟨fac', { dc.clear le m with message := dst', stream := s' }, ?_, hstocked, htree⟩
  rw [List.map_cons] at hdec ⊢
  rw [loadSegment]
  dsimp only
  rw [if_neg (by rw [hhead]; decide), if_pos hhead]
  change Option.map _ (Datum.decodeAs le m tags fac (dc.message.clear le m) false serDesAuto _) = _
  rw [hdec]
  rfl

end IpcDecoder

end CodePort
