/-
Conversions between buffers and streams.

A stream is filled from a buffer by clearing it and writing the data; a buffer is filled from a stream by
reading the stream from its start.  An empty stream is not read at all, and so it leaves what the buffer
held before.  The encoder that fills a buffer goes through a stream, which stays empty when the encoder
gives up before it has begun.

Main definitions:

* `CodePort.StreamBuf.assignBuf`, `CodePort.Buffer.assignStream` — the assignment conversion operators;
* `CodePort.SerDes.encode`, `CodePort.Datum.encodeAs` — the encoder, by the name of an encoding;
* `CodePort.Datum.encodeBuf` — the encoder into a buffer.

Main results:

* `CodePort.Buffer.data_assignStream_iff` — **a buffer takes the octets of a stream over if and only if
  there are some, or it was empty**;
* `CodePort.Datum.octets_encodeAs_ne_nil_iff` — when an encoding leaves something in the stream;
* `CodePort.buffer_stream_convert_iff` — **the conversions, and the encoder into a buffer**.
-/

import CodePort.EncodeAppends

set_option relaxedAutoImplicit false
set_option autoImplicit false

namespace CodePort

open BlockStore

/-! ### The operators -/

/-- Conversion assignment operator of a stream buffer. -/
def StreamBuf.assignBuf (s : StreamBuf) (rhs : Buffer) : Option StreamBuf :=
  (s.clear.writeBuf rhs rhs.lenGet).map fun r => r.2

namespace Buffer

variable {β : Type} [BlockStore β]

/-- Assignment conversion operator, any binary content.  The result is the buffer and the stream. -/
def assignStream (m : MemPools) (b : Buffer) (rhs : StreamBase β) : Buffer × StreamBase β :=
  let size := rhs.lenGet
  if 0 < size then
    -- copy the buffer data
    ((rhs.seek 0).2.readBuf m b size).2
  else (b, rhs)

variable [LawfulBlockStore β] {s : StreamBase β} {f : FlatStream UInt8} {m : MemPools}

/-- A stream that is not empty is copied completely. -/
theorem data_assignStream (hm : m.Plentiful) (h : s.Represents f) (hne : f.content ≠ []) (b : Buffer) :
    (b.assignStream m s).1.data = f.content := by
  have hpos := List.length_pos_iff.2 hne
  obtain ⟨-, hseek⟩ := h.seek 0
  have hlen : (s.seek 0).2.lenGet = f.content.length := by
    rw [hseek.lenGet_eq, FlatStream.content_seek]
  have hoctets : ((s.seek 0).2.arrayRd f.content.length).1 = f.content := by
    rw [(hseek.arrayRd f.content.length).1]
    show (f.seek 0).2.rest.take f.content.length = f.content
    rw [FlatStream.rest_seek_zero, List.take_length]
  rw [assignStream, h.lenGet_eq, if_pos hpos, StreamBase.readBuf, hlen, if_neg (lt_irrefl _)]
  -- the buffer is large enough now
  have hroom : (if b.size < f.content.length then b.resize m f.content.length else (true, b)).1 = true ∧
      f.content.length ≤
        (if b.size < f.content.length then b.resize m f.content.length else (true, b)).2.size := by
    split_ifs with hsize
    · exact ⟨resize_fst hm b _, le_size_resize (resize_fst hm b _)⟩
    · exact ⟨rfl, not_lt.1 hsize⟩
  simp only [if_pos hroom.1, hoctets]
  exact data_lenSet_memWr hroom.2

/-- **A buffer takes the octets of a stream over if and only if there are some, or it was empty.** -/
theorem data_assignStream_iff (hm : m.Plentiful) (h : s.Represents f) (b : Buffer) :
    (b.assignStream m s).1.data = f.content ↔ f.content ≠ [] ∨ b.data = [] := by
  by_cases hne : f.content = []
  · have hsame : b.assignStream m s = (b, s) := by
      rw [assignStream, h.lenGet_eq, hne]
      rfl
    rw [hsame, hne]
    simp
  · exact iff_of_true (data_assignStream hm h hne b) (.inl hne)

end Buffer

/-- A stream that a buffer has been assigned to holds its data. -/
theorem StreamBuf.represents_assignBuf {s : StreamBuf} (hs : s.store.mem.Plentiful) (rhs : Buffer) :
    ∃ t f, s.assignBuf rhs = some t ∧ t.Represents f ∧ f.content = rhs.data := by
  have hclear : s.clear.Represents (FlatStream.empty false) :=
    represents_of_vecBlocks_nil rfl hs ⟨rfl, rfl, rfl, rfl⟩
  obtain ⟨t, hrun, ht, -⟩ := hclear.arrayWr (rhs.data.take rhs.lenGet)
  refine ⟨t, _, ?_, ht, ?_⟩
  · rw [assignBuf, StreamBase.writeBuf, hrun]
    rfl
  · rw [FlatStream.content_write_of_atEnd (by rfl), FlatStream.content_empty, List.nil_append, Buffer.lenGet,
      ← Buffer.length_data, List.take_length]

/-! ### The encoder into a buffer -/

section Encode

variable {β : Type} [BlockStore β]

/-- Encodes a datum to a stream.  The members of a serializer for XML are what its last encoding has left
in them. -/
def SerDes.encode (le : Bool) (m : MemPools) (xml : SerDesXml) (sd : SerDes) (dat : Datum)
    (chkMode : CheckSum) (s : StreamBase β) : Option (Bool × SerDes × StreamBase β) :=
  match sd with
  | .native => (dat.encode le m chkMode s).map fun r => (r.1, .native, r.2)
  | .xml => (dat.encodeXml le m chkMode xml s).map fun r => (r.1, .xml, r.2.2)
  | .idl ser => (dat.encodeIdl le m chkMode ser s).map fun r => (r.1, .idl r.2.1, r.2.2)

/-- Encodes the collection to a stream, by the name of an encoding. -/
def Datum.encodeAs (le : Bool) (m : MemPools) (xml : SerDesXml) (fac : SerDesFactory) (dat : Datum)
    (enc : List UInt8) (chkMode : CheckSum) (s : StreamBase β) :
    Option (Bool × SerDesFactory × StreamBase β) :=
  -- do nothing if inert
  if dat.isInert then some (false, fac, s)
  else
    match fac.serDesGet enc with
    | (none, fac) => some (false, fac, s)
    | (some sd, fac) =>
        (sd.encode le m xml dat chkMode s).map fun r => (r.1, (fac.serDesPut (some r.2.1)).2, r.2.2)

end Encode

/-- Encodes the collection to a buffer. -/
def Datum.encodeBuf (le : Bool) (m : MemPools) (xml : SerDesXml) (fac : SerDesFactory) (mem : MemSource)
    (dat : Datum) (buf : Buffer) (enc : List UInt8) (chkMode : CheckSum) :
    Option (Bool × SerDesFactory × Buffer) :=
  (dat.encodeAs le m xml fac enc chkMode (StreamBuf.construct mem 0)).map fun r =>
    (r.1, r.2.1, (buf.assignStream m r.2.2).1)

/-- The names of the serializers. -/
def SerDes.names : List (List UInt8) := [serDesIdl, serDesNative, serDesXml]

variable {β : Type} [BlockStore β] [LawfulBlockStore β]

/-- **A serializer leaves a stream that is not empty.** -/
theorem SerDes.encode_ends {le : Bool} {m : MemPools} {xml : SerDesXml} {sd : SerDes} {dat : Datum}
    (hact : dat.isInert = false) {chkMode : CheckSum} {s : StreamBase β} {f : FlatStream UInt8}
    (h : s.Represents f) {r : Bool × SerDes × StreamBase β}
    (hr : sd.encode le m xml dat chkMode s = some r) : ∃ c, c ≠ [] ∧ StreamBase.Ends r.2.2 c := by
  cases sd with
  | native =>
      obtain ⟨r', hr', rfl⟩ := Option.map_eq_some_iff.1 hr
      obtain ⟨s', c, hs', hc, hends⟩ := Datum.ends_encodeNative le m hact chkMode h
      obtain rfl := Option.some.inj (hs'.symm.trans hr')
      exact ⟨c, hc, hends⟩
  | xml =>
      obtain ⟨r', hr', rfl⟩ := Option.map_eq_some_iff.1 hr
      exact Datum.begins_encodeXml le m hact chkMode h r' hr'
  | idl ser =>
      obtain ⟨r', hr', rfl⟩ := Option.map_eq_some_iff.1 hr
      exact Datum.begins_encodeIdl le m hact chkMode h r' hr'

/-- Stocked pools hand out a serializer of each name, and of no other. -/
theorem SerDesFactory.Stocked.serDesGet_eq_none_iff {fac : SerDesFactory} (h : fac.Stocked)
    (enc : List UInt8) : (fac.serDesGet enc).1 = none ↔ enc ∉ SerDes.names := by
  obtain ⟨idl, native, xml, hidl, hnative, hxml, hpools⟩ := h
  obtain ⟨sd₁, hsd₁⟩ := hidl.exists_take
  obtain ⟨sd₂, hsd₂⟩ := hnative.exists_take
  obtain ⟨sd₃, hsd₃⟩ := hxml.exists_take
  simp only [SerDesFactory.serDesGet, hpools, SerDesFactory.poolGet, SerDes.names, List.mem_cons,
    List.not_mem_nil, or_false, not_or]
  split_ifs with h₁ h₂ h₃
  · simp [hsd₁, h₁]
  · simp [hsd₂, h₂]
  · simp [hsd₃, h₃]
  · simp [Ne.symm h₁, Ne.symm h₂, Ne.symm h₃]

/-- **When an encoding leaves something in a new stream**: the datum is active and there is a serializer
for the encoding. -/
theorem Datum.octets_encodeAs_ne_nil_iff {le : Bool} {m : MemPools} {xml : SerDesXml}
    {fac : SerDesFactory} (hfac : fac.Stocked) {dat : Datum} {enc : List UInt8} {chkMode : CheckSum}
    {s : StreamBase β} (h : s.Represents (FlatStream.empty true))
    {r : Bool × SerDesFactory × StreamBase β} (hr : dat.encodeAs le m xml fac enc chkMode s = some r) :
    ∃ f, StreamBase.Represents r.2.2 f ∧
      (f.content ≠ [] ↔ dat.isInert = false ∧ enc ∈ SerDes.names) := by
  have hnone := hfac.serDesGet_eq_none_iff enc
  rw [encodeAs] at hr
  cases hact : dat.isInert with
  | true =>
      rw [hact, if_pos rfl] at hr
      obtain rfl := Option.some.inj hr
      exact ⟨_, h, by simp⟩
  | false =>
      rw [hact, if_neg Bool.false_ne_true] at hr
      rcases hget : fac.serDesGet enc with ⟨sd | sd, fac'⟩
      · rw [hget] at hr hnone
        obtain rfl := Option.some.inj hr
        exact ⟨_, h, by simp [hnone.1 rfl]⟩
      · rw [hget] at hr hnone
        obtain ⟨r', hr', rfl⟩ := Option.map_eq_some_iff.1 hr
        obtain ⟨c, hc, f, hrep, -, hcontent⟩ := SerDes.encode_ends hact h hr'
        have hmem : enc ∈ SerDes.names := by
          by_contra hno
          exact absurd (hnone.2 hno) (by simp)
        exact ⟨f, hrep, by simp [hcontent, hc, hmem]⟩

/-- **The conversions between buffers and streams.**  A buffer that has gone through a stream, whatever
that held before, is taken over by the destination if and only if it is not empty or the destination was
empty.  And when the encoder into a buffer returns, the buffer holds the octets of the stream that it has
gone through if and only if the datum is active and there is a serializer for the encoding, or the buffer
was empty. -/
theorem buffer_stream_convert_iff (m : MemPools) (hm : m.Plentiful) (src dest : Buffer) (s : StreamBuf)
    (hs : s.store.mem.Plentiful) :
    (∃ t, s.assignBuf src = some t ∧
      ((dest.assignStream m t).1.data = src.data ↔ src.data ≠ [] ∨ dest.data = [])) ∧
    ∀ (le : Bool) (xml : SerDesXml) (ops : List SerDesFactory.FactoryOp) (as : List (Option SerDes))
      (fac fac' : SerDesFactory) (mem : MemSource) (dat : Datum) (enc : List UInt8) (chkMode : CheckSum)
      (rv : Bool) (strm : StreamBuf),
      StepSystem.run SerDesFactory.factoryStep ops SerDesFactory.construct = some (as, fac) →
      mem.Plentiful →
      dat.encodeAs le m xml fac enc chkMode (StreamBuf.construct mem 0) = some (rv, fac', strm) →
      ∃ buf, dat.encodeBuf le m xml fac mem dest enc chkMode = some (rv, fac', buf) ∧
        (buf.data = strm.octets ↔ (dat.isInert = false ∧ enc ∈ SerDes.names) ∨ dest.data = []) := by
  constructor
  · obtain ⟨t, f, ht, hrep, hcontent⟩ := StreamBuf.represents_assignBuf hs src
    refine ⟨t, ht, ?_⟩
    rw [← hcontent]
    exact Buffer.data_assignStream_iff hm hrep dest
  · intro le xml ops as fac fac' mem dat enc chkMode rv strm hfac hmem hrun
    obtain ⟨f, hrep, hwritten⟩ := Datum.octets_encodeAs_ne_nil_iff (SerDesFactory.stocked_run hfac)
      (StreamBuf.represents_construct hmem 0) hrun
    refine ⟨(dest.assignStream m strm).1, by rw [Datum.encodeBuf, hrun]; rfl, ?_⟩
    rw [← hwritten, show strm.octets = f.content from hrep.octets_eq]
    exact Buffer.data_assignStream_iff hm hrep dest

/-- A buffer of three octets, and an encoding in the native format. -/
theorem buffer_stream_convert_iff_sample :
    (∃ t, (StreamBuf.construct sampleMem 0).assignBuf (Buffer.empty.copyIn exactPools [1, 2, 3]).2 = some t ∧
      (((Buffer.empty.copyIn exactPools [7]).2.assignStream exactPools t).1.data =
          (Buffer.empty.copyIn exactPools [1, 2, 3]).2.data ↔
        (Buffer.empty.copyIn exactPools [1, 2, 3]).2.data ≠ [] ∨
          (Buffer.empty.copyIn exactPools [7]).2.data = [])) ∧
    ∃ strm buf fac, sampleDatum.encodeAs true exactPools ⟨false, 0⟩ SerDesFactory.construct serDesNative .none
        (StreamBuf.construct sampleMem 0) = some (true, fac, strm) ∧
      sampleDatum.encodeBuf true exactPools ⟨false, 0⟩ SerDesFactory.construct sampleMem
        (Buffer.empty.copyIn exactPools [7]).2 serDesNative .none = some (true, fac, buf) ∧
      (buf.data = strm.octets ↔ (sampleDatum.isInert = false ∧ serDesNative ∈ SerDes.names) ∨
        (Buffer.empty.copyIn exactPools [7]).2.data = []) := by
  obtain ⟨hconvert, hencode⟩ := buffer_stream_convert_iff exactPools plentiful_exactPools
    (Buffer.empty.copyIn exactPools [1, 2, 3]).2 (Buffer.empty.copyIn exactPools [7]).2
    (StreamBuf.construct sampleMem 0) plentiful_sampleMem
  refine ⟨hconvert, ?_⟩
  have hact : sampleDatum.isInert = false := rfl
  obtain ⟨strm, c, hstrm, -⟩ := Datum.ends_encodeNative true exactPools hact .none
    (StreamBuf.represents_construct plentiful_sampleMem 0)
  have hget : SerDesFactory.construct.serDesGet serDesNative =
      (some .native, SerDesFactory.construct) := rfl
  have hrun : sampleDatum.encodeAs true exactPools ⟨false, 0⟩ SerDesFactory.construct serDesNative .none
      (StreamBuf.construct sampleMem 0) =
        some (true, (SerDesFactory.construct.serDesPut (some .native)).2, strm) := by
    rw [Datum.encodeAs, hget]
    simp only [SerDes.encode, hstrm, Option.map_some]
    rfl
  obtain ⟨buf, hbuf, hiff⟩ := hencode true ⟨false, 0⟩ [] [] SerDesFactory.construct _ sampleMem sampleDatum
    serDesNative .none true strm rfl plentiful_sampleMem hrun
  exact ⟨strm, buf, _, hrun, hbuf, hiff⟩

/-- A buffer that holds an octet, and an empty stream: the octet stays. -/
theorem assignStream_keeps :
    (StreamBuf.construct sampleMem 0).assignBuf Buffer.empty =
        some (StreamBuf.construct sampleMem 0).clear ∧
      Buffer.empty.data = [] ∧
      ((Buffer.empty.copyIn exactPools [7]).2.assignStream exactPools
        (StreamBuf.construct sampleMem 0).clear).1.data = [7] := by
  refine ⟨rfl, rfl, ?_⟩
  rw [← Buffer.data_copyIn plentiful_exactPools Buffer.empty [7]]
  rfl

end CodePort
