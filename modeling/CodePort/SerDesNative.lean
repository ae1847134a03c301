/-
The native serializer.

The encoder walks a datum and inserts octets into a stream: a tag for every attribute, the data
type, the value, and marks around every datum.  The decoder is a loop over the tags of a stream
that keeps a stack of references to the data it is inside of.

Main definitions:

* `CodePort.Insert`, `CodePort.Extract` — functions that insert into a stream, and that extract from
  one; either may fail;
* `CodePort.SerDesNative.start`, `end'`, `valueInsert` — the encoder for one datum;
* `CodePort.Datum.encodeDatum`, `CodePort.Datum.encode` — the encoder for a tree;
* `CodePort.SerDesNative.variantExtract` — the decoder for one value;
* `CodePort.SerDesNative.decodeStep`, `DecodeState.decodeLoop`, `CodePort.Datum.decode` — the
  decoder.

The stream pointer of a serializer is set by `Open` and by `Decode` before anything uses it, and so
is its stack, so a call does not depend on the calls before it.  The tag map has no entry for the
first attribute type; looking it up gives the tag zero, which no decoder knows.
-/

import CodePort.Datum
import CodePort.StreamBase
import Mathlib.Control.Monad.Basic

set_option relaxedAutoImplicit false
set_option autoImplicit false

namespace CodePort

open BlockStore Octets

variable {β : Type} [BlockStore β]

/-! ### Stream input and output -/

/-- A function that inserts into a stream and says whether it could; `none` never returns. -/
abbrev Insert (β : Type) := StreamBase β → Option (Bool × StreamBase β)

/-- A function that extracts from a stream, or fails. -/
abbrev Extract (β α : Type) := OptionT (StateM (StreamBase β)) α

/-- Insert nothing. -/
def Insert.done (rv : Bool) : Insert β := fun s => some (rv, s)

/-- `rv = rv && f(); rv = rv && g();` -/
def Insert.both (f g : Insert β) : Insert β := fun s =>
  (f s).bind fun r => if r.1 then g r.2 else some (false, r.2)

namespace StreamBase

/-- Write one octet to the stream. -/
def writeOctet (ch : UInt8) : Insert β :=
  fun s => (s.arrayWr [ch]).map fun r => (decide (r.1 = 1), r.2)

/-- Write up to `len` octets to the stream. -/
def writeBuf (s : StreamBase β) (buf : Buffer) (len : ℕ) : Option (ℕ × StreamBase β) :=
  s.arrayWr (buf.data.take len)

/-- Read one octet from the stream. -/
def readOctet : Extract β UInt8 :=
  OptionT.mk fun s => ((s.arrayRd 1).1.head?, (s.arrayRd 1).2)

/-- Read up to `len` octets from the stream. -/
def readBuf (m : MemPools) (s : StreamBase β) (buf : Buffer) (len : ℕ) :
    ℕ × Buffer × StreamBase β :=
  let length := if len < s.lenGet then len else s.lenGet
  -- make sure there is enough target storage, but don't resize unless more storage is required
  let r := if buf.size < length then buf.resize m length else (true, buf)
  if r.1 then
    let rd := s.arrayRd length
    (rd.1.length, (r.2.memWr 0 rd.1).lenSet rd.1.length, rd.2)
  else (length, r.2, s)

/-- The loop of `Crc32Get`, at block `i`. -/
def crc32Loop (s : StreamBase β) (i len : ℕ) (cascade : BitVec 32) : Option (BitVec 32) :=
  if validBlock s.store i ∧ 0 < len then
    let size := min (blockSize s.store i) len
    s |>.crc32Loop (i + 1) (len - size)
      (calcCrc32Ptr ((blockMemPtr s.store i).map fun mem => mem.takeD size 0) cascade)
  else some cascade
partial_fixpoint

/-- Calculate the CRC-32 of the stream contents; a length of zero means the entire stream. -/
def crc32Get (s : StreamBase β) (len : ℕ) : Option (BitVec 32) :=
  crc32Loop s 0 (if len = 0 then s.lenGet else len) 0xffffffff

end StreamBase

/-! ### Marks and tags -/

/-- The checksum types. -/
inductive CheckSum
  | none | crc32 | md5Sum | sha1Sum
  deriving DecidableEq, Repr

/-- The octet that a checksum type is converted to. -/
def CheckSum.toOctet : CheckSum → UInt8
  | .none => 0
  | .crc32 => 1
  | .md5Sum => 2
  | .sha1Sum => 3

namespace SerDesNative

def mkMagic : UInt8 := 0x88
def mkPkg : UInt8 := 0xa0
def mkPkgEnd : UInt8 := 0xa1
def mkDat : UInt8 := 0xa2
def mkDatEnd : UInt8 := 0xa3
def mkChk : UInt8 := 0xa4
def mkChkEnd : UInt8 := 0xa5

/-- The attribute map. -/
def attribMap : Attrib → UInt8
  | .none => 0x00
  | .name => 0xb0
  | .val => 0xc0
  | .min => 0xc1
  | .max => 0xc2
  | .deflt => 0xc3
  | .units => 0xc4
  | .info => 0xc5
  | .choices => 0xc6

/-- The tag map. -/
def tagMap (ch : UInt8) : Option Attrib :=
  (Attrib.all.filter (· ≠ .none)).find? fun a => attribMap a = ch

def octetFalse : UInt8 := 0x00
def octetTrue : UInt8 := 0x01

/-! ### Encoding -/

/-- Encode an octet into the output stream. -/
def octetInsert (val : UInt8) : Insert β := StreamBase.writeOctet val

/-- The loops of the functions below: octet by octet. -/
def octetsInsert (l : List UInt8) : Insert β :=
  l.foldr (fun ch k => (octetInsert ch).both k) (Insert.done true)

/-- Encode a number of `w` octets, the most significant one first, whatever the host's order. -/
def wordInsert (le : Bool) (w val : ℕ) : Insert β :=
  let src := toHost le w val
  octetsInsert (if le then src.reverse else src)

def shortInsert (le : Bool) (val : ℕ) : Insert β := wordInsert le 2 val
def longInsert (le : Bool) (val : ℕ) : Insert β := wordInsert le 4 val
def longLongInsert (le : Bool) (val : ℕ) : Insert β := wordInsert le 8 val
def float32Insert (le : Bool) (val : ℕ) : Insert β := wordInsert le 4 val
def float64Insert (le : Bool) (val : ℕ) : Insert β := wordInsert le 8 val

/-- Encode a block length into the output stream. -/
def lenInsert (le : Bool) (len : ℕ) : Insert β :=
  if len < 128 then octetInsert (UInt8.ofNat len)
  else if len < 65536 then
    (octetInsert 128).both
      ((octetInsert (UInt8.ofNat (len / 2 ^ 8 % 2 ^ 8))).both
        (octetInsert (UInt8.ofNat (len % 2 ^ 8))))
  else (octetInsert 129).both (longInsert le len)

/-- Encode a string into the output stream. -/
def stringInsert (le : Bool) (str : List UInt8) : Insert β :=
  (lenInsert le str.length).both fun s =>
    (s.arrayWr str).map fun r => (decide (r.1 = str.length), r.2)

/-- Encode a BLOB into the output stream. -/
def blobInsert (le : Bool) (buf : Buffer) : Insert β :=
  (lenInsert le buf.lenGet).both fun s =>
    (s.writeBuf buf buf.lenGet).map fun r => (decide (r.1 = buf.lenGet), r.2)

/-- Insert a value based on its data type. -/
def valueInsert (le : Bool) (m : MemPools) (v : Variant) : Insert β :=
  match v.type with
  | .uint8 => octetInsert (UInt8.ofNat (v.uint8Get le))
  | .int8 => octetInsert (UInt8.ofNat (v.int8Get le))
  | .uint16 => shortInsert le (v.uint16Get le)
  | .int16 => shortInsert le (v.int16Get le)
  | .uint32 => longInsert le (v.uint32Get le)
  | .int32 => longInsert le (v.int32Get le)
  | .uint64 => longLongInsert le (v.uint64Get le)
  | .int64 => longLongInsert le (v.int64Get le)
  | .float32 => float32Insert le (v.float32Get le)
  | .float64 => float64Insert le (v.float64Get le)
  | .bool => octetInsert (if v.boolGet le then octetTrue else octetFalse)
  | .string => stringInsert le (v.strGet le m)
  | .blob => blobInsert le v.buf
  | .none => Insert.done true
  | .inert | .datumList => Insert.done false

/-- Encode an attribute: its tag, the data type and the value. -/
def attribInsert (le : Bool) (m : MemPools) (a : Attrib) (v : Variant) : Insert β :=
  (octetInsert (attribMap a)).both ((octetInsert v.type.toOctet).both (valueInsert le m v))

/-- The loop of `Start` over the attributes. -/
def attribsInsert (le : Bool) (m : MemPools) (dat : Datum) (as : List Attrib) : Insert β :=
  as.foldr (fun a k =>
    match dat.attribs a with
    | none => k
    | some v => (attribInsert le m a v).both k) (Insert.done true)

/-- Starts encoding a datum. -/
def start (le : Bool) (m : MemPools) (dat : Datum) : Insert β :=
  (octetInsert mkDat).both (attribsInsert le m dat Attrib.all)

/-- Ends encoding a datum. -/
def end' : Insert β := octetInsert mkDatEnd

/-- Generates the encoding header. -/
def «open» (ver : UInt8) : Insert β := fun s =>
  ((octetInsert mkMagic).both ((octetInsert mkPkg).both (octetInsert ver))) s.clear

/-- Generates the encoding footer. -/
def close (le : Bool) (chkMode : CheckSum) : Insert β :=
  (octetInsert mkPkgEnd).both fun s =>
    if chkMode = .none then some (true, s)
    else
      -- the opening marker, the checksum type, the checksum, the closing marker
      ((octetInsert mkChk).both ((octetInsert chkMode.toOctet).both
        (Insert.both
          (fun t =>
            if chkMode = .crc32 then
              (t.crc32Get s.pos).bind fun crc => longInsert le crc.toNat t
            else some (true, t))
          (octetInsert mkChkEnd)))) s

end SerDesNative

namespace Datum

open SerDesNative

mutual

/-- Encodes the datum and its sub-data recursively.  The result counts the calls that could
insert. -/
def encodeDatum (le : Bool) (m : MemPools) : Datum → StreamBase β → Option (ℕ × StreamBase β)
  | ⟨isInert, self, attribs, iterData, datums⟩, s => do
      let (started, s) ← start le m ⟨isInert, self, attribs, iterData, datums⟩ s
      let (size, s) ← encodeDatums le m datums s
      let (ended, s) ← end' s
      pure (started.toNat + size + ended.toNat, s)

/-- The loop over the sub-data. -/
def encodeDatums (le : Bool) (m : MemPools) :
    List Datum → StreamBase β → Option (ℕ × StreamBase β)
  | [], s => some (0, s)
  | d :: ds, s => do
      let (size, s) ← encodeDatum le m d s
      let (sizes, s) ← encodeDatums le m ds s
      pure (size + sizes, s)

end

/-- Returns the datum proper version. -/
def datumVersion : UInt8 := 0

/-- Encodes the collection to a stream. -/
def encode (le : Bool) (m : MemPools) (dat : Datum) (chkMode : CheckSum) : Insert β := fun s =>
  if dat.isInert then some (false, s)
  else
    ((«open» datumVersion).both
      (Insert.both (fun s => (dat.encodeDatum le m s).map fun r => (decide (r.1 ≠ 0), r.2))
        (close le chkMode))) s

end Datum

/-! ### Decoding -/

namespace SerDesNative

/-- Decode an octet from the input stream. -/
def octetExtract : Extract β UInt8 := StreamBase.readOctet

/-- The loops of the functions below: octet by octet. -/
def octetsExtract : ℕ → Extract β (List UInt8)
  | 0 => pure []
  | n + 1 => do
      let ch ← octetExtract
      let l ← octetsExtract n
      pure (ch :: l)

/-- Decode a number of `w` octets, the most significant one first, whatever the host's order. -/
def wordExtract (le : Bool) (w : ℕ) : Extract β ℕ := do
  let l ← octetsExtract w
  pure (ofHost le (if le then l.reverse else l))

def shortExtract (le : Bool) : Extract β ℕ := wordExtract le 2
def longExtract (le : Bool) : Extract β ℕ := wordExtract le 4
def longLongExtract (le : Bool) : Extract β ℕ := wordExtract le 8
def float32Extract (le : Bool) : Extract β ℕ := wordExtract le 4
def float64Extract (le : Bool) : Extract β ℕ := wordExtract le 8

/-- Decode a block length from the input stream. -/
def lenExtract (le : Bool) : Extract β ℕ := do
  let ch ← octetExtract
  if ch < 128 then pure ch.toNat
  else if ch = 128 then
    let hi ← octetExtract
    let lo ← octetExtract
    pure (hi.toNat <<< 8 ||| lo.toNat)
  else if ch = 129 then longExtract le
  else failure

/-- Decode a string from the input stream. -/
def stringExtract (le : Bool) (m : MemPools) : Extract β (List UInt8) := do
  let len ← lenExtract le
  if 0 < len then
    -- resize buffer to accommodate length of string + terminator
    let buf := Buffer.empty.resize m (len + 1)
    if buf.1 then
      OptionT.mk fun s =>
        let r := s.readBuf m buf.2 len
        -- terminate the string and assign result
        (if r.1 = len then some (cStr (r.2.1.memWr len [0]).mem) else none, r.2.2)
    else failure
  else pure []

/-- Decode a BLOB from the input stream. -/
def blobExtract (le : Bool) (m : MemPools) : Extract β Buffer := do
  let len ← lenExtract le
  if 0 < len then
    -- resize buffer to accommodate length of block
    let buf := Buffer.empty.resize m len
    if buf.1 then
      OptionT.mk fun s =>
        let r := s.readBuf m buf.2 len
        (if r.1 = len then some r.2.1 else none, r.2.2)
    else failure
  else pure (Buffer.empty.resize m 0).2

/-- Decode a data value into a variant.  The result is the variant afterwards. -/
def variantExtract (le : Bool) (m : MemPools) (var : Variant) (type : DataType) :
    Extract β Variant :=
  match type with
  | .uint8 => do
      let val ← octetExtract
      pure (var.uint8Set le m val.toNat)
  | .int8 => do
      let val ← octetExtract
      pure (var.int8Set le m val.toNat)
  | .uint16 => var.uint16Set le m <$> shortExtract le
  | .int16 => var.int16Set le m <$> shortExtract le
  | .uint32 => var.uint32Set le m <$> longExtract le
  | .int32 => var.int32Set le m <$> longExtract le
  | .uint64 => var.uint64Set le m <$> longLongExtract le
  | .int64 => var.int64Set le m <$> longLongExtract le
  | .float32 => var.float32Set le m <$> float32Extract le
  | .float64 => var.float64Set le m <$> float64Extract le
  | .bool => do
      let ch ← octetExtract
      pure (var.boolSet m (decide (ch ≠ octetFalse)))
  | .string => var.strSet m <$> stringExtract le m
  | .blob => var.bufSet m <$> blobExtract le m
  | .none => pure (var.assign m (Variant.construct m false))
  | .inert | .datumList => failure

/-- Check the identifier. -/
def decodeIdent : Extract β Unit := do
  let ch ← octetExtract
  if ch = mkMagic then
    let ch ← octetExtract
    if ch = mkPkg then pure () else failure
  else failure

/-- No special handling of version at this time. -/
def decodeVersion : Extract β Unit := do
  let _ ← octetExtract
  pure ()

/-- The local variables of `DecodeElement`, with the stream and the datum that is decoded. -/
structure DecodeState (β : Type) where
  stream : StreamBase β
  /-- The datum that is decoded. -/
  root : Datum
  /-- The stack of references, the most current one first. -/
  datStack : List DatumRef
  pDat : DatumRef
  /-- The next datum is the root. -/
  rootDatum : Bool
  var : Variant

/-- How a pass through the loop of `DecodeElement` ends. -/
inductive Verdict
  | more
  | exit
  | fail
  deriving DecidableEq

namespace DecodeState

/-- Apply a function to the datum that a reference designates; the inert datum does not change. -/
def modifyRef (st : DecodeState β) (r : DatumRef) (f : Datum → Datum) : DecodeState β :=
  match r with
  | none => st
  | some p => { st with root := Datum.modifyAt f p st.root }

/-- `&(pDat->Get())`. -/
def getRef (st : DecodeState β) (r : DatumRef) : DatumRef := do
  let p ← r
  let d ← st.root.at p
  let q ← d.get
  pure (p ++ q)

end DecodeState

/-- Start of a datum: the root, or a new sub-datum of the current one. -/
def decodeDat (le : Bool) (m : MemPools) (st : DecodeState β) : DecodeState β :=
  if st.rootDatum then { st with rootDatum := false }
  else
    let st := st.modifyRef st.pDat fun d => d.add le m []
    let pDat := st.getRef st.pDat
    { st with pDat := pDat, datStack := pDat :: st.datStack }

/-- End of a datum. -/
def decodeDatEnd (st : DecodeState β) : DecodeState β :=
  match st.datStack with
  | _ :: r :: rs => { st with datStack := r :: rs, pDat := r }
  | _ => st

/-- The data type and the value of an attribute. -/
def attribExtract (le : Bool) (m : MemPools) (var : Variant) : Extract β Variant := do
  let ch ← octetExtract
  match DataType.ofOctet ch with
  | none => failure
  | some type => variantExtract le m var type

/-- An attribute of the current datum. -/
def decodeAttrib (le : Bool) (m : MemPools) (attrib : Attrib) (st : DecodeState β) :
    Verdict × DecodeState β :=
  match (attribExtract le m st.var).run st.stream with
  | (none, s) => (.fail, { st with stream := s })
  | (some var, s) =>
      (.more, ({ st with stream := s, var := var }).modifyRef st.pDat
        fun d => d.attrSet m attrib var)

/-- A pass through the loop of `DecodeElement`. -/
def decodeStep (le : Bool) (m : MemPools) (st : DecodeState β) : Verdict × DecodeState β :=
  match octetExtract.run st.stream with
  | (none, s) => (.fail, { st with stream := s })
  | (some ch, s) =>
      let st := { st with stream := s }
      if ch = mkPkgEnd then (.exit, st)
      else if ch = mkDat then (.more, decodeDat le m st)
      else if ch = mkDatEnd then (.more, decodeDatEnd st)
      else if ch = mkChk ∨ ch = mkChkEnd then (.more, st)
      else
        match tagMap ch with
        | some attrib => decodeAttrib le m attrib st
        | none => (.fail, st)

/-- The loop of `DecodeElement`. -/
def DecodeState.decodeLoop (le : Bool) (m : MemPools) (st : DecodeState β) :
    Option (Bool × DecodeState β) :=
  match decodeStep le m st with
  | (.more, st) => st |>.decodeLoop le m
  | (.exit, st) => some (true, st)
  | (.fail, st) => some (false, st)
partial_fixpoint

theorem decodeLoop_more {le : Bool} {m : MemPools} {st st' : DecodeState β}
    (h : decodeStep le m st = (.more, st')) : st.decodeLoop le m = st'.decodeLoop le m := by
  rw [DecodeState.decodeLoop, h]

/-- Decode the elements of a package into a datum. -/
def decodeElement (le : Bool) (m : MemPools) (dat : Datum) (s : StreamBase β) :
    Option (Bool × Datum × StreamBase β) :=
  (DecodeState.decodeLoop le m
    { stream := s, root := dat, datStack := [some []], pDat := some [], rootDatum := true
      var := Variant.construct m false }).map fun r => (r.1, r.2.root, r.2.stream)

/-- Check the checksum that follows a package. -/
def decodeChecksum (le : Bool) : Insert β := fun s =>
  let read : Extract β UInt8 := do
    let ch ← octetExtract
    if ch = mkChk then octetExtract else failure
  match read.run s with
  | (none, t) => some (false, t)
  | (some ch, t) =>
      let finish (t : StreamBase β) : Bool × StreamBase β :=
        let r := octetExtract.run t
        (r.1.isSome, r.2)
      if ch = CheckSum.crc32.toOctet then
        match (longExtract le).run t with
        | (none, t) => some (false, t)
        | (some crcs, t) =>
            -- result good if they match
            (t.crc32Get s.pos).map fun crcr =>
              if crcs = crcr.toNat then finish t else (false, t)
      else if ch = CheckSum.md5Sum.toOctet ∨ ch = CheckSum.sha1Sum.toOctet then some (false, t)
      else some (finish t)

/-- The loop of `Decode`: one state after another, up to the last one or to a failure. -/
def execDecodeStates (le : Bool) (m : MemPools) (s : StreamBase β) (dat : Datum) (check : Bool) :
    Option (Bool × Datum × StreamBase β) :=
  let header : Extract β Unit := do
    decodeIdent
    decodeVersion
  match header.run s with
  | (none, s) => some (false, dat, s)
  | (some _, s) => do
      let (rv, dat, s) ← decodeElement le m dat s
      let (rv, s) ← if rv && check then decodeChecksum le s else pure (rv, s)
      pure (rv, dat, s)

/-- Decodes a stream to a datum. -/
def decode (le : Bool) (m : MemPools) (s : StreamBase β) (dat : Datum) (check : Bool) :
    Option (Bool × Datum × StreamBase β) :=
  (execDecodeStates le m (s.seek 0).2 (dat.clear le m) check).map fun r =>
    -- clear datum if decode failed
    (r.1, if r.1 then r.2.1 else r.2.1.clear le m, r.2.2)

end SerDesNative

/-- Decodes the collection from a stream with the native serializer. -/
def Datum.decode (le : Bool) (m : MemPools) (dat : Datum) (check : Bool) (s : StreamBase β) :
    Option (Bool × Datum × StreamBase β) :=
  if dat.isInert then some (false, dat, s) else SerDesNative.decode le m s dat check

end CodePort
