/-
The IDL serializer.

The encoder writes a datum as lines of text, indented by its depth; the decoder reads the lines back,
takes a keyword off the front of each and keeps the type of the datum that it has seen last.

Main definitions:

* `CodePort.SerDesIdl` — the members that an encoding changes;
* `CodePort.SerDesIdl.stringInsert`, `start`, `end'` — the encoder for one datum;
* `CodePort.Datum.encodeIdlDatum`, `CodePort.Datum.encodeIdl` — the encoder for a tree;
* `CodePort.SerDesIdl.tagTrim`, `variantExtract` — the decoder for a keyword and for a value;
* `CodePort.SerDesIdl.decodeLine`, `decodeStep`, `DecodeState.decodeLoop`, `decode` —
  the decoder.

A string that is read past its terminator, a null tag and a type name that is in no table have no
defined outcome, which is `none` here, as is a call that never returns.  The tag map is ordered by
the addresses of the tags, so its order is a parameter.
-/

import CodePort.StreamLine
import CodePort.TextUtil

set_option relaxedAutoImplicit false
set_option autoImplicit false

namespace CodePort

open BlockStore Octets

variable {β : Type} [BlockStore β]

/-- What an encoding changes in the serializer. -/
structure SerDesIdl where
  /-- Indicates the start of a new line. -/
  newLine : Bool
  /-- Indentation level of nested datum. -/
  indentLevel : ℕ
  deriving DecidableEq

namespace SerDesIdl

/-- The constructor. -/
def construct : SerDesIdl := ⟨false, 0⟩

/-! ### Tags -/

def tagBegin : List UInt8 := ascii "Begin: "
def tagEnd : List UInt8 := ascii "End"
def tagHdr : List UInt8 := ascii "// DATUM IDL"
def tagPkg : List UInt8 := ascii "Package "
def tagVer : List UInt8 := ascii "Version: "
def tagDat : List UInt8 := ascii "Datum "
def tagComment : List UInt8 := ascii "//"
def tagCommentEnd : List UInt8 := []
def tagLineEnd : List UInt8 := [10]
def tagCrc32 : List UInt8 := ascii " CRC32:"
def tagMd5Sum : List UInt8 := ascii " MD5SUM:"
def tagSha1Sum : List UInt8 := ascii " SHA1SUM:"

/-- The attribute map, which has no tag for the first attribute type. -/
def attribMap : Attrib → Option (List UInt8)
  | .none => none
  | .name => some (ascii "Name: ")
  | .val => some (ascii "Value: ")
  | .min => some (ascii "MinVal: ")
  | .max => some (ascii "MaxVal: ")
  | .deflt => some (ascii "Default: ")
  | .units => some (ascii "Units: ")
  | .info => some (ascii "Info: ")
  | .choices => some (ascii "Choices: ")

/-- The names of the data types. -/
def dataTypeName : DataType → List UInt8
  | .inert => ascii "Inert"
  | .none => ascii "None"
  | .uint8 => ascii "Uint8"
  | .int8 => ascii "Int8"
  | .uint16 => ascii "Uint16"
  | .int16 => ascii "Int16"
  | .uint32 => ascii "Uint32"
  | .int32 => ascii "Int32"
  | .uint64 => ascii "Uint64"
  | .int64 => ascii "Int64"
  | .float32 => ascii "Float32"
  | .float64 => ascii "Float64"
  | .bool => ascii "Bool"
  | .string => ascii "String"
  | .blob => ascii "BLOB"
  | .datumList => ascii "DatumList"

/-- The order of the tag map: the attributes that have a tag. -/
structure TagOrder where
  order : List Attrib
  perm : order.Perm (Attrib.all.filter fun a => (attribMap a).isSome)

/-! ### Encoding -/

/-- A function that inserts text into a stream. -/
abbrev TextInsert (β : Type) :=
  SerDesIdl → StreamBase β → Option (Bool × SerDesIdl × StreamBase β)

namespace TextInsert

/-- Insert nothing. -/
def done (rv : Bool) : TextInsert β := fun ser s => some (rv, ser, s)

/-- `rv = rv && f(); rv = rv && g();` -/
def both (f g : TextInsert β) : TextInsert β := fun ser s =>
  (f ser s).bind fun r => if r.1 then g r.2.1 r.2.2 else some (false, r.2)

end TextInsert

/-- The number of blanks for a level. -/
def indentSize : ℕ := 4

/-- The indentation of a line: a number of octets from a C string of blanks. -/
def indentInsert : TextInsert β := fun ser s =>
  let indent := indentSize * ser.indentLevel
  let mem := genStr indent 32 ++ [0]
  if indent ≤ mem.length then
    (s.arrayWr (mem.take indent)).map fun r =>
      (decide (r.1 = indent), { ser with newLine := false }, r.2)
  else none

/-- The octets of a string. -/
def octetsInsert (str : List UInt8) : TextInsert β := fun ser s =>
  (s.arrayWr str).map fun r => (decide (r.1 = str.length), ser, r.2)

/-- Encode a string into the output buffer. -/
def stringInsert (str : List UInt8) : TextInsert β := fun ser s =>
  if ser.newLine then indentInsert.both (octetsInsert str) ser s else octetsInsert str ser s

/-- Encode a line ending into the output buffer. -/
def newLineInsert : TextInsert β := fun ser s =>
  (stringInsert tagLineEnd ser s).map fun r => (r.1, { r.2.1 with newLine := r.1 }, r.2.2)

def unsignedLongInsert (val : ℕ) : TextInsert β := stringInsert (uintToStr val)
def signedLongInsert (val : ℕ) : TextInsert β := stringInsert (intToStr val)
def unsignedLongLongInsert (val : ℕ) : TextInsert β := stringInsert (uint64ToStr val)
def signedLongLongInsert (val : ℕ) : TextInsert β := stringInsert (int64ToStr val)

def floatDigits : ℕ := 7
def doubleDigits : ℕ := 16

def float32Insert (val : ℕ) : TextInsert β :=
  stringInsert ((floatVal32 val).fixedText floatDigits)

def float64Insert (val : ℕ) : TextInsert β :=
  stringInsert ((floatVal64 val).fixedText doubleDigits)

/-- Encode a BLOB into the output buffer. -/
def blobInsert (buf : Buffer) : TextInsert β :=
  buf.data.foldr (fun ch k => (stringInsert (hexOctet ch ++ [32])).both k) (.done true)

/-- Insert an open tag. -/
def openTagInsert (tagName : List UInt8) (attr : Bool) : TextInsert β := fun ser s =>
  ((stringInsert tagName).both ((stringInsert tagBegin).both
    (if attr then .done true else newLineInsert)) ser s).map fun r =>
      (r.1, { r.2.1 with indentLevel := r.2.1.indentLevel + 1 }, r.2.2)

/-- Insert a close tag. -/
def closeTagInsert (tagName : List UInt8) : TextInsert β := fun ser s =>
  (stringInsert tagName).both (stringInsert tagEnd)
    { ser with indentLevel := ser.indentLevel - 1 } s

/-- Insert an attribute. -/
def attribInsert (attrName value : List UInt8) (final : Bool) : TextInsert β :=
  (stringInsert attrName).both ((stringInsert value).both
    (if final then newLineInsert else .done true))

/-- Insert a value based on its data type. -/
def valueInsert (le : Bool) (m : MemPools) (v : Variant) : TextInsert β :=
  match v.type with
  | .uint8 => unsignedLongInsert (v.uint8Get le)
  | .int8 => signedLongInsert (Variant.signExtend 1 (v.int8Get le))
  | .uint16 => unsignedLongInsert (v.uint16Get le)
  | .int16 => signedLongInsert (Variant.signExtend 2 (v.int16Get le))
  | .uint32 => unsignedLongInsert (v.uint32Get le)
  | .int32 => signedLongInsert (v.int32Get le)
  | .uint64 => unsignedLongLongInsert (v.uint64Get le)
  | .int64 => signedLongLongInsert (v.int64Get le)
  | .float32 => float32Insert (v.float32Get le)
  | .float64 => float64Insert (v.float64Get le)
  | .bool => stringInsert (if v.boolGet le then ascii "true" else ascii "false")
  | .string => stringInsert (v.strGet le m)
  | .blob => blobInsert v.buf
  | .none => .done true
  | .inert | .datumList => .done false

/-- The loop of `Start` over the attributes. -/
def attribsInsert (le : Bool) (m : MemPools) (dat : Datum) (as : List Attrib) : TextInsert β :=
  as.foldr (fun a k =>
    match dat.attribs a with
    | none => k
    | some v =>
        match attribMap a with
        -- a string cannot be made of a null pointer
        | none => fun _ _ => none
        | some tag =>
            (stringInsert tag).both ((valueInsert le m v).both (newLineInsert.both k)))
    (.done true)

/-- Starts encoding a datum. -/
def start (le : Bool) (m : MemPools) (dat : Datum) : TextInsert β :=
  (openTagInsert tagDat true).both ((stringInsert (dataTypeName (dat.attr .val).type)).both
    (newLineInsert.both (attribsInsert le m dat Attrib.all)))

/-- Ends encoding a datum. -/
def end' : TextInsert β := (closeTagInsert tagDat).both newLineInsert

/-- Generates the encoding header. -/
def «open» (ver : UInt8) : TextInsert β := fun ser s =>
  ((stringInsert tagHdr).both (newLineInsert.both ((openTagInsert tagPkg true).both
    (attribInsert tagVer (uintToStr ver.toNat) true)))) ser s.clear

/-- The checksum of the first `pos` octets, where it is a CRC. -/
def checksumInsert (chkMode : CheckSum) (pos : ℕ) : TextInsert β :=
  match chkMode with
  | .crc32 => (stringInsert tagCrc32).both fun ser s =>
      (s.crc32Get pos).bind fun crc => stringInsert (hexLong crc.toNat) ser s
  | .md5Sum => stringInsert tagMd5Sum
  | .sha1Sum => stringInsert tagSha1Sum
  | .none => .done true

/-- Generates the encoding footer. -/
def close (chkMode : CheckSum) : TextInsert β :=
  (closeTagInsert tagPkg).both (newLineInsert.both fun ser s =>
    if chkMode = .none then some (true, ser, s)
    else
      -- the opening marker, the checksum type and the checksum, the closing marker
      (stringInsert tagComment).both ((checksumInsert chkMode s.pos).both
        ((stringInsert tagCommentEnd).both newLineInsert)) ser s)

end SerDesIdl

namespace Datum

open SerDesIdl

mutual

/-- Encodes the datum and its sub-data recursively.  The result counts the calls that could
insert. -/
def encodeIdlDatum (le : Bool) (m : MemPools) :
    Datum → SerDesIdl → StreamBase β → Option (ℕ × SerDesIdl × StreamBase β)
  | ⟨isInert, self, attribs, iterData, datums⟩, ser, s => do
      let (started, ser, s) ← start le m ⟨isInert, self, attribs, iterData, datums⟩ ser s
      let (size, ser, s) ← encodeIdlDatums le m datums ser s
      let (ended, ser, s) ← end' ser s
      pure (started.toNat + size + ended.toNat, ser, s)

/-- The loop over the sub-data. -/
def encodeIdlDatums (le : Bool) (m : MemPools) :
    List Datum → SerDesIdl → StreamBase β → Option (ℕ × SerDesIdl × StreamBase β)
  | [], ser, s => some (0, ser, s)
  | d :: ds, ser, s => do
      let (size, ser, s) ← encodeIdlDatum le m d ser s
      let (sizes, ser, s) ← encodeIdlDatums le m ds ser s
      pure (size + sizes, ser, s)

end

/-- Encodes the collection to a stream with the IDL serializer. -/
def encodeIdl (le : Bool) (m : MemPools) (dat : Datum) (chkMode : CheckSum) : TextInsert β :=
  fun ser s =>
    if dat.isInert then some (false, ser, s)
    else
      ((«open» datumVersion).both
        (TextInsert.both
          (fun ser s => (dat.encodeIdlDatum le m ser s).map fun r => (decide (r.1 ≠ 0), r.2))
          (close chkMode))) ser s

end Datum

/-! ### Decoding -/

namespace SerDesIdl

/-- Get a line of text from the stream. -/
def lineGet (s : StreamBase β) : Option (Bool × List UInt8 × StreamBase β) := s.readLine 10 true

/-- Detects and trims a tag if found.  The result is the line afterwards. -/
def tagTrim (line tag : List UInt8) : Bool × List UInt8 :=
  -- remove any leading spaces
  let line := ltrim line
  let tag := ltrim tag
  let str := if tag.length ≤ line.length then line.take tag.length else []
  if str = tag then (true, line.drop tag.length) else (false, line)

/-- Convert string data type to enum type.  The table ends with a null pointer, which is compared
with as well. -/
def dataTypeGet (line : List UInt8) : Option DataType :=
  DataType.all.find? fun t => line = dataTypeName t

/-- Decode a data value into a variant. -/
def variantExtract (le : Bool) (m : MemPools) (var : Variant) (type : DataType)
    (value : List UInt8) : Bool × Variant :=
  match type with
  | .int8 => (true, var.int8Set le m (bits 8 (strToInt value)))
  | .uint8 => (true, var.uint8Set le m (strToUint value % 2 ^ 8))
  | .int16 => (true, var.int16Set le m (bits 16 (strToInt value)))
  | .uint16 => (true, var.uint16Set le m (strToUint value % 2 ^ 16))
  | .int32 => (true, var.int32Set le m (bits 32 (strToInt value)))
  | .uint32 => (true, var.uint32Set le m (strToUint value))
  | .int64 => (true, var.int64Set le m (bits 64 (strToInt value)))
  | .uint64 => (true, var.uint64Set le m (strToUint value))
  | .float32 => (true, var.float32Set le m (narrowFloat (strToFloat value)))
  | .float64 => (true, var.float64Set le m (strToFloat value))
  | .bool => (true, var.boolSet m (strToBool value))
  | .string => (true, var.strSet m value)
  | .blob => (true, var.bufSet m (hexDecode m value Buffer.empty).2)
  | .none => (true, var)
  | .inert | .datumList => (false, var)

/-- Find the IDL header. -/
def decodeIdent (s : StreamBase β) : Option (Bool × StreamBase β) :=
  s.findLine fun line => (tagTrim line tagHdr).1

/-- Does the line have the package, the begin and the version keyword? -/
def isVersionLine (line : List UInt8) : Bool :=
  let pkg := tagTrim line tagPkg
  let begin := tagTrim pkg.2 tagBegin
  pkg.1 && begin.1 && (tagTrim begin.2 tagVer).1

/-- Find the package header. -/
def decodeVersion (s : StreamBase β) : Option (Bool × StreamBase β) := s.findLine isVersionLine

/-- The local variables of `DecodeElement`, with the stream and the datum that is decoded; every
line has a variant of its own. -/
structure DecodeState (β : Type) extends SerDesNative.DecodeState β where
  type : DataType

/-- Check if the line contains `Datum Begin` or `Datum End`. -/
def decodeDatLine (le : Bool) (m : MemPools) (line : List UInt8) (st : DecodeState β) :
    Option (Bool × List UInt8 × DecodeState β) :=
  let dat := tagTrim line tagDat
  if dat.1 then
    let begin := tagTrim dat.2 tagBegin
    if begin.1 then
      (dataTypeGet begin.2).map fun type =>
        (true, begin.2, ⟨SerDesNative.decodeDat le m st.toDecodeState, type⟩)
    else
      let fin := tagTrim begin.2 tagEnd
      if fin.1 then some (true, fin.2, ⟨SerDesNative.decodeDatEnd st.toDecodeState, st.type⟩)
      else some (false, fin.2, st)
  else some (false, dat.2, st)

/-- The type of the value of an attribute. -/
def attributeType (a : Attrib) (type : DataType) : DataType :=
  match a with
  | .name | .units | .info | .choices => .string
  | _ => type

/-- Check if the line contains an attribute. -/
def decodeAttribLine (le : Bool) (m : MemPools) :
    List Attrib → List UInt8 → DecodeState β → Bool × List UInt8 × DecodeState β
  | [], line, st => (false, line, st)
  | a :: as, line, st =>
      let r := tagTrim line ((attribMap a).getD [])
      if r.1 then
        let var := variantExtract le m (Variant.construct m false) (attributeType a st.type) r.2
        let st : DecodeState β :=
          ⟨st.modifyRef st.pDat fun d => d.attrSet m a var.2, st.type⟩
        if var.1 then (true, r.2, st) else decodeAttribLine le m as r.2 st
      else decodeAttribLine le m as r.2 st

/-- Check if the line contains `Package End`. -/
def decodePkgLine (line : List UInt8) : Bool × List UInt8 :=
  let pkg := tagTrim line tagPkg
  if pkg.1 then tagTrim pkg.2 tagEnd else pkg

open SerDesNative (Verdict)

/-- What a line that is not blank does. -/
def decodeLine (le : Bool) (m : MemPools) (tags : TagOrder) (line : List UInt8)
    (st : DecodeState β) : Option (Verdict × DecodeState β) :=
  (decodeDatLine le m line st).map fun dat =>
    if dat.1 then (.more, dat.2.2)
    else
      let attrib := decodeAttribLine le m tags.order dat.2.1 dat.2.2
      if attrib.1 then (.more, attrib.2.2)
      else
        let pkg := decodePkgLine attrib.2.1
        if pkg.1 then (.exit, attrib.2.2)
        -- check if the line contains a comment
        else if (tagTrim pkg.2 tagComment).1 then (.more, attrib.2.2)
        else (.fail, attrib.2.2)

/-- A pass through the loop of `DecodeElement`. -/
def decodeStep (le : Bool) (m : MemPools) (tags : TagOrder) (st : DecodeState β) :
    Option (Verdict × DecodeState β) :=
  (lineGet st.stream).bind fun r =>
    let st : DecodeState β := { st with stream := r.2.2 }
    let line := ltrim r.2.1
    if !r.1 then some (.fail, st)
    -- ignore blank lines
    else if line = [] then some (.more, st)
    else decodeLine le m tags line st

/-- The loop of `DecodeElement`. -/
def DecodeState.decodeLoop (le : Bool) (m : MemPools) (tags : TagOrder) (st : DecodeState β) :
    Option (Bool × DecodeState β) := do
  let r ← decodeStep le m tags st
  match r with
  | (.more, st) => st |>.decodeLoop le m tags
  | (.exit, st) => some (true, st)
  | (.fail, st) => some (false, st)
partial_fixpoint

theorem decodeLoop_more {le : Bool} {m : MemPools} {tags : TagOrder} {st st' : DecodeState β}
    (h : decodeStep le m tags st = some (.more, st')) :
    st.decodeLoop le m tags = st'.decodeLoop le m tags := by
  rw [DecodeState.decodeLoop, h]
  rfl

/-- Decode the elements of a package into a datum. -/
def decodeElement (le : Bool) (m : MemPools) (tags : TagOrder) (dat : Datum) (s : StreamBase β) :
    Option (Bool × Datum × StreamBase β) :=
  (DecodeState.decodeLoop le m tags
    { stream := s, root := dat, datStack := [some []], pDat := some [], rootDatum := true
      var := Variant.construct m false, type := .none }).map fun r =>
        (r.1, r.2.root, r.2.stream)

/-- The variables of `DecodeChecksum`: the length of the package, the stream and the buffer. -/
structure ChecksumState (β : Type) where
  pos : ℕ
  stream : StreamBase β
  buf : Buffer

/-- The loop of `DecodeChecksum`. -/
def ChecksumState.decodeChecksumLoop (m : MemPools) (st : ChecksumState β) :
    Option (Bool × StreamBase β) := do
  let (ok, line, s) ← lineGet st.stream
  let comment := tagTrim line tagComment
  let crc := tagTrim comment.2 tagCrc32
  -- decode the hex into a binary value
  let hex := hexDecode m crc.2 st.buf
  if !ok then some (false, s)
  else if 0 < line.length ∧ comment.1 ∧ crc.1 then
    if hex.1 = 4 then
      -- valid result when sent and received crc's match
      (s.crc32Get st.pos).map fun crcr => (decide (ofBE (hex.2.mem.take 4) = crcr.toNat), s)
    else (⟨st.pos, s, hex.2⟩ : ChecksumState β) |>.decodeChecksumLoop m
  else (⟨st.pos, s, st.buf⟩ : ChecksumState β) |>.decodeChecksumLoop m
partial_fixpoint

/-- Check the checksum that follows a package. -/
def decodeChecksum (m : MemPools) (s : StreamBase β) : Option (Bool × StreamBase β) :=
  ChecksumState.decodeChecksumLoop m ⟨s.pos, s, Buffer.empty⟩

/-- Decodes a stream to a datum, state by state. -/
def decode (le : Bool) (m : MemPools) (tags : TagOrder) (s : StreamBase β) (dat : Datum)
    (check : Bool) : Option (Bool × Datum × StreamBase β) := do
  let dat := dat.clear le m
  let (rv, s) ← decodeIdent (s.seek 0).2
  let (rv, s) ← if rv then decodeVersion s else pure (false, s)
  let (rv, dat, s) ← if rv then decodeElement le m tags dat s else pure (false, dat, s)
  let (rv, s) ← if rv && check then decodeChecksum m s else pure (rv, s)
  -- clear datum if decode failed
  pure (rv, if rv then dat else dat.clear le m, s)

end SerDesIdl

/-- Decodes the collection from a stream with the IDL serializer. -/
def Datum.decodeIdl (le : Bool) (m : MemPools) (tags : SerDesIdl.TagOrder) (dat : Datum)
    (check : Bool) (s : StreamBase β) : Option (Bool × Datum × StreamBase β) :=
  if dat.isInert then some (false, dat, s) else SerDesIdl.decode le m tags s dat check

end CodePort
