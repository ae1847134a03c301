/-
The XML serializer.

The encoder writes a datum as an element with an element for each of its attributes.  It shares the
insertion of text with the serializer for IDL: both keep the indentation level and whether a line has
just ended, and they insert strings, line endings and numbers in the same way.

Main definitions:

* `CodePort.SerDesXml` — the members that an encoding changes;
* `CodePort.SerDesXml.openTagInsert`, `closeTagInsert`, `attribInsert` — the parts of an element;
* `CodePort.SerDesXml.start`, `end'`, «open», `close` — the encoder for one datum, and for the package;
* `CodePort.Datum.encodeXmlDatum`, `CodePort.Datum.encodeXml` — the encoder for a tree.
-/

import CodePort.SerDesFactory

set_option relaxedAutoImplicit false
set_option autoImplicit false

namespace CodePort

open BlockStore

variable {β : Type} [BlockStore β]

/-- What an encoding changes in the serializer: the same members as in the one for IDL. -/
abbrev SerDesXml := SerDesIdl

namespace SerDesXml

open SerDesIdl (TextInsert stringInsert newLineInsert)
open SerDesIdl.TextInsert (done both)

/-! ### Tags -/

def tagOpenTagStart : List UInt8 := ascii "<"
def tagCloseTagStart : List UInt8 := ascii "</"
def tagTagEnd : List UInt8 := ascii ">"
def tagHdr : List UInt8 := ascii "<?xml version=\"1.0\" encoding=\"UTF-8\"?>"
def tagPkg : List UInt8 := ascii "pkg"
def tagVer : List UInt8 := ascii "ver"
def tagDat : List UInt8 := ascii "dat"
def tagType : List UInt8 := ascii "type"
def tagComment : List UInt8 := ascii "<!--"
def tagCommentEnd : List UInt8 := ascii "-->"
def tagCrc32 : List UInt8 := ascii "CRC32:"
def tagMd5Sum : List UInt8 := ascii "MD5SUM:"
def tagSha1Sum : List UInt8 := ascii "SHA1SUM:"

/-- The attribute map, which has no tag for the first attribute type. -/
def attribMap : Attrib → Option (List UInt8)
  | .none => none
  | .name => some (ascii "name")
  | .val => some (ascii "val")
  | .min => some (ascii "min")
  | .max => some (ascii "max")
  | .deflt => some (ascii "def")
  | .units => some (ascii "units")
  | .info => some (ascii "info")
  | .choices => some (ascii "choices")

/-! ### Encoding -/

/-- Insert an XML open tag. -/
def openTagInsert (tagName : List UInt8) (attr : Bool) : TextInsert β := fun ser s =>
  ((stringInsert tagOpenTagStart).both ((stringInsert tagName).both
    (if attr then done true else stringInsert tagTagEnd)) ser s).map fun r =>
      (r.1, { r.2.1 with indentLevel := r.2.1.indentLevel + 1 }, r.2.2)

/-- Insert an XML close tag. -/
def closeTagInsert (tagName : List UInt8) : TextInsert β := fun ser s =>
  (stringInsert tagCloseTagStart).both ((stringInsert tagName).both ((stringInsert tagTagEnd).both
    newLineInsert)) { ser with indentLevel := ser.indentLevel - 1 } s

/-- Insert an XML attribute. -/
def attribInsert (attrName value : List UInt8) (final : Bool) : TextInsert β :=
  (stringInsert (ascii " ")).both ((stringInsert attrName).both ((stringInsert (ascii "=\"")).both
    ((stringInsert value).both ((stringInsert (ascii "\"")).both
      (if final then (stringInsert tagTagEnd).both newLineInsert else done true)))))

/-- The loop of `BlobInsert`, at the octet `i`: there are sixteen octets on a line. -/
def blobLoop : ℕ → List UInt8 → TextInsert β
  | _, [] => done true
  | i, ch :: data =>
      both (if i % 16 = 0 then newLineInsert else done true)
        ((stringInsert (hexOctet ch ++ [32])).both (blobLoop (i + 1) data))

/-- Encode a BLOB into the output buffer. -/
def blobInsert (buf : Buffer) : TextInsert β := (blobLoop 0 buf.data).both newLineInsert

/-- Insert a value based on its data type: only a BLOB is inserted in another way than in IDL. -/
def valueInsert (le : Bool) (m : MemPools) (v : Variant) : TextInsert β :=
  if v.type = .blob then blobInsert v.buf else SerDesIdl.valueInsert le m v

/-- The loop of `Start` over the attributes. -/
def attribsInsert (le : Bool) (m : MemPools) (dat : Datum) (as : List Attrib) : TextInsert β :=
  as.foldr (fun a k =>
    match dat.attribs a with
    | none => k
    | some v =>
        match attribMap a with
        -- a string cannot be made of a null pointer
        | none => fun _ _ => none
        | some tag =>
            (openTagInsert tag false).both ((valueInsert le m v).both ((closeTagInsert tag).both k)))
    (done true)

/-- Starts encoding a datum. -/
def start (le : Bool) (m : MemPools) (dat : Datum) : TextInsert β :=
  (openTagInsert tagDat true).both
    ((attribInsert tagType (SerDesIdl.dataTypeName (dat.attr .val).type) true).both
      (attribsInsert le m dat Attrib.all))

/-- Ends encoding a datum. -/
def end' : TextInsert β := closeTagInsert tagDat

/-- Generates the encoding header. -/
def «open» (ver : UInt8) : TextInsert β := fun ser s =>
  ((stringInsert tagHdr).both (newLineInsert.both ((openTagInsert tagPkg true).both
    (attribInsert tagVer (uintToStr ver.toNat) true)))) ser s.clear

/-- The checksum of the first `pos` octets, where it is a CRC. -/
def checksumInsert (chkMode : CheckSum) (pos : ℕ) : TextInsert β :=
  match chkMode with
  | .crc32 => (stringInsert tagCrc32).both fun ser s =>
      (s.crc32Get pos).bind fun crc => stringInsert (hexLong crc.toNat) ser s
  | .md5Sum => stringInsert tagMd5Sum
  | .sha1Sum => stringInsert tagSha1Sum
  | .none => done true

/-- Generates the encoding footer. -/
def close (chkMode : CheckSum) : TextInsert β :=
  (closeTagInsert tagPkg).both fun ser s =>
    if chkMode = .none then some (true, ser, s)
    else
      -- the opening marker, the checksum type and the checksum, the closing marker
      ((stringInsert tagComment).both ((checksumInsert chkMode s.pos).both
        ((stringInsert tagCommentEnd).both newLineInsert))) ser s

end SerDesXml

namespace Datum

open SerDesIdl (TextInsert)

mutual

/-- Encodes the datum and its sub-data recursively, with the functions of a text serializer that start a
datum and end it.  The result counts the calls that could insert. -/
def encodeText (start : Datum → TextInsert β) (end' : TextInsert β) :
    Datum → SerDesIdl → StreamBase β → Option (ℕ × SerDesIdl × StreamBase β)
  | ⟨isInert, self, attribs, iterData, datums⟩, ser, s => do
      let (started, ser, s) ← start ⟨isInert, self, attribs, iterData, datums⟩ ser s
      let (size, ser, s) ← encodeTexts start end' datums ser s
      let (ended, ser, s) ← end' ser s
      pure (started.toNat + size + ended.toNat, ser, s)

/-- The loop over the sub-data. -/
def encodeTexts (start : Datum → TextInsert β) (end' : TextInsert β) :
    List Datum → SerDesIdl → StreamBase β → Option (ℕ × SerDesIdl × StreamBase β)
  | [], ser, s => some (0, ser, s)
  | d :: ds, ser, s => do
      let (size, ser, s) ← encodeText start end' d ser s
      let (sizes, ser, s) ← encodeTexts start end' ds ser s
      pure (size + sizes, ser, s)

end

mutual

/-- The serializer for IDL encodes in this way. -/
theorem encodeIdlDatum_eq (le : Bool) (m : MemPools) : ∀ (d : Datum) (ser : SerDesIdl) (s : StreamBase β),
    d.encodeIdlDatum le m ser s = d.encodeText (SerDesIdl.start le m) SerDesIdl.end' ser s
  | ⟨isInert, self, attribs, iterData, datums⟩, ser, s => by
      rw [encodeIdlDatum, encodeText]
      simp only [encodeIdlDatums_eq le m datums]

theorem encodeIdlDatums_eq (le : Bool) (m : MemPools) :
    ∀ (ds : List Datum) (ser : SerDesIdl) (s : StreamBase β),
      encodeIdlDatums le m ds ser s = encodeTexts (SerDesIdl.start le m) SerDesIdl.end' ds ser s
  | [], ser, s => by rw [encodeIdlDatums, encodeTexts]
  | d :: ds, ser, s => by
      rw [encodeIdlDatums, encodeTexts]
      simp only [encodeIdlDatum_eq le m d, encodeIdlDatums_eq le m ds]

end

/-- Encodes the datum and its sub-data with the XML serializer. -/
def encodeXmlDatum (le : Bool) (m : MemPools) :
    Datum → SerDesXml → StreamBase β → Option (ℕ × SerDesXml × StreamBase β) :=
  encodeText (SerDesXml.start le m) SerDesXml.end'

/-- Encodes the collection to a stream with the XML serializer. -/
def encodeXml (le : Bool) (m : MemPools) (dat : Datum) (chkMode : CheckSum) : TextInsert β :=
  fun ser s =>
    if dat.isInert then some (false, ser, s)
    else
      ((SerDesXml.open datumVersion).both
        (SerDesIdl.TextInsert.both
          (fun ser s => (dat.encodeXmlDatum le m ser s).map fun r => (decide (r.1 ≠ 0), r.2))
          (SerDesXml.close chkMode))) ser s

end Datum

end CodePort
