/-
What the native serializer writes.

The octets of a datum are a function of its values: this file defines that function and shows that
the encoder appends exactly its result to the stream, in whichever byte order the host keeps its
numbers and whatever blocks the stream is made of.

Main definitions:

* `CodePort.SerDesNative.valueOctets`, `attribOctets`, `datumOctets`, `packageOctets` — the octets
  of a value, an attribute, a datum, a package;
* `CodePort.Datum.Encodable` — the data that the encoder accepts;
* `CodePort.SerDesNative.Writes` — a function appends the given octets to every stream.

Main results:

* `CodePort.SerDesNative.writes_valueInsert` — every value is written as its octets;
* `CodePort.Datum.encodeDatum_spec` — **so is every datum**, by induction on the tree;
* `CodePort.Datum.encode_spec` — the whole package.
-/

import CodePort.SerDesNative
import CodePort.StreamFlat

set_option relaxedAutoImplicit false
set_option autoImplicit false

namespace CodePort

open Octets

/-! ### The octets of a datum -/

namespace SerDesNative

/-- A block length. -/
def lenOctets (len : ℕ) : List UInt8 :=
  if len < 128 then [UInt8.ofNat len]
  else if len < 65536 then [128, UInt8.ofNat (len / 256), UInt8.ofNat len]
  else 129 :: toBE 4 len

/-- A value. -/
def valueOctets : Value → List UInt8
  | .num t n => toBE (t.width.getD 0) n
  | .bool b => [if b then octetTrue else octetFalse]
  | .text s => lenOctets s.length ++ s
  | .blob d => lenOctets d.length ++ d
  | .none => []
  | .void _ => []

/-- An attribute. -/
def attribOctets (le : Bool) (a : Attrib) (v : Variant) : List UInt8 :=
  attribMap a :: v.type.toOctet :: valueOctets (v.value le)

/-- The attributes of a datum, of the given kinds. -/
def attribsOctets (le : Bool) (dat : Datum) (as : List Attrib) : List UInt8 :=
  as.flatMap fun a => (dat.attribs a).elim [] (attribOctets le a)

mutual

/-- A datum. -/
def datumOctets (le : Bool) : Datum → List UInt8
  | ⟨isInert, self, attribs, iterData, datums⟩ =>
      mkDat :: (attribsOctets le ⟨isInert, self, attribs, iterData, datums⟩ Attrib.all ++
        (datumsOctets le datums ++ [mkDatEnd]))

/-- A list of data. -/
def datumsOctets (le : Bool) : List Datum → List UInt8
  | [] => []
  | d :: ds => datumOctets le d ++ datumsOctets le ds

end

/-- A package. -/
def packageOctets (le : Bool) (dat : Datum) : List UInt8 :=
  mkMagic :: mkPkg :: Datum.datumVersion :: (datumOctets le dat ++ [mkPkgEnd])

end SerDesNative

/-! ### Encodable data -/

/-- The values that the encoder accepts. -/
structure Variant.Encodable (v : Variant) : Prop where
  wf : v.Wf
  ne_inert : v.type ≠ .inert
  ne_datumList : v.type ≠ .datumList
  text_lt : v.type = .string → (cStr v.buf.mem).length < 2 ^ 32
  blob_lt : v.type = .blob → v.buf.dataLen < 2 ^ 32

mutual

/-- The data that the encoder accepts: every node is active, every attribute is of a named kind, and
every value is one that the encoder accepts. -/
def Datum.Encodable : Datum → Prop
  | ⟨isInert, _, attribs, _, datums⟩ =>
      isInert = false ∧ attribs .none = none ∧ (∀ a v, attribs a = some v → v.Encodable) ∧
        Datum.AllEncodable datums

/-- Lists of such data. -/
def Datum.AllEncodable : List Datum → Prop
  | [] => True
  | d :: ds => d.Encodable ∧ Datum.AllEncodable ds

end

/-! ### Appending -/

variable {β : Type} [BlockStore β] [LawfulBlockStore β]

/-- The stream stands at its end, behind the octets `c`. -/
def StreamBase.Ends (s : StreamBase β) (c : List UInt8) : Prop :=
  ∃ f, s.Represents f ∧ f.AtEnd ∧ f.content = c

namespace SerDesNative

/-- The function appends `d` to every stream that stands at its end. -/
def Writes (g : Insert β) (d : List UInt8) : Prop :=
  ∀ ⦃s c⦄, StreamBase.Ends s c → ∃ s', g s = some (true, s') ∧ StreamBase.Ends s' (c ++ d)

theorem writes_done : Writes (Insert.done true : Insert β) [] := by
  intro s c h
  exact ⟨s, rfl, by rwa [List.append_nil]⟩

theorem Writes.both {f g : Insert β} {d e : List UInt8} (hf : Writes f d) (hg : Writes g e) :
    Writes (f.both g) (d ++ e) := by
  intro s c h
  obtain ⟨s₁, hs₁, h₁⟩ := hf h
  obtain ⟨s₂, hs₂, h₂⟩ := hg h₁
  refine ⟨s₂, ?_, by rwa [← List.append_assoc]⟩
  rw [Insert.both, hs₁, Option.bind_some, if_pos rfl, hs₂]

/-- An array that is written is appended. -/
theorem ends_arrayWr {s : StreamBase β} {c : List UInt8} (h : s.Ends c) (d : List UInt8) :
    ∃ s', s.arrayWr d = some (d.length, s') ∧ StreamBase.Ends s' (c ++ d) := by
  obtain ⟨f, hrep, hend, rfl⟩ := h
  obtain ⟨s', hrun, hrep', -⟩ := hrep.arrayWr d
  exact ⟨s', hrun, f.write d, hrep', FlatStream.atEnd_write hend d,
    FlatStream.content_write_of_atEnd hend d⟩

theorem writes_octetInsert (ch : UInt8) : Writes (octetInsert ch : Insert β) [ch] := by
  intro s c h
  obtain ⟨s', hrun, h'⟩ := ends_arrayWr h [ch]
  exact ⟨s', by rw [octetInsert, StreamBase.writeOctet, hrun]; rfl, h'⟩

theorem writes_octetsInsert (l : List UInt8) : Writes (octetsInsert l : Insert β) l := by
  induction l with
  | nil => exact writes_done
  | cons ch l ih => exact (writes_octetInsert ch).both ih

/-- **A number is written in big-endian order** on every host. -/
theorem writes_wordInsert (le : Bool) (w val : ℕ) :
    Writes (wordInsert le w val : Insert β) (toBE w val) := by
  simp only [wordInsert, toHost_of_order]
  exact writes_octetsInsert _

/-- The octets of a shortword, however it is cut. -/
theorem ofNat_shortword (len : ℕ) :
    UInt8.ofNat (len / 2 ^ 8 % 2 ^ 8) = UInt8.ofNat (len / 256) ∧
      UInt8.ofNat (len % 2 ^ 8) = UInt8.ofNat len := by
  constructor <;>
  · apply UInt8.toNat_inj.1
    simp

theorem writes_lenInsert (le : Bool) (len : ℕ) :
    Writes (lenInsert le len : Insert β) (lenOctets len) := by
  rw [lenInsert, lenOctets]
  split_ifs with h₁ h₂
  · exact writes_octetInsert _
  · obtain ⟨hhi, hlo⟩ := ofNat_shortword len
    rw [hhi, hlo]
    exact (writes_octetInsert _).both ((writes_octetInsert _).both (writes_octetInsert _))
  · exact (writes_octetInsert _).both (writes_wordInsert le 4 len)

theorem writes_stringInsert (le : Bool) (str : List UInt8) :
    Writes (stringInsert le str : Insert β) (lenOctets str.length ++ str) := by
  refine (writes_lenInsert le str.length).both ?_
  intro s c h
  obtain ⟨s', hrun, h'⟩ := ends_arrayWr h str
  exact ⟨s', by simp [hrun], h'⟩

theorem writes_blobInsert (le : Bool) (buf : Buffer) :
    Writes (blobInsert le buf : Insert β) (lenOctets buf.data.length ++ buf.data) := by
  rw [buf.length_data]
  refine (writes_lenInsert le buf.lenGet).both ?_
  intro s c h
  obtain ⟨s', hrun, h'⟩ := ends_arrayWr h buf.data
  have htake : buf.data.take buf.dataLen = buf.data :=
    List.take_of_length_le buf.length_data.le
  rw [buf.length_data] at hrun
  exact ⟨s', by simp [StreamBase.writeBuf, Buffer.lenGet, htake, hrun], h'⟩

/-- A number that fits is not changed by the conversion to its type. -/
theorem numAt_mod (le : Bool) (v : Variant) (w : ℕ) :
    v.numAt le w % 2 ^ (8 * w) = v.numAt le w := by
  apply Nat.mod_eq_of_lt
  have h := v.numAt_lt le w
  rwa [show 256 = 2 ^ 8 from rfl, ← pow_mul] at h

/-- **Every value is written as its octets**, if its type has values. -/
theorem writes_valueInsert_of_type (le : Bool) (m : MemPools) {v : Variant} (hinert : v.type ≠ .inert)
    (hlist : v.type ≠ .datumList) :
    Writes (valueInsert le m v : Insert β) (valueOctets (v.value le)) := by
  obtain ⟨type, buf⟩ := v
  have hnum := fun w => numAt_mod le ⟨type, buf⟩ w
  -- a number of one octet is inserted as an octet, the others as words
  have hbyte : ∀ n, Writes (octetInsert (UInt8.ofNat n) : Insert β) (toBE 1 n) := by
    intro n
    have hn : toBE 1 n = [UInt8.ofNat n] := by simp [toBE]
    rw [hn]
    exact writes_octetInsert _
  cases type with
  | uint8 =>
      simp only [valueInsert, Variant.uint8Get, Variant.uint64Get, hnum 1]
      exact hbyte _
  | int8 =>
      simp only [valueInsert, Variant.int8Get, Variant.uint64Get, hnum 1]
      exact hbyte _
  | uint16 =>
      simp only [valueInsert, Variant.uint16Get, Variant.uint64Get, hnum 2]
      exact writes_wordInsert le 2 _
  | int16 =>
      simp only [valueInsert, Variant.int16Get, Variant.uint64Get, hnum 2]
      exact writes_wordInsert le 2 _
  | uint32 =>
      simp only [valueInsert, Variant.uint32Get, Variant.uint64Get, hnum 4]
      exact writes_wordInsert le 4 _
  | int32 =>
      simp only [valueInsert, Variant.int32Get, Variant.uint64Get, hnum 4]
      exact writes_wordInsert le 4 _
  | uint64 => exact writes_wordInsert le 8 _
  | int64 => exact writes_wordInsert le 8 _
  | float32 => exact writes_wordInsert le 4 _
  | float64 => exact writes_wordInsert le 8 _
  | bool =>
      simp only [valueInsert, Variant.boolGet, Variant.value, valueOctets]
      exact writes_octetInsert _
  | string => exact writes_stringInsert le _
  | blob => exact writes_blobInsert le buf
  | none => exact writes_done
  | inert => exact absurd rfl hinert
  | datumList => exact absurd rfl hlist

theorem writes_valueInsert (le : Bool) (m : MemPools) {v : Variant} (h : v.Encodable) :
    Writes (valueInsert le m v : Insert β) (valueOctets (v.value le)) :=
  writes_valueInsert_of_type le m h.ne_inert h.ne_datumList

theorem writes_attribInsert (le : Bool) (m : MemPools) (a : Attrib) {v : Variant}
    (h : v.Encodable) : Writes (attribInsert le m a v : Insert β) (attribOctets le a v) :=
  (writes_octetInsert _).both ((writes_octetInsert _).both (writes_valueInsert le m h))

theorem writes_attribsInsert (le : Bool) (m : MemPools) {dat : Datum}
    (h : ∀ a v, dat.attribs a = some v → v.Encodable) (as : List Attrib) :
    Writes (attribsInsert le m dat as : Insert β) (attribsOctets le dat as) := by
  induction as with
  | nil => exact writes_done
  | cons a as ih =>
      rw [attribsInsert, List.foldr_cons, ← attribsInsert, attribsOctets, List.flatMap_cons,
        ← attribsOctets]
      cases ha : dat.attribs a with
      | none => exact ih
      | some v => exact (writes_attribInsert le m a (h a v ha)).both ih

theorem writes_start (le : Bool) (m : MemPools) (dat : Datum)
    (h : ∀ a v, dat.attribs a = some v → v.Encodable) :
    Writes (start le m dat : Insert β) (mkDat :: attribsOctets le dat Attrib.all) :=
  (writes_octetInsert _).both (writes_attribsInsert le m h _)

/-- The header is written into a stream that has been cleared. -/
theorem ends_open (ver : UInt8) {s : StreamBase β} {f : FlatStream UInt8} (h : s.Represents f) :
    ∃ t, «open» ver s = some (true, t) ∧ t.Ends [mkMagic, mkPkg, ver] := by
  have hclear : s.clear.Ends [] := ⟨_, h.clear, rfl, rfl⟩
  exact ((writes_octetInsert _).both ((writes_octetInsert _).both (writes_octetInsert _))) hclear

end SerDesNative

/-! ### Trees -/

namespace Datum

open SerDesNative

mutual

/-- **A datum is written as its octets**, and at least one call could insert. -/
theorem encodeDatum_spec (le : Bool) (m : MemPools) : ∀ (d : Datum), d.Encodable →
    ∀ ⦃s : StreamBase β⦄ ⦃c : List UInt8⦄, s.Ends c →
      ∃ n s', d.encodeDatum le m s = some (n, s') ∧ n ≠ 0 ∧ s'.Ends (c ++ datumOctets le d)
  | ⟨isInert, self, attribs, iterData, datums⟩, hd, s, c, h => by
      obtain ⟨-, -, hattribs, hall⟩ := hd
      obtain ⟨s₁, hs₁, h₁⟩ :=
        writes_start le m ⟨isInert, self, attribs, iterData, datums⟩ hattribs h
      obtain ⟨n, s₂, hs₂, h₂⟩ := encodeDatums_spec le m datums hall h₁
      obtain ⟨s₃, hs₃, h₃⟩ := writes_octetInsert mkDatEnd h₂
      refine ⟨1 + n + 1, s₃, ?_, by omega, ?_⟩
      · simp only [encodeDatum, hs₁, hs₂, end', hs₃, Option.bind_eq_bind, Option.bind_some]
        rfl
      · rw [datumOctets]
        simpa only [List.append_assoc, List.cons_append] using h₃

/-- A list of data is written as its octets. -/
theorem encodeDatums_spec (le : Bool) (m : MemPools) : ∀ (ds : List Datum), AllEncodable ds →
    ∀ ⦃s : StreamBase β⦄ ⦃c : List UInt8⦄, s.Ends c →
      ∃ n s', encodeDatums le m ds s = some (n, s') ∧ s'.Ends (c ++ datumsOctets le ds)
  | [], _, s, c, h => ⟨0, s, rfl, by rwa [datumsOctets, List.append_nil]⟩
  | d :: ds, hall, s, c, h => by
      obtain ⟨hd, hds⟩ := hall
      obtain ⟨n, s₁, hs₁, -, h₁⟩ := encodeDatum_spec le m d hd h
      obtain ⟨k, s₂, hs₂, h₂⟩ := encodeDatums_spec le m ds hds h₁
      refine ⟨n + k, s₂, ?_, ?_⟩
      · simp only [encodeDatums, hs₁, hs₂, Option.bind_eq_bind, Option.bind_some]
        rfl
      · rw [datumsOctets, ← List.append_assoc]
        exact h₂

end

/-- An encoding ends with the footer, whatever the stream held before. -/
theorem encode_eq_close (le : Bool) (m : MemPools) {dat : Datum} (hdat : dat.Encodable)
    {s : StreamBase β} {f : FlatStream UInt8} (h : s.Represents f) :
    ∃ t : StreamBase β, t.Ends (mkMagic :: mkPkg :: datumVersion :: datumOctets le dat) ∧
      ∀ chkMode, dat.encode le m chkMode s = close le chkMode t := by
  have hinert : dat.isInert = false := by
    obtain ⟨isInert, self, attribs, iterData, datums⟩ := dat
    exact hdat.1
  obtain ⟨t, ht, hends⟩ := ends_open datumVersion h
  obtain ⟨n, t', ht', hn, hends'⟩ := encodeDatum_spec le m dat hdat hends
  refine ⟨t', hends', fun chkMode => ?_⟩
  rw [encode, if_neg (by simp [hinert]), Insert.both, ht, Option.bind_some, if_pos rfl]
  simp [Insert.both, ht', hn]

/-- **A package is written as its octets**, whatever the stream held before. -/
theorem encode_spec (le : Bool) (m : MemPools) {dat : Datum} (hdat : dat.Encodable)
    {s : StreamBase β} {f : FlatStream UInt8} (h : s.Represents f) :
    ∃ s', dat.encode le m .none s = some (true, s') ∧ s'.Ends (packageOctets le dat) := by
  obtain ⟨t, ht, hclose⟩ := encode_eq_close le m hdat h
  have hend : Writes (close le .none : Insert β) [mkPkgEnd] := by
    have hdone := (writes_octetInsert (β := β) mkPkgEnd).both writes_done
    rwa [List.append_nil] at hdone
  obtain ⟨s', hs', hends⟩ := hend ht
  exact ⟨s', (hclose .none).trans hs', hends⟩

end Datum

end CodePort
