/-
Detecting an encoding.

The factory asks the IDL serializer first, which looks for its header in every line of the stream, and
so in the strings and blobs of a datum in another format as well.  A native stream is taken for IDL
text exactly when one of them has the header behind the end of a line.

Main definitions:

* `CodePort.isHeader` — a line that the IDL serializer takes for its header;
* `CodePort.Value.Plain` — a value that does not hide a header;
* `CodePort.SerDesFactory.Detects` — the encoding of a stream is detected, and the stream decoded as
  by name.

Main results:

* `CodePort.SerDesNative.laterLine_datumOctets` — **the header is in the octets of a datum only if it
  is in a value**, by induction on the tree;
* `CodePort.SerDesFactory.Stocked.detects_idl`, `Stocked.detects_native` — what is detected;
* `CodePort.auto_detect_iff` — **which data are detected.**
-/

import CodePort.IdlRoundTrip
import CodePort.NativeChecksum
import CodePort.SerDesFactory

set_option relaxedAutoImplicit false
set_option autoImplicit false

namespace CodePort

open Octets

/-! ### Headers -/

/-- A line that the IDL serializer takes for its header. -/
def isHeader (line : List UInt8) : Bool := (SerDesIdl.tagTrim line SerDesIdl.tagHdr).1

/-- A line is taken for the header when it starts with it, blanks left out. -/
theorem isHeader_iff (line : List UInt8) :
    isHeader line = true ↔ SerDesIdl.tagHdr <+: ltrim line := by
  rw [List.prefix_iff_eq_take]
  simp only [isHeader, SerDesIdl.tagTrim, SerDesIdl.solid_tagHdr.ltrim_eq]
  split_ifs with hlen heq heq
  · exact iff_of_true rfl heq.symm
  · exact iff_of_false (by simp) (Ne.symm heq)
  · exact absurd heq.symm SerDesIdl.solid_tagHdr.ne_nil
  · refine iff_of_false (by simp) fun htake => hlen ?_
    rw [htake, List.length_take]
    exact min_le_right _ _

/-- An octet that is in no header, and that is not left out. -/
structure IsMark (c : UInt8) : Prop where
  ne_newLine : c ≠ 10
  ne_zero : c ≠ 0
  not_blank : isBlank c = false
  notMem : c ∉ SerDesIdl.tagHdr

/-- What stands in front of a mark, and is not left out, stays there. -/
theorem ltrim_append_mark {c : UInt8} (hc : IsMark c) (l r : List UInt8) :
    ltrim (l ++ c :: r) = ltrim l ++ c :: r := by
  induction l with
  | nil => exact ltrim_cons hc.not_blank r
  | cons x l ih =>
      rw [List.cons_append]
      cases hx : isBlank x with
      | true =>
          have hall : ∀ y ∈ [x], isBlank y = true := fun y hy => List.mem_singleton.1 hy ▸ hx
          have htrim := ltrim_append hall (l ++ c :: r)
          have htrim' := ltrim_append hall l
          rw [List.singleton_append] at htrim htrim'
          rw [htrim, htrim', ih]
      | false => rw [ltrim_cons hx, ltrim_cons hx, List.cons_append]

/-- A header ends in front of a mark. -/
theorem prefix_append_mark {c : UInt8} {h : List UInt8} (hc : c ∉ h) (l r : List UInt8) :
    h <+: l ++ c :: r ↔ h <+: l := by
  constructor
  · rintro ⟨t, ht⟩
    rcases List.append_eq_append_iff.1 ht with ⟨a, rfl, -⟩ | ⟨a, hh, ha⟩
    · exact List.prefix_append _ _
    · cases a with
      | nil => exact (List.append_nil l ▸ hh).symm ▸ List.prefix_refl _
      | cons x a =>
          obtain rfl := (List.cons.inj ha).1
          exact absurd (by rw [hh]; simp) hc
  · exact fun hl => hl.trans (List.prefix_append _ _)

theorem not_startsLine_nil : ¬ StartsLine isHeader [] := by
  rw [StartsLine]
  decide

theorem startsLine_append_mark {c : UInt8} (hc : IsMark c) (l r : List UInt8) :
    StartsLine isHeader (l ++ c :: r) ↔ StartsLine isHeader l := by
  by_cases hmem : 10 ∈ l
  · obtain ⟨a, b, rfl, ha⟩ := List.eq_append_cons_of_mem hmem
    rw [StartsLine, StartsLine, List.append_assoc, List.cons_append, takeWhile_append_newLine ha,
      takeWhile_append_newLine ha]
  · have htake : (l ++ c :: r).takeWhile (· ≠ 10) = l ++ c :: r.takeWhile (· ≠ 10) := by
      rw [List.takeWhile_append, takeWhile_of_notMem hmem, if_pos rfl,
        List.takeWhile_cons_of_pos (by simpa using hc.ne_newLine)]
    have hline : lineOf (c :: r.takeWhile (· ≠ 10)) = c :: lineOf (r.takeWhile (· ≠ 10)) :=
      List.filter_cons_of_pos (by simpa using hc.ne_zero)
    rw [StartsLine, StartsLine, htake, takeWhile_of_notMem hmem, isHeader_iff, isHeader_iff,
      lineOf_append, hline, ltrim_append_mark hc, prefix_append_mark hc.notMem]

theorem laterLine_cons {p : List UInt8 → Bool} {c : UInt8} (hc : c ≠ 10) (l : List UInt8) :
    LaterLine p (c :: l) ↔ LaterLine p l := by
  constructor
  · rintro ⟨a, b, heq, hb⟩
    cases a with
    | nil => exact absurd (List.cons.inj heq).1 hc
    | cons x a => exact ⟨a, b, (List.cons.inj heq).2, hb⟩
  · rintro ⟨a, b, rfl, hb⟩
    exact ⟨c :: a, b, rfl, hb⟩

/-- A mark separates lines with a header. -/
theorem laterLine_append_mark {c : UInt8} (hc : IsMark c) (l r : List UInt8) :
    LaterLine isHeader (l ++ c :: r) ↔ LaterLine isHeader l ∨ LaterLine isHeader r := by
  constructor
  · rintro ⟨a, b, heq, hb⟩
    rcases List.append_eq_append_iff.1 heq with ⟨a', rfl, hr⟩ | ⟨b', rfl, hr⟩
    · cases a' with
      | nil => exact absurd (List.cons.inj hr).1 hc.ne_newLine
      | cons x a' => exact .inr ⟨a', b, (List.cons.inj hr).2, hb⟩
    · cases b' with
      | nil => exact absurd (List.cons.inj hr).1.symm hc.ne_newLine
      | cons x b' =>
          obtain ⟨rfl, rfl⟩ := List.cons.inj hr
          exact .inl ⟨a, b', rfl, (startsLine_append_mark hc b' r).1 hb⟩
  · rintro (⟨a, b, rfl, hb⟩ | ⟨a, b, rfl, hb⟩)
    · refine ⟨a, b ++ c :: r, by rw [List.append_assoc, List.cons_append], ?_⟩
      exact (startsLine_append_mark hc b r).2 hb
    · exact ⟨l ++ c :: a, b, by rw [List.append_assoc, List.cons_append], hb⟩

/-- A header has twelve characters, and stands behind the end of a line. -/
theorem length_of_laterLine {l : List UInt8} (h : LaterLine isHeader l) : 12 < l.length := by
  obtain ⟨a, b, rfl, hb⟩ := h
  have hlen := ((isHeader_iff _).1 hb).length_le
  have htrim := (SerDesIdl.suffix_ltrim (lineOf (b.takeWhile (· ≠ 10)))).length_le
  have hline : (lineOf (b.takeWhile (· ≠ 10))).length ≤ (b.takeWhile (· ≠ 10)).length :=
    List.length_filter_le _ _
  have htake := (List.takeWhile_prefix (l := b) (· ≠ 10)).length_le
  have hhdr : SerDesIdl.tagHdr.length = 12 := by decide
  rw [List.length_append, List.length_cons]
  omega

/-- Octets that start with a mark, or are empty. -/
def Marked (l : List UInt8) : Prop := ∀ c ∈ l.head?, IsMark c

theorem Marked.append {l r : List UInt8} (hl : Marked l) (hr : Marked r) : Marked (l ++ r) := by
  cases l with
  | nil => exact hr
  | cons c l => exact hl

theorem laterLine_append {l r : List UInt8} (hr : Marked r) :
    LaterLine isHeader (l ++ r) ↔ LaterLine isHeader l ∨ LaterLine isHeader r := by
  cases r with
  | nil =>
      rw [List.append_nil, or_iff_left (not_laterLine_of_notMem _ List.not_mem_nil)]
  | cons c r =>
      have hc := hr c rfl
      rw [laterLine_append_mark hc, laterLine_cons hc.ne_newLine]

/-! ### Values -/

open SerDesNative in
/-- A value that does not hide a header: a text or a blob without one behind the end of a line. -/
def Value.Plain : Value → Prop
  | .text s => ¬ LaterLine isHeader (valueOctets (.text s))
  | .blob d => ¬ LaterLine isHeader (valueOctets (.blob d))
  | _ => True

namespace SerDesNative

open Datum

theorem isMark_attribMap {a : Attrib} (h : a ≠ .none) : IsMark (attribMap a) := by
  cases a with
  | none => exact absurd rfl h
  | _ => exact ⟨by decide, by decide, by decide, by decide⟩

theorem isMark_mkDat : IsMark mkDat := ⟨by decide, by decide, by decide, by decide⟩
theorem isMark_mkDatEnd : IsMark mkDatEnd := ⟨by decide, by decide, by decide, by decide⟩
theorem isMark_mkPkgEnd : IsMark mkPkgEnd := ⟨by decide, by decide, by decide, by decide⟩
theorem isMark_mkMagic : IsMark mkMagic := ⟨by decide, by decide, by decide, by decide⟩
theorem isMark_mkPkg : IsMark mkPkg := ⟨by decide, by decide, by decide, by decide⟩

/-- The octets of an attribute hide a header when its value does. -/
theorem laterLine_attribOctets (le : Bool) {a : Attrib} (ha : a ≠ .none) {v : Variant}
    (hv : v.Encodable) : ¬ LaterLine isHeader (attribOctets le a v) ↔ (v.value le).Plain := by
  have hshort : ∀ l : List UInt8, l.length ≤ 12 → ¬ LaterLine isHeader l := fun l hl h =>
    absurd (length_of_laterLine h) (not_lt.2 hl)
  have hnum : ∀ (t : DataType) (w n : ℕ), t.width = some w → w ≤ 8 →
      ¬ LaterLine isHeader (t.toOctet :: valueOctets (.num t n)) := by
    intro t w n hw hle
    refine hshort _ ?_
    rw [List.length_cons, valueOctets, hw, Option.getD_some, length_toBE]
    omega
  rw [attribOctets, laterLine_cons (isMark_attribMap ha).ne_newLine]
  obtain ⟨type, buf⟩ := v
  cases type with
  | uint8 => exact iff_of_true (hnum .uint8 1 _ rfl (by decide)) trivial
  | int8 => exact iff_of_true (hnum .int8 1 _ rfl (by decide)) trivial
  | uint16 => exact iff_of_true (hnum .uint16 2 _ rfl (by decide)) trivial
  | int16 => exact iff_of_true (hnum .int16 2 _ rfl (by decide)) trivial
  | uint32 => exact iff_of_true (hnum .uint32 4 _ rfl (by decide)) trivial
  | int32 => exact iff_of_true (hnum .int32 4 _ rfl (by decide)) trivial
  | uint64 => exact iff_of_true (hnum .uint64 8 _ rfl (by decide)) trivial
  | int64 => exact iff_of_true (hnum .int64 8 _ rfl (by decide)) trivial
  | float32 => exact iff_of_true (hnum .float32 4 _ rfl (by decide)) trivial
  | float64 => exact iff_of_true (hnum .float64 8 _ rfl (by decide)) trivial
  | bool => exact iff_of_true (hshort _ (by simp [Variant.value, valueOctets])) trivial
  | none => exact iff_of_true (hshort _ (by simp [Variant.value, valueOctets])) trivial
  | string =>
      rw [laterLine_cons (show DataType.string.toOctet ≠ 10 by decide)]
      exact Iff.rfl
  | blob =>
      rw [laterLine_cons (show DataType.blob.toOctet ≠ 10 by decide)]
      exact Iff.rfl
  | inert => exact absurd rfl hv.ne_inert
  | datumList => exact absurd rfl hv.ne_datumList

/-- The attributes of a datum, of the given kinds. -/
theorem laterLine_attribsOctets (le : Bool) {dat : Datum} (hnone : dat.attribs .none = none)
    (hdat : ∀ a v, dat.attribs a = some v → v.Encodable) (as : List Attrib) :
    Marked (attribsOctets le dat as) ∧ (¬ LaterLine isHeader (attribsOctets le dat as) ↔
      ∀ a ∈ as, ∀ x ∈ (dat.attribs a).map fun v => v.value le, x.Plain) := by
  induction as with
  | nil => exact ⟨nofun, iff_of_true (not_laterLine_of_notMem _ List.not_mem_nil) nofun⟩
  | cons a as ih =>
      obtain ⟨hmarked, hiff⟩ := ih
      rw [attribsOctets, List.flatMap_cons, ← attribsOctets]
      cases hv : dat.attribs a with
      | none =>
          refine ⟨by simpa [hv] using hmarked, ?_⟩
          rw [Option.elim_none, List.nil_append, hiff, List.forall_mem_cons, hv]
          simp
      | some v =>
          have ha : a ≠ .none := by
            rintro rfl
            exact absurd (hnone.symm.trans hv) (by simp)
          have hattrib : Marked (attribOctets le a v) := by
            intro c hc
            obtain rfl := Option.some.inj hc
            exact isMark_attribMap ha
          refine ⟨hattrib.append hmarked, ?_⟩
          rw [Option.elim_some, laterLine_append hmarked, not_or, hiff,
            laterLine_attribOctets le ha (hdat a v hv), List.forall_mem_cons, hv]
          simp

mutual

/-- **The header is in the octets of a datum only if it is in a value.** -/
theorem laterLine_datumOctets (le : Bool) : ∀ d : Datum, d.Encodable →
    (¬ LaterLine isHeader (datumOctets le d) ↔ (d.tree le).All Value.Plain)
  | ⟨isInert, self, attribs, iterData, datums⟩, hd => by
      obtain ⟨-, hnone, hattribs, hall⟩ := hd
      obtain ⟨-, hiff⟩ := @laterLine_attribsOctets le
        ⟨isInert, self, attribs, iterData, datums⟩ hnone hattribs Attrib.all
      obtain ⟨hmarked, hiff'⟩ := laterLine_datumsOctets le datums hall
      have hend : Marked [mkDatEnd] := fun c hc => Option.some.inj hc ▸ isMark_mkDatEnd
      rw [datumOctets, laterLine_cons isMark_mkDat.ne_newLine,
        laterLine_append (hmarked.append hend), laterLine_append hend,
        or_iff_left (not_laterLine_of_notMem _ (by decide : (10 : UInt8) ∉ [mkDatEnd])), not_or,
        hiff, hiff', tree, Tree.All]
      refine and_congr_left fun _ => ⟨fun h a x hx => ?_, fun h a _ x hx => ?_⟩
      · exact h a a.mem_all x hx
      · exact h a x hx

theorem laterLine_datumsOctets (le : Bool) : ∀ ds : List Datum, AllEncodable ds →
    Marked (datumsOctets le ds) ∧ (¬ LaterLine isHeader (datumsOctets le ds) ↔
      Tree.AllList Value.Plain (trees le ds))
  | [], _ => ⟨nofun, iff_of_true (not_laterLine_of_notMem _ List.not_mem_nil) trivial⟩
  | d :: ds, hall => by
      obtain ⟨hd, hds⟩ := hall
      obtain ⟨hmarked, hiff⟩ := laterLine_datumsOctets le ds hds
      have hhead : Marked (datumOctets le d) := by
        cases d
        exact fun c hc => Option.some.inj hc ▸ isMark_mkDat
      refine ⟨hhead.append hmarked, ?_⟩
      rw [datumsOctets, laterLine_append hmarked, not_or, laterLine_datumOctets le d hd, hiff,
        trees, Tree.AllList]

end

end SerDesNative

/-! ### What the encoders write -/

variable {β : Type} [BlockStore β] [LawfulBlockStore β]

namespace SerDesNative

/-- The function appends some octets, no more than `k`, to every stream that stands at its end. -/
def WritesUpTo (g : Insert β) (k : ℕ) : Prop :=
  ∀ ⦃s c⦄, StreamBase.Ends s c →
    ∃ d s', d.length ≤ k ∧ g s = some (true, s') ∧ StreamBase.Ends s' (c ++ d)

theorem Writes.upTo {g : Insert β} {d : List UInt8} (h : Writes g d) : WritesUpTo g d.length := by
  intro s c hs
  obtain ⟨s', hs', hends⟩ := h hs
  exact ⟨d, s', le_rfl, hs', hends⟩

theorem WritesUpTo.both {f g : Insert β} {j k : ℕ} (hf : WritesUpTo f j) (hg : WritesUpTo g k) :
    WritesUpTo (f.both g) (j + k) := by
  intro s c hs
  obtain ⟨d, s₁, hd, hs₁, h₁⟩ := hf hs
  obtain ⟨e, s₂, he, hs₂, h₂⟩ := hg h₁
  refine ⟨d ++ e, s₂, ?_, ?_, by rwa [← List.append_assoc]⟩
  · rw [List.length_append]
    exact Nat.add_le_add hd he
  · rw [Insert.both, hs₁, Option.bind_some, if_pos rfl, hs₂]

/-- The checksum is a number of four octets, or is left out. -/
theorem writesUpTo_checksum (le : Bool) (chkMode : CheckSum) (pos : ℕ) :
    WritesUpTo (fun t : StreamBase β =>
      if chkMode = .crc32 then (t.crc32Get pos).bind fun crc => longInsert le crc.toNat t
      else some (true, t)) 4 := by
  intro s c hs
  by_cases hchk : chkMode = .crc32
  · obtain ⟨f, hrep, -⟩ := id hs
    have hcrc := hrep.wf.hasBlocks.crc32Get_eq pos
    obtain ⟨s', hs', hends⟩ := writes_wordInsert le 4 _ hs
    refine ⟨_, s', (length_toBE 4 _).le, ?_, hends⟩
    dsimp only
    rw [if_pos hchk, hcrc]
    exact hs'
  · exact ⟨[], s, Nat.zero_le _, if_neg hchk, by rwa [List.append_nil]⟩

/-- The footer is short, whatever the checksum. -/
theorem ends_close (le : Bool) (chkMode : CheckSum) {s : StreamBase β} {c : List UInt8}
    (hs : s.Ends c) : ∃ tail s', tail.length ≤ 7 ∧ close le chkMode s = some (true, s') ∧
      s'.Ends (c ++ mkPkgEnd :: tail) := by
  obtain ⟨s₁, hs₁, h₁⟩ := writes_octetInsert mkPkgEnd hs
  have hsection : WritesUpTo ((octetInsert mkChk).both ((octetInsert chkMode.toOctet).both
      (Insert.both
        (fun t : StreamBase β =>
          if chkMode = .crc32 then (t.crc32Get s₁.pos).bind fun crc => longInsert le crc.toNat t
          else some (true, t))
        (octetInsert mkChkEnd)))) (1 + (1 + (4 + 1))) :=
    (writes_octetInsert mkChk).upTo.both ((writes_octetInsert _).upTo.both
      ((writesUpTo_checksum le chkMode s₁.pos).both (writes_octetInsert mkChkEnd).upTo))
  rw [close, Insert.both, hs₁, Option.bind_some, if_pos rfl]
  by_cases hchk : chkMode = .none
  · exact ⟨[], s₁, Nat.zero_le _, if_pos hchk, h₁⟩
  · obtain ⟨tail, s', htail, hs', hends⟩ := hsection h₁
    refine ⟨tail, s', htail, (if_neg hchk).trans hs', ?_⟩
    rwa [List.append_assoc, List.singleton_append] at hends

end SerDesNative

namespace Datum

open SerDesNative

/-- The native encoder writes the octets of the datum between two short parts. -/
theorem ends_encode (le : Bool) (m : MemPools) {dat : Datum} (hdat : dat.Encodable)
    (chkMode : CheckSum) {s : StreamBase β} {f : FlatStream UInt8} (h : s.Represents f) :
    ∃ tail s', tail.length ≤ 7 ∧ dat.encode le m chkMode s = some (true, s') ∧
      s'.Ends (mkMagic :: mkPkg :: datumVersion :: (datumOctets le dat ++ mkPkgEnd :: tail)) := by
  obtain ⟨t, ht, hclose⟩ := encode_eq_close le m hdat h
  obtain ⟨tail, s', htail, hs', hends⟩ := ends_close le chkMode ht
  exact ⟨tail, s', htail, (hclose chkMode).trans hs', hends⟩

end Datum

namespace SerDesIdl

/-- Where the function returns, it has appended to the stream. -/
def Appends (g : TextInsert β) : Prop :=
  ∀ ⦃ser s c⦄, StreamBase.Ends s c → ∀ r, g ser s = some r → ∃ d, StreamBase.Ends r.2.2 (c ++ d)

theorem appends_done (rv : Bool) : Appends (.done rv : TextInsert β) := by
  rintro ser s c h r hr
  obtain rfl := Option.some.inj hr
  exact ⟨[], by rwa [List.append_nil]⟩

theorem Appends.both {f g : TextInsert β} (hf : Appends f) (hg : Appends g) :
    Appends (f.both g) := by
  intro ser s c h r hr
  obtain ⟨r₁, hr₁, hr⟩ := Option.bind_eq_some_iff.1 hr
  obtain ⟨d, h₁⟩ := hf h r₁ hr₁
  split_ifs at hr
  · obtain ⟨e, h₂⟩ := hg h₁ r hr
    exact ⟨d ++ e, by rwa [← List.append_assoc]⟩
  · obtain rfl := Option.some.inj hr
    exact ⟨d, h₁⟩

theorem appends_indentInsert : Appends (indentInsert : TextInsert β) := by
  intro ser s c h r hr
  dsimp only [indentInsert] at hr
  split_ifs at hr
  obtain ⟨s', hs', hends⟩ := SerDesNative.ends_arrayWr h
    ((genStr (indentSize * ser.indentLevel) 32 ++ [0]).take (indentSize * ser.indentLevel))
  rw [hs'] at hr
  obtain rfl := Option.some.inj hr
  exact ⟨_, hends⟩

theorem appends_octetsInsert (str : List UInt8) : Appends (octetsInsert str : TextInsert β) := by
  intro ser s c h r hr
  obtain ⟨s', hs', hends⟩ := SerDesNative.ends_arrayWr h str
  rw [octetsInsert, hs'] at hr
  obtain rfl := Option.some.inj hr
  exact ⟨str, hends⟩

theorem appends_stringInsert (str : List UInt8) : Appends (stringInsert str : TextInsert β) := by
  intro ser s c h r hr
  rw [stringInsert] at hr
  split_ifs at hr
  · exact (appends_indentInsert.both (appends_octetsInsert str)) h r hr
  · exact appends_octetsInsert str h r hr

theorem appends_newLineInsert : Appends (newLineInsert : TextInsert β) := by
  intro ser s c h r hr
  obtain ⟨r₁, hr₁, rfl⟩ := Option.map_eq_some_iff.1 hr
  exact appends_stringInsert tagLineEnd h r₁ hr₁

theorem appends_crc32Insert (pos : ℕ) : Appends (fun ser (s : StreamBase β) =>
    (s.crc32Get pos).bind fun crc => stringInsert (hexLong crc.toNat) ser s) := by
  intro ser s c h r hr
  obtain ⟨crc, -, hr⟩ := Option.bind_eq_some_iff.1 hr
  exact appends_stringInsert _ h r hr

theorem appends_checksumInsert (chkMode : CheckSum) (pos : ℕ) :
    Appends (checksumInsert chkMode pos : TextInsert β) := by
  cases chkMode with
  | none => exact appends_done true
  | crc32 => exact (appends_stringInsert tagCrc32).both (appends_crc32Insert pos)
  | md5Sum => exact appends_stringInsert tagMd5Sum
  | sha1Sum => exact appends_stringInsert tagSha1Sum

theorem appends_close (chkMode : CheckSum) : Appends (close chkMode : TextInsert β) := by
  have hclose : Appends (closeTagInsert tagPkg : TextInsert β) := fun ser s c h r hr =>
    ((appends_stringInsert tagPkg).both (appends_stringInsert tagEnd)) h r hr
  refine hclose.both (appends_newLineInsert.both fun ser (s : StreamBase β) c h r hr => ?_)
  split_ifs at hr
  · obtain rfl := Option.some.inj hr
    exact ⟨[], by rwa [List.append_nil]⟩
  · exact ((appends_stringInsert tagComment).both ((appends_checksumInsert chkMode s.pos).both
      ((appends_stringInsert tagCommentEnd).both appends_newLineInsert))) h r hr

/-- The text of a package starts with the header. -/
theorem startsLine_headText (ser : SerDesIdl) (r : List UInt8) :
    StartsLine isHeader (Datum.headText ser ++ r) := by
  have hlf : 10 ∉ tagHdr := by decide
  have h0 : 0 ∉ tagHdr := by decide
  -- without an indentation the level is that of the first line
  have hindent : ∃ level, (if ser.newLine then indentText ser.indentLevel else []) =
      indentText level := by
    cases ser.newLine with
    | false => exact ⟨0, rfl⟩
    | true => exact ⟨ser.indentLevel, rfl⟩
  obtain ⟨level, hlevel⟩ := hindent
  rw [Datum.headText, hlevel]
  simp only [List.append_assoc, List.cons_append]
  rw [← List.append_assoc, StartsLine, takeWhile_append_newLine (newLine_notMem_line level hlf)]
  refine (isHeader_iff _).2 ?_
  have hline := ltrim_lineOf_indent level h0 solid_tagHdr
  exact hline.symm ▸ List.prefix_refl tagHdr

end SerDesIdl

/-! ### What is detected -/

namespace SerDes

variable {s : StreamBase β} {c : List UInt8}

/-- The stream holds the octets, wherever its cursor is. -/
def Contains (s : StreamBase β) (c : List UInt8) : Prop := s.Wf ∧ s.octets = c

theorem contains_of_ends (h : s.Ends c) : Contains s c := by
  obtain ⟨f, hrep, -, rfl⟩ := h
  exact ⟨hrep.wf, hrep.octets_eq⟩

theorem Contains.reading {t : StreamBase β} (h : Contains s c) (ht : s.Reading t) :
    Contains t c := ⟨ht.wf, ht.octets_eq.trans h.2⟩

theorem Contains.blks_ne_nil (h : Contains s c) (hc : c ≠ []) : s.blks ≠ [] := by
  intro hnil
  refine hc (h.2.symm.trans ?_)
  rw [StreamBase.octets, hnil]
  exact List.take_nil

/-- The start of a stream that holds some octets. -/
theorem Contains.seek_zero (h : Contains s c) (hc : c ≠ []) :
    (s.seek 0).1 = true ∧ s.Reading (s.seek 0).2 ∧ (s.seek 0).2.HasRest c := by
  have hread := StreamBase.reading_seek h.1 0
  refine ⟨by rw [h.1.seek_zero (h.blks_ne_nil hc)], hread, ?_⟩
  have hrest := hread.wf.hasRest
  have hpos : (s.seek 0).2.pos = 0 := by
    rw [h.1.seek_zero (h.blks_ne_nil hc)]
    rfl
  rwa [hpos, List.drop_zero, hread.octets_eq, h.2] at hrest

/-- **The IDL serializer looks for its header in every line.** -/
theorem Contains.checkEncoding_idl (h : Contains s c) (hc : c ≠ []) (ser : SerDesIdl) :
    ∃ ok t, (SerDes.idl ser).checkEncoding s = some (ok, t) ∧ s.Reading t ∧
      (ok = true ↔ StartsLine isHeader c ∨ LaterLine isHeader c) := by
  obtain ⟨hok, hread, hrest⟩ := h.seek_zero hc
  obtain ⟨ok, t, ht, hiff⟩ := hrest.findLine (p := isHeader) (by decide)
  refine ⟨ok, t, ?_, hread.trans (StreamBase.reading_findLine ht hread.wf), hiff⟩
  rw [checkEncoding]
  simp only [hok, if_true]
  exact ht

/-- The native serializer looks at the first two octets. -/
theorem Contains.checkEncoding_native {r : List UInt8}
    (h : Contains s (SerDesNative.mkMagic :: SerDesNative.mkPkg :: r)) :
    ∃ t, SerDes.native.checkEncoding s = some (true, t) ∧ s.Reading t := by
  obtain ⟨hok, hread, hrest⟩ := h.seek_zero (by simp)
  obtain ⟨t, ht, -⟩ := reads_decodeIdent hrest
  have hkeeps := SerDesNative.keeps_decodeIdent hread.wf
  rw [ht] at hkeeps
  refine ⟨t, ?_, hread.trans hkeeps⟩
  rw [checkEncoding]
  simp only [hok, if_true, ht]
  rfl

end SerDes

namespace SerDesFactory

open SerDes

/-- The encoding of the stream is detected, and the stream is decoded as by its name. -/
def Detects (fac : SerDesFactory) (name : List UInt8) (s : StreamBase β) : Prop :=
  (∃ t, fac.detectEncoding s = some (name, t)) ∧
    ∀ le m tags (dat : Datum) check,
      dat.decodeAs le m tags fac check serDesAuto s = dat.decodeAs le m tags fac check name s

variable {fac : SerDesFactory} {s : StreamBase β} {c : List UInt8}

/-- What has been read while the encoding was detected does not matter. -/
theorem Stocked.detects (hfac : fac.Stocked) (h : Contains s c) (hc : c ≠ []) {name : List UInt8}
    (hname : name = serDesIdl ∨ name = serDesNative) {t : StreamBase β}
    (ht : fac.detectEncoding s = some (name, t)) (hread : s.Reading t) : fac.Detects name s := by
  refine ⟨⟨t, ht⟩, fun le m tags dat check => ?_⟩
  have hauto : name ≠ serDesAuto := by rcases hname with rfl | rfl <;> decide
  have hnil : name ≠ [] := by rcases hname with rfl | rfl <;> decide
  obtain ⟨sd, fac', hget⟩ := hfac.serDesGet hname
  simp only [Datum.decodeAs, if_true, if_neg hauto, if_neg hnil, ht, hget,
    sd.decode_of_reading le m tags hread h.1 (h.blks_ne_nil hc) dat check,
    Option.bind_eq_bind, Option.pure_def, Option.bind_some]

/-- **A stream with the header in some line is IDL text.** -/
theorem Stocked.detects_idl (hfac : fac.Stocked) (h : Contains s c) (hc : c ≠ [])
    (hline : StartsLine isHeader c ∨ LaterLine isHeader c) : fac.Detects serDesIdl s := by
  obtain ⟨ser, idl, native, pools, hpools⟩ := hfac.heads
  obtain ⟨ok, t, ht, hread, hok⟩ := h.checkEncoding_idl hc ser
  obtain rfl := hok.2 hline
  refine hfac.detects h hc (.inl rfl) (t := t) ?_ hread
  rw [detectEncoding, hpools, detectLoop, ht]
  rfl

/-- **A native package without the header in a line is one.** -/
theorem Stocked.detects_native (hfac : fac.Stocked) {r : List UInt8}
    (h : Contains s (SerDesNative.mkMagic :: SerDesNative.mkPkg :: r))
    (hline : ¬ (StartsLine isHeader (SerDesNative.mkMagic :: SerDesNative.mkPkg :: r) ∨
      LaterLine isHeader (SerDesNative.mkMagic :: SerDesNative.mkPkg :: r))) :
    fac.Detects serDesNative s := by
  have hc : SerDesNative.mkMagic :: SerDesNative.mkPkg :: r ≠ [] := by simp
  obtain ⟨ser, idl, native, pools, hpools⟩ := hfac.heads
  obtain ⟨ok, t, ht, hread, hok⟩ := h.checkEncoding_idl hc ser
  obtain rfl : ok = false := Bool.eq_false_iff.2 (mt hok.1 hline)
  -- the native serializer is asked next, on a stream that has been read
  obtain ⟨t', ht', hread'⟩ := (h.reading hread).checkEncoding_native
  refine hfac.detects h hc (.inr rfl) (t := t') ?_ (hread.trans hread')
  rw [detectEncoding, hpools, detectLoop, ht]
  simp only [Option.bind_eq_bind, Option.bind_some, Bool.false_eq_true, if_false, detectLoop, ht',
    if_true]

end SerDesFactory

/-! ### Detection and encoding -/

mutual

/-- Data that the native encoder accepts have attributes with a tag and a value. -/
theorem Datum.Encodable.printable : ∀ {d : Datum}, d.Encodable → d.Printable
  | ⟨_, _, _, _, _⟩, hd =>
      ⟨hd.2.1, fun a v hv => ⟨(hd.2.2.1 a v hv).ne_inert, (hd.2.2.1 a v hv).ne_datumList⟩,
        Datum.AllEncodable.allPrintable hd.2.2.2⟩

theorem Datum.AllEncodable.allPrintable : ∀ {ds : List Datum}, Datum.AllEncodable ds →
    Datum.AllPrintable ds
  | [], _ => trivial
  | _ :: _, hall => ⟨hall.1.printable, Datum.AllEncodable.allPrintable hall.2⟩

end

open SerDesNative in
/-- **The header is in a native package exactly if a value hides it.** -/
theorem isHeader_package_iff (le : Bool) {dat : Datum} (hdat : dat.Encodable) {tail : List UInt8}
    (htail : tail.length ≤ 7) {c : List UInt8}
    (hc : c = mkMagic :: mkPkg :: Datum.datumVersion :: (datumOctets le dat ++ mkPkgEnd :: tail)) :
    ¬ (StartsLine isHeader c ∨ LaterLine isHeader c) ↔ (dat.tree le).All Value.Plain := by
  have hstart : ¬ StartsLine isHeader c := by
    rw [hc, ← List.nil_append (mkMagic :: _), startsLine_append_mark isMark_mkMagic]
    exact not_startsLine_nil
  have hshort : ¬ LaterLine isHeader tail := fun h => by
    have hlen := length_of_laterLine h
    omega
  rw [or_iff_right hstart, hc, laterLine_cons isMark_mkMagic.ne_newLine,
    laterLine_cons isMark_mkPkg.ne_newLine, laterLine_cons (by decide),
    laterLine_append_mark isMark_mkPkgEnd, or_iff_left hshort, laterLine_datumOctets le dat hdat]

/-- **Which data are detected**: the encoding of a datum is detected by any factory, with either
serializer and any kind of checksum, exactly if no value of the tree hides the header of IDL text. -/
theorem auto_detect_iff (le : Bool) (m : MemPools) {dat : Datum} (hdat : dat.Encodable)
    {ops : List SerDesFactory.FactoryOp} {as : List (Option SerDes)} {fac : SerDesFactory}
    (hfac : StepSystem.run SerDesFactory.factoryStep ops SerDesFactory.construct = some (as, fac))
    {s : StreamBase β} {f : FlatStream UInt8} (hs : s.Represents f) :
    ((∀ chkMode s', dat.encode le m chkMode s = some (true, s') → fac.Detects serDesNative s') ∧
      ∀ chkMode ser ser' s', dat.encodeIdl le m chkMode ser s = some (true, ser', s') →
        fac.Detects serDesIdl s') ↔
    (dat.tree le).All Value.Plain := by
  have hstocked := SerDesFactory.stocked_run hfac
  constructor
  · rintro ⟨hnative, -⟩
    obtain ⟨tail, s', htail, hs', hends⟩ := Datum.ends_encode le m hdat .none hs
    refine (isHeader_package_iff le hdat htail rfl).1 fun hline => ?_
    -- a hidden header is found first
    obtain ⟨⟨t, ht⟩, -⟩ := hnative .none s' hs'
    obtain ⟨⟨t', ht'⟩, -⟩ :=
      hstocked.detects_idl (SerDes.contains_of_ends hends) (by simp) hline
    rw [ht] at ht'
    have hname : serDesNative = serDesIdl := congrArg Prod.fst (Option.some.inj ht')
    exact absurd hname (by decide)
  · intro hplain
    refine ⟨fun chkMode s' hs' => ?_, fun chkMode ser ser' s' hs' => ?_⟩
    · obtain ⟨tail, s₁, htail, hs₁, hends⟩ := Datum.ends_encode le m hdat chkMode hs
      rw [hs'] at hs₁
      obtain rfl := congrArg Prod.snd (Option.some.inj hs₁)
      exact hstocked.detects_native (SerDes.contains_of_ends hends)
        ((isHeader_package_iff le hdat htail rfl).2 hplain)
    · have hact : dat.isInert = false := by
        cases dat
        exact hdat.1
      by_cases hfit : dat.Fits (ser.indentLevel + 1)
      · obtain ⟨-, t, ht, hclose⟩ :=
          Datum.encodeIdl_eq_close le m hact hdat.printable hfit hs
        obtain ⟨d, hends⟩ := SerDesIdl.appends_close chkMode ht _ ((hclose chkMode).symm.trans hs')
        rw [List.append_assoc] at hends
        have hline := SerDesIdl.startsLine_headText ser
          (SerDesIdl.datumText le (ser.indentLevel + 1) dat ++ d)
        refine hstocked.detects_idl (SerDes.contains_of_ends hends) ?_ (.inl hline)
        intro hnil
        rw [hnil] at hline
        exact not_startsLine_nil hline
      · rw [Datum.encodeIdl_overruns le m hact hdat.printable hfit chkMode hs] at hs'
        cases hs'

/-- A number and a text in one line are detected. -/
theorem auto_detect_sample :
    (∀ chkMode s', sampleDatum.encode true exactPools chkMode (StreamBuf.construct sampleMem 0) =
        some (true, s') → SerDesFactory.construct.Detects serDesNative s') ∧
      ∀ chkMode ser ser' s', sampleDatum.encodeIdl true exactPools chkMode ser
        (StreamBuf.construct sampleMem 0) = some (true, ser', s') →
          SerDesFactory.construct.Detects serDesIdl s' := by
  have hfac : StepSystem.run SerDesFactory.factoryStep [] SerDesFactory.construct =
      some ([], SerDesFactory.construct) := rfl
  refine (auto_detect_iff true exactPools encodable_sampleDatum hfac
    (StreamBuf.represents_construct plentiful_sampleMem 0)).2
      ⟨fun a x hx => ?_, ⟨fun a x hx => ?_, trivial⟩, trivial⟩
  · cases a with
    | val =>
        obtain rfl := Option.some.inj hx
        trivial
    | _ => cases hx
  · cases a with
    | info =>
        obtain rfl := Option.some.inj hx
        refine not_laterLine_of_notMem _ ?_
        change 10 ∉ SerDesNative.valueOctets (.text (ascii "text"))
        decide
    | _ => cases hx

/-- A datum with a text of two lines, the second of which is the header. -/
def hiddenDatum : Datum :=
  { Datum.fresh with
    attribs := fun a => if a = .val then
      some (Variant.strSet exactPools (Variant.construct exactPools false)
        (10 :: ascii "// DATUM IDL")) else none }

/-- A package of the native encoder is taken for IDL text, and not decoded. -/
theorem auto_detect_hidden :
    hiddenDatum.Encodable ∧
      ∃ s', hiddenDatum.encode true exactPools .none (StreamBuf.construct sampleMem 0) =
          some (true, s') ∧
        (∃ t, SerDesFactory.construct.detectEncoding s' = some (serDesIdl, t)) ∧
        ¬ SerDesFactory.construct.Detects serDesNative s' := by
  have htext : (Variant.strSet exactPools (Variant.construct exactPools false)
      (10 :: ascii "// DATUM IDL")).Encodable :=
    ⟨(Variant.holds_strSet plentiful_exactPools true _ _).wf, by decide, by decide,
      fun _ => by decide, fun h => absurd h (by decide)⟩
  have hdat : hiddenDatum.Encodable := by
    refine ⟨rfl, rfl, fun a v hv => ?_, trivial⟩
    dsimp only at hv
    split_ifs at hv
    exact Option.some.inj hv ▸ htext
  have hhidden : ¬ (hiddenDatum.tree true).All Value.Plain := fun h => by
    refine h.1 .val (.text (10 :: ascii "// DATUM IDL")) (by decide)
      ⟨[13], ascii "// DATUM IDL", ?_, ?_⟩
    · decide
    · rw [StartsLine]
      decide
  obtain ⟨tail, s', htail, hs', hends⟩ := Datum.ends_encode true exactPools hdat .none
    (StreamBuf.represents_construct plentiful_sampleMem 0)
  have hline := not_not.1 (mt (isHeader_package_iff true hdat htail rfl).1 hhidden)
  obtain ⟨⟨t, ht⟩, -⟩ := SerDesFactory.stocked_construct.detects_idl
    (SerDes.contains_of_ends hends) (by simp) hline
  refine ⟨hdat, s', hs', ⟨t, ht⟩, ?_⟩
  rintro ⟨⟨t', ht'⟩, -⟩
  rw [ht] at ht'
  have hname : serDesIdl = serDesNative := congrArg Prod.fst (Option.some.inj ht')
  exact absurd hname (by decide)

end CodePort
