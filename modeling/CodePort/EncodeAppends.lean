/-
What an encoding leaves in a stream.

All serializers clear the stream, insert a header and go on behind it.  So when an encoding returns, the
stream stands at its end, behind a header at least; this holds whatever the datum is, and also when the
encoding is reported as a failure.

Main definitions:

* `CodePort.SerDesIdl.Begins` — a function that leaves a stream at its end, with something in it.

Main results:

* `CodePort.Datum.appends_encodeText` — the text serializers append to the stream;
* `CodePort.Datum.begins_encodeIdl`, `begins_encodeXml` — **an encoding to text leaves a stream that is
  not empty**;
* `CodePort.Datum.ends_encodeNative` — **so does a native one**, which always returns.
-/

import CodePort.AutoDetect
import CodePort.NativeOutcome
import CodePort.SerDesXml

set_option relaxedAutoImplicit false
set_option autoImplicit false

namespace CodePort

open BlockStore

variable {β : Type} [BlockStore β] [LawfulBlockStore β]

namespace SerDesIdl

/-! ### Functions that append -/

/-- A function that does with the stream what another one does, for some members of the serializer. -/
theorem Appends.congr {f g : TextInsert β} (hf : Appends f)
    (h : ∀ ser s r, g ser s = some r → ∃ ser' r', f ser' s = some r' ∧ r'.2.2 = r.2.2) : Appends g := by
  intro ser s c hends r hr
  obtain ⟨ser', r', hr', hstream⟩ := h ser s r hr
  rw [← hstream]
  exact hf hends r' hr'

theorem appends_blobInsert (buf : Buffer) : Appends (blobInsert buf : TextInsert β) := by
  rw [blobInsert]
  induction buf.data with
  | nil => exact appends_done true
  | cons ch data ih => exact (appends_stringInsert _).both ih

theorem appends_openTagInsert (tagName : List UInt8) (attr : Bool) :
    Appends (openTagInsert tagName attr : TextInsert β) := by
  have hlast : Appends (if attr then .done true else newLineInsert : TextInsert β) := by
    split_ifs
    · exact appends_done true
    · exact appends_newLineInsert
  refine ((appends_stringInsert tagName).both ((appends_stringInsert tagBegin).both hlast)).congr ?_
  intro ser s r hr
  obtain ⟨r', hr', rfl⟩ := Option.map_eq_some_iff.1 hr
  exact ⟨ser, r', hr', rfl⟩

theorem appends_closeTagInsert (tagName : List UInt8) :
    Appends (closeTagInsert tagName : TextInsert β) :=
  ((appends_stringInsert tagName).both (appends_stringInsert tagEnd)).congr
    fun ser _ r hr => ⟨{ ser with indentLevel := ser.indentLevel - 1 }, r, hr, rfl⟩

theorem appends_valueInsert (le : Bool) (m : MemPools) (v : Variant) :
    Appends (valueInsert le m v : TextInsert β) := by
  rw [valueInsert]
  cases v.type with
  | inert => exact appends_done false
  | datumList => exact appends_done false
  | none => exact appends_done true
  | blob => exact appends_blobInsert v.buf
  | _ => exact appends_stringInsert _

theorem appends_attribsInsert (le : Bool) (m : MemPools) (dat : Datum) (as : List Attrib) :
    Appends (attribsInsert le m dat as : TextInsert β) := by
  induction as with
  | nil => exact appends_done true
  | cons a as ih =>
      rw [attribsInsert, List.foldr_cons, ← attribsInsert]
      cases dat.attribs a with
      | none => exact ih
      | some v =>
          cases attribMap a with
          | none => exact fun ser s c h r hr => absurd hr (by simp)
          | some tag =>
              exact (appends_stringInsert tag).both
                ((appends_valueInsert le m v).both (appends_newLineInsert.both ih))

theorem appends_start (le : Bool) (m : MemPools) (dat : Datum) :
    Appends (start le m dat : TextInsert β) :=
  (appends_openTagInsert tagDat true).both ((appends_stringInsert _).both
    (appends_newLineInsert.both (appends_attribsInsert le m dat Attrib.all)))

theorem appends_end : Appends (end' : TextInsert β) :=
  (appends_closeTagInsert tagDat).both appends_newLineInsert

/-! ### Functions that begin a stream -/

/-- Where the function returns, the stream stands at its end, and is not empty. -/
def Begins (g : TextInsert β) : Prop :=
  ∀ ⦃ser s f⦄, s.Represents f → ∀ r, g ser s = some r → ∃ c, c ≠ [] ∧ StreamBase.Ends r.2.2 c

theorem Begins.both {f g : TextInsert β} (hf : Begins f) (hg : Appends g) : Begins (f.both g) := by
  intro ser s fs h r hr
  obtain ⟨r₁, hr₁, hr⟩ := Option.bind_eq_some_iff.1 hr
  obtain ⟨c, hc, h₁⟩ := hf h r₁ hr₁
  split_ifs at hr
  · obtain ⟨d, h₂⟩ := hg h₁ r hr
    exact ⟨c ++ d, by simp [hc], h₂⟩
  · obtain rfl := Option.some.inj hr
    exact ⟨c, hc, h₁⟩

/-- The indentation is inserted completely. -/
theorem ends_indentInsert {ser : SerDesIdl} {s : StreamBase β} {c : List UInt8} (h : s.Ends c)
    {r : Bool × SerDesIdl × StreamBase β} (hr : indentInsert ser s = some r) :
    r.1 = true ∧ ∃ d, StreamBase.Ends r.2.2 (c ++ d) := by
  refine ⟨?_, appends_indentInsert h r hr⟩
  dsimp only [indentInsert] at hr
  split_ifs at hr with hmem
  obtain ⟨s', hs', -⟩ := SerDesNative.ends_arrayWr h
    ((genStr (indentSize * ser.indentLevel) 32 ++ [0]).take (indentSize * ser.indentLevel))
  rw [hs', List.length_take, min_eq_left hmem] at hr
  obtain rfl := Option.some.inj hr
  exact decide_eq_true rfl

/-- The octets of a string are inserted behind the content. -/
theorem ends_octetsInsert {str : List UInt8} {ser : SerDesIdl} {s : StreamBase β} {c : List UInt8}
    (h : s.Ends c) {r : Bool × SerDesIdl × StreamBase β} (hr : octetsInsert str ser s = some r) :
    StreamBase.Ends r.2.2 (c ++ str) := by
  obtain ⟨s', hs', hends⟩ := SerDesNative.ends_arrayWr h str
  rw [octetsInsert, hs'] at hr
  obtain rfl := Option.some.inj hr
  exact hends

/-- A header is a string that is not empty, in a stream that has been cleared. -/
theorem begins_header {str : List UInt8} (hstr : str ≠ []) :
    Begins (fun ser s => stringInsert str ser s.clear : TextInsert β) := by
  intro ser s f h r hr
  have hclear : s.clear.Ends [] := ⟨_, h.clear, rfl, rfl⟩
  dsimp only [stringInsert] at hr
  split_ifs at hr
  · obtain ⟨r₁, hr₁, hr⟩ := Option.bind_eq_some_iff.1 hr
    obtain ⟨htrue, d, hd⟩ := ends_indentInsert hclear hr₁
    rw [htrue, if_pos rfl] at hr
    exact ⟨[] ++ d ++ str, by simp [hstr], ends_octetsInsert hd hr⟩
  · exact ⟨[] ++ str, by simpa using hstr, ends_octetsInsert hclear hr⟩

theorem begins_open (ver : UInt8) : Begins («open» ver : TextInsert β) := by
  have hattrib : Appends (attribInsert tagVer (uintToStr ver.toNat) true : TextInsert β) :=
    (appends_stringInsert _).both ((appends_stringInsert _).both appends_newLineInsert)
  exact (begins_header (by decide)).both
    (appends_newLineInsert.both ((appends_openTagInsert tagPkg true).both hattrib))

end SerDesIdl

/-! ### The XML serializer -/

namespace SerDesXml

open SerDesIdl

theorem appends_openTagInsert (tagName : List UInt8) (attr : Bool) :
    Appends (SerDesXml.openTagInsert tagName attr : TextInsert β) := by
  have hlast : Appends (if attr then .done true else stringInsert tagTagEnd : TextInsert β) := by
    split_ifs
    · exact appends_done true
    · exact appends_stringInsert _
  refine ((appends_stringInsert tagOpenTagStart).both ((appends_stringInsert tagName).both hlast)).congr ?_
  intro ser s r hr
  obtain ⟨r', hr', rfl⟩ := Option.map_eq_some_iff.1 hr
  exact ⟨ser, r', hr', rfl⟩

theorem appends_closeTagInsert (tagName : List UInt8) :
    Appends (SerDesXml.closeTagInsert tagName : TextInsert β) :=
  ((appends_stringInsert tagCloseTagStart).both ((appends_stringInsert tagName).both
    ((appends_stringInsert tagTagEnd).both appends_newLineInsert))).congr
      fun ser _ r hr => ⟨{ ser with indentLevel := ser.indentLevel - 1 }, r, hr, rfl⟩

theorem appends_attribInsert (attrName value : List UInt8) (final : Bool) :
    Appends (SerDesXml.attribInsert attrName value final : TextInsert β) := by
  have hlast : Appends (if final then (stringInsert tagTagEnd).both newLineInsert else .done true :
      TextInsert β) := by
    split_ifs
    · exact (appends_stringInsert _).both appends_newLineInsert
    · exact appends_done true
  exact (appends_stringInsert _).both ((appends_stringInsert _).both ((appends_stringInsert _).both
    ((appends_stringInsert _).both ((appends_stringInsert _).both hlast))))

theorem appends_blobLoop (data : List UInt8) : ∀ i, Appends (blobLoop i data : TextInsert β) := by
  induction data with
  | nil => exact fun _ => appends_done true
  | cons ch data ih =>
      intro i
      have hline : Appends (if i % 16 = 0 then newLineInsert else .done true : TextInsert β) := by
        split_ifs
        · exact appends_newLineInsert
        · exact appends_done true
      exact hline.both ((appends_stringInsert _).both (ih (i + 1)))

theorem appends_valueInsert (le : Bool) (m : MemPools) (v : Variant) :
    Appends (SerDesXml.valueInsert le m v : TextInsert β) := by
  rw [SerDesXml.valueInsert]
  split_ifs
  · exact (appends_blobLoop v.buf.data 0).both appends_newLineInsert
  · exact SerDesIdl.appends_valueInsert le m v

theorem appends_attribsInsert (le : Bool) (m : MemPools) (dat : Datum) (as : List Attrib) :
    Appends (SerDesXml.attribsInsert le m dat as : TextInsert β) := by
  induction as with
  | nil => exact appends_done true
  | cons a as ih =>
      rw [SerDesXml.attribsInsert, List.foldr_cons, ← SerDesXml.attribsInsert]
      cases dat.attribs a with
      | none => exact ih
      | some v =>
          cases SerDesXml.attribMap a with
          | none => exact fun ser s c h r hr => absurd hr (by simp)
          | some tag =>
              exact (appends_openTagInsert tag false).both
                ((appends_valueInsert le m v).both ((appends_closeTagInsert tag).both ih))

theorem appends_start (le : Bool) (m : MemPools) (dat : Datum) :
    Appends (SerDesXml.start le m dat : TextInsert β) :=
  (appends_openTagInsert _ true).both ((appends_attribInsert _ _ true).both
    (appends_attribsInsert le m dat Attrib.all))

theorem appends_checksumInsert (chkMode : CheckSum) (pos : ℕ) :
    Appends (SerDesXml.checksumInsert chkMode pos : TextInsert β) := by
  cases chkMode with
  | none => exact appends_done true
  | crc32 => exact (appends_stringInsert tagCrc32).both (appends_crc32Insert pos)
  | md5Sum => exact appends_stringInsert _
  | sha1Sum => exact appends_stringInsert _

theorem appends_close (chkMode : CheckSum) : Appends (SerDesXml.close chkMode : TextInsert β) := by
  refine (appends_closeTagInsert _).both fun ser (s : StreamBase β) c h r hr => ?_
  split_ifs at hr
  · obtain rfl := Option.some.inj hr
    exact ⟨[], by rwa [List.append_nil]⟩
  · exact ((appends_stringInsert _).both ((appends_checksumInsert chkMode s.pos).both
      ((appends_stringInsert _).both appends_newLineInsert))) h r hr

theorem begins_open (ver : UInt8) : Begins (SerDesXml.open ver : TextInsert β) :=
  (begins_header (by decide)).both (appends_newLineInsert.both
    ((appends_openTagInsert _ true).both (appends_attribInsert _ _ true)))

end SerDesXml

/-! ### A whole datum -/

namespace Datum

open SerDesIdl

section Text

variable {start : Datum → TextInsert β} {end' : TextInsert β}

mutual

/-- **A text serializer appends a datum to the stream**, when the functions that start and end one do. -/
theorem appends_encodeText (hstart : ∀ d, Appends (start d)) (hend : Appends end') :
    ∀ (d : Datum) {ser : SerDesIdl} {s : StreamBase β} {c : List UInt8}, s.Ends c →
      ∀ r, d.encodeText start end' ser s = some r → ∃ e, StreamBase.Ends r.2.2 (c ++ e)
  | ⟨isInert, self, attribs, iterData, datums⟩, ser, s, c, h, r, hr => by
      rw [encodeText] at hr
      obtain ⟨⟨rv₁, ser₁, s₁⟩, hr₁, hr⟩ := Option.bind_eq_some_iff.1 hr
      obtain ⟨⟨n, ser₂, s₂⟩, hr₂, hr⟩ := Option.bind_eq_some_iff.1 hr
      obtain ⟨⟨rv₃, ser₃, s₃⟩, hr₃, hr⟩ := Option.bind_eq_some_iff.1 hr
      obtain rfl := Option.some.inj hr
      obtain ⟨e₁, h₁⟩ := hstart _ h _ hr₁
      obtain ⟨e₂, h₂⟩ := appends_encodeTexts hstart hend datums h₁ _ hr₂
      obtain ⟨e₃, h₃⟩ := hend h₂ _ hr₃
      exact ⟨e₁ ++ e₂ ++ e₃, by simpa only [List.append_assoc] using h₃⟩

theorem appends_encodeTexts (hstart : ∀ d, Appends (start d)) (hend : Appends end') :
    ∀ (ds : List Datum) {ser : SerDesIdl} {s : StreamBase β} {c : List UInt8}, s.Ends c →
      ∀ r, encodeTexts start end' ds ser s = some r → ∃ e, StreamBase.Ends r.2.2 (c ++ e)
  | [], ser, s, c, h, r, hr => by
      rw [encodeTexts] at hr
      obtain rfl := Option.some.inj hr
      exact ⟨[], by rwa [List.append_nil]⟩
  | d :: ds, ser, s, c, h, r, hr => by
      rw [encodeTexts] at hr
      obtain ⟨⟨n, ser₁, s₁⟩, hr₁, hr⟩ := Option.bind_eq_some_iff.1 hr
      obtain ⟨⟨k, ser₂, s₂⟩, hr₂, hr⟩ := Option.bind_eq_some_iff.1 hr
      obtain rfl := Option.some.inj hr
      obtain ⟨e₁, h₁⟩ := appends_encodeText hstart hend d h _ hr₁
      obtain ⟨e₂, h₂⟩ := appends_encodeTexts hstart hend ds h₁ _ hr₂
      exact ⟨e₁ ++ e₂, by simpa only [List.append_assoc] using h₂⟩

end

/-- A datum as a part of a package. -/
theorem appends_body (hstart : ∀ d, Appends (start d)) (hend : Appends end') (dat : Datum) :
    Appends fun ser (s : StreamBase β) =>
      (dat.encodeText start end' ser s).map fun r => (decide (r.1 ≠ 0), r.2) := by
  intro ser s c h r hr
  obtain ⟨r', hr', rfl⟩ := Option.map_eq_some_iff.1 hr
  exact appends_encodeText hstart hend dat h r' hr'

end Text

/-- **An encoding to IDL leaves a stream that is not empty.** -/
theorem begins_encodeIdl (le : Bool) (m : MemPools) {dat : Datum} (hact : dat.isInert = false)
    (chkMode : CheckSum) : Begins (dat.encodeIdl le m chkMode : TextInsert β) := by
  intro ser s f h r hr
  rw [encodeIdl, hact, if_neg Bool.false_ne_true] at hr
  simp only [encodeIdlDatum_eq] at hr
  have hbody := appends_body (β := β) (appends_start le m) appends_end dat
  exact (begins_open datumVersion).both (hbody.both (appends_close chkMode)) h r hr

/-- **An encoding to XML leaves a stream that is not empty.** -/
theorem begins_encodeXml (le : Bool) (m : MemPools) {dat : Datum} (hact : dat.isInert = false)
    (chkMode : CheckSum) : Begins (dat.encodeXml le m chkMode : TextInsert β) := by
  intro ser s f h r hr
  rw [encodeXml, hact, if_neg Bool.false_ne_true] at hr
  have hbody := appends_body (β := β) (SerDesXml.appends_start le m)
    (SerDesXml.appends_closeTagInsert SerDesXml.tagDat) dat
  exact (SerDesXml.begins_open datumVersion).both (hbody.both (SerDesXml.appends_close chkMode)) h r hr

/-- **A native encoding returns, and leaves a stream that is not empty.** -/
theorem ends_encodeNative (le : Bool) (m : MemPools) {dat : Datum} (hact : dat.isInert = false)
    (chkMode : CheckSum) {s : StreamBase β} {f : FlatStream UInt8} (h : s.Represents f) :
    ∃ s' c, dat.encode le m chkMode s = some (true, s') ∧ c ≠ [] ∧ s'.Ends c := by
  obtain ⟨t, ht, hopen⟩ := SerDesNative.ends_open datumVersion h
  obtain ⟨n, t', ht', hn, hbody⟩ := ends_encodeDatum le m dat hopen
  obtain ⟨tail, s', -, hs', hends⟩ := SerDesNative.ends_close le chkMode hbody
  refine ⟨s', _, ?_, ?_, hends⟩
  · rw [encode, hact, if_neg Bool.false_ne_true, Insert.both]
    simp only [ht, Option.bind_some, if_true, Insert.both, ht', Option.map_some, hn, ne_eq,
      not_false_eq_true, decide_true, hs']
  · simp

end Datum

end CodePort
