/-
Any text for the IDL decoder.

The decoder takes the lines of a stream one by one.  Every line is either taken, or ends the loop, or
is refused, but for a line that begins a datum: the name of a type behind `Datum Begin: ` is looked for
in a table, and the search has no end but the name itself.  It goes past the last name to the null
pointer behind it when the table does not have the name.

Main definitions:

* `CodePort.textLines` — the lines of a text, as `ReadLine` reads them;
* `CodePort.SerDesIdl.dataTypeGetLoop` — the search in the table, with the null pointer at its end;
* `CodePort.SerDesIdl.KnownTypes` — no line that is reached begins a datum of an unknown type.

Main results:

* `CodePort.SerDesIdl.dataTypeGetLoop_eq` — the search ends if and only if it finds the name;
* `CodePort.SerDesIdl.decodeLoop_isSome_iff` — **the loop over the lines returns if and only if the
  types of the lines that it reaches are known**;
* `CodePort.decodeIdl_isSome_iff` — **so does the decoder**, on the lines behind the header.
-/

import CodePort.IdlRoundTrip
import CodePort.NativeChecksum

set_option relaxedAutoImplicit false
set_option autoImplicit false

namespace CodePort

open BlockStore SerDesNative

variable {β : Type}

/-! ### The lines of a text -/

/-- The lines of some octets of which `line` has been read before. -/
def textLinesFrom (line : List UInt8) : List UInt8 → List (List UInt8)
  | [] => if line = [] then [] else [line]
  | ch :: l =>
      if ch = 10 then line :: textLinesFrom [] l
      else textLinesFrom (if ch = 0 then line else line ++ [ch]) l

/-- The lines of a text, without the zeros in them.  The last line need not end with the terminator,
and is no line when it is empty. -/
def textLines (l : List UInt8) : List (List UInt8) := textLinesFrom [] l

theorem textLinesFrom_append_newLine {a : List UInt8} (ha : 10 ∉ a) (r : List UInt8) :
    ∀ line, textLinesFrom line (a ++ 10 :: r) = (line ++ lineOf a) :: textLines r := by
  induction a with
  | nil =>
      intro line
      simp [textLinesFrom, textLines, lineOf]
  | cons ch a ih =>
      intro line
      obtain ⟨hne, ha⟩ := not_or.1 (mt List.mem_cons.2 ha)
      rw [List.cons_append, textLinesFrom, if_neg (Ne.symm hne), ih ha]
      by_cases h0 : ch = 0 <;> simp [lineOf, h0]

theorem textLinesFrom_of_notMem {l : List UInt8} (hl : 10 ∉ l) :
    ∀ line, textLinesFrom line l = if line ++ lineOf l = [] then [] else [line ++ lineOf l] := by
  induction l with
  | nil =>
      intro line
      simp [textLinesFrom, lineOf]
  | cons ch l ih =>
      intro line
      obtain ⟨hne, hl⟩ := not_or.1 (mt List.mem_cons.2 hl)
      rw [textLinesFrom, if_neg (Ne.symm hne), ih hl]
      by_cases h0 : ch = 0 <;> simp [lineOf, h0]

/-- The lines behind the first line of some kind. -/
def linesBehind (p : List UInt8 → Bool) (lines : List (List UInt8)) : List (List UInt8) :=
  (lines.dropWhile fun line => !p line).tail

namespace StreamBase

variable [BlockStore β] [LawfulBlockStore β]

/-- These are the lines that are left to read. -/
def HasLines (s : StreamBase β) (lines : List (List UInt8)) : Prop :=
  ∃ l, s.HasRest l ∧ textLines l = lines

/-- **`ReadLine` takes the first line.** -/
theorem HasLines.readLine {s : StreamBase β} {line : List UInt8} {lines : List (List UInt8)}
    (h : s.HasLines (line :: lines)) :
    ∃ s', s.readLine 10 true = some (true, line, s') ∧ s'.HasLines lines := by
  obtain ⟨l, hrest, hlines⟩ := h
  rw [textLines] at hlines
  by_cases hmem : 10 ∈ l
  · obtain ⟨a, r, rfl, ha⟩ := List.eq_append_cons_of_mem hmem
    rw [textLinesFrom_append_newLine ha, List.nil_append] at hlines
    obtain ⟨rfl, rfl⟩ := List.cons.inj hlines
    obtain ⟨s', hs', hrest'⟩ := hrest.readLine ha
    exact ⟨s', hs', r, hrest', rfl⟩
  · rw [textLinesFrom_of_notMem hmem, List.nil_append] at hlines
    split_ifs at hlines with hnil
    obtain ⟨rfl, rfl⟩ := List.cons.inj hlines
    obtain ⟨s', hs', hrest'⟩ := hrest.readLine_end hmem
    exact ⟨s', by rw [hs', decide_eq_true hnil], [], hrest', rfl⟩

/-- **`ReadLine` fails behind the last line.** -/
theorem HasLines.readLine_nil {s : StreamBase β} (h : s.HasLines []) :
    ∃ s', s.readLine 10 true = some (false, [], s') ∧ s'.HasLines [] := by
  obtain ⟨l, hrest, hlines⟩ := h
  rw [textLines] at hlines
  by_cases hmem : 10 ∈ l
  · obtain ⟨a, r, rfl, ha⟩ := List.eq_append_cons_of_mem hmem
    rw [textLinesFrom_append_newLine ha] at hlines
    cases hlines
  · rw [textLinesFrom_of_notMem hmem, List.nil_append] at hlines
    split_ifs at hlines with hnil
    obtain ⟨s', hs', hrest'⟩ := hrest.readLine_end hmem
    exact ⟨s', by rw [hs', hnil]; rfl, [], hrest', rfl⟩

/-- **Looking for a line** leaves the lines behind it; nothing is left when there is none. -/
theorem HasLines.findLine (p : List UInt8 → Bool) {s : StreamBase β} {lines : List (List UInt8)}
    (h : s.HasLines lines) :
    ∃ ok s', s.findLine p = some (ok, s') ∧ s'.HasLines (linesBehind p lines) ∧
      (ok = false → linesBehind p lines = []) := by
  induction lines generalizing s with
  | nil =>
      obtain ⟨s', hs', hlines⟩ := h.readLine_nil
      refine ⟨false, s', ?_, hlines, fun _ => rfl⟩
      rw [StreamBase.findLine, hs']
      rfl
  | cons line lines ih =>
      obtain ⟨s₁, hs₁, hlines⟩ := h.readLine
      cases hp : p line with
      | true =>
          have hbehind : linesBehind p (line :: lines) = lines := by simp [linesBehind, hp]
          refine ⟨true, s₁, ?_, by rwa [hbehind], fun h => absurd h (by decide)⟩
          rw [StreamBase.findLine, hs₁]
          simp [hp]
      | false =>
          have hbehind : linesBehind p (line :: lines) = linesBehind p lines := by
            simp [linesBehind, hp]
          obtain ⟨ok, s', hs', hend⟩ := ih hlines
          refine ⟨ok, s', ?_, by rwa [hbehind]⟩
          rw [StreamBase.findLine, hs₁]
          simpa [hp] using hs'

end StreamBase

namespace SerDesIdl

/-! ### The table of type names -/

/-- The table of type names, with the null pointer at its end. -/
def gDataTypeNames : List (Option (List UInt8)) :=
  DataType.all.map (fun t => some (dataTypeName t)) ++ [none]

/-- The loop of `DataTypeGet` over the entries of the table.  Its condition is the address of an entry,
which is never null; a string cannot be compared with the null pointer. -/
def dataTypeGetLoop (line : List UInt8) : List (Option (List UInt8)) → ℕ → Option DataType
  | some name :: pType, i =>
      if line = name then DataType.all[i]? else dataTypeGetLoop line pType (i + 1)
  | none :: _, _ => none
  | [], _ => none

theorem dataTypeGetLoop_map (line : List UInt8) (ts : List DataType) :
    ∀ i, DataType.all.drop i = ts →
      dataTypeGetLoop line (ts.map (fun t => some (dataTypeName t)) ++ [none]) i =
        ts.find? fun t => line = dataTypeName t := by
  induction ts with
  | nil =>
      intro i _
      rfl
  | cons t ts ih =>
      intro i hdrop
      have hget : DataType.all[i]? = some t := by
        rw [← List.head?_drop, hdrop, List.head?_cons]
      have htail : DataType.all.drop (i + 1) = ts := by
        rw [← List.tail_drop, hdrop, List.tail_cons]
      rw [List.map_cons, List.cons_append, dataTypeGetLoop, List.find?_cons, ih (i + 1) htail]
      by_cases hline : line = dataTypeName t
      · rw [if_pos hline, hget, decide_eq_true hline]
      · rw [if_neg hline, decide_eq_false hline]

/-- **The search finds the name**, or comes to the null pointer. -/
theorem dataTypeGetLoop_eq (line : List UInt8) :
    dataTypeGetLoop line gDataTypeNames 0 = dataTypeGet line :=
  dataTypeGetLoop_map line DataType.all 0 rfl

theorem dataTypeGet_eq_some {line : List UInt8} {t : DataType} :
    dataTypeGet line = some t ↔ line = dataTypeName t := by
  constructor
  · intro h
    rw [dataTypeGet] at h
    simpa using List.find?_some h
  · rintro rfl
    exact dataTypeGet_dataTypeName t

/-! ### What becomes of a line -/

/-- What stands behind `Datum Begin: ` in a line that starts with it. -/
def typeText (line : List UInt8) : Option (List UInt8) :=
  let dat := tagTrim line tagDat
  let begin := tagTrim dat.2 tagBegin
  if dat.1 && begin.1 then some begin.2 else none

/-- Is there a value in a text of this type? -/
def hasText (type : DataType) : Bool := decide (type ≠ .inert ∧ type ≠ .datumList)

/-- Is the line taken as an attribute of a datum of this type?  The second result is what is left of
the line, which has lost the tags of attributes that have no value in a text. -/
def attribTaken : List Attrib → DataType → List UInt8 → Bool × List UInt8
  | [], _, line => (false, line)
  | a :: as, type, line =>
      let r := tagTrim line ((attribMap a).getD [])
      if r.1 && hasText (attributeType a type) then (true, r.2) else attribTaken as type r.2

/-- Does the loop go on behind a line that begins no datum? -/
def goesOn (tags : TagOrder) (type : DataType) (line : List UInt8) : Bool :=
  let dat := tagTrim line tagDat
  let fin := if dat.1 then tagTrim (tagTrim dat.2 tagBegin).2 tagEnd else dat
  let attrib := attribTaken tags.order type fin.2
  let pkg := decodePkgLine attrib.2
  (dat.1 && fin.1) || attrib.1 || (!pkg.1 && (tagTrim pkg.2 tagComment).1)

/-- **Every line that begins a datum names a type of the table**, up to the line where the loop ends.
The type is the one of the last line before that begins a datum. -/
def KnownTypes (tags : TagOrder) : DataType → List (List UInt8) → Prop
  | _, [] => True
  | type, line :: lines =>
      if ltrim line = [] then KnownTypes tags type lines
      else
        match typeText (ltrim line) with
        | some text => ∃ t, text = dataTypeName t ∧ KnownTypes tags t lines
        | none => goesOn tags type (ltrim line) = true → KnownTypes tags type lines

theorem variantExtract_ok (le : Bool) (m : MemPools) (var : Variant) (type : DataType) (value : List UInt8) :
    (variantExtract le m var type value).1 = hasText type := by
  cases type <;> rfl

theorem stream_modifyRef (st : SerDesNative.DecodeState β) (r : DatumRef) (f : Datum → Datum) :
    (st.modifyRef r f).stream = st.stream := by
  cases r <;> rfl

theorem stream_decodeDat (le : Bool) (m : MemPools) (st : SerDesNative.DecodeState β) :
    (decodeDat le m st).stream = st.stream := by
  rw [decodeDat]
  split_ifs
  · rfl
  · exact stream_modifyRef st st.pDat _

theorem stream_decodeDatEnd (st : SerDesNative.DecodeState β) :
    (decodeDatEnd st).stream = st.stream := by
  rw [decodeDatEnd]
  split <;> rfl

variable (le : Bool) (m : MemPools) (tags : TagOrder)

theorem decodeAttribLine_spec (as : List Attrib) (line : List UInt8) (st : DecodeState β) :
    (decodeAttribLine le m as line st).1 = (attribTaken as st.type line).1 ∧
      (decodeAttribLine le m as line st).2.1 = (attribTaken as st.type line).2 ∧
      (decodeAttribLine le m as line st).2.2.type = st.type ∧
      (decodeAttribLine le m as line st).2.2.stream = st.stream := by
  induction as generalizing line st with
  | nil => exact ⟨rfl, rfl, rfl, rfl⟩
  | cons a as ih =>
      rw [decodeAttribLine, attribTaken]
      cases htrim : (tagTrim line ((attribMap a).getD [])).1 with
      | false => simpa [htrim] using ih _ st
      | true =>
          cases htext : hasText (attributeType a st.type) with
          | true => simp [variantExtract_ok, htext, stream_modifyRef]
          | false =>
              simp only [variantExtract_ok, htext, if_true, Bool.false_eq_true, if_false,
                Bool.true_and]
              obtain ⟨h₁, h₂, h₃, h₄⟩ := ih _ _
              exact ⟨h₁, h₂, h₃, h₄.trans (stream_modifyRef _ _ _)⟩

/-- A line that begins a datum. -/
theorem decodeLine_of_typeText {line text : List UInt8} (h : typeText line = some text)
    (st : DecodeState β) :
    decodeLine le m tags line st = (dataTypeGet text).map fun type =>
      (.more, ⟨SerDesNative.decodeDat le m st.toDecodeState, type⟩) := by
  rw [typeText] at h
  split_ifs at h with hbegin
  obtain ⟨hdat, hbegin⟩ := Bool.and_eq_true_iff.1 hbegin
  obtain rfl := Option.some.inj h
  rw [decodeLine, decodeDatLine]
  simp only [hdat, hbegin, if_true, Option.map_map]
  rfl

/-- What becomes of a line that neither begins nor ends a datum. -/
theorem attribLine_verdict (line : List UInt8) (st : DecodeState β) {attrib : Bool × List UInt8 × DecodeState β}
    (hattrib : decodeAttribLine le m tags.order line st = attrib) {r : Verdict × DecodeState β}
    (hr : (if attrib.1 then (Verdict.more, attrib.2.2)
      else if (decodePkgLine attrib.2.1).1 then (.exit, attrib.2.2)
      else if (tagTrim (decodePkgLine attrib.2.1).2 tagComment).1 then (.more, attrib.2.2)
      else (.fail, attrib.2.2)) = r) :
    (r.1 = .more ↔ ((attribTaken tags.order st.type line).1 ||
      (!(decodePkgLine (attribTaken tags.order st.type line).2).1 &&
        (tagTrim (decodePkgLine (attribTaken tags.order st.type line).2).2 tagComment).1)) = true) ∧
      r.2.type = st.type ∧ r.2.stream = st.stream := by
  obtain ⟨h₁, h₂, htype, hstream⟩ := decodeAttribLine_spec le m tags.order line st
  rw [hattrib] at h₁ h₂ htype hstream
  rw [← h₁, ← h₂, ← hr]
  split_ifs <;> simp_all

/-- **Any other line** is taken, ends the loop or is refused. -/
theorem decodeLine_of_typeText_eq_none {line : List UInt8} (h : typeText line = none)
    (st : DecodeState β) :
    ∃ r, decodeLine le m tags line st = some r ∧ (r.1 = .more ↔ goesOn tags st.type line = true) ∧
      r.2.type = st.type ∧ r.2.stream = st.stream := by
  rw [typeText] at h
  rw [decodeLine, decodeDatLine, goesOn]
  cases hdat : (tagTrim line tagDat).1 with
  | false =>
      simp only [hdat, Bool.false_eq_true, if_false, Option.map_some, Bool.false_and, Bool.false_or]
      exact ⟨_, rfl, attribLine_verdict le m tags _ _ rfl rfl⟩
  | true =>
      have hbegin : (tagTrim (tagTrim line tagDat).2 tagBegin).1 = false := by
        simpa [hdat] using h
      simp only [hbegin, Bool.false_eq_true, if_true, if_false, Bool.true_and]
      cases hfin : (tagTrim (tagTrim (tagTrim line tagDat).2 tagBegin).2 tagEnd).1 with
      | false =>
          simp only [Bool.false_eq_true, if_false, Option.map_some, Bool.false_or]
          exact ⟨_, rfl, attribLine_verdict le m tags _ _ rfl rfl⟩
      | true =>
          exact ⟨_, rfl, by simp, rfl, stream_decodeDatEnd _⟩

/-! ### The loop over the lines -/

variable [BlockStore β] [LawfulBlockStore β]

theorem decodeStep_of_hasLines {st : DecodeState β} {line : List UInt8} {lines : List (List UInt8)}
    (h : st.stream.HasLines (line :: lines)) :
    ∃ s', s'.HasLines lines ∧ decodeStep le m tags st =
      if ltrim line = [] then some (.more, { st with stream := s' })
      else decodeLine le m tags (ltrim line) { st with stream := s' } := by
  obtain ⟨s', hs', hlines⟩ := h.readLine
  refine ⟨s', hlines, ?_⟩
  rw [decodeStep, lineGet, hs', Option.bind_some]
  rfl

/-- **The loop over the lines returns if and only if the types of the lines that it reaches are
known.** -/
theorem decodeLoop_isSome_iff {lines : List (List UInt8)} :
    ∀ {st : DecodeState β}, st.stream.HasLines lines →
      ((st.decodeLoop le m tags).isSome ↔ KnownTypes tags st.type lines) := by
  induction lines with
  | nil =>
      intro st h
      obtain ⟨s', hs', -⟩ := h.readLine_nil
      have hstep : decodeStep le m tags st = some (.fail, { st with stream := s' }) := by
        rw [decodeStep, lineGet, hs']
        rfl
      rw [DecodeState.decodeLoop, hstep]
      exact iff_of_true rfl trivial
  | cons line lines ih =>
      intro st h
      obtain ⟨s', hlines, hstep⟩ := decodeStep_of_hasLines le m tags h
      rw [KnownTypes]
      by_cases hblank : ltrim line = []
      · rw [if_pos hblank] at hstep ⊢
        rw [decodeLoop_more hstep, ih hlines]
      · rw [if_neg hblank] at hstep ⊢
        cases htext : typeText (ltrim line) with
        | some text =>
            rw [decodeLine_of_typeText le m tags htext] at hstep
            cases htype : dataTypeGet text with
            | none =>
                -- the search comes to the null pointer
                rw [htype] at hstep
                rw [DecodeState.decodeLoop, hstep]
                refine iff_of_false (by simp) ?_
                rintro ⟨t, ht, -⟩
                rw [dataTypeGet_eq_some.2 ht] at htype
                cases htype
            | some t =>
                rw [htype] at hstep
                have hlines' : StreamBase.HasLines (SerDesNative.decodeDat le m
                    ({ st with stream := s' } : DecodeState β).toDecodeState).stream lines := by
                  rwa [stream_decodeDat]
                rw [decodeLoop_more hstep, ih hlines']
                constructor
                · exact fun hknown => ⟨t, dataTypeGet_eq_some.1 htype, hknown⟩
                · rintro ⟨t', ht', hknown⟩
                  obtain rfl := Option.some.inj (htype.symm.trans (dataTypeGet_eq_some.2 ht'))
                  exact hknown
        | none =>
            obtain ⟨⟨v, st'⟩, hline, hmore, htype, hstream⟩ :=
              decodeLine_of_typeText_eq_none le m tags htext
                { st with stream := s' }
            rw [hline] at hstep
            cases v with
            | more =>
                rw [decodeLoop_more hstep, ih (by rwa [hstream]), htype]
                exact ⟨fun hknown _ => hknown, fun hknown => hknown (hmore.1 rfl)⟩
            | exit =>
                rw [DecodeState.decodeLoop, hstep]
                exact iff_of_true rfl fun hgo => by cases hmore.2 hgo
            | fail =>
                rw [DecodeState.decodeLoop, hstep]
                exact iff_of_true rfl fun hgo => by cases hmore.2 hgo

/-- The lines of the elements of a package: those behind the header and the package line. -/
def elementLines (l : List UInt8) : List (List UInt8) :=
  linesBehind isVersionLine (linesBehind (fun line => (tagTrim line tagHdr).1) (textLines l))

theorem decode_isSome_iff {s : StreamBase β} {f : FlatStream UInt8} (hs : s.Represents f)
    (dat : Datum) : (SerDesIdl.decode le m tags s dat false).isSome ↔
      KnownTypes tags .none (elementLines f.content) := by
  have hlines : (s.seek 0).2.HasLines (textLines f.content) :=
    ⟨_, ⟨_, (hs.seek 0).2, f.rest_seek_zero⟩, rfl⟩
  obtain ⟨ok₁, s₁, hs₁, hlines₁, hnil₁⟩ := hlines.findLine fun line => (tagTrim line tagHdr).1
  obtain ⟨ok₂, s₂, hs₂, hlines₂, hnil₂⟩ := hlines₁.findLine isVersionLine
  rw [elementLines, SerDesIdl.decode, SerDesIdl.decodeIdent, hs₁]
  cases ok₁ with
  | false =>
      rw [hnil₁ rfl]
      exact iff_of_true rfl trivial
  | true =>
      simp only [Option.bind_eq_bind, Option.bind_some, if_true, SerDesIdl.decodeVersion, hs₂]
      cases ok₂ with
      | false =>
          rw [hnil₂ rfl]
          exact iff_of_true rfl trivial
      | true =>
          let st : DecodeState β :=
            { stream := s₂, root := dat.clear le m, datStack := [some []], pDat := some []
              rootDatum := true, var := Variant.construct m false, type := .none }
          have hstart : st.stream.HasLines (elementLines f.content) := hlines₂
          have hloop := decodeLoop_isSome_iff le m tags hstart
          rw [← elementLines, ← hloop]
          simp only [if_true, SerDesIdl.decodeElement]
          cases hrun : DecodeState.decodeLoop le m tags (β := β) _ with
          | none => simp
          | some r => simp

end SerDesIdl

open SerDesIdl

variable [BlockStore β] [LawfulBlockStore β]

/-- **The IDL decoder returns true or false if and only if every line that begins a datum names a type
of the table**, up to the line where decoding stops. -/
theorem decodeIdl_isSome_iff (le : Bool) (m : MemPools) (tags : TagOrder) {s : StreamBase β}
    {f : FlatStream UInt8} (hs : s.Represents f) (dat : Datum) :
    (dat.decodeIdl le m tags false s).isSome ↔
      dat.isInert = true ∨ KnownTypes tags .none (elementLines f.content) := by
  rw [Datum.decodeIdl]
  split_ifs with hinert
  · exact iff_of_true rfl (.inl hinert)
  · rw [or_iff_right hinert]
    exact decode_isSome_iff le m tags hs dat

/-- A package with a datum of some type. -/
def typedText (type : List UInt8) : List UInt8 :=
  tagHdr ++ tagLineEnd ++ (tagPkg ++ tagBegin ++ tagVer ++ ascii "0" ++ tagLineEnd) ++
    (tagDat ++ tagBegin ++ type ++ tagLineEnd)

/-- A stream that holds a text. -/
theorem represents_typedText (type : List UInt8) :
    ∃ f : FlatStream UInt8, (filledStream [typedText type]).Represents f ∧
      f.content = typedText type := by
  have hne : typedText type ≠ [] := by simp [typedText, tagLineEnd]
  obtain ⟨f, hrep, -⟩ := (wf_filledStream hne).hasRest
  have hblks : (filledStream [typedText type]).blks = [typedText type] := rfl
  have hlen : (filledStream [typedText type]).lenGet = (typedText type).length := by
    simp [StreamBase.lenGet, StreamBase.sizeBefore, filledStream]
  refine ⟨f, hrep, ?_⟩
  rw [← hrep.octets_eq, StreamBase.octets, hblks, hlen, List.flatten_singleton, List.take_length]

/-- The lines of a package with a datum of a type that is known. -/
theorem decodeIdl_isSome_uint8 :
    (Datum.fresh.decodeIdl true exactPools sampleTags false
      (filledStream [typedText (ascii "Uint8")])).isSome ∧
      KnownTypes sampleTags .none (elementLines (typedText (ascii "Uint8"))) := by
  obtain ⟨f, hrep, hcontent⟩ := represents_typedText (ascii "Uint8")
  have hlines : elementLines (typedText (ascii "Uint8")) = [ascii "Datum Begin: Uint8"] := by
    decide +kernel
  have hknown : KnownTypes sampleTags .none (elementLines (typedText (ascii "Uint8"))) := by
    rw [hlines, KnownTypes, if_neg (by decide)]
    exact ⟨.uint8, rfl, trivial⟩
  refine ⟨(decodeIdl_isSome_iff true exactPools sampleTags hrep Datum.fresh).2 (.inr ?_), hknown⟩
  rw [hcontent]
  exact hknown

/-- A type that is in no table. -/
theorem decodeIdl_isSome_unknown :
    ¬ (Datum.fresh.decodeIdl true exactPools sampleTags false
      (filledStream [typedText (ascii "Foo")])).isSome := by
  obtain ⟨f, hrep, hcontent⟩ := represents_typedText (ascii "Foo")
  have hlines : elementLines (typedText (ascii "Foo")) = [ascii "Datum Begin: Foo"] := by
    decide +kernel
  rw [Datum.decodeIdl, if_neg (by decide), decode_isSome_iff _ _ _ hrep, hcontent, hlines, KnownTypes,
    if_neg (by decide)]
  rintro ⟨t, ht, -⟩
  cases t <;> exact absurd ht (by decide)

end CodePort
