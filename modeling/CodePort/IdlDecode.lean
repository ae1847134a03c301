/-
What the IDL decoder makes of a line.

A line that the encoder writes starts with a keyword that no other keyword can be taken for, so that
the decoder finds it whatever the order of the tag map is.  The value behind it is read by the type
of the datum; whatever is read, no text that the decoder sets has the end of a line in it.

Main definitions:

* `CodePort.SerDesIdl.readValue` — the value that a text is read as;
* `CodePort.Datum.Holding` — all values of a datum and its sub-data satisfy a predicate.

Main results:

* `CodePort.SerDesIdl.holds_variantExtract` — the variant holds the value that is read;
* `CodePort.SerDesIdl.decodeStep_lineText` — **a pass takes a line that is not blank**;
* `CodePort.SerDesIdl.decodeLine_begin`, `decodeLine_end`, `decodeLine_attrib`, `decodeLine_pkgEnd` —
  **what it does with the lines that the encoder writes**;
* `CodePort.SerDesIdl.holding_decodeIdl` — no text of a decoded datum has the end of a line in it.
-/

import CodePort.IdlEncode
import CodePort.NativeRoundTrip

set_option relaxedAutoImplicit false
set_option autoImplicit false

namespace CodePort

namespace SerDesIdl

/-! ### Keywords -/

/-- A text that does not start with a blank, and is not empty. -/
def Solid (text : List UInt8) : Prop := text.head?.map isBlank = some false

instance (text : List UInt8) : Decidable (Solid text) := by
  unfold Solid
  infer_instance

theorem Solid.append {text : List UInt8} (h : Solid text) (l : List UInt8) : Solid (text ++ l) := by
  cases text with
  | nil => cases h
  | cons c text => exact h

theorem Solid.ne_nil {text : List UInt8} (h : Solid text) : text ≠ [] := by
  rintro rfl
  cases h

theorem Solid.ltrim_eq {text : List UInt8} (h : Solid text) : ltrim text = text := by
  cases text with
  | nil => cases h
  | cons c text => exact ltrim_cons (Option.some.inj h) text

theorem solid_tagDat : Solid tagDat := by decide
theorem solid_tagBegin : Solid tagBegin := by decide
theorem solid_tagEnd : Solid tagEnd := by decide
theorem solid_tagPkg : Solid tagPkg := by decide
theorem solid_tagVer : Solid tagVer := by decide
theorem solid_tagHdr : Solid tagHdr := by decide

/-- A keyword is taken off the line. -/
theorem tagTrim_append {tag : List UInt8} (h : Solid tag) (l : List UInt8) :
    tagTrim (tag ++ l) tag = (true, l) := by
  rw [tagTrim]
  simp only [h.ltrim_eq, (h.append l).ltrim_eq, List.length_append]
  rw [if_pos (Nat.le_add_right _ _), List.take_left, if_pos rfl, List.drop_left]

theorem tagTrim_self {tag : List UInt8} (h : Solid tag) : tagTrim tag tag = (true, []) := by
  have htrim := tagTrim_append h []
  rwa [List.append_nil] at htrim

/-- A line that starts with another keyword stays as it is. -/
theorem tagTrim_clash {tag tag' : List UInt8} (h : Solid tag) (h' : Solid tag')
    (hclash : tag.take tag'.length ≠ tag'.take tag.length) (l : List UInt8) :
    tagTrim (tag' ++ l) tag = (false, tag' ++ l) := by
  rw [tagTrim]
  simp only [h.ltrim_eq, (h'.append l).ltrim_eq]
  refine if_neg fun heq => ?_
  split_ifs at heq with hlen
  · have hboth := congrArg (List.take tag'.length) heq
    rw [List.take_take, min_comm, ← List.take_take, List.take_left] at hboth
    exact hclash hboth.symm
  · exact h.ne_nil heq.symm

theorem tagTrim_clash_self {tag tag' : List UInt8} (h : Solid tag) (h' : Solid tag')
    (hclash : tag.take tag'.length ≠ tag'.take tag.length) :
    tagTrim tag' tag = (false, tag') := by
  have htrim := tagTrim_clash h h' hclash []
  rwa [List.append_nil] at htrim

/-- Every attribute type but the first has a keyword of its own. -/
theorem attribMap_spec {a : Attrib} (h : a ≠ .none) :
    ∃ tag, attribMap a = some tag ∧ Solid tag ∧ tagDat.take tag.length ≠ tag.take tagDat.length ∧
      10 ∉ tag ∧ 0 ∉ tag ∧
      ∀ b ≠ a, ∀ tag', attribMap b = some tag' →
        Solid tag' ∧ tag'.take tag.length ≠ tag.take tag'.length := by
  have hother : ∀ a b : Attrib, b ≠ a → ∀ tag ∈ attribMap a, ∀ tag' ∈ attribMap b,
      Solid tag' ∧ tag'.take tag.length ≠ tag.take tag'.length := by
    intro a b hne
    cases a <;> cases b <;> first | exact absurd rfl hne | decide
  cases a with
  | none => exact absurd rfl h
  | _ =>
      refine ⟨_, rfl, by decide, by decide, by decide, by decide, ?_⟩
      exact fun b hb tag' htag' => hother _ b hb _ rfl tag' htag'

theorem dataTypeGet_dataTypeName (t : DataType) : dataTypeGet (dataTypeName t) = some t := by
  cases t <;> decide

/-! ### Values -/

open Variant

/-- The value that a text is read as. -/
def readValue (m : MemPools) (type : DataType) (value : List UInt8) : Value :=
  match type with
  | .int8 => .num .int8 (bits 8 (strToInt value))
  | .uint8 => .num .uint8 (strToUint value % 2 ^ 8)
  | .int16 => .num .int16 (bits 16 (strToInt value))
  | .uint16 => .num .uint16 (strToUint value % 2 ^ 16)
  | .int32 => .num .int32 (bits 32 (strToInt value))
  | .uint32 => .num .uint32 (strToUint value)
  | .int64 => .num .int64 (bits 64 (strToInt value))
  | .uint64 => .num .uint64 (strToUint value)
  | .float32 => .num .float32 (narrowFloat (strToFloat value) % 2 ^ 32)
  | .float64 => .num .float64 (strToFloat value % 2 ^ 64)
  | .bool => .bool (strToBool value)
  | .string => .text (cStr value)
  | .blob => .blob (hexDecode m value Buffer.empty).2.data
  | .none | .inert | .datumList => .none

theorem bits_lt (n : ℕ) (z : ℤ) : bits n z < 2 ^ n := by
  have hpos : (0 : ℤ) < 2 ^ n := by positivity
  have hlt := Int.emod_lt_of_pos z hpos
  have hnonneg := Int.emod_nonneg z hpos.ne'
  rw [bits]
  zify
  rwa [Int.toNat_of_nonneg hnonneg]

theorem strToUint_lt (value : List UInt8) : strToUint value < 2 ^ 32 :=
  Nat.mod_lt _ (by decide)

/-- **The variant holds the value that is read.** -/
theorem holds_variantExtract {m : MemPools} (hm : m.Plentiful) (le : Bool) (type : DataType)
    (value : List UInt8) :
    (variantExtract le m (Variant.construct m false) type value).2.Holds le
      (readValue m type value) := by
  have hvar := holds_construct hm le
  have hnum : ∀ {t : DataType} {w : ℕ} (n : ℕ), t.width = some w → n < 256 ^ w →
      (numSet le m w t (Variant.construct m false) n).Holds le (.num t n) := by
    intro t w n hw hn
    have hset := holds_numSet hm le hw hvar.not_inert n
    rwa [Nat.mod_eq_of_lt hn] at hset
  cases type with
  | int8 => exact hnum (t := .int8) _ rfl (bits_lt 8 _)
  | uint8 => exact hnum (t := .uint8) _ rfl (Nat.mod_lt _ (by decide))
  | int16 => exact hnum (t := .int16) _ rfl (bits_lt 16 _)
  | uint16 => exact hnum (t := .uint16) _ rfl (Nat.mod_lt _ (by decide))
  | int32 => exact hnum (t := .int32) _ rfl (bits_lt 32 _)
  | uint32 => exact hnum (t := .uint32) _ rfl (strToUint_lt value)
  | int64 => exact hnum (t := .int64) _ rfl (bits_lt 64 _)
  | uint64 => exact hnum (t := .uint64) _ rfl (Nat.lt_trans (strToUint_lt value) (by decide))
  | float32 => exact holds_numSet hm le (t := .float32) rfl hvar.not_inert _
  | float64 => exact holds_numSet hm le (t := .float64) rfl hvar.not_inert _
  | bool => exact holds_boolSet hm le hvar.not_inert _
  | string => exact holds_strSet hm le _ value
  | blob => exact holds_bufSet hm le _ _
  | none => exact hvar
  | inert => exact hvar
  | datumList => exact hvar

/-! ### Lines -/

/-- The octets in front of a line. -/
theorem mem_indentText {level : ℕ} {c : UInt8} (h : c ∈ indentText level) : c = 32 ∨ c = 0 := by
  rw [indentText] at h
  rcases List.mem_append.1 (List.mem_of_mem_take h) with h | h
  · exact .inl (List.eq_of_mem_replicate h)
  · exact .inr (List.mem_singleton.1 h)

/-- The blanks in front of a text are left out, and with them a terminator. -/
theorem ltrim_lineOf_indent (level : ℕ) {text : List UInt8} (h0 : 0 ∉ text) (hsolid : Solid text) :
    ltrim (lineOf (indentText level ++ text)) = text := by
  rw [lineOf_append, lineOf_of_notMem h0, ltrim_append, hsolid.ltrim_eq]
  intro c hc
  obtain ⟨hmem, hne⟩ := List.mem_filter.1 hc
  rcases mem_indentText hmem with rfl | rfl
  · decide
  · exact absurd hne (by decide)

theorem newLine_notMem_line (level : ℕ) {text : List UInt8} (hlf : 10 ∉ text) :
    10 ∉ indentText level ++ text := by
  intro hmem
  rcases List.mem_append.1 hmem with hmem | hmem
  · rcases mem_indentText hmem with h | h <;> exact absurd h (by decide)
  · exact hlf hmem

theorem lineText_append (level : ℕ) (text r : List UInt8) :
    lineText level text ++ r = (indentText level ++ text) ++ 10 :: r := by
  simp only [lineText, List.append_assoc, List.singleton_append]

variable {β : Type}

section Lines

variable [BlockStore β] [LawfulBlockStore β]

/-- **A line is read as its text.** -/
theorem lineGet_lineText {level : ℕ} {text r : List UInt8} (hlf : 10 ∉ text) (h0 : 0 ∉ text)
    (hsolid : Solid text) {s : StreamBase β} (h : s.HasRest (lineText level text ++ r)) :
    ∃ line s', lineGet s = some (true, line, s') ∧ ltrim line = text ∧ s'.HasRest r := by
  rw [lineText_append] at h
  obtain ⟨s', hs', hrest⟩ := h.readLine (newLine_notMem_line level hlf)
  exact ⟨_, s', hs', ltrim_lineOf_indent level h0 hsolid, hrest⟩

/-- **A pass takes a line that is not blank.** -/
theorem decodeStep_lineText (le : Bool) (m : MemPools) (tags : TagOrder) {level : ℕ}
    {text r : List UInt8} (hlf : 10 ∉ text) (h0 : 0 ∉ text) (hsolid : Solid text)
    {st : DecodeState β} (h : st.stream.HasRest (lineText level text ++ r)) :
    ∃ s', s'.HasRest r ∧ decodeStep le m tags st =
      decodeLine le m tags text
        ⟨({ st.toDecodeState with stream := s' } : SerDesNative.DecodeState β), st.type⟩ := by
  obtain ⟨line, s', hs', hline, hrest⟩ := lineGet_lineText hlf h0 hsolid h
  refine ⟨s', hrest, ?_⟩
  rw [decodeStep, hs', Option.bind_some]
  simp only [Bool.not_true, Bool.false_eq_true, if_false, hline, if_neg hsolid.ne_nil]

end Lines

variable (le : Bool) (m : MemPools) (tags : TagOrder) (st : DecodeState β)

/-- The first line of a datum. -/
theorem decodeLine_begin (type : DataType) :
    decodeLine le m tags (tagDat ++ (tagBegin ++ dataTypeName type)) st =
      some (.more, ⟨SerDesNative.decodeDat le m st.toDecodeState, type⟩) := by
  have hdat := tagTrim_append solid_tagDat (tagBegin ++ dataTypeName type)
  have hbegin := tagTrim_append solid_tagBegin (dataTypeName type)
  rw [decodeLine, decodeDatLine]
  simp only [hdat, hbegin, if_true, dataTypeGet_dataTypeName, Option.map_some]

/-- The last line of a datum. -/
theorem decodeLine_end :
    decodeLine le m tags (tagDat ++ tagEnd) st =
      some (.more, ⟨SerDesNative.decodeDatEnd st.toDecodeState, st.type⟩) := by
  have hdat := tagTrim_append solid_tagDat tagEnd
  have hbegin := tagTrim_clash_self solid_tagBegin solid_tagEnd (by decide)
  have hend := tagTrim_self solid_tagEnd
  rw [decodeLine, decodeDatLine]
  simp only [hdat, hbegin, hend, if_true, Bool.false_eq_true, if_false, Option.map_some]

/-- The loop over the tag map finds the attribute, wherever it stands in the map. -/
theorem decodeAttribLine_append {a : Attrib} {tag : List UInt8} (htag : attribMap a = some tag)
    (hsolid : Solid tag)
    (hother : ∀ b ≠ a, ∀ tag', attribMap b = some tag' →
      Solid tag' ∧ tag'.take tag.length ≠ tag.take tag'.length)
    {value : List UInt8} {var : Variant}
    (hvar : variantExtract le m (Variant.construct m false) (attributeType a st.type) value =
      (true, var)) {as : List Attrib} (has : ∀ b ∈ as, (attribMap b).isSome) (ha : a ∈ as) :
    decodeAttribLine le m as (tag ++ value) st =
      (true, value, ⟨st.modifyRef st.pDat fun d => d.attrSet m a var, st.type⟩) := by
  induction as with
  | nil => cases ha
  | cons b as ih =>
      rw [decodeAttribLine]
      by_cases hb : b = a
      · subst hb
        have htrim := tagTrim_append hsolid value
        simp only [htag, Option.getD_some, htrim, if_true, hvar]
      · obtain ⟨tag', htag'⟩ := Option.isSome_iff_exists.1 (has b List.mem_cons_self)
        obtain ⟨hsolid', hclash⟩ := hother b hb tag' htag'
        have htrim := tagTrim_clash hsolid' hsolid hclash value
        have hmem := (List.mem_cons.1 ha).resolve_left (Ne.symm hb)
        simp only [htag', Option.getD_some, htrim, Bool.false_eq_true, if_false]
        exact ih (fun c hc => has c (List.mem_cons_of_mem b hc)) hmem

/-- **An attribute** is set on the current datum. -/
theorem decodeLine_attrib {a : Attrib} {tag : List UInt8} (ha : a ≠ .none)
    (htag : attribMap a = some tag) {value : List UInt8} {var : Variant}
    (hvar : variantExtract le m (Variant.construct m false) (attributeType a st.type) value =
      (true, var)) :
    decodeLine le m tags (tag ++ value) st =
      some (.more, ⟨st.modifyRef st.pDat fun d => d.attrSet m a var, st.type⟩) := by
  obtain ⟨tag', htag', hsolid, hdat, -, -, hother⟩ := attribMap_spec ha
  obtain rfl := Option.some.inj (htag.symm.trans htag')
  have horder : ∀ b, b ∈ tags.order ↔ (attribMap b).isSome := by
    intro b
    rw [tags.perm.mem_iff, List.mem_filter, and_iff_right b.mem_all]
  have hclash := tagTrim_clash solid_tagDat hsolid hdat value
  have hattrib := decodeAttribLine_append le m st htag hsolid hother hvar
    (fun b hb => (horder b).1 hb) ((horder a).2 (by rw [htag]; rfl))
  rw [decodeLine, decodeDatLine]
  simp only [hclash, Bool.false_eq_true, if_false, Option.map_some, hattrib, if_true]

/-- The loop over the tag map finds no attribute in another line. -/
theorem decodeAttribLine_clash {line : List UInt8} {as : List Attrib}
    (has : ∀ a ∈ as, tagTrim line ((attribMap a).getD []) = (false, line)) :
    decodeAttribLine le m as line st = (false, line, st) := by
  induction as with
  | nil => rfl
  | cons a as ih =>
      rw [decodeAttribLine]
      simp only [has a List.mem_cons_self, Bool.false_eq_true, if_false]
      exact ih fun b hb => has b (List.mem_cons_of_mem a hb)

/-- The last line of a package. -/
theorem decodeLine_pkgEnd :
    decodeLine le m tags (tagPkg ++ tagEnd) st = some (.exit, st) := by
  have hdat := tagTrim_clash solid_tagDat solid_tagPkg (by decide) tagEnd
  have hpkg := tagTrim_append solid_tagPkg tagEnd
  have hend := tagTrim_self solid_tagEnd
  have hclash : ∀ a ∈ tags.order,
      tagTrim (tagPkg ++ tagEnd) ((attribMap a).getD []) = (false, tagPkg ++ tagEnd) := by
    intro a ha
    have hsome := (List.mem_filter.1 (tags.perm.subset ha)).2
    cases a with
    | none => cases hsome
    | _ => decide
  have hattrib := decodeAttribLine_clash le m st hclash
  rw [decodeLine, decodeDatLine]
  simp only [hdat, Bool.false_eq_true, if_false, Option.map_some, hattrib, decodePkgLine, hpkg,
    if_true, hend]

end SerDesIdl

/-! ### What is never decoded -/

namespace Datum

mutual

/-- All values of the datum and its sub-data satisfy the predicate. -/
def Holding (le : Bool) (Q : Value → Prop) : Datum → Prop
  | ⟨_, _, attribs, _, datums⟩ =>
      (∀ a v, attribs a = some v → ∃ x, v.Holds le x ∧ Q x) ∧ AllHolding le Q datums

/-- Lists of such data. -/
def AllHolding (le : Bool) (Q : Value → Prop) : List Datum → Prop
  | [] => True
  | d :: ds => d.Holding le Q ∧ AllHolding le Q ds

end

variable {le : Bool} {m : MemPools} {Q : Value → Prop}

theorem holding_iff (d : Datum) : d.Holding le Q ↔
    (∀ a v, d.attribs a = some v → ∃ x, v.Holds le x ∧ Q x) ∧ AllHolding le Q d.datums := by
  cases d
  exact Iff.rfl

theorem allHolding_iff (ds : List Datum) : AllHolding le Q ds ↔ ∀ d ∈ ds, d.Holding le Q := by
  induction ds with
  | nil => exact iff_of_true trivial fun d hd => nomatch hd
  | cons d ds ih => rw [AllHolding, ih, List.forall_mem_cons]

theorem holding_fresh : fresh.Holding le Q := ⟨fun _ _ hv => (nomatch hv), trivial⟩

/-- What is changed through a reference. -/
theorem Holding.modifyAt {f : Datum → Datum} (hf : ∀ x, x.Holding le Q → (f x).Holding le Q)
    (p : List ℕ) {d : Datum} (h : d.Holding le Q) : (d.modifyAt f p).Holding le Q := by
  induction p generalizing d with
  | nil => exact hf d h
  | cons i p ih =>
      obtain ⟨hattribs, hdatums⟩ := (holding_iff d).1 h
      refine (holding_iff _).2 ⟨hattribs, (allHolding_iff _).2 fun c hc => ?_⟩
      obtain ⟨j, hj⟩ := List.getElem?_of_mem hc
      change (d.datums.modify i _)[j]? = _ at hj
      rw [List.getElem?_modify, Option.map_eq_map, Option.map_eq_some_iff] at hj
      obtain ⟨x, hx, rfl⟩ := hj
      have hxs := (allHolding_iff _).1 hdatums x (List.mem_of_getElem? hx)
      split_ifs
      · exact ih hxs
      · exact hxs

/-- An attribute that is set. -/
theorem Holding.attrSet (hm : m.Plentiful) {a : Attrib} {var : Variant} {y : Value}
    (hvar : var.Holds le y) (hy : Q y) {d : Datum} (h : d.Holding le Q) :
    (d.attrSet m a var).Holding le Q := by
  rw [Datum.attrSet]
  split_ifs with hinert
  · exact h
  obtain ⟨hattribs, hdatums⟩ := (holding_iff d).1 h
  have hold : ((d.attribs a).getD (Variant.construct m false)).type ≠ .inert := by
    cases ha : d.attribs a with
    | none => exact (Variant.holds_construct hm le).not_inert
    | some v =>
        obtain ⟨x, hx, -⟩ := hattribs a v ha
        exact hx.not_inert
  refine (holding_iff _).2 ⟨fun b v hv => ?_, hdatums⟩
  change Function.update d.attribs a _ b = some v at hv
  by_cases hb : b = a
  · rw [hb, Function.update_self] at hv
    obtain rfl := Option.some.inj hv
    exact ⟨y, hvar.assign hm hold, hy⟩
  · rw [Function.update_of_ne hb] at hv
    exact hattribs b v hv

/-- A sub-datum that is added. -/
theorem Holding.add_nil {d : Datum} (h : d.Holding le Q) : (d.add le m []).Holding le Q := by
  cases hact : d.isInert with
  | true =>
      have hadd : d.add le m [] = d := by rw [add, addDatum, if_pos hact]
      rwa [hadd]
  | false =>
      obtain ⟨hattribs, hdatums⟩ := (holding_iff d).1 h
      rw [Datum.add_nil le m hact]
      refine (holding_iff _).2 ⟨hattribs, (allHolding_iff _).2 fun c hc => ?_⟩
      rcases List.mem_append.1 hc with hc | hc
      · exact (allHolding_iff _).1 hdatums c hc
      · rw [List.mem_singleton.1 hc]
        exact holding_fresh

end Datum

namespace SerDesIdl

open Datum

/-- No text has the end of a line in it. -/
def OneLine : Value → Prop
  | .text s => 10 ∉ s
  | _ => True

theorem suffix_ltrim (l : List UInt8) : ltrim l <:+ l := List.dropWhile_suffix _

theorem suffix_tagTrim (line tag : List UInt8) : (tagTrim line tag).2 <:+ line := by
  have htrim : ∀ l, l <:+ ltrim line → l <:+ line := fun l hl => hl.trans (suffix_ltrim line)
  rw [tagTrim]
  split_ifs
  · exact htrim _ (List.drop_suffix _ _)
  · exact htrim _ (List.suffix_refl _)
  · exact htrim _ (List.drop_suffix _ _)
  · exact htrim _ (List.suffix_refl _)

/-- What is read from a line has one line. -/
theorem oneLine_readValue (m : MemPools) (type : DataType) {value : List UInt8} (h : 10 ∉ value) :
    OneLine (readValue m type value) := by
  cases type with
  | string => exact fun hmem => h ((List.takeWhile_prefix _).subset hmem)
  | _ => trivial

variable {le : Bool} {m : MemPools} {β : Type}

theorem holding_modifyRef {Q : Value → Prop} {f : Datum → Datum}
    (hf : ∀ x, x.Holding le Q → (f x).Holding le Q) (r : DatumRef)
    {st : SerDesNative.DecodeState β} (h : st.root.Holding le Q) :
    (st.modifyRef r f).root.Holding le Q := by
  cases r with
  | none => exact h
  | some p => exact h.modifyAt hf p

/-- A line with `Datum Begin` or `Datum End`. -/
theorem holding_decodeDatLine {line : List UInt8} {st : DecodeState β}
    {r : Bool × List UInt8 × DecodeState β} (hrun : decodeDatLine le m line st = some r)
    (hline : 10 ∉ line) (h : st.root.Holding le OneLine) :
    10 ∉ r.2.1 ∧ r.2.2.root.Holding le OneLine := by
  have hdat := suffix_tagTrim line tagDat
  have hbegin := (suffix_tagTrim _ tagBegin).trans hdat
  have hend := (suffix_tagTrim _ tagEnd).trans hbegin
  rw [decodeDatLine] at hrun
  dsimp only at hrun
  split_ifs at hrun
  · obtain ⟨type, -, rfl⟩ := Option.map_eq_some_iff.1 hrun
    refine ⟨fun hmem => hline (hbegin.subset hmem), ?_⟩
    change (SerDesNative.decodeDat le m st.toDecodeState).root.Holding le OneLine
    rw [SerDesNative.decodeDat]
    split_ifs
    · exact h
    · exact holding_modifyRef (fun x hx => hx.add_nil) st.pDat h
  · obtain rfl := Option.some.inj hrun
    refine ⟨fun hmem => hline (hend.subset hmem), ?_⟩
    change (SerDesNative.decodeDatEnd st.toDecodeState).root.Holding le OneLine
    rw [SerDesNative.decodeDatEnd]
    split <;> exact h
  · obtain rfl := Option.some.inj hrun
    exact ⟨fun hmem => hline (hend.subset hmem), h⟩
  · obtain rfl := Option.some.inj hrun
    exact ⟨fun hmem => hline (hdat.subset hmem), h⟩

/-- A line with an attribute. -/
theorem holding_decodeAttribLine (hm : m.Plentiful) (as : List Attrib) {line : List UInt8}
    {st : DecodeState β} (hline : 10 ∉ line) (h : st.root.Holding le OneLine) :
    (decodeAttribLine le m as line st).2.2.root.Holding le OneLine := by
  induction as generalizing line st with
  | nil => exact h
  | cons a as ih =>
      have hnext : 10 ∉ (tagTrim line ((attribMap a).getD [])).2 := fun hmem =>
        hline ((suffix_tagTrim _ _).subset hmem)
      have hset := holding_modifyRef (fun x hx => hx.attrSet (a := a) hm
        (holds_variantExtract hm le (attributeType a st.type) _)
        (oneLine_readValue m (attributeType a st.type) hnext)) st.pDat h
      rw [decodeAttribLine]
      dsimp only
      split_ifs
      · exact hset
      · exact ih hnext hset
      · exact ih hnext h

variable [BlockStore β] {tags : TagOrder}

/-- A pass through the loop. -/
theorem holding_decodeStep (hm : m.Plentiful) {st : DecodeState β}
    {r : SerDesNative.Verdict × DecodeState β} (hrun : decodeStep le m tags st = some r)
    (h : st.root.Holding le OneLine) : r.2.root.Holding le OneLine := by
  obtain ⟨⟨ok, line, s⟩, hget, hrun⟩ := Option.bind_eq_some_iff.1 hrun
  have hline : 10 ∉ ltrim line := fun hmem =>
    StreamBase.notMem_readLine hget ((suffix_ltrim line).subset hmem)
  dsimp only at hrun
  split_ifs at hrun
  · obtain rfl := Option.some.inj hrun
    exact h
  · obtain rfl := Option.some.inj hrun
    exact h
  · obtain ⟨dat, hdat, rfl⟩ := Option.map_eq_some_iff.1 hrun
    obtain ⟨hrest, hroot⟩ := holding_decodeDatLine hdat hline h
    have hattrib := holding_decodeAttribLine hm tags.order hrest hroot
    dsimp only
    split_ifs
    · exact hroot
    · exact hattrib
    · exact hattrib
    · exact hattrib
    · exact hattrib

/-- A run of the loop. -/
theorem holding_decodeLoop (hm : m.Plentiful) {st : DecodeState β} {r : Bool × DecodeState β}
    (hrun : st.decodeLoop le m tags = some r) (h : st.root.Holding le OneLine) :
    r.2.root.Holding le OneLine := by
  refine DecodeState.decodeLoop.partial_correctness le m tags
    (fun st r => st.root.Holding le OneLine → r.2.root.Holding le OneLine) ?_ st r hrun h
  intro loop ih st r hrun h
  obtain ⟨⟨v, st'⟩, hstep, hrun⟩ := Option.bind_eq_some_iff.1 hrun
  have h' := holding_decodeStep hm hstep h
  cases v with
  | more => exact ih st' r hrun h'
  | exit =>
      obtain rfl := Option.some.inj hrun
      exact h'
  | fail =>
      obtain rfl := Option.some.inj hrun
      exact h'

/-- **No text of a decoded datum has the end of a line in it**, whatever the stream holds. -/
theorem holding_decodeIdl (hm : m.Plentiful) {dst dst' : Datum} (hact : dst.isInert = false)
    (hname : dst.nameGet le m = []) {check : Bool} {t t' : StreamBase β}
    (hrun : dst.decodeIdl le m tags check t = some (true, dst', t')) :
    dst'.Holding le OneLine := by
  rw [decodeIdl, if_neg (by simp [hact]), decode, clear_of_nameless hact hname] at hrun
  obtain ⟨⟨rv₁, s₁⟩, -, hrun⟩ := Option.bind_eq_some_iff.1 hrun
  cases rv₁ with
  | false => simp at hrun
  | true =>
      obtain ⟨⟨rv₂, s₂⟩, -, hrun⟩ := Option.bind_eq_some_iff.1 hrun
      cases rv₂ with
      | false => simp at hrun
      | true =>
          obtain ⟨⟨rv₃, d₃, s₃⟩, helement, hrun⟩ := Option.bind_eq_some_iff.1 hrun
          -- the datum that is returned is the datum that the elements are decoded into
          obtain rfl : d₃ = dst' := by
            cases rv₃ <;> cases check <;> simp [Option.bind_eq_some_iff] at hrun <;> grind
          obtain ⟨⟨rv, st⟩, hloop, heq⟩ := Option.map_eq_some_iff.1 helement
          obtain ⟨-, rfl, -⟩ : rv = rv₃ ∧ st.root = d₃ ∧ st.stream = s₃ := by simpa using heq
          exact holding_decodeLoop hm hloop holding_fresh

end SerDesIdl

end CodePort
