/-
What the IDL serializer writes.

The text of a datum is a function of its values and of its depth.  The encoder appends exactly this
text to the stream, as long as the depth leaves room for the blanks of an indentation: they come from
a string of limited length, and beyond it the encoder reads outside of the string.

Main definitions:

* `CodePort.SerDesIdl.valueText`, `attribText`, `datumText`, `packageText` — the text of a value, an
  attribute, a datum, a package;
* `CodePort.Datum.Printable` — the data whose attributes have a tag and a value;
* `CodePort.Datum.Fits` — the indentation of every line of a datum is there;
* `CodePort.SerDesIdl.Writes`, `Overruns` — a function appends the given text to every stream, or
  reads outside of a string.

Main results:

* `CodePort.SerDesIdl.writes_valueInsert` — every value is written as its text;
* `CodePort.Datum.encodeIdlDatum_spec`, `encodeIdlDatum_overruns` — **so is every datum that fits, and
  no other**, by induction on the tree;
* `CodePort.Datum.encodeIdl_spec`, `encodeIdl_overruns` — the whole package.
-/

import CodePort.NativeEncode
import CodePort.SerDesIdl

set_option relaxedAutoImplicit false
set_option autoImplicit false

namespace CodePort

namespace SerDesIdl

/-! ### The text of a datum -/

/-- The blanks in front of a line.  The last of the deepest level is the terminator. -/
def indentText (level : ℕ) : List UInt8 :=
  (genStr (indentSize * level) 32 ++ [0]).take (indentSize * level)

/-- The deepest level that there are blanks for. -/
def maxLevel : ℕ := 16384

/-- A value. -/
def valueText : Value → List UInt8
  | .num .int8 n => intToStr (Variant.signExtend 1 n)
  | .num .int16 n => intToStr (Variant.signExtend 2 n)
  | .num .int32 n => intToStr n
  | .num .uint64 n => uint64ToStr n
  | .num .int64 n => int64ToStr n
  | .num .float32 n => (floatVal32 n).fixedText floatDigits
  | .num .float64 n => (floatVal64 n).fixedText doubleDigits
  | .num _ n => uintToStr n
  | .bool b => if b then ascii "true" else ascii "false"
  | .text s => s
  | .blob d => d.flatMap fun ch => hexOctet ch ++ [32]
  | .none => []
  | .void _ => []

/-- A line. -/
def lineText (level : ℕ) (text : List UInt8) : List UInt8 := indentText level ++ (text ++ [10])

/-- An attribute. -/
def attribText (le : Bool) (level : ℕ) (a : Attrib) (v : Variant) : List UInt8 :=
  lineText level ((attribMap a).getD [] ++ valueText (v.value le))

/-- The attributes of a datum, of the given kinds. -/
def attribsText (le : Bool) (level : ℕ) (dat : Datum) (as : List Attrib) : List UInt8 :=
  as.flatMap fun a => (dat.attribs a).elim [] (attribText le level a)

/-- The first line of a datum. -/
def beginText (level : ℕ) (type : DataType) : List UInt8 :=
  lineText level (tagDat ++ (tagBegin ++ dataTypeName type))

/-- The last line of a datum. -/
def endText (level : ℕ) : List UInt8 := lineText level (tagDat ++ tagEnd)

mutual

/-- A datum. -/
def datumText (le : Bool) : ℕ → Datum → List UInt8
  | level, ⟨isInert, self, attribs, iterData, datums⟩ =>
      beginText level (Datum.attr ⟨isInert, self, attribs, iterData, datums⟩ .val).type ++
        (attribsText le (level + 1) ⟨isInert, self, attribs, iterData, datums⟩ Attrib.all ++
          (datumsText le (level + 1) datums ++ endText level))

/-- A list of data. -/
def datumsText (le : Bool) : ℕ → List Datum → List UInt8
  | _, [] => []
  | level, d :: ds => datumText le level d ++ datumsText le level ds

end

/-- A package, by a serializer in the given state. -/
def packageText (le : Bool) (ser : SerDesIdl) (dat : Datum) : List UInt8 :=
  (if ser.newLine then indentText ser.indentLevel else []) ++ (tagHdr ++ [10] ++
    (lineText ser.indentLevel (tagPkg ++ (tagBegin ++ (tagVer ++ uintToStr Datum.datumVersion.toNat)))
      ++ (datumText le (ser.indentLevel + 1) dat ++ lineText ser.indentLevel (tagPkg ++ tagEnd))))

end SerDesIdl

open SerDesIdl

/-! ### Data that can be written -/

namespace Datum

mutual

/-- The data whose attributes have a tag and a value. -/
def Printable : Datum → Prop
  | ⟨_, _, attribs, _, datums⟩ =>
      attribs .none = none ∧
        (∀ a v, attribs a = some v → v.type ≠ .inert ∧ v.type ≠ .datumList) ∧ AllPrintable datums

/-- Lists of such data. -/
def AllPrintable : List Datum → Prop
  | [] => True
  | d :: ds => d.Printable ∧ AllPrintable ds

end

mutual

/-- The blanks for every line of the datum, which stands at a level, are there. -/
def Fits : Datum → ℕ → Prop
  | ⟨_, _, attribs, _, datums⟩, level =>
      level ≤ maxLevel ∧ ((∃ a, (attribs a).isSome) → level + 1 ≤ maxLevel) ∧
        AllFit datums (level + 1)

/-- Lists of such data. -/
def AllFit : List Datum → ℕ → Prop
  | [], _ => True
  | d :: ds, level => d.Fits level ∧ AllFit ds level

end

end Datum

/-! ### Appending -/

variable {β : Type} [BlockStore β] [LawfulBlockStore β]

namespace SerDesIdl

/-- The function appends `d` to every stream that stands at its end and takes the serializer from
one state to the other. -/
def Writes (g : TextInsert β) (ser ser' : SerDesIdl) (d : List UInt8) : Prop :=
  ∀ ⦃s c⦄, StreamBase.Ends s c →
    ∃ s', g ser s = some (true, ser', s') ∧ StreamBase.Ends s' (c ++ d)

/-- The function reads outside of a string. -/
def Overruns (g : TextInsert β) (ser : SerDesIdl) : Prop :=
  ∀ ⦃s c⦄, StreamBase.Ends s c → g ser s = none

variable {f g : TextInsert β} {ser ser' ser'' : SerDesIdl} {d e : List UInt8}

theorem writes_done (ser : SerDesIdl) : Writes (.done true : TextInsert β) ser ser [] := by
  intro s c h
  exact ⟨s, rfl, by rwa [List.append_nil]⟩

theorem Writes.both (hf : Writes f ser ser' d) (hg : Writes g ser' ser'' e) :
    Writes (f.both g) ser ser'' (d ++ e) := by
  intro s c h
  obtain ⟨s₁, hs₁, h₁⟩ := hf h
  obtain ⟨s₂, hs₂, h₂⟩ := hg h₁
  refine ⟨s₂, ?_, by rwa [← List.append_assoc]⟩
  rw [TextInsert.both, hs₁, Option.bind_some, if_pos rfl, hs₂]

theorem Overruns.both (hf : Overruns f ser) (g : TextInsert β) : Overruns (f.both g) ser := by
  intro s c h
  rw [TextInsert.both, hf h, Option.bind_none]

theorem Writes.both_overruns (hf : Writes f ser ser' d) (hg : Overruns g ser') :
    Overruns (f.both g) ser := by
  intro s c h
  obtain ⟨s₁, hs₁, h₁⟩ := hf h
  rw [TextInsert.both, hs₁, Option.bind_some, if_pos rfl, hg h₁]

/-- How many blanks there are. -/
theorem indent_le_iff (level : ℕ) :
    indentSize * level ≤ (genStr (indentSize * level) 32 ++ [0]).length ↔ level ≤ maxLevel := by
  rw [List.length_append, genStr, List.length_replicate, List.length_singleton, indentSize, maxLevel]
  omega

theorem writes_indentInsert {level : ℕ} (nl : Bool) (h : level ≤ maxLevel) :
    Writes (indentInsert : TextInsert β) ⟨nl, level⟩ ⟨false, level⟩ (indentText level) := by
  intro s c hs
  have hle := (indent_le_iff level).2 h
  have hlength : (indentText level).length = indentSize * level := by
    rw [indentText, List.length_take]
    exact min_eq_left hle
  obtain ⟨s', hrun, h'⟩ := SerDesNative.ends_arrayWr hs (indentText level)
  refine ⟨s', ?_, h'⟩
  rw [hlength] at hrun
  simp only [indentInsert, if_pos hle]
  rw [← indentText, hrun]
  simp

theorem overruns_indentInsert {level : ℕ} (nl : Bool) (h : ¬ level ≤ maxLevel) :
    Overruns (indentInsert : TextInsert β) ⟨nl, level⟩ := by
  intro s c hs
  exact if_neg fun hle => h ((indent_le_iff level).1 hle)

theorem writes_octetsInsert (ser : SerDesIdl) (str : List UInt8) :
    Writes (octetsInsert str : TextInsert β) ser ser str := by
  intro s c h
  obtain ⟨s', hrun, h'⟩ := SerDesNative.ends_arrayWr h str
  exact ⟨s', by simp [octetsInsert, hrun], h'⟩

/-- A string inside a line. -/
theorem writes_stringInsert (level : ℕ) (str : List UInt8) :
    Writes (stringInsert str : TextInsert β) ⟨false, level⟩ ⟨false, level⟩ str :=
  writes_octetsInsert _ str

/-- A string at the start of a line. -/
theorem writes_stringInsert_newLine {level : ℕ} (h : level ≤ maxLevel) (str : List UInt8) :
    Writes (stringInsert str : TextInsert β) ⟨true, level⟩ ⟨false, level⟩
      (indentText level ++ str) :=
  (writes_indentInsert true h).both (writes_octetsInsert _ str)

theorem overruns_stringInsert {level : ℕ} (h : ¬ level ≤ maxLevel) (str : List UInt8) :
    Overruns (stringInsert str : TextInsert β) ⟨true, level⟩ :=
  (overruns_indentInsert true h).both _

theorem writes_newLineInsert (level : ℕ) :
    Writes (newLineInsert : TextInsert β) ⟨false, level⟩ ⟨true, level⟩ [10] := by
  intro s c h
  obtain ⟨s', hrun, h'⟩ := writes_stringInsert level tagLineEnd h
  exact ⟨s', by rw [newLineInsert, hrun]; rfl, h'⟩

theorem writes_blobInsert (level : ℕ) (buf : Buffer) :
    Writes (blobInsert buf : TextInsert β) ⟨false, level⟩ ⟨false, level⟩
      (buf.data.flatMap fun ch => hexOctet ch ++ [32]) := by
  rw [blobInsert]
  induction buf.data with
  | nil => exact writes_done _
  | cons ch l ih => exact (writes_stringInsert level _).both ih

/-- **Every value is written as its text.** -/
theorem writes_valueInsert (le : Bool) (m : MemPools) (level : ℕ) {v : Variant}
    (hinert : v.type ≠ .inert) (hlist : v.type ≠ .datumList) :
    Writes (valueInsert le m v : TextInsert β) ⟨false, level⟩ ⟨false, level⟩
      (valueText (v.value le)) := by
  obtain ⟨type, buf⟩ := v
  have hnum := fun w => SerDesNative.numAt_mod le ⟨type, buf⟩ w
  cases type with
  | uint8 =>
      simp only [valueInsert, Variant.uint8Get, Variant.uint64Get, hnum 1]
      exact writes_stringInsert level _
  | int8 =>
      simp only [valueInsert, Variant.int8Get, Variant.uint64Get, hnum 1]
      exact writes_stringInsert level _
  | uint16 =>
      simp only [valueInsert, Variant.uint16Get, Variant.uint64Get, hnum 2]
      exact writes_stringInsert level _
  | int16 =>
      simp only [valueInsert, Variant.int16Get, Variant.uint64Get, hnum 2]
      exact writes_stringInsert level _
  | uint32 =>
      simp only [valueInsert, Variant.uint32Get, Variant.uint64Get, hnum 4]
      exact writes_stringInsert level _
  | int32 =>
      simp only [valueInsert, Variant.int32Get, Variant.uint64Get, hnum 4]
      exact writes_stringInsert level _
  | uint64 => exact writes_stringInsert level _
  | int64 => exact writes_stringInsert level _
  | float32 => exact writes_stringInsert level _
  | float64 => exact writes_stringInsert level _
  | bool =>
      simp only [valueInsert, Variant.boolGet, Variant.value, valueText]
      exact writes_stringInsert level _
  | string => exact writes_stringInsert level _
  | blob => exact writes_blobInsert level buf
  | none => exact writes_done _
  | inert => exact absurd rfl hinert
  | datumList => exact absurd rfl hlist

theorem writes_attrib (le : Bool) (m : MemPools) {level : ℕ} (hlevel : level ≤ maxLevel)
    {a : Attrib} {tag : List UInt8} (htag : attribMap a = some tag) {v : Variant}
    (hv : v.type ≠ .inert ∧ v.type ≠ .datumList) {k : TextInsert β} {d : List UInt8}
    {ser : SerDesIdl} (hk : Writes k ⟨true, level⟩ ser d) :
    Writes ((stringInsert tag).both ((valueInsert le m v).both (newLineInsert.both k)))
      ⟨true, level⟩ ser (attribText le level a v ++ d) := by
  have hall := (writes_stringInsert_newLine hlevel tag).both
    ((writes_valueInsert le m level hv.1 hv.2).both ((writes_newLineInsert level).both hk))
  simpa only [attribText, lineText, htag, Option.getD_some, List.append_assoc] using hall

/-- The attributes of a datum at a level that there are blanks for. -/
theorem writes_attribsInsert (le : Bool) (m : MemPools) {dat : Datum}
    (hnone : dat.attribs .none = none)
    (hdat : ∀ a v, dat.attribs a = some v → v.type ≠ .inert ∧ v.type ≠ .datumList) {level : ℕ}
    (hlevel : (∃ a, (dat.attribs a).isSome) → level ≤ maxLevel) (as : List Attrib) :
    Writes (attribsInsert le m dat as : TextInsert β) ⟨true, level⟩ ⟨true, level⟩
      (attribsText le level dat as) := by
  induction as with
  | nil => exact writes_done _
  | cons a as ih =>
      rw [attribsInsert, List.foldr_cons, ← attribsInsert, attribsText, List.flatMap_cons,
        ← attribsText]
      cases ha : dat.attribs a with
      | none => exact ih
      | some v =>
          obtain ⟨tag, htag⟩ : ∃ tag, attribMap a = some tag := by
            cases a with
            | none =>
                rw [hnone] at ha
                cases ha
            | _ => exact ⟨_, rfl⟩
          simp only [htag]
          exact writes_attrib le m (hlevel ⟨a, by rw [ha]; rfl⟩) htag (hdat a v ha) ih

/-- The attributes of a datum that there are no blanks for. -/
theorem overruns_attribsInsert (le : Bool) (m : MemPools) {dat : Datum} {level : ℕ}
    (hlevel : ¬ level ≤ maxLevel) {as : List Attrib} (has : ∃ a ∈ as, (dat.attribs a).isSome) :
    Overruns (attribsInsert le m dat as : TextInsert β) ⟨true, level⟩ := by
  induction as with
  | nil =>
      obtain ⟨a, ha, -⟩ := has
      cases ha
  | cons a as ih =>
      rw [attribsInsert, List.foldr_cons, ← attribsInsert]
      cases ha : dat.attribs a with
      | none =>
          obtain ⟨b, hb, hsome⟩ := has
          rcases List.mem_cons.1 hb with rfl | hb
          · rw [ha] at hsome
            cases hsome
          · exact ih ⟨b, hb, hsome⟩
      | some v =>
          cases htag : attribMap a with
          | none => exact fun s c _ => rfl
          | some tag => exact (overruns_stringInsert hlevel tag).both _

theorem writes_openTagInsert {level : ℕ} (h : level ≤ maxLevel) (tagName : List UInt8) :
    Writes (openTagInsert tagName true : TextInsert β) ⟨true, level⟩ ⟨false, level + 1⟩
      (indentText level ++ (tagName ++ tagBegin)) := by
  intro s c hs
  have hall := (writes_stringInsert_newLine (β := β) h tagName).both
    ((writes_stringInsert level tagBegin).both (writes_done _))
  obtain ⟨s', hrun, h'⟩ := hall hs
  refine ⟨s', ?_, by simpa using h'⟩
  simp only [openTagInsert, if_true, hrun]
  rfl

theorem overruns_openTagInsert {level : ℕ} (h : ¬ level ≤ maxLevel) (tagName : List UInt8)
    (attr : Bool) : Overruns (openTagInsert tagName attr : TextInsert β) ⟨true, level⟩ := by
  intro s c hs
  have hrun := (overruns_stringInsert h tagName).both
    ((stringInsert tagBegin).both (if attr then .done true else newLineInsert)) hs
  rw [openTagInsert, hrun]
  rfl

/-- The last line of a datum or a package. -/
theorem writes_closeTagInsert {level : ℕ} (h : level ≤ maxLevel) (tagName : List UInt8) :
    Writes ((closeTagInsert tagName).both newLineInsert : TextInsert β) ⟨true, level + 1⟩
      ⟨true, level⟩ (lineText level (tagName ++ tagEnd)) := by
  have hclose : Writes (closeTagInsert tagName : TextInsert β) ⟨true, level + 1⟩ ⟨false, level⟩
      (indentText level ++ (tagName ++ tagEnd)) := by
    intro s c hs
    obtain ⟨s', hrun, h'⟩ := ((writes_stringInsert_newLine (β := β) h tagName).both
      (writes_stringInsert level tagEnd)) hs
    exact ⟨s', hrun, by simpa only [List.append_assoc] using h'⟩
  have hall := hclose.both (writes_newLineInsert level)
  simpa only [lineText, List.append_assoc] using hall

/-- The first line of a datum, whatever follows. -/
theorem writes_begin {level : ℕ} (h : level ≤ maxLevel) (type : DataType) :
    Writes ((openTagInsert tagDat true).both ((stringInsert (dataTypeName type)).both newLineInsert) :
      TextInsert β) ⟨true, level⟩ ⟨true, level + 1⟩ (beginText level type) := by
  have hall := (writes_openTagInsert (β := β) h tagDat).both
    ((writes_stringInsert (level + 1) (dataTypeName type)).both (writes_newLineInsert (level + 1)))
  simpa only [beginText, lineText, List.append_assoc] using hall

omit [BlockStore β] [LawfulBlockStore β] in
theorem both_assoc (f g h : TextInsert β) : f.both (g.both h) = (f.both g).both h := by
  funext ser s
  simp only [TextInsert.both]
  cases f ser s with
  | none => rfl
  | some r =>
      obtain ⟨rv, ser', s'⟩ := r
      cases rv <;> rfl

omit [LawfulBlockStore β] in
theorem start_eq (le : Bool) (m : MemPools) (dat : Datum) :
    (start le m dat : TextInsert β) =
      ((openTagInsert tagDat true).both ((stringInsert (dataTypeName (dat.attr .val).type)).both
        newLineInsert)).both (attribsInsert le m dat Attrib.all) := by
  rw [start, both_assoc, both_assoc, ← both_assoc (openTagInsert tagDat true)]

theorem writes_start (le : Bool) (m : MemPools) {x : Datum} (hnone : x.attribs .none = none)
    (hdat : ∀ a v, x.attribs a = some v → v.type ≠ .inert ∧ v.type ≠ .datumList) {level : ℕ}
    (h : level ≤ maxLevel) (hlevel : (∃ a, (x.attribs a).isSome) → level + 1 ≤ maxLevel) :
    Writes (start le m x : TextInsert β) ⟨true, level⟩ ⟨true, level + 1⟩
      (beginText level (x.attr .val).type ++ attribsText le (level + 1) x Attrib.all) := by
  rw [start_eq]
  exact (writes_begin h _).both (writes_attribsInsert le m hnone hdat hlevel _)

theorem overruns_start (le : Bool) (m : MemPools) {x : Datum} {level : ℕ}
    (h : ¬ (level ≤ maxLevel ∧ ((∃ a, (x.attribs a).isSome) → level + 1 ≤ maxLevel))) :
    Overruns (start le m x : TextInsert β) ⟨true, level⟩ := by
  by_cases hlevel : level ≤ maxLevel
  · obtain ⟨⟨a, ha⟩, hnext⟩ := Classical.not_imp.1 fun himp => h ⟨hlevel, himp⟩
    rw [start_eq]
    exact (writes_begin hlevel _).both_overruns
      (overruns_attribsInsert le m hnext ⟨a, a.mem_all, ha⟩)
  · exact (overruns_openTagInsert hlevel tagDat true).both _

end SerDesIdl

/-! ### Trees -/

namespace Datum

mutual

/-- **A datum that fits is written as its text**, and at least one call could insert. -/
theorem encodeIdlDatum_spec (le : Bool) (m : MemPools) : ∀ (d : Datum) (level : ℕ), d.Printable →
    d.Fits level → ∀ ⦃s : StreamBase β⦄ ⦃c : List UInt8⦄, s.Ends c →
      ∃ n s', d.encodeIdlDatum le m ⟨true, level⟩ s = some (n, ⟨true, level⟩, s') ∧ n ≠ 0 ∧
        s'.Ends (c ++ datumText le level d)
  | ⟨isInert, self, attribs, iterData, datums⟩, level, hd, hfit, s, c, h => by
      obtain ⟨hnone, hattribs, hall⟩ := hd
      obtain ⟨hlevel, hnext, hfits⟩ := hfit
      obtain ⟨s₁, hs₁, h₁⟩ := writes_start le m
        (x := ⟨isInert, self, attribs, iterData, datums⟩) hnone hattribs hlevel hnext h
      obtain ⟨n, s₂, hs₂, h₂⟩ := encodeIdlDatums_spec le m datums (level + 1) hall hfits h₁
      obtain ⟨s₃, hs₃, h₃⟩ := writes_closeTagInsert hlevel tagDat h₂
      refine ⟨1 + n + 1, s₃, ?_, by omega, ?_⟩
      · simp only [encodeIdlDatum, hs₁, hs₂, end', hs₃, Option.bind_eq_bind, Option.bind_some]
        rfl
      · rw [datumText, endText]
        simpa only [List.append_assoc] using h₃

/-- A list of data that fit is written as its text. -/
theorem encodeIdlDatums_spec (le : Bool) (m : MemPools) : ∀ (ds : List Datum) (level : ℕ),
    AllPrintable ds → AllFit ds level → ∀ ⦃s : StreamBase β⦄ ⦃c : List UInt8⦄, s.Ends c →
      ∃ n s', encodeIdlDatums le m ds ⟨true, level⟩ s = some (n, ⟨true, level⟩, s') ∧
        s'.Ends (c ++ datumsText le level ds)
  | [], level, _, _, s, c, h => ⟨0, s, rfl, by rwa [datumsText, List.append_nil]⟩
  | d :: ds, level, hall, hfit, s, c, h => by
      obtain ⟨hd, hds⟩ := hall
      obtain ⟨hfd, hfds⟩ := hfit
      obtain ⟨n, s₁, hs₁, -, h₁⟩ := encodeIdlDatum_spec le m d level hd hfd h
      obtain ⟨k, s₂, hs₂, h₂⟩ := encodeIdlDatums_spec le m ds level hds hfds h₁
      refine ⟨n + k, s₂, ?_, ?_⟩
      · simp only [encodeIdlDatums, hs₁, hs₂, Option.bind_eq_bind, Option.bind_some]
        rfl
      · rw [datumsText, ← List.append_assoc]
        exact h₂

end

mutual

/-- **For a datum that does not fit** the encoder reads outside of a string. -/
theorem encodeIdlDatum_overruns (le : Bool) (m : MemPools) : ∀ (d : Datum) (level : ℕ),
    d.Printable → ¬ d.Fits level → ∀ ⦃s : StreamBase β⦄ ⦃c : List UInt8⦄, s.Ends c →
      d.encodeIdlDatum le m ⟨true, level⟩ s = none
  | ⟨isInert, self, attribs, iterData, datums⟩, level, hd, hfit, s, c, h => by
      obtain ⟨hnone, hattribs, hall⟩ := hd
      by_cases hstart : level ≤ maxLevel ∧ ((∃ a, (attribs a).isSome) → level + 1 ≤ maxLevel)
      · obtain ⟨s₁, hs₁, h₁⟩ := writes_start le m
          (x := ⟨isInert, self, attribs, iterData, datums⟩) hnone hattribs hstart.1 hstart.2 h
        have hfits : ¬ AllFit datums (level + 1) := fun hfits =>
          hfit ⟨hstart.1, hstart.2, hfits⟩
        have hnone' := encodeIdlDatums_overruns le m datums (level + 1) hall hfits h₁
        simp only [encodeIdlDatum, hs₁, hnone', Option.bind_eq_bind, Option.bind_some,
          Option.bind_none]
      · have hnone' := overruns_start le m
          (x := ⟨isInert, self, attribs, iterData, datums⟩) hstart h
        simp only [encodeIdlDatum, hnone', Option.bind_eq_bind, Option.bind_none]

/-- For a list of data that do not all fit the encoder reads outside of a string. -/
theorem encodeIdlDatums_overruns (le : Bool) (m : MemPools) : ∀ (ds : List Datum) (level : ℕ),
    AllPrintable ds → ¬ AllFit ds level → ∀ ⦃s : StreamBase β⦄ ⦃c : List UInt8⦄, s.Ends c →
      encodeIdlDatums le m ds ⟨true, level⟩ s = none
  | [], level, _, hfit, s, c, h => absurd trivial hfit
  | d :: ds, level, hall, hfit, s, c, h => by
      obtain ⟨hd, hds⟩ := hall
      by_cases hfd : d.Fits level
      · obtain ⟨n, s₁, hs₁, -, h₁⟩ := encodeIdlDatum_spec le m d level hd hfd h
        have hnone := encodeIdlDatums_overruns le m ds level hds (fun hfds => hfit ⟨hfd, hfds⟩) h₁
        simp only [encodeIdlDatums, hs₁, hnone, Option.bind_eq_bind, Option.bind_some,
          Option.bind_none]
      · have hnone := encodeIdlDatum_overruns le m d level hd hfd h
        simp only [encodeIdlDatums, hnone, Option.bind_eq_bind, Option.bind_none]

end

/-! ### Packages -/

/-- The lines in front of the datum. -/
def headText (ser : SerDesIdl) : List UInt8 :=
  (if ser.newLine then indentText ser.indentLevel else []) ++ (tagHdr ++ ([10] ++
    lineText ser.indentLevel (tagPkg ++ (tagBegin ++ (tagVer ++ uintToStr datumVersion.toNat)))))

theorem encodes_open {ser : SerDesIdl} (h : ser.indentLevel ≤ maxLevel) {s : StreamBase β}
    {f : FlatStream UInt8} (hs : s.Represents f) :
    ∃ s', «open» datumVersion ser s = some (true, ⟨true, ser.indentLevel + 1⟩, s') ∧
      s'.Ends (headText ser) := by
  have hclear : s.clear.Ends [] := ⟨_, hs.clear, rfl, rfl⟩
  have hhdr : Writes (stringInsert tagHdr : TextInsert β) ser ⟨false, ser.indentLevel⟩
      ((if ser.newLine then indentText ser.indentLevel else []) ++ tagHdr) := by
    obtain ⟨nl, level⟩ := ser
    cases nl with
    | false => exact writes_stringInsert level tagHdr
    | true => exact writes_stringInsert_newLine h tagHdr
  have hall := hhdr.both ((writes_newLineInsert ser.indentLevel).both
    ((writes_openTagInsert h tagPkg).both ((writes_stringInsert (ser.indentLevel + 1) tagVer).both
      ((writes_stringInsert (ser.indentLevel + 1) (uintToStr datumVersion.toNat)).both
        (writes_newLineInsert (ser.indentLevel + 1))))))
  obtain ⟨s', hrun, h'⟩ := hall hclear
  refine ⟨s', hrun, ?_⟩
  simpa only [headText, lineText, List.nil_append, List.append_assoc] using h'

theorem overruns_open {ser : SerDesIdl} (h : ¬ ser.indentLevel ≤ maxLevel) {s : StreamBase β}
    {f : FlatStream UInt8} (hs : s.Represents f) : «open» datumVersion ser s = none := by
  have hclear : s.clear.Ends [] := ⟨_, hs.clear, rfl, rfl⟩
  obtain ⟨nl, level⟩ := ser
  have hpkg : Overruns ((openTagInsert tagPkg true).both
      (attribInsert tagVer (uintToStr datumVersion.toNat) true) : TextInsert β) ⟨true, level⟩ :=
    (overruns_openTagInsert h tagPkg true).both _
  cases nl with
  | false =>
      exact (writes_stringInsert level tagHdr).both_overruns
        ((writes_newLineInsert level).both_overruns hpkg) hclear
  | true => exact (overruns_stringInsert h tagHdr).both _ hclear

theorem packageText_eq (le : Bool) (ser : SerDesIdl) (dat : Datum) :
    packageText le ser dat = headText ser ++ (datumText le (ser.indentLevel + 1) dat ++
      lineText ser.indentLevel (tagPkg ++ tagEnd)) := by
  rw [packageText, headText]
  simp only [List.append_assoc]

/-- The encoding of a datum that fits ends with the footer, whatever the stream held before. -/
theorem encodeIdl_eq_close (le : Bool) (m : MemPools) {dat : Datum} (hact : dat.isInert = false)
    (hdat : dat.Printable) {ser : SerDesIdl} (hfit : dat.Fits (ser.indentLevel + 1))
    {s : StreamBase β} {f : FlatStream UInt8} (h : s.Represents f) :
    ser.indentLevel ≤ maxLevel ∧ ∃ t : StreamBase β,
      t.Ends (headText ser ++ datumText le (ser.indentLevel + 1) dat) ∧
      ∀ chkMode, dat.encodeIdl le m chkMode ser s =
        close chkMode ⟨true, ser.indentLevel + 1⟩ t := by
  have hlevel : ser.indentLevel ≤ maxLevel := by
    obtain ⟨isInert, self, attribs, iterData, datums⟩ := dat
    exact Nat.le_of_succ_le hfit.1
  obtain ⟨t, ht, hends⟩ := encodes_open hlevel h
  obtain ⟨n, t', ht', hn, hends'⟩ := encodeIdlDatum_spec le m dat _ hdat hfit hends
  refine ⟨hlevel, t', hends', fun chkMode => ?_⟩
  rw [encodeIdl, if_neg (by simp [hact]), TextInsert.both, ht, Option.bind_some, if_pos rfl]
  simp [TextInsert.both, ht', hn]

/-- **A package that fits is written as its text**, whatever the stream held before. -/
theorem encodeIdl_spec (le : Bool) (m : MemPools) {dat : Datum} (hact : dat.isInert = false)
    (hdat : dat.Printable) {ser : SerDesIdl} (hfit : dat.Fits (ser.indentLevel + 1))
    {s : StreamBase β} {f : FlatStream UInt8} (h : s.Represents f) :
    ∃ s', dat.encodeIdl le m .none ser s = some (true, ⟨true, ser.indentLevel⟩, s') ∧
      s'.Ends (packageText le ser dat) := by
  obtain ⟨hlevel, t, ht, hclose⟩ := encodeIdl_eq_close le m hact hdat hfit h
  have hend : Writes (close .none : TextInsert β) ⟨true, ser.indentLevel + 1⟩
      ⟨true, ser.indentLevel⟩ (lineText ser.indentLevel (tagPkg ++ tagEnd)) := by
    have hdone := (writes_closeTagInsert (β := β) hlevel tagPkg).both (writes_done _)
    rw [List.append_nil, ← both_assoc] at hdone
    exact hdone
  obtain ⟨s', hs', hends⟩ := hend ht
  exact ⟨s', (hclose .none).trans hs', by rwa [packageText_eq, ← List.append_assoc]⟩

/-- **For a package that does not fit** the encoder reads outside of a string. -/
theorem encodeIdl_overruns (le : Bool) (m : MemPools) {dat : Datum} (hact : dat.isInert = false)
    (hdat : dat.Printable) {ser : SerDesIdl} (hfit : ¬ dat.Fits (ser.indentLevel + 1))
    (chkMode : CheckSum) {s : StreamBase β} {f : FlatStream UInt8} (h : s.Represents f) :
    dat.encodeIdl le m chkMode ser s = none := by
  rw [encodeIdl, if_neg (by simp [hact]), TextInsert.both]
  by_cases hlevel : ser.indentLevel ≤ maxLevel
  · obtain ⟨s₁, hs₁, h₁⟩ := encodes_open hlevel h
    have hnone := encodeIdlDatum_overruns le m dat _ hdat hfit h₁
    rw [hs₁, Option.bind_some, if_pos rfl, TextInsert.both, hnone]
    rfl
  · rw [overruns_open hlevel h]
    rfl

end Datum

end CodePort
