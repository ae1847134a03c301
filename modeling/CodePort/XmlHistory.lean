/-
What the XML serializer remembers from one encoding to the next.

A serializer is used again when it is put back.  The functions that open and close a package reset the
stream, not the indentation.  An attribute that cannot be encoded leaves its element open, so the level
stays one deeper, and every later package starts with so many more blanks.

Main definitions:

* `CodePort.Datum.misses` — the data of a tree with an attribute that cannot be encoded;
* `CodePort.Datum.XmlFits` — the blanks for every line of a datum are there;
* `CodePort.SerDesIdl.Moves` — a function returns, appends, and changes the serializer as stated;
* `CodePort.XmlCall` — an encoding of a history, `CodePort.XmlCall.step` — what it does to the serializer;
* `CodePort.XmlCall.depth` — the level that a history leaves.

Main results:

* `CodePort.Datum.encodeXmlDatum_moves`, `encodeXmlDatum_overruns` — the encoder of a tree, by induction
  on the tree;
* `CodePort.XmlCall.members_of_run` — the members of the serializer after any history;
* `CodePort.encodeXml_history_iff` — **two histories are alike to a datum exactly when they leave the same
  level**, or the datum is inert or has no encoding after either of them.
-/

import CodePort.EncodeAppends
import CodePort.IdlEncode
import Mathlib.Algebra.Order.BigOperators.Group.List

set_option relaxedAutoImplicit false
set_option autoImplicit false

namespace CodePort

open BlockStore

/-! ### Missed attributes -/

/-- A value that the text serializers have a form for. -/
def Variant.hasText (v : Variant) : Bool := v.type != .inert && v.type != .datumList

namespace Datum

open SerDesIdl (maxLevel)

/-- One of the given attributes has no form. -/
def missesOne (dat : Datum) (as : List Attrib) : Bool :=
  as.any fun a => (dat.attribs a).any fun v => !v.hasText

mutual

/-- The number of data in the tree with an attribute that has no form. -/
def misses : Datum → ℕ
  | ⟨isInert, self, attribs, iterData, datums⟩ =>
      (missesOne ⟨isInert, self, attribs, iterData, datums⟩ Attrib.all).toNat + allMisses datums

/-- The same number for a list. -/
def allMisses : List Datum → ℕ
  | [] => 0
  | d :: ds => d.misses + allMisses ds

end

/-- The blanks for the lines of a BLOB are there; other values stay on their line. -/
def ValueFits (level : ℕ) (v : Variant) : Prop :=
  v.type = .blob → v.buf.data ≠ [] → level ≤ maxLevel

/-- Every attribute that is reached has a tag, and the blanks for its lines are there. -/
def AttribsFit (dat : Datum) (level : ℕ) : List Attrib → Prop
  | [] => True
  | a :: as =>
      (∀ v ∈ dat.attribs a,
        SerDesXml.attribMap a ≠ none ∧ level ≤ maxLevel ∧ ValueFits (level + 1) v) ∧
      ((∀ v ∈ dat.attribs a, v.hasText = true) → AttribsFit dat level as)

mutual

/-- The attributes of the datum at a level have tags, and the blanks for all its lines are there. -/
def XmlFits : Datum → ℕ → Prop
  | ⟨isInert, self, attribs, iterData, datums⟩, level =>
      level ≤ maxLevel ∧
        AttribsFit ⟨isInert, self, attribs, iterData, datums⟩ (level + 1) Attrib.all ∧
        AllXmlFit datums (level + 1 +
          (missesOne ⟨isInert, self, attribs, iterData, datums⟩ Attrib.all).toNat)

/-- Lists of such data. -/
def AllXmlFit : List Datum → ℕ → Prop
  | [], _ => True
  | d :: ds, level => d.XmlFits level ∧ AllXmlFit ds (level + d.misses)

end

/-- A missed attribute has been reached. -/
theorem AttribsFit.le_maxLevel {dat : Datum} {level : ℕ} {as : List Attrib}
    (h : AttribsFit dat level as) (hmiss : dat.missesOne as = true) : level ≤ maxLevel := by
  induction as with
  | nil => cases hmiss
  | cons a as ih =>
      obtain ⟨hhead, htail⟩ := h
      rw [missesOne, List.any_cons, ← missesOne, Bool.or_eq_true] at hmiss
      cases ha : dat.attribs a with
      | some v => exact (hhead v ha).2.1
      | none =>
          refine ih (htail fun v hv => ?_) (hmiss.resolve_left (by simp [ha]))
          rw [ha] at hv
          cases hv

mutual

/-- The last line of a datum that fits is at most at the deepest level. -/
theorem XmlFits.le_maxLevel : ∀ {d : Datum} {level : ℕ}, d.XmlFits level →
    level + d.misses ≤ maxLevel
  | ⟨isInert, self, attribs, iterData, datums⟩, level, h => by
      obtain ⟨hlevel, hattribs, hdatums⟩ := h
      rw [misses]
      have hbound := AllXmlFit.le_maxLevel hdatums
      have hmiss := fun h => hattribs.le_maxLevel h
      cases hone : missesOne ⟨isInert, self, attribs, iterData, datums⟩ Attrib.all with
      | false =>
          rw [hone] at hbound
          cases datums with
          | nil => simpa [allMisses] using hlevel
          | cons d ds =>
              have := hbound (List.cons_ne_nil _ _)
              simp only [Bool.toNat_false] at this ⊢
              omega
      | true =>
          have hattr := hmiss hone
          rw [hone] at hbound
          cases datums with
          | nil => simpa [allMisses] using hattr
          | cons d ds =>
              have := hbound (List.cons_ne_nil _ _)
              simp only [Bool.toNat_true] at this ⊢
              omega

/-- So is the last line of a list. -/
theorem AllXmlFit.le_maxLevel : ∀ {ds : List Datum} {level : ℕ}, AllXmlFit ds level → ds ≠ [] →
    level + allMisses ds ≤ maxLevel
  | [], level, _, hne => absurd rfl hne
  | [d], level, h, _ => by
      have := XmlFits.le_maxLevel h.1
      simpa only [allMisses, Nat.add_zero] using this
  | d :: d' :: ds, level, h, _ => by
      have := AllXmlFit.le_maxLevel h.2 (List.cons_ne_nil _ _)
      rw [allMisses, ← Nat.add_assoc]
      exact this

end

end Datum

/-! ### What the inserting functions do to the serializer -/

variable {β : Type} [BlockStore β] [LawfulBlockStore β]

namespace SerDesIdl

/-- The function appends to every stream that stands at its end, returns `rv`, and takes the serializer
from one state to the other. -/
def Moves (g : TextInsert β) (ser : SerDesIdl) (rv : Bool) (ser' : SerDesIdl) : Prop :=
  ∀ ⦃s c⦄, StreamBase.Ends s c →
    ∃ s' d, g ser s = some (rv, ser', s') ∧ StreamBase.Ends s' (c ++ d)

section Moves

variable {f g : TextInsert β} {ser ser' ser'' : SerDesIdl} {rv : Bool}

theorem Writes.moves {d : List UInt8} (h : Writes g ser ser' d) : Moves g ser true ser' := by
  intro s c hs
  obtain ⟨s', hrun, h'⟩ := h hs
  exact ⟨s', d, hrun, h'⟩

theorem moves_done (rv : Bool) (ser : SerDesIdl) : Moves (.done rv : TextInsert β) ser rv ser := by
  intro s c h
  exact ⟨s, [], rfl, by rwa [List.append_nil]⟩

theorem Moves.both (hf : Moves f ser true ser') (hg : Moves g ser' rv ser'') :
    Moves (f.both g) ser rv ser'' := by
  intro s c h
  obtain ⟨s₁, d₁, hs₁, h₁⟩ := hf h
  obtain ⟨s₂, d₂, hs₂, h₂⟩ := hg h₁
  refine ⟨s₂, d₁ ++ d₂, ?_, by rwa [← List.append_assoc]⟩
  rw [TextInsert.both, hs₁, Option.bind_some, if_pos rfl, hs₂]

theorem Moves.both_of_false (hf : Moves f ser false ser') (g : TextInsert β) :
    Moves (f.both g) ser false ser' := by
  intro s c h
  obtain ⟨s₁, d₁, hs₁, h₁⟩ := hf h
  exact ⟨s₁, d₁, by rw [TextInsert.both, hs₁, Option.bind_some, if_neg Bool.false_ne_true], h₁⟩

theorem Moves.both_overruns (hf : Moves f ser true ser') (hg : Overruns g ser') :
    Overruns (f.both g) ser := by
  intro s c h
  obtain ⟨s₁, d₁, hs₁, h₁⟩ := hf h
  rw [TextInsert.both, hs₁, Option.bind_some, if_pos rfl, hg h₁]

end Moves

section Line

variable {nl : Bool} {level : ℕ}

/-- A string inside a line. -/
theorem moves_inside (level : ℕ) (str : List UInt8) :
    Moves (stringInsert str : TextInsert β) ⟨false, level⟩ true ⟨false, level⟩ :=
  (writes_stringInsert level str).moves

theorem moves_stringInsert (h : nl = true → level ≤ maxLevel) (str : List UInt8) :
    Moves (stringInsert str : TextInsert β) ⟨nl, level⟩ true ⟨false, level⟩ := by
  cases nl with
  | false => exact moves_inside level str
  | true => exact (writes_stringInsert_newLine (h rfl) str).moves

theorem moves_newLineInsert (h : nl = true → level ≤ maxLevel) :
    Moves (newLineInsert : TextInsert β) ⟨nl, level⟩ true ⟨true, level⟩ := by
  intro s c hs
  obtain ⟨s', d, hrun, h'⟩ := moves_stringInsert h tagLineEnd hs
  exact ⟨s', d, by rw [newLineInsert, hrun]; rfl, h'⟩

end Line

end SerDesIdl

namespace SerDesXml

open SerDesIdl

variable {nl : Bool} {level : ℕ}

theorem moves_openTagInsert (h : nl = true → level ≤ maxLevel) (tagName : List UInt8) (attr : Bool) :
    Moves (SerDesXml.openTagInsert tagName attr : TextInsert β) ⟨nl, level⟩ true
      ⟨false, level + 1⟩ := by
  have hlast : Moves (if attr then .done true else stringInsert tagTagEnd : TextInsert β)
      ⟨false, level⟩ true ⟨false, level⟩ := by
    split_ifs
    · exact moves_done true _
    · exact moves_inside level _
  intro s c hs
  obtain ⟨s', d, hrun, h'⟩ := ((moves_stringInsert h tagOpenTagStart).both
    ((moves_inside level tagName).both hlast)) hs
  exact ⟨s', d, by rw [SerDesXml.openTagInsert, hrun]; rfl, h'⟩

theorem overruns_openTagInsert (h : ¬ level ≤ maxLevel) (tagName : List UInt8) (attr : Bool) :
    Overruns (SerDesXml.openTagInsert tagName attr : TextInsert β) ⟨true, level⟩ := by
  intro s c hs
  rw [SerDesXml.openTagInsert, (overruns_stringInsert h tagOpenTagStart).both _ hs, Option.map_none]

theorem moves_closeTagInsert (h : nl = true → level ≤ maxLevel) (tagName : List UInt8) :
    Moves (SerDesXml.closeTagInsert tagName : TextInsert β) ⟨nl, level + 1⟩ true ⟨true, level⟩ :=
  fun _ _ hs => ((moves_stringInsert h tagCloseTagStart).both ((moves_inside level tagName).both
    ((moves_inside level tagTagEnd).both (writes_newLineInsert level).moves))) hs

theorem overruns_closeTagInsert (h : ¬ level ≤ maxLevel) (tagName : List UInt8) :
    Overruns (SerDesXml.closeTagInsert tagName : TextInsert β) ⟨true, level + 1⟩ :=
  fun _ _ hs => (overruns_stringInsert h tagCloseTagStart).both _ hs

/-- The last attribute of a tag ends the line. -/
theorem moves_attribInsert (level : ℕ) (attrName value : List UInt8) :
    Moves (SerDesXml.attribInsert attrName value true : TextInsert β) ⟨false, level⟩ true
      ⟨true, level⟩ :=
  (moves_inside level _).both ((moves_inside level _).both ((moves_inside level _).both
    ((moves_inside level _).both ((moves_inside level _).both
      ((moves_inside level _).both (writes_newLineInsert level).moves)))))

/-! ### Attributes -/

theorem moves_blobLoop (h : level ≤ maxLevel) (data : List UInt8) : ∀ (i : ℕ) (nl : Bool),
    ∃ nl', Moves (blobLoop i data : TextInsert β) ⟨nl, level⟩ true ⟨nl', level⟩ := by
  induction data with
  | nil => exact fun i nl => ⟨nl, moves_done true _⟩
  | cons ch data ih =>
      intro i nl
      obtain ⟨nl', hrest⟩ := ih (i + 1) false
      have hline : ∃ nl₁, Moves (if i % 16 = 0 then newLineInsert else .done true : TextInsert β)
          ⟨nl, level⟩ true ⟨nl₁, level⟩ := by
        split_ifs
        · exact ⟨true, moves_newLineInsert fun _ => h⟩
        · exact ⟨nl, moves_done true _⟩
      obtain ⟨nl₁, hline⟩ := hline
      exact ⟨nl', hline.both ((moves_stringInsert (fun _ => h) _).both hrest)⟩

/-- A value that has a form and fits. -/
theorem moves_valueInsert (le : Bool) (m : MemPools) {v : Variant} (hv : v.hasText = true)
    (hfit : Datum.ValueFits level v) :
    ∃ nl, Moves (SerDesXml.valueInsert le m v : TextInsert β) ⟨false, level⟩ true ⟨nl, level⟩ := by
  rw [SerDesXml.valueInsert]
  split_ifs with hblob
  · refine ⟨true, ?_⟩
    rw [blobInsert]
    cases hdata : v.buf.data with
    | nil => exact (moves_done true _).both (writes_newLineInsert level).moves
    | cons ch data =>
        have hlevel := hfit hblob (by rw [hdata]; exact List.cons_ne_nil _ _)
        obtain ⟨nl, hloop⟩ := moves_blobLoop (β := β) hlevel (ch :: data) 0 false
        exact hloop.both (moves_newLineInsert fun _ => hlevel)
  · rw [Variant.hasText, Bool.and_eq_true, bne_iff_ne, bne_iff_ne] at hv
    exact ⟨false, (writes_valueInsert le m level hv.1 hv.2).moves⟩

/-- A value that has no form. -/
theorem moves_valueInsert_of_not (le : Bool) (m : MemPools) {v : Variant} (hv : v.hasText = false)
    (ser : SerDesIdl) : Moves (SerDesXml.valueInsert le m v : TextInsert β) ser false ser := by
  obtain ⟨type, buf⟩ := v
  cases type with
  | inert => exact moves_done false ser
  | datumList => exact moves_done false ser
  | _ => cases hv

/-- A BLOB whose lines there are no blanks for. -/
theorem overruns_valueInsert (le : Bool) (m : MemPools) {v : Variant}
    (hfit : ¬ Datum.ValueFits level v) :
    Overruns (SerDesXml.valueInsert le m v : TextInsert β) ⟨false, level⟩ := by
  obtain ⟨hblob, hfit⟩ := Classical.not_imp.1 hfit
  obtain ⟨hdata, hlevel⟩ := Classical.not_imp.1 hfit
  rw [SerDesXml.valueInsert, if_pos hblob, blobInsert]
  cases hcons : v.buf.data with
  | nil => exact absurd hcons hdata
  | cons ch data =>
      exact ((writes_newLineInsert level).moves.both_overruns
        ((overruns_stringInsert hlevel _).both _)).both _

/-- **The attributes of a datum**: after one that has no form the element stays open. -/
theorem moves_attribsInsert (le : Bool) (m : MemPools) {dat : Datum} {as : List Attrib}
    (h : dat.AttribsFit level as) :
    Moves (SerDesXml.attribsInsert le m dat as : TextInsert β) ⟨true, level⟩ (!dat.missesOne as)
      ⟨!dat.missesOne as, level + (dat.missesOne as).toNat⟩ := by
  induction as with
  | nil => exact moves_done true _
  | cons a as ih =>
      obtain ⟨hhead, htail⟩ := h
      rw [SerDesXml.attribsInsert, List.foldr_cons, ← SerDesXml.attribsInsert, Datum.missesOne,
        List.any_cons, ← Datum.missesOne]
      cases ha : dat.attribs a with
      | none =>
          rw [ha] at htail
          exact ih (htail fun v hv => absurd hv (Option.not_mem_none v))
      | some v =>
          obtain ⟨htag, hlevel, hvalue⟩ := hhead v ha
          obtain ⟨tag, htag⟩ := Option.ne_none_iff_exists'.1 htag
          have hopen := moves_openTagInsert (β := β) (fun _ : true = true => hlevel) tag false
          simp only [htag, Option.any_some]
          cases hv : v.hasText with
          | false =>
              exact hopen.both ((moves_valueInsert_of_not le m hv _).both_of_false _)
          | true =>
              obtain ⟨nl, hval⟩ := moves_valueInsert (β := β) le m hv hvalue
              have hrest := ih (htail fun w hw => by
                rw [ha] at hw
                obtain rfl := Option.some.inj hw
                exact hv)
              exact hopen.both (hval.both ((moves_closeTagInsert (fun _ => hlevel) tag).both hrest))

/-- The attributes of a datum that do not fit. -/
theorem overruns_attribsInsert (le : Bool) (m : MemPools) {dat : Datum} {as : List Attrib}
    (h : ¬ dat.AttribsFit level as) :
    Overruns (SerDesXml.attribsInsert le m dat as : TextInsert β) ⟨true, level⟩ := by
  induction as with
  | nil => exact absurd trivial h
  | cons a as ih =>
      rw [SerDesXml.attribsInsert, List.foldr_cons, ← SerDesXml.attribsInsert]
      cases ha : dat.attribs a with
      | none => exact ih fun htail => h ⟨by simp [ha], fun _ => htail⟩
      | some v =>
          cases htag : SerDesXml.attribMap a with
          | none => exact fun s c _ => rfl
          | some tag =>
              by_cases hlevel : level ≤ maxLevel
              · have hopen := moves_openTagInsert (β := β) (fun _ : true = true => hlevel) tag false
                by_cases hvalue : Datum.ValueFits (level + 1) v
                · cases hv : v.hasText with
                  | false => exact absurd ⟨by simp [ha, htag, hlevel, hvalue], by simp [ha, hv]⟩ h
                  | true =>
                      obtain ⟨nl, hval⟩ := moves_valueInsert (β := β) le m hv hvalue
                      have hrest := ih fun htail =>
                        h ⟨by simp [ha, htag, hlevel, hvalue], fun _ => htail⟩
                      exact hopen.both_overruns (hval.both_overruns
                        ((moves_closeTagInsert (fun _ => hlevel) tag).both_overruns hrest))
                · exact hopen.both_overruns ((overruns_valueInsert le m hvalue).both _)
              · exact (overruns_openTagInsert hlevel tag false).both _

theorem moves_start (le : Bool) (m : MemPools) {dat : Datum} (hnl : nl = true → level ≤ maxLevel)
    (h : dat.AttribsFit (level + 1) Attrib.all) :
    Moves (SerDesXml.start le m dat : TextInsert β) ⟨nl, level⟩ (!dat.missesOne Attrib.all)
      ⟨!dat.missesOne Attrib.all, level + 1 + (dat.missesOne Attrib.all).toNat⟩ :=
  (moves_openTagInsert hnl tagDat true).both
    ((moves_attribInsert (level + 1) _ _).both (moves_attribsInsert le m h))

theorem overruns_start (le : Bool) (m : MemPools) {dat : Datum}
    (h : ¬ ((nl = true → level ≤ maxLevel) ∧ dat.AttribsFit (level + 1) Attrib.all)) :
    Overruns (SerDesXml.start le m dat : TextInsert β) ⟨nl, level⟩ := by
  by_cases hnl : nl = true → level ≤ maxLevel
  · have hattribs : ¬ dat.AttribsFit (level + 1) Attrib.all := fun hfit => h ⟨hnl, hfit⟩
    exact (moves_openTagInsert hnl tagDat true).both_overruns
      ((moves_attribInsert (level + 1) _ _).both_overruns (overruns_attribsInsert le m hattribs))
  · obtain ⟨rfl, hlevel⟩ := Classical.not_imp.1 hnl
    exact (overruns_openTagInsert hlevel tagDat true).both _

end SerDesXml

/-! ### Trees -/

namespace Datum

open SerDesIdl

mutual

/-- **A datum that fits is encoded**, and leaves the level higher by what it misses. -/
theorem encodeXmlDatum_moves (le : Bool) (m : MemPools) : ∀ (d : Datum) (nl : Bool) (level : ℕ),
    d.XmlFits level → ∀ ⦃s : StreamBase β⦄ ⦃c : List UInt8⦄, s.Ends c →
      ∃ n s' e, d.encodeXmlDatum le m ⟨nl, level⟩ s = some (n, ⟨true, level + d.misses⟩, s') ∧
        n ≠ 0 ∧ s'.Ends (c ++ e)
  | ⟨isInert, self, attribs, iterData, datums⟩, nl, level, hfit, s, c, h => by
      have hclose := hfit.le_maxLevel
      obtain ⟨hlevel, hattribs, hdatums⟩ := hfit
      obtain ⟨s₁, e₁, hs₁, h₁⟩ := SerDesXml.moves_start le m (fun _ : nl = true => hlevel) hattribs h
      obtain ⟨n, nl₂, s₂, e₂, hs₂, h₂⟩ := encodeXmlDatums_moves le m datums
        (!missesOne ⟨isInert, self, attribs, iterData, datums⟩ Attrib.all) _ hdatums h₁
      obtain ⟨s₃, e₃, hs₃, h₃⟩ := SerDesXml.moves_closeTagInsert (fun _ : nl₂ = true => hclose)
        SerDesXml.tagDat h₂
      have hindent : level + 1 +
          (missesOne ⟨isInert, self, attribs, iterData, datums⟩ Attrib.all).toNat + allMisses datums =
            level + misses ⟨isInert, self, attribs, iterData, datums⟩ + 1 := by
        rw [misses]
        omega
      rw [hindent] at hs₂
      change SerDesXml.end' _ _ = _ at hs₃
      refine ⟨(!missesOne ⟨isInert, self, attribs, iterData, datums⟩ Attrib.all).toNat + n + 1, s₃,
        e₁ ++ (e₂ ++ e₃), ?_, Nat.succ_ne_zero _, by simpa only [List.append_assoc] using h₃⟩
      rw [encodeXmlDatum, encodeText]
      simp only [hs₁, hs₂, hs₃, Option.bind_eq_bind, Option.bind_some]
      rfl

/-- So is a list of data that fit. -/
theorem encodeXmlDatums_moves (le : Bool) (m : MemPools) : ∀ (ds : List Datum) (nl : Bool) (level : ℕ),
    AllXmlFit ds level → ∀ ⦃s : StreamBase β⦄ ⦃c : List UInt8⦄, s.Ends c →
      ∃ n nl' s' e, encodeTexts (SerDesXml.start le m) SerDesXml.end' ds ⟨nl, level⟩ s =
        some (n, ⟨nl', level + allMisses ds⟩, s') ∧ s'.Ends (c ++ e)
  | [], nl, level, _, s, c, h => ⟨0, nl, s, [], by rw [encodeTexts]; rfl, by rwa [List.append_nil]⟩
  | d :: ds, nl, level, hfit, s, c, h => by
      obtain ⟨n, s₁, e₁, hs₁, -, h₁⟩ := encodeXmlDatum_moves le m d nl level hfit.1 h
      obtain ⟨k, nl', s₂, e₂, hs₂, h₂⟩ := encodeXmlDatums_moves le m ds true _ hfit.2 h₁
      rw [encodeXmlDatum] at hs₁
      refine ⟨n + k, nl', s₂, e₁ ++ e₂, ?_, by rwa [← List.append_assoc]⟩
      rw [encodeTexts, allMisses, ← Nat.add_assoc]
      simp only [hs₁, hs₂, Option.bind_eq_bind, Option.bind_some]
      rfl

end

mutual

/-- **For a datum that does not fit** the encoder reads outside of a string. -/
theorem encodeXmlDatum_overruns (le : Bool) (m : MemPools) : ∀ (d : Datum) (nl : Bool) (level : ℕ),
    ¬ d.XmlFits level → ∀ ⦃s : StreamBase β⦄ ⦃c : List UInt8⦄, s.Ends c →
      d.encodeXmlDatum le m ⟨nl, level⟩ s = none
  | ⟨isInert, self, attribs, iterData, datums⟩, nl, level, hfit, s, c, h => by
      rw [encodeXmlDatum, encodeText]
      by_cases hstart : (nl = true → level ≤ maxLevel) ∧
          AttribsFit ⟨isInert, self, attribs, iterData, datums⟩ (level + 1) Attrib.all
      · obtain ⟨s₁, e₁, hs₁, h₁⟩ := SerDesXml.moves_start le m hstart.1 hstart.2 h
        by_cases hdatums : AllXmlFit datums (level + 1 +
            (missesOne ⟨isInert, self, attribs, iterData, datums⟩ Attrib.all).toNat)
        · -- the first line needed no blanks, and the last one has none
          have hlevel : ¬ level ≤ maxLevel := fun hlevel => hfit ⟨hlevel, hstart.2, hdatums⟩
          cases hone : missesOne ⟨isInert, self, attribs, iterData, datums⟩ Attrib.all with
          | true =>
              have := hstart.2.le_maxLevel hone
              omega
          | false =>
              cases datums with
              | cons d ds =>
                  have := AllXmlFit.le_maxLevel hdatums (List.cons_ne_nil _ _)
                  omega
              | nil =>
                  rw [hone] at hs₁
                  have hend := SerDesXml.overruns_closeTagInsert (β := β) hlevel SerDesXml.tagDat h₁
                  simp only [hs₁, encodeTexts, SerDesXml.end', Option.bind_eq_bind, Option.bind_some]
                  exact congrArg (Option.bind · _) hend
        · have hnone := encodeXmlDatums_overruns le m datums
            (!missesOne ⟨isInert, self, attribs, iterData, datums⟩ Attrib.all) _ hdatums h₁
          simp only [hs₁, hnone, Option.bind_eq_bind, Option.bind_some, Option.bind_none]
      · have hnone := SerDesXml.overruns_start le m hstart h
        simp only [hnone, Option.bind_eq_bind, Option.bind_none]

/-- So it does for a list of data that do not all fit. -/
theorem encodeXmlDatums_overruns (le : Bool) (m : MemPools) :
    ∀ (ds : List Datum) (nl : Bool) (level : ℕ), ¬ AllXmlFit ds level →
      ∀ ⦃s : StreamBase β⦄ ⦃c : List UInt8⦄, s.Ends c →
        encodeTexts (SerDesXml.start le m) SerDesXml.end' ds ⟨nl, level⟩ s = none
  | [], nl, level, hfit, s, c, h => absurd trivial hfit
  | d :: ds, nl, level, hfit, s, c, h => by
      rw [encodeTexts]
      by_cases hd : d.XmlFits level
      · obtain ⟨n, s₁, e₁, hs₁, -, h₁⟩ := encodeXmlDatum_moves le m d nl level hd h
        have hnone := encodeXmlDatums_overruns le m ds true _ (fun hds => hfit ⟨hd, hds⟩) h₁
        rw [encodeXmlDatum] at hs₁
        simp only [hs₁, hnone, Option.bind_eq_bind, Option.bind_some, Option.bind_none]
      · have hnone := encodeXmlDatum_overruns le m d nl level hd h
        rw [encodeXmlDatum] at hnone
        simp only [hnone, Option.bind_eq_bind, Option.bind_none]

end

end Datum

/-! ### Packages -/

namespace SerDesXml

open SerDesIdl

/-- Outside of an encoding the serializer stands at the start of a line, or has no indentation. -/
def Settled (ser : SerDesXml) : Prop := ser.newLine = true ∨ ser.indentLevel = 0

variable {ser ser' : SerDesXml} {s : StreamBase β} {f : FlatStream UInt8}

/-- A serializer that is settled puts the blanks for its level in front of the first string. -/
theorem Settled.writes_stringInsert (h : ser.Settled) (hlevel : ser.indentLevel ≤ maxLevel)
    (str : List UInt8) : Writes (stringInsert str : TextInsert β) ser ⟨false, ser.indentLevel⟩
      (indentText ser.indentLevel ++ str) := by
  obtain ⟨nl, level⟩ := ser
  cases nl with
  | true => exact writes_stringInsert_newLine hlevel str
  | false =>
      obtain rfl : level = 0 := h.resolve_left Bool.false_ne_true
      exact SerDesIdl.writes_stringInsert 0 str

omit [LawfulBlockStore β] in
/-- The first string is inserted in the same way at the same level. -/
theorem Settled.stringInsert_congr (h : ser.Settled) (h' : ser'.Settled)
    (hlevel : ser.indentLevel = ser'.indentLevel) (str : List UInt8) (s : StreamBase β) :
    stringInsert str ser s = stringInsert str ser' s := by
  have hzero : stringInsert str ⟨true, 0⟩ s = stringInsert str ⟨false, 0⟩ s := by
    have hwr : s.arrayWr [] = some (0, s) := rfl
    simp [stringInsert, indentInsert, TextInsert.both, hwr]
  obtain ⟨nl, level⟩ := ser
  obtain ⟨nl', level'⟩ := ser'
  obtain rfl : level = level' := hlevel
  cases nl <;> cases nl'
  · rfl
  · obtain rfl : level = 0 := h.resolve_left Bool.false_ne_true
    exact hzero.symm
  · obtain rfl : level = 0 := h'.resolve_left Bool.false_ne_true
    exact hzero
  · rfl

theorem encodes_open (h : ser.Settled) (hlevel : ser.indentLevel ≤ maxLevel) (ver : UInt8)
    (hs : s.Represents f) :
    ∃ s' d, SerDesXml.open ver ser s = some (true, ⟨true, ser.indentLevel + 1⟩, s') ∧
      s'.Ends (indentText ser.indentLevel ++ (tagHdr ++ d)) := by
  have hclear : s.clear.Ends [] := ⟨_, hs.clear, rfl, rfl⟩
  obtain ⟨s₁, hs₁, h₁⟩ := h.writes_stringInsert hlevel tagHdr hclear
  obtain ⟨s₂, d, hs₂, h₂⟩ := ((writes_newLineInsert ser.indentLevel).moves.both
    ((moves_openTagInsert (fun _ => hlevel) tagPkg true).both
      (moves_attribInsert (ser.indentLevel + 1) tagVer (uintToStr ver.toNat)))) h₁
  refine ⟨s₂, d, ?_, by simpa only [List.nil_append, List.append_assoc] using h₂⟩
  rw [SerDesXml.open, TextInsert.both, hs₁, Option.bind_some, if_pos rfl, hs₂]

theorem overruns_open (h : ser.Settled) (hlevel : ¬ ser.indentLevel ≤ maxLevel) (ver : UInt8)
    (hs : s.Represents f) : SerDesXml.open ver ser s = none := by
  have hclear : s.clear.Ends [] := ⟨_, hs.clear, rfl, rfl⟩
  obtain ⟨nl, level⟩ := ser
  obtain rfl : nl = true := h.resolve_right fun hzero => hlevel (hzero.trans_le (Nat.zero_le _))
  exact (overruns_stringInsert hlevel tagHdr).both _ hclear

theorem moves_checksumInsert (chkMode : CheckSum) (pos level : ℕ) :
    Moves (SerDesXml.checksumInsert chkMode pos : TextInsert β) ⟨false, level⟩ true
      ⟨false, level⟩ := by
  cases chkMode with
  | none => exact moves_done true _
  | md5Sum => exact moves_inside level _
  | sha1Sum => exact moves_inside level _
  | crc32 =>
      have hcrc : Moves (fun ser (s : StreamBase β) =>
          (s.crc32Get pos).bind fun crc => stringInsert (hexLong crc.toNat) ser s) ⟨false, level⟩ true
            ⟨false, level⟩ := by
        rintro s c ⟨f, hrep, hend⟩
        simp only [hrep.wf.hasBlocks.crc32Get_eq pos, Option.bind_some]
        exact moves_inside level _ ⟨f, hrep, hend⟩
      exact (moves_inside level tagCrc32).both hcrc

theorem moves_close {level : ℕ} (hlevel : level ≤ maxLevel) (chkMode : CheckSum) :
    Moves (SerDesXml.close chkMode : TextInsert β) ⟨true, level + 1⟩ true ⟨true, level⟩ := by
  refine (moves_closeTagInsert (fun _ => hlevel) tagPkg).both fun (s : StreamBase β) c h => ?_
  split_ifs
  · exact ⟨s, [], rfl, by rwa [List.append_nil]⟩
  · exact ((moves_stringInsert (fun _ => hlevel) tagComment).both
      ((moves_checksumInsert chkMode s.pos level).both ((moves_inside level tagCommentEnd).both
        (writes_newLineInsert level).moves))) h

end SerDesXml

namespace Datum

open SerDesIdl

variable {ser ser' : SerDesXml} {s : StreamBase β} {f : FlatStream UInt8} {dat : Datum}

/-- **A package that fits is encoded**, behind the blanks for the level before. -/
theorem encodeXml_spec (le : Bool) (m : MemPools) (hact : dat.isInert = false) (chkMode : CheckSum)
    (hser : ser.Settled) (hfit : dat.XmlFits (ser.indentLevel + 1)) (hs : s.Represents f) :
    ∃ s' d, dat.encodeXml le m chkMode ser s =
        some (true, ⟨true, ser.indentLevel + dat.misses⟩, s') ∧
      s'.Ends (indentText ser.indentLevel ++ (SerDesXml.tagHdr ++ d)) := by
  have hclose := hfit.le_maxLevel
  obtain ⟨s₁, d₁, hs₁, h₁⟩ := SerDesXml.encodes_open hser (by omega) datumVersion hs
  obtain ⟨n, s₂, d₂, hs₂, hn, h₂⟩ := encodeXmlDatum_moves le m dat true _ hfit h₁
  have hindent : ser.indentLevel + 1 + dat.misses = ser.indentLevel + dat.misses + 1 := by omega
  rw [hindent] at hs₂
  obtain ⟨s₃, d₃, hs₃, h₃⟩ := SerDesXml.moves_close
    (show ser.indentLevel + dat.misses ≤ maxLevel by omega) chkMode h₂
  refine ⟨s₃, d₁ ++ (d₂ ++ d₃), ?_, by simpa only [List.append_assoc] using h₃⟩
  rw [encodeXml, if_neg (by simp [hact]), TextInsert.both, hs₁, Option.bind_some, if_pos rfl]
  simp [TextInsert.both, hs₂, hn, hs₃]

/-- **For a package that does not fit** the encoder reads outside of a string. -/
theorem encodeXml_overruns (le : Bool) (m : MemPools) (hact : dat.isInert = false)
    (chkMode : CheckSum) (hser : ser.Settled) (hfit : ¬ dat.XmlFits (ser.indentLevel + 1))
    (hs : s.Represents f) : dat.encodeXml le m chkMode ser s = none := by
  rw [encodeXml, if_neg (by simp [hact]), TextInsert.both]
  by_cases hlevel : ser.indentLevel ≤ maxLevel
  · obtain ⟨s₁, d₁, hs₁, h₁⟩ := SerDesXml.encodes_open hser hlevel datumVersion hs
    have hnone := encodeXmlDatum_overruns le m dat true _ hfit h₁
    rw [hs₁, Option.bind_some, if_pos rfl, TextInsert.both, hnone]
    rfl
  · rw [SerDesXml.overruns_open hser hlevel datumVersion hs]
    rfl

omit [LawfulBlockStore β] in
/-- At the same level the encoding is the same. -/
theorem encodeXml_congr (le : Bool) (m : MemPools) (hact : dat.isInert = false) (chkMode : CheckSum)
    (hser : ser.Settled) (hser' : ser'.Settled) (hlevel : ser.indentLevel = ser'.indentLevel)
    (s : StreamBase β) :
    dat.encodeXml le m chkMode ser s = dat.encodeXml le m chkMode ser' s := by
  have hact' : ¬ dat.isInert = true := by simp [hact]
  rw [encodeXml, if_neg hact', encodeXml, if_neg hact']
  simp only [TextInsert.both, SerDesXml.open, hser.stringInsert_congr hser' hlevel]

end Datum

/-! ### Histories -/

/-- An earlier encoding: the datum, the checksum and the stream, which its owner keeps in order. -/
structure XmlCall (β : Type) [BlockStore β] [LawfulBlockStore β] where
  dat : Datum
  chkMode : CheckSum
  strm : StreamBase β
  strm_ok : ∃ f, strm.Represents f

namespace XmlCall

open SerDesIdl (maxLevel)

/-- `Datum::Encode` through the serializer. -/
def step (le : Bool) (m : MemPools) (ser : SerDesXml) (call : XmlCall β) :
    Option ((Bool × StreamBase β) × SerDesXml) :=
  (call.dat.encodeXml le m call.chkMode ser call.strm).map fun r => ((r.1, r.2.2), r.2.1)

/-- The level that an encoding adds: an inert datum is not encoded. -/
def depth1 (call : XmlCall β) : ℕ := if call.dat.isInert then 0 else call.dat.misses

/-- The level that a history leaves. -/
def depth (calls : List (XmlCall β)) : ℕ := (calls.map depth1).sum

theorem depth_cons (call : XmlCall β) (calls : List (XmlCall β)) :
    depth (call :: calls) = call.depth1 + depth calls := by
  simp [depth]

/-- **What an encoding does to the serializer.** -/
theorem members_of_step {le : Bool} {m : MemPools} {ser ser' : SerDesXml} {call : XmlCall β}
    {a : Bool × StreamBase β} (hser : ser.Settled) (h : step le m ser call = some (a, ser')) :
    ser'.Settled ∧ ser'.indentLevel = ser.indentLevel + call.depth1 := by
  obtain ⟨r, hr, heq⟩ := Option.map_eq_some_iff.1 h
  obtain ⟨-, rfl⟩ := Prod.mk.inj heq
  obtain ⟨f, hs⟩ := call.strm_ok
  cases hact : call.dat.isInert with
  | true =>
      rw [Datum.encodeXml, if_pos hact] at hr
      obtain rfl := Option.some.inj hr
      exact ⟨hser, by simp [depth1, hact]⟩
  | false =>
      by_cases hfit : call.dat.XmlFits (ser.indentLevel + 1)
      · obtain ⟨s', d, hrun, -⟩ := Datum.encodeXml_spec le m hact call.chkMode hser hfit hs
        obtain rfl := Option.some.inj (hrun.symm.trans hr)
        exact ⟨.inl rfl, by simp [depth1, hact]⟩
      · rw [Datum.encodeXml_overruns le m hact call.chkMode hser hfit hs] at hr
        cases hr

/-- **What a history does to the serializer.** -/
theorem members_of_run {le : Bool} {m : MemPools} {calls : List (XmlCall β)} {ser ser' : SerDesXml}
    {as : List (Bool × StreamBase β)} (hser : ser.Settled)
    (h : StepSystem.run (step le m) calls ser = some (as, ser')) :
    ser'.Settled ∧ ser'.indentLevel = ser.indentLevel + depth calls := by
  induction calls generalizing ser as with
  | nil =>
      obtain ⟨-, rfl⟩ := Prod.mk.inj (Option.some.inj h)
      exact ⟨hser, rfl⟩
  | cons call calls ih =>
      obtain ⟨a, ser₁, bs, hstep, hrun, -⟩ := StepSystem.run_cons_eq_some.1 h
      obtain ⟨hser₁, hlevel₁⟩ := members_of_step hser hstep
      obtain ⟨hser', hlevel'⟩ := ih hser₁ hrun
      refine ⟨hser', ?_⟩
      rw [hlevel', hlevel₁, depth_cons, Nat.add_assoc]

end XmlCall

/-! ### Two histories -/

open SerDesIdl (indentText indentSize maxLevel)

/-- The blanks of a line, up to the first octet that opens a tag. -/
theorem length_takeWhile_indentText {level : ℕ} (h : level ≤ maxLevel) (d : List UInt8) :
    ((indentText level ++ (SerDesXml.tagHdr ++ d)).takeWhile (· ≠ 60)).length =
      indentSize * level := by
  have hblank : ∀ ch ∈ indentText level, decide (ch ≠ 60) = true := by
    intro ch hch
    rcases List.mem_append.1 (List.mem_of_mem_take hch) with hch | hch
    · obtain rfl := List.eq_of_mem_replicate hch
      decide
    · obtain rfl := List.mem_singleton.1 hch
      decide
  have hhdr : (SerDesXml.tagHdr ++ d).takeWhile (· ≠ 60) = [] := by
    rw [show SerDesXml.tagHdr = 60 :: SerDesXml.tagHdr.tail by decide]
    rfl
  rw [List.takeWhile_append_of_pos hblank, hhdr, List.append_nil, indentText, List.length_take]
  exact min_eq_left ((SerDesIdl.indent_le_iff level).2 h)

/-- The answer of an encoding, and the octets that it leaves. -/
def Datum.xmlOutcome (le : Bool) (m : MemPools) (dat : Datum) (chkMode : CheckSum) (ser : SerDesXml)
    (s : StreamBase β) : Option (Bool × List UInt8) :=
  (dat.encodeXml le m chkMode ser s).map fun r => (r.1, r.2.2.octets)

/-- Serializers at different levels encode a datum differently, if one of them can. -/
theorem Datum.xmlOutcome_ne (le : Bool) (m : MemPools) {dat : Datum} (hact : dat.isInert = false)
    (chkMode : CheckSum) {ser ser' : SerDesXml} (hser : ser.Settled) (hser' : ser'.Settled)
    (hne : ser.indentLevel ≠ ser'.indentLevel) (hfit : dat.XmlFits (ser.indentLevel + 1))
    {s : StreamBase β} {f : FlatStream UInt8} (hs : s.Represents f) :
    dat.xmlOutcome le m chkMode ser s ≠ dat.xmlOutcome le m chkMode ser' s := by
  obtain ⟨t, d, hrun, g, hg, -, hcontent⟩ := dat.encodeXml_spec le m hact chkMode hser hfit hs
  intro heq
  rw [xmlOutcome, xmlOutcome, hrun, Option.map_some] at heq
  by_cases hfit' : dat.XmlFits (ser'.indentLevel + 1)
  · obtain ⟨t', d', hrun', g', hg', -, hcontent'⟩ :=
      dat.encodeXml_spec le m hact chkMode hser' hfit' hs
    rw [hrun', Option.map_some, Option.some_inj, Prod.mk.injEq, hg.octets_eq, hg'.octets_eq,
      hcontent, hcontent'] at heq
    have hlevel : ser.indentLevel ≤ maxLevel := by have := hfit.le_maxLevel; omega
    have hlevel' : ser'.indentLevel ≤ maxLevel := by have := hfit'.le_maxLevel; omega
    have hlen := congrArg (fun c => (c.takeWhile (· ≠ 60)).length) heq.2
    simp only [length_takeWhile_indentText hlevel, length_takeWhile_indentText hlevel'] at hlen
    exact hne (Nat.eq_of_mul_eq_mul_left (by decide) hlen)
  · rw [dat.encodeXml_overruns le m hact chkMode hser' hfit' hs, Option.map_none] at heq
    cases heq

/-- **Two histories are alike to a datum** exactly when they leave the same level, or the datum is inert,
or it has no encoding after either of them. -/
theorem encodeXml_history_iff (le : Bool) (m : MemPools) {calls calls' : List (XmlCall β)}
    {as as' : List (Bool × StreamBase β)} {ser ser' : SerDesXml}
    (h : StepSystem.run (XmlCall.step le m) calls SerDesIdl.construct = some (as, ser))
    (h' : StepSystem.run (XmlCall.step le m) calls' SerDesIdl.construct = some (as', ser'))
    (dat : Datum) (chkMode : CheckSum) {s : StreamBase β} {f : FlatStream UInt8}
    (hs : s.Represents f) :
    dat.xmlOutcome le m chkMode ser s = dat.xmlOutcome le m chkMode ser' s ↔
      dat.isInert = true ∨ XmlCall.depth calls = XmlCall.depth calls' ∨
        (¬ dat.XmlFits (XmlCall.depth calls + 1) ∧ ¬ dat.XmlFits (XmlCall.depth calls' + 1)) := by
  obtain ⟨hser, hlevel⟩ := XmlCall.members_of_run (.inr rfl) h
  obtain ⟨hser', hlevel'⟩ := XmlCall.members_of_run (.inr rfl) h'
  rw [show SerDesIdl.construct.indentLevel = 0 from rfl, Nat.zero_add] at hlevel hlevel'
  cases hact : dat.isInert with
  | true =>
      simp only [true_or, iff_true]
      simp only [Datum.xmlOutcome, Datum.encodeXml, if_pos hact, Option.map_some]
  | false =>
      rw [or_iff_right Bool.false_ne_true, ← hlevel, ← hlevel']
      constructor
      · intro heq
        by_cases hsame : ser.indentLevel = ser'.indentLevel
        · exact .inl hsame
        · refine .inr ⟨fun hfit => ?_, fun hfit => ?_⟩
          · exact dat.xmlOutcome_ne le m hact chkMode hser hser' hsame hfit hs heq
          · exact dat.xmlOutcome_ne le m hact chkMode hser' hser (Ne.symm hsame) hfit hs heq.symm
      · rintro (hsame | ⟨hfit, hfit'⟩)
        · rw [Datum.xmlOutcome, dat.encodeXml_congr le m hact chkMode hser hser' hsame,
            ← Datum.xmlOutcome]
        · rw [Datum.xmlOutcome, Datum.xmlOutcome,
            dat.encodeXml_overruns le m hact chkMode hser hfit hs,
            dat.encodeXml_overruns le m hact chkMode hser' hfit' hs]

/-- A datum with a copy of an attribute that another datum does not have. -/
def missedDatum : Datum := Datum.fresh.attrSet exactPools .min (Datum.fresh.attr .min)

theorem misses_missedDatum : missedDatum.misses = 1 := by
  rw [missedDatum, Datum.attrSet, if_neg (by decide), Datum.fresh, Datum.misses, Datum.allMisses]
  decide

/-- A datum without attributes and sub-data fits wherever there are blanks. -/
theorem Datum.xmlFits_fresh {level : ℕ} (h : level ≤ maxLevel) : Datum.fresh.XmlFits level := by
  rw [Datum.fresh, XmlFits]
  exact ⟨h, by simp [Attrib.all, AttribsFit], trivial⟩

theorem xmlFits_missedDatum {level : ℕ} (h : level + 2 ≤ maxLevel) : missedDatum.XmlFits level := by
  rw [missedDatum, Datum.attrSet, if_neg (by decide), Datum.fresh, Datum.XmlFits]
  refine ⟨by omega, ?_, trivial⟩
  simp [Attrib.all, Datum.AttribsFit, SerDesXml.attribMap, Datum.ValueFits, Datum.attr, inertValue,
    Variant.assign, Variant.construct]
  omega

theorem misses_sampleDatum : sampleDatum.misses = 0 := by decide +kernel

theorem xmlFits_sampleDatum {level : ℕ} (h : level + 2 ≤ maxLevel) : sampleDatum.XmlFits level := by
  have hnum : (Variant.uint16Set true exactPools (Variant.construct exactPools false) 1000).type =
      .uint16 := by decide
  have htext : (Variant.strSet exactPools (Variant.construct exactPools false) (ascii "text")).type =
      .string := by decide
  have hone : sampleDatum.missesOne Attrib.all = false := by decide
  have hdatums : Datum.AllXmlFit sampleDatum.datums
      (level + 1 + (sampleDatum.missesOne Attrib.all).toNat) := by
    rw [hone, sampleDatum, Datum.fresh, Datum.AllXmlFit, Datum.XmlFits]
    refine ⟨⟨by simpa using by omega, ?_, trivial⟩, trivial⟩
    simp [Attrib.all, Datum.AttribsFit, SerDesXml.attribMap, Datum.ValueFits, htext]
    omega
  refine ⟨by omega, ?_, hdatums⟩
  simp [Attrib.all, Datum.AttribsFit, SerDesXml.attribMap, Datum.ValueFits, hnum]
  omega

/-- An encoding in a history, with a new stream. -/
def historyCall (dat : Datum) : XmlCall StrmBufMem :=
  ⟨dat, .none, StreamBuf.construct sampleMem 0, _, StreamBuf.represents_construct plentiful_sampleMem 0⟩

/-- A history returns if its data fit at every level that it can lead to. -/
theorem exists_run_historyCalls {dats : List Datum} {ser : SerDesXml} (hser : ser.Settled)
    (hact : ∀ d ∈ dats, d.isInert = false)
    (hfit : ∀ d ∈ dats, ∀ level ≤ ser.indentLevel + XmlCall.depth (dats.map historyCall) + 1,
      d.XmlFits level) :
    ∃ as ser', StepSystem.run (XmlCall.step true exactPools) (dats.map historyCall) ser =
      some (as, ser') := by
  induction dats generalizing ser with
  | nil => exact ⟨[], ser, rfl⟩
  | cons d ds ih =>
      rw [List.map_cons, XmlCall.depth_cons] at hfit
      obtain ⟨s', e, hrun, -⟩ := Datum.encodeXml_spec true exactPools (hact d List.mem_cons_self) .none
        hser (hfit d List.mem_cons_self _ (by omega))
        (StreamBuf.represents_construct plentiful_sampleMem 0)
      have hstep : XmlCall.step true exactPools ser (historyCall d) =
          some ((true, s'), ⟨true, ser.indentLevel + d.misses⟩) := by
        rw [XmlCall.step, historyCall, hrun]
        rfl
      obtain ⟨hser', hlevel⟩ := XmlCall.members_of_step hser hstep
      obtain ⟨as, ser', hrest⟩ := ih hser' (fun d' hd' => hact d' (List.mem_cons_of_mem _ hd'))
        fun d' hd' level hle => hfit d' (List.mem_cons_of_mem _ hd') level (by omega)
      exact ⟨_, _, StepSystem.run_cons_eq_some.2 ⟨_, _, as, hstep, hrest, rfl⟩⟩

theorem depth1_missedDatum : (historyCall missedDatum).depth1 = 1 := by
  rw [XmlCall.depth1, historyCall, if_neg (by decide), misses_missedDatum]

theorem depth1_sampleDatum : (historyCall sampleDatum).depth1 = 0 := by
  rw [XmlCall.depth1, historyCall, if_neg (by decide), misses_sampleDatum]

/-- A history of these two data returns. -/
theorem exists_run_sampleCalls {dats : List Datum} (hlen : dats.length ≤ 1000)
    (hdats : ∀ d ∈ dats, d = sampleDatum ∨ d = missedDatum) :
    ∃ as ser, StepSystem.run (XmlCall.step true exactPools) (dats.map historyCall) SerDesIdl.construct =
      some (as, ser) := by
  have hdepth : XmlCall.depth (dats.map historyCall) ≤ dats.length := by
    rw [XmlCall.depth, List.map_map]
    refine (List.sum_le_card_nsmul _ 1 fun n hn => ?_).trans (by simp)
    obtain ⟨d, hd, rfl⟩ := List.mem_map.1 hn
    rcases hdats d hd with rfl | rfl
    · exact depth1_sampleDatum.le.trans (Nat.zero_le 1)
    · exact depth1_missedDatum.le
  refine exists_run_historyCalls (.inr rfl) (fun d hd => ?_) fun d hd level hle => ?_
  · rcases hdats d hd with rfl | rfl
    · rfl
    · rfl
  · have hlevel : level + 2 ≤ maxLevel := by
      rw [show SerDesIdl.construct.indentLevel = 0 from rfl] at hle
      rw [maxLevel]
      omega
    rcases hdats d hd with rfl | rfl
    · exact xmlFits_sampleDatum hlevel
    · exact xmlFits_missedDatum hlevel

/-- A number and a text, after two histories with one attribute without a form, and after nothing. -/
theorem encodeXml_history_iff_sample : ∃ as ser as' ser',
    StepSystem.run (XmlCall.step true exactPools) ([sampleDatum, missedDatum].map historyCall)
      SerDesIdl.construct = some (as, ser) ∧
    StepSystem.run (XmlCall.step true exactPools)
      ([missedDatum, sampleDatum, sampleDatum].map historyCall) SerDesIdl.construct = some (as', ser') ∧
    sampleDatum.xmlOutcome true exactPools .none ser (StreamBuf.construct sampleMem 0) =
      sampleDatum.xmlOutcome true exactPools .none ser' (StreamBuf.construct sampleMem 0) ∧
    sampleDatum.xmlOutcome true exactPools .none ser (StreamBuf.construct sampleMem 0) ≠
      sampleDatum.xmlOutcome true exactPools .none SerDesIdl.construct
        (StreamBuf.construct sampleMem 0) := by
  obtain ⟨as, ser, hrun⟩ := @exists_run_sampleCalls [sampleDatum, missedDatum] (by decide) (by simp)
  obtain ⟨as', ser', hrun'⟩ := @exists_run_sampleCalls [missedDatum, sampleDatum, sampleDatum]
    (by decide) (by simp)
  have hnone : StepSystem.run (XmlCall.step true exactPools) ([] : List (XmlCall StrmBufMem))
      SerDesIdl.construct = some ([], SerDesIdl.construct) := rfl
  have hs := StreamBuf.represents_construct plentiful_sampleMem 0
  have hdepth : XmlCall.depth ([sampleDatum, missedDatum].map historyCall) = 1 := by
    simp only [List.map_cons, XmlCall.depth_cons, depth1_sampleDatum, depth1_missedDatum]
    rfl
  have hdepth' : XmlCall.depth ([missedDatum, sampleDatum, sampleDatum].map historyCall) = 1 := by
    simp only [List.map_cons, XmlCall.depth_cons, depth1_sampleDatum, depth1_missedDatum]
    rfl
  refine ⟨as, ser, as', ser', hrun, hrun', ?_, fun heq => ?_⟩
  · exact (encodeXml_history_iff true exactPools hrun hrun' sampleDatum .none hs).2
      (.inr (.inl (hdepth.trans hdepth'.symm)))
  · rcases (encodeXml_history_iff true exactPools hrun hnone sampleDatum .none hs).1 heq with
      hact | hsame | ⟨hno, -⟩
    · cases hact
    · rw [hdepth] at hsame
      cases hsame
    · exact hno (xmlFits_sampleDatum (by rw [hdepth]; decide))

/-- A datum without attributes, after a datum with an attribute that has no form and after nothing. -/
theorem encodeXml_after_missed : ∃ as ser,
    StepSystem.run (XmlCall.step true exactPools) [historyCall missedDatum] SerDesIdl.construct =
      some (as, ser) ∧
    Datum.fresh.xmlOutcome true exactPools .none ser (StreamBuf.construct sampleMem 0) ≠
      Datum.fresh.xmlOutcome true exactPools .none SerDesIdl.construct
        (StreamBuf.construct sampleMem 0) := by
  obtain ⟨as, ser, hrun⟩ := @exists_run_sampleCalls [missedDatum] (by decide) (by simp)
  obtain ⟨hser, hlevel⟩ := XmlCall.members_of_run (.inr rfl) hrun
  have hone : ser.indentLevel = 1 := by
    rw [hlevel, List.map_cons, XmlCall.depth_cons, depth1_missedDatum]
    rfl
  refine ⟨as, ser, hrun, Datum.fresh.xmlOutcome_ne true exactPools rfl .none hser (.inr rfl) ?_ ?_
    (StreamBuf.represents_construct plentiful_sampleMem 0)⟩
  · rw [hone]
    decide
  · rw [hone]
    exact Datum.xmlFits_fresh (by decide)

end CodePort
