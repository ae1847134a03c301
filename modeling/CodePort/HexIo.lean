/-
Data as hexadecimal text.

`HexEncode` writes the octets of a buffer in groups and lines.  The configuration carries the lengths of
the group and of the line that are being written, so that a text can be written by successive calls;
`FormatOutput` puts the tokens between the octets.

Main definitions:

* `CodePort.HexIoCfg` — the configuration, with the state of the formatter in it;
* `CodePort.formatOutput`, `encodeOctet`, `hexEncode` — the functions;
* `CodePort.hexEncodeChunks` — successive calls on one configuration.

Main results:

* `CodePort.hexEncode_eq` — what a call does where its buffer is found: a fold of `putOctet`;
* `CodePort.encodeChunks_eq` — successive calls fold over all the octets;
* `CodePort.hexEncode_chunks` — **the text does not depend on the cuts, and it is parsed again**.
-/

import CodePort.TextUtil

set_option relaxedAutoImplicit false
set_option autoImplicit false

namespace CodePort

/-! ### The configuration -/

/-- Configuration of the hexadecimal functions, with the values of the constructor. -/
structure HexIoCfg where
  /-- Maximum number of input octets per output group. -/
  groupLenMax : UInt64 := 1
  /-- Number of input octets in the current group. -/
  groupLen : UInt64 := 0
  /-- Maximum output line length in characters, unlimited if zero. -/
  lineLenMax : UInt64 := 0
  /-- Number of output characters in the current line. -/
  lineLen : UInt64 := 0
  /-- A separator at the beginning of each line. -/
  preLine : Bool := false
  /-- A separator at the end of each line. -/
  postLine : Bool := false
  /-- Preserve the values for the next call. -/
  preserve : Bool := false
  /-- Closing tokens after the last data item. -/
  finalPass : Bool := true
  groupPrefix : List UInt8 := []
  suffix : List UInt8 := []
  separator : List UInt8 := ascii " "
  deriving DecidableEq

namespace HexIoCfg

variable (form : HexIoCfg)

/-- The number of formatted characters per output group. -/
def tokenLen : UInt64 :=
  UInt64.ofNat form.groupPrefix.length + 2 * form.groupLenMax + UInt64.ofNat form.suffix.length

/-- There isn't enough room for another output group. -/
def lineFull : Bool :=
  0 < form.lineLenMax &&
    form.lineLenMax < form.lineLen + form.tokenLen +
      (if form.postLine then UInt64.ofNat form.separator.length else 0)

/-- What a call makes of its configuration before it starts. -/
def enter : HexIoCfg :=
  -- make sure maximum group length is not zero
  let form := if form.groupLenMax = 0 then { form with groupLenMax := form.groupLenMax + 1 } else form
  -- initialize some values if this is not a successive call
  if form.preserve = false then { form with groupLen := 0, lineLen := 0 } else form

end HexIoCfg

/-! ### The encoder -/

/-- The output string of a call and its configuration. -/
structure HexIo where
  output : List UInt8
  form : HexIoCfg
  deriving DecidableEq

namespace HexIo

variable (s : HexIo)

/-- A token that is counted in the line; an empty one changes nothing. -/
def putToken (token : List UInt8) : HexIo where
  output := s.output ++ token
  form := { s.form with lineLen := s.form.lineLen + UInt64.ofNat token.length }

/-- Actions when ending a group or on final pass. -/
def endGroup (final : Bool) : HexIo :=
  if final || s.form.groupLenMax ≤ s.form.groupLen then
    { s with form := { s.form with groupLen := 0 } }.putToken s.form.suffix
  else s

/-- Start a new line if there isn't enough room for another output group or if final pass. -/
def nextLine (final : Bool) : HexIo :=
  if final || s.form.lineFull then
    { output := s.output ++ (if s.form.postLine then s.form.separator else []) ++ [10]
      form := { s.form with lineLen := 0 } }
  -- if not beginning of line add a separator
  else if 0 < s.form.lineLen then s.putToken s.form.separator
  else s

/-- If specified, add a pre-line separator. -/
def indent : HexIo :=
  if s.form.preLine && s.form.lineLen = 0 then s.putToken s.form.separator else s

/-- Actions at a group start when not on a final pass. -/
def startGroup : HexIo := s.indent.putToken s.form.groupPrefix

/-- The digits of an octet. -/
def putDigits (text : List UInt8) : HexIo where
  output := s.output ++ text
  form := { s.form with lineLen := s.form.lineLen + 2, groupLen := s.form.groupLen + 1 }

end HexIo

/-- Insert formatting tokens into the output. -/
def formatOutput (s : HexIo) (final : Bool) : HexIo :=
  let s := s.endGroup final
  if final || s.form.groupLen = 0 then
    let s := s.nextLine final
    if final then s else s.startGroup
  else s

/-- Convert and add an octet: `snprintf` to the buffer, whose text is appended. -/
def encodeOctet (buf : Buffer) (s : HexIo) (ch : UInt8) : Option HexIo :=
  let s := formatOutput s false
  ((buf.memWr 0 (hexOctet ch ++ [0])).block.map cStr).map s.putDigits

/-- Post-data formatting. -/
def HexIo.finish (s : HexIo) : HexIo := if s.form.finalPass then formatOutput s true else s

/-- Encode a block of data to ASCII hex: the size of the output, the output and the configuration.
There is no outcome if the buffer for the digits is NULL. -/
def hexEncode (m : MemPools) (input : Buffer) (form : HexIoCfg) : Option (ℕ × HexIo) :=
  let buf := Buffer.construct m 16
  (input.data.foldlM (encodeOctet buf) ⟨[], form.enter⟩).map fun s =>
    (s.finish.output.length, s.finish)

/-- Successive calls on one configuration, with `finalPass` for the last call only: the outputs one
after another. -/
def hexEncodeChunks (m : MemPools) (last : Buffer) :
    List Buffer → HexIoCfg → Option (List UInt8 × HexIoCfg)
  | [], form => (hexEncode m last form).map fun r => (r.2.output, r.2.form)
  | input :: chunks, form => do
      let r ← hexEncode m input { form with finalPass := false }
      let rest ← hexEncodeChunks m last chunks { r.2.form with finalPass := form.finalPass }
      some (r.2.output ++ rest.1, rest.2)

/-! ### A call as a fold -/

/-- An octet with the tokens in front of it. -/
def putOctet (s : HexIo) (ch : UInt8) : HexIo := (formatOutput s false).putDigits (hexOctet ch)

theorem cStr_hexOctet (ch : UInt8) (l : List UInt8) : cStr (hexOctet ch ++ 0 :: l) = hexOctet ch := by
  have hdigit : ∀ n < 16, hexDigit n ≠ 0 := by decide
  have hlt := ch.toNat_lt
  have hhigh := hdigit (ch.toNat / 16) (by omega)
  have hlow := hdigit (ch.toNat % 16) (by omega)
  simp [cStr, hexOctet, hhigh, hlow]

/-- A call writes the octets one after another while its buffer is found. -/
theorem encodeOctet_construct {m : MemPools} (hm : m.Plentiful) (s : HexIo) (ch : UInt8) :
    encodeOctet (Buffer.construct m 16) s ch = some (putOctet s ch) := by
  have hsize : 16 ≤ (Buffer.construct m 16).size :=
    Buffer.le_size_resize (Buffer.resize_fst hm Buffer.empty 16)
  rw [Buffer.size, Buffer.mem] at hsize
  obtain ⟨x, hx⟩ : ∃ x, (Buffer.construct m 16).block = some x := by
    cases hblock : (Buffer.construct m 16).block with
    | none => simp [hblock] at hsize
    | some x => exact ⟨x, rfl⟩
  have htext : cStr (BlockList.overwrite x 0 (hexOctet ch ++ [0])) = hexOctet ch := by
    rw [BlockList.overwrite, List.take_zero, List.nil_append, List.append_assoc]
    exact cStr_hexOctet ch _
  simp only [encodeOctet, Buffer.memWr, hx, Option.map_some, htext, putOctet]

/-- What a call leaves. -/
def encoded (data : List UInt8) (form : HexIoCfg) : HexIo :=
  (data.foldl putOctet ⟨[], form.enter⟩).finish

/-- **A call folds over the octets.** -/
theorem hexEncode_eq {m : MemPools} (hm : m.Plentiful) (input : Buffer) (form : HexIoCfg) :
    hexEncode m input form =
      some ((encoded input.data form).output.length, encoded input.data form) := by
  have hfold : ∀ (d : List UInt8) (s : HexIo),
      d.foldlM (encodeOctet (Buffer.construct m 16)) s = some (d.foldl putOctet s) := by
    intro d
    induction d with
    | nil => exact fun s => rfl
    | cons ch d ih =>
        intro s
        rw [List.foldlM_cons, encodeOctet_construct hm]
        exact ih _
  rw [hexEncode, hfold]
  rfl

/-! ### What the formatter writes -/

/-- The configuration with other lengths of the current group and the current line. -/
def HexIoCfg.withLens (form : HexIoCfg) (groupLen lineLen : UInt64) : HexIoCfg :=
  { form with groupLen := groupLen, lineLen := lineLen }

/-- The tokens that stand between octets. -/
def HexIoCfg.tokens (form : HexIoCfg) : List (List UInt8) :=
  [form.groupPrefix, form.suffix, form.separator, [10]]

namespace HexIo

/-- Tokens are written, and of the configuration the two lengths are changed. -/
structure Pads (s s' : HexIo) : Prop where
  tokens : ∃ ts : List (List UInt8), (∀ t ∈ ts, t ∈ s.form.tokens) ∧
    s'.output = s.output ++ ts.flatten
  form : ∃ g l, s'.form = s.form.withLens g l

namespace Pads

theorem refl (s : HexIo) : Pads s s :=
  ⟨⟨[], by simp⟩, s.form.groupLen, s.form.lineLen, rfl⟩

theorem trans {s s' s'' : HexIo} (h : Pads s s') (h' : Pads s' s'') : Pads s s'' := by
  obtain ⟨⟨ts, hts, hout⟩, g, l, hform⟩ := h
  obtain ⟨⟨ts', hts', hout'⟩, g', l', hform'⟩ := h'
  have htokens : s'.form.tokens = s.form.tokens := by rw [hform]; rfl
  refine ⟨⟨ts ++ ts', ?_, ?_⟩, g', l', ?_⟩
  · intro t ht
    rcases List.mem_append.1 ht with ht | ht
    · exact hts t ht
    · exact htokens ▸ hts' t ht
  · rw [hout', hout, List.flatten_append, List.append_assoc]
  · rw [hform', hform]
    rfl

theorem putToken (s : HexIo) {token : List UInt8} (h : token ∈ s.form.tokens) :
    Pads s (s.putToken token) :=
  ⟨⟨[token], by simpa using h, by simp [HexIo.putToken]⟩, _, _, rfl⟩

theorem endGroup (s : HexIo) (final : Bool) : Pads s (s.endGroup final) := by
  rw [HexIo.endGroup]
  split_ifs
  · exact ⟨⟨[s.form.suffix], by simp [HexIoCfg.tokens], by simp [HexIo.putToken]⟩, _, _, rfl⟩
  · exact refl s

theorem nextLine (s : HexIo) (final : Bool) : Pads s (s.nextLine final) := by
  rw [HexIo.nextLine]
  split_ifs with hline hpost
  · exact ⟨⟨[s.form.separator, [10]], by simp [HexIoCfg.tokens], by simp⟩, s.form.groupLen, 0, rfl⟩
  · exact ⟨⟨[[10]], by simp [HexIoCfg.tokens], by simp⟩, s.form.groupLen, 0, rfl⟩
  · exact putToken s (by simp [HexIoCfg.tokens])
  · exact refl s

theorem startGroup (s : HexIo) : Pads s s.startGroup := by
  have hindent : Pads s s.indent := by
    rw [HexIo.indent]
    split_ifs
    · exact putToken s (by simp [HexIoCfg.tokens])
    · exact refl s
  obtain ⟨g, l, hform⟩ := hindent.form
  refine hindent.trans (putToken _ ?_)
  rw [hform]
  simp [HexIoCfg.tokens, HexIoCfg.withLens]

end Pads

end HexIo

/-- **`FormatOutput` writes tokens only.** -/
theorem pads_formatOutput (s : HexIo) (final : Bool) : HexIo.Pads s (formatOutput s final) := by
  have hend := HexIo.Pads.endGroup s final
  have hline := hend.trans (.nextLine (s.endGroup final) final)
  simp only [formatOutput]
  split_ifs
  · exact hline
  · exact hline.trans (.startGroup _)
  · exact hend

theorem form_putOctet (s : HexIo) (ch : UInt8) :
    ∃ g l, (putOctet s ch).form = s.form.withLens g l := by
  obtain ⟨g, l, hform⟩ := (pads_formatOutput s false).form
  refine ⟨g + 1, l + 2, ?_⟩
  rw [putOctet, HexIo.putDigits, hform]
  rfl

/-- Of the configuration a run over octets changes the two lengths. -/
theorem form_foldl_putOctet (data : List UInt8) (s : HexIo) :
    ∃ g l, (data.foldl putOctet s).form = s.form.withLens g l := by
  induction data generalizing s with
  | nil => exact ⟨s.form.groupLen, s.form.lineLen, rfl⟩
  | cons ch data ih =>
      obtain ⟨g, l, hstep⟩ := form_putOctet s ch
      obtain ⟨g', l', hrun⟩ := ih (putOctet s ch)
      refine ⟨g', l', ?_⟩
      rw [List.foldl_cons, hrun, hstep]
      rfl

/-! ### Successive calls -/

/-- The state as it is behind a text, with another `finalPass`. -/
def HexIo.behind (out : List UInt8) (finalPass : Bool) (s : HexIo) : HexIo where
  output := out ++ s.output
  form := { s.form with finalPass := finalPass }

section Behind

variable (out : List UInt8) (fp : Bool) (s : HexIo)

@[simp]
theorem HexIo.form_behind : (s.behind out fp).form = { s.form with finalPass := fp } := rfl

theorem HexIo.putToken_behind (token : List UInt8) :
    (s.behind out fp).putToken token = (s.putToken token).behind out fp := by
  simp [HexIo.putToken, HexIo.behind]

theorem HexIo.endGroup_behind (final : Bool) :
    (s.behind out fp).endGroup final = (s.endGroup final).behind out fp := by
  rw [HexIo.endGroup, HexIo.endGroup, apply_ite (HexIo.behind out fp)]
  refine if_congr Iff.rfl ?_ rfl
  simp [HexIo.putToken, HexIo.behind]

theorem HexIo.nextLine_behind (final : Bool) :
    (s.behind out fp).nextLine final = (s.nextLine final).behind out fp := by
  rw [HexIo.nextLine, HexIo.nextLine, apply_ite (HexIo.behind out fp),
    apply_ite (HexIo.behind out fp)]
  refine if_congr Iff.rfl ?_ (if_congr Iff.rfl ?_ rfl)
  · simp only [HexIo.behind, List.append_assoc]
    rfl
  · exact HexIo.putToken_behind out fp s s.form.separator

theorem HexIo.startGroup_behind :
    (s.behind out fp).startGroup = s.startGroup.behind out fp := by
  have hindent : (s.behind out fp).indent = s.indent.behind out fp := by
    rw [HexIo.indent, HexIo.indent, apply_ite (HexIo.behind out fp)]
    exact if_congr Iff.rfl (HexIo.putToken_behind out fp s s.form.separator) rfl
  rw [HexIo.startGroup, hindent, HexIo.putToken_behind]
  rfl

theorem formatOutput_behind (final : Bool) :
    formatOutput (s.behind out fp) final = (formatOutput s final).behind out fp := by
  simp only [formatOutput, HexIo.endGroup_behind, HexIo.nextLine_behind, HexIo.startGroup_behind,
    HexIo.form_behind]
  split_ifs <;> rfl

theorem putOctet_behind (ch : UInt8) :
    putOctet (s.behind out fp) ch = (putOctet s ch).behind out fp := by
  rw [putOctet, formatOutput_behind, putOctet]
  simp [HexIo.putDigits, HexIo.behind]

/-- What is in front of a run, and `finalPass`, have no bearing on it. -/
theorem foldl_putOctet_behind (data : List UInt8) :
    data.foldl putOctet (s.behind out fp) = (data.foldl putOctet s).behind out fp := by
  induction data generalizing s with
  | nil => rfl
  | cons ch data ih => rw [List.foldl_cons, putOctet_behind, ih, List.foldl_cons]

end Behind

/-- A run behind a text. -/
theorem foldl_putOctet_append (data out : List UInt8) (s : HexIo) :
    data.foldl putOctet ⟨out ++ s.output, s.form⟩ =
      ⟨out ++ (data.foldl putOctet s).output, (data.foldl putOctet s).form⟩ := by
  obtain ⟨g, l, hform⟩ := form_foldl_putOctet data s
  have h := foldl_putOctet_behind out s.form.finalPass s data
  refine h.trans ?_
  rw [HexIo.behind, hform]
  rfl

/-- The closing tokens behind a text. -/
theorem finish_append (out : List UInt8) (s : HexIo) :
    (⟨out ++ s.output, s.form⟩ : HexIo).finish = ⟨out ++ s.finish.output, s.finish.form⟩ := by
  obtain ⟨g, l, hform⟩ := (pads_formatOutput s true).form
  have h := formatOutput_behind out s.form.finalPass s true
  rw [HexIo.finish, HexIo.finish]
  split_ifs
  · refine h.trans ?_
    rw [HexIo.behind, hform]
    rfl
  · rfl

/-- A call that follows another one changes nothing before it starts. -/
theorem enter_of_preserve {form : HexIoCfg} (hpreserve : form.preserve = true)
    (hmax : form.groupLenMax ≠ 0) : form.enter = form := by
  simp [HexIoCfg.enter, hpreserve, hmax]

theorem enter_spec (form : HexIoCfg) :
    form.enter.groupLenMax ≠ 0 ∧ form.enter.preserve = form.preserve ∧
      form.enter.finalPass = form.finalPass := by
  simp only [HexIoCfg.enter]
  split_ifs with hmax hpreserve hpreserve
  · exact ⟨by simp [hmax], rfl, rfl⟩
  · exact ⟨by simp [hmax], rfl, rfl⟩
  · exact ⟨hmax, rfl, rfl⟩
  · exact ⟨hmax, rfl, rfl⟩

/-- The first of two parts of the data, by a call without a final pass. -/
theorem encoded_finalPass (data : List UInt8) (form : HexIoCfg) :
    encoded data { form with finalPass := false } =
      (data.foldl putOctet ⟨[], form.enter⟩).behind [] false := by
  have henter : ({ form with finalPass := false } : HexIoCfg).enter =
      { form.enter with finalPass := false } := by
    simp only [HexIoCfg.enter]
    split_ifs <;> rfl
  have hrun := foldl_putOctet_behind [] false ⟨[], form.enter⟩ data
  rw [encoded, henter]
  exact congrArg HexIo.finish hrun

/-- The second part, by a call on the configuration that the first part leaves. -/
theorem encoded_append (data rest : List UInt8) {form : HexIoCfg} (hpreserve : form.preserve = true) :
    encoded (data ++ rest) form =
      ⟨(data.foldl putOctet ⟨[], form.enter⟩).output ++
          (encoded rest (data.foldl putOctet ⟨[], form.enter⟩).form).output,
        (encoded rest (data.foldl putOctet ⟨[], form.enter⟩).form).form⟩ := by
  obtain ⟨g, l, hform⟩ := form_foldl_putOctet data ⟨[], form.enter⟩
  obtain ⟨hmax, hkept, -⟩ := enter_spec form
  set s := data.foldl putOctet ⟨[], form.enter⟩ with hs
  have hentered : s.form.enter = s.form := by
    rw [hform]
    exact enter_of_preserve (hkept.trans hpreserve) hmax
  have hrun := foldl_putOctet_append rest s.output ⟨[], s.form⟩
  rw [List.append_nil] at hrun
  rw [encoded, List.foldl_append, ← hs, hrun, finish_append, encoded, hentered]

/-- **Successive calls fold over all the octets.** -/
theorem encodeChunks_eq {m : MemPools} (hm : m.Plentiful) (last : Buffer) (chunks : List Buffer)
    {form : HexIoCfg} (hpreserve : form.preserve = true) :
    hexEncodeChunks m last chunks form =
      some ((encoded (chunks.flatMap Buffer.data ++ last.data) form).output,
        (encoded (chunks.flatMap Buffer.data ++ last.data) form).form) := by
  induction chunks generalizing form with
  | nil => rw [hexEncodeChunks, hexEncode_eq hm, Option.map_some, List.flatMap_nil, List.nil_append]
  | cons input chunks ih =>
      obtain ⟨g, l, hform⟩ := form_foldl_putOctet input.data ⟨[], form.enter⟩
      obtain ⟨-, hkept, hfp⟩ := enter_spec form
      -- the configuration for the next call
      have hnext : ({ ((input.data.foldl putOctet ⟨[], form.enter⟩).behind [] false).form with
          finalPass := form.finalPass } : HexIoCfg) =
            (input.data.foldl putOctet ⟨[], form.enter⟩).form := by
        rw [HexIo.form_behind, hform, ← hfp]
        rfl
      have hrest := @ih (input.data.foldl putOctet ⟨[], form.enter⟩).form (by
        rw [hform]
        exact hkept.trans hpreserve)
      rw [List.flatMap_cons, List.append_assoc, encoded_append _ _ hpreserve, hexEncodeChunks,
        hexEncode_eq hm, encoded_finalPass]
      simp only [Option.bind_eq_bind, Option.bind_some, hnext, hrest]
      rfl

/-! ### Decoding -/

/-- Between two octets the decoder passes over the tokens. -/
def HexIoCfg.Skipped (form : HexIoCfg) : Prop := ∀ t ∈ form.tokens, HexGap t

theorem skipped_of_tokens {form : HexIoCfg}
    (hlead : (∀ c ∈ form.groupPrefix, isHexDigit c = false) ∨ form.groupPrefix = ascii "0x" ∨
      form.groupPrefix = ascii "0X")
    (hsuffix : ∀ c ∈ form.suffix, isHexDigit c = false)
    (hseparator : ∀ c ∈ form.separator, isHexDigit c = false) : form.Skipped := by
  intro t ht
  simp only [HexIoCfg.tokens, List.mem_cons, List.not_mem_nil, or_false] at ht
  rcases ht with rfl | rfl | rfl | rfl
  · rcases hlead with h | h | h
    · exact hexGap_of_forall h
    · rw [h]
      exact hexGap_cPrefix (.inl rfl)
    · rw [h]
      exact hexGap_cPrefix (.inr rfl)
  · exact hexGap_of_forall hsuffix
  · exact hexGap_of_forall hseparator
  · exact hexGap_of_forall (List.forall_mem_singleton.2 rfl)

/-- A decoder passes over what `FormatOutput` writes. -/
theorem HexIo.Pads.hexText {s s' : HexIo} (h : HexIo.Pads s s') (hskip : s.form.Skipped)
    {d : List UInt8} (hs : HexText s.output d) : HexText s'.output d := by
  obtain ⟨⟨ts, hts, hout⟩, -⟩ := h
  have hgap : HexGap ts.flatten := by
    clear hout
    induction ts with
    | nil => exact hexGap_nil
    | cons t ts ih =>
        exact (hskip t (hts t List.mem_cons_self)).append
          (ih fun u hu => hts u (List.mem_cons_of_mem _ hu))
  have htext := hs.append (.of_gap hgap)
  rwa [List.append_nil, ← hout] at htext

theorem hexText_putOctet {s : HexIo} (hskip : s.form.Skipped) {d : List UInt8}
    (hs : HexText s.output d) (ch : UInt8) : HexText (putOctet s ch).output (d ++ [ch]) :=
  ((pads_formatOutput s false).hexText hskip hs).append (.of_octet ch)

/-- A run writes the octets in digits, with gaps between them. -/
theorem hexText_foldl_putOctet (data : List UInt8) {s : HexIo} (hskip : s.form.Skipped)
    {d : List UInt8} (hs : HexText s.output d) :
    HexText (data.foldl putOctet s).output (d ++ data) := by
  induction data generalizing s d with
  | nil => rwa [List.append_nil]
  | cons ch data ih =>
      obtain ⟨g, l, hform⟩ := form_putOctet s ch
      have hstep : (putOctet s ch).form.Skipped := by
        rw [hform]
        exact hskip
      have hrun := ih hstep (hexText_putOctet hskip hs ch)
      rwa [List.append_assoc, List.singleton_append] at hrun

theorem hexText_encoded (data : List UInt8) {form : HexIoCfg} (hskip : form.Skipped) :
    HexText (encoded data form).output data := by
  have henter : form.enter.Skipped := by
    have htokens : form.enter.tokens = form.tokens := by
      simp only [HexIoCfg.enter]
      split_ifs <;> rfl
    rwa [HexIoCfg.Skipped, htokens]
  have hrun := hexText_foldl_putOctet data (s := ⟨[], form.enter⟩) henter HexText.nil
  rw [List.nil_append] at hrun
  obtain ⟨g, l, hform⟩ := form_foldl_putOctet data ⟨[], form.enter⟩
  have hskip' : (data.foldl putOctet ⟨[], form.enter⟩).form.Skipped := by
    rw [hform]
    exact henter
  rw [encoded, HexIo.finish]
  split_ifs
  · exact (pads_formatOutput _ true).hexText hskip' hrun
  · exact hrun

/-- **Hex encoding does not depend on the cuts of the data and is decoded again.**  Successive calls on
one configuration that is preserved write together what one call writes, and leave the same
configuration; the decoder finds the data in the text, if there is no hex digit in the suffix and the
separator and none in the prefix, which may also be that of C.  The lengths at the start are any. -/
theorem hexEncode_chunks {m : MemPools} (hm : m.Plentiful) {form : HexIoCfg}
    (hpreserve : form.preserve = true)
    (hlead : (∀ c ∈ form.groupPrefix, isHexDigit c = false) ∨ form.groupPrefix = ascii "0x" ∨
      form.groupPrefix = ascii "0X")
    (hsuffix : ∀ c ∈ form.suffix, isHexDigit c = false)
    (hseparator : ∀ c ∈ form.separator, isHexDigit c = false)
    (input : Buffer) (chunks : List Buffer) (last : Buffer)
    (hinput : input.data = chunks.flatMap Buffer.data ++ last.data) (b : Buffer) :
    ∃ s : HexIo, hexEncode m input form = some (s.output.length, s) ∧
      hexEncodeChunks m last chunks form = some (s.output, s.form) ∧
      (hexDecode m s.output b).1 = input.data.length ∧
      (hexDecode m s.output b).2.data = input.data := by
  have htext := hexText_encoded input.data (skipped_of_tokens hlead hsuffix hseparator)
  refine ⟨encoded input.data form, hexEncode_eq hm input form, ?_, htext.hexDecode_eq hm b⟩
  rw [hinput]
  exact encodeChunks_eq hm last chunks hpreserve

/-- Three octets as C writes them, cut in the middle of a group. -/
theorem hexEncode_chunks_sample :
    let form : HexIoCfg :=
      { groupLenMax := 2, lineLenMax := 6, preserve := true, groupPrefix := ascii "0x",
        suffix := ascii ",", separator := ascii " " }
    let buf (d : List UInt8) : Buffer := (Buffer.empty.copyIn exactPools d).2
    ∃ s : HexIo, hexEncode exactPools (buf [171, 1, 2]) form = some (s.output.length, s) ∧
      hexEncodeChunks exactPools (buf [1, 2]) [buf [171]] form = some (s.output, s.form) ∧
      (hexDecode exactPools s.output Buffer.empty).1 = (buf [171, 1, 2]).data.length ∧
      (hexDecode exactPools s.output Buffer.empty).2.data = (buf [171, 1, 2]).data :=
  hexEncode_chunks plentiful_exactPools rfl (.inr (.inl rfl))
    (by simp [ascii, isHexDigit, isDigit]) (by simp [ascii, isHexDigit, isDigit]) _ _ _ (by decide) _

end CodePort
