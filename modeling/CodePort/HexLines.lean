/-
The lines of a hexadecimal text.

Before a group is started the formatter tests whether there is room for it on the line, and starts a new
line otherwise.  The test counts the group and what ends a line, but not the separator that is written in
front of the group; so a line can get longer than the maximum.

Main definitions:

* `CodePort.HexIoCfg.groupChars`, `groupPeriod`, `lineChars` — the lengths of a group, of a group with
  its separator, and of a line;
* `CodePort.HexIoCfg.fitting`, `placed` — how many groups have room on a line, and how many the test
  admits;
* `CodePort.Laid` — the invariant of the encoder: which lines have been written.

Main results:

* `CodePort.lineFull_iff` — what the test admits, in numbers;
* `CodePort.laid_putOctet`, `laid_run` — the invariant holds of a step, and of every run;
* `CodePort.hexEncode_lines_iff` — **no line is too long exactly when the test admits no more groups
  than have room, or the data ends before the line does**.
-/

import CodePort.BufferLines
import CodePort.HexIo
import Mathlib.Data.List.Induction

set_option relaxedAutoImplicit false
set_option autoImplicit false

namespace CodePort

/-- The lines of a text in which every line but the last is followed by a line feed. -/
theorem splitOn_joinLines {lines : List (List UInt8)} {cur : List UInt8}
    (hlines : ∀ l ∈ lines, 10 ∉ l) (hcur : 10 ∉ cur) :
    (joinLines [10] lines ++ cur).splitOn 10 = lines ++ [cur] := by
  induction lines with
  | nil => exact List.splitOn_eq_singleton hcur
  | cons l lines ih =>
      have hl : 10 ∉ l := hlines l List.mem_cons_self
      have hrest := ih fun l' hl' => hlines l' (List.mem_cons_of_mem _ hl')
      have hjoin : joinLines [10] (l :: lines) ++ cur = l ++ 10 :: (joinLines [10] lines ++ cur) := by
        simp [joinLines]
      rw [hjoin, List.splitOn_append_cons_self_of_not_mem hl, hrest, List.cons_append]

/-! ### Lengths -/

namespace HexIoCfg

variable (form : HexIoCfg)

/-- The number of octets in a group: a call takes zero as one. -/
def groupOctets : ℕ := if form.groupLenMax = 0 then 1 else form.groupLenMax.toNat

/-- What stands at the beginning of each line. -/
def lineHead : List UInt8 := if form.preLine then form.separator else []

/-- What stands at the end of each line. -/
def lineTail : List UInt8 := if form.postLine then form.separator else []

/-- The length of a group of so many octets. -/
def fullGroup (octets : ℕ) : ℕ := form.groupPrefix.length + 2 * octets + form.suffix.length

/-- The length of a full group. -/
def groupChars : ℕ := form.fullGroup form.groupOctets

/-- The distance from a group to the next one on a line. -/
def groupPeriod : ℕ := form.groupChars + form.separator.length

/-- What a line has for its groups. -/
def lineRoom : ℕ := form.lineLenMax.toNat - form.lineHead.length - form.lineTail.length

/-- The number of groups that have room on a line, with the separators between them. -/
def fitting : ℕ := (form.lineRoom + form.separator.length) / form.groupPeriod

/-- The number of groups that are placed on a line: the separator in front of the last one is not
counted, and one group is placed in any case. -/
def placed : ℕ := max 1 ((form.lineRoom + 2 * form.separator.length) / form.groupPeriod)

/-- The length of a line with so many groups, and with so many octets of the next one. -/
def lineChars (groups octets : ℕ) : ℕ :=
  form.lineHead.length + groups * form.groupPeriod + form.groupPrefix.length + 2 * octets

/-- What is written behind the last octet, up to the line feed. -/
def closing : List UInt8 := if form.finalPass then form.suffix ++ form.lineTail else []

/-- The lines of a text of so many octets have room: as many groups are placed on a line as have room,
or the data does not fill the line, and what there is of the last group has room. -/
def LinesFit (n : ℕ) : Prop :=
  form.placed = form.fitting ∨ n ≤ form.fitting * form.groupOctets ∨
    n ≤ (form.fitting + 1) * form.groupOctets ∧
      form.lineChars form.fitting (n - form.fitting * form.groupOctets) + form.closing.length ≤
        form.lineLenMax.toNat

instance (n : ℕ) : Decidable (form.LinesFit n) :=
  inferInstanceAs (Decidable (_ ∨ _ ∨ _ ∧ _))

/-- The tokens have no line feed in them. -/
def Plain : Prop := 10 ∉ form.groupPrefix ∧ 10 ∉ form.suffix ∧ 10 ∉ form.separator

variable {form}

theorem groupOctets_pos : 0 < form.groupOctets := by
  rw [groupOctets]
  split_ifs with h
  · exact Nat.one_pos
  · exact Nat.pos_of_ne_zero fun h0 => h (UInt64.toNat_inj.1 h0)

theorem groupChars_pos : 0 < form.groupChars := by
  have hoctets := form.groupOctets_pos
  rw [groupChars, fullGroup]
  omega

theorem Plain.notMem_lineHead (h : form.Plain) : 10 ∉ form.lineHead := by
  rw [lineHead]
  split_ifs
  · exact h.2.2
  · exact List.not_mem_nil

theorem Plain.notMem_lineTail (h : form.Plain) : 10 ∉ form.lineTail := by
  rw [lineTail]
  split_ifs
  · exact h.2.2
  · exact List.not_mem_nil

/-- Another group is placed on a line of `g + 1` groups if the line, the group and what ends a line are
not too long together. -/
theorem lt_placed_iff (hroom : form.lineHead.length + form.lineTail.length ≤ form.lineLenMax.toNat)
    (g : ℕ) :
    g + 1 < form.placed ↔
      form.lineHead.length + g * form.groupPeriod + 2 * form.groupChars + form.lineTail.length ≤
        form.lineLenMax.toNat := by
  have hperiod : 0 < form.groupPeriod := Nat.add_pos_left form.groupChars_pos _
  have hdiv : g + 1 < form.placed ↔
      g + 2 ≤ (form.lineRoom + 2 * form.separator.length) / form.groupPeriod := by
    rw [placed, lt_max_iff]
    omega
  have hmul : (g + 2) * form.groupPeriod =
      g * form.groupPeriod + 2 * form.groupChars + 2 * form.separator.length := by
    rw [Nat.add_mul, groupPeriod]
    omega
  rw [hdiv, Nat.le_div_iff_mul_le hperiod, hmul, lineRoom]
  omega

/-- So many groups fit on a line, with the separators between them. -/
theorem succ_le_fitting_iff
    (hroom : form.lineHead.length + form.lineTail.length ≤ form.lineLenMax.toNat) (g : ℕ) :
    g + 1 ≤ form.fitting ↔
      form.lineHead.length + g * form.groupPeriod + form.groupChars + form.lineTail.length ≤
        form.lineLenMax.toNat := by
  have hperiod : 0 < form.groupPeriod := Nat.add_pos_left form.groupChars_pos _
  have hmul : (g + 1) * form.groupPeriod =
      g * form.groupPeriod + form.groupChars + form.separator.length := by
    rw [Nat.add_mul, groupPeriod]
    omega
  rw [fitting, Nat.le_div_iff_mul_le hperiod, hmul, lineRoom]
  omega

/-- At least one group is placed, and at most one more than fit. -/
theorem placed_spec : form.fitting ≤ form.placed ∧ form.placed ≤ form.fitting + 1 := by
  have hperiod : 0 < form.groupPeriod := Nat.add_pos_left form.groupChars_pos _
  have hsep : form.separator.length ≤ form.groupPeriod := Nat.le_add_left _ _
  have hle : (form.lineRoom + 2 * form.separator.length) / form.groupPeriod ≤ form.fitting + 1 := by
    rw [fitting, ← Nat.add_div_right _ hperiod]
    exact Nat.div_le_div_right (by omega)
  have hge : form.fitting ≤ (form.lineRoom + 2 * form.separator.length) / form.groupPeriod :=
    Nat.div_le_div_right (by omega)
  rw [placed]
  omega

end HexIoCfg

/-! ### Writing on a line -/

/-- The state of a call that has written complete lines and is in the middle of a line. -/
def HexIo.onLine (form : HexIoCfg) (out cur : List UInt8) (groupLen : UInt64) : HexIo where
  output := out ++ cur
  form := form.withLens groupLen (UInt64.ofNat cur.length)

section OnLine

variable (form : HexIoCfg) (out cur : List UInt8) (g : UInt64)

theorem putToken_onLine (token : List UInt8) :
    (HexIo.onLine form out cur g).putToken token = .onLine form out (cur ++ token) g := by
  simp [HexIo.onLine, HexIo.putToken, HexIoCfg.withLens, UInt64.ofNat_add]

theorem putDigits_onLine (ch : UInt8) :
    (HexIo.onLine form out cur g).putDigits (hexOctet ch) =
      .onLine form out (cur ++ hexOctet ch) (g + 1) := by
  have hlength : (hexOctet ch).length = 2 := rfl
  simp [HexIo.onLine, HexIo.putDigits, HexIoCfg.withLens, UInt64.ofNat_add, hlength]

/-- At the end of a line. -/
theorem nextLine_of_full {final : Bool}
    (h : (final || (HexIo.onLine form out cur g).form.lineFull) = true) :
    (HexIo.onLine form out cur g).nextLine final =
      .onLine form (out ++ (cur ++ form.lineTail) ++ [10]) [] g := by
  rw [HexIo.nextLine, if_pos h, HexIo.onLine, HexIo.onLine, List.append_nil, ← List.append_assoc out]
  rfl

variable {cur}

theorem lineLen_ne_zero (hne : cur ≠ []) (hlt : cur.length < 2 ^ 64) :
    (HexIo.onLine form out cur g).form.lineLen ≠ 0 := by
  have hpos := List.length_pos_of_ne_nil hne
  intro h
  have hnat := congrArg UInt64.toNat h
  simp only [HexIo.onLine, HexIoCfg.withLens, UInt64.toNat_ofNat', UInt64.toNat_zero] at hnat
  omega

/-- In the middle of a line. -/
theorem nextLine_of_room (hne : cur ≠ []) (hlt : cur.length < 2 ^ 64)
    (h : (HexIo.onLine form out cur g).form.lineFull = false) :
    (HexIo.onLine form out cur g).nextLine false = .onLine form out (cur ++ form.separator) g := by
  have hlen : 0 < (HexIo.onLine form out cur g).form.lineLen :=
    UInt64.pos_iff_ne_zero.2 (lineLen_ne_zero form out g hne hlt)
  rw [HexIo.nextLine, if_neg (by simp [h]), if_pos hlen]
  exact putToken_onLine form out cur g form.separator

theorem startGroup_of_ne_nil (hne : cur ≠ []) (hlt : cur.length < 2 ^ 64) :
    (HexIo.onLine form out cur g).startGroup = .onLine form out (cur ++ form.groupPrefix) g := by
  have hlen := lineLen_ne_zero form out g hne hlt
  rw [HexIo.startGroup, HexIo.indent, if_neg (by simp [hlen])]
  exact putToken_onLine form out cur g form.groupPrefix

/-- At the beginning of a line. -/
theorem startGroup_nil :
    (HexIo.onLine form out [] g).startGroup =
      .onLine form out (form.lineHead ++ form.groupPrefix) g := by
  have hlen : (HexIo.onLine form out [] g).form.lineLen = 0 := rfl
  have hindent : (HexIo.onLine form out [] g).indent = .onLine form out form.lineHead g := by
    rw [HexIo.indent, HexIoCfg.lineHead, hlen, decide_eq_true rfl, Bool.and_true]
    change (if form.preLine = true then _ else _) = _
    split_ifs
    · exact putToken_onLine form out [] g form.separator
    · rfl
  rw [HexIo.startGroup, hindent]
  exact putToken_onLine form out form.lineHead g form.groupPrefix

/-- **The room test, in numbers.** -/
theorem lineFull_iff (hmax : 0 < form.lineLenMax) (hgroup : form.groupLenMax ≠ 0)
    (hlt : cur.length + form.groupChars + form.lineTail.length < 2 ^ 64) :
    (HexIo.onLine form out cur g).form.lineFull = true ↔
      form.lineLenMax.toNat < cur.length + form.groupChars + form.lineTail.length := by
  have htail : (if form.postLine then UInt64.ofNat form.separator.length else 0) =
      UInt64.ofNat form.lineTail.length := by
    rw [HexIoCfg.lineTail]
    split_ifs <;> rfl
  have hchars : form.groupChars =
      form.groupPrefix.length + 2 * form.groupLenMax.toNat + form.suffix.length := by
    rw [HexIoCfg.groupChars, HexIoCfg.fullGroup, HexIoCfg.groupOctets, if_neg hgroup]
  rw [hchars] at hlt ⊢
  have hsum : (UInt64.ofNat cur.length + form.tokenLen + UInt64.ofNat form.lineTail.length).toNat =
      cur.length + (form.groupPrefix.length + 2 * form.groupLenMax.toNat + form.suffix.length) +
        form.lineTail.length := by
    rw [HexIoCfg.tokenLen]
    simp only [UInt64.toNat_add, UInt64.toNat_mul, UInt64.toNat_ofNat']
    have htwo : (2 : UInt64).toNat = 2 := rfl
    rw [htwo]
    omega
  have hdef : (HexIo.onLine form out cur g).form.lineFull =
      (decide (0 < form.lineLenMax) && decide (form.lineLenMax <
        UInt64.ofNat cur.length + form.tokenLen +
          (if form.postLine then UInt64.ofNat form.separator.length else 0))) := rfl
  rw [hdef, htail, decide_eq_true hmax, Bool.true_and, decide_eq_true_iff, UInt64.lt_iff_toNat_lt, hsum]

end OnLine

/-! ### The formatter -/

/-- In the middle of a group nothing is written. -/
theorem formatOutput_of_lt {s : HexIo} (hlt : s.form.groupLen < s.form.groupLenMax)
    (hne : s.form.groupLen ≠ 0) : formatOutput s false = s := by
  have hnot : ¬ s.form.groupLenMax ≤ s.form.groupLen := UInt64.not_le.2 hlt
  have hend : s.endGroup false = s := by
    rw [HexIo.endGroup, if_neg (by simpa using hnot)]
  simp only [formatOutput, hend]
  rw [if_neg (by simpa using hne)]

/-- At the end of a group the suffix is written and another group is started. -/
theorem formatOutput_of_le {form : HexIoCfg} (out cur : List UInt8) {g : UInt64}
    (hle : form.groupLenMax ≤ g) :
    formatOutput (.onLine form out cur g) false =
      ((HexIo.onLine form out (cur ++ form.suffix) 0).nextLine false).startGroup := by
  have hend : (HexIo.onLine form out cur g).endGroup false =
      .onLine form out (cur ++ form.suffix) 0 := by
    rw [HexIo.endGroup, if_pos (by rw [Bool.false_or]; exact decide_eq_true hle)]
    exact putToken_onLine form out cur 0 form.suffix
  simp only [formatOutput, hend]
  rfl

/-- The first group. -/
theorem formatOutput_start {form : HexIoCfg} (hgroup : form.groupLenMax ≠ 0) :
    formatOutput (.onLine form [] [] 0) false =
      ((HexIo.onLine form [] [] 0).nextLine false).startGroup := by
  have hnot : ¬ form.groupLenMax ≤ 0 := UInt64.not_le.2 (UInt64.pos_iff_ne_zero.2 hgroup)
  have hend : (HexIo.onLine form [] [] 0).endGroup false = .onLine form [] [] 0 := by
    rw [HexIo.endGroup, if_neg (by simpa [HexIo.onLine, HexIoCfg.withLens] using hnot)]
  simp only [formatOutput, hend]
  rfl

/-- The closing tokens. -/
theorem formatOutput_final {form : HexIoCfg} (out cur : List UInt8) {g : UInt64} :
    formatOutput (.onLine form out cur g) true =
      .onLine form (out ++ (cur ++ form.suffix ++ form.lineTail) ++ [10]) [] 0 := by
  have hend : (HexIo.onLine form out cur g).endGroup true = .onLine form out (cur ++ form.suffix) 0 :=
    putToken_onLine form out cur 0 form.suffix
  simp only [formatOutput, hend]
  exact @nextLine_of_full form out (cur ++ form.suffix) 0 true rfl

/-! ### The invariant -/

/-- What the encoder has written after some octets: `lead` and `body` are the complete lines, and the
current line has `g` groups and `r` octets of the next one. -/
structure Laid (form : HexIoCfg) (lead body : List (List UInt8)) (g r : ℕ) (s : HexIo) : Prop where
  /-- The line that is being written. -/
  state : ∃ cur, s = .onLine form (joinLines [10] (lead ++ body)) cur (UInt64.ofNat r) ∧
    cur.length = form.lineChars g r ∧ 10 ∉ cur
  /-- A line without data, where not even one group has room. -/
  lead : ∀ l ∈ lead, l = form.lineTail
  /-- The lines that are full. -/
  body : ∀ l ∈ body, l.length = form.lineChars (form.placed - 1) form.groupOctets +
    form.suffix.length + form.lineTail.length ∧ 10 ∉ l
  groups : g < form.placed
  octets : 1 ≤ r ∧ r ≤ form.groupOctets

section Laid

variable {form : HexIoCfg}

theorem notMem_hexOctet (ch : UInt8) : 10 ∉ hexOctet ch := by
  have hdigit : ∀ n < 16, (10 : UInt8) ≠ hexDigit n := by decide
  have hlt := ch.toNat_lt
  have hhigh := hdigit (ch.toNat / 16) (by omega)
  have hlow := hdigit (ch.toNat % 16) (by omega)
  simp [hexOctet, hhigh, hlow]

/-- A run never takes back what is written. -/
theorem length_le_putOctet (s : HexIo) (ch : UInt8) :
    (formatOutput s false).output.length ≤ (putOctet s ch).output.length := by
  simp [putOctet, HexIo.putDigits]

theorem HexIo.Pads.length_le {s s' : HexIo} (h : HexIo.Pads s s') :
    s.output.length ≤ s'.output.length := by
  obtain ⟨⟨ts, -, hout⟩, -⟩ := h
  rw [hout, List.length_append]
  exact Nat.le_add_right _ _

/-- The first octet. -/
theorem laid_start (hplain : form.Plain) (hgroup : form.groupLenMax ≠ 0) (ch : UInt8) :
    ∃ lead, Laid form lead [] 0 1 (putOctet ⟨[], form.withLens 0 0⟩ ch) := by
  have hstart : (⟨[], form.withLens 0 0⟩ : HexIo) = .onLine form [] [] 0 := rfl
  have hlength : (form.lineHead ++ form.groupPrefix ++ hexOctet ch).length = form.lineChars 0 1 := by
    have hoctet : (hexOctet ch).length = 2 := rfl
    rw [List.length_append, List.length_append, hoctet, HexIoCfg.lineChars]
    omega
  have hmem : 10 ∉ form.lineHead ++ form.groupPrefix ++ hexOctet ch := by
    simp only [List.mem_append, not_or]
    exact ⟨⟨hplain.notMem_lineHead, hplain.1⟩, notMem_hexOctet ch⟩
  -- a group is put at the beginning of a line
  have hput : ∀ out, ((HexIo.onLine form out [] 0).startGroup).putDigits (hexOctet ch) =
      .onLine form out (form.lineHead ++ form.groupPrefix ++ hexOctet ch) (UInt64.ofNat 1) := by
    intro out
    rw [startGroup_nil, putDigits_onLine]
    rfl
  have hplaced : 0 < form.placed := Nat.lt_of_lt_of_le Nat.one_pos (Nat.le_max_left 1 _)
  rw [hstart, putOctet, formatOutput_start hgroup]
  cases hfull : (HexIo.onLine form [] [] 0).form.lineFull with
  | true =>
      refine ⟨[form.lineTail], ⟨_, ?_, hlength, hmem⟩, by simp, by simp, hplaced, le_rfl,
        form.groupOctets_pos⟩
      rw [@nextLine_of_full form [] [] 0 false hfull, hput]
      simp [joinLines]
  | false =>
      refine ⟨[], ⟨_, ?_, hlength, hmem⟩, by simp, by simp, hplaced, le_rfl, form.groupOctets_pos⟩
      have hnext : (HexIo.onLine form [] [] 0).nextLine false = .onLine form [] [] 0 := by
        rw [HexIo.nextLine, if_neg (by simp [hfull]), if_neg (by simp [HexIo.onLine, HexIoCfg.withLens])]
      rw [hnext, hput]
      rfl

/-- Another octet of the group. -/
theorem laid_sameGroup (hgroup : form.groupLenMax ≠ 0) {lead body : List (List UInt8)} {g r : ℕ}
    {s : HexIo} (h : Laid form lead body g r s) (hr : r < form.groupOctets) (ch : UInt8) :
    Laid form lead body g (r + 1) (putOctet s ch) := by
  obtain ⟨cur, rfl, hlength, hmem⟩ := h.state
  have hoctets : form.groupOctets = form.groupLenMax.toNat := by
    rw [HexIoCfg.groupOctets, if_neg hgroup]
  have hmax := form.groupLenMax.toNat_lt
  have hpos := h.octets.1
  have hnat : (UInt64.ofNat r).toNat = r := by
    rw [UInt64.toNat_ofNat']
    omega
  have hlt : UInt64.ofNat r < form.groupLenMax := by
    rw [UInt64.lt_iff_toNat_lt, hnat]
    omega
  have hne : UInt64.ofNat r ≠ 0 := by
    intro h0
    rw [h0, UInt64.toNat_zero] at hnat
    omega
  have hcounted : UInt64.ofNat r + 1 = UInt64.ofNat (r + 1) := (UInt64.ofNat_add r 1).symm
  have hoctet : (hexOctet ch).length = 2 := rfl
  refine ⟨⟨cur ++ hexOctet ch, ?_, ?_, ?_⟩, h.lead, h.body, h.groups, by omega, by omega⟩
  · rw [putOctet, formatOutput_of_lt hlt hne, putDigits_onLine, hcounted]
  · rw [List.length_append, hlength, hoctet, HexIoCfg.lineChars, HexIoCfg.lineChars]
    omega
  · rw [List.mem_append, not_or]
    exact ⟨hmem, notMem_hexOctet ch⟩

/-- The length of a line at the end of a group. -/
theorem length_groupEnd {cur : List UInt8} {g : ℕ}
    (hlength : cur.length = form.lineChars g form.groupOctets) :
    (cur ++ form.suffix).length = form.lineHead.length + g * form.groupPeriod + form.groupChars := by
  rw [List.length_append, hlength, HexIoCfg.lineChars, HexIoCfg.groupChars, HexIoCfg.fullGroup]
  omega

/-- At the end of a group the test finds room for another one as long as fewer than `placed` groups are
on the line. -/
theorem lineFull_groupEnd (hgroup : form.groupLenMax ≠ 0) (hmax : 0 < form.lineLenMax)
    (hroom : form.lineHead.length + form.lineTail.length ≤ form.lineLenMax.toNat)
    (out : List UInt8) {cur : List UInt8} {g : ℕ}
    (hlength : cur.length = form.lineHead.length + g * form.groupPeriod + form.groupChars)
    (hlt : ((HexIo.onLine form out cur 0).nextLine false).output.length < 2 ^ 63) :
    (HexIo.onLine form out cur 0).form.lineFull = true ↔ ¬ g + 1 < form.placed := by
  have hchars := form.groupChars_pos
  have hne : cur ≠ [] := List.ne_nil_of_length_pos (by omega)
  have hpads := (HexIo.Pads.nextLine (.onLine form out cur 0) false).length_le
  have hout : (HexIo.onLine form out cur 0).output.length = out.length + cur.length :=
    List.length_append
  have htail : form.lineTail.length ≤ form.separator.length := by
    rw [HexIoCfg.lineTail]
    split_ifs <;> simp
  -- what ends a line, or the separator, is written behind the group
  have hwritten : cur.length + form.lineTail.length < 2 ^ 63 := by
    cases hfull : (HexIo.onLine form out cur 0).form.lineFull with
    | true =>
        rw [@nextLine_of_full form out cur 0 false hfull] at hlt
        simp only [HexIo.onLine, List.length_append] at hlt
        omega
    | false =>
        rw [nextLine_of_room form out 0 hne (by omega) hfull] at hlt
        simp only [HexIo.onLine, List.length_append] at hlt
        omega
  rw [lineFull_iff form out 0 hmax hgroup (by omega), form.lt_placed_iff hroom]
  omega

/-- The first octet of another group, on the next line. -/
theorem putOctet_nextLine (out cur : List UInt8) {g : UInt64} (hle : form.groupLenMax ≤ g)
    (hfull : (HexIo.onLine form out (cur ++ form.suffix) 0).form.lineFull = true) (ch : UInt8) :
    putOctet (.onLine form out cur g) ch =
      .onLine form (out ++ (cur ++ form.suffix ++ form.lineTail) ++ [10])
        (form.lineHead ++ form.groupPrefix ++ hexOctet ch) (UInt64.ofNat 1) := by
  rw [putOctet, formatOutput_of_le out cur hle, @nextLine_of_full form out _ 0 false hfull,
    startGroup_nil, putDigits_onLine]
  rfl

/-- The first octet of another group, on the same line. -/
theorem putOctet_sameLine (out : List UInt8) {cur : List UInt8} (hne : cur ≠ []) {g : UInt64}
    (hle : form.groupLenMax ≤ g) (hlt : (cur ++ form.suffix ++ form.separator).length < 2 ^ 64)
    (hroom : (HexIo.onLine form out (cur ++ form.suffix) 0).form.lineFull = false) (ch : UInt8) :
    putOctet (.onLine form out cur g) ch =
      .onLine form out (cur ++ form.suffix ++ form.separator ++ form.groupPrefix ++ hexOctet ch)
        (UInt64.ofNat 1) := by
  have hshort : (cur ++ form.suffix).length < 2 ^ 64 := by
    rw [List.length_append] at hlt
    omega
  rw [putOctet, formatOutput_of_le out cur hle,
    nextLine_of_room form out 0 (List.append_ne_nil_of_left_ne_nil hne _) hshort hroom,
    startGroup_of_ne_nil form out 0
      (List.append_ne_nil_of_left_ne_nil (List.append_ne_nil_of_left_ne_nil hne _) _) hlt,
    putDigits_onLine]
  rfl

/-- A line that has taken its groups is full, and the first octet stands on the next one. -/
theorem Laid.newLine (hplain : form.Plain) {lead body : List (List UInt8)} {g r : ℕ} {s : HexIo}
    (h : Laid form lead body g r s) {cur : List UInt8}
    (hcur : cur.length = form.lineChars g form.groupOctets) (hmem : 10 ∉ cur)
    (hplaced : g + 1 = form.placed) (ch : UInt8) :
    Laid form lead (body ++ [cur ++ form.suffix ++ form.lineTail]) 0 1
      (.onLine form (joinLines [10] (lead ++ body) ++ (cur ++ form.suffix ++ form.lineTail) ++ [10])
        (form.lineHead ++ form.groupPrefix ++ hexOctet ch) (UInt64.ofNat 1)) := by
  have hoctet : (hexOctet ch).length = 2 := rfl
  refine ⟨⟨form.lineHead ++ form.groupPrefix ++ hexOctet ch, ?_, ?_, ?_⟩, h.lead, ?_, by omega, le_rfl,
    form.groupOctets_pos⟩
  · simp [joinLines]
  · rw [List.length_append, List.length_append, hoctet, HexIoCfg.lineChars]
    omega
  · simp only [List.mem_append, not_or]
    exact ⟨⟨hplain.notMem_lineHead, hplain.1⟩, notMem_hexOctet ch⟩
  · intro l hl
    rcases List.mem_append.1 hl with hl | hl
    · exact h.body l hl
    rw [List.mem_singleton.1 hl, List.length_append, List.length_append, hcur, ← hplaced]
    simp only [List.mem_append, not_or]
    exact ⟨rfl, ⟨hmem, hplain.2.1⟩, hplain.notMem_lineTail⟩

/-- The first octet of the next group on a line. -/
theorem Laid.sameLine (hplain : form.Plain) {lead body : List (List UInt8)} {g r : ℕ} {s : HexIo}
    (h : Laid form lead body g r s) {cur : List UInt8}
    (hcur : cur.length = form.lineChars g form.groupOctets) (hmem : 10 ∉ cur)
    (hplaced : g + 1 < form.placed) (ch : UInt8) :
    Laid form lead body (g + 1) 1
      (.onLine form (joinLines [10] (lead ++ body))
        (cur ++ form.suffix ++ form.separator ++ form.groupPrefix ++ hexOctet ch)
        (UInt64.ofNat 1)) := by
  have hoctet : (hexOctet ch).length = 2 := rfl
  refine ⟨⟨_, rfl, ?_, ?_⟩, h.lead, h.body, hplaced, le_rfl, form.groupOctets_pos⟩
  · rw [List.length_append, List.length_append, List.length_append, length_groupEnd hcur, hoctet,
      HexIoCfg.lineChars, HexIoCfg.groupPeriod, Nat.add_mul]
    omega
  · simp only [List.mem_append, not_or]
    exact ⟨⟨⟨⟨hmem, hplain.2.1⟩, hplain.2.2⟩, hplain.1⟩, notMem_hexOctet ch⟩

/-- The first octet of another group: a line takes `placed` groups. -/
theorem laid_nextGroup (hplain : form.Plain) (hgroup : form.groupLenMax ≠ 0)
    (hmax : 0 < form.lineLenMax)
    (hroom : form.lineHead.length + form.lineTail.length ≤ form.lineLenMax.toNat)
    {lead body : List (List UInt8)} {g : ℕ} {s : HexIo} (h : Laid form lead body g form.groupOctets s)
    (ch : UInt8) (hlt : (putOctet s ch).output.length < 2 ^ 63) :
    ∃ body' g', Laid form lead body' g' 1 (putOctet s ch) ∧
      body'.length * form.placed + g' = body.length * form.placed + g + 1 := by
  obtain ⟨cur, hstate, hcur, hmem⟩ := h.state
  set out := joinLines [10] (lead ++ body) with hout
  have hgroups := h.groups
  have hle : form.groupLenMax ≤ UInt64.ofNat form.groupOctets := by
    rw [HexIoCfg.groupOctets, if_neg hgroup, UInt64.ofNat_toNat]
    exact UInt64.le_refl _
  -- the text in front of the octet is part of the output
  have hbefore : ((HexIo.onLine form out (cur ++ form.suffix) 0).nextLine false).output.length ≤
      (putOctet s ch).output.length := by
    refine Nat.le_trans (HexIo.Pads.startGroup _).length_le ?_
    rw [← formatOutput_of_le out cur hle, ← hstate]
    exact length_le_putOctet s ch
  have hfull := lineFull_groupEnd hgroup hmax hroom out (length_groupEnd hcur)
    (Nat.lt_of_le_of_lt hbefore hlt)
  cases hline : (HexIo.onLine form out (cur ++ form.suffix) 0).form.lineFull with
  | true =>
      have hplaced : g + 1 = form.placed := by
        have hnot := hfull.1 hline
        omega
      refine ⟨body ++ [cur ++ form.suffix ++ form.lineTail], 0, ?_, ?_⟩
      · rw [hstate, putOctet_nextLine out cur hle hline]
        exact h.newLine hplain hcur hmem hplaced ch
      · rw [List.length_append, List.length_singleton, Nat.add_mul, ← hplaced]
        omega
  | false =>
      have hplaced : g + 1 < form.placed := by
        by_contra hnot
        rw [hfull.2 hnot] at hline
        cases hline
      have hne : cur ≠ [] := by
        refine List.ne_nil_of_length_pos ?_
        have hoctets := form.groupOctets_pos
        rw [hcur, HexIoCfg.lineChars]
        omega
      have hshort : (cur ++ form.suffix ++ form.separator).length < 2 ^ 64 := by
        have hpads := (HexIo.Pads.nextLine (.onLine form out (cur ++ form.suffix) 0) false).length_le
        have hstart : (HexIo.onLine form out (cur ++ form.suffix) 0).output.length =
            out.length + (cur ++ form.suffix).length := List.length_append
        have hwritten : ((HexIo.onLine form out (cur ++ form.suffix) 0).nextLine false).output =
            out ++ (cur ++ form.suffix ++ form.separator) := by
          rw [nextLine_of_room form out 0 (List.append_ne_nil_of_left_ne_nil hne _) (by omega) hline]
          rfl
        rw [hwritten, List.length_append] at hbefore
        omega
      refine ⟨body, g + 1, ?_, by omega⟩
      rw [hstate, putOctet_sameLine out hne hle hshort hline]
      exact h.sameLine hplain hcur hmem hplaced ch

/-- **The invariant is kept by every octet.** -/
theorem laid_putOctet (hplain : form.Plain) (hgroup : form.groupLenMax ≠ 0)
    (hmax : 0 < form.lineLenMax)
    (hroom : form.lineHead.length + form.lineTail.length ≤ form.lineLenMax.toNat)
    {lead body : List (List UInt8)} {g r : ℕ} {s : HexIo} (h : Laid form lead body g r s) (ch : UInt8)
    (hlt : (putOctet s ch).output.length < 2 ^ 63) :
    ∃ body' g' r', Laid form lead body' g' r' (putOctet s ch) ∧
      (body'.length * form.placed + g') * form.groupOctets + r' =
        (body.length * form.placed + g) * form.groupOctets + r + 1 := by
  rcases Nat.lt_or_eq_of_le h.octets.2 with hr | rfl
  · exact ⟨body, g, r + 1, laid_sameGroup hgroup h hr ch, rfl⟩
  · obtain ⟨body', g', hstep, hcount⟩ := laid_nextGroup hplain hgroup hmax hroom h ch hlt
    refine ⟨body', g', 1, hstep, ?_⟩
    rw [hcount, Nat.add_mul _ 1, Nat.one_mul]

/-- **The invariant of a run**: the lines account for the octets. -/
theorem laid_run (hplain : form.Plain) (hgroup : form.groupLenMax ≠ 0) (hmax : 0 < form.lineLenMax)
    (hroom : form.lineHead.length + form.lineTail.length ≤ form.lineLenMax.toNat)
    (data : List UInt8) (ch : UInt8)
    (hlt : ((data ++ [ch]).foldl putOctet ⟨[], form.withLens 0 0⟩).output.length < 2 ^ 63) :
    ∃ lead body g r,
      Laid form lead body g r ((data ++ [ch]).foldl putOctet ⟨[], form.withLens 0 0⟩) ∧
        (body.length * form.placed + g) * form.groupOctets + r = data.length + 1 := by
  induction data using List.reverseRecOn generalizing ch with
  | nil =>
      obtain ⟨lead, hlaid⟩ := laid_start hplain hgroup ch
      exact ⟨lead, [], 0, 1, hlaid, by simp⟩
  | append_singleton data c ih =>
      rw [List.foldl_append, List.foldl_cons, List.foldl_nil] at hlt ⊢
      set s := (data ++ [c]).foldl putOctet ⟨[], form.withLens 0 0⟩ with hs
      have hle : s.output.length ≤ (putOctet s ch).output.length :=
        Nat.le_trans (pads_formatOutput s false).length_le (length_le_putOctet s ch)
      obtain ⟨lead, body, g, r, hlaid, hcount⟩ := ih c (Nat.lt_of_le_of_lt hle hlt)
      obtain ⟨body', g', r', hlaid', hcount'⟩ := laid_putOctet hplain hgroup hmax hroom hlaid ch hlt
      refine ⟨lead, body', g', r', hlaid', ?_⟩
      rw [hcount', hcount, List.length_append, List.length_singleton]

end Laid

/-! ### The lines -/

section Lines

variable {form : HexIoCfg}

theorem output_finish_onLine (out cur : List UInt8) (g : UInt64) :
    (HexIo.onLine form out cur g).finish.output =
      out ++ (cur ++ form.closing) ++ (if form.finalPass then [10] else []) := by
  have hfinal : (HexIo.onLine form out cur g).form.finalPass = form.finalPass := rfl
  rw [HexIo.finish, formatOutput_final, HexIoCfg.closing, hfinal]
  split_ifs
  · simp [HexIo.onLine]
  · simp [HexIo.onLine]

/-- The lines of a finished text. -/
theorem forall_lines_iff (hplain : form.Plain) {lines : List (List UInt8)} {cur : List UInt8}
    (hlines : ∀ l ∈ lines, 10 ∉ l) (hcur : 10 ∉ cur) (g : UInt64) :
    (∀ l ∈ (HexIo.onLine form (joinLines [10] lines) cur g).finish.output.splitOn 10,
      l.length ≤ form.lineLenMax.toNat) ↔
      (∀ l ∈ lines, l.length ≤ form.lineLenMax.toNat) ∧
        cur.length + form.closing.length ≤ form.lineLenMax.toNat := by
  have hclosing : 10 ∉ cur ++ form.closing := by
    rw [HexIoCfg.closing]
    split_ifs
    · simp only [List.mem_append, not_or]
      exact ⟨hcur, hplain.2.1, hplain.notMem_lineTail⟩
    · rwa [List.append_nil]
  rw [output_finish_onLine, ← List.length_append]
  cases form.finalPass with
  | false =>
      rw [if_neg (by decide), List.append_nil, splitOn_joinLines hlines hclosing]
      simp [or_imp, forall_and]
  | true =>
      have hjoin : joinLines [10] lines ++ (cur ++ form.closing) ++ [10] =
          joinLines [10] (lines ++ [cur ++ form.closing]) ++ [] := by
        simp [joinLines]
      have hall : ∀ l ∈ lines ++ [cur ++ form.closing], 10 ∉ l := by
        intro l hl
        rcases List.mem_append.1 hl with hl | hl
        · exact hlines l hl
        · exact List.mem_singleton.1 hl ▸ hclosing
      rw [if_pos rfl, hjoin, splitOn_joinLines hall List.not_mem_nil]
      simp [or_imp, forall_and]

/-- The length of a full line. -/
theorem lineChars_full (g : ℕ) :
    form.lineChars g form.groupOctets + form.suffix.length + form.lineTail.length =
      form.lineHead.length + g * form.groupPeriod + form.groupChars + form.lineTail.length := by
  rw [HexIoCfg.lineChars, HexIoCfg.groupChars, HexIoCfg.fullGroup]
  omega

/-- A line that has room for its last group fits with all that is written behind it. -/
theorem lineChars_le (hroom : form.lineHead.length + form.lineTail.length ≤ form.lineLenMax.toNat)
    {g r : ℕ} (hg : g < form.fitting) (hr : r ≤ form.groupOctets) :
    form.lineChars g r + form.closing.length ≤ form.lineLenMax.toNat := by
  have hfits := (form.succ_le_fitting_iff hroom g).1 hg
  have hclosing : form.closing.length ≤ form.suffix.length + form.lineTail.length := by
    rw [HexIoCfg.closing]
    split_ifs <;> simp
  rw [← lineChars_full, HexIoCfg.lineChars] at hfits
  rw [HexIoCfg.lineChars]
  omega

/-- **Whether the lines fit, from what the invariant says of them**: `k` lines are full, and the last
one has `g` groups and `r` octets. -/
theorem linesFit_iff (hroom : form.lineHead.length + form.lineTail.length ≤ form.lineLenMax.toNat)
    {k g r : ℕ} (hg : g < form.placed) (hr : 1 ≤ r ∧ r ≤ form.groupOctets) :
    form.LinesFit ((k * form.placed + g) * form.groupOctets + r) ↔
      (0 < k → form.lineChars (form.placed - 1) form.groupOctets + form.suffix.length +
          form.lineTail.length ≤ form.lineLenMax.toNat) ∧
        form.lineChars g r + form.closing.length ≤ form.lineLenMax.toNat := by
  obtain ⟨hge, hle⟩ := form.placed_spec
  have hfull : form.lineChars (form.placed - 1) form.groupOctets + form.suffix.length +
      form.lineTail.length ≤ form.lineLenMax.toNat ↔ form.placed ≤ form.fitting := by
    rw [lineChars_full, ← form.succ_le_fitting_iff hroom, Nat.sub_add_cancel (by omega)]
  rw [hfull, HexIoCfg.LinesFit]
  rcases Nat.lt_or_eq_of_le hge with hmore | hsame
  · -- one group more is placed than fits: no line may be full
    have hplaced : form.placed = form.fitting + 1 := by omega
    rw [hplaced]
    have hnext : (form.fitting + 1) * form.groupOctets =
        form.fitting * form.groupOctets + form.groupOctets := Nat.succ_mul _ _
    rcases Nat.eq_zero_or_pos k with rfl | hk
    · rw [Nat.zero_mul, Nat.zero_add]
      rcases Nat.lt_or_eq_of_le (Nat.le_of_lt_succ (hplaced ▸ hg)) with hlt | rfl
      · have hmul : (g + 1) * form.groupOctets ≤ form.fitting * form.groupOctets :=
          Nat.mul_le_mul_right _ hlt
        rw [Nat.succ_mul] at hmul
        have hlast := lineChars_le hroom hlt hr.2
        exact iff_of_true (.inr (.inl (by omega))) ⟨fun h => absurd h (Nat.lt_irrefl 0), hlast⟩
      · rw [Nat.add_sub_cancel_left]
        omega
    · have hmul : (form.fitting + 1) * form.groupOctets ≤
          k * (form.fitting + 1) * form.groupOctets :=
        Nat.mul_le_mul_right _ (Nat.le_mul_of_pos_left _ hk)
      have hsum := Nat.add_mul (k * (form.fitting + 1)) g form.groupOctets
      have hmany : ¬ (k * (form.fitting + 1) + g) * form.groupOctets + r ≤
          (form.fitting + 1) * form.groupOctets := by omega
      omega
  · have hlast := lineChars_le hroom (hsame.symm ▸ hg) hr.2
    exact iff_of_true (.inl hsame.symm) ⟨fun _ => hsame.ge, hlast⟩

/-- The lines of a text, by the number of its octets. -/
theorem lines_encoded_iff (hplain : form.Plain) (hgroup : form.groupLenMax ≠ 0)
    (hmax : 0 < form.lineLenMax)
    (hroom : form.lineHead.length + form.lineTail.length ≤ form.lineLenMax.toNat)
    (hclosing : form.closing.length ≤ form.lineLenMax.toNat) (data : List UInt8)
    (hlt : (data.foldl putOctet ⟨[], form.withLens 0 0⟩).finish.output.length < 2 ^ 63) :
    (∀ l ∈ (data.foldl putOctet ⟨[], form.withLens 0 0⟩).finish.output.splitOn 10,
      l.length ≤ form.lineLenMax.toNat) ↔ form.LinesFit data.length := by
  rcases List.eq_nil_or_concat data with rfl | ⟨data, ch, rfl⟩
  · have hlines := @forall_lines_iff form hplain [] [] (by simp) List.not_mem_nil 0
    refine hlines.trans (iff_of_true ⟨by simp, ?_⟩ (.inr (.inl (Nat.zero_le _))))
    rw [List.length_nil, Nat.zero_add]
    exact hclosing
  · rw [List.concat_eq_append] at hlt ⊢
    set s := (data ++ [ch]).foldl putOctet ⟨[], form.withLens 0 0⟩ with hs
    have hle : s.output.length ≤ s.finish.output.length := by
      rw [HexIo.finish]
      split_ifs
      · exact (pads_formatOutput s true).length_le
      · exact le_rfl
    obtain ⟨lead, body, g, r, hlaid, hcount⟩ :=
      laid_run hplain hgroup hmax hroom data ch (Nat.lt_of_le_of_lt hle hlt)
    obtain ⟨cur, hstate, hcur, hmem⟩ := hlaid.state
    have hlines : ∀ l ∈ lead ++ body, 10 ∉ l := by
      intro l hl
      rcases List.mem_append.1 hl with hl | hl
      · exact hlaid.lead l hl ▸ hplain.notMem_lineTail
      · exact (hlaid.body l hl).2
    have hbody : (∀ l ∈ lead ++ body, l.length ≤ form.lineLenMax.toNat) ↔
        (0 < body.length → form.lineChars (form.placed - 1) form.groupOctets + form.suffix.length +
          form.lineTail.length ≤ form.lineLenMax.toNat) := by
      constructor
      · intro h hpos
        obtain ⟨l, hl⟩ := List.exists_mem_of_length_pos hpos
        rw [← (hlaid.body l hl).1]
        exact h l (List.mem_append_right _ hl)
      · intro h l hl
        rcases List.mem_append.1 hl with hl | hl
        · rw [hlaid.lead l hl]
          omega
        · rw [(hlaid.body l hl).1]
          exact h (List.length_pos_of_mem hl)
    rw [hs, hstate, forall_lines_iff hplain hlines hmem, hbody, hcur, List.length_append,
      List.length_singleton, ← hcount, linesFit_iff hroom hlaid.groups hlaid.octets]

end Lines

/-- What a call that is not a successive one starts with. -/
theorem enter_of_not_preserve {form : HexIoCfg} (hpreserve : form.preserve = false) :
    form.enter = { form with
      groupLenMax := if form.groupLenMax = 0 then 1 else form.groupLenMax
      groupLen := 0
      lineLen := 0 } := by
  simp only [HexIoCfg.enter]
  split_ifs with h
  · simp [hpreserve, h]
  · simp [hpreserve]

/-- The condition is the same for the configuration that the call makes of its own. -/
theorem linesFit_enter {form : HexIoCfg} (hpreserve : form.preserve = false) (n : ℕ) :
    form.enter.LinesFit n ↔ form.LinesFit n := by
  have hoctets : form.enter.groupOctets = form.groupOctets := by
    rw [enter_of_not_preserve hpreserve, HexIoCfg.groupOctets, HexIoCfg.groupOctets]
    by_cases h : form.groupLenMax = 0
    · simp only [h, if_true]
      rfl
    · simp only [h, if_false]
  have hchars : form.enter.groupChars = form.groupChars := by
    rw [HexIoCfg.groupChars, hoctets, enter_of_not_preserve hpreserve]
    rfl
  have hperiod : form.enter.groupPeriod = form.groupPeriod := by
    rw [HexIoCfg.groupPeriod, hchars, enter_of_not_preserve hpreserve]
    rfl
  have hfitting : form.enter.fitting = form.fitting := by
    rw [HexIoCfg.fitting, hperiod, enter_of_not_preserve hpreserve]
    rfl
  have hplaced : form.enter.placed = form.placed := by
    rw [HexIoCfg.placed, hperiod, enter_of_not_preserve hpreserve]
    rfl
  have hline : ∀ g r, form.enter.lineChars g r = form.lineChars g r := by
    intro g r
    rw [HexIoCfg.lineChars, hperiod, enter_of_not_preserve hpreserve]
    rfl
  rw [HexIoCfg.LinesFit, hplaced, hfitting, hoctets, hline, enter_of_not_preserve hpreserve]
  rfl

/-- **The lines of a hexadecimal text respect the maximum exactly when the separator that the room test
leaves out does no harm.**  The condition is on the lengths that are configured and on the number of
octets.  The text is of a length that a string can have. -/
theorem hexEncode_lines_iff {m : MemPools} (hm : m.Plentiful) {form : HexIoCfg}
    (hpreserve : form.preserve = false) (hlead : 10 ∉ form.groupPrefix) (hsuffix : 10 ∉ form.suffix)
    (hseparator : 10 ∉ form.separator) (hmax : 0 < form.lineLenMax)
    (hfits : form.groupPrefix.length + 2 * form.groupLenMax.toNat + form.suffix.length +
      (if form.preLine then form.separator.length else 0) +
      (if form.postLine then form.separator.length else 0) ≤ form.lineLenMax.toNat)
    (input : Buffer) :
    ∃ s : HexIo, hexEncode m input form = some (s.output.length, s) ∧
      (s.output.length < 2 ^ 63 →
        ((∀ l ∈ s.output.splitOn 10, l.length ≤ form.lineLenMax.toNat) ↔
          form.LinesFit input.data.length)) := by
  refine ⟨encoded input.data form, hexEncode_eq hm input form, fun hlt => ?_⟩
  have hhead : form.lineHead.length = if form.preLine then form.separator.length else 0 := by
    rw [HexIoCfg.lineHead, apply_ite List.length, List.length_nil]
  have htail : form.lineTail.length = if form.postLine then form.separator.length else 0 := by
    rw [HexIoCfg.lineTail, apply_ite List.length, List.length_nil]
  rw [← hhead, ← htail] at hfits
  have hclosing : form.closing.length ≤ form.suffix.length + form.lineTail.length := by
    rw [HexIoCfg.closing]
    split_ifs <;> simp
  have hcfg := enter_of_not_preserve hpreserve
  have hstart : form.enter.withLens 0 0 = form.enter := by
    rw [hcfg]
    rfl
  have hline : form.enter.lineLenMax = form.lineLenMax := by rw [hcfg]
  have hplain : form.enter.Plain := by
    rw [hcfg]
    exact ⟨hlead, hsuffix, hseparator⟩
  have hroom : form.enter.lineHead.length + form.enter.lineTail.length ≤
      form.enter.lineLenMax.toNat := by
    rw [hcfg]
    change form.lineHead.length + form.lineTail.length ≤ form.lineLenMax.toNat
    omega
  have hend : form.enter.closing.length ≤ form.enter.lineLenMax.toNat := by
    rw [hcfg]
    change form.closing.length ≤ form.lineLenMax.toNat
    omega
  have hlines := lines_encoded_iff hplain (enter_spec form).1 (hline.symm ▸ hmax) hroom hend
    input.data (by rwa [hstart])
  rwa [hstart, hline, linesFit_enter hpreserve] at hlines

/-- With the values of the constructor a line of four characters has room for one octet, and two are
placed on it; a line of five has room for both. -/
example : ¬ ({ lineLenMax := 4 } : HexIoCfg).LinesFit 2 ∧
    ({ lineLenMax := 5 } : HexIoCfg).LinesFit 1000 := by decide

/-- Nine octets in groups of two, and two groups on a line of fourteen characters. -/
theorem hexEncode_lines_sample :
    let form : HexIoCfg := { groupLenMax := 2, lineLenMax := 14, groupPrefix := ascii "0x" }
    let input := (Buffer.empty.copyIn exactPools [1, 2, 3, 4, 5, 6, 7, 8, 9]).2
    ∃ s : HexIo, hexEncode exactPools input form = some (s.output.length, s) ∧
      s.output.splitOn 10 = [ascii "0x0102 0x0304", ascii "0x0506 0x0708", ascii "0x09", []] ∧
      ((∀ l ∈ s.output.splitOn 10, l.length ≤ form.lineLenMax.toNat) ↔
        form.LinesFit input.data.length) := by
  intro form input
  obtain ⟨s, hrun, hiff⟩ := @hexEncode_lines_iff exactPools plentiful_exactPools form rfl (by decide)
    (by decide) (by decide) (by decide) (by decide) input
  have hs : s = encoded input.data form :=
    (Prod.mk.inj (Option.some.inj (hrun.symm.trans (hexEncode_eq plentiful_exactPools input form)))).2
  refine ⟨s, hrun, ?_, hiff ?_⟩
  · rw [hs]
    decide +kernel
  · rw [hs]
    decide +kernel

/-- With the values of the constructor and lines of four characters the second group is placed behind a
separator, and the line has five. -/
theorem hexEncode_line_too_long :
    let form : HexIoCfg := { lineLenMax := 4 }
    let input := (Buffer.empty.copyIn exactPools [170, 187]).2
    ∃ s : HexIo, hexEncode exactPools input form = some (s.output.length, s) ∧
      10 ∉ form.groupPrefix ∧ 10 ∉ form.suffix ∧ 10 ∉ form.separator ∧ form.preserve = false ∧
      form.groupPrefix.length + 2 * form.groupLenMax.toNat + form.suffix.length +
        (if form.preLine then form.separator.length else 0) +
        (if form.postLine then form.separator.length else 0) ≤ form.lineLenMax.toNat ∧
      s.output.splitOn 10 = [ascii "aa bb", []] ∧
      ¬ ∀ l ∈ s.output.splitOn 10, l.length ≤ form.lineLenMax.toNat := by
  refine ⟨encoded [170, 187] { lineLenMax := 4 }, by decide, ?_⟩
  decide

end CodePort
