/-
Numbers and blobs as text.

The conversions that the text formats use: trimming, the printers of integers and floating point
numbers, the parsers that go the other way, and hexadecimal blobs.

Main definitions:

* `CodePort.genStr`, `ltrim` — the functions of that name;
* `CodePort.int64ToStr`, `FloatVal.fixedText` — numbers as a stream prints them;
* `CodePort.strToInt`, `strToFloat`, `strToBool` — the parsers;
* `CodePort.hexOctet`, `hexDecode` — an octet of a blob, and the parser of a blob;
* `CodePort.HexGap`, `HexText` — a text that the parser passes over, and octets with such gaps.

Main results:

* `CodePort.strtoul_decText`, `strToInt_intToStr`, `strToInt_int64ToStr` — **what a parser makes of a
  printed integer**; the signed parser has 32 bits only;
* `CodePort.HexText.hexDecode_eq`, `hexDecode_flatMap` — **a printed blob is parsed again**, whatever
  stands between its octets.

A host has a `long` of 64 bits.
-/

import CodePort.Buffer
import CodePort.Util
import Mathlib.Data.Int.Notation
import Mathlib.Order.MinMax

set_option relaxedAutoImplicit false
set_option autoImplicit false

namespace CodePort

/-! ### Strings -/

/-- Returns a string with the specified number of characters, up to some reasonable number. -/
def genStr (count : ℕ) (ch : UInt8) : List UInt8 := List.replicate (min count 65535) ch

/-- White space, as the functions that trim a string have it. -/
def isBlank (c : UInt8) : Bool := c = 32 || c = 9 || c = 13 || c = 10

/-- Trims leading white space from a string. -/
def ltrim (str : List UInt8) : List UInt8 := str.dropWhile isBlank

theorem ltrim_cons {c : UInt8} (h : isBlank c = false) (l : List UInt8) :
    ltrim (c :: l) = c :: l := by
  rw [ltrim, List.dropWhile_cons_of_neg]
  simp [h]

/-- Blanks in front of a text are trimmed. -/
theorem ltrim_append {b : List UInt8} (hb : ∀ c ∈ b, isBlank c = true) (l : List UInt8) :
    ltrim (b ++ l) = ltrim l := by
  rw [ltrim, List.dropWhile_append_of_pos hb, ltrim]

/-! ### Integers -/

/-- The signed integer that a pattern of `n` bits stands for. -/
def signed (n val : ℕ) : ℤ := (val : ℤ).bmod (2 ^ n)

/-- The pattern of `n` bits that an integer is converted to. -/
def bits (n : ℕ) (z : ℤ) : ℕ := (z % 2 ^ n).toNat

/-- `PRIu64` of a 64-bit value. -/
def uint64ToStr (val : ℕ) : List UInt8 := decText (val % 2 ^ 64)

/-- `PRId64` of a 64-bit pattern. -/
def int64ToStr (val : ℕ) : List UInt8 :=
  if val % 2 ^ 64 < 2 ^ 63 then decText (val % 2 ^ 64)
  else ascii "-" ++ decText (2 ^ 64 - val % 2 ^ 64)

/-- `strtol` with base 10. -/
def strtol (s : List UInt8) : ℤ :=
  let s := s.dropWhile isSpace
  let neg := s.head? = some 45
  let s := if s.head? = some 45 ∨ s.head? = some 43 then s.tail else s
  let n : ℕ := (s.takeWhile isDigit).foldl (fun n c => 10 * n + (c.toNat - 48)) 0
  if neg then max (-n) (-2 ^ 63) else min n (2 ^ 63 - 1)

/-- Converts a string to a long integer, which has 32 bits. -/
def strToInt (str : List UInt8) : ℤ := (strtol str).bmod (2 ^ 32)

/-- Converts a string to a boolean. -/
def strToBool : List UInt8 → Bool
  | [] => false
  | ch :: _ => !(ch = 48 || ch = 102 || ch = 70)

theorem isDigit_of_mem_decText {n : ℕ} {c : UInt8} (h : c ∈ decText n) : isDigit c = true := by
  obtain ⟨d, hd, rfl⟩ := List.mem_map.1 h
  have hdigit := Nat.isDigit_of_mem_toDigits (by decide) (by decide) hd
  simp only [Char.isDigit, Bool.and_eq_true, decide_eq_true_eq, UInt32.le_iff_toNat_le] at hdigit
  have hval : d.toNat = d.val.toNat := rfl
  have hge : 48 ≤ d.toNat := hdigit.1
  have hle : d.toNat ≤ 57 := hdigit.2
  have hmod : (UInt8.ofNat d.toNat).toNat = d.toNat := by
    rw [UInt8.toNat_ofNat']
    omega
  simp only [isDigit, Bool.and_eq_true, decide_eq_true_eq, UInt8.le_iff_toNat_le, hmod]
  exact ⟨hge, hle⟩

theorem decText_ne_nil (n : ℕ) : decText n ≠ [] := by
  rw [decText, Ne, List.map_eq_nil_iff]
  exact Nat.toDigits_ne_nil

/-- The digits of a number, read one after another. -/
theorem foldl_decText (n : ℕ) :
    (decText n).foldl (fun n c => 10 * n + (c.toNat - 48)) 0 = n := by
  have hdigits := Nat.ofDigitChars_ten_toDigits (n := n)
  rw [Nat.ofDigitChars_eq_foldl] at hdigits
  rw [decText, List.foldl_map]
  refine Eq.trans ?_ hdigits
  apply List.foldl_ext
  intro acc d hd
  have hdigit := Nat.isDigit_of_mem_toDigits (by decide) (by decide) hd
  simp only [Char.isDigit, Bool.and_eq_true, decide_eq_true_eq, UInt32.le_iff_toNat_le] at hdigit
  have hle : d.toNat ≤ 57 := hdigit.2
  have hmod : (UInt8.ofNat d.toNat).toNat = d.toNat := by
    rw [UInt8.toNat_ofNat']
    omega
  rw [hmod]
  rfl

/-- What a parser finds in a printed number: no space, no sign, digits only. -/
theorem scan_decText (n : ℕ) :
    (decText n).dropWhile isSpace = decText n ∧ (decText n).head? ≠ some 45 ∧
      (decText n).head? ≠ some 43 ∧ (decText n).takeWhile isDigit = decText n := by
  obtain ⟨c, l, hcons⟩ := List.exists_cons_of_ne_nil (decText_ne_nil n)
  have hc : isDigit c = true := isDigit_of_mem_decText (hcons ▸ List.mem_cons_self)
  simp only [isDigit, Bool.and_eq_true, decide_eq_true_eq, UInt8.le_iff_toNat_le] at hc
  have hge : 48 ≤ c.toNat := hc.1
  refine ⟨?_, ?_, ?_, ?_⟩
  · rw [hcons, List.dropWhile_cons_of_neg]
    simp only [isSpace, Bool.or_eq_true, Bool.and_eq_true, decide_eq_true_eq,
      UInt8.le_iff_toNat_le]
    rintro (rfl | ⟨-, hle⟩)
    · exact absurd hge (by decide)
    · have : c.toNat ≤ 13 := hle
      omega
  · rw [hcons, List.head?_cons, Ne, Option.some_inj]
    rintro rfl
    exact absurd hge (by decide)
  · rw [hcons, List.head?_cons, Ne, Option.some_inj]
    rintro rfl
    exact absurd hge (by decide)
  · exact List.takeWhile_eq_self_iff.2 fun d hd => isDigit_of_mem_decText hd

/-- **A printed number is parsed again**, as far as the parser goes. -/
theorem strtoul_decText (n : ℕ) :
    strtoul (decText n) = if 2 ^ 64 ≤ n then 2 ^ 64 - 1 else n := by
  obtain ⟨hspace, hminus, hplus, hdigits⟩ := scan_decText n
  simp only [strtoul, hspace, hminus, hplus, or_self, if_false, hdigits, foldl_decText]

theorem strtol_decText (n : ℕ) : strtol (decText n) = min (n : ℤ) (2 ^ 63 - 1) := by
  obtain ⟨hspace, hminus, hplus, hdigits⟩ := scan_decText n
  simp only [strtol, hspace, hminus, hplus, or_self, if_false, hdigits, foldl_decText]

/-- No blanks are skipped in front of a sign. -/
theorem scan_neg (l : List UInt8) : (45 :: l).dropWhile isSpace = 45 :: l := by
  rw [List.dropWhile_cons_of_neg]
  decide

theorem strtol_neg_decText (n : ℕ) :
    strtol (ascii "-" ++ decText n) = max (-(n : ℤ)) (-2 ^ 63) := by
  obtain ⟨-, -, -, hdigits⟩ := scan_decText n
  have hminus : ascii "-" ++ decText n = 45 :: decText n := rfl
  have hspace := scan_neg (decText n)
  simp only [strtol, hminus, hspace, List.head?_cons, true_or, if_true, List.tail_cons, hdigits,
    foldl_decText]

/-- A printed 64-bit integer is parsed again. -/
theorem strtol_int64ToStr (val : ℕ) : strtol (int64ToStr val) = signed 64 val := by
  have hlt : val % 2 ^ 64 < 2 ^ 64 := Nat.mod_lt _ (by decide)
  rw [int64ToStr, signed, Int.bmod_def]
  split_ifs with h h' h'
  · rw [strtol_decText]
    omega
  · omega
  · omega
  · rw [strtol_neg_decText]
    omega

theorem strtol_intToStr (val : ℕ) : strtol (intToStr val) = signed 32 val := by
  have hlt : val % 2 ^ 32 < 2 ^ 32 := Nat.mod_lt _ (by decide)
  rw [intToStr, signed, Int.bmod_def]
  split_ifs with h h' h'
  · rw [strtol_decText]
    omega
  · omega
  · omega
  · rw [strtol_neg_decText]
    omega

/-- **A printed 32-bit integer is parsed again.** -/
theorem strToInt_intToStr (val : ℕ) : strToInt (intToStr val) = signed 32 val := by
  rw [strToInt, strtol_intToStr, signed]
  exact Int.bmod_bmod

/-- **Of a printed 64-bit integer 32 bits are left.** -/
theorem strToInt_int64ToStr (val : ℕ) : strToInt (int64ToStr val) = signed 32 val := by
  rw [strToInt, strtol_int64ToStr, signed, signed]
  simp only [Int.bmod_def]
  omega

theorem strToUint_uintToStr (val : ℕ) : strToUint (uintToStr val) = val % 2 ^ 32 := by
  have hlt : val % 2 ^ 32 < 2 ^ 32 := Nat.mod_lt _ (by decide)
  rw [strToUint, uintToStr, strtoul_decText, if_neg (by omega), Nat.mod_mod]

theorem strToUint_uint64ToStr (val : ℕ) : strToUint (uint64ToStr val) = val % 2 ^ 32 := by
  have hlt : val % 2 ^ 64 < 2 ^ 64 := Nat.mod_lt _ (by decide)
  rw [strToUint, uint64ToStr, strtoul_decText, if_neg (by omega)]
  omega

/-- A printed number has neither the end of a line nor a terminator in it. -/
theorem notMem_decText {c : UInt8} (hc : c = 10 ∨ c = 0) (n : ℕ) : c ∉ decText n := by
  intro hmem
  have hdigit := isDigit_of_mem_decText hmem
  rcases hc with rfl | rfl <;> exact absurd hdigit (by decide)

theorem notMem_minus_decText {c : UInt8} (hc : c = 10 ∨ c = 0) (n : ℕ) :
    c ∉ ascii "-" ++ decText n := by
  intro hmem
  rcases List.mem_append.1 hmem with hmem | hmem
  · rcases hc with rfl | rfl <;> exact absurd hmem (by decide)
  · exact notMem_decText hc n hmem

theorem notMem_intToStr {c : UInt8} (hc : c = 10 ∨ c = 0) (n : ℕ) : c ∉ intToStr n := by
  rw [intToStr]
  split_ifs
  · exact notMem_decText hc _
  · exact notMem_minus_decText hc _

theorem notMem_int64ToStr {c : UInt8} (hc : c = 10 ∨ c = 0) (n : ℕ) : c ∉ int64ToStr n := by
  rw [int64ToStr]
  split_ifs
  · exact notMem_decText hc _
  · exact notMem_minus_decText hc _

/-! ### Floating point numbers -/

/-- A hexadecimal digit. -/
def isHexDigit (c : UInt8) : Bool :=
  isDigit c || (65 ≤ c && c ≤ 70) || (97 ≤ c && c ≤ 102)

/-- What a hexadecimal digit stands for. -/
def hexVal (c : UInt8) : ℕ :=
  if isDigit c then c.toNat - 48 else if c ≤ 70 then c.toNat - 55 else c.toNat - 87

/-- A value in decimal places, as many as are asked for, rounded to the nearest, ties to even. -/
def FloatVal.fixedText (digits : ℕ) : FloatVal → List UInt8
  | .finite neg m e =>
      let (q, r, d) := scaled (10 ^ digits) m e
      let n := if d < 2 * r ∨ (2 * r = d ∧ q % 2 = 1) then q + 1 else q
      let frac := decText (n % 10 ^ digits)
      (if neg then ascii "-" else []) ++ decText (n / 10 ^ digits) ++ ascii "." ++
        (List.replicate (digits - frac.length) 48 ++ frac)
  | .inf neg => ascii (if neg then "-inf" else "inf")
  | .nan neg => ascii (if neg then "-nan" else "nan")

/-- The pattern, with `eb` exponent bits and `mb` mantissa bits and no sign, of the number nearest
to a fraction, ties to even. -/
def roundRat (eb mb num den : ℕ) : ℕ :=
  let emin : ℤ := 2 - 2 ^ (eb - 1)
  let e₀ : ℤ := Nat.log2 num - Nat.log2 den
  -- the exponent of the leading bit
  let e := if num * 2 ^ (-e₀).toNat < den * 2 ^ e₀.toNat then e₀ - 1 else e₀
  let unit := max e emin - mb
  let n := num * 2 ^ (-unit).toNat
  let d := den * 2 ^ unit.toNat
  let m := if d < 2 * (n % d) ∨ (2 * (n % d) = d ∧ n / d % 2 = 1) then n / d + 1 else n / d
  if num = 0 then 0 else min (((unit + mb - emin).toNat) * 2 ^ mb + m) ((2 ^ eb - 1) * 2 ^ mb)

/-- The digits of a number at the start of a text, in base `b`, and the text behind them. -/
def scanDigits (isDig : UInt8 → Bool) (s : List UInt8) : List UInt8 × List UInt8 :=
  (s.takeWhile isDig, s.dropWhile isDig)

/-- The exponent at the start of a text: `mark` in either case, a sign, digits. -/
def scanExponent (mark : UInt8) (s : List UInt8) : ℤ :=
  match s with
  | [] => 0
  | c :: s =>
      if c = mark ∨ c = mark - 32 then
        let neg := s.head? = some 45
        let s := if s.head? = some 45 ∨ s.head? = some 43 then s.tail else s
        let n : ℕ := (s.takeWhile isDigit).foldl (fun n c => 10 * n + (c.toNat - 48)) 0
        if neg then -n else n
      else 0

/-- `strtod` after the sign: the pattern of a number of 64 bits. -/
def strtodAbs (s : List UInt8) : ℕ :=
  let lower := s.map fun c => if 65 ≤ c && c ≤ 90 then c + 32 else c
  if lower.take 3 = ascii "inf" then 2047 * 2 ^ 52
  else if lower.take 3 = ascii "nan" then 2047 * 2 ^ 52 + 2 ^ 51
  else
    let hex := decide (lower.take 2 = ascii "0x") &&
      ((lower.drop 2).head?.any isHexDigit ||
        (decide ((lower.drop 2).head? = some 46) && (lower.drop 3).head?.any isHexDigit))
    let b := if hex then 16 else 10
    let isDig := if hex then isHexDigit else isDigit
    let s := if hex then lower.drop 2 else lower
    let whole := scanDigits isDig s
    let frac := if whole.2.head? = some 46 then scanDigits isDig whole.2.tail else ([], whole.2)
    let digits := whole.1 ++ frac.1
    let m := digits.foldl (fun n c => b * n + hexVal c) 0
    if digits = [] then 0
    else
      let exp := scanExponent (if hex then 112 else 101) frac.2
      let base := if hex then 2 else 10
      roundRat 11 52 (m * base ^ exp.toNat) (b ^ frac.1.length * base ^ (-exp).toNat)

/-- Converts a string to a float: the pattern of a number of 64 bits. -/
def strToFloat (str : List UInt8) : ℕ :=
  let s := str.dropWhile isSpace
  let body := if s.head? = some 45 ∨ s.head? = some 43 then s.tail else s
  strtodAbs body + if s.head? = some 45 then 2 ^ 63 else 0

/-- The conversion of a number of 64 bits to one of 32 bits. -/
def narrowFloat (bits : ℕ) : ℕ :=
  let sign (neg : Bool) : ℕ := if neg then 2 ^ 31 else 0
  match floatVal64 bits with
  | .finite neg m e => sign neg + roundRat 8 23 (m * 2 ^ e.toNat) (2 ^ (-e).toNat)
  | .inf neg => sign neg + 255 * 2 ^ 23
  | .nan neg => sign neg + (255 * 2 ^ 23 + 2 ^ 22)

/-- A tenth, in both widths. -/
example : strToFloat (ascii "-0.1") = 0xbfb999999999999a ∧
    narrowFloat (strToFloat (ascii "0x1.99999ap-4")) = 0x3dcccccd := by decide +kernel

/-! ### Blobs -/

/-- The digit for a number below 16, in lower case. -/
def hexDigit (n : ℕ) : UInt8 := UInt8.ofNat (if n < 10 then 48 + n else 87 + n)

/-- An octet in two hexadecimal digits. -/
def hexOctet (ch : UInt8) : List UInt8 := [hexDigit (ch.toNat / 16), hexDigit (ch.toNat % 16)]

/-- A 32-bit number in eight hexadecimal digits. -/
def hexLong (val : ℕ) : List UInt8 :=
  ((List.range 8).map fun i => hexDigit (val / 16 ^ i % 16)).reverse

/-- The loop of `HexDecode`: `element` holds the digits of the next octet, `index` octets are
written. -/
def hexDecodeLoop : List UInt8 → List UInt8 → ℕ → Buffer → ℕ × Buffer
  | [], _, index, output => (index, output)
  | ch :: input, element, index, output =>
      -- discard any C hex prefix
      let element := if (ch = 120 ∨ ch = 88) ∧ element = [48] then [] else element
      let element := if isHexDigit ch then element ++ [ch] else element
      -- check if a pair of hex digits is ready to decode
      if element.length = 2 then
        if index < output.size then
          hexDecodeLoop input [] (index + 1) (output.memWr index
            [UInt8.ofNat (element.foldl (fun n c => 16 * n + hexVal c) 0)])
        else hexDecodeLoop input [] index output
      else hexDecodeLoop input element index output

/-- Decodes a block of ASCII hex data.  The result counts the octets. -/
def hexDecode (m : MemPools) (input : List UInt8) (output : Buffer) : ℕ × Buffer :=
  let r := hexDecodeLoop input [] 0 (output.resize m (input.length / 2)).2
  (r.1, r.2.lenSet r.1)

theorem hexDigit_spec {n : ℕ} (h : n < 16) :
    isHexDigit (hexDigit n) = true ∧ hexVal (hexDigit n) = n ∧ hexDigit n ≠ 120 ∧
      hexDigit n ≠ 88 := by
  revert n
  decide

/-- The two digits of an octet. -/
theorem hexDecodeLoop_octet (ch : UInt8) (input : List UInt8) {index : ℕ} {output : Buffer}
    (h : index < output.size) :
    hexDecodeLoop (hexOctet ch ++ input) [] index output =
      hexDecodeLoop input [] (index + 1) (output.memWr index [ch]) := by
  have hlt := ch.toNat_lt
  obtain ⟨hhex, hval, hx, hX⟩ := hexDigit_spec (n := ch.toNat / 16) (by omega)
  obtain ⟨hhex', hval', hx', hX'⟩ := hexDigit_spec (n := ch.toNat % 16) (by omega)
  have hoctet : UInt8.ofNat (16 * (ch.toNat / 16) + ch.toNat % 16) = ch := by
    rw [Nat.div_add_mod]
    exact UInt8.ofNat_toNat
  simp [hexOctet, hexDecodeLoop, hhex, hval, hx, hX, hhex', hval', hx', hX', h, hoctet]

/-- A text that the parser passes over between two octets. -/
def HexGap (t : List UInt8) : Prop :=
  ∀ (input : List UInt8) (index : ℕ) (output : Buffer),
    hexDecodeLoop (t ++ input) [] index output = hexDecodeLoop input [] index output

theorem hexGap_nil : HexGap [] := fun _ _ _ => rfl

theorem HexGap.append {t u : List UInt8} (ht : HexGap t) (hu : HexGap u) : HexGap (t ++ u) := by
  intro input index output
  rw [List.append_assoc, ht, hu]

/-- A text without a digit is passed over. -/
theorem hexGap_of_forall {t : List UInt8} (h : ∀ c ∈ t, isHexDigit c = false) : HexGap t := by
  induction t with
  | nil => exact hexGap_nil
  | cons c t ih =>
      intro input index output
      rw [List.cons_append, hexDecodeLoop]
      simp [h c List.mem_cons_self, ih (fun d hd => h d (List.mem_cons_of_mem _ hd)) input]

/-- The C prefix is passed over, in either case. -/
theorem hexGap_cPrefix {c : UInt8} (hc : c = 120 ∨ c = 88) : HexGap [48, c] := by
  intro input index output
  have hzero : isHexDigit 48 = true := by decide
  have hx : isHexDigit c = false := by
    rcases hc with rfl | rfl <;> decide
  simp [hexDecodeLoop, hzero, hx, hc]

/-- Octets in digits with gaps between them. -/
inductive HexText : List UInt8 → List UInt8 → Prop
  | nil : HexText [] []
  | gap {t s d : List UInt8} : HexGap t → HexText s d → HexText (t ++ s) d
  | octet {s d : List UInt8} (ch : UInt8) : HexText s d → HexText (hexOctet ch ++ s) (ch :: d)

namespace HexText

theorem append {s d s' d' : List UInt8} (h : HexText s d) (h' : HexText s' d') :
    HexText (s ++ s') (d ++ d') := by
  induction h with
  | nil => exact h'
  | gap hgap _ ih =>
      rw [List.append_assoc]
      exact gap hgap ih
  | octet ch _ ih =>
      rw [List.append_assoc, List.cons_append]
      exact octet ch ih

theorem of_gap {t : List UInt8} (ht : HexGap t) : HexText t [] := by
  have h := gap ht nil
  rwa [List.append_nil] at h

theorem of_octet (ch : UInt8) : HexText (hexOctet ch) [ch] := by
  have h := octet ch nil
  rwa [List.append_nil] at h

/-- There is room for the octets of a text in half of its length. -/
theorem length_le {s d : List UInt8} (h : HexText s d) : 2 * d.length ≤ s.length := by
  induction h with
  | nil => exact le_rfl
  | gap _ _ ih =>
      rw [List.length_append]
      omega
  | octet ch _ ih =>
      have hoctet : (hexOctet ch).length = 2 := rfl
      rw [List.length_append, List.length_cons, hoctet]
      omega

theorem hexDecodeLoop_eq {s d : List UInt8} (h : HexText s d) (done : List UInt8) {b : Buffer}
    (hsize : done.length + d.length ≤ b.size) :
    hexDecodeLoop s [] done.length (b.memWr 0 done) =
      (done.length + d.length, b.memWr 0 (done ++ d)) := by
  induction h generalizing done with
  | nil => simp [hexDecodeLoop]
  | gap hgap _ ih => rw [hgap, ih done hsize]
  | @octet s d ch _ ih =>
      rw [List.length_cons] at hsize
      have hlt : done.length < (b.memWr 0 done).size :=
        Nat.lt_of_lt_of_le (by omega) (b.size_memWr_le 0 done)
      have hwrite : (b.memWr 0 done).memWr done.length [ch] = b.memWr 0 (done ++ [ch]) := by
        have hw := Buffer.memWr_memWr (Nat.zero_le b.size) done [ch]
        rwa [Nat.zero_add] at hw
      have hih := ih (done ++ [ch]) (by rw [List.length_append, List.length_singleton]; omega)
      rw [List.length_append, List.length_singleton] at hih
      rw [hexDecodeLoop_octet ch _ hlt, hwrite, hih, List.append_assoc, List.singleton_append,
        List.length_cons]
      congr 1
      omega

/-- **The octets of a text are parsed**, and counted. -/
theorem hexDecode_eq {m : MemPools} (hm : m.Plentiful) {s d : List UInt8} (h : HexText s d)
    (b : Buffer) : (hexDecode m s b).1 = d.length ∧ (hexDecode m s b).2.data = d := by
  have hlength := h.length_le
  have hsize : d.length ≤ (b.resize m (s.length / 2)).2.size :=
    Nat.le_trans (by omega) (Buffer.le_size_resize (Buffer.resize_fst hm b _))
  have hloop := h.hexDecodeLoop_eq [] (b := (b.resize m (s.length / 2)).2) (by simpa using hsize)
  rw [Buffer.memWr_nil, List.length_nil, Nat.zero_add, List.nil_append] at hloop
  rw [hexDecode]
  simp only [hloop]
  exact ⟨trivial, Buffer.data_lenSet_memWr hsize⟩

end HexText

/-- **A printed blob is parsed again.** -/
theorem hexDecode_flatMap {m : MemPools} (hm : m.Plentiful) (d : List UInt8) (b : Buffer) :
    (hexDecode m (d.flatMap fun ch => hexOctet ch ++ [32]) b).2.data = d := by
  have hblank : HexGap [32] := hexGap_of_forall (List.forall_mem_singleton.2 rfl)
  have htext : HexText (d.flatMap fun ch => hexOctet ch ++ [32]) d := by
    induction d with
    | nil => exact .nil
    | cons ch d ih => exact ((HexText.of_octet ch).append (.of_gap hblank)).append ih
  exact (htext.hexDecode_eq hm b).2

end CodePort
