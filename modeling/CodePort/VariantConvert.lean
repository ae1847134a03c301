/-
Conversions of integers.

A variant keeps an integer as a bit pattern of the width of its type.  Every getter of an integer reads
the pattern as an unsigned number and narrows it; every text of an integer goes through 32 bits.  So a
value gets lost exactly where a pattern is read in more bits than it was made with.

Main definitions:

* `CodePort.IntType` — the integer types, with their widths, their values and their patterns;
* `CodePort.Variant.intSet`, `intGet` — the setters and the getters;
* `CodePort.intText` — the decimal text of an integer.

Main results:

* `CodePort.IntType.Represents.ofPattern_bits`, `IntType.ofPattern_bits_wide` — a pattern read in fewer bits than it was
  made with, and in more;
* `CodePort.variant_convert_iff` — **a value is preserved by a conversion if and only if it is not
  negative or the conversion does not widen**;
* `CodePort.variant_text_iff` — **the text of a value is faithful if and only if the value fits in 32
  bits**.
-/

import CodePort.TextUtil
import CodePort.Variant
import Mathlib.Tactic.Ring

set_option relaxedAutoImplicit false
set_option autoImplicit false

namespace CodePort

open Octets

/-! ### Integer types -/

/-- The integer types. -/
inductive IntType
  | uint8 | int8 | uint16 | int16 | uint32 | int32 | uint64 | int64
  deriving DecidableEq, Repr

namespace IntType

/-- The number of bits. -/
def width : IntType → ℕ
  | .uint8 | .int8 => 8
  | .uint16 | .int16 => 16
  | .uint32 | .int32 => 32
  | .uint64 | .int64 => 64

/-- The number of octets. -/
def octets : IntType → ℕ
  | .uint8 | .int8 => 1
  | .uint16 | .int16 => 2
  | .uint32 | .int32 => 4
  | .uint64 | .int64 => 8

/-- The type of a variant that holds a number of this type. -/
def dataType : IntType → DataType
  | .uint8 => .uint8
  | .int8 => .int8
  | .uint16 => .uint16
  | .int16 => .int16
  | .uint32 => .uint32
  | .int32 => .int32
  | .uint64 => .uint64
  | .int64 => .int64

def isSigned : IntType → Bool
  | .int8 | .int16 | .int32 | .int64 => true
  | .uint8 | .uint16 | .uint32 | .uint64 => false

/-- The integer is a value of the type. -/
def Represents (t : IntType) (v : ℤ) : Prop :=
  if t.isSigned then -2 ^ (t.width - 1) ≤ v ∧ v < 2 ^ (t.width - 1) else 0 ≤ v ∧ v < 2 ^ t.width

instance (t : IntType) (v : ℤ) : Decidable (t.Represents v) := by
  unfold Represents
  infer_instance

/-- The value that a pattern is narrowed to. -/
def ofPattern (t : IntType) (n : ℕ) : ℤ :=
  if t.isSigned then (n : ℤ).bmod (2 ^ t.width) else (n : ℤ) % 2 ^ t.width

variable {t : IntType} {v : ℤ}

theorem one_le_width (t : IntType) : 1 ≤ t.width := by cases t <;> decide

theorem Represents.lt (h : t.Represents v) : v < 2 ^ t.width := by
  unfold Represents at h
  split_ifs at h with hs
  · refine h.2.trans_le ?_
    exact pow_le_pow_right₀ (by decide) (Nat.sub_le _ _)
  · exact h.2

theorem cast_bits (n : ℕ) (v : ℤ) : (bits n v : ℤ) = v % 2 ^ n :=
  Int.toNat_of_nonneg (Int.emod_nonneg v (by positivity))

/-- Every value lies within 64 bits, signed or not. -/
theorem Represents.bounds (h : t.Represents v) : -2 ^ 63 ≤ v ∧ v < 2 ^ 64 := by
  unfold Represents at h
  cases t <;> simp only [isSigned, width, Bool.false_eq_true, if_true, if_false] at h <;> omega

theorem two_mul_pow_width (t : IntType) : (2 : ℤ) ^ t.width = 2 * 2 ^ (t.width - 1) := by
  rw [← pow_succ', Nat.sub_add_cancel t.one_le_width]

/-- A value of a type is what its own pattern stands for. -/
theorem Represents.ofPattern_eq (h : t.Represents v) :
    (if t.isSigned then v.bmod (2 ^ t.width) else v % 2 ^ t.width) = v := by
  unfold Represents at h
  split_ifs at h ⊢ with hs
  · have htwo := t.two_mul_pow_width
    refine Int.bmod_eq_of_le_mul_two ?_ ?_
    · push_cast
      omega
    · push_cast
      omega
  · exact Int.emod_eq_of_lt h.1 h.2

/-- A value of at most 32 bits fits in 32 bits. -/
theorem Represents.shown_eq (h : t.Represents v) (hw : t.width ≤ 32) :
    (if t.isSigned then v.bmod (2 ^ 32) else v % 2 ^ 32) = v := by
  have hle : (2 : ℤ) ^ t.width ≤ 2 ^ 32 := pow_le_pow_right₀ (by decide) hw
  have htwo := t.two_mul_pow_width
  unfold Represents at h
  split_ifs at h ⊢ with hs
  · refine Int.bmod_eq_of_le_mul_two ?_ ?_
    · push_cast
      omega
    · push_cast
      omega
  · exact Int.emod_eq_of_lt h.1 (by omega)

/-- A pattern of more bits has the same low bits. -/
theorem emod_bmod_of_le {n w : ℕ} (hw : n ≤ w) (v : ℤ) : (v % 2 ^ w).bmod (2 ^ n) = v.bmod (2 ^ n) := by
  have hdvd : (2 : ℤ) ^ n ∣ 2 ^ w := pow_dvd_pow 2 hw
  have hcast : ((2 ^ n : ℕ) : ℤ) = 2 ^ n := by push_cast; rfl
  rw [← Int.emod_bmod (v % 2 ^ w), hcast, Int.emod_emod_of_dvd v hdvd, ← hcast, Int.emod_bmod]

/-- **A pattern that is read in as many bits or fewer** than it was made with stands for the value. -/
theorem Represents.ofPattern_bits {w : ℕ} (h : t.Represents v) (hw : t.width ≤ w) : t.ofPattern (bits w v) = v := by
  rw [ofPattern, cast_bits, emod_bmod_of_le hw, Int.emod_emod_of_dvd v (pow_dvd_pow 2 hw)]
  exact h.ofPattern_eq

/-- **A pattern that is read in more bits** than it was made with stands for no negative number. -/
theorem ofPattern_bits_wide {w : ℕ} (hw : w < t.width) : t.ofPattern (bits w v) = v % 2 ^ w := by
  have hnonneg : 0 ≤ v % 2 ^ w := Int.emod_nonneg v (by positivity)
  have hlt : v % 2 ^ w < 2 ^ w := Int.emod_lt_of_pos v (by positivity)
  have hle : (2 : ℤ) ^ w ≤ 2 ^ (t.width - 1) := pow_le_pow_right₀ (by decide) (by omega)
  have htwo := t.two_mul_pow_width
  rw [ofPattern, cast_bits]
  split_ifs
  · refine Int.bmod_eq_of_le_mul_two ?_ ?_
    · push_cast
      omega
    · push_cast
      omega
  · exact Int.emod_eq_of_lt hnonneg (by omega)

end IntType

/-! ### Setters and getters -/

namespace Variant

/-- The setter of an integer type; the value is converted to the pattern that is stored. -/
def intSet (le : Bool) (m : MemPools) (x : Variant) (v : ℤ) : IntType → Variant
  | .uint8 => x.uint8Set le m (bits 8 v)
  | .int8 => x.int8Set le m (bits 8 v)
  | .uint16 => x.uint16Set le m (bits 16 v)
  | .int16 => x.int16Set le m (bits 16 v)
  | .uint32 => x.uint32Set le m (bits 32 v)
  | .int32 => x.int32Set le m (bits 32 v)
  | .uint64 => x.uint64Set le m (bits 64 v)
  | .int64 => x.int64Set le m (bits 64 v)

/-- The getter of an integer type. -/
def intGet (le : Bool) (x : Variant) : IntType → ℤ
  | .uint8 => x.uint8Get le
  | .int8 => signed 8 (x.int8Get le)
  | .uint16 => x.uint16Get le
  | .int16 => signed 16 (x.int16Get le)
  | .uint32 => x.uint32Get le
  | .int32 => signed 32 (x.int32Get le)
  | .uint64 => x.uint64Get le
  | .int64 => signed 64 (x.int64Get le)

/-- **Every getter narrows the unsigned number.** -/
theorem intGet_eq {le : Bool} {x : Variant} (h : x.uint64Get le < 2 ^ 64) (t : IntType) :
    x.intGet le t = t.ofPattern (x.uint64Get le) := by
  have hbmod : ∀ n k : ℕ, signed n (k % 2 ^ n) = (k : ℤ).bmod (2 ^ n) := by
    intro n k
    rw [signed, Int.natCast_mod, Int.emod_bmod]
  have hmod : ∀ n k : ℕ, ((k % 2 ^ n : ℕ) : ℤ) = (k : ℤ) % 2 ^ n := by
    intro n k
    push_cast
    rfl
  have h64 : (x.uint64Get le : ℤ) % 2 ^ 64 = x.uint64Get le := by
    rw [← hmod, Nat.mod_eq_of_lt h]
  have hs64 : signed 64 (x.uint64Get le) = (x.uint64Get le : ℤ).bmod (2 ^ 64) := by
    rw [← hbmod, Nat.mod_eq_of_lt h]
  cases t with
  | uint8 => simp only [intGet, uint8Get, hmod, IntType.ofPattern, IntType.isSigned, IntType.width,
      Bool.false_eq_true, if_false]
  | int8 => simp only [intGet, int8Get, hbmod, IntType.ofPattern, IntType.isSigned, IntType.width,
      if_true]
  | uint16 => simp only [intGet, uint16Get, hmod, IntType.ofPattern, IntType.isSigned, IntType.width,
      Bool.false_eq_true, if_false]
  | int16 => simp only [intGet, int16Get, hbmod, IntType.ofPattern, IntType.isSigned, IntType.width,
      if_true]
  | uint32 => simp only [intGet, uint32Get, hmod, IntType.ofPattern, IntType.isSigned, IntType.width,
      Bool.false_eq_true, if_false]
  | int32 => simp only [intGet, int32Get, hbmod, IntType.ofPattern, IntType.isSigned, IntType.width,
      if_true]
  | uint64 => simp only [intGet, h64, IntType.ofPattern, IntType.isSigned, IntType.width,
      Bool.false_eq_true, if_false]
  | int64 => simp only [intGet, int64Get, hs64, IntType.ofPattern, IntType.isSigned, IntType.width,
      if_true]

theorem bits_lt (n : ℕ) (v : ℤ) : bits n v < 2 ^ n := by
  have hlt : v % 2 ^ n < 2 ^ n := Int.emod_lt_of_pos v (by positivity)
  rw [← IntType.cast_bits] at hlt
  exact_mod_cast hlt

section Set

variable {le : Bool} {m : MemPools} {x : Variant}

/-- A number that is set is read again. -/
theorem numAt_numSet (hm : m.Plentiful) (le : Bool) (w : ℕ) (type : DataType) (hx : x.type ≠ .inert)
    {n : ℕ} (hn : n < 256 ^ w) : (numSet le m w type x n).numAt le w = n := by
  obtain ⟨-, hdata⟩ := data_numSet hm le w type hx n
  have hlen : (numSet le m w type x n).buf.dataLen = w := by
    rw [← Buffer.length_data, hdata, length_toHost]
  rw [numAt_eq le hlen.ge, hdata, List.take_of_length_le (length_toHost le w n).le, ofHost_toHost,
    Nat.mod_eq_of_lt hn]

/-- **Every setter stores the pattern of the value.** -/
theorem intSet_eq (le : Bool) (m : MemPools) (x : Variant) (v : ℤ) (t : IntType) :
    x.intSet le m v t = numSet le m t.octets t.dataType x (bits t.width v) := by
  cases t <;> rfl

/-- Every integer is read as an unsigned one. -/
theorem uint64Get_eq {t : IntType} (h : x.type = t.dataType) (le : Bool) :
    x.uint64Get le = x.numAt le t.octets := by
  rw [uint64Get, h]
  cases t <;> rfl

/-- **What a setter has stored** is read as the pattern of the value. -/
theorem intSet_spec (hm : m.Plentiful) (le : Bool) (hx : x.type ≠ .inert) (t : IntType) (v : ℤ) :
    (x.intSet le m v t).type = t.dataType ∧
      (x.intSet le m v t).numAt le t.octets = bits t.width v := by
  have hlt : bits t.width v < 256 ^ t.octets := by
    refine (bits_lt t.width v).trans_eq ?_
    cases t <;> rfl
  rw [intSet_eq]
  exact ⟨(data_numSet hm le t.octets t.dataType hx _).1, numAt_numSet hm le _ _ hx hlt⟩

theorem uint64Get_intSet (hm : m.Plentiful) (le : Bool) (hx : x.type ≠ .inert) (t : IntType) (v : ℤ) :
    (x.intSet le m v t).uint64Get le = bits t.width v := by
  obtain ⟨htype, hnum⟩ := intSet_spec hm le hx t v
  rw [uint64Get_eq htype, hnum]

end Set

end Variant

theorem IntType.width_le (t : IntType) : t.width ≤ 64 := by cases t <;> decide

/-- **A value is preserved by a conversion if and only if it is not negative or the conversion does not
widen**: for any two integer types and every value of both, what the getter of the one returns after the
setter of the other. -/
theorem variant_convert_iff (le : Bool) {m : MemPools} (hm : m.Plentiful) (x : Variant)
    (hx : x.type ≠ .inert) (s t : IntType) (v : ℤ) (hs : s.Represents v) (ht : t.Represents v) :
    (x.intSet le m v s).intGet le t = v ↔ 0 ≤ v ∨ t.width ≤ s.width := by
  have hget := Variant.uint64Get_intSet hm le hx s v
  have hlt : (x.intSet le m v s).uint64Get le < 2 ^ 64 := by
    rw [hget]
    exact (Variant.bits_lt s.width v).trans_le (Nat.pow_le_pow_right (by decide) s.width_le)
  rw [Variant.intGet_eq hlt, hget]
  rcases Nat.lt_or_ge s.width t.width with hw | hw
  · rw [IntType.ofPattern_bits_wide hw]
    constructor
    · intro h
      rw [← h]
      exact Or.inl (Int.emod_nonneg v (by positivity))
    · rintro (h | h)
      · exact Int.emod_eq_of_lt h hs.lt
      · omega
  · exact iff_of_true (ht.ofPattern_bits hw) (Or.inr hw)

/-- A small positive number is widened. -/
theorem variant_convert_uint8 :
    ((Variant.construct exactPools false).intSet true exactPools 200 .uint8).intGet true .int16 =
      200 :=
  (variant_convert_iff true plentiful_exactPools _ (by decide) .uint8 .int16 200 (by decide)
    (by decide)).2 (Or.inl (by decide))

/-- The number −1 of 8 bits is widened to 16 bits: it is read as 255. -/
theorem variant_convert_negative :
    ((Variant.construct exactPools false).intSet true exactPools (-1) .int8).intGet true .int16 =
        255 ∧
      ¬ ((Variant.construct exactPools false).intSet true exactPools (-1) .int8).intGet true .int16 =
        -1 := by
  decide +kernel

/-! ### Texts -/

/-- The decimal text of an integer. -/
def intText (v : ℤ) : List UInt8 :=
  if 0 ≤ v then decText v.toNat else ascii "-" ++ decText (-v).toNat

theorem zero_notMem_intText (v : ℤ) : 0 ∉ intText v := by
  rw [intText]
  split_ifs
  · exact notMem_decText (Or.inr rfl) _
  · exact notMem_minus_decText (Or.inr rfl) _

/-- The text of a 64-bit integer is parsed again. -/
theorem strtol_intText {v : ℤ} (hge : -2 ^ 63 ≤ v) (hlt : v < 2 ^ 63) : strtol (intText v) = v := by
  rw [intText]
  split_ifs with h
  · rw [strtol_decText]
    omega
  · rw [strtol_neg_decText]
    omega

theorem strtoul_neg_decText {n : ℕ} (h : n < 2 ^ 64) :
    strtoul (ascii "-" ++ decText n) = (2 ^ 64 - n) % 2 ^ 64 := by
  obtain ⟨-, -, -, hdigits⟩ := scan_decText n
  have hminus : ascii "-" ++ decText n = 45 :: decText n := rfl
  have hspace := scan_neg (decText n)
  simp only [strtoul, hminus, hspace, List.head?_cons, true_or, if_true, List.tail_cons, hdigits,
    foldl_decText]
  rw [if_neg (by omega)]

/-- **The unsigned parser** makes 32 bits of the text of an integer. -/
theorem strToUint_intText {v : ℤ} (hge : -2 ^ 63 ≤ v) (hlt : v < 2 ^ 64) :
    strToUint (intText v) = bits 32 v := by
  rw [strToUint, intText, bits]
  split_ifs with h
  · rw [strtoul_decText, if_neg (by omega)]
    omega
  · rw [strtoul_neg_decText (by omega)]
    omega

/-- **The signed printer** prints 32 bits. -/
theorem intToStr_eq (val : ℕ) : intToStr val = intText (signed 32 val) := by
  have hlt : val % 2 ^ 32 < 2 ^ 32 := Nat.mod_lt _ (by decide)
  by_cases h : val % 2 ^ 32 < 2 ^ 31
  · have hsigned : signed 32 val = (val % 2 ^ 32 : ℕ) := by
      rw [signed, Int.bmod_def]
      omega
    rw [intToStr, if_pos h, hsigned, intText, if_pos (by omega), Int.toNat_natCast]
  · have hsigned : signed 32 val = -(2 ^ 32 - val % 2 ^ 32 : ℕ) := by
      rw [signed, Int.bmod_def]
      omega
    rw [intToStr, if_neg h, hsigned, intText, if_neg (by omega), neg_neg, Int.toNat_natCast]

/-- **The unsigned printer** prints 32 bits. -/
theorem uintToStr_eq (val : ℕ) : uintToStr val = intText ((val : ℤ) % 2 ^ 32) := by
  rw [uintToStr, intText, if_pos (by omega)]
  congr 1

/-- A value that is not negative, printed as an unsigned number. -/
theorem uintToStr_bits {w : ℕ} {v : ℤ} (h : 0 ≤ v ∧ v < 2 ^ w) :
    uintToStr (bits w v) = intText (v % 2 ^ 32) := by
  rw [uintToStr_eq, IntType.cast_bits, Int.emod_eq_of_lt h.1 h.2]

/-- A pattern of at least 32 bits, printed as a signed number. -/
theorem intToStr_bits {w : ℕ} (hw : 32 ≤ w) (v : ℤ) :
    intToStr (bits w v) = intText (v.bmod (2 ^ 32)) := by
  rw [intToStr_eq, signed, IntType.cast_bits, IntType.emod_bmod_of_le hw]

/-- The sign of a narrow number is carried up to 32 bits. -/
theorem cast_signExtend_one {v : ℤ} (h : -2 ^ 7 ≤ v ∧ v < 2 ^ 7) :
    (Variant.signExtend 1 (bits 8 v) : ℤ) = v % 2 ^ 32 := by
  have hcast := IntType.cast_bits 8 v
  rw [Variant.signExtend]
  split_ifs <;> omega

theorem cast_signExtend_two {v : ℤ} (h : -2 ^ 15 ≤ v ∧ v < 2 ^ 15) :
    (Variant.signExtend 2 (bits 16 v) : ℤ) = v % 2 ^ 32 := by
  have hcast := IntType.cast_bits 16 v
  rw [Variant.signExtend]
  split_ifs <;> omega

namespace Variant

variable {m : MemPools} {x : Variant} {t : IntType} {v : ℤ}

/-- **The text of what a setter has stored** is that of 32 bits of it. -/
theorem strGet_intSet (hm : m.Plentiful) (le : Bool) (hx : x.type ≠ .inert) (h : t.Represents v) :
    (x.intSet le m v t).strGet le m =
      intText (if t.isSigned then v.bmod (2 ^ 32) else v % 2 ^ 32) := by
  obtain ⟨htype, hnum⟩ := intSet_spec hm le hx t v
  have hbmod : (v % 2 ^ 32).bmod (2 ^ 32) = v.bmod (2 ^ 32) := IntType.emod_bmod_of_le le_rfl v
  rw [strGet, htype]
  cases t with
  | uint8 => exact (congrArg uintToStr hnum).trans (uintToStr_bits h)
  | uint16 => exact (congrArg uintToStr hnum).trans (uintToStr_bits h)
  | uint32 => exact (congrArg uintToStr hnum).trans (uintToStr_bits h)
  | uint64 => exact (congrArg uintToStr hnum).trans (uintToStr_bits h)
  | int8 =>
      refine (congrArg (fun n => intToStr (signExtend 1 n)) hnum).trans ?_
      refine (intToStr_eq _).trans (congrArg intText ?_)
      exact (congrArg (fun z : ℤ => z.bmod (2 ^ 32)) (cast_signExtend_one h)).trans hbmod
  | int16 =>
      refine (congrArg (fun n => intToStr (signExtend 2 n)) hnum).trans ?_
      refine (intToStr_eq _).trans (congrArg intText ?_)
      exact (congrArg (fun z : ℤ => z.bmod (2 ^ 32)) (cast_signExtend_two h)).trans hbmod
  | int32 => exact (congrArg intToStr hnum).trans (intToStr_bits le_rfl v)
  | int64 => exact (congrArg intToStr hnum).trans (intToStr_bits (by decide) v)

/-- **The integer that is read from a text** is made of 32 bits of it. -/
theorem intGet_strSet (hm : m.Plentiful) (le : Bool) (x : Variant) (h : t.Represents v) :
    (x.strSet m (intText v)).intGet le t = t.ofPattern (bits 32 v) := by
  have htext : cStr (x.strSet m (intText v)).buf.mem = intText v := by
    have hvalue : Value.text (cStr (x.strSet m (intText v)).buf.mem) = .text (cStr (intText v)) :=
      (holds_strSet hm le x (intText v)).value_eq
    rw [Value.text.inj hvalue, cStr_of_notMem (zero_notMem_intText v)]
  have hget : (x.strSet m (intText v)).uint64Get le = bits 32 v := by
    have hparse : (x.strSet m (intText v)).uint64Get le =
        strToUint (cStr (x.strSet m (intText v)).buf.mem) := rfl
    rw [hparse, htext, strToUint_intText h.bounds.1 h.bounds.2]
  have hlt : bits 32 v < 2 ^ 64 := (bits_lt 32 v).trans (by decide)
  rw [intGet_eq (by rw [hget]; exact hlt), hget]

end Variant

/-- **The text of a value is faithful if and only if the value fits in 32 bits**, that is: every value of
the types of at most 32 bits, a value of `uint64` that is below `2 ^ 32`, and a value of `int64` that is
not negative and below `2 ^ 31`. -/
theorem variant_text_iff (le : Bool) {m : MemPools} (hm : m.Plentiful) (x : Variant)
    (hx : x.type ≠ .inert) (t : IntType) (v : ℤ) (h : t.Represents v) :
    ((x.intSet le m v t).strGet le m = intText v ∧ (x.strSet m (intText v)).intGet le t = v) ↔
      (t.width = 64 → 0 ≤ v ∧ v < if t.isSigned then 2 ^ 31 else 2 ^ 32) := by
  rw [Variant.strGet_intSet hm le hx h, Variant.intGet_strSet hm le x h]
  rcases Nat.lt_or_ge 32 t.width with hw | hw
  · have h64 : t.width = 64 := by
      cases t <;> simp_all [IntType.width]
    rw [IntType.ofPattern_bits_wide hw, forall_prop_of_true h64]
    cases hsigned : t.isSigned with
    | false =>
        constructor
        · rintro ⟨-, hmod⟩
          simp only [Bool.false_eq_true, if_false]
          omega
        · intro hrange
          simp only [Bool.false_eq_true, if_false] at hrange ⊢
          rw [Int.emod_eq_of_lt hrange.1 hrange.2]
          exact ⟨rfl, rfl⟩
    | true =>
        unfold IntType.Represents at h
        rw [hsigned, h64, if_pos rfl] at h
        simp only [if_true]
        have hbmod : v.bmod (2 ^ 32) = v ↔ -2 ^ 31 ≤ v ∧ v < 2 ^ 31 := by
          rw [Int.bmod_def]
          omega
        constructor
        · rintro ⟨htext, hmod⟩
          -- the printed number is the value, since a text is parsed again
          have hparse := strtol_intText h.1 h.2
          rw [← htext, strtol_intText] at hparse
          · have hlt := (hbmod.1 hparse).2
            omega
          · rw [Int.bmod_def]
            omega
          · rw [Int.bmod_def]
            omega
        · intro hrange
          rw [hbmod.2 (by omega), Int.emod_eq_of_lt hrange.1 (by omega)]
          exact ⟨rfl, rfl⟩
  · rw [h.shown_eq hw, h.ofPattern_bits hw]
    exact iff_of_true ⟨rfl, rfl⟩ fun h64 => by omega

/-- A negative number of 16 bits as text. -/
theorem variant_text_int16 :
    ((Variant.construct exactPools false).intSet true exactPools (-300) .int16).strGet true exactPools =
      intText (-300) :=
  ((variant_text_iff true plentiful_exactPools _ (by decide) .int16 (-300) (by decide)).2
    (by decide)).1

/-- The number `2 ^ 32` of 64 bits is printed as `"0"`, and its text is read as 0. -/
theorem variant_text_wide :
    ((Variant.construct exactPools false).intSet true exactPools (2 ^ 32) .uint64).strGet true
        exactPools = ascii "0" ∧
      ((Variant.construct exactPools false).strSet exactPools (intText (2 ^ 32))).intGet true .uint64 =
        0 ∧
      ¬ (((Variant.construct exactPools false).intSet true exactPools (2 ^ 32) .uint64).strGet true
          exactPools = intText (2 ^ 32) ∧
        ((Variant.construct exactPools false).strSet exactPools (intText (2 ^ 32))).intGet true .uint64 =
          2 ^ 32) := by
  decide +kernel

end CodePort
