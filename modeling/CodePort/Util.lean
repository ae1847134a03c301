/-
Utility conversions.

The conversions between numbers and text that a `Variant` makes, over octets: a C string is a list
of octets that ends at its first zero, and a floating point number is its bit pattern.

Main definitions:

* `CodePort.cStr` — the text of a C string;
* `CodePort.strToUint`, `uintToStr`, `intToStr`, `floatToStr` — the conversions of that name;
* `CodePort.FloatVal` — what a bit pattern stands for, and its conversion to an integer;
* `CodePort.calcCrc32` — the checksum of a block of data.

Main results:

* `CodePort.cStr_append_zero`, `cStr_append` — a terminated text is found inside the memory that
  holds it.
-/

import Mathlib.Data.Int.Notation
import Mathlib.Data.List.Basic
import Mathlib.Data.List.TakeWhile
import Mathlib.Logic.Function.Iterate
import Mathlib.Tactic.Ring

set_option relaxedAutoImplicit false
set_option autoImplicit false

namespace CodePort

/-! ### C strings -/

/-- The text of a C string: the octets before the first zero. -/
def cStr (l : List UInt8) : List UInt8 := l.takeWhile (· ≠ 0)

theorem cStr_append_zero {s : List UInt8} (h : 0 ∉ s) (l : List UInt8) :
    cStr (s ++ 0 :: l) = s := by
  rw [cStr, List.takeWhile_append_of_pos]
  · simp
  · intro a ha
    rw [decide_eq_true_eq]
    rintro rfl
    exact h ha

theorem zero_notMem_cStr (l : List UInt8) : 0 ∉ cStr l := by
  intro h
  simpa using List.mem_takeWhile_imp h

/-- A string without zeros is its own text. -/
theorem cStr_of_notMem {s : List UInt8} (h : 0 ∉ s) : cStr s = s := by
  rw [cStr, List.takeWhile_eq_self_iff]
  intro a ha
  rw [decide_eq_true_eq]
  rintro rfl
  exact h ha

/-- A terminated string is found inside the memory that holds it. -/
theorem cStr_append {l : List UInt8} (h : 0 ∈ l) (l' : List UInt8) : cStr (l ++ l') = cStr l := by
  obtain ⟨s, t, rfl, hs⟩ := List.eq_append_cons_of_mem h
  rw [List.append_assoc, List.cons_append, cStr_append_zero hs, cStr_append_zero hs]

/-! ### Integers as text -/

/-- The octets of an ASCII text. -/
def ascii (s : String) : List UInt8 := s.toList.map fun c => UInt8.ofNat c.toNat

/-- A number in decimal digits. -/
def decText (n : ℕ) : List UInt8 := (Nat.toDigits 10 n).map fun c => UInt8.ofNat c.toNat

/-- `"%u"` of a 32-bit value. -/
def uintToStr (val : ℕ) : List UInt8 := decText (val % 2 ^ 32)

/-- `"%d"` of a 32-bit pattern. -/
def intToStr (val : ℕ) : List UInt8 :=
  if val % 2 ^ 32 < 2 ^ 31 then decText (val % 2 ^ 32)
  else ascii "-" ++ decText (2 ^ 32 - val % 2 ^ 32)

/-- White space, as `isspace` has it. -/
def isSpace (c : UInt8) : Bool := c = 32 || (9 ≤ c && c ≤ 13)

/-- A decimal digit. -/
def isDigit (c : UInt8) : Bool := 48 ≤ c && c ≤ 57

/-- `strtoul` with base 10, on a host whose `unsigned long` has 64 bits. -/
def strtoul (s : List UInt8) : ℕ :=
  let s := s.dropWhile isSpace
  let neg := s.head? = some 45
  let s := if s.head? = some 45 ∨ s.head? = some 43 then s.tail else s
  let n := (s.takeWhile isDigit).foldl (fun n c => 10 * n + (c.toNat - 48)) 0
  if 2 ^ 64 ≤ n then 2 ^ 64 - 1 else if neg then (2 ^ 64 - n) % 2 ^ 64 else n

/-- Converts a string to an unsigned integer. -/
def strToUint (s : List UInt8) : ℕ := strtoul s % 2 ^ 32

/-! ### Floating point patterns -/

/-- What a floating point pattern stands for: `m * 2 ^ e` with a sign, or no finite number. -/
inductive FloatVal
  | finite (neg : Bool) (m : ℕ) (e : ℤ)
  | inf (neg : Bool)
  | nan (neg : Bool)

/-- A pattern with `eb` exponent bits and `mb` mantissa bits. -/
def floatVal (eb mb bits : ℕ) : FloatVal :=
  let man := bits % 2 ^ mb
  let exp := bits / 2 ^ mb % 2 ^ eb
  let neg := decide (bits / 2 ^ (mb + eb) % 2 = 1)
  let bias : ℤ := 2 ^ (eb - 1) - 1
  if exp = 2 ^ eb - 1 then if man = 0 then .inf neg else .nan neg
  else if exp = 0 then .finite neg man (1 - bias - mb)
  else .finite neg (2 ^ mb + man) (exp - bias - mb)

/-- A 32-bit pattern. -/
def floatVal32 (bits : ℕ) : FloatVal := floatVal 8 23 bits

/-- A 64-bit pattern. -/
def floatVal64 (bits : ℕ) : FloatVal := floatVal 11 52 bits

/-- The value times `k`, with what lies below an integer cut off; and the part cut off, over
a power of two. -/
def scaled (k m : ℕ) (e : ℤ) : ℕ × ℕ × ℕ :=
  if 0 ≤ e then (m * 2 ^ e.toNat * k, 0, 1)
  else (m * k / 2 ^ (-e).toNat, m * k % 2 ^ (-e).toNat, 2 ^ (-e).toNat)

/-- `static_cast<uint64_t>`, which is defined when the value without its fraction is in range. -/
def FloatVal.toUint64 : FloatVal → Option ℕ
  | .finite neg m e =>
      let n := (scaled 1 m e).1
      if n = 0 then some 0 else if neg ∨ 2 ^ 64 ≤ n then none else some n
  | _ => none

/-- `"%f"`: six decimal places, rounded to the nearest, ties to even. -/
def FloatVal.text : FloatVal → List UInt8
  | .finite neg m e =>
      let (q, r, d) := scaled (10 ^ 6) m e
      let n := if d < 2 * r ∨ (2 * r = d ∧ q % 2 = 1) then q + 1 else q
      let frac := decText (n % 10 ^ 6)
      (if neg then ascii "-" else []) ++ decText (n / 10 ^ 6) ++ ascii "." ++
        (List.replicate (6 - frac.length) 48 ++ frac)
  | .inf neg => ascii (if neg then "-inf" else "inf")
  | .nan neg => ascii (if neg then "-nan" else "nan")

/-- Converts a float to a string, in a buffer of `size` octets, the terminator included. -/
def floatToStr (size : ℕ) (x : FloatVal) : List UInt8 := x.text.take (size - 1)

/-- One and a half, in both widths. -/
example : (floatVal64 0x3ff8000000000000).toUint64 = some 1 ∧
    (floatVal32 0x3fc00000).text = ascii "1.500000" := by decide

/-! ### Checksums -/

/-- The octets with their bits reversed. -/
def reflectLut : List (BitVec 8) :=
  [
    0x00, 0x80, 0x40, 0xc0, 0x20, 0xa0, 0x60, 0xe0, 0x10, 0x90, 0x50, 0xd0, 0x30, 0xb0, 0x70, 0xf0,
    0x08, 0x88, 0x48, 0xc8, 0x28, 0xa8, 0x68, 0xe8, 0x18, 0x98, 0x58, 0xd8, 0x38, 0xb8, 0x78, 0xf8,
    0x04, 0x84, 0x44, 0xc4, 0x24, 0xa4, 0x64, 0xe4, 0x14, 0x94, 0x54, 0xd4, 0x34, 0xb4, 0x74, 0xf4,
    0x0c, 0x8c, 0x4c, 0xcc, 0x2c, 0xac, 0x6c, 0xec, 0x1c, 0x9c, 0x5c, 0xdc, 0x3c, 0xbc, 0x7c, 0xfc,
    0x02, 0x82, 0x42, 0xc2, 0x22, 0xa2, 0x62, 0xe2, 0x12, 0x92, 0x52, 0xd2, 0x32, 0xb2, 0x72, 0xf2,
    0x0a, 0x8a, 0x4a, 0xca, 0x2a, 0xaa, 0x6a, 0xea, 0x1a, 0x9a, 0x5a, 0xda, 0x3a, 0xba, 0x7a, 0xfa,
    0x06, 0x86, 0x46, 0xc6, 0x26, 0xa6, 0x66, 0xe6, 0x16, 0x96, 0x56, 0xd6, 0x36, 0xb6, 0x76, 0xf6,
    0x0e, 0x8e, 0x4e, 0xce, 0x2e, 0xae, 0x6e, 0xee, 0x1e, 0x9e, 0x5e, 0xde, 0x3e, 0xbe, 0x7e, 0xfe,
    0x01, 0x81, 0x41, 0xc1, 0x21, 0xa1, 0x61, 0xe1, 0x11, 0x91, 0x51, 0xd1, 0x31, 0xb1, 0x71, 0xf1,
    0x09, 0x89, 0x49, 0xc9, 0x29, 0xa9, 0x69, 0xe9, 0x19, 0x99, 0x59, 0xd9, 0x39, 0xb9, 0x79, 0xf9,
    0x05, 0x85, 0x45, 0xc5, 0x25, 0xa5, 0x65, 0xe5, 0x15, 0x95, 0x55, 0xd5, 0x35, 0xb5, 0x75, 0xf5,
    0x0d, 0x8d, 0x4d, 0xcd, 0x2d, 0xad, 0x6d, 0xed, 0x1d, 0x9d, 0x5d, 0xdd, 0x3d, 0xbd, 0x7d, 0xfd,
    0x03, 0x83, 0x43, 0xc3, 0x23, 0xa3, 0x63, 0xe3, 0x13, 0x93, 0x53, 0xd3, 0x33, 0xb3, 0x73, 0xf3,
    0x0b, 0x8b, 0x4b, 0xcb, 0x2b, 0xab, 0x6b, 0xeb, 0x1b, 0x9b, 0x5b, 0xdb, 0x3b, 0xbb, 0x7b, 0xfb,
    0x07, 0x87, 0x47, 0xc7, 0x27, 0xa7, 0x67, 0xe7, 0x17, 0x97, 0x57, 0xd7, 0x37, 0xb7, 0x77, 0xf7,
    0x0f, 0x8f, 0x4f, 0xcf, 0x2f, 0xaf, 0x6f, 0xef, 0x1f, 0x9f, 0x5f, 0xdf, 0x3f, 0xbf, 0x7f, 0xff
  ]

/-- Reverse the bits in an octet. -/
def reflect8 (val : UInt8) : BitVec 8 := reflectLut.getD val.toNat 0

/-- Reverse the bits in a long word. -/
def reflect32 (val : BitVec 32) : BitVec 32 :=
  let lut (n : BitVec 32) : BitVec 32 := (reflectLut.getD (n &&& 0xff).toNat 0).setWidth 32
  lut val <<< 24 ||| lut (val >>> 8) <<< 16 ||| lut (val >>> 16) <<< 8 ||| lut (val >>> 24)

/-- Divide by the generator and save the remainder, one bit. -/
def crc32Bit (remainder : BitVec 32) : BitVec 32 :=
  if remainder &&& 0x80000000 ≠ 0 then remainder <<< 1 ^^^ 0x04c11db7 else remainder <<< 1

/-- Process an input octet. -/
def crc32Octet (remainder : BitVec 32) (octet : UInt8) : BitVec 32 :=
  crc32Bit^[8] (remainder ^^^ (reflect8 octet).setWidth 32 <<< 24)

/-- Calculate CRC-32 for a block of data. -/
def calcCrc32 (buf : List UInt8) (cascade : BitVec 32) : BitVec 32 :=
  let xorOut : BitVec 32 := 0xffffffff
  -- check for data cascade
  let remainder := if cascade ≠ xorOut then reflect32 (cascade ^^^ xorOut) else xorOut
  reflect32 (buf.foldl crc32Octet remainder) ^^^ xorOut

/-- Calculate CRC-32 for a block of data, if there is one. -/
def calcCrc32Ptr (pBuf : Option (List UInt8)) (cascade : BitVec 32) : BitVec 32 :=
  match pBuf with
  -- check for NULL pointer
  | none => 0
  | some buf => calcCrc32 buf cascade

end CodePort
