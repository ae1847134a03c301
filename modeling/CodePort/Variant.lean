/-
The variant class.

A `Variant` is a type and a buffer that holds the value in memory: a number in the byte order of
the host, a truth value as a digit, a text with its terminator, a blob as it is.

Main definitions:

* `CodePort.DataType` — the data types, and the octet each one is in the source's enumeration;
* `CodePort.Variant` — the class, with its setters and getters;
* `CodePort.Value`, `CodePort.Variant.value` — what a variant holds, whatever host it is on;
* `CodePort.Variant.Wf` — the memory of a variant is large enough for its type.

Main results:

* `CodePort.Variant.Wf.congr` — what a well-formed variant holds depends on its type and the data of
  its buffer only;
* `CodePort.Variant.holds_numSet`, `holds_boolSet`, `holds_strSet`, `holds_bufSet`,
  `Holds.assign` — **every way to set a variant leaves a well-formed one that holds what was set**.
-/

import CodePort.Buffer
import CodePort.Octets
import Mathlib.Data.List.TakeDrop

set_option relaxedAutoImplicit false
set_option autoImplicit false

namespace CodePort

open Octets

/-! ### Data types -/

/-- The data type enumeration. -/
inductive DataType
  | inert | none | uint8 | int8 | uint16 | int16 | uint32 | int32
  | uint64 | int64 | float32 | float64 | bool | string | blob
  | datumList
  deriving DecidableEq, Repr

namespace DataType

/-- The data types in the order of the enumeration. -/
def all : List DataType :=
  [.inert, .none, .uint8, .int8, .uint16, .int16, .uint32, .int32,
    .uint64, .int64, .float32, .float64, .bool, .string, .blob,
    .datumList]

/-- The octet that a data type is converted to. -/
def toOctet (t : DataType) : UInt8 := UInt8.ofNat (all.idxOf t)

/-- The data type that an octet is converted to, if there is one. -/
def ofOctet (ch : UInt8) : Option DataType := all[ch.toNat]?

@[simp] theorem ofOctet_toOctet (t : DataType) : ofOctet t.toOctet = some t := by
  cases t <;> rfl

/-- The number of octets of a number of this type; `none` when it is not a number. -/
def width : DataType → Option ℕ
  | .uint8 | .int8 => some 1
  | .uint16 | .int16 => some 2
  | .uint32 | .int32 | .float32 => some 4
  | .uint64 | .int64 | .float64 => some 8
  | _ => Option.none

end DataType

/-! ### Variants -/

/-- The variant class. -/
structure Variant where
  /-- The currently stored data type. -/
  type : DataType
  /-- The underlying storage buffer. -/
  buf : Buffer
  deriving DecidableEq

/-- What a variant holds.  A number is a bit pattern, signed and floating ones included. -/
inductive Value
  | none
  | num (type : DataType) (bits : ℕ)
  | bool (b : Bool)
  | text (s : List UInt8)
  | blob (d : List UInt8)
  /-- The types that stand for no value. -/
  | void (type : DataType)
  deriving DecidableEq, Repr

namespace Variant

/-- Resize the buffer and set the data length. -/
def resizeBuffer (m : MemPools) (v : Variant) (size : ℕ) : Bool × Variant :=
  if v.type = .inert then (false, v)
  else
    let r := v.buf.resize m size
    if r.1 then (true, { v with buf := r.2.lenSet size }) else (false, { v with buf := r.2 })

/-- The constructor. -/
def construct (m : MemPools) (inert : Bool) : Variant :=
  (resizeBuffer m ⟨if inert then .inert else .none, Buffer.empty⟩ 8).2

/-- The assignment operator. -/
def assign (m : MemPools) (v rhs : Variant) : Variant :=
  if v.type = .inert then v else ⟨rhs.type, v.buf.assign m rhs.buf⟩

/-- The copy constructor. -/
def copy (m : MemPools) (rhs : Variant) : Variant := assign m ⟨.none, Buffer.empty⟩ rhs

/-! ### Setters -/

/-- Store a number of `w` octets in the byte order of the host. -/
def numSet (le : Bool) (m : MemPools) (w : ℕ) (type : DataType) (v : Variant) (val : ℕ) :
    Variant :=
  let r := v.resizeBuffer m w
  if r.1 then ⟨type, r.2.buf.memWr 0 (toHost le w val)⟩ else r.2

def uint8Set (le : Bool) (m : MemPools) : Variant → ℕ → Variant := numSet le m 1 .uint8
def int8Set (le : Bool) (m : MemPools) : Variant → ℕ → Variant := numSet le m 1 .int8
def uint16Set (le : Bool) (m : MemPools) : Variant → ℕ → Variant := numSet le m 2 .uint16
def int16Set (le : Bool) (m : MemPools) : Variant → ℕ → Variant := numSet le m 2 .int16
def uint32Set (le : Bool) (m : MemPools) : Variant → ℕ → Variant := numSet le m 4 .uint32
def int32Set (le : Bool) (m : MemPools) : Variant → ℕ → Variant := numSet le m 4 .int32
def uint64Set (le : Bool) (m : MemPools) : Variant → ℕ → Variant := numSet le m 8 .uint64
def int64Set (le : Bool) (m : MemPools) : Variant → ℕ → Variant := numSet le m 8 .int64
def float32Set (le : Bool) (m : MemPools) : Variant → ℕ → Variant := numSet le m 4 .float32
def float64Set (le : Bool) (m : MemPools) : Variant → ℕ → Variant := numSet le m 8 .float64

/-- Store a truth value as a digit. -/
def boolSet (m : MemPools) (v : Variant) (val : Bool) : Variant :=
  let r := v.resizeBuffer m 1
  if r.1 then ⟨.bool, r.2.buf.memWr 0 [if val then 49 else 48]⟩ else r.2

def strSet (m : MemPools) (v : Variant) (str : List UInt8) : Variant :=
  ⟨.string, v.buf.assignStr m str⟩

def bufSet (m : MemPools) (v : Variant) (buf : Buffer) : Variant := ⟨.blob, v.buf.assign m buf⟩

/-- `BufSet` of a pointer and a length; `none` is the NULL pointer, from which nothing is copied. -/
def bufSetRaw (m : MemPools) (v : Variant) (pBuf : Option (List UInt8)) : Variant :=
  match pBuf with
  | some d => ⟨.blob, (v.buf.copyIn m d).2⟩
  | none => ⟨.blob, v.buf⟩

/-- Clear the variant. -/
def clear (m : MemPools) (v : Variant) : Variant :=
  if v.type = .inert then v else ⟨.none, (v.buf.resize m 0).2⟩

/-! ### Getters -/

/-- The number of `w` octets at the start of the memory. -/
def numAt (le : Bool) (v : Variant) (w : ℕ) : ℕ := ofHost le (v.buf.mem.takeD w 0)

/-- The first octet of the memory. -/
def firstOctet (v : Variant) : UInt8 := v.buf.mem.headD 0

/-- Every number is read as an unsigned one.  Where the conversion of a floating point number is
undefined the result stands as zero. -/
def uint64Get (le : Bool) (v : Variant) : ℕ :=
  match v.type with
  | .uint8 | .int8 => v.numAt le 1
  | .uint16 | .int16 => v.numAt le 2
  | .uint32 | .int32 => v.numAt le 4
  | .uint64 | .int64 => v.numAt le 8
  | .float32 => ((floatVal32 (v.numAt le 4)).toUint64).getD 0
  | .float64 => ((floatVal64 (v.numAt le 8)).toUint64).getD 0
  | .bool => if v.firstOctet = 49 then 1 else 0
  | .string => strToUint (cStr v.buf.mem)
  | .blob => v.buf.lenGet
  | .inert | .none | .datumList => 0

def uint8Get (le : Bool) (v : Variant) : ℕ := v.uint64Get le % 2 ^ 8
def int8Get (le : Bool) (v : Variant) : ℕ := v.uint64Get le % 2 ^ 8
def uint16Get (le : Bool) (v : Variant) : ℕ := v.uint64Get le % 2 ^ 16
def int16Get (le : Bool) (v : Variant) : ℕ := v.uint64Get le % 2 ^ 16
def uint32Get (le : Bool) (v : Variant) : ℕ := v.uint64Get le % 2 ^ 32
def int32Get (le : Bool) (v : Variant) : ℕ := v.uint64Get le % 2 ^ 32
def int64Get (le : Bool) (v : Variant) : ℕ := v.uint64Get le

/-- The pattern that `Float32Get` returns from a variant of type float32. -/
def float32Get (le : Bool) (v : Variant) : ℕ := v.numAt le 4

/-- The pattern that `Float64Get` returns from a variant of type float64. -/
def float64Get (le : Bool) (v : Variant) : ℕ := v.numAt le 8

/-- Is the value more than a half? -/
def aboveHalf : FloatVal → Bool
  | .finite neg m e => !neg && decide ((scaled 2 m e).1 ≥ 1 ∧
      ((scaled 2 m e).1 > 1 ∨ (scaled 2 m e).2.1 > 0))
  | .inf neg => !neg
  | .nan _ => false

def boolGet (le : Bool) (v : Variant) : Bool :=
  match v.type with
  | .uint8 | .int8 => decide (0 < v.numAt le 1)
  | .uint16 | .int16 => decide (0 < v.numAt le 2)
  | .uint32 | .int32 => decide (0 < v.numAt le 4)
  | .uint64 | .int64 => decide (0 < v.numAt le 8)
  | .float32 => aboveHalf (floatVal32 (v.numAt le 4))
  | .float64 => aboveHalf (floatVal64 (v.numAt le 8))
  | .bool => decide (v.firstOctet = 49)
  | .string => decide (v.firstOctet ≠ 0)
  | .blob => decide (0 < v.buf.lenGet)
  | .inert | .none | .datumList => false

/-- The sign bit of a number of `w` octets, carried up to 32 bits. -/
def signExtend (w n : ℕ) : ℕ := if n < 2 ^ (8 * w - 1) then n else n + (2 ^ 32 - 2 ^ (8 * w))

def strGet (le : Bool) (m : MemPools) (v : Variant) : List UInt8 :=
  let size := (m.blockSize 32).getD 0
  match v.type with
  | .uint8 => uintToStr (v.numAt le 1)
  | .int8 => intToStr (signExtend 1 (v.numAt le 1))
  | .uint16 => uintToStr (v.numAt le 2)
  | .int16 => intToStr (signExtend 2 (v.numAt le 2))
  | .uint32 => uintToStr (v.numAt le 4)
  | .int32 => intToStr (v.numAt le 4)
  | .uint64 => uintToStr (v.numAt le 8)
  | .int64 => intToStr (v.numAt le 8)
  | .float32 => floatToStr size (floatVal32 (v.numAt le 4))
  | .float64 => floatToStr size (floatVal64 (v.numAt le 8))
  | .bool => if v.firstOctet = 49 then ascii "1" else ascii "0"
  | .string | .blob => cStr v.buf.mem
  | .inert | .none | .datumList => []

/-! ### Values -/

/-- What a variant holds. -/
def value (le : Bool) (v : Variant) : Value :=
  match v.type with
  | .none => .none
  | .bool => .bool (decide (v.firstOctet = 49))
  | .string => .text (cStr v.buf.mem)
  | .blob => .blob v.buf.data
  | t =>
      match t.width with
      | some w => .num t (v.numAt le w)
      | Option.none => .void t

/-- The part in use is large enough for the type of the variant. -/
def Wf (v : Variant) : Prop :=
  (∀ w, v.type.width = some w → w ≤ v.buf.dataLen) ∧
    (v.type = .bool → 1 ≤ v.buf.dataLen) ∧ (v.type = .string → 0 ∈ v.buf.data)

/-- The variant is well formed and holds the value. -/
structure Holds (le : Bool) (v : Variant) (x : Value) : Prop where
  wf : v.Wf
  value_eq : v.value le = x
  not_inert : v.type ≠ .inert

theorem value_of_width {v : Variant} {w : ℕ} (le : Bool) (h : v.type.width = some w) :
    v.value le = .num v.type (v.numAt le w) := by
  cases ht : v.type <;> simp_all [value, DataType.width]

/-! ### The memory of a well-formed variant -/

theorem numAt_eq {v : Variant} {w : ℕ} (le : Bool) (h : w ≤ v.buf.dataLen) :
    v.numAt le w = ofHost le (v.buf.data.take w) := by
  have hle : w ≤ v.buf.data.length := by rw [v.buf.length_data]; exact h
  rw [numAt, ← v.buf.data_append_drop, List.takeD_eq_take, List.take_append_of_le_length hle]
  rw [List.length_append]
  omega

theorem numAt_lt (le : Bool) (v : Variant) (w : ℕ) : v.numAt le w < 256 ^ w := by
  have h := ofHost_lt le (v.buf.mem.takeD w 0)
  rwa [List.takeD_length] at h

theorem firstOctet_eq {v : Variant} (h : 1 ≤ v.buf.dataLen) :
    v.firstOctet = v.buf.data.headD 0 := by
  rw [firstOctet, ← v.buf.data_append_drop]
  cases hd : v.buf.data with
  | nil =>
      have hlen := v.buf.length_data
      rw [hd, List.length_nil] at hlen
      omega
  | cons a l => rfl

theorem cStr_mem_eq {v : Variant} (h : 0 ∈ v.buf.data) : cStr v.buf.mem = cStr v.buf.data := by
  rw [← v.buf.data_append_drop]
  exact cStr_append h _

/-- What a well-formed variant holds depends on its type and its data only. -/
theorem Wf.congr {v u : Variant} (h : v.Wf) (ht : u.type = v.type)
    (hd : u.buf.data = v.buf.data) : u.Wf ∧ ∀ le, u.value le = v.value le := by
  have hlen : u.buf.dataLen = v.buf.dataLen := by
    rw [← Buffer.length_data, hd, Buffer.length_data]
  obtain ⟨hnum, hbool, hstr⟩ := h
  have hwf : u.Wf := ⟨by rw [ht, hlen]; exact hnum, by rw [ht, hlen]; exact hbool, by
    rw [ht, hd]; exact hstr⟩
  refine ⟨hwf, fun le => ?_⟩
  cases hw : v.type.width with
  | some w =>
      have hle := hnum w hw
      rw [value_of_width le hw, value_of_width le (by rw [ht]; exact hw), ht,
        numAt_eq le hle, numAt_eq le (by rw [hlen]; exact hle), hd]
  | none =>
      simp only [value, ht]
      cases hty : v.type with
      | bool =>
          have hle := hbool hty
          simp only [firstOctet_eq hle, firstOctet_eq (hlen ▸ hle), hd]
      | string =>
          have h0 := hstr hty
          simp only [cStr_mem_eq h0, cStr_mem_eq (hd ▸ h0), hd]
      | blob => simp only [hd]
      | _ => simp_all [DataType.width]

/-! ### Setting -/

theorem holds_construct {m : MemPools} (hm : m.Plentiful) (le : Bool) :
    (construct m false).Holds le .none := by
  have hfst := Buffer.resize_fst hm Buffer.empty 8
  have hty : (construct m false).type = .none := by simp [construct, resizeBuffer, hfst]
  refine ⟨⟨?_, ?_, ?_⟩, by simp [value, hty], by simp [hty]⟩ <;> simp [hty, DataType.width]

/-- A number that is set lies in the memory in the byte order of the host. -/
theorem data_numSet {m : MemPools} (hm : m.Plentiful) (le : Bool) (w : ℕ) (t : DataType)
    {v : Variant} (hv : v.type ≠ .inert) (n : ℕ) :
    (numSet le m w t v n).type = t ∧ (numSet le m w t v n).buf.data = toHost le w n := by
  have hfst := Buffer.resize_fst hm v.buf w
  have hset : numSet le m w t v n =
      ⟨t, ((v.buf.resize m w).2.lenSet w).memWr 0 (toHost le w n)⟩ := by
    simp [numSet, resizeBuffer, hv, hfst]
  have h := Buffer.data_memWr_lenSet hm v.buf (toHost le w n)
  rw [length_toHost] at h
  rw [hset]
  exact ⟨rfl, h⟩

/-- **A number that is set** is held, as far as it fits. -/
theorem holds_numSet {m : MemPools} (hm : m.Plentiful) (le : Bool) {w : ℕ} {t : DataType}
    (hw : t.width = some w) {v : Variant} (hv : v.type ≠ .inert) (n : ℕ) :
    (numSet le m w t v n).Holds le (.num t (n % 256 ^ w)) := by
  obtain ⟨hty, hdata⟩ := data_numSet hm le w t hv n
  have hlen : (numSet le m w t v n).buf.dataLen = w := by
    rw [← Buffer.length_data, hdata, length_toHost]
  refine ⟨⟨?_, ?_, ?_⟩, ?_, ?_⟩
  · rw [hty, hw, hlen]
    rintro k hk
    exact (Option.some.inj hk).ge
  · rw [hty]
    rintro rfl
    exact absurd hw (by simp [DataType.width])
  · rw [hty]
    rintro rfl
    exact absurd hw (by simp [DataType.width])
  · rw [value_of_width le (by rw [hty]; exact hw), hty, numAt_eq le hlen.ge, hdata,
      List.take_of_length_le (length_toHost le w n).le, ofHost_toHost]
  · rw [hty]
    rintro rfl
    exact absurd hw (by simp [DataType.width])

/-- A truth value that is set lies in the memory as a digit. -/
theorem data_boolSet {m : MemPools} (hm : m.Plentiful) {v : Variant} (hv : v.type ≠ .inert)
    (b : Bool) :
    (boolSet m v b).type = .bool ∧ (boolSet m v b).buf.data = [if b then 49 else 48] := by
  have hfst := Buffer.resize_fst hm v.buf 1
  have hset : boolSet m v b =
      ⟨.bool, ((v.buf.resize m 1).2.lenSet 1).memWr 0 [if b then 49 else 48]⟩ := by
    simp [boolSet, resizeBuffer, hv, hfst]
  rw [hset]
  exact ⟨rfl, Buffer.data_memWr_lenSet hm v.buf [if b then 49 else 48]⟩

/-- **A truth value that is set** is held. -/
theorem holds_boolSet {m : MemPools} (hm : m.Plentiful) (le : Bool) {v : Variant}
    (hv : v.type ≠ .inert) (b : Bool) : (boolSet m v b).Holds le (.bool b) := by
  obtain ⟨hty, hdata⟩ := data_boolSet hm hv b
  have hlen : (boolSet m v b).buf.dataLen = 1 := by
    rw [← Buffer.length_data, hdata, List.length_singleton]
  refine ⟨⟨?_, fun _ => hlen.ge, ?_⟩, ?_, by simp [hty]⟩
  · simp [hty, DataType.width]
  · simp [hty]
  · simp only [value, hty, firstOctet_eq hlen.ge, hdata]
    cases b <;> rfl

/-- **A text that is set** is held up to its first zero. -/
theorem holds_strSet {m : MemPools} (hm : m.Plentiful) (le : Bool) (v : Variant)
    (s : List UInt8) : (strSet m v s).Holds le (.text (cStr s)) := by
  have hdata : (strSet m v s).buf.data = cStr s ++ [0] := Buffer.data_assignStr hm _ _
  have h0 : 0 ∈ (strSet m v s).buf.data := by simp [hdata]
  refine ⟨⟨?_, ?_, fun _ => h0⟩, ?_, by simp [strSet]⟩
  · simp [strSet, DataType.width]
  · simp [strSet]
  · have hval : (strSet m v s).value le = .text (cStr (strSet m v s).buf.mem) := rfl
    rw [hval, cStr_mem_eq h0, hdata, cStr_append_zero (zero_notMem_cStr s)]

/-- **A blob that is set** is held. -/
theorem holds_bufSet {m : MemPools} (hm : m.Plentiful) (le : Bool) (v : Variant) (b : Buffer) :
    (bufSet m v b).Holds le (.blob b.data) := by
  have hdata : (bufSet m v b).buf.data = b.data := Buffer.data_assign hm _ _
  refine ⟨⟨?_, ?_, ?_⟩, ?_, by simp [bufSet]⟩
  · simp [bufSet, DataType.width]
  · simp [bufSet]
  · simp [bufSet]
  · have hval : (bufSet m v b).value le = .blob (bufSet m v b).buf.data := rfl
    rw [hval, hdata]

/-- **What is assigned** is held. -/
theorem Holds.assign {m : MemPools} (hm : m.Plentiful) {le : Bool} {rhs : Variant} {x : Value}
    (h : rhs.Holds le x) {v : Variant} (hv : v.type ≠ .inert) : (v.assign m rhs).Holds le x := by
  have hset : v.assign m rhs = ⟨rhs.type, v.buf.assign m rhs.buf⟩ := by
    rw [Variant.assign, if_neg hv]
  obtain ⟨hwf, hval⟩ := h.wf.congr (u := v.assign m rhs) (by rw [hset]) (by
    rw [hset]; exact Buffer.data_assign hm _ _)
  exact ⟨hwf, (hval le).trans h.value_eq, by rw [hset]; exact h.not_inert⟩

theorem Holds.copy {m : MemPools} (hm : m.Plentiful) {le : Bool} {rhs : Variant} {x : Value}
    (h : rhs.Holds le x) : (Variant.copy m rhs).Holds le x :=
  h.assign hm (v := ⟨.none, Buffer.empty⟩) (fun hc => nomatch hc)

end Variant

end CodePort
