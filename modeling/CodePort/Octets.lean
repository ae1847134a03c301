/-
Numbers as octets.

A natural number written in `w` octets, most significant octet first, and read back; and the same
number as it lies in the memory of a host of either byte order.

Main definitions:

* `Octets.toBE`, `Octets.ofBE` — big-endian octets of a number, and the number they stand for;
* `Octets.toHost`, `Octets.ofHost` — the same in the byte order of a host.

Main results:

* `Octets.ofBE_toBE`, `Octets.toBE_ofBE` — **writing and reading are inverse**;
* `Octets.ofHost_toHost` — so they are on every host.
-/

import Mathlib.Data.List.Basic
import Mathlib.Tactic.Ring

set_option relaxedAutoImplicit false
set_option autoImplicit false

namespace Octets

/-- The last `w` octets of a number, most significant octet first. -/
def toBE : ℕ → ℕ → List UInt8
  | 0, _ => []
  | w + 1, n => UInt8.ofNat (n / 256 ^ w) :: toBE w n

/-- The number that octets stand for, most significant octet first. -/
def ofBE : List UInt8 → ℕ
  | [] => 0
  | b :: l => b.toNat * 256 ^ l.length + ofBE l

/-- The last `w` octets of a number in the memory of a host. -/
def toHost (littleEndian : Bool) (w n : ℕ) : List UInt8 :=
  if littleEndian then (toBE w n).reverse else toBE w n

/-- The number that octets in the memory of a host stand for. -/
def ofHost (littleEndian : Bool) (l : List UInt8) : ℕ :=
  if littleEndian then ofBE l.reverse else ofBE l

@[simp] theorem length_toBE (w n : ℕ) : (toBE w n).length = w := by
  induction w with
  | zero => rfl
  | succ w ih => rw [toBE, List.length_cons, ih]

@[simp] theorem length_toHost (le : Bool) (w n : ℕ) : (toHost le w n).length = w := by
  cases le <;> simp [toHost]

/-- A number written in `l.length` octets stays below `256 ^ l.length`. -/
theorem ofBE_lt (l : List UInt8) : ofBE l < 256 ^ l.length := by
  induction l with
  | nil => exact Nat.one_pos
  | cons b l ih =>
      have hb : b.toNat + 1 ≤ 256 := b.toNat_lt
      have hmul := Nat.mul_le_mul_right (256 ^ l.length) hb
      rw [ofBE, List.length_cons, pow_succ, Nat.mul_comm _ 256]
      rw [Nat.add_mul, Nat.one_mul] at hmul
      omega

/-- The octets of a number do not depend on what lies above them. -/
theorem toBE_add_mul (w n k : ℕ) : toBE w (n + k * 256 ^ w) = toBE w n := by
  induction w generalizing k with
  | zero => rfl
  | succ w ih =>
      have hpow : n + k * 256 ^ (w + 1) = n + k * 256 * 256 ^ w := by rw [pow_succ]; ring
      have hdiv : (n + k * 256 * 256 ^ w) / 256 ^ w = n / 256 ^ w + k * 256 :=
        Nat.add_mul_div_right _ _ (Nat.pow_pos (by decide))
      rw [toBE, toBE, hpow, ih, hdiv]
      congr 1
      apply UInt8.toNat_inj.1
      rw [UInt8.toNat_ofNat', UInt8.toNat_ofNat']
      omega

/-- **Reading back what was written** gives the number, as far as it fits. -/
theorem ofBE_toBE (w n : ℕ) : ofBE (toBE w n) = n % 256 ^ w := by
  induction w with
  | zero => rw [pow_zero, Nat.mod_one]; rfl
  | succ w ih =>
      have hdigit : (UInt8.ofNat (n / 256 ^ w)).toNat = n / 256 ^ w % 256 := UInt8.toNat_ofNat'
      rw [toBE, ofBE, ih, length_toBE, hdigit, pow_succ, Nat.mod_mul]
      ring

theorem ofBE_toBE_of_lt {w n : ℕ} (h : n < 256 ^ w) : ofBE (toBE w n) = n := by
  rw [ofBE_toBE, Nat.mod_eq_of_lt h]

/-- **Writing back what was read** gives the octets. -/
theorem toBE_ofBE (l : List UInt8) : toBE l.length (ofBE l) = l := by
  induction l with
  | nil => rfl
  | cons b l ih =>
      have hdiv : (b.toNat * 256 ^ l.length + ofBE l) / 256 ^ l.length = b.toNat := by
        rw [Nat.add_comm, Nat.add_mul_div_right _ _ (Nat.pow_pos (by decide)),
          Nat.div_eq_of_lt (ofBE_lt l), Nat.zero_add]
      rw [List.length_cons, toBE, ofBE, hdiv, Nat.add_comm, toBE_add_mul, ih, UInt8.ofNat_toNat]

theorem ofHost_lt (le : Bool) (l : List UInt8) : ofHost le l < 256 ^ l.length := by
  cases le with
  | false => exact ofBE_lt l
  | true =>
      have h := ofBE_lt l.reverse
      rwa [List.length_reverse] at h

/-- **What a host writes to its memory it reads back.** -/
theorem ofHost_toHost (le : Bool) (w n : ℕ) : ofHost le (toHost le w n) = n % 256 ^ w := by
  cases le with
  | false => exact ofBE_toBE w n
  | true =>
      simp only [ofHost, toHost, if_true, List.reverse_reverse]
      exact ofBE_toBE w n

/-- The octets of a host in big-endian order. -/
theorem toHost_of_order (le : Bool) (w n : ℕ) :
    (if le then (toHost le w n).reverse else toHost le w n) = toBE w n := by
  cases le <;> simp [toHost]

/-- Big-endian octets put into the memory of a host are read as their number. -/
theorem ofHost_of_order (le : Bool) (l : List UInt8) :
    ofHost le (if le then l.reverse else l) = ofBE l := by
  cases le <;> simp [ofHost]

end Octets
