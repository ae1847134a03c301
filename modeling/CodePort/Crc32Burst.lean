/-
Burst errors.

The register of the checksum takes the bits of a message in the order of their transmission, the lowest
bit of an octet first.  Two messages of one length leave two registers that differ by what the
differences alone leave, and differences within as many bits as the register has are not absorbed.

Main definitions:

* `CodePort.transmitted` — the bits of a message in transmission order.

Main results:

* `CodePort.foldl_refCrc32Octet` — **the octets of a message enter the register bit by bit**;
* `CodePort.calcCrc32_burst` — **a burst error within 32 bits is always detected**.
-/

import CodePort.Crc32

set_option relaxedAutoImplicit false
set_option autoImplicit false

namespace CodePort

open ShiftRegister

/-- The generator of the register that is shifted to the right. -/
def crcGenerator : BitVec 32 := 0xedb88320

/-- The bits of an octet, the lowest first. -/
def octetBits (octet : UInt8) : List Bool := (List.range 8).map octet.toBitVec.getLsbD

/-- The bits of a message in transmission order. -/
def transmitted (buf : List UInt8) : List Bool := buf.flatMap octetBits

theorem length_octetBits (octet : UInt8) : (octetBits octet).length = 8 := by
  simp [octetBits]

theorem word_octetBits {w : ℕ} (octet : UInt8) :
    (word (octetBits octet) : BitVec w) = octet.toBitVec.setWidth w := by
  apply BitVec.eq_of_getLsbD_eq
  intro i hi
  rw [getLsbD_word hi, BitVec.getLsbD_setWidth, octetBits]
  by_cases hlt : i < 8
  · simp [hi, hlt]
  · rw [BitVec.getLsbD_of_ge octet.toBitVec i (by omega)]
    simp [hlt]

/-- An octet enters the register bit by bit. -/
theorem refCrc32Octet_eq (r : BitVec 32) (octet : UInt8) :
    refCrc32Octet r octet = (octetBits octet).foldl (feed crcGenerator) r := by
  rw [← iterate_divRight_word crcGenerator (by rw [length_octetBits]; decide), word_octetBits,
    length_octetBits]
  rfl

/-- **The octets of a message enter the register bit by bit.** -/
theorem foldl_refCrc32Octet (buf : List UInt8) (r : BitVec 32) :
    buf.foldl refCrc32Octet r = (transmitted buf).foldl (feed crcGenerator) r := by
  induction buf generalizing r with
  | nil => rfl
  | cons octet buf ih =>
      rw [transmitted, List.flatMap_cons, List.foldl_append, List.foldl_cons, refCrc32Octet_eq, ih]
      rfl

theorem length_transmitted (buf : List UInt8) : (transmitted buf).length = 8 * buf.length := by
  induction buf with
  | nil => rfl
  | cons octet buf ih =>
      rw [transmitted, List.flatMap_cons, List.length_append, length_octetBits]
      rw [transmitted] at ih
      rw [ih, List.length_cons]
      omega

theorem octetBits_injective : Function.Injective octetBits := by
  intro a b h
  rw [octetBits, octetBits, List.map_inj_left] at h
  refine UInt8.toBitVec_inj.1 (BitVec.eq_of_getLsbD_eq fun i hi => ?_)
  exact h i (List.mem_range.2 hi)

theorem transmitted_injective : Function.Injective transmitted := by
  intro a
  induction a with
  | nil =>
      intro b h
      have hlen := congrArg List.length h
      rw [length_transmitted, length_transmitted, List.length_nil] at hlen
      exact (List.length_eq_zero_iff.1 (by omega)).symm
  | cons x a ih =>
      intro b h
      cases b with
      | nil =>
          have hlen := congrArg List.length h
          rw [length_transmitted, length_transmitted, List.length_nil, List.length_cons] at hlen
          omega
      | cons y b =>
          rw [transmitted, transmitted, List.flatMap_cons, List.flatMap_cons] at h
          obtain ⟨hx, ha⟩ := List.append_inj h (by rw [length_octetBits, length_octetBits])
          rw [octetBits_injective hx, ih ha]

/-- **A burst error within 32 bits is always detected**: of two different messages of one length whose
differing bits all lie within 32 consecutive bits in transmission order, `CalcCrc32` calculates different
checksums. -/
theorem calcCrc32_burst (a b : List UInt8) (hlen : a.length = b.length) (hne : a ≠ b) (p : ℕ)
    (hburst : ∀ k, (transmitted a)[k]? ≠ (transmitted b)[k]? → p ≤ k ∧ k < p + 32) :
    calcCrc32Ptr (some a) 0xffffffff ≠ calcCrc32Ptr (some b) 0xffffffff := by
  intro hcrc
  rw [calcCrc32_standard, calcCrc32_standard, refCrc32, refCrc32, Option.getD_some, Option.getD_some,
    BitVec.not_inj, foldl_refCrc32Octet, foldl_refCrc32Octet] at hcrc
  have hbits : (transmitted a).length = (transmitted b).length := by
    rw [length_transmitted, length_transmitted, hlen]
  -- the differences alone leave a register of zeros
  have hzero : (List.zipWith xor (transmitted a) (transmitted b)).foldl (feed crcGenerator) 0 = 0 := by
    have hdiff := foldl_feed_xor crcGenerator hbits 0xffffffff 0xffffffff
    rw [hcrc, BitVec.xor_self, BitVec.xor_self] at hdiff
    exact hdiff
  have hfalse := all_false_of_burst (by decide) (p := p) (fun k hk => ?_) hzero
  · refine hne (transmitted_injective (List.ext_getElem hbits fun k ha hb => ?_))
    have hmem : xor (transmitted a)[k] (transmitted b)[k] ∈
        List.zipWith xor (transmitted a) (transmitted b) := by
      rw [List.mem_iff_getElem]
      exact ⟨k, by simp [ha, hb], by simp⟩
    simpa using hfalse _ hmem
  · refine hburst k fun heq => ?_
    rw [List.getElem?_zipWith, heq] at hk
    cases hb : (transmitted b)[k]? with
    | none => simp [hb] at hk
    | some y => simp [hb] at hk

/-- Two messages that differ in the last bit of the first octet and the first bit of the second. -/
theorem calcCrc32_burst_pair :
    calcCrc32Ptr (some [0x80, 0x01, 0x20]) 0xffffffff ≠
      calcCrc32Ptr (some [0x00, 0x00, 0x20]) 0xffffffff := by
  refine calcCrc32_burst [0x80, 0x01, 0x20] [0x00, 0x00, 0x20] rfl (by decide) 0 fun k hk => ?_
  refine ⟨Nat.zero_le k, ?_⟩
  by_contra hge
  have ha : (transmitted [0x80, 0x01, 0x20])[k]? = none :=
    List.getElem?_eq_none (by rw [length_transmitted]; simp; omega)
  have hb : (transmitted [0x00, 0x00, 0x20])[k]? = none :=
    List.getElem?_eq_none (by rw [length_transmitted]; simp; omega)
  exact hk (ha.trans hb.symm)

end CodePort
