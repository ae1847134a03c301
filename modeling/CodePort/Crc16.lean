/-
Frames with a checksum of 16 bits.

`CalcCrc16` shifts its register to the left and takes the bits of an octet from the highest one on, so in
reverse it is a register that is shifted to the right and takes the octets mirrored.  A message that is
followed by its checksum, the higher octet first, leaves a register of zeros; and a frame that differs from
it within 16 bits, or in an odd number of bits, does not.

Main definitions:

* `CodePort.calcCrc16` — the checksum;
* `CodePort.sentBits` — the bits of a frame, from the highest bit of an octet on;
* `CodePort.crc16Frame` — a message and its checksum.

Main results:

* `CodePort.reverse_foldl_crc16Octet` — the register, bit by bit;
* `CodePort.calcCrc16_frame` — **a frame is accepted, and no frame with a burst of 16 bits or an odd number
  of wrong bits is**.
-/

import CodePort.Crc32Burst
import Mathlib.Tactic.IntervalCases

set_option relaxedAutoImplicit false
set_option autoImplicit false

namespace CodePort

open ShiftRegister

/-! ### The checksum -/

/-- Divide by the generator and save the remainder, one bit. -/
def crc16Bit (remainder : BitVec 16) : BitVec 16 :=
  if remainder &&& 0x8000 ≠ 0 then remainder <<< 1 ^^^ 0x1021 else remainder <<< 1

/-- Process an input octet. -/
def crc16Octet (remainder : BitVec 16) (octet : UInt8) : BitVec 16 :=
  crc16Bit^[8] (remainder ^^^ octet.toBitVec.setWidth 16 <<< 8)

/-- Calculate CRC-16 for a block of data. -/
def calcCrc16 (pBuf : Option (List UInt8)) (cascade : BitVec 16) : BitVec 16 :=
  let xorOut : BitVec 16 := 0
  match pBuf with
  -- check for NULL pointer
  | none => 0
  | some buf => buf.foldl crc16Octet cascade ^^^ xorOut

/-- The check value of the standard. -/
example : calcCrc16 (some [49, 50, 51, 52, 53, 54, 55, 56, 57]) 0xffff = 0x29b1 := by decide +kernel

theorem calcCrc16_some (buf : List UInt8) (cascade : BitVec 16) :
    calcCrc16 (some buf) cascade = buf.foldl crc16Octet cascade := BitVec.xor_zero

/-- **Going on from the checksum of a first part** gives the checksum of the whole. -/
theorem calcCrc16_append (A B : List UInt8) (cascade : BitVec 16) :
    calcCrc16 (some (A ++ B)) cascade = calcCrc16 (some B) (calcCrc16 (some A) cascade) := by
  rw [calcCrc16_some, calcCrc16_some, calcCrc16_some, List.foldl_append]

/-! ### The register, bit by bit -/

/-- An octet with its bits in reverse. -/
def mirror (octet : UInt8) : UInt8 := ⟨octet.toBitVec.reverse⟩

/-- The bits of a frame, from the highest bit of an octet on. -/
def sentBits (buf : List UInt8) : List Bool := transmitted (buf.map mirror)

/-- The generator of the register that is shifted to the right. -/
def crc16Generator : BitVec 16 := 0x8408

theorem mirror_injective : Function.Injective mirror := by
  intro a b h
  have hrev : a.toBitVec.reverse = b.toBitVec.reverse := congrArg UInt8.toBitVec h
  refine UInt8.toBitVec_inj.1 ?_
  rw [← BitVec.reverse_reverse_eq (x := a.toBitVec), hrev, BitVec.reverse_reverse_eq]

theorem sentBits_injective : Function.Injective sentBits := fun _ _ h =>
  mirror_injective.list_map (transmitted_injective h)

theorem length_sentBits (buf : List UInt8) : (sentBits buf).length = 8 * buf.length := by
  rw [sentBits, length_transmitted, List.length_map]

theorem crc16Bit_eq_divLeft : crc16Bit = divLeft 0x1021 := by
  funext r
  have hmask : r &&& 0x8000 ≠ 0 ↔ r.msb = true := by
    rw [show (0x8000 : BitVec 16) = BitVec.twoPow 16 15 by decide, BitVec.and_twoPow,
      BitVec.msb_eq_getLsbD_last]
    split_ifs with h
    · exact iff_of_true (by decide) h
    · exact iff_of_false (fun hc => hc rfl) h
  rw [crc16Bit, divLeft]
  simp only [hmask]

/-- An octet enters the register in reverse, bit by bit. -/
theorem reverse_crc16Octet (r : BitVec 16) (octet : UInt8) :
    (crc16Octet r octet).reverse = (octetBits (mirror octet)).foldl (feed crc16Generator) r.reverse := by
  have hgen : (0x1021 : BitVec 16).reverse = crc16Generator := by decide +kernel
  have henter := reverse_shiftLeft_setWidth (w := 16) octet.toBitVec (by decide)
  rw [← iterate_divRight_word crc16Generator (by rw [length_octetBits]; decide), word_octetBits,
    length_octetBits, crc16Octet, crc16Bit_eq_divLeft, reverse_iterate_divLeft, hgen, reverse_xor, henter]
  rfl

/-- **The octets of a frame enter the register in reverse, bit by bit.** -/
theorem reverse_foldl_crc16Octet (buf : List UInt8) (r : BitVec 16) :
    (buf.foldl crc16Octet r).reverse = (sentBits buf).foldl (feed crc16Generator) r.reverse := by
  induction buf generalizing r with
  | nil => rfl
  | cons octet buf ih =>
      rw [List.foldl_cons, ih, reverse_crc16Octet, ← List.foldl_append]
      rfl

theorem reverse_calcCrc16 (buf : List UInt8) (cascade : BitVec 16) :
    (calcCrc16 (some buf) cascade).reverse =
      (sentBits buf).foldl (feed crc16Generator) cascade.reverse := by
  rw [calcCrc16_some, reverse_foldl_crc16Octet]

theorem calcCrc16_eq_zero_iff (buf : List UInt8) (cascade : BitVec 16) :
    calcCrc16 (some buf) cascade = 0 ↔ (sentBits buf).foldl (feed crc16Generator) cascade.reverse = 0 := by
  rw [← reverse_calcCrc16]
  have hzero : (0 : BitVec 16).reverse = 0 := by decide +kernel
  constructor
  · intro h
    rw [h, hzero]
  · intro h
    rw [← BitVec.reverse_reverse_eq (x := calcCrc16 (some buf) cascade), h, hzero]

/-! ### Frames -/

/-- The two octets of a checksum, the higher one first. -/
def crcOctets (crc : BitVec 16) : List UInt8 := [⟨(crc >>> 8).setWidth 8⟩, ⟨crc.setWidth 8⟩]

/-- A message and its checksum. -/
def crc16Frame (buf : List UInt8) (cascade : BitVec 16) : List UInt8 :=
  buf ++ crcOctets (calcCrc16 (some buf) cascade)

/-- The bits of a checksum are those of the register, in reverse. -/
theorem word_sentBits_crcOctets (crc : BitVec 16) : word (sentBits (crcOctets crc)) = crc.reverse := by
  apply BitVec.eq_of_getLsbD_eq
  intro i hi
  rw [getLsbD_word hi, BitVec.getLsbD_reverse, BitVec.getMsbD_eq_getLsbD]
  simp only [sentBits, transmitted, octetBits, mirror, crcOctets, List.map_cons, List.map_nil,
    List.flatMap_cons, List.flatMap_nil, List.append_nil]
  interval_cases i <;> simp [List.range_succ, BitVec.getElem_reverse, BitVec.getMsbD_eq_getLsbD]

/-- A register that takes the octets of its own checksum is left with zeros. -/
theorem calcCrc16_crcOctets (crc : BitVec 16) : calcCrc16 (some (crcOctets crc)) crc = 0 :=
  (calcCrc16_eq_zero_iff _ _).2
    (foldl_feed_word crc16Generator (by rw [length_sentBits]; rfl) (word_sentBits_crcOctets crc).symm)

/-- Two frames of one length that are both accepted differ by bits that leave a register of zeros. -/
theorem foldl_feed_differences {a b : List UInt8} {cascade : BitVec 16} (hlen : a.length = b.length)
    (ha : calcCrc16 (some a) cascade = 0) (hb : calcCrc16 (some b) cascade = 0) :
    (List.zipWith xor (sentBits a) (sentBits b)).foldl (feed crc16Generator) 0 = 0 := by
  have hbits : (sentBits a).length = (sentBits b).length := by
    rw [length_sentBits, length_sentBits, hlen]
  have hdiff := foldl_feed_xor crc16Generator hbits cascade.reverse cascade.reverse
  rw [(calcCrc16_eq_zero_iff _ _).1 ha, (calcCrc16_eq_zero_iff _ _).1 hb, BitVec.xor_self,
    BitVec.xor_self] at hdiff
  exact hdiff

/-- **A frame is accepted, and no frame with a burst of 16 bits or an odd number of wrong bits is.** -/
theorem calcCrc16_frame (buf : List UInt8) (cascade : BitVec 16) :
    calcCrc16 (some (crc16Frame buf cascade)) cascade = 0 ∧
      ∀ frame : List UInt8, frame.length = buf.length + 2 → frame ≠ crc16Frame buf cascade →
        ((∃ p, ∀ k, (sentBits frame)[k]? ≠ (sentBits (crc16Frame buf cascade))[k]? →
            p ≤ k ∧ k < p + 16) ∨
          (List.zipWith xor (sentBits frame) (sentBits (crc16Frame buf cascade))).count true % 2 = 1) →
        calcCrc16 (some frame) cascade ≠ 0 := by
  have haccepted : calcCrc16 (some (crc16Frame buf cascade)) cascade = 0 := by
    rw [crc16Frame, calcCrc16_append]
    exact calcCrc16_crcOctets _
  refine ⟨haccepted, fun frame hlen hne herror hzero => ?_⟩
  have hframe : frame.length = (crc16Frame buf cascade).length := by
    rw [hlen, crc16Frame, List.length_append]
    rfl
  have hfold := foldl_feed_differences hframe hzero haccepted
  rcases herror with ⟨p, hburst⟩ | hodd
  · have hbits : (sentBits frame).length = (sentBits (crc16Frame buf cascade)).length := by
      rw [length_sentBits, length_sentBits, hframe]
    exact hne (sentBits_injective (eq_of_burst (by decide +kernel) hbits hburst hfold))
  · have hparity := parity_foldl_feed (by decide) (by decide +kernel : parity crc16Generator = true)
      (List.zipWith xor (sentBits frame) (sentBits (crc16Frame buf cascade))) 0
    rw [hfold, parity_zero, odd_eq_count, hodd] at hparity
    exact absurd hparity (by decide)

/-- A frame whose first octet has lost a bit. -/
theorem calcCrc16_frame_digit :
    calcCrc16 (some (0x30 :: crcOctets (calcCrc16 (some [0x31]) 0xffff))) 0xffff ≠ 0 :=
  (calcCrc16_frame [0x31] 0xffff).2 _ rfl (by decide +kernel) (.inr (by decide +kernel))

end CodePort
