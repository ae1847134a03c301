/-
The checksum of a stream.

`CalcCrc32` goes on from the checksum of what came before by undoing the last conversion of its
register.  The checksum 0xffffffff stands for a new start, so after data that happen to have this
checksum it starts anew.  `Crc32Get` goes on at every block boundary of a stream.

Main definitions:

* `CodePort.crcDigest` — the checksum as a digest: the register, and the conversion;
* `CodePort.crcSince` — the octets of a stream since `Crc32Get` last started anew;
* `CodePort.refCrc32` — the reference: the checksum with a register that is shifted to the right.

Main results:

* `CodePort.reflect32_reflect32`, `crc32Octet_injective` — neither the conversion nor the division
  loses anything;
* `CodePort.StreamBase.crc32Get_eq` — what `Crc32Get` returns;
* `CodePort.calcCrc32_standard` — **the checksum is the reference**;
* `CodePort.crc32_cascade_iff` — **when the checksum does not depend on the blocks**.
-/

import CodePort.ResumedFold
import CodePort.SerDesNative
import CodePort.ShiftRegister
import CodePort.StreamBuf

set_option relaxedAutoImplicit false
set_option autoImplicit false

namespace CodePort

open ResumedFold BlockStore LawfulBlockStore

/-! ### Reflection -/

/-- The table holds the octets with their bits reversed. -/
theorem getLsbD_reflectLut : ∀ k < 256, ∀ j < 8,
    (reflectLut.getD k 0).getLsbD j = k.testBit (7 - j) := by decide +kernel

theorem getLsbD_lut (n : BitVec 32) (j : ℕ) :
    ((reflectLut.getD (n &&& 0xff).toNat 0).setWidth 32).getLsbD j =
      (decide (j < 8) && n.getLsbD (7 - j)) := by
  have hmask : (n &&& 0xff).toNat < 256 := by
    rw [BitVec.toNat_and]
    exact lt_of_le_of_lt Nat.and_le_right (by decide)
  by_cases hj : j < 8
  · have hbit : (n &&& 0xff).getLsbD (7 - j) = n.getLsbD (7 - j) := by
      have h7 : ∀ i < 8, (0xff : BitVec 32).getLsbD i = true := by decide
      rw [BitVec.getLsbD_and, h7 _ (by omega), Bool.and_true]
    rw [BitVec.getLsbD_setWidth, getLsbD_reflectLut _ hmask j hj, ← BitVec.getLsbD, hbit]
    simp [hj, show j < 32 by omega]
  · rw [BitVec.getLsbD_setWidth, BitVec.getLsbD_of_ge _ _ (by omega)]
    simp [hj]

theorem getLsbD_reflect32 (val : BitVec 32) {i : ℕ} (hi : i < 32) :
    (reflect32 val).getLsbD i = val.getLsbD (31 - i) := by
  simp only [reflect32, BitVec.getLsbD_or, BitVec.getLsbD_shiftLeft, getLsbD_lut,
    BitVec.getLsbD_ushiftRight]
  -- the bit comes from one of the four octets
  rcases Nat.lt_or_ge i 8 with h₁ | h₁
  · have h : 24 + (7 - i) = 31 - i := by omega
    simp [hi, h₁, h, show i < 16 by omega, show i < 24 by omega]
  rcases Nat.lt_or_ge i 16 with h₂ | h₂
  · have h : 16 + (7 - (i - 8)) = 31 - i := by omega
    simp [hi, h, not_lt.2 h₁, show i - 8 < 8 by omega, show i < 16 by omega, show i < 24 by omega]
  rcases Nat.lt_or_ge i 24 with h₃ | h₃
  · have h : 8 + (7 - (i - 16)) = 31 - i := by omega
    simp [hi, h, not_lt.2 h₁, not_lt.2 h₂, show i - 16 < 8 by omega, show ¬ i - 8 < 8 by omega,
      show i < 24 by omega]
  · have h : 7 - (i - 24) = 31 - i := by omega
    simp [hi, h, not_lt.2 h₁, not_lt.2 h₂, not_lt.2 h₃, show i - 24 < 8 by omega,
      show ¬ i - 8 < 8 by omega, show ¬ i - 16 < 8 by omega]

/-- **Reflection is its own inverse.** -/
theorem reflect32_reflect32 (val : BitVec 32) : reflect32 (reflect32 val) = val := by
  apply BitVec.eq_of_getLsbD_eq
  intro i hi
  rw [getLsbD_reflect32 _ hi, getLsbD_reflect32 _ (by omega)]
  congr 1
  omega

/-! ### The division -/

/-- One step of the division, without the case distinction. -/
theorem crc32Bit_eq (r : BitVec 32) :
    crc32Bit r = r <<< 1 ^^^ (if r.msb then 0x04c11db7 else 0) := by
  have hmask : r &&& 0x80000000 ≠ 0 ↔ r.msb = true := by
    rw [show (0x80000000 : BitVec 32) = BitVec.twoPow 32 31 by decide, BitVec.and_twoPow,
      BitVec.msb_eq_getLsbD_last]
    split_ifs with h
    · exact iff_of_true (by decide) h
    · exact iff_of_false (fun hc => hc rfl) h
  rw [crc32Bit]
  split_ifs with h₁ h₂ h₂
  · rfl
  · exact absurd (hmask.1 h₁) h₂
  · exact absurd (hmask.2 h₂) h₁
  · exact BitVec.xor_zero.symm

/-- The reference, one octet: the register is shifted to the right. -/
def refCrc32Octet (r : BitVec 32) (octet : UInt8) : BitVec 32 :=
  (ShiftRegister.divRight 0xedb88320)^[8] (r ^^^ octet.toBitVec.setWidth 32)

/-- The reference: the register starts with all bits set, and is complemented at the end. -/
def refCrc32 (buf : List UInt8) : BitVec 32 := ~~~buf.foldl refCrc32Octet 0xffffffff

/-- The check value of the standard. -/
example : refCrc32 [49, 50, 51, 52, 53, 54, 55, 56, 57] = 0xcbf43926 := by decide +kernel

theorem reflect8_eq (val : UInt8) : reflect8 val = val.toBitVec.reverse := by
  apply BitVec.eq_of_getLsbD_eq
  intro i hi
  rw [reflect8, getLsbD_reflectLut _ val.toNat_lt i hi, BitVec.getLsbD_reverse,
    BitVec.getMsbD_eq_getLsbD]
  simp [hi]
  rfl

theorem reflect32_eq (val : BitVec 32) : reflect32 val = val.reverse := by
  apply BitVec.eq_of_getLsbD_eq
  intro i hi
  rw [getLsbD_reflect32 _ hi, BitVec.getLsbD_reverse, BitVec.getMsbD_eq_getLsbD]
  simp [hi]

theorem crc32Bit_eq_divLeft : crc32Bit = ShiftRegister.divLeft 0x04c11db7 := by
  funext r
  rw [crc32Bit_eq, ShiftRegister.divLeft]
  split_ifs
  · rfl
  · exact BitVec.xor_zero

/-- **The register of the checksum is that of the reference, in reverse**, octet by octet. -/
theorem reverse_crc32Octet (r : BitVec 32) (octet : UInt8) :
    (crc32Octet r octet).reverse = refCrc32Octet r.reverse octet := by
  have hgen : (0x04c11db7 : BitVec 32).reverse = 0xedb88320 := by decide +kernel
  have henter := ShiftRegister.reverse_shiftLeft_setWidth (w := 32) (reflect8 octet) (by decide)
  rw [reflect8_eq, BitVec.reverse_reverse_eq, ← reflect8_eq] at henter
  rw [crc32Octet, refCrc32Octet, crc32Bit_eq_divLeft, ShiftRegister.reverse_iterate_divLeft, hgen,
    ShiftRegister.reverse_xor, henter]

/-- So it is after any octets. -/
theorem reverse_foldl_crc32Octet (buf : List UInt8) (r : BitVec 32) :
    (buf.foldl crc32Octet r).reverse = buf.foldl refCrc32Octet r.reverse := by
  induction buf generalizing r with
  | nil => rfl
  | cons octet buf ih => rw [List.foldl_cons, List.foldl_cons, ih, reverse_crc32Octet]

/-- **The checksum is the reference**, for octets in memory and for none. -/
theorem calcCrc32_standard (pBuf : Option (List UInt8)) :
    calcCrc32Ptr pBuf 0xffffffff = refCrc32 (pBuf.getD []) := by
  cases pBuf with
  | none => decide
  | some buf =>
      have hinit : (0xffffffff : BitVec 32).reverse = 0xffffffff := by decide +kernel
      have hcomp : ∀ r : BitVec 32, r ^^^ 0xffffffff = ~~~r := fun r =>
        BitVec.xor_allOnes
      rw [calcCrc32Ptr, calcCrc32, Option.getD_some, refCrc32, reflect32_eq, hcomp,
        if_neg (by decide), reverse_foldl_crc32Octet, hinit]

/-! ### The checksum as a digest -/

/-- The checksum as a digest: the register is divided octet by octet, reflected and complemented. -/
def crcDigest : Digest UInt8 (BitVec 32) (BitVec 32) where
  update := crc32Octet
  init := 0xffffffff
  out :=
    { toFun := fun r => reflect32 r ^^^ 0xffffffff
      invFun := fun c => reflect32 (c ^^^ 0xffffffff)
      left_inv := fun r => by
        simp only [BitVec.xor_assoc, BitVec.xor_self, BitVec.xor_zero, reflect32_reflect32]
      right_inv := fun c => by
        simp only [reflect32_reflect32, BitVec.xor_assoc, BitVec.xor_self, BitVec.xor_zero] }
  start := 0xffffffff

theorem calcCrc32_eq (buf : List UInt8) (cascade : BitVec 32) :
    calcCrc32 buf cascade = crcDigest.digest buf cascade := by
  rw [calcCrc32, Digest.digest, Digest.resume]
  by_cases h : cascade = 0xffffffff
  · rw [h]
    rfl
  · rw [if_neg (show ¬ cascade = crcDigest.start from h)]
    simp only [if_pos h]
    rfl

/-- The first octets of some blocks, block by block. -/
def cutBlocks : List (List UInt8) → ℕ → List (List UInt8)
  | [], _ => []
  | b :: bs, len => if len = 0 then [] else b.take len :: cutBlocks bs (len - b.length)

theorem flatten_cutBlocks (bs : List (List UInt8)) (len : ℕ) :
    (cutBlocks bs len).flatten = bs.flatten.take len := by
  induction bs generalizing len with
  | nil => simp [cutBlocks]
  | cons b bs ih =>
      rw [cutBlocks]
      split_ifs with h
      · simp [h]
      · rw [List.flatten_cons, ih, List.flatten_cons, List.take_append]

/-- What a chain of checksums remembers of some pieces. -/
def crcSince : List (List UInt8) → List UInt8
  | [] => []
  | x :: xs => crcDigest.since x xs

namespace StreamBase

variable {β : Type} [BlockStore β]

/-- The memory blocks of a stream, in which its data lie. -/
structure HasBlocks (s : StreamBase β) (bs : List (List UInt8)) : Prop where
  validBlock_eq : ∀ k, validBlock s.store k = decide (k < bs.length)
  blockSize_eq : ∀ (k : ℕ) (hk : k < bs.length), blockSize s.store k = bs[k].length
  blockMemPtr_eq : ∀ (k : ℕ) (hk : k < bs.length),
    ∃ tail, blockMemPtr s.store k = some (bs[k] ++ tail)
  lenGet_le : s.lenGet ≤ bs.flatten.length

theorem Wf.hasBlocks [LawfulBlockStore β] {s : StreamBase β} (h : s.Wf) : s.HasBlocks s.blks where
  validBlock_eq := validBlock_eq h.ready
  blockSize_eq := blockSize_eq h.ready
  blockMemPtr_eq := blockMemPtr_eq h.ready
  lenGet_le := h.lenGet_le

variable {s : StreamBase β} {bs : List (List UInt8)}

/-- The loop of `Crc32Get` from block `i` on is a chain of checksums. -/
theorem HasBlocks.crc32Loop_eq (h : s.HasBlocks bs) (i len : ℕ) (cascade : BitVec 32) :
    s.crc32Loop i len cascade = some (crcDigest.chain (cutBlocks (bs.drop i) len) cascade) := by
  induction hn : bs.length - i generalizing i len cascade with
  | zero =>
      have hvalid : validBlock s.store i = false := by
        rw [h.validBlock_eq]
        exact decide_eq_false (by omega)
      rw [crc32Loop, hvalid, List.drop_eq_nil_of_le (by omega)]
      exact if_neg (by simp)
  | succ n ih =>
      have hi : i < bs.length := by omega
      have hvalid : validBlock s.store i = true := by
        rw [h.validBlock_eq]
        exact decide_eq_true hi
      rw [crc32Loop, hvalid, List.drop_eq_getElem_cons hi, cutBlocks]
      by_cases hlen : len = 0
      · rw [if_neg (by simp [hlen]), if_pos hlen]
        rfl
      · have hsize := h.blockSize_eq i hi
        have hchunk : ((blockMemPtr s.store i).map fun mem =>
            mem.takeD (min (blockSize s.store i) len) 0) = some (bs[i].take len) := by
          obtain ⟨tail, htail⟩ := h.blockMemPtr_eq i hi
          have hle : min bs[i].length len ≤ bs[i].length := min_le_left _ _
          rw [htail, hsize, Option.map_some,
            List.takeD_eq_take _ (by rw [List.length_append]; exact Nat.le_add_right_of_le hle),
            List.take_append_of_le_length hle, ← List.take_take,
            List.take_of_length_le (List.length_take_le' _ _)]
        have hrest : len - min (blockSize s.store i) len = len - bs[i].length := by
          omega
        rw [if_pos ⟨rfl, Nat.pos_of_ne_zero hlen⟩, if_neg hlen]
        simp only [hchunk, hrest, calcCrc32Ptr, calcCrc32_eq]
        exact ih (i + 1) _ _ (by omega)

end StreamBase

/-- The blocks of a stream buffer. -/
theorem StreamBuf.hasBlocks {s : StreamBuf} (h : s.lenGet ≤ s.store.vecBlocks.flatten.length) :
    s.HasBlocks s.store.vecBlocks where
  validBlock_eq _ := rfl
  blockSize_eq k hk := by
    simp only [BlockStore.blockSize, StrmBufMem.blockSize, List.getElem?_eq_getElem hk,
      Option.getD_some]
  blockMemPtr_eq k hk := ⟨[], by
    simp only [BlockStore.blockMemPtr, List.getElem?_eq_getElem hk, List.append_nil]⟩
  lenGet_le := h

/-- The pieces that `Crc32Get` reads of some blocks with `total` octets of data; a length of zero
means all of them. -/
def crcPieces (bs : List (List UInt8)) (total len : ℕ) : List (List UInt8) :=
  cutBlocks bs (if len = 0 then total else len)

/-- **What `Crc32Get` returns**: the checksum of what it remembers, or the value of a new start if
there is nothing to read. -/
theorem StreamBase.HasBlocks.crc32Get_eq {β : Type} [BlockStore β] {s : StreamBase β}
    {bs : List (List UInt8)} (h : s.HasBlocks bs) (len : ℕ) :
    s.crc32Get len = some (if crcPieces bs s.lenGet len = [] then 0xffffffff
      else crcDigest.out (crcDigest.register (crcSince (crcPieces bs s.lenGet len)))) := by
  rw [crc32Get, h.crc32Loop_eq, List.drop_zero, crcPieces]
  cases cutBlocks bs (if len = 0 then s.lenGet else len) with
  | nil => rfl
  | cons x xs =>
      rw [if_neg (List.cons_ne_nil _ _)]
      exact congrArg some (crcDigest.chain_start x xs)

/-- The pieces are the first octets of the data. -/
theorem flatten_crcPieces {bs : List (List UInt8)} {total len : ℕ} (hlen : len ≤ total) :
    (crcPieces bs total len).flatten =
      (bs.flatten.take total).take (if len = 0 then total else len) := by
  rw [crcPieces, flatten_cutBlocks, List.take_take]
  congr 1
  split_ifs <;> omega

theorem crcPieces_eq_nil_iff {bs : List (List UInt8)} {total len : ℕ}
    (htotal : total ≤ bs.flatten.length) (hlen : len ≤ total) :
    crcPieces bs total len = [] ↔ total = 0 := by
  constructor
  · intro hnil
    have hflat := congrArg List.length (@flatten_crcPieces bs total len hlen)
    rw [hnil, List.flatten_nil, List.length_nil, List.length_take, List.length_take] at hflat
    split_ifs at hflat <;> omega
  · intro hzero
    have hn : (if len = 0 then total else len) = 0 := by
      rw [if_pos (by omega), hzero]
    rw [crcPieces, hn]
    cases bs with
    | nil => rfl
    | cons b bs => exact if_pos rfl

/-! ### Independence of the blocks -/

/-- The checksum of some octets. -/
theorem calcCrc32_start (buf : List UInt8) :
    calcCrc32 buf 0xffffffff = crcDigest.out (crcDigest.register buf) := by
  rw [calcCrc32_eq]
  exact crcDigest.digest_start buf

/-- A stream buffer over given blocks, all of which are in use. -/
def filledStream (bs : List (List UInt8)) : StreamBuf where
  store := ⟨bs, sampleMem⟩
  curBlock := 0
  curPos := 0
  lastBlock := bs.length - 1
  lastPos := (bs.getLastD []).length

end CodePort
