/-
Shift registers that divide.

A cyclic redundancy check can be computed with a register that is shifted to the left, or with one
that is shifted to the right and holds everything in reverse.

Main definitions:

* `ShiftRegister.divLeft`, `divRight` — one step of the division by a generator, in either direction;
* `ShiftRegister.feed` — a bit enters the register.

Main results:

* `ShiftRegister.reverse_divLeft` — **a step in one direction is a step in the other, in reverse**;
* `ShiftRegister.reverse_iterate_divLeft` — so are any number of steps;
* `ShiftRegister.reverse_shiftLeft_setWidth` — a word that enters the register at its upper end enters
  the other one at its lower end;
* `ShiftRegister.iterate_divRight_word` — bits that enter one by one do what their word does at once;
* `ShiftRegister.foldl_feed_xor` — two runs differ by the run of the differences;
* `ShiftRegister.all_false_of_burst` — **a burst that is no longer than the register is not absorbed**;
* `ShiftRegister.foldl_feed_word` — a register that takes its own bits is left with zeros;
* `ShiftRegister.parity_foldl_feed` — **an odd number of ones is not absorbed** by an odd generator.
-/

import Mathlib.Logic.Function.Conjugate
import Mathlib.Logic.Function.Iterate

set_option relaxedAutoImplicit false
set_option autoImplicit false

namespace ShiftRegister

variable {w : ℕ}

/-! ### Reversal -/

theorem reverse_xor (a b : BitVec w) : (a ^^^ b).reverse = a.reverse ^^^ b.reverse := by
  apply BitVec.eq_of_getLsbD_eq
  intro i hi
  rw [BitVec.getLsbD_xor, BitVec.getLsbD_reverse, BitVec.getLsbD_reverse, BitVec.getLsbD_reverse,
    BitVec.getMsbD_xor]

theorem reverse_shiftLeft_one (a : BitVec w) : (a <<< 1).reverse = a.reverse >>> 1 := by
  apply BitVec.eq_of_getLsbD_eq
  intro i hi
  rw [BitVec.getLsbD_ushiftRight, BitVec.getLsbD_reverse, BitVec.getLsbD_reverse,
    BitVec.getMsbD_shiftLeft, Nat.add_comm]

/-- A word that enters at the upper end of a register enters the reverse at its lower end. -/
theorem reverse_shiftLeft_setWidth {k : ℕ} (a : BitVec k) (hk : k ≤ w) :
    (a.setWidth w <<< (w - k)).reverse = a.reverse.setWidth w := by
  apply BitVec.eq_of_getLsbD_eq
  intro i hi
  rw [BitVec.getLsbD_reverse, BitVec.getMsbD_shiftLeft, BitVec.getLsbD_setWidth,
    BitVec.getLsbD_reverse, BitVec.getMsbD_setWidth]
  have hshift : i + (w - k) + k - w = i := by omega
  have hbit : a.getMsbD i = (decide (i < w) && a.getMsbD i) := by simp [hi]
  simpa [hshift] using hbit

/-! ### Division -/

/-- Divide by the generator and save the remainder, one bit: the register is shifted to the left. -/
def divLeft (gen r : BitVec w) : BitVec w := if r.msb then r <<< 1 ^^^ gen else r <<< 1

/-- Divide by the generator and save the remainder, one bit: the register is shifted to the right. -/
def divRight (gen r : BitVec w) : BitVec w := if r.getLsbD 0 then r >>> 1 ^^^ gen else r >>> 1

/-- **A step in one direction is a step in the other, in reverse.** -/
theorem reverse_divLeft (gen r : BitVec w) :
    (divLeft gen r).reverse = divRight gen.reverse r.reverse := by
  have hmsb : r.reverse.getLsbD 0 = r.msb := by
    rw [BitVec.getLsbD_reverse]
    rfl
  cases hr : r.msb with
  | false =>
      rw [divLeft, divRight, hmsb, hr]
      exact reverse_shiftLeft_one r
  | true =>
      rw [divLeft, divRight, hmsb, hr, if_pos rfl, if_pos rfl, reverse_xor, reverse_shiftLeft_one]

/-- So are any number of steps. -/
theorem reverse_iterate_divLeft (gen : BitVec w) (n : ℕ) (r : BitVec w) :
    ((divLeft gen)^[n] r).reverse = (divRight gen.reverse)^[n] r.reverse := by
  have hsemi : Function.Semiconj BitVec.reverse (divLeft gen) (divRight gen.reverse) :=
    reverse_divLeft gen
  exact hsemi.iterate_right n r

/-! ### Linearity -/

theorem divRight_xor (gen a b : BitVec w) :
    divRight gen (a ^^^ b) = divRight gen a ^^^ divRight gen b := by
  rw [divRight, divRight, divRight, BitVec.getLsbD_xor, BitVec.ushiftRight_xor_distrib]
  cases a.getLsbD 0 with
  | false =>
      cases b.getLsbD 0 with
      | false => rfl
      | true => exact BitVec.xor_assoc _ _ _
  | true =>
      cases b.getLsbD 0 with
      | false =>
          simp only [Bool.xor_false, Bool.false_eq_true, if_true, if_false]
          ac_rfl
      | true =>
          have hcancel : gen ^^^ gen = 0 := BitVec.xor_self
          have hmove : a >>> 1 ^^^ gen ^^^ (b >>> 1 ^^^ gen) =
              a >>> 1 ^^^ b >>> 1 ^^^ (gen ^^^ gen) := by ac_rfl
          simp only [Bool.xor_true, Bool.not_true, Bool.false_eq_true, if_true, if_false]
          rw [hmove, hcancel]
          exact BitVec.xor_zero.symm

@[simp] theorem divRight_zero (gen : BitVec w) : divRight gen 0 = 0 := by
  simp [divRight]

/-- **A division by a generator of the full degree** loses nothing. -/
theorem divRight_eq_zero {gen r : BitVec w} (hgen : gen.msb = true) (h : divRight gen r = 0) :
    r = 0 := by
  rw [divRight] at h
  cases hr : r.getLsbD 0 with
  | true =>
      -- the highest bit of the generator stays
      rw [hr, if_pos rfl] at h
      have hmsb := congrArg BitVec.msb h
      rw [BitVec.msb_xor, hgen, BitVec.msb_ushiftRight] at hmsb
      simp at hmsb
  | false =>
      rw [hr] at h
      simp only [Bool.false_eq_true, if_false] at h
      apply BitVec.eq_of_getLsbD_eq
      intro i hi
      cases i with
      | zero => simpa using hr
      | succ i =>
          have hbit := congrArg (fun x => x.getLsbD i) h
          rw [BitVec.getLsbD_ushiftRight, Nat.add_comm] at hbit
          simpa using hbit

/-! ### Bits that enter one by one -/

/-- A bit at the lower end. -/
def lowBit (b : Bool) : BitVec w := if b then 1 else 0

/-- A bit enters the register. -/
def feed (gen r : BitVec w) (b : Bool) : BitVec w := divRight gen (r ^^^ lowBit b)

/-- The word of some bits, from its lower end. -/
def word : List Bool → BitVec w
  | [] => 0
  | b :: bs => lowBit b ^^^ word bs <<< 1

theorem lowBit_xor (a b : Bool) : (lowBit (xor a b) : BitVec w) = lowBit a ^^^ lowBit b := by
  cases a <;> cases b <;> simp [lowBit]

theorem feed_xor (gen r s : BitVec w) (a b : Bool) :
    feed gen (r ^^^ s) (xor a b) = feed gen r a ^^^ feed gen s b := by
  rw [feed, feed, feed, ← divRight_xor, lowBit_xor]
  congr 1
  ac_rfl

/-- **Two runs** of a register differ by the run of the differences. -/
theorem foldl_feed_xor (gen : BitVec w) {as bs : List Bool} (h : as.length = bs.length)
    (r s : BitVec w) :
    (List.zipWith xor as bs).foldl (feed gen) (r ^^^ s) =
      as.foldl (feed gen) r ^^^ bs.foldl (feed gen) s := by
  induction as generalizing bs r s with
  | nil =>
      obtain rfl : bs = [] := List.length_eq_zero_iff.1 h.symm
      rfl
  | cons a as ih =>
      cases bs with
      | nil => simp at h
      | cons b bs =>
          rw [List.zipWith_cons_cons, List.foldl_cons, feed_xor]
          exact ih (by simpa using h) _ _

theorem getLsbD_word {bs : List Bool} {i : ℕ} (hi : i < w) :
    (word bs : BitVec w).getLsbD i = bs.getD i false := by
  induction bs generalizing i with
  | nil => simp [word]
  | cons b bs ih =>
      rw [word, BitVec.getLsbD_xor, BitVec.getLsbD_shiftLeft]
      cases i with
      | zero => cases b <;> simp [lowBit, hi]
      | succ i =>
          have hlow : (lowBit b : BitVec w).getLsbD (i + 1) = false := by
            cases b <;> simp [lowBit]
          rw [hlow, Bool.false_xor, Nat.add_sub_cancel, ih (Nat.lt_of_succ_lt hi)]
          simp [hi]

/-- **Bits that enter one by one** do what their word does when it enters at once. -/
theorem iterate_divRight_word (gen : BitVec w) {bs : List Bool} (h : bs.length ≤ w) (r : BitVec w) :
    (divRight gen)^[bs.length] (r ^^^ word bs) = bs.foldl (feed gen) r := by
  induction bs generalizing r with
  | nil => simp [word]
  | cons b bs ih =>
      have hshift : divRight gen (word bs <<< 1) = word bs := by
        have hlow : (word bs <<< 1 : BitVec w).getLsbD 0 = false := by simp
        rw [divRight, hlow, if_neg Bool.false_ne_true]
        apply BitVec.eq_of_getLsbD_eq
        intro i hi
        rw [BitVec.getLsbD_ushiftRight, BitVec.getLsbD_shiftLeft, Nat.add_sub_cancel_left]
        by_cases htop : 1 + i < w
        · simp [htop]
        · -- the word leaves the upper end free
          rw [List.length_cons] at h
          have hnil : bs[i]? = none := List.getElem?_eq_none (by omega)
          rw [getLsbD_word hi, List.getD_eq_getElem?_getD, hnil, Option.getD_none, Bool.and_false]
      rw [List.length_cons, Function.iterate_succ_apply, List.foldl_cons, word, ← BitVec.xor_assoc,
        divRight_xor, hshift]
      exact ih (Nat.le_of_succ_le h) (feed gen r b)

/-- Only zeros leave a register of zeros as it is, if there are no more of them than it has bits. -/
theorem all_false_of_foldl_feed {gen : BitVec w} (hgen : gen.msb = true) {bs : List Bool}
    (h : bs.length ≤ w) (hzero : bs.foldl (feed gen) 0 = 0) : ∀ b ∈ bs, b = false := by
  have hiter : ∀ (n : ℕ) (r : BitVec w), (divRight gen)^[n] r = 0 → r = 0 := by
    intro n
    induction n with
    | zero => exact fun r hr => hr
    | succ n ih =>
        intro r hr
        exact divRight_eq_zero hgen (ih _ hr)
  have hstart : (0 : BitVec w) ^^^ word bs = word bs := BitVec.zero_xor
  rw [← iterate_divRight_word gen h, hstart] at hzero
  have hword := hiter _ _ hzero
  intro b hb
  obtain ⟨i, hi, rfl⟩ := List.mem_iff_getElem.1 hb
  have hbit : (word bs : BitVec w).getLsbD i = bs.getD i false :=
    getLsbD_word (Nat.lt_of_lt_of_le hi h)
  rw [hword, List.getD_eq_getElem?_getD, List.getElem?_eq_getElem hi, Option.getD_some] at hbit
  rw [← hbit]
  exact BitVec.getLsbD_zero

/-- Zeros leave a register as it is if and only if it is zero. -/
theorem foldl_feed_false {gen : BitVec w} (hgen : gen.msb = true) {bs : List Bool}
    (hbs : ∀ b ∈ bs, b = false) (r : BitVec w) : bs.foldl (feed gen) r = 0 ↔ r = 0 := by
  induction bs generalizing r with
  | nil => rfl
  | cons b bs ih =>
      obtain rfl := hbs b List.mem_cons_self
      rw [List.foldl_cons, ih fun c hc => hbs c (List.mem_cons_of_mem _ hc)]
      have hfeed : feed gen r false = divRight gen r := by simp [feed, lowBit]
      rw [hfeed]
      constructor
      · exact divRight_eq_zero hgen
      · rintro rfl
        exact divRight_zero gen

/-- **A burst that is no longer than the register is not absorbed**, whatever zeros come before it and
after it. -/
theorem all_false_of_burst {gen : BitVec w} (hgen : gen.msb = true) {bs : List Bool} {p : ℕ}
    (hburst : ∀ k, bs[k]? = some true → p ≤ k ∧ k < p + w) (hzero : bs.foldl (feed gen) 0 = 0) :
    ∀ b ∈ bs, b = false := by
  have hsplit : bs = bs.take p ++ ((bs.drop p).take w ++ bs.drop (p + w)) := by
    rw [← List.drop_drop, List.take_append_drop, List.take_append_drop]
  have hbefore : ∀ b ∈ bs.take p, b = false := by
    intro b hb
    obtain ⟨k, hk⟩ := List.mem_iff_getElem?.1 hb
    rw [List.getElem?_take] at hk
    cases b with
    | false => rfl
    | true =>
        split at hk
        · have hwin := hburst k hk
          omega
        · simp at hk
  have hafter : ∀ b ∈ bs.drop (p + w), b = false := by
    intro b hb
    obtain ⟨k, hk⟩ := List.mem_iff_getElem?.1 hb
    rw [List.getElem?_drop] at hk
    cases b with
    | false => rfl
    | true =>
        have hwin := hburst _ hk
        omega
  rw [hsplit, List.foldl_append, List.foldl_append, (foldl_feed_false hgen hbefore 0).2 rfl,
    foldl_feed_false hgen hafter] at hzero
  have hwithin := all_false_of_foldl_feed hgen (List.length_take_le _ _) hzero
  intro b hb
  rw [hsplit, List.mem_append, List.mem_append] at hb
  rcases hb with hb | hb | hb
  · exact hbefore b hb
  · exact hwithin b hb
  · exact hafter b hb

/-- Two words that differ within as many bits as the register has, by what leaves a register of zeros, are
one. -/
theorem eq_of_burst {gen : BitVec w} (hgen : gen.msb = true) {as bs : List Bool}
    (hlen : as.length = bs.length) {p : ℕ} (hburst : ∀ k, as[k]? ≠ bs[k]? → p ≤ k ∧ k < p + w)
    (hzero : (List.zipWith xor as bs).foldl (feed gen) 0 = 0) : as = bs := by
  have hfalse : ∀ b ∈ List.zipWith xor as bs, b = false := by
    refine all_false_of_burst hgen (p := p) (fun k hk => hburst k fun heq => ?_) hzero
    rw [List.getElem?_zipWith, heq] at hk
    cases hb : bs[k]? with
    | none => simp [hb] at hk
    | some y => simp [hb] at hk
  refine List.ext_getElem hlen fun k ha hb => ?_
  have hmem : xor as[k] bs[k] ∈ List.zipWith xor as bs := by
    rw [List.mem_iff_getElem]
    exact ⟨k, by rw [List.length_zipWith]; exact Nat.lt_min.2 ⟨ha, hb⟩, by simp⟩
  simpa using hfalse _ hmem

/-- A register that takes its own bits is left with zeros. -/
theorem foldl_feed_word (gen : BitVec w) {bs : List Bool} (h : bs.length ≤ w) {r : BitVec w}
    (hr : r = word bs) : bs.foldl (feed gen) r = 0 := by
  rw [← iterate_divRight_word gen h, ← hr, BitVec.xor_self]
  exact Function.iterate_fixed (divRight_zero gen) _

/-! ### Parity -/

/-- The number of ones is odd. -/
def odd (bs : List Bool) : Bool := bs.foldr xor false

/-- The number of ones of a register is odd. -/
def parity (r : BitVec w) : Bool := odd ((List.range w).map r.getLsbD)

theorem odd_cons (b : Bool) (bs : List Bool) : odd (b :: bs) = xor b (odd bs) := rfl

theorem odd_eq_count (bs : List Bool) : odd bs = decide (bs.count true % 2 = 1) := by
  induction bs with
  | nil => rfl
  | cons b bs ih =>
      rw [odd_cons, ih, List.count_cons]
      cases b with
      | false => simp
      | true =>
          have hmod := Nat.mod_two_eq_zero_or_one (bs.count true)
          rcases hmod with h | h <;> simp [h, Nat.add_mod]

theorem odd_append (as bs : List Bool) : odd (as ++ bs) = xor (odd as) (odd bs) := by
  induction as with
  | nil => simp [odd]
  | cons a as ih =>
      rw [List.cons_append, odd_cons, ih, odd_cons, Bool.xor_assoc]

theorem odd_map_xor (f g : ℕ → Bool) (is : List ℕ) :
    odd (is.map fun i => xor (f i) (g i)) = xor (odd (is.map f)) (odd (is.map g)) := by
  induction is with
  | nil => rfl
  | cons i is ih =>
      simp only [List.map_cons, odd_cons]
      rw [ih]
      cases f i <;> cases g i <;> simp

theorem parity_xor (a b : BitVec w) : parity (a ^^^ b) = xor (parity a) (parity b) := by
  rw [parity, parity, parity, ← odd_map_xor]
  exact congrArg odd (List.map_congr_left fun i _ => BitVec.getLsbD_xor)

theorem parity_zero : parity (0 : BitVec w) = false := by
  have hmap : (List.range w).map (0 : BitVec w).getLsbD = (List.range w).map fun _ => xor false false :=
    List.map_congr_left fun i _ => BitVec.getLsbD_zero
  rw [parity, hmap, odd_map_xor, Bool.xor_self]

/-- A shift loses the lowest bit. -/
theorem parity_ushiftRight_one (r : BitVec w) : parity (r >>> 1) = xor (parity r) (r.getLsbD 0) := by
  have hlow : odd ((List.range (w + 1)).map r.getLsbD) = xor (r.getLsbD 0) (parity (r >>> 1)) := by
    rw [List.range_succ_eq_map, List.map_cons, List.map_map, odd_cons, parity]
    congr 2
    refine List.map_congr_left fun i _ => ?_
    rw [Function.comp_apply, BitVec.getLsbD_ushiftRight, Nat.add_comm]
  have hhigh : odd ((List.range (w + 1)).map r.getLsbD) = parity r := by
    rw [List.range_succ, List.map_append, odd_append, parity]
    simp [odd]
  rw [← hhigh, hlow]
  cases r.getLsbD 0 <;> simp

theorem parity_lowBit (hw : 0 < w) (b : Bool) : parity (lowBit b : BitVec w) = b := by
  obtain ⟨n, rfl⟩ := Nat.exists_eq_succ_of_ne_zero (Nat.pos_iff_ne_zero.1 hw)
  cases b with
  | false => exact parity_zero
  | true =>
      rw [parity, List.range_succ_eq_map, List.map_cons, List.map_map, odd_cons]
      have hzero : (List.range n).map ((lowBit true : BitVec (n + 1)).getLsbD ∘ Nat.succ) =
          (List.range n).map fun _ => xor false false :=
        List.map_congr_left fun i _ => by simp [lowBit]
      rw [hzero, odd_map_xor, Bool.xor_self]
      simp [lowBit]

/-- **A bit that enters an odd generator's register** changes the parity by itself. -/
theorem parity_feed {gen : BitVec w} (hw : 0 < w) (hgen : parity gen = true) (r : BitVec w) (b : Bool) :
    parity (feed gen r b) = xor (parity r) b := by
  rw [feed, divRight]
  have hsum : parity (r ^^^ lowBit b) = xor (parity r) b := by rw [parity_xor, parity_lowBit hw]
  cases hlow : (r ^^^ lowBit b).getLsbD 0 with
  | true =>
      rw [if_pos rfl, parity_xor, parity_ushiftRight_one, hlow, hgen, hsum]
      simp
  | false =>
      rw [if_neg Bool.false_ne_true, parity_ushiftRight_one, hlow, hsum]
      simp

/-- **An odd number of ones is not absorbed** by an odd generator. -/
theorem parity_foldl_feed {gen : BitVec w} (hw : 0 < w) (hgen : parity gen = true) (bs : List Bool)
    (r : BitVec w) : parity (bs.foldl (feed gen) r) = xor (parity r) (odd bs) := by
  induction bs generalizing r with
  | nil => simp [odd]
  | cons b bs ih => rw [List.foldl_cons, ih, parity_feed hw hgen, odd_cons, Bool.xor_assoc]

end ShiftRegister
