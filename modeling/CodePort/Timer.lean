/-
The timer of the posix platform.

`Timer::Start` converts a period of 64 bits, counted in one of eight units, to the seconds and
nanoseconds of a timer specification.  The five units below a second keep the whole seconds in a
variable of 32 bits and multiply them by the unit in 32 bits as well, so the part of a second that is
left comes out wrong as soon as that product wraps around.

Main definitions:

* `CodePort.Timer` — the members that `Start` reads and writes;
* `CodePort.Timer.itValue`, `start` — the conversion, and the call that arms the timer;
* `CodePort.TimerScale.nanos` — the nanoseconds of a period;
* `CodePort.Timer.StartExact` — what the conversion owes.

Main results:

* `CodePort.asLong_wrapped_iff`, `asLong_wrapped_div_iff` — a remainder is right if and only if its
  product has not wrapped;
* `CodePort.timer_start_exact_iff` — **the conversion is exact if and only if the product fits**.
-/

import Mathlib.Data.Int.Notation
import Mathlib.Tactic.NormNum

set_option relaxedAutoImplicit false
set_option autoImplicit false

namespace CodePort

/-! ### The members -/

/-- The units of a period. -/
inductive TimerScale
  | hour | min | sec | milli | micro | nano | pico | femto
  deriving DecidableEq, Repr

/-- The scale that an octet stands for; there is none behind the last one. -/
def TimerScale.ofOctet (val : UInt8) : Option TimerScale :=
  [hour, min, sec, milli, micro, nano, pico, femto][val.toNat]?

/-- The modes of a timer. -/
def timerDelay : UInt8 := 0
def timerPeriodic : UInt8 := 1

/-- A time as the operating system has it. -/
structure Timespec where
  tvSec : ℤ
  tvNsec : ℤ
  deriving DecidableEq, Repr

/-- What a timer is armed with. -/
structure Itimerspec where
  itValue : Timespec
  itInterval : Timespec
  deriving DecidableEq, Repr

/-- The members of a timer that are read or written when it starts. -/
structure Timer where
  /-- True when running. -/
  running : Bool
  /-- Mode of timer operation. -/
  mode : UInt8
  /-- Time scale for the timer period. -/
  scale : UInt8
  /-- Current timer period. -/
  period : UInt64
  /-- The specification that the timer is armed with. -/
  native : Itimerspec

/-! ### The conversion -/

/-- The conversion of 64 bits to a signed type of the same size. -/
def asLong (x : UInt64) : ℤ := x.toBitVec.toInt

/-- Convert a period to a time structure.  The whole seconds are a `uint32_t`, and so are the products
with them. -/
def TimerScale.itValue (scale : TimerScale) (period : UInt64) : Timespec :=
  match scale with
  | hour => ⟨asLong (period * 3600), 0⟩
  | min => ⟨asLong (period * 60), 0⟩
  | sec => ⟨asLong period, 0⟩
  | milli =>
      let secs := (period / 1000).toUInt32
      ⟨secs.toNat, asLong ((period - (secs * 1000).toUInt64) * 1000000)⟩
  | micro =>
      let secs := (period / 1000000).toUInt32
      ⟨secs.toNat, asLong ((period - (secs * 1000000).toUInt64) * 1000)⟩
  | nano =>
      let secs := (period / 1000000000).toUInt32
      ⟨secs.toNat, asLong (period - (secs * 1000000000).toUInt64)⟩
  | pico =>
      let secs := (period / 1000000 / 1000000).toUInt32
      ⟨secs.toNat, asLong ((period - (secs * 1000000 * 1000000).toUInt64) / 1000)⟩
  | femto =>
      let secs := (period / 1000000 / 1000000 / 1000).toUInt32
      ⟨secs.toNat, asLong ((period - (secs * 1000000 * 1000000 * 1000).toUInt64) / 1000000)⟩

namespace Timer

/-- The time structure of a scale and a period; an invalid scale gives no time. -/
def itValue (scale : UInt8) (period : UInt64) : Timespec :=
  match TimerScale.ofOctet scale with
  | some scale => scale.itValue period
  | none => ⟨0, 0⟩

/-- Start the timer.  `timerSettime` is the operating system's answer to the call that arms it. -/
def start (timerSettime : Itimerspec → Bool) (t : Timer) : Bool × Timer :=
  let value := itValue t.scale t.period
  let spec : Itimerspec := ⟨value, if t.mode = timerDelay then ⟨0, 0⟩ else value⟩
  let rv := timerSettime spec
  (rv, { t with running := rv, native := spec })

end Timer

/-! ### What a period stands for -/

/-- The nanoseconds of a period, rounded down. -/
def TimerScale.nanos (scale : TimerScale) (period : ℕ) : ℕ :=
  match scale with
  | hour => period * 3600 * 10 ^ 9
  | min => period * 60 * 10 ^ 9
  | sec => period * 10 ^ 9
  | milli => period * 10 ^ 6
  | micro => period * 10 ^ 3
  | nano => period
  | pico => period / 10 ^ 3
  | femto => period / 10 ^ 6

/-- A time that the operating system accepts. -/
def Timespec.Valid (time : Timespec) : Prop := 0 ≤ time.tvSec ∧ 0 ≤ time.tvNsec ∧ time.tvNsec < 10 ^ 9

/-- What `Start` owes: a time in range that is the period, the same interval in periodic mode, and so
a call that the operating system accepts whenever it accepts valid times. -/
def Timer.StartExact (t : Timer) (scale : TimerScale) : Prop :=
  0 ≤ (itValue t.scale t.period).tvNsec ∧ (itValue t.scale t.period).tvNsec < 10 ^ 9 ∧
    (itValue t.scale t.period).tvSec * 10 ^ 9 + (itValue t.scale t.period).tvNsec =
      scale.nanos t.period.toNat ∧
    ∀ timerSettime : Itimerspec → Bool,
      (∀ spec, spec.itValue.Valid → spec.itInterval.Valid → timerSettime spec = true) →
      (t.start timerSettime).1 = true ∧
        (t.start timerSettime).2.native.itValue = itValue t.scale t.period ∧
        (t.mode = timerPeriodic →
          (t.start timerSettime).2.native.itInterval = (t.start timerSettime).2.native.itValue)

/-- The periods whose whole seconds, in the unit of the scale, fit in 32 bits. -/
def TimerScale.Fits (scale : TimerScale) (period : ℕ) : Prop :=
  match scale with
  | hour | min | sec => True
  | milli => period < 4294968 * 10 ^ 3
  | micro => period < 4295 * 10 ^ 6
  | nano => period < 5 * 10 ^ 9
  | pico => period < 10 ^ 12
  | femto => period < 10 ^ 15

/-! ### The remainder -/

theorem asLong_of_lt {x : UInt64} (h : x.toNat < 2 ^ 63) : asLong x = x.toNat := by
  rw [asLong, BitVec.toInt_eq_toNat_of_lt]
  · rfl
  · change 2 * x.toNat < 2 ^ 64
    omega

/-- The conversion to a signed type loses nothing. -/
theorem asLong_bmod (x : UInt64) : asLong x = (x.toNat : ℤ).bmod (2 ^ 64) := by
  rw [asLong, BitVec.toInt_eq_toNat_bmod]
  rfl

/-- Whole seconds that fit in 32 bits. -/
theorem toNat_secs {p x : UInt64} {u : ℕ} (hx : x.toNat = p.toNat / u) (h : p.toNat / u < 2 ^ 32) :
    x.toUInt32.toNat = p.toNat / u := by
  rw [UInt64.toNat_toUInt32, hx, Nat.mod_eq_of_lt h]

/-- A product of 32 bits, factor by factor. -/
theorem toNat_mul_wrapped {prod k : UInt32} {n u : ℕ} (h : prod.toNat = n * u % 2 ^ 32) :
    (prod * k).toNat = n * (u * k.toNat) % 2 ^ 32 := by
  rw [UInt32.toNat_mul, h, Nat.mod_mul_mod, Nat.mul_assoc]

/-- What is left of a period when the product of its whole seconds, in 32 bits, is taken off. -/
theorem toNat_sub_product {p : UInt64} {secs prod : UInt32} {u : ℕ}
    (hsecs : secs.toNat = p.toNat / u) (hprod : prod.toNat = secs.toNat * u % 2 ^ 32) :
    (p - prod.toUInt64).toNat = p.toNat % u + 2 ^ 32 * (secs.toNat * u / 2 ^ 32) := by
  have hdiv := Nat.div_add_mod (secs.toNat * u) (2 ^ 32)
  have hmod := Nat.div_add_mod p.toNat u
  rw [Nat.mul_comm u, ← hsecs] at hmod
  have hle : prod.toUInt64 ≤ p := by
    rw [UInt64.le_iff_toNat_le, UInt32.toNat_toUInt64]
    omega
  rw [UInt64.toNat_sub_of_le _ _ hle, UInt32.toNat_toUInt64]
  omega

/-- **A remainder in a larger unit is right if and only if its product has not wrapped.** -/
theorem asLong_wrapped_iff {x k : UInt64} {r c : ℕ} (hx : x.toNat = r + 2 ^ 32 * c)
    (hr : r * k.toNat < 10 ^ 9) (hk : 0 < k.toNat) (hc : c * k.toNat < 2 ^ 32) :
    asLong (x * k) = (r * k.toNat : ℕ) ↔ c = 0 := by
  rw [asLong_bmod, UInt64.toNat_mul, hx, Nat.add_mul, Nat.mul_assoc]
  generalize hw : c * k.toNat = w at hc
  have hzero : w = 0 ↔ c = 0 := by
    rw [← hw, Nat.mul_eq_zero]
    exact or_iff_left (Nat.pos_iff_ne_zero.1 hk)
  rw [← hzero, Int.bmod_def]
  omega

/-- **A remainder in a smaller unit is right if and only if its product has not wrapped.** -/
theorem asLong_wrapped_div_iff {x k : UInt64} {r c : ℕ} (hx : x.toNat = r + 2 ^ 32 * c)
    (hk : 1 < k.toNat) (hk' : k.toNat ≤ 2 ^ 32) : asLong (x / k) = (r / k.toNat : ℕ) ↔ c = 0 := by
  have hlt : (x / k).toNat < 2 ^ 63 := by
    rw [UInt64.toNat_div]
    exact Nat.div_lt_of_lt_mul (by have := x.toNat_lt; omega)
  rw [asLong_of_lt hlt, UInt64.toNat_div, hx, Int.natCast_inj]
  constructor
  · intro heq
    by_contra hc
    have hle : r + k.toNat ≤ r + 2 ^ 32 * c := by
      have := Nat.mul_le_mul_left (2 ^ 32) (Nat.pos_of_ne_zero hc)
      omega
    have hdiv := Nat.div_le_div_right (c := k.toNat) hle
    rw [Nat.add_div_right _ (by omega), heq] at hdiv
    omega
  · rintro rfl
    rw [Nat.mul_zero, Nat.add_zero]

/-! ### The conversion is exact -/

namespace Timer

/-- A time that is right is accepted. -/
theorem startExact_iff {t : Timer} {scale : TimerScale} (hsec : 0 ≤ (itValue t.scale t.period).tvSec) :
    t.StartExact scale ↔
      0 ≤ (itValue t.scale t.period).tvNsec ∧ (itValue t.scale t.period).tvNsec < 10 ^ 9 ∧
        (itValue t.scale t.period).tvSec * 10 ^ 9 + (itValue t.scale t.period).tvNsec =
          scale.nanos t.period.toNat := by
  refine ⟨fun h => ⟨h.1, h.2.1, h.2.2.1⟩, fun h => ⟨h.1, h.2.1, h.2.2, fun timerSettime hset => ?_⟩⟩
  have hvalid : (itValue t.scale t.period).Valid := ⟨hsec, h.1, h.2.1⟩
  refine ⟨hset _ hvalid ?_, rfl, fun hmode => ?_⟩
  · show (if t.mode = timerDelay then (⟨0, 0⟩ : Timespec) else itValue t.scale t.period).Valid
    split_ifs
    · exact ⟨le_rfl, le_rfl, by norm_num⟩
    · exact hvalid
  · show (if t.mode = timerDelay then (⟨0, 0⟩ : Timespec) else itValue t.scale t.period) = _
    rw [hmode, if_neg (by decide)]
    rfl

/-- A conversion of whole seconds and a remainder is exact if and only if the remainder is. -/
theorem startExact_iff_nsec {t : Timer} {scale : TimerScale} {secs nsec : ℕ} {x : ℤ}
    (hvalue : itValue t.scale t.period = ⟨secs, x⟩) (hnsec : nsec < 10 ^ 9)
    (hnanos : scale.nanos t.period.toNat = secs * 10 ^ 9 + nsec) :
    t.StartExact scale ↔ x = nsec := by
  rw [startExact_iff (by rw [hvalue]; exact Int.natCast_nonneg _), hvalue, hnanos]
  simp only
  constructor
  · rintro ⟨-, -, h⟩
    push_cast at h
    omega
  · rintro rfl
    push_cast
    omega

/-- The scales of whole seconds. -/
theorem startExact_whole {t : Timer} {scale : TimerScale} {k : UInt64}
    (hvalue : itValue t.scale t.period = ⟨asLong (t.period * k), 0⟩)
    (hnanos : scale.nanos t.period.toNat = t.period.toNat * k.toNat * 10 ^ 9)
    (hdur : scale.nanos t.period.toNat < 2 ^ 31 * 10 ^ 9) : t.StartExact scale := by
  have hlt : t.period.toNat * k.toNat < 2 ^ 31 := by omega
  have hmul : (t.period * k).toNat = t.period.toNat * k.toNat := by
    rw [UInt64.toNat_mul, Nat.mod_eq_of_lt (by omega)]
  have hlong : asLong (t.period * k) = (t.period.toNat * k.toNat : ℕ) := by
    rw [asLong_of_lt (by omega), hmul]
  rw [hlong] at hvalue
  have hwhole : scale.nanos t.period.toNat = t.period.toNat * k.toNat * 10 ^ 9 + 0 := by
    rw [hnanos, Nat.add_zero]
  exact (startExact_iff_nsec hvalue (by norm_num) hwhole).2 rfl

/-- The scales above a nanosecond: the remainder is multiplied. -/
theorem startExact_iff_mul {t : Timer} {scale : TimerScale} {secs prod : UInt32} {k : UInt64} {u : ℕ}
    (hvalue : itValue t.scale t.period = ⟨secs.toNat, asLong ((t.period - prod.toUInt64) * k)⟩)
    (hsecs : secs.toNat = t.period.toNat / u) (hprod : prod.toNat = secs.toNat * u % 2 ^ 32)
    (hu : u * k.toNat = 10 ^ 9) (hnanos : scale.nanos t.period.toNat = t.period.toNat * k.toNat)
    (hdur : secs.toNat < 2 ^ 31) : t.StartExact scale ↔ t.period.toNat / u * u < 2 ^ 32 := by
  have hpos : 0 < u ∧ 0 < k.toNat := by
    have hne : u * k.toNat ≠ 0 := by rw [hu]; norm_num
    exact ⟨Nat.pos_of_ne_zero (left_ne_zero_of_mul hne), Nat.pos_of_ne_zero (right_ne_zero_of_mul hne)⟩
  have hrem := toNat_sub_product hsecs hprod
  have hr : t.period.toNat % u * k.toNat < 10 ^ 9 := by
    rw [← hu]
    exact Nat.mul_lt_mul_of_pos_right (Nat.mod_lt _ hpos.1) hpos.2
  have hc : secs.toNat * u / 2 ^ 32 * k.toNat < 2 ^ 32 := by
    have hle := Nat.div_mul_le_self (secs.toNat * u) (2 ^ 32)
    have hmul := Nat.mul_le_mul_right k.toNat hle
    rw [Nat.mul_assoc _ u, hu, Nat.mul_right_comm] at hmul
    omega
  have hsplit : scale.nanos t.period.toNat =
      secs.toNat * 10 ^ 9 + t.period.toNat % u * k.toNat := by
    rw [hnanos, hsecs, ← hu, ← Nat.mul_assoc, ← Nat.add_mul, Nat.mul_comm _ u, Nat.div_add_mod]
  rw [startExact_iff_nsec hvalue hr hsplit, asLong_wrapped_iff hrem hr hpos.2 hc, ← hsecs]
  omega

/-- The scales below a nanosecond: the remainder is divided. -/
theorem startExact_iff_div {t : Timer} {scale : TimerScale} {secs prod : UInt32} {k : UInt64} {u : ℕ}
    (hvalue : itValue t.scale t.period = ⟨secs.toNat, asLong ((t.period - prod.toUInt64) / k)⟩)
    (hsecs : secs.toNat = t.period.toNat / u) (hprod : prod.toNat = secs.toNat * u % 2 ^ 32)
    (hu : u = 10 ^ 9 * k.toNat) (hk : 1 < k.toNat) (hk' : k.toNat ≤ 2 ^ 32)
    (hnanos : scale.nanos t.period.toNat = t.period.toNat / k.toNat) :
    t.StartExact scale ↔ t.period.toNat / u * u < 2 ^ 32 := by
  have hrem := toNat_sub_product hsecs hprod
  have hr : t.period.toNat % u / k.toNat < 10 ^ 9 := by
    refine Nat.div_lt_of_lt_mul ?_
    rw [Nat.mul_comm, ← hu]
    exact Nat.mod_lt _ (by rw [hu]; omega)
  have hsplit : scale.nanos t.period.toNat =
      secs.toNat * 10 ^ 9 + t.period.toNat % u / k.toNat := by
    have hdiv := Nat.div_add_mod t.period.toNat u
    rw [← hsecs, Nat.mul_comm] at hdiv
    conv_lhs => rw [hnanos, ← hdiv]
    nth_rewrite 1 [hu]
    rw [← Nat.mul_assoc, Nat.add_comm, Nat.add_mul_div_right _ _ (by omega), Nat.add_comm]
  rw [startExact_iff_nsec hvalue hr hsplit, asLong_wrapped_div_iff hrem hk hk', ← hsecs]
  omega

end Timer

/-- **The conversion of a period is exact if and only if its whole seconds, in the unit of the scale,
fit in 32 bits.** -/
theorem timer_start_exact_iff (t : Timer) (scale : TimerScale)
    (hscale : TimerScale.ofOctet t.scale = some scale)
    (hdur : scale.nanos t.period.toNat < 2 ^ 31 * 10 ^ 9) :
    t.StartExact scale ↔ scale.Fits t.period.toNat := by
  have hdef : Timer.itValue t.scale t.period = scale.itValue t.period := by
    rw [Timer.itValue, hscale]
  have hlt := t.period.toNat_lt
  cases scale with
  | hour => exact iff_of_true (Timer.startExact_whole hdef rfl hdur) trivial
  | min => exact iff_of_true (Timer.startExact_whole hdef rfl hdur) trivial
  | sec =>
      have hvalue : Timer.itValue t.scale t.period = ⟨asLong (t.period * 1), 0⟩ := by
        rw [hdef, UInt64.mul_one]
        rfl
      refine iff_of_true (Timer.startExact_whole hvalue ?_ hdur) trivial
      exact (congrArg (· * 10 ^ 9) (Nat.mul_one _)).symm
  | milli =>
      simp only [TimerScale.nanos] at hdur
      have hsecs := toNat_secs (u := 1000) (UInt64.toNat_div t.period 1000) (by omega)
      rw [Timer.startExact_iff_mul hdef hsecs (UInt32.toNat_mul _ _) rfl rfl (by omega)]
      simp only [TimerScale.Fits]
      omega
  | micro =>
      simp only [TimerScale.nanos] at hdur
      have hsecs := toNat_secs (u := 1000000) (UInt64.toNat_div t.period 1000000) (by omega)
      rw [Timer.startExact_iff_mul hdef hsecs (UInt32.toNat_mul _ _) rfl rfl (by omega)]
      simp only [TimerScale.Fits]
      omega
  | nano =>
      simp only [TimerScale.nanos] at hdur
      have hsecs := toNat_secs (u := 1000000000) (UInt64.toNat_div t.period 1000000000) (by omega)
      have hprod := UInt32.toNat_mul (t.period / 1000000000).toUInt32 1000000000
      rw [Timer.startExact_iff_mul (k := 1) (by rw [hdef, UInt64.mul_one]; rfl) hsecs hprod rfl
        (Nat.mul_one _).symm (by omega)]
      simp only [TimerScale.Fits]
      omega
  | pico =>
      have hsecs : (t.period / 1000000 / 1000000).toUInt32.toNat = t.period.toNat / 10 ^ 12 :=
        toNat_secs (by rw [UInt64.toNat_div, UInt64.toNat_div, Nat.div_div_eq_div_mul]; rfl) (by omega)
      have hprod := toNat_mul_wrapped (k := 1000000)
        (UInt32.toNat_mul (t.period / 1000000 / 1000000).toUInt32 1000000)
      rw [Timer.startExact_iff_div hdef hsecs hprod rfl (by decide) (by decide) rfl]
      simp only [TimerScale.Fits]
      omega
  | femto =>
      have hsecs : (t.period / 1000000 / 1000000 / 1000).toUInt32.toNat = t.period.toNat / 10 ^ 15 :=
        toNat_secs (by
          rw [UInt64.toNat_div, UInt64.toNat_div, UInt64.toNat_div, Nat.div_div_eq_div_mul,
            Nat.div_div_eq_div_mul]
          rfl) (by omega)
      have hprod := toNat_mul_wrapped (k := 1000) (toNat_mul_wrapped (k := 1000000)
        (UInt32.toNat_mul (t.period / 1000000 / 1000000 / 1000).toUInt32 1000000))
      rw [Timer.startExact_iff_div hdef hsecs hprod rfl (by decide) (by decide) rfl]
      simp only [TimerScale.Fits]
      omega

/-- A timer of 1500 milliseconds. -/
def sampleTimer : Timer := ⟨false, timerPeriodic, 3, 1500, ⟨⟨0, 0⟩, ⟨0, 0⟩⟩⟩

theorem timer_start_exact_milli : sampleTimer.StartExact .milli :=
  (timer_start_exact_iff sampleTimer .milli rfl (by decide)).2 (by
    show 1500 < 4294968 * 10 ^ 3
    decide)

/-- Five seconds in nanoseconds: the remainder is that of a product that has wrapped around, far above
a second, so that the operating system refuses it. -/
theorem timer_start_nano_five :
    Timer.itValue 5 5000000000 = ⟨5, 4294967296⟩ ∧
      ¬ (⟨false, timerPeriodic, 5, 5000000000, ⟨⟨0, 0⟩, ⟨0, 0⟩⟩⟩ : Timer).StartExact .nano := by
  have hvalue : Timer.itValue 5 5000000000 = ⟨5, 4294967296⟩ := by decide
  refine ⟨hvalue, fun h => ?_⟩
  have hlt : (Timer.itValue 5 5000000000).tvNsec < 10 ^ 9 := h.2.1
  rw [hvalue] at hlt
  exact absurd hlt (by decide)

end CodePort
