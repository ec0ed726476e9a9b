import Mathlib.Algebra.Order.Field.Power
import Mathlib.Data.Int.Log
import Mathlib.Data.Nat.Bitwise
import Mathlib.Data.Nat.Cast.Field
import Mathlib.Data.Rat.Floor
import Mathlib.Tactic.FieldSimp
import Mathlib.Tactic.GCongr
import Mathlib.Tactic.NormNum
import Mathlib.Tactic.Positivity
import Mathlib.Tactic.Ring
import RuleFlow.Double.Basic

/-!
# Rounding ratios to doubles

A double's magnitude bits are monotone in its size, which is a whole number of units in the last
place.  So one equation between them (`magnitudeBits_eq`) carries the two facts about rounding: a
ratio that is the size of a double rounds to that double, and rounding does not pass a power of two.
-/

namespace RuleFlow.Double

variable {x y : Double} {negative : Bool} {m num den : ℕ}

/-! ## Sign and magnitude -/

theorem isZero_iff : x.isZero = true ↔ x.magnitudeBits = 0 := by
  simp [isZero]

/-- A double is known by its sign and the bits below it. -/
theorem eq_iff : x = y ↔ x.isNegative = y.isNegative ∧ x.magnitudeBits = y.magnitudeBits := by
  constructor
  · rintro rfl
    exact ⟨rfl, rfl⟩
  · obtain ⟨b⟩ := x
    obtain ⟨c⟩ := y
    rintro ⟨hsign, hmagnitude⟩
    simp only [isNegative, magnitudeBits, decide_eq_decide] at hsign hmagnitude
    have hb := b.toNat_lt
    have hc := c.toNat_lt
    rw [mk.injEq, ← UInt64.toNat_inj]
    omega

theorem isZero_iff_eq : x.isZero = true ↔ x = zero ∨ x = zero.neg := by
  have hzero : zero.isNegative = false ∧ zero.magnitudeBits = 0 := by decide
  have hneg : zero.neg.isNegative = true ∧ zero.neg.magnitudeBits = 0 := by decide
  rw [isZero_iff, eq_iff, eq_iff, hzero.1, hzero.2, hneg.1, hneg.2, ← or_and_right]
  cases x.isNegative <;> simp

/-- A double is finite if its magnitude is below that of infinity. -/
theorem isFinite_iff : x.isFinite = true ↔ x.magnitudeBits < infinityBits := by
  simp only [isFinite, bne_iff_ne, biasedExponent, magnitudeBits, infinityBits]
  omega

theorem isNaN_eq_false_iff : x.isNaN = false ↔ x.magnitudeBits ≤ infinityBits := by
  rw [isNaN, Bool.and_eq_false_iff, Bool.not_eq_false', isFinite_iff]
  simp only [bne_eq_false_iff_eq, fraction, magnitudeBits, infinityBits]
  omega

theorem isInfinite_iff : x.isInfinite = true ↔ x.magnitudeBits = infinityBits := by
  rw [isInfinite, Bool.and_eq_true, Bool.not_eq_true', ← Bool.not_eq_true, isFinite_iff]
  simp only [beq_iff_eq, fraction, magnitudeBits, infinityBits]
  omega

theorem min_infinityBits_lt : Min.min m infinityBits < 2 ^ 63 :=
  lt_of_le_of_lt (min_le_right ..) (by decide)

/-- The sign is the highest bit and the magnitude the others; what is above infinity is infinite. -/
theorem bits_ofMagnitude : (ofMagnitude negative m).bits.toNat =
    (if negative then 2 ^ 63 else 0) + Min.min m infinityBits := by
  rw [ofMagnitude, UInt64.toNat_ofNat']
  have hmin := min_infinityBits_lt (m := m)
  split <;> omega

@[simp]
theorem magnitudeBits_ofMagnitude :
    (ofMagnitude negative m).magnitudeBits = Min.min m infinityBits := by
  have hmin := min_infinityBits_lt (m := m)
  rw [magnitudeBits, bits_ofMagnitude]
  split <;> omega

/-- A double that is a number is known by its sign and magnitude. -/
theorem ofMagnitude_magnitudeBits (h : x.magnitudeBits ≤ infinityBits) :
    ofMagnitude x.isNegative x.magnitudeBits = x := by
  obtain ⟨bits⟩ := x
  have hbits :
      (ofMagnitude (isNegative ⟨bits⟩) (magnitudeBits ⟨bits⟩)).bits.toNat = bits.toNat := by
    rw [bits_ofMagnitude, min_eq_left h]
    have := bits.toNat_lt
    simp only [isNegative, magnitudeBits, decide_eq_true_eq]
    split <;> omega
  exact congrArg mk (UInt64.toNat_inj.mp hbits)

private theorem xor_two_pow_of_lt {i : ℕ} (h : m < 2 ^ i) : m ^^^ 2 ^ i = 2 ^ i + m := by
  have hor : 2 ^ i + m = 2 ^ i ||| m := by simpa using Nat.two_pow_add_eq_or_of_lt h 1
  rw [hor]
  refine Nat.eq_of_testBit_eq fun k => ?_
  rw [Nat.testBit_xor, Nat.testBit_or, Nat.testBit_two_pow]
  by_cases hk : i = k
  · subst hk
    rw [Nat.testBit_lt_two_pow h]
    simp
  · simp [hk]

/-- The opposite has the same magnitude and the other sign. -/
theorem neg_ofMagnitude : (ofMagnitude negative m).neg = ofMagnitude (!negative) m := by
  have hmin := min_infinityBits_lt (m := m)
  have hbits :
      ((ofMagnitude negative m).neg).bits.toNat = (ofMagnitude (!negative) m).bits.toNat := by
    rw [neg, UInt64.toNat_xor, bits_ofMagnitude, bits_ofMagnitude]
    change _ ^^^ 2 ^ 63 = _
    cases negative
    · simpa using xor_two_pow_of_lt hmin
    · simp [← xor_two_pow_of_lt hmin]
  exact congrArg mk (UInt64.toNat_inj.mp hbits)

/-! ## Size -/

/-- How far a finite double is from zero. -/
def size (x : Double) : ℚ := x.significand * 2 ^ x.exponent

theorem fraction_lt : x.fraction < 2 ^ 52 := Nat.mod_lt _ (by decide)

theorem magnitudeBits_eq_fields : x.magnitudeBits = x.biasedExponent * 2 ^ 52 + x.fraction := by
  simp only [magnitudeBits, biasedExponent, fraction]
  omega

theorem significand_lt : x.significand < 2 ^ 53 := by
  have := fraction_lt (x := x)
  rw [significand]
  split <;> omega

theorem neg_le_exponent : -1074 ≤ x.exponent := by
  rw [exponent]
  omega

/-- Below `2 ^ 52` a significand stands at the lowest exponent. -/
theorem le_significand_or_exponent_eq : 2 ^ 52 ≤ x.significand ∨ x.exponent = -1074 := by
  rw [significand, exponent]
  split <;> omega

/-- Normal or subnormal, a double has the bits of its exponent and its significand added up. -/
theorem magnitudeBits_eq :
    (x.magnitudeBits : ℤ) = (x.exponent + 1074) * 2 ^ 52 + x.significand := by
  rw [magnitudeBits_eq_fields, significand, exponent]
  split <;> omega

theorem two_pow_mul_zpow (d : ℕ) (e : ℤ) : (2 : ℚ) ^ d * 2 ^ e = 2 ^ (e + d) := by
  rw [zpow_add₀ two_ne_zero, zpow_natCast, mul_comm]

/-- Powers of two are sizes without a fraction. -/
theorem size_le_two_pow {k : ℕ} (h : x.magnitudeBits ≤ (k + 1023) * 2 ^ 52) : x.size ≤ 2 ^ k := by
  have hbits := magnitudeBits_eq (x := x)
  have hlt := significand_lt (x := x)
  have hexponent : x.exponent ≤ k - 53 ∨ x.exponent ≤ k - 52 ∧ x.significand ≤ 2 ^ 52 := by
    have := le_significand_or_exponent_eq (x := x)
    omega
  have hsplit (d : ℕ) : (2 : ℚ) ^ d * 2 ^ (k - d : ℤ) = 2 ^ k := by
    rw [two_pow_mul_zpow, sub_add_cancel, zpow_natCast]
  rcases hexponent with he | ⟨he, hs⟩
  · calc x.size ≤ 2 ^ 53 * 2 ^ x.exponent := by
          rw [size]; gcongr; exact_mod_cast hlt.le
      _ ≤ 2 ^ 53 * 2 ^ (k - 53 : ℤ) := by gcongr; norm_num
      _ = 2 ^ k := hsplit 53
  · calc x.size ≤ 2 ^ 52 * 2 ^ x.exponent := by
          rw [size]; gcongr; exact_mod_cast hs
      _ ≤ 2 ^ 52 * 2 ^ (k - 52 : ℤ) := by gcongr; norm_num
      _ = 2 ^ k := hsplit 52

/-- From the bits of one on, a double is at least one. -/
theorem one_le_size (h : 1023 * 2 ^ 52 ≤ x.magnitudeBits) : 1 ≤ x.size := by
  have hbits := magnitudeBits_eq (x := x)
  have hlt := significand_lt (x := x)
  have hs : 2 ^ 52 ≤ x.significand := by
    have := le_significand_or_exponent_eq (x := x)
    omega
  calc (1 : ℚ) = 2 ^ 52 * 2 ^ (-52 : ℤ) := by norm_num
    _ ≤ 2 ^ 52 * 2 ^ x.exponent := by gcongr; norm_num; omega
    _ ≤ x.size := by rw [size]; gcongr; exact_mod_cast hs

/-! ## The place of the last digit -/

/-- Moving the point of a ratio keeps both parts whole. -/
theorem ratio_shift (num den : ℕ) (e : ℤ) :
    ((num * 2 ^ (-e).toNat : ℕ) : ℚ) / (den * 2 ^ e.toNat : ℕ) = num / den / 2 ^ e := by
  obtain ⟨n, rfl | rfl⟩ := e.eq_nat_or_neg
  · simp [div_div]
  · simp [div_eq_mul_inv]
    ring

/-- The logarithm is the exponent of the power of two below. -/
theorem log_eq {q : ℚ} {k : ℤ} (hle : 2 ^ k ≤ q) (hlt : q < 2 ^ (k + 1)) : Int.log 2 q = k := by
  have hq : 0 < q := lt_of_lt_of_le (by positivity) hle
  have h₁ := (Int.zpow_le_iff_le_log one_lt_two hq).mp (by exact_mod_cast hle)
  have h₂ := (Int.lt_zpow_iff_log_lt one_lt_two hq).mp (by exact_mod_cast hlt)
  omega

/-- A quotient gets the exponent that leaves it 53 bits before the point, or the least one. -/
theorem ratioExponent_eq (hnum : num ≠ 0) (hden : den ≠ 0) :
    ratioExponent num den = Max.max (Int.log 2 (num / den : ℚ) - 52) (-1074) := by
  have hden' : (0 : ℚ) < den := by positivity
  set estimate : ℤ := num.log2 - den.log2 with hestimate
  have hlow : (2 : ℚ) ^ (estimate - 1) ≤ num / den := by
    rw [le_div_iff₀ hden']
    calc (2 : ℚ) ^ (estimate - 1) * den ≤ 2 ^ (estimate - 1) * 2 ^ (den.log2 + 1) := by
          gcongr; exact_mod_cast Nat.lt_log2_self.le
      _ = 2 ^ num.log2 := by
          rw [mul_comm, two_pow_mul_zpow, ← zpow_natCast]
          congr 1
          push_cast
          omega
      _ ≤ num := by exact_mod_cast Nat.log2_self_le hnum
  have hhigh : (num / den : ℚ) < 2 ^ (estimate + 1) := by
    rw [div_lt_iff₀ hden']
    calc (num : ℚ) < 2 ^ (num.log2 + 1) := by exact_mod_cast Nat.lt_log2_self
      _ = 2 ^ (estimate + 1) * 2 ^ den.log2 := by
          rw [mul_comm, two_pow_mul_zpow, ← zpow_natCast]
          congr 1
          push_cast
          omega
      _ ≤ 2 ^ (estimate + 1) * den := by gcongr; exact_mod_cast Nat.log2_self_le hden
  have htest : den * 2 ^ estimate.toNat ≤ num * 2 ^ (-estimate).toNat ↔
      (2 : ℚ) ^ estimate ≤ num / den := by
    have hpos : (0 : ℚ) < (den * 2 ^ estimate.toNat : ℕ) := by positivity
    rw [← one_le_div₀ (zpow_pos two_pos estimate), ← ratio_shift, one_le_div₀ hpos, Nat.cast_le]
  rw [ratioExponent, ← hestimate]
  by_cases h : (2 : ℚ) ^ estimate ≤ num / den
  · simp only [htest, h, if_true, log_eq h hhigh]
  · simp only [htest, h, if_false, log_eq hlow (by simpa using h)]

/-! ## Rounding -/

/-- Rounding does not go below an integer that is no greater. -/
theorem le_roundRatio (hden : den ≠ 0) (h : (m : ℚ) ≤ num / den) : m ≤ roundRatio num den := by
  rw [le_div_iff₀ (by positivity)] at h
  have : m ≤ num / den := (Nat.le_div_iff_mul_le (by omega)).mpr (by exact_mod_cast h)
  rw [roundRatio]
  split <;> omega

/-- Rounding does not go above an integer that is no less. -/
theorem roundRatio_le (hden : den ≠ 0) (h : (num / den : ℚ) ≤ m) : roundRatio num den ≤ m := by
  rw [div_le_iff₀ (by positivity)] at h
  have hden' : 0 < den := by omega
  obtain rfl | hlt := (show num ≤ m * den by exact_mod_cast h).eq_or_lt
  · simp [roundRatio, Nat.mul_div_cancel _ hden', hden'.ne]
  · have : num / den < m := (Nat.div_lt_iff_lt_mul hden').mpr hlt
    rw [roundRatio]
    split <;> omega

/-- A ratio is rounded after the point has been moved to the place of the last digit. -/
theorem roundRatio_shift_le {e : ℤ} (hden : den ≠ 0) (h : (num / den : ℚ) ≤ m * 2 ^ e) :
    roundRatio (num * 2 ^ (-e).toNat) (den * 2 ^ e.toNat) ≤ m := by
  refine roundRatio_le (by positivity) ?_
  rwa [ratio_shift, div_le_iff₀ (by positivity)]

theorem le_roundRatio_shift {e : ℤ} (hden : den ≠ 0) (h : (m * 2 ^ e : ℚ) ≤ num / den) :
    m ≤ roundRatio (num * 2 ^ (-e).toNat) (den * 2 ^ e.toNat) := by
  refine le_roundRatio (by positivity) ?_
  rwa [ratio_shift, le_div_iff₀ (by positivity)]

/-- The last digit of a ratio that is the size of a double has its place in the double. -/
theorem ratioExponent_of_eq_size (hnum : num ≠ 0) (hden : den ≠ 0)
    (h : (num / den : ℚ) = x.size) : ratioExponent num den = x.exponent := by
  have hq : (0 : ℚ) < num / den := by positivity
  have hnormal := le_significand_or_exponent_eq (x := x)
  have hlow := neg_le_exponent (x := x)
  rw [size] at h
  have hlog : Int.log 2 (num / den : ℚ) < x.exponent + 53 := by
    refine (Int.lt_zpow_iff_log_lt one_lt_two hq).mp ?_
    calc (num / den : ℚ) < 2 ^ 53 * 2 ^ x.exponent := by
          rw [h]; gcongr; exact_mod_cast significand_lt
      _ = ((2 : ℕ) : ℚ) ^ (x.exponent + 53) := two_pow_mul_zpow 53 x.exponent
  have hlog' (hs : 2 ^ 52 ≤ x.significand) : x.exponent + 52 ≤ Int.log 2 (num / den : ℚ) := by
    refine (Int.zpow_le_iff_le_log one_lt_two hq).mp ?_
    calc ((2 : ℕ) : ℚ) ^ (x.exponent + 52) = 2 ^ 52 * 2 ^ x.exponent :=
          (two_pow_mul_zpow 52 x.exponent).symm
      _ ≤ num / den := by rw [h]; gcongr; exact_mod_cast hs
  -- a subnormal significand is below `2 ^ 52`, and there the lowest exponent is the bound
  rw [ratioExponent_eq hnum hden]
  omega

/-- A ratio that is the size of a double rounds to it. -/
theorem ofRatio_of_eq_size (hden : den ≠ 0) (h : (num / den : ℚ) = x.size) :
    ofRatio negative num den = ofMagnitude negative x.magnitudeBits := by
  have hbits := magnitudeBits_eq (x := x)
  have hnormal := le_significand_or_exponent_eq (x := x)
  by_cases hnum : num = 0
  · have hs : x.significand = 0 := by
      have hsize : (x.significand : ℚ) * 2 ^ x.exponent = 0 := by rw [← size, ← h, hnum]; simp
      exact_mod_cast (mul_eq_zero_iff_right (by positivity)).mp hsize
    have hzero : x.magnitudeBits = 0 := by omega
    rw [ofRatio, if_pos hnum, hzero]
  have hround : roundRatio (num * 2 ^ (-x.exponent).toNat) (den * 2 ^ x.exponent.toNat) =
      x.significand :=
    le_antisymm (roundRatio_shift_le hden h.le) (le_roundRatio_shift hden h.ge)
  have hlow := neg_le_exponent (x := x)
  rw [ofRatio, if_neg hnum]
  simp only [ratioExponent_of_eq_size hnum hden h, hround]
  congr 1
  omega

/-- Rounding does not pass a power of two upwards. -/
theorem magnitudeBits_ofRatio_le {k : ℕ} (hden : den ≠ 0) (h : (num / den : ℚ) ≤ 2 ^ k) :
    (ofRatio negative num den).magnitudeBits ≤ (k + 1023) * 2 ^ 52 := by
  by_cases hnum : num = 0
  · simp [ofRatio, hnum]
  have hq : (0 : ℚ) < num / den := by positivity
  have hlog : Int.log 2 (num / den : ℚ) ≤ k := by
    have hpow : (num / den : ℚ) ≤ ((2 : ℕ) : ℚ) ^ (k : ℤ) := by simpa using h
    exact (Int.log_mono_right hq hpow).trans_eq (Int.log_zpow one_lt_two _)
  have hlt := Int.lt_zpow_succ_log_self (b := 2) one_lt_two (num / den : ℚ)
  have he := ratioExponent_eq hnum hden
  set e := ratioExponent num den
  have hround (d : ℕ) (hd : (num / den : ℚ) ≤ 2 ^ (e + d)) :
      roundRatio (num * 2 ^ (-e).toNat) (den * 2 ^ e.toNat) ≤ 2 ^ d := by
    refine roundRatio_shift_le hden ?_
    rwa [Nat.cast_pow, Nat.cast_ofNat, two_pow_mul_zpow]
  -- at the power itself the significand is `2 ^ 52`; below it, it may carry up to `2 ^ 53`
  have hbits : (e + 1074).toNat * 2 ^ 52 +
      roundRatio (num * 2 ^ (-e).toNat) (den * 2 ^ e.toNat) ≤ (k + 1023) * 2 ^ 52 := by
    obtain hk | hk := hlog.eq_or_lt
    · have := hround 52 (h.trans_eq (by rw [← zpow_natCast]; congr 1; omega))
      omega
    · have := hround 53 (hlt.le.trans (zpow_le_zpow_right₀ (by norm_num) (by push_cast; omega)))
      omega
  rw [ofRatio, if_neg hnum, magnitudeBits_ofMagnitude]
  exact (min_le_left ..).trans hbits

/-- Rounding does not pass one downwards. -/
theorem le_magnitudeBits_ofRatio (h : 1 ≤ (num / den : ℚ)) :
    1023 * 2 ^ 52 ≤ (ofRatio negative num den).magnitudeBits := by
  have hnum : num ≠ 0 := by rintro rfl; norm_num at h
  have hden : den ≠ 0 := by rintro rfl; norm_num at h
  have hlog : 0 ≤ Int.log 2 (num / den : ℚ) :=
    (Int.zpow_le_iff_le_log one_lt_two (by positivity)).mp (by simpa using h)
  have hle := Int.zpow_log_le_self (b := 2) one_lt_two (by positivity : (0 : ℚ) < num / den)
  have he := ratioExponent_eq hnum hden
  set e := ratioExponent num den
  have hround : 2 ^ 52 ≤ roundRatio (num * 2 ^ (-e).toNat) (den * 2 ^ e.toNat) := by
    refine le_roundRatio_shift hden ?_
    rw [Nat.cast_pow, Nat.cast_ofNat, two_pow_mul_zpow]
    have hlast : e + (52 : ℕ) = Int.log 2 (num / den : ℚ) := by
      push_cast
      omega
    rwa [hlast]
  have hbits : 1023 * 2 ^ 52 ≤ (e + 1074).toNat * 2 ^ 52 +
      roundRatio (num * 2 ^ (-e).toNat) (den * 2 ^ e.toNat) := by
    omega
  rw [ofRatio, if_neg hnum, magnitudeBits_ofMagnitude]
  exact le_min hbits (by decide)

/-! ## Whole numbers -/

/-- An integer is not rounded beyond a power of two. -/
theorem magnitudeBits_ofNat_le {n k : ℕ} (h : n ≤ 2 ^ k) :
    (ofNat n).magnitudeBits ≤ (k + 1023) * 2 ^ 52 :=
  magnitudeBits_ofRatio_le one_ne_zero (by rw [Nat.cast_one, div_one]; exact_mod_cast h)

theorem magnitudeBits_neg (h : x.magnitudeBits ≤ infinityBits) :
    x.neg.magnitudeBits = x.magnitudeBits := by
  rw [← ofMagnitude_magnitudeBits h, neg_ofMagnitude, magnitudeBits_ofMagnitude,
    magnitudeBits_ofMagnitude]

/-- The whole part of a whole number is its size. -/
theorem wholePart_eq_size (h : x.isWhole = true) : (x.wholePart : ℚ) = x.size := by
  simp only [isWhole, Bool.and_eq_true, Bool.or_eq_true, decide_eq_true_eq, beq_iff_eq] at h
  rw [wholePart, size]
  split
  case isTrue he =>
    rw [Nat.cast_mul, Nat.cast_pow, ← zpow_natCast, Int.toNat_of_nonneg he]
    rfl
  case isFalse he =>
    have hdvd : 2 ^ (-x.exponent).toNat ∣ x.significand :=
      Nat.dvd_of_mod_eq_zero (h.2.resolve_left he)
    rw [Nat.cast_div hdvd (by positivity), Nat.cast_pow, ← zpow_natCast,
      Int.toNat_of_nonneg (by omega), zpow_neg, div_inv_eq_mul]
    rfl

theorem ofNat_wholePart (h : x.isWhole = true) :
    ofNat x.wholePart = ofMagnitude false x.magnitudeBits :=
  ofRatio_of_eq_size one_ne_zero (by rw [Nat.cast_one, div_one, wholePart_eq_size h])

theorem ofInt_natCast (n : ℕ) : ofInt n = ofNat n := by
  rw [ofInt, if_neg (by omega), Int.natAbs_natCast]

/-- The sign of an integer is that of its double. -/
theorem ofInt_neg_natCast {n : ℕ} (h : n ≠ 0) : ofInt (-n) = (ofNat n).neg := by
  rw [ofInt, if_pos (by omega), Int.natAbs_neg, Int.natAbs_natCast]

/-- The integer in a whole double makes the same double, except for the sign of zero. -/
theorem ofInt_truncate (h : x.isWhole = true) :
    ofInt x.truncate = x ∨ x.isZero = true ∧ x.truncate = 0 := by
  have hfinite : x.isFinite = true := (Bool.and_eq_true_iff.mp h).1
  have hsign := ofMagnitude_magnitudeBits (isFinite_iff.mp hfinite).le
  have hnat := ofNat_wholePart h
  rw [truncate]
  cases hneg : x.isNegative
  · exact .inl (by rw [if_neg Bool.false_ne_true, ofInt_natCast, hnat, ← hneg, hsign])
  by_cases hw : x.wholePart = 0
  · refine .inr ⟨isZero_iff.mpr ?_, by simp [hw]⟩
    have hzero : (ofNat 0).magnitudeBits = 0 := by simp [ofNat, ofRatio]
    rw [hw] at hnat
    rwa [hnat, magnitudeBits_ofMagnitude, min_eq_left (isFinite_iff.mp hfinite).le] at hzero
  · exact .inl (by rw [if_pos rfl, ofInt_neg_natCast hw, hnat, neg_ofMagnitude, Bool.not_false,
      ← hneg, hsign])

/-- A finite double agrees with itself. -/
theorem agrees_self (h : x.isFinite = true) : x.agrees x = true := by
  simp [agrees, isNaN, h]

/-- A whole number agrees with the double of its integer, from which it may differ in the sign of
zero. -/
theorem agrees_ofInt_truncate (h : x.isWhole = true) : (ofInt x.truncate).agrees x = true := by
  have hfinite : x.isFinite = true := (Bool.and_eq_true_iff.mp h).1
  obtain hx | ⟨hzero, htruncate⟩ := ofInt_truncate h
  · rw [hx]
    exact agrees_self hfinite
  · rw [htruncate]
    have hmagnitude := isZero_iff.mp hzero
    simp [agrees, isNaN, hfinite, numberKey, hmagnitude]
    decide

theorem isSmallWhole_ofInt_truncate (h : x.isSmallWhole = true) :
    (ofInt x.truncate).isSmallWhole = true ∧ (ofInt x.truncate).truncate = x.truncate := by
  obtain hx | ⟨-, htruncate⟩ := ofInt_truncate (Bool.and_eq_true_iff.mp h).1
  · rw [hx]
    exact ⟨h, rfl⟩
  · rw [htruncate]
    decide +kernel

/-- A small whole number is an integer of 64 bits. -/
theorem natAbs_truncate_lt (h : x.isSmallWhole = true) : x.truncate.natAbs < 2 ^ 63 := by
  have := of_decide_eq_true (Bool.and_eq_true_iff.mp h).2
  rw [truncate]
  split <;> omega

/-! ## Division by whole numbers -/

/-- Bringing two doubles to one exponent keeps their quotient. -/
theorem ratio_size (x y : Double) :
    ((x.significand * 2 ^ (x.exponent - y.exponent).toNat : ℕ) : ℚ) /
      (y.significand * 2 ^ (-(x.exponent - y.exponent)).toNat : ℕ) = x.size / y.size := by
  have h := ratio_shift x.significand y.significand (-(x.exponent - y.exponent))
  rw [neg_neg] at h
  rw [h, size, size, neg_sub, zpow_sub₀ two_ne_zero]
  field_simp

/-- Division by a whole number does not pass a power of two upwards. -/
theorem magnitudeBits_div_ofNat_le {n k : ℕ} (hn : n ≠ 0) (hk : k < 1024)
    (hx : x.magnitudeBits ≤ (k + 1023) * 2 ^ 52) :
    (x.div (ofNat n)).magnitudeBits ≤ (k + 1023) * 2 ^ 52 := by
  have hx' : x.magnitudeBits < infinityBits := by rw [infinityBits]; omega
  have hy : (ofNat n).magnitudeBits ≤ infinityBits := by
    rw [ofNat, ofRatio]
    split <;> simp
  have hone : 1023 * 2 ^ 52 ≤ (ofNat n).magnitudeBits :=
    le_magnitudeBits_ofRatio (by rw [Nat.cast_one, div_one]; exact_mod_cast Nat.pos_of_ne_zero hn)
  have hxInfinite : x.isInfinite = false := by rw [← Bool.not_eq_true, isInfinite_iff]; omega
  have hyZero : (ofNat n).isZero = false := by rw [← Bool.not_eq_true, isZero_iff]; omega
  rw [div, combine, if_neg (by simp [isNaN_eq_false_iff.mpr hx'.le]),
    if_neg (by simp [isNaN_eq_false_iff.mpr hy])]
  simp only [hxInfinite, hyZero, Bool.false_eq_true, if_false]
  split
  case isTrue => simp
  case isFalse =>
    have hsize : 1 ≤ (ofNat n).size := one_le_size hone
    have hsignificand : (ofNat n).significand ≠ 0 := by
      intro h
      rw [size, h, Nat.cast_zero, zero_mul] at hsize
      exact absurd hsize (by norm_num)
    refine magnitudeBits_ofRatio_le (by positivity) ?_
    calc _ = x.size / (ofNat n).size := ratio_size x (ofNat n)
      _ ≤ x.size := div_le_self (by rw [size]; positivity) hsize
      _ ≤ 2 ^ k := size_le_two_pow hx

/-! ## Values -/

/-- The number for which a finite double stands. -/
def value (x : Double) : ℚ := if x.isNegative then -x.size else x.size

theorem size_nonneg (x : Double) : 0 ≤ x.size := by
  rw [size]
  positivity

theorem size_eq_zero (h : x.magnitudeBits = 0) : x.size = 0 := by
  have hbits := magnitudeBits_eq (x := x)
  have hexponent := neg_le_exponent (x := x)
  have hsignificand : x.significand = 0 := by omega
  rw [size, hsignificand, Nat.cast_zero, zero_mul]

/-- A double that is not below zero has no negative value, negative zero included. -/
theorem value_nonneg (hx : x.isFinite = true) (h : x.lt zero = false) : 0 ≤ x.value := by
  have hnan : x.isNaN = false := by rw [isNaN, hx]; rfl
  have hzero : zero.isNaN = false := by decide
  have hkey : zero.numberKey = 0 := by decide
  rw [lt, hnan, hzero, hkey] at h
  have hle : 0 ≤ x.numberKey := by simpa using h
  rw [numberKey] at hle
  rw [value]
  split
  case isTrue hnegative =>
    rw [if_pos hnegative] at hle
    rw [size_eq_zero (by omega), neg_zero]
  case isFalse => exact x.size_nonneg

end RuleFlow.Double
