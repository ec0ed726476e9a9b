import RuleFlow.Double.Decimal
import RuleFlow.Proofs.Double.Rounding

/-!
# What the digits of a double stand for

The digits that are written for a double stand for a number that is hardly above the double: they
are searched on finer and finer grids, and one of the grids that are tried is fine enough to have a
point next to the double.  Rounding adds little to such a number again, which is why a finite double
that is not among the greatest can be written and read without coming out infinite.
-/

namespace RuleFlow.Double

variable {x y : Double} {negative : Bool} {num den n : ℕ} {tie : Tie} {k : ℤ} {d : Decimal}

/-! ## Rounding errors -/

/-- A significand with its exponent bounds the sizes of all doubles up to it. -/
theorem size_le_of_magnitudeBits_le {r : ℕ} {e : ℤ} (hlow : 2 ^ 52 ≤ r) (hhigh : r ≤ 2 ^ 53)
    (he : -1074 ≤ e) (h : (x.magnitudeBits : ℤ) ≤ (e + 1074) * 2 ^ 52 + r) :
    x.size ≤ r * 2 ^ e := by
  have hbits := magnitudeBits_eq (x := x)
  have hlt := significand_lt (x := x)
  have hnormal := le_significand_or_exponent_eq (x := x)
  have hlow' : (2 : ℚ) ^ 52 ≤ r := by exact_mod_cast hlow
  have hcases : x.exponent ≤ e - 1 ∨ x.exponent = e ∧ x.significand ≤ r ∨
      x.exponent = e + 1 ∧ x.significand = 2 ^ 52 ∧ r = 2 ^ 53 := by
    omega
  rw [size]
  rcases hcases with hexp | ⟨hexp, hs⟩ | ⟨hexp, hs, hr⟩
  · calc (x.significand : ℚ) * 2 ^ x.exponent ≤ 2 ^ 53 * 2 ^ (e - 1) := by
          gcongr
          · exact_mod_cast hlt.le
          · norm_num
      _ = 2 ^ 52 * 2 ^ e := by rw [zpow_sub_one₀ two_ne_zero]; ring
      _ ≤ r * 2 ^ e := by gcongr
  · rw [hexp]
    gcongr
  · rw [hexp, hs, hr, zpow_add_one₀ two_ne_zero]
    push_cast
    exact (by ring : _ = _).le

/-- Rounding does not pass the size of a double upwards. -/
theorem magnitudeBits_ofRatio_le_of_le_size (hden : den ≠ 0) (h : (num / den : ℚ) ≤ y.size) :
    (ofRatio negative num den).magnitudeBits ≤ y.magnitudeBits := by
  by_cases hnum : num = 0
  · simp [ofRatio, hnum]
  have hq : (0 : ℚ) < num / den := by positivity
  have hbits := magnitudeBits_eq (x := y)
  have hnormal := le_significand_or_exponent_eq (x := y)
  have hbound := neg_le_exponent (x := y)
  have hlog : Int.log 2 (num / den : ℚ) < y.exponent + 53 := by
    refine (Int.lt_zpow_iff_log_lt one_lt_two hq).mp ?_
    calc (num / den : ℚ) ≤ y.significand * 2 ^ y.exponent := h
      _ < 2 ^ 53 * 2 ^ y.exponent := by gcongr; exact_mod_cast significand_lt
      _ = ((2 : ℕ) : ℚ) ^ (y.exponent + 53) := two_pow_mul_zpow 53 y.exponent
  have hlt := Int.lt_zpow_succ_log_self (b := 2) one_lt_two (num / den : ℚ)
  have he := ratioExponent_eq hnum hden
  set e := ratioExponent num den
  have hround : roundRatio (num * 2 ^ (-e).toNat) (den * 2 ^ e.toNat) ≤ 2 ^ 53 := by
    refine roundRatio_shift_le hden (hlt.le.trans ?_)
    rw [Nat.cast_pow, Nat.cast_ofNat, two_pow_mul_zpow]
    exact zpow_le_zpow_right₀ (by norm_num) (by push_cast; omega)
  -- the ratio has its last place where the double has it, or at a lower place
  have hle : (e + 1074).toNat * 2 ^ 52 +
      roundRatio (num * 2 ^ (-e).toNat) (den * 2 ^ e.toNat) ≤ y.magnitudeBits := by
    obtain hlast | hlast : e = y.exponent ∨ e < y.exponent := by omega
    · have hsize : (num / den : ℚ) ≤ y.significand * 2 ^ e := h.trans_eq (by rw [size, hlast])
      have := roundRatio_shift_le hden hsize
      omega
    · omega
  rw [ofRatio, if_neg hnum, magnitudeBits_ofMagnitude]
  exact (min_le_left ..).trans hle

/-- Rounding to an integer adds a half at most. -/
theorem roundRatio_le_add_half (hden : den ≠ 0) :
    (roundRatio num den : ℚ) ≤ num / den + 1 / 2 := by
  have hden' : (0 : ℚ) < den := by positivity
  have hsplit : (num / den : ℚ) = (num / den : ℕ) + (num % den : ℕ) / den := by
    rw [div_eq_iff hden'.ne', add_mul, div_mul_cancel₀ _ hden'.ne']
    exact_mod_cast (Nat.div_add_mod' num den).symm
  have hrest : (0 : ℚ) ≤ (num % den : ℕ) / den := by positivity
  rw [hsplit, roundRatio]
  split
  case isTrue hup =>
    simp only [Bool.or_eq_true, decide_eq_true_eq, Bool.and_eq_true, beq_iff_eq] at hup
    have hhalf : (1 / 2 : ℚ) ≤ (num % den : ℕ) / den := by
      rw [div_le_div_iff₀ two_pos hden']
      exact_mod_cast (by omega : 1 * den ≤ num % den * 2)
    push_cast
    linarith
  case isFalse => linarith

/-- Rounding a ratio adds less than a part in `2 ^ 53`. -/
theorem size_ofRatio_le (h : 1 ≤ (num / den : ℚ)) :
    (ofRatio negative num den).size ≤ num / den * (1 + 1 / 2 ^ 53) := by
  have hnum : num ≠ 0 := by rintro rfl; norm_num at h
  have hden : den ≠ 0 := by rintro rfl; norm_num at h
  have hq : (0 : ℚ) < num / den := by positivity
  have hlog : 0 ≤ Int.log 2 (num / den : ℚ) :=
    (Int.zpow_le_iff_le_log one_lt_two hq).mp (by simpa using h)
  have hle := Int.zpow_log_le_self (b := 2) one_lt_two hq
  have hlt := Int.lt_zpow_succ_log_self (b := 2) one_lt_two (num / den : ℚ)
  have he := ratioExponent_eq hnum hden
  set e := ratioExponent num den
  have hlast : Int.log 2 (num / den : ℚ) = e + (52 : ℕ) := by push_cast; omega
  rw [hlast, Nat.cast_ofNat, ← two_pow_mul_zpow] at hle
  set r := roundRatio (num * 2 ^ (-e).toNat) (den * 2 ^ e.toNat) with hr
  have hlow : 2 ^ 52 ≤ r := le_roundRatio_shift hden (by exact_mod_cast hle)
  have hhigh : r ≤ 2 ^ 53 := by
    refine roundRatio_shift_le hden (hlt.le.trans_eq ?_)
    rw [Nat.cast_pow, Nat.cast_ofNat, two_pow_mul_zpow, hlast]
    push_cast
    ring_nf
  have hbits : ((ofRatio negative num den).magnitudeBits : ℤ) ≤ (e + 1074) * 2 ^ 52 + r := by
    rw [ofRatio, if_neg hnum, magnitudeBits_ofMagnitude]
    change ((Min.min ((e + 1074).toNat * 2 ^ 52 + r) infinityBits : ℕ) : ℤ) ≤ _
    omega
  have hhalf : (r : ℚ) ≤ num / den / 2 ^ e + 1 / 2 := by
    rw [hr, ← ratio_shift]
    exact roundRatio_le_add_half (by positivity)
  calc (ofRatio negative num den).size ≤ r * 2 ^ e :=
        size_le_of_magnitudeBits_le hlow hhigh (by omega) hbits
    _ ≤ (num / den / 2 ^ e + 1 / 2) * 2 ^ e := by gcongr
    _ = num / den + 2 ^ e / 2 := by field_simp
    _ ≤ num / den + num / den / 2 ^ 52 / 2 := by
        gcongr
        rw [le_div_iff₀ (by positivity), mul_comm]
        exact_mod_cast hle
    _ = num / den * (1 + 1 / 2 ^ 53) := by ring

/-! ## Products -/

/-- The last place of the greatest doubles. -/
def topUnit : ℚ := 2 ^ 971

/-- The last place of the greatest doubles is a positive number. -/
theorem topUnit_pos : 0 < topUnit := by
  rw [topUnit]
  positivity

theorem size_greatest : size ⟨0x7fefffffffffffff⟩ = (2 ^ 53 - 1) * topUnit := by
  have hs : significand ⟨0x7fefffffffffffff⟩ = 2 ^ 53 - 1 := by decide
  have he : exponent ⟨0x7fefffffffffffff⟩ = (971 : ℕ) := by decide
  rw [size, hs, he, zpow_natCast, topUnit]
  norm_num

/-- A quotient up to the greatest double is rounded to a finite one. -/
theorem isFinite_ofRatio (hden : den ≠ 0) (h : (num / den : ℚ) ≤ (2 ^ 53 - 1) * topUnit) :
    (ofRatio negative num den).isFinite = true :=
  isFinite_iff.mpr (lt_of_le_of_lt
    (magnitudeBits_ofRatio_le_of_le_size (y := ⟨0x7fefffffffffffff⟩) hden (size_greatest ▸ h))
    (by decide))

/-- A product is finite if the product of the sizes is no more than the greatest double. -/
theorem isFinite_mul (hx : x.isFinite = true) (hy : y.isFinite = true)
    (h : x.size * y.size ≤ (2 ^ 53 - 1) * topUnit) : (x.mul y).isFinite = true := by
  have hxNaN : x.isNaN = false := by simp [isNaN, hx]
  have hyNaN : y.isNaN = false := by simp [isNaN, hy]
  have hratio := ratio_shift (x.significand * y.significand) 1 (-(x.exponent + y.exponent))
  rw [neg_neg, one_mul] at hratio
  have hsize : ((x.significand * y.significand * 2 ^ (x.exponent + y.exponent).toNat : ℕ) : ℚ) /
      (2 ^ (-(x.exponent + y.exponent)).toNat : ℕ) = x.size * y.size := by
    rw [hratio, size, size, zpow_neg, zpow_add₀ two_ne_zero]
    push_cast
    field_simp
  rw [mul, combine, if_neg (by simp [hxNaN]), if_neg (by simp [hyNaN])]
  simp only [isInfinite, hx, hy, Bool.not_true, Bool.false_and, Bool.or_self, Bool.false_eq_true,
    if_false]
  exact isFinite_ofRatio (by positivity) (hsize ▸ h)

/-! ## Grids -/

/-- A unit of the double's neighbourhood, measured together with a step of a grid. -/
def gridUnit (x : Double) (k : ℤ) : ℕ := 2 ^ (x.exponent - 2).toNat * 10 ^ (-k).toNat

/-- A step of a grid, measured together with a unit of the double's neighbourhood. -/
def gridStep (x : Double) (k : ℤ) : ℕ := 2 ^ (-(x.exponent - 2)).toNat * 10 ^ k.toNat

/-- A point of a grid rounds to the double. -/
def admits (x : Double) (k : ℤ) (n : ℕ) : Bool :=
  if x.significand % 2 = 0 then
    x.neighbourhood.1 * x.gridUnit k ≤ n * x.gridStep k &&
      n * x.gridStep k ≤ (4 * x.significand + 2) * x.gridUnit k
  else
    x.neighbourhood.1 * x.gridUnit k < n * x.gridStep k &&
      n * x.gridStep k < (4 * x.significand + 2) * x.gridUnit k

/-- The last point of a grid that is not above the double. -/
def floorOn (x : Double) (k : ℤ) : ℕ := 4 * x.significand * x.gridUnit k / x.gridStep k

/-- Of the two points of a grid around a double one is chosen that stands for it, the upper one only
if it is the nearer or the lower one does not. -/
theorem onGrid?_eq (tie : Tie) (x : Double) (k : ℤ) : ∃ upper : Bool, x.onGrid? tie k =
    if x.admits k (x.floorOn k) && !(upper && x.admits k (x.floorOn k + 1)) then
      some ⟨x.floorOn k, k⟩
    else if x.admits k (x.floorOn k + 1) then some ⟨x.floorOn k + 1, k⟩
    else none :=
  ⟨_, rfl⟩

/-- What is found on a grid is a point of the grid that stands for the double. -/
theorem admits_of_onGrid? (h : x.onGrid? tie k = some d) :
    d.exponent = k ∧ x.admits k d.digits = true := by
  obtain ⟨upper, hgrid⟩ := onGrid?_eq tie x k
  rw [hgrid] at h
  split at h
  case isTrue hbelow =>
    cases h
    exact ⟨rfl, (Bool.and_eq_true_iff.mp hbelow).1⟩
  case isFalse =>
    split at h
    case isTrue habove => cases h; exact ⟨rfl, habove⟩
    case isFalse => cases h

/-- If the lower point stands for the double, the grid has a point for it. -/
theorem isSome_onGrid? (tie : Tie) (h : x.admits k (x.floorOn k) = true) :
    (x.onGrid? tie k).isSome = true := by
  obtain ⟨upper, hgrid⟩ := onGrid?_eq tie x k
  rw [hgrid, h]
  cases upper <;> cases x.admits k (x.floorOn k + 1) <;> rfl

theorem zpow_eq_div (b : ℚ) (k : ℤ) : b ^ k = b ^ k.toNat / b ^ (-k).toNat := by
  obtain ⟨n, rfl | rfl⟩ := k.eq_nat_or_neg <;> simp

/-- Powers of ten and of two are compared in whole numbers. -/
theorem mul_ten_zpow_le_iff {m n : ℕ} {k e : ℤ} : (m : ℚ) * 10 ^ k ≤ n * 2 ^ e ↔
    m * (2 ^ (-e).toNat * 10 ^ k.toNat) ≤ n * (2 ^ e.toNat * 10 ^ (-k).toNat) := by
  rw [zpow_eq_div 10, zpow_eq_div 2, mul_div_assoc', mul_div_assoc',
    div_le_div_iff₀ (by positivity) (by positivity)]
  constructor <;> intro h
  · have h' : m * 10 ^ k.toNat * 2 ^ (-e).toNat ≤ n * 2 ^ e.toNat * 10 ^ (-k).toNat := by
      exact_mod_cast h
    linarith
  · have h' : m * 10 ^ k.toNat * 2 ^ (-e).toNat ≤ n * 2 ^ e.toNat * 10 ^ (-k).toNat := by
      linarith
    exact_mod_cast h'

/-- A point that stands for a double is no further from it than half the way to its neighbours. -/
theorem bounds_of_admits (h : x.admits k n = true) :
    x.neighbourhood.1 * x.gridUnit k ≤ n * x.gridStep k ∧
      n * x.gridStep k ≤ (4 * x.significand + 2) * x.gridUnit k := by
  rw [admits] at h
  split at h
  · simpa using h
  · obtain ⟨hlow, hhigh⟩ : _ ∧ _ := by simpa using h
    exact ⟨hlow.le, hhigh.le⟩

/-- So it is at most half a unit of the last place above the double. -/
theorem le_of_admits (h : x.admits k n = true) :
    (n : ℚ) * 10 ^ k ≤ (x.significand + 1 / 2) * 2 ^ x.exponent :=
  calc (n : ℚ) * 10 ^ k ≤ (4 * x.significand + 2 : ℕ) * 2 ^ (x.exponent - 2) :=
        mul_ten_zpow_le_iff.mpr (bounds_of_admits h).2
    _ = (x.significand + 1 / 2) * 2 ^ x.exponent := by
        rw [zpow_sub₀ two_ne_zero]
        push_cast
        ring

theorem neighbourhood_fst_lt (hx : x.significand ≠ 0) :
    0 < x.neighbourhood.1 ∧ x.neighbourhood.1 < 4 * x.significand := by
  simp only [neighbourhood]
  split <;> omega

theorem gridUnit_pos : 0 < x.gridUnit k := by
  rw [gridUnit]
  positivity

theorem gridStep_pos : 0 < x.gridStep k := by
  rw [gridStep]
  positivity

theorem ne_zero_of_admits (hx : x.significand ≠ 0) (h : x.admits k n = true) : n ≠ 0 := by
  rintro rfl
  have hpos := Nat.mul_pos (neighbourhood_fst_lt hx).1 (gridUnit_pos (x := x) (k := k))
  have := (bounds_of_admits h).1
  omega

/-- A fine grid has a point next to the double. -/
theorem admits_floorOn (hx : x.significand ≠ 0) (hk : (10 : ℚ) ^ k ≤ 2 ^ (x.exponent - 2)) :
    x.admits k (x.floorOn k) = true := by
  have hstep : 1 * x.gridStep k ≤ 1 * x.gridUnit k := mul_ten_zpow_le_iff.mp (by simpa using hk)
  have hunit := gridUnit_pos (x := x) (k := k)
  have hlow := Nat.mul_le_mul_right (x.gridUnit k) (neighbourhood_fst_lt hx).2
  have hdiv := Nat.div_add_mod' (4 * x.significand * x.gridUnit k) (x.gridStep k)
  have hmod := Nat.mod_lt (4 * x.significand * x.gridUnit k) (gridStep_pos (x := x) (k := k))
  rw [Nat.succ_mul] at hlow
  have hbelow : x.neighbourhood.1 * x.gridUnit k < x.floorOn k * x.gridStep k := by
    rw [floorOn]
    omega
  have habove : x.floorOn k * x.gridStep k < (4 * x.significand + 2) * x.gridUnit k := by
    rw [floorOn, add_mul]
    omega
  rw [admits]
  split
  · simpa using ⟨hbelow.le, habove.le⟩
  · simpa using ⟨hbelow, habove⟩

/-! ## The search -/

/-- If one of the grids that are tried has a point, the search comes to a point on a grid. -/
theorem exists_onGrid?_searchGrids {i count : ℕ} (hi : i < count)
    (h : (x.onGrid? tie (k - i)).isSome = true) :
    ∃ k', x.onGrid? tie k' = some (x.searchGrids tie count k) := by
  induction count generalizing i k with
  | zero => omega
  | succ count ih =>
    rw [searchGrids]
    cases hgrid : x.onGrid? tie k with
    | some d => exact ⟨k, hgrid⟩
    | none =>
      cases i with
      | zero => simp [hgrid] at h
      | succ i =>
        refine ih (i := i) (by omega) ?_
        rwa [show k - 1 - (i : ℤ) = k - (i + 1 : ℕ) by push_cast; ring]

/-- A power of ten is below a power of two: `2 ^ 93 ≤ 10 ^ 28 ≤ 2 ^ 94`. -/
theorem ten_zpow_le_two_zpow {k e : ℤ} (hup : 94 * k ≤ 28 * e) (hdown : 93 * k ≤ 28 * e) :
    (10 : ℚ) ^ k ≤ 2 ^ e := by
  have hswap (b : ℚ) (k : ℤ) (n : ℕ) : (b ^ k) ^ n = (b ^ n) ^ k := by
    rw [← zpow_natCast, ← zpow_natCast, ← zpow_mul, ← zpow_mul, mul_comm]
  have hpower (n : ℕ) (k : ℤ) (h : n * k ≤ 28 * e) : ((2 : ℚ) ^ n) ^ k ≤ (2 ^ 28) ^ e := by
    rw [← zpow_natCast, ← zpow_natCast, ← zpow_mul, ← zpow_mul]
    exact zpow_le_zpow_right₀ one_le_two h
  refine (pow_le_pow_iff_left₀ (by positivity) (by positivity) (by decide : 28 ≠ 0)).mp ?_
  rw [hswap, hswap]
  obtain ⟨n, rfl | rfl⟩ := k.eq_nat_or_neg
  · calc ((10 : ℚ) ^ 28) ^ (n : ℤ) ≤ (2 ^ 94) ^ (n : ℤ) := by
          rw [zpow_natCast, zpow_natCast]
          gcongr
          norm_num
      _ ≤ (2 ^ 28) ^ e := hpower 94 n hup
  · calc ((10 : ℚ) ^ 28) ^ (-(n : ℤ)) ≤ (2 ^ 93) ^ (-(n : ℤ)) := by
          rw [zpow_neg, zpow_neg, zpow_natCast, zpow_natCast]
          gcongr
          norm_num
      _ ≤ (2 ^ 28) ^ e := hpower 93 (-n) hdown

/-- The digits that are written for a double stand for a number next to it. -/
theorem shortest_bounds (hx : x.isFinite = true) (h : x.significand ≠ 0) (tie : Tie) :
    (x.shortest tie).digits ≠ 0 ∧
      ((x.shortest tie).digits : ℚ) * 10 ^ (x.shortest tie).exponent ≤
        (x.significand + 1 / 2) * 2 ^ x.exponent := by
  set lead : ℤ := x.significand.log2 + x.exponent with hlead
  have hlog : x.significand.log2 < 53 := (Nat.log2_lt h).mpr significand_lt
  have hlow := neg_le_exponent (x := x)
  have hhigh : x.exponent ≤ 971 := by
    have hbits := magnitudeBits_eq (x := x)
    have hnormal := le_significand_or_exponent_eq (x := x)
    have hlt := isFinite_iff.mp hx
    rw [infinityBits] at hlt
    omega
  have hk : (10 : ℚ) ^ (lead * 30103 / 100000 + 2 - (23 : ℕ)) ≤ 2 ^ (x.exponent - 2) :=
    ten_zpow_le_two_zpow (by omega) (by omega)
  have hfound := isSome_onGrid? tie (admits_floorOn h hk)
  obtain ⟨k, hgrid⟩ := exists_onGrid?_searchGrids (by decide : 23 < 24) hfound
  obtain ⟨hexponent, hadmits⟩ := admits_of_onGrid? hgrid
  exact ⟨ne_zero_of_admits h hadmits, hexponent ▸ le_of_admits hadmits⟩

end RuleFlow.Double
