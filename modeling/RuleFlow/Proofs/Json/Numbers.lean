import RuleFlow.Proofs.Double.Printing
import RuleFlow.Proofs.Json.Reading

/-!
# Numbers that are written can be read

The text of a finite double is read as a number, perhaps as a neighbour of the double: what is read
is the product of two rounded numbers.  The text has the form of a number, with a point or an
exponent, and the only other thing that could go wrong is that the product is infinite.  It is not,
because rounding adds too little; only for the three greatest doubles this has to be looked up.
-/

namespace RuleFlow

open Json

/-! ## Sizes -/

namespace Double

variable {x : Double}

theorem significand_ne_zero (h : x.isZero = false) : x.significand ≠ 0 := by
  intro hs
  have hbits := magnitudeBits_eq (x := x)
  have hnormal := le_significand_or_exponent_eq (x := x)
  simp only [isZero, beq_eq_false_iff_ne] at h
  omega

/-- An integer no greater than the greatest double is rounded to a finite one. -/
theorem isFinite_ofNat_of_le {n : ℕ} (h : (n : ℚ) ≤ (2 ^ 53 - 1) * topUnit) :
    (ofNat n).isFinite = true :=
  isFinite_ofRatio one_ne_zero (by rwa [Nat.cast_one, div_one])

/-- Rounding adds one part in `2 ^ 53` at most. -/
theorem size_ofNat_le {n : ℕ} (hn : n ≠ 0) : (ofNat n).size ≤ n * (1 + 1 / 2 ^ 53) := by
  have hone : (1 : ℚ) ≤ n / (1 : ℕ) := by
    rw [Nat.cast_one, div_one]
    exact_mod_cast Nat.one_le_iff_ne_zero.mpr hn
  have hsize : (ofNat n).size ≤ n / (1 : ℕ) * (1 + 1 / 2 ^ 53) := size_ofRatio_le hone
  rwa [Nat.cast_one, div_one] at hsize

/-- A number of this size can be rounded twice and is still finite. -/
def safeSize : ℚ := (2 ^ 53 - 7 / 2) * topUnit

theorem safeSize_pos : 0 < safeSize := mul_pos (by norm_num) topUnit_pos

theorem safeSize_lt : safeSize < 2 ^ 53 * topUnit :=
  mul_lt_mul_of_pos_right (by norm_num) topUnit_pos

/-- What two roundings make of it. -/
theorem safeSize_mul_le : safeSize * (1 + 1 / 2 ^ 53) ^ 2 ≤ (2 ^ 53 - 1) * topUnit := by
  have hpos := topUnit_pos
  calc safeSize * (1 + 1 / 2 ^ 53) ^ 2 = (2 ^ 53 - 7 / 2) * (1 + 1 / 2 ^ 53) ^ 2 * topUnit := by
        rw [safeSize]
        ring
    _ ≤ (2 ^ 53 - 1) * topUnit := by gcongr; norm_num

/-- Below the three greatest doubles the number next to a double has room to be rounded twice. -/
theorem add_half_le_of_magnitudeBits (h : x.magnitudeBits + 4 ≤ infinityBits) :
    (x.significand + 1 / 2 : ℚ) * 2 ^ x.exponent ≤ safeSize := by
  have hbits := magnitudeBits_eq (x := x)
  have hlt := significand_lt (x := x)
  have hcases : x.exponent = 971 ∧ x.significand + 4 ≤ 2 ^ 53 ∨ x.exponent ≤ 971 - 1 := by
    rw [infinityBits] at h
    have := le_significand_or_exponent_eq (x := x)
    omega
  have htop : (2 : ℚ) ^ (971 : ℤ) = topUnit := zpow_natCast 2 971
  have hpos := topUnit_pos
  obtain ⟨hexponent, hs⟩ | hexponent := hcases
  · have hs' : (x.significand : ℚ) + 4 ≤ 2 ^ 53 := by exact_mod_cast hs
    rw [hexponent, htop, safeSize]
    gcongr
    linarith only [hs']
  · have hs' : (x.significand : ℚ) + 1 ≤ 2 ^ 53 := by exact_mod_cast hlt
    have hpower : (2 : ℚ) ^ x.exponent ≤ 2 ^ (971 - 1 : ℤ) :=
      zpow_le_zpow_right₀ one_le_two hexponent
    calc (x.significand + 1 / 2 : ℚ) * 2 ^ x.exponent ≤ 2 ^ 53 * 2 ^ (971 - 1 : ℤ) :=
          mul_le_mul (by linarith only [hs']) hpower (by positivity) (by positivity)
      _ = 2 ^ 52 * topUnit := by rw [zpow_sub_one₀ two_ne_zero, htop]; ring
      _ ≤ safeSize := by rw [safeSize]; gcongr; norm_num

end Double

namespace Json

variable {s r rest ds : List Char} {negative : Bool} {m n : ℕ} {e : ℤ} {x : Double}

/-- A power of ten that has room to be rounded twice is one of those that a table of doubles
holds. -/
theorem lt_of_ten_pow_le (h : (10 : ℚ) ^ n ≤ Double.safeSize) : n < 309 := by
  by_contra hn
  have hcast (a b c : ℕ) (h : 2 ^ a * 2 ^ b < 10 ^ c) : (2 : ℚ) ^ a * 2 ^ b < 10 ^ c := by
    exact_mod_cast h
  have hlt : 2 ^ 53 * Double.topUnit < 10 ^ 309 := hcast 53 971 309 (by decide +kernel)
  have hle : (10 : ℚ) ^ 309 ≤ 10 ^ n := pow_le_pow_right₀ (by norm_num) (not_lt.mp hn)
  exact (hle.trans h).not_gt (Double.safeSize_lt.trans hlt)

/-- The product of a rounded significand and a rounded power of ten is finite, if there is room for
both roundings. -/
theorem isFinite_mul_ten_pow (hm0 : m ≠ 0) (hm : m ≤ significandLimit)
    (h : (m : ℚ) * 10 ^ n ≤ Double.safeSize) :
    ((Double.ofNat m).mul (Double.ofNat (10 ^ n))).isFinite = true := by
  have hone : (1 : ℚ) ≤ m := by exact_mod_cast Nat.one_le_iff_ne_zero.mpr hm0
  have hpower : (10 : ℚ) ^ n ≤ Double.safeSize :=
    (le_mul_of_one_le_left (by positivity) hone).trans h
  refine Double.isFinite_mul (isFinite_ofNat hm) (Double.isFinite_ofNat_of_le ?_) ?_
  · push_cast
    exact hpower.trans ((le_mul_of_one_le_right Double.safeSize_pos.le (by norm_num)).trans
      Double.safeSize_mul_le)
  · have hsize := Double.size_ofNat_le hm0
    have hsize' := Double.size_ofNat_le (n := 10 ^ n) (by positivity)
    push_cast at hsize'
    calc (Double.ofNat m).size * (Double.ofNat (10 ^ n)).size
        ≤ m * (1 + 1 / 2 ^ 53) * (10 ^ n * (1 + 1 / 2 ^ 53)) :=
          mul_le_mul hsize hsize' (Double.size_nonneg _) (by positivity)
      _ = m * 10 ^ n * (1 + 1 / 2 ^ 53) ^ 2 := by ring
      _ ≤ Double.safeSize * (1 + 1 / 2 ^ 53) ^ 2 := by gcongr
      _ ≤ (2 ^ 53 - 1) * Double.topUnit := Double.safeSize_mul_le

/-- A number with room to be rounded twice is assembled. -/
theorem exists_assembleReal (negative : Bool) (hm : m ≤ significandLimit)
    (h : (m : ℚ) * 10 ^ e ≤ Double.safeSize) : ∃ x, assembleReal negative m e = .ok x := by
  unfold assembleReal
  extract_lets size sign product
  split
  case isTrue => exact ⟨_, rfl⟩
  split
  case isTrue => exact ⟨_, rfl⟩
  case _ hup hzero =>
    obtain ⟨n, rfl⟩ := Int.eq_ofNat_of_zero_le (not_lt.mp hup)
    have hm0 : m ≠ 0 := by
      rintro rfl
      exact hzero (by decide)
    have hone : (1 : ℚ) ≤ m := by exact_mod_cast Nat.one_le_iff_ne_zero.mpr hm0
    rw [zpow_natCast] at h
    have hn := lt_of_ten_pow_le ((le_mul_of_one_le_left (by positivity) hone).trans h)
    have hfinite : product.isFinite = true := isFinite_mul_ten_pow hm0 hm h
    rw [if_neg (by omega), if_pos hfinite]
    exact ⟨_, rfl⟩

/-! ## Digits -/

/-- With each further digit a number grows tenfold at least. -/
theorem mul_ten_pow_le_ofDigitChars : m * 10 ^ ds.length ≤ Nat.ofDigitChars 10 ds m := by
  rw [Nat.ofDigitChars_eq_ofDigitChars_zero, mul_comm]
  exact Nat.le_add_right ..

/-- The first digits of a number are as small as their count allows. -/
theorem ofDigitChars_lt_of_append (ws fs : List Char) {k : ℕ}
    (h : Nat.ofDigitChars 10 (ws ++ fs) 0 < 10 ^ (k + fs.length)) :
    Nat.ofDigitChars 10 ws 0 < 10 ^ k := by
  rw [Nat.ofDigitChars_append, pow_add] at h
  exact Nat.lt_of_mul_lt_mul_right (mul_ten_pow_le_ofDigitChars.trans_lt h)

/-- A number is less than the power of ten with as many zeros as the number has digits. -/
theorem lt_ten_pow_length_digitsOf (n : ℕ) : n < 10 ^ (digitsOf n).length :=
  (Nat.length_toDigits_le_iff (by decide) Nat.length_toDigits_pos).mp le_rfl

/-! ## Parts of a number -/

theorem dropWhile_isDigit (hds : ∀ c ∈ ds, c.isDigit = true)
    (hrest : ∀ c ∈ rest.head?, c.isDigit = false) :
    (ds ++ rest).dropWhile Char.isDigit = rest := by
  rw [List.dropWhile_append_of_pos hds]
  cases rest with
  | nil => rfl
  | cons c rest => rw [List.dropWhile_cons_of_neg (by simp [hrest c rfl])]

/-- What is collected of the digits after the point is not above the number that they give. -/
theorem fractionDigits_of_isDigit (hds : ∀ c ∈ ds, c.isDigit = true)
    (hrest : ∀ c ∈ rest.head?, c.isDigit = false) :
    ∃ (m' : ℕ) (e' : ℤ), fractionDigits m e (ds ++ rest) = (m', e', rest) ∧
      (m' : ℚ) * 10 ^ e' ≤ Nat.ofDigitChars 10 ds m * 10 ^ (e - ds.length) := by
  induction ds generalizing m e with
  | nil =>
    refine ⟨m, e, ?_, by simp⟩
    cases rest with
    | nil => rfl
    | cons c rest => simp [fractionDigits, hrest c rfl]
  | cons c ds ih =>
    have hds' : ∀ c ∈ ds, c.isDigit = true := fun d hd => hds d (by simp [hd])
    rw [List.cons_append, fractionDigits, if_pos (hds c (by simp))]
    dsimp only
    split
    case isTrue =>
      refine ⟨m, e, by rw [dropWhile_isDigit hds' hrest], ?_⟩
      have hle : (m * 10 ^ (c :: ds).length : ℚ) ≤ Nat.ofDigitChars 10 (c :: ds) m := by
        exact_mod_cast mul_ten_pow_le_ofDigitChars
      calc (m : ℚ) * 10 ^ e
          = m * 10 ^ (c :: ds).length * 10 ^ (e - (c :: ds).length) := by
            rw [mul_assoc, ← zpow_natCast, ← zpow_add₀ (by norm_num), add_sub_cancel]
        _ ≤ Nat.ofDigitChars 10 (c :: ds) m * 10 ^ (e - (c :: ds).length) := by gcongr
    case isFalse =>
      obtain ⟨m', e', hread, hle⟩ := ih (m := m * 10 + digitValue c) (e := e - 1) hds'
      refine ⟨m', e', hread, hle.trans_eq ?_⟩
      rw [Nat.ofDigitChars_cons, mul_ten_add_digitValue, List.length_cons]
      congr 2
      push_cast
      ring

theorem exponentDigits_of_isDigit (hds : ∀ c ∈ ds, c.isDigit = true) :
    exponentDigits m ds = (Nat.ofDigitChars 10 ds m, []) := by
  induction ds generalizing m with
  | nil => rfl
  | cons c ds ih =>
    rw [exponentDigits, if_pos (hds c (by simp)), mul_ten_add_digitValue, Nat.ofDigitChars_cons]
    exact ih fun d hd => hds d (by simp [hd])

/-- After its sign, a written exponent completes the number. -/
theorem exponentAfterSign_digitsOf (down : Bool) (n : ℕ) :
    exponentAfterSign negative m e down (digitsOf n) =
      (assembleReal negative m (if down then e - n else e + n)).map (·, []) := by
  have hdigits := (isWhole_digitsOf n).isDigit
  have hread : exponentDigits 0 (digitsOf n) = (n, []) := by
    rw [exponentDigits_of_isDigit hdigits, digitsOf, Nat.ofDigitChars_ten_toDigits]
  obtain ⟨c, t, hs⟩ := List.exists_cons_of_ne_nil (isWhole_digitsOf n).ne_nil
  rw [hs] at hdigits hread ⊢
  rw [exponentAfterSign, if_pos (hdigits c (by simp)), hread]
  rfl

/-- The text ends, or ends with an exponent: `k` is added to the exponent of the digits before. -/
structure EndsWith (s : List Char) (k : ℤ) : Prop where
  head : ∀ c ∈ s.head?, c.isDigit = false
  afterDigits : ∀ negative m e,
    afterDigits negative m e s = (assembleReal negative m (e + k)).map (·, [])

theorem endsWith_nil : EndsWith [] 0 where
  head := nofun
  afterDigits := fun _ _ e => by rw [add_zero, afterDigits_of_head? (by simp) (by simp)]

/-- An exponent with its sign, behind the letter. -/
def signedExponent (k : ℤ) : List Char := (if k < 0 then '-' else '+') :: digitsOf k.natAbs

/-- An exponent that is written with its sign is read with it. -/
theorem endsWith_signedExponent (k : ℤ) : EndsWith ('e' :: signedExponent k) k where
  head := by simp
  afterDigits := fun negative m e => by
    rw [Json.afterDigits, signedExponent]
    split
    case isTrue hneg =>
      rw [exponentPart_minus, exponentAfterSign_digitsOf, if_pos rfl]
      congr 2
      omega
    case isFalse hneg =>
      rw [exponentPart_plus, exponentAfterSign_digitsOf, if_neg Bool.false_ne_true]
      congr 2
      omega

/-! ## Numbers with a point or an exponent -/

section unsigned

variable {ws fs : List Char} {k : ℤ} {d : Decimal}

/-- Behind the digits of a number that has room to be rounded twice, its end is read. -/
theorem exists_afterDigits (negative : Bool) (hend : EndsWith s k) (hm : m ≤ significandLimit)
    (h : (m : ℚ) * 10 ^ (e + k) ≤ Double.safeSize) :
    ∃ x, afterDigits negative m e s = .ok (x, []) := by
  obtain ⟨x, hx⟩ := exists_assembleReal negative hm h
  exact ⟨x, by rw [hend.afterDigits, hx]; rfl⟩

/-- Digits, a point and more digits, perhaps with an exponent, are read if the number has room to be
rounded twice. -/
theorem exists_unsigned_point (hws : IsWhole ws)
    (hlimit : Nat.ofDigitChars 10 ws 0 ≤ significandLimit) (hfs : ∀ c ∈ fs, c.isDigit = true)
    (hne : fs ≠ []) (hend : EndsWith s k)
    (h : (Nat.ofDigitChars 10 (ws ++ fs) 0 : ℚ) * 10 ^ (k - fs.length) ≤ Double.safeSize) :
    ∃ x, unsigned negative (ws ++ '.' :: (fs ++ s)) = .ok (.real x, []) := by
  obtain ⟨m, e, hread, hle⟩ := fractionDigits_of_isDigit
    (m := Nat.ofDigitChars 10 ws 0) (e := 0) hfs hend.head
  have hm : m ≤ significandLimit := by
    have := fractionDigits_le (e := 0) (s := fs ++ s) hlimit
    rwa [hread] at this
  have hsize : (m : ℚ) * 10 ^ (e + k) ≤ Double.safeSize :=
    calc (m : ℚ) * 10 ^ (e + k) = m * 10 ^ e * 10 ^ k := by
          rw [zpow_add₀ (by norm_num), mul_assoc]
      _ ≤ Nat.ofDigitChars 10 fs (Nat.ofDigitChars 10 ws 0) * 10 ^ (0 - (fs.length : ℤ)) *
          10 ^ k := by gcongr
      _ = Nat.ofDigitChars 10 (ws ++ fs) 0 * 10 ^ (k - fs.length) := by
        rw [Nat.ofDigitChars_append, mul_assoc, ← zpow_add₀ (by norm_num)]
        congr 2
        omega
      _ ≤ Double.safeSize := h
  obtain ⟨x, hx⟩ := exists_afterDigits negative hend hm hsize
  refine ⟨x, ?_⟩
  obtain ⟨c, fs, rfl⟩ := List.exists_cons_of_ne_nil hne
  rw [List.cons_append] at hread
  rw [unsigned_of_isWhole hws (by simp) hlimit, afterWhole, List.cons_append, fractionPart,
    if_pos (hfs c (by simp)), Nat.cast_zero, hread]
  exact congrArg (· >>= _) hx

/-- Digits with an exponent are read if the number has room to be rounded twice. -/
theorem exists_unsigned_exponent (hws : IsWhole ws)
    (hlimit : Nat.ofDigitChars 10 ws 0 ≤ significandLimit)
    (h : (Nat.ofDigitChars 10 ws 0 : ℚ) * 10 ^ k ≤ Double.safeSize) :
    ∃ x, unsigned negative (ws ++ 'e' :: signedExponent k) = .ok (.real x, []) := by
  have hend := endsWith_signedExponent k
  obtain ⟨x, hx⟩ := exists_afterDigits negative (e := 0) hend hlimit (by rwa [zero_add])
  refine ⟨x, ?_⟩
  rw [unsigned_of_isWhole hws hend.head hlimit, afterWhole, if_neg (by simp), Nat.cast_zero]
  · exact congrArg (· >>= _) hx
  · simp

end unsigned

/-! ## Decimals -/

section decimal

variable {d : Decimal}

/-- Scientific notation, one digit before the point or no point at all, is read if the decimal has
room to be rounded twice. -/
theorem exists_unsigned_scientific (negative : Bool)
    (h : (d.digits : ℚ) * 10 ^ d.exponent ≤ Double.safeSize) :
    ∃ x, unsigned negative d.scientific = .ok (.real x, []) := by
  obtain ⟨c, cs, hs⟩ := List.exists_cons_of_ne_nil (isWhole_digitsOf d.digits).ne_nil
  have hdigits : ∀ c' ∈ c :: cs, c'.isDigit = true := hs ▸ (isWhole_digitsOf d.digits).isDigit
  have hvalue : Nat.ofDigitChars 10 ([c] ++ cs) 0 = d.digits := by
    rw [List.singleton_append, ← hs]
    exact Nat.ofDigitChars_ten_toDigits
  have hlt := lt_ten_pow_length_digitsOf d.digits
  have hmagnitude : d.magnitude = d.exponent + cs.length := by simp [Decimal.magnitude, hs]
  have hwhole : IsWhole [c] :=
    ⟨by simp, by simpa using hdigits c (by simp), fun hhead => by simpa using hhead⟩
  have hlimit : Nat.ofDigitChars 10 [c] 0 ≤ significandLimit := by
    have := ofDigitChars_lt_of_append [c] cs (k := 1) <| by
      rwa [hvalue, add_comm, ← List.length_cons, ← hs]
    exact (Nat.lt_of_lt_of_le this (by decide)).le
  have htext : d.scientific =
      if cs = [] then [c] ++ 'e' :: signedExponent d.magnitude
      else [c] ++ '.' :: (cs ++ 'e' :: signedExponent d.magnitude) := by
    rw [Decimal.scientific, hs]
    cases cs <;> rfl
  rw [htext]
  split
  case isTrue hcs =>
    subst hcs
    refine exists_unsigned_exponent hwhole hlimit ?_
    rw [List.append_nil] at hvalue
    rwa [hvalue, hmagnitude, List.length_nil, Nat.cast_zero, add_zero]
  case isFalse hcs =>
    refine exists_unsigned_point hwhole hlimit (fun c' hc' => hdigits c' (by simp [hc'])) hcs
      (endsWith_signedExponent _) ?_
    rwa [hvalue, hmagnitude, add_sub_cancel_right]

/-- A whole number gets a point and a zero. -/
theorem exists_unsigned_whole (negative : Bool) (hd : d.digits ≠ 0) (hexponent : 0 ≤ d.exponent)
    (hmagnitude : d.magnitude ≤ 15) (h : (d.digits : ℚ) * 10 ^ d.exponent ≤ Double.safeSize) :
    ∃ x, unsigned negative (d.positional ++ ['.', '0']) = .ok (.real x, []) := by
  obtain ⟨i, hi⟩ := Int.eq_ofNat_of_zero_le hexponent
  have hpos : 0 < (digitsOf d.digits).length := Nat.length_toDigits_pos
  set ws := digitsOf d.digits ++ List.replicate i '0' with hws
  have hvalue : Nat.ofDigitChars 10 ws 0 = d.digits * 10 ^ i := by
    rw [hws, Nat.ofDigitChars_append, Nat.ofDigitChars_replicate_zero, digitsOf,
      Nat.ofDigitChars_ten_toDigits, mul_comm]
  have hwhole : IsWhole ws := by
    refine ⟨by simp [hws, (isWhole_digitsOf d.digits).ne_nil], fun c hc => ?_, fun hhead => ?_⟩
    · rcases List.mem_append.mp hc with hc | hc
      · exact isDigit_of_mem_digitsOf hc
      · rw [List.eq_of_mem_replicate hc]
        rfl
    · rw [hws, List.head?_append_of_ne_nil _ (isWhole_digitsOf d.digits).ne_nil] at hhead
      exact absurd hhead (head?_toDigits_ne_zero hd)
  have hlimit : Nat.ofDigitChars 10 ws 0 ≤ significandLimit := by
    have hlength : (digitsOf d.digits).length + i ≤ 16 := by
      rw [Decimal.magnitude] at hmagnitude
      omega
    calc Nat.ofDigitChars 10 ws 0 = d.digits * 10 ^ i := hvalue
      _ ≤ 10 ^ (digitsOf d.digits).length * 10 ^ i := by
        gcongr
        exact (lt_ten_pow_length_digitsOf _).le
      _ ≤ 10 ^ 16 := by rw [← pow_add]; exact Nat.pow_le_pow_right (by decide) hlength
      _ ≤ significandLimit := by decide
  have htext : d.positional ++ ['.', '0'] = ws ++ '.' :: (['0'] ++ []) := by
    simp [Decimal.positional, hi, hws]
  rw [htext]
  refine exists_unsigned_point hwhole hlimit (by simp) (by simp) endsWith_nil (le_of_eq_of_le ?_ h)
  rw [Nat.ofDigitChars_append, hvalue, hi, Nat.ofDigitChars_cons, Nat.ofDigitChars_nil,
    Nat.sub_self, List.length_singleton, zpow_natCast, zero_sub, Nat.cast_one, zpow_neg_one]
  push_cast
  ring

/-- Digits with enough zeros before them for one digit before the point. -/
def paddedDigits (n places : ℕ) : List Char :=
  List.replicate (places + 1 - (digitsOf n).length) '0' ++ digitsOf n

theorem lt_length_paddedDigits (n places : ℕ) : places < (paddedDigits n places).length := by
  simp only [paddedDigits, List.length_append, List.length_replicate]
  omega

theorem isDigit_of_mem_paddedDigits {places : ℕ} {c : Char} (hc : c ∈ paddedDigits n places) :
    c.isDigit = true := by
  rcases List.mem_append.mp hc with hc | hc
  · rw [List.eq_of_mem_replicate hc]
    rfl
  · exact isDigit_of_mem_digitsOf hc

theorem ofDigitChars_paddedDigits (n places : ℕ) :
    Nat.ofDigitChars 10 (paddedDigits n places) 0 = n := by
  rw [paddedDigits, Nat.ofDigitChars_append, Nat.ofDigitChars_replicate_zero, mul_zero]
  exact Nat.ofDigitChars_ten_toDigits

/-- What stands before the point is a whole part: it begins with a zero only if it is one. -/
theorem isWhole_take_paddedDigits {places : ℕ} (hplaces : 0 < places) :
    IsWhole ((paddedDigits n places).take ((paddedDigits n places).length - places)) := by
  have hlength := lt_length_paddedDigits n places
  refine ⟨List.ne_nil_of_length_pos (by rw [List.length_take]; omega),
    fun c hc => isDigit_of_mem_paddedDigits (List.mem_of_mem_take hc), fun hhead => ?_⟩
  by_cases hshort : (digitsOf n).length ≤ places
  · -- one digit, which is a zero
    have hone : (paddedDigits n places).length - places = 1 := by
      simp only [paddedDigits, List.length_append, List.length_replicate]
      omega
    obtain ⟨t, ht⟩ := List.head?_eq_some_iff.mp hhead
    have hnil : t.length = 0 := by
      have := congrArg List.length ht
      rw [List.length_take, List.length_cons] at this
      omega
    rw [ht, List.eq_nil_of_length_eq_zero hnil]
  · -- no padding, and more than one digit
    have hpadded : paddedDigits n places = digitsOf n := by
      rw [paddedDigits, Nat.sub_eq_zero_of_le (by omega), List.replicate_zero, List.nil_append]
    rw [hpadded] at hlength hhead ⊢
    rw [List.head?_take, if_neg (by omega)] at hhead
    have := (isWhole_digitsOf n).head hhead
    rw [this, List.length_singleton] at hlength
    omega

/-- A number with places after the point has leading zeros up to the one before the point. -/
theorem exists_unsigned_positional (negative : Bool) (hexponent : d.exponent < 0)
    (hmagnitude : d.magnitude ≤ 15) (h : (d.digits : ℚ) * 10 ^ d.exponent ≤ Double.safeSize) :
    ∃ x, unsigned negative d.positional = .ok (.real x, []) := by
  obtain ⟨places, hplaces⟩ := Int.exists_eq_neg_ofNat hexponent.le
  set padded := paddedDigits d.digits places with hpadded
  have hlength : places < padded.length := lt_length_paddedDigits ..
  set ws := padded.take (padded.length - places)
  set fs := padded.drop (padded.length - places) with hfs
  have hfsLength : fs.length = places := by
    rw [hfs, List.length_drop]
    omega
  have hvalue : Nat.ofDigitChars 10 (ws ++ fs) 0 = d.digits := by
    rw [List.take_append_drop]
    exact ofDigitChars_paddedDigits ..
  have hwhole : IsWhole ws := isWhole_take_paddedDigits (by omega)
  have hlimit : Nat.ofDigitChars 10 ws 0 ≤ significandLimit := by
    have hlt : Nat.ofDigitChars 10 ws 0 < 10 ^ 16 := by
      refine ofDigitChars_lt_of_append ws fs ?_
      rw [hvalue, hfsLength]
      refine (lt_ten_pow_length_digitsOf d.digits).trans_le (Nat.pow_le_pow_right (by decide) ?_)
      rw [Decimal.magnitude] at hmagnitude
      omega
    exact (hlt.trans (by decide)).le
  have htext : d.positional = ws ++ '.' :: (fs ++ []) := by
    rw [Decimal.positional, if_neg (by omega), List.append_nil, hplaces, neg_neg, Int.toNat_natCast]
    rfl
  rw [htext]
  refine exists_unsigned_point hwhole hlimit
    (fun c hc => isDigit_of_mem_paddedDigits (List.mem_of_mem_drop hc))
    (List.ne_nil_of_length_pos (by omega)) endsWith_nil ?_
  rwa [hvalue, hfsLength, zero_sub, ← hplaces]

end decimal

/-! ## Doubles -/

/-- The text of a double without its sign. -/
def sizeText (x : Double) : List Char :=
  if x.isZero then ['0', '.', '0']
  else
    let d := x.shortest .even
    if d.magnitude < -5 || 15 < d.magnitude then d.scientific
    else if 0 ≤ d.exponent then d.positional ++ ['.', '0']
    else d.positional

theorem dataText_eq (x : Double) :
    x.dataText = if x.isNegative then '-' :: sizeText x else sizeText x :=
  rfl

/-- In each of its notations the size of a double is read, up to the three greatest doubles. -/
theorem exists_unsigned_sizeText (negative : Bool) (hx : x.isFinite = true)
    (h : x.magnitudeBits + 4 ≤ Double.infinityBits) :
    ∃ y, unsigned negative (sizeText x) = .ok (.real y, []) := by
  rw [sizeText]
  split
  case isTrue =>
    have hdigits : ∀ c ∈ ['0'], c.isDigit = true := by simp
    have hlimit : Nat.ofDigitChars 10 (digitsOf 0) 0 ≤ significandLimit := by
      rw [digitsOf, Nat.ofDigitChars_ten_toDigits]
      exact Nat.zero_le _
    have hvalue : Nat.ofDigitChars 10 (digitsOf 0 ++ ['0']) 0 = 0 := rfl
    refine exists_unsigned_point (isWhole_digitsOf 0) hlimit hdigits (by simp) endsWith_nil ?_
    rw [hvalue, Nat.cast_zero, zero_mul]
    exact Double.safeSize_pos.le
  case isFalse hzero =>
    have hs := Double.significand_ne_zero (by simpa using hzero)
    obtain ⟨hne, hle⟩ := Double.shortest_bounds hx hs .even
    have hbound := hle.trans (Double.add_half_le_of_magnitudeBits h)
    dsimp only
    split
    case isTrue => exact exists_unsigned_scientific negative hbound
    case isFalse hmagnitude =>
      have hmagnitude : (x.shortest .even).magnitude ≤ 15 := by
        simp only [Bool.or_eq_true, decide_eq_true_eq] at hmagnitude
        omega
      split
      case isTrue hexponent => exact exists_unsigned_whole negative hne hexponent hmagnitude hbound
      case isFalse hexponent =>
        exact exists_unsigned_positional negative (by omega) hmagnitude hbound

/-- The three greatest doubles are looked up. -/
theorem readable_greatest : ∀ (negative : Bool) (i : Fin 3),
    (Number.real (.ofMagnitude negative (Double.infinityBits - 1 - i))).Readable := by
  unfold Number.Readable
  decide +kernel

/-- The text of a finite double is that of a number. -/
theorem Number.readable_real (hx : x.isFinite = true) : (Number.real x).Readable := by
  by_cases hlarge : Double.infinityBits < x.magnitudeBits + 4
  · have hlt := Double.isFinite_iff.mp hx
    obtain ⟨i, hi⟩ : ∃ i : Fin 3, x.magnitudeBits = Double.infinityBits - 1 - i :=
      ⟨⟨Double.infinityBits - 1 - x.magnitudeBits, by omega⟩, by dsimp only; omega⟩
    rw [← Double.ofMagnitude_magnitudeBits hlt.le, hi]
    exact readable_greatest ..
  · obtain ⟨y, hy⟩ := exists_unsigned_sizeText x.isNegative hx (not_lt.mp hlarge)
    have hread : readNumber (Number.real x).text = .ok (.real y, []) := by
      rw [Number.text, if_pos hx, dataText_eq]
      cases hsign : x.isNegative with
      | true =>
        rw [hsign] at hy
        exact hy
      | false =>
        rw [hsign] at hy
        exact readNumber_of_unsigned hy
    rw [Readable, reread, hread]

/-- A number that a JSON value can hold. -/
def Number.Valid : Number → Prop
  | .integer i => -2 ^ 63 ≤ i ∧ i < 2 ^ 64
  | .real x => x.isFinite = true

/-- The text of a number that a JSON value can hold is that of a number. -/
theorem Number.Valid.readable {n : Number} (h : n.Valid) : n.Readable := by
  cases n with
  | integer i =>
    have hback : (Number.integer i).ReadsBack := readNumber_integerText h.1 h.2
    exact hback.readable
  | real x => exact readable_real h

end Json

end RuleFlow
