import Mathlib.Tactic.IntervalCases
import Mathlib.Tactic.Tauto
import RuleFlow.Json.Lexeme
import RuleFlow.Proofs.Double.Rounding

/-!
# Numbers and strings read back

A number is read up to its last character, so what stands behind it matters only if it could carry
the number on; commas, closing brackets and the end of the text cannot (`Follows`).
-/

namespace RuleFlow.Json

variable {s r rest ds : List Char} {negative : Bool} {m n : ℕ} {e : ℤ} {x : Double}

/-- The text ends, or goes on with a comma or a closing bracket. -/
def Follows (rest : List Char) : Prop := ∀ c ∈ rest.head?, c = ',' ∨ c = ']' ∨ c = '\x7d'

theorem follows_nil : Follows [] := nofun

/-- None of these characters carries a number on. -/
theorem Follows.stops (h : Follows rest) :
    ∀ c ∈ rest.head?, c.isDigit = false ∧ c ≠ '.' ∧ c ≠ 'e' ∧ c ≠ 'E' := by
  intro c hc
  rcases h c hc with rfl | rfl | rfl <;> decide

/-- Whether a point or an exponent comes first is not changed by what follows. -/
theorem Follows.head?_append {c : Char} (h : Follows rest) (hc : c = '.' ∨ c = 'e' ∨ c = 'E') :
    (s ++ rest).head? = some c ↔ s.head? = some c := by
  cases s with
  | nil =>
    have hstops : rest.head? ≠ some c := fun hhead => by
      obtain ⟨-, hpoint, he, hE⟩ := h.stops c hhead
      tauto
    simpa using hstops
  | cons d s => simp

/-! ## Runs of digits -/

theorem Follows.dropWhile_isDigit (h : Follows rest) : rest.dropWhile Char.isDigit = rest := by
  cases rest with
  | nil => rfl
  | cons c rest => rw [List.dropWhile_cons_of_neg (by simp [(h.stops c rfl).1])]

theorem Follows.takeWhile_isDigit (h : Follows rest) : rest.takeWhile Char.isDigit = [] := by
  cases rest with
  | nil => rfl
  | cons c rest => rw [List.takeWhile_cons_of_neg (by simp [(h.stops c rfl).1])]

theorem dropWhile_isDigit_append (h : Follows rest) :
    (s ++ rest).dropWhile Char.isDigit = s.dropWhile Char.isDigit ++ rest := by
  rw [List.dropWhile_append, h.dropWhile_isDigit]
  split <;> simp_all

theorem takeWhile_isDigit_append (h : Follows rest) :
    (s ++ rest).takeWhile Char.isDigit = s.takeWhile Char.isDigit := by
  rw [List.takeWhile_append, h.takeWhile_isDigit, List.append_nil]
  split
  case isTrue hlen => exact ((List.takeWhile_prefix _).eq_of_length hlen).symm
  case isFalse => rfl

/-- The digits of an exponent are read up to what follows, which is left over. -/
theorem exponentDigits_append (h : Follows rest) (acc : ℕ) :
    exponentDigits acc (s ++ rest) =
      ((exponentDigits acc s).1, (exponentDigits acc s).2 ++ rest) := by
  induction s generalizing acc with
  | nil =>
    cases rest with
    | nil => rfl
    | cons c rest => simp [exponentDigits, (h.stops c rfl).1]
  | cons c s ih => simp only [List.cons_append, exponentDigits]; split <;> simp_all

/-- The digits after a point are read up to what follows, which is left over. -/
theorem fractionDigits_append (h : Follows rest) :
    fractionDigits m e (s ++ rest) = ((fractionDigits m e s).1,
      (fractionDigits m e s).2.1, (fractionDigits m e s).2.2 ++ rest) := by
  induction s generalizing m e with
  | nil =>
    cases rest with
    | nil => rfl
    | cons c rest => simp [fractionDigits, (h.stops c rfl).1]
  | cons c s ih =>
    simp only [List.cons_append, fractionDigits]
    have := dropWhile_isDigit_append h (s := c :: s)
    split
    · split
      · simp_all
      · exact ih
    · rfl

/-- The digits before a point are read up to what follows, which is left over. -/
theorem wholeDigits_append (h : Follows rest) :
    wholeDigits m (s ++ rest) = ((wholeDigits m s).1,
      (wholeDigits m s).2.1, (wholeDigits m s).2.2 ++ rest) := by
  induction s generalizing m with
  | nil =>
    cases rest with
    | nil => rfl
    | cons c rest => simp [wholeDigits, (h.stops c rfl).1]
  | cons c s ih =>
    simp only [List.cons_append, wholeDigits]
    have := dropWhile_isDigit_append h (s := c :: s)
    have := takeWhile_isDigit_append h (s := c :: s)
    split
    · split
      · simp_all
      · exact ih
    · rfl

/-- Digits are counted in only as long as the significand is a number of 64 bits. -/
theorem wholeDigits_le (hm : m ≤ significandLimit) : (wholeDigits m s).1 ≤ significandLimit := by
  fun_induction wholeDigits m s with
  | case1 m => exact hm
  | case2 m => exact hm
  | case3 m c s _ _ hlt ih => exact ih (by omega)
  | case4 m => exact hm

/-! ## Numbers -/

/-- A chain of readings succeeds through an intermediate result. -/
theorem bind_ok {α β ε : Type} {a : Except ε α} {f : α → Except ε β} {b : β}
    (h : a >>= f = .ok b) : ∃ v, a = .ok v ∧ f v = .ok b := by
  cases a with
  | error e => cases h
  | ok v => exact ⟨v, rfl, h⟩

/-- The digits of an exponent whose sign has been read, and the number that it completes. -/
def exponentAfterSign (negative : Bool) (significand : ℕ) (exponent : ℤ) (down : Bool) :
    Lexer Double
  | [] => .error .endInValue
  | c :: s =>
    if c.isDigit then do
      let (e, r) := exponentDigits 0 (c :: s)
      let x ← assembleReal negative significand (if down then exponent - e else exponent + e)
      pure (x, r)
    else .error .invalidNumber

theorem exponentPart_plus :
    exponentPart negative m e ('+' :: s) = exponentAfterSign negative m e false s := by
  cases s <;> rfl

theorem exponentPart_minus :
    exponentPart negative m e ('-' :: s) = exponentAfterSign negative m e true s := by
  cases s <;> rfl

theorem exponentPart_cons {c : Char} (hplus : c ≠ '+') (hminus : c ≠ '-') :
    exponentPart negative m e (c :: s) = exponentAfterSign negative m e false (c :: s) := by
  simp [exponentPart, exponentAfterSign, hplus, hminus]

/-- After its sign an exponent is read as if nothing followed. -/
theorem exponentAfterSign_append {down : Bool} (hrest : Follows rest)
    (h : exponentAfterSign negative m e down s = .ok (x, r)) :
    exponentAfterSign negative m e down (s ++ rest) = .ok (x, r ++ rest) := by
  cases s with
  | nil => cases h
  | cons c s =>
    have happend := exponentDigits_append hrest (s := c :: s) 0
    simp only [exponentAfterSign, List.cons_append] at h happend ⊢
    split at h
    case isTrue hc =>
      obtain ⟨y, hy, hx⟩ := bind_ok h
      cases hx
      rw [if_pos hc, happend, hy]
      rfl
    case isFalse => cases h

/-- An exponent has a sign that does not depend on what follows the number. -/
theorem exists_exponentAfterSign (h : exponentPart negative m e s = .ok (x, r)) :
    ∃ down t, exponentAfterSign negative m e down t = .ok (x, r) ∧
      ∀ rest, exponentPart negative m e (s ++ rest) =
        exponentAfterSign negative m e down (t ++ rest) := by
  cases s with
  | nil => cases h
  | cons c s =>
    by_cases hplus : c = '+'
    · subst hplus
      exact ⟨false, s, exponentPart_plus ▸ h, fun _ => exponentPart_plus⟩
    by_cases hminus : c = '-'
    · subst hminus
      exact ⟨true, s, exponentPart_minus ▸ h, fun _ => exponentPart_minus⟩
    · exact ⟨false, c :: s, exponentPart_cons hplus hminus ▸ h,
        fun _ => exponentPart_cons hplus hminus⟩

/-- An exponent is read as if nothing followed, with either sign or none. -/
theorem exponentPart_append (hrest : Follows rest)
    (h : exponentPart negative m e s = .ok (x, r)) :
    exponentPart negative m e (s ++ rest) = .ok (x, r ++ rest) := by
  obtain ⟨down, t, ht, happend⟩ := exists_exponentAfterSign h
  rw [happend]
  exact exponentAfterSign_append hrest ht

/-- Digits that no exponent follows. -/
theorem afterDigits_of_head? (he : s.head? ≠ some 'e') (hE : s.head? ≠ some 'E') :
    afterDigits negative m e s = (assembleReal negative m e).map (·, s) := by
  rw [afterDigits]
  · rfl
  · rintro r rfl
    exact he rfl
  · rintro r rfl
    exact hE rfl

theorem afterDigits_append (hrest : Follows rest)
    (h : afterDigits negative m e s = .ok (x, r)) :
    afterDigits negative m e (s ++ rest) = .ok (x, r ++ rest) := by
  unfold afterDigits at h
  split at h
  · exact exponentPart_append hrest h
  · exact exponentPart_append hrest h
  case _ he hE =>
    obtain ⟨y, hy, hx⟩ := bind_ok h
    cases hx
    rw [afterDigits_of_head? ?_ ?_, hy]
    · rfl
    · rw [Ne, hrest.head?_append (by simp), List.head?_eq_some_iff]
      exact fun ⟨r, hr⟩ => he r hr
    · rw [Ne, hrest.head?_append (by simp), List.head?_eq_some_iff]
      exact fun ⟨r, hr⟩ => hE r hr

theorem fractionPart_append (hrest : Follows rest)
    (h : fractionPart negative m e s = .ok (x, r)) :
    fractionPart negative m e (s ++ rest) = .ok (x, r ++ rest) := by
  cases s with
  | nil => simp [fractionPart] at h
  | cons c s =>
    have happend := fractionDigits_append hrest (s := c :: s) (m := m) (e := e)
    simp only [fractionPart, List.cons_append] at h happend ⊢
    split at h
    case isTrue hc =>
      rw [if_pos hc, happend]
      exact afterDigits_append hrest h
    case isFalse => cases h

/-- What may follow the whole part of a number: a fraction, an exponent, or its end. -/
def afterWhole (negative : Bool) (n dropped : ℕ) : Lexer Number
  | '.' :: r => do let (x, r) ← fractionPart negative n dropped r; pure (.real x, r)
  | r =>
    if dropped = 0 ∧ r.head? ≠ some 'e' ∧ r.head? ≠ some 'E' then .ok (wholeNumber negative n, r)
    else do let (x, r) ← afterDigits negative n dropped r; pure (.real x, r)

/-- A zero at the front is the whole part if no digit comes after it. -/
theorem unsigned_zero (h : ∀ c ∈ s.head?, c.isDigit = false) :
    unsigned negative ('0' :: s) = afterWhole negative 0 0 s := by
  simp only [unsigned]
  split
  case _ => rfl
  case _ => rfl
  case _ => rfl
  case _ c s hpoint he hE =>
    rw [if_neg (by simp [h c rfl]), afterWhole, if_pos]
    · simpa using ⟨he, hE⟩
    · rintro r ⟨⟩
      exact hpoint rfl
  case _ => rfl

/-- A number has no leading zero. -/
theorem unsigned_zero_digit {c : Char} (hc : c.isDigit = true) :
    unsigned negative ('0' :: c :: s) = .error .invalidNumber := by
  rw [unsigned, if_pos hc] <;> rintro rfl <;> exact absurd hc (by decide)

/-- Any other digit at the front begins a run of digits, which is the whole part. -/
theorem unsigned_cons {c : Char} (hc : c.isDigit = true) (hzero : c ≠ '0') :
    unsigned negative (c :: s) = afterWhole negative (wholeDigits 0 (c :: s)).1
      (wholeDigits 0 (c :: s)).2.1 (wholeDigits 0 (c :: s)).2.2 := by
  rw [unsigned, if_pos hc]
  · rfl
  · exact hzero

/-- Where a number has been read there was a digit at the front. -/
theorem isDigit_of_unsigned {k : Number} (h : unsigned negative s = .ok (k, r)) :
    ∃ c t, s = c :: t ∧ c.isDigit = true := by
  cases s with
  | nil => cases h
  | cons c t =>
    refine ⟨c, t, rfl, ?_⟩
    by_contra hc
    rw [unsigned, if_neg hc] at h
    · cases h
    · rintro rfl
      exact hc (by decide)

/-- A number after its sign has a whole part that does not depend on what follows the number. -/
theorem exists_afterWhole_of_unsigned {k : Number} (h : unsigned negative s = .ok (k, r)) :
    ∃ m n t, m ≤ significandLimit ∧ afterWhole negative m n t = .ok (k, r) ∧
      ∀ rest, Follows rest →
        unsigned negative (s ++ rest) = afterWhole negative m n (t ++ rest) := by
  obtain ⟨c, s, rfl, hc⟩ := isDigit_of_unsigned h
  by_cases hzero : c = '0'
  · subst hzero
    have hdigit : ∀ c ∈ s.head?, c.isDigit = false := by
      intro c hc
      obtain ⟨t, rfl⟩ := List.head?_eq_some_iff.mp hc
      by_contra hdigit
      rw [unsigned_zero_digit (by simpa using hdigit)] at h
      cases h
    refine ⟨0, 0, s, Nat.zero_le _, unsigned_zero hdigit ▸ h, fun rest hrest => unsigned_zero ?_⟩
    cases s with
    | nil => exact fun c hc => (hrest.stops c hc).1
    | cons d s => exact hdigit
  · refine ⟨_, _, _, wholeDigits_le (Nat.zero_le _), unsigned_cons hc hzero ▸ h,
      fun rest hrest => ?_⟩
    have happend := wholeDigits_append hrest (s := c :: s) (m := 0)
    rw [List.cons_append] at happend ⊢
    rw [unsigned_cons hc hzero, happend]

/-- Whatever comes after the whole part is read as if nothing followed. -/
theorem afterWhole_append {k : Number} (hrest : Follows rest)
    (h : afterWhole negative m n s = .ok (k, r)) :
    afterWhole negative m n (s ++ rest) = .ok (k, r ++ rest) := by
  unfold afterWhole at h
  split at h
  case _ =>
    obtain ⟨⟨x, r⟩, hx, h⟩ := bind_ok h
    cases h
    exact congrArg (· >>= _) (fractionPart_append hrest hx)
  case _ hpoint =>
    rw [afterWhole]
    · simp only [ne_eq, hrest.head?_append (.inr (.inl rfl)), hrest.head?_append (.inr (.inr rfl))]
      split at h
      case isTrue hend =>
        cases h
        rw [if_pos hend]
      case isFalse hend =>
        obtain ⟨⟨x, r⟩, hx, h⟩ := bind_ok h
        cases h
        rw [if_neg hend]
        exact congrArg (· >>= _) (afterDigits_append hrest hx)
    · intro r hr
      have hhead := (hrest.head?_append (.inl rfl)).mp (List.head?_eq_some_iff.mpr ⟨r, hr⟩)
      obtain ⟨t, ht⟩ := List.head?_eq_some_iff.mp hhead
      exact hpoint t ht

/-- A number without its sign is read as if nothing followed. -/
theorem unsigned_append {k : Number} (hrest : Follows rest) (h : unsigned negative s = .ok (k, r)) :
    unsigned negative (s ++ rest) = .ok (k, r ++ rest) := by
  obtain ⟨m, n, t, -, hafter, happend⟩ := exists_afterWhole_of_unsigned h
  rw [happend rest hrest]
  exact afterWhole_append hrest hafter

/-- What follows a number has no part in it. -/
theorem readNumber_append {k : Number} (hrest : Follows rest) (h : readNumber s = .ok (k, r)) :
    readNumber (s ++ rest) = .ok (k, r ++ rest) := by
  unfold readNumber at h
  split at h
  · exact unsigned_append hrest h
  case _ hminus =>
    have hs : s ≠ [] := by rintro rfl; cases h
    obtain ⟨c, s, rfl⟩ := List.exists_cons_of_ne_nil hs
    rw [readNumber]
    · exact unsigned_append hrest h
    · rintro t ht
      exact hminus s (by rw [(List.cons.inj ht).1])

/-! ## Numbers are finite -/

/-- Division by a power of ten does not take a double beyond a power of two. -/
theorem magnitudeBits_scaleDown_le {k p : ℕ} (hk : k < 1024)
    (hx : x.magnitudeBits ≤ (k + 1023) * 2 ^ 52) :
    (scaleDown x p).magnitudeBits ≤ (k + 1023) * 2 ^ 52 := by
  fun_induction scaleDown x p with
  | case1 x p => exact Double.magnitudeBits_div_ofNat_le (by positivity) hk hx
  | case2 x p => exact hx
  | case3 x p _ _ ih => exact ih (Double.magnitudeBits_div_ofNat_le (by positivity) hk hx)

theorem isFinite_withSign (negative : Bool) (hx : x.isFinite = true) :
    (if negative then x.neg else x).isFinite = true := by
  have hlt := Double.isFinite_iff.mp hx
  split
  · exact Double.isFinite_iff.mpr (Double.magnitudeBits_neg hlt.le ▸ hlt)
  · exact hx

theorem isFinite_ofNat (hm : m ≤ significandLimit) : (Double.ofNat m).isFinite = true :=
  Double.isFinite_iff.mpr
    (lt_of_le_of_lt (Double.magnitudeBits_ofNat_le (k := 64) (hm.trans (by decide))) (by decide))

/-- A number that would be too great is refused, so what is assembled is finite. -/
theorem isFinite_assembleReal (hm : m ≤ significandLimit)
    (h : assembleReal negative m e = .ok x) : x.isFinite = true := by
  have hnat : (Double.ofNat m).magnitudeBits ≤ (64 + 1023) * 2 ^ 52 :=
    Double.magnitudeBits_ofNat_le (hm.trans (by decide))
  have hscale : (scaleDown (Double.ofNat m) e.natAbs).isFinite = true :=
    Double.isFinite_iff.mpr
      (lt_of_le_of_lt (magnitudeBits_scaleDown_le (by decide) hnat) (by decide))
  have hsign {y : Double} (hy : y.isFinite = true) := isFinite_withSign negative hy
  unfold assembleReal at h
  extract_lets size sign at h
  split at h
  · exact Except.ok.inj h ▸ hsign hscale
  split at h
  · exact Except.ok.inj h ▸ hsign (isFinite_ofNat hm)
  by_cases hlarge : 308 < e
  · rw [if_pos hlarge] at h
    cases h
  rw [if_neg hlarge] at h
  by_cases hy : (size.mul (Double.ofNat (10 ^ e.natAbs))).isFinite = true
  · rw [if_pos hy] at h
    exact Except.ok.inj h ▸ hsign hy
  · rw [if_neg hy] at h
    cases h

/-- The digits after a point do not make the significand too large either. -/
theorem fractionDigits_le (hm : m ≤ significandLimit) :
    (fractionDigits m e s).1 ≤ significandLimit := by
  fun_induction fractionDigits m e s with
  | case1 m => exact hm
  | case2 m => exact hm
  | case3 m e c s _ _ hlt ih => exact ih (by omega)
  | case4 m => exact hm

/-- A number with an exponent is finite if it is read at all. -/
theorem isFinite_exponentPart (hm : m ≤ significandLimit)
    (h : exponentPart negative m e s = .ok (x, r)) : x.isFinite = true := by
  obtain ⟨down, t, ht, -⟩ := exists_exponentAfterSign h
  cases t with
  | nil => cases ht
  | cons c t =>
    simp only [exponentAfterSign] at ht
    split at ht
    case isTrue =>
      obtain ⟨y, hy, hx⟩ := bind_ok ht
      cases hx
      exact isFinite_assembleReal hm hy
    case isFalse => cases ht

theorem isFinite_afterDigits (hm : m ≤ significandLimit)
    (h : afterDigits negative m e s = .ok (x, r)) : x.isFinite = true := by
  unfold afterDigits at h
  split at h
  · exact isFinite_exponentPart hm h
  · exact isFinite_exponentPart hm h
  · obtain ⟨y, hy, hx⟩ := bind_ok h
    cases hx
    exact isFinite_assembleReal hm hy

/-- A number with a fraction is finite if it is read at all. -/
theorem isFinite_fractionPart (hm : m ≤ significandLimit)
    (h : fractionPart negative m e s = .ok (x, r)) : x.isFinite = true := by
  cases s with
  | nil => cases h
  | cons c s =>
    have hle := fractionDigits_le (e := e) (s := c :: s) hm
    simp only [fractionPart] at h
    split at h
    case isTrue => exact isFinite_afterDigits hle h
    case isFalse => cases h

theorem isFinite_ofInt {i : ℤ} (h : i.natAbs ≤ significandLimit) :
    (Double.ofInt i).isFinite = true := by
  rw [Double.ofInt]
  split
  · exact isFinite_withSign true (isFinite_ofNat h)
  · exact isFinite_ofNat h

theorem isFinite_wholeNumber (hm : m ≤ significandLimit) :
    (wholeNumber negative m).toDouble.isFinite = true := by
  rw [wholeNumber]
  split_ifs
  · exact isFinite_ofInt hm
  · exact isFinite_withSign true (isFinite_ofNat hm)
  · exact isFinite_ofInt (by omega)

theorem isFinite_afterWhole {k : Number} (hm : m ≤ significandLimit)
    (h : afterWhole negative m n s = .ok (k, r)) : k.toDouble.isFinite = true := by
  unfold afterWhole at h
  split at h
  case _ =>
    obtain ⟨⟨x, r⟩, hx, h⟩ := bind_ok h
    cases h
    exact isFinite_fractionPart hm hx
  case _ =>
    split at h
    case isTrue =>
      cases h
      exact isFinite_wholeNumber hm
    case isFalse =>
      obtain ⟨⟨x, r⟩, hx, h⟩ := bind_ok h
      cases h
      exact isFinite_afterDigits hm hx

/-- No text is read as infinite or as not a number. -/
theorem isFinite_unsigned {k : Number} (h : unsigned negative s = .ok (k, r)) :
    k.toDouble.isFinite = true := by
  obtain ⟨m, n, t, hm, hafter, -⟩ := exists_afterWhole_of_unsigned h
  exact isFinite_afterWhole hm hafter

/-- A number that is read is near a finite double. -/
theorem isFinite_readNumber {k : Number} (h : readNumber s = .ok (k, r)) :
    k.toDouble.isFinite = true := by
  unfold readNumber at h
  split at h <;> exact isFinite_unsigned h

/-- A number starts with its sign or with a digit. -/
theorem head_of_readNumber {k : Number} (h : readNumber s = .ok (k, r)) :
    ∃ c t, s = c :: t ∧ (c = '-' ∨ c.isDigit = true) := by
  unfold readNumber at h
  split at h
  case _ t => exact ⟨'-', t, rfl, .inl rfl⟩
  case _ =>
    obtain ⟨c, t, hs, hc⟩ := isDigit_of_unsigned h
    exact ⟨c, t, hs, .inr hc⟩

/-- A number without a sign starts with a digit. -/
theorem readNumber_of_unsigned {k : Number} (h : unsigned false s = .ok (k, r)) :
    readNumber s = .ok (k, r) := by
  obtain ⟨c, t, rfl, hc⟩ := isDigit_of_unsigned h
  rw [readNumber]
  · exact h
  · rintro t' ⟨⟩
    exact absurd hc (by decide)

/-! ## Integers read back -/

/-- More digits do not make a number less. -/
theorem le_ofDigitChars : m ≤ Nat.ofDigitChars 10 ds m := by
  induction ds generalizing m with
  | nil => simp
  | cons c ds ih =>
    rw [Nat.ofDigitChars_cons]
    exact le_trans (by omega) ih

theorem mul_ten_add_digitValue (m : ℕ) (c : Char) :
    m * 10 + digitValue c = 10 * m + (c.toNat - '0'.toNat) := by
  rw [digitValue, mul_comm]

/-- A run of digits is read as the number that it writes, if 64 bits hold it. -/
theorem wholeDigits_of_isDigit (hds : ∀ c ∈ ds, c.isDigit = true)
    (hrest : ∀ c ∈ rest.head?, c.isDigit = false)
    (h : Nat.ofDigitChars 10 ds m ≤ significandLimit) :
    wholeDigits m (ds ++ rest) = (Nat.ofDigitChars 10 ds m, 0, rest) := by
  induction ds generalizing m with
  | nil =>
    cases rest with
    | nil => simp [wholeDigits]
    | cons c rest => simp [wholeDigits, hrest c rfl]
  | cons c ds ih =>
    rw [Nat.ofDigitChars_cons] at h ⊢
    rw [List.cons_append, wholeDigits, if_pos (hds c (by simp)), mul_ten_add_digitValue,
      if_neg (by have := le_ofDigitChars.trans h; omega)]
    exact ih (fun d hd => hds d (by simp [hd])) h

/-- Only zero is written with a zero at the front. -/
theorem head?_toDigits_ne_zero (hn : n ≠ 0) : (Nat.toDigits 10 n).head? ≠ some '0' := by
  induction n using Nat.strongRecOn with
  | ind n ih =>
    rw [Nat.toDigits_eq_if (by decide)]
    split
    case isTrue hlt =>
      interval_cases n <;> simp_all
    case isFalse hle =>
      have hdiv := ih (n / 10) (by omega) (by omega)
      obtain ⟨c, s, hs⟩ := List.exists_cons_of_ne_nil (Nat.toDigits_ne_nil (b := 10) (n := n / 10))
      rw [hs] at hdiv ⊢
      simpa using hdiv

theorem isDigit_of_mem_digitsOf {c : Char} (hc : c ∈ digitsOf n) : c.isDigit = true :=
  Nat.isDigit_of_mem_toDigits (by decide) (by decide) hc

/-- Digits that can stand before the point: the first is zero only if it is the only one. -/
structure IsWhole (ds : List Char) : Prop where
  ne_nil : ds ≠ []
  isDigit : ∀ c ∈ ds, c.isDigit = true
  head : ds.head? = some '0' → ds = ['0']

theorem isWhole_digitsOf (n : ℕ) : IsWhole (digitsOf n) where
  ne_nil := Nat.toDigits_ne_nil
  isDigit := fun _ => isDigit_of_mem_digitsOf
  head := fun hhead => by
    by_cases hzero : n = 0
    · rw [hzero]
      rfl
    · exact absurd hhead (head?_toDigits_ne_zero hzero)

/-- Digits before the point that the significand has room for. -/
theorem unsigned_of_isWhole (hds : IsWhole ds) (hrest : ∀ c ∈ rest.head?, c.isDigit = false)
    (h : Nat.ofDigitChars 10 ds 0 ≤ significandLimit) :
    unsigned negative (ds ++ rest) = afterWhole negative (Nat.ofDigitChars 10 ds 0) 0 rest := by
  obtain ⟨c, t, rfl⟩ := List.exists_cons_of_ne_nil hds.ne_nil
  -- a leading zero is read apart
  by_cases hzero : c = '0'
  · subst hzero
    obtain ⟨-, rfl⟩ := List.cons.inj (hds.head rfl)
    exact unsigned_zero hrest
  · have hwhole := wholeDigits_of_isDigit hds.isDigit hrest h
    rw [List.cons_append] at hwhole ⊢
    rw [unsigned_cons (hds.isDigit c (by simp)) hzero, hwhole]

/-- A number of 64 bits is read back from its digits. -/
theorem unsigned_digitsOf (hn : n ≤ significandLimit) :
    unsigned negative (digitsOf n) = .ok (wholeNumber negative n, []) := by
  have hvalue : Nat.ofDigitChars 10 (digitsOf n) 0 = n := Nat.ofDigitChars_ten_toDigits
  have hwhole : unsigned negative (digitsOf n ++ []) = _ :=
    unsigned_of_isWhole (isWhole_digitsOf n) nofun (hvalue.trans_le hn)
  rw [hvalue, List.append_nil] at hwhole
  rw [hwhole, afterWhole]
  · simp
  · nofun

/-- An integer of 64 bits, with or without a sign, is read back from its text. -/
theorem readNumber_integerText {i : ℤ} (hlow : -2 ^ 63 ≤ i) (hhigh : i < 2 ^ 64) :
    readNumber (integerText i) = .ok (.integer i, []) := by
  have hlimit : i.natAbs ≤ significandLimit := by
    rw [significandLimit]
    omega
  rw [integerText]
  split
  case isTrue hneg =>
    rw [readNumber, unsigned_digitsOf hlimit, wholeNumber, if_neg (by simp), if_neg (by omega)]
    congr
    omega
  case isFalse hneg =>
    refine readNumber_of_unsigned ?_
    rw [unsigned_digitsOf hlimit, wholeNumber, if_pos (by simp)]
    congr
    omega

/-! ## Strings read back -/

theorem hexValue?_digitChar : ∀ d < 16, hexValue? (Nat.digitChar d) = some d := by decide

/-- The four digits of an escape stand for the code that was escaped. -/
theorem hexValue4_of_lt (h : n < 256) :
    hexValue4 '0' '0' (Nat.digitChar (n / 16)) (Nat.digitChar (n % 16)) = .ok n := by
  have hzero : hexValue? '0' = some 0 := by decide
  simp only [hexValue4, hzero, hexValue?_digitChar _ (show n / 16 < 16 by omega),
    hexValue?_digitChar _ (show n % 16 < 16 by omega)]
  exact congrArg Except.ok (by omega)

/-- However a character is escaped, one character is read from it. -/
theorem stringChars_escapeChar (acc : List Char) (c : Char) :
    stringChars acc (escapeChar c ++ s) = stringChars (c :: acc) s := by
  unfold escapeChar
  split
  case h_8 hquote hslash _ _ _ _ _ =>
    split
    case isTrue hc =>
      have hhex := hexValue4_of_lt (n := c.toNat) (by omega)
      have htrailing : isTrailingSurrogate c.toNat = false := by simp [isTrailingSurrogate]; omega
      have hleading : isLeadingSurrogate c.toNat = false := by simp [isLeadingSurrogate]; omega
      simp [stringChars, hhex, bind, Except.bind, htrailing, hleading]
    case isFalse hc =>
      rw [List.singleton_append, stringChars, if_neg hc]
      · exact hquote
      · exact fun _ h => absurd h hslash
      · exact fun _ _ h => absurd h hslash
      · exact fun h => absurd h hslash
  all_goals simp [stringChars, escaped?]

/-- A text is read back up to the quote that closes it. -/
theorem readString_quote (text : String) :
    readString (text.toList.flatMap escapeChar ++ '"' :: rest) = .ok (text, rest) := by
  have hchars (cs acc : List Char) : stringChars acc (cs.flatMap escapeChar ++ '"' :: rest) =
      .ok (acc.reverse ++ cs, rest) := by
    induction cs generalizing acc with
    | nil => simp [stringChars]
    | cons c cs ih =>
      rw [List.flatMap_cons, List.append_assoc, stringChars_escapeChar, ih]
      simp
  rw [readString, hchars]
  simp

end RuleFlow.Json
