import Mathlib.Algebra.BigOperators.Intervals
import Mathlib.Algebra.Order.BigOperators.Group.Finset
import Mathlib.Algebra.Order.Field.Rat
import Mathlib.Data.List.Lex
import Mathlib.Data.Prod.Lex
import Mathlib.Data.String.Basic
import Mathlib.Order.Interval.Finset.Nat
import Mathlib.Tactic.Linarith
import RuleFlow.Proofs.Logic.Position
import RuleFlow.Rule.Basic

/-!
# Time stamps in text and in time

A time stamp of RFC 3339 in UTC, such as `2024-05-01T12:00:00.5Z`, is a date, a separator, a time of
day and, if it has a point, digits after it.  A stamp is a text and it is an instant, and both are
in order: the texts character by character, the instants by day and by second of the day.

The date and the time of day have fixed widths, and there the two orders agree
(`Date.chars_strictMono`, `Clock.chars_strictMono`).  They part in two places: the separator is
between the day and the second, and the `Z` behind the last digit is above every digit and above the
point.  `Timestamp.text_le_and_instant_lt_iff` says that these are all the places.
-/

namespace RuleFlow

open Logic (append_lt_append_of_length_eq)

/-! ## Texts of fixed width -/

/-- What follows the same text and the same character is compared. -/
theorem append_cons_lt_append_cons (l : List Char) (c : Char) {r r' : List Char} (h : r < r') :
    l ++ c :: r < l ++ c :: r' :=
  List.append_left_lt (List.cons_lt_cons_iff.mpr (.inr ⟨rfl, h⟩))

/-- So many of the last decimal digits of a number. -/
def lastDigits : ℕ → ℕ → List Char
  | 0, _ => []
  | width + 1, n => lastDigits width (n / 10) ++ [Nat.digitChar (n % 10)]

@[simp] theorem length_lastDigits (width n : ℕ) : (lastDigits width n).length = width := by
  induction width generalizing n with
  | zero => rfl
  | succ width ih => rw [lastDigits, List.length_append, ih, List.length_singleton]

theorem digitChar_lt_iff : ∀ {a b : Fin 10}, Nat.digitChar a < Nat.digitChar b ↔ a < b := by decide

/-- Digits of one width are in the order of the numbers, if the width holds the greater one. -/
theorem lastDigits_lt {width n m : ℕ} (hm : m < 10 ^ width) (h : n < m) :
    lastDigits width n < lastDigits width m := by
  induction width generalizing n m with
  | zero => omega
  | succ width ih =>
    have hm' : m / 10 < 10 ^ width := by rw [pow_succ] at hm; omega
    rw [lastDigits, lastDigits]
    rcases lt_or_ge (n / 10) (m / 10) with hlt | hge
    · exact append_lt_append_of_length_eq (ih hm' hlt) (by simp) _ _
    · rw [show n / 10 = m / 10 by omega]
      have hdigit : Nat.digitChar (n % 10) < Nat.digitChar (m % 10) :=
        (@digitChar_lt_iff ⟨n % 10, by omega⟩ ⟨m % 10, by omega⟩).mpr (Fin.mk_lt_mk.mpr (by omega))
      exact List.append_left_lt (List.cons_lt_cons_iff.mpr (.inl hdigit))

/-- Three numbers of fixed widths with a character between each two. -/
def triple (width : ℕ) (sep : Char) (a b c : ℕ) : List Char :=
  lastDigits width a ++ sep :: (lastDigits 2 b ++ sep :: lastDigits 2 c)

/-- Three numbers of fixed widths are in lexicographic order as texts. -/
theorem triple_lt {width : ℕ} {sep : Char} {a b c a' b' c' : ℕ} (ha : a' < 10 ^ width)
    (hb : b' < 100) (hc : c' < 100) (h : a < a' ∨ a = a' ∧ (b < b' ∨ b = b' ∧ c < c')) :
    triple width sep a b c < triple width sep a' b' c' := by
  rw [triple, triple]
  rcases h with hlt | ⟨rfl, hlt | ⟨rfl, hlt⟩⟩
  · exact append_lt_append_of_length_eq (lastDigits_lt ha hlt) (by simp) _ _
  · refine append_cons_lt_append_cons _ _ ?_
    exact append_lt_append_of_length_eq (lastDigits_lt hb hlt) (by simp) _ _
  · refine append_cons_lt_append_cons _ _ ?_
    exact append_cons_lt_append_cons _ _ (lastDigits_lt hc hlt)

/-- The lexicographic order of three numbers, written out. -/
theorem toLex_triple_lt {a b c a' b' c' : ℕ} :
    toLex (a, toLex (b, c)) < toLex (a', toLex (b', c')) ↔
      a < a' ∨ a = a' ∧ (b < b' ∨ b = b' ∧ c < c') :=
  Prod.Lex.toLex_lt_toLex.trans
    (or_congr_right (and_congr_right fun _ => Prod.Lex.toLex_lt_toLex))

/-! ## Dates -/

/-- The years that have a 29th of February. -/
def IsLeapYear (year : ℕ) : Prop := 4 ∣ year ∧ (100 ∣ year → 400 ∣ year)

instance (year : ℕ) : Decidable (IsLeapYear year) :=
  inferInstanceAs (Decidable (4 ∣ year ∧ (100 ∣ year → 400 ∣ year)))

def daysInMonth (year : ℕ) : ℕ → ℕ
  | 2 => if IsLeapYear year then 29 else 28
  | 4 | 6 | 9 | 11 => 30
  | _ => 31

/-- A day of the Gregorian calendar, of a year with four digits. -/
@[ext] structure Date where
  year : ℕ
  month : ℕ
  day : ℕ
  year_lt : year < 10000
  month_mem : 1 ≤ month ∧ month ≤ 12
  day_mem : 1 ≤ day ∧ day ≤ daysInMonth year month

namespace Date

instance : LinearOrder Date :=
  LinearOrder.lift' (fun d => toLex (d.year, toLex (d.month, d.day))) fun d e h => by
    simp only [EmbeddingLike.apply_eq_iff_eq, Prod.mk.injEq] at h
    exact Date.ext h.1 h.2.1 h.2.2

theorem lt_iff {d e : Date} : d < e ↔ d.year < e.year ∨
    d.year = e.year ∧ (d.month < e.month ∨ d.month = e.month ∧ d.day < e.day) :=
  toLex_triple_lt

/-- How many days there are up to this one, from the first of the calendar on. -/
def number (d : Date) : ℕ :=
  ∑ y ∈ Finset.range d.year, ∑ m ∈ Finset.Ico 1 13, daysInMonth y m +
    (∑ m ∈ Finset.Ico 1 d.month, daysInMonth d.year m + d.day)

/-- The last day of a month is the day before the next month. -/
theorem sum_add_day_le (d : Date) (month : ℕ) (h : d.month < month) :
    ∑ m ∈ Finset.Ico 1 d.month, daysInMonth d.year m + d.day ≤
      ∑ m ∈ Finset.Ico 1 month, daysInMonth d.year m := by
  calc ∑ m ∈ Finset.Ico 1 d.month, daysInMonth d.year m + d.day
      ≤ ∑ m ∈ Finset.Ico 1 (d.month + 1), daysInMonth d.year m := by
        rw [Finset.sum_Ico_succ_top d.month_mem.1]
        exact Nat.add_le_add_left d.day_mem.2 _
    _ ≤ ∑ m ∈ Finset.Ico 1 month, daysInMonth d.year m :=
        Finset.sum_le_sum_of_subset (Finset.Ico_subset_Ico_right h)

/-- Days are numbered in their order, across months and years. -/
theorem number_strictMono : StrictMono number := by
  intro d e h
  have he := e.day_mem.1
  rw [number, number]
  rcases lt_iff.mp h with hyear | ⟨hyear, hmonth | ⟨hmonth, hday⟩⟩
  · have hyears := Finset.sum_le_sum_of_subset
      (f := fun y => ∑ m ∈ Finset.Ico 1 13, daysInMonth y m) (Finset.range_subset_range.mpr hyear)
    rw [Finset.sum_range_succ] at hyears
    have := d.sum_add_day_le 13 (Nat.lt_succ_of_le d.month_mem.2)
    omega
  · have := d.sum_add_day_le _ hmonth
    rw [← hyear]
    omega
  · rw [hyear, hmonth]
    omega

/-- A date as text, such as `2024-05-01`. -/
def chars (d : Date) : List Char := triple 4 '-' d.year d.month d.day

@[simp] theorem length_chars (d : Date) : d.chars.length = 10 := by simp [chars, triple]

/-- No day of a month has three digits. -/
theorem day_lt (d : Date) : d.day < 100 := by
  have hlength : daysInMonth d.year d.month ≤ 31 := by
    unfold daysInMonth
    split <;> try split_ifs
    all_goals omega
  have := d.day_mem.2
  omega

theorem chars_strictMono : StrictMono chars := fun _ e h =>
  triple_lt e.year_lt (by have := e.month_mem; omega) e.day_lt (lt_iff.mp h)

end Date

/-! ## Times of day -/

/-- A second of a day, of which the last minute can have 61. -/
@[ext] structure Clock where
  hour : ℕ
  minute : ℕ
  second : ℕ
  hour_lt : hour < 24
  minute_lt : minute < 60
  second_lt : second < 60 ∨ hour = 23 ∧ minute = 59 ∧ second = 60

namespace Clock

instance : LinearOrder Clock :=
  LinearOrder.lift' (fun c => toLex (c.hour, toLex (c.minute, c.second))) fun c c' h => by
    simp only [EmbeddingLike.apply_eq_iff_eq, Prod.mk.injEq] at h
    exact Clock.ext h.1 h.2.1 h.2.2

theorem lt_iff {c c' : Clock} : c < c' ↔ c.hour < c'.hour ∨
    c.hour = c'.hour ∧ (c.minute < c'.minute ∨ c.minute = c'.minute ∧ c.second < c'.second) :=
  toLex_triple_lt

/-- The seconds from the start of the day. -/
def seconds (c : Clock) : ℕ := 3600 * c.hour + 60 * c.minute + c.second

/-- The seconds of a day are in the order of its times, a leap second after the 59th. -/
theorem seconds_strictMono : StrictMono seconds := by
  intro c c' h
  have := c.minute_lt
  have := c.second_lt
  have := c'.hour_lt
  have := c'.minute_lt
  have := lt_iff.mp h
  rw [seconds, seconds]
  omega

/-- A time of day as text, such as `12:00:00`. -/
def chars (c : Clock) : List Char := triple 2 ':' c.hour c.minute c.second

@[simp] theorem length_chars (c : Clock) : c.chars.length = 8 := by simp [chars, triple]

theorem chars_strictMono : StrictMono chars := fun _ c h =>
  triple_lt (by have := c.hour_lt; omega) (by have := c.minute_lt; omega)
    (by have := c.second_lt; omega) (lt_iff.mp h)

end Clock

/-! ## Fractions of a second -/

/-- The number `0.d₁d₂…` that digits after the point stand for. -/
def fractionValue : List (Fin 10) → ℚ
  | [] => 0
  | d :: ds => ((d : ℕ) + fractionValue ds) / 10

theorem fractionValue_nonneg : ∀ ds : List (Fin 10), 0 ≤ fractionValue ds
  | [] => le_rfl
  | d :: ds => by
    have := fractionValue_nonneg ds
    rw [fractionValue]
    exact div_nonneg (add_nonneg (Nat.cast_nonneg _) this) (by norm_num)

/-- A fraction is less than a second. -/
theorem fractionValue_lt_one : ∀ ds : List (Fin 10), fractionValue ds < 1
  | [] => one_pos
  | d :: ds => by
    have hd : (d : ℕ) + 1 ≤ (10 : ℚ) := by exact_mod_cast d.isLt
    have := fractionValue_lt_one ds
    rw [fractionValue]
    linarith

/-- Only zeros after the point stand for nothing. -/
theorem fractionValue_pos_iff : ∀ {ds : List (Fin 10)}, 0 < fractionValue ds ↔ ∃ d ∈ ds, d ≠ 0
  | [] => by simp [fractionValue]
  | d :: ds => by
    have hds := fractionValue_nonneg ds
    rw [fractionValue, lt_div_iff₀ (by norm_num), zero_mul]
    rcases eq_or_ne d 0 with rfl | hd
    · simp [fractionValue_pos_iff]
    · have hpos : (0 : ℚ) < (d : ℕ) := Nat.cast_pos.mpr (Fin.pos_iff_ne_zero.mpr hd)
      exact iff_of_true (by linarith) ⟨d, List.mem_cons_self, hd⟩

/-- Digits with a `Z` behind them. -/
def zoned (ds : List (Fin 10)) : List Char := ds.map (fun d : Fin 10 => Nat.digitChar d) ++ ['Z']

/-- What follows the time of day: a point and digits unless there are none, and the `Z`. -/
def tailChars : List (Fin 10) → List Char
  | [] => ['Z']
  | d :: ds => '.' :: zoned (d :: ds)

/-- A digit is below the `Z`. -/
theorem zoned_cons_lt_zoned_nil (d : Fin 10) (ds : List (Fin 10)) : zoned (d :: ds) < zoned [] := by
  have hdigit : ∀ d : Fin 10, Nat.digitChar d < 'Z' := by decide
  exact List.cons_lt_cons_iff.mpr (.inl (hdigit d))

/-- Digits are compared before what follows them. -/
theorem zoned_cons_lt_zoned_cons {a b : Fin 10} {p q : List (Fin 10)} :
    zoned (a :: p) < zoned (b :: q) ↔ a < b ∨ a = b ∧ zoned p < zoned q := by
  have heq : ∀ a b : Fin 10, Nat.digitChar a = Nat.digitChar b ↔ a = b := by decide
  rw [← digitChar_lt_iff, ← heq]
  exact List.cons_lt_cons_iff

/-- Where the digits go on the text is the lower one, for the `Z` is above the digits; where they
differ it is in the order of the numbers. -/
theorem zoned_le_and_value_lt_iff : ∀ {p q : List (Fin 10)},
    zoned q ≤ zoned p ∧ fractionValue p < fractionValue q ↔
      ∃ ds, q = p ++ ds ∧ ∃ d ∈ ds, d ≠ 0
  | [], q => by
    have hle : zoned q ≤ zoned [] := by
      cases q with
      | nil => exact le_rfl
      | cons d ds => exact (zoned_cons_lt_zoned_nil d ds).le
    simp [hle, fractionValue, fractionValue_pos_iff]
  | a :: p, [] => by
    simp [(zoned_cons_lt_zoned_nil a p).not_ge]
  | a :: p, b :: q => by
    have hvalue : fractionValue (a :: p) < fractionValue (b :: q) ↔
        ((a : ℕ) : ℚ) + fractionValue p < (b : ℕ) + fractionValue q := by
      rw [fractionValue, fractionValue, div_lt_div_iff_of_pos_right (by norm_num)]
    rw [← not_lt, zoned_cons_lt_zoned_cons, hvalue]
    rcases lt_trichotomy a b with hlt | rfl | hgt
    · simp [hlt, hlt.ne']
    · simp [← zoned_le_and_value_lt_iff]
    · have hstep : ((b : ℕ) : ℚ) + 1 ≤ (a : ℕ) := by exact_mod_cast hgt
      have := fractionValue_nonneg p
      have := fractionValue_lt_one q
      have hnot : ¬ ((a : ℕ) : ℚ) + fractionValue p < (b : ℕ) + fractionValue q := by linarith
      simp [hnot, hgt.ne]

/-- The point changes nothing of this, as it is below the `Z` like the digits. -/
theorem tailChars_le_and_value_lt_iff {p q : List (Fin 10)} :
    tailChars q ≤ tailChars p ∧ fractionValue p < fractionValue q ↔
      ∃ ds, q = p ++ ds ∧ ∃ d ∈ ds, d ≠ 0 := by
  rw [← zoned_le_and_value_lt_iff]
  refine and_congr_left fun hvalue => ?_
  cases q with
  | nil => exact absurd hvalue (fractionValue_nonneg p).not_gt
  | cons b q =>
    cases p with
    | nil =>
      have hpoint : tailChars (b :: q) < tailChars [] :=
        List.cons_lt_cons_iff.mpr (.inl (by decide))
      exact iff_of_true hpoint.le (zoned_cons_lt_zoned_nil b q).le
    | cons a p =>
      rw [← not_lt, ← not_lt, tailChars, tailChars, List.cons_lt_cons_iff]
      simp

/-! ## Time stamps -/

/-- A valid time stamp of UTC.  Before the time of day there is a `T` of either case or a blank, and
the last minute of a month can have a second more. -/
structure Timestamp where
  date : Date
  separator : Char
  clock : Clock
  fraction : List (Fin 10)
  separator_mem : separator ∈ ['T', 't', ' ']
  leap_second : clock.second = 60 → date.day = daysInMonth date.year date.month

namespace Timestamp

def chars (t : Timestamp) : List Char :=
  t.date.chars ++ t.separator :: (t.clock.chars ++ tailChars t.fraction)

/-- The text of a stamp. -/
def text (t : Timestamp) : String := String.ofList t.chars

/-- The seconds from the start of the day. -/
def seconds (t : Timestamp) : ℚ := t.clock.seconds + fractionValue t.fraction

/-- When it is: the day, and on the day the second. -/
def instant (t : Timestamp) : ℕ ×ₗ ℚ := toLex (t.date.number, t.seconds)

/-- The second stamp is later, but its text is not the higher one: on the same day it has the lower
separator, or from the digits of the first one it goes on. -/
def Misjudged (t u : Timestamp) : Prop :=
  t.date = u.date ∧
    (u.separator < t.separator ∧ t.seconds < u.seconds ∨
      t.separator = u.separator ∧ t.clock = u.clock ∧
        ∃ ds, u.fraction = t.fraction ++ ds ∧ ∃ d ∈ ds, d ≠ 0)

variable {t u : Timestamp}

theorem text_le_text_iff : u.text ≤ t.text ↔ u.chars ≤ t.chars := by
  rw [String.le_iff_toList_le, text, text, String.toList_ofList, String.toList_ofList]

/-- On one day, the lower separator decides, whatever the time. -/
theorem chars_lt_of_separator (hdate : t.date = u.date) (h : t.separator < u.separator) :
    t.chars < u.chars := by
  rw [chars, chars, hdate]
  exact List.append_left_lt (List.cons_lt_cons_iff.mpr (.inl h))

/-- On one day and behind one separator, the time of day decides. -/
theorem chars_lt_of_clock (hdate : t.date = u.date) (hsep : t.separator = u.separator)
    (h : t.clock < u.clock) : t.chars < u.chars := by
  rw [chars, chars, hdate, hsep]
  refine append_cons_lt_append_cons _ _ ?_
  exact append_lt_append_of_length_eq (Clock.chars_strictMono h) (by simp) _ _

/-- If all of this is the same, the fractions decide. -/
theorem chars_le_iff (hdate : t.date = u.date) (hsep : t.separator = u.separator)
    (hclock : t.clock = u.clock) :
    u.chars ≤ t.chars ↔ tailChars u.fraction ≤ tailChars t.fraction := by
  have hmono : StrictMono fun r => u.date.chars ++ u.separator :: (u.clock.chars ++ r) :=
    fun _ _ h => append_cons_lt_append_cons _ _ (List.append_left_lt h)
  rw [chars, chars, hdate, hsep, hclock]
  exact hmono.le_iff_le

/-- A later second of the day is later with any fraction. -/
theorem seconds_lt_of_clock (h : t.clock < u.clock) : t.seconds < u.seconds := by
  have hstep : (t.clock.seconds : ℚ) + 1 ≤ u.clock.seconds := by
    exact_mod_cast Clock.seconds_strictMono h
  have := fractionValue_lt_one t.fraction
  have := fractionValue_nonneg u.fraction
  rw [seconds, seconds]
  linarith

/-- The stamps that are later but have no higher text. -/
theorem text_le_and_instant_lt_iff : u.text ≤ t.text ∧ t.instant < u.instant ↔ t.Misjudged u := by
  rw [text_le_text_iff, instant, instant, Prod.Lex.toLex_lt_toLex, Misjudged]
  rcases lt_trichotomy t.date u.date with hdate | hdate | hdate
  · have hchars : t.chars < u.chars :=
      append_lt_append_of_length_eq (Date.chars_strictMono hdate) (by simp) _ _
    simp [hchars.not_ge, hdate.ne]
  · have hday : t.date.number = u.date.number := congrArg _ hdate
    rcases lt_trichotomy t.separator u.separator with hsep | hsep | hsep
    · simp [(chars_lt_of_separator hdate hsep).not_ge, hsep.not_gt, hsep.ne]
    · rcases lt_trichotomy t.clock u.clock with hclock | hclock | hclock
      · simp [(chars_lt_of_clock hdate hsep hclock).not_ge, hsep, hclock.ne]
      · have hseconds : t.seconds < u.seconds ↔
            fractionValue t.fraction < fractionValue u.fraction := by
          rw [seconds, seconds, hclock, add_lt_add_iff_left]
        rw [chars_le_iff hdate hsep hclock, ← tailChars_le_and_value_lt_iff]
        simp [hseconds, hdate, hsep, hclock]
      · simp [hday, (seconds_lt_of_clock hclock).not_gt, hsep, hclock.ne']
    · simp [(chars_lt_of_separator hdate.symm hsep).le, hdate, hsep, hsep.ne']
  · simp [(Date.number_strictMono hdate).not_gt, (Date.number_strictMono hdate).ne', hdate.ne']

/-- Stamps of one form are not misjudged. -/
theorem not_misjudged (hsep : t.separator = u.separator)
    (hlength : t.fraction.length = u.fraction.length) : ¬ t.Misjudged u := by
  rintro ⟨-, ⟨hlower, -⟩ | ⟨-, -, ds, hfraction, d, hd, -⟩⟩
  · exact hlower.ne hsep.symm
  · rw [hfraction, List.length_append, Nat.left_eq_add, List.length_eq_zero_iff] at hlength
    exact List.ne_nil_of_mem hd hlength

end Timestamp

end RuleFlow
