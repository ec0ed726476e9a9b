import RuleFlow.Scalar
import RuleFlow.Proofs.Double.Rounding
import RuleFlow.Proofs.Wire.RoundTrip

/-!
# Equality and hashing of scalars

Scalars are compared as values (`Scalar.agrees`) and hashed by what they are made of
(`Scalar.hashInput`), so that two scalars feed a hash the same data only if they are the same
(`hashInput_injective`).  For numbers the two views differ: NaN does not agree with itself, and the
two zeros agree although their bits differ (`Double.agrees_iff`).  Nothing else stands between the
scalars and the contract of a hash.
-/

namespace RuleFlow

namespace Double

variable {x y : Double}

theorem not_isNaN_of_isZero (h : x.isZero = true) : x.isNaN = false := by
  rw [isNaN_eq_false_iff, isZero_iff.mp h]
  exact Nat.zero_le _

theorem agrees_self_iff : x.agrees x = true ↔ x.isNaN = false := by
  simp [agrees]

/-- Numbers agree if they are the same and no NaN, or if both are zero. -/
theorem agrees_iff :
    x.agrees y = true ↔ x = y ∧ x.isNaN = false ∨ x.isZero = true ∧ y.isZero = true := by
  constructor
  · intro h
    simp only [agrees, Bool.and_eq_true, Bool.not_eq_true', beq_iff_eq] at h
    obtain ⟨⟨hx, -⟩, hkey⟩ := h
    rw [isZero_iff, isZero_iff, eq_iff]
    rw [numberKey, numberKey] at hkey
    by_cases hsign : x.isNegative = y.isNegative
    · refine .inl ⟨⟨hsign, ?_⟩, hx⟩
      rw [hsign] at hkey
      split at hkey <;> omega
    · -- keys of different signs are equal only at zero
      refine .inr ?_
      split at hkey <;> split at hkey
      case isTrue.isTrue hsx hsy => exact absurd (hsx.trans hsy.symm) hsign
      case isFalse.isFalse hsx hsy =>
        exact absurd ((Bool.not_eq_true _ ▸ hsx).trans (Bool.not_eq_true _ ▸ hsy).symm) hsign
      all_goals omega
  · rintro (⟨rfl, hx⟩ | ⟨hx, hy⟩)
    · exact agrees_self_iff.mpr hx
    · have hkey : ∀ {z : Double}, z.isZero = true → z.numberKey = 0 := by
        intro z hz
        rw [numberKey, isZero_iff.mp hz]
        split <;> rfl
      simp [agrees, not_isNaN_of_isZero hx, not_isNaN_of_isZero hy, hkey hx, hkey hy]

end Double

namespace Scalar

variable {a b : Scalar}

/-- Whether a scalar is a number that is none. -/
def isNaN : Scalar → Bool
  | .number x => x.isNaN
  | _ => false

theorem utf8_injective {s t : String}
    (h : s.toUTF8.data.toList.map UInt8.toNat = t.toUTF8.data.toList.map UInt8.toNat) : s = t := by
  have hbytes : s.toUTF8.data = t.toUTF8.data :=
    Array.toList_inj.mp (List.map_injective_iff.mpr (fun _ _ => UInt8.toNat_inj.mp) h)
  have hread := Wire.fromUTF8?_toUTF8 s
  rw [hbytes, Wire.fromUTF8?_toUTF8 t, Option.some.injEq] at hread
  exact hread.symm

/-- What a hash is fed tells scalars apart. -/
theorem hashInput_injective : Function.Injective hashInput := by
  intro a b h
  cases a <;> cases b <;> simp only [hashInput, List.cons_append, List.cons.injEq] at h
  case number.number x y =>
    obtain ⟨x⟩ := x
    obtain ⟨y⟩ := y
    have hbits : x = y := UInt64.toNat_inj.mp h.2.1
    rw [hbits]
  case bool.bool x y => cases x <;> cases y <;> simp_all
  case text.text s t => rw [utf8_injective (List.append_cancel_right h.2)]
  all_goals simp_all

/-- Scalars agree if they are the same and no NaN, or if both are zeros. -/
theorem agrees_iff : a.agrees b = true ↔ a = b ∧ a.isNaN = false ∨
    ∃ x y : Double, a = .number x ∧ b = .number y ∧ x.isZero = true ∧ y.isZero = true := by
  cases a <;> cases b <;> simp [agrees, isNaN, Double.agrees_iff]

/-- The contract of a hash, up to the values at which equality of numbers departs from sameness.  A
scalar agrees with itself unless it is NaN; the data for a hash are those of no other scalar; and of
two scalars that agree the data are the same, unless the two are the zeros of both signs. -/
theorem hash_contract_iff (a b : Scalar) :
    (a.agrees a = true ↔ a.isNaN = false) ∧
    (a.hashInput = b.hashInput ↔ a = b) ∧
    ((a.agrees b = true → a.hashInput = b.hashInput) ↔
      ¬ (a = .number .zero ∧ b = .number Double.zero.neg ∨
        a = .number Double.zero.neg ∧ b = .number .zero)) := by
  have hne : Double.zero ≠ Double.zero.neg := by decide
  refine ⟨?_, hashInput_injective.eq_iff, ?_⟩
  · rw [agrees_iff]
    constructor
    · rintro (⟨-, h⟩ | ⟨x, -, rfl, -, hx, -⟩)
      · exact h
      · exact Double.not_isNaN_of_isZero hx
    · exact fun h => .inl ⟨rfl, h⟩
  · rw [hashInput_injective.eq_iff]
    constructor
    · rintro h (⟨rfl, rfl⟩ | ⟨rfl, rfl⟩)
      · exact hne (number.inj (h (by decide)))
      · exact hne (number.inj (h (by decide))).symm
    · intro h hagrees
      obtain ⟨hab, -⟩ | ⟨x, y, rfl, rfl, hx, hy⟩ := agrees_iff.mp hagrees
      · exact hab
      · rcases Double.isZero_iff_eq.mp hx with rfl | rfl <;>
          rcases Double.isZero_iff_eq.mp hy with rfl | rfl
        · rfl
        · exact absurd (.inl ⟨rfl, rfl⟩) h
        · exact absurd (.inr ⟨rfl, rfl⟩) h
        · rfl

/-- Both halves of the contract fail: NaN does not agree with itself, and the two zeros agree but
feed a hash different bits. -/
theorem not_hash_contract : (¬ ∀ a : Scalar, a.agrees a = true) ∧
    ¬ ∀ a b : Scalar, a.agrees b = true → a.hashInput = b.hashInput := by
  constructor
  · intro h
    exact absurd (h (.number .undefined)) (by decide)
  · intro h
    exact absurd (h (.number .zero) (.number Double.zero.neg) (by decide)) (by decide)

end Scalar

end RuleFlow
