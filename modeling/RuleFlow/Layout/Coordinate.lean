import RuleFlow.Double.Basic

/-! # Coordinates

What the layout needs of its numbers. The program lays out with doubles; the rules of the layout
hold for any coordinates, exact ones among them. -/

namespace RuleFlow

class Coordinate (κ : Type) where
  ofNat : Nat → κ
  add : κ → κ → κ
  sub : κ → κ → κ
  mul : κ → κ → κ
  half : κ → κ
  min : κ → κ → κ
  max : κ → κ → κ
  lt : κ → κ → Bool

instance : Coordinate Double where
  ofNat := .ofNat
  add := .add
  sub := .sub
  mul := .mul
  half x := x.div (.ofNat 2)
  min := .min
  max := .max
  lt := Double.lt

end RuleFlow
