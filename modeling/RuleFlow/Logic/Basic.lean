import RuleFlow.Scalar
import RuleFlow.Operator

/-! # Condition trees

A rule's condition is a tree of comparisons joined by AND and OR groups. A group owns the ordered
list of its children, which may be empty. -/

namespace RuleFlow

/-- How a group joins its children. -/
inductive Combinator where
  | and
  | or
deriving DecidableEq, Repr, Inhabited

namespace Combinator

/-- Reads a name, in any letter case of ASCII. -/
def ofName? (name : String) : Option Combinator :=
  let lower := name.toList.map Char.toLower
  if lower = "and".toList ∨ lower = "all".toList then some .and
  else if lower = "or".toList ∨ lower = "any".toList then some .or
  else none

/-- The key of a group in JSON. -/
def key : Combinator → String
  | .and => "and"
  | .or => "or"

/-- The word between the children of a group. -/
def word : Combinator → String
  | .and => "AND"
  | .or => "OR"

/-- The name of the combinator as a variant. -/
def variant : Combinator → String
  | .and => "And"
  | .or => "Or"

def toJson (kind : Combinator) : Json := .string kind.variant

def reader : Json.Reader Combinator := .union [.plain "And" .and, .plain "Or" .or]

end Combinator

/-- A comparison of a field with a literal. -/
structure Condition where
  field : String
  operator : Operator
  value : Scalar
deriving DecidableEq, Repr, Inhabited

/-- Equality of conditions, with values compared by `Scalar.agrees`. -/
def Condition.agrees (a b : Condition) : Bool :=
  a.field == b.field && a.operator == b.operator && a.value.agrees b.value

inductive Logic where
  | leaf (condition : Condition)
  | group (kind : Combinator) (children : List Logic)
deriving Repr, Inhabited

namespace Logic

def isLeaf : Logic → Bool
  | .leaf _ => true
  | .group .. => false

/-- The condition of a leaf. -/
def condition? : Logic → Option Condition
  | .leaf c => some c
  | .group .. => none

mutual

/-- Levels of the tree; a leaf has one. -/
def depth : Logic → Nat
  | .leaf _ => 1
  | .group _ children => 1 + depthOfAll children

/-- Levels of the deepest tree of a list. -/
def depthOfAll : List Logic → Nat
  | [] => 0
  | t :: ts => max t.depth (depthOfAll ts)

end

mutual

/-- The conditions of the tree, from left to right. -/
def conditions : Logic → List Condition
  | .leaf c => [c]
  | .group _ children => conditionsOfAll children

/-- The conditions of a list of trees, from left to right. -/
def conditionsOfAll : List Logic → List Condition
  | [] => []
  | t :: ts => t.conditions ++ conditionsOfAll ts

end

mutual

/-- How many leaves the tree has. -/
def leafCount : Logic → Nat
  | .leaf _ => 1
  | .group _ children => leafCountOfAll children

/-- How many leaves a list of trees has. -/
def leafCountOfAll : List Logic → Nat
  | [] => 0
  | t :: ts => t.leafCount + leafCountOfAll ts

end

/-! ## Equality

Sameness compares numbers by their bits, and `agrees` compares them as numbers. -/

mutual

/-- Decides whether two trees are the same, numbers compared by their bits. -/
def decEq : (s t : Logic) → Decidable (s = t)
  | .leaf a, .leaf b => decidable_of_iff (a = b) (by simp)
  | .group k ss, .group l ts =>
    have := decEqAll ss ts
    decidable_of_iff (k = l ∧ ss = ts) (by simp)
  | .leaf _, .group .. => .isFalse nofun
  | .group .., .leaf _ => .isFalse nofun

/-- Decides whether two lists of trees are the same. -/
def decEqAll : (ss ts : List Logic) → Decidable (ss = ts)
  | [], [] => .isTrue rfl
  | s :: ss, t :: ts =>
    have := decEq s t
    have := decEqAll ss ts
    decidable_of_iff (s = t ∧ ss = ts) (by simp)
  | [], _ :: _ => .isFalse nofun
  | _ :: _, [] => .isFalse nofun

end

instance : DecidableEq Logic := decEq

mutual

/-- Equality of trees, with values compared by `Scalar.agrees`. -/
def agrees : Logic → Logic → Bool
  | .leaf a, .leaf b => a.agrees b
  | .group k as, .group l bs => k == l && allAgree as bs
  | _, _ => false

/-- Equality of lists of trees. -/
def allAgree : List Logic → List Logic → Bool
  | [], [] => true
  | a :: as, b :: bs => a.agrees b && allAgree as bs
  | _, _ => false

end

end Logic

end RuleFlow
