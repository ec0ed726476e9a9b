import RuleFlow.Json.Record

/-! # Comparison operators

The operators with a meaning of their own, and any other text kept as it is, so that a rule with an
operator nobody knows is still drawn. -/

namespace RuleFlow

inductive Operator where
  | equal
  | notEqual
  | greaterThan
  | greaterThanOrEqual
  | lessThan
  | lessThanOrEqual
  | contains
  | notContains
  | other (symbol : String)
deriving DecidableEq, Repr, Inhabited

namespace Operator

/-- The operators with a meaning of their own. -/
def known : List Operator :=
  [.equal, .notEqual, .greaterThan, .greaterThanOrEqual, .lessThan, .lessThanOrEqual, .contains,
   .notContains]

def symbol : Operator → String
  | .equal => "=="
  | .notEqual => "!="
  | .greaterThan => ">"
  | .greaterThanOrEqual => ">="
  | .lessThan => "<"
  | .lessThanOrEqual => "<="
  | .contains => "contains"
  | .notContains => "!contains"
  | .other s => s

/-- The operator of a symbol. -/
def ofSymbol (s : String) : Operator := (known.find? (·.symbol == s)).getD (.other s)

def isKnown : Operator → Bool
  | .other _ => false
  | _ => true

/-- Name of the operator's kind. -/
def kind : Operator → String
  | .equal => "Equal"
  | .notEqual => "NotEqual"
  | .greaterThan => "GreaterThan"
  | .greaterThanOrEqual => "GreaterThanOrEqual"
  | .lessThan => "LessThan"
  | .lessThanOrEqual => "LessThanOrEqual"
  | .contains => "Contains"
  | .notContains => "NotContains"
  | .other _ => "Other"

def toJson (op : Operator) : Json := .string op.symbol

def reader : Json.Reader Operator := Json.Reader.string.map ofSymbol

end Operator

end RuleFlow
