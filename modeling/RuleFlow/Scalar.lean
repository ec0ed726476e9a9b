import RuleFlow.Json.Record

/-! # Scalars

The literal that a condition compares a field with. Scalars have a text for people, a plain JSON
form, in which whole numbers are integers, and a tagged JSON form that names the kind. -/

namespace RuleFlow

inductive Scalar where
  | number (value : Double)
  | bool (value : Bool)
  | text (value : String)
  | null
deriving DecidableEq, Repr, Inhabited

namespace Scalar

/-- Equality of values: numbers as numbers, so that the two zeros agree and NaN agrees with
nothing. -/
def agrees : Scalar → Scalar → Bool
  | .number x, .number y => x.agrees y
  | .bool a, .bool b => a == b
  | .text a, .text b => a == b
  | .null, .null => true
  | _, _ => false

/-- What a scalar feeds to a hash: its kind, then the bits of a number, a truth value or a text
with its end mark. -/
def hashInput : Scalar → List Nat
  | .number x => [0, x.bits.toNat]
  | .bool b => [1, b.toNat]
  | .text s => 2 :: s.toUTF8.data.toList.map UInt8.toNat ++ [0xff]
  | .null => [3]

def kind : Scalar → String
  | .number _ => "Number"
  | .bool _ => "Bool"
  | .text _ => "Text"
  | .null => "Null"

/-- The text for people: a whole number has no point and all its digits. -/
def display : Scalar → String
  | .number x =>
    if x.isSmallWhole then String.ofList (integerText x.truncate)
    else if x.isWhole then String.ofList (x.fixedText 0)
    else String.ofList x.displayText
  | .bool true => "true"
  | .bool false => "false"
  | .text s => s
  | .null => "null"

/-! ## Plain form -/

/-- Reads a value. An array or an object has no scalar form and is kept as its text. -/
def ofJson : Json → Scalar
  | .null => .null
  | .bool b => .bool b
  | .number n => .number n.toDouble
  | .string s => .text s
  | .array xs => .text (Json.array xs).text
  | .object ms => .text (Json.object ms).text

/-- Writes whole numbers that 64 bits hold as integers. -/
def toJson : Scalar → Json
  | .number x => if x.isSmallWhole then .ofInt x.truncate else .ofDouble x
  | .bool b => .bool b
  | .text s => .string s
  | .null => .null

/-- Any value, as a scalar. -/
def reader : Json.Reader Scalar := Json.Reader.value.map ofJson

/-! ## Tagged form -/

def toTaggedJson : Scalar → Json
  | .number x => .object [("Number", .ofDouble x)]
  | .bool b => .object [("Bool", .bool b)]
  | .text s => .object [("Text", .string s)]
  | .null => .string "Null"

def taggedReader : Json.Reader Scalar :=
  .union
    [.wrapper "Number" (Json.Reader.double.map .number),
     .wrapper "Bool" (Json.Reader.boolean.map .bool),
     .wrapper "Text" (Json.Reader.string.map .text),
     .plain "Null" .null]

end Scalar

end RuleFlow
