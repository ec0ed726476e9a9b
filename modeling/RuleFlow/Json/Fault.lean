import RuleFlow.Json.Text
import RuleFlow.Text.Printable

/-! # What can be wrong with a JSON text

A fault is a cause; `Fault.message` is its wording and `Fault.category` tells a text that ends too
early (`eof`) and a text that is no JSON (`syntax`) from one that holds the wrong data (`data`). -/

namespace RuleFlow.Json

/-- What was met where something else was due. -/
inductive Found where
  | null
  | boolean (value : Bool)
  | integer (value : Int)
  | real (value : Double)
  | string (value : String)
  | sequence
  | map
  | bareVariant
deriving DecidableEq, Repr

namespace Found

def ofNumber : Number → Found
  | .integer i => .integer i
  | .real x => .real x

def message : Found → String
  | .null => "null"
  | .boolean true => "boolean `true`"
  | .boolean false => "boolean `false`"
  | .integer i => "integer `" ++ String.ofList (integerText i) ++ "`"
  | .real x => "floating point `" ++ String.ofList (Number.real x).text ++ "`"
  | .string s => "string " ++ Text.quoteVisibly s
  | .sequence => "sequence"
  | .map => "map"
  | .bareVariant => "unit variant"

end Found

inductive Fault where
  /-- The text ends inside a value, a list, an object or a string. -/
  | endInValue
  | endInList
  | endInObject
  | endInString
  | expectedColon
  | expectedListEnd
  | expectedObjectEnd
  | expectedIdent
  | expectedValue
  | invalidEscape
  | invalidNumber
  | numberOutOfRange
  | controlCharacter
  | keyNotString
  | loneSurrogate
  | brokenSurrogatePair
  | trailingComma
  | trailingCharacters
  | tooDeep
  /-- The data has another type than the one expected. -/
  | invalidType (found : Found) (expected : String)
  /-- The data has the right type, and a value that it must not have. -/
  | invalidValue (found : Found) (expected : String)
  | invalidLength (length : Nat) (expected : String)
  | unknownVariant (name : String) (known : List String)
  | missingField (name : String)
  | duplicateField (name : String)
  /-- Data that a type's own reader refuses. -/
  | refused (reason : String)
deriving DecidableEq, Repr

inductive Category where
  | eof
  | malformed
  | data
deriving DecidableEq, Repr

def Category.name : Category → String
  | .eof => "eof"
  | .malformed => "syntax"
  | .data => "data"

namespace Fault

def category : Fault → Category
  | .endInValue | .endInList | .endInObject | .endInString => .eof
  | .invalidType .. | .invalidValue .. | .invalidLength .. | .unknownVariant .. | .missingField ..
  | .duplicateField .. | .refused .. => .data
  | _ => .malformed

/-- Names to choose from, each in grave accents. -/
def alternatives : List String → String
  | [] => "there are no variants"
  | [a] => "expected `" ++ a ++ "`"
  | [a, b] => "expected `" ++ a ++ "` or `" ++ b ++ "`"
  | names => "expected one of " ++ ", ".intercalate (names.map fun a => "`" ++ a ++ "`")

def message : Fault → String
  | .endInValue => "EOF while parsing a value"
  | .endInList => "EOF while parsing a list"
  | .endInObject => "EOF while parsing an object"
  | .endInString => "EOF while parsing a string"
  | .expectedColon => "expected `:`"
  | .expectedListEnd => "expected `,` or `]`"
  | .expectedObjectEnd => "expected `,` or `\x7d`"
  | .expectedIdent => "expected ident"
  | .expectedValue => "expected value"
  | .invalidEscape => "invalid escape"
  | .invalidNumber => "invalid number"
  | .numberOutOfRange => "number out of range"
  | .controlCharacter => "control character (\\u0000-\\u001F) found while parsing a string"
  | .keyNotString => "key must be a string"
  | .loneSurrogate => "lone leading surrogate in hex escape"
  | .brokenSurrogatePair => "unexpected end of hex escape"
  | .trailingComma => "trailing comma"
  | .trailingCharacters => "trailing characters"
  | .tooDeep => "recursion limit exceeded"
  | .invalidType found expected => "invalid type: " ++ found.message ++ ", expected " ++ expected
  | .invalidValue found expected => "invalid value: " ++ found.message ++ ", expected " ++ expected
  | .invalidLength n expected =>
    "invalid length " ++ String.ofList (countText n) ++ ", expected " ++ expected
  | .unknownVariant name known => "unknown variant `" ++ name ++ "`, " ++ alternatives known
  | .missingField name => "missing field `" ++ name ++ "`"
  | .duplicateField name => "duplicate field `" ++ name ++ "`"
  | .refused reason => reason

end Fault

end RuleFlow.Json
