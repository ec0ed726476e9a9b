import RuleFlow.Json.Lexeme

/-! # Typed readers of JSON text

A reader takes its value straight from the text, in one pass, so that of two faults the first one in
the text is reported. It is told how many more arrays and objects may be opened (`Reader`), and it
moves a cursor that also collects what lenient readers have set aside, whether or not the reading
ends well. -/

namespace RuleFlow.Json

/-- The place of a reader in a text, and the values that lenient readers have set aside so far. -/
structure Cursor where
  rest : List Char
  setAside : List Json

/-- One step along a text. -/
abbrev Step := EStateM Fault Cursor

/-- A reader, given the number of arrays and objects that it may open inside each other. -/
abbrev Reader (α : Type) := Nat → Step α

/-- The depth to which arrays and objects may be nested. -/
def depthLimit : Nat := 127

namespace Step

/-- Passes over blanks and shows the next character. -/
def next : Step (Option Char) := fun c =>
  let rest := skipBlanks c.rest
  .ok rest.head? { c with rest }

/-- Takes the character shown. -/
def take : Step Unit := fun c => .ok () { c with rest := c.rest.tail }

/-- Reads a prefix. -/
def lex (lexer : Lexer α) : Step α := fun c =>
  match lexer c.rest with
  | .ok (a, rest) => .ok a { c with rest }
  | .error e => .error e c

/-- Passes over a prefix. -/
def skip (skipper : List Char → Except Fault (List Char)) : Step Unit :=
  lex fun s => do pure ((), ← skipper s)

/-- Sets a value aside. -/
def setAside (value : Json) : Step Unit := fun c =>
  .ok () { c with setAside := c.setAside ++ [value] }

/-- The fault of meeting the next value where a value of another type is due. A text that is not
even the start of a value has that fault instead. -/
def mismatch (expected : String) : Step α := do
  match ← next with
  | some 'n' => take; lex (word ['u', 'l', 'l']); throw (.invalidType .null expected)
  | some 't' => take; lex (word ['r', 'u', 'e']); throw (.invalidType (.boolean true) expected)
  | some 'f' =>
    take; lex (word ['a', 'l', 's', 'e']); throw (.invalidType (.boolean false) expected)
  | some '"' => take; let s ← lex readString; throw (.invalidType (.string s) expected)
  | some '[' => throw (.invalidType .sequence expected)
  | some '\x7b' => throw (.invalidType .map expected)
  | some c =>
    if c == '-' || c.isDigit then do
      let n ← lex readNumber
      throw (.invalidType (.ofNumber n) expected)
    else throw .expectedValue
  | none => throw .endInValue

/-! ## Brackets, commas and colons -/

/-- Tells whether an array has another item, and takes the comma before it. -/
def hasItem (first : Bool) : Step Bool := do
  match ← next with
  | none => throw .endInList
  | some ']' => pure false
  | some c =>
    if first then pure true
    else if c == ',' then do
      take
      match ← next with
      | some ']' => throw .trailingComma
      | some _ => pure true
      | none => throw .endInValue
    else throw .expectedListEnd

/-- Takes the end of an array. -/
def closeArray : Step Unit := do
  match ← next with
  | some ']' => take
  | some ',' =>
    take
    match ← next with
    | some ']' => throw .trailingComma
    | _ => throw .trailingCharacters
  | some _ => throw .trailingCharacters
  | none => throw .endInList

/-- Tells whether an object has another member, and takes the comma before it. -/
def hasMember (first : Bool) : Step Bool := do
  match ← next with
  | none => throw .endInObject
  | some '\x7d' => pure false
  | some c =>
    if first then
      if c == '"' then pure true else throw .keyNotString
    else if c == ',' then do
      take
      match ← next with
      | some '"' => pure true
      | some '\x7d' => throw .trailingComma
      | some _ => throw .keyNotString
      | none => throw .endInValue
    else throw .expectedObjectEnd

/-- Takes the end of an object. -/
def closeObject : Step Unit := do
  match ← next with
  | some '\x7d' => take
  | some ',' => throw .trailingComma
  | some _ => throw .trailingCharacters
  | none => throw .endInObject

/-- Takes the colon between a key and its value. -/
def colon : Step Unit := do
  match ← next with
  | some ':' => take
  | some _ => throw .expectedColon
  | none => throw .endInObject

/-- Takes a key, whose opening quote is shown. -/
def key : Step String := do take; lex readString

/-- Runs `body` with one bracket more around it. -/
def nested (body : Reader α) : Reader α
  | 0 => throw .tooDeep
  | depth + 1 => do take; body depth

/-- The items of an array up to its end, put before those already read in reverse. Every item takes
a character, so `fuel` is the length of the text. -/
def itemsFrom (item : Step α) : Nat → Bool → List α → Step (List α)
  | 0, _, _ => throw .endInList
  | fuel + 1, first, acc => do
    if ← hasItem first then itemsFrom item fuel false ((← item) :: acc)
    else pure acc.reverse

def items (item : Step α) : Step (List α) := do
  itemsFrom item ((← get).rest.length + 1) true []

/-- The members of a free-form object up to its end. -/
def membersFrom (value : Step Json) :
    Nat → Bool → List (String × Json) → Step (List (String × Json))
  | 0, _, _ => throw .endInObject
  | fuel + 1, first, acc => do
    if ← hasMember first then
      let k ← key
      colon
      membersFrom value fuel false (Json.insert k (← value) acc)
    else pure acc

def members (value : Step Json) : Step (List (String × Json)) := do
  membersFrom value ((← get).rest.length + 1) true []

/-- A value of any type; `array` and `object` read one after its opening bracket. -/
def anyValue (array object : Step Json) : Step Json := do
  match ← next with
  | none => throw .endInValue
  | some 'n' => take; lex (word ['u', 'l', 'l']); pure .null
  | some 't' => take; lex (word ['r', 'u', 'e']); pure (.bool true)
  | some 'f' => take; lex (word ['a', 'l', 's', 'e']); pure (.bool false)
  | some '"' => take; return .string (← lex readString)
  | some '[' => array
  | some '\x7b' => object
  | some c =>
    if c == '-' || c.isDigit then return .number (← lex readNumber) else throw .expectedValue

end Step

open Step

namespace Reader

/-- A free-form value. -/
def value : Reader Json
  | 0 => anyValue (throw .tooDeep) (throw .tooDeep)
  | depth + 1 =>
    anyValue
      (do take; let xs ← items (value depth); closeArray; pure (.array xs))
      (do take; let ms ← members (value depth); closeObject; pure (.object ms))

def string : Reader String := fun _ => do
  match ← next with
  | none => throw .endInValue
  | some '"' => take; lex readString
  | some _ => mismatch "a string"

def boolean : Reader Bool := fun _ => do
  match ← next with
  | none => throw .endInValue
  | some 't' => take; lex (word ['r', 'u', 'e']); pure true
  | some 'f' => take; lex (word ['a', 'l', 's', 'e']); pure false
  | some _ => mismatch "a boolean"

/-- Null, where no content is expected. -/
def nothing : Reader Unit := fun _ => do
  match ← next with
  | none => throw .endInValue
  | some 'n' => take; lex (word ['u', 'l', 'l'])
  | some _ => mismatch "unit"

/-- A number, where something called `expected` is due. -/
def numberAs (expected : String) : Step Number := do
  match ← next with
  | none => throw .endInValue
  | some c => if c == '-' || c.isDigit then lex readNumber else mismatch expected

/-- A number as a double. -/
def double : Reader Double := fun _ => return (← numberAs "f64").toDouble

/-- A natural number below `2 ^ 64`, spelled as an integer. -/
def count : Reader Nat := fun _ => do
  match ← numberAs "usize" with
  | .integer i => if i < 0 then throw (.invalidValue (.integer i) "usize") else pure i.toNat
  | .real x => throw (.invalidType (.real x) "usize")

/-- A value or null. -/
def optional (reader : Reader α) : Reader (Option α) := fun depth => do
  match ← next with
  | some 'n' => take; lex (word ['u', 'l', 'l']); pure none
  | _ => return some (← reader depth)

/-- An array of values of one type. -/
def list (item : Reader α) : Reader (List α) := fun depth => do
  match ← next with
  | none => throw .endInValue
  | some '[' =>
    nested (fun depth => do let xs ← items (item depth); closeArray; pure xs) depth
  | some _ => mismatch "a sequence"

/-- A value made from another, which may refuse it. -/
def refine (reader : Reader α) (make : α → Except String β) : Reader β := fun depth => do
  match make (← reader depth) with
  | .ok b => pure b
  | .error reason => throw (.refused reason)

/-- A value made from another. -/
def map (make : α → β) (reader : Reader α) : Reader β := fun depth => return make (← reader depth)

/-- Reads a whole text. The values set aside are reported whether or not the reading succeeds. -/
def run (reader : Reader α) (text : String) : Except Fault α × List Json :=
  let whole : Step α := do
    let a ← reader depthLimit
    match ← next with
    | none => pure a
    | some _ => throw .trailingCharacters
  match whole.run { rest := text.toList, setAside := [] } with
  | .ok a c => (.ok a, c.setAside)
  | .error e c => (.error e, c.setAside)

/-- Reads a whole text. -/
def read (reader : Reader α) (text : String) : Except Fault α := (reader.run text).1

end Reader

end RuleFlow.Json
