import RuleFlow.Json.Basic
import RuleFlow.Double.Decimal

/-! # JSON text

`compact` writes a value without blanks, `pretty` with two blanks of indentation per level. Both
escape the quote, the backslash and the control characters below the blank, and nothing else. -/

namespace RuleFlow.Json

/-! ## Leaves -/

/-- How a character stands in a quoted text. -/
def escapeChar (c : Char) : List Char :=
  match c with
  | '"' => ['\\', '"']
  | '\\' => ['\\', '\\']
  | '\x08' => ['\\', 'b']
  | '\t' => ['\\', 't']
  | '\n' => ['\\', 'n']
  | '\x0c' => ['\\', 'f']
  | '\r' => ['\\', 'r']
  | c =>
    if c.toNat < 0x20 then
      ['\\', 'u', '0', '0', Nat.digitChar (c.toNat / 16), Nat.digitChar (c.toNat % 16)]
    else [c]

def quote (s : String) : List Char := '"' :: s.toList.flatMap escapeChar ++ ['"']

/-- A number; a double that is not finite has no text of its own. -/
def Number.text : Number → List Char
  | .integer i => integerText i
  | .real x => if x.isFinite then x.dataText else ['n', 'u', 'l', 'l']

/-! ## Without blanks -/

mutual

/-- The text of a value, without blanks. -/
def compact : Json → List Char
  | .null => ['n', 'u', 'l', 'l']
  | .bool true => ['t', 'r', 'u', 'e']
  | .bool false => ['f', 'a', 'l', 's', 'e']
  | .number n => n.text
  | .string s => quote s
  | .array [] => ['[', ']']
  | .array (x :: xs) => '[' :: compact x ++ compactItems xs
  | .object [] => ['{', '}']
  | .object ((k, x) :: ms) => '{' :: quote k ++ ':' :: compact x ++ compactMembers ms

/-- The items after the first, each led by a comma, and the end of the array. -/
def compactItems : List Json → List Char
  | [] => [']']
  | x :: xs => ',' :: compact x ++ compactItems xs

/-- The members after the first, each led by a comma, and the end of the object. -/
def compactMembers : List (String × Json) → List Char
  | [] => ['}']
  | (k, x) :: ms => ',' :: quote k ++ ':' :: compact x ++ compactMembers ms

end

/-! ## With indentation -/

/-- A new line at a depth. -/
def newLine (depth : Nat) : List Char := '\n' :: List.replicate (2 * depth) ' '

mutual

/-- The text of a value whose first line stands at a depth. -/
def prettyAt (depth : Nat) : Json → List Char
  | .null => ['n', 'u', 'l', 'l']
  | .bool true => ['t', 'r', 'u', 'e']
  | .bool false => ['f', 'a', 'l', 's', 'e']
  | .number n => n.text
  | .string s => quote s
  | .array [] => ['[', ']']
  | .array (x :: xs) => '[' :: newLine (depth + 1) ++ prettyAt (depth + 1) x ++ prettyItems depth xs
  | .object [] => ['{', '}']
  | .object ((k, x) :: ms) =>
    '{' :: newLine (depth + 1) ++ quote k ++ ':' :: ' ' :: prettyAt (depth + 1) x ++
      prettyMembers depth ms

def prettyItems (depth : Nat) : List Json → List Char
  | [] => newLine depth ++ [']']
  | x :: xs => ',' :: newLine (depth + 1) ++ prettyAt (depth + 1) x ++ prettyItems depth xs

def prettyMembers (depth : Nat) : List (String × Json) → List Char
  | [] => newLine depth ++ ['}']
  | (k, x) :: ms =>
    ',' :: newLine (depth + 1) ++ quote k ++ ':' :: ' ' :: prettyAt (depth + 1) x ++
      prettyMembers depth ms

end

/-- The text of a value, without blanks. -/
def text (j : Json) : String := String.ofList j.compact

/-- The text of a value, a line for each item and member. -/
def pretty (j : Json) : String := String.ofList (j.prettyAt 0)

end RuleFlow.Json
