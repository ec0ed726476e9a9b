import RuleFlow.Json.Fault

/-! # Words, numbers and strings of a JSON text

Readers of the smallest parts. Each takes the characters left and returns what it has read with the
characters after it. `skipNumber` and `skipString` are for parts that nobody wants: they check the
form, and neither the size of a number nor the pairing of surrogates. -/

namespace RuleFlow.Json

/-- A reader of a prefix. -/
abbrev Lexer (α : Type) := List Char → Except Fault (α × List Char)

def isBlankChar (c : Char) : Bool := c == ' ' || c == '\n' || c == '\t' || c == '\r'

def skipBlanks (s : List Char) : List Char := s.dropWhile isBlankChar

/-- Reads the given characters. -/
def word : List Char → Lexer Unit
  | [], s => .ok ((), s)
  | _ :: _, [] => .error .endInValue
  | e :: es, c :: s => if c = e then word es s else .error .expectedIdent

/-! ## Numbers -/

def digitValue (c : Char) : Nat := c.toNat - '0'.toNat

/-- The largest significand that a number may collect digit by digit. -/
def significandLimit : Nat := 2 ^ 64 - 1

/-- A double divided by a power of ten, in steps of at most `10 ^ 308`, each of them rounded. -/
def scaleDown (x : Double) (power : Nat) : Double :=
  if power ≤ 308 then x.div (.ofNat (10 ^ power))
  else if x.isZero then x
  else scaleDown (x.div (.ofNat (10 ^ 308))) (power - 308)
termination_by power

/-- A double from its sign, significand and power of ten, by one rounded multiplication or by
division; one that would be too great is refused. -/
def assembleReal (negative : Bool) (significand : Nat) (exponent : Int) : Except Fault Double :=
  let x := Double.ofNat significand
  let sign (y : Double) : Double := if negative then y.neg else y
  if exponent < 0 then .ok (sign (scaleDown x exponent.natAbs))
  else if x.isZero then .ok (sign x)
  else if 308 < exponent then .error .numberOutOfRange
  else
    let y := x.mul (.ofNat (10 ^ exponent.natAbs))
    if y.isFinite then .ok (sign y) else .error .numberOutOfRange

/-- Digits of an exponent. -/
def exponentDigits (acc : Nat) : List Char → Nat × List Char
  | [] => (acc, [])
  | c :: s => if c.isDigit then exponentDigits (acc * 10 + digitValue c) s else (acc, c :: s)

/-- The exponent after its `e`, and the number that it completes. -/
def exponentPart (negative : Bool) (significand : Nat) (exponent : Int) : Lexer Double := fun s =>
  let (down, s) := match s with
    | '+' :: r => (false, r)
    | '-' :: r => (true, r)
    | r => (false, r)
  match s with
  | [] => .error .endInValue
  | c :: _ =>
    if c.isDigit then do
      let (e, r) := exponentDigits 0 s
      let x ← assembleReal negative significand (if down then exponent - e else exponent + e)
      pure (x, r)
    else .error .invalidNumber

/-- What may follow the digits of a number: an exponent, or its end. -/
def afterDigits (negative : Bool) (significand : Nat) (exponent : Int) : Lexer Double
  | 'e' :: r | 'E' :: r => exponentPart negative significand exponent r
  | s => do pure (← assembleReal negative significand exponent, s)

/-- Digits after the point. Once a digit finds no room in the significand, it and all that follow
are left out. -/
def fractionDigits (significand : Nat) (exponent : Int) : List Char → Nat × Int × List Char
  | [] => (significand, exponent, [])
  | c :: s =>
    if c.isDigit then
      let next := significand * 10 + digitValue c
      if significandLimit < next then (significand, exponent, s.dropWhile Char.isDigit)
      else fractionDigits next (exponent - 1) s
    else (significand, exponent, c :: s)

/-- The part of a number after its point. -/
def fractionPart (negative : Bool) (significand : Nat) (exponent : Int) : Lexer Double
  | [] => .error .endInValue
  | c :: s =>
    if c.isDigit then
      let (significand, exponent, r) := fractionDigits significand exponent (c :: s)
      afterDigits negative significand exponent r
    else .error .invalidNumber

/-- Digits before the point, the digits left out for want of room, and the rest. -/
def wholeDigits (significand : Nat) : List Char → Nat × Nat × List Char
  | [] => (significand, 0, [])
  | c :: s =>
    if c.isDigit then
      let next := significand * 10 + digitValue c
      if significandLimit < next then
        (significand, ((c :: s).takeWhile Char.isDigit).length, s.dropWhile Char.isDigit)
      else wholeDigits next s
    else (significand, 0, c :: s)

/-- An integer keeps its value where 64 bits hold it; negative zero and what lies below `-2 ^ 63`
are doubles. -/
def wholeNumber (negative : Bool) (n : Nat) : Number :=
  if !negative then .integer n
  else if n = 0 ∨ 2 ^ 63 < n then .real (Double.ofNat n).neg
  else .integer (-n)

/-- A number after its sign. -/
def unsigned (negative : Bool) : Lexer Number
  | [] => .error .endInValue
  | '0' :: s =>
    match s with
    | '.' :: r => do let (x, r) ← fractionPart negative 0 0 r; pure (.real x, r)
    | 'e' :: r | 'E' :: r => do let (x, r) ← exponentPart negative 0 0 r; pure (.real x, r)
    | c :: r => if c.isDigit then .error .invalidNumber else .ok (wholeNumber negative 0, c :: r)
    | [] => .ok (wholeNumber negative 0, [])
  | c :: s =>
    if c.isDigit then
      let (n, dropped, r) := wholeDigits 0 (c :: s)
      match r with
      | '.' :: r => do let (x, r) ← fractionPart negative n dropped r; pure (.real x, r)
      | r =>
        if dropped = 0 ∧ r.head? ≠ some 'e' ∧ r.head? ≠ some 'E' then
          .ok (wholeNumber negative n, r)
        else do let (x, r) ← afterDigits negative n dropped r; pure (.real x, r)
    else .error .invalidNumber

/-- A number. -/
def readNumber : Lexer Number
  | '-' :: s => unsigned true s
  | s => unsigned false s

/-! ## Strings -/

/-- The value of a hexadecimal digit. -/
def hexValue? (c : Char) : Option Nat :=
  if c.isDigit then some (c.toNat - '0'.toNat)
  else if 'a' ≤ c ∧ c ≤ 'f' then some (c.toNat - 'a'.toNat + 10)
  else if 'A' ≤ c ∧ c ≤ 'F' then some (c.toNat - 'A'.toNat + 10)
  else none

/-- The value of four hexadecimal digits. -/
def hexValue4 (a b c d : Char) : Except Fault Nat :=
  match hexValue? a, hexValue? b, hexValue? c, hexValue? d with
  | some a, some b, some c, some d => .ok (((a * 16 + b) * 16 + c) * 16 + d)
  | _, _, _, _ => .error .invalidEscape

/-- What is wrong with a text that has fewer than four characters left for a hexadecimal escape: it
has ended, unless the characters take four bytes all the same. -/
def shortHex (s : List Char) : Fault :=
  if (String.ofList s).utf8ByteSize < 4 then .endInString else .invalidEscape

def isLeadingSurrogate (n : Nat) : Bool := 0xd800 ≤ n && n ≤ 0xdbff

def isTrailingSurrogate (n : Nat) : Bool := 0xdc00 ≤ n && n ≤ 0xdfff

/-- The character of a surrogate pair. -/
def pairChar (leading trailing : Nat) : Char :=
  Char.ofNat ((leading - 0xd800) * 0x400 + (trailing - 0xdc00) + 0x10000)

/-- The character that a short escape stands for. -/
def escaped? : Char → Option Char
  | '"' => some '"'
  | '\\' => some '\\'
  | '/' => some '/'
  | 'b' => some '\x08'
  | 'f' => some '\x0c'
  | 'n' => some '\n'
  | 'r' => some '\r'
  | 't' => some '\t'
  | _ => none

/-- The characters of a string after its opening quote, put before those already read in reverse. -/
def stringChars (acc : List Char) : Lexer (List Char)
  | [] => .error .endInString
  | '"' :: s => .ok (acc.reverse, s)
  | '\\' :: 'u' :: s =>
    match s with
    | a :: b :: c :: d :: s => do
      let n ← hexValue4 a b c d
      if isTrailingSurrogate n then throw .loneSurrogate
      if isLeadingSurrogate n then
        match s with
        | '\\' :: 'u' :: s =>
          match s with
          | a :: b :: c :: d :: s => do
            let m ← hexValue4 a b c d
            if isTrailingSurrogate m then stringChars (pairChar n m :: acc) s
            else throw .loneSurrogate
          | s => throw (shortHex s)
        | [] | ['\\'] => throw .endInString
        | _ => throw .brokenSurrogatePair
      else stringChars (Char.ofNat n :: acc) s
    | s => .error (shortHex s)
  | '\\' :: c :: s =>
    match escaped? c with
    | some c => stringChars (c :: acc) s
    | none => .error .invalidEscape
  | ['\\'] => .error .endInString
  | c :: s => if c.toNat < 0x20 then .error .controlCharacter else stringChars (c :: acc) s

/-- A string after its opening quote. -/
def readString : Lexer String := fun s => do
  let (cs, r) ← stringChars [] s
  pure (String.ofList cs, r)

/-! ## Skipping -/

/-- Passes over an exponent after its `e`. -/
def skipExponent (s : List Char) : Except Fault (List Char) :=
  let s := match s with
    | '+' :: r | '-' :: r => r
    | r => r
  match s with
  | [] => .error .invalidNumber
  | c :: r => if c.isDigit then .ok (r.dropWhile Char.isDigit) else .error .invalidNumber

/-- Passes over what may follow the digits of a number. -/
def skipAfterDigits : List Char → Except Fault (List Char)
  | 'e' :: r | 'E' :: r => skipExponent r
  | s => .ok s

/-- Passes over what may follow the whole part of a number. -/
def skipAfterWhole : List Char → Except Fault (List Char)
  | '.' :: [] => .error .invalidNumber
  | '.' :: c :: r =>
    if c.isDigit then skipAfterDigits (r.dropWhile Char.isDigit) else .error .invalidNumber
  | s => skipAfterDigits s

/-- Passes over a number after its sign. -/
def skipUnsigned : List Char → Except Fault (List Char)
  | [] => .error .invalidNumber
  | '0' :: c :: r => if c.isDigit then .error .invalidNumber else skipAfterWhole (c :: r)
  | c :: r =>
    if c.isDigit then skipAfterWhole (r.dropWhile Char.isDigit) else .error .invalidNumber

/-- Passes over a number. -/
def skipNumber : List Char → Except Fault (List Char)
  | '-' :: s => skipUnsigned s
  | s => skipUnsigned s

/-- Passes over a string after its opening quote. -/
def skipString : List Char → Except Fault (List Char)
  | [] => .error .endInString
  | '"' :: s => .ok s
  | '\\' :: 'u' :: s =>
    match s with
    | a :: b :: c :: d :: s => do
      let _ ← hexValue4 a b c d
      skipString s
    | s => .error (shortHex s)
  | '\\' :: c :: s => if (escaped? c).isSome then skipString s else .error .invalidEscape
  | ['\\'] => .error .endInString
  | c :: s => if c.toNat < 0x20 then .error .controlCharacter else skipString s

/-- What a skip has entered and not yet left. -/
inductive Frame where
  | list
  | object

/-- Passes over the key and the colon that lead to a member's value. -/
def skipKey (s : List Char) : Except Fault (List Char) :=
  match skipBlanks s with
  | [] => .error .endInObject
  | '"' :: s => do
    let s ← skipString s
    match skipBlanks s with
    | [] => .error .endInObject
    | ':' :: s => pure s
    | _ => .error .expectedColon
  | _ => .error .keyNotString

/-- Passes over a value of any depth. `due` tells whether a value stands next, or a value or an
opening bracket has just been passed; in the second case `comma` tells whether a comma may follow.
Each step passes over a character, so the length of the text bounds the steps. -/
def skipFrom (fuel : Nat) (due comma : Bool) (frames : List Frame) (s : List Char) :
    Except Fault (List Char) :=
  match fuel with
  | 0 => .error .endInValue
  | fuel + 1 =>
    if due then
      match skipBlanks s with
      | [] => .error .endInValue
      | 'n' :: s => do let (_, s) ← word ['u', 'l', 'l'] s; skipFrom fuel false true frames s
      | 't' :: s => do let (_, s) ← word ['r', 'u', 'e'] s; skipFrom fuel false true frames s
      | 'f' :: s => do let (_, s) ← word ['a', 'l', 's', 'e'] s; skipFrom fuel false true frames s
      | '"' :: s => do let s ← skipString s; skipFrom fuel false true frames s
      | '[' :: s => skipFrom fuel false false (.list :: frames) s
      | '\x7b' :: s => skipFrom fuel false false (.object :: frames) s
      | c :: s =>
        if c == '-' || c.isDigit then do
          let s ← skipNumber (c :: s)
          skipFrom fuel false true frames s
        else .error .expectedValue
    else
      match frames with
      | [] => .ok s
      | .list :: outer =>
        match skipBlanks s with
        | [] => .error .endInList
        | ']' :: s => skipFrom fuel false true outer s
        | c :: s =>
          if !comma then skipFrom fuel true comma frames (c :: s)
          else if c == ',' then skipFrom fuel true comma frames s
          else .error .expectedListEnd
      | .object :: outer =>
        match skipBlanks s with
        | [] => .error .endInObject
        | '\x7d' :: s => skipFrom fuel false true outer s
        | c :: s =>
          if !comma then do skipFrom fuel true comma frames (← skipKey (c :: s))
          else if c == ',' then do skipFrom fuel true comma frames (← skipKey s)
          else .error .expectedObjectEnd

/-- Passes over a value. -/
def skipValue (s : List Char) : Except Fault (List Char) :=
  skipFrom (2 * s.length + 2) true false [] s

end RuleFlow.Json
