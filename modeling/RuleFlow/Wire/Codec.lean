import RuleFlow.Double.Basic

/-! # Binary codecs

A codec writes a value as bytes and reads it back from the front of a list of bytes, returning the
bytes after it. Codecs of composed types are composed of codecs, so that writing and reading follow
one description. Integers take one byte below 251, else a byte that announces two, four or eight
bytes, the lowest first; texts and lists are led by their length, variants by their index. -/

namespace RuleFlow.Wire

/-- Why bytes are no value. -/
inductive Fault where
  | unexpectedEnd
  | invalidUtf8
  /-- The announced integer has more bytes than its type, or the announcement has no meaning. -/
  | integerTooWide
  | invalidBoolean
  | invalidOptionTag
  | unknownVariant
deriving DecidableEq, Repr

/-- A reader of the front of a list of bytes. -/
abbrev Decoder (α : Type) := List UInt8 → Except Fault (α × List UInt8)

structure Codec (α : Type) where
  encode : α → List UInt8
  decode : Decoder α

/-! ## Bytes -/

/-- Takes so many bytes. -/
def takeBytes (n : Nat) : Decoder (List UInt8) := fun bytes =>
  if n ≤ bytes.length then .ok (bytes.take n, bytes.drop n) else .error .unexpectedEnd

/-- A number in so many bytes, the lowest first. -/
def littleEndian : Nat → Nat → List UInt8
  | 0, _ => []
  | width + 1, n => UInt8.ofNat n :: littleEndian width (n / 256)

/-- The number in bytes, the lowest first. -/
def ofLittleEndian : List UInt8 → Nat
  | [] => 0
  | b :: bs => b.toNat + 256 * ofLittleEndian bs

/-! ## Integers -/

/-- The bytes of an integer below `2 ^ 64`. -/
def encodeVarint (n : Nat) : List UInt8 :=
  if n < 251 then [UInt8.ofNat n]
  else if n < 2 ^ 16 then 251 :: littleEndian 2 n
  else if n < 2 ^ 32 then 252 :: littleEndian 4 n
  else 253 :: littleEndian 8 n

/-- How many bytes a first byte announces; `none` for a first byte without a meaning. -/
def announcedWidth? (first : UInt8) : Option Nat :=
  if first = 251 then some 2
  else if first = 252 then some 4
  else if first = 253 then some 8
  else none

/-- Reads an integer of at most `width` bytes. -/
def decodeVarint (width : Nat) : Decoder Nat
  | [] => .error .unexpectedEnd
  | first :: rest =>
    if first < 251 then .ok (first.toNat, rest)
    else
      match announcedWidth? first with
      | some announced =>
        if announced ≤ width then do
          let (bytes, rest) ← takeBytes announced rest
          pure (ofLittleEndian bytes, rest)
        else .error .integerTooWide
      | none => .error .integerTooWide

namespace Codec

/-- A natural number below `2 ^ 64`. -/
def nat : Codec Nat := ⟨encodeVarint, decodeVarint 8⟩

/-- A double: its bits. -/
def double : Codec Double where
  encode x := littleEndian 8 x.bits.toNat
  decode bytes := do
    let (bytes, rest) ← takeBytes 8 bytes
    pure (⟨UInt64.ofNat (ofLittleEndian bytes)⟩, rest)

/-- A text: the number of its bytes, and its bytes. -/
def string : Codec String where
  encode s := encodeVarint s.utf8ByteSize ++ s.toUTF8.data.toList
  decode bytes := do
    let (n, rest) ← decodeVarint 8 bytes
    let (content, rest) ← takeBytes n rest
    match String.fromUTF8? ⟨content.toArray⟩ with
    | some s => pure (s, rest)
    | none => throw .invalidUtf8

/-! ## Composed values -/

def unit : Codec Unit where
  encode _ := []
  decode bytes := .ok ((), bytes)

def pair (a : Codec α) (b : Codec β) : Codec (α × β) where
  encode p := a.encode p.1 ++ b.encode p.2
  decode bytes := do
    let (x, rest) ← a.decode bytes
    let (y, rest) ← b.decode rest
    pure ((x, y), rest)

/-- A value written and read as another. -/
def via (codec : Codec α) (make : α → β) (parts : β → α) : Codec β where
  encode b := codec.encode (parts b)
  decode bytes := do
    let (a, rest) ← codec.decode bytes
    pure (make a, rest)

/-- A truth value: a byte. -/
def bool : Codec Bool where
  encode b := [if b then 1 else 0]
  decode
    | [] => .error .unexpectedEnd
    | first :: rest =>
      if first = 0 then .ok (false, rest)
      else if first = 1 then .ok (true, rest)
      else .error .invalidBoolean

/-- A value that may be missing: a byte, and the value. -/
def option (codec : Codec α) : Codec (Option α) where
  encode
    | none => [0]
    | some a => 1 :: codec.encode a
  decode
    | [] => .error .unexpectedEnd
    | first :: rest =>
      if first = 0 then .ok (none, rest)
      else if first = 1 then do
        let (a, rest) ← codec.decode rest
        pure (some a, rest)
      else .error .invalidOptionTag

/-- So many values. -/
def decodeMany (codec : Codec α) : Nat → Decoder (List α)
  | 0, bytes => .ok ([], bytes)
  | n + 1, bytes => do
    let (a, rest) ← codec.decode bytes
    let (as, rest) ← codec.decodeMany n rest
    pure (a :: as, rest)

/-- A list: its length, and its items. -/
def list (codec : Codec α) : Codec (List α) where
  encode as := encodeVarint as.length ++ as.flatMap codec.encode
  decode bytes := do
    let (n, rest) ← decodeVarint 8 bytes
    codec.decodeMany n rest

end Codec

/-- A variant of a union: the codec of its content, with the way from content to value and back. -/
structure Case (α : Type) where
  {Content : Type}
  codec : Codec Content
  make : Content → α
  /-- The content of a value of this variant. -/
  content? : α → Option Content

namespace Codec

/-- The index of a value's variant, counted from `index` on, and its content. -/
def encodeCase (a : α) (index : Nat) : List (Case α) → List UInt8
  | [] => []
  | c :: cs =>
    match c.content? a with
    | some content => encodeVarint index ++ c.codec.encode content
    | none => encodeCase a (index + 1) cs

/-- A union: the index of a value's variant, in at most four bytes, and its content. -/
def union (cases : List (Case α)) : Codec α where
  encode a := encodeCase a 0 cases
  decode bytes := do
    let (i, rest) ← decodeVarint 4 bytes
    match cases[i]? with
    | some c => do
      let (content, rest) ← c.codec.decode rest
      pure (c.make content, rest)
    | none => throw .unknownVariant

end Codec

end RuleFlow.Wire
