import RuleFlow.Json.Reader

/-! # Records and unions

A record is described by the list of its fields. From the one description come the reader of an
object, whose members stand in any order and may hold unknown keys, and the reader of an array that
holds the fields' values in order. A union is described by its variants, each of which is read from
its bare name or from an object that has the name for its only key. -/

namespace RuleFlow.Json

open Step

/-! ## Records -/

/-- A field of a record. -/
structure Field (α : Type) where
  name : String
  /-- Other keys for the field. -/
  aliases : List String
  reader : Reader α
  /-- The value where an object has no such key; without one the field is required. -/
  absent : Option α
  /-- The value where an array ends before the field; without one the field is required. -/
  cutOff : Option α

namespace Field

def required (name : String) (reader : Reader α) (aliases : List String := []) : Field α :=
  ⟨name, aliases, reader, none, none⟩

def withDefault (name : String) (reader : Reader α) (default : α) (aliases : List String := []) :
    Field α :=
  ⟨name, aliases, reader, some default, some default⟩

/-- A field that may be null, or missing from an object. -/
def nullable (name : String) (reader : Reader α) : Field (Option α) :=
  ⟨name, [], reader.optional, some none, none⟩

def answersTo (f : Field α) (key : String) : Bool := key == f.name || f.aliases.contains key

end Field

/-- The fields of a record, with the type of their values taken together and the type of the slots
that hold the values read so far. -/
inductive Fields : Type → Type → Type 1 where
  | done : Fields Unit Unit
  | field {α β σ : Type} (first : Field α) (others : Fields β σ) : Fields (α × β) (Option α × σ)

namespace Fields

def size : Fields τ σ → Nat
  | .done => 0
  | .field _ fs => fs.size + 1

def emptySlots : Fields τ σ → σ
  | .done => ()
  | .field _ fs => (none, fs.emptySlots)

/-- Reads the value of a key into its field. The answer is `none` for a key of no field. -/
def readInto (depth : Nat) (key : String) : Fields τ σ → σ → Step (Option σ)
  | .done, _ => pure none
  | .field f fs, (slot, slots) => do
    if f.answersTo key then
      if slot.isSome then throw (.duplicateField f.name)
      colon
      return some (some (← f.reader depth), slots)
    else
      match ← readInto depth key fs slots with
      | some slots => return some (slot, slots)
      | none => return none

/-- The values of all fields; the first that is missing and required is a fault. -/
def collect : Fields τ σ → σ → Except Fault τ
  | .done, _ => .ok ()
  | .field f fs, (slot, slots) =>
    match slot.or f.absent with
    | some a => do return (a, ← fs.collect slots)
    | none => .error (.missingField f.name)

/-- The members of an object up to its end. -/
def readMembers (fs : Fields τ σ) (depth : Nat) : Nat → Bool → σ → Step σ
  | 0, _, _ => throw .endInObject
  | fuel + 1, first, slots => do
    if ← hasMember first then
      match ← fs.readInto depth (← key) slots with
      | some slots => fs.readMembers depth fuel false slots
      | none =>
        colon
        skip skipValue
        fs.readMembers depth fuel false slots
    else pure slots

/-- The fields of an object, after its opening bracket. -/
def readObject (fs : Fields τ σ) : Reader τ := fun depth => do
  let slots ← fs.readMembers depth ((← get).rest.length + 1) true fs.emptySlots
  match fs.collect slots with
  | .ok a => closeObject; pure a
  | .error e => throw e

/-- The fields of an array, after its opening bracket. `index` counts those before. -/
def readItems (expected : String) (depth : Nat) : Fields τ σ → (index : Nat) → Step τ
  | .done, _ => pure ()
  | .field f fs, index => do
    if ← hasItem (index == 0) then
      let a ← f.reader depth
      return (a, ← readItems expected depth fs (index + 1))
    else
      match f.cutOff with
      | some a => return (a, ← readItems expected depth fs (index + 1))
      | none => throw (.invalidLength index expected)

/-- The fields of an array, after its opening bracket. -/
def readArray (name : String) (fs : Fields τ σ) : Reader τ := fun depth => do
  let expected := name ++ " with " ++ String.ofList (countText fs.size) ++ " elements"
  let a ← fs.readItems expected depth 0
  closeArray
  pure a

end Fields

/-- A record, from an object or an array of its fields. `name` is what the reader says it
expects. -/
def Reader.record (name : String) (fs : Fields τ σ) (make : τ → α) : Reader α := fun depth => do
  match ← next with
  | none => throw .endInValue
  | some '[' => return make (← nested (fs.readArray name) depth)
  | some '\x7b' => return make (← nested fs.readObject depth)
  | some _ => mismatch name

/-! ## Unions -/

/-- A variant of a union: what its bare name stands for, and the reader of its content. -/
structure Variant (α : Type) where
  name : String
  bare : Except Fault α
  content : Reader α

namespace Variant

/-- A variant without content. -/
def plain (name : String) (value : α) : Variant α :=
  ⟨name, .ok value, Reader.nothing.map fun _ => value⟩

/-- A variant that wraps one value. -/
def wrapper (name : String) (reader : Reader α) : Variant α :=
  ⟨name, .error (.invalidType .bareVariant "newtype variant"), reader⟩

/-- A variant with named fields, of a union called `union`. -/
def fields (union name : String) (fs : Fields τ σ) (make : τ → α) : Variant α :=
  ⟨name, .error (.invalidType .bareVariant "struct variant"),
    .record ("struct variant " ++ union ++ "::" ++ name) fs make⟩

end Variant

/-- The variant of a name. -/
def findVariant (variants : List (Variant α)) (name : String) : Step (Variant α) :=
  match variants.find? (·.name == name) with
  | some v => pure v
  | none => throw (.unknownVariant name (variants.map (·.name)))

/-- A variant's name, as the key of its object. -/
def variantName : Step String := do
  match ← next with
  | none => throw .endInObject
  | some '"' => key
  | some '\x7d' => throw .expectedValue
  | some _ => throw .keyNotString

/-- A union, from a bare name or an object with one member. -/
def Reader.union (variants : List (Variant α)) : Reader α := fun depth => do
  match ← next with
  | none => throw .endInValue
  | some '"' =>
    let v ← findVariant variants (← key)
    match v.bare with
    | .ok a => pure a
    | .error e => throw e
  | some '\x7b' =>
    nested (fun depth => do
      let v ← findVariant variants (← variantName)
      colon
      let a ← v.content depth
      match ← next with
      | some '\x7d' => take; pure a
      | some _ => throw .expectedValue
      | none => throw .endInObject) depth
  | some _ => throw .expectedValue

end RuleFlow.Json
