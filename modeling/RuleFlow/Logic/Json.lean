import RuleFlow.Logic.Basic

/-! # Condition trees in JSON

A condition is an object with a `field`; a group is an object whose only key names the combinator,
or one that names it under `combinator`. Reading drops the children of a group that are no trees.
Writing uses one spelling: `field`, `operator` and `value`, or the key `and` or `or`. -/

namespace RuleFlow.Logic

/-- A condition, from the members of its object. -/
def readCondition (field : Json) (members : List (String × Json)) : Option Condition := do
  let field ← field.string?
  let operator ← (Json.member? members "operator").or (Json.member? members "op")
  let symbol ← operator.string?
  pure ⟨field, .ofSymbol symbol, (Json.member? members "value").elim .null Scalar.ofJson⟩

/-- Reads an object, given its members and the trees in those of their values that are arrays. A
field comes before a combinator, and a combinator that can be read before the only key. -/
def ofMembers (members : List (String × Json)) (lists : List (String × Option (List Logic))) :
    Option Logic :=
  match Json.member? members "field" with
  | some field => (readCondition field members).map .leaf
  | none =>
    match (Json.member? members "combinator").bind Json.string? |>.bind Combinator.ofName? with
    | some kind =>
      ((lists.lookup "children").or (lists.lookup "conditions")).join.map (.group kind)
    | none =>
      match lists with
      | [(key, some children)] => (Combinator.ofName? key).map (.group · children)
      | _ => none

mutual

/-- Reads a tree; `none` for what is no tree. -/
def ofJson : Json → Option Logic
  | .object members => ofMembers members (listsIn members)
  | _ => none

/-- The trees in the members that are arrays. -/
def listsIn : List (String × Json) → List (String × Option (List Logic))
  | [] => []
  | (key, value) :: rest => (key, listIn value) :: listsIn rest

/-- The trees in an array. -/
def listIn : Json → Option (List Logic)
  | .array items => some (treesIn items)
  | _ => none

/-- The trees among the items of an array, in order. -/
def treesIn : List Json → List Logic
  | [] => []
  | x :: xs =>
    match ofJson x with
    | some t => t :: treesIn xs
    | none => treesIn xs

end

mutual

/-- Writes a tree. -/
def toJson : Logic → Json
  | .leaf c =>
    .object [("field", .string c.field), ("operator", c.operator.toJson), ("value", c.value.toJson)]
  | .group kind children => .object [(kind.key, .array (toJsonAll children))]

/-- Writes a list of trees. -/
def toJsonAll : List Logic → List Json
  | [] => []
  | t :: ts => t.toJson :: toJsonAll ts

end

/-- A tree; what is no tree is refused. -/
def reader : Json.Reader Logic :=
  Json.Reader.value.refine fun v =>
    match ofJson v with
    | some t => .ok t
    | none => .error ("malformed logic node: " ++ v.text)

/-- A tree or nothing. What is neither a tree nor null counts as nothing and is set aside. -/
def lenientReader : Json.Reader (Option Logic) := fun depth => do
  match ← Json.Reader.value.optional depth with
  | none => pure none
  | some v =>
    match ofJson v with
    | some t => pure (some t)
    | none =>
      unless v.isNull do Json.Step.setAside v
      pure none

end RuleFlow.Logic
