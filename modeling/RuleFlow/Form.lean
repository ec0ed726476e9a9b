import RuleFlow.Logic.Json
import RuleFlow.Text.Blank

/-! # Flat forms

A form edits a condition as a list of rows under one combinator. It covers no condition, a bare
comparison, and one group of comparisons. A deeper tree can still be loaded: of its groups only the
comparisons at the top are kept, and `Form.Load.complete` tells that the others were dropped. -/

namespace RuleFlow

structure Form where
  rows : List Condition
  combinator : Combinator
deriving DecidableEq, Repr, Inhabited

/-- A tree as a form, and whether the form holds all of it. -/
structure Form.Load where
  form : Form
  complete : Bool
deriving DecidableEq, Repr

namespace Form

def empty : Form := ⟨[], .and⟩

/-- Drops the rows whose field is blank. -/
def withoutBlankRows (f : Form) : Form :=
  { f with rows := f.rows.filter fun row => !Text.isBlank row.field }

/-- The tree of a form: nothing, a bare comparison, or a group of two and more. -/
def toLogic (f : Form) : Option Logic :=
  match f.rows with
  | [] => none
  | [row] => some (.leaf row)
  | rows => some (.group f.combinator (rows.map .leaf))

/-- Loads a tree. -/
def ofLogic : Option Logic → Load
  | none => ⟨empty, true⟩
  | some (.leaf c) => ⟨⟨[c], .and⟩, true⟩
  | some (.group kind children) =>
    ⟨⟨children.filterMap Logic.condition?, kind⟩, children.all Logic.isLeaf⟩

/-! ## JSON -/

open Json (Reader Field Fields)

def rowToJson (row : Condition) : Json :=
  .object [("field", .string row.field), ("operator", row.operator.toJson),
    ("value", row.value.toJson)]

def rowReader : Reader Condition :=
  .record "struct FlatConditionRow"
    (.field (.required "field" Reader.string) <|
     .field (.required "operator" Operator.reader) <|
     .field (.required "value" Scalar.reader) <|
     .done)
    fun (field, operator, value, ()) => ⟨field, operator, value⟩

/-- A combinator by any of its names. -/
def combinatorReader : Reader Combinator :=
  Reader.string.refine fun name =>
    match Combinator.ofName? name with
    | some kind => .ok kind
    | none => .error ("unknown combinator '" ++ name ++ "'")

def toJson (f : Form) : Json :=
  .object [("rows", .array (f.rows.map rowToJson)), ("combinator", .string f.combinator.word)]

def reader : Reader Form :=
  .record "struct FlatForm"
    (.field (.required "rows" rowReader.list) <|
     .field (.required "combinator" combinatorReader) <|
     .done)
    fun (rows, combinator, ()) => ⟨rows, combinator⟩

/-! ## JSON values -/

/-- Reads a row from a value. -/
def rowOfJson (v : Json) : Option Condition :=
  match v.fields? ["field", "operator", "value"] with
  | some [.string field, .string symbol, value] => some ⟨field, .ofSymbol symbol, .ofJson value⟩
  | _ => none

/-- Reads a form from a value. -/
def ofJson (v : Json) : Option Form :=
  match v.fields? ["rows", "combinator"] with
  | some [.array rows, .string name] => do
    pure ⟨← rows.mapM rowOfJson, ← Combinator.ofName? name⟩
  | _ => none

end Form

end RuleFlow
