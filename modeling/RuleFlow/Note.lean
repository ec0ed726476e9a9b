import RuleFlow.Layout.Placement
import RuleFlow.Summary
import RuleFlow.Form

/-! # Notes

What the program remarks on besides its answers. Each activity has a function that lists its notes
in the order in which they arise; the activity itself does not depend on them. -/

namespace RuleFlow

inductive Level where
  | debug
  | warn
deriving DecidableEq, Repr

def Level.name : Level → String
  | .debug => "DEBUG"
  | .warn => "WARN"

inductive Note where
  /-- A rule's logic is no tree, and counts as none. -/
  | malformedLogic (value : Json)
  | emptyGroup (kind : Combinator)
  /-- A rule's logic has no leaf. -/
  | alwaysOn (ruleId : String)
  | compiled (ruleId : String) (nodes edges : Nat)
  /-- An end of an edge is no node. -/
  | unknownEndpoint (edge : Edge)
  /-- A node was released from a cycle. -/
  | cycle (nodeId : String) (layer : Nat)
  | laidOut (nodes layers : Nat)
  /-- A form has dropped groups. -/
  | flattened (kind : Combinator) (kept total : Nat)
deriving DecidableEq, Repr

namespace Note

def level : Note → Level
  | .unknownEndpoint _ | .cycle .. => .warn
  | _ => .debug

private def number (n : Nat) : String := String.ofList (countText n)

def message : Note → String
  | .malformedLogic v => "Ignoring malformed rule logic: " ++ v.text
  | .emptyGroup kind => "Dropping empty " ++ kind.word ++ " combinator"
  | .alwaysOn id =>
    "Rule '" ++ id ++ "' has no usable condition after normalization; treating as always-on"
  | .compiled id nodes edges =>
    "Compiled rule '" ++ id ++ "' into " ++ number nodes ++ " nodes and " ++ number edges ++
      " edges"
  | .unknownEndpoint e =>
    "Ignoring edge '" ++ e.id ++ "': endpoint '" ++ e.source ++ "' -> '" ++ e.target ++
      "' is not a known node"
  | .cycle id layer =>
    "Cycle detected at node '" ++ id ++ "'; placing it on layer " ++ number layer
  | .laidOut nodes layers =>
    "Laid out " ++ number nodes ++ " nodes across " ++ number layers ++ " layers"
  | .flattened kind kept total =>
    "Flattening nested " ++ kind.word ++ " group: " ++ number kept ++ " of " ++ number total ++
      " conditions kept"

/-- The line of a log. -/
def line (n : Note) : String := n.level.name ++ " " ++ n.message

end Note

/-! ## The notes of each activity -/

/-- Removing empty groups. -/
def Logic.normalizeNotes (t : Logic) : List Note := t.emptyGroups.map .emptyGroup

/-- Finding the tree of a rule, as describing it does. -/
def Rule.treeNotes (rule : Rule) : List Note := rule.logic.elim [] Logic.normalizeNotes

/-- Compiling a bundle. -/
def Bundle.compileNotes (b : Bundle) : List Note :=
  b.rule.treeNotes ++
    (if b.rule.logic.isSome && b.rule.tree?.isNone then [.alwaysOn b.rule.id] else []) ++
    [.compiled b.rule.id b.compile.nodes.length b.compile.edges.length]

/-- Laying out a graph. -/
def FlowGraph.layoutNotes (g : FlowGraph) : List Note :=
  let sweep := assignLayers g.nodes g.edges
  (unresolved g.nodes g.edges).map .unknownEndpoint ++
    sweep.released.map (fun (v, k) => .cycle (g.nodes.get v).id k) ++
    [.laidOut g.nodes.length (sweep.order.map sweep.layer.get).eraseDups.length]

/-- Loading a tree into a form. -/
def Form.loadNotes : Option Logic → List Note
  | some (.group kind children) =>
    if children.all Logic.isLeaf then []
    else [.flattened kind (children.filterMap Logic.condition?).length children.length]
  | _ => []

end RuleFlow
