import RuleFlow.Wire.Codec
import RuleFlow.Layout.Placement
import RuleFlow.Summary

/-! # Compiled flows

The artifact kept of a compiled rule: its id, its summary and its placed graph, in JSON or in bytes.
The bytes hold the fields in order, without names; operators are written as their symbols. -/

namespace RuleFlow

structure CompiledFlow where
  ruleId : String
  summary : String
  graph : PlacedGraph Double
deriving DecidableEq, Repr, Inhabited

/-- The compiled flow of a bundle. -/
def CompiledFlow.ofBundle (b : Bundle) (config : LayoutConfig Double) : CompiledFlow where
  ruleId := b.rule.id
  summary := b.rule.describe b.actions
  graph := b.compile.arrange config

/-! ## JSON -/

namespace CompiledFlow

open Json (Reader Field Fields)

def toJson (f : CompiledFlow) : Json :=
  .object [("rule_id", .string f.ruleId), ("summary", .string f.summary),
    ("graph", f.graph.toJson)]

def reader : Reader CompiledFlow :=
  .record "struct CompiledFlow"
    (.field (.required "rule_id" Reader.string) <|
     .field (.required "summary" Reader.string) <|
     .field (.required "graph" PlacedGraph.reader) <|
     .done)
    fun (ruleId, summary, graph, ()) => ⟨ruleId, summary, graph⟩

end CompiledFlow

/-! ## Bytes -/

open Wire (Codec Case)

namespace Scalar

def codec : Codec Scalar :=
  .union
    [⟨.double, .number, fun | .number x => some x | _ => none⟩,
     ⟨.bool, .bool, fun | .bool b => some b | _ => none⟩,
     ⟨.string, .text, fun | .text s => some s | _ => none⟩,
     ⟨.unit, fun _ => .null, fun | .null => some () | _ => none⟩]

end Scalar

/-- A variant without content. -/
def plainCase [BEq α] (value : α) : Case α :=
  ⟨.unit, fun _ => value, fun a => if a == value then some () else none⟩

def Combinator.codec : Codec Combinator := .union [plainCase .and, plainCase .or]

def Status.codec : Codec Status :=
  .union [plainCase .success, plainCase .failed, plainCase .pending]

def Branch.codec : Codec Branch := .union [plainCase .passed, plainCase .failed]

def Operator.codec : Codec Operator := Codec.string.via .ofSymbol symbol

def Condition.codec : Codec Condition :=
  (Codec.string.pair (Operator.codec.pair Scalar.codec)).via
    (fun (field, operator, value) => ⟨field, operator, value⟩)
    (fun c => (c.field, c.operator, c.value))

def Rollup.codec : Codec Rollup :=
  (Codec.nat.pair <| Codec.nat.pair <| Codec.nat.pair <| Codec.nat.pair <|
    Status.codec.option.pair Codec.string.option).via
    (fun (total, succeeded, failed, pending, lastStatus, lastStartedAt) =>
      ⟨total, succeeded, failed, pending, lastStatus, lastStartedAt⟩)
    (fun r => (r.total, r.succeeded, r.failed, r.pending, r.lastStatus, r.lastStartedAt))

def Detail.codec : Codec Detail :=
  .union
    [⟨Condition.codec, .predicate, fun | .predicate c => some c | _ => none⟩,
     ⟨Combinator.codec.pair .nat, fun (kind, childCount) => .group kind childCount,
      fun | .group kind childCount => some (kind, childCount) | _ => none⟩]

def NodeData.codec : Codec NodeData :=
  .union
    [⟨Codec.string.pair (Codec.string.pair Rollup.codec),
      fun (label, triggerType, executions) => .trigger label triggerType executions,
      fun
      | .trigger label triggerType executions => some (label, triggerType, executions)
      | _ => none⟩,
     ⟨Codec.string.pair Detail.codec,
      fun (label, detail) => .condition label detail,
      fun | .condition label detail => some (label, detail) | _ => none⟩,
     ⟨Codec.string.pair (Codec.string.pair (Codec.string.option.pair Rollup.codec)),
      fun (label, actionId, actionType, executions) => .action label actionId actionType executions,
      fun
      | .action label actionId actionType executions =>
        some (label, actionId, actionType, executions)
      | _ => none⟩]

def Node.codec : Codec Node :=
  (Codec.string.pair NodeData.codec).via (fun (id, data) => ⟨id, data⟩) (fun n => (n.id, n.data))

def Edge.codec : Codec Edge :=
  (Codec.string.pair <| Codec.string.pair <| Codec.string.pair Branch.codec.option).via
    (fun (id, source, target, branch) => ⟨id, source, target, branch⟩)
    (fun e => (e.id, e.source, e.target, e.branch))

def PlacedNode.codec : Codec (PlacedNode Double) :=
  (Node.codec.pair <| Codec.nat.pair <| Codec.double.pair Codec.double).via
    (fun (node, layer, x, y) => ⟨node, layer, x, y⟩)
    (fun n => (n.node, n.layer, n.x, n.y))

def PlacedGraph.codec : Codec (PlacedGraph Double) :=
  (PlacedNode.codec.list.pair Edge.codec.list).via
    (fun (nodes, edges) => ⟨nodes, edges⟩)
    (fun g => (g.nodes, g.edges))

namespace CompiledFlow

def codec : Codec CompiledFlow :=
  (Codec.string.pair <| Codec.string.pair PlacedGraph.codec).via
    (fun (ruleId, summary, graph) => ⟨ruleId, summary, graph⟩)
    (fun f => (f.ruleId, f.summary, f.graph))

/-- The bytes of a compiled flow. -/
def toBytes (f : CompiledFlow) : List UInt8 := codec.encode f

/-- The compiled flow that bytes start with. -/
def ofBytes (bytes : List UInt8) : Except Wire.Fault CompiledFlow :=
  (codec.decode bytes).map Prod.fst

end CompiledFlow

/-! ## Equality

Equality of compiled flows as the program tests it: numbers are compared as numbers. -/

def Detail.agrees : Detail → Detail → Bool
  | .predicate a, .predicate b => a.agrees b
  | a, b => a == b

def NodeData.agrees : NodeData → NodeData → Bool
  | .condition label detail, .condition label' detail' => label == label' && detail.agrees detail'
  | a, b => a == b

def PlacedNode.agrees (a b : PlacedNode Double) : Bool :=
  a.node.id == b.node.id && a.node.data.agrees b.node.data && a.layer == b.layer &&
    a.x.agrees b.x && a.y.agrees b.y

def PlacedGraph.agrees (a b : PlacedGraph Double) : Bool :=
  a.nodes.length == b.nodes.length && (a.nodes.zip b.nodes).all (fun (n, m) => n.agrees m) &&
    a.edges == b.edges

def CompiledFlow.agrees (a b : CompiledFlow) : Bool :=
  a.ruleId == b.ruleId && a.summary == b.summary && a.graph.agrees b.graph

end RuleFlow
