import RuleFlow.Graph.Basic

/-! # Flow graphs in JSON

Nodes and details are unions tagged with the name of their variant; the value of a condition is
written in its tagged form, so that reading gives back the same double. -/

namespace RuleFlow

open Json (Reader Field Fields Variant)

namespace Rollup

def toJson (r : Rollup) : Json :=
  .object [("total", .ofNat r.total), ("succeeded", .ofNat r.succeeded),
    ("failed", .ofNat r.failed), ("pending", .ofNat r.pending),
    ("last_status", .ofOption Status.toJson r.lastStatus),
    ("last_started_at", .ofOption .string r.lastStartedAt)]

def reader : Reader Rollup :=
  .record "struct ExecutionSummary"
    (.field (.required "total" Reader.count) <|
     .field (.required "succeeded" Reader.count) <|
     .field (.required "failed" Reader.count) <|
     .field (.required "pending" Reader.count) <|
     .field (.nullable "last_status" Status.reader) <|
     .field (.nullable "last_started_at" Reader.string) <|
     .done)
    fun (total, succeeded, failed, pending, lastStatus, lastStartedAt, ()) =>
      ⟨total, succeeded, failed, pending, lastStatus, lastStartedAt⟩

end Rollup

namespace Detail

def toJson : Detail → Json
  | .predicate c =>
    .object [("Predicate", .object [("field", .string c.field), ("operator", c.operator.toJson),
      ("value", c.value.toTaggedJson)])]
  | .group kind childCount =>
    .object [("Combinator", .object [("kind", kind.toJson), ("child_count", .ofNat childCount)])]

def reader : Reader Detail :=
  .union
    [.fields "ConditionDetail" "Predicate"
      (.field (.required "field" Reader.string) <|
       .field (.required "operator" Operator.reader) <|
       .field (.required "value" Scalar.taggedReader) <|
       .done)
      (fun (field, operator, value, ()) => .predicate ⟨field, operator, value⟩),
     .fields "ConditionDetail" "Combinator"
      (.field (.required "kind" Combinator.reader) <|
       .field (.required "child_count" Reader.count) <|
       .done)
      (fun (kind, childCount, ()) => .group kind childCount)]

end Detail

namespace NodeData

def toJson : NodeData → Json
  | .trigger label triggerType executions =>
    .object [("Trigger", .object [("label", .string label), ("trigger_type", .string triggerType),
      ("executions", executions.toJson)])]
  | .condition label detail =>
    .object [("Condition", .object [("label", .string label), ("detail", detail.toJson)])]
  | .action label actionId actionType executions =>
    .object [("Action", .object [("label", .string label), ("action_id", .string actionId),
      ("action_type", .ofOption .string actionType), ("executions", executions.toJson)])]

def reader : Reader NodeData :=
  .union
    [.fields "NodeData" "Trigger"
      (.field (.required "label" Reader.string) <|
       .field (.required "trigger_type" Reader.string) <|
       .field (.required "executions" Rollup.reader) <|
       .done)
      (fun (label, triggerType, executions, ()) => .trigger label triggerType executions),
     .fields "NodeData" "Condition"
      (.field (.required "label" Reader.string) <|
       .field (.required "detail" Detail.reader) <|
       .done)
      (fun (label, detail, ()) => .condition label detail),
     .fields "NodeData" "Action"
      (.field (.required "label" Reader.string) <|
       .field (.required "action_id" Reader.string) <|
       .field (.nullable "action_type" Reader.string) <|
       .field (.required "executions" Rollup.reader) <|
       .done)
      (fun (label, actionId, actionType, executions, ()) =>
        .action label actionId actionType executions)]

end NodeData

namespace Node

def toJson (n : Node) : Json := .object [("id", .string n.id), ("data", n.data.toJson)]

def reader : Reader Node :=
  .record "struct GraphNode"
    (.field (.required "id" Reader.string) <|
     .field (.required "data" NodeData.reader) <|
     .done)
    fun (id, data, ()) => ⟨id, data⟩

end Node

namespace Branch

/-- The name of the outcome as a variant. -/
def variant : Branch → String
  | .passed => "True"
  | .failed => "False"

def toJson (b : Branch) : Json := .string b.variant

def reader : Reader Branch := .union [.plain "True" .passed, .plain "False" .failed]

end Branch

namespace Edge

def toJson (e : Edge) : Json :=
  .object [("id", .string e.id), ("source", .string e.source), ("target", .string e.target),
    ("branch", .ofOption Branch.toJson e.branch)]

def reader : Reader Edge :=
  .record "struct GraphEdge"
    (.field (.required "id" Reader.string) <|
     .field (.required "source" Reader.string) <|
     .field (.required "target" Reader.string) <|
     .field (.nullable "branch" Branch.reader) <|
     .done)
    fun (id, source, target, branch, ()) => ⟨id, source, target, branch⟩

end Edge

namespace FlowGraph

def toJson (g : FlowGraph) : Json :=
  .object [("nodes", .array (g.nodes.map Node.toJson)), ("edges", .array (g.edges.map Edge.toJson))]

def reader : Reader FlowGraph :=
  .record "struct FlowGraph"
    (.field (.required "nodes" Node.reader.list) <|
     .field (.required "edges" Edge.reader.list) <|
     .done)
    fun (nodes, edges, ()) => ⟨nodes, edges⟩

end FlowGraph

end RuleFlow
