import RuleFlow.Rule.Basic

/-! # Flow graphs

A rule as a graph: the trigger, the conditions and the actions are nodes, and edges lead from the
trigger through the conditions to the actions. Nodes and edges are lists, in a fixed order. -/

namespace RuleFlow

inductive NodeKind where
  | trigger
  | condition
  | action
deriving DecidableEq, Repr, Inhabited

namespace NodeKind

def name : NodeKind → String
  | .trigger => "trigger"
  | .condition => "condition"
  | .action => "action"

end NodeKind

/-- A roll-up of executions: how many there are, how many of each status, and the latest one. -/
structure Rollup where
  total : Nat
  succeeded : Nat
  failed : Nat
  pending : Nat
  lastStatus : Option Status
  lastStartedAt : Option String
deriving DecidableEq, Repr, Inhabited

/-- What a condition node stands for: a comparison, or a group of so many children. -/
inductive Detail where
  | predicate (condition : Condition)
  | group (kind : Combinator) (childCount : Nat)
deriving DecidableEq, Repr, Inhabited

/-- What a node holds, by its kind. -/
inductive NodeData where
  | trigger (label triggerType : String) (executions : Rollup)
  | condition (label : String) (detail : Detail)
  | action (label actionId : String) (actionType : Option String) (executions : Rollup)
deriving DecidableEq, Repr, Inhabited

namespace NodeData

def label : NodeData → String
  | .trigger label .. | .condition label _ | .action label .. => label

def kind : NodeData → NodeKind
  | .trigger .. => .trigger
  | .condition .. => .condition
  | .action .. => .action

end NodeData

structure Node where
  id : String
  data : NodeData
deriving DecidableEq, Repr, Inhabited

namespace Node

def label (n : Node) : String := n.data.label

def kind (n : Node) : NodeKind := n.data.kind

end Node

/-- The outcome that an edge out of a two-way condition stands for. -/
inductive Branch where
  | passed
  | failed
deriving DecidableEq, Repr, Inhabited

/-- The word for an outcome. -/
def Branch.word : Branch → String
  | .passed => "true"
  | .failed => "false"

structure Edge where
  id : String
  source : String
  target : String
  branch : Option Branch
deriving DecidableEq, Repr, Inhabited

/-- The edge between two nodes, with the id that their ids make. -/
def Edge.between (source target : String) (branch : Option Branch) : Edge :=
  ⟨"e-" ++ source ++ "-" ++ target, source, target, branch⟩

structure FlowGraph where
  nodes : List Node
  edges : List Edge
deriving DecidableEq, Repr, Inhabited

namespace FlowGraph

/-- The first node of an id. -/
def node? (g : FlowGraph) (id : String) : Option Node := g.nodes.find? (·.id == id)

def nodesOfKind (g : FlowGraph) (kind : NodeKind) : List Node := g.nodes.filter (·.kind == kind)

/-- The edges that leave a node. -/
def outgoing (g : FlowGraph) (id : String) : List Edge := g.edges.filter (·.source == id)

def isEmpty (g : FlowGraph) : Bool := g.nodes.isEmpty

end FlowGraph

end RuleFlow
