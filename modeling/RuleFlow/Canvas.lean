import RuleFlow.Layout.Placement

/-! # Canvas flows

A placed graph in the shape that a node-based canvas draws: nodes with a position and the data their
component shows, and edges that leave a two-way condition by a named handle. -/

namespace RuleFlow.Canvas

/-- The badge of the last execution. -/
structure Badge where
  total : Nat
  failed : Nat
  lastStatus : Option String
  lastStartedAt : Option String
deriving DecidableEq, Repr

/-- What a node's component shows. A node has only the parts that its kind calls for. -/
structure NodeData where
  label : String
  nodeType : Option String
  field : Option String
  operator : Option String
  value : Option Json
  combinator : Option String
  actionId : Option String
  lastExecution : Option Badge
deriving DecidableEq, Repr

structure Node where
  id : String
  component : String
  x : Double
  y : Double
  data : NodeData
deriving DecidableEq, Repr

structure Edge where
  id : String
  source : String
  target : String
  sourceHandle : Option String
  label : Option String
deriving DecidableEq, Repr

structure Flow where
  nodes : List Node
  edges : List Edge
deriving DecidableEq, Repr

/-- The badge of a roll-up; a node that never ran has none. -/
def badge (r : Rollup) : Option Badge :=
  if r.total = 0 then none
  else some ⟨r.total, r.failed, r.lastStatus.map Status.name, r.lastStartedAt⟩

/-- What the component of a node shows. -/
def nodeData : RuleFlow.NodeData → NodeData
  | .trigger label triggerType executions =>
    ⟨label, some triggerType, none, none, none, none, none, badge executions⟩
  | .condition label (.predicate c) =>
    ⟨label, none, some c.field, some c.operator.symbol, some c.value.toJson, none, none, none⟩
  | .condition label (.group kind _) =>
    ⟨label, none, none, none, none, some kind.word, none, none⟩
  | .action label actionId actionType executions =>
    ⟨label, actionType, none, none, none, none, some actionId, badge executions⟩

def node (n : PlacedNode Double) : Node :=
  ⟨n.node.id, n.node.kind.name, n.x, n.y, nodeData n.node.data⟩

/-- An edge with an outcome leaves by the handle of that outcome. -/
def edge (e : RuleFlow.Edge) : Edge :=
  ⟨e.id, e.source, e.target, e.branch.map Branch.word, e.branch.map Branch.word⟩

/-! ## JSON -/

/-- A member that is left out where there is no value. -/
def optionalMember (key : String) (write : α → Json) (value : Option α) : List (String × Json) :=
  (value.map fun a => (key, write a)).toList

def Badge.toJson (b : Badge) : Json :=
  .object ([("total", .ofNat b.total), ("failed", .ofNat b.failed)] ++
    optionalMember "lastStatus" .string b.lastStatus ++
    optionalMember "lastStartedAt" .string b.lastStartedAt)

def NodeData.toJson (d : NodeData) : Json :=
  .object ([("label", .string d.label)] ++
    optionalMember "type" .string d.nodeType ++
    optionalMember "field" .string d.field ++
    optionalMember "operator" .string d.operator ++
    optionalMember "value" id d.value ++
    optionalMember "combinator" .string d.combinator ++
    optionalMember "actionId" .string d.actionId ++
    optionalMember "lastExecution" Badge.toJson d.lastExecution)

def Node.toJson (n : Node) : Json :=
  .object [("id", .string n.id), ("type", .string n.component),
    ("position", .object [("x", .ofDouble n.x), ("y", .ofDouble n.y)]), ("data", n.data.toJson)]

def Edge.toJson (e : Edge) : Json :=
  .object ([("id", .string e.id), ("source", .string e.source), ("target", .string e.target)] ++
    optionalMember "sourceHandle" .string e.sourceHandle ++
    optionalMember "label" .string e.label)

def Flow.toJson (f : Flow) : Json :=
  .object [("nodes", .array (f.nodes.map Node.toJson)), ("edges", .array (f.edges.map Edge.toJson))]

end Canvas

/-- The canvas flow of a placed graph. -/
def PlacedGraph.canvas (g : PlacedGraph Double) : Canvas.Flow :=
  ⟨g.nodes.map Canvas.node, g.edges.map Canvas.edge⟩

end RuleFlow
