import RuleFlow.Layout.Layering
import RuleFlow.Layout.Config
import RuleFlow.Graph.Json

/-! # Placed graphs

`layout` gives every node a layer and a place in it, evenly spaced in the order of the sweep, and
`center` moves each layer as a whole so that the middles of all layers lie on the axis of the widest
one. `arrange` does both. -/

namespace RuleFlow

/-- A node with its layer and the upper left corner of its box. -/
structure PlacedNode (κ : Type) where
  node : Node
  layer : Nat
  x : κ
  y : κ
deriving DecidableEq, Repr

structure PlacedGraph (κ : Type) where
  nodes : List (PlacedNode κ)
  edges : List Edge
deriving DecidableEq, Repr, Inhabited

namespace PlacedGraph

/-- The first node of an id. -/
def node? (g : PlacedGraph κ) (id : String) : Option (PlacedNode κ) :=
  g.nodes.find? (·.node.id == id)

/-- The number of layers up to a layer, in 64 bits: up to the layer `2 ^ 64 - 1` it is zero
again. -/
def layersUpTo (layer : Nat) : Nat := (layer + 1) % 2 ^ 64

/-- The number of layers up to the greatest, by `layersUpTo`. -/
def layerCount (g : PlacedGraph κ) : Nat := g.nodes.foldl (fun k n => max k (layersUpTo n.layer)) 0

end PlacedGraph

/-! ## Places -/

/-- How many nodes of the node's layer were finished before it. -/
def Sweep.slot (s : Sweep n) (v : Fin n) : Nat :=
  (s.order.takeWhile (· != v)).countP fun u => s.layer.get u == s.layer.get v

variable {κ : Type} [Coordinate κ]

/-- Places every node by its layer and its slot, in the order of the graph. -/
def FlowGraph.layout (g : FlowGraph) (config : LayoutConfig κ) : PlacedGraph κ :=
  let sweep := assignLayers g.nodes g.edges
  let spacing := config.effectiveNodeSpacing
  { nodes := (List.finRange g.nodes.length).map fun i =>
      { node := g.nodes.get i
        layer := sweep.layer.get i
        x := Coordinate.mul (Coordinate.ofNat (sweep.slot i)) spacing
        y := Coordinate.mul (Coordinate.ofNat (sweep.layer.get i)) config.layerSpacing }
    edges := g.edges }

/-! ## Centering -/

/-- The least and the greatest x of some nodes. -/
structure Extent (κ : Type) where
  low : κ
  high : κ
deriving DecidableEq, Repr

namespace Extent

/-- The extent of a list of x, by widening that of the first. -/
def ofXs? : List κ → Option (Extent κ)
  | [] => none
  | x :: xs =>
    some (xs.foldl (fun e x => ⟨Coordinate.min e.low x, Coordinate.max e.high x⟩) ⟨x, x⟩)

def width (e : Extent κ) : κ := Coordinate.sub e.high e.low

/-- The middle of the boxes, which reach a node's width beyond the greatest x. -/
def middle (config : LayoutConfig κ) (e : Extent κ) : κ :=
  Coordinate.half (Coordinate.add (Coordinate.add e.low e.high) config.nodeWidth)

end Extent

/-- The layers in use, from the lowest number on. -/
def layersOf (nodes : List (PlacedNode κ)) : List Nat :=
  (nodes.map (·.layer)).eraseDups.mergeSort (· ≤ ·)

/-- The extent of a layer in use. -/
def extentOf? (nodes : List (PlacedNode κ)) (layer : Nat) : Option (Extent κ) :=
  Extent.ofXs? ((nodes.filter (·.layer == layer)).map (·.x))

/-- The widest of a list of extents, the first of equally wide ones. -/
def widest? (extents : List (Extent κ)) : Option (Extent κ) :=
  extents.foldl
    (fun best e =>
      match best with
      | some b => if Coordinate.lt b.width e.width then some e else some b
      | none => some e)
    none

/-- Moves the middle of every layer to that of the widest, the lowest of equally wide ones. -/
def center (nodes : List (PlacedNode κ)) (config : LayoutConfig κ) : List (PlacedNode κ) :=
  match widest? ((layersOf nodes).filterMap (extentOf? nodes)) with
  | none => nodes
  | some widest =>
    let axis := widest.middle config
    nodes.map fun n =>
      match extentOf? nodes n.layer with
      | some e => { n with x := Coordinate.add n.x (Coordinate.sub axis (e.middle config)) }
      | none => n

/-- The laid out graph, centered. -/
def FlowGraph.arrange (g : FlowGraph) (config : LayoutConfig κ) : PlacedGraph κ :=
  let placed := g.layout config
  { nodes := center placed.nodes config, edges := placed.edges }

/-! ## JSON -/

open Json (Reader Field Fields)

namespace PlacedNode

def toJson (n : PlacedNode Double) : Json :=
  .object [("node", n.node.toJson), ("layer", .ofNat n.layer), ("x", .ofDouble n.x),
    ("y", .ofDouble n.y)]

def reader : Reader (PlacedNode Double) :=
  .record "struct PositionedNode"
    (.field (.required "node" Node.reader) <|
     .field (.required "layer" Reader.count) <|
     .field (.required "x" Reader.double) <|
     .field (.required "y" Reader.double) <|
     .done)
    fun (node, layer, x, y, ()) => ⟨node, layer, x, y⟩

end PlacedNode

namespace PlacedGraph

def toJson (g : PlacedGraph Double) : Json :=
  .object [("nodes", .array (g.nodes.map PlacedNode.toJson)),
    ("edges", .array (g.edges.map Edge.toJson))]

def reader : Reader (PlacedGraph Double) :=
  .record "struct LaidOutGraph"
    (.field (.required "nodes" PlacedNode.reader.list) <|
     .field (.required "edges" Edge.reader.list) <|
     .done)
    fun (nodes, edges, ()) => ⟨nodes, edges⟩

end PlacedGraph

end RuleFlow
