import RuleFlow.Layout.Placement

/-! # Listings

A placed graph as lines of text: a block for each layer in use, with a line for each of its nodes
from left to right, then a line for each edge. -/

namespace RuleFlow.Listing

/-- A text filled up with blanks on its right. -/
def padRight (width : Nat) (s : String) : String :=
  s ++ String.ofList (List.replicate (width - s.length) ' ')

/-- A text filled up with blanks on its left. -/
def padLeft (width : Nat) (s : String) : String :=
  String.ofList (List.replicate (width - s.length) ' ') ++ s

/-- A coordinate, with one place. -/
def coordinate (x : Double) : String := padLeft 8 (String.ofList (x.fixedText 1))

def nodeLine (n : PlacedNode Double) : String :=
  padRight 16 n.node.id ++ " " ++ padRight 10 n.node.kind.name ++ " (" ++ coordinate n.x ++ ", " ++
    coordinate n.y ++ ")  " ++ n.node.label ++ "\n"

def layerHeading (layer : Nat) : String :=
  "\n--- LAYER " ++ String.ofList (countText layer) ++ " ---\n"

def edgeLine (e : Edge) : String :=
  e.source ++ " -> " ++ e.target ++ e.branch.elim "" (fun b => " [" ++ b.word ++ "]") ++ "\n"

/-- The order of nodes in a listing: by layer, then from left to right. -/
def precedes (a b : PlacedNode Double) : Bool :=
  a.layer < b.layer || (a.layer == b.layer && a.x.orderKey ≤ b.x.orderKey)

/-- The nodes of each layer in use, in the order of the listing; nodes at one place keep the order
of the graph. -/
def layers (nodes : List (PlacedNode Double)) : List (List (PlacedNode Double)) :=
  (nodes.mergeSort precedes).splitBy fun a b => a.layer == b.layer

/-- The lines of one layer. -/
def layerBlock : List (PlacedNode Double) → String
  | [] => ""
  | n :: ns => layerHeading n.layer ++ String.join ((n :: ns).map nodeLine)

/-- The lines of the edges; without edges there are none. -/
def edgeBlock (edges : List Edge) : String :=
  if edges.isEmpty then "" else "\n--- EDGES ---\n" ++ String.join (edges.map edgeLine)

end Listing

open Listing in
/-- The listing of a placed graph under a name. -/
def PlacedGraph.listing (g : PlacedGraph Double) (name : String) : String :=
  "======== FLOW GRAPH for Rule: " ++ name ++ " ========\n" ++
    String.join ((layers g.nodes).map layerBlock) ++ edgeBlock g.edges ++
    "\n================ END OF GRAPH ================\n"

end RuleFlow
