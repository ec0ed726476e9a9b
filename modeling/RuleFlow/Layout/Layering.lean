import RuleFlow.Graph.Basic

/-! # Layers

Each node of a graph gets a layer below those of its predecessors. A sweep finishes one node at a
time: first those without predecessors, in their order, then each node as soon as its last
predecessor is finished. When nodes are left and none is ready, a cycle holds them up, and the first
of them is released: its layer is then below those of its predecessors finished so far.

An edge counts if both its ends are nodes of the graph; an id names the first node that carries
it. -/

namespace RuleFlow

/-- Edges between `n` nodes, as pairs of source and target. -/
abbrev Links (n : Nat) := List (Fin n × Fin n)

namespace Links

/-- The targets of the edges out of a node. -/
def successors (links : Links n) (u : Fin n) : List (Fin n) :=
  (links.filter (·.1 == u)).map (·.2)

/-- The sources of the edges into a node. -/
def predecessors (links : Links n) (v : Fin n) : List (Fin n) :=
  (links.filter (·.2 == v)).map (·.1)

end Links

/-- The node that an id names. -/
def indexOf? (nodes : List Node) (id : String) : Option (Fin nodes.length) :=
  nodes.findFinIdx? (·.id == id)

/-- The ends of an edge, if both are nodes. -/
def resolve? (nodes : List Node) (e : Edge) : Option (Fin nodes.length × Fin nodes.length) := do
  return (← indexOf? nodes e.source, ← indexOf? nodes e.target)

/-- The edges that count. -/
def linksOf (nodes : List Node) (edges : List Edge) : Links nodes.length :=
  edges.filterMap (resolve? nodes)

/-- The edges that do not count. -/
def unresolved (nodes : List Node) (edges : List Edge) : List Edge :=
  edges.filter fun e => (resolve? nodes e).isNone

/-- The state of a sweep over `n` nodes. -/
structure Sweep (n : Nat) where
  /-- The layer of each node, as far as it is known. -/
  layer : Vector Nat n
  /-- How many edges from unfinished nodes lead to each unfinished node. -/
  waiting : Vector Nat n
  finished : Vector Bool n
  /-- The nodes that are ready, in the order in which they became so. -/
  queue : List (Fin n)
  /-- The finished nodes, in the order in which they were finished. -/
  order : List (Fin n)
  /-- The nodes released from a cycle, in order, with the layers given to them. -/
  released : List (Fin n × Nat)

namespace Sweep

def start (links : Links n) : Sweep n :=
  let waiting := Vector.ofFn fun v => (links.predecessors v).length
  { layer := .replicate n 0
    waiting
    finished := .replicate n false
    queue := (List.finRange n).filter (waiting.get · == 0)
    order := []
    released := [] }

/-- Moves an unfinished successor below the finished node `u`, with one edge less to wait for. -/
def relax (u : Fin n) (s : Sweep n) (v : Fin n) : Sweep n :=
  if s.finished.get v then s
  else
    let left := s.waiting.get v - 1
    { s with
      layer := s.layer.set v (max (s.layer.get v) (s.layer.get u + 1))
      waiting := s.waiting.set v left
      queue := if left = 0 then s.queue ++ [v] else s.queue }

/-- Finishes a node and moves its successors. -/
def finish (links : Links n) (u : Fin n) (s : Sweep n) : Sweep n :=
  (links.successors u).foldl (relax u)
    { s with finished := s.finished.set u true, order := s.order ++ [u] }

/-- The layer below the finished predecessors of a node. -/
def layerBelow (links : Links n) (s : Sweep n) (v : Fin n) : Nat :=
  ((links.predecessors v).filter (s.finished.get ·)).foldl (fun k u => max k (s.layer.get u + 1)) 0

/-- Releases a node from a cycle. -/
def release (links : Links n) (v : Fin n) (s : Sweep n) : Sweep n :=
  let k := s.layerBelow links v
  { s with
    layer := s.layer.set v k
    waiting := s.waiting.set v 0
    released := s.released ++ [(v, k)] }

/-- The first unfinished node. -/
def firstLeft? (s : Sweep n) : Option (Fin n) := (List.finRange n).find? (!s.finished.get ·)

/-- Finishes the next node that is ready, or else the first that is left. -/
def step (links : Links n) (s : Sweep n) : Sweep n :=
  match s.queue with
  | u :: rest => { s with queue := rest }.finish links u
  | [] =>
    match s.firstLeft? with
    | some v => (s.release links v).finish links v
    | none => s

/-- So many steps. -/
def run (links : Links n) : Nat → Sweep n → Sweep n
  | 0, s => s
  | k + 1, s => run links k (s.step links)

end Sweep

/-- The layers of a list of nodes under a list of edges: a sweep with a step for every node. -/
def assignLayers (nodes : List Node) (edges : List Edge) : Sweep nodes.length :=
  let links := linksOf nodes edges
  Sweep.run links nodes.length (.start links)

end RuleFlow
