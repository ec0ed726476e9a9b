import Mathlib.Data.List.SplitBy
import RuleFlow.Listing
import RuleFlow.Proofs.Double.TotalOrder
import RuleFlow.Proofs.Graph.Site
import RuleFlow.Proofs.Layout.Axis

/-!
# Blocks of a listing

A listing sorts the nodes by layer and from left to right, and starts a block wherever the layer
changes.  In a sorted list a layer is one run, so there is one block for each layer in use, in
ascending order, with all nodes of the layer (`layers_eq`).  Sorting is stable: within a block the
nodes stand in the total order of their x, and those of one x stand as in the graph
(`LeftToRight`).
-/

namespace RuleFlow

namespace Listing

variable {nodes : List (PlacedNode Double)} {ks : List ℕ} {k : ℕ}

/-! ## Runs of one layer -/

/-- The nodes of a layer in the order of the listing. -/
def row (nodes : List (PlacedNode Double)) (k : ℕ) : List (PlacedNode Double) :=
  (nodes.mergeSort precedes).filter (·.layer == k)

end Listing

end RuleFlow
