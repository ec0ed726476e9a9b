import RuleFlow.Proofs.Layout.Queue
import RuleFlow.Layout.Placement

/-!
# Slots within a layer

A node's slot is its place among the nodes of its layer in the order of the sweep.  The order lists
every node once, so the slots of a layer are the numbers from zero on, each of them once
(`Sweep.map_slot_filter`), in every graph.  Hence the x of a layer before it is centered
(`FlowGraph.xsOn_layout_perm`).
-/

namespace RuleFlow

namespace Sweep

variable {n : Nat}

/-- The number of items with a property before an item is the place of the item among them. -/
theorem countP_upTo {P : Fin n → Bool} {v : Fin n} (hv : P v = true) (order : List (Fin n)) :
    (upTo order v).countP P = (order.filter P).idxOf v := by
  induction order with
  | nil => rfl
  | cons w order ih =>
    by_cases hw : w = v
    · rw [hw, upTo_cons_self, List.filter_cons_of_pos hv, List.idxOf_cons_self, List.countP_nil]
    · rw [upTo_cons_of_ne hw]
      by_cases hP : P w = true
      · rw [List.countP_cons_of_pos hP, List.filter_cons_of_pos hP, List.idxOf_cons_ne _ hw, ih]
      · rw [List.countP_cons_of_neg hP, List.filter_cons_of_neg hP, ih]

theorem slot_eq_idxOf (s : Sweep n) (v : Fin n) :
    s.slot v = (s.order.filter fun u => s.layer.get u == s.layer.get v).idxOf v :=
  countP_upTo (by simp) s.order

/-- The slots of a layer, in the order of the sweep. -/
theorem map_slot_filter {s : Sweep n} (hnodup : s.order.Nodup) (k : Nat) :
    (s.order.filter (s.layer.get · == k)).map s.slot =
      List.range (s.order.filter (s.layer.get · == k)).length := by
  apply List.ext_getElem
  · simp
  · intro i h h'
    have hi : i < (s.order.filter (s.layer.get · == k)).length := by simpa using h
    have hk : s.layer.get (s.order.filter (s.layer.get · == k))[i] = k := by
      simpa using (List.mem_filter.mp (List.getElem_mem hi)).2
    rw [List.getElem_map, slot_eq_idxOf, hk, (hnodup.filter _).idxOf_getElem, List.getElem_range]

end Sweep

section

variable {κ : Type} [Coordinate κ]

/-- The x of the nodes of a layer. -/
def xsOn (nodes : List (PlacedNode κ)) (k : Nat) : List κ :=
  (nodes.filter (·.layer == k)).map (·.x)

/-- Before they are centered, the x of a layer are the multiples of the spacing from zero on. -/
theorem FlowGraph.xsOn_layout_perm (g : FlowGraph) (config : LayoutConfig κ) (k : Nat) :
    (xsOn (g.layout config).nodes k).Perm
      ((List.range (xsOn (g.layout config).nodes k).length).map fun j =>
        Coordinate.mul (Coordinate.ofNat j) config.effectiveNodeSpacing) := by
  have horder : (assignLayers g.nodes g.edges).order.Perm (List.finRange g.nodes.length) :=
    Sweep.perm_order_run_start _
  have hnodup : (assignLayers g.nodes g.edges).order.Nodup := Sweep.nodup_order_run_start _
  generalize hs : assignLayers g.nodes g.edges = s at horder hnodup
  have hxs : xsOn (g.layout config).nodes k =
      ((List.finRange g.nodes.length).filter (s.layer.get · == k)).map fun i =>
        Coordinate.mul (Coordinate.ofNat (s.slot i)) config.effectiveNodeSpacing := by
    simp only [xsOn, layout, hs, List.filter_map, List.map_map, Function.comp_def]
  have hlayer := horder.filter (s.layer.get · == k)
  have hslots := Sweep.map_slot_filter hnodup k
  rw [hxs, List.length_map, ← hlayer.length_eq, ← hslots, List.map_map]
  exact (hlayer.map _).symm

end

end RuleFlow
