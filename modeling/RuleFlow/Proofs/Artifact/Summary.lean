import RuleFlow.Artifact
import RuleFlow.Proofs.Graph.Recovery
import RuleFlow.Proofs.Graph.WellFormed
import RuleFlow.Proofs.Layout.Centering

/-!
# The summary of a flow

The summary, the infix text and the graph of a rule are made apart from each other, and each removes
the empty groups for itself.  Still they tell the same: the summary is the sentence that the labels
of the graph make (`PlacedGraph.sentence?`), and the infix text says `always` exactly if the graph
has no condition, because every other infix text has a blank (`Logic.blank_mem_infixWithin`).
-/

namespace RuleFlow

/-! ## The sentence of a graph -/

namespace PlacedGraph

/-- The label of the first node of an id. -/
def label? (g : PlacedGraph κ) (id : String) : Option String := (g.node? id).map (·.node.label)

/-- The labels of the nodes of a kind, in their order. -/
def labels (g : PlacedGraph κ) (kind : NodeKind) : List String :=
  (g.nodes.filter (·.node.kind == kind)).map (·.node.label)

/-- The sentence that the labels of a graph make, if it has a trigger. -/
def sentence? (g : PlacedGraph κ) : Option String :=
  (g.label? "trigger").map fun trigger =>
    let condition :=
      match g.label? "cond-0" with
      | some label => "if " ++ label
      | none => "always"
    let outcome :=
      match g.labels .action with
      | [] => "do nothing"
      | labels => ", ".intercalate labels
    "When " ++ trigger ++ ", " ++ condition ++ ", then " ++ outcome ++ "."

end PlacedGraph

namespace FlowGraph

section

variable {κ : Type} [Coordinate κ] (g : FlowGraph) (config : LayoutConfig κ)

/-- Nodes are found in the arranged graph as in the graph. -/
theorem label?_arrange (id : String) :
    (g.arrange config).label? id = (g.node? id).map Node.label := by
  rw [PlacedGraph.label?, PlacedGraph.node?, node?, ← g.map_node_arrange config, List.find?_map,
    Option.map_map]
  rfl

/-- The layout keeps the labels and their order. -/
theorem labels_arrange (kind : NodeKind) :
    (g.arrange config).labels kind = (g.nodesOfKind kind).map Node.label := by
  rw [PlacedGraph.labels, nodesOfKind, ← g.map_node_arrange config, List.filter_map, List.map_map]
  rfl

end

variable (rule : Rule) (tree : Option Logic) (actions : List Action) (executions : List Execution)

theorem node?_triggerId_ofTree : (ofTree rule tree actions executions).node? triggerId =
    some (triggerNode rule executions) :=
  node?_ofTree rule tree actions executions List.mem_cons_self

/-- The root's id names the node of the tree, if there is one. -/
theorem node?_rootId_ofTree : (ofTree rule tree actions executions).node? rootId =
    tree.map (conditionNode rootId) := by
  cases tree with
  | none =>
    rw [Option.map_none, node?, List.find?_eq_none]
    intro n hn
    have hid : n.id ∈ (ofTree rule none actions executions).nodes.map Node.id :=
      List.mem_map_of_mem hn
    rw [map_id_nodes_ofTree, List.mem_map] at hid
    obtain ⟨a, ha, hid⟩ := hid
    rw [beq_iff_eq, ← hid]
    intro hroot
    have hsite : a = .condition [] := Site.id_injective hroot
    simp [hsite, sites] at ha
  | some t =>
    exact node?_ofTree rule (some t) actions executions
      (conditionNode_mem_nodes_ofTree (Logic.subtree?_nil t))

theorem map_label_nodesOfKind_action (g : FlowGraph) : (g.nodesOfKind .action).map Node.label =
    (g.nodes.filterMap Node.action?).map (·.label) := by
  rw [nodesOfKind, ← List.filterMap_eq_map, List.filterMap_filter, List.map_filterMap]
  refine List.filterMap_congr fun n _ => ?_
  obtain ⟨id, data⟩ := n
  cases data <;> rfl

/-- The labels in a placed graph make the sentence of the rule. -/
theorem sentence?_arrange_ofTree {κ : Type} [Coordinate κ] (config : LayoutConfig κ) :
    ((ofTree rule tree actions executions).arrange config).sentence? =
      some (sentence rule.triggerType (tree.map Logic.label) (actions.map (·.label))) := by
  have htrigger := node?_triggerId_ofTree rule tree actions executions
  have hroot := node?_rootId_ofTree rule tree actions executions
  rw [triggerId] at htrigger
  rw [rootId] at hroot
  rw [PlacedGraph.sentence?, label?_arrange, label?_arrange, labels_arrange,
    map_label_nodesOfKind_action, filterMap_action?_ofTree, htrigger, hroot]
  cases tree <;> cases actions <;> rfl

/-- A graph without conditions is that of a rule without a tree. -/
theorem forall_kind_ne_condition_iff :
    (∀ n ∈ (ofTree rule tree actions executions).nodes, n.kind ≠ .condition) ↔ tree = none := by
  have hfilter : (∀ n ∈ (ofTree rule tree actions executions).nodes, n.kind ≠ .condition) ↔
      (ofTree rule tree actions executions).nodesOfKind .condition = [] := by
    simp only [nodesOfKind, List.filter_eq_nil_iff, beq_iff_eq, ne_eq]
  rw [hfilter, nodesOfKind_condition_ofTree]
  cases tree with
  | none => simp
  | some t => cases t <;> simp [Logic.positions]

end FlowGraph

/-! ## Infix texts -/

namespace Logic

/-- Every infix text of a tree has a blank, the one before the operator of its first comparison. -/
theorem blank_mem_infixWithin : ∀ {t : Logic} (outer : Nat), t.NoEmptyGroup →
    ' ' ∈ (t.infixWithin outer).toList
  | .leaf c, _, _ => by simp [infixWithin, Condition.label]
  -- a group of one child reads as the child
  | .group kind [t], outer, h => by
    rw [infixWithin]
    exact blank_mem_infixWithin outer ((noEmptyGroup_group.mp h).2 t List.mem_cons_self)
  | .group kind (t :: t' :: ts), outer, h => by
    have ht := blank_mem_infixWithin (precedence kind)
      ((noEmptyGroup_group.mp h).2 t List.mem_cons_self)
    have hbody : ' ' ∈ ((" " ++ kind.word ++ " ").intercalate
        (infixAll (precedence kind) (t :: t' :: ts))).toList := by
      rw [infixAll, infixAll, String.intercalate_cons_cons, String.toList_append,
        String.toList_append]
      exact List.mem_append_left _ (List.mem_append_left _ ht)
    rw [infixWithin]
    · split
      · rw [String.toList_append, String.toList_append]
        exact List.mem_append_left _ (List.mem_append_right _ hbody)
      · exact hbody
    · exact nofun
  | .group kind [], _, h => absurd rfl (noEmptyGroup_group.mp h).1

/-- The infix text says `always` exactly if nothing is left of the tree without its empty groups. -/
theorem infixText_eq_always_iff {t : Logic} : t.infixText = "always" ↔ t.normalize = none := by
  rw [infixText]
  cases ht : t.normalize with
  | none => simp
  | some s =>
    have hblank := blank_mem_infixWithin 0 (noEmptyGroup_normalize ht)
    refine iff_of_false (fun h => ?_) (Option.some_ne_none s)
    have h : s.infixWithin 0 = "always" := h
    rw [h] at hblank
    exact absurd hblank (by decide)

end Logic

/-! ## Flows -/

namespace CompiledFlow

/-- The summary of a flow is the sentence of its graph, and the infix text of the rule's logic says
`always` exactly if the graph has no condition. -/
theorem summary_ofBundle (b : Bundle) (config : LayoutConfig Double) :
    (ofBundle b config).graph.sentence? = some (ofBundle b config).summary ∧
    ∀ t ∈ b.rule.logic, (t.infixText = "always" ↔
      ∀ n ∈ (ofBundle b config).graph.nodes, n.node.kind ≠ .condition) := by
  refine ⟨FlowGraph.sentence?_arrange_ofTree _ _ _ _ config, fun t ht => ?_⟩
  have hnodes : (∀ n ∈ (ofBundle b config).graph.nodes, n.node.kind ≠ .condition) ↔
      ∀ n ∈ b.compile.nodes, n.kind ≠ .condition := by
    rw [← b.compile.map_node_arrange config, List.forall_mem_map]
    rfl
  have htree : b.rule.tree? = t.normalize := by
    rw [Rule.tree?, Option.mem_def.mp ht, Option.bind_some]
  rw [hnodes, Bundle.compile, FlowGraph.forall_kind_ne_condition_iff, htree,
    Logic.infixText_eq_always_iff]

/-- A group that keeps one of its children. -/
def patchyTree : Logic :=
  .group .and [.group .or [.group .and []], .leaf ⟨"total", .lessThan, .null⟩]

def patchyBundle : Bundle where
  rule := ⟨"rule-3", "order", some patchyTree⟩
  actions := [⟨"a-1", "Mail", none⟩, ⟨"a-2", "Print", some "paper"⟩]
  executions := [⟨"x-1", .failed, "2024-05-01", some "a-1"⟩]

theorem summary_ofBundle_patchyBundle :
    (ofBundle patchyBundle .standard).graph.sentence? =
      some "When order, if All of: total < null, then Mail, Print." ∧
    patchyTree ∈ patchyBundle.rule.logic ∧ (patchyTree.infixText = "always" ↔
      ∀ n ∈ (ofBundle patchyBundle .standard).graph.nodes, n.node.kind ≠ .condition) := by
  have hsummary : (ofBundle patchyBundle .standard).summary =
      "When order, if All of: total < null, then Mail, Print." := by decide
  have hflow := summary_ofBundle patchyBundle .standard
  exact ⟨hsummary ▸ hflow.1, rfl, hflow.2 patchyTree rfl⟩

end CompiledFlow

end RuleFlow
