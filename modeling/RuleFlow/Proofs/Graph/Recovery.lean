import RuleFlow.Proofs.Graph.Site

/-!
# Recovering a rule from its flow graph

A flow graph lists the conditions of a tree group before children, and the node of a group says how
many children it has.  Such a list has one reading only: it determines the tree, and even where the
tree ends if more follows.  Together with the trigger's node and the actions' nodes, which hold
their data as it is, the graph therefore determines all of the rule that it is drawn from.

`Logic.outline` is the list of what the condition nodes stand for, `Logic.outline_append_inj` the
unique reading, and `Bundle.compile_withoutRuns_eq_iff` the result for whole graphs: what is lost is
the empty groups and the executions.
-/

namespace RuleFlow

/-! ## The outline of a tree -/

namespace Logic

/-- What the nodes of a tree stand for, each group before its children. -/
def outline (t : Logic) : List Detail := t.positions.map fun x => FlowGraph.detail x.2

theorem outline_leaf (c : Condition) : (leaf c).outline = [.predicate c] := rfl

theorem map_detail_positionsFrom (index : Nat) (ts : List Logic) :
    ((positionsFrom index ts).map fun x => FlowGraph.detail x.2) = ts.flatMap outline := by
  induction ts generalizing index with
  | nil => rfl
  | cons t ts ih =>
    rw [positionsFrom, List.map_append, List.map_map, ih, List.flatMap_cons, outline]
    rfl

/-- A group is listed with the number of its children, before what they list. -/
theorem outline_group (kind : Combinator) (children : List Logic) :
    (group kind children).outline = .group kind children.length :: children.flatMap outline := by
  rw [outline, positions, List.map_cons, map_detail_positionsFrom]
  rfl

theorem outline_ne_nil (t : Logic) : t.outline ≠ [] := by
  cases t with
  | leaf c => simp [outline_leaf]
  | group kind children => simp [outline_group]

mutual

/-- A list that starts with the outline of a tree starts with that of no other tree. -/
theorem outline_append_inj : ∀ {t t' : Logic} {r r' : List Detail},
    t.outline ++ r = t'.outline ++ r' → t = t' ∧ r = r'
  | .leaf c, .leaf c', r, r', h => by
    rw [outline_leaf, outline_leaf, List.singleton_append, List.singleton_append,
      List.cons.injEq, Detail.predicate.injEq] at h
    obtain ⟨rfl, rfl⟩ := h
    exact ⟨rfl, rfl⟩
  | .group kind children, .group kind' children', r, r', h => by
    rw [outline_group, outline_group, List.cons_append, List.cons_append, List.cons.injEq,
      Detail.group.injEq] at h
    obtain ⟨⟨rfl, hlen⟩, htail⟩ := h
    obtain ⟨rfl, rfl⟩ := flatMap_outline_append_inj hlen htail
    exact ⟨rfl, rfl⟩
  | .leaf c, .group kind children, _, _, h => by simp [outline_leaf, outline_group] at h
  | .group kind children, .leaf c, _, _, h => by simp [outline_leaf, outline_group] at h

/-- The same for so many outlines in a row. -/
theorem flatMap_outline_append_inj : ∀ {ts ts' : List Logic} {r r' : List Detail},
    ts.length = ts'.length → ts.flatMap outline ++ r = ts'.flatMap outline ++ r' →
      ts = ts' ∧ r = r'
  | [], [], _, _, _, h => ⟨rfl, h⟩
  | t :: ts, t' :: ts', r, r', hlen, h => by
    rw [List.flatMap_cons, List.flatMap_cons, List.append_assoc, List.append_assoc] at h
    obtain ⟨rfl, htail⟩ := outline_append_inj h
    obtain ⟨rfl, rfl⟩ := flatMap_outline_append_inj (Nat.succ.inj hlen) htail
    exact ⟨rfl, rfl⟩

end

/-- A tree, or that there is none, is determined by the outline. -/
theorem elim_outline_injective {t t' : Option Logic}
    (h : t.elim [] outline = t'.elim [] outline) : t = t' := by
  cases t with
  | none =>
    cases t' with
    | none => rfl
    | some t' => exact absurd h.symm (outline_ne_nil t')
  | some t =>
    cases t' with
    | none => exact absurd h (outline_ne_nil t)
    | some t' =>
      have happend : t.outline ++ [] = t'.outline ++ [] := congrArg (· ++ []) h
      rw [(outline_append_inj happend).1]

end Logic

/-! ## Roll-ups aside -/

/-- The data of a node with an empty roll-up in the place of its executions. -/
def NodeData.withoutRuns : NodeData → NodeData
  | .trigger label triggerType _ => .trigger label triggerType .empty
  | .condition label detail => .condition label detail
  | .action label actionId actionType _ => .action label actionId actionType .empty

/-- A node with an empty roll-up in the place of its executions. -/
def Node.withoutRuns (n : Node) : Node := ⟨n.id, n.data.withoutRuns⟩

/-- A graph without what it tells of executions. -/
def FlowGraph.withoutRuns (g : FlowGraph) : FlowGraph := ⟨g.nodes.map Node.withoutRuns, g.edges⟩

namespace Node

/-- What a node stands for, if it is a condition. -/
def detail? (n : Node) : Option Detail :=
  match n.data with
  | .condition _ detail => some detail
  | _ => none

/-- The action for which a node stands. -/
def action? (n : Node) : Option Action :=
  match n.data with
  | .action label id actionType _ => some ⟨id, label, actionType⟩
  | _ => none

/-- The type of trigger for which a node stands. -/
def triggerType? (n : Node) : Option String :=
  match n.data with
  | .trigger _ triggerType _ => some triggerType
  | _ => none

@[simp] theorem detail?_withoutRuns (n : Node) : n.withoutRuns.detail? = n.detail? := by
  obtain ⟨id, data⟩ := n
  cases data <;> rfl

@[simp] theorem action?_withoutRuns (n : Node) : n.withoutRuns.action? = n.action? := by
  obtain ⟨id, data⟩ := n
  cases data <;> rfl

@[simp] theorem triggerType?_withoutRuns (n : Node) :
    n.withoutRuns.triggerType? = n.triggerType? := by
  obtain ⟨id, data⟩ := n
  cases data <;> rfl

end Node

namespace FlowGraph

variable (rule : Rule) (tree : Option Logic) (actions : List Action) (executions : List Execution)

/-! ## Reading the parts of a rule off its graph -/

/-- What a function gives that sees of a condition node only the tree and of an action's node only
the action. -/
theorem filterMap_nodes_ofTree (f : Node → Option α) (onTree : Logic → Option α)
    (onAction : Action → Option α) (htree : ∀ id t, f (conditionNode id t) = onTree t)
    (haction : ∀ i a, f (actionNode executions i a) = onAction a) :
    (ofTree rule tree actions executions).nodes.filterMap f =
      (f (triggerNode rule executions)).toList ++
        (tree.elim [] fun t => t.positions.filterMap fun x => onTree x.2) ++
          actions.filterMap onAction := by
  have hconditions : ∀ t, (conditionNodes rootId t).filterMap f =
      t.positions.filterMap fun x => onTree x.2 := by
    intro t
    rw [show rootId = (Site.condition []).id from rfl, conditionNodes_eq_map, List.filterMap_map]
    exact congrArg (List.filterMap · _) (funext fun x => htree _ _)
  have hactions : (actions.mapIdx (actionNode executions)).filterMap f =
      actions.filterMap onAction := by
    rw [List.mapIdx_eq_zipIdx_map, List.filterMap_map]
    have hcomp : (f ∘ fun x : Action × Nat => actionNode executions x.2 x.1) =
        onAction ∘ Prod.fst := funext fun x => haction x.2 x.1
    rw [hcomp, ← List.filterMap_map, List.zipIdx_map_fst]
  cases tree with
  | none => cases h : f (triggerNode rule executions) <;> simp [ofTree, h, hactions]
  | some t =>
    cases h : f (triggerNode rule executions) <;> simp [ofTree, h, hactions, hconditions]

theorem filterMap_triggerType?_ofTree :
    (ofTree rule tree actions executions).nodes.filterMap Node.triggerType? =
      [rule.triggerType] := by
  rw [filterMap_nodes_ofTree rule tree actions executions Node.triggerType? (fun _ => none)
    (fun _ => none) (fun _ _ => rfl) fun _ _ => rfl]
  cases tree <;> simp [triggerNode, Node.triggerType?]

/-- The details of the condition nodes are the outline of the tree. -/
theorem filterMap_detail?_ofTree :
    (ofTree rule tree actions executions).nodes.filterMap Node.detail? =
      tree.elim [] Logic.outline := by
  rw [filterMap_nodes_ofTree rule tree actions executions Node.detail? (fun t => some (detail t))
    (fun _ => none) (fun _ _ => rfl) fun _ _ => rfl]
  cases tree with
  | none => simp [triggerNode, Node.detail?]
  | some t => simp [triggerNode, Node.detail?, Logic.outline, List.filterMap_eq_map']

/-- The nodes of actions hold the actions in their order. -/
theorem filterMap_action?_ofTree :
    (ofTree rule tree actions executions).nodes.filterMap Node.action? = actions := by
  rw [filterMap_nodes_ofTree rule tree actions executions Node.action? (fun _ => none) some
    (fun _ _ => rfl) fun _ _ => rfl]
  cases tree <;> simp [triggerNode, Node.action?]

/-- What reads nothing of the roll-ups gives the same without them. -/
theorem filterMap_nodes_withoutRuns {f : Node → Option α} (hf : ∀ n, f n.withoutRuns = f n)
    (g : FlowGraph) : g.withoutRuns.nodes.filterMap f = g.nodes.filterMap f := by
  rw [withoutRuns, List.filterMap_map]
  exact congrArg (List.filterMap · _) (funext hf)

/-! ## Whole graphs -/

/-- The executions show in the roll-ups alone, and so does nothing of the rule but its trigger. -/
theorem withoutRuns_ofTree (rule' : Rule) (h : rule.triggerType = rule'.triggerType)
    (executions' : List Execution) : (ofTree rule tree actions executions).withoutRuns =
      (ofTree rule' tree actions executions').withoutRuns := by
  simp only [withoutRuns, ofTree, List.map_cons, List.map_append, mk.injEq, and_true]
  have hactions : (actions.mapIdx (actionNode executions)).map Node.withoutRuns =
      (actions.mapIdx (actionNode executions')).map Node.withoutRuns := by
    apply List.ext_getElem <;> simp [actionNode, Node.withoutRuns, NodeData.withoutRuns]
  rw [hactions]
  simp [triggerNode, Node.withoutRuns, NodeData.withoutRuns, h]

end FlowGraph

/-- Two bundles have the same graph, roll-ups aside, exactly if they have the same trigger, the same
tree without empty groups, and the same actions. -/
theorem Bundle.compile_withoutRuns_eq_iff (b b' : Bundle) :
    b.compile.withoutRuns = b'.compile.withoutRuns ↔
      b.rule.triggerType = b'.rule.triggerType ∧ b.rule.tree? = b'.rule.tree? ∧
        b.actions = b'.actions := by
  constructor
  · intro h
    have hsame (α : Type) (f : Node → Option α) (hf : ∀ n, f n.withoutRuns = f n) :
        b.compile.nodes.filterMap f = b'.compile.nodes.filterMap f := by
      rw [← FlowGraph.filterMap_nodes_withoutRuns hf, h, FlowGraph.filterMap_nodes_withoutRuns hf]
    have htrigger := hsame _ Node.triggerType? Node.triggerType?_withoutRuns
    have hdetail := hsame _ Node.detail? Node.detail?_withoutRuns
    have haction := hsame _ Node.action? Node.action?_withoutRuns
    rw [compile, compile, FlowGraph.filterMap_triggerType?_ofTree,
      FlowGraph.filterMap_triggerType?_ofTree, List.cons.injEq] at htrigger
    rw [compile, compile, FlowGraph.filterMap_detail?_ofTree,
      FlowGraph.filterMap_detail?_ofTree] at hdetail
    rw [compile, compile, FlowGraph.filterMap_action?_ofTree,
      FlowGraph.filterMap_action?_ofTree] at haction
    exact ⟨htrigger.1, Logic.elim_outline_injective hdetail, haction⟩
  · rintro ⟨htrigger, htree, hactions⟩
    rw [compile, compile, htree, hactions]
    exact FlowGraph.withoutRuns_ofTree _ _ _ _ _ htrigger _

end RuleFlow
