import RuleFlow.Canvas
import RuleFlow.Proofs.Graph.WellFormed
import RuleFlow.Proofs.Layout.Centering
import RuleFlow.Proofs.Logic.Json

/-!
# The tree behind a canvas flow

What the canvas shows of a rule is enough to rebuild its tree.  `Canvas.Flow.tree?` does so: from
the trigger it follows the edge to a condition, reads a node that names a combinator as a group of
what its edges lead to, and any other node as the comparison written out of its field, operator and
value.

The canvas keeps the nodes of the graph with their ids, and the edges with their ends, so that
lookups in the flow are lookups in the graph (`FlowGraph.node?_canvas`, `FlowGraph.targets_canvas`),
where the edges out of a condition are known (`FlowGraph.outgoing_ofTree`).  The rest is an
induction on the number of steps down (`FlowGraph.treeAt_canvas`), in which a comparison is read
back as in JSON.
-/

namespace RuleFlow

namespace Canvas

/-! ## Reading a flow -/

/-- The JSON value of the comparison that a component shows. -/
def NodeData.comparison? (d : NodeData) : Option Json := do
  return .object [("field", .string (← d.field)), ("operator", .string (← d.operator)),
    ("value", ← d.value)]

namespace Flow

/-- The first node of an id. -/
def node? (f : Flow) (id : String) : Option Node := f.nodes.find? (·.id == id)

/-- The targets of the edges that leave a node, in the order of the edges. -/
def targets (f : Flow) (id : String) : List String :=
  (f.edges.filter (·.source == id)).map (·.target)

/-- The tree at a node, followed so many steps down. -/
def treeAt (f : Flow) : Nat → String → Option Logic
  | 0, _ => none
  | steps + 1, id => do
    let n ← f.node? id
    match n.data.combinator with
    | some word =>
      let kind ← Combinator.ofName? word
      let children ← (f.targets id).mapM (f.treeAt steps)
      return .group kind children
    | none => Logic.ofJson (← n.data.comparison?)

/-- Tells whether a node is a condition. -/
def isCondition (f : Flow) (id : String) : Bool :=
  (f.node? id).any (·.component == NodeKind.condition.name)

/-- The condition to which the trigger leads. -/
def root? (f : Flow) : Option String := do
  let trigger ← f.nodes.find? (·.component == NodeKind.trigger.name)
  (f.targets trigger.id).find? f.isCondition

/-- The tree of a flow.  No way down is longer than the list of nodes. -/
def tree? (f : Flow) : Option Logic := f.root?.bind (f.treeAt f.nodes.length)

section

variable {f : Flow} {id : String} {n : Node}

/-- A node without a combinator is read as the comparison that it shows. -/
theorem treeAt_comparison (hn : f.node? id = some n) (h : n.data.combinator = none) (steps : Nat) :
    f.treeAt (steps + 1) id = n.data.comparison?.bind Logic.ofJson := by
  simp [treeAt, hn, h]

/-- A node with a combinator is read as a group of what its edges lead to. -/
theorem treeAt_group {kind : Combinator} (hn : f.node? id = some n)
    (h : n.data.combinator.bind Combinator.ofName? = some kind) (steps : Nat) :
    f.treeAt (steps + 1) id = ((f.targets id).mapM (f.treeAt steps)).map (.group kind) := by
  obtain ⟨word, hword, hkind⟩ := Option.bind_eq_some_iff.mp h
  simp [treeAt, hn, hword, hkind, Option.map_eq_bind]

end

end Flow

theorem comparison?_nodeData (label : String) (c : Condition) :
    (nodeData (.condition label (.predicate c))).comparison? = some (Logic.leaf c).toJson := rfl

/-- What a node of a flow has of a node of a graph. -/
structure Node.Shows (m : Node) (n : RuleFlow.Node) : Prop where
  id : m.id = n.id
  component : m.component = n.kind.name
  data : m.data = nodeData n.data

end Canvas

theorem NodeKind.name_injective : Function.Injective NodeKind.name := by
  intro a b
  cases a <;> cases b <;> decide

theorem Branch.word_injective : Function.Injective Branch.word := by
  intro a b
  cases a <;> cases b <;> decide

/-! ## The canvas of a graph -/

namespace FlowGraph

section

variable (g : FlowGraph) (config : LayoutConfig Double)

/-- The canvas keeps the nodes in their order. -/
theorem map_id_nodes_canvas : (g.arrange config).canvas.nodes.map (·.id) = g.nodes.map Node.id := by
  have hnodes := congrArg (List.map Node.id) (g.map_node_arrange config)
  rw [List.map_map] at hnodes
  rw [PlacedGraph.canvas, List.map_map]
  exact hnodes

theorem length_nodes_canvas : (g.arrange config).canvas.nodes.length = g.nodes.length := by
  simpa using congrArg List.length (g.map_id_nodes_canvas config)

/-- The canvas keeps the edges in their order, with their ids and ends. -/
theorem map_ends_edges_canvas :
    (g.arrange config).canvas.edges.map (fun e => (e.id, e.source, e.target)) =
      g.edges.map fun e => (e.id, e.source, e.target) :=
  List.map_map ..

/-- The edges out of a node of the canvas are those of the graph, in their order. -/
theorem targets_canvas (id : String) :
    (g.arrange config).canvas.targets id = (g.outgoing id).map (·.target) := by
  change (((g.edges.map Canvas.edge).filter (·.source == id)).map (·.target)) = _
  rw [List.filter_map, List.map_map]
  rfl

variable {g}

/-- A node that is found in the graph is shown by the one that is found in the same way on the
canvas. -/
theorem find?_nodes_canvas {p : Canvas.Node → Bool} {q : Node → Bool} {n : Node}
    (hpq : ∀ m, p (Canvas.node m) = q m.node) (h : g.nodes.find? q = some n) :
    ∃ m, (g.arrange config).canvas.nodes.find? p = some m ∧ m.Shows n := by
  rw [← g.map_node_arrange config, List.find?_map, Option.map_eq_some_iff] at h
  obtain ⟨m, hm, rfl⟩ := h
  refine ⟨Canvas.node m, ?_, rfl, rfl, rfl⟩
  have hcomp : p ∘ Canvas.node = q ∘ PlacedNode.node := funext hpq
  rw [PlacedGraph.canvas, List.find?_map, hcomp, hm, Option.map_some]

/-- The node that an id names in the graph is shown by the one that it names on the canvas. -/
theorem node?_canvas {id : String} {n : Node} (h : g.node? id = some n) :
    ∃ m, (g.arrange config).canvas.node? id = some m ∧ m.Shows n :=
  find?_nodes_canvas config (fun _ => rfl) h

theorem isCondition_canvas {id : String} {n : Node} (h : g.node? id = some n) :
    (g.arrange config).canvas.isCondition id = (n.kind == .condition) := by
  obtain ⟨m, hm, hshows⟩ := node?_canvas config h
  rw [Canvas.Flow.isCondition, hm, Option.any_some, hshows.component]
  rw [Bool.eq_iff_iff, beq_iff_eq, beq_iff_eq, NodeKind.name_injective.eq_iff]

end

end FlowGraph

/-! ## The canvas of a tree -/

/-- Trees that are read one for each place in a list, and agree with the trees there. -/
theorem Logic.exists_mapM_allAgree {f : Nat → Option Logic} {ts : List Logic}
    (h : ∀ i t, ts[i]? = some t → ∃ t', f i = some t' ∧ t'.agrees t = true) :
    ∃ ts', (List.range ts.length).mapM f = some ts' ∧ allAgree ts' ts = true := by
  induction ts generalizing f with
  | nil => exact ⟨[], rfl, by simp [allAgree]⟩
  | cons t ts ih =>
    obtain ⟨t', ht', hagrees⟩ := h 0 t rfl
    obtain ⟨ts', hts', hagreesAll⟩ := ih (f := f ∘ Nat.succ) fun i u hu => h (i + 1) u hu
    refine ⟨t' :: ts', ?_, by simp [allAgree, hagrees, hagreesAll]⟩
    rw [List.length_cons, List.range_succ_eq_map, List.mapM_cons, List.mapM_map, ht', hts']
    rfl

namespace FlowGraph

section

variable (rule : Rule) (actions : List Action) (executions : List Execution)

theorem node?_condition_ofTree {t s : Logic} {p : List Nat} (hp : t.subtree? p = some s) :
    (ofTree rule (some t) actions executions).node? (Site.condition p).id =
      some (conditionNode (Site.condition p).id s) :=
  node?_ofTree rule (some t) actions executions (conditionNode_mem_nodes_ofTree hp)

theorem node?_action_ofTree (tree : Option Logic) {i : Nat} (hi : i < actions.length) :
    ∃ n, (ofTree rule tree actions executions).node? (actionId i) = some n ∧ n.kind = .action := by
  refine ⟨_, node?_ofTree rule tree actions executions
    (n := actionNode executions i actions[i]) (List.mem_cons_of_mem _ ?_), rfl⟩
  exact List.mem_append_right _ (List.mem_mapIdx.mpr ⟨i, hi, rfl⟩)

variable (config : LayoutConfig Double)

/-- The edges out of a group lead to its children in their order. -/
theorem targets_group_canvas {t : Logic} {p : List Nat} {kind : Combinator} {children : List Logic}
    (hp : t.subtree? p = some (.group kind children)) :
    ((ofTree rule (some t) actions executions).arrange config).canvas.targets
        (Site.condition p).id =
      (List.range children.length).map fun i => (Site.condition (p ++ [i])).id := by
  rw [targets_canvas, outgoing_ofTree rule t actions executions hp, edgesFrom_group, List.map_map]
  rfl

/-- At the id of a position the canvas is read as the subtree there. -/
theorem treeAt_canvas {t : Logic} (steps : Nat) {p : List Nat} {s : Logic}
    (hp : t.subtree? p = some s) (hloaded : ∀ c ∈ s.conditions, c.Loaded)
    (hsteps : s.depth ≤ steps) :
    ∃ s', ((ofTree rule (some t) actions executions).arrange config).canvas.treeAt steps
      (Site.condition p).id = some s' ∧ s'.agrees s = true := by
  induction steps generalizing p s with
  | zero => exact absurd s.depth_pos (Nat.not_lt.mpr hsteps)
  | succ steps ih =>
    obtain ⟨m, hm, hshows⟩ :=
      node?_canvas config (node?_condition_ofTree rule actions executions hp)
    cases s with
    | leaf c =>
      obtain ⟨s', hs', hagrees, -⟩ := Logic.exists_ofJson_toJson hloaded
      have hcomparison : m.data.comparison? = some (Logic.leaf c).toJson := by
        rw [hshows.data]
        exact Canvas.comparison?_nodeData _ c
      refine ⟨s', ?_, hagrees⟩
      rw [Canvas.Flow.treeAt_comparison hm (by rw [hshows.data]; rfl), hcomparison,
        Option.bind_some, hs']
    | group kind children =>
      have hkind : m.data.combinator.bind Combinator.ofName? = some kind := by
        rw [hshows.data]
        exact Combinator.ofName?_word kind
      -- the edges of the group lead to its children, and each is read in one step less
      have hchildren : ∀ i u, children[i]? = some u →
          ∃ u', ((ofTree rule (some t) actions executions).arrange config).canvas.treeAt steps
            (Site.condition (p ++ [i])).id = some u' ∧ u'.agrees u = true := by
        intro i u hu
        have hmem := List.mem_of_getElem? hu
        have hdepth := Logic.depth_le_depthOfAll hmem
        rw [Logic.depth] at hsteps
        exact ih (Logic.subtree?_concat.mpr ⟨kind, children, hp, hu⟩)
          (fun c hc => hloaded c (Logic.mem_conditionsOfAll.mpr ⟨u, hmem, hc⟩)) (by omega)
      obtain ⟨ts, hts, hagrees⟩ := Logic.exists_mapM_allAgree hchildren
      refine ⟨.group kind ts, ?_, by simp [Logic.agrees, hagrees]⟩
      rw [Canvas.Flow.treeAt_group hm hkind,
        targets_group_canvas rule actions executions config hp, List.mapM_map]
      exact congrArg (Option.map (Logic.group kind)) hts

/-- Reading starts at the first condition to which the trigger leads. -/
theorem root?_canvas (tree : Option Logic) :
    ((ofTree rule tree actions executions).arrange config).canvas.root? =
      (((ofTree rule tree actions executions).outgoing triggerId).map (·.target)).find?
        ((ofTree rule tree actions executions).arrange config).canvas.isCondition := by
  obtain ⟨m, hm, hshows⟩ := find?_nodes_canvas (g := ofTree rule tree actions executions)
    (p := (·.component == NodeKind.trigger.name)) (q := (·.kind.name == NodeKind.trigger.name))
    config (fun _ => rfl) rfl
  have hid : m.id = triggerId := hshows.id
  rw [Canvas.Flow.root?, hm, Option.bind_eq_bind, Option.bind_some, hid, targets_canvas]

/-- Without a tree the trigger leads to no condition. -/
theorem root?_canvas_none :
    ((ofTree rule none actions executions).arrange config).canvas.root? = none := by
  rw [root?_canvas, List.find?_eq_none]
  intro target htarget
  obtain ⟨e, he, rfl⟩ := List.mem_map.mp htarget
  have hedge : e ∈ edgesOut actions.length .trigger :=
    fanOut_actionIds actions.length .trigger ▸ (List.mem_filter.mp he).1
  obtain ⟨i, hi, rfl⟩ := List.mem_map.mp hedge
  obtain ⟨n, hn, hkind⟩ :=
    node?_action_ofTree rule actions executions none (List.mem_range.mp hi)
  rw [Bool.not_eq_true]
  exact (isCondition_canvas config hn).trans (by rw [hkind]; rfl)

/-- With a tree the trigger leads to the root of the tree. -/
theorem root?_canvas_some (t : Logic) :
    ((ofTree rule (some t) actions executions).arrange config).canvas.root? = some rootId := by
  have hroot :
      ((ofTree rule (some t) actions executions).arrange config).canvas.isCondition rootId = true :=
    isCondition_canvas config
      (node?_condition_ofTree rule actions executions (Logic.subtree?_nil t))
  rw [root?_canvas, outgoing_trigger_ofTree]
  exact List.find?_cons_of_pos hroot

/-- Reading the canvas of a tree gives the tree. -/
theorem tree?_canvas {t : Logic} (hloaded : ∀ c ∈ t.conditions, c.Loaded) :
    ∃ t', ((ofTree rule (some t) actions executions).arrange config).canvas.tree? = some t' ∧
      t'.agrees t = true := by
  have hlength : t.positions.length ≤ (ofTree rule (some t) actions executions).nodes.length := by
    have hids := congrArg List.length (map_id_nodes_ofTree rule (some t) actions executions)
    rw [List.length_map, List.length_map] at hids
    simp only [hids, sites, Option.elim_some, Logic.paths, List.length_append, List.length_cons,
      List.length_map]
    omega
  rw [Canvas.Flow.tree?, root?_canvas_some, Option.bind_some, length_nodes_canvas]
  exact treeAt_canvas rule actions executions config _ (Logic.subtree?_nil t) hloaded
    (t.depth_le_length_positions.trans hlength)

/-- An edge has the handle of an outcome exactly if it leads from a group of two to the child for
which the outcome stands. -/
theorem sourceHandle_canvas (tree : Option Logic) {e : Canvas.Edge}
    (he : e ∈ ((ofTree rule tree actions executions).arrange config).canvas.edges)
    (branch : Branch) :
    e.sourceHandle = some branch.word ↔ LeadsToChild tree branch.index e.source e.target := by
  obtain ⟨edge, hedge, rfl⟩ := List.mem_map.mp he
  have hbranch := branch_eq_some_iff rule tree actions executions hedge branch
  exact (Option.map_injective Branch.word_injective).eq_iff (b := some branch) |>.trans hbranch

end

end FlowGraph

/-- Without its empty groups a rule has the same comparisons. -/
theorem Rule.loaded_tree? {rule : Rule} (h : ∀ t ∈ rule.logic, ∀ c ∈ t.conditions, c.Loaded) :
    ∀ t ∈ rule.tree?, ∀ c ∈ t.conditions, c.Loaded := by
  intro t ht c hc
  obtain ⟨s, hs, hnormalize⟩ := Option.bind_eq_some_iff.mp ht
  have hsame : t.conditions = s.conditions := by
    rw [← s.conditions_normalize, hnormalize, Option.elim_some]
  exact h s hs c (hsame ▸ hc)

open FlowGraph

/-- What a flow keeps of the graph of a tree.  It can be read as the tree, equal but for the sign of
zeros.  Nodes and edges stand in their order, with their ids and ends.  An edge has the handle of an
outcome, which is its label too, exactly if it leads from a group of two children to the child for
which the outcome stands. -/
structure Canvas.Flow.Keeps (f : Flow) (g : FlowGraph) (tree : Option Logic) : Prop where
  reads : Option.Rel (fun t' t => t'.agrees t = true) f.tree? tree
  nodes : f.nodes.map (·.id) = g.nodes.map (·.id)
  edges : f.edges.map (fun e => (e.id, e.source, e.target)) =
    g.edges.map fun e => (e.id, e.source, e.target)
  label : ∀ e ∈ f.edges, e.label = e.sourceHandle
  handle : ∀ e ∈ f.edges, ∀ h ∈ e.sourceHandle, h = "true" ∨ h = "false"
  passed : ∀ e ∈ f.edges, e.sourceHandle = some "true" ↔ LeadsToChild tree 0 e.source e.target
  failed : ∀ e ∈ f.edges, e.sourceHandle = some "false" ↔ LeadsToChild tree 1 e.source e.target

/-- The canvas of a rule keeps the rule, without its empty groups, as long as the operators of the
rule are those of symbols and its numbers are finite. -/
theorem Bundle.keeps_canvas_compile (b : Bundle) (config : LayoutConfig Double)
    (h : ∀ t ∈ b.rule.logic, ∀ c ∈ t.conditions, c.Loaded) :
    (b.compile.arrange config).canvas.Keeps b.compile b.rule.tree? where
  reads := by
    rw [compile]
    cases htree : b.rule.tree? with
    | none =>
      rw [Canvas.Flow.tree?, root?_canvas_none]
      exact .none
    | some t =>
      obtain ⟨t', ht', hagrees⟩ :=
        tree?_canvas b.rule b.actions b.executions config (Rule.loaded_tree? h t htree)
      rw [ht']
      exact .some hagrees
  nodes := b.compile.map_id_nodes_canvas config
  edges := b.compile.map_ends_edges_canvas config
  label e he := by
    obtain ⟨edge, -, rfl⟩ := List.mem_map.mp he
    rfl
  handle e he := by
    obtain ⟨edge, -, rfl⟩ := List.mem_map.mp he
    intro handle hhandle
    obtain ⟨branch, -, rfl⟩ := Option.map_eq_some_iff.mp hhandle
    cases branch with
    | passed => exact .inl rfl
    | failed => exact .inr rfl
  passed e he := sourceHandle_canvas _ _ _ config _ he .passed
  failed e he := sourceHandle_canvas _ _ _ config _ he .failed

/-- A rule with an empty group, a negative zero and an operator that nobody knows, and two actions
of one id. -/
def drawnBundle : Bundle where
  rule :=
    { id := "r"
      triggerType := "t"
      logic := some <| .group .or
        [.group .and [],
         .leaf ⟨"a", .other "~", .number ⟨0x8000000000000000⟩⟩,
         .group .and
          [.leaf ⟨"b", .equal, .text "x"⟩, .leaf ⟨"c", .contains, .null⟩,
           .leaf ⟨"d", .lessThan, .number ⟨0x43e0000000000000⟩⟩]] }
  actions := [⟨"send", "Send", none⟩, ⟨"send", "Send again", some "mail"⟩]
  executions := [⟨"e", .failed, "2024-01-01", some "send"⟩]

theorem keeps_canvas_drawnBundle :
    (∀ t ∈ drawnBundle.rule.logic, ∀ c ∈ t.conditions, c.Loaded) ∧
    (drawnBundle.compile.arrange LayoutConfig.standard).canvas.Keeps drawnBundle.compile
      drawnBundle.rule.tree? := by
  have hloaded : ∀ t ∈ drawnBundle.rule.logic, ∀ c ∈ t.conditions, c.Loaded := by
    rintro t ⟨⟩
    simp only [Logic.conditions, Logic.conditionsOfAll, List.nil_append, List.cons_append,
      List.append_nil, List.forall_mem_cons]
    exact ⟨⟨⟨"~", by decide⟩, show Double.isFinite _ = true by decide⟩,
      ⟨⟨"==", by decide⟩, trivial⟩, ⟨⟨"contains", by decide⟩, trivial⟩,
      ⟨⟨"<", by decide⟩, show Double.isFinite _ = true by decide⟩, nofun⟩
  exact ⟨hloaded, drawnBundle.keeps_canvas_compile LayoutConfig.standard hloaded⟩

end RuleFlow
