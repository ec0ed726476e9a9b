import RuleFlow.Proofs.Graph.Recovery
import RuleFlow.Proofs.Layout.Centering
import RuleFlow.Proofs.Layout.Traversal
import RuleFlow.Proofs.Logic.Shape

/-!
# What a drawing depends on

The layout reads the ids and the edges of a graph and nothing else of its nodes, so it commutes with
every change of the nodes that keeps their ids (`FlowGraph.arrange_mapNodes`).  The ids, the kinds
and the edges of a compiled graph depend on the shape of the tree and the number of actions alone,
and the shape can be told from the ids.  Hence rules are drawn alike exactly if they have one shape
and as many actions (`Bundle.drawing_arrange_eq_iff`), and executions show in the roll-ups alone.
-/

namespace RuleFlow

/-! ## Other nodes in the same places -/

/-- The graph with other nodes in the places of its own. -/
def FlowGraph.mapNodes (f : Node → Node) (g : FlowGraph) : FlowGraph := ⟨g.nodes.map f, g.edges⟩

/-- Another node in the same place. -/
def PlacedNode.mapNode (f : Node → Node) (n : PlacedNode κ) : PlacedNode κ :=
  { n with node := f n.node }

/-- The placed graph with other nodes in the places of its own. -/
def PlacedGraph.mapNodes (f : Node → Node) (g : PlacedGraph κ) : PlacedGraph κ :=
  ⟨g.nodes.map (.mapNode f), g.edges⟩

/-- The same links between as many nodes. -/
def Links.cast (h : n = m) (links : Links n) : Links m :=
  links.map fun l => (l.1.cast h, l.2.cast h)

@[simp] theorem Links.cast_rfl (links : Links n) : links.cast rfl = links := List.map_id links

theorem map_cast_finRange (h : n = m) : (List.finRange n).map (Fin.cast h) = List.finRange m := by
  subst h
  exact List.map_id _

namespace Sweep

variable {n m : Nat} (h : n = m) (links : Links n) (v : Fin n)

/-- A sweep can be moved along an equation between numbers of nodes, with its layers. -/
theorem layer_run_cast : (run (links.cast h) m (start (links.cast h))).layer.get (v.cast h) =
    (run links n (start links)).layer.get v := by
  subst h
  rw [Links.cast_rfl, Fin.cast_eq_self]

theorem slot_run_cast : (run (links.cast h) m (start (links.cast h))).slot (v.cast h) =
    (run links n (start links)).slot v := by
  subst h
  rw [Links.cast_rfl, Fin.cast_eq_self]

end Sweep

section

variable {f : Node → Node} (hf : ∀ n, (f n).id = n.id)

include hf

/-- Lookups are by id, which the change of the nodes keeps. -/
theorem indexOf?_map (nodes : List Node) (id : String) : indexOf? (nodes.map f) id =
    (indexOf? nodes id).map (Fin.cast (List.length_map f).symm) := by
  apply Option.map_injective Fin.val_injective
  rw [Option.map_map, indexOf?, indexOf?, ← List.findIdx?_eq_map_findFinIdx?_val, List.findIdx?_map]
  simp only [Function.comp_def, hf, Fin.val_cast, List.findIdx?_eq_map_findFinIdx?_val]

/-- So the links of the changed nodes are the links of the nodes. -/
theorem linksOf_map (nodes : List Node) (edges : List Edge) : linksOf (nodes.map f) edges =
    (linksOf nodes edges).cast (List.length_map f).symm := by
  rw [linksOf, linksOf, Links.cast, List.map_filterMap]
  congr 1
  funext e
  rw [resolve?, resolve?, indexOf?_map hf, indexOf?_map hf]
  cases indexOf? nodes e.source <;> cases indexOf? nodes e.target <;> rfl

end

section

variable {κ : Type} [Coordinate κ] {f : Node → Node} (nodes : List (PlacedNode κ))

omit [Coordinate κ] in
/-- Centering looks at places and not at what stands there. -/
theorem layersOf_mapNode : layersOf (nodes.map (.mapNode f)) = layersOf nodes := by
  rw [layersOf, layersOf, List.map_map]
  rfl

theorem extentOf?_mapNode (layer : Nat) :
    extentOf? (nodes.map (.mapNode f)) layer = extentOf? nodes layer := by
  rw [extentOf?, extentOf?, List.filter_map, List.map_map]
  rfl

theorem center_mapNode (config : LayoutConfig κ) :
    center (nodes.map (.mapNode f)) config = (center nodes config).map (.mapNode f) := by
  rw [center, center, layersOf_mapNode, funext (extentOf?_mapNode (f := f) nodes)]
  cases widest? ((layersOf nodes).filterMap (extentOf? nodes)) with
  | none => rfl
  | some widest =>
    simp only [List.map_map]
    refine List.map_congr_left fun n _ => ?_
    simp only [Function.comp_apply, PlacedNode.mapNode]
    cases extentOf? nodes n.layer <;> rfl

end

namespace FlowGraph

variable {κ : Type} [Coordinate κ] {f : Node → Node} (hf : ∀ n, (f n).id = n.id) (g : FlowGraph)
  (config : LayoutConfig κ)

include hf

/-- A change of the nodes that keeps their ids can as well be made after the layout. -/
theorem layout_mapNodes : (g.mapNodes f).layout config = (g.layout config).mapNodes f := by
  -- the sweeps run over positions of two lists of one length: one is the other, moved along
  -- `hlength`
  have hlength : g.nodes.length = (g.nodes.map f).length := (List.length_map f).symm
  have hlayer := Sweep.layer_run_cast hlength (linksOf g.nodes g.edges)
  have hslot := Sweep.slot_run_cast hlength (linksOf g.nodes g.edges)
  have hnode (v : Fin g.nodes.length) :
      (g.nodes.map f).get (v.cast hlength) = f (g.nodes.get v) := by simp
  rw [← linksOf_map hf] at hlayer hslot
  simp only [layout, mapNodes, assignLayers, PlacedGraph.mapNodes, PlacedNode.mapNode,
    ← map_cast_finRange hlength, List.map_map, Function.comp_def, hnode, hlayer, hslot]

/-- The layout commutes with every change of the nodes that keeps their ids. -/
theorem arrange_mapNodes : (g.mapNodes f).arrange config = (g.arrange config).mapNodes f := by
  simp only [arrange, layout_mapNodes hf, PlacedGraph.mapNodes, center_mapNode]

end FlowGraph

/-! ## Drawings -/

/-- A box, without the texts in it. -/
structure Box (κ : Type) where
  id : String
  kind : NodeKind
  layer : Nat
  x : κ
  y : κ

/-- Boxes, and the arrows between them. -/
structure Drawing (κ : Type) where
  boxes : List (Box κ)
  arrows : List Edge

/-- What is drawn of a node. -/
def PlacedNode.box (n : PlacedNode κ) : Box κ := ⟨n.node.id, n.node.kind, n.layer, n.x, n.y⟩

/-- What is drawn of a graph. -/
def PlacedGraph.drawing (g : PlacedGraph κ) : Drawing κ := ⟨g.nodes.map (·.box), g.edges⟩

/-- Data of a kind that holds nothing else. -/
def NodeKind.bare : NodeKind → NodeData
  | .trigger => .trigger "" "" .empty
  | .condition => .condition "" (.group .and 0)
  | .action => .action "" "" none .empty

@[simp] theorem NodeKind.kind_bare (kind : NodeKind) : kind.bare.kind = kind := by
  cases kind <;> rfl

/-- The node with nothing but its id and its kind. -/
def Node.bare (n : Node) : Node := ⟨n.id, n.kind.bare⟩

/-- Two graphs have the same drawing exactly if they have the same ids, kinds and edges. -/
theorem FlowGraph.drawing_arrange_eq_iff_bare {κ : Type} [Coordinate κ] (g g' : FlowGraph)
    (config : LayoutConfig κ) : (g.arrange config).drawing = (g'.arrange config).drawing ↔
      g.mapNodes Node.bare = g'.mapNodes Node.bare := by
  constructor
  · intro h
    have hbare (g : FlowGraph) : g.mapNodes Node.bare =
        ⟨(g.arrange config).drawing.boxes.map fun b => ⟨b.id, b.kind.bare⟩,
          (g.arrange config).drawing.arrows⟩ := by
      rw [mapNodes, ← g.map_node_arrange config, PlacedGraph.drawing, List.map_map, List.map_map]
      rfl
    rw [hbare g, h, ← hbare g']
  · intro h
    have hdrawing (g : PlacedGraph κ) : (g.mapNodes Node.bare).drawing = g.drawing := by
      simp [PlacedGraph.mapNodes, PlacedGraph.drawing, PlacedNode.mapNode, PlacedNode.box,
        Node.bare, Node.kind]
    have hbare (g : FlowGraph) :
        (g.arrange config).drawing = ((g.mapNodes Node.bare).arrange config).drawing := by
      rw [arrange_mapNodes (f := Node.bare) fun _ => rfl, hdrawing]
    rw [hbare g, h, ← hbare g']

/-! ## The drawing of a shape -/

namespace Site

def kind : Site → NodeKind
  | .trigger => .trigger
  | .condition _ => .condition
  | .action _ => .action

/-- The node at a site with nothing but its id and its kind. -/
def bareNode (a : Site) : Node := ⟨a.id, a.kind.bare⟩

theorem bareNode_injective : Function.Injective bareNode := fun _ _ h =>
  id_injective (congrArg Node.id h)

end Site

namespace FlowGraph

/-- Nodes without contents are those of the sites. -/
theorem map_bare_nodes_ofTree (rule : Rule) (tree : Option Logic) (actions : List Action)
    (executions : List Execution) :
    (ofTree rule tree actions executions).nodes.map Node.bare =
      (sites tree actions.length).map Site.bareNode :=
  map_nodes_ofTree rule tree actions executions rfl (fun _ _ => rfl) fun _ _ => rfl

/-- The sites tell the paths of the tree and the number of actions, and nothing else. -/
theorem sites_eq_iff {tree tree' : Option Logic} {actionCount actionCount' : Nat} :
    sites tree actionCount = sites tree' actionCount' ↔
      tree.map Logic.paths = tree'.map Logic.paths ∧ actionCount = actionCount' := by
  constructor
  · intro h
    have hindex := congrArg (List.length ∘ List.filterMap Site.index?) h
    simp only [Function.comp_apply, filterMap_index?_sites, List.length_range] at hindex
    subst hindex
    have hroot {t : Logic} : Site.condition [] ∈ sites (some t) actionCount :=
      condition_mem_sites.mpr (Logic.mem_paths.mpr rfl)
    have hnone : Site.condition [] ∉ sites none actionCount := by simp [sites]
    refine ⟨?_, rfl⟩
    cases tree <;> cases tree'
    case none.none => rfl
    case none.some t => exact absurd (h ▸ hroot) hnone
    case some.none t => exact absurd (h ▸ hroot) hnone
    case some.some t t' =>
      have hpath := congrArg (List.filterMap Site.path?) h
      rw [filterMap_path?_sites, filterMap_path?_sites] at hpath
      exact congrArg some hpath
  · rintro ⟨hpaths, rfl⟩
    cases tree <;> cases tree'
    case none.none => rfl
    case some.some t t' =>
      rw [sites, sites, Option.elim_some, Option.elim_some, Option.some.inj hpaths]
    all_goals cases hpaths

mutual

/-- Trees of one shape have the same edges. -/
theorem conditionEdges_eq_of_shape_eq (actions : List String) : ∀ (parent : String)
    (branch : Option Branch) (id : String) {t t' : Logic}, t.shape = t'.shape →
      conditionEdges actions parent branch id t = conditionEdges actions parent branch id t'
  | _, _, _, .leaf _, .leaf _, _ => rfl
  | parent, branch, id, .group _ children, .group _ children', h => by
    have hshapes := Shape.group.inj h
    rw [conditionEdges, conditionEdges, Logic.length_eq_of_shapes_eq hshapes,
      childEdges_eq_of_shapes_eq actions id children'.length 0 hshapes]
  | _, _, _, .leaf _, .group .., h => nomatch h
  | _, _, _, .group .., .leaf _, h => nomatch h

theorem childEdges_eq_of_shapes_eq (actions : List String) : ∀ (parent : String)
    (count index : Nat) {ts ts' : List Logic}, Logic.shapes ts = Logic.shapes ts' →
      childEdges actions parent count index ts = childEdges actions parent count index ts'
  | _, _, _, [], [], _ => rfl
  | parent, count, index, t :: ts, t' :: ts', h => by
    have hcons := List.cons.inj h
    rw [childEdges, childEdges, conditionEdges_eq_of_shape_eq actions _ _ _ hcons.1,
      childEdges_eq_of_shapes_eq actions parent count (index + 1) hcons.2]
  | _, _, _, [], _ :: _, h => nomatch h
  | _, _, _, _ :: _, [], h => nomatch h

end

variable {rule rule' : Rule} {tree tree' : Option Logic} {actions actions' : List Action}
  {executions executions' : List Execution}

/-- The edges of a graph depend on the shape of the tree and the number of actions. -/
theorem edges_ofTree_eq_of_shape_eq (hshape : tree.map Logic.shape = tree'.map Logic.shape)
    (hcount : actions.length = actions'.length) :
    (ofTree rule tree actions executions).edges =
      (ofTree rule' tree' actions' executions').edges := by
  cases tree <;> cases tree'
  case none.none => rw [ofTree, ofTree, hcount]
  case some.some t t' =>
    rw [ofTree, ofTree, hcount]
    exact conditionEdges_eq_of_shape_eq _ _ _ _ (Option.some.inj hshape)
  all_goals cases hshape

/-- Without contents, two graphs are the same exactly if their trees have one shape and they have as
many actions. -/
theorem mapNodes_bare_ofTree_eq_iff (htree : ∀ t ∈ tree, t.NoEmptyGroup)
    (htree' : ∀ t ∈ tree', t.NoEmptyGroup) :
    (ofTree rule tree actions executions).mapNodes Node.bare =
        (ofTree rule' tree' actions' executions').mapNodes Node.bare ↔
      tree.map Logic.shape = tree'.map Logic.shape ∧ actions.length = actions'.length := by
  have hshape : tree.map Logic.shape = tree'.map Logic.shape ↔
      tree.map Logic.paths = tree'.map Logic.paths := by
    cases tree <;> cases tree'
    case some.some t t' => simp [Logic.shape_eq_iff (htree t rfl) (htree' t' rfl)]
    all_goals simp
  -- the ids determine the sites, and these the shape; the edges add nothing
  rw [hshape, ← sites_eq_iff]
  constructor
  · intro h
    have hnodes := congrArg FlowGraph.nodes h
    simp only [mapNodes, map_bare_nodes_ofTree] at hnodes
    exact List.map_injective_iff.mpr Site.bareNode_injective hnodes
  · intro hsites
    have h := sites_eq_iff.mp hsites
    rw [mapNodes, mapNodes, map_bare_nodes_ofTree, map_bare_nodes_ofTree, hsites,
      edges_ofTree_eq_of_shape_eq (hshape.mpr h.1) h.2]

end FlowGraph

/-- Two bundles are drawn alike exactly if their trees without empty groups have one shape, or there
are none, and they have as many actions.  Executions change nothing but the roll-ups. -/
theorem Bundle.drawing_arrange_eq_iff {κ : Type} [Coordinate κ] (b b' : Bundle)
    (config : LayoutConfig κ) :
    ((b.compile.arrange config).drawing = (b'.compile.arrange config).drawing ↔
      b.rule.tree?.map Logic.shape = b'.rule.tree?.map Logic.shape ∧
        b.actions.length = b'.actions.length) ∧
    ∀ runs, (({ b with executions := runs } : Bundle).compile.arrange config).mapNodes
      Node.withoutRuns = (b.compile.arrange config).mapNodes Node.withoutRuns := by
  constructor
  · rw [FlowGraph.drawing_arrange_eq_iff_bare]
    exact FlowGraph.mapNodes_bare_ofTree_eq_iff b.rule.noEmptyGroup_tree?
      b'.rule.noEmptyGroup_tree?
  · intro runs
    rw [← FlowGraph.arrange_mapNodes (f := Node.withoutRuns) fun _ => rfl,
      ← FlowGraph.arrange_mapNodes (f := Node.withoutRuns) fun _ => rfl]
    exact congrArg (FlowGraph.arrange · config)
      (FlowGraph.withoutRuns_ofTree b.rule b.rule.tree? b.actions runs b.rule rfl b.executions)

/-- Combinators, comparisons and empty groups make no difference. -/
example (c d : Condition) : (Logic.normalize (.group .and [.leaf c, .leaf d])).map Logic.shape =
    (Logic.normalize (.group .or [.group .and [], .leaf d, .leaf c])).map Logic.shape := rfl

end RuleFlow
