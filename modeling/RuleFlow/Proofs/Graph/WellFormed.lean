import RuleFlow.Proofs.Graph.Edges

/-!
# Compiled graphs are well formed

In a compiled graph no two nodes share an id, no two edges share an id, and every edge leads from a
node to a node.  The ids of nodes are those of different sites.  The id of an edge runs the ids of
its ends together with the same dash that ids have inside, but it can be taken apart again: a dash
inside an id is followed by a digit, and the second id starts with a letter (`Site.id_append_inj`).
-/

namespace RuleFlow

/-- The id of the edge between two sites. -/
def Site.linkId (l : Site × Site) : String := "e-" ++ l.1.id ++ "-" ++ l.2.id

/-- Different links have different ids. -/
theorem Site.linkId_injective : Function.Injective Site.linkId := by
  rintro ⟨a, b⟩ ⟨a', b'⟩ h
  have hlist := congrArg String.toList h
  simp only [linkId, String.toList_append, List.append_assoc] at hlist
  obtain ⟨rfl, hrest⟩ := id_append_inj (endsPath_dash_id b) (endsPath_dash_id b')
    (List.append_cancel_left hlist)
  rw [Site.id_injective (String.toList_inj.mp (List.cons.inj hrest).2)]

namespace FlowGraph

/-- Nodes and edges have ids of their own, the id of an edge names its ends, and these are nodes. -/
structure WellFormed (g : FlowGraph) : Prop where
  nodes_nodup : (g.nodes.map Node.id).Nodup
  edges_nodup : (g.edges.map Edge.id).Nodup
  id_edge : ∀ e ∈ g.edges, e.id = "e-" ++ e.source ++ "-" ++ e.target
  source_mem : ∀ e ∈ g.edges, e.source ∈ g.nodes.map Node.id
  target_mem : ∀ e ∈ g.edges, e.target ∈ g.nodes.map Node.id

variable (rule : Rule) (tree : Option Logic) (actions : List Action) (executions : List Execution)

theorem ids_nodup_ofTree : ((ofTree rule tree actions executions).nodes.map Node.id).Nodup := by
  rw [map_id_nodes_ofTree]
  exact (sites_nodup tree actions.length).map Site.id_injective

/-- Every node is found by its id. -/
theorem node?_ofTree {n : Node} (h : n ∈ (ofTree rule tree actions executions).nodes) :
    (ofTree rule tree actions executions).node? n.id = some n := by
  have hsome : ((ofTree rule tree actions executions).nodes.find? (·.id == n.id)).isSome :=
    List.find?_isSome.mpr ⟨n, h, beq_self_eq_true n.id⟩
  obtain ⟨m, hm⟩ := Option.isSome_iff_exists.mp hsome
  have hid : m.id = n.id := by simpa using List.find?_some hm
  have heq : m = n := List.inj_on_of_nodup_map (ids_nodup_ofTree rule tree actions executions)
    (List.mem_of_find?_eq_some hm) h hid
  rw [node?, hm, heq]

theorem id_of_mem_edgesOut {actionCount : Nat} {a : Site} {e : Edge}
    (h : e ∈ edgesOut actionCount a) : e.id = "e-" ++ e.source ++ "-" ++ e.target := by
  obtain ⟨i, -, rfl⟩ := List.mem_map.mp h
  rfl

theorem id_of_mem_edgesFrom {actionCount : Nat} {p : List Nat} {t : Logic} {e : Edge}
    (h : e ∈ edgesFrom actionCount p t) : e.id = "e-" ++ e.source ++ "-" ++ e.target := by
  cases t with
  | leaf c => exact id_of_mem_edgesOut h
  | group kind children =>
    obtain ⟨i, hi, rfl⟩ := List.mem_mapIdx.mp h
    rfl

theorem id_of_mem_edges_ofTree {e : Edge} (h : e ∈ (ofTree rule tree actions executions).edges) :
    e.id = "e-" ++ e.source ++ "-" ++ e.target := by
  cases tree with
  | none =>
    have hedges : (ofTree rule none actions executions).edges =
        edgesOut actions.length .trigger := fanOut_actionIds actions.length .trigger
    exact id_of_mem_edgesOut (hedges ▸ h)
  | some t =>
    rcases (mem_edges_ofTree rule t actions executions).mp h with rfl | ⟨p, s, -, h⟩
    · rfl
    · exact id_of_mem_edgesFrom h

/-- The edges carry the ids of the links. -/
theorem map_id_edges_ofTree : (ofTree rule tree actions executions).edges.map Edge.id =
    (links tree actions.length).map Site.linkId := by
  have hends := congrArg (List.map fun ends : String × String => "e-" ++ ends.1 ++ "-" ++ ends.2)
    (map_ends_edges_ofTree rule tree actions executions)
  rw [List.map_map, List.map_map] at hends
  rw [List.map_congr_left fun e he => id_of_mem_edges_ofTree rule tree actions executions he]
  exact hends

/-- Both ends of an edge are nodes. -/
theorem ends_mem_nodes_ofTree {e : Edge} (h : e ∈ (ofTree rule tree actions executions).edges) :
    e.source ∈ (ofTree rule tree actions executions).nodes.map Node.id ∧
      e.target ∈ (ofTree rule tree actions executions).nodes.map Node.id := by
  obtain ⟨a, b, hlink, hsource, htarget⟩ := exists_link_of_mem_edges_ofTree h
  obtain ⟨ha, hb⟩ := mem_sites_of_mem_links hlink
  rw [map_id_nodes_ofTree, ← hsource, ← htarget]
  exact ⟨List.mem_map_of_mem ha, List.mem_map_of_mem hb⟩

end FlowGraph

/-- Every compiled graph is well formed. -/
theorem Bundle.wellFormed_compile (b : Bundle) : b.compile.WellFormed where
  nodes_nodup := FlowGraph.ids_nodup_ofTree _ _ _ _
  edges_nodup := by
    rw [compile, FlowGraph.map_id_edges_ofTree]
    exact (FlowGraph.links_nodup _ _).map Site.linkId_injective
  id_edge _ he := FlowGraph.id_of_mem_edges_ofTree _ _ _ _ he
  source_mem _ he := (FlowGraph.ends_mem_nodes_ofTree _ _ _ _ he).1
  target_mem _ he := (FlowGraph.ends_mem_nodes_ofTree _ _ _ _ he).2

end RuleFlow
