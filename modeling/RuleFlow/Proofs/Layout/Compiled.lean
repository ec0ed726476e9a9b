import RuleFlow.Proofs.Layout.Slots
import RuleFlow.Proofs.Layout.Traversal

/-!
# The layout of a compiled graph

Where a node of a compiled graph is placed can be read off the tree: the layer and the slot of its
site.  The layers are known, and the slot of a node is its place among the nodes of its layer in the
order of the sweep, which lists the conditions of a level in document order and the actions in
theirs.
-/

namespace RuleFlow

/-- The place of a site within its layer in the graph of a tree. -/
def Site.slot (tree : Option Logic) : Site → Nat
  | .trigger => 0
  | .condition p => tree.elim 0 (·.rank p)
  | .action i => i

/-! ## Lists -/

theorem idxOf_map_of_injective {α β : Type} [BEq α] [LawfulBEq α] [BEq β] [LawfulBEq β]
    {f : α → β} (hf : Function.Injective f) (l : List α) (x : α) :
    (l.map f).idxOf (f x) = l.idxOf x := by
  induction l with
  | nil => rfl
  | cons y l ih =>
    rw [List.map_cons]
    by_cases hy : y = x
    · rw [hy, List.idxOf_cons_self, List.idxOf_cons_self]
    · rw [List.idxOf_cons_ne _ hy, List.idxOf_cons_ne _ (hf.ne hy), ih]

/-- The items with a property, where an item that has it is built by `g` from what `f` reads. -/
theorem filter_eq_map_filterMap {α β : Type} {P : α → Bool} {f : α → Option β} {g : β → α}
    (hfg : ∀ x y, f x = some y → x = g y) {l : List α} (hP : ∀ x ∈ l, P x = true → f x ≠ none) :
    l.filter P = ((l.filterMap f).filter fun y => P (g y)).map g := by
  induction l with
  | nil => rfl
  | cons x l ih =>
    have ih := ih fun y hy => hP y (List.mem_cons_of_mem x hy)
    cases hx : f x with
    | none =>
      have hnot : ¬ P x = true := fun hPx => hP x List.mem_cons_self hPx hx
      rw [List.filter_cons_of_neg hnot, List.filterMap_cons_none hx, ih]
    | some y =>
      cases hfg x y hx
      rw [List.filterMap_cons_some hx]
      by_cases hPy : P (g y) = true
      · rw [List.filter_cons_of_pos hPy, List.filter_cons_of_pos (p := fun y => P (g y)) hPy,
          List.map_cons, ih]
      · rw [List.filter_cons_of_neg hPy, List.filter_cons_of_neg (p := fun y => P (g y)) hPy, ih]

namespace Numbering

/-! ## Slots -/

section Slots

variable {tree : Option Logic} {actionCount n : Nat} {links : Links n}
  (num : Numbering tree actionCount links)

include num

theorem slot_eq_idxOf (htree : ∀ t ∈ tree, t.NoEmptyGroup) (v : Fin n) :
    (Sweep.run links n (.start links)).slot v =
      (num.order.filter fun a => a.layer tree = (num.site v).layer tree).idxOf (num.site v) := by
  have hlayer : (fun u => (Sweep.run links n (.start links)).layer.get u ==
      (Sweep.run links n (.start links)).layer.get v) =
      fun u => decide ((num.site u).layer tree = (num.site v).layer tree) := by
    funext u
    rw [num.layer_run_start htree, num.layer_run_start htree]
    rfl
  rw [Sweep.slot_eq_idxOf, hlayer, order, List.filter_map,
    idxOf_map_of_injective num.site_injective]
  rfl

theorem slot_trigger (htree : ∀ t ∈ tree, t.NoEmptyGroup) {v : Fin n}
    (hv : num.site v = .trigger) : (Sweep.run links n (.start links)).slot v = 0 := by
  rw [Sweep.slot, List.countP_eq_zero]
  intro u hu heq
  rw [num.layer_run_start htree, num.layer_run_start htree, hv, beq_iff_eq, Site.layer,
    Site.layer_eq_zero, ← hv, num.site_injective.eq_iff] at heq
  exact Precedes.irrefl v (heq ▸ Sweep.mem_upTo.mp hu)

theorem slot_action (htree : ∀ t ∈ tree, t.NoEmptyGroup) {v : Fin n} {i : Nat}
    (hv : num.site v = .action i) : (Sweep.run links n (.start links)).slot v = i := by
  have hi : i < actionCount :=
    FlowGraph.action_mem_sites.mp (hv ▸ num.site_mem v)
  have hread : ∀ a ∈ num.order, decide (a.layer tree = (Site.action i).layer tree) = true →
      a.index? ≠ none := by
    intro a ha hlayer
    rw [decide_eq_true_eq] at hlayer
    cases a with
    | trigger => exact absurd (Site.layer_eq_zero.mp hlayer.symm) Site.noConfusion
    | condition p =>
      exact absurd hlayer (FlowGraph.layer_condition_ne (num.order_perm.mem_iff.mp ha) i)
    | action j => exact Option.some_ne_none j
  have hactions : num.order.filter (fun a => a.layer tree = (Site.action i).layer tree) =
      (List.range actionCount).map .action := by
    have hall (j : Nat) : (Site.action j).layer tree = (Site.action i).layer tree := rfl
    rw [filter_eq_map_filterMap (fun _ _ => Site.index?_eq_some.mp) hread,
      num.filterMap_index?_order htree]
    simp only [hall, decide_true, List.filter_true]
  rw [num.slot_eq_idxOf htree, hv, hactions,
    idxOf_map_of_injective fun i j h => Site.action.inj h]
  have hidx := List.nodup_range.idxOf_getElem i (by rwa [List.length_range])
  rwa [List.getElem_range] at hidx

end Slots

theorem slot_condition {t : Logic} {actionCount n : Nat} {links : Links n}
    (num : Numbering (some t) actionCount links) (htree : t.NoEmptyGroup) {v : Fin n}
    {p : List Nat} (hv : num.site v = .condition p) :
    (Sweep.run links n (.start links)).slot v = t.rank p := by
  have hp := num.site_mem v
  rw [hv] at hp
  have hread : ∀ a ∈ num.order,
      decide (a.layer (some t) = (Site.condition p).layer (some t)) = true → a.path? ≠ none := by
    intro a _ hlayer
    rw [decide_eq_true_eq] at hlayer
    cases a with
    | trigger => exact absurd (Site.layer_eq_zero.mp hlayer.symm) Site.noConfusion
    | condition q => exact Option.some_ne_none q
    | action i => exact absurd hlayer.symm (FlowGraph.layer_condition_ne hp i)
  have hconditions : num.order.filter
      (fun a => a.layer (some t) = (Site.condition p).layer (some t)) =
      (t.level p.length).map .condition := by
    have hlength (q : List Nat) : (Site.condition q).layer (some t) =
        (Site.condition p).layer (some t) ↔ q.length = p.length := Nat.add_right_cancel_iff
    rw [filter_eq_map_filterMap (fun _ _ => Site.path?_eq_some.mp) hread]
    simp only [hlength]
    rw [num.filterMap_path?_order htree]
  rw [num.slot_eq_idxOf (by simpa using htree), hv, hconditions,
    idxOf_map_of_injective fun p q h => Site.condition.inj h,
    Logic.idxOf_level (FlowGraph.condition_mem_sites.mp hp)]

/-- The sweep finds the slots of the sites. -/
theorem slot_run_start {tree : Option Logic} {actionCount n : Nat} {links : Links n}
    (num : Numbering tree actionCount links) (htree : ∀ t ∈ tree, t.NoEmptyGroup) (v : Fin n) :
    (Sweep.run links n (.start links)).slot v = (num.site v).slot tree := by
  cases hv : num.site v with
  | trigger => exact num.slot_trigger htree hv
  | action i => exact num.slot_action htree hv
  | condition p =>
    cases tree with
    | none =>
      have hmem := num.site_mem v
      simp [hv, FlowGraph.sites] at hmem
    | some t => exact num.slot_condition (htree t rfl) hv

end Numbering

/-! ## Placed nodes -/

section Layout

variable {κ : Type} [Coordinate κ]

/-- A node in a slot of a layer. -/
def PlacedNode.inSlot (config : LayoutConfig κ) (node : Node) (layer slot : Nat) :
    PlacedNode κ where
  node
  layer
  x := Coordinate.mul (Coordinate.ofNat slot) config.effectiveNodeSpacing
  y := Coordinate.mul (Coordinate.ofNat layer) config.layerSpacing

namespace FlowGraph

variable (rule : Rule) {tree : Option Logic} (actions : List Action) (executions : List Execution)
  (config : LayoutConfig κ)

/-- The layout puts every node into the slot of its site. -/
theorem nodes_layout_ofTree (htree : ∀ t ∈ tree, t.NoEmptyGroup) :
    ((ofTree rule tree actions executions).layout config).nodes =
      List.zipWith (fun node a => .inSlot config node (a.layer tree) (a.slot tree))
        (ofTree rule tree actions executions).nodes (sites tree actions.length) := by
  have num := numbering rule tree actions executions
  apply List.ext_getElem
  · simp [layout, length_nodes_ofTree]
  · intro i h h'
    have hi : i < (ofTree rule tree actions executions).nodes.length := by
      simpa [layout] using h
    have hsite := num.getElem_sites ⟨i, hi⟩ (by rwa [← length_nodes_ofTree])
    rw [List.getElem_zipWith, hsite, ← num.layer_run_start htree, ← num.slot_run_start htree]
    simp only [layout, List.getElem_map, List.getElem_finRange]
    rfl

/-- The placed nodes, kind by kind. -/
theorem zipWith_nodes_sites (f : Node → Site → α) :
    List.zipWith f (ofTree rule tree actions executions).nodes (sites tree actions.length) =
      f (triggerNode rule executions) .trigger ::
        ((tree.elim [] fun t => t.positions.map fun x =>
          f (conditionNode (Site.condition x.1).id x.2) (.condition x.1)) ++
        actions.mapIdx fun i a => f (actionNode executions i a) (.action i)) := by
  have hconditions : List.zipWith f (tree.elim [] (conditionNodes rootId))
      (tree.elim [] fun t => t.paths.map .condition) =
        tree.elim [] fun t => t.positions.map fun x =>
          f (conditionNode (Site.condition x.1).id x.2) (.condition x.1) := by
    cases tree with
    | none => rfl
    | some t =>
      simp only [Option.elim_some, conditionNodes_rootId, Logic.paths, List.map_map,
        List.zipWith_map, List.zipWith_self, Function.comp_def]
  have hactions : List.zipWith f (actions.mapIdx (actionNode executions))
      ((List.range actions.length).map .action) =
        actions.mapIdx fun i a => f (actionNode executions i a) (.action i) := by
    apply List.ext_getElem <;> simp
  have hlength : (tree.elim [] (conditionNodes rootId)).length =
      (tree.elim [] fun t => t.paths.map Site.condition).length := by
    cases tree with
    | none => rfl
    | some t => simp [conditionNodes_rootId, Logic.paths]
  rw [ofTree, sites, List.cons_append, List.zipWith_cons_cons, List.zipWith_append hlength,
    hconditions, hactions]

/-- A placed node carries the id of a site and lies on the layer of this site. -/
theorem exists_site_of_mem_layout (htree : ∀ t ∈ tree, t.NoEmptyGroup) {m : PlacedNode κ}
    (hm : m ∈ ((ofTree rule tree actions executions).layout config).nodes) :
    ∃ a : Site, m.node.id = a.id ∧ m.layer = a.layer tree := by
  rw [nodes_layout_ofTree rule actions executions config htree, List.mem_iff_getElem] at hm
  obtain ⟨i, hi, rfl⟩ := hm
  rw [List.length_zipWith, length_nodes_ofTree, Nat.min_self] at hi
  refine ⟨(sites tree actions.length)[i], ?_, by rw [List.getElem_zipWith]; rfl⟩
  have hid := List.getElem_of_eq (map_id_nodes_ofTree rule tree actions executions) (i := i)
    (by rwa [List.length_map, length_nodes_ofTree])
  rw [List.getElem_map, List.getElem_map] at hid
  rwa [List.getElem_zipWith]

/-- Every edge leads from a node to a node on a greater layer. -/
theorem layer_lt_of_mem_edges (htree : ∀ t ∈ tree, t.NoEmptyGroup) {e : Edge}
    (he : e ∈ (ofTree rule tree actions executions).edges) :
    e.Resolved (ofTree rule tree actions executions).nodes ∧
      ∀ m ∈ ((ofTree rule tree actions executions).layout config).nodes,
      ∀ n ∈ ((ofTree rule tree actions executions).layout config).nodes,
        m.node.id = e.source → n.node.id = e.target → m.layer < n.layer := by
  obtain ⟨a, b, hlink, hsource, htarget⟩ := exists_link_of_mem_edges_ofTree he
  obtain ⟨ha, hb⟩ := mem_sites_of_mem_links hlink
  constructor
  · rw [Edge.Resolved, map_id_nodes_ofTree, ← hsource, ← htarget]
    exact ⟨List.mem_map_of_mem ha, List.mem_map_of_mem hb⟩
  · intro m hm n hn hms hnt
    obtain ⟨a', hid, hlayer⟩ := exists_site_of_mem_layout rule actions executions config htree hm
    obtain ⟨b', hid', hlayer'⟩ := exists_site_of_mem_layout rule actions executions config htree hn
    rw [hms, ← hsource] at hid
    rw [hnt, ← htarget] at hid'
    rw [hlayer, hlayer', ← Site.id_injective hid, ← Site.id_injective hid']
    exact layer_lt_of_mem_links hlink

end FlowGraph

/-- The layout of a compiled graph in closed form.  The trigger stands alone on the uppermost layer,
the condition at a path on the layer after the length of the path, in the slot of its rank, and the
actions on a layer below all conditions, in their order. -/
theorem Bundle.layout_compile (b : Bundle) (config : LayoutConfig κ) :
    (b.compile.layout config).nodes =
      .inSlot config (FlowGraph.triggerNode b.rule b.executions) 0 0 ::
        ((b.rule.tree?.elim [] fun t => t.positions.map fun (p, s) =>
          .inSlot config (FlowGraph.conditionNode (Site.condition p).id s) (p.length + 1)
            (t.rank p)) ++
        b.actions.mapIdx fun i a =>
          .inSlot config (FlowGraph.actionNode b.executions i a)
            (b.rule.tree?.elim 1 (·.depth + 1)) i) ∧
    (b.compile.layout config).edges = b.compile.edges ∧
    (∀ e ∈ b.compile.edges, e.Resolved b.compile.nodes ∧
      ∀ m ∈ (b.compile.layout config).nodes, ∀ n ∈ (b.compile.layout config).nodes,
        m.node.id = e.source → n.node.id = e.target → m.layer < n.layer) ∧
    ∀ t ∈ b.rule.tree?, ∀ p ∈ t.paths, ∀ q ∈ t.paths, p.length = q.length →
      (t.rank p < t.rank q ↔ p < q) := by
  have htree := b.rule.noEmptyGroup_tree?
  refine ⟨?_, rfl, fun e he => ?_, fun t _ p hp q hq hlen => Logic.rank_lt_rank_iff hp hq hlen⟩
  · rw [compile, FlowGraph.nodes_layout_ofTree _ _ _ _ htree, FlowGraph.zipWith_nodes_sites]
    congr 2
    cases b.rule.tree? <;> rfl
  · exact FlowGraph.layer_lt_of_mem_edges _ _ _ _ htree he

end Layout

end RuleFlow
