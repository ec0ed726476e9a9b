import RuleFlow.Proofs.Graph.Site
import Mathlib.Data.List.Flatten
import Mathlib.Data.List.Perm.Basic

/-!
# The nodes and edges of a compiled graph, position by position

A compiled graph is drawn node by node and edge by edge from the tree: a condition node for every
position, and from every position the edges that leave it, to the children of a group or from a leaf
to the actions (`edgesFrom`).  The ends of an edge tell for which outcome it stands, if for any
(`branch_eq_some_iff`).

The edge list of a graph is not ordered by source, because the edges below a child follow the edge
to the child.  So two facts are shown of it, both by induction on the tree: grouped by source it is
the same up to order (`conditionEdges_perm`), and the edges that leave one position stand in it in
their order (`edgesFrom_sublist`).  Together they say which edges leave a node (`outgoing_ofTree`).
-/

namespace RuleFlow

/-- The place of the child for which an outcome stands. -/
def Branch.index : Branch → Nat
  | .passed => 0
  | .failed => 1

namespace FlowGraph

/-- The outcomes for which the children of a group of so many stand, in order. -/
def outcomes (count : Nat) : List (Option Branch) :=
  if count = 2 then [some .passed, some .failed] else List.replicate count none

/-- The edges from the condition at `p` to the children from an index on, one for each outcome. -/
def edgesDown (p : List Nat) (index : Nat) (branches : List (Option Branch)) : List Edge :=
  branches.mapIdx fun i branch =>
    Edge.between (Site.condition p).id (Site.condition (p ++ [index + i])).id branch

/-- One edge from a site to each of so many actions. -/
def edgesOut (actionCount : Nat) (a : Site) : List Edge :=
  (List.range actionCount).map fun i => Edge.between a.id (Site.action i).id none

/-- The edges that leave the condition at `p` for a tree there: from a group to its children, and
from a leaf to the actions. -/
def edgesFrom (actionCount : Nat) (p : List Nat) : Logic → List Edge
  | .leaf _ => edgesOut actionCount (.condition p)
  | .group _ children => edgesDown p 0 (outcomes children.length)

theorem edgesDown_cons (p : List Nat) (index : Nat) (branch : Option Branch)
    (branches : List (Option Branch)) : edgesDown p index (branch :: branches) =
      Edge.between (Site.condition p).id (Site.condition (p ++ [index])).id branch ::
        edgesDown p (index + 1) branches := by
  simp only [edgesDown, List.mapIdx_cons, Nat.add_zero, Nat.add_assoc, Nat.add_comm 1]

theorem map_branchAt_range (count : Nat) :
    (List.range count).map (branchAt count) = outcomes count := by
  by_cases h : count = 2
  · subst h
    rfl
  · rw [outcomes, if_neg h, List.eq_replicate_iff]
    refine ⟨by simp, fun branch hbranch => ?_⟩
    obtain ⟨i, -, rfl⟩ := List.mem_map.mp hbranch
    exact if_neg h

/-- A function of the numbers from an index on, its first value first. -/
theorem map_range_succ {α : Type} (f : Nat → α) (index count : Nat) :
    (List.range (count + 1)).map (fun i => f (index + i)) =
      f index :: (List.range count).map fun i => f (index + 1 + i) := by
  simp [List.range_succ_eq_map, Function.comp_def, Nat.add_comm, Nat.add_left_comm]

theorem fanOut_actionIds (actionCount : Nat) (a : Site) :
    fanOut a.id (actionIds actionCount) = edgesOut actionCount a := by
  rw [fanOut, actionIds, edgesOut, List.map_map]
  rfl

@[simp] theorem length_outcomes (count : Nat) : (outcomes count).length = count := by
  rw [← map_branchAt_range, List.length_map, List.length_range]

/-- The edges that leave a group, child by child. -/
theorem edgesFrom_group (actionCount : Nat) (p : List Nat) (kind : Combinator)
    (children : List Logic) : edgesFrom actionCount p (.group kind children) =
      (List.range children.length).map fun i =>
        Edge.between (Site.condition p).id (Site.condition (p ++ [i])).id
          (branchAt children.length i) := by
  rw [edgesFrom, edgesDown, ← map_branchAt_range]
  apply List.ext_getElem <;> simp

theorem source_of_mem_edgesDown {p : List Nat} {index : Nat} {branches : List (Option Branch)}
    {e : Edge} (h : e ∈ edgesDown p index branches) : e.source = (Site.condition p).id := by
  obtain ⟨i, hi, rfl⟩ := List.mem_mapIdx.mp h
  rfl

theorem source_of_mem_edgesOut {actionCount : Nat} {a : Site} {e : Edge}
    (h : e ∈ edgesOut actionCount a) : e.source = a.id := by
  obtain ⟨i, -, rfl⟩ := List.mem_map.mp h
  rfl

theorem source_of_mem_edgesFrom {actionCount : Nat} {p : List Nat} {t : Logic} {e : Edge}
    (h : e ∈ edgesFrom actionCount p t) : e.source = (Site.condition p).id := by
  cases t with
  | leaf c => exact source_of_mem_edgesOut h
  | group kind children => exact source_of_mem_edgesDown h

/-! ## Grouped by source -/

/-- The edges that leave the positions of a tree at `base`, one position after the other. -/
def edgesBelow (actionCount : Nat) (base : List Nat) (positions : List (List Nat × Logic)) :
    List Edge :=
  positions.flatMap fun x => edgesFrom actionCount (base ++ x.1) x.2

theorem edgesBelow_positionsFrom_cons (actionCount : Nat) (base : List Nat) (index : Nat)
    (t : Logic) (ts : List Logic) :
    edgesBelow actionCount base (Logic.positionsFrom index (t :: ts)) =
      edgesBelow actionCount (base ++ [index]) t.positions ++
        edgesBelow actionCount base (Logic.positionsFrom (index + 1) ts) := by
  simp [edgesBelow, Logic.positionsFrom, List.flatMap_append, List.flatMap_map]

mutual

/-- The edges into and below a condition are, up to order, the edge into it and the edges that leave
the positions of its tree. -/
theorem conditionEdges_perm : ∀ (actionCount : Nat) (parent : String) (branch : Option Branch)
    (base : List Nat) (t : Logic),
    (conditionEdges (actionIds actionCount) parent branch (Site.condition base).id t).Perm
      (Edge.between parent (Site.condition base).id branch ::
        edgesBelow actionCount base t.positions)
  | actionCount, parent, branch, base, .leaf c => by
    rw [conditionEdges, fanOut_actionIds]
    simp [edgesBelow, Logic.positions, edgesFrom]
  | actionCount, parent, branch, base, .group kind children => by
    have h := childEdges_perm actionCount base children.length 0 children
    have hoffset : (List.range children.length).map (fun i => branchAt children.length (0 + i)) =
        outcomes children.length := by simp only [Nat.zero_add, map_branchAt_range]
    rw [hoffset] at h
    simpa [conditionEdges, edgesBelow, Logic.positions, edgesFrom] using h

theorem childEdges_perm : ∀ (actionCount : Nat) (base : List Nat) (count index : Nat)
    (ts : List Logic),
    (childEdges (actionIds actionCount) (Site.condition base).id count index ts).Perm
      (edgesDown base index ((List.range ts.length).map fun i => branchAt count (index + i)) ++
        edgesBelow actionCount base (Logic.positionsFrom index ts))
  | _, _, _, _, [] => List.Perm.nil
  | actionCount, base, count, index, t :: ts => by
    have ht := conditionEdges_perm actionCount (Site.condition base).id (branchAt count index)
      (base ++ [index]) t
    have hts := childEdges_perm actionCount base count (index + 1) ts
    rw [childEdges, ← Site.id_condition_concat, edgesBelow_positionsFrom_cons, List.length_cons,
      map_range_succ, edgesDown_cons, List.cons_append]
    refine (ht.append hts).trans (List.Perm.cons _ ?_)
    exact List.perm_append_comm_assoc ..

end

/-! ## In order -/

mutual

/-- The edges that leave a position stand in their order among the edges of the tree. -/
theorem edgesFrom_sublist : ∀ (actionCount : Nat) (parent : String) (branch : Option Branch)
    (base : List Nat) {t s : Logic} {p : List Nat}, t.subtree? p = some s →
    (edgesFrom actionCount (base ++ p) s).Sublist
      (conditionEdges (actionIds actionCount) parent branch (Site.condition base).id t)
  | actionCount, parent, branch, base, .leaf c, s, [], h => by
    cases h
    rw [conditionEdges, fanOut_actionIds, List.append_nil]
    exact List.sublist_cons_self ..
  | actionCount, parent, branch, base, .group kind children, s, [], h => by
    cases h
    have hdown := edgesDown_sublist actionCount base children.length 0 children
    simp only [Nat.zero_add, map_branchAt_range] at hdown
    rw [conditionEdges, List.append_nil]
    exact hdown.cons _
  | actionCount, parent, branch, base, .group kind children, s, i :: p, h => by
    rw [Logic.subtree?_group_cons] at h
    obtain ⟨t, ht, hs⟩ := Option.bind_eq_some_iff.mp h
    have hchild := edgesFrom_sublist_childEdges actionCount base children.length 0 ht hs
    rw [Nat.zero_add] at hchild
    rw [conditionEdges]
    exact hchild.cons _

theorem edgesFrom_sublist_childEdges : ∀ (actionCount : Nat) (base : List Nat) (count index : Nat)
    {ts : List Logic} {i : Nat} {t s : Logic} {p : List Nat}, ts[i]? = some t →
    t.subtree? p = some s →
    (edgesFrom actionCount (base ++ (index + i) :: p) s).Sublist
      (childEdges (actionIds actionCount) (Site.condition base).id count index ts)
  | actionCount, base, count, index, u :: us, 0, t, s, p, ht, hs => by
    cases ht
    have h := edgesFrom_sublist actionCount (Site.condition base).id (branchAt count index)
      (base ++ [index]) hs
    rw [List.append_assoc, List.singleton_append] at h
    rw [childEdges, ← Site.id_condition_concat]
    exact h.trans (List.sublist_append_left ..)
  | actionCount, base, count, index, u :: us, i + 1, t, s, p, ht, hs => by
    have hget : us[i]? = some t := ht
    have h := edgesFrom_sublist_childEdges actionCount base count (index + 1) hget hs
    rw [Nat.add_assoc, Nat.add_comm 1] at h
    rw [childEdges]
    exact h.trans (List.sublist_append_right ..)

theorem edgesDown_sublist : ∀ (actionCount : Nat) (base : List Nat) (count index : Nat)
    (ts : List Logic),
    (edgesDown base index ((List.range ts.length).map fun i => branchAt count (index + i))).Sublist
      (childEdges (actionIds actionCount) (Site.condition base).id count index ts)
  | _, _, _, _, [] => List.Sublist.slnil
  | actionCount, base, count, index, t :: ts => by
    have hts := edgesDown_sublist actionCount base count (index + 1) ts
    have ht : [Edge.between (Site.condition base).id (Site.condition (base ++ [index])).id
        (branchAt count index)].Sublist
          (conditionEdges (actionIds actionCount) (Site.condition base).id (branchAt count index)
            (Site.condition (base ++ [index])).id t) := by
      cases t <;> exact (List.nil_sublist _).cons_cons _
    rw [List.length_cons, map_range_succ, edgesDown_cons, childEdges, ← Site.id_condition_concat]
    exact ht.append hts

end

/-! ## Whole graphs -/

/-- The edges that leave one position, picked out of those that leave a list of positions. -/
theorem filter_flatMap_edgesFrom (actionCount : Nat) {p : List Nat} {s : Logic}
    {positions : List (List Nat × Logic)} (hnodup : (positions.map Prod.fst).Nodup)
    (hp : (p, s) ∈ positions) :
    (positions.flatMap fun x => edgesFrom actionCount x.1 x.2).filter
      (·.source == (Site.condition p).id) = edgesFrom actionCount p s := by
  have hkeep (x : List Nat × Logic) (hx : x.1 = p) : (edgesFrom actionCount x.1 x.2).filter
      (·.source == (Site.condition p).id) = edgesFrom actionCount x.1 x.2 :=
    List.filter_eq_self.mpr fun e he => by rw [source_of_mem_edgesFrom he, hx, beq_self_eq_true]
  have hdrop (x : List Nat × Logic) (hx : x.1 ≠ p) : (edgesFrom actionCount x.1 x.2).filter
      (·.source == (Site.condition p).id) = [] :=
    List.filter_eq_nil_iff.mpr fun e he => by
      rw [source_of_mem_edgesFrom he, beq_iff_eq, Site.id_injective.eq_iff, Site.condition.injEq]
      exact hx
  induction positions with
  | nil => cases hp
  | cons x positions ih =>
    obtain ⟨hnotMem, hnodup⟩ := List.nodup_cons.mp hnodup
    rw [List.flatMap_cons, List.filter_append]
    rcases List.mem_cons.mp hp with rfl | hp
    · have hrest : (positions.flatMap fun x => edgesFrom actionCount x.1 x.2).filter
          (·.source == (Site.condition p).id) = [] := by
        rw [List.filter_flatMap, List.flatMap_eq_nil_iff]
        exact fun x hx => hdrop x fun he => hnotMem (List.mem_map.mpr ⟨x, hx, he⟩)
      rw [hkeep _ rfl, hrest, List.append_nil]
    · rw [hdrop x fun he => hnotMem (List.mem_map.mpr ⟨(p, s), hp, he.symm⟩), ih hnodup hp]
      rfl

section

variable (rule : Rule) (t : Logic) (actions : List Action) (executions : List Execution)

/-- The edges of the graph of a tree, up to order: the one to the root, and those that leave each
position. -/
theorem edges_ofTree_perm : (ofTree rule (some t) actions executions).edges.Perm
    (Edge.between triggerId rootId none ::
      t.positions.flatMap fun x => edgesFrom actions.length x.1 x.2) :=
  conditionEdges_perm actions.length triggerId none [] t

/-- An edge in the graph of a tree leads to the root, or it leaves a position. -/
theorem mem_edges_ofTree {e : Edge} : e ∈ (ofTree rule (some t) actions executions).edges ↔
    e = Edge.between triggerId rootId none ∨
      ∃ p s, t.subtree? p = some s ∧ e ∈ edgesFrom actions.length p s := by
  rw [(edges_ofTree_perm rule t actions executions).mem_iff, List.mem_cons, List.mem_flatMap]
  simp only [Prod.exists, Logic.mem_positions]

/-- What leaves a condition in the graph of a tree. -/
theorem outgoing_ofTree {p : List Nat} {s : Logic} (hp : t.subtree? p = some s) :
    (ofTree rule (some t) actions executions).outgoing (Site.condition p).id =
      edgesFrom actions.length p s := by
  have hperm := (edges_ofTree_perm rule t actions executions).filter
    (·.source == (Site.condition p).id)
  have htrigger : triggerId ≠ (Site.condition p).id :=
    Site.id_injective.ne (show Site.trigger ≠ .condition p from Site.noConfusion)
  rw [List.filter_cons_of_neg (by simpa [Edge.between] using htrigger),
    filter_flatMap_edgesFrom _ (Logic.paths_nodup t) (Logic.mem_positions.mpr hp)] at hperm
  -- the same edges in another order, and a sublist of them: so these edges in this order
  have hsub := (edgesFrom_sublist actions.length triggerId none [] hp).filter
    (·.source == (Site.condition p).id)
  rw [List.nil_append, List.filter_eq_self.mpr fun e he => by
    rw [source_of_mem_edgesFrom he, beq_self_eq_true]] at hsub
  exact (hsub.eq_of_length hperm.length_eq.symm).symm

/-- What leaves the trigger in the graph of a tree. -/
theorem outgoing_trigger_ofTree :
    (ofTree rule (some t) actions executions).outgoing triggerId =
      [Edge.between triggerId rootId none] := by
  have hperm := (edges_ofTree_perm rule t actions executions).filter (·.source == triggerId)
  have hrest : (t.positions.flatMap fun x => edgesFrom actions.length x.1 x.2).filter
      (·.source == triggerId) = [] := by
    rw [List.filter_eq_nil_iff]
    intro e he
    obtain ⟨x, -, he⟩ := List.mem_flatMap.mp he
    rw [source_of_mem_edgesFrom he, beq_iff_eq]
    exact Site.id_injective.ne (show Site.condition x.1 ≠ .trigger from Site.noConfusion)
  rw [List.filter_cons_of_pos (by simp [Edge.between]), hrest] at hperm
  exact List.perm_singleton.mp hperm

end

/-- The condition nodes of the graph of a tree. -/
theorem nodesOfKind_condition_ofTree (rule : Rule) (tree : Option Logic) (actions : List Action)
    (executions : List Execution) :
    (ofTree rule tree actions executions).nodesOfKind .condition =
      tree.elim [] fun t => t.positions.map fun x => conditionNode (Site.condition x.1).id x.2 := by
  have hactions : (actions.mapIdx (actionNode executions)).filter (·.kind == .condition) = [] := by
    rw [List.filter_eq_nil_iff]
    intro n hn
    obtain ⟨i, hi, rfl⟩ := List.mem_mapIdx.mp hn
    exact Bool.false_ne_true
  have hconditions (t : Logic) : (conditionNodes rootId t).filter (·.kind == .condition) =
      conditionNodes rootId t := by
    rw [List.filter_eq_self, conditionNodes_rootId]
    intro n hn
    obtain ⟨x, -, rfl⟩ := List.mem_map.mp hn
    rfl
  have hfilter : (ofTree rule tree actions executions).nodesOfKind .condition =
      (tree.elim [] (conditionNodes rootId)).filter (·.kind == .condition) ++
        (actions.mapIdx (actionNode executions)).filter (·.kind == .condition) :=
    List.filter_append ..
  rw [hfilter, hactions, List.append_nil]
  cases tree with
  | none => rfl
  | some t => rw [Option.elim_some, hconditions, conditionNodes_rootId, Option.elim_some]

/-! ## Outcomes -/

theorem branchAt_eq_some {count i : Nat} {branch : Branch} (hi : i < count) :
    branchAt count i = some branch ↔ count = 2 ∧ i = branch.index := by
  rw [branchAt]
  split
  case isFalse hcount => simp [hcount]
  case isTrue hcount =>
    subst hcount
    obtain rfl | rfl : i = 0 ∨ i = 1 := by omega
    · cases branch <;> simp [Branch.index]
    · cases branch <;> simp [Branch.index]

/-- An edge from a group of exactly two children to the child at a place. -/
def LeadsToChild (tree : Option Logic) (i : Nat) (source target : String) : Prop :=
  ∃ t ∈ tree, ∃ p kind s₀ s₁, t.subtree? p = some (.group kind [s₀, s₁]) ∧
    source = (Site.condition p).id ∧ target = (Site.condition (p ++ [i])).id

/-- In a compiled graph an edge stands for an outcome exactly if it leads from a group of two to the
child at the place of the outcome. -/
theorem branch_eq_some_iff (rule : Rule) (tree : Option Logic) (actions : List Action)
    (executions : List Execution) {e : Edge}
    (he : e ∈ (ofTree rule tree actions executions).edges) (branch : Branch) :
    e.branch = some branch ↔ LeadsToChild tree branch.index e.source e.target := by
  cases tree with
  | none =>
    obtain ⟨id, -, rfl⟩ := List.mem_map.mp he
    simp [LeadsToChild, Edge.between]
  | some t =>
    rcases (mem_edges_ofTree rule t actions executions).mp he with rfl | ⟨p, s, hp, he⟩
    · have htrigger (q : List Nat) : triggerId ≠ (Site.condition q).id :=
        Site.id_injective.ne (show Site.trigger ≠ .condition q from Site.noConfusion)
      simp [LeadsToChild, Edge.between, htrigger]
    · cases s with
      | leaf c =>
        obtain ⟨i, -, rfl⟩ := List.mem_map.mp he
        simp [LeadsToChild, Edge.between, Site.id_injective.eq_iff, hp]
      | group kind children =>
        rw [edgesFrom_group] at he
        obtain ⟨i, hi, rfl⟩ := List.mem_map.mp he
        change branchAt children.length i = some branch ↔
          LeadsToChild (some t) branch.index (Site.condition p).id (Site.condition (p ++ [i])).id
        rw [branchAt_eq_some (List.mem_range.mp hi)]
        constructor
        · rintro ⟨hcount, rfl⟩
          obtain ⟨s₀, s₁, rfl⟩ := List.length_eq_two.mp hcount
          exact ⟨t, rfl, p, kind, s₀, s₁, hp, rfl, rfl⟩
        · rintro ⟨t', ht', q, kind', s₀, s₁, hq, hsource, htarget⟩
          cases ht'
          cases Site.id_injective hsource
          rw [hp] at hq
          cases hq
          have hpath := Site.condition.inj (Site.id_injective htarget)
          exact ⟨rfl, by simpa using hpath⟩

end FlowGraph

open FlowGraph

/-- A compiled graph mirrors the tree without its empty groups.  There is one condition node for
each index path, with the path in its id, the label of the subtree there, and the comparison or the
combinator and the number of children.  Of the edges there are the one to the root and, from every
position, those to the children or from a leaf to the actions; without a tree the trigger leads to
the actions. -/
theorem Bundle.compile_mirrors_tree (b : Bundle) :
    (∀ p, (Site.condition p).id = p.foldl (fun id i => id ++ "-" ++ toString i) "cond-0") ∧
    match b.rule.tree? with
    | none =>
      b.compile.nodesOfKind .condition = [] ∧
      b.compile.edges = (List.range b.actions.length).map fun i =>
        Edge.between "trigger" ("action-" ++ toString i) none
    | some t =>
      b.compile.nodesOfKind .condition = t.positions.map (fun (p, s) =>
        ⟨(Site.condition p).id, .condition s.label
          (match s with
          | .leaf c => .predicate c
          | .group kind children => .group kind children.length)⟩) ∧
      t.paths.Nodup ∧
      (∀ p s, (p, s) ∈ t.positions ↔ t.subtree? p = some s) ∧
      b.compile.edges.Perm (Edge.between "trigger" "cond-0" none ::
        t.positions.flatMap fun (p, s) => edgesFrom b.actions.length p s) ∧
      b.compile.outgoing "trigger" = [Edge.between "trigger" "cond-0" none] ∧
      ∀ p s, t.subtree? p = some s →
        b.compile.outgoing (Site.condition p).id = edgesFrom b.actions.length p s := by
  refine ⟨fun _ => rfl, ?_⟩
  rw [compile]
  cases b.rule.tree? with
  | none => exact ⟨nodesOfKind_condition_ofTree _ _ _ _, fanOut_actionIds _ .trigger⟩
  | some t =>
    refine ⟨?_, Logic.paths_nodup t, fun _ _ => Logic.mem_positions,
      edges_ofTree_perm _ _ _ _, outgoing_trigger_ofTree _ _ _ _,
      fun p s hp => outgoing_ofTree _ _ _ _ hp⟩
    rw [nodesOfKind_condition_ofTree]
    refine List.map_congr_left fun x _ => ?_
    obtain ⟨p, s⟩ := x
    cases s <;> rfl

end RuleFlow
