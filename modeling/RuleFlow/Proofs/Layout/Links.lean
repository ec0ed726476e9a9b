import RuleFlow.Layout.Layering
import Mathlib.Data.List.Dedup

/-!
# Links between nodes

An id names the first node that carries it (`Names`), an edge is resolved if its ends name nodes
(`Edge.Resolved`), and the links of a graph are the pairs of nodes that resolved edges join
(`mem_linksOf`).  The list of links keeps parallel edges apart, so the lists of successors and
predecessors count them (`count_predecessors`).
-/

namespace RuleFlow

/-! ## Links and edges -/

/-- An id names the first node that carries it. -/
def Names (nodes : List Node) (id : String) (v : Fin nodes.length) : Prop :=
  (nodes.get v).id = id ∧ ∀ w < v, (nodes.get w).id ≠ id

/-- Both ends of an edge occur among the nodes. -/
def Edge.Resolved (nodes : List Node) (e : Edge) : Prop :=
  e.source ∈ nodes.map Node.id ∧ e.target ∈ nodes.map Node.id

instance (nodes : List Node) : DecidablePred (Edge.Resolved nodes) := fun _ => instDecidableAnd

/-- Some edge leads from one node to another. -/
def Linked (nodes : List Node) (edges : List Edge) (u v : Fin nodes.length) : Prop :=
  ∃ e ∈ edges, Names nodes e.source u ∧ Names nodes e.target v

/-- An id is resolved to the first node that carries it. -/
theorem indexOf?_eq_some {nodes : List Node} {id : String} {v : Fin nodes.length} :
    indexOf? nodes id = some v ↔ Names nodes id v := by
  rw [indexOf?, List.findFinIdx?_eq_some_iff, Names]
  simp only [beq_iff_eq, Fin.getElem_fin, List.get_eq_getElem, ne_eq]

theorem isSome_indexOf? {nodes : List Node} {id : String} :
    (indexOf? nodes id).isSome ↔ id ∈ nodes.map Node.id := by
  rw [indexOf?, List.isSome_findFinIdx?, List.any_eq_true, List.mem_map]
  simp only [beq_iff_eq]

/-- An edge is resolved to the nodes that its ends name. -/
theorem resolve?_eq_some {nodes : List Node} {e : Edge} {u v : Fin nodes.length} :
    resolve? nodes e = some (u, v) ↔ Names nodes e.source u ∧ Names nodes e.target v := by
  rw [← indexOf?_eq_some, ← indexOf?_eq_some, resolve?]
  cases indexOf? nodes e.source <;> cases indexOf? nodes e.target <;> simp

/-- An edge is resolved if both its ends are nodes of the graph. -/
theorem isSome_resolve? {nodes : List Node} {e : Edge} :
    (resolve? nodes e).isSome ↔ e.Resolved nodes := by
  rw [Edge.Resolved, ← isSome_indexOf?, ← isSome_indexOf?, resolve?]
  cases indexOf? nodes e.source <;> cases indexOf? nodes e.target <;> simp

/-- The links are the pairs of nodes that edges join. -/
theorem mem_linksOf {nodes : List Node} {edges : List Edge} {u v : Fin nodes.length} :
    (u, v) ∈ linksOf nodes edges ↔ Linked nodes edges u v := by
  rw [linksOf, List.mem_filterMap]
  simp only [resolve?_eq_some, Linked]

/-- Edges that are not resolved make no links. -/
theorem linksOf_filter_resolved (nodes : List Node) (edges : List Edge) :
    linksOf nodes (edges.filter fun e => decide (e.Resolved nodes)) = linksOf nodes edges := by
  rw [linksOf, linksOf, List.filterMap_filter]
  congr 1
  funext e
  by_cases h : e.Resolved nodes
  · simp [h]
  · have hnone : resolve? nodes e = none := by
      rw [← isSome_resolve?] at h
      simpa using h
    simp [h, hnone]

namespace Links

variable {n : Nat} {links : Links n}

/-! ## Successors and predecessors -/

@[simp] theorem mem_successors {u v : Fin n} : v ∈ links.successors u ↔ (u, v) ∈ links := by
  simp [successors]

@[simp] theorem mem_predecessors {u v : Fin n} : u ∈ links.predecessors v ↔ (u, v) ∈ links := by
  simp [predecessors]

/-- Each end of a bundle of parallel links counts all of them. -/
theorem count_predecessors (u v : Fin n) :
    (links.predecessors v).count u = (links.successors u).count v := by
  induction links with
  | nil => rfl
  | cons l links ih =>
    obtain ⟨a, b⟩ := l
    simp only [predecessors, successors, List.filter_cons] at ih ⊢
    by_cases ha : a = u <;> by_cases hb : b = v <;> simp [ha, hb, ih]

end Links

end RuleFlow
