import RuleFlow.Proofs.Layout.Sweep
import RuleFlow.Note
import Mathlib.Data.Fintype.EquivFin
import Mathlib.Order.Bounds.Defs
import Mathlib.Logic.Relation
import Mathlib.Order.WellFounded

/-!
# Layers of arbitrary graphs

The layer of a node is fixed by the order in which the sweep finishes the nodes: it is one more than
the greatest layer among the predecessors that come earlier, and zero without any.  This holds of
every graph.  Without a cycle no node is released, so all predecessors come earlier, and the layer
is the length of the longest path to the node.  With a cycle some node is released, since the first
node of a cycle to be finished still waits for its predecessor there.
-/

namespace RuleFlow

open Relation

/-! ## Paths and cycles -/

/-- `Path R u v k` says that `k` steps of `R` lead from `u` to `v`.  Where `R` has no cycle, no node
occurs on a path twice. -/
inductive Path {α : Type} (R : α → α → Prop) : α → α → Nat → Prop
  | refl (u : α) : Path R u u 0
  | tail {u v w : α} {k : Nat} : Path R u v k → R v w → Path R u w (k + 1)

/-- No node leads back to itself. -/
def Acyclic {α : Type} (R : α → α → Prop) : Prop := ∀ v, ¬ TransGen R v v

/-- A property that fails somewhere in a finite graph without cycles fails at a node all of whose
predecessors have it. -/
theorem Acyclic.exists_first {α : Type} [Finite α] {R : α → α → Prop} (hR : Acyclic R)
    {P : α → Prop} {v : α} (hv : ¬ P v) : ∃ w, ¬ P w ∧ ∀ u, R u w → P u := by
  have : IsTrans α (TransGen R) := ⟨fun _ _ _ => TransGen.trans⟩
  have : Std.Irrefl (TransGen R) := ⟨hR⟩
  have hwf : WellFounded (TransGen R) := Finite.wellFounded_of_trans_of_irrefl _
  obtain ⟨w, hw, hmin⟩ := hwf.has_min {w | ¬ P w} ⟨v, hv⟩
  exact ⟨w, hw, fun u hu => Classical.not_not.mp fun hP => hmin u hP (.single hu)⟩

namespace Links

variable {n : Nat}

/-- There is a link from one node to another. -/
def Joins (links : Links n) (u v : Fin n) : Prop := (u, v) ∈ links

end Links

namespace Sweep

variable {n : Nat} {links : Links n} {s : Sweep n}

namespace Consistent

/-- The layer of a node in terms of the order. -/
theorem layer_isGreatest (h : Consistent links s) (v : Fin n) :
    IsGreatest {k | k = 0 ∨ ∃ u, links.Joins u v ∧ Precedes s.order u v ∧ k = s.layer.get u + 1}
      (s.layer.get v) := by
  constructor
  · by_cases hzero : s.layer.get v = 0
    · exact .inl hzero
    · exact .inr (h.attained v hzero)
  · rintro k (rfl | ⟨u, hlink, hu, rfl⟩)
    · exact Nat.zero_le _
    · exact h.below u v hlink hu

/-! ## Without a cycle -/

/-- While there are unfinished nodes, one of them has no unfinished predecessor and is in the
queue. -/
theorem queue_ne_nil (h : Consistent links s) (hacyc : Acyclic links.Joins) {v : Fin n}
    (hv : v ∉ s.order) : s.queue ≠ [] := by
  obtain ⟨w, hw, hall⟩ := hacyc.exists_first (P := (· ∈ s.order)) hv
  have hzero : s.waiting.get w = 0 := by
    rw [h.waiting w hw, List.countP_eq_zero]
    intro u hu
    simpa using hall u (Links.mem_predecessors.mp hu)
  exact List.ne_nil_of_mem ((h.mem_queue w).mpr ⟨hw, hzero⟩)

/-- A step releases no node of a graph without cycles. -/
theorem released_step (h : Consistent links s) (hacyc : Acyclic links.Joins) :
    (s.step links).released = s.released := by
  obtain ⟨u, rest, -, hstep, -⟩ | ⟨v, hq, hv, -⟩ | ⟨-, hstep⟩ := h.step_cases
  · rw [hstep, released_finish]
  · exact absurd hq (h.queue_ne_nil hacyc hv.1)
  · rw [hstep]

theorem released_run (h : Consistent links s) (hacyc : Acyclic links.Joins) (k : Nat) :
    (Sweep.run links k s).released = s.released := by
  induction k generalizing s with
  | zero => rfl
  | succ k ih => rw [Sweep.run, ih h.step, h.released_step hacyc]

/-- A path through finished nodes is no longer than the layer at its end. -/
theorem length_le_layer (h : Consistent links s)
    (htopo : ∀ u v, links.Joins u v → Precedes s.order u v) {u v : Fin n} {k : Nat}
    (hpath : Path links.Joins u v k) : k ≤ s.layer.get v := by
  induction hpath with
  | refl => exact Nat.zero_le _
  | tail _ hlink ih => exact Nat.lt_of_le_of_lt ih (h.below _ _ hlink (htopo _ _ hlink))

/-- Some path is as long as the layer at its end. -/
theorem exists_path (h : Consistent links s) (v : Fin n) :
    ∃ u, Path links.Joins u v (s.layer.get v) := by
  induction hk : s.layer.get v generalizing v with
  | zero => exact ⟨v, .refl v⟩
  | succ k ih =>
    obtain ⟨w, hlink, -, heq⟩ := h.attained v (by omega)
    obtain ⟨u, hpath⟩ := ih w (by omega)
    exact ⟨u, hpath.tail hlink⟩

end Consistent

variable (links)

/-- Only a cycle makes the sweep release a node. -/
theorem released_run_start (hacyc : Acyclic links.Joins) :
    (run links n (start links)).released = [] :=
  (consistent_start links).released_run hacyc n

variable {links}

/-- If no node was released, the order is topological. -/
theorem precedes_of_released_eq_nil (hnil : (run links n (start links)).released = [])
    (u v : Fin n) (hlink : links.Joins u v) :
    Precedes (run links n (start links)).order u v := by
  have hv := mem_order_run_start links v
  exact (consistent_run_start links).settled v hv (by simp [hnil]) u hlink

/-- A function that grows along every link leaves no room for cycles. -/
theorem acyclic_of_lt {f : Fin n → Nat} (hlt : ∀ u v, links.Joins u v → f u < f v) :
    Acyclic links.Joins := by
  intro v hcycle
  have hall : ∀ w, TransGen links.Joins v w → f v < f w := by
    intro w hw
    induction hw with
    | single hlink => exact hlt _ _ hlink
    | tail _ hlink ih => exact Nat.lt_trans ih (hlt _ _ hlink)
  exact Nat.lt_irrefl _ (hall v hcycle)

/-- If no node was released, there is no cycle, as places in the order grow along every link. -/
theorem acyclic_of_released_eq_nil (hnil : (run links n (start links)).released = []) :
    Acyclic links.Joins :=
  acyclic_of_lt (precedes_of_released_eq_nil hnil)

/-- Only a cycle makes the sweep release a node, and every cycle does. -/
theorem released_eq_nil_iff :
    (run links n (start links)).released = [] ↔ Acyclic links.Joins :=
  ⟨acyclic_of_released_eq_nil, released_run_start links⟩

/-- Without a cycle the layer of a node is the length of the longest path to it. -/
theorem layer_isGreatest_path (hacyc : Acyclic links.Joins) (v : Fin n) :
    IsGreatest {k | ∃ u, Path links.Joins u v k} ((run links n (start links)).layer.get v) := by
  have h := consistent_run_start links
  refine ⟨h.exists_path v, ?_⟩
  rintro k ⟨u, hpath⟩
  exact h.length_le_layer (precedes_of_released_eq_nil (released_run_start links hacyc)) hpath

/-- A function is the layering if it grows along every link and, wherever it is not zero, by one
along some link. -/
theorem layer_eq_of_lt {f : Fin n → Nat} (hlt : ∀ u v, links.Joins u v → f u < f v)
    (hone : ∀ v, f v ≠ 0 → ∃ u, links.Joins u v ∧ f v = f u + 1) (v : Fin n) :
    (run links n (start links)).layer.get v = f v := by
  have h := consistent_run_start links
  have htopo := precedes_of_released_eq_nil (released_run_start links (acyclic_of_lt hlt))
  induction hk : f v using Nat.strong_induction_on generalizing v with
  | h k ih =>
    apply Nat.le_antisymm
    · rcases (h.layer_isGreatest v).1 with hzero | ⟨u, hlink, -, heq⟩
      · exact hzero ▸ Nat.zero_le k
      · have huv := hlt u v hlink
        rw [heq, ih (f u) (by omega) u rfl]
        omega
    · by_cases hzero : k = 0
      · exact hzero ▸ Nat.zero_le _
      · obtain ⟨u, hlink, heq⟩ := hone v (by omega)
        have hbelow := h.below u v hlink (htopo u v hlink)
        rw [ih (f u) (by omega) u rfl] at hbelow
        omega

end Sweep

/-! ## Graphs -/

theorem joins_linksOf (nodes : List Node) (edges : List Edge) :
    (linksOf nodes edges).Joins = Linked nodes edges := by
  funext u v
  exact propext mem_linksOf

/-- A cycle is remarked on if a node was released. -/
theorem exists_cycle_note_iff (nodes : List Node) (edges : List Edge) :
    (∃ id k, Note.cycle id k ∈ (FlowGraph.mk nodes edges).layoutNotes) ↔
      (assignLayers nodes edges).released ≠ [] := by
  constructor
  · rintro ⟨id, k, hmem⟩ hnil
    simp [FlowGraph.layoutNotes, hnil] at hmem
  · intro hne
    obtain ⟨⟨v, k⟩, hr⟩ := List.exists_mem_of_ne_nil _ hne
    refine ⟨(nodes.get v).id, k, ?_⟩
    simp only [FlowGraph.layoutNotes, List.mem_append, List.mem_map]
    exact .inl (.inr ⟨(v, k), hr, rfl⟩)

/-- The layers of every list of nodes and every list of edges.  The order lists each node once, a
layer is one more than the greatest layer of a predecessor that comes earlier, and edges that are
not resolved change nothing.  A cycle is remarked on exactly if there is one; without it the order
is topological and a layer is the length of the longest path to the node. -/
theorem assignLayers_exact (nodes : List Node) (edges : List Edge) :
    (assignLayers nodes edges).order.Perm (List.finRange nodes.length) ∧
    (∀ v, IsGreatest {k | k = 0 ∨ ∃ u, Linked nodes edges u v ∧
        Precedes (assignLayers nodes edges).order u v ∧
        k = (assignLayers nodes edges).layer.get u + 1}
      ((assignLayers nodes edges).layer.get v)) ∧
    assignLayers nodes (edges.filter fun e => decide (e.Resolved nodes)) =
      assignLayers nodes edges ∧
    (Acyclic (Linked nodes edges) →
      (∀ id k, Note.cycle id k ∉ (FlowGraph.mk nodes edges).layoutNotes) ∧
      (∀ u v, Linked nodes edges u v → Precedes (assignLayers nodes edges).order u v) ∧
      ∀ v, IsGreatest {k | ∃ u, Path (Linked nodes edges) u v k}
        ((assignLayers nodes edges).layer.get v)) ∧
    ((∃ v, TransGen (Linked nodes edges) v v) →
      ∃ id k, Note.cycle id k ∈ (FlowGraph.mk nodes edges).layoutNotes) := by
  rw [← joins_linksOf]
  refine ⟨Sweep.perm_order_run_start _, (Sweep.consistent_run_start _).layer_isGreatest,
    ?_, fun hacyc => ⟨?_, ?_, Sweep.layer_isGreatest_path hacyc⟩, ?_⟩
  · rw [assignLayers, linksOf_filter_resolved]
    rfl
  · intro id k hmem
    exact (exists_cycle_note_iff nodes edges).mp ⟨id, k, hmem⟩ (Sweep.released_run_start _ hacyc)
  · exact Sweep.precedes_of_released_eq_nil (Sweep.released_run_start _ hacyc)
  · rintro ⟨v, hcycle⟩
    rw [exists_cycle_note_iff]
    exact fun hnil => Sweep.acyclic_of_released_eq_nil hnil v hcycle

end RuleFlow
