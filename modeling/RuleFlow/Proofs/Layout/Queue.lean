import RuleFlow.Proofs.Layout.Layers

/-!
# First in, first out

Without a cycle a sweep takes every node from its queue.  Nodes leave the queue in the order in
which they entered it, so the order of the finished nodes is a list of blocks: the nodes without
predecessors, and then for each finished node in turn those that it unlocked (`order_eq_flatMap`).
The order is therefore a solution of an equation about itself, which is all that is needed to find
it for a particular kind of graph.
-/

namespace RuleFlow.Sweep

variable {n : Nat} {links : Links n} {s : Sweep n}

/-- The nodes of a list that stand before a node. -/
def upTo (order : List (Fin n)) (u : Fin n) : List (Fin n) := order.takeWhile (· != u)

@[simp] theorem upTo_cons_self (u : Fin n) (order : List (Fin n)) : upTo (u :: order) u = [] := by
  simp [upTo]

theorem upTo_cons_of_ne {u v : Fin n} (h : v ≠ u) (order : List (Fin n)) :
    upTo (v :: order) u = v :: upTo order u :=
  List.takeWhile_cons_of_pos (bne_iff_ne.mpr h)

/-- What stands before a node precedes it. -/
theorem mem_upTo {order : List (Fin n)} {u v : Fin n} : v ∈ upTo order u ↔ Precedes order v u := by
  induction order with
  | nil => simp [upTo, Precedes]
  | cons w order ih =>
    by_cases hw : w = u
    · simp [Precedes, hw]
    · rw [upTo_cons_of_ne hw, List.mem_cons, ih]
      by_cases hv : w = v
      · simp [Precedes, hv, List.idxOf_cons_ne _ (hv ▸ hw)]
      · have hv' : ¬ v = w := fun he => hv he.symm
        simp [Precedes, hv', List.idxOf_cons_ne _ hw, List.idxOf_cons_ne _ hv]

/-- What comes later does not change what stands before a node. -/
theorem upTo_concat_of_mem {order : List (Fin n)} {u v : Fin n} (hv : v ∈ order) :
    upTo (order ++ [u]) v = upTo order v := by
  induction order with
  | nil => cases hv
  | cons w order ih =>
    by_cases hw : w = v
    · simp [hw]
    · have hmem : v ∈ order := (List.mem_cons.mp hv).resolve_left fun he => hw he.symm
      rw [List.cons_append, upTo_cons_of_ne hw, upTo_cons_of_ne hw, ih hmem]

theorem upTo_concat_self {order : List (Fin n)} {u : Fin n} (hu : u ∉ order) :
    upTo (order ++ [u]) u = order := by
  induction order with
  | nil => simp
  | cons w order ih =>
    obtain ⟨hw, hu⟩ := not_or.mp (mt List.mem_cons.mpr hu)
    rw [List.cons_append, upTo_cons_of_ne (Ne.symm hw), ih hu]

/-- The nodes that a node of the order unlocks. -/
def block (links : Links n) (order : List (Fin n)) (u : Fin n) : List (Fin n) :=
  unlocked links (upTo order u) u

/-- A node enters the queue with the last of its predecessors. -/
theorem mem_block {order : List (Fin n)} {u v : Fin n} : v ∈ block links order u ↔
    (u, v) ∈ links ∧ ¬ (Precedes order v u ∨ v = u) ∧
      ∀ w, (w, v) ∈ links → Precedes order w u ∨ w = u := by
  simp only [block, mem_unlocked, List.mem_append, List.mem_singleton, mem_upTo]

/-- The blocks in which nodes enter the queue. -/
def blocks (links : Links n) (order : List (Fin n)) : List (Fin n) :=
  order.flatMap (block links order)

/-- When a node is finished, its block is added behind the others. -/
theorem blocks_concat {order : List (Fin n)} {u : Fin n} (hu : u ∉ order) :
    blocks links (order ++ [u]) = blocks links order ++ unlocked links order u := by
  have hold : ∀ v ∈ order, block links (order ++ [u]) v = block links order v := by
    intro v hv
    rw [block, upTo_concat_of_mem hv, block]
  rw [blocks, List.flatMap_append, List.flatMap_congr hold, List.flatMap_singleton, blocks, block,
    upTo_concat_self hu]

/-- What has entered the queue is the order of the finished nodes and what is still in it. -/
theorem Consistent.order_append_queue_step (h : Consistent links s) (hacyc : Acyclic links.Joins)
    (hs : s.order ++ s.queue = (start links).queue ++ blocks links s.order) :
    (s.step links).order ++ (s.step links).queue =
      (start links).queue ++ blocks links (s.step links).order := by
  obtain ⟨u, rest, hq, hstep, hready⟩ | ⟨v, hq, hv, -⟩ | ⟨-, hstep⟩ := h.step_cases
  · rw [hstep, order_finish, hready.queue_finish, blocks_concat hready.notMem_order]
    rw [hq] at hs
    simp only [← List.append_assoc, ← hs]
    simp
  · exact absurd hq (h.queue_ne_nil hacyc hv.1)
  · rwa [hstep]

/-- Finished and waiting nodes together are the blocks of the finished ones, all along a sweep that
releases none. -/
theorem Consistent.order_append_queue_run (h : Consistent links s) (hacyc : Acyclic links.Joins)
    (hs : s.order ++ s.queue = (start links).queue ++ blocks links s.order) (k : Nat) :
    (Sweep.run links k s).order ++ (Sweep.run links k s).queue =
      (start links).queue ++ blocks links (Sweep.run links k s).order := by
  induction k generalizing s with
  | zero => exact hs
  | succ k ih => exact ih h.step (h.order_append_queue_step hacyc hs)

/-- The nodes that a node unlocks in the whole sweep. -/
def unlockedBy (links : Links n) (u : Fin n) : List (Fin n) :=
  block links (run links n (start links)).order u

/-- The order of the finished nodes, block by block. -/
theorem order_eq_flatMap (hacyc : Acyclic links.Joins) :
    (run links n (start links)).order =
      (start links).queue ++ (run links n (start links)).order.flatMap (unlockedBy links) := by
  have hrun := (consistent_start links).order_append_queue_run hacyc (by simp [start, blocks]) n
  have hqueue : (run links n (start links)).queue = [] := by
    refine List.eq_nil_iff_forall_not_mem.mpr fun v hv => ?_
    exact (((consistent_run_start links).mem_queue v).mp hv).1 (mem_order_run_start links v)
  rwa [hqueue, List.append_nil] at hrun

end RuleFlow.Sweep
