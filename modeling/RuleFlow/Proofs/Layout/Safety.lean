import RuleFlow.Proofs.Layout.Sweep

/-!
# A guarded sweep

A sweep takes its next node from the front of a list and counts down in natural numbers, so nothing
in it can go wrong.  A guarded sweep (`GuardedSweep`) does the same on a queue that no node ever
leaves, with the place of the next one in it, and stops with a fault where it would read past the
end of the queue, count below zero, or find no node to release.  A sweep is turned into a guarded
one by putting the finished nodes back in front of the queue (`GuardedSweep.ofSweep`), and a pass of
the guarded sweep is a step of the sweep (`pass_ofSweep`): in particular it has no fault.
-/

namespace RuleFlow

/-- Why a guarded sweep stops before all nodes are finished. -/
inductive SweepFault where
  /-- The next node is looked for behind the end of the queue. -/
  | pastQueue
  /-- A node that waits for no link loses one. -/
  | belowZero
  /-- The order is too short, but no node is unfinished. -/
  | noneLeft

/-- A sweep whose queue holds all the nodes that have ever entered it. -/
structure GuardedSweep (n : Nat) where
  sweep : Sweep n
  /-- The place of the next node in the queue. -/
  head : Nat

namespace GuardedSweep

variable {n : Nat} {links : Links n} {s : Sweep n}

def start (links : Links n) : GuardedSweep n := ⟨.start links, 0⟩

/-- Moves an unfinished successor as `Sweep.relax` does, if it still waits for a link. -/
def relax (u : Fin n) (s : Sweep n) (v : Fin n) : Except SweepFault (Sweep n) :=
  if s.finished.get v = false ∧ s.waiting.get v = 0 then .error .belowZero else .ok (s.relax u v)

/-- Finishes a node and moves its successors. -/
def finish (links : Links n) (u : Fin n) (s : Sweep n) : Except SweepFault (Sweep n) :=
  (links.successors u).foldlM (relax u)
    { s with finished := s.finished.set u true u.isLt, order := s.order ++ [u] }

/-- At the end of the queue, releases the first unfinished node and puts it into the queue. -/
def refill (links : Links n) (g : GuardedSweep n) : Except SweepFault (GuardedSweep n) :=
  if g.head = g.sweep.queue.length then
    match g.sweep.firstLeft? with
    | some v =>
      let released := g.sweep.release links v
      .ok { g with sweep := { released with queue := released.queue ++ [v] } }
    | none => .error .noneLeft
  else .ok g

/-- One pass of the loop: finishes the next node of the queue. -/
def pass (links : Links n) (g : GuardedSweep n) : Except SweepFault (GuardedSweep n) := do
  let g ← g.refill links
  match g.sweep.queue[g.head]? with
  | some u => return ⟨← finish links u g.sweep, g.head + 1⟩
  | none => throw .pastQueue

/-! ## Nodes in front of the queue -/

/-- A sweep with more nodes in front of its queue. -/
def behind (front : List (Fin n)) (s : Sweep n) : Sweep n := { s with queue := front ++ s.queue }

/-- The guarded sweep that has come as far as a sweep. -/
def ofSweep (s : Sweep n) : GuardedSweep n := ⟨behind s.order s, s.order.length⟩

theorem relax_behind (front : List (Fin n)) (u v : Fin n) :
    (behind front s).relax u v = behind front (s.relax u v) := by
  have hfinished : (behind front s).finished = s.finished := rfl
  have hwaiting : (behind front s).waiting = s.waiting := rfl
  rw [Sweep.relax, Sweep.relax, hfinished, hwaiting]
  by_cases hf : s.finished.get v = true
  · rw [if_pos hf, if_pos hf]
  · rw [if_neg hf, if_neg hf]
    by_cases hleft : s.waiting.get v - 1 = 0 <;> simp [behind, hleft]

theorem foldl_relax_behind (front : List (Fin n)) (u : Fin n) (vs : List (Fin n)) :
    vs.foldl (Sweep.relax u) (behind front s) = behind front (vs.foldl (Sweep.relax u) s) := by
  induction vs generalizing s with
  | nil => rfl
  | cons v vs ih => rw [List.foldl_cons, relax_behind, ih, List.foldl_cons]

theorem finish_behind (front : List (Fin n)) (u : Fin n) :
    (behind front s).finish links u = behind front (s.finish links u) := by
  rw [Sweep.finish, Sweep.finish, ← foldl_relax_behind]
  rfl

/-! ## Passes without a fault -/

/-- Successors that wait for all their links are moved without a fault. -/
theorem foldlM_relax {u : Fin n} {vs : List (Fin n)}
    (hle : ∀ v ∈ vs, s.finished.get v = false → vs.count v ≤ s.waiting.get v) :
    vs.foldlM (relax u) s = .ok (vs.foldl (Sweep.relax u) s) := by
  induction vs generalizing s with
  | nil => rfl
  | cons v vs ih =>
    have hpos : ¬ (s.finished.get v = false ∧ s.waiting.get v = 0) := by
      rintro ⟨hf, hzero⟩
      have hcount := hle v List.mem_cons_self hf
      rw [List.count_cons_self] at hcount
      omega
    have hrest : ∀ w ∈ vs, (s.relax u v).finished.get w = false →
        vs.count w ≤ (s.relax u v).waiting.get w := by
      intro w hw hf
      rw [Sweep.finished_relax] at hf
      exact (Sweep.waiting_relax_of_count_le hf (hle w (List.mem_cons_of_mem v hw) hf)).1
    rw [List.foldlM_cons, relax, if_neg hpos, List.foldl_cons, ← ih hrest]
    rfl

/-- Finishing a node that is ready has no fault. -/
theorem finish_of_ready {u : Fin n} (h : s.Ready links u) (front : List (Fin n)) :
    finish links u (behind front s) = .ok (behind front (s.finish links u)) := by
  rw [← finish_behind]
  exact foldlM_relax fun v _ hf => h.count_successors_le hf

/-- A pass on a queue that holds the nodes of an order and then a node that is ready. -/
theorem pass_of_refill {g : GuardedSweep n} {u : Fin n} (h : s.Ready links u)
    (hrefill : g.refill links = .ok ⟨behind (s.order ++ [u]) s, s.order.length⟩) :
    g.pass links = .ok (ofSweep (s.finish links u)) := by
  have hnext : (behind (s.order ++ [u]) s).queue[s.order.length]? = some u := by simp [behind]
  have hfinish := finish_of_ready h (s.order ++ [u])
  have hplace : ofSweep (s.finish links u) =
      ⟨behind (s.order ++ [u]) (s.finish links u), s.order.length + 1⟩ := by
    rw [ofSweep, Sweep.order_finish, List.length_append, List.length_singleton]
  simp only [pass, hrefill, bind, Except.bind, hnext, hfinish, hplace]
  rfl

/-- A pass of the guarded sweep is a step of the sweep. -/
theorem pass_ofSweep (h : s.Consistent links) (hlt : s.order.length < n) :
    (ofSweep s).pass links = .ok (ofSweep (s.step links)) := by
  cases hq : s.queue with
  | cons u rest =>
    have hrefill : (ofSweep s).refill links =
        .ok ⟨behind (s.order ++ [u]) { s with queue := rest }, s.order.length⟩ := by
      rw [refill, if_neg (by simp [ofSweep, behind, hq])]
      simp [ofSweep, behind, hq]
    rw [pass_of_refill (h.ready_of_queue hq) hrefill, Sweep.step, hq]
  | nil =>
    obtain ⟨v, hv⟩ : ∃ v, s.firstLeft? = some v := by
      rw [← Option.ne_none_iff_exists']
      intro hnone
      obtain ⟨v, hv⟩ := Sweep.exists_notMem_of_length_lt hlt
      exact hv (h.firstLeft?_eq_none hnone v)
    have hrefill : (ofSweep s).refill links =
        .ok ⟨behind (s.order ++ [v]) (s.release links v), s.order.length⟩ := by
      have hfirst : (ofSweep s).sweep.firstLeft? = some v := hv
      rw [refill, if_pos (by simp [ofSweep, behind, hq]), hfirst]
      simp [ofSweep, behind, Sweep.release, Sweep.layerBelow, hq]
    rw [pass_of_refill (h.ready_of_release (h.firstLeft?_eq_some hv).1 hq) hrefill]
    simp only [Sweep.step, hq, hv]

end GuardedSweep

/-! ## The whole sweep -/

namespace Sweep

variable {n : Nat} {links : Links n} {s : Sweep n}

theorem run_succ (links : Links n) (k : Nat) (s : Sweep n) :
    run links (k + 1) s = (run links k s).step links := by
  induction k generalizing s with
  | zero => rfl
  | succ k ih => rw [run, ih, run]

/-- A step finishes a node that was unfinished, and no other. -/
theorem Consistent.exists_finished_step (h : Consistent links s) (hlt : s.order.length < n) :
    ∃ u, s.finished.get u = false ∧
      ∀ v, (s.step links).finished.get v = true ↔ s.finished.get v = true ∨ v = u := by
  have hready {t : Sweep n} {u : Fin n} (ht : Ready links u t) (hf : t.finished = s.finished)
      (hstep : s.step links = t.finish links u) : s.finished.get u = false ∧
        ∀ v, (s.step links).finished.get v = true ↔ s.finished.get v = true ∨ v = u := by
    have hu := mt (ht.mem_order u).mpr ht.notMem_order
    rw [hf, Bool.not_eq_true] at hu
    exact ⟨hu, fun v => by rw [hstep, finished_finish, hf]⟩
  obtain ⟨u, rest, -, hstep, ht⟩ | ⟨u, -, -, hstep, ht⟩ | ⟨hall, -⟩ := h.step_cases
  · exact ⟨u, hready ht rfl hstep⟩
  · exact ⟨u, hready ht rfl hstep⟩
  · obtain ⟨v, hv⟩ := exists_notMem_of_length_lt hlt
    exact absurd (hall v) hv

end Sweep

/-- For every list of nodes and every list of edges, a guarded sweep finishes an unfinished node in
every pass, ends after a pass for every node, and never has a fault.  No node enters its queue
twice, and it comes to the layers and the order of the sweep. -/
theorem guardedSweep_safe (nodes : List Node) (edges : List Edge) :
    ∃ state : ℕ → GuardedSweep nodes.length,
      state 0 = .start (linksOf nodes edges) ∧
      (∀ k < nodes.length,
        (state k).sweep.order.length < nodes.length ∧
        (state k).pass (linksOf nodes edges) = .ok (state (k + 1)) ∧
        ∃ u, (state k).sweep.finished.get u = false ∧
          ∀ v, (state (k + 1)).sweep.finished.get v = true ↔
            (state k).sweep.finished.get v = true ∨ v = u) ∧
      (∀ k ≤ nodes.length, (state k).sweep.queue.Nodup) ∧
      (state nodes.length).sweep.order.length = nodes.length ∧
      (state nodes.length).sweep.order.Perm (List.finRange nodes.length) ∧
      state nodes.length = .ofSweep (assignLayers nodes edges) := by
  set links := linksOf nodes edges
  have hconsistent := fun k => (Sweep.consistent_start links).run k
  have hlength : ∀ k ≤ nodes.length, (Sweep.run links k (.start links)).order.length = k := by
    intro k hk
    have hrun := (Sweep.consistent_start links).length_order_run k (by simpa [Sweep.start] using hk)
    simpa [Sweep.start] using hrun
  refine ⟨fun k => .ofSweep (Sweep.run links k (.start links)), rfl, fun k hk => ?_,
    fun k _ => (hconsistent k).nodup, hlength _ le_rfl, Sweep.perm_order_run_start links, rfl⟩
  have hlt := (hlength k hk.le).trans_lt hk
  have hpass := GuardedSweep.pass_ofSweep (hconsistent k) hlt
  have hstep := (hconsistent k).exists_finished_step hlt
  rw [← Sweep.run_succ] at hpass hstep
  exact ⟨hlt, hpass, hstep⟩

end RuleFlow
