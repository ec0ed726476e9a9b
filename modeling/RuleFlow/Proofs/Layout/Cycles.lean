import RuleFlow.Proofs.Layout.Layers

/-!
# What a cycle spoils

A sweep that finds no node ready releases the first one that is left, on a cycle or not.  At that
time every unfinished node has an unfinished predecessor, and all of them are listed from the
released node on.  In a finite graph such nodes lie on a cycle or behind one (`heldUp_of_forall`),
so what is released can be told without the sweep: it is the nodes that are held up (`HeldUp`) by a
cycle of nodes listed no earlier (`released_iff_heldUp`).  Conversely, of the nodes that a cycle
holds up, the one listed first is the first to be finished.

A link leads to a greater layer unless its source is held up behind the place of its target.  A
cycle thus spoils more than itself where a node behind it is listed first; if cycles are listed
before what is behind them (`CyclesFirst`), it does not.
-/

namespace RuleFlow

open Relation

/-! ## Held up by a cycle -/

section HeldUp

variable {α : Type} [LinearOrder α] {R : α → α → Prop} {first u v : α}

/-- A step between nodes that are listed from `first` on. -/
def StepFrom (R : α → α → Prop) (first u v : α) : Prop := R u v ∧ first ≤ u ∧ first ≤ v

/-- A node lies on a cycle or behind one, where all nodes from the cycle to the node are listed from
`first` on. -/
def HeldUp (R : α → α → Prop) (first u : α) : Prop :=
  ∃ w, TransGen (StepFrom R first) w w ∧ ReflTransGen (StepFrom R first) w u

/-- Each node that leads to others but not back, from a cycle, is listed before them. -/
def CyclesFirst (R : α → α → Prop) : Prop :=
  ∀ u v, TransGen R u u → ReflTransGen R u v → ¬ ReflTransGen R v u → u < v

/-- What is held up waits for what is held up. -/
theorem HeldUp.exists_step (h : HeldUp R first u) :
    ∃ x, StepFrom R first x u ∧ HeldUp R first x := by
  obtain ⟨w, hcycle, hpath⟩ := h
  rcases hpath.cases_tail with heq | ⟨x, hx, hstep⟩
  · obtain ⟨x, hx, hstep⟩ := TransGen.tail'_iff.mp hcycle
    rw [heq]
    exact ⟨x, hstep, w, hcycle, hx⟩
  · exact ⟨x, hstep, w, hcycle, hx⟩

theorem HeldUp.first_le (h : HeldUp R first u) : first ≤ u := by
  obtain ⟨x, hstep, -⟩ := h.exists_step
  exact hstep.2.2

/-- A node that is held up lies behind a cycle. -/
theorem HeldUp.exists_cycle (h : HeldUp R first u) :
    ∃ w, first ≤ w ∧ TransGen R w w ∧ ReflTransGen R w u := by
  obtain ⟨w, hcycle, hpath⟩ := h
  obtain ⟨x, -, hstep⟩ := TransGen.tail'_iff.mp hcycle
  have hsub : ∀ x y, StepFrom R first x y → R x y := fun _ _ hs => hs.1
  exact ⟨w, hstep.2.2, TransGen.mono hsub w w hcycle, ReflTransGen.mono hsub w u hpath⟩

/-- In a finite graph, nodes that all have predecessors among themselves are held up. -/
theorem heldUp_of_forall [Finite α] {P : α → Prop} (hfirst : ∀ x, P x → first ≤ x)
    (hpred : ∀ x, P x → ∃ y, R y x ∧ P y) (hu : P u) : HeldUp R first u := by
  by_contra hnot
  -- among the nodes that lead to `u` there is no cycle, so one of them comes first
  have hacyc : Acyclic fun x y => StepFrom R first x y ∧ ReflTransGen (StepFrom R first) y u := by
    intro w hcycle
    obtain ⟨x, -, -, hpath⟩ := TransGen.tail'_iff.mp hcycle
    exact hnot ⟨w, TransGen.mono (fun _ _ hs => hs.1) w w hcycle, hpath⟩
  obtain ⟨w, hw, hmin⟩ := hacyc.exists_first
    (P := fun x => ¬ (P x ∧ ReflTransGen (StepFrom R first) x u)) (v := u)
    (not_not.mpr ⟨hu, .refl⟩)
  obtain ⟨hPw, hpath⟩ := not_not.mp hw
  obtain ⟨x, hx, hPx⟩ := hpred w hPw
  have hstep : StepFrom R first x w := ⟨hx, hfirst x hPx, hfirst w hPw⟩
  exact hmin x ⟨hstep, hpath⟩ ⟨hPx, .head hstep hpath⟩

/-- If cycles come first, nothing is held up by a cycle that it does not lead back to. -/
theorem CyclesFirst.exists_cycle (hR : CyclesFirst R) (h : HeldUp R v u)
    (huv : ReflTransGen R u v) : ∃ w, TransGen R w w ∧ ReflTransGen R w u ∧ ReflTransGen R v w := by
  obtain ⟨w, hle, hcycle, hpath⟩ := h.exists_cycle
  refine ⟨w, hcycle, hpath, ?_⟩
  by_contra hback
  exact absurd (hR w v hcycle (hpath.trans huv) hback) (not_lt.mpr hle)

end HeldUp

namespace Sweep

variable {n : Nat} {links : Links n} {s : Sweep n}

/-! ## Released nodes -/

/-- What the order says about a node that was released with a layer. -/
structure Stalled (links : Links n) (s : Sweep n) (v : Fin n) (k : Nat) : Prop where
  mem : v ∈ s.order
  layer : s.layer.get v = k
  /-- The nodes listed before it had been finished, -/
  leading : ∀ w < v, Precedes s.order w v
  /-- and each of the others was waiting for one of them. -/
  waiting : ∀ x, ¬ Precedes s.order x v → ∃ y, (y, x) ∈ links ∧ ¬ Precedes s.order y v

theorem Stalled.finish {u v : Fin n} {k : Nat} (hs : Stalled links s v k) (h : Ready links u s) :
    Stalled links (s.finish links u) v k := by
  have hmem : v ∈ s.order ++ [u] := List.mem_append_left _ hs.mem
  refine ⟨?_, ?_, ?_, ?_⟩
  · rwa [order_finish]
  · rw [h.layer_finish_of_mem hmem]
    exact hs.layer
  · intro w hw
    rw [order_finish, h.precedes_finish hmem]
    exact hs.leading w hw
  · intro x hx
    rw [order_finish, h.precedes_finish hmem] at hx
    obtain ⟨y, hlink, hy⟩ := hs.waiting x hx
    refine ⟨y, hlink, ?_⟩
    rwa [order_finish, h.precedes_finish hmem]

namespace Consistent

theorem stalled_release (h : Consistent links s) {u v : Fin n} {k : Nat} (hu : u ∉ s.order)
    (hs : Stalled links s v k) : Stalled links (s.release links u) v k := by
  refine ⟨hs.mem, ?_, hs.leading, hs.waiting⟩
  rw [h.layer_release hu]
  exact hs.layer

/-- When no node is ready, every unfinished node waits for an unfinished one. -/
theorem exists_unfinished (h : Consistent links s) (hq : s.queue = []) {x : Fin n}
    (hx : x ∉ s.order) : ∃ y, (y, x) ∈ links ∧ y ∉ s.order := by
  have hwaiting : s.waiting.get x ≠ 0 := by
    intro hzero
    have hmem := (h.mem_queue x).mpr ⟨hx, hzero⟩
    rw [hq] at hmem
    cases hmem
  rw [h.waiting x hx, ← Nat.pos_iff_ne_zero, List.countP_pos_iff] at hwaiting
  obtain ⟨y, hlink, hy⟩ := hwaiting
  exact ⟨y, Links.mem_predecessors.mp hlink, of_decide_eq_true hy⟩

/-- The node that a step releases is stalled. -/
theorem stalled_finish_release (h : Consistent links s) (hq : s.queue = []) {v : Fin n}
    (hv : v ∉ s.order) (hlead : ∀ w < v, w ∈ s.order) :
    Stalled links ((s.release links v).finish links v) v (s.layerBelow links v) := by
  have hready := h.ready_of_release hv hq
  have horder : ((s.release links v).finish links v).order = s.order ++ [v] := order_finish v
  refine ⟨?_, ?_, ?_, ?_⟩
  · rw [horder]
    exact List.mem_append_right _ (List.mem_singleton_self v)
  · rw [hready.layer_finish_of_mem (List.mem_append_right _ (List.mem_singleton_self v)),
      h.layer_release hv, h.layerBelow_eq hv]
  · intro w hw
    rw [horder, precedes_concat_self hv]
    exact hlead w hw
  · intro x hx
    rw [horder, precedes_concat_self hv] at hx
    obtain ⟨y, hlink, hy⟩ := h.exists_unfinished hq hx
    refine ⟨y, hlink, ?_⟩
    rwa [horder, precedes_concat_self hv]

/-- A step keeps released nodes stalled. -/
theorem stalled_step (h : Consistent links s)
    (hs : ∀ v k, (v, k) ∈ s.released → Stalled links s v k) :
    ∀ v k, (v, k) ∈ (s.step links).released → Stalled links (s.step links) v k := by
  obtain ⟨u, rest, -, hstep, hready⟩ | ⟨u, hq, ⟨hu, hlead⟩, hstep, hready⟩ | ⟨-, hstep⟩ :=
    h.step_cases
  · intro v k hv
    rw [hstep, released_finish] at hv
    obtain ⟨hmem, hlayer, hbefore, hwaiting⟩ := hs v k hv
    rw [hstep]
    exact Stalled.finish ⟨hmem, hlayer, hbefore, hwaiting⟩ hready
  · intro v k hv
    rw [hstep, released_finish, release, List.mem_append, List.mem_singleton] at hv
    rw [hstep]
    rcases hv with hv | hv
    · exact (h.stalled_release hu (hs v k hv)).finish hready
    · cases hv
      exact h.stalled_finish_release hq hu hlead
  · rwa [hstep]

theorem stalled_run (h : Consistent links s)
    (hs : ∀ v k, (v, k) ∈ s.released → Stalled links s v k) (m : Nat) :
    ∀ v k, (v, k) ∈ (Sweep.run links m s).released → Stalled links (Sweep.run links m s) v k := by
  induction m generalizing s with
  | zero => exact hs
  | succ m ih => exact ih h.step (h.stalled_step hs)

end Consistent

variable (links)

/-- Every released node was stalled. -/
theorem stalled_run_start {v : Fin n} {k : Nat}
    (hv : (v, k) ∈ (run links n (start links)).released) :
    Stalled links (run links n (start links)) v k := by
  refine (consistent_start links).stalled_run ?_ n v k hv
  intro v k hv
  cases hv

variable {links}

/-! ## What is held up -/

/-- What comes no earlier in the order than a released node is held up. -/
theorem Stalled.heldUp {u v : Fin n} {k : Nat} (h : Stalled links s v k)
    (hu : ¬ Precedes s.order u v) : HeldUp links.Joins v u := by
  refine heldUp_of_forall (P := fun x => ¬ Precedes s.order x v) ?_ h.waiting hu
  intro x hx
  by_contra hlt
  exact hx (h.leading x (not_le.mp hlt))

/-- The source of a link comes earlier than the target, or is held up. -/
theorem precedes_or_heldUp {u v : Fin n} (hlink : links.Joins u v) :
    Precedes (run links n (start links)).order u v ∨ HeldUp links.Joins v u := by
  by_cases hprec : Precedes (run links n (start links)).order u v
  · exact .inl hprec
  · have hv := mem_order_run_start links v
    have hreleased : v ∈ (run links n (start links)).released.map Prod.fst := by
      by_contra hnot
      exact hprec ((consistent_run_start links).settled v hv hnot u hlink)
    obtain ⟨⟨v, k⟩, hmem, rfl⟩ := List.mem_map.mp hreleased
    exact .inr ((stalled_run_start links hmem).heldUp hprec)

/-- Of the nodes that a cycle holds up, the one listed first is released, before the others. -/
theorem released_of_heldUp {v : Fin n} (h : HeldUp links.Joins v v) :
    v ∈ (run links n (start links)).released.map Prod.fst := by
  set s := run links n (start links)
  -- the first in the order of what is held up
  obtain ⟨x, hx, hmin⟩ := (measure s.order.idxOf).wf.has_min {x | HeldUp links.Joins v x} ⟨v, h⟩
  obtain ⟨y, hstep, hy⟩ := hx.exists_step
  have hmem : x ∈ s.order := mem_order_run_start links x
  have hreleased : x ∈ s.released.map Prod.fst := by
    by_contra hnot
    exact hmin y hy ((consistent_run_start links).settled x hmem hnot y hstep.1)
  obtain ⟨⟨x, k⟩, hr, rfl⟩ := List.mem_map.mp hreleased
  have heq : v = x := by
    by_contra hne
    exact hmin v h ((stalled_run_start links hr).leading v (lt_of_le_of_ne hx.first_le hne))
  rw [heq]
  exact hreleased

/-- The released nodes, with their layers, are those that a cycle of nodes listed no earlier holds
up. -/
theorem released_iff_heldUp {v : Fin n} {k : Nat} :
    (v, k) ∈ (run links n (start links)).released ↔
      HeldUp links.Joins v v ∧ (run links n (start links)).layer.get v = k := by
  constructor
  · intro hv
    have hstalled := stalled_run_start links hv
    exact ⟨hstalled.heldUp (Precedes.irrefl v), hstalled.layer⟩
  · rintro ⟨hv, rfl⟩
    obtain ⟨⟨v, k⟩, hmem, rfl⟩ := List.mem_map.mp (released_of_heldUp hv)
    rwa [(stalled_run_start links hmem).layer]

/-- A link leads to a greater layer unless its source is held up. -/
theorem layer_lt_of_not_heldUp {u v : Fin n} (hlink : links.Joins u v)
    (h : ¬ HeldUp links.Joins v u) :
    (run links n (start links)).layer.get u < (run links n (start links)).layer.get v :=
  (consistent_run_start links).below u v hlink ((precedes_or_heldUp hlink).resolve_right h)

end Sweep

/-! ## Graphs -/

/-- The remarks on cycles are on the released nodes. -/
theorem cycle_note_iff (nodes : List Node) (edges : List Edge) (id : String) (k : Nat) :
    Note.cycle id k ∈ (FlowGraph.mk nodes edges).layoutNotes ↔
      ∃ v, (nodes.get v).id = id ∧ (v, k) ∈ (assignLayers nodes edges).released := by
  simp only [FlowGraph.layoutNotes, List.mem_append, List.mem_map, List.mem_singleton, reduceCtorEq,
    and_false, exists_false, false_or, or_false, Note.cycle.injEq]
  constructor
  · rintro ⟨⟨v, k⟩, hmem, rfl, rfl⟩
    exact ⟨v, rfl, hmem⟩
  · rintro ⟨v, rfl, hmem⟩
    exact ⟨(v, k), hmem, rfl, rfl⟩

/-- What a cycle spoils, for every list of nodes and every list of edges.  An edge leads to a
greater layer unless its source is held up by a cycle, with all nodes from the cycle on listed no
earlier than the target, and the remarks on cycles name exactly the nodes that are held up so, with
their layers.  If cycles are listed before what is behind them, then every edge that lies on no
cycle leads to a greater layer, and every node that is named lies on a cycle. -/
theorem cycle_spoils_heldUp (nodes : List Node) (edges : List Edge) :
    (∀ u v, Linked nodes edges u v → ¬ HeldUp (Linked nodes edges) v u →
      (assignLayers nodes edges).layer.get u < (assignLayers nodes edges).layer.get v) ∧
    (∀ id k, Note.cycle id k ∈ (FlowGraph.mk nodes edges).layoutNotes ↔
      ∃ v, (nodes.get v).id = id ∧ HeldUp (Linked nodes edges) v v ∧
        (assignLayers nodes edges).layer.get v = k) ∧
    (CyclesFirst (Linked nodes edges) →
      (∀ u v, Linked nodes edges u v → ¬ ReflTransGen (Linked nodes edges) v u →
        (assignLayers nodes edges).layer.get u < (assignLayers nodes edges).layer.get v) ∧
      ∀ id k, Note.cycle id k ∈ (FlowGraph.mk nodes edges).layoutNotes →
        ∃ v, (nodes.get v).id = id ∧ TransGen (Linked nodes edges) v v) := by
  have hnote : ∀ id k, Note.cycle id k ∈ (FlowGraph.mk nodes edges).layoutNotes ↔
      ∃ v, (nodes.get v).id = id ∧ HeldUp (Linked nodes edges) v v ∧
        (assignLayers nodes edges).layer.get v = k := by
    intro id k
    rw [cycle_note_iff, ← joins_linksOf]
    simp only [assignLayers, Sweep.released_iff_heldUp]
  have hlayer : ∀ u v, Linked nodes edges u v → ¬ HeldUp (Linked nodes edges) v u →
      (assignLayers nodes edges).layer.get u < (assignLayers nodes edges).layer.get v := by
    rw [← joins_linksOf]
    exact fun u v => Sweep.layer_lt_of_not_heldUp
  refine ⟨hlayer, hnote, fun hfirst => ⟨fun u v hlink hoff => ?_, fun id k hmem => ?_⟩⟩
  · refine hlayer u v hlink fun hheld => hoff ?_
    obtain ⟨w, -, hwu, hvw⟩ := hfirst.exists_cycle hheld (.single hlink)
    exact hvw.trans hwu
  · obtain ⟨v, hid, hheld, -⟩ := (hnote id k).mp hmem
    obtain ⟨w, hcycle, hwv, hvw⟩ := hfirst.exists_cycle hheld .refl
    exact ⟨v, hid, (TransGen.trans_right hvw hcycle).trans_left hwv⟩

/-- A cycle between `a` and `b`, and behind it `c`, with the nodes listed in some order. -/
def cycleGraph (ids : List String) : FlowGraph where
  nodes := ids.map fun id => ⟨id, .trigger id id .empty⟩
  edges := [.between "a" "b" none, .between "b" "a" none, .between "b" "c" none]

/-- If `c` is listed last, the edge to it leads to a greater layer, and what is named lies on the
cycle. -/
theorem cycle_spoils_heldUp_cycleGraph :
    let nodes := (cycleGraph ["a", "b", "c"]).nodes
    let edges := (cycleGraph ["a", "b", "c"]).edges
    CyclesFirst (Linked nodes edges) ∧
    (assignLayers nodes edges).layer.get ⟨1, by decide⟩ <
      (assignLayers nodes edges).layer.get ⟨2, by decide⟩ ∧
    ∃ v, (nodes.get v).id = "a" ∧ TransGen (Linked nodes edges) v v := by
  intro nodes edges
  let a : Fin nodes.length := ⟨0, by decide⟩
  let b : Fin nodes.length := ⟨1, by decide⟩
  let c : Fin nodes.length := ⟨2, by decide⟩
  have hab : Linked nodes edges a b := mem_linksOf.mp (by decide)
  have hba : Linked nodes edges b a := mem_linksOf.mp (by decide)
  have hbc : Linked nodes edges b c := mem_linksOf.mp (by decide)
  have hend : ∀ v, ¬ Linked nodes edges c v := by
    simp only [← mem_linksOf]
    decide
  have hall : ∀ v : Fin nodes.length, v = a ∨ v = b ∨ v = c := by decide
  have hfirst : CyclesFirst (Linked nodes edges) := by
    intro u v hcycle _ hback
    obtain ⟨w, hw, -⟩ := TransGen.head'_iff.mp hcycle
    have hu : u = a ∨ u = b := by
      rcases hall u with h | h | h
      · exact .inl h
      · exact .inr h
      · exact absurd (h ▸ hw) (hend w)
    rcases hall v with rfl | rfl | rfl
    · refine absurd ?_ hback
      rcases hu with rfl | rfl
      · exact .refl
      · exact .single hab
    · refine absurd ?_ hback
      rcases hu with rfl | rfl
      · exact .single hba
      · exact .refl
    · rcases hu with rfl | rfl <;> decide
  obtain ⟨-, -, hspoils⟩ := cycle_spoils_heldUp nodes edges
  obtain ⟨hlayer, hnote⟩ := hspoils hfirst
  refine ⟨hfirst, hlayer b c hbc ?_, hnote "a" 0 (by decide)⟩
  rw [reflTransGen_iff_eq hend]
  decide

/-- A cycle spoils more than itself if `c` is listed first: the edge to it lies on no cycle and
leads to a lesser layer, and the first remark on a cycle is on `c`. -/
theorem exists_spoiled_behind_cycle :
    (¬ ∀ (nodes : List Node) (edges : List Edge) (u v : Fin nodes.length),
      Linked nodes edges u v → ¬ ReflTransGen (Linked nodes edges) v u →
        (assignLayers nodes edges).layer.get u < (assignLayers nodes edges).layer.get v) ∧
    ¬ ∀ (nodes : List Node) (edges : List Edge) (id : String) (k : Nat),
      Note.cycle id k ∈ (FlowGraph.mk nodes edges).layoutNotes →
        ∃ v, (nodes.get v).id = id ∧ TransGen (Linked nodes edges) v v := by
  let nodes := (cycleGraph ["c", "a", "b"]).nodes
  let edges := (cycleGraph ["c", "a", "b"]).edges
  let c : Fin nodes.length := ⟨0, by decide⟩
  let b : Fin nodes.length := ⟨2, by decide⟩
  have hend : ∀ v, ¬ Linked nodes edges c v := by
    simp only [← mem_linksOf]
    decide
  have hc : ∀ v, (nodes.get v).id = "c" → v = c := by decide
  constructor
  · intro h
    have hlink : Linked nodes edges b c := mem_linksOf.mp (by decide)
    refine absurd (h nodes edges b c hlink ?_) (by decide)
    rw [reflTransGen_iff_eq hend]
    decide
  · intro h
    obtain ⟨v, hid, hcycle⟩ := h nodes edges "c" 0 (by decide)
    obtain ⟨w, hw, -⟩ := TransGen.head'_iff.mp hcycle
    exact hend w (hc v hid ▸ hw)

end RuleFlow
