import RuleFlow.Proofs.Layout.Links
import Mathlib.Data.List.Perm.Subperm
import Mathlib.Order.Fin.Basic

/-!
# What a sweep keeps

A sweep finishes one node at a step.  Between two steps its state is determined by the order of the
nodes finished so far: which nodes are finished, how many links each other node waits for, which
nodes are ready, and the layer that each node has got from its finished predecessors.
`Sweep.Consistent` says so, `Consistent.step` that a step keeps it, and `Consistent.run` that every
sweep does.

Finishing a node relaxes its successors one after the other.  The effect of all of them together is
written down first, in closed form, so that parallel links need no induction of their own.
-/

namespace RuleFlow

/-! ## Order -/

/-- `u` stands in the list, and before `v` if `v` does as well. -/
def Precedes [DecidableEq α] (order : List α) (u v : α) : Prop := order.idxOf u < order.idxOf v

section Precedes

variable {α : Type} [DecidableEq α] {order : List α} {u v w : α}

theorem Precedes.mem (h : Precedes order u v) : u ∈ order :=
  List.idxOf_lt_length_iff.mp (Nat.lt_of_lt_of_le h List.idxOf_le_length)

theorem Precedes.irrefl (u : α) : ¬ Precedes order u u := Nat.lt_irrefl _

theorem Precedes.trans (h : Precedes order u v) (h' : Precedes order v w) : Precedes order u w :=
  Nat.lt_trans h h'

/-- All that is in the list precedes all that is not. -/
theorem precedes_of_notMem (hv : v ∉ order) : Precedes order u v ↔ u ∈ order := by
  rw [Precedes, List.idxOf_eq_length hv, List.idxOf_lt_length_iff]

/-- A new last item changes nothing for the others. -/
theorem precedes_concat_of_mem (hv : v ∈ order) :
    Precedes (order ++ [w]) u v ↔ Precedes order u v := by
  have hlt : order.idxOf v < order.length := List.idxOf_lt_length_iff.mpr hv
  by_cases hu : u ∈ order
  · simp [Precedes, List.idxOf_append, hu, hv]
  · have := List.idxOf_eq_length hu
    simp only [Precedes, List.idxOf_append, hu, hv, ↓reduceIte]
    omega

/-- A new last item is preceded by what was in the list. -/
theorem precedes_concat_self (hw : w ∉ order) : Precedes (order ++ [w]) u w ↔ u ∈ order := by
  have hlen : order.idxOf u < order.length ↔ u ∈ order := List.idxOf_lt_length_iff
  by_cases hu : u ∈ order <;> simp [Precedes, List.idxOf_append, hu, hw, hlen]

end Precedes

namespace Sweep

variable {n : Nat} {links : Links n} {s : Sweep n}

/-! ## Entries -/

theorem get_set {α : Type} (xs : Vector α n) (u v : Fin n) (x : α) :
    (xs.set u x u.isLt).get v = if v = u then x else xs.get v := by
  have h := xs.getElem_set (x := x) u.isLt v.isLt
  simp only [Fin.val_inj, eq_comm (a := u)] at h
  exact h

@[simp] theorem layer_start (v : Fin n) : (start links).layer.get v = 0 :=
  Vector.getElem_replicate v.isLt

@[simp] theorem finished_start (v : Fin n) : (start links).finished.get v = false :=
  Vector.getElem_replicate v.isLt

@[simp] theorem waiting_start (v : Fin n) :
    (start links).waiting.get v = (links.predecessors v).length :=
  Vector.getElem_ofFn v.isLt

/-- At the start the nodes without predecessors wait in the queue. -/
theorem mem_queue_start {v : Fin n} :
    v ∈ (start links).queue ↔ links.predecessors v = [] := by
  have hqueue : (start links).queue =
      (List.finRange n).filter ((start links).waiting.get · == 0) := rfl
  rw [hqueue, List.mem_filter]
  simp

/-! ## Relaxing the successors of a node -/

@[simp] theorem finished_relax (u v : Fin n) : (relax u s v).finished = s.finished := by
  rw [relax]
  split <;> rfl

@[simp] theorem order_relax (u v : Fin n) : (relax u s v).order = s.order := by
  rw [relax]
  split <;> rfl

@[simp] theorem released_relax (u v : Fin n) : (relax u s v).released = s.released := by
  rw [relax]
  split <;> rfl

/-- Only an unfinished successor moves, below the finished node. -/
theorem layer_relax (u v w : Fin n) : (relax u s v).layer.get w =
    if s.finished.get w = false ∧ w = v then max (s.layer.get w) (s.layer.get u + 1)
    else s.layer.get w := by
  rw [relax]
  by_cases hw : w = v
  · subst hw
    cases hf : s.finished.get w <;> simp [get_set]
  · split <;> simp [hw, get_set]

/-- Relaxing a link takes one from what its target waits for, unless that is finished. -/
theorem waiting_relax (u v w : Fin n) : (relax u s v).waiting.get w =
    if s.finished.get w = false ∧ w = v then s.waiting.get w - 1 else s.waiting.get w := by
  rw [relax]
  by_cases hw : w = v
  · subst hw
    cases hf : s.finished.get w <;> simp [get_set]
  · split <;> simp [hw, get_set]

/-- The target joins the queue when it waits for nothing more. -/
theorem queue_relax (u v : Fin n) : (relax u s v).queue =
    if s.finished.get v = false ∧ s.waiting.get v ≤ 1 then s.queue ++ [v] else s.queue := by
  rw [relax]
  cases hf : s.finished.get v
  · have hiff : s.waiting.get v - 1 = 0 ↔ s.waiting.get v ≤ 1 := by omega
    simp [hiff]
  · simp

variable {vs : List (Fin n)}

@[simp] theorem finished_foldl_relax (u : Fin n) :
    (vs.foldl (relax u) s).finished = s.finished := by
  induction vs generalizing s with
  | nil => rfl
  | cons v vs ih => rw [List.foldl_cons, ih, finished_relax]

@[simp] theorem order_foldl_relax (u : Fin n) : (vs.foldl (relax u) s).order = s.order := by
  induction vs generalizing s with
  | nil => rfl
  | cons v vs ih => rw [List.foldl_cons, ih, order_relax]

@[simp] theorem released_foldl_relax (u : Fin n) :
    (vs.foldl (relax u) s).released = s.released := by
  induction vs generalizing s with
  | nil => rfl
  | cons v vs ih => rw [List.foldl_cons, ih, released_relax]

/-- Relaxing all links of a node lifts the unfinished targets above it. -/
theorem layer_foldl_relax {u : Fin n} (hu : s.finished.get u = true) (w : Fin n) :
    (vs.foldl (relax u) s).layer.get w =
      if s.finished.get w = false ∧ w ∈ vs then max (s.layer.get w) (s.layer.get u + 1)
      else s.layer.get w := by
  induction vs generalizing s with
  | nil => simp
  | cons v vs ih =>
    have hstay : (relax u s v).layer.get u = s.layer.get u := by
      rw [layer_relax, if_neg (by simp [hu])]
    rw [List.foldl_cons, ih (by rw [finished_relax]; exact hu), hstay, finished_relax, layer_relax]
    by_cases hv : w = v
    · subst hv
      cases s.finished.get w <;> simp
    · simp [hv]

/-- An unfinished target waits for one less with each link of the node. -/
theorem waiting_foldl_relax (u w : Fin n) : (vs.foldl (relax u) s).waiting.get w =
    if s.finished.get w = false then s.waiting.get w - vs.count w else s.waiting.get w := by
  induction vs generalizing s with
  | nil => simp
  | cons v vs ih =>
    rw [List.foldl_cons, ih, finished_relax, waiting_relax]
    by_cases hf : s.finished.get w = false
    · by_cases hv : w = v
      · subst hv
        simp only [hf, and_self, if_true, List.count_cons_self]
        omega
      · have : ¬ v = w := fun h => hv h.symm
        simp [hf, hv, this]
    · simp [hf]

/-- One link relaxed leaves the rest to relax. -/
theorem waiting_relax_of_count_le {u v w : Fin n} (hf : s.finished.get w = false)
    (hle : (v :: vs).count w ≤ s.waiting.get w) :
    vs.count w ≤ (relax u s v).waiting.get w ∧
      ((relax u s v).waiting.get w = vs.count w ↔ s.waiting.get w = (v :: vs).count w) := by
  rw [waiting_relax]
  by_cases hv : w = v
  · subst hv
    rw [List.count_cons_self] at hle ⊢
    simp only [hf, and_self, if_true]
    omega
  · rw [List.count_cons_of_ne (fun h => hv h.symm)] at hle ⊢
    simp only [hf, hv, and_false, if_false, iff_self, and_true]
    exact hle

/-- A successor is ready when its last link is relaxed, so the ready ones enter the queue in the
order of their last occurrences. -/
theorem queue_foldl_relax (u : Fin n)
    (hle : ∀ v ∈ vs, s.finished.get v = false → vs.count v ≤ s.waiting.get v) :
    (vs.foldl (relax u) s).queue = s.queue ++
      vs.dedup.filter fun v => !s.finished.get v && s.waiting.get v == vs.count v := by
  induction vs generalizing s with
  | nil => simp
  | cons v vs ih =>
    have hrest : ∀ w ∈ vs, s.finished.get w = false → vs.count w ≤ (relax u s v).waiting.get w ∧
        ((relax u s v).waiting.get w = vs.count w ↔ s.waiting.get w = (v :: vs).count w) :=
      fun w hw hf => waiting_relax_of_count_le hf (hle w (List.mem_cons_of_mem v hw) hf)
    have hready : ∀ w ∈ vs.dedup,
        (!(relax u s v).finished.get w && (relax u s v).waiting.get w == vs.count w) =
          (!s.finished.get w && s.waiting.get w == (v :: vs).count w) := by
      intro w hw
      rw [finished_relax]
      cases hf : s.finished.get w
      · simp only [beq_eq_decide, (hrest w (List.mem_dedup.mp hw) hf).2]
      · rfl
    rw [List.foldl_cons, ih fun w hw hf => (hrest w hw (by rwa [finished_relax] at hf)).1,
      List.filter_congr hready, queue_relax]
    by_cases hv : v ∈ vs
    · have hlater : ¬ (s.finished.get v = false ∧ s.waiting.get v ≤ 1) := by
        rintro ⟨hf, hone⟩
        have hcount := hle v List.mem_cons_self hf
        have hpos := List.count_pos_iff.mpr hv
        rw [List.count_cons_self] at hcount
        omega
      rw [List.dedup_cons_of_mem hv, if_neg hlater]
    · rw [List.dedup_cons_of_notMem hv, List.filter_cons, List.count_cons_self,
        List.count_eq_zero_of_not_mem hv]
      cases hf : s.finished.get v
      · have hcount := hle v List.mem_cons_self hf
        rw [List.count_cons_self, List.count_eq_zero_of_not_mem hv] at hcount
        have hiff : s.waiting.get v ≤ 1 ↔ s.waiting.get v = 1 := by omega
        by_cases hone : s.waiting.get v = 1 <;> simp [hiff, hone]
      · simp

/-! ## Between two steps -/

/-- What the order of the finished nodes says about the rest of the state. -/
structure Consistent (links : Links n) (s : Sweep n) : Prop where
  mem_order : ∀ v, v ∈ s.order ↔ s.finished.get v = true
  nodup : (s.order ++ s.queue).Nodup
  /-- An unfinished node waits for its links from unfinished nodes. -/
  waiting : ∀ v, v ∉ s.order → s.waiting.get v = (links.predecessors v).countP (· ∉ s.order)
  /-- The nodes that wait for nothing are in the queue. -/
  mem_queue : ∀ v, v ∈ s.queue ↔ v ∉ s.order ∧ s.waiting.get v = 0
  /-- A node lies below the predecessors finished before it, -/
  below : ∀ u v, (u, v) ∈ links → Precedes s.order u v → s.layer.get u < s.layer.get v
  /-- and right below one of them, unless it is on the uppermost layer. -/
  attained : ∀ v, s.layer.get v ≠ 0 →
    ∃ u, (u, v) ∈ links ∧ Precedes s.order u v ∧ s.layer.get v = s.layer.get u + 1
  /-- A node that was not released was finished after all its predecessors. -/
  settled : ∀ v ∈ s.order, v ∉ s.released.map Prod.fst →
    ∀ u, (u, v) ∈ links → Precedes s.order u v

/-- A state that is about to finish a node: the node stands neither in the order nor in the queue
any more, and is not waited for. -/
structure Ready (links : Links n) (u : Fin n) (s : Sweep n) : Prop where
  mem_order : ∀ v, v ∈ s.order ↔ s.finished.get v = true
  nodup : (s.order ++ u :: s.queue).Nodup
  waiting : ∀ v, v ∉ s.order → v ≠ u →
    s.waiting.get v = (links.predecessors v).countP (· ∉ s.order)
  mem_queue : ∀ v, v ≠ u → (v ∈ s.queue ↔ v ∉ s.order ∧ s.waiting.get v = 0)
  below : ∀ u v, (u, v) ∈ links → Precedes s.order u v → s.layer.get u < s.layer.get v
  attained : ∀ v, s.layer.get v ≠ 0 →
    ∃ u, (u, v) ∈ links ∧ Precedes s.order u v ∧ s.layer.get v = s.layer.get u + 1
  settled : ∀ v ∈ s.order, v ∉ s.released.map Prod.fst →
    ∀ u, (u, v) ∈ links → Precedes s.order u v
  ready : u ∉ s.released.map Prod.fst → ∀ w, (w, u) ∈ links → w ∈ s.order

/-- At the start nothing has been ordered, and every layer is zero. -/
theorem consistent_start (links : Links n) : Consistent links (start links) where
  mem_order v := by rw [finished_start]; simp [start]
  nodup := by
    rw [start, List.nil_append]
    exact (List.nodup_finRange n).filter _
  waiting v _ := by
    have hall : (links.predecessors v).countP (· ∉ (start links).order) =
        (links.predecessors v).length := List.countP_eq_length.mpr fun u _ => by simp [start]
    rw [waiting_start, hall]
  mem_queue v := by
    rw [mem_queue_start, waiting_start]
    simp [start]
  below u v _ h := by simpa [start] using h.mem
  attained v h := absurd (layer_start v) h
  settled v h := by simp [start] at h

/-- An order that is too short misses a node. -/
theorem exists_notMem_of_length_lt {order : List (Fin n)} (hlt : order.length < n) :
    ∃ v, v ∉ order := by
  by_contra! hall
  have hle := ((List.nodup_finRange n).subperm fun v _ => hall v).length_le
  rw [List.length_finRange] at hle
  omega

/-! ## Finishing a node -/

/-- The nodes that wait for nothing any more once `u` is finished after `order`. -/
def unlocked (links : Links n) (order : List (Fin n)) (u : Fin n) : List (Fin n) :=
  (links.successors u).dedup.filter fun v =>
    decide (v ∉ order ++ [u] ∧ ∀ w ∈ links.predecessors v, w ∈ order ++ [u])

/-- A node unlocks those that wait for it and for nothing else. -/
theorem mem_unlocked {order : List (Fin n)} {u v : Fin n} : v ∈ unlocked links order u ↔
    (u, v) ∈ links ∧ v ∉ order ++ [u] ∧ ∀ w, (w, v) ∈ links → w ∈ order ++ [u] := by
  simp [unlocked]

theorem countP_notMem_concat {α : Type} [DecidableEq α] {order : List α} {u : α} (hu : u ∉ order)
    (l : List α) : l.countP (· ∉ order) = l.countP (· ∉ order ++ [u]) + l.count u := by
  induction l with
  | nil => rfl
  | cons w l ih =>
    rw [List.countP_cons, List.countP_cons, List.count_cons, ih]
    by_cases hw : w = u
    · subst hw
      simp [hu, Nat.add_assoc]
    · by_cases hmem : w ∈ order <;> simp [hw, hmem, Nat.add_right_comm]

@[simp] theorem order_finish (u : Fin n) : (s.finish links u).order = s.order ++ [u] := by
  rw [finish, order_foldl_relax]

@[simp] theorem released_finish (u : Fin n) : (s.finish links u).released = s.released := by
  rw [finish, released_foldl_relax]

theorem finished_finish (u v : Fin n) :
    (s.finish links u).finished.get v = true ↔ s.finished.get v = true ∨ v = u := by
  rw [finish, finished_foldl_relax]
  by_cases hv : v = u
  · simp [hv, get_set]
  · simp [hv, get_set]

namespace Ready

variable {u : Fin n}

theorem notMem_order (h : Ready links u s) : u ∉ s.order := fun hu =>
  List.disjoint_of_nodup_append h.nodup hu List.mem_cons_self

/-- The state in which the successors of the node are relaxed has the node finished. -/
theorem unfinished_iff (h : Ready links u s) (v : Fin n) :
    (s.finished.set u true u.isLt).get v = false ↔ v ∉ s.order ++ [u] := by
  rw [List.mem_append, List.mem_singleton, h.mem_order, get_set]
  by_cases hv : v = u <;> simp [hv]

/-- Finishing a node lifts the unfinished nodes after it and no others. -/
theorem layer_finish (h : Ready links u s) (w : Fin n) : (s.finish links u).layer.get w =
    if w ∉ s.order ++ [u] ∧ (u, w) ∈ links then max (s.layer.get w) (s.layer.get u + 1)
    else s.layer.get w := by
  rw [finish, layer_foldl_relax (by simp [get_set])]
  simp only [h.unfinished_iff, Links.mem_successors]

/-- An unfinished node waits for its links from the node and for those from nodes finished later. -/
theorem waiting_eq (h : Ready links u s) {v : Fin n} (hv : v ∉ s.order ++ [u]) :
    s.waiting.get v =
      (links.predecessors v).countP (· ∉ s.order ++ [u]) + (links.successors u).count v := by
  have hv' : v ∉ s.order ∧ v ≠ u := by simpa using hv
  rw [h.waiting v hv'.1 hv'.2, countP_notMem_concat h.notMem_order, Links.count_predecessors]

/-- The links from the node are among those that a successor waits for. -/
theorem count_successors_le (h : Ready links u s) {v : Fin n}
    (hf : (s.finished.set u true u.isLt).get v = false) :
    (links.successors u).count v ≤ s.waiting.get v := by
  rw [h.waiting_eq ((h.unfinished_iff v).mp hf)]
  exact Nat.le_add_left ..

/-- What is left to wait for are the predecessors that are not finished. -/
theorem waiting_finish (h : Ready links u s) {v : Fin n} (hv : v ∉ s.order ++ [u]) :
    (s.finish links u).waiting.get v = (links.predecessors v).countP (· ∉ s.order ++ [u]) := by
  rw [finish, waiting_foldl_relax, if_pos ((h.unfinished_iff v).mpr hv), h.waiting_eq hv,
    Nat.add_sub_cancel]

/-- Finishing a node puts what it unlocks at the end of the queue. -/
theorem queue_finish (h : Ready links u s) :
    (s.finish links u).queue = s.queue ++ unlocked links s.order u := by
  rw [finish, queue_foldl_relax]
  · rw [unlocked]
    congr 1
    apply List.filter_congr
    intro v _
    by_cases hv : v ∉ s.order ++ [u]
    · have hiff : s.waiting.get v = (links.successors u).count v ↔
          ∀ w ∈ links.predecessors v, w ∈ s.order ++ [u] := by
        rw [h.waiting_eq hv, Nat.add_eq_right, List.countP_eq_zero]
        simp only [decide_eq_true_eq, Decidable.not_not]
      have hf := (h.unfinished_iff v).mpr hv
      simp only [hf, Bool.not_false, Bool.true_and, beq_eq_decide]
      exact decide_eq_decide.mpr ⟨fun he => ⟨hv, hiff.mp he⟩, fun he => hiff.mpr he.2⟩
    · have hf : (s.finished.set u true u.isLt).get v = true := by
        rw [← Bool.not_eq_false, h.unfinished_iff]
        exact hv
      simp only [hf, Bool.not_true, Bool.false_and]
      exact (decide_eq_false fun he => hv he.1).symm
  · exact fun v _ hf => h.count_successors_le hf

/-- The layers of finished nodes do not change any more. -/
theorem layer_finish_of_mem (h : Ready links u s) {w : Fin n} (hw : w ∈ s.order ++ [u]) :
    (s.finish links u).layer.get w = s.layer.get w := by
  rw [h.layer_finish, if_neg fun hn => hn.1 hw]

/-- Finishing a node does not change what precedes the finished ones. -/
theorem precedes_finish (h : Ready links u s) {v w : Fin n} (hv : v ∈ s.order ++ [u]) :
    Precedes (s.order ++ [u]) w v ↔ Precedes s.order w v := by
  rcases List.mem_append.mp hv with hv | hv
  · exact precedes_concat_of_mem hv
  · cases List.mem_singleton.mp hv
    rw [precedes_concat_self h.notMem_order, precedes_of_notMem h.notMem_order]

/-- A link from an earlier node still leads to a greater layer. -/
theorem below_finish (h : Ready links u s) (w v : Fin n) (hlink : (w, v) ∈ links)
    (hw : Precedes (s.order ++ [u]) w v) :
    (s.finish links u).layer.get w < (s.finish links u).layer.get v := by
  rw [h.layer_finish_of_mem hw.mem]
  by_cases hv : v ∈ s.order ++ [u]
  · rw [h.layer_finish_of_mem hv]
    exact h.below w v hlink ((h.precedes_finish hv).mp hw)
  · have hle : s.layer.get v ≤ (s.finish links u).layer.get v := by
      rw [h.layer_finish]
      split <;> omega
    rcases List.mem_append.mp hw.mem with hmem | hmem
    · have hv' : v ∉ s.order := fun hm => hv (List.mem_append_left _ hm)
      exact Nat.lt_of_lt_of_le (h.below w v hlink ((precedes_of_notMem hv').mpr hmem)) hle
    · cases List.mem_singleton.mp hmem
      rw [h.layer_finish, if_pos ⟨hv, hlink⟩]
      omega

/-- A layer is still one more than that of some earlier predecessor. -/
theorem attained_finish (h : Ready links u s) (v : Fin n)
    (hv : (s.finish links u).layer.get v ≠ 0) : ∃ w, (w, v) ∈ links ∧
      Precedes (s.order ++ [u]) w v ∧
      (s.finish links u).layer.get v = (s.finish links u).layer.get w + 1 := by
  -- the predecessor that was right above the node before `u` was finished
  have hold (hsame : (s.finish links u).layer.get v = s.layer.get v) : ∃ w, (w, v) ∈ links ∧
      Precedes (s.order ++ [u]) w v ∧
      (s.finish links u).layer.get v = (s.finish links u).layer.get w + 1 := by
    obtain ⟨w, hlink, hw, heq⟩ := h.attained v (hsame ▸ hv)
    have hmem : w ∈ s.order ++ [u] := List.mem_append_left _ hw.mem
    refine ⟨w, hlink, ?_, by rw [hsame, heq, h.layer_finish_of_mem hmem]⟩
    by_cases hmemv : v ∈ s.order ++ [u]
    · exact (h.precedes_finish hmemv).mpr hw
    · exact (precedes_of_notMem hmemv).mpr hmem
  by_cases hcond : v ∉ s.order ++ [u] ∧ (u, v) ∈ links
  · by_cases hle : s.layer.get u + 1 ≤ s.layer.get v
    · exact hold (by rw [h.layer_finish, if_pos hcond, Nat.max_eq_left hle])
    · have hmem : u ∈ s.order ++ [u] := List.mem_append_right _ (List.mem_singleton_self u)
      refine ⟨u, hcond.2, (precedes_of_notMem hcond.1).mpr hmem, ?_⟩
      rw [h.layer_finish_of_mem hmem, h.layer_finish, if_pos hcond]
      omega
  · exact hold (by rw [h.layer_finish, if_neg hcond])

/-- Finishing a node that is ready leads to the next state between two steps. -/
theorem finish (h : Ready links u s) : Consistent links (s.finish links u) where
  mem_order v := by
    rw [order_finish, finished_finish, List.mem_append, List.mem_singleton, h.mem_order]
  nodup := by
    rw [order_finish, h.queue_finish, List.append_assoc, List.singleton_append,
      ← List.cons_append, ← List.append_assoc, List.nodup_append]
    refine ⟨h.nodup, (List.nodup_dedup _).filter _, fun v hv w hw hvw => ?_⟩
    subst hvw
    obtain ⟨hlink, hnew, hall⟩ := mem_unlocked.mp hw
    have hnew' : v ∉ s.order ∧ v ≠ u := by simpa using hnew
    have hmem : v ∈ s.queue := by simpa [hnew'] using hv
    -- a node in the queue waits for nothing, but `v` was waiting for `u`
    have hzero := ((h.mem_queue v hnew'.2).mp hmem).2
    rw [h.waiting v hnew'.1 hnew'.2, List.countP_eq_zero] at hzero
    exact hzero u (Links.mem_predecessors.mpr hlink) (by simpa using h.notMem_order)
  waiting v hv := by
    rw [order_finish] at hv ⊢
    exact h.waiting_finish hv
  mem_queue v := by
    rw [order_finish, h.queue_finish, List.mem_append]
    by_cases hv : v ∈ s.order ++ [u]
    · have hq : v ∉ s.queue := fun hq => by
        rcases List.mem_append.mp hv with hv | hv
        · exact List.disjoint_of_nodup_append h.nodup hv (List.mem_cons_of_mem u hq)
        · cases List.mem_singleton.mp hv
          exact (List.nodup_cons.mp (List.nodup_append.mp h.nodup).2.1).1 hq
      simp [hq, hv, mem_unlocked]
    · have hv' : v ∉ s.order ∧ v ≠ u := by simpa using hv
      rw [h.waiting_finish hv, h.mem_queue v hv'.2, h.waiting v hv'.1 hv'.2, mem_unlocked,
        countP_notMem_concat h.notMem_order, Nat.add_eq_zero_iff, List.countP_eq_zero,
        List.count_eq_zero, Links.mem_predecessors]
      simp only [Links.mem_predecessors, decide_eq_true_eq, Decidable.not_not]
      tauto
  below w v hlink hw := h.below_finish w v hlink (by rwa [order_finish] at hw)
  attained v hv := by
    rw [order_finish]
    exact h.attained_finish v hv
  settled v hv hnot w hlink := by
    rw [order_finish] at hv ⊢
    rw [released_finish] at hnot
    rw [h.precedes_finish hv]
    rcases List.mem_append.mp hv with hv | hv
    · exact h.settled v hv hnot w hlink
    · cases List.mem_singleton.mp hv
      exact (precedes_of_notMem h.notMem_order).mpr (h.ready hnot w hlink)

end Ready

/-! ## Releasing a node -/

theorem foldl_max_le_iff {α : Type} (f : α → Nat) (l : List α) (k m : Nat) :
    l.foldl (fun k u => max k (f u)) k ≤ m ↔ k ≤ m ∧ ∀ u ∈ l, f u ≤ m := by
  induction l generalizing k with
  | nil => simp
  | cons u l ih =>
    rw [List.foldl_cons, ih, Nat.max_le, List.forall_mem_cons, and_assoc]

namespace Consistent

/-- The layer given to a released node is the one that it has got already. -/
theorem layerBelow_eq (h : Consistent links s) {v : Fin n} (hv : v ∉ s.order) :
    s.layerBelow links v = s.layer.get v := by
  apply Nat.le_antisymm
  · rw [layerBelow, foldl_max_le_iff]
    refine ⟨Nat.zero_le _, fun u hu => ?_⟩
    obtain ⟨hlink, hf⟩ := List.mem_filter.mp hu
    exact h.below u v (Links.mem_predecessors.mp hlink)
      ((precedes_of_notMem hv).mpr ((h.mem_order u).mpr hf))
  · by_cases hzero : s.layer.get v = 0
    · rw [hzero]
      exact Nat.zero_le _
    · obtain ⟨u, hlink, hu, heq⟩ := h.attained v hzero
      have hle := (foldl_max_le_iff (fun u => s.layer.get u + 1) _ 0 (s.layerBelow links v)).mp
        (Nat.le_refl _)
      rw [heq]
      exact hle.2 u (List.mem_filter.mpr
        ⟨Links.mem_predecessors.mpr hlink, (h.mem_order u).mp hu.mem⟩)

theorem layer_release (h : Consistent links s) {v : Fin n} (hv : v ∉ s.order) :
    (s.release links v).layer = s.layer := by
  rw [release, h.layerBelow_eq hv]
  exact Vector.set_getElem_self v.isLt

/-- A node at the head of the queue is ready. -/
theorem ready_of_queue (h : Consistent links s) {u : Fin n} {rest : List (Fin n)}
    (hq : s.queue = u :: rest) : Ready links u { s with queue := rest } := by
  have hnodup : (s.order ++ u :: rest).Nodup := hq ▸ h.nodup
  obtain ⟨hu, hzero⟩ := (h.mem_queue u).mp (hq ▸ List.mem_cons_self)
  refine ⟨h.mem_order, hnodup, fun v hv _ => h.waiting v hv, fun v hne => ?_, h.below, h.attained,
    h.settled, fun _ w hlink => ?_⟩
  · rw [← h.mem_queue v, hq, List.mem_cons]
    exact ⟨.inr, fun hv => hv.resolve_left hne⟩
  · rw [h.waiting u hu, List.countP_eq_zero] at hzero
    simpa using hzero w (Links.mem_predecessors.mpr hlink)

/-- A released node is ready. -/
theorem ready_of_release (h : Consistent links s) {v : Fin n} (hv : v ∉ s.order)
    (hq : s.queue = []) : Ready links v (s.release links v) := by
  have hnodup : (s.order ++ [v]).Nodup := by
    have hold : s.order.Nodup := (List.nodup_append.mp h.nodup).1
    exact hold.append (List.nodup_singleton v) (by simpa using hv)
  have hlayer := h.layer_release hv
  refine ⟨h.mem_order, ?_, fun w hw hne => ?_, fun w hne => ?_, ?_, ?_, ?_, ?_⟩
  · simpa [release, hq] using hnodup
  · simp only [release, get_set, if_neg hne]
    exact h.waiting w hw
  · simp only [release, get_set, if_neg hne]
    exact h.mem_queue w
  · rw [hlayer]
    exact h.below
  · rw [hlayer]
    exact h.attained
  · intro w hw hnot
    refine h.settled w hw fun hmem => hnot ?_
    simp only [release, List.map_append]
    exact List.mem_append_left _ hmem
  · intro hnot
    exact absurd (by simp [release]) hnot

/-! ## Steps and runs -/

/-- The first node that is left is unfinished, and those before it are finished. -/
theorem firstLeft?_eq_some (h : Consistent links s) {v : Fin n} (hv : s.firstLeft? = some v) :
    v ∉ s.order ∧ ∀ w < v, w ∈ s.order := by
  obtain ⟨hleft, i, hi, hget, hbefore⟩ := List.find?_eq_some_iff_getElem.mp hv
  rw [List.getElem_finRange] at hget
  constructor
  · rw [h.mem_order]
    simpa using hleft
  · intro w hw
    rw [h.mem_order]
    have hwi : w.val < i := by
      rw [← hget] at hw
      exact hw
    simpa using hbefore w.val hwi

/-- If no node is left, all are finished. -/
theorem firstLeft?_eq_none (h : Consistent links s) (hnone : s.firstLeft? = none) (v : Fin n) :
    v ∈ s.order := by
  have := List.find?_eq_none.mp hnone v (List.mem_finRange v)
  rw [h.mem_order]
  simpa using this

/-- A step finishes the head of the queue, or else the first node that is left, which it releases,
or else there is none left. -/
theorem step_cases (h : Consistent links s) :
    (∃ u rest, s.queue = u :: rest ∧ s.step links = { s with queue := rest }.finish links u ∧
      Ready links u { s with queue := rest }) ∨
    (∃ v, s.queue = [] ∧ (v ∉ s.order ∧ ∀ w < v, w ∈ s.order) ∧
      s.step links = (s.release links v).finish links v ∧ Ready links v (s.release links v)) ∨
    ((∀ v, v ∈ s.order) ∧ s.step links = s) := by
  cases hq : s.queue with
  | cons u rest => exact .inl ⟨u, rest, rfl, by rw [step, hq], h.ready_of_queue hq⟩
  | nil =>
    cases hv : s.firstLeft? with
    | some v =>
      have hfirst := h.firstLeft?_eq_some hv
      exact .inr (.inl ⟨v, rfl, hfirst, by simp only [step, hq, hv],
        h.ready_of_release hfirst.1 hq⟩)
    | none => exact .inr (.inr ⟨h.firstLeft?_eq_none hv, by simp only [step, hq, hv]⟩)

/-- A step keeps the state consistent. -/
theorem step (h : Consistent links s) : Consistent links (s.step links) := by
  obtain ⟨u, rest, -, hstep, hready⟩ | ⟨v, -, -, hstep, hready⟩ | ⟨-, hstep⟩ := h.step_cases
  · rw [hstep]
    exact hready.finish
  · rw [hstep]
    exact hready.finish
  · rwa [hstep]

/-- A step finishes one more node while there is one. -/
theorem length_order_step (h : Consistent links s) (hlt : s.order.length < n) :
    (s.step links).order.length = s.order.length + 1 := by
  obtain ⟨u, rest, -, hstep, -⟩ | ⟨v, -, -, hstep, -⟩ | ⟨hall, -⟩ := h.step_cases
  · simp [hstep]
  · simp [hstep, release]
  · obtain ⟨v, hv⟩ := exists_notMem_of_length_lt hlt
    exact absurd (hall v) hv

/-- Every number of steps keeps the state consistent. -/
theorem run (h : Consistent links s) (k : Nat) : Consistent links (run links k s) := by
  induction k generalizing s with
  | zero => exact h
  | succ k ih => exact ih h.step

/-- Every step of a sweep finishes one node, as long as there are any. -/
theorem length_order_run (h : Consistent links s) (k : Nat) (hle : s.order.length + k ≤ n) :
    (Sweep.run links k s).order.length = s.order.length + k := by
  induction k generalizing s with
  | zero => rfl
  | succ k ih =>
    have hstep := h.length_order_step (by omega)
    rw [Sweep.run, ih h.step (by omega), hstep]
    omega

end Consistent

/-! ## The whole sweep -/

/-- The state after a step for every node. -/
theorem consistent_run_start (links : Links n) : Consistent links (run links n (start links)) :=
  (consistent_start links).run n

/-- The order lists every node once. -/
theorem perm_order_run_start (links : Links n) :
    (run links n (start links)).order.Perm (List.finRange n) := by
  have h := consistent_run_start links
  have hlen := (consistent_start links).length_order_run n (by simp [start])
  refine (List.subperm_of_subset (List.nodup_append.mp h.nodup).1
    fun v _ => List.mem_finRange v).perm_of_length_le ?_
  rw [hlen, List.length_finRange]
  exact Nat.le_add_left ..

theorem mem_order_run_start (links : Links n) (v : Fin n) :
    v ∈ (run links n (start links)).order :=
  (perm_order_run_start links).mem_iff.mpr (List.mem_finRange v)

theorem nodup_order_run_start (links : Links n) : (run links n (start links)).order.Nodup :=
  (perm_order_run_start links).nodup_iff.mpr (List.nodup_finRange n)

end Sweep

end RuleFlow
