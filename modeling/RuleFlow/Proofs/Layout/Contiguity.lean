import Mathlib.Data.List.AList
import RuleFlow.Proofs.Layout.Axis
import RuleFlow.Proofs.Layout.Compiled

/-!
# No gaps

A node that is not on the uppermost layer lies right below one of its predecessors, also if it was
released from a cycle.  So where a layer is in use the layer above it is, and the layers of every
graph are the numbers below some height (`Sweep.Consistent.exists_height`).

The slots are handed out along the order of the sweep, with a counter for each layer (`Allotment`).
In whatever way the layers alternate in the order, a counter stands at the number of nodes that its
layer has got so far (`Allotment.Counts`).  So a node gets the slot that is the number of nodes of
its layer before it, and at the end there are as many counters as layers.
-/

namespace RuleFlow

/-! ## Numbers below a number -/

/-- A list that has with every number the one before it has the numbers below some number. -/
theorem exists_mem_iff_lt {l : List ℕ} (h : ∀ k, k + 1 ∈ l → k ∈ l) :
    ∃ m, ∀ k, k ∈ l ↔ k < m := by
  have hmissing : ∃ k, k ∉ l := by
    obtain ⟨k, hk⟩ := Infinite.exists_notMem_finset l.toFinset
    exact ⟨k, mt List.mem_toFinset.mpr hk⟩
  refine ⟨Nat.find hmissing, fun k => ⟨fun hk => ?_, fun hk => ?_⟩⟩
  · -- from a number above the least that is missing the list would go down to it
    by_contra hle
    exact Nat.find_spec hmissing (Nat.decreasingInduction (fun j _ => h j) hk (not_lt.mp hle))
  · exact not_not.mp (Nat.find_min hmissing hk)

theorem length_eq_of_mem_iff_lt {l : List ℕ} (hnodup : l.Nodup) {m : ℕ}
    (h : ∀ k, k ∈ l ↔ k < m) : l.length = m := by
  have hperm : l.Perm (List.range m) :=
    (List.perm_ext_iff_of_nodup hnodup List.nodup_range).mpr fun k => by rw [h, List.mem_range]
  rw [hperm.length_eq, List.length_range]

/-! ## Layers in use -/

namespace Sweep.Consistent

variable {n : ℕ} {links : Links n} {s : Sweep n}

/-- Above a layer in use, the layer is in use. -/
theorem exists_layer_eq_of_succ (h : Consistent links s) {k : ℕ}
    (hk : ∃ v, s.layer.get v = k + 1) : ∃ u, s.layer.get u = k := by
  obtain ⟨v, hv⟩ := hk
  obtain ⟨u, -, -, heq⟩ := h.attained v (by omega)
  exact ⟨u, by omega⟩

/-- The layers in use are the numbers below the height. -/
theorem exists_height (h : Consistent links s) :
    ∃ height ≤ n, ∀ k, (∃ v, s.layer.get v = k) ↔ k < height := by
  have hmem : ∀ k, k ∈ (List.finRange n).map s.layer.get ↔ ∃ v, s.layer.get v = k := by simp
  have hsucc : ∀ k, k + 1 ∈ (List.finRange n).map s.layer.get →
      k ∈ (List.finRange n).map s.layer.get := by
    intro k hk
    rw [hmem] at hk ⊢
    exact h.exists_layer_eq_of_succ hk
  obtain ⟨height, hheight⟩ := exists_mem_iff_lt hsucc
  refine ⟨height, ?_, fun k => by rw [← hmem, hheight]⟩
  have hsub : (List.range height).Subperm ((List.finRange n).map s.layer.get) :=
    List.nodup_range.subperm fun k hk => (hheight k).mpr (List.mem_range.mp hk)
  simpa using hsub.length_le

end Sweep.Consistent

/-- The layer count of a graph without empty layers. -/
theorem PlacedGraph.layerCount_eq {κ : Type} {g : PlacedGraph κ} {height : ℕ}
    (h : ∀ k, (∃ m ∈ g.nodes, m.layer = k) ↔ k < height) :
    g.layerCount = min height (2 ^ 64 - 1) := by
  have hle := (Sweep.foldl_max_le_iff (fun m : PlacedNode κ => layersUpTo m.layer) g.nodes 0
    g.layerCount).mp le_rfl
  apply le_antisymm
  · rw [layerCount, Sweep.foldl_max_le_iff]
    refine ⟨Nat.zero_le _, fun m hm => ?_⟩
    have hlt := (h m.layer).mp ⟨m, hm, rfl⟩
    rw [layersUpTo]
    omega
  · by_cases hzero : height = 0
    · omega
    · -- the greatest layer whose number of layers fits into 64 bits
      obtain ⟨m, hm, hlayer⟩ := (h (min height (2 ^ 64 - 1) - 1)).mpr (by omega)
      have hupTo := hle.2 m hm
      rw [layersUpTo, hlayer] at hupTo
      omega

/-! ## Counters -/

/-- The slots handed out so far. -/
structure Allotment (n : ℕ) where
  slot : Vector ℕ n
  /-- The next slot of each layer that has got a node. -/
  next : AList fun _ : ℕ => ℕ

namespace Allotment

variable {n : ℕ} {layer : Fin n → ℕ} {order : List (Fin n)} {a : Allotment n}

def start : Allotment n := ⟨.replicate n 0, ∅⟩

/-- Gives a node the next slot of its layer. -/
def give (layer : Fin n → ℕ) (a : Allotment n) (v : Fin n) : Allotment n :=
  let k := (a.next.lookup (layer v)).getD 0
  { slot := a.slot.set v k v.isLt, next := a.next.insert (layer v) (k + 1) }

/-- Gives the nodes of a list their slots, one after the other. -/
def ofOrder (layer : Fin n → ℕ) (order : List (Fin n)) : Allotment n :=
  order.foldl (give layer) start

/-- What has been handed out to the nodes of a list. -/
structure Counts (layer : Fin n → ℕ) (order : List (Fin n)) (a : Allotment n) : Prop where
  next : ∀ k, (a.next.lookup k).getD 0 = order.countP (layer · == k)
  mem_next : ∀ k, k ∈ a.next ↔ k ∈ order.map layer
  slot : ∀ v ∈ order, a.slot.get v = (Sweep.upTo order v).countP (layer · == layer v)

theorem counts_start : Counts layer [] start where
  next k := by simp [start]
  mem_next k := by simp [start]
  slot v hv := by cases hv

/-- A node moves the counter of its layer, and those of no other. -/
theorem Counts.give (h : Counts layer order a) {v : Fin n} (hv : v ∉ order) :
    Counts layer (order ++ [v]) (a.give layer v) where
  next k := by
    rw [Allotment.give, List.countP_append, List.countP_singleton, ← h.next]
    by_cases hk : k = layer v
    · subst hk
      rw [AList.lookup_insert, Option.getD_some, if_pos (beq_self_eq_true _)]
    · rw [AList.lookup_insert_ne hk, if_neg (by simpa using Ne.symm hk), Nat.add_zero]
  mem_next k := by
    rw [Allotment.give, AList.mem_insert, h.mem_next, List.map_append, List.mem_append,
      List.map_singleton, List.mem_singleton, or_comm]
  slot w hw := by
    rw [Allotment.give, Sweep.get_set, h.next]
    by_cases hwv : w = v
    · rw [if_pos hwv, hwv, Sweep.upTo_concat_self hv]
    · have hmem : w ∈ order := by simpa [hwv] using hw
      rw [if_neg hwv, h.slot w hmem, Sweep.upTo_concat_of_mem hmem]

/-- The last node of a list is the last to get a slot, so what has been handed out to all of them
grows with the list at its end. -/
theorem counts_ofOrder (layer : Fin n → ℕ) (hnodup : order.Nodup) :
    Counts layer order (ofOrder layer order) := by
  induction order using List.reverseRecOn with
  | nil => exact counts_start
  | append_singleton order v ih =>
    obtain ⟨hnodup, -, hdisjoint⟩ := List.nodup_append.mp hnodup
    have hv : v ∉ order := fun hmem => hdisjoint v hmem v (List.mem_singleton_self v) rfl
    rw [ofOrder, List.foldl_concat]
    exact (ih hnodup).give hv

end Allotment

/-! ## The layout -/

namespace FlowGraph

/-- The remark on the layout tells how many different layers the nodes have. -/
theorem laidOut_note_iff (g : FlowGraph) (nodes layers : ℕ) :
    .laidOut nodes layers ∈ g.layoutNotes ↔ nodes = g.nodes.length ∧
      layers = ((assignLayers g.nodes g.edges).order.map
        (assignLayers g.nodes g.edges).layer.get).eraseDups.length := by
  simp [layoutNotes]

/-- There are no gaps in the layout of any graph.  The layers in use are the numbers below the
height of the graph.  The height is the layer count, as far as numbers of 64 bits go, the number of
counters by which the slots are handed out, and the number of layers in the remark on the layout.
Every node is placed in the slot that it was given, and along the order of the sweep the slots of a
layer are the numbers from zero on, one for each of its nodes. -/
theorem layout_gapless {κ : Type} [Coordinate κ] (g : FlowGraph) (config : LayoutConfig κ) :
    let sweep := assignLayers g.nodes g.edges
    let allotment := Allotment.ofOrder sweep.layer.get sweep.order
    ∃ height ≤ g.nodes.length,
      (∀ k, (∃ m ∈ (g.layout config).nodes, m.layer = k) ↔ k < height) ∧
      (g.layout config).layerCount = min height (2 ^ 64 - 1) ∧
      allotment.next.keys.length = height ∧
      (∀ nodes layers, .laidOut nodes layers ∈ g.layoutNotes ↔
        nodes = g.nodes.length ∧ layers = height) ∧
      (g.layout config).nodes = (List.finRange g.nodes.length).map (fun v =>
        .inSlot config (g.nodes.get v) (sweep.layer.get v) (allotment.slot.get v)) ∧
      ∀ k, (sweep.order.filter (sweep.layer.get · == k)).map allotment.slot.get =
        List.range ((g.layout config).nodes.countP (·.layer == k)) := by
  intro sweep allotment
  have hperm : sweep.order.Perm (List.finRange g.nodes.length) := Sweep.perm_order_run_start _
  have hnodup : sweep.order.Nodup := Sweep.nodup_order_run_start _
  have hall : ∀ v, v ∈ sweep.order := Sweep.mem_order_run_start _
  have hcounts : allotment.Counts sweep.layer.get sweep.order := Allotment.counts_ofOrder _ hnodup
  have hslot : allotment.slot.get = sweep.slot := funext fun v => hcounts.slot v (hall v)
  obtain ⟨height, hle, hheight⟩ :=
    (Sweep.consistent_run_start (linksOf g.nodes g.edges)).exists_height
  have hlayers : ∀ k, k ∈ sweep.order.map sweep.layer.get ↔ k < height := by
    intro k
    simp only [List.mem_map, hall, true_and]
    exact hheight k
  have hplaced : ∀ k, (∃ m ∈ (g.layout config).nodes, m.layer = k) ↔ k < height := by
    intro k
    simp [← hheight k, layout, assignLayers]
  refine ⟨height, hle, hplaced, PlacedGraph.layerCount_eq hplaced, ?_, fun nodes layers => ?_, ?_,
    fun k => ?_⟩
  · refine length_eq_of_mem_iff_lt allotment.next.keys_nodup fun k => ?_
    rw [← AList.mem_keys, hcounts.mem_next, hlayers]
  · have hlength := length_eq_of_mem_iff_lt (nodup_eraseDups _) fun k => by
      rw [List.mem_eraseDups, hlayers]
    rw [laidOut_note_iff, hlength]
  · rw [hslot]
    rfl
  · rw [hslot, Sweep.map_slot_filter hnodup, layout, List.countP_map, ← hperm.countP_eq,
      List.countP_eq_length_filter]
    rfl

end FlowGraph

end RuleFlow
