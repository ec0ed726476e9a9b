import Mathlib.Algebra.Order.Field.Rat
import Mathlib.Algebra.Order.Group.Abs
import Mathlib.Order.Bounds.Basic
import Mathlib.Tactic.Linarith
import Mathlib.Tactic.Ring
import RuleFlow.Proofs.Layout.Slots

/-!
# Centering with exact coordinates

Whatever the coordinates are, `center` changes nothing but the x of a node (`map_center`).  With
rational coordinates it moves every layer as a whole: `center_eq_map` says by how much, and
`Widest` and `Extent.Spans` what the amount is made of.  The width of the nodes cancels in
it, since the boxes of every layer reach equally far beyond the greatest x.
-/

namespace RuleFlow

/-! ## What centering keeps -/

section

variable {κ : Type} [Coordinate κ]

/-- What is read of the nodes, their x aside, is the same after centering. -/
theorem map_center {α : Type} {f : PlacedNode κ → α} (hf : ∀ n x, f { n with x := x } = f n)
    (nodes : List (PlacedNode κ)) (config : LayoutConfig κ) :
    (center nodes config).map f = nodes.map f := by
  rw [center]
  split
  case _ => rfl
  case _ widest _ =>
    rw [List.map_map]
    refine List.map_congr_left fun n _ => ?_
    rw [Function.comp_apply]
    split
    · exact hf n _
    · rfl

theorem FlowGraph.map_node_layout (g : FlowGraph) (config : LayoutConfig κ) :
    (g.layout config).nodes.map (·.node) = g.nodes := by
  simp only [layout, List.map_map, Function.comp_def]
  exact List.map_get_finRange g.nodes

/-- The nodes of an arranged graph are those of the graph. -/
theorem FlowGraph.map_node_arrange (g : FlowGraph) (config : LayoutConfig κ) :
    (g.arrange config).nodes.map (·.node) = g.nodes :=
  (map_center (fun _ _ => rfl) _ config).trans (g.map_node_layout config)

end

/-! ## Exact coordinates -/

instance : Coordinate ℚ where
  ofNat n := n
  add x y := x + y
  sub x y := x - y
  mul x y := x * y
  half x := x / 2
  min x y := Min.min x y
  max x y := Max.max x y
  lt x y := decide (x < y)

@[simp] theorem Coordinate.lt_rat (x y : ℚ) : Coordinate.lt x y = decide (x < y) := rfl

/-! ## Extents -/

namespace Extent

variable {e e' : Extent ℚ} {xs : List ℚ}

theorem width_eq (e : Extent ℚ) : e.width = e.high - e.low := rfl

theorem middle_eq (config : LayoutConfig ℚ) (e : Extent ℚ) :
    e.middle config = (e.low + e.high + config.nodeWidth) / 2 := rfl

/-- An extent reaches from the least to the greatest of a list. -/
structure Spans (e : Extent ℚ) (xs : List ℚ) : Prop where
  low : IsLeast {x | x ∈ xs} e.low
  high : IsGreatest {x | x ∈ xs} e.high

/-- A list has one extent only. -/
theorem Spans.unique (h : e.Spans xs) (h' : e'.Spans xs) : e = e' := by
  obtain ⟨low, high⟩ := e
  obtain ⟨low', high'⟩ := e'
  rw [mk.injEq]
  exact ⟨h.low.unique h'.low, h.high.unique h'.high⟩

theorem Spans.ne_nil (h : e.Spans xs) : xs ≠ [] := List.ne_nil_of_mem h.low.1

/-- Moved by one amount, the items span the moved extent. -/
theorem Spans.map_add (h : e.Spans xs) (d : ℚ) :
    (Extent.mk (e.low + d) (e.high + d)).Spans (xs.map (· + d)) where
  low := by
    refine ⟨List.mem_map.mpr ⟨e.low, h.low.1, rfl⟩, ?_⟩
    rintro _ hx
    obtain ⟨x, hmem, rfl⟩ := List.mem_map.mp hx
    exact add_le_add_left (h.low.2 hmem) d
  high := by
    refine ⟨List.mem_map.mpr ⟨e.high, h.high.1, rfl⟩, ?_⟩
    rintro _ hx
    obtain ⟨x, hmem, rfl⟩ := List.mem_map.mp hx
    exact add_le_add_left (h.high.2 hmem) d

/-- One more x makes an extent wider or leaves it. -/
theorem Spans.concat (h : e.Spans xs) (x : ℚ) :
    (Extent.mk (min e.low x) (max e.high x)).Spans (xs ++ [x]) := by
  have hset : {y | y ∈ xs ++ [x]} = insert x {y | y ∈ xs} := by
    ext y
    simp [or_comm]
  constructor
  · rw [hset, min_comm]
    exact h.low.insert x
  · rw [hset, max_comm]
    exact h.high.insert x

theorem spans_singleton (x : ℚ) : (Extent.mk x x).Spans [x] := by
  constructor <;> simp [IsLeast, IsGreatest, lowerBounds, upperBounds]

theorem exists_ofXs? (h : xs ≠ []) : ∃ e : Extent ℚ, ofXs? xs = some e := by
  cases xs with
  | nil => exact absurd rfl h
  | cons x xs => exact ⟨_, rfl⟩

/-- The extent that is computed is from the least x to the greatest. -/
theorem spans_of_ofXs? (h : ofXs? xs = some e) : e.Spans xs := by
  induction xs using List.reverseRecOn generalizing e with
  | nil => cases h
  | append_singleton xs x ih =>
    cases xs with
    | nil =>
      cases h
      exact spans_singleton x
    | cons y ys =>
      rw [List.cons_append, ofXs?, List.foldl_append] at h
      cases h
      exact (ih rfl).concat x

/-- The extent of a list is what the list spans. -/
theorem ofXs?_eq_some : ofXs? xs = some e ↔ e.Spans xs := by
  refine ⟨spans_of_ofXs?, fun h => ?_⟩
  obtain ⟨e', he'⟩ := exists_ofXs? h.ne_nil
  rw [he', (spans_of_ofXs? he').unique h]

end Extent

/-! ## The widest layer -/

/-- A later extent is the widest so far only if it is wider. -/
theorem widest?_concat (es : List (Extent ℚ)) (e : Extent ℚ) : widest? (es ++ [e]) =
    some (match widest? es with
      | some b => if b.width < e.width then e else b
      | none => e) := by
  rw [widest?, List.foldl_append, List.foldl_cons, List.foldl_nil, ← widest?]
  cases widest? es with
  | none => rfl
  | some b =>
    by_cases hlt : b.width < e.width <;> simp [hlt]

/-- The widest of a list of extents stands behind narrower ones, and no wider ones follow. -/
theorem widest?_eq_some {es : List (Extent ℚ)} {e : Extent ℚ} (h : widest? es = some e) :
    ∃ before after, es = before ++ e :: after ∧ (∀ e' ∈ before, e'.width < e.width) ∧
      ∀ e' ∈ after, e'.width ≤ e.width := by
  induction es using List.reverseRecOn generalizing e with
  | nil => cases h
  | append_singleton es e' ih =>
    rw [widest?_concat, Option.some.injEq] at h
    cases hes : widest? es with
    | none =>
      have hnil : es = [] := by
        rcases List.eq_nil_or_concat es with rfl | ⟨es, e'', rfl⟩
        · rfl
        · rw [List.concat_eq_append, widest?_concat] at hes
          cases hes
      subst hnil
      simp only [hes] at h
      exact ⟨[], [], by simp [h]⟩
    | some b =>
      obtain ⟨before, after, rfl, hbefore, hafter⟩ := ih hes
      simp only [hes] at h
      split_ifs at h with hlt
      · subst h
        refine ⟨_, [], rfl, ?_, by simp⟩
        simp only [List.forall_mem_append, List.forall_mem_cons]
        exact ⟨fun e he => (hbefore e he).trans hlt, hlt,
          fun e he => (hafter e he).trans_lt hlt⟩
      · subst h
        refine ⟨before, after ++ [e'], by simp, hbefore, ?_⟩
        simp only [List.forall_mem_append, List.forall_mem_singleton]
        exact ⟨hafter, not_lt.mp hlt⟩

/-! ## Layers -/

/-- The extent of the widest layer, the lowest of equally wide ones. -/
def widestOf? (nodes : List (PlacedNode ℚ)) : Option (Extent ℚ) :=
  widest? ((layersOf nodes).filterMap (extentOf? nodes))

variable {nodes : List (PlacedNode ℚ)} {config : LayoutConfig ℚ} {k : ℕ} {e : Extent ℚ}

/-- A layer has an extent if it has a node. -/
theorem extentOf?_eq_some : extentOf? nodes k = some e ↔ e.Spans (xsOn nodes k) :=
  Extent.ofXs?_eq_some

theorem mem_layersOf {κ : Type} [Coordinate κ] {nodes : List (PlacedNode κ)} :
    k ∈ layersOf nodes ↔ ∃ n ∈ nodes, n.layer = k := by
  rw [layersOf, List.mem_mergeSort, List.mem_eraseDups, List.mem_map]

theorem mem_xsOn {x : ℚ} : x ∈ xsOn nodes k ↔ ∃ n ∈ nodes, n.layer = k ∧ n.x = x := by
  simp [xsOn, and_assoc]

/-- Every layer in use has an extent. -/
theorem exists_spans {n : PlacedNode ℚ} (hn : n ∈ nodes) :
    ∃ e : Extent ℚ, e.Spans (xsOn nodes n.layer) := by
  have hx : n.x ∈ xsOn nodes n.layer := mem_xsOn.mpr ⟨n, hn, rfl, rfl⟩
  obtain ⟨e, he⟩ := Extent.exists_ofXs? (List.ne_nil_of_mem hx)
  exact ⟨e, Extent.spans_of_ofXs? he⟩

theorem mem_layersOf_of_spans (h : e.Spans (xsOn nodes k)) : k ∈ layersOf nodes := by
  obtain ⟨n, hn, hk, -⟩ := mem_xsOn.mp h.low.1
  exact mem_layersOf.mpr ⟨n, hn, hk⟩

/-- The extent of a layer than which none is wider. -/
structure Widest (nodes : List (PlacedNode ℚ)) (e : Extent ℚ) : Prop where
  exists_layer : ∃ k, e.Spans (xsOn nodes k)
  width_le : ∀ k (e' : Extent ℚ), e'.Spans (xsOn nodes k) → e'.width ≤ e.width

/-- The layer that the others are centered on is a widest one. -/
theorem widest_of_widestOf? (h : widestOf? nodes = some e) : Widest nodes e := by
  obtain ⟨before, after, heq, hbefore, hafter⟩ := widest?_eq_some h
  have hmem : ∀ e', e' ∈ before ++ e :: after ↔ ∃ k ∈ layersOf nodes, e'.Spans (xsOn nodes k) := by
    intro e'
    rw [← heq, List.mem_filterMap]
    simp only [extentOf?_eq_some]
  constructor
  · obtain ⟨k, -, hk⟩ := (hmem e).mp (by simp)
    exact ⟨k, hk⟩
  · intro k e' he'
    have := (hmem e').mpr ⟨k, mem_layersOf_of_spans he', he'⟩
    rcases List.mem_append.mp this with hb | ha
    · exact (hbefore e' hb).le
    · rcases List.mem_cons.mp ha with rfl | ha
      · exact le_rfl
      · exact hafter e' ha

/-- If there is a node, there is a widest layer. -/
theorem exists_widestOf? {n : PlacedNode ℚ} (hn : n ∈ nodes) : ∃ e, widestOf? nodes = some e := by
  obtain ⟨e, he⟩ := exists_spans hn
  have hmem : e ∈ (layersOf nodes).filterMap (extentOf? nodes) :=
    List.mem_filterMap.mpr ⟨n.layer, mem_layersOf_of_spans he, extentOf?_eq_some.mpr he⟩
  rw [widestOf?]
  rcases List.eq_nil_or_concat ((layersOf nodes).filterMap (extentOf? nodes)) with
    hnil | ⟨es, e', heq⟩
  · simp [hnil] at hmem
  · rw [heq, List.concat_eq_append, widest?_concat]
    exact ⟨_, rfl⟩

/-! ## Shifts -/

/-- How far a layer moves when it is centered. -/
def shiftOf (nodes : List (PlacedNode ℚ)) (k : ℕ) : ℚ :=
  match widestOf? nodes, extentOf? nodes k with
  | some widest, some e => (widest.low + widest.high - (e.low + e.high)) / 2
  | _, _ => 0

/-- Centering moves every layer by its shift. -/
theorem center_eq_map (nodes : List (PlacedNode ℚ)) (config : LayoutConfig ℚ) :
    center nodes config = nodes.map fun n => { n with x := n.x + shiftOf nodes n.layer } := by
  rw [center, ← widestOf?]
  cases hw : widestOf? nodes with
  | none => simp [shiftOf, hw]
  | some widest =>
    refine List.map_congr_left fun n _ => ?_
    cases he : extentOf? nodes n.layer with
    | none => simp [shiftOf, hw, he]
    | some e =>
      have hshift : shiftOf nodes n.layer = widest.middle config - e.middle config := by
        rw [shiftOf, hw, he, Extent.middle_eq, Extent.middle_eq]
        ring
      rw [hshift]
      rfl

/-- All nodes of a layer are moved by the shift of the layer. -/
theorem xsOn_center (nodes : List (PlacedNode ℚ)) (config : LayoutConfig ℚ) (k : ℕ) :
    xsOn (center nodes config) k = (xsOn nodes k).map (· + shiftOf nodes k) := by
  rw [center_eq_map, xsOn, xsOn, List.filter_map, List.map_map, List.map_map]
  refine List.map_congr_left fun n hn => ?_
  have hk : n.layer = k := by simpa using (List.mem_filter.mp hn).2
  simp [hk]

/-- The extents after centering are those before it, moved. -/
theorem spans_center : e.Spans (xsOn (center nodes config) k) ↔ ∃ a : Extent ℚ,
    a.Spans (xsOn nodes k) ∧ e = ⟨a.low + shiftOf nodes k, a.high + shiftOf nodes k⟩ := by
  rw [xsOn_center]
  constructor
  · intro h
    have hne : xsOn nodes k ≠ [] := by simpa using h.ne_nil
    obtain ⟨a, ha⟩ := Extent.exists_ofXs? hne
    have ha := Extent.spans_of_ofXs? ha
    exact ⟨a, ha, h.unique (ha.map_add _)⟩
  · rintro ⟨a, ha, rfl⟩
    exact ha.map_add _

/-- The shift is what is between the middle of the layer and that of the widest one. -/
theorem shiftOf_eq {widest : Extent ℚ} (hw : widestOf? nodes = some widest)
    (he : e.Spans (xsOn nodes k)) :
    shiftOf nodes k = (widest.low + widest.high - (e.low + e.high)) / 2 := by
  rw [shiftOf, hw, extentOf?_eq_some.mpr he]

end RuleFlow
