import Mathlib.Data.List.Sort
import Mathlib.Order.Interval.Set.Defs
import RuleFlow.Loading
import RuleFlow.Proofs.Double.Rounding
import RuleFlow.Proofs.Json.Lexeme
import RuleFlow.Proofs.Layout.Centering

/-!
# No overlap within a layer

With exact coordinates the nodes of a layer stand in a row without gaps, whatever the graph: the
slots of a layer are the numbers from zero on, and centering moves the layer as a whole.  Before
centering every layer starts at zero, so the widest one is not moved and the others are moved
inwards.
-/

namespace RuleFlow

/-! ## Settings -/

namespace LayoutConfig

/-- The settings as exact numbers. -/
def exact (c : LayoutConfig Double) : LayoutConfig ℚ :=
  ⟨c.layerSpacing.value, c.nodeSpacing.value, c.nodeWidth.value, c.nodeHeight.value⟩

/-- The settings of a configuration that is accepted are usable. -/
theorem isUsable_of_ofText {text : String} {c : LayoutConfig Double} (h : ofText text = .ok c) :
    ∀ setting ∈ c.settings, isUsable setting.2 = true := by
  rw [ofText] at h
  obtain ⟨c', -, h⟩ := Json.bind_ok h
  obtain ⟨⟨⟩, hvalid, h⟩ := Json.bind_ok h
  cases h
  rw [validate] at hvalid
  split at hvalid
  case _ => cases hvalid
  case _ hnone =>
    intro setting hmem
    have := List.find?_eq_none.mp hnone setting hmem
    simpa using this

end LayoutConfig

/-! ## Evenly spaced rows -/

/-- In some order, the numbers follow each other at a distance. -/
def EvenlySpaced (s : ℚ) (xs : List ℚ) : Prop :=
  ∃ low, xs.Perm ((List.range xs.length).map fun j : ℕ => low + j * s)

namespace EvenlySpaced

variable {s : ℚ} {xs : List ℚ}

theorem map_add (h : EvenlySpaced s xs) (d : ℚ) : EvenlySpaced s (xs.map (· + d)) := by
  obtain ⟨low, hperm⟩ := h
  refine ⟨low + d, ?_⟩
  have hrow : ((List.range xs.length).map fun j : ℕ => low + j * s).map (· + d) =
      (List.range xs.length).map fun j : ℕ => low + d + j * s := by
    rw [List.map_map]
    exact List.map_congr_left fun j _ => add_right_comm low (j * s) d
  rw [List.length_map, ← hrow]
  exact hperm.map (· + d)

/-- Sorted, each number is followed by the next. -/
theorem isChain_mergeSort (h : EvenlySpaced s xs) (hs : 0 ≤ s) :
    (xs.mergeSort (· ≤ ·)).IsChain fun x y => y - x = s := by
  obtain ⟨low, hperm⟩ := h
  have hsorted : ((List.range xs.length).map fun j : ℕ => low + j * s).Pairwise (· ≤ ·) := by
    rw [List.pairwise_map]
    refine List.pairwise_lt_range.imp fun {i j} hij => ?_
    have : (i : ℚ) * s ≤ j * s := by gcongr
    linarith
  have heq : xs.mergeSort (· ≤ ·) = (List.range xs.length).map fun j : ℕ => low + j * s :=
    ((List.mergeSort_perm xs _).trans hperm).eq_of_pairwise' (List.pairwise_mergeSort' _ xs) hsorted
  rw [heq, List.isChain_map, List.isChain_range]
  intro j _
  rw [Nat.cast_succ]
  ring

/-- Any two of the numbers are at least the distance apart. -/
theorem pairwise_le_abs (h : EvenlySpaced s xs) (hs : 0 ≤ s) :
    xs.Pairwise fun x y => s ≤ |x - y| := by
  obtain ⟨low, hperm⟩ := h
  have hsymm : ∀ {x y : ℚ}, s ≤ |x - y| → s ≤ |y - x| := fun h => by rwa [abs_sub_comm]
  rw [hperm.pairwise_iff hsymm, List.pairwise_map]
  refine List.pairwise_lt_range.imp fun {i j} hij => ?_
  have hone : (1 : ℚ) ≤ j - i := by
    have : ((i + 1 : ℕ) : ℚ) ≤ j := by exact_mod_cast hij
    push_cast at this
    linarith
  calc s ≤ (j - i) * s := le_mul_of_one_le_left hs hone
    _ = -(low + i * s - (low + j * s)) := by ring
    _ ≤ |low + i * s - (low + j * s)| := neg_le_abs _

end EvenlySpaced

/-! ## Arranged layers -/

/-- The boxes of a layer stand side by side, none sticks out on the left of zero, and none on either
side of a widest layer. -/
structure SideBySide (config : LayoutConfig ℚ) (nodes : List (PlacedNode ℚ)) : Prop where
  apart : nodes.Pairwise fun m n => m.layer = n.layer → config.nodeWidth ≤ |m.x - n.x|
  even : ∀ k, ((xsOn nodes k).mergeSort (· ≤ ·)).IsChain fun x y =>
    y - x = max config.nodeSpacing config.nodeWidth
  nonneg : ∀ n ∈ nodes, 0 ≤ n.x
  exists_widest : nodes ≠ [] → ∃ e, Widest nodes e
  within : ∀ e, Widest nodes e → ∀ n ∈ nodes,
    Set.Icc n.x (n.x + config.nodeWidth) ⊆ Set.Icc e.low (e.high + config.nodeWidth)

section

variable (g : FlowGraph) {config : LayoutConfig ℚ} {k : ℕ} {e widest : Extent ℚ}

theorem evenlySpaced_layout (config : LayoutConfig ℚ) (k : ℕ) :
    EvenlySpaced config.effectiveNodeSpacing (xsOn (g.layout config).nodes k) := by
  refine ⟨0, ?_⟩
  simp only [zero_add]
  exact g.xsOn_layout_perm config k

theorem evenlySpaced_arrange (config : LayoutConfig ℚ) (k : ℕ) :
    EvenlySpaced config.effectiveNodeSpacing (xsOn (g.arrange config).nodes k) := by
  have hcenter : xsOn (g.arrange config).nodes k = _ := xsOn_center _ config k
  rw [hcenter]
  exact (evenlySpaced_layout g config k).map_add _

/-- Before centering every layer starts at zero, since its first slot is in use. -/
theorem low_eq_zero (hs : 0 ≤ config.effectiveNodeSpacing)
    (h : e.Spans (xsOn (g.layout config).nodes k)) : e.low = 0 := by
  have hmem (x : ℚ) : x ∈ xsOn (g.layout config).nodes k ↔
      ∃ j < (xsOn (g.layout config).nodes k).length, j * config.effectiveNodeSpacing = x := by
    rw [(g.xsOn_layout_perm config k).mem_iff, List.mem_map]
    simp only [List.mem_range]
    rfl
  have hzero : IsLeast {x | x ∈ xsOn (g.layout config).nodes k} 0 := by
    constructor
    · exact (hmem 0).mpr ⟨0, List.length_pos_iff.mpr h.ne_nil, by simp⟩
    · intro x hx
      obtain ⟨j, -, rfl⟩ := (hmem x).mp hx
      positivity
  exact h.low.unique hzero

/-- A layer moves to the right by half of what it is narrower than the widest. -/
theorem shiftOf_layout (hs : 0 ≤ config.effectiveNodeSpacing)
    (hw : widestOf? (g.layout config).nodes = some widest)
    (h : e.Spans (xsOn (g.layout config).nodes k)) :
    shiftOf (g.layout config).nodes k = (widest.high - e.high) / 2 ∧ e.high ≤ widest.high := by
  obtain ⟨⟨k', hk'⟩, hle⟩ := widest_of_widestOf? hw
  have hlow := low_eq_zero g hs h
  have hlow' := low_eq_zero g hs hk'
  have hwidth := hle k e h
  rw [Extent.width_eq, Extent.width_eq, hlow, hlow', sub_zero, sub_zero] at hwidth
  rw [shiftOf_eq hw h, hlow, hlow', zero_add, zero_add]
  exact ⟨rfl, hwidth⟩

/-- After centering the x of all nodes lie between zero and the greatest x of the widest layer. -/
theorem x_arrange_mem (hs : 0 ≤ config.effectiveNodeSpacing)
    (hw : widestOf? (g.layout config).nodes = some widest) {n : PlacedNode ℚ}
    (hn : n ∈ (g.arrange config).nodes) : 0 ≤ n.x ∧ n.x ≤ widest.high := by
  have hcenter : (g.arrange config).nodes = _ := center_eq_map (g.layout config).nodes config
  rw [hcenter, List.mem_map] at hn
  obtain ⟨m, hm, rfl⟩ := hn
  obtain ⟨e, he⟩ := exists_spans hm
  obtain ⟨hshift, hle⟩ := shiftOf_layout g hs hw he
  have hx : m.x ∈ xsOn (g.layout config).nodes m.layer := mem_xsOn.mpr ⟨m, hm, rfl, rfl⟩
  have hlow : e.low ≤ m.x := he.low.2 hx
  have hhigh : m.x ≤ e.high := he.high.2 hx
  rw [low_eq_zero g hs he] at hlow
  change 0 ≤ m.x + shiftOf _ m.layer ∧ m.x + shiftOf _ m.layer ≤ widest.high
  rw [hshift]
  constructor <;> linarith

/-- Every widest layer stays where it is, from zero on. -/
theorem eq_of_widest_arrange (hs : 0 ≤ config.effectiveNodeSpacing)
    (hw : widestOf? (g.layout config).nodes = some widest)
    (he : Widest (g.arrange config).nodes e) :
    e = ⟨0, widest.high⟩ := by
  obtain ⟨⟨k, hk⟩, hle⟩ := he
  obtain ⟨a, ha, rfl⟩ := spans_center.mp hk
  obtain ⟨k', hk'⟩ := (widest_of_widestOf? hw).exists_layer
  obtain ⟨hshift, hahigh⟩ := shiftOf_layout g hs hw ha
  have hwidth := hle k' _ (spans_center.mpr ⟨widest, hk', rfl⟩)
  rw [Extent.width_eq, Extent.width_eq, add_sub_add_right_eq_sub, add_sub_add_right_eq_sub,
    low_eq_zero g hs ha, low_eq_zero g hs hk', sub_zero, sub_zero] at hwidth
  rw [hshift, low_eq_zero g hs ha, Extent.mk.injEq]
  constructor <;> linarith

/-- What holds of any two items of a layer holds of any two items on one layer. -/
theorem pairwise_of_layers {R : PlacedNode ℚ → PlacedNode ℚ → Prop} {nodes : List (PlacedNode ℚ)}
    (h : ∀ k, (nodes.filter (·.layer == k)).Pairwise R) :
    nodes.Pairwise fun m n => m.layer = n.layer → R m n := by
  rw [List.pairwise_iff_getElem]
  intro i j hi hj hij hlayer
  have hk := List.pairwise_filter.mp (h nodes[j].layer)
  exact List.pairwise_iff_getElem.mp hk i j hi hj hij (by simp [hlayer]) (by simp)

theorem sideBySide_arrange (hwidth : 0 ≤ config.nodeWidth) :
    SideBySide config (g.arrange config).nodes := by
  have hle : config.nodeWidth ≤ config.effectiveNodeSpacing := le_max_right ..
  have hs : 0 ≤ config.effectiveNodeSpacing := hwidth.trans hle
  have hwidest {n} (hn : n ∈ (g.arrange config).nodes) :
      ∃ widest, widestOf? (g.layout config).nodes = some widest := by
    have hlength := congrArg List.length (g.map_node_arrange config)
    rw [← g.map_node_layout config, List.length_map, List.length_map] at hlength
    obtain ⟨m, hm⟩ := List.exists_mem_of_length_pos (hlength ▸ List.length_pos_of_mem hn)
    exact exists_widestOf? hm
  refine ⟨pairwise_of_layers fun k => ?_,
    fun k => (evenlySpaced_arrange g config k).isChain_mergeSort hs,
    fun n hn => ?_, fun hne => ?_, fun e he n hn => ?_⟩
  · have hapart := (evenlySpaced_arrange g config k).pairwise_le_abs hs
    exact (List.pairwise_map.mp hapart).imp fun h => hle.trans h
  · obtain ⟨widest, hw⟩ := hwidest hn
    exact (x_arrange_mem g hs hw hn).1
  · obtain ⟨n, hn⟩ := List.exists_mem_of_ne_nil _ hne
    obtain ⟨e, he⟩ := exists_widestOf? hn
    exact ⟨e, widest_of_widestOf? he⟩
  · obtain ⟨widest, hw⟩ := hwidest hn
    obtain ⟨hzero, hhigh⟩ := x_arrange_mem g hs hw hn
    rw [eq_of_widest_arrange g hs hw he]
    exact Set.Icc_subset_Icc hzero (by linarith)

end

/-- In every arranged graph under a configuration that is accepted, the boxes of a layer stand side
by side. -/
theorem FlowGraph.sideBySide_arrange_of_ofText (g : FlowGraph) (text : String)
    (c : LayoutConfig Double) (hc : LayoutConfig.ofText text = .ok c) :
    (g.arrange c.exact).nodes.map (·.node) = g.nodes ∧
      SideBySide c.exact (g.arrange c.exact).nodes := by
  refine ⟨g.map_node_arrange _, sideBySide_arrange g ?_⟩
  have husable : LayoutConfig.isUsable c.nodeWidth = true :=
    LayoutConfig.isUsable_of_ofText hc ("node_width", c.nodeWidth) (by simp [LayoutConfig.settings])
  rw [LayoutConfig.isUsable, Bool.and_eq_true, Bool.not_eq_true'] at husable
  exact Double.value_nonneg husable.1 husable.2

/-- Settings with nodes wider than their spacing, under either spelling of a key. -/
def crowdedText : String := "\x7b\"nodeSpacing\":50,\"node_width\":120.5\x7d"

/-- What `crowdedText` stands for. -/
def crowdedConfig : LayoutConfig Double :=
  { LayoutConfig.standard with nodeSpacing := .ofNat 50, nodeWidth := ⟨0x405e200000000000⟩ }

/-- A graph with a cycle, a loop, two nodes of one id and an edge that leads nowhere. -/
def tangledGraph : FlowGraph where
  nodes := ["a", "b", "a", "c", "d"].map fun id => ⟨id, .condition id (.group .and 0)⟩
  edges := [.between "a" "b" none, .between "b" "a" none, .between "b" "b" none,
    .between "a" "c" none, .between "a" "d" none, .between "c" "x" none]

theorem sideBySide_arrange_tangledGraph : LayoutConfig.ofText crowdedText = .ok crowdedConfig ∧
    (tangledGraph.arrange crowdedConfig.exact).nodes.map (·.node) = tangledGraph.nodes ∧
    SideBySide crowdedConfig.exact (tangledGraph.arrange crowdedConfig.exact).nodes := by
  have hc : LayoutConfig.ofText crowdedText = .ok crowdedConfig := by decide +kernel
  exact ⟨hc, tangledGraph.sideBySide_arrange_of_ofText crowdedText crowdedConfig hc⟩

end RuleFlow
