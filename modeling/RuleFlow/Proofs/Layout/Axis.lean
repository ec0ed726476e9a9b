import Mathlib.Data.List.Sort
import RuleFlow.Proofs.Layout.Centering

/-!
# The common axis

With exact coordinates centering brings the middles of all layers onto the middle of one of them,
the widest layer, and of equally wide ones that with the lowest number (`WidestLayer`).  The scan
for it takes the layers in ascending order and replaces the best one by wider ones only, so what it
finds stands behind narrower layers and before layers that are no wider.  After centering the
extents of all layers have one middle, and a second centering has nothing to move
(`shiftOf_center`).
-/

namespace RuleFlow

variable {nodes : List (PlacedNode ℚ)} {config : LayoutConfig ℚ} {k k' : ℕ} {e e' widest : Extent ℚ}

/-! ## The widest layer -/

theorem nodup_eraseDups {α : Type} [BEq α] [LawfulBEq α] (l : List α) : l.eraseDups.Nodup := by
  induction hn : l.length using Nat.strong_induction_on generalizing l with
  | h n ih =>
    cases l with
    | nil => simp
    | cons a l =>
      rw [List.eraseDups_cons, List.nodup_cons, List.mem_eraseDups]
      have hlt : (l.filter fun b => !b == a).length < n :=
        (List.length_filter_le ..).trans_lt (hn ▸ Nat.lt_succ_self l.length)
      exact ⟨by simp, ih _ hlt _ rfl⟩

theorem layersOf_pairwise_lt {κ : Type} [Coordinate κ] (nodes : List (PlacedNode κ)) :
    (layersOf nodes).Pairwise (· < ·) := by
  have hsorted : (layersOf nodes).Pairwise (· ≤ ·) := List.pairwise_mergeSort' _ _
  have hnodup : (layersOf nodes).Nodup :=
    (List.mergeSort_perm _ _).nodup_iff.mpr (nodup_eraseDups _)
  exact hsorted.imp₂ (fun _ _ hle hne => lt_of_le_of_ne hle hne) hnodup

/-- The layer than which none is wider and no lower one is as wide. -/
structure WidestLayer (nodes : List (PlacedNode ℚ)) (k : ℕ) (e : Extent ℚ) : Prop where
  spans : e.Spans (xsOn nodes k)
  width_le : ∀ k' (e' : Extent ℚ), e'.Spans (xsOn nodes k') → e'.width ≤ e.width
  width_lt : ∀ k' < k, ∀ e' : Extent ℚ, e'.Spans (xsOn nodes k') → e'.width < e.width

/-- There is only one widest layer. -/
theorem WidestLayer.eq (h : WidestLayer nodes k e) (h' : WidestLayer nodes k' e') : e = e' := by
  obtain hlt | rfl | hlt := lt_trichotomy k k'
  · exact absurd (h'.width_lt k hlt e h.spans) (h.width_le k' e' h'.spans).not_gt
  · exact h.spans.unique h'.spans
  · exact absurd (h.width_lt k' hlt e' h'.spans) (h'.width_le k e h.spans).not_gt

/-- The scan for the widest layer finds it. -/
theorem exists_widestLayer (h : widestOf? nodes = some widest) :
    ∃ k, WidestLayer nodes k widest := by
  obtain ⟨before, after, heq, hbefore, hafter⟩ := widest?_eq_some h
  obtain ⟨lower, upper, hlayers, rfl, hupper⟩ := List.filterMap_eq_append_iff.mp heq
  obtain ⟨unused, k, higher, rfl, hunused, hk, rfl⟩ := List.filterMap_eq_cons_iff.mp hupper
  have hsorted := layersOf_pairwise_lt nodes
  rw [hlayers, List.pairwise_append, List.pairwise_append, List.pairwise_cons] at hsorted
  -- the extent of a layer is among those before or after the one found, as the layer is
  have hcases : ∀ k' (e' : Extent ℚ), e'.Spans (xsOn nodes k') →
      e'.width < widest.width ∨ k ≤ k' ∧ e'.width ≤ widest.width := by
    intro k' e' he'
    have hextent := extentOf?_eq_some.mpr he'
    have hmem := mem_layersOf_of_spans he'
    rw [hlayers] at hmem
    rcases List.mem_append.mp hmem with hlower | hupper
    · exact .inl (hbefore e' (List.mem_filterMap.mpr ⟨k', hlower, hextent⟩))
    rcases List.mem_append.mp hupper with hnone | hrest
    · rw [hunused k' hnone] at hextent
      cases hextent
    rcases List.mem_cons.mp hrest with rfl | hhigher
    · rw [hk, Option.some.injEq] at hextent
      exact .inr ⟨le_rfl, hextent ▸ le_rfl⟩
    · have hlt := hsorted.2.1.2.1.1 k' hhigher
      exact .inr ⟨hlt.le, hafter e' (List.mem_filterMap.mpr ⟨k', hhigher, hextent⟩)⟩
  refine ⟨k, extentOf?_eq_some.mp hk, fun k' e' he' => ?_, fun k' hlt e' he' => ?_⟩
  · obtain hwidth | ⟨-, hwidth⟩ := hcases k' e' he'
    · exact hwidth.le
    · exact hwidth
  · obtain hwidth | ⟨hle, -⟩ := hcases k' e' he'
    · exact hwidth
    · exact absurd hlt hle.not_gt

theorem WidestLayer.widestOf?_eq (h : WidestLayer nodes k e) : widestOf? nodes = some e := by
  obtain ⟨n, hn, -⟩ := mem_xsOn.mp h.spans.low.1
  obtain ⟨widest, hw⟩ := exists_widestOf? hn
  obtain ⟨k', hk'⟩ := exists_widestLayer hw
  rw [hw, h.eq hk']

/-! ## After centering -/

/-- The widest layer is not moved. -/
theorem WidestLayer.shiftOf_eq_zero (h : WidestLayer nodes k e) : shiftOf nodes k = 0 := by
  rw [shiftOf_eq h.widestOf?_eq h.spans]
  ring

/-- The ends of a centered layer are as far from those of the widest on one side as on the other. -/
theorem add_eq_of_spans_center (hw : widestOf? nodes = some widest)
    (h : e.Spans (xsOn (center nodes config) k)) : e.low + e.high = widest.low + widest.high := by
  obtain ⟨a, ha, rfl⟩ := spans_center.mp h
  rw [shiftOf_eq hw ha]
  ring

/-- A centered layer lies within the widest. -/
theorem within_of_spans_center (hw : widestOf? nodes = some widest)
    (h : e.Spans (xsOn (center nodes config) k)) : widest.low ≤ e.low ∧ e.high ≤ widest.high := by
  have hsum := add_eq_of_spans_center hw h
  obtain ⟨a, ha, rfl⟩ := spans_center.mp h
  have hwidth := (widest_of_widestOf? hw).width_le k a ha
  rw [Extent.width_eq, Extent.width_eq] at hwidth
  dsimp only at hsum ⊢
  constructor <;> linarith

/-- There is nothing left to move. -/
theorem shiftOf_center (nodes : List (PlacedNode ℚ)) (config : LayoutConfig ℚ) (k : ℕ) :
    shiftOf (center nodes config) k = 0 := by
  rw [shiftOf]
  split
  case _ widest' e hw' he =>
    obtain ⟨k', hk'⟩ := exists_widestLayer hw'
    obtain ⟨a, ha, -⟩ := spans_center.mp hk'.spans
    obtain ⟨n, hn, -⟩ := mem_xsOn.mp ha.low.1
    obtain ⟨widest, hw⟩ := exists_widestOf? hn
    rw [add_eq_of_spans_center hw hk'.spans,
      add_eq_of_spans_center hw (extentOf?_eq_some.mp he), sub_self, zero_div]
  case _ => rfl

theorem center_center (nodes : List (PlacedNode ℚ)) (config config' : LayoutConfig ℚ) :
    center (center nodes config) config' = center nodes config := by
  rw [center_eq_map (center nodes config)]
  simp only [shiftOf_center, add_zero, List.map_id']

/-- Centering moves every layer by an amount of its own, which depends on the nodes alone, and
changes nothing else.  The widest layer stays where it is, the boxes of all layers come to have its
middle, all layers come to lie within it, and centering once more changes nothing. -/
theorem center_aligned (nodes : List (PlacedNode ℚ)) :
    ∃ shift : ℕ → ℚ,
      (∀ config, center nodes config =
        nodes.map fun n => { n with x := n.x + shift n.layer }) ∧
      (∀ config config', center (center nodes config) config' = center nodes config) ∧
      (nodes ≠ [] → ∃ k e, WidestLayer nodes k e) ∧
      ∀ k e, WidestLayer nodes k e → shift k = 0 ∧
        ∀ config, ∀ n ∈ center nodes config, ∃ e' : Extent ℚ,
          e'.Spans (xsOn (center nodes config) n.layer) ∧
          (e'.low + e'.high + config.nodeWidth) / 2 = (e.low + e.high + config.nodeWidth) / 2 ∧
          e.low ≤ e'.low ∧ e'.high ≤ e.high := by
  refine ⟨shiftOf nodes, center_eq_map nodes, center_center nodes, fun hne => ?_, fun k e h => ?_⟩
  · obtain ⟨n, hn⟩ := List.exists_mem_of_ne_nil _ hne
    obtain ⟨widest, hw⟩ := exists_widestOf? hn
    obtain ⟨k, hk⟩ := exists_widestLayer hw
    exact ⟨k, widest, hk⟩
  · refine ⟨h.shiftOf_eq_zero, fun config n hn => ?_⟩
    obtain ⟨e', he'⟩ := exists_spans hn
    refine ⟨e', he', ?_, within_of_spans_center h.widestOf?_eq he'⟩
    rw [add_eq_of_spans_center h.widestOf?_eq he']

end RuleFlow
