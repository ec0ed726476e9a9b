import RuleFlow.Form
import Mathlib.Data.List.Basic

/-!
# Trees that come back from their form

A form has a row for each comparison at the top of a tree, and `Form.toLogic` chooses the shape of
the tree it makes by the number of rows.  A tree therefore comes back from its form exactly if the
form holds all of it and the tree has the shape that its number of rows calls for: a group of one
comparison comes back as the bare comparison, and a group of none as nothing.
-/

namespace RuleFlow.Form

/-- Where all children are comparisons, the rows are the children. -/
theorem map_leaf_filterMap_condition? {children : List Logic}
    (h : children.all Logic.isLeaf = true) :
    (children.filterMap Logic.condition?).map Logic.leaf = children := by
  induction children with
  | nil => rfl
  | cons t ts ih =>
    obtain ⟨ht, hts⟩ := Bool.and_eq_true_iff.mp (List.all_cons ▸ h)
    cases t with
    | leaf c =>
      rw [List.filterMap_cons_some (by rfl), List.map_cons, ih hts]
    | group kind us => cases ht

theorem all_isLeaf_map_leaf (rows : List Condition) :
    (rows.map Logic.leaf).all Logic.isLeaf = true := by
  rw [List.all_map, List.all_eq_true]
  exact fun _ _ => rfl

/-- A form makes a group exactly of two and more rows. -/
theorem toLogic_eq_group_iff {f : Form} {kind : Combinator} {children : List Logic} :
    f.toLogic = some (.group kind children) ↔
      f.combinator = kind ∧ f.rows.map Logic.leaf = children ∧ 2 ≤ f.rows.length := by
  obtain ⟨rows, combinator⟩ := f
  match rows with
  | [] => simp [toLogic]
  | [row] => simp [toLogic]
  | row :: row' :: rows => simp [toLogic]

/-- A group comes back from its form exactly if all its children are comparisons and there are two
of them at least. -/
theorem toLogic_ofLogic_group_iff (kind : Combinator) (children : List Logic) :
    (ofLogic (some (.group kind children))).form.toLogic = some (.group kind children) ↔
      children.all Logic.isLeaf = true ∧ 2 ≤ children.length := by
  rw [ofLogic, toLogic_eq_group_iff]
  constructor
  · rintro ⟨-, hrows, hlen⟩
    refine ⟨hrows ▸ all_isLeaf_map_leaf _, ?_⟩
    calc 2 ≤ (children.filterMap Logic.condition?).length := hlen
      _ ≤ children.length := List.length_filterMap_le ..
  · rintro ⟨hleaf, hlen⟩
    have hrows := map_leaf_filterMap_condition? hleaf
    refine ⟨rfl, hrows, ?_⟩
    rwa [← hrows, List.length_map] at hlen

/-- A tree comes back from its form exactly if the form holds all of it and it is no group of fewer
than two children. -/
theorem toLogic_ofLogic_eq_iff (tree : Option Logic) :
    (ofLogic tree).form.toLogic = tree ↔
      (ofLogic tree).complete = true ∧
        ∀ kind children, tree = some (.group kind children) → 2 ≤ children.length := by
  match tree with
  | none => simp [ofLogic, empty, toLogic]
  | some (.leaf c) => simp [ofLogic, toLogic]
  | some (.group kind children) =>
    rw [toLogic_ofLogic_group_iff, ofLogic]
    refine and_congr_right fun _ => ⟨?_, fun h => h kind children rfl⟩
    rintro h _ _ ⟨⟩
    exact h

/-- A complete form does not always give its tree back. -/
theorem exists_complete_and_toLogic_ne : ¬ ∀ tree : Option Logic,
    (ofLogic tree).complete = true → (ofLogic tree).form.toLogic = tree := by
  intro h
  have hgroup := h (some (.group .and [.leaf ⟨"a", .equal, .number (.ofNat 1)⟩])) rfl
  cases hgroup

end RuleFlow.Form
