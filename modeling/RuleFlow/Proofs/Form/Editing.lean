import RuleFlow.Logic.Wording
import RuleFlow.Proofs.Form.RoundTrip

/-!
# Editing a tree through its form

A tree that is loaded into a form and saved again may lose its groups, but only the first time: what
a form makes is loaded with the rows of the form and makes itself again (`ofLogic_toLogic`).  Where
the form held all of the tree, the tree made of it need not be the same, and yet its infix text is:
a group of one comparison reads as the comparison, and a group of none as no condition.
-/

namespace RuleFlow

namespace Logic

/-- What stands at the top of a tree: a comparison itself, or the children of a group. -/
def top : Logic → List Logic
  | .leaf c => [.leaf c]
  | .group _ children => children

theorem infixText_group_nil (kind : Combinator) : (group kind []).infixText = "always" := rfl

theorem infixText_group_singleton (kind : Combinator) (c : Condition) :
    (group kind [leaf c]).infixText = (leaf c).infixText := rfl

end Logic

namespace Form

/-- The rows are the comparisons at the top, in order. -/
theorem map_leaf_rows_ofLogic (t : Logic) :
    (ofLogic (some t)).form.rows.map Logic.leaf = t.top.filter Logic.isLeaf := by
  cases t with
  | leaf c => rfl
  | group kind children =>
    change (children.filterMap Logic.condition?).map Logic.leaf = children.filter Logic.isLeaf
    rw [List.map_filterMap, ← List.filterMap_eq_filter]
    refine List.filterMap_congr fun t _ => ?_
    cases t <;> rfl

/-- A form holds less than the tree exactly if the tree is a group with a group among its
children. -/
theorem complete_ofLogic_eq_false_iff (t : Logic) :
    (ofLogic (some t)).complete = false ↔
      ∃ kind children, t = .group kind children ∧
        ∃ kind' children', .group kind' children' ∈ children := by
  cases t with
  | leaf c => simp [ofLogic]
  | group kind children =>
    have hgroup (s : Logic) : s.isLeaf = false ↔ ∃ kind' children', s = .group kind' children' := by
      cases s <;> simp [Logic.isLeaf]
    constructor
    · intro h
      obtain ⟨s, hs, hleaf⟩ := List.all_eq_false.mp h
      obtain ⟨kind', children', rfl⟩ := (hgroup s).mp (Bool.not_eq_true _ ▸ hleaf)
      exact ⟨kind, children, rfl, kind', children', hs⟩
    · rintro ⟨_, _, ⟨⟩, kind', children', hs⟩
      exact List.all_eq_false.mpr ⟨_, hs, Bool.false_ne_true⟩

/-- The tree that a form makes is loaded whole, with the rows of the form, and makes itself
again. -/
theorem ofLogic_toLogic (f : Form) :
    (ofLogic f.toLogic).complete = true ∧ (ofLogic f.toLogic).form.rows = f.rows ∧
      (ofLogic f.toLogic).form.toLogic = f.toLogic := by
  obtain ⟨rows, kind⟩ := f
  match rows with
  | [] => exact ⟨rfl, rfl, rfl⟩
  | [row] => exact ⟨rfl, rfl, rfl⟩
  | row :: row' :: rows =>
    set all := row :: row' :: rows with hall
    have htree : toLogic ⟨all, kind⟩ = some (.group kind (all.map .leaf)) := rfl
    have hrows : (all.map Logic.leaf).filterMap Logic.condition? = all := by
      rw [List.filterMap_map]
      exact List.filterMap_some
    rw [htree, ofLogic, hrows]
    exact ⟨all_isLeaf_map_leaf all, rfl, htree⟩

/-- If the form holds all of a tree, the tree that it makes has the infix text of the tree. -/
theorem elim_infixText_toLogic_ofLogic {t : Logic} (h : (ofLogic (some t)).complete = true) :
    (ofLogic (some t)).form.toLogic.elim "always" Logic.infixText = t.infixText := by
  cases t with
  | leaf c => rfl
  | group kind children =>
    have hchildren := map_leaf_filterMap_condition? h
    rw [ofLogic]
    generalize children.filterMap Logic.condition? = rows at hchildren
    subst hchildren
    rcases rows with _ | ⟨c, _ | ⟨c', rows⟩⟩
    · exact (Logic.infixText_group_nil kind).symm
    · exact (Logic.infixText_group_singleton kind c).symm
    · rfl

/-- Editing settles after one cycle.  The rows are the comparisons at the top of the tree, and the
form tells exactly when a group is lost; the tree that is made of the form is loaded whole, with the
same rows, and made again as it is.  A tree of which nothing was lost keeps its infix text. -/
theorem ofLogic_toLogic_ofLogic (t : Logic) :
    let load := ofLogic (some t)
    let t' := load.form.toLogic
    load.form.rows.map Logic.leaf = t.top.filter Logic.isLeaf ∧
    (load.complete = false ↔ ∃ kind children, t = .group kind children ∧
      ∃ kind' children', .group kind' children' ∈ children) ∧
    ((ofLogic t').complete = true ∧ (ofLogic t').form.rows = load.form.rows ∧
      (ofLogic t').form.toLogic = t') ∧
    (load.complete = true → t'.elim "always" Logic.infixText = t.infixText) :=
  ⟨map_leaf_rows_ofLogic t, complete_ofLogic_eq_false_iff t, ofLogic_toLogic _,
    elim_infixText_toLogic_ofLogic⟩

/-- A group of one comparison, which a form holds whole and does not give back. -/
def loneGroup : Logic := .group .or [.leaf ⟨"total", .lessThan, .null⟩]

theorem ofLogic_toLogic_ofLogic_loneGroup :
    (ofLogic (some loneGroup)).complete = true ∧
    (ofLogic (some loneGroup)).form.toLogic = some (.leaf ⟨"total", .lessThan, .null⟩) ∧
    (ofLogic (some loneGroup)).form.toLogic.elim "always" Logic.infixText = loneGroup.infixText :=
  ⟨rfl, rfl, (ofLogic_toLogic_ofLogic loneGroup).2.2.2 rfl⟩

end Form

end RuleFlow
