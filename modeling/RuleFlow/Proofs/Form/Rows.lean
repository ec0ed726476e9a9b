import RuleFlow.Proofs.Form.Editing

/-!
# Rows survive the tree

`Form.toLogic` chooses the shape of a tree by the number of rows, and `Form.ofLogic` goes by that
shape.  Through all three shapes the rows come back as they are (`ofLogic_toLogic`).  The combinator
comes back from a group only, as the other shapes have no place for it.  A form can change its shape
when blank rows are dropped; the comparisons of its tree are the rows that stay.
-/

namespace RuleFlow

theorem Logic.conditionsOfAll_map_leaf (rows : List Condition) :
    conditionsOfAll (rows.map leaf) = rows := by
  induction rows with
  | nil => rfl
  | cons row rows ih => rw [List.map_cons, conditionsOfAll, ih, conditions, List.singleton_append]

namespace Form

/-- The comparisons of a form's tree are its rows, whatever the shape of the tree. -/
theorem conditions_toLogic (f : Form) : f.toLogic.elim [] Logic.conditions = f.rows := by
  obtain ⟨rows, kind⟩ := f
  match rows with
  | [] => rfl
  | [row] => rfl
  | row :: row' :: rows => exact Logic.conditionsOfAll_map_leaf _

/-- The combinator is kept by a group alone. -/
theorem combinator_ofLogic_toLogic (f : Form) :
    (ofLogic f.toLogic).form.combinator =
      if 2 ≤ f.rows.length then f.combinator else .and := by
  obtain ⟨rows, kind⟩ := f
  match rows with
  | [] => rfl
  | [row] => rfl
  | row :: row' :: rows => exact (if_pos (Nat.le_add_left 2 rows.length)).symm

/-- A row stays unless its field is white space all through. -/
theorem rows_withoutBlankRows (f : Form) : f.withoutBlankRows.rows =
    f.rows.filter fun row => row.field.toList.any fun c => !Text.isBlankChar c := by
  refine List.filter_congr fun row _ => ?_
  rw [Text.isBlank, List.not_all_eq_any_not]

/-- The tree of a form is loaded whole and with the rows of the form in their order, under the
form's combinator if there are two rows or more and under `and` otherwise, and the loaded form makes
the same tree.  Once the blank rows are dropped, the comparisons of the tree are the rows whose
field has something to see, in their order. -/
theorem rows_survive (f : Form) :
    (let load := ofLogic f.toLogic
     load.complete = true ∧ load.form.rows = f.rows ∧
      load.form.combinator = (if 2 ≤ f.rows.length then f.combinator else .and) ∧
      load.form.toLogic = f.toLogic) ∧
    f.withoutBlankRows.toLogic.elim [] Logic.conditions =
      f.rows.filter fun row => row.field.toList.any fun c => !Text.isBlankChar c := by
  obtain ⟨hcomplete, hrows, htree⟩ := ofLogic_toLogic f
  refine ⟨⟨hcomplete, hrows, combinator_ofLogic_toLogic f, htree⟩, ?_⟩
  rw [conditions_toLogic, rows_withoutBlankRows]

end Form

end RuleFlow
