import RuleFlow.Summary
import RuleFlow.Proofs.Logic.Phrase

/-!
# Groups without a leaf

Normalizing a tree removes the groups without a leaf and nothing else: a tree vanishes exactly if it
has no leaf, and what is left of any other tree has its comparisons in their order, is no deeper,
and is left as it is by a second pass.  A tree without a leaf that is inserted among the children of
some group (`Inserted`) is therefore not to be seen in anything that is made of the normalized tree.

A group without a leaf may take the groups around it along, as many levels as there are.  Here this
is a fact about lists: `normalizeAll` keeps the places in a list apart
(`normalizeAll_eq_filterMap`), and a group is normalized by its list of children alone
(`normalize_group_congr`).
-/

namespace RuleFlow.Logic

variable {s t t' u : Logic}

/-! ## What is left -/

mutual

/-- The leaves of a tree are its comparisons. -/
theorem leafCount_eq : ∀ t : Logic, t.leafCount = t.conditions.length
  | .leaf c => rfl
  | .group kind children => by rw [leafCount, leafCountOfAll_eq children, conditions]

theorem leafCountOfAll_eq : ∀ ts : List Logic, leafCountOfAll ts = (conditionsOfAll ts).length
  | [] => rfl
  | t :: ts => by
    rw [leafCountOfAll, leafCount_eq t, leafCountOfAll_eq ts, conditionsOfAll, List.length_append]

end

/-- A tree vanishes exactly if it has no leaf. -/
theorem normalize_eq_none_iff_leafCount : t.normalize = none ↔ t.leafCount = 0 := by
  rw [normalize_eq_none_iff, leafCount_eq, List.length_eq_zero_iff]

theorem normalizeAll_eq_filterMap (ts : List Logic) : normalizeAll ts = ts.filterMap normalize := by
  induction ts with
  | nil => rfl
  | cons t ts ih =>
    rw [normalizeAll, List.filterMap_cons, ih]
    cases t.normalize <;> rfl

theorem normalize_group_of_ne_nil (kind : Combinator) {children : List Logic}
    (h : normalizeAll children ≠ []) :
    (group kind children).normalize = some (group kind (normalizeAll children)) := by
  rw [normalize]
  cases hall : normalizeAll children with
  | nil => exact absurd hall h
  | cons u us => rfl

mutual

/-- Nothing is removed from a tree without empty groups. -/
theorem normalize_of_noEmptyGroup : ∀ {t : Logic}, t.NoEmptyGroup → t.normalize = some t
  | .leaf c, _ => rfl
  | .group kind children, h => by
    obtain ⟨hne, hall⟩ := noEmptyGroup_group.mp h
    have hchildren := normalizeAll_of_noEmptyGroup hall
    rw [← hchildren] at hne
    rw [normalize_group_of_ne_nil kind hne, hchildren]

/-- Trees without empty groups stay as they are. -/
theorem normalizeAll_of_noEmptyGroup : ∀ {ts : List Logic}, (∀ t ∈ ts, t.NoEmptyGroup) →
    normalizeAll ts = ts
  | [], _ => rfl
  | t :: ts, h => by
    obtain ⟨ht, hts⟩ := List.forall_mem_cons.mp h
    rw [normalizeAll, normalize_of_noEmptyGroup ht, normalizeAll_of_noEmptyGroup hts]

end

mutual

/-- Normalizing makes no tree deeper. -/
theorem depth_normalize_le : ∀ {t s : Logic}, t.normalize = some s → s.depth ≤ t.depth
  | .leaf c, _, h => by
    cases h
    exact Nat.le_refl _
  | .group kind children, s, h => by
    have hne : normalizeAll children ≠ [] := by
      intro hnil
      simp [normalize, hnil] at h
    rw [normalize_group_of_ne_nil kind hne, Option.some.injEq] at h
    have hle := depthOfAll_normalizeAll_le children
    rw [← h, depth, depth]
    omega

theorem depthOfAll_normalizeAll_le : ∀ ts : List Logic,
    depthOfAll (normalizeAll ts) ≤ depthOfAll ts
  | [] => Nat.le_refl _
  | t :: ts => by
    have hts := depthOfAll_normalizeAll_le ts
    rw [normalizeAll, depthOfAll]
    cases ht : t.normalize with
    | none => exact Nat.le_trans hts (Nat.le_max_right ..)
    | some s =>
      have hs := depth_normalize_le ht
      rw [depthOfAll]
      omega

end

/-! ## Trees without a leaf among the children of a group -/

/-- `Inserted u t t'` says that `t'` is `t` with `u` inserted at some place among the children of
some group. -/
inductive Inserted (u : Logic) : Logic → Logic → Prop
  | here (kind : Combinator) (before after : List Logic) :
      Inserted u (.group kind (before ++ after)) (.group kind (before ++ u :: after))
  | inside (kind : Combinator) (before after : List Logic) {t t' : Logic} (h : Inserted u t t') :
      Inserted u (.group kind (before ++ t :: after)) (.group kind (before ++ t' :: after))

/-- A group is normalized by what is left of its children. -/
theorem normalize_group_congr (kind : Combinator) {children children' : List Logic}
    (h : normalizeAll children = normalizeAll children') :
    (group kind children).normalize = (group kind children').normalize := by
  rw [normalize, normalize, h]

/-- Where a tree without a leaf was inserted, normalizing leaves no trace of it. -/
theorem Inserted.normalize_eq (h : Inserted u t t') (hu : u.leafCount = 0) :
    t'.normalize = t.normalize := by
  have hnone := normalize_eq_none_iff_leafCount.mpr hu
  induction h with
  | here kind before after =>
    apply normalize_group_congr
    simp only [normalizeAll_eq_filterMap, List.filterMap_append, List.filterMap_cons, hnone]
  | inside kind before after _ ih =>
    apply normalize_group_congr
    simp only [normalizeAll_eq_filterMap, List.filterMap_append, List.filterMap_cons, ih]

/-- The infix text is made of the normalized tree. -/
theorem infixText_congr (h : t'.normalize = t.normalize) : t'.infixText = t.infixText := by
  rw [infixText, infixText, h]

/-- Rules with the same tree and the same trigger have the same graph and the same sentence. -/
theorem compile_congr (h : t'.normalize = t.normalize) (rule : Rule) (actions : List Action)
    (executions : List Execution) :
    Bundle.compile ⟨{ rule with logic := some t' }, actions, executions⟩ =
        Bundle.compile ⟨{ rule with logic := some t }, actions, executions⟩ ∧
      Rule.describe { rule with logic := some t' } actions =
        Rule.describe { rule with logic := some t } actions := by
  have htree : Rule.tree? { rule with logic := some t' } =
      Rule.tree? { rule with logic := some t } := h
  constructor
  · rw [Bundle.compile, Bundle.compile, htree]
    rfl
  · rw [Rule.describe, Rule.describe, htree]

/-- Normalizing removes exactly the groups without a leaf.  A tree with a leaf keeps its
comparisons, gets no deeper and has no empty group, so that a second pass changes nothing; and a
tree without a leaf can be inserted anywhere without a change in the graph, the sentence and the
infix text. -/
theorem normalize_removes_leafless (t : Logic) :
    (t.normalize = none ↔ t.leafCount = 0) ∧
    (∀ s, t.normalize = some s → s.NoEmptyGroup ∧ s.conditions = t.conditions ∧
      s.depth ≤ t.depth ∧ s.normalize = some s) ∧
    ∀ u t' : Logic, u.leafCount = 0 → Inserted u t t' →
      t'.normalize = t.normalize ∧ t'.infixText = t.infixText ∧
      ∀ (rule : Rule) (actions : List Action) (executions : List Execution),
        Bundle.compile ⟨{ rule with logic := some t' }, actions, executions⟩ =
          Bundle.compile ⟨{ rule with logic := some t }, actions, executions⟩ ∧
        Rule.describe { rule with logic := some t' } actions =
          Rule.describe { rule with logic := some t } actions := by
  refine ⟨normalize_eq_none_iff_leafCount, fun s hs => ?_, fun u t' hu hinserted => ?_⟩
  · have hfull := noEmptyGroup_normalize hs
    exact ⟨hfull, conditions_of_normalize hs, depth_normalize_le hs,
      normalize_of_noEmptyGroup hfull⟩
  · have hsame := hinserted.normalize_eq hu
    exact ⟨hsame, infixText_congr hsame, compile_congr hsame⟩

/-- A group whose only other child is an empty group. -/
def hollowTree : Logic := .group .and [.leaf ⟨"paid", .equal, .bool true⟩, .group .or []]

/-- Groups in groups, and no leaf. -/
def hollowGroup : Logic := .group .or [.group .and [], .group .or [.group .and []]]

theorem normalize_removes_leafless_hollowTree :
    hollowGroup.leafCount = 0 ∧
    Inserted hollowGroup hollowTree
      (.group .and [.leaf ⟨"paid", .equal, .bool true⟩, .group .or [hollowGroup]]) ∧
    hollowTree.normalize = some (.group .and [.leaf ⟨"paid", .equal, .bool true⟩]) ∧
    (group .and [.leaf ⟨"paid", .equal, .bool true⟩, .group .or [hollowGroup]]).normalize =
      hollowTree.normalize := by
  have hinserted : Inserted hollowGroup hollowTree
      (.group .and [.leaf ⟨"paid", .equal, .bool true⟩, .group .or [hollowGroup]]) :=
    .inside .and [.leaf ⟨"paid", .equal, .bool true⟩] [] (.here .or [] [])
  exact ⟨rfl, hinserted, rfl, ((normalize_removes_leafless hollowTree).2.2 _ _ rfl hinserted).1⟩

end RuleFlow.Logic
