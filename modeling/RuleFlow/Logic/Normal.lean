import RuleFlow.Logic.Basic

/-! # Trees without empty groups

`normalize` removes groups without a leaf, from the bottom up, so that a group that loses all its
children goes as well. `emptyGroups` lists the groups removed, in the order of their removal. -/

namespace RuleFlow.Logic

mutual

/-- The tree without empty groups; `none` if nothing is left. -/
def normalize : Logic → Option Logic
  | .leaf c => some (.leaf c)
  | .group kind children =>
    match normalizeAll children with
    | [] => none
    | t :: ts => some (.group kind (t :: ts))

/-- The trees of a list that do not vanish, without empty groups. -/
def normalizeAll : List Logic → List Logic
  | [] => []
  | t :: ts =>
    match t.normalize with
    | some t => t :: normalizeAll ts
    | none => normalizeAll ts

end

mutual

/-- The combinators of the groups that `normalize` removes, in order. -/
def emptyGroups : Logic → List Combinator
  | .leaf _ => []
  | .group kind children =>
    emptyGroupsOfAll children ++ if (normalizeAll children).isEmpty then [kind] else []

/-- The combinators of the groups that `normalizeAll` removes, in order. -/
def emptyGroupsOfAll : List Logic → List Combinator
  | [] => []
  | t :: ts => t.emptyGroups ++ emptyGroupsOfAll ts

end

end RuleFlow.Logic
