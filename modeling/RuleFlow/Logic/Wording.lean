import RuleFlow.Logic.Normal

/-! # Condition trees in words

Two texts of a tree. The label names every group (`All of: a == 1; b == 2`); the infix text joins
conditions by AND and OR (`(a == 1 OR b == 2) AND c > 3`), where AND binds tighter. -/

namespace RuleFlow

/-- A condition in words. -/
def Condition.label (c : Condition) : String :=
  c.field ++ " " ++ c.operator.symbol ++ " " ++ c.value.display

namespace Logic

/-- The opening words of a group. -/
def groupOpening : Combinator → String
  | .and => "All of: "
  | .or => "Any of: "

mutual

/-- The label of a tree. -/
def label : Logic → String
  | .leaf c => c.label
  | .group kind children => groupOpening kind ++ "; ".intercalate (labels children)

/-- The labels of a list of trees. -/
def labels : List Logic → List String
  | [] => []
  | t :: ts => t.label :: labels ts

end

/-- A tree is shown by its label. -/
instance : ToString Logic := ⟨label⟩

/-- How tight a combinator binds. -/
def precedence : Combinator → Nat
  | .or => 1
  | .and => 2

mutual

/-- The infix text of a tree within a text that binds as tight as `outer`. A group of one child
reads as the child, and a group that binds less tight than its surroundings is put in
parentheses. -/
def infixWithin (outer : Nat) : Logic → String
  | .leaf c => c.label
  | .group _ [t] => t.infixWithin outer
  | .group kind children =>
    let body := (" " ++ kind.word ++ " ").intercalate (infixAll (precedence kind) children)
    if precedence kind < outer then "(" ++ body ++ ")" else body

/-- The infix texts of a list of trees. -/
def infixAll (outer : Nat) : List Logic → List String
  | [] => []
  | t :: ts => t.infixWithin outer :: infixAll outer ts

end

/-- The infix text of a tree without its empty groups; a tree with no leaf holds always. -/
def infixText (t : Logic) : String :=
  match t.normalize with
  | some t => t.infixWithin 0
  | none => "always"

end Logic

end RuleFlow
