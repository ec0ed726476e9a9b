import RuleFlow.Graph.Compile

/-! # Summaries

One sentence for a whole rule: when it fires, under which condition, and what it does. The condition
is the one that the flow graph shows. -/

namespace RuleFlow

/-- The sentence for a trigger, the label of a condition and the labels of the actions. -/
def sentence (trigger : String) (condition : Option String) (actions : List String) : String :=
  "When " ++ trigger ++ ", " ++ condition.elim "always" ("if " ++ ·) ++ ", then " ++
    (if actions.isEmpty then "do nothing" else ", ".intercalate actions) ++ "."

/-- The sentence for a rule and its actions. -/
def Rule.describe (rule : Rule) (actions : List Action) : String :=
  sentence rule.triggerType (rule.tree?.map Logic.label) (actions.map (·.label))

end RuleFlow
