import RuleFlow.Rule.Basic
import RuleFlow.Text.Blank

/-! # Stored rules

The record in which a rule store keeps a rule: one flat object with the rule's own fields, its
actions and its recent executions. `StoredRule.toBundle` makes a bundle of it, unless the trigger is
blank. -/

namespace RuleFlow

structure StoredRule where
  id : String
  triggerType : String
  /-- The logic as it was stored, which need not be a tree. -/
  logic : Option Json
  actions : List Action
  recentExecutions : List Execution
deriving DecidableEq, Repr, Inhabited

namespace StoredRule

open Json (Reader Field Fields)

/-- An action within a stored rule, which has other keys than an action of a bundle. -/
def actionReader : Reader Action :=
  .record "struct RawAction"
    (.field (.required "id" Reader.string) <|
     .field (.required "label" Reader.string ["name"]) <|
     .field (.withDefault "action_type" Reader.string.optional none ["type"]) <|
     .done)
    fun (id, label, actionType, ()) => ⟨id, label, actionType⟩

def reader : Reader StoredRule :=
  .record "struct RawStoredRule"
    (.field (.required "id" Reader.string) <|
     .field (.required "trigger_type" Reader.string ["triggerType", "trigger"]) <|
     .field (.withDefault "logic" Reader.value.optional none) <|
     .field (.withDefault "actions" actionReader.list []) <|
     .field (.withDefault "recent_executions" Execution.reader.list [] ["recentExecutions"]) <|
     .done)
    fun (id, triggerType, logic, actions, executions, ()) =>
      ⟨id, triggerType, logic, actions, executions⟩

/-- The tree in the stored logic; what is no tree counts as none. -/
def tree? (r : StoredRule) : Option Logic := r.logic.bind Logic.ofJson

/-- The bundle of a stored rule; `none` if the trigger is blank. -/
def toBundle? (r : StoredRule) : Option Bundle :=
  if Text.isBlank r.triggerType then none
  else some ⟨⟨r.id, r.triggerType, r.tree?⟩, r.actions, r.recentExecutions⟩

end StoredRule

end RuleFlow
