import RuleFlow.Logic.Json

/-! # Rules

A rule fires on a trigger if its condition holds. A bundle adds what the rule does, its actions, and
the record of its past executions. -/

namespace RuleFlow

/-- A rule. Without logic it fires on every trigger. -/
structure Rule where
  id : String
  triggerType : String
  logic : Option Logic
deriving DecidableEq, Repr, Inhabited

/-- An output of a rule. -/
structure Action where
  id : String
  label : String
  actionType : Option String
deriving DecidableEq, Repr, Inhabited

/-- How an execution went. -/
inductive Status where
  | success
  | failed
  | pending
deriving DecidableEq, Repr, Inhabited

/-- A past execution of a rule, or of one of its actions. -/
structure Execution where
  id : String
  status : Status
  /-- A time stamp, compared as text. -/
  startedAt : String
  actionId : Option String
deriving DecidableEq, Repr, Inhabited

/-- All that is needed to compile a rule. -/
structure Bundle where
  rule : Rule
  actions : List Action
  executions : List Execution
deriving DecidableEq, Repr, Inhabited

/-! ## JSON -/

open Json (Reader Field Fields)

namespace Rule

def toJson (r : Rule) : Json :=
  .object [("id", .string r.id), ("trigger_type", .string r.triggerType),
    ("logic", .ofOption Logic.toJson r.logic)]

/-- A rule; logic that is no tree counts as none. -/
def reader : Reader Rule :=
  .record "struct RuleDefinition"
    (.field (.required "id" Reader.string) <|
     .field (.required "trigger_type" Reader.string ["triggerType"]) <|
     .field (.withDefault "logic" Logic.lenientReader none) <|
     .done)
    fun (id, triggerType, logic, ()) => ⟨id, triggerType, logic⟩

end Rule

namespace Action

def toJson (a : Action) : Json :=
  .object [("id", .string a.id), ("label", .string a.label),
    ("action_type", .ofOption .string a.actionType)]

def reader : Reader Action :=
  .record "struct ActionSpec"
    (.field (.required "id" Reader.string) <|
     .field (.required "label" Reader.string) <|
     .field (.withDefault "action_type" Reader.string.optional none ["actionType"]) <|
     .done)
    fun (id, label, actionType, ()) => ⟨id, label, actionType⟩

end Action

namespace Status

def name : Status → String
  | .success => "success"
  | .failed => "failed"
  | .pending => "pending"

def toJson (s : Status) : Json := .string s.name

def reader : Reader Status :=
  .union [.plain "success" .success, .plain "failed" .failed, .plain "pending" .pending]

end Status

namespace Execution

def toJson (e : Execution) : Json :=
  .object [("id", .string e.id), ("status", e.status.toJson), ("started_at", .string e.startedAt),
    ("action_id", .ofOption .string e.actionId)]

def reader : Reader Execution :=
  .record "struct ExecutionRecord"
    (.field (.required "id" Reader.string) <|
     .field (.required "status" Status.reader) <|
     .field (.required "started_at" Reader.string ["startedAt"]) <|
     .field (.withDefault "action_id" Reader.string.optional none ["actionId"]) <|
     .done)
    fun (id, status, startedAt, actionId, ()) => ⟨id, status, startedAt, actionId⟩

end Execution

namespace Bundle

def toJson (b : Bundle) : Json :=
  .object [("rule", b.rule.toJson), ("actions", .array (b.actions.map Action.toJson)),
    ("executions", .array (b.executions.map Execution.toJson))]

def reader : Reader Bundle :=
  .record "struct RuleBundle"
    (.field (.required "rule" Rule.reader) <|
     .field (.withDefault "actions" Action.reader.list []) <|
     .field (.withDefault "executions" Execution.reader.list []) <|
     .done)
    fun (rule, actions, executions, ()) => ⟨rule, actions, executions⟩

end Bundle

end RuleFlow
