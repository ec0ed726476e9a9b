import RuleFlow.Graph.Basic
import RuleFlow.Logic.Wording

/-! # From a rule to its flow graph

Every id comes from a position: the condition at an index path of the tree is `cond-0` followed by
the path, and the action at an index is `action-` and the index. The trigger leads to the root of
the condition tree, a group leads to its children, and every leaf leads to every action. Empty
groups are removed first; without a tree the trigger leads to the actions. -/

namespace RuleFlow

/-! ## Executions -/

namespace Rollup

def empty : Rollup := ⟨0, 0, 0, 0, none, none⟩

/-- Counts an execution by its status. -/
def count (r : Rollup) (status : Status) : Rollup :=
  let r := { r with total := r.total + 1 }
  match status with
  | .success => { r with succeeded := r.succeeded + 1 }
  | .failed => { r with failed := r.failed + 1 }
  | .pending => { r with pending := r.pending + 1 }

/-- A pass over executions: their counts, and the latest one so far. -/
structure Pass where
  counts : Rollup
  latest? : Option Execution

namespace Pass

def start : Pass := ⟨.empty, none⟩

/-- Counts an execution. It is the latest so far unless its time stamp is less than that of the
latest before it. -/
def add (p : Pass) (e : Execution) : Pass where
  counts := p.counts.count e.status
  latest? :=
    match p.latest? with
    | some b => if e.startedAt < b.startedAt then some b else some e
    | none => some e

/-- The counts, with the latest execution. -/
def rollup (p : Pass) : Rollup :=
  match p.latest? with
  | some e => { p.counts with lastStatus := some e.status, lastStartedAt := some e.startedAt }
  | none => p.counts

end Pass

/-- The roll-up of a list of executions, in one pass. -/
def ofExecutions (executions : List Execution) : Rollup :=
  (executions.foldl Pass.add .start).rollup

end Rollup

namespace FlowGraph

/-! ## Ids -/

def triggerId : String := "trigger"

def rootId : String := "cond-0"

def actionId (index : Nat) : String := "action-" ++ String.ofList (countText index)

/-- The id of a child of the condition `parent`. -/
def childId (parent : String) (index : Nat) : String :=
  parent ++ "-" ++ String.ofList (countText index)

/-- The ids of so many actions. -/
def actionIds (count : Nat) : List String := (List.range count).map actionId

/-! ## Nodes -/

def triggerNode (rule : Rule) (executions : List Execution) : Node :=
  ⟨triggerId, .trigger rule.triggerType rule.triggerType (.ofExecutions executions)⟩

/-- What a condition node of a tree stands for. -/
def detail : Logic → Detail
  | .leaf c => .predicate c
  | .group kind children => .group kind children.length

/-- The condition node of a tree, without those of its children. -/
def conditionNode (id : String) (t : Logic) : Node := ⟨id, .condition t.label (detail t)⟩

mutual

/-- The condition nodes of a tree, each group before its children. -/
def conditionNodes (id : String) : Logic → List Node
  | .leaf c => [conditionNode id (.leaf c)]
  | .group kind children => conditionNode id (.group kind children) :: childNodes id 0 children

/-- The condition nodes of the children from an index on. -/
def childNodes (parent : String) (index : Nat) : List Logic → List Node
  | [] => []
  | t :: ts => conditionNodes (childId parent index) t ++ childNodes parent (index + 1) ts

end

/-- An action's node, with the executions recorded for the action's id. -/
def actionNode (executions : List Execution) (index : Nat) (a : Action) : Node :=
  ⟨actionId index, .action a.label a.id a.actionType
    (.ofExecutions (executions.filter (·.actionId == some a.id)))⟩

/-! ## Edges -/

/-- The outcome for which a child of a group stands: only a group of two has outcomes. -/
def branchAt (count index : Nat) : Option Branch :=
  if count = 2 then some (if index = 0 then .passed else .failed) else none

/-- One edge to every action. -/
def fanOut (source : String) (actions : List String) : List Edge :=
  actions.map (Edge.between source · none)

mutual

/-- The edges into and below the condition `id`. -/
def conditionEdges (actions : List String) (parent : String) (branch : Option Branch)
    (id : String) : Logic → List Edge
  | .leaf _ => Edge.between parent id branch :: fanOut id actions
  | .group _ children =>
    Edge.between parent id branch :: childEdges actions id children.length 0 children

/-- The edges into and below the children from an index on, of a group of `count`. -/
def childEdges (actions : List String) (parent : String) (count index : Nat) :
    List Logic → List Edge
  | [] => []
  | t :: ts =>
    conditionEdges actions parent (branchAt count index) (childId parent index) t ++
      childEdges actions parent count (index + 1) ts

end

/-! ## The graph -/

/-- The flow graph of a rule whose logic has no empty group. -/
def ofTree (rule : Rule) (tree : Option Logic) (actions : List Action)
    (executions : List Execution) : FlowGraph :=
  let ids := actionIds actions.length
  { nodes := triggerNode rule executions ::
      (tree.elim [] (conditionNodes rootId) ++ actions.mapIdx (actionNode executions))
    edges := tree.elim (fanOut triggerId ids) (conditionEdges ids triggerId none rootId) }

end FlowGraph

/-- The logic of a rule without empty groups. -/
def Rule.tree? (rule : Rule) : Option Logic := rule.logic.bind Logic.normalize

/-- The flow graph of a bundle. -/
def Bundle.compile (b : Bundle) : FlowGraph :=
  .ofTree b.rule b.rule.tree? b.actions b.executions

end RuleFlow
