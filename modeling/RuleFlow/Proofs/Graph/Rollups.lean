import Mathlib.Algebra.GroupWithZero.Nat
import Mathlib.Data.List.Induction
import RuleFlow.Proofs.Graph.Recovery
import RuleFlow.Proofs.Text.ByteOrder

/-!
# Roll-ups of executions

The trigger's node counts all executions, and an action's node those that name the action.  A
roll-up also tells of the latest execution: the one whose time stamp is the highest, byte by byte,
and of several with that stamp the last in the list (`IsLatest`).

A roll-up is made in one pass.  `Rollup.Pass.Knows` is what the pass knows of the executions that it
has seen, which one more execution keeps, and `Rollup.Tallies` is what the roll-up tells of a whole
list.  `Bundle.rollups_compile` says that each node of a compiled graph does so for its part of the
executions.  If no two actions share an id, these parts and the executions that name no action make
up the whole.
-/

namespace RuleFlow

namespace Rollup

variable {records : List Execution} {e b : Execution} {i : ℕ}

/-! ## The latest execution -/

/-- The execution at a place is the latest: none has a higher time stamp, and none after it has the
same. -/
structure IsLatest (records : List Execution) (i : ℕ) (e : Execution) : Prop where
  at_place : records[i]? = some e
  greatest : ∀ e' ∈ records, Text.bytes e'.startedAt ≤ Text.bytes e.startedAt
  last : ∀ j e', records[j]? = some e' → e'.startedAt = e.startedAt → j ≤ i

/-- The only execution of a list is the latest. -/
theorem isLatest_singleton (e : Execution) : IsLatest [e] 0 e where
  at_place := rfl
  greatest e' he' := by rw [List.mem_singleton.mp he', Text.bytes_le_bytes_iff]
  last j e' hj _ := by
    have := (List.getElem?_eq_some_iff.mp hj).1
    simp only [List.length_singleton] at this
    omega

namespace IsLatest

/-- An execution with a lower time stamp leaves the latest where it is. -/
theorem concat_of_lt (h : IsLatest records i b) (hlt : e.startedAt < b.startedAt) :
    IsLatest (records ++ [e]) i b where
  at_place := by
    rw [List.getElem?_append_left (List.getElem?_eq_some_iff.mp h.at_place).1, h.at_place]
  greatest e' he' := by
    rcases List.mem_append.mp he' with he' | he'
    · exact h.greatest e' he'
    · rw [List.mem_singleton.mp he', Text.bytes_le_bytes_iff]
      exact hlt.le
  last j e' hj hsame := by
    rcases lt_or_ge j records.length with hin | hout
    · rw [List.getElem?_append_left hin] at hj
      exact h.last j e' hj hsame
    · rw [List.getElem?_append_right hout, List.getElem?_singleton] at hj
      split at hj
      · obtain rfl : e = e' := Option.some.inj hj
        exact absurd hsame hlt.ne
      · exact absurd hj (by simp)

/-- Any other execution takes its place. -/
theorem concat_of_le (h : IsLatest records i b) (hle : b.startedAt ≤ e.startedAt) :
    IsLatest (records ++ [e]) records.length e where
  at_place := List.getElem?_concat_length
  greatest e' he' := by
    rw [Text.bytes_le_bytes_iff]
    rcases List.mem_append.mp he' with he' | he'
    · exact (Text.bytes_le_bytes_iff.mp (h.greatest e' he')).trans hle
    · rw [List.mem_singleton.mp he']
  last j e' hj _ := by
    have := (List.getElem?_eq_some_iff.mp hj).1
    simp only [List.length_append, List.length_singleton] at this
    omega

end IsLatest

/-! ## Counting -/

section Count

variable (r : Rollup) (status : Status)

@[simp]
theorem total_count : (r.count status).total = r.total + 1 := by cases status <;> rfl

/-- Only a success counts as one. -/
@[simp]
theorem succeeded_count :
    (r.count status).succeeded = r.succeeded + if status = .success then 1 else 0 := by
  cases status <;> rfl

@[simp]
theorem failed_count :
    (r.count status).failed = r.failed + if status = .failed then 1 else 0 := by
  cases status <;> rfl

@[simp]
theorem pending_count :
    (r.count status).pending = r.pending + if status = .pending then 1 else 0 := by
  cases status <;> rfl

@[simp]
theorem lastStatus_count : (r.count status).lastStatus = r.lastStatus := by cases status <;> rfl

@[simp]
theorem lastStartedAt_count : (r.count status).lastStartedAt = r.lastStartedAt := by
  cases status <;> rfl

/-- An execution has exactly one status, so counting it keeps the sum. -/
theorem total_count_eq_add (h : r.total = r.succeeded + r.failed + r.pending) :
    (r.count status).total =
      (r.count status).succeeded + (r.count status).failed + (r.count status).pending := by
  cases status <;> simp [h] <;> omega

end Count

/-! ## One pass -/

namespace Pass

variable {p : Pass}

/-- What a pass knows of the executions that it has seen. -/
structure Knows (p : Pass) (records : List Execution) : Prop where
  total : p.counts.total = records.length
  succeeded : p.counts.succeeded = records.countP (·.status = .success)
  failed : p.counts.failed = records.countP (·.status = .failed)
  pending : p.counts.pending = records.countP (·.status = .pending)
  total_eq_add : p.counts.total = p.counts.succeeded + p.counts.failed + p.counts.pending
  /-- The latest execution is put into the roll-up at the end only. -/
  lastStatus : p.counts.lastStatus = none
  lastStartedAt : p.counts.lastStartedAt = none
  latest_none : p.latest? = none → records = []
  latest_some : ∀ e, p.latest? = some e → ∃ i, IsLatest records i e

/-- Before the first execution nothing is counted. -/
theorem knows_start : Knows .start [] where
  total := rfl
  succeeded := rfl
  failed := rfl
  pending := rfl
  total_eq_add := rfl
  lastStatus := rfl
  lastStartedAt := rfl
  latest_none _ := rfl
  latest_some _ h := by cases h

/-- An execution moves the counter of its status and no other, and is the latest or leaves it. -/
theorem Knows.add (h : p.Knows records) (e : Execution) : (p.add e).Knows (records ++ [e]) where
  total := by simp [Pass.add, h.total]
  succeeded := by simp [Pass.add, h.succeeded, List.countP_append, List.countP_singleton]
  failed := by simp [Pass.add, h.failed, List.countP_append, List.countP_singleton]
  pending := by simp [Pass.add, h.pending, List.countP_append, List.countP_singleton]
  total_eq_add := total_count_eq_add _ _ h.total_eq_add
  lastStatus := (lastStatus_count _ _).trans h.lastStatus
  lastStartedAt := (lastStartedAt_count _ _).trans h.lastStartedAt
  latest_none hnone := by
    rw [Pass.add] at hnone
    split at hnone
    · split at hnone <;> cases hnone
    · cases hnone
  latest_some e' he' := by
    rw [Pass.add] at he'
    split at he'
    case _ b hb =>
      obtain ⟨i, hlatest⟩ := h.latest_some b hb
      split at he'
      case isTrue hlt =>
        obtain rfl : b = e' := Option.some.inj he'
        exact ⟨i, hlatest.concat_of_lt hlt⟩
      case isFalse hle =>
        obtain rfl : e = e' := Option.some.inj he'
        exact ⟨records.length, hlatest.concat_of_le (not_lt.mp hle)⟩
    case _ hnone =>
      obtain rfl : e = e' := Option.some.inj he'
      rw [h.latest_none hnone]
      exact ⟨0, isLatest_singleton e⟩

/-- The induction is from the end of the list, where a pass adds its executions. -/
theorem knows_foldl_add (records : List Execution) :
    (records.foldl Pass.add .start).Knows records := by
  induction records using List.reverseRecOn with
  | nil => exact knows_start
  | append_singleton records e ih =>
    rw [List.foldl_concat]
    exact ih.add e

end Pass

/-! ## One roll-up -/

/-- A roll-up tells of these executions and no others. -/
structure Tallies (r : Rollup) (records : List Execution) : Prop where
  total : r.total = records.length
  succeeded : r.succeeded = records.countP (·.status = .success)
  failed : r.failed = records.countP (·.status = .failed)
  pending : r.pending = records.countP (·.status = .pending)
  total_eq_add : r.total = r.succeeded + r.failed + r.pending
  lastStatus_eq_none_iff : r.lastStatus = none ↔ r.total = 0
  lastStartedAt_eq_none_iff : r.lastStartedAt = none ↔ r.total = 0
  last : r.total ≠ 0 → ∃ i e, IsLatest records i e ∧
    r.lastStatus = some e.status ∧ r.lastStartedAt = some e.startedAt

/-- The roll-up of a pass tells what the pass knows: without an execution there is no latest one. -/
theorem Pass.Knows.tallies {p : Pass} (h : p.Knows records) : p.rollup.Tallies records := by
  cases hp : p.latest? with
  | none =>
    have hzero : p.counts.total = 0 := by rw [h.total, h.latest_none hp, List.length_nil]
    rw [Pass.rollup, hp]
    exact ⟨h.total, h.succeeded, h.failed, h.pending, h.total_eq_add,
      iff_of_true h.lastStatus hzero, iff_of_true h.lastStartedAt hzero,
      fun hne => absurd hzero hne⟩
  | some e =>
    obtain ⟨i, hlatest⟩ := h.latest_some e hp
    have hne : p.counts.total ≠ 0 := by
      rw [h.total]
      exact Nat.ne_zero_of_lt (List.getElem?_eq_some_iff.mp hlatest.at_place).1
    rw [Pass.rollup, hp]
    exact ⟨h.total, h.succeeded, h.failed, h.pending, h.total_eq_add,
      iff_of_false (Option.some_ne_none _) hne, iff_of_false (Option.some_ne_none _) hne,
      fun _ => ⟨i, e, hlatest, rfl, rfl⟩⟩

/-- After the whole pass the roll-up tells of all executions. -/
theorem tallies_ofExecutions (records : List Execution) :
    (ofExecutions records).Tallies records :=
  (Pass.knows_foldl_add records).tallies

end Rollup

/-! ## The roll-ups of a graph -/

/-- What a node tells of executions: those of an action, or of the rule as a whole. -/
def Node.runs? (n : Node) : Option (Option Action × Rollup) :=
  match n.data with
  | .trigger _ _ runs => some (none, runs)
  | .condition .. => none
  | .action label id actionType runs => some (some ⟨id, label, actionType⟩, runs)

/-- Whether an execution names no action, or one whose id is not among these. -/
def Execution.isStray (ids : List String) (e : Execution) : Bool :=
  match e.actionId with
  | none => true
  | some id => !ids.contains id

/-- If the ids are distinct, each execution names one of them or is stray. -/
theorem Execution.length_eq_sum_add_countP_isStray (records : List Execution) {ids : List String}
    (h : ids.Nodup) : records.length =
      (ids.map fun id => records.countP (·.actionId == some id)).sum +
        records.countP (·.isStray ids) := by
  induction ids with
  | nil =>
    have hstray : ∀ e ∈ records, e.isStray [] = true := fun e _ => by
      cases he : e.actionId <;> simp [isStray, he]
    rw [List.map_nil, List.sum_nil, List.countP_eq_length.mpr hstray, Nat.zero_add]
  | cons id ids ih =>
    rw [List.nodup_cons] at h
    have hnamed (e : Execution) :
        (e.isStray ids && e.actionId == some id) = (e.actionId == some id) := by
      rw [Bool.and_eq_right_iff_imp, beq_iff_eq]
      intro he
      simp [isStray, he, h.1]
    have hrest (e : Execution) :
        (e.isStray ids && !(e.actionId == some id)) = e.isStray (id :: ids) := by
      cases he : e.actionId with
      | none => simp [isStray, he]
      | some id' => simp [isStray, he, Bool.and_comm, beq_eq_decide]
    rw [ih h.2, List.countP_eq_countP_filter_add records (·.isStray ids) (·.actionId == some id),
      List.countP_filter, List.countP_filter, List.map_cons, List.sum_cons]
    simp only [hnamed, hrest]
    omega

/-- The trigger's node has the roll-up of all executions, and the node of each action that of its
own. -/
theorem FlowGraph.filterMap_runs?_ofTree (rule : Rule) (tree : Option Logic) (actions : List Action)
    (executions : List Execution) :
    (ofTree rule tree actions executions).nodes.filterMap Node.runs? =
      (none, .ofExecutions executions) :: actions.map fun a =>
        (some a, .ofExecutions (executions.filter (·.actionId == some a.id))) := by
  rw [filterMap_nodes_ofTree rule tree actions executions Node.runs? (fun _ => none)
    (fun a => some (some a, .ofExecutions (executions.filter (·.actionId == some a.id))))
    (fun _ _ => rfl) fun _ _ => rfl]
  cases tree <;> simp [triggerNode, Node.runs?]

/-- The roll-ups of a compiled graph tell of all executions at the trigger and of those that name it
at each action.  If no two actions share an id, they and the stray ones make up the whole. -/
theorem Bundle.rollups_compile (b : Bundle) :
    ∃ (whole : Rollup) (part : Action → Rollup),
      b.compile.nodes.filterMap Node.runs? =
          (none, whole) :: b.actions.map (fun a => (some a, part a)) ∧
        whole.Tallies b.executions ∧
        (∀ a ∈ b.actions, (part a).Tallies (b.executions.filter (·.actionId == some a.id))) ∧
        ((b.actions.map Action.id).Nodup →
          whole.total = (b.actions.map fun a => (part a).total).sum +
            b.executions.countP (·.isStray (b.actions.map Action.id))) := by
  refine ⟨.ofExecutions b.executions,
    fun a => .ofExecutions (b.executions.filter (·.actionId == some a.id)),
    FlowGraph.filterMap_runs?_ofTree _ _ _ _, Rollup.tallies_ofExecutions _,
    fun a _ => Rollup.tallies_ofExecutions _, fun hnodup => ?_⟩
  have hsum := Execution.length_eq_sum_add_countP_isStray b.executions hnodup
  simpa only [(Rollup.tallies_ofExecutions _).total, List.countP_eq_length_filter, List.map_map,
    Function.comp_def] using hsum

/-- Two actions and five executions: three have the highest time stamp, and two are stray. -/
def severalRuns : Bundle where
  rule := ⟨"r", "t", none⟩
  actions := [⟨"a", "A", none⟩, ⟨"b", "B", none⟩]
  executions := [⟨"1", .success, "2024-05-02", some "a"⟩, ⟨"2", .failed, "2024-05-02", some "b"⟩,
    ⟨"3", .success, "2024-05-01", none⟩, ⟨"4", .pending, "2024-05-02", some "a"⟩,
    ⟨"5", .failed, "2024-05-01", some "c"⟩]

theorem rollups_severalRuns : ∃ (whole : Rollup) (part : Action → Rollup),
    severalRuns.compile.nodes.filterMap Node.runs? =
        (none, whole) :: severalRuns.actions.map (fun a => (some a, part a)) ∧
      whole.Tallies severalRuns.executions ∧
      whole.total = (severalRuns.actions.map fun a => (part a).total).sum + 2 := by
  obtain ⟨whole, part, hnodes, hwhole, -, hsum⟩ := Bundle.rollups_compile severalRuns
  refine ⟨whole, part, hnodes, hwhole, (hsum ?_).trans ?_⟩
  · simp [severalRuns]
  · rw [show severalRuns.executions.countP (·.isStray (severalRuns.actions.map Action.id)) = 2 by
      decide]

end RuleFlow
