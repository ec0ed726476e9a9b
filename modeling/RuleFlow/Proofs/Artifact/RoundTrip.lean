import RuleFlow.Artifact
import RuleFlow.Proofs.Logic.Json
import RuleFlow.Proofs.Wire.RoundTrip

/-!
# Reading back compiled flows

A compiled flow is read back from its bytes, whatever bytes follow, and doubles come back bit by
bit.  `Storable` is what a flow in memory satisfies by its types, with one addition: lengths and
counters are numbers of 64 bits, and every operator is one that `Operator.ofSymbol` gives.  An
operator made by hand can carry the symbol of another one, and would be read back as that other one.
-/

namespace RuleFlow

open Wire Wire.Codec

/-! ## What can be stored -/

def Scalar.Storable : Scalar → Prop
  | .text s => s.utf8ByteSize < 2 ^ 64
  | _ => True

/-- The operator of some symbol. -/
structure Operator.Storable (op : Operator) : Prop where
  read : ∃ s, op = .ofSymbol s
  symbol : op.symbol.utf8ByteSize < 2 ^ 64

structure Condition.Storable (c : Condition) : Prop where
  field : c.field.utf8ByteSize < 2 ^ 64
  operator : c.operator.Storable
  value : c.value.Storable

structure Rollup.Storable (r : Rollup) : Prop where
  total : r.total < 2 ^ 64
  succeeded : r.succeeded < 2 ^ 64
  failed : r.failed < 2 ^ 64
  pending : r.pending < 2 ^ 64
  lastStartedAt : ∀ s ∈ r.lastStartedAt, s.utf8ByteSize < 2 ^ 64

def Detail.Storable : Detail → Prop
  | .predicate c => c.Storable
  | .group _ childCount => childCount < 2 ^ 64

def NodeData.Storable : NodeData → Prop
  | .trigger label triggerType executions =>
    label.utf8ByteSize < 2 ^ 64 ∧ triggerType.utf8ByteSize < 2 ^ 64 ∧ executions.Storable
  | .condition label detail => label.utf8ByteSize < 2 ^ 64 ∧ detail.Storable
  | .action label actionId actionType executions =>
    label.utf8ByteSize < 2 ^ 64 ∧ actionId.utf8ByteSize < 2 ^ 64 ∧
      (∀ s ∈ actionType, s.utf8ByteSize < 2 ^ 64) ∧ executions.Storable

structure Edge.Storable (e : Edge) : Prop where
  id : e.id.utf8ByteSize < 2 ^ 64
  source : e.source.utf8ByteSize < 2 ^ 64
  target : e.target.utf8ByteSize < 2 ^ 64

structure PlacedNode.Storable (n : PlacedNode Double) : Prop where
  id : n.node.id.utf8ByteSize < 2 ^ 64
  data : n.node.data.Storable
  layer : n.layer < 2 ^ 64

structure PlacedGraph.Storable (g : PlacedGraph Double) : Prop where
  nodeCount : g.nodes.length < 2 ^ 64
  nodes : ∀ n ∈ g.nodes, n.Storable
  edgeCount : g.edges.length < 2 ^ 64
  edges : ∀ e ∈ g.edges, e.Storable

/-- All lengths, counters and layers are numbers of 64 bits, and all operators are such as are
read. -/
structure CompiledFlow.Storable (f : CompiledFlow) : Prop where
  ruleId : f.ruleId.utf8ByteSize < 2 ^ 64
  summary : f.summary.utf8ByteSize < 2 ^ 64
  graph : f.graph.Storable

/-! ## Literals and operators -/

/-- A literal is one of four variants, and only a text has a length to bound. -/
theorem Scalar.roundTrips_codec : Scalar.codec.RoundTrips Scalar.Storable := by
  refine roundTrips_union (by decide) (fun a _ => by cases a <;> simp) ?_
  simp only [List.forall_mem_cons]
  refine ⟨Case.roundTrips_of_codec roundTrips_double ?_,
    Case.roundTrips_of_codec roundTrips_bool ?_, Case.roundTrips_of_codec roundTrips_string ?_,
    Case.roundTrips_of_codec roundTrips_unit ?_, by simp⟩ <;>
    intro a content ha hcontent <;> cases a <;> cases hcontent
  · exact ⟨rfl, trivial⟩
  · exact ⟨rfl, trivial⟩
  · exact ⟨rfl, ha⟩
  · exact ⟨rfl, trivial⟩

/-- An operator is stored as its symbol, from which it is made again. -/
theorem Operator.roundTrips_codec : Operator.codec.RoundTrips Operator.Storable := by
  refine roundTrips_string.via (fun op hop => ?_) fun op hop => hop.symbol
  obtain ⟨s, rfl⟩ := hop.read
  rw [symbol_ofSymbol]

theorem Condition.roundTrips_codec : Condition.codec.RoundTrips Condition.Storable :=
  (roundTrips_string.pair (Operator.roundTrips_codec.pair Scalar.roundTrips_codec)).via
    (fun _ _ => rfl) fun _ h => ⟨h.field, h.operator, h.value⟩

/-! ## Variants without content -/

/-- A variant that stands for one value needs no content to give it back. -/
theorem roundTrips_plainCase [BEq α] [LawfulBEq α] (value : α) (p : α → Prop) :
    (plainCase value).RoundTrips p := by
  refine Case.roundTrips_of_codec roundTrips_unit fun a content _ hcontent => ?_
  have ha : a = value := by
    by_cases h : a = value
    · exact h
    · simp [plainCase, h] at hcontent
  exact ⟨ha.symm, trivial⟩

theorem Combinator.roundTrips_codec : Combinator.codec.RoundTrips fun _ => True := by
  refine roundTrips_union (by decide) (fun a _ => by cases a <;> simp [plainCase]) ?_
  simp only [List.forall_mem_cons]
  exact ⟨roundTrips_plainCase _ _, roundTrips_plainCase _ _, by simp⟩

theorem Status.roundTrips_codec : Status.codec.RoundTrips fun _ => True := by
  refine roundTrips_union (by decide) (fun a _ => by cases a <;> simp [plainCase]) ?_
  simp only [List.forall_mem_cons]
  exact ⟨roundTrips_plainCase _ _, roundTrips_plainCase _ _, roundTrips_plainCase _ _, by simp⟩

theorem Branch.roundTrips_codec : Branch.codec.RoundTrips fun _ => True := by
  refine roundTrips_union (by decide) (fun a _ => by cases a <;> simp [plainCase]) ?_
  simp only [List.forall_mem_cons]
  exact ⟨roundTrips_plainCase _ _, roundTrips_plainCase _ _, by simp⟩

/-! ## Nodes and edges -/

/-- A roll-up is stored as its counters and the latest execution, which may be absent. -/
theorem Rollup.roundTrips_codec : Rollup.codec.RoundTrips Rollup.Storable :=
  (roundTrips_nat.pair <| roundTrips_nat.pair <| roundTrips_nat.pair <| roundTrips_nat.pair <|
    Status.roundTrips_codec.option.pair roundTrips_string.option).via (fun _ _ => rfl) fun _ h =>
      ⟨h.total, h.succeeded, h.failed, h.pending, fun _ _ => trivial, h.lastStartedAt⟩

/-- What a condition node stands for is read back by its variant, a comparison or a group. -/
theorem Detail.roundTrips_codec : Detail.codec.RoundTrips Detail.Storable := by
  refine roundTrips_union (by decide) (fun a _ => by cases a <;> simp) ?_
  simp only [List.forall_mem_cons]
  refine ⟨Case.roundTrips_of_codec Condition.roundTrips_codec ?_,
    Case.roundTrips_of_codec (Combinator.roundTrips_codec.pair roundTrips_nat) ?_, by simp⟩ <;>
    intro a content ha hcontent <;> cases a <;> cases hcontent
  · exact ⟨rfl, ha⟩
  · exact ⟨rfl, trivial, ha⟩

/-- The three kinds of nodes are three variants, each with the content of its kind. -/
theorem NodeData.roundTrips_codec : NodeData.codec.RoundTrips NodeData.Storable := by
  refine roundTrips_union (by decide) (fun a _ => by cases a <;> simp) ?_
  simp only [List.forall_mem_cons]
  refine ⟨Case.roundTrips_of_codec
      (roundTrips_string.pair (roundTrips_string.pair Rollup.roundTrips_codec)) ?_,
    Case.roundTrips_of_codec (roundTrips_string.pair Detail.roundTrips_codec) ?_,
    Case.roundTrips_of_codec (roundTrips_string.pair (roundTrips_string.pair
      (roundTrips_string.option.pair Rollup.roundTrips_codec))) ?_, by simp⟩ <;>
    intro a content ha hcontent <;> cases a <;> cases hcontent
  · exact ⟨rfl, ha⟩
  · exact ⟨rfl, ha⟩
  · exact ⟨rfl, ha⟩

/-- An edge comes back with its own id, which is stored and not made from its ends. -/
theorem Edge.roundTrips_codec : Edge.codec.RoundTrips Edge.Storable :=
  (roundTrips_string.pair <| roundTrips_string.pair <| roundTrips_string.pair
    Branch.roundTrips_codec.option).via (fun _ _ => rfl) fun _ h =>
      ⟨h.id, h.source, h.target, fun _ _ => trivial⟩

/-- Coordinates come back bit by bit, whatever double they are. -/
theorem PlacedNode.roundTrips_codec : PlacedNode.codec.RoundTrips PlacedNode.Storable :=
  have node : Node.codec.RoundTrips fun n => n.id.utf8ByteSize < 2 ^ 64 ∧ n.data.Storable :=
    (roundTrips_string.pair NodeData.roundTrips_codec).via (fun _ _ => rfl) fun _ h => h
  (node.pair <| roundTrips_nat.pair <| roundTrips_double.pair roundTrips_double).via
    (fun _ _ => rfl) fun _ h => ⟨⟨h.id, h.data⟩, h.layer, trivial, trivial⟩

/-! ## Flows -/

theorem PlacedGraph.roundTrips_codec : PlacedGraph.codec.RoundTrips PlacedGraph.Storable :=
  (PlacedNode.roundTrips_codec.list.pair Edge.roundTrips_codec.list).via (fun _ _ => rfl) fun _ h =>
    ⟨⟨h.nodeCount, h.nodes⟩, h.edgeCount, h.edges⟩

namespace CompiledFlow

/-- The codec of flows is composed of codecs that round-trip, so it does. -/
theorem roundTrips_codec : codec.RoundTrips Storable :=
  (roundTrips_string.pair <| roundTrips_string.pair PlacedGraph.roundTrips_codec).via
    (fun _ _ => rfl) fun _ h => ⟨h.ruleId, h.summary, h.graph⟩

/-- A compiled flow is read back from its bytes, whatever bytes follow. -/
theorem ofBytes_toBytes_append (f : CompiledFlow) (hf : f.Storable) (rest : List UInt8) :
    ofBytes (f.toBytes ++ rest) = .ok f := by
  rw [ofBytes, toBytes, roundTrips_codec f hf rest]
  rfl

/-- A flow with a node of every kind, an operator nobody knows, counters of every width, and the
coordinates not a number and negative zero. -/
def sampleFlow : CompiledFlow where
  ruleId := "rule-1"
  summary := "When total ≥ 250, notify café owners"
  graph :=
    { nodes :=
        [⟨⟨"trigger", .trigger "order" "order"
            ⟨2 ^ 64 - 1, 250, 251, 2 ^ 16, some .failed, some "2024-05-01"⟩⟩,
          0, ⟨0x7ff8000000000001⟩, ⟨0x8000000000000000⟩⟩,
         ⟨⟨"cond-0", .condition "AND" (.group .and (2 ^ 32))⟩, 2 ^ 64 - 1, .zero, .zero⟩,
         ⟨⟨"cond-0-0", .condition "" (.predicate ⟨"total", .greaterThanOrEqual, .number ⟨1⟩⟩)⟩,
          2, .zero, .zero⟩,
         ⟨⟨"cond-0-1", .condition "" (.predicate ⟨"", .other "~=", .text "straße"⟩)⟩,
          2, .zero, .zero⟩,
         ⟨⟨"action-0", .action "Mail" "a-1" none ⟨0, 0, 0, 0, none, none⟩⟩, 3, .zero, .zero⟩]
      edges := [⟨"e", "cond-0", "cond-0-1", some .failed⟩, ⟨"", "", "", none⟩] }

theorem sampleFlow_storable : sampleFlow.Storable where
  ruleId := by decide
  summary := by decide
  graph :=
    { nodeCount := by decide
      nodes := by
        have hknown : Operator.Storable .greaterThanOrEqual := ⟨⟨">=", by decide⟩, by decide⟩
        have hother : Operator.Storable (.other "~=") := ⟨⟨"~=", by decide⟩, by decide⟩
        simp only [sampleFlow, List.forall_mem_cons]
        refine ⟨⟨by decide, ⟨by decide, by decide, ?_⟩, by decide⟩,
          ⟨by decide, ⟨by decide, ?_⟩, by decide⟩,
          ⟨by decide, ⟨by decide, ?_⟩, by decide⟩,
          ⟨by decide, ⟨by decide, ?_⟩, by decide⟩,
          ⟨by decide, ⟨by decide, by decide, by simp, ?_⟩, by decide⟩, by simp⟩
        · exact ⟨by decide, by decide, by decide, by decide, by simp; decide⟩
        · exact (by decide : 2 ^ 32 < 2 ^ 64)
        · exact ⟨by decide, hknown, trivial⟩
        · exact ⟨by decide, hother, (by decide : "straße".utf8ByteSize < 2 ^ 64)⟩
        · exact ⟨by decide, by decide, by decide, by decide, by simp⟩
      edgeCount := by decide
      edges := by
        simp only [sampleFlow, List.forall_mem_cons]
        exact ⟨⟨by decide, by decide, by decide⟩, ⟨by decide, by decide, by decide⟩, by simp⟩ }

/-- Three more bytes after the sample flow change nothing in what is read. -/
theorem ofBytes_toBytes_sampleFlow : sampleFlow.Storable ∧
    ofBytes (sampleFlow.toBytes ++ [1, 2, 3]) = .ok sampleFlow :=
  ⟨sampleFlow_storable, ofBytes_toBytes_append sampleFlow sampleFlow_storable [1, 2, 3]⟩

end CompiledFlow

end RuleFlow
