import RuleFlow.Proofs.Artifact.RoundTrip
import RuleFlow.Proofs.Wire.Locality

/-!
# Beginnings and continuations of artifacts

The bytes of a compiled flow say themselves where they end: what follows them is not looked at, what
is wrong with some bytes stays wrong whatever follows, and bytes that break off before the end of a
flow are found to be too few (`CompiledFlow.ofBytes_selfDelimiting`).

A flow in memory can hold an operator made by hand that carries the symbol of another one.  It is
written as any other, and `reread` is the flow that these bytes hold.
-/

namespace RuleFlow

open Wire Wire.Codec

/-! ## Decoders are local -/

/-- Which literal is read depends on its own bytes only, as each of the four contents does. -/
theorem Scalar.local_codec : Scalar.codec.decode.Local := by
  refine local_union ?_
  simp only [List.forall_mem_cons]
  exact ⟨local_double, local_bool, local_string, local_unit, by simp⟩

theorem Operator.local_codec : Operator.codec.decode.Local := local_via local_string

theorem Condition.local_codec : Condition.codec.decode.Local :=
  local_via (local_pair local_string (local_pair Operator.local_codec Scalar.local_codec))

/-- A value from a list of values is read from its index alone. -/
theorem local_union_plainCase [BEq α] (values : List α) :
    (Codec.union (values.map plainCase)).decode.Local := by
  refine local_union fun c hc => ?_
  obtain ⟨value, -, rfl⟩ := List.mem_map.mp hc
  exact local_unit

theorem Combinator.local_codec : Combinator.codec.decode.Local :=
  local_union_plainCase [and, or]

theorem Status.local_codec : Status.codec.decode.Local :=
  local_union_plainCase [success, failed, pending]

theorem Branch.local_codec : Branch.codec.decode.Local := local_union_plainCase [passed, failed]

theorem Rollup.local_codec : Rollup.codec.decode.Local :=
  local_via <| local_pair local_nat <| local_pair local_nat <| local_pair local_nat <|
    local_pair local_nat <| local_pair (local_option Status.local_codec) (local_option local_string)

theorem Detail.local_codec : Detail.codec.decode.Local := by
  refine local_union ?_
  simp only [List.forall_mem_cons]
  exact ⟨Condition.local_codec, local_pair Combinator.local_codec local_nat, by simp⟩

theorem NodeData.local_codec : NodeData.codec.decode.Local := by
  refine local_union ?_
  simp only [List.forall_mem_cons]
  exact ⟨local_pair local_string (local_pair local_string Rollup.local_codec),
    local_pair local_string Detail.local_codec,
    local_pair local_string <| local_pair local_string <|
      local_pair (local_option local_string) Rollup.local_codec, by simp⟩

theorem Node.local_codec : Node.codec.decode.Local :=
  local_via (local_pair local_string NodeData.local_codec)

/-- An edge is read from its own bytes, with or without a branch. -/
theorem Edge.local_codec : Edge.codec.decode.Local :=
  local_via <| local_pair local_string <| local_pair local_string <|
    local_pair local_string (local_option Branch.local_codec)

theorem PlacedNode.local_codec : PlacedNode.codec.decode.Local :=
  local_via <| local_pair Node.local_codec <| local_pair local_nat <|
    local_pair local_double local_double

/-- The lengths of its two lists tell where a graph ends. -/
theorem PlacedGraph.local_codec : PlacedGraph.codec.decode.Local :=
  local_via (local_pair (local_list PlacedNode.local_codec) (local_list Edge.local_codec))

/-- A flow is read from its own bytes. -/
theorem CompiledFlow.local_codec : CompiledFlow.codec.decode.Local :=
  local_via (local_pair local_string (local_pair local_string PlacedGraph.local_codec))

/-! ## Operators as they are read -/

/-- The operator that is read where `op` was written. -/
def Operator.reread (op : Operator) : Operator := .ofSymbol op.symbol

def Condition.reread (c : Condition) : Condition := { c with operator := c.operator.reread }

def Detail.reread : Detail → Detail
  | .predicate c => .predicate c.reread
  | .group kind childCount => .group kind childCount

def NodeData.reread : NodeData → NodeData
  | .condition label detail => .condition label detail.reread
  | data => data

def PlacedNode.reread (n : PlacedNode Double) : PlacedNode Double :=
  { n with node := { n.node with data := n.node.data.reread } }

def PlacedGraph.reread (g : PlacedGraph Double) : PlacedGraph Double :=
  { g with nodes := g.nodes.map PlacedNode.reread }

/-- The flow with every operator as it is read. -/
def CompiledFlow.reread (f : CompiledFlow) : CompiledFlow := { f with graph := f.graph.reread }

/-- The operator that is read has the symbol that was written. -/
theorem Operator.encode_reread (op : Operator) :
    Operator.codec.encode op.reread = Operator.codec.encode op :=
  congrArg Codec.string.encode (symbol_ofSymbol op.symbol)

/-- A comparison is written as the one that is read. -/
theorem Condition.encode_reread (c : Condition) :
    Condition.codec.encode c.reread = Condition.codec.encode c :=
  congrArg
    (fun operator => Codec.string.encode c.field ++ (operator ++ Scalar.codec.encode c.value))
    c.operator.encode_reread

/-- Only a comparison has an operator to be read otherwise. -/
theorem Detail.encode_reread (d : Detail) :
    Detail.codec.encode d.reread = Detail.codec.encode d := by
  cases d with
  | predicate c => exact congrArg (encodeVarint 0 ++ ·) c.encode_reread
  | group kind childCount => rfl

theorem NodeData.encode_reread (data : NodeData) :
    NodeData.codec.encode data.reread = NodeData.codec.encode data := by
  cases data with
  | condition label detail =>
    exact congrArg (fun detail => encodeVarint 1 ++ (Codec.string.encode label ++ detail))
      detail.encode_reread
  | trigger => rfl
  | action => rfl

theorem PlacedNode.encode_reread (n : PlacedNode Double) :
    PlacedNode.codec.encode n.reread = PlacedNode.codec.encode n :=
  congrArg (fun data => (Codec.string.encode n.node.id ++ data) ++
    (Codec.nat.encode n.layer ++ (Codec.double.encode n.x ++ Codec.double.encode n.y)))
    n.node.data.encode_reread

/-- A graph is written as the one that is read, node by node. -/
theorem PlacedGraph.encode_reread (g : PlacedGraph Double) :
    PlacedGraph.codec.encode g.reread = PlacedGraph.codec.encode g := by
  have hnodes : PlacedNode.codec.list.encode (g.nodes.map PlacedNode.reread) =
      PlacedNode.codec.list.encode g.nodes := by
    simp only [Codec.list, List.length_map, List.flatMap_map, PlacedNode.encode_reread]
  exact congrArg (· ++ Edge.codec.list.encode g.edges) hnodes

namespace CompiledFlow

/-- Operators are written as their symbols, so the bytes are those of the flow that is read. -/
theorem toBytes_reread (f : CompiledFlow) : f.reread.toBytes = f.toBytes :=
  congrArg (fun graph => Codec.string.encode f.ruleId ++ (Codec.string.encode f.summary ++ graph))
    f.graph.encode_reread

/-! ## Flows -/

/-- More bytes make a difference only where there were too few. -/
theorem ofBytes_append {bytes : List UInt8} (h : ofBytes bytes ≠ .error .unexpectedEnd)
    (rest : List UInt8) : ofBytes (bytes ++ rest) = ofBytes bytes := by
  have hne : codec.decode bytes ≠ .error .unexpectedEnd := by
    intro hend
    rw [ofBytes, hend] at h
    exact h rfl
  rw [ofBytes, ofBytes, local_codec bytes hne rest]
  cases codec.decode bytes <;> rfl

/-- What is made of some bytes does not depend on those after a flow, and a flow that breaks off is
too short.  A flow that can be in memory has lengths, counters and layers of 64 bits, whatever its
operators are. -/
theorem ofBytes_selfDelimiting :
    (∀ bytes rest f, ofBytes bytes = .ok f → ofBytes (bytes ++ rest) = .ok f) ∧
    (∀ bytes rest fault, ofBytes bytes = .error fault → fault ≠ .unexpectedEnd →
      ofBytes (bytes ++ rest) = .error fault) ∧
    ∀ f : CompiledFlow, f.reread.Storable → ∀ bytes, bytes <+: f.toBytes → bytes ≠ f.toBytes →
      ofBytes bytes = .error .unexpectedEnd := by
  refine ⟨fun bytes rest f h => ?_, fun bytes rest fault h hfault => ?_,
    fun f hf bytes hfront hne => ?_⟩
  · rw [ofBytes_append (by rw [h]; exact nofun), h]
  · rw [ofBytes_append (by rw [h]; simpa using hfault), h]
  · rw [← f.toBytes_reread] at hfront hne
    rw [ofBytes, roundTrips_codec.decode_of_prefix local_codec hf hfront hne]
    rfl

/-- A flow with an operator made by hand, which carries the symbol of another one. -/
def handmadeFlow : CompiledFlow where
  ruleId := "rule-2"
  summary := "When order, if total == café, then do nothing."
  graph :=
    { nodes := [⟨⟨"cond-0", .condition "total == café"
        (.predicate ⟨"total", .other "==", .text "café"⟩)⟩, 300, .zero, ⟨0x8000000000000000⟩⟩]
      edges := [] }

/-- The flow that is read where the handmade one was written can be stored. -/
theorem handmadeFlow_storable : handmadeFlow.reread.Storable where
  ruleId := by decide
  summary := by decide
  graph :=
    { nodeCount := by decide
      nodes := by
        have hoperator : Operator.Storable (Operator.reread (.other "==")) :=
          ⟨⟨"==", rfl⟩, by decide⟩
        have hvalue : "café".utf8ByteSize < 2 ^ 64 := by decide
        refine List.forall_mem_singleton.mpr ⟨by decide, ⟨by decide, ?_⟩, by decide⟩
        exact ⟨by decide, hoperator, hvalue⟩
      edgeCount := by decide
      edges := nofun }

/-- A longer form of a length, a text that is cut inside a character, and a flow that breaks off. -/
theorem ofBytes_selfDelimiting_handmadeFlow :
    (ofBytes [251, 1, 0, 114, 0, 0, 0] = .ok ⟨"r", "", ⟨[], []⟩⟩ ∧
      ofBytes ([251, 1, 0, 114, 0, 0, 0] ++ [255]) = .ok ⟨"r", "", ⟨[], []⟩⟩) ∧
    (ofBytes [0, 1, 200] = .error .invalidUtf8 ∧ Fault.invalidUtf8 ≠ .unexpectedEnd ∧
      ofBytes ([0, 1, 200] ++ [128]) = .error .invalidUtf8) ∧
    handmadeFlow.reread.Storable ∧
      handmadeFlow.toBytes.take 70 <+: handmadeFlow.toBytes ∧
      handmadeFlow.toBytes.take 70 ≠ handmadeFlow.toBytes ∧
      ofBytes (handmadeFlow.toBytes.take 70) = .error .unexpectedEnd := by
  have hread : ofBytes [251, 1, 0, 114, 0, 0, 0] = .ok ⟨"r", "", ⟨[], []⟩⟩ := by rfl
  have hfault : ofBytes [0, 1, 200] = .error .invalidUtf8 := by rfl
  have hfront := List.take_prefix 70 handmadeFlow.toBytes
  have hne : handmadeFlow.toBytes.take 70 ≠ handmadeFlow.toBytes := by decide
  exact ⟨⟨hread, ofBytes_selfDelimiting.1 _ [255] _ hread⟩,
    ⟨hfault, by decide, ofBytes_selfDelimiting.2.1 _ [128] _ hfault (by decide)⟩,
    handmadeFlow_storable, hfront, hne,
    ofBytes_selfDelimiting.2.2 handmadeFlow handmadeFlow_storable _ hfront hne⟩

end CompiledFlow

end RuleFlow
