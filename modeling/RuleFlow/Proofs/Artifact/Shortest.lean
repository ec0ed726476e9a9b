import RuleFlow.Proofs.Artifact.RoundTrip
import RuleFlow.Proofs.Wire.Shortest

/-!
# The shortest bytes of a flow

Many bytes are read as one compiled flow: integers, lengths and indices have longer forms, and what
follows the flow is not looked at.  The bytes that are written for the flow are the shortest of
them, and the only ones of their length (`CompiledFlow.toBytes_shortest`).  What reading gives is a
flow that can be stored, operators included, since an operator is read from a symbol.
-/

namespace RuleFlow

open Wire Wire.Codec

/-! ## Literals and operators -/

/-- A literal has no shorter bytes than its own: only its index and a length have longer forms. -/
theorem Scalar.shortest_codec : Scalar.codec.Shortest Scalar.Storable := by
  refine shortest_union ⟨?_, ?_⟩ ?_
  · simp
  · simp
  · simp only [List.forall_mem_cons]
    exact ⟨⟨_, shortest_double, fun _ _ => trivial⟩, ⟨_, shortest_bool, fun _ _ => trivial⟩,
      ⟨_, shortest_string, fun _ h => h⟩, ⟨_, shortest_unit, fun _ _ => trivial⟩, by simp⟩

/-- The operator that is read carries the symbol that was read. -/
theorem Operator.shortest_codec : Operator.codec.Shortest Operator.Storable :=
  shortest_string.via symbol_ofSymbol fun s hs =>
    ⟨⟨s, rfl⟩, by rwa [symbol_ofSymbol]⟩

theorem Condition.shortest_codec : Condition.codec.Shortest Condition.Storable :=
  (shortest_string.pair (Operator.shortest_codec.pair Scalar.shortest_codec)).via (fun _ => rfl)
    fun _ h => ⟨h.1, h.2.1, h.2.2⟩

/-! ## Variants without content -/

/-- A value from a list of different values is written as the shortest form of its index. -/
theorem shortest_union_plainCase [BEq α] [LawfulBEq α] (values : List α) (h : values.Nodup) :
    (Codec.union (values.map plainCase)).Shortest fun _ => True := by
  refine shortest_union ⟨fun c hc content => ?_, ?_⟩ fun c hc => ?_
  · obtain ⟨value, -, rfl⟩ := List.mem_map.mp hc
    exact if_pos (beq_self_eq_true value)
  · refine List.pairwise_map.mpr (h.imp fun hne content => if_neg ?_)
    simpa [plainCase] using hne.symm
  · obtain ⟨value, -, rfl⟩ := List.mem_map.mp hc
    exact ⟨_, shortest_unit, fun _ _ => trivial⟩

theorem Combinator.shortest_codec : Combinator.codec.Shortest fun _ => True :=
  shortest_union_plainCase [and, or] (by decide)

theorem Status.shortest_codec : Status.codec.Shortest fun _ => True :=
  shortest_union_plainCase [success, failed, pending] (by decide)

theorem Branch.shortest_codec : Branch.codec.Shortest fun _ => True :=
  shortest_union_plainCase [passed, failed] (by decide)

/-! ## Nodes and edges -/

/-- A roll-up is written in the fewest bytes, as its counters are. -/
theorem Rollup.shortest_codec : Rollup.codec.Shortest Rollup.Storable :=
  (shortest_nat.pair <| shortest_nat.pair <| shortest_nat.pair <| shortest_nat.pair <|
    Status.shortest_codec.option.pair shortest_string.option).via (fun _ => rfl) fun _ h =>
      ⟨h.1, h.2.1, h.2.2.1, h.2.2.2.1, h.2.2.2.2.2⟩

theorem Detail.shortest_codec : Detail.codec.Shortest Detail.Storable := by
  refine shortest_union ⟨by simp, by simp⟩ ?_
  simp only [List.forall_mem_cons]
  exact ⟨⟨_, Condition.shortest_codec, fun _ h => h⟩,
    ⟨_, Combinator.shortest_codec.pair shortest_nat, fun _ h => h.2⟩, by simp⟩

theorem NodeData.shortest_codec : NodeData.codec.Shortest NodeData.Storable := by
  refine shortest_union ⟨by simp, by simp⟩ ?_
  simp only [List.forall_mem_cons]
  exact ⟨⟨_, shortest_string.pair (shortest_string.pair Rollup.shortest_codec), fun _ h => h⟩,
    ⟨_, shortest_string.pair Detail.shortest_codec, fun _ h => h⟩,
    ⟨_, shortest_string.pair (shortest_string.pair
      (shortest_string.option.pair Rollup.shortest_codec)), fun _ h => h⟩, by simp⟩

theorem Edge.shortest_codec : Edge.codec.Shortest Edge.Storable :=
  (shortest_string.pair <| shortest_string.pair <| shortest_string.pair
    Branch.shortest_codec.option).via (fun _ => rfl) fun _ h => ⟨h.1, h.2.1, h.2.2.1⟩

/-- Coordinates take eight bytes each in any form, so only the other parts of a node matter. -/
theorem PlacedNode.shortest_codec : PlacedNode.codec.Shortest PlacedNode.Storable :=
  have node : Node.codec.Shortest fun n => n.id.utf8ByteSize < 2 ^ 64 ∧ n.data.Storable :=
    (shortest_string.pair NodeData.shortest_codec).via (fun _ => rfl) fun _ h => h
  (node.pair <| shortest_nat.pair <| shortest_double.pair shortest_double).via (fun _ => rfl)
    fun _ h => ⟨h.1.1, h.1.2, h.2.1⟩

/-! ## Flows -/

/-- The lists of a graph are led by the shortest forms of their lengths. -/
theorem PlacedGraph.shortest_codec : PlacedGraph.codec.Shortest PlacedGraph.Storable :=
  (PlacedNode.shortest_codec.list.pair Edge.shortest_codec.list).via (fun _ => rfl) fun _ h =>
    ⟨h.1.1, h.1.2, h.2.1, h.2.2⟩

namespace CompiledFlow

/-- The codec of flows is composed of codecs that write the fewest bytes, so it does. -/
theorem shortest_codec : codec.Shortest Storable :=
  (shortest_string.pair <| shortest_string.pair PlacedGraph.shortest_codec).via (fun _ => rfl)
    fun _ h => ⟨h.1, h.2.1, h.2.2⟩

/-- Of all bytes that are read as a flow, those that are written for it are the shortest, they are
read as the same flow, and no others are as short. -/
theorem toBytes_shortest {bytes : List UInt8} {f : CompiledFlow} (h : ofBytes bytes = .ok f) :
    f.toBytes.length ≤ bytes.length ∧ ofBytes f.toBytes = .ok f ∧
      (bytes.length = f.toBytes.length → bytes = f.toBytes) := by
  cases hdecode : codec.decode bytes with
  | error fault =>
    rw [ofBytes, hdecode] at h
    cases h
  | ok result =>
    obtain ⟨g, rest⟩ := result
    have hg : g = f := by
      rw [ofBytes, hdecode] at h
      exact Except.ok.inj h
    subst hg
    obtain ⟨read, rfl, hstorable, hshort⟩ := shortest_codec bytes g rest hdecode
    have hle : g.toBytes.length ≤ read.length := hshort.length_le
    rw [List.length_append]
    refine ⟨by omega, ?_, fun hlen => ?_⟩
    · have hagain := roundTrips_codec g hstorable []
      rw [List.append_nil] at hagain
      rw [ofBytes, toBytes, hagain]
      rfl
    · have hrest : rest = [] := List.eq_nil_of_length_eq_zero (by omega)
      have hread : g.toBytes = read := hshort.eq_of_length (by rw [← toBytes]; omega)
      rw [hrest, List.append_nil, hread]

/-- A flow with one comparison. -/
def looseFlow : CompiledFlow where
  ruleId := "r"
  summary := ""
  graph :=
    { nodes := [⟨⟨"cond-0", .condition "a == true" (.predicate ⟨"a", .equal, .bool true⟩)⟩,
        1, .zero, ⟨0x8000000000000000⟩⟩]
      edges := [] }

/-- Bytes for `looseFlow` with longer forms of a length, of the number of nodes, of the kind of the
node and of its layer, and a byte after the end. -/
def looseBytes : List UInt8 :=
  [251, 1, 0, 114, 0] ++ [252, 1, 0, 0, 0] ++ [6, 99, 111, 110, 100, 45, 48] ++ [251, 1, 0] ++
    [9, 97, 32, 61, 61, 32, 116, 114, 117, 101] ++ [0, 1, 97, 2, 61, 61, 1, 1] ++
    [253, 1, 0, 0, 0, 0, 0, 0, 0] ++ [0, 0, 0, 0, 0, 0, 0, 0] ++ [0, 0, 0, 0, 0, 0, 0, 128] ++
    [0] ++ [255]

/-- The loose bytes are read as the flow whose own bytes are fewer. -/
theorem toBytes_shortest_looseBytes : ofBytes looseBytes = .ok looseFlow ∧
    looseFlow.toBytes.length ≤ looseBytes.length ∧ ofBytes looseFlow.toBytes = .ok looseFlow ∧
      (looseBytes.length = looseFlow.toBytes.length → looseBytes = looseFlow.toBytes) :=
  have hread : ofBytes looseBytes = .ok looseFlow := by rfl
  ⟨hread, toBytes_shortest hread⟩

end CompiledFlow

end RuleFlow
