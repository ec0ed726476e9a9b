import RuleFlow.Canvas
import RuleFlow.Listing
import RuleFlow.Proofs.Rule.RoundTrip

/-!
# Placed graphs read back

A placed graph is read back from the text that is written for it.  What that takes is stated over
the graph as a whole: its counters are numbers of 64 bits, the operators of its comparisons are
those of symbols, and its doubles, coordinates and literals alike, have texts that name them.
-/

namespace RuleFlow

open Json

variable {d : ℕ}

/-! ## What stands in a graph -/

/-- The number of a literal. -/
def Scalar.doubles : Scalar → List Double
  | .number x => [x]
  | _ => []

def Rollup.counts (r : Rollup) : List ℕ := [r.total, r.succeeded, r.failed, r.pending]

def Detail.counts : Detail → List ℕ
  | .predicate _ => []
  | .group _ childCount => [childCount]

def Detail.conditions : Detail → List Condition
  | .predicate c => [c]
  | .group .. => []

def NodeData.counts : NodeData → List ℕ
  | .trigger _ _ executions | .action _ _ _ executions => executions.counts
  | .condition _ detail => detail.counts

def NodeData.conditions : NodeData → List Condition
  | .condition _ detail => detail.conditions
  | _ => []

namespace PlacedNode

def counts (n : PlacedNode Double) : List ℕ := n.layer :: n.node.data.counts

def doubles (n : PlacedNode Double) : List Double :=
  n.x :: n.y :: n.node.data.conditions.flatMap (·.value.doubles)

end PlacedNode

namespace PlacedGraph

/-- The layers of all nodes, and what their roll-ups and groups count. -/
def counts (g : PlacedGraph Double) : List ℕ := g.nodes.flatMap PlacedNode.counts

/-- The comparisons that nodes stand for. -/
def conditions (g : PlacedGraph Double) : List Condition :=
  g.nodes.flatMap (·.node.data.conditions)

/-- The coordinates of all nodes, and the numbers that comparisons compare with. -/
def doubles (g : PlacedGraph Double) : List Double := g.nodes.flatMap PlacedNode.doubles

end PlacedGraph

/-- A double that is written as a number and read back from there. -/
structure Double.Kept (x : Double) : Prop where
  finite : x.isFinite = true
  readsBack : x.ReadsBack

/-! ## Numbers and names -/

/-- A double is read from its text where a double is due, since it is written as a number. -/
theorem Double.Kept.reads_double {x : Double} (h : x.Kept) (d : ℕ) :
    (Reader.double d).Reads (.ofDouble x) x := by
  have hreads : (Number.real x).ReadsBack := by
    rw [Number.ReadsBack, Number.text, if_pos h.finite]
    exact h.readsBack
  rw [ofDouble, if_pos h.finite]
  exact Json.reads_double hreads d

/-- A literal in a graph is written under the name of its kind and is read back by it. -/
theorem Scalar.reads_taggedReader {s : Scalar} (h : ∀ x ∈ s.doubles, x.Kept) :
    (taggedReader (d + 1)).Reads s.toTaggedJson s := by
  cases s with
  | number x =>
    have hx := (h x (by simp [doubles])).reads_double d
    exact reads_union_content rfl (hx.map Scalar.number)
  | bool b => exact reads_union_content rfl ((reads_boolean d b).map Scalar.bool)
  | text s => exact reads_union_content rfl ((reads_string d s).map Scalar.text)
  | null => exact reads_union rfl rfl

theorem Combinator.reads_reader (kind : Combinator) : (reader d).Reads kind.toJson kind := by
  cases kind <;> exact reads_union rfl rfl

theorem Branch.reads_reader (b : Branch) : (reader d).Reads b.toJson b := by
  cases b <;> exact reads_union rfl rfl

/-! ## Nodes -/

/-- A roll-up is read back if its counters are numbers of 64 bits: greater ones are refused. -/
theorem Rollup.reads_reader {r : Rollup} (h : ∀ n ∈ r.counts, n < 2 ^ 64) :
    (reader (d + 1)).Reads r.toJson r := by
  simp only [counts, List.forall_mem_cons] at h
  obtain ⟨htotal, hsucceeded, hfailed, hpending, -⟩ := h
  have hstatus : (Status.reader.optional d).Reads (.ofOption Status.toJson r.lastStatus)
      r.lastStatus :=
    reads_ofOption (fun s => s.reads_reader) (fun s => ⟨s.name, rfl⟩) r.lastStatus
  refine reads_record
    (t := (r.total, r.succeeded, r.failed, r.pending, r.lastStatus, r.lastStartedAt, ())) ?_
    (by decide)
  exact .field (reads_count htotal d) (.field (reads_count hsucceeded d)
    (.field (reads_count hfailed d) (.field (reads_count hpending d) (.field hstatus
    (.field (reads_optional_string d _) .done)))))

/-- The detail of a condition is read back, at a depth that leaves room for the comparison and its
literal inside the variant. -/
theorem Detail.reads_reader {detail : Detail} (hcounts : ∀ n ∈ detail.counts, n < 2 ^ 64)
    (hoperators : ∀ c ∈ detail.conditions, ∃ symbol, c.operator = .ofSymbol symbol)
    (hdoubles : ∀ c ∈ detail.conditions, ∀ x ∈ c.value.doubles, x.Kept) :
    (reader (d + 3)).Reads detail.toJson detail := by
  cases detail with
  | predicate c =>
    have hoperator := hoperators c (by simp [conditions])
    have hvalue := Scalar.reads_taggedReader (d := d) (hdoubles c (by simp [conditions]))
    refine reads_union_content rfl
      (reads_record (t := (c.field, c.operator, c.value, ())) ?_ (by decide))
    exact .field (reads_string (d + 1) _)
      (.field (Operator.reads_reader hoperator) (.field hvalue .done))
  | group kind childCount =>
    have hcount := hcounts childCount (by simp [counts])
    refine reads_union_content rfl (reads_record (t := (kind, childCount, ())) ?_ (by decide))
    exact .field kind.reads_reader (.field (reads_count hcount (d + 1)) .done)

/-- What a node carries is read back by the kind of node, two levels above its detail. -/
theorem NodeData.reads_reader {data : NodeData} (hcounts : ∀ n ∈ data.counts, n < 2 ^ 64)
    (hoperators : ∀ c ∈ data.conditions, ∃ symbol, c.operator = .ofSymbol symbol)
    (hdoubles : ∀ c ∈ data.conditions, ∀ x ∈ c.value.doubles, x.Kept) :
    (reader (d + 5)).Reads data.toJson data := by
  cases data with
  | trigger label triggerType executions =>
    refine reads_union_content rfl
      (reads_record (t := (label, triggerType, executions, ())) ?_ (by decide))
    exact .field (reads_string (d + 3) _) (.field (reads_string (d + 3) _)
      (.field (Rollup.reads_reader hcounts) .done))
  | condition label detail =>
    refine reads_union_content rfl (reads_record (t := (label, detail, ())) ?_ (by decide))
    exact .field (reads_string (d + 3) _)
      (.field (Detail.reads_reader hcounts hoperators hdoubles) .done)
  | action label actionId actionType executions =>
    refine reads_union_content rfl
      (reads_record (t := (label, actionId, actionType, executions, ())) ?_ (by decide))
    exact .field (reads_string (d + 3) _) (.field (reads_string (d + 3) _)
      (.field (reads_optional_string (d + 3) _) (.field (Rollup.reads_reader hcounts) .done)))

/-- A node is read back with its place.  Its layer is among the counters of the graph and its
coordinates among the doubles. -/
theorem PlacedNode.reads_reader {n : PlacedNode Double} (hcounts : ∀ k ∈ n.counts, k < 2 ^ 64)
    (hoperators : ∀ c ∈ n.node.data.conditions, ∃ symbol, c.operator = .ofSymbol symbol)
    (hdoubles : ∀ x ∈ n.doubles, x.Kept) : (reader (d + 7)).Reads n.toJson n := by
  rw [counts, List.forall_mem_cons] at hcounts
  rw [doubles, List.forall_mem_cons, List.forall_mem_cons] at hdoubles
  obtain ⟨hlayer, hcounts⟩ := hcounts
  obtain ⟨hx, hy, hdoubles⟩ := hdoubles
  have hdata : (NodeData.reader (d + 5)).Reads n.node.data.toJson n.node.data :=
    NodeData.reads_reader hcounts hoperators fun c hc x hx =>
      hdoubles x (List.mem_flatMap.mpr ⟨c, hc, hx⟩)
  have hnode : (Node.reader (d + 6)).Reads n.node.toJson n.node := by
    refine reads_record (t := (n.node.id, n.node.data, ())) ?_ (by decide)
    exact .field (reads_string (d + 5) _) (.field hdata .done)
  refine reads_record (t := (n.node, n.layer, n.x, n.y, ())) ?_ (by decide)
  exact .field hnode (.field (reads_count hlayer (d + 6))
    (.field (hx.reads_double (d + 6)) (.field (hy.reads_double (d + 6)) .done)))

/-! ## Graphs -/

/-- An edge is read back under any id; the branch is absent or one of two names. -/
theorem Edge.reads_reader (e : Edge) : (reader (d + 1)).Reads e.toJson e := by
  have hbranch : (Branch.reader.optional d).Reads (.ofOption Branch.toJson e.branch) e.branch :=
    reads_ofOption (fun b => b.reads_reader) (fun b => ⟨b.variant, rfl⟩) e.branch
  refine reads_record (t := (e.id, e.source, e.target, e.branch, ())) ?_ (by decide)
  exact .field (reads_string d _) (.field (reads_string d _) (.field (reads_string d _)
    (.field hbranch .done)))

namespace PlacedGraph

/-- A graph is read back, nine levels above the literals in it. -/
theorem reads_reader {g : PlacedGraph Double} (hcounts : ∀ n ∈ g.counts, n < 2 ^ 64)
    (hoperators : ∀ c ∈ g.conditions, ∃ symbol, c.operator = .ofSymbol symbol)
    (hdoubles : ∀ x ∈ g.doubles, x.Kept) :
    (reader (d + 9)).Reads g.toJson g := by
  have hnodes : List.Forall₂ (PlacedNode.reader (d + 7)).Reads
      (g.nodes.map PlacedNode.toJson) g.nodes := by
    refine List.forall₂_map_left_iff.mpr (List.forall₂_same.mpr fun n hn => ?_)
    exact n.reads_reader (fun k hk => hcounts k (List.mem_flatMap.mpr ⟨n, hn, hk⟩))
      (fun c hc => hoperators c (List.mem_flatMap.mpr ⟨n, hn, hc⟩))
      fun x hx => hdoubles x (List.mem_flatMap.mpr ⟨n, hn, hx⟩)
  have hedges : List.Forall₂ (Edge.reader (d + 7)).Reads (g.edges.map Edge.toJson) g.edges :=
    List.forall₂_map_left_iff.mpr (List.forall₂_same.mpr fun e _ => e.reads_reader)
  refine reads_record (t := (g.nodes, g.edges, ())) ?_ (by decide)
  exact .field (reads_list hnodes) (.field (reads_list hedges) .done)

/-- A placed graph is read back from the text that is written for it, so it has the same listing and
the same canvas flow afterwards.  Its doubles are finite, and supposed to be read back from the
texts that are written for them. -/
theorem read_text_toJson (g : PlacedGraph Double) (hcounts : ∀ n ∈ g.counts, n < 2 ^ 64)
    (hoperators : ∀ c ∈ g.conditions, ∃ symbol, c.operator = .ofSymbol symbol)
    (hfinite : ∀ x ∈ g.doubles, x.isFinite = true)
    (hdoubles : ∀ x ∈ g.doubles, x.isFinite = true → x.ReadsBack) :
    ∃ g', reader.read g.toJson.text = .ok g' ∧ g' = g ∧
      (∀ name, g'.listing name = g.listing name) ∧ g'.canvas = g.canvas := by
  have hkept : ∀ x ∈ g.doubles, x.Kept := fun x hx =>
    ⟨hfinite x hx, hdoubles x hx (hfinite x hx)⟩
  have hreads : (reader depthLimit).Reads g.toJson g :=
    reads_reader (d := 118) hcounts hoperators hkept
  exact ⟨g, hreads.read_text, rfl, fun _ => rfl, rfl⟩

/-- A graph with a node, a detail, a literal, a status and a branch of every kind, counters and
layers up to the greatest, characters to escape, and coordinates that are no integers. -/
def sampleGraph : PlacedGraph Double where
  nodes :=
    [⟨⟨"trigger", .trigger "say \"hi\"\n" "order" ⟨2 ^ 64 - 1, 1, 2, 3, some .failed, some "now"⟩⟩,
      0, ⟨0x3fe0000000000000⟩, ⟨0x8000000000000000⟩⟩,
     ⟨⟨"cond-0", .condition "AND" (.group .and (2 ^ 64 - 1))⟩, 1, ⟨0xbfb999999999999a⟩, .zero⟩,
     ⟨⟨"cond-0-0", .condition "" (.group .or 0)⟩, 2, .zero, .zero⟩,
     ⟨⟨"cond-0-1", .condition "" (.predicate ⟨"a", .lessThan, .number ⟨0x400921fb54442d18⟩⟩)⟩, 2,
      .zero, .zero⟩,
     ⟨⟨"cond-0-2", .condition "" (.predicate ⟨"b", .other "~=", .bool true⟩)⟩, 2, .zero, .zero⟩,
     ⟨⟨"cond-0-3", .condition "" (.predicate ⟨"c", .contains, .text "straße\\"⟩)⟩, 2, .zero, .zero⟩,
     ⟨⟨"cond-0-4", .condition "" (.predicate ⟨"", .notEqual, .null⟩)⟩, 2, .zero, .zero⟩,
     ⟨⟨"action-0", .action "Mail" "a-0" none ⟨0, 0, 0, 0, some .success, none⟩⟩, 2 ^ 64 - 1,
      .zero, .zero⟩,
     ⟨⟨"action-1", .action "Log" "a-1" (some "log") ⟨0, 0, 0, 0, some .pending, none⟩⟩, 3, .zero,
      .zero⟩]
  edges :=
    [⟨"e-0", "trigger", "cond-0", none⟩, ⟨"e-1", "cond-0-0", "action-0", some .passed⟩,
     ⟨"e-2", "cond-0-0", "action-1", some .failed⟩]

theorem read_text_sampleGraph : (∀ n ∈ sampleGraph.counts, n < 2 ^ 64) ∧
    (∀ c ∈ sampleGraph.conditions, ∃ symbol, c.operator = .ofSymbol symbol) ∧
    (∀ x ∈ sampleGraph.doubles, x.isFinite = true) ∧
    (∀ x ∈ sampleGraph.doubles, x.isFinite = true → x.ReadsBack) ∧
    ∃ g', reader.read sampleGraph.toJson.text = .ok g' ∧ g' = sampleGraph ∧
      (∀ name, g'.listing name = sampleGraph.listing name) ∧ g'.canvas = sampleGraph.canvas := by
  have hcounts : ∀ n ∈ sampleGraph.counts, n < 2 ^ 64 := by decide
  have hoperators : ∀ c ∈ sampleGraph.conditions, ∃ symbol, c.operator = .ofSymbol symbol := by
    have hsymbols : ∀ c ∈ sampleGraph.conditions, c.operator = .ofSymbol c.operator.symbol := by
      decide
    exact fun c hc => ⟨_, hsymbols c hc⟩
  have hfinite : ∀ x ∈ sampleGraph.doubles, x.isFinite = true := by decide
  have hdoubles : ∀ x ∈ sampleGraph.doubles, x.isFinite = true → x.ReadsBack := by
    unfold Double.ReadsBack
    decide +kernel
  exact ⟨hcounts, hoperators, hfinite, hdoubles,
    read_text_toJson sampleGraph hcounts hoperators hfinite hdoubles⟩

end PlacedGraph

end RuleFlow
