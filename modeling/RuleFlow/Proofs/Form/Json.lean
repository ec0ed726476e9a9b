import RuleFlow.Form
import RuleFlow.Proofs.Logic.Json

/-!
# Forms and trees in JSON

A row is written like the comparison that it stands for, so the rows of a form are written like the
children of its tree, and what reads a tree reads a row.  A form has two readers, one of texts and
one of values, which see the same fields; both take back what is written for a form.
-/

namespace RuleFlow

open Json

variable {d : ℕ}

/-- Equality of forms, with literals compared by `Scalar.agrees`. -/
def Form.agrees (a b : Form) : Bool :=
  a.rows.isEqv b.rows Condition.agrees && a.combinator == b.combinator

/-- The comparison with the literal that its JSON form has, which has no negative zero. -/
def Condition.plain (c : Condition) : Condition := { c with value := .ofJson c.value.toJson }

/-- The sign of zero is all that a comparison loses in JSON. -/
theorem Condition.plain_agrees {c : Condition} (hc : c.Loaded) : c.plain.agrees c = true := by
  simp [agrees, plain, (Scalar.ofJson_toJson hc.value).1]

/-! ## Rows -/

namespace Form

/-- A row is written as the comparison is that it stands for. -/
theorem rowToJson_eq (c : Condition) : rowToJson c = Logic.toJson (.leaf c) := by
  rw [rowToJson, Logic.toJson]

theorem toJsonAll_map_leaf (rows : List Condition) :
    Logic.toJsonAll (rows.map .leaf) = rows.map rowToJson := by
  rw [Logic.toJsonAll_eq_map, List.map_map]
  exact List.map_congr_left fun c _ => (rowToJson_eq c).symm

/-- A row is read back from its value. -/
theorem rowOfJson_rowToJson {c : Condition} (hc : c.Loaded) :
    rowOfJson (rowToJson c) = some c.plain := by
  simp [rowOfJson, rowToJson, fields?, member?, List.lookup_cons, Operator.toJson,
    Operator.ofSymbol_symbol hc.operator, Condition.plain]

/-- A row is read back from its text, if the number in it is named by the text. -/
theorem reads_rowReader {c : Condition} (hc : c.Loaded) (hnamed : c.value.Named) :
    (rowReader (d + 1)).Reads (rowToJson c) c.plain := by
  have hvalue : (Scalar.reader d).Reads c.value.toJson (.ofJson c.value.toJson) :=
    (Scalar.fits_toJson hc.value hnamed).reads.map Scalar.ofJson
  refine reads_record (t := (c.field, c.operator, Scalar.ofJson c.value.toJson, ())) ?_ (by decide)
  exact .field (reads_string d _) (.field (Operator.reads_reader hc.operator) (.field hvalue .done))

/-! ## Forms -/

/-- A form is read back from its value, with the rows in their order. -/
theorem ofJson_toJson {f : Form} (h : ∀ c ∈ f.rows, c.Loaded) :
    ofJson f.toJson = some ⟨f.rows.map Condition.plain, f.combinator⟩ := by
  have hrows : (f.rows.map rowToJson).mapM rowOfJson = some (f.rows.map Condition.plain) := by
    generalize f.rows = rows at h
    induction rows with
    | nil => rfl
    | cons c rows ih =>
      rw [List.forall_mem_cons] at h
      simp [rowOfJson_rowToJson h.1, ih h.2]
  simp [ofJson, toJson, fields?, member?, List.lookup_cons, hrows, Combinator.ofName?_word]

/-- A form is read back from its text to the same result as from its value. -/
theorem reads_reader {f : Form} (h : ∀ c ∈ f.rows, c.Loaded)
    (hnamed : ∀ c ∈ f.rows, c.value.Named) :
    (reader (d + 3)).Reads f.toJson ⟨f.rows.map Condition.plain, f.combinator⟩ := by
  have hrows : List.Forall₂ (rowReader (d + 1)).Reads (f.rows.map rowToJson)
      (f.rows.map Condition.plain) := by
    rw [List.forall₂_map_left_iff, List.forall₂_map_right_iff, List.forall₂_same]
    exact fun c hc => reads_rowReader (h c hc) (hnamed c hc)
  have hcombinator : (combinatorReader (d + 2)).Reads (.string f.combinator.word) f.combinator :=
    (reads_string (d + 2) f.combinator.word).refine (by rw [Combinator.ofName?_word])
  refine reads_record (t := (f.rows.map Condition.plain, f.combinator, ())) ?_ (by decide)
  exact .field (reads_list hrows) (.field hcombinator .done)

theorem isEqv_plain {rows : List Condition} (h : ∀ c ∈ rows, c.Loaded) :
    (rows.map Condition.plain).isEqv rows Condition.agrees = true := by
  induction rows with
  | nil => rfl
  | cons c rows ih =>
    rw [List.forall_mem_cons] at h
    simp [List.isEqv, Condition.plain_agrees h.1, ih h.2]

/-- Two rows or more make a group of the form's combinator. -/
theorem toLogic_of_two_le {f : Form} (h : 2 ≤ f.rows.length) :
    f.toLogic = some (.group f.combinator (f.rows.map .leaf)) := by
  obtain ⟨rows, kind⟩ := f
  match rows, h with
  | _ :: _ :: _, _ => rfl

/-- The JSON forms of forms and of trees are of one kind.  A form is read back from its value, equal
but for the sign of zeros, and from the text of it too if the numbers that are not written as
integers are read back from theirs.  The rows of two and more are the children of the form's tree,
and what reads a tree reads every row as its comparison. -/
theorem json_matches_tree (f : Form) (h : ∀ c ∈ f.rows, c.Loaded) :
    (∃ f', ofJson f.toJson = some f' ∧ f'.agrees f = true ∧
      ((∀ c ∈ f.rows, c.value.Named) → reader.read f.toJson.text = .ok f')) ∧
    (2 ≤ f.rows.length → ∃ items,
      f.toJson = .object [("rows", .array items), ("combinator", .string f.combinator.word)] ∧
      f.toLogic.map Logic.toJson = some (.object [(f.combinator.key, .array items)])) ∧
    ∀ c ∈ f.rows, ∃ t, Logic.ofJson (rowToJson c) = some t ∧ t.agrees (.leaf c) = true := by
  refine ⟨⟨_, ofJson_toJson h, ?_, fun hnamed => ?_⟩, fun hlength => ?_, fun c hc => ?_⟩
  · simp [agrees, isEqv_plain h]
  · exact Step.Reads.read_text (reads_reader (d := 124) h hnamed)
  · refine ⟨f.rows.map rowToJson, rfl, ?_⟩
    rw [toLogic_of_two_le hlength, Option.map_some, Logic.toJson, toJsonAll_map_leaf]
  · have hagrees := Condition.plain_agrees (h c hc)
    exact ⟨.leaf c.plain, by rw [rowToJson_eq, Logic.ofJson_toJson_leaf (h c hc), Condition.plain],
      by rw [Logic.agrees, hagrees]⟩

/-- A form with a literal of every kind, one of them a negative zero, and an operator nobody
knows. -/
def sampleForm : Form where
  rows :=
    [⟨"total", .lessThan, .number ⟨0x3fe0000000000000⟩⟩,
     ⟨"count", .equal, .number ⟨0x8000000000000000⟩⟩, ⟨"flag", .other "is", .bool true⟩,
     ⟨"name", .contains, .text "straße"⟩, ⟨"", .notEqual, .null⟩]
  combinator := .or

theorem json_matches_tree_sampleForm : (∀ c ∈ sampleForm.rows, c.Loaded) ∧
    (∃ f', ofJson sampleForm.toJson = some f' ∧ f'.agrees sampleForm = true ∧
      reader.read sampleForm.toJson.text = .ok f') ∧
    (∃ items, sampleForm.toJson = .object [("rows", .array items), ("combinator", .string "OR")] ∧
      sampleForm.toLogic.map Logic.toJson = some (.object [("or", .array items)])) ∧
    ∀ c ∈ sampleForm.rows, ∃ t,
      Logic.ofJson (rowToJson c) = some t ∧ t.agrees (.leaf c) = true := by
  have hloaded : ∀ c ∈ sampleForm.rows, c.Loaded := by
    have hsymbols : ∀ c ∈ sampleForm.rows, c.operator = .ofSymbol c.operator.symbol := by decide
    have hvalues : ∀ c ∈ sampleForm.rows, c.value.Loaded := by
      simp only [sampleForm, List.forall_mem_cons, List.not_mem_nil, false_implies, implies_true,
        Scalar.Loaded]
      decide
    exact fun c hc => ⟨⟨_, hsymbols c hc⟩, hvalues c hc⟩
  have hnamed : ∀ c ∈ sampleForm.rows, c.value.Named := by
    simp only [sampleForm, List.forall_mem_cons, List.not_mem_nil, false_implies, implies_true,
      Scalar.Named, Double.ReadsBack]
    decide +kernel
  obtain ⟨⟨f', hvalue, hagrees, htext⟩, hitems, hrows⟩ := json_matches_tree sampleForm hloaded
  exact ⟨hloaded, ⟨f', hvalue, hagrees, htext hnamed⟩, hitems (by decide), hrows⟩

end Form

end RuleFlow
