import RuleFlow.Loading
import RuleFlow.Proofs.Logic.Json

/-!
# Bundles saved and reloaded

A bundle that has been loaded is read back from the text that is written for it, whatever spelling
it was loaded from: the text is one that the readers take (`Json.Step.Reads`), because what the
readers give (`Json.Step.Ensures`) is written no deeper than it was read.
-/

namespace RuleFlow

open Json

variable {d : ℕ}

/-! ## Equality

Everything is compared as it is, except for numbers in comparisons. -/

/-- Equality of rules, with literals compared by `Scalar.agrees`. -/
def Rule.agrees (a b : Rule) : Bool :=
  a.id == b.id && a.triggerType == b.triggerType &&
    match a.logic, b.logic with
    | none, none => true
    | some s, some t => s.agrees t
    | _, _ => false

/-- Equality of bundles, with literals compared by `Scalar.agrees`. -/
def Bundle.agrees (a b : Bundle) : Bool :=
  a.rule.agrees b.rule && a.actions == b.actions && a.executions == b.executions

/-! ## Actions and executions -/

/-- An action is read back, with or without a type. -/
theorem Action.reads_reader (a : Action) : (reader (d + 1)).Reads a.toJson a := by
  refine reads_record (t := (a.id, a.label, a.actionType, ())) ?_ (by decide)
  exact .field (reads_string d _) (.field (reads_string d _)
    (.field (reads_optional_string d _) .done))

theorem Action.reads_list (actions : List Action) :
    (reader.list (d + 2)).Reads (.array (actions.map toJson)) actions :=
  Json.reads_list (List.forall₂_map_left_iff.mpr (List.forall₂_same.mpr fun a _ => a.reads_reader))

theorem Status.reads_reader (s : Status) : (reader d).Reads s.toJson s := by
  cases s <;> exact reads_union rfl rfl

/-- An execution is read back, whether it names an action or not. -/
theorem Execution.reads_reader (e : Execution) : (reader (d + 1)).Reads e.toJson e := by
  refine reads_record (t := (e.id, e.status, e.startedAt, e.actionId, ())) ?_ (by decide)
  exact .field (reads_string d _) (.field (Status.reads_reader _) (.field (reads_string d _)
    (.field (reads_optional_string d _) .done)))

theorem Execution.reads_list (executions : List Execution) :
    (reader.list (d + 2)).Reads (.array (executions.map toJson)) executions :=
  Json.reads_list (List.forall₂_map_left_iff.mpr (List.forall₂_same.mpr fun e _ => e.reads_reader))

/-! ## Rules -/

/-- Where the logic of a rule is read, there is a tree that fits the depth, or none. -/
theorem Logic.ensures_lenientReader (d : ℕ) :
    (lenientReader d).Ensures fun r => ∀ t ∈ r, t.Loaded d := by
  refine (Reader.ensures_optional (Reader.ensures_value d)).bind fun r hr => ?_
  split
  case _ => exact Step.ensures_pure (by simp)
  case _ v =>
    split
    case _ t ht => exact Step.ensures_pure (by simpa using loaded_ofJson (hr v rfl) ht)
    case _ =>
      extract_lets done
      split
      · exact Step.ensures_pure (by simp)
      · exact Step.ensures_bind fun _ => Step.ensures_pure (by simp)

/-- A tree is an object, so it is not written like null. -/
theorem Logic.head?_compact_toJson_ne (t : Logic) : t.toJson.compact.head? ≠ some 'n' := by
  cases t <;> simp [toJson, compact_object]

/-- The lenient reader makes the tree of what the reader of any value or null makes. -/
theorem Logic.reads_lenientReader {v : Json} {o : Option Json}
    (h : (Reader.value.optional d).Reads v o) : (lenientReader d).Reads v (o.bind ofJson) := by
  refine h.bind fun rest aside => ?_
  cases o with
  | none => exact ⟨aside, rfl⟩
  | some v =>
    cases ht : ofJson v with
    | some t => exact ⟨aside, by simp [ht]⟩
    | none =>
      cases hnull : v.isNull with
      | true => exact ⟨aside, by simp [ht, hnull]⟩
      | false => exact ⟨aside ++ [v], by simp [ht, hnull, Step.setAside]⟩

namespace Rule

/-- What a rule is when it has been read at a depth. -/
def Loaded (d : ℕ) (r : Rule) : Prop := ∀ t ∈ r.logic, t.Loaded d

/-- What the readers of its fields give is what a rule that has been loaded is made of. -/
theorem ensures_reader : (reader (d + 1)).Ensures (Loaded d) := by
  refine Reader.ensures_record (.field (Step.ensures_true _) (by simp) (by simp)
    (.field (Step.ensures_true _) (by simp) (by simp)
    (.field (Logic.ensures_lenientReader d) ?_ ?_ .done))) fun t ht => ht.2.2.1
  · rintro _ ⟨⟩; simp
  · rintro _ ⟨⟩; simp

/-- A rule is read with any logic. -/
theorem reads_object {v : Json} {o : Option Json} (h : (Reader.value.optional d).Reads v o)
    (id triggerType : String) :
    (reader (d + 1)).Reads
      (.object [("id", .string id), ("trigger_type", .string triggerType), ("logic", v)])
      ⟨id, triggerType, o.bind Logic.ofJson⟩ := by
  refine reads_record (t := (id, triggerType, o.bind Logic.ofJson, ())) ?_ (by decide)
  exact .field (reads_string d _) (.field (reads_string d _)
    (.field (Logic.reads_lenientReader h) .done))

/-- A rule that has been loaded is read back but for the sign of zeros. -/
theorem reads_reader {r : Rule} (h : r.Loaded d)
    (hnamed : ∀ t ∈ r.logic, ∀ c ∈ t.conditions, c.value.Named) :
    ∃ r', (reader (d + 1)).Reads r.toJson r' ∧ r'.agrees r = true ∧ r'.toJson = r.toJson := by
  cases hr : r.logic with
  | none =>
    refine ⟨⟨r.id, r.triggerType, none⟩, ?_, by simp [agrees, hr], by simp [toJson, hr]⟩
    rw [toJson, hr]
    exact reads_object reads_optional_null r.id r.triggerType
  | some t =>
    obtain ⟨t', ht', hagrees, hjson⟩ := Logic.exists_ofJson_toJson (h t hr).conditions
    have hfits := (h t hr).fits_toJson (hnamed t hr)
    have hread := hfits.reads.optional t.head?_compact_toJson_ne
    refine ⟨⟨r.id, r.triggerType, some t'⟩, ?_, by simp [agrees, hr, hagrees],
      by simp [toJson, ofOption, hr, hjson]⟩
    rw [toJson, hr, ← ht']
    exact reads_object hread r.id r.triggerType

end Rule

/-! ## Bundles -/

namespace Bundle

theorem ensures_reader : (reader (d + 2)).Ensures fun b => b.rule.Loaded d :=
  Reader.ensures_record (.field Rule.ensures_reader (by rintro _ ⟨⟩) (by rintro _ ⟨⟩)
    (.field (Step.ensures_true _) (by simp) (by simp)
    (.field (Step.ensures_true _) (by simp) (by simp) .done))) fun _ ht => ht.1

/-- A bundle is read with any rule. -/
theorem reads_object {v : Json} {rule : Rule} (h : (Rule.reader (d + 2)).Reads v rule)
    (actions : List Action) (executions : List Execution) :
    (reader (d + 3)).Reads
      (.object [("rule", v), ("actions", .array (actions.map Action.toJson)),
        ("executions", .array (executions.map Execution.toJson))])
      ⟨rule, actions, executions⟩ := by
  refine reads_record (t := (rule, actions, executions, ())) ?_ (by decide)
  exact .field h (.field (Action.reads_list _) (.field (Execution.reads_list _) .done))

/-- A bundle is read back part by part, with the rule two levels below it. -/
theorem reads_reader {b : Bundle} (h : b.rule.Loaded (d + 1))
    (hnamed : ∀ t ∈ b.rule.logic, ∀ c ∈ t.conditions, c.value.Named) :
    ∃ b', (reader (d + 3)).Reads b.toJson b' ∧ b'.agrees b = true ∧ b'.toJson = b.toJson := by
  obtain ⟨r', hreads, hagrees, hjson⟩ := Rule.reads_reader h hnamed
  exact ⟨⟨r', b.actions, b.executions⟩, reads_object hreads b.actions b.executions,
    by simp [agrees, hagrees], by simp [toJson, hjson]⟩

/-- A bundle that has been loaded is loaded again from the text that is written for it, with nothing
changed but the sign of zeros, and the text written for it then is the same.  The numbers that are
not written as integers are supposed to have texts that name them. -/
theorem ofText_text_toJson (text : String) (b : Bundle) (hb : ofText text = .ok b)
    (hdoubles : ∀ t ∈ b.rule.logic, ∀ c ∈ t.conditions, ∀ x,
      c.value = .number x → x.isSmallWhole = false → x.ReadsBack) :
    ∃ b', ofText b.toJson.text = .ok b' ∧ b'.agrees b = true ∧ b'.toJson.text = b.toJson.text := by
  have hread : reader.read text = .ok b := by
    rw [ofText] at hb
    cases hread : reader.read text with
    | ok b' => rw [hread] at hb; cases hb; rfl
    | error e => rw [hread] at hb; cases hb
  have hloaded : b.rule.Loaded 125 := ensures_reader.of_read hread
  have hnamed : ∀ t ∈ b.rule.logic, ∀ c ∈ t.conditions, c.value.Named := by
    intro t ht c hc
    cases hvalue : c.value with
    | number x => exact hdoubles t ht c hc x hvalue
    | _ => trivial
  obtain ⟨b', hreads, hagrees, hjson⟩ := reads_reader hloaded hnamed
  refine ⟨b', ?_, hagrees, by rw [hjson]⟩
  rw [ofText, hreads.read_text]
  rfl

/-- A rule spelled as no rule is written: an array for the record, other keys and another order of
them, a value among the children that is no tree, an empty group, and a negative zero. -/
def spelledText : String :=
  "\x7b\"rule\":[\"r\",\"t\",\x7b\"ALL\":[" ++
    "\x7b\"op\":\"<\",\"field\":\"a\",\"value\":0.5\x7d,7,\x7b\"any\":[]\x7d," ++
    "\x7b\"op\":\"~\",\"field\":\"b\",\"value\":-0\x7d]\x7d]," ++
    "\"actions\":[[\"a\",\"b\"]]\x7d"

/-- What `spelledText` stands for. -/
def spelledBundle : Bundle where
  rule :=
    { id := "r"
      triggerType := "t"
      logic := some (.group .and
        [.leaf ⟨"a", .lessThan, .number ⟨0x3fe0000000000000⟩⟩, .group .or [],
         .leaf ⟨"b", .other "~", .number ⟨0x8000000000000000⟩⟩]) }
  actions := [⟨"a", "b", none⟩]
  executions := []

theorem ofText_spelledText : ofText spelledText = .ok spelledBundle := by decide +kernel

/-- The text of its only double that is no small whole number names it. -/
theorem spelledBundle_doubles : ∀ t ∈ spelledBundle.rule.logic, ∀ c ∈ t.conditions, ∀ x,
    c.value = .number x → x.isSmallWhole = false → x.ReadsBack := by
  rintro _ ⟨⟩ c hc x hx hwhole
  simp only [Logic.conditions, Logic.conditionsOfAll, List.append_nil, List.nil_append,
    List.singleton_append, List.mem_cons, List.not_mem_nil, or_false] at hc
  obtain rfl | rfl := hc
  · cases hx
    rw [Double.ReadsBack]
    decide +kernel
  · cases hx
    exact absurd hwhole (by decide +kernel)

/-- The spelled bundle is read back from the text written for it. -/
theorem ofText_text_spelledBundle : ofText spelledText = .ok spelledBundle ∧
    ∃ b', ofText spelledBundle.toJson.text = .ok b' ∧ b'.agrees spelledBundle = true ∧
      b'.toJson.text = spelledBundle.toJson.text :=
  ⟨ofText_spelledText,
    ofText_text_toJson spelledText spelledBundle ofText_spelledText spelledBundle_doubles⟩

end Bundle

end RuleFlow
