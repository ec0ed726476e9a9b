import RuleFlow.CommandLine
import RuleFlow.Proofs.Json.Numbers
import RuleFlow.Proofs.Rule.RoundTrip
import RuleFlow.Proofs.Wire.RoundTrip

/-!
# Rules in two formats

A stored rule and a bundle that hold the same values load alike, under whatever keys the stored rule
is written, and whatever its logic is.  Both formats read the logic as a free-form value or null and
make the same tree of it.  A number in it may be read as a neighbour of the number that was written,
but as the same one in both formats.  So nothing has to be known of the logic but that it can be
read at the depth where the bundle has it; the stored rule has it less deep.
-/

namespace RuleFlow

open Json

variable {d : ℕ}

/-! ## Texts -/

namespace StoredRule

/-- The keys that a stored rule is written with, where there is a choice. -/
structure Spelling where
  triggerType : String
  label : String
  actionType : String
  executions : String
deriving DecidableEq, Repr

/-- The keys are among those that a stored rule is read from. -/
structure Spelling.Accepted (s : Spelling) : Prop where
  triggerType : s.triggerType ∈ ["trigger_type", "triggerType", "trigger"]
  label : s.label ∈ ["label", "name"]
  actionType : s.actionType ∈ ["action_type", "type"]
  executions : s.executions ∈ ["recent_executions", "recentExecutions"]

def actionToJson (s : Spelling) (a : Action) : Json :=
  .object [("id", .string a.id), (s.label, .string a.label),
    (s.actionType, .ofOption .string a.actionType)]

/-- The record of a stored rule. -/
def toJson (s : Spelling) (r : StoredRule) : Json :=
  .object [("id", .string r.id), (s.triggerType, .string r.triggerType),
    ("logic", r.logic.getD .null), ("actions", .array (r.actions.map (actionToJson s))),
    (s.executions, .array (r.recentExecutions.map Execution.toJson))]

/-- The bundle that holds the values of a stored rule. -/
def bundleJson (r : StoredRule) : Json :=
  .object [("rule", .object [("id", .string r.id), ("trigger_type", .string r.triggerType),
      ("logic", r.logic.getD .null)]),
    ("actions", .array (r.actions.map Action.toJson)),
    ("executions", .array (r.recentExecutions.map Execution.toJson))]

/-- The bundle that is loaded of the values of a stored rule. A number in its logic counts as the
one that the number's text names. -/
def loaded (r : StoredRule) : Bundle where
  rule :=
    { id := r.id
      triggerType := r.triggerType
      logic := Logic.ofJson (r.logic.getD .null).reread }
  actions := r.actions
  executions := r.recentExecutions

/-! ## Reading -/

/-- An action of a stored rule is read under any of its keys. -/
theorem reads_actionReader {s : Spelling} (hs : s.Accepted) (a : Action) :
    (actionReader (d + 1)).Reads (actionToJson s a) a := by
  refine reads_record (t := (a.id, a.label, a.actionType, ())) ?_ (by decide)
  exact .field (reads_string d _) (.keyed hs.label (reads_string d _)
    (.keyed hs.actionType (reads_optional_string d _) .done))

theorem reads_actions {s : Spelling} (hs : s.Accepted) (actions : List Action) :
    (actionReader.list (d + 2)).Reads (.array (actions.map (actionToJson s))) actions :=
  reads_list (List.forall₂_map_left_iff.mpr
    (List.forall₂_same.mpr fun a _ => reads_actionReader hs a))

/-- A stored rule is read under any of its keys.  Its logic is a free-form value or missing. -/
theorem reads_reader {s : Spelling} (hs : s.Accepted) (r : StoredRule) {logic : Option Json}
    (hlogic : (Reader.value.optional (d + 2)).Reads (r.logic.getD .null) logic) :
    (reader (d + 3)).Reads (r.toJson s) { r with logic } := by
  refine reads_record
    (t := (r.id, r.triggerType, logic, r.actions, r.recentExecutions, ())) ?_ (by decide)
  exact .field (reads_string (d + 2) _) (.keyed hs.triggerType (reads_string (d + 2) _)
    (.field hlogic (.field (reads_actions hs _)
    (.keyed hs.executions (Execution.reads_list _) .done))))

/-- The bundle of the same values is read with the tree that its logic stands for. -/
theorem reads_bundleJson (r : StoredRule) {logic : Option Json}
    (hlogic : (Reader.value.optional (d + 1)).Reads (r.logic.getD .null) logic) :
    (Bundle.reader (d + 3)).Reads r.bundleJson
      ⟨⟨r.id, r.triggerType, logic.bind Logic.ofJson⟩, r.actions, r.recentExecutions⟩ :=
  Bundle.reads_object (Rule.reads_object hlogic r.id r.triggerType) r.actions r.recentExecutions

/-- Missing logic and null are no tree alike. -/
theorem bind_ofJson (logic : Option Json) :
    logic.bind Logic.ofJson = Logic.ofJson (logic.getD .null) := by
  cases logic <;> rfl

/-- A stored rule and the bundle of its values are read, with one tree made of the logic. -/
theorem exists_ofText {s : Spelling} (hs : s.Accepted) (r : StoredRule)
    (hlogic : Fits Number.Readable 125 (r.logic.getD .null)) :
    (∃ logic : Option Json, ofText (r.toJson s).text = .ok { r with logic } ∧
      logic.bind Logic.ofJson = r.loaded.rule.logic) ∧
    Bundle.ofText r.bundleJson.text = .ok r.loaded := by
  obtain ⟨logic, hsame, hreads⟩ := hlogic.exists_reads_optional
  have hstored := (reads_reader (d := 124) hs r (hreads 126 (by decide))).read_text
  have hbundle := (reads_bundleJson (d := 124) r (hreads 125 (by decide))).read_text
  rw [bind_ofJson, hsame] at hbundle
  exact ⟨⟨logic, by rw [ofText, hstored]; rfl, by rw [bind_ofJson, hsame]; rfl⟩,
    by rw [Bundle.ofText, hbundle]; rfl⟩

end StoredRule

/-! ## Loading -/

namespace Text

theorem isBlank_iff {s : String} : isBlank s = true ↔ ∀ c ∈ s.toList, isBlankChar c = true := by
  rw [isBlank, List.all_eq_true]

theorem isBlank_eq_false_iff {s : String} :
    isBlank s = false ↔ ∃ c ∈ s.toList, isBlankChar c = false := by
  rw [isBlank, List.all_eq_false]
  simp

end Text

theorem textOf_toUTF8 (s : String) : textOf s.toUTF8.data.toList = .ok s := by
  rw [textOf, Array.toArray_toList, Wire.fromUTF8?_toUTF8]

namespace CommandLine

/-- Only the file of the configuration matters for it. -/
theorem LayoutConfig.ofFile_congr {read read' : String → Except FileFault Bytes} {path : String}
    (h : read path = read' path) :
    LayoutConfig.ofFile read path = LayoutConfig.ofFile read' path := by
  rw [LayoutConfig.ofFile, LayoutConfig.ofFile, h]

/-- What a run does depends on the rule file only through what is loaded from it. -/
theorem Options.run_congr (o : Options) {input input' : InputFormat}
    {read read' : String → Except FileFault Bytes} {text text' : String}
    (hread : read o.rulePath = .ok text.toUTF8.data.toList)
    (hread' : read' o.rulePath = .ok text'.toUTF8.data.toList)
    (hload : input.load text = input'.load text')
    (hconfig : ∀ path ∈ o.config, read path = read' path) :
    Options.run { o with input } read = Options.run { o with input := input' } read' := by
  have hfile : ∀ path ∈ o.config,
      LayoutConfig.ofFile read path = LayoutConfig.ofFile read' path := fun path hpath =>
    LayoutConfig.ofFile_congr (hconfig path hpath)
  simp only [Options.run, hread, hread', bind, Except.bind, Except.mapError, textOf_toUTF8, hload]
  cases hpath : o.config with
  | none => rfl
  | some path => simp only [hfile path hpath]

end CommandLine

namespace StoredRule

open CommandLine

/-- A stored rule, under any of its keys, and the bundle of its values load alike, if the trigger
has a character that is no white space; otherwise the stored rule is refused.  So the command line
makes the same of both in the first case, whatever it is asked for. -/
theorem load_stored_eq_load_bundle (r : StoredRule) (s : Spelling) (hs : s.Accepted)
    (hlogic : Fits Number.Valid 125 (r.logic.getD .null)) :
    ((∃ c ∈ r.triggerType.toList, Text.isBlankChar c = false) →
      (InputFormat.stored.load (r.toJson s).text = .ok r.loaded ∧
        InputFormat.bundle.load r.bundleJson.text = .ok r.loaded) ∧
      ∀ (o : Options) (read read' : String → Except FileFault Bytes),
        read o.rulePath = .ok (r.toJson s).text.toUTF8.data.toList →
        read' o.rulePath = .ok r.bundleJson.text.toUTF8.data.toList →
        (∀ path ∈ o.config, read path = read' path) →
        Options.run { o with input := .stored } read =
          Options.run { o with input := .bundle } read') ∧
    ((∀ c ∈ r.triggerType.toList, Text.isBlankChar c = true) →
      InputFormat.stored.load (r.toJson s).text = .error (.blankTrigger r.id)) := by
  obtain ⟨⟨logic, hstored, hsame⟩, hbundle⟩ :=
    exists_ofText hs r (hlogic.imp fun _ => Number.Valid.readable)
  have hload : InputFormat.stored.load (r.toJson s).text = toBundle { r with logic } := by
    rw [InputFormat.load, hstored]
    rfl
  refine ⟨fun hvisible => ?_, fun hblank => ?_⟩
  · have hvalue : InputFormat.stored.load (r.toJson s).text = .ok r.loaded := by
      rw [hload, toBundle, toBundle?, Text.isBlank_eq_false_iff.mpr hvisible, tree?]
      dsimp only
      rw [hsame]
      rfl
    exact ⟨⟨hvalue, hbundle⟩, fun o read read' hread hread' hconfig =>
      o.run_congr hread hread' (hvalue.trans hbundle.symm) hconfig⟩
  · rw [hload, toBundle, toBundle?, Text.isBlank_iff.mpr hblank]
    rfl

/-- A rule of which no field is empty. The logic has a number that is no integer, a child that is no
tree, and a key that is not used. -/
def exportedRule : StoredRule where
  id := "r-1"
  triggerType := " order\t"
  logic := some (.object
    [("and", .array
      [.object [("field", .string "total"), ("op", .string ">"),
        ("value", .number (.real ⟨0x3fb999999999999a⟩))],
       .object [("not", .array [.bool true, .number (.integer (2 ^ 64 - 1))])]]),
     ("note", .null)])
  actions := [⟨"a-1", "Mail", some "email"⟩, ⟨"a-2", "Log", none⟩]
  recentExecutions := [⟨"x-1", .failed, "2024-01-01", some "a-1"⟩]

/-- Keys that are not the first that are looked for. -/
def exportedSpelling : Spelling := ⟨"triggerType", "name", "type", "recentExecutions"⟩

/-- The exported rule and its bundle load alike, with an old key for every field that has one. -/
theorem load_stored_eq_load_bundle_exportedRule : exportedSpelling.Accepted ∧
    Fits Number.Valid 125 (exportedRule.logic.getD .null) ∧
    ((InputFormat.stored.load (exportedRule.toJson exportedSpelling).text =
          .ok exportedRule.loaded ∧
        InputFormat.bundle.load exportedRule.bundleJson.text = .ok exportedRule.loaded) ∧
      ∀ (o : Options) (read read' : String → Except FileFault Bytes),
        read o.rulePath = .ok (exportedRule.toJson exportedSpelling).text.toUTF8.data.toList →
        read' o.rulePath = .ok exportedRule.bundleJson.text.toUTF8.data.toList →
        (∀ path ∈ o.config, read path = read' path) →
        Options.run { o with input := .stored } read =
          Options.run { o with input := .bundle } read') := by
  have hs : exportedSpelling.Accepted := ⟨by decide, by decide, by decide, by decide⟩
  have hvalue : Number.Valid (.real ⟨0x3fb999999999999a⟩) := by
    rw [Number.Valid]
    decide
  have hcomparison : Fits Number.Valid 123
      (.object [("field", .string "total"), ("op", .string ">"),
        ("value", .number (.real ⟨0x3fb999999999999a⟩))]) := by
    refine .object (by decide) ?_
    simpa using ⟨.string _, .string _, .number hvalue⟩
  have hitems : Fits Number.Valid 122 (.array [.bool true, .number (.integer (2 ^ 64 - 1))]) := by
    refine .array ?_
    simpa using ⟨.bool true, .number ⟨by decide, by decide⟩⟩
  have hnegation : Fits Number.Valid 123
      (.object [("not", .array [.bool true, .number (.integer (2 ^ 64 - 1))])]) :=
    .object (by decide) (by simpa using hitems)
  have hlogic : Fits Number.Valid 125 (exportedRule.logic.getD .null) := by
    refine .object (by decide) ?_
    simpa using ⟨.array (by simpa using ⟨hcomparison, hnegation⟩), .null⟩
  exact ⟨hs, hlogic, (load_stored_eq_load_bundle exportedRule exportedSpelling hs hlogic).1
    ⟨'o', by decide, by decide⟩⟩

end StoredRule

end RuleFlow
