import RuleFlow.Loading
import RuleFlow.Listing
import RuleFlow.Canvas

/-! # The command line

`Options.parse` reads the arguments, and `Options.run` does the work: it loads a rule and a layout
configuration, compiles, prints the result in one of four formats, and names the artifact to
save. -/

namespace RuleFlow.CommandLine

/-- The shape of the rule file. -/
inductive InputFormat where
  | bundle
  | stored
deriving DecidableEq, Repr

/-- What is printed. -/
inductive OutputFormat where
  | summary
  | text
  | json
  | ui
deriving DecidableEq, Repr

structure Options where
  rulePath : String
  input : InputFormat
  config : Option String
  format : OutputFormat
  output : Option String
deriving DecidableEq, Repr

/-! ## Arguments -/

/-- Why the arguments cannot be used. -/
inductive UsageError where
  | unknownOption (name : String)
  | missingValue (name : String)
  | invalidValue (name value : String)
  | repeated (name : String)
  | unexpected (argument : String)
  | noRulePath
deriving DecidableEq, Repr

def UsageError.message : UsageError → String
  | .unknownOption name => "unexpected argument '" ++ name ++ "' found"
  | .missingValue name => "a value is required for '" ++ name ++ "' but none was supplied"
  | .invalidValue name value => "invalid value '" ++ value ++ "' for '" ++ name ++ "'"
  | .repeated name => "the argument '" ++ name ++ "' cannot be used multiple times"
  | .unexpected argument => "unexpected argument '" ++ argument ++ "' found"
  | .noRulePath => "the path of the rule file was not provided"

/-- The arguments taken apart, each at most once. -/
structure Draft where
  rulePath : Option String
  input : Option InputFormat
  config : Option String
  format : Option OutputFormat
  output : Option String

/-- The long name of an option. -/
def longName? : String → Option String
  | "-i" | "--input" => some "--input"
  | "-c" | "--config" => some "--config"
  | "-f" | "--format" => some "--format"
  | "-o" | "--output" => some "--output"
  | _ => none

def inputFormat? : String → Option InputFormat
  | "bundle" => some .bundle
  | "stored" => some .stored
  | _ => none

def outputFormat? : String → Option OutputFormat
  | "summary" => some .summary
  | "text" => some .text
  | "json" => some .json
  | "ui" => some .ui
  | _ => none

/-- Puts a value where none is yet. -/
def once (name : String) (old : Option α) (new : α) : Except UsageError (Option α) :=
  if old.isSome then .error (.repeated name) else .ok (some new)

/-- Sets the option of a long name. -/
def Draft.set (d : Draft) (name value : String) : Except UsageError Draft :=
  match name with
  | "--input" =>
    match inputFormat? value with
    | some f => do return { d with input := ← once name d.input f }
    | none => .error (.invalidValue name value)
  | "--config" => do return { d with config := ← once name d.config value }
  | "--format" =>
    match outputFormat? value with
    | some f => do return { d with format := ← once name d.format f }
    | none => .error (.invalidValue name value)
  | "--output" => do return { d with output := ← once name d.output value }
  | _ => .error (.unknownOption name)

/-- Sets the path of the rule file. -/
def Draft.setPath (d : Draft) (path : String) : Except UsageError Draft :=
  if d.rulePath.isSome then .error (.unexpected path) else .ok { d with rulePath := some path }

/-- An argument that carries an option's name and its value: `--name=value`, `-nvalue` or
`-n=value`. -/
def attached? (argument : String) : Option (String × String) :=
  match argument.toList with
  | '-' :: '-' :: rest =>
    match rest.span (· != '=') with
    | (name, '=' :: value) =>
      (longName? ("--" ++ String.ofList name)).map (·, String.ofList value)
    | _ => none
  | '-' :: c :: '=' :: value => (longName? (String.ofList ['-', c])).map (·, String.ofList value)
  | '-' :: c :: v :: value =>
    (longName? (String.ofList ['-', c])).map (·, String.ofList (v :: value))
  | _ => none

/-- Takes arguments apart one after the other. After `--` there are only paths. -/
def Draft.take (d : Draft) : List String → Except UsageError Draft
  | [] => .ok d
  | "--" :: paths => paths.foldlM Draft.setPath d
  | [argument] =>
    match attached? argument with
    | some (name, value) => d.set name value
    | none =>
      if (longName? argument).isSome then .error (.missingValue argument)
      else if argument.startsWith "-" && argument != "-" then .error (.unknownOption argument)
      else d.setPath argument
  | argument :: next :: rest =>
    match attached? argument with
    | some (name, value) => do (← d.set name value).take (next :: rest)
    | none =>
      match longName? argument with
      | some name => do (← d.set name next).take rest
      | none =>
        if argument.startsWith "-" && argument != "-" then .error (.unknownOption argument)
        else do (← d.setPath argument).take (next :: rest)

/-- Reads the arguments. A rule file is required; it is a bundle, and its summary is printed, unless
options say otherwise. -/
def Options.parse (arguments : List String) : Except UsageError Options := do
  let d ← Draft.take ⟨none, none, none, none, none⟩ arguments
  match d.rulePath with
  | none => throw .noRulePath
  | some path =>
    pure ⟨path, d.input.getD .bundle, d.config, d.format.getD .summary, d.output⟩

/-! ## The work -/

/-- Why a run fails. -/
inductive Failure where
  | unreadableRule (path : String) (fault : FileFault)
  | rule (error : RuleError)
  | config (error : ConfigError)
  | artifact (error : ArtifactError)
deriving DecidableEq, Repr

/-- What a failed run prints. -/
def Failure.report (f : Failure) : String :=
  "\nError: " ++ (match f with
    | .unreadableRule path fault =>
      "Failed to read rule file '" ++ path ++ "': " ++ fault.message
    | .rule error => "Failed to load rule: " ++ error.message
    | .config error => "Failed to load layout config: " ++ error.message
    | .artifact error => "Failed to write artifact: " ++ error.message) ++ "\n"

/-- What a run prints, and the flow to save with its path. -/
structure Result where
  output : String
  flow : CompiledFlow
  savePath : Option String
deriving DecidableEq, Repr

/-- The bundle in the text of a rule file. -/
def InputFormat.load (input : InputFormat) (text : String) : Except RuleError Bundle :=
  match input with
  | .bundle => Bundle.ofText text
  | .stored => do (← StoredRule.ofText text).toBundle

/-- A compiled flow in an output format. -/
def OutputFormat.print (format : OutputFormat) (flow : CompiledFlow) : String :=
  match format with
  | .summary => flow.summary ++ "\n"
  | .text => flow.graph.listing flow.ruleId
  | .json => flow.graph.toJson.pretty ++ "\n"
  | .ui => flow.graph.canvas.toJson.pretty ++ "\n"

/-- Loads, compiles and prints. The rule is loaded before the configuration. -/
def Options.run (o : Options) (read : String → Except FileFault Bytes) : Except Failure Result := do
  let bytes ← (read o.rulePath).mapError (.unreadableRule o.rulePath)
  let text ← (textOf bytes).mapError (.unreadableRule o.rulePath)
  let bundle ← (o.input.load text).mapError .rule
  let config ← match o.config with
    | some path => (LayoutConfig.ofFile read path).mapError .config
    | none => pure .standard
  let flow := CompiledFlow.ofBundle bundle config
  pure ⟨o.format.print flow, flow, o.output⟩

/-- How a run ends: its exit code, what it prints, and the files it leaves behind. -/
structure Ending where
  exitCode : Nat
  stdout : String
  stderr : String
  tree : FileTree
deriving DecidableEq, Repr

/-- A run among files. -/
def Options.runIn (o : Options) (tree : FileTree) : Ending :=
  match o.run tree.read with
  | .error f => ⟨1, "", f.report, tree⟩
  | .ok result =>
    match result.savePath with
    | none => ⟨0, result.output, "", tree⟩
    | some path =>
      match result.flow.save tree path with
      | .ok tree => ⟨0, result.output, "", tree⟩
      | .error e => ⟨1, result.output, (Failure.artifact e).report, tree⟩

end RuleFlow.CommandLine
