import RuleFlow.File
import RuleFlow.Note
import RuleFlow.Artifact
import RuleFlow.Rule.Stored

/-! # Loading

From the text or the bytes of a file to a bundle, a layout configuration or a compiled flow, with
the errors that stand in the way. Loading a rule also has notes, whether or not it succeeds. -/

namespace RuleFlow

/-! ## Rules -/

/-- Why a rule cannot be loaded. -/
inductive RuleError where
  | malformed (fault : Json.Fault)
  | unreadable (path : String) (fault : FileFault)
  | blankTrigger (ruleId : String)
deriving DecidableEq, Repr

def RuleError.message : RuleError → String
  | .malformed fault => "Failed to parse rule JSON: " ++ fault.message
  | .unreadable path fault => "Could not read rule file '" ++ path ++ "': " ++ fault.message
  | .blankTrigger id => "Invalid custom data: rule '" ++ id ++ "' has an empty trigger type"

/-- The notes on the values that reading a rule has set aside. -/
def setAsideNotes (values : List Json) : List Note := values.map .malformedLogic

namespace Bundle

/-- A bundle from its text. -/
def ofText (text : String) : Except RuleError Bundle :=
  (Bundle.reader.read text).mapError .malformed

/-- The notes of reading a bundle from its text. -/
def textNotes (text : String) : List Note := setAsideNotes (Bundle.reader.run text).2

/-- A bundle from the file at a path. -/
def ofFile (read : String → Except FileFault Bytes) (path : String) : Except RuleError Bundle := do
  let bytes ← (read path).mapError (.unreadable path)
  let text ← (textOf bytes).mapError (.unreadable path)
  ofText text

end Bundle

namespace StoredRule

/-- The bundle of a stored rule; a blank trigger is an error. -/
def toBundle (r : StoredRule) : Except RuleError Bundle :=
  match r.toBundle? with
  | some b => .ok b
  | none => .error (.blankTrigger r.id)

/-- A stored rule from its text. -/
def ofText (text : String) : Except RuleError StoredRule :=
  (StoredRule.reader.read text).mapError .malformed

end StoredRule

/-! ## Layout settings -/

/-- Why a layout configuration cannot be loaded. -/
inductive ConfigError where
  | malformed (fault : Json.Fault)
  | unreadable (path : String) (fault : FileFault)
  | unusable (setting : String) (value : Double)
deriving DecidableEq, Repr

def ConfigError.message : ConfigError → String
  | .malformed fault => "Failed to parse layout config: " ++ fault.message
  | .unreadable path fault => "Could not read config file '" ++ path ++ "': " ++ fault.message
  | .unusable setting value =>
    "Layout setting '" ++ setting ++ "' must be a finite, non-negative number, got " ++
      String.ofList value.displayText

namespace LayoutConfig

/-- Accepts a configuration whose lengths are all usable. -/
def validate (c : LayoutConfig Double) : Except ConfigError Unit :=
  match c.invalidSetting? with
  | some (setting, value) => .error (.unusable setting value)
  | none => .ok ()

/-- A configuration from its text. -/
def ofText (text : String) : Except ConfigError (LayoutConfig Double) := do
  let c ← (LayoutConfig.reader.read text).mapError .malformed
  c.validate
  pure c

/-- A configuration from the file at a path. -/
def ofFile (read : String → Except FileFault Bytes) (path : String) :
    Except ConfigError (LayoutConfig Double) := do
  let bytes ← (read path).mapError (.unreadable path)
  let text ← (textOf bytes).mapError (.unreadable path)
  ofText text

end LayoutConfig

/-! ## Compiled flows -/

/-- Why a compiled flow cannot be saved or loaded. -/
inductive ArtifactError where
  | undecodable (fault : Wire.Fault)
  | inaccessible (path : String) (fault : FileFault)
deriving DecidableEq, Repr

/-- The wording of an error. That of undecodable bytes ends where the codec's own report would
follow, which has the position and the offending value: `Wire.Fault` keeps its kind only. -/
def ArtifactError.message : ArtifactError → String
  | .undecodable _ => "Deserialization failed: "
  | .inaccessible path fault =>
    "Could not access artifact file '" ++ path ++ "': " ++ fault.message

namespace CompiledFlow

/-- The notes of compiling a bundle into a flow: describing comes first. -/
def bundleNotes (b : Bundle) : List Note :=
  b.rule.treeNotes ++ b.compileNotes ++ b.compile.layoutNotes

/-- A compiled flow from the file at a path. -/
def ofFile (read : String → Except FileFault Bytes) (path : String) :
    Except ArtifactError CompiledFlow := do
  let bytes ← (read path).mapError (.inaccessible path)
  (ofBytes bytes).mapError .undecodable

/-- Saves a compiled flow under a path. -/
def save (f : CompiledFlow) (tree : FileTree) (path : String) : Except ArtifactError FileTree :=
  (tree.write path f.toBytes).mapError (.inaccessible path)

end CompiledFlow

end RuleFlow
