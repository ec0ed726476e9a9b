import RuleFlow.CommandLine

/-! # The program

Reads files, prints, and saves the artifact. What is read, printed and saved is decided by
`CommandLine.Options`. -/

namespace RuleFlow.CommandLine

/-- The fault of a code of the system, which may come with its sign changed, and its description. -/
def faultOfCode (code : UInt32) (details : String) : FileFault :=
  match if code < 0x80000000 then code else 0 - code with
  | 2 => .missing
  | 20 => .notDirectory
  | 21 => .isDirectory
  | 36 => .nameTooLong
  | n => .other (details.capitalize ++ " (os error " ++ toString n ++ ")")

/-- The fault that a failed access to a file tells. -/
def faultOf : IO.Error → FileFault
  | .noFileOrDirectory _ code details => faultOfCode code details
  | .inappropriateType _ code details | .invalidArgument _ code details
  | .permissionDenied _ code details => faultOfCode code details
  | e => .other (toString e)

/-- The bytes of a file. -/
def readBytes (path : String) : IO (Except FileFault Bytes) := do
  try return .ok (← IO.FS.readBinFile path).data.toList
  catch e => return .error (faultOf e)

/-- Saves bytes in a file. -/
def saveBytes (path : String) (bytes : Bytes) : IO (Except FileFault Unit) := do
  try
    IO.FS.writeBinFile path ⟨bytes.toArray⟩
    return .ok ()
  catch e => return .error (faultOf e)

/-- Ends with a failure. -/
def failWith (f : Failure) : IO UInt32 := do
  (← IO.getStderr).putStr f.report
  return 1

end RuleFlow.CommandLine

open RuleFlow RuleFlow.CommandLine in
def main (arguments : List String) : IO UInt32 := do
  match Options.parse arguments with
  | .error e =>
    (← IO.getStderr).putStrLn ("error: " ++ e.message)
    return 2
  | .ok options =>
    let rule ← readBytes options.rulePath
    let config ← options.config.mapM readBytes
    let read (path : String) : Except FileFault Bytes :=
      if path == options.rulePath then rule else config.getD (.error .missing)
    match options.run read with
    | .error f => failWith f
    | .ok result =>
      (← IO.getStdout).putStr result.output
      match result.savePath with
      | none => return 0
      | some path =>
        match ← saveBytes path result.flow.toBytes with
        | .ok () => return 0
        | .error fault => failWith (.artifact (.inaccessible path fault))
