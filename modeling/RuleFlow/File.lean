/-! # Files

Files in a tree of folders, as paths reach them from a working folder, and the reasons for which a
file cannot be used. A path is followed name by name from the left, so that of two reasons the one
met first is told. Where the working folder itself lies is left open: above it there are only
folders without a name. -/

namespace RuleFlow

abbrev Bytes := List UInt8

/-- Why a file cannot be used. -/
inductive FileFault where
  | missing
  | isDirectory
  | notDirectory
  | nameTooLong
  | nulInPath
  | notText
  | other (reason : String)
deriving DecidableEq, Repr

namespace FileFault

def message : FileFault → String
  | .missing => "No such file or directory (os error 2)"
  | .isDirectory => "Is a directory (os error 21)"
  | .notDirectory => "Not a directory (os error 20)"
  | .nameTooLong => "File name too long (os error 36)"
  | .nulInPath => "file name contained an unexpected NUL byte"
  | .notText => "stream did not contain valid UTF-8"
  | .other reason => reason

end FileFault

/-- The text that bytes encode. -/
def textOf (bytes : Bytes) : Except FileFault String :=
  match String.fromUTF8? ⟨bytes.toArray⟩ with
  | some s => .ok s
  | none => .error .notText

/-! ## Places -/

/-- The folder from which a place is counted: the root, or the one so many levels above the working
folder. -/
inductive Origin where
  | root
  | above (levels : Nat)
deriving DecidableEq, Repr

/-- A place for a file or a folder: the names on the way down to it, the last one first. -/
structure Place where
  origin : Origin
  names : List String
deriving DecidableEq, Repr

namespace Place

/-- The working folder. -/
def working : Place := ⟨.above 0, []⟩

/-- The place of a name in a folder. -/
def child (p : Place) (name : String) : Place := { p with names := name :: p.names }

/-- The folder that holds a folder; the root holds itself. -/
def parent : Place → Place
  | ⟨origin, _ :: names⟩ => ⟨origin, names⟩
  | ⟨.root, []⟩ => ⟨.root, []⟩
  | ⟨.above levels, []⟩ => ⟨.above (levels + 1), []⟩

end Place

/-- The greatest number of bytes in a name. -/
def nameLimit : Nat := 255

/-- The greatest number of bytes in a path. -/
def pathLimit : Nat := 4095

/-- What a path leads to. -/
inductive Target where
  | folder
  /-- A name that is no folder's; `slash` tells whether a slash follows it. -/
  | entry (folder : Place) (name : String) (slash : Bool)
deriving DecidableEq, Repr

/-! ## Trees -/

/-- The files of a tree, and its folders besides the origins. -/
structure FileTree where
  folders : List Place
  files : List (Place × Bytes)
deriving DecidableEq, Repr

namespace FileTree

def isFolder (t : FileTree) (p : Place) : Bool := p.names.isEmpty || t.folders.contains p

/-- The bytes of the file at a place. -/
def content? (t : FileTree) (p : Place) : Option Bytes := t.files.lookup p

/-- The folder that a name within a path leads to. -/
def enter (t : FileTree) (p : Place) (name : String) : Except FileFault Place :=
  if name == "." then .ok p
  else if name == ".." then .ok p.parent
  else if nameLimit < name.utf8ByteSize then .error .nameTooLong
  else if t.isFolder (p.child name) then .ok (p.child name)
  else if (t.content? (p.child name)).isSome then .error .notDirectory
  else .error .missing

/-- Follows the names of a path from a folder on. -/
def follow (t : FileTree) (slash : Bool) (p : Place) : List String → Except FileFault Target
  | [] => .ok .folder
  | [name] =>
    if name == "." || name == ".." || t.isFolder (p.child name) then .ok .folder
    else .ok (.entry p name slash)
  | name :: next :: rest => do t.follow slash (← t.enter p name) (next :: rest)

/-- Follows a path, from the root if it starts with a slash, else from the working folder. -/
def resolve (t : FileTree) (path : String) : Except FileFault Target :=
  if path.toList.contains '\x00' then .error .nulInPath
  else if pathLimit < path.utf8ByteSize then .error .nameTooLong
  else if path.isEmpty then .error .missing
  else
    t.follow (path.endsWith "/") (if path.startsWith "/" then ⟨.root, []⟩ else .working)
      ((path.splitOn "/").filter (· != ""))

/-- The bytes of the file that a path leads to. -/
def read (t : FileTree) (path : String) : Except FileFault Bytes := do
  match ← t.resolve path with
  | .folder => throw .isDirectory
  | .entry folder name slash =>
    if nameLimit < name.utf8ByteSize then throw .nameTooLong
    match t.content? (folder.child name) with
    | some bytes => if slash then throw .notDirectory else pure bytes
    | none => throw .missing

/-- Writes the file that a path leads to. A slash after the name asks for a folder, which no file
can be. -/
def write (t : FileTree) (path : String) (bytes : Bytes) : Except FileFault FileTree := do
  match ← t.resolve path with
  | .folder => throw .isDirectory
  | .entry folder name slash =>
    if slash then throw .isDirectory
    if nameLimit < name.utf8ByteSize then throw .nameTooLong
    let place := folder.child name
    pure { t with files := (place, bytes) :: t.files.filter (·.1 != place) }

end FileTree

end RuleFlow
