import Std.Data.TreeMap

/-!
# Files

The command line reads and writes files through `FileAccess`, so that what it does can be run
on a directory held in memory as well as on the file system.
-/

namespace SsaFold.CommandLine

/-- Why a file cannot be read or written. -/
inductive FileProblem where
  | notFound
  | notDirectory
  | isDirectory
  /-- The file does not hold text. -/
  | notText
  /-- Something else, in the words of the system. -/
  | other (text : String)
deriving DecidableEq, Repr

/-- The text of a problem. -/
def FileProblem.message : FileProblem → String
  | notFound => "No such file or directory (os error 2)"
  | notDirectory => "Not a directory (os error 20)"
  | isDirectory => "Is a directory (os error 21)"
  | notText => "stream did not contain valid UTF-8"
  | other text => text

/-- How files are read and written. -/
structure FileAccess (m : Type → Type) where
  /-- The text of a file. -/
  read : String → m (Except FileProblem String)
  /-- Give a file a text. -/
  write : String → String → m (Except FileProblem Unit)

/-- A directory without subdirectories: the text of each file, if it holds text. -/
abbrev Directory := Std.TreeMap String (Option String)

namespace Directory

/-- The file of the directory that a path leads to. -/
def resolve (d : Directory) (path : String) : Except FileProblem String :=
  match (path.splitOn "/").filter (· ≠ ".") with
  | [] => .error .isDirectory
  | [name] => .ok name
  | name :: rest =>
    if name ≠ "" ∧ d.contains name then .error .notDirectory
    else if name ≠ "" ∨ rest.any (· ≠ "") then .error .notFound
    else .error .isDirectory

/-- The text of a file. -/
def read (d : Directory) (path : String) : Except FileProblem String := do
  match d[← d.resolve path]? with
  | some (some text) => return text
  | some none => throw .notText
  | none => throw .notFound

/-- Give a file a text. -/
def write (d : Directory) (path text : String) : Except FileProblem Directory := do
  return d.insert (← d.resolve path) (some text)

end Directory

/-- Reading and writing the files of a directory in memory. -/
def FileAccess.inMemory : FileAccess (StateM Directory) where
  read path := return (← get).read path
  write path text := do
    match (← get).write path text with
    | .ok d => set d; return .ok ()
    | .error e => return .error e

end SsaFold.CommandLine
