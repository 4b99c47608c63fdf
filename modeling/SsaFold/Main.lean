import SsaFold.CommandLine.Run

/-!
# The program

Runs the command line on the file system.
-/

namespace SsaFold.CommandLine

/-- The words of the system for a problem with a file. -/
def FileProblem.ofError : IO.Error → FileProblem
  | .noFileOrDirectory .. => .notFound
  | e => .other (toString e)

/-- Reading and writing the files of the file system. -/
def FileAccess.fileSystem : FileAccess IO where
  read path := do
    try
      match String.fromUTF8? (← IO.FS.readBinFile path) with
      | some text => return .ok text
      | none => return .error .notText
    catch e => return .error (.ofError e)
  write path text := do
    try
      IO.FS.writeFile path text
      return .ok ()
    catch e => return .error (.ofError e)

end SsaFold.CommandLine

/-- Run the command line on the given arguments. -/
def main (args : List String) : IO UInt32 := do
  let outcome ← SsaFold.CommandLine.run SsaFold.CommandLine.FileAccess.fileSystem args
  IO.print outcome.stdout
  IO.eprint outcome.stderr
  return outcome.exitCode.toUInt32
