import SsaFold.CommandLine.Arguments
import SsaFold.CommandLine.Files
import SsaFold.Pipeline

/-!
# Running the command line

The input is read, and then it is either simplified into the output, or its calls are
reported.
-/

namespace SsaFold.CommandLine

/-- What a run leaves behind, the files aside. -/
structure Outcome where
  exitCode : Nat
  stdout : String := ""
  stderr : String := ""
deriving DecidableEq, Repr

/-- Why a run fails. -/
inductive RunError where
  | read (path : String) (p : FileProblem)
  | simplify (path : String) (e : PipelineError)
  | analyze (path : String) (e : PipelineError)
  | write (path : String) (p : FileProblem)
deriving DecidableEq

/-- The text of an error, and those of what caused it. -/
def RunError.causes : RunError → String × List String
  | read path p => ("failed to read " ++ path, [p.message])
  | simplify path e => ("failed to simplify " ++ path, e.causes)
  | analyze path e => ("failed to analyze " ++ path, e.causes)
  | write path p => ("failed to write " ++ path, [p.message])

/-- An error with its causes; several causes are numbered. -/
def RunError.report (e : RunError) : String :=
  let (text, causes) := e.causes
  let lines :=
    match causes with
    | [cause] => ["    " ++ cause]
    | causes => causes.zipIdx.map fun (cause, k) => "    " ++ toString k ++ ": " ++ cause
  Text.unlines (["Error: " ++ text, "", "Caused by:"] ++ lines)

namespace Outcome

/-- The arguments are not well formed. -/
def usage : Outcome where
  exitCode := 2
  stderr := "usage: INPUT [OUTPUT] [--verify] [--max-identity-bits N] [-v] [-q]\n"

/-- The run failed. -/
def failed : Failure RunError → Outcome
  | .error e => { exitCode := 1, stderr := e.report }
  | .fault f => { exitCode := 101, stderr := f.message ++ "\n" }

end Outcome

variable {m : Type → Type} [Monad m]

/-- Do what is asked for; the text is for standard output. -/
def Request.perform (files : FileAccess m) (r : Request) :
    ExceptT (Failure RunError) m String := do
  let source ←
    match ← files.read r.input with
    | .ok source => pure source
    | .error p => throw (.error (.read r.input p))
  match r.output with
  | some output =>
    let (text, _) ←
      ofExcept (simplifyText source r.options) (.simplify r.input)
    match ← files.write output text with
    | .ok () => return ""
    | .error p => throw (.error (.write output p))
  | none => return Text.unlines (← ofExcept (reportCalls source) (.analyze r.input))
where
  /-- The result of a pipeline, with its error restated. -/
  ofExcept {α : Type} (x : Except (Failure PipelineError) α) (f : PipelineError → RunError) :
      ExceptT (Failure RunError) m α :=
    ExceptT.mk (pure (x.mapError (·.map f)))

/-- Run the command line. -/
def run (files : FileAccess m) (args : List String) : m Outcome := do
  match Request.ofArgs? args with
  | none => return .usage
  | some r =>
    match ← (r.perform files).run with
    | .ok stdout => return { exitCode := 0, stdout }
    | .error e => return .failed e

end SsaFold.CommandLine
