import SsaFold.CallCount
import SsaFold.Simplify.Pass
import SsaFold.Text.Printer
import SsaFold.Text.Reader

/-!
# From text to text

The two things that are done with a module given as text: it is simplified and printed, or
its calls are counted.
-/

namespace SsaFold

/-- Why nothing is done with a text. -/
inductive PipelineError where
  /-- The text cannot be read. -/
  | read (e : Text.ReadError)
  /-- The module is refused. -/
  | simplify (e : SimplifyError)
deriving DecidableEq

/-- The texts of an error, from the outermost to its cause. -/
def PipelineError.causes : PipelineError → List String
  | read e => "failed to parse module" :: e.causes
  | simplify e => e.causes

/-- Simplify a module. -/
def simplifyText (source : String) (o : Options) :
    Except (Failure PipelineError) (String × Stats) := do
  let m ← (Module.ofText source).mapError (·.map .read)
  let (m, stats) ← (m.simplify o).mapError (·.map .simplify)
  return (← m.toText, stats)

/-- Report the calls of a module. -/
def reportCalls (source : String) : Except (Failure PipelineError) (List String) := do
  let m ← (Module.ofText source).mapError (·.map .read)
  return m.countCalls.reportLines m.name

end SsaFold
