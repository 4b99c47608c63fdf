import SsaFold.Module.Basic
import Std.Data.TreeMap

/-!
# Counting calls

The calls of the placed blocks are tallied by the name of the function they surely reach.
Any other call is indirect.
-/

namespace SsaFold

/-- How often each function is called. -/
structure CallCounts where
  /-- Direct calls by the name of the function, in order of names. -/
  byName : Std.TreeMap String Nat := ∅
  /-- Calls of which the function is not known. -/
  indirect : Nat := 0

namespace CallCounts

/-- Count one more call. -/
def add (counts : CallCounts) : Option String → CallCounts
  | some name => { counts with byName := counts.byName.alter name fun n => some (n.getD 0 + 1) }
  | none => { counts with indirect := counts.indirect + 1 }

/-- The number of all calls. -/
def total (counts : CallCounts) : Nat := counts.byName.values.foldr (· + ·) counts.indirect

/-- One line per function that is called, in order of names, and one for the indirect calls
if there are any. -/
def reportLines (counts : CallCounts) (module : String) : List String :=
  counts.byName.toList.map (fun (name, n) =>
      "The Number of Function Call " ++ name ++ " in the Module " ++ module ++ " is "
        ++ toString n) ++
    if counts.indirect = 0 then []
    else ["The Number of Indirect Function Call in the Module " ++ module ++ " is "
      ++ toString counts.indirect]

end CallCounts

namespace Module

/-- The placed calls in order: for each, the name of the function it surely reaches. -/
def placedCalls (m : Module) : List (Option String) :=
  (m.placedInsts.filterMap m.inst?).filter (fun inst => inst.opcode = .call) |>.map fun inst =>
    ((m.callee? inst).bind m.func?).map Func.name

/-- Tally the calls of the placed blocks. -/
def countCalls (m : Module) : CallCounts := m.placedCalls.foldl CallCounts.add {}

end Module
end SsaFold
