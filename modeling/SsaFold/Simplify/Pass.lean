import SsaFold.Module.Insts
import SsaFold.Module.Integrity
import SsaFold.Simplify.Identity

/-!
# Eliminating identity arithmetic

A block is scanned from its first instruction to its last.  Where an operand survives, every
read of the result is sent to that operand at once, so the rest of the scan already sees it
and chains such as `(x + 0) + 0` collapse in one sweep.  The instructions that became unread
are erased when the scan has ended.  An instruction whose surviving operand is its own result
stays.
-/

namespace SsaFold

/-- How a module is simplified. -/
structure Options where
  /-- Constants of more bits are not taken for identity elements. -/
  maxIdentityBits : Nat := 32
  /-- Check the module before and after. -/
  verify : Bool := false
deriving DecidableEq, Repr

/-- What a run has done. -/
structure Stats where
  /-- The number of function definitions. -/
  functions : Nat := 0
  /-- The number of erased instructions. -/
  eliminated : Nat := 0
deriving DecidableEq, Repr

/-- Why a module is not simplified. -/
inductive SimplifyError where
  | malformedBefore (d : Defect)
  | malformedAfter (d : Defect)
deriving DecidableEq

/-- The texts of an error, from the outermost to its cause. -/
def SimplifyError.causes : SimplifyError → List String
  | malformedBefore d => ["module is malformed before optimization", d.message]
  | malformedAfter d => ["module is malformed after optimization", d.message]

namespace Module

/-- Send the reads of one instruction to the operand that survives, if there is one that is
not the result itself.  Whether the instruction is to be erased is returned too. -/
def foldInst (m : Module) (maxBits : Nat) (i : InstId) : Except Fault (Module × Bool) := do
  match ← m.survivingOperand i maxBits with
  | none => return (m, false)
  | some k =>
    let inst ← m.getInst i
    let kept := (← m.getOperand ⟨i, k⟩).value
    if kept = inst.result then return (m, false)
    return ((← m.replaceAllUses inst.result kept).1, true)

/-- Scan instructions in order; those to be erased are returned in the same order. -/
def scan (m : Module) (maxBits : Nat) : List InstId → Except Fault (Module × List InstId)
  | [] => .ok (m, [])
  | i :: rest => do
    let (m, folded) ← m.foldInst maxBits i
    let (m, doomed) ← scan m maxBits rest
    return (m, if folded then i :: doomed else doomed)

/-- Simplify one block; the number of erased instructions is returned too. -/
def simplifyBlock (m : Module) (maxBits : Nat) (b : BlockId) : Except Fault (Module × Nat) := do
  let block ← m.getBlock b
  let (m, doomed) ← m.scan maxBits block.insts.toList
  return (← m.eraseInsts b doomed, doomed.length)

/-- Simplify blocks in order. -/
def simplifyBlocks (m : Module) (maxBits : Nat) : List BlockId → Except Fault (Module × Nat)
  | [] => .ok (m, 0)
  | b :: rest => do
    let (m, here) ← m.simplifyBlock maxBits b
    let (m, later) ← simplifyBlocks m maxBits rest
    return (m, here + later)

/-- Simplify the placed blocks of a function. -/
def eliminate (m : Module) (f : FuncId) (maxBits : Nat) : Except Fault (Module × Nat) := do
  m.simplifyBlocks maxBits (← m.getFunc f).layout.toList

/-- Simplify functions in order, passing over declarations. -/
def eliminateAll (m : Module) (maxBits : Nat) : List FuncId → Except Fault (Module × Stats)
  | [] => .ok (m, {})
  | f :: rest => do
    if (← m.getFunc f).isDeclaration then
      eliminateAll m maxBits rest
    else
      let (m, here) ← m.eliminate f maxBits
      let (m, later) ← eliminateAll m maxBits rest
      return (m, ⟨later.functions + 1, here + later.eliminated⟩)

/-- Refuse a module with a defect. -/
def checkAs (m : Module) (e : Defect → SimplifyError) : Except (Failure SimplifyError) Unit :=
  m.check.mapError fun d => .error (e d)

/-- Simplify every function definition, in declaration order. -/
def simplify (m : Module) (o : Options) : Except (Failure SimplifyError) (Module × Stats) := do
  if o.verify then m.checkAs .malformedBefore
  let (m, stats) ← m.eliminateAll o.maxIdentityBits m.funcIds
  if o.verify then m.checkAs .malformedAfter
  return (m, stats)

end Module
end SsaFold
