import SsaFold.Module.Fault

/-!
# Identity operands

`x + 0`, `0 + x`, `x * 1` and `1 * x` are all `x`.  An instruction of one of these forms has a
*surviving* operand, the one that is not the identity element.
-/

namespace SsaFold
namespace Module

/-- The value is an integer constant of at most `maxBits` bits that stands for `n`. -/
def isConstant (m : Module) (v : ValueId) (n : Int) (maxBits : Nat) : Bool :=
  match m.value? v with
  | some { kind := .constInt c, .. } => c.bits ≤ maxBits && c.value == n
  | _ => false

/-- The position of the operand that survives.  The first operand is tried as the identity
element first, so of `0 + 0` the second operand survives. -/
def survivor? (m : Module) (inst : Inst) (maxBits : Nat) : Option Nat :=
  match inst.opcode.identity?, inst.operandValues with
  | some n, [lhs, rhs] =>
    if m.isConstant lhs n maxBits then some 1
    else if m.isConstant rhs n maxBits then some 0
    else none
  | _, _ => none

/-- The position of the operand of instruction `i` that survives. -/
def survivingOperand (m : Module) (i : InstId) (maxBits : Nat) : Except Fault (Option Nat) := do
  return m.survivor? (← m.getInst i) maxBits

end Module
end SsaFold
