import SsaFold.Module.Uses
import SsaFold.Module.Values

/-!
# Appending and erasing instructions

An instruction is appended at the end of a block, and may be erased once nothing reads its
result.  Erasing several instructions of one block goes over the block once.
-/

namespace SsaFold
namespace Module

/-! ## Appending -/

/-- Record the reads of instruction `i` from its operand `k` on. -/
def addUses (m : Module) (i : InstId) : Nat → List ValueId → Except Fault (Module × List Operand)
  | _, [] => .ok (m, [])
  | k, v :: vs => do
    let (m, slot) ← m.addUse v ⟨i, k⟩
    let (m, rest) ← addUses m i (k + 1) vs
    return (m, ⟨v, slot⟩ :: rest)

/-- Append an instruction to a block.  Its result is added before its operands are looked at,
so an instruction may read itself. -/
def appendInst (m : Module) (b : BlockId) (spec : InstSpec) (operands : List ValueId) :
    Except Fault (Module × InstId) := do
  let i : InstId := ⟨m.insts.size⟩
  let (m, result) := m.pushValue { kind := .inst i, ty := spec.ty }
  let (m, operands) ← m.addUses i 0 operands
  let inst : Inst := { spec with operands := operands.toArray, result, parent := b }
  let m := { m with insts := m.insts.push (some inst) }
  let _ ← m.getBlock b
  return (m.modifyBlock b fun block => { block with insts := block.insts.push i }, i)

/-- Change what an instruction says, its operands aside. -/
def setSpec (m : Module) (i : InstId) (f : InstSpec → InstSpec) : Except Fault Module := do
  let _ ← m.getInst i
  return m.modifyInst i fun inst => { inst with toInstSpec := f inst.toInstSpec }

/-! ## Erasing -/

/-- Refuse an instruction whose result is read. -/
def checkUnused (m : Module) (i : InstId) : Except Fault Inst := do
  let inst ← m.getInst i
  let uses := (← m.getValue inst.result).uses.size
  unless uses = 0 do
    throw (.stillUsed i inst.result uses)
  return inst

/-- Remove the reads of an instruction, one operand after the other, and leave its place
empty.  The block that held it is returned, and still lists it. -/
def detach (m : Module) (i : InstId) : Except Fault (Module × BlockId) := do
  let inst ← m.getInst i
  let m ← (List.range inst.operands.size).foldlM (fun m k => do
    let operand ← m.getOperand ⟨i, k⟩
    m.removeUse operand.value ⟨i, k⟩) m
  return (m.dropInst i, inst.parent)

/-- Keep in a block the instructions that satisfy `keep`. -/
def filterBlock (m : Module) (b : BlockId) (keep : InstId → Bool) : Except Fault Module := do
  let _ ← m.getBlock b
  return m.modifyBlock b fun block => { block with insts := block.insts.filter keep }

/-- Erase an instruction whose result is not read. -/
def eraseInst (m : Module) (i : InstId) : Except Fault Module := do
  let _ ← m.checkUnused i
  let (m, b) ← m.detach i
  m.filterBlock b (· != i)

/-- Refuse an instruction that cannot be erased from `b`. -/
def checkErasable (m : Module) (b : BlockId) (i : InstId) : Except Fault Unit := do
  let inst ← m.checkUnused i
  unless inst.parent = b do
    throw (.foreignBlock i b inst.parent)

/-- Erase instructions of one block whose results are not read.  All are checked before the
first is erased, and an instruction that is named twice is erased once. -/
def eraseInsts (m : Module) (b : BlockId) (ids : List InstId) : Except Fault Module := do
  ids.forM (m.checkErasable b)
  let m ← ids.foldlM (fun m i => do
    if ← m.isErased i then return m
    return (← m.detach i).1) m
  m.filterBlock b (fun i => !ids.contains i)

end Module
end SsaFold
