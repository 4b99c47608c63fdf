import SsaFold.Module.Fault

/-!
# Integrity

`Module.defect?` looks for a reason to distrust a module: an operand and a use list that do
not agree, a value that is read but never defined, an instruction that is not held by exactly
its own block, or a block that does not end with its only terminator.  `Module.check` refuses
a module for the first defect that is found.
-/

namespace SsaFold

/-- A reason to distrust a module. -/
inductive Defect where
  /-- An operand reads a value that is not there. -/
  | unknownOperand (u : Use) (v : ValueId)
  /-- A value does not record that an operand reads it. -/
  | unrecordedUse (u : Use) (v : ValueId)
  /-- A value records a read by an instruction that is not there. -/
  | deadUser (v : ValueId) (i : InstId)
  /-- A value records a read that is not made there, or is recorded elsewhere too. -/
  | strayUse (v : ValueId) (u : Use)
  /-- A value is read but was never defined. -/
  | unresolved (name : Option String)
  /-- A block holds an erased instruction. -/
  | erasedInst (b : BlockId) (i : InstId)
  /-- A block holds an instruction of another block. -/
  | foreignInst (b : BlockId) (i : InstId) (parent : BlockId)
  /-- An instruction is not held exactly once. -/
  | placements (i : InstId) (count : Nat) (parent : BlockId)
  /-- A block ends without a terminator, or goes on after one. -/
  | terminator (func : String) (b : BlockId) (op : Opcode) (position : Nat)
  /-- A placed block has no instruction. -/
  | emptyBlock (func : String) (b : BlockId)
deriving DecidableEq

/-- The text of a defect. -/
def Defect.message : Defect → String
  | unknownOperand u v =>
      u.user.text ++ " operand " ++ toString u.operand ++ " refers to unknown value " ++ v.text
  | unrecordedUse u v =>
      u.user.text ++ " operand " ++ toString u.operand ++ " reads " ++ v.text ++ " but "
        ++ v.text ++ " does not record that use"
  | deadUser v i => v.text ++ " is used by erased or unknown instruction " ++ i.text
  | strayUse v u =>
      v.text ++ " records use by " ++ u.user.text ++ " operand " ++ toString u.operand
        ++ " that does not point back to it"
  | unresolved name => "unresolved forward reference %" ++ name.getD "?"
  | erasedInst b i => b.text ++ " holds erased instruction " ++ i.text
  | foreignInst b i parent =>
      i.text ++ " is in " ++ b.text ++ " but its parent is " ++ Fault.parentText parent
  | placements i count parent =>
      i.text ++ " is placed " ++ toString count ++ " time(s) in its parent " ++ parent.text
  | terminator func b op position =>
      "@" ++ func ++ ": " ++ b.text ++ " must end with exactly one terminator (found `"
        ++ op.mnemonic ++ "` at position " ++ toString position ++ ")"
  | emptyBlock func b => "@" ++ func ++ ": " ++ b.text ++ " is empty"

namespace Module

/-- What is wrong with an operand: the value it reads has to record the read. -/
def operandDefect? (m : Module) (u : Use) (o : Operand) : Option Defect :=
  match m.value? o.value with
  | none => some (.unknownOperand u o.value)
  | some value =>
    if value.uses[o.slot]? = some u then none else some (.unrecordedUse u o.value)

/-- What is wrong with the operands of the instructions. -/
def operandsDefect? (m : Module) : Option Defect :=
  m.liveInsts.findSome? fun (i, inst) =>
    inst.operands.toList.zipIdx.findSome? fun (o, k) => m.operandDefect? ⟨i, k⟩ o

/-- What is wrong with a recorded read: the operand has to point back at the entry. -/
def useDefect? (m : Module) (v : ValueId) (u : Use) (slot : Nat) : Option Defect :=
  match m.inst? u.user with
  | none => some (.deadUser v u.user)
  | some inst =>
    if inst.operands[u.operand]? = some ⟨v, slot⟩ then none else some (.strayUse v u)

/-- What is wrong with a value: a recorded read, or a read without a definition. -/
def valueDefect? (m : Module) (v : ValueId) (value : Value) : Option Defect :=
  (value.uses.toList.zipIdx.findSome? fun (u, slot) => m.useDefect? v u slot).or <|
    if value.kind = .placeholder ∧ value.uses ≠ #[] then some (.unresolved value.name) else none

/-- What is wrong with the values. -/
def valuesDefect? (m : Module) : Option Defect :=
  m.values.toList.zipIdx.findSome? fun (value, k) => m.valueDefect? ⟨k⟩ value

/-- What is wrong with the instructions that a block lists: they have to be its own. -/
def heldDefect? (m : Module) (b : BlockId) (block : Block) : Option Defect :=
  block.insts.toList.findSome? fun i =>
    match m.inst? i with
    | none => some (.erasedInst b i)
    | some inst => if inst.parent = b then none else some (.foreignInst b i inst.parent)

/-- How often each instruction is listed by a block. -/
def placementCounts (m : Module) : Array Nat :=
  m.blocks.foldl (fun counts block =>
      block.insts.foldl (fun counts i => counts.modify i.index (· + 1)) counts)
    (Array.replicate m.insts.size 0)

/-- What is wrong with the places of the instructions: each is listed once. -/
def placementDefect? (m : Module) : Option Defect :=
  let counts := m.placementCounts
  (m.blocks.toList.zipIdx.findSome? fun (block, k) => m.heldDefect? ⟨k⟩ block).or <|
    m.liveInsts.findSome? fun (i, inst) =>
      let count := counts.getD i.index 0
      if count = 1 then none else some (.placements i count inst.parent)

/-- What is wrong with the end of a placed block: its last instruction, and no other, is a
terminator. -/
def endDefect? (m : Module) (func : String) (b : BlockId) : Option Defect :=
  let insts := ((m.block? b).map (·.insts)).getD #[]
  if insts.isEmpty then some (.emptyBlock func b)
  else insts.toList.zipIdx.findSome? fun (i, k) =>
    match m.inst? i with
    | none => none
    | some inst =>
      if inst.opcode.isTerminator = (k + 1 = insts.size : Bool) then none
      else some (.terminator func b inst.opcode k)

/-- What is wrong with the ends of the placed blocks. -/
def layoutDefect? (m : Module) : Option Defect :=
  m.functions.toList.findSome? fun f => f.layout.toList.findSome? fun b => m.endDefect? f.name b

/-- The first reason to distrust a module. -/
def defect? (m : Module) : Option Defect :=
  m.operandsDefect?.or <| m.valuesDefect?.or <| m.placementDefect?.or m.layoutDefect?

/-- Refuse a module for its first defect. -/
def check (m : Module) : Except Defect Unit :=
  match m.defect? with
  | some d => .error d
  | none => .ok ()

@[simp] theorem check_eq_ok_iff {m : Module} : m.check = .ok () ↔ m.defect? = none := by
  unfold check; split <;> simp_all

end Module
end SsaFold
