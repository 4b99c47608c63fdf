import SsaFold.Module.Basic

/-!
# Faults

An operation on a module has a contract, and a request that breaks it is a fault.  A fault
ends the work; it is not an answer about the module.  What an operation may answer besides is
an error of its own type, and `Failure` holds either.
-/

namespace SsaFold

/-- How a request can break the contract of a module. -/
inductive Fault where
  /-- There is no entry, operand or parameter at that position. -/
  | outOfBounds
  /-- The instruction has been erased. -/
  | erased (i : InstId)
  /-- An instruction cannot be erased while its result is read. -/
  | stillUsed (i : InstId) (result : ValueId) (uses : Nat)
  /-- An instruction cannot be erased from a block that does not hold it. -/
  | foreignBlock (i : InstId) (block parent : BlockId)
  /-- A block is placed once. -/
  | alreadyPlaced (b : BlockId)
  /-- Constants are 1 to 64 bits wide. -/
  | unsupportedWidth (bits : Nat)
  /-- Only an integer type has integer constants. -/
  | constantOfType (ty : Ty)
  /-- An instruction was to be appended while no block was chosen. -/
  | noCurrentBlock (op : Opcode)
  /-- The use list of a value does not hold the read that an operand points to. -/
  | useOutOfSync (v : ValueId) (slot : Nat)
deriving DecidableEq

namespace Fault

/-- How the parent of an instruction is written in messages. -/
def parentText (b : BlockId) : String := "Some(BlockId(" ++ toString b.index ++ "))"

/-- The text of a fault. -/
def message : Fault → String
  | outOfBounds => "index out of bounds"
  | erased i => i.text ++ " has been erased"
  | stillUsed i result uses =>
      "cannot erase " ++ i.text ++ ": its result " ++ result.text ++ " still has "
        ++ toString uses ++ " use(s)"
  | foreignBlock i block parent =>
      "cannot erase " ++ i.text ++ " from " ++ block.text ++ ": its parent is "
        ++ parentText parent
  | alreadyPlaced b => b.text ++ " is already placed"
  | unsupportedWidth bits => "unsupported integer width i" ++ toString bits
  | constantOfType ty => "integer constant of non-integer type " ++ ty.text
  | noCurrentBlock op => "no current block to append `" ++ op.mnemonic ++ "` to"
  | useOutOfSync v slot =>
      "use-list of " ++ v.text ++ " is out of sync at position " ++ toString slot

end Fault

/-- What an operation can end with in place of a result. -/
inductive Failure (ε : Type) where
  /-- A contract was broken. -/
  | fault (f : Fault)
  /-- The operation refuses, and says why. -/
  | error (e : ε)
deriving DecidableEq

namespace Failure

/-- Restate the error, leaving a fault as it is. -/
def map {ε δ : Type} (f : ε → δ) : Failure ε → Failure δ
  | fault x => .fault x
  | error e => .error (f e)

end Failure

instance {ε : Type} : MonadLift (Except Fault) (Except (Failure ε)) where
  monadLift := Except.mapError .fault

namespace Module

/-- The value at an index that must exist. -/
def getValue (m : Module) (v : ValueId) : Except Fault Value :=
  match m.value? v with
  | some value => .ok value
  | none => .error .outOfBounds

/-- The block at an index that must exist. -/
def getBlock (m : Module) (b : BlockId) : Except Fault Block :=
  match m.block? b with
  | some block => .ok block
  | none => .error .outOfBounds

/-- The function at an index that must exist. -/
def getFunc (m : Module) (f : FuncId) : Except Fault Func :=
  match m.func? f with
  | some func => .ok func
  | none => .error .outOfBounds

/-- The global at an index that must exist. -/
def getGlobal (m : Module) (g : GlobalId) : Except Fault Global :=
  match m.global? g with
  | some glob => .ok glob
  | none => .error .outOfBounds

/-- The instruction at an index that must exist and must not have been erased. -/
def getInst (m : Module) (i : InstId) : Except Fault Inst :=
  match m.insts[i.index]? with
  | some (some inst) => .ok inst
  | some none => .error (.erased i)
  | none => .error .outOfBounds

/-- The operand at a place that must exist. -/
def getOperand (m : Module) (u : Use) : Except Fault Operand := do
  let inst ← m.getInst u.user
  match inst.operands[u.operand]? with
  | some operand => return operand
  | none => throw .outOfBounds

/-- Whether an instruction, which must have existed, has been erased. -/
def isErased (m : Module) (i : InstId) : Except Fault Bool :=
  match m.insts[i.index]? with
  | some inst => .ok inst.isNone
  | none => .error .outOfBounds

/-- The instruction whose result a value is. -/
def definingInst (m : Module) (v : ValueId) : Except Fault (Option InstId) := do
  match (← m.getValue v).kind with
  | .inst i => return some i
  | _ => return none

/-- The function that the call at an index surely reaches. -/
def calledFunc (m : Module) (i : InstId) : Except Fault (Option FuncId) := do
  return m.callee? (← m.getInst i)

@[simp] theorem getValue_eq_ok {m : Module} {v : ValueId} {value : Value} :
    m.getValue v = .ok value ↔ m.value? v = some value := by
  unfold getValue; split <;> simp_all

@[simp] theorem getBlock_eq_ok {m : Module} {b : BlockId} {block : Block} :
    m.getBlock b = .ok block ↔ m.block? b = some block := by
  unfold getBlock; split <;> simp_all

@[simp] theorem getFunc_eq_ok {m : Module} {f : FuncId} {func : Func} :
    m.getFunc f = .ok func ↔ m.func? f = some func := by
  unfold getFunc; split <;> simp_all

@[simp] theorem getInst_eq_ok {m : Module} {i : InstId} {inst : Inst} :
    m.getInst i = .ok inst ↔ m.inst? i = some inst := by
  unfold getInst inst?; split <;> simp_all

end Module
end SsaFold
