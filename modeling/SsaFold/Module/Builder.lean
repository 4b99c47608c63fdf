import SsaFold.Module.Insts

/-!
# Building functions

A builder appends instructions at the end of a current block and takes the type of a result
from the operands where the operation determines it.
-/

namespace SsaFold

/-- A module under construction, one of its functions, and the block that grows. -/
structure Builder where
  module : Module
  func : FuncId
  current : Option BlockId := none

/-- A step of construction. -/
abbrev Build (α : Type) := StateT Builder (Except Fault) α

namespace Build

/-- Run a function on the module that also returns a result. -/
def onModule {α : Type} (f : Module → Except Fault (Module × α)) : Build α := do
  let b ← get
  let (module, a) ← f b.module
  set { b with module }
  return a

/-- Parameter `k` of the function. -/
def param (k : Nat) : Build ValueId := do
  let b ← get
  match (← b.module.getFunc b.func).params[k]? with
  | some v => return v
  | none => throw .outOfBounds

/-- Add a block, place it and make it current. -/
def block (name : Option String) : Build BlockId := do
  let b ← onModule (·.addBlock (← get).func name)
  modify ({ · with current := some b })
  return b

/-- Make a block current. -/
def positionAtEnd (b : BlockId) : Build Unit := modify ({ · with current := some b })

/-- The block that grows. -/
def currentBlock : Build (Option BlockId) := return (← get).current

/-- An integer constant of an integer type. -/
def constInt (ty : Ty) (value : Int) : Build ValueId :=
  match ty with
  | .int bits => onModule (·.constInt bits value)
  | ty => throw (.constantOfType ty)

/-- Append an instruction to the current block. -/
def push (spec : InstSpec) (operands : List ValueId) : Build InstId := do
  match (← get).current with
  | some b => onModule (·.appendInst b spec operands)
  | none => throw (.noCurrentBlock spec.opcode)

/-- Append an instruction to the current block, for its result. -/
def pushValue (spec : InstSpec) (operands : List ValueId) : Build ValueId := do
  let i ← push spec operands
  return (← (← get).module.getInst i).result

/-- Arithmetic on two operands; the result has the type of the first. -/
def binary (op : Opcode) (lhs rhs : ValueId) : Build ValueId := do
  let ty := (← (← get).module.getValue lhs).ty
  pushValue { opcode := op, ty } [lhs, rhs]

/-- The sum of two values. -/
def add (lhs rhs : ValueId) : Build ValueId := binary (.binary .add) lhs rhs

/-- The product of two values. -/
def mul (lhs rhs : ValueId) : Build ValueId := binary (.binary .mul) lhs rhs

/-- A comparison. -/
def icmp (p : Predicate) (lhs rhs : ValueId) : Build ValueId :=
  pushValue { opcode := .icmp, ty := .i1, predicate := some p } [lhs, rhs]

/-- A value that depends on the block control came from. -/
def phi (ty : Ty) (incoming : List (ValueId × BlockId)) : Build ValueId :=
  pushValue { opcode := .phi, ty, targets := incoming.map Prod.snd } (incoming.map Prod.fst)

/-- A call of a known function; its address is the last operand. -/
def call (callee : FuncId) (args : List ValueId) : Build ValueId := do
  let func ← (← get).module.getFunc callee
  pushValue { opcode := .call, ty := func.returnType } (args ++ [func.value])

/-- A call through a pointer, which is the last operand. -/
def callIndirect (ty : Ty) (pointer : ValueId) (args : List ValueId) : Build ValueId :=
  pushValue { opcode := .call, ty } (args ++ [pointer])

/-- Room for a value of the given type. -/
def alloca (ty : Ty) : Build ValueId :=
  pushValue { opcode := .alloca, ty := .ptr, allocTy := some ty } []

/-- The value a pointer points to. -/
def load (ty : Ty) (pointer : ValueId) : Build ValueId :=
  pushValue { opcode := .load, ty } [pointer]

/-- Write a value to where a pointer points. -/
def store (value pointer : ValueId) : Build InstId :=
  push { opcode := .store, ty := .void } [value, pointer]

/-- Return from the function. -/
def ret (value : Option ValueId) : Build InstId :=
  push { opcode := .ret, ty := .void } value.toList

/-- Go on at a block. -/
def br (target : BlockId) : Build InstId :=
  push { opcode := .br, ty := .void, targets := [target] } []

/-- Go on at one of two blocks. -/
def condBr (cond : ValueId) (ifTrue ifFalse : BlockId) : Build InstId :=
  push { opcode := .br, ty := .void, targets := [ifTrue, ifFalse] } [cond]

/-- Control does not get here. -/
def unreachable : Build InstId := push { opcode := .unreachable, ty := .void } []

end Build
end SsaFold
