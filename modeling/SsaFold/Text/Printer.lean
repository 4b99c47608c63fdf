import SsaFold.Module.Fault
import SsaFold.Text.Name
import Std.Data.HashMap

/-!
# Printing a module

A module is written in the format that is read.  What has no name is numbered afresh in each
function: first the parameters, then for each block its label and its results.

The numbers are natural numbers, as the indices of entries are.  They stand for numbers of 32 bits
under one assumption, that fewer than `2 ^ 32` things are numbered in one function.
-/

namespace SsaFold

namespace Module

/-! ## Numbering -/

/-- Something that is numbered if it has no name. -/
inductive Slotted where
  | value (v : ValueId)
  | block (b : BlockId)
deriving DecidableEq, Hashable

/-- The value is numbered. -/
def isUnnamed (m : Module) (v : ValueId) : Bool :=
  (m.value? v).any fun value => value.name.isNone

/-- The results of a block that are numbered. -/
def unnamedResults (m : Module) (block : Block) : List ValueId :=
  (block.insts.toList.filterMap m.inst?).filter (fun inst => !inst.ty.isVoid)
    |>.map Inst.result |>.filter m.isUnnamed

/-- What is numbered in a function, in order. -/
def slotted (m : Module) (f : Func) : List Slotted :=
  (f.params.filter m.isUnnamed).map .value ++
    f.layout.toList.flatMap fun b =>
      match m.block? b with
      | some block =>
        (if block.name.isNone then [.block b] else []) ++ (m.unnamedResults block).map .value
      | none => []

/-- The numbers of a function. -/
def numbering (m : Module) (f : Func) : Std.HashMap Slotted Nat :=
  .ofList (m.slotted f).zipIdx

end Module

namespace Text

/-- What a function is printed with: its module and its numbers. -/
structure Printing where
  module : Module
  slots : Std.HashMap Module.Slotted Nat

namespace Printing

variable (p : Printing)

/-! ## Names -/

/-- A name, or the number that stands for it, without a sigil. -/
def nameOrSlot (name : Option String) (owner : Module.Slotted) (text : String) : String :=
  match name, p.slots[owner]? with
  | some name, _ => nameText name
  | none, some slot => toString slot
  | none, none => "<badref " ++ text ++ ">"

/-- A parameter or result. -/
def localName (v : ValueId) : Except Fault String := do
  return "%" ++ p.nameOrSlot (← p.module.getValue v).name (.value v) v.text

/-- The name of a block. -/
def labelName (b : BlockId) : Except Fault String := do
  return p.nameOrSlot (← p.module.getBlock b).name (.block b) b.text

/-- A block as a branch names it. -/
def labelRef (b : BlockId) : Except Fault String := do
  return "label %" ++ (← p.labelName b)

/-- A value. -/
def value (v : ValueId) : Except Fault String := do
  match (← p.module.getValue v).kind with
  | .constInt c => return c.text
  | .null => return "null"
  | .function f => return globalText (← p.module.getFunc f).name
  | .global g => return globalText (← p.module.getGlobal g).name
  | .argument .. | .inst _ | .placeholder => p.localName v

/-- A value with its type. -/
def typed (v : ValueId) : Except Fault String := do
  return (← p.module.getValue v).ty.text ++ " " ++ (← p.value v)

/-- Values with their types. -/
def typedList (vs : List ValueId) : Except Fault String := do
  return ", ".intercalate (← vs.mapM p.typed)

/-! ## Functions -/

/-- The types of the parameters, with dots for more arguments. -/
def paramTypes (m : Module) (f : Func) : Except Fault String := do
  let types ← f.params.mapM fun v => return (← m.getValue v).ty.text
  return ", ".intercalate (types ++ if f.vararg then ["..."] else [])

/-- The parameters with their types, with dots for more arguments. -/
def params (f : Func) : Except Fault String := do
  let params ← f.params.mapM p.typed
  return ", ".intercalate (params ++ if f.vararg then ["..."] else [])

/-- A function header. -/
def header (word : String) (f : Func) (params : String) : String :=
  " ".intercalate
    (word :: f.linkage ++ [f.returnType.text, globalText f.name ++ "(" ++ params ++ ")"] ++ f.attrs)

/-- A declaration. -/
def declaration (m : Module) (f : Func) : Except Fault String := do
  return header "declare" f (← paramTypes m f) ++ "\n"

/-! ## Instructions -/

/-- Operand `k` of an instruction. -/
def operand (inst : Inst) (k : Nat) : Except Fault ValueId :=
  match inst.operands[k]? with
  | some o => .ok o.value
  | none => .error .outOfBounds

/-- The two operands of an operation, of which the first has its type written. -/
def pair (inst : Inst) : Except Fault String := do
  return (← p.typed (← operand inst 0)) ++ ", " ++ (← p.value (← operand inst 1))

/-- The incoming values of a `phi`. -/
def incoming (inst : Inst) : Except Fault String := do
  let pairs ← (inst.operandValues.zip inst.targets).mapM fun (v, b) =>
    return "[ " ++ (← p.value v) ++ ", %" ++ (← p.labelName b) ++ " ]"
  return ", ".intercalate pairs

/-- The type of a function that takes more arguments is written out in a call. -/
def calleeType (inst : Inst) : Except Fault String := do
  match p.module.callee? inst with
  | none => return ""
  | some f =>
    let func ← p.module.getFunc f
    if func.vararg then return " (" ++ (← paramTypes p.module func) ++ ")" else return ""

/-- A call: its last operand is the callee. -/
def call (inst : Inst) (callee : ValueId) : Except Fault String := do
  return " " ++ inst.ty.text ++ (← p.calleeType inst) ++ " " ++ (← p.value callee) ++ "("
    ++ (← p.typedList inst.operandValues.dropLast) ++ ")"

/-- A branch. -/
def branch (inst : Inst) : Except Fault String := do
  match inst.operandValues, inst.targets with
  | cond :: _, [ifTrue, ifFalse] =>
    return " " ++ (← p.typed cond) ++ ", " ++ (← p.labelRef ifTrue) ++ ", "
      ++ (← p.labelRef ifFalse)
  | _, targets => return String.join (← targets.mapM fun b => return " " ++ (← p.labelRef b))

/-- What follows the name of an opcode. -/
def operands (inst : Inst) : Except Fault String := do
  match inst.opcode with
  | .binary _ => return String.join (inst.flags.names.map (" " ++ ·)) ++ " " ++ (← p.pair inst)
  | .icmp => return " " ++ (inst.predicate.getD .eq).name ++ " " ++ (← p.pair inst)
  | .select =>
    return " " ++ (← p.typedList [← operand inst 0, ← operand inst 1, ← operand inst 2])
  | .phi => return " " ++ inst.ty.text ++ " " ++ (← p.incoming inst)
  | .call =>
    match inst.operandValues.getLast? with
    | some callee => p.call inst callee
    | none => return " <missing callee>"
  | .alloca => return (inst.allocTy.map (" " ++ ·.text)).getD ""
  | .load => return " " ++ inst.ty.text ++ ", " ++ (← p.typed (← operand inst 0))
  | .store => return " " ++ (← p.typedList [← operand inst 0, ← operand inst 1])
  | .ret =>
    match inst.operandValues with
    | v :: _ => return " " ++ (← p.typed v)
    | [] => return " void"
  | .br => p.branch inst
  | .unreachable => return ""

/-- The alignment of an instruction; a call without a callee shows none. -/
def align (inst : Inst) : String :=
  match inst.align with
  | some n => if inst.opcode = .call ∧ inst.operands.isEmpty then "" else ", align " ++ toString n
  | none => ""

/-- An instruction. -/
def inst (inst : Inst) : Except Fault String := do
  let name ← if inst.ty.isVoid then pure "" else pure ((← p.localName inst.result) ++ " = ")
  return name ++ inst.opcode.mnemonic ++ (← p.operands inst) ++ align inst

/-- A block, its label aside. -/
def block (b : BlockId) : Except Fault String := do
  let lines ← (← p.module.getBlock b).insts.toList.mapM fun i => do
    return "  " ++ (← p.inst (← p.module.getInst i)) ++ "\n"
  return String.join lines

/-- A block that is not the first, with an empty line and its label. -/
def laterBlock (b : BlockId) : Except Fault String := do
  return "\n" ++ (← p.labelName b) ++ ":\n" ++ (← p.block b)

/-- The first block, with its label if it is named. -/
def entryBlock (b : BlockId) : Except Fault String := do
  let label ←
    if (← p.module.getBlock b).name.isSome then pure ((← p.labelName b) ++ ":\n") else pure ""
  return label ++ (← p.block b)

/-- The blocks of a function. -/
def blocks : List BlockId → Except Fault String
  | [] => .ok ""
  | entry :: rest => do
    return (← p.entryBlock entry) ++ String.join (← rest.mapM p.laterBlock)

/-- A definition. -/
def definition (f : Func) : Except Fault String := do
  return header "define" f (← p.params f) ++ " \x7b\n" ++ (← p.blocks f.layout.toList) ++ "\x7d\n"

end Printing

/-- A function. -/
def funcText (m : Module) (f : Func) : Except Fault String :=
  if f.isDeclaration then Printing.declaration m f
  else Printing.definition ⟨m, m.numbering f⟩ f

/-- The lines in front of the globals. -/
def preamble (m : Module) : List String :=
  (if m.name = "" then [] else ["; ModuleID = '" ++ m.name ++ "'"]) ++
    (m.sourceFilename.map fun file => "source_filename = \"" ++ file ++ "\"").toList ++
    m.targetLines

/-- Text that follows other text after an empty line. -/
def afterEmptyLine (text more : String) : String :=
  if text = "" then more else text ++ "\n" ++ more

/-- Lines with their ends. -/
def unlines (lines : List String) : String := String.join (lines.map (· ++ "\n"))

end Text

/-- The text of a module: what describes it, its globals, and its functions, each part after
an empty line. -/
def Module.toText (m : Module) : Except Fault String := do
  let globals := m.globals.toList.map Global.definition
  let start := Text.unlines (Text.preamble m)
  let start := if globals = [] then start else Text.afterEmptyLine start (Text.unlines globals)
  m.functions.toList.foldlM
    (fun out f => return Text.afterEmptyLine out (← Text.funcText m f)) start

end SsaFold
