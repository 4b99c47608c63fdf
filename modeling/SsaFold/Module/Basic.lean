import SsaFold.IntConst
import SsaFold.Opcode

/-!
# Modules

A module keeps its values, instructions, blocks, functions and globals in five tables and
names an entry by its index.  An entry is never moved: an erased instruction leaves an empty
place behind.

Reads are recorded twice.  An instruction lists its operands, and a value lists the operands
that read it; each operand remembers where its entry stands in that list.

Indices are natural numbers and never wrap around.  They stand for indices of 32 bits under one
assumption, that no table ever has `2 ^ 32` entries, the places of erased instructions included.
-/

namespace SsaFold

/-! ## Names of entries -/

/-- The index of a value. -/
structure ValueId where
  index : Nat
deriving DecidableEq, Hashable, Repr, Inhabited

/-- The index of an instruction. -/
structure InstId where
  index : Nat
deriving DecidableEq, Hashable, Repr, Inhabited

/-- The index of a block. -/
structure BlockId where
  index : Nat
deriving DecidableEq, Hashable, Repr, Inhabited

/-- The index of a function, in declaration order. -/
structure FuncId where
  index : Nat
deriving DecidableEq, Hashable, Repr, Inhabited

/-- The index of a global. -/
structure GlobalId where
  index : Nat
deriving DecidableEq, Hashable, Repr, Inhabited

/-- How a value is named in messages. -/
def ValueId.text (v : ValueId) : String := "v" ++ toString v.index

/-- How an instruction is named in messages. -/
def InstId.text (i : InstId) : String := "inst_" ++ toString i.index

/-- How a block is named in messages. -/
def BlockId.text (b : BlockId) : String := "block_" ++ toString b.index

/-! ## Entries -/

/-- The place of a read: operand `operand` of instruction `user`. -/
structure Use where
  user : InstId
  operand : Nat
deriving DecidableEq, Repr, Inhabited

/-- What a value is. -/
inductive ValueKind where
  /-- An integer constant. -/
  | constInt (c : IntConst)
  /-- The null pointer. -/
  | null
  /-- The parameter of `func` at position `index`. -/
  | argument (func : FuncId) (index : Nat)
  /-- The result of an instruction. -/
  | inst (i : InstId)
  /-- The address of a function. -/
  | function (f : FuncId)
  /-- The address of a global. -/
  | global (g : GlobalId)
  /-- A value that is read before its definition has been met. -/
  | placeholder
deriving DecidableEq

/-- A value and the places that read it. -/
structure Value where
  kind : ValueKind
  ty : Ty
  /-- The name in text, without its sigil; an unnamed value is numbered when printed. -/
  name : Option String := none
  /-- The places that read the value. -/
  uses : Array Use := #[]
deriving DecidableEq

/-- One operand: the value that is read, and the position of the entry for this read in the
use list of that value. -/
structure Operand where
  value : ValueId
  slot : Nat
deriving DecidableEq, Repr, Inhabited

/-- What an instruction says, its operands aside. -/
structure InstSpec where
  opcode : Opcode
  /-- The type of the result. -/
  ty : Ty
  /-- How an `icmp` compares. -/
  predicate : Option Predicate := none
  flags : ArithFlags := {}
  /-- The successors of a `br`, or the incoming blocks of a `phi` in operand order. -/
  targets : List BlockId := []
  /-- The type for which an `alloca` makes room. -/
  allocTy : Option Ty := none
  /-- The alignment, if one was written. -/
  align : Option Nat := none
deriving DecidableEq

/-- An instruction. -/
structure Inst extends InstSpec where
  operands : Array Operand
  /-- The value that stands for the result; a `void` instruction has one too. -/
  result : ValueId
  /-- The block that holds the instruction. -/
  parent : BlockId
deriving DecidableEq

/-- The values an instruction reads, in operand order. -/
def Inst.operandValues (inst : Inst) : List ValueId := inst.operands.toList.map Operand.value

/-- A straight-line sequence of instructions. -/
structure Block where
  name : Option String
  func : FuncId
  insts : Array InstId := #[]
deriving DecidableEq

/-- A function: a declaration if its layout is empty, and a definition otherwise. -/
structure Func where
  name : String
  returnType : Ty
  /-- The words between the keyword and the return type. -/
  linkage : List String := []
  /-- The words and attribute references after the parameter list. -/
  attrs : List String := []
  /-- More arguments may follow the parameters. -/
  vararg : Bool := false
  params : List ValueId
  /-- The placed blocks; the first is the entry. -/
  layout : Array BlockId := #[]
  /-- The value that stands for the function's address. -/
  value : ValueId
deriving DecidableEq

/-- A function without blocks is declared only. -/
def Func.isDeclaration (f : Func) : Bool := f.layout.isEmpty

/-- A global: its name, its definition as it was written, and its address. -/
structure Global where
  name : String
  definition : String
  value : ValueId
deriving DecidableEq

/-- A module. -/
structure Module where
  name : String := ""
  sourceFilename : Option String := none
  /-- The lines that describe the target, as they were written. -/
  targetLines : List String := []
  globals : Array Global := #[]
  functions : Array Func := #[]
  blocks : Array Block := #[]
  /-- The instructions; an erased one is `none`. -/
  insts : Array (Option Inst) := #[]
  values : Array Value := #[]
deriving DecidableEq

namespace Module

/-! ## Looking entries up -/

/-- The value with the given index. -/
def value? (m : Module) (v : ValueId) : Option Value := m.values[v.index]?

/-- The instruction with the given index, unless it has been erased. -/
def inst? (m : Module) (i : InstId) : Option Inst := m.insts[i.index]?.join

/-- The block with the given index. -/
def block? (m : Module) (b : BlockId) : Option Block := m.blocks[b.index]?

/-- The function with the given index. -/
def func? (m : Module) (f : FuncId) : Option Func := m.functions[f.index]?

/-- The global with the given index. -/
def global? (m : Module) (g : GlobalId) : Option Global := m.globals[g.index]?

/-- The first function of the given name. -/
def findFunc? (m : Module) (name : String) : Option FuncId :=
  (m.functions.findIdx? fun f => f.name == name).map FuncId.mk

/-- Every function, in declaration order. -/
def funcIds (m : Module) : List FuncId := (List.range m.functions.size).map FuncId.mk

/-- The instructions that have not been erased, in order of their indices. -/
def liveInsts (m : Module) : List (InstId × Inst) :=
  m.insts.toList.zipIdx.filterMap fun (slot, k) => slot.map (⟨k⟩, ·)

/-- The blocks in the layout of some function: functions in declaration order, the blocks of
each in layout order. -/
def placedBlocks (m : Module) : List BlockId :=
  m.functions.toList.flatMap fun f => f.layout.toList

/-- The instructions of the placed blocks, in order. -/
def placedInsts (m : Module) : List InstId :=
  m.placedBlocks.flatMap fun b => ((m.block? b).map (·.insts.toList)).getD []

/-- The number of instructions in placed blocks. -/
def instCount (m : Module) : Nat := m.placedInsts.length

/-- The function that a call surely reaches: its last operand is that function's address. -/
def callee? (m : Module) (inst : Inst) : Option FuncId :=
  if inst.opcode = .call then
    match inst.operands.back?.bind fun o => m.value? o.value with
    | some { kind := .function f, .. } => some f
    | _ => none
  else none

/-! ## Changing one entry -/

/-- Change one value. -/
def modifyValue (m : Module) (v : ValueId) (f : Value → Value) : Module :=
  { m with values := m.values.modify v.index f }

/-- Change one instruction, if it has not been erased. -/
def modifyInst (m : Module) (i : InstId) (f : Inst → Inst) : Module :=
  { m with insts := m.insts.modify i.index (·.map f) }

/-- Change one block. -/
def modifyBlock (m : Module) (b : BlockId) (f : Block → Block) : Module :=
  { m with blocks := m.blocks.modify b.index f }

/-- Change one function. -/
def modifyFunc (m : Module) (id : FuncId) (f : Func → Func) : Module :=
  { m with functions := m.functions.modify id.index f }

/-- Leave the place of an instruction empty. -/
def dropInst (m : Module) (i : InstId) : Module :=
  { m with insts := m.insts.setIfInBounds i.index none }

section Lemmas

variable (m : Module)

theorem value?_modifyValue (v w : ValueId) (f : Value → Value) :
    (m.modifyValue v f).value? w = if v = w then (m.value? w).map f else m.value? w := by
  simp only [value?, modifyValue, Array.getElem?_modify]
  rcases v with ⟨i⟩; rcases w with ⟨j⟩
  by_cases h : i = j <;> simp [h]

@[simp] theorem inst?_modifyValue (v : ValueId) (f : Value → Value) (i : InstId) :
    (m.modifyValue v f).inst? i = m.inst? i := rfl

@[simp] theorem block?_modifyValue (v : ValueId) (f : Value → Value) (b : BlockId) :
    (m.modifyValue v f).block? b = m.block? b := rfl

@[simp] theorem func?_modifyValue (v : ValueId) (f : Value → Value) (g : FuncId) :
    (m.modifyValue v f).func? g = m.func? g := rfl

theorem inst?_modifyInst (i j : InstId) (f : Inst → Inst) :
    (m.modifyInst i f).inst? j = if i = j then (m.inst? j).map f else m.inst? j := by
  simp only [inst?, modifyInst, Array.getElem?_modify]
  rcases i with ⟨i⟩; rcases j with ⟨j⟩
  by_cases h : i = j
  · subst h
    cases m.insts[i]? with
    | none => simp
    | some o => cases o <;> simp
  · simp [h]

@[simp] theorem value?_modifyInst (i : InstId) (f : Inst → Inst) (v : ValueId) :
    (m.modifyInst i f).value? v = m.value? v := rfl

@[simp] theorem block?_modifyInst (i : InstId) (f : Inst → Inst) (b : BlockId) :
    (m.modifyInst i f).block? b = m.block? b := rfl

@[simp] theorem func?_modifyInst (i : InstId) (f : Inst → Inst) (g : FuncId) :
    (m.modifyInst i f).func? g = m.func? g := rfl

theorem block?_modifyBlock (b c : BlockId) (f : Block → Block) :
    (m.modifyBlock b f).block? c = if b = c then (m.block? c).map f else m.block? c := by
  simp only [block?, modifyBlock, Array.getElem?_modify]
  rcases b with ⟨i⟩; rcases c with ⟨j⟩
  by_cases h : i = j <;> simp [h]

@[simp] theorem value?_modifyBlock (b : BlockId) (f : Block → Block) (v : ValueId) :
    (m.modifyBlock b f).value? v = m.value? v := rfl

@[simp] theorem inst?_modifyBlock (b : BlockId) (f : Block → Block) (i : InstId) :
    (m.modifyBlock b f).inst? i = m.inst? i := rfl

@[simp] theorem func?_modifyBlock (b : BlockId) (f : Block → Block) (g : FuncId) :
    (m.modifyBlock b f).func? g = m.func? g := rfl

theorem inst?_dropInst (i j : InstId) :
    (m.dropInst i).inst? j = if i = j then none else m.inst? j := by
  simp only [inst?, dropInst, Array.getElem?_setIfInBounds]
  rcases i with ⟨i⟩; rcases j with ⟨j⟩
  by_cases h : i = j
  · subst h
    by_cases hi : i < m.insts.size <;> simp [hi]
  · simp [h]

end Lemmas

end Module
end SsaFold
