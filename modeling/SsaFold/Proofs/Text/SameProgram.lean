import SsaFold.Proofs.Text.Draft

/-!
# Modules that are one program

Two modules can hold one program in different tables: an erased instruction leaves an empty place
behind, and constants are added when they are met.  What counts is where an instruction stands:
`Module.SameProgram` compares functions, blocks and instructions by their positions, and values by
what they are.
-/

namespace SsaFold

namespace Module

variable (m n : Module) (f : FuncId)

/-- The name of a value, if it has one. -/
def nameOf? (v : ValueId) : Option String := (m.value? v).bind Value.name

/-- The block at position `k` of a function. -/
def blockAt? (k : Nat) : Option BlockId := do (← m.func? f).layout[k]?

/-- The instruction at position `l` of the block at position `k` of a function. -/
def instAt? (k l : Nat) : Option InstId := do (← m.block? (← m.blockAt? f k)).insts[l]?

/-- The blocks have the same position in the function. -/
def SameBlock (b c : BlockId) : Prop := ∃ k, m.blockAt? f k = some b ∧ n.blockAt? f k = some c

/-- The values are the same constant, the address of the same function or global, or the same
parameter; or they are the results of instructions that have the same position in the function. -/
inductive SameValue (v w : ValueId) : Prop
  | shared {kind : ValueKind} (left : m.kind? v = some kind) (right : n.kind? w = some kind)
      (shared : kind.IsShared)
  | argument {k : Nat} (left : m.kind? v = some (.argument f k))
      (right : n.kind? w = some (.argument f k))
  | result {i j : InstId} {k l : Nat} (left : m.kind? v = some (.inst i))
      (right : n.kind? w = some (.inst j)) (at_left : m.instAt? f k l = some i)
      (at_right : n.instAt? f k l = some j)

/-- The instructions say the same, of operands and targets that correspond. -/
structure SameInst (inst inst' : Inst) : Prop where
  /-- Opcode, type, predicate, flags, allocated type and alignment are equal. -/
  spec : inst'.toInstSpec = { inst.toInstSpec with targets := inst'.targets }
  operands : List.Forall₂ (m.SameValue n f) inst.operandValues inst'.operandValues
  targets : List.Forall₂ (m.SameBlock n f) inst.targets inst'.targets
  /-- The results have one name, or none. -/
  name : inst.ty ≠ .void → n.nameOf? inst'.result = m.nameOf? inst.result

/-- The blocks have one name, or none, and list instructions that correspond. -/
def SameInsts (b c : BlockId) : Prop :=
  ∃ block block', m.block? b = some block ∧ n.block? c = some block' ∧ block'.name = block.name ∧
    List.Forall₂ (fun i j => ∃ inst inst', m.inst? i = some inst ∧ n.inst? j = some inst' ∧
      m.SameInst n f inst inst') block.insts.toList block'.insts.toList

/-- The functions have one header, and list blocks that correspond.  The names of parameters count
in a definition only. -/
structure SameFunc (func func' : Func) : Prop where
  name : func'.name = func.name
  returnType : func'.returnType = func.returnType
  linkage : func'.linkage = func.linkage
  attrs : func'.attrs = func.attrs
  vararg : func'.vararg = func.vararg
  paramTypes : func'.params.map n.typeOf? = func.params.map m.typeOf?
  paramNames : func.isDeclaration = false → func'.params.map n.nameOf? = func.params.map m.nameOf?
  blocks : List.Forall₂ (m.SameInsts n f) func.layout.toList func'.layout.toList

/-- The modules are one program. -/
structure SameProgram : Prop where
  name : n.name = m.name
  sourceFilename : n.sourceFilename = m.sourceFilename
  targetLines : n.targetLines = m.targetLines
  globals : n.globals.toList.map (fun g => (g.name, g.definition))
    = m.globals.toList.map fun g => (g.name, g.definition)
  functions : n.functions.size = m.functions.size
  func : ∀ f func func', m.func? f = some func → n.func? f = some func' → m.SameFunc n f func func'

end Module
end SsaFold
