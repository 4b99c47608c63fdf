import SsaFold.Module.Insts
import SsaFold.Text.Statement
import Std.Data.TreeMap

/-!
# Function bodies

The lines of a body are read into the module one after the other.  A name may be read before
it is defined: such a read makes a placeholder, and the definition takes its place.

Parameters, blocks and results without a name are numbered by one counter.  A name that is a
number sets the counter behind that number.
-/

namespace SsaFold.Text

/-- What can be wrong with the names of a body and their types. -/
inductive ScopeError where
  /-- A name is read at a type that is not its own. -/
  | usedAs (name : String) (actual used : Ty)
  | intUsedAs (value : Int) (ty : Ty)
  | boolUsedAs (value : Bool) (ty : Ty)
  | nullUsedAs (ty : Ty)
  | globalUsedAs (name : String) (ty : Ty)
  | undefinedGlobal (name : String)
  | redefinedValue (name : String)
  | redefinedLabel (name : String)
  /-- A name is defined at a type that is not the one at which it was read. -/
  | definedAs (name : String) (actual used : Ty)
  /-- There is no slot after the one that a name denotes. -/
  | slotOutOfRange (name : String)
  | noBlocks
  | noTerminator
  | undefinedLabel (name : String)
  | undefinedValue (name : String)
deriving DecidableEq

/-- The text of an error. -/
def ScopeError.message : ScopeError → String
  | usedAs name actual used =>
      "%" ++ name ++ " has type " ++ actual.text ++ " but is used as " ++ used.text
  | intUsedAs value ty => "integer constant " ++ toString value ++ " used as " ++ ty.text
  | boolUsedAs value ty =>
      "'" ++ (if value then "true" else "false") ++ "' used as " ++ ty.text
  | nullUsedAs ty => "'null' used as " ++ ty.text
  | globalUsedAs name ty => "@" ++ name ++ " used as " ++ ty.text
  | undefinedGlobal name => "use of undefined global @" ++ name
  | redefinedValue name => "redefinition of %" ++ name
  | redefinedLabel name => "redefinition of label %" ++ name
  | definedAs name actual used =>
      "%" ++ name ++ " is defined as " ++ actual.text ++ " but was used as " ++ used.text
  | slotOutOfRange name => "slot number %" ++ name ++ " is out of range"
  | noBlocks => "function body requires at least one basic block"
  | noTerminator => "function body must end with a terminator"
  | undefinedLabel name => "use of undefined label %" ++ name
  | undefinedValue name => "use of undefined value %" ++ name

/-- What can be wrong with a line of a body. -/
inductive BodyError where
  | phrase (e : PhraseError)
  | scope (e : ScopeError)
deriving DecidableEq

/-- The text of an error. -/
def BodyError.message : BodyError → String
  | phrase e => e.message
  | scope e => e.message

/-- What a function or global name stands for. -/
abbrev Symbols := Std.TreeMap String ValueId

/-- A body that is being read. -/
structure Body where
  module : Module
  func : FuncId
  /-- The functions and globals of the module. -/
  symbols : Symbols
  /-- What the local names met so far stand for. -/
  values : Std.TreeMap String ValueId := ∅
  /-- The blocks of the labels met so far. -/
  blocks : Std.TreeMap String BlockId := ∅
  /-- The number of the next unnamed parameter, block or result. -/
  nextSlot : Nat := 0
  /-- The block to which instructions are appended. -/
  current : Option BlockId := none
  /-- The last instruction ended its block. -/
  terminated : Bool := false

/-- A step in reading a body. -/
abbrev BodyM (α : Type) := StateT Body (Except (Failure BodyError)) α

namespace Body

/-- Refuse the body. -/
def refuse {α : Type} (e : ScopeError) : BodyM α := throw (.error (.scope e))

/-- Refuse the line. -/
def refuseLine {α : Type} (e : PhraseError) : BodyM α := throw (.error (.phrase e))

/-- Run a function on the module that also returns a result. -/
def onModule {α : Type} (f : Module → Module × α) : BodyM α :=
  modifyGet fun b => ((f b.module).2, { b with module := (f b.module).1 })

/-- Run a function on the module that also returns a result, and may fault. -/
def tryModule {α : Type} (f : Module → Except Fault (Module × α)) : BodyM α := do
  let b ← get
  let (module, a) ← f b.module
  set { b with module }
  return a

/-! ## Numbering -/

/-- The name of a definition: the next number if it has none.  A number sets the counter. -/
def takeKey (name : Option String) : BodyM String := do
  let key := name.getD (toString (← get).nextSlot)
  match slot? key with
  | none => return key
  | some slot =>
    if slot + 1 < slotBound then
      modify ({ · with nextSlot := slot + 1 })
      return key
    else refuse (.slotOutOfRange key)

/-! ## Blocks -/

/-- The block of a label, added at the first mention of the label. -/
def blockOf (label : String) : BodyM BlockId := do
  let b ← get
  match b.blocks[label]? with
  | some block => return block
  | none =>
    let block ← onModule (·.createBlock b.func (keptName label))
    modify fun b => { b with blocks := b.blocks.insert label block }
    return block

/-- The block stands in the layout of the function. -/
def isPlaced (b : Body) (block : BlockId) : Bool :=
  (b.module.func? b.func).any fun f => block ∈ f.layout

/-- Place a block and go on in it. -/
def enter (block : BlockId) : BodyM Unit := do
  tryModule fun m => return (← m.placeBlock block, ())
  modify ({ · with current := some block, terminated := false })

/-- Begin the block of a label. -/
def beginBlock (label : String) : BodyM Unit := do
  let _ ← takeKey (some label)
  let block ← blockOf label
  if (← get).isPlaced block then refuse (.redefinedLabel label)
  enter block

/-- The block for the next instruction.  A new one is begun at the start of the body and after
a terminator. -/
def openBlock : BodyM BlockId := do
  match ← get with
  | { current := some block, terminated := false, .. } => return block
  | _ =>
    let label ← takeKey none
    let block ← blockOf label
    enter block
    return block

/-! ## Values -/

/-- The value of a local name that is read at type `ty`. -/
def readLocal (ty : Ty) (name : String) : BodyM ValueId := do
  let b ← get
  match b.values[name]? with
  | some v =>
    let actual := (← b.module.getValue v).ty
    if actual ≠ ty then refuse (.usedAs name actual ty)
    return v
  | none =>
    let v ← onModule (·.placeholder ty (keptName name))
    modify fun b => { b with values := b.values.insert name v }
    return v

/-- The value of an operand. -/
def readOperand (a : TypedAtom) : BodyM ValueId := do
  match a.atom with
  | .localName name => readLocal a.ty name
  | .int value =>
    match a.ty with
    | .int bits => tryModule (·.constInt bits value)
    | ty => refuse (.intUsedAs value ty)
  | .bool value =>
    if a.ty ≠ .i1 then refuse (.boolUsedAs value a.ty)
    tryModule (·.constInt 1 (if value then 1 else 0))
  | .null =>
    if a.ty ≠ .ptr then refuse (.nullUsedAs a.ty)
    onModule (·.null)
  | .globalName name =>
    match (← get).symbols[name]? with
    | none => refuse (.undefinedGlobal name)
    | some v =>
      if a.ty ≠ .ptr then refuse (.globalUsedAs name a.ty)
      return v

/-- Let a name stand for a result.  The reads of a placeholder of that name are sent to it. -/
def nameResult (name : String) (v : ValueId) : BodyM Unit := do
  let b ← get
  if let some old := b.values[name]? then
    let old' ← b.module.getValue old
    if old'.kind ≠ .placeholder then refuse (.redefinedValue name)
    let actual := (← b.module.getValue v).ty
    if old'.ty ≠ actual then refuse (.definedAs name actual old'.ty)
    let _ ← tryModule (·.replaceAllUses old v)
  let key ← takeKey (some name)
  modify fun b => { b with values := b.values.insert key v }
  tryModule fun m => return (← m.setValueName v (keptName name), ())

/-- Let the next number stand for a result. -/
def numberResult (v : ValueId) : BodyM Unit := do
  let key ← takeKey none
  modify fun b => { b with values := b.values.insert key v }

/-! ## Instructions -/

/-- The values of the incoming pairs of a `phi`, and their blocks. -/
def readIncoming (ty : Ty) : List (Atom × String) → BodyM (List (ValueId × BlockId))
  | [] => return []
  | (atom, label) :: rest => do
    let v ← readOperand ⟨ty, atom⟩
    let block ← blockOf label
    return (v, block) :: (← readIncoming ty rest)

/-- Append an operation to a block.  Names are looked up in the order in which they are
written. -/
def append (block : BlockId) (align : Option Nat) : Operation → BodyM InstId
  | .binary op flags bits lhs rhs => do
    let l ← readOperand ⟨.int bits, lhs⟩
    let r ← readOperand ⟨.int bits, rhs⟩
    emit { opcode := .binary op, ty := .int bits, flags, align } [l, r]
  | .icmp p ty lhs rhs => do
    let l ← readOperand ⟨ty, lhs⟩
    let r ← readOperand ⟨ty, rhs⟩
    emit { opcode := .icmp, ty := .i1, predicate := some p, align } [l, r]
  | .select cond ty ifTrue ifFalse => do
    let c ← readOperand ⟨.i1, cond⟩
    let t ← readOperand ⟨ty, ifTrue⟩
    let f ← readOperand ⟨ty, ifFalse⟩
    emit { opcode := .select, ty, align } [c, t, f]
  | .phi ty incoming => do
    let pairs ← readIncoming ty incoming
    emit { opcode := .phi, ty, targets := pairs.map Prod.snd, align } (pairs.map Prod.fst)
  | .call ty callee args => do
    let target ← readOperand ⟨.ptr, callee⟩
    let operands ← args.mapM readOperand
    emit { opcode := .call, ty, align } (operands ++ [target])
  | .alloca ty => emit { opcode := .alloca, ty := .ptr, allocTy := some ty, align } []
  | .load ty pointer => do
    let p ← readOperand ⟨.ptr, pointer⟩
    emit { opcode := .load, ty, align } [p]
  | .store value pointer => do
    let v ← readOperand value
    let p ← readOperand ⟨.ptr, pointer⟩
    emit { opcode := .store, ty := .void, align } [v, p]
  | .ret value => do
    let operands ← value.toList.mapM readOperand
    emit { opcode := .ret, ty := .void, align } operands
  | .br target => do
    let b ← blockOf target
    emit { opcode := .br, ty := .void, targets := [b], align } []
  | .condBr cond ifTrue ifFalse => do
    let c ← readOperand ⟨.i1, cond⟩
    let t ← blockOf ifTrue
    let f ← blockOf ifFalse
    emit { opcode := .br, ty := .void, targets := [t, f], align } [c]
  | .unreachable => emit { opcode := .unreachable, ty := .void, align } []
where
  /-- Append an instruction to the block. -/
  emit (spec : InstSpec) (operands : List ValueId) : BodyM InstId :=
    tryModule (·.appendInst block spec operands)

/-- Read an instruction line.  If its tokens are wrong at some point, the operands up to that
point are looked up before the line is refused. -/
def instruction (ts : List Token) : BodyM Unit := do
  match (Statement.head.run ts).result with
  | .error e => refuseLine e
  | .ok ((name, op), rest) =>
    let block ← openBlock
    let reading := (Statement.phrase name op).run rest
    match reading.result with
    | .error e =>
      let _ ← reading.met.mapM readOperand
      refuseLine e
    | .ok (statement, _) =>
      let i ← append block statement.align statement.operation
      let inst ← (← get).module.getInst i
      match name with
      | some name => nameResult name inst.result
      | none => if !inst.ty.isVoid then numberResult inst.result
      modify ({ · with terminated := op.isTerminator })

/-- Read a line. -/
def line : List Token → BodyM Unit
  | [.label name] => beginBlock name
  | .label _ :: t :: _ => refuseLine (.afterLabel t)
  | ts => instruction ts

/-! ## Beginning and end -/

/-- Let the names of the parameters stand for them, from parameter `k` on. -/
def nameParams : Nat → List (Option String) → BodyM Unit
  | _, [] => return
  | k, name :: rest => do
    let key ← takeKey name
    let b ← get
    if b.values.contains key then refuse (.redefinedValue key)
    match (← b.module.getFunc b.func).params[k]? with
    | none => throw (.fault .outOfBounds)
    | some v =>
      modify fun b => { b with values := b.values.insert key v }
      nameParams (k + 1) rest

/-- A body in which only the parameters have names. -/
def start (m : Module) (symbols : Symbols) (func : FuncId) (params : List (Option String)) :
    Except (Failure BodyError) Body := do
  return (← (nameParams 0 params).run { module := m, func, symbols }).2

/-- The first label in order of names that has no block. -/
def undefinedLabel? (b : Body) : Option String :=
  (b.blocks.toList.find? fun (_, block) => !b.isPlaced block).map Prod.fst

/-- The first name in order of names that is read but not defined. -/
def undefinedValue? (b : Body) : Option String :=
  (b.values.toList.find? fun (_, v) =>
    (b.module.value? v).any fun value => value.kind = .placeholder).map Prod.fst

/-- What is missing at the end of a body. -/
def endError? (b : Body) : Option ScopeError :=
  if (b.module.func? b.func).all Func.isDeclaration then some .noBlocks
  else if !b.terminated then some .noTerminator
  else (b.undefinedLabel?.map .undefinedLabel).or (b.undefinedValue?.map .undefinedValue)

end Body
end SsaFold.Text
