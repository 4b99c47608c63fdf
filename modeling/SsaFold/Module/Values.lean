import SsaFold.Module.Fault

/-!
# Adding values, functions, globals and blocks

Each function below adds entries at the end of its tables, so what was there keeps its index.
Constants are shared: a module holds one value per constant and one null pointer.
-/

namespace SsaFold
namespace Module

/-- A module without entries. -/
def empty (name : String) : Module := { name }

/-! ## Values -/

/-- Add a value. -/
def pushValue (m : Module) (value : Value) : Module × ValueId :=
  ({ m with values := m.values.push value }, ⟨m.values.size⟩)

/-- The first value of the same kind as `fresh`, which is added if there is none.

The table of values is searched, where a pool could remember the value of each constant and of the
null pointer.  Both find the same value: a value is only ever added at the end, no operation changes
the kind of one, and no other operation adds a constant or a null pointer, so that the value which
the pool remembers is the first of its kind, and the only one. -/
def shareValue (m : Module) (fresh : Value) : Module × ValueId :=
  match m.values.findIdx? fun v => v.kind = fresh.kind with
  | some k => (m, ⟨k⟩)
  | none => m.pushValue fresh

/-- The constant of width `bits` congruent to `raw`. -/
def constInt (m : Module) (bits : Nat) (raw : Int) : Except Fault (Module × ValueId) :=
  match IntConst.ofInt? bits raw with
  | some c => .ok (m.shareValue { kind := .constInt c, ty := c.ty })
  | none => .error (.unsupportedWidth bits)

/-- The null pointer. -/
def null (m : Module) : Module × ValueId := m.shareValue { kind := .null, ty := .ptr }

/-- Add a value that is read before its definition is met. -/
def placeholder (m : Module) (ty : Ty) (name : Option String) : Module × ValueId :=
  m.pushValue { kind := .placeholder, ty, name }

/-- Name a value, or take its name away. -/
def setValueName (m : Module) (v : ValueId) (name : Option String) : Except Fault Module := do
  let _ ← m.getValue v
  return m.modifyValue v fun value => { value with name }

/-! ## Functions and globals -/

/-- Add a function without blocks.  Its address is added before its parameters, which are
unnamed. -/
def addFunc (m : Module) (name : String) (returnType : Ty) (params : List Ty) :
    Module × FuncId :=
  let f : FuncId := ⟨m.functions.size⟩
  let base := m.values.size
  let address : Value := { kind := .function f, ty := .ptr }
  let arguments := params.zipIdx.map fun (ty, k) => ({ kind := .argument f k, ty } : Value)
  let func : Func :=
    { name, returnType, value := ⟨base⟩
      params := (List.range params.length).map fun k => ⟨base + 1 + k⟩ }
  ({ m with
      values := m.values.push address ++ arguments.toArray
      functions := m.functions.push func }, f)

/-- Add a global, keeping its definition as it is written. -/
def addGlobal (m : Module) (name definition : String) : Module × GlobalId :=
  let g : GlobalId := ⟨m.globals.size⟩
  let (m, value) := m.pushValue { kind := .global g, ty := .ptr }
  ({ m with globals := m.globals.push { name, definition, value } }, g)

/-! ## Blocks -/

/-- Add a block of a function without placing it. -/
def createBlock (m : Module) (func : FuncId) (name : Option String) : Module × BlockId :=
  ({ m with blocks := m.blocks.push { name, func } }, ⟨m.blocks.size⟩)

/-- Place a block at the end of its function's layout. -/
def placeBlock (m : Module) (b : BlockId) : Except Fault Module := do
  let block ← m.getBlock b
  let func ← m.getFunc block.func
  if b ∈ func.layout then throw (.alreadyPlaced b)
  return m.modifyFunc block.func fun f => { f with layout := f.layout.push b }

/-- Add a block of a function and place it. -/
def addBlock (m : Module) (func : FuncId) (name : Option String) :
    Except Fault (Module × BlockId) := do
  let (m, b) := m.createBlock func name
  return (← m.placeBlock b, b)

@[simp] theorem values_pushValue (m : Module) (value : Value) :
    (m.pushValue value).1.values = m.values.push value := rfl

@[simp] theorem pushValue_snd (m : Module) (value : Value) :
    (m.pushValue value).2 = ⟨m.values.size⟩ := rfl

@[simp] theorem inst?_pushValue (m : Module) (value : Value) (i : InstId) :
    (m.pushValue value).1.inst? i = m.inst? i := rfl

@[simp] theorem value?_pushValue_self (m : Module) (value : Value) :
    (m.pushValue value).1.value? (m.pushValue value).2 = some value := by
  simp [value?]

end Module
end SsaFold
