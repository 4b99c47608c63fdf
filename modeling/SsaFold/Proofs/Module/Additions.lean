import Mathlib.Logic.Relation
import SsaFold.Proofs.Text.Draft

/-!
# What operations add

Values and functions are added at the end of their tables, and no operation changes the kind of a
value that is there or gives a function another address.  `Module.Addition` says what an addition
can be: a function comes together with its address and its parameters, and any other value is
neither the address of a function nor a constant that is there.  Every operation is a sequence of
additions (`Module.Intact.additions`), so that what an addition keeps, every operation keeps.
-/

namespace SsaFold
namespace Module

variable {m m' : Module}

/-- The kinds of the values, in order. -/
def valueKinds (m : Module) : Array ValueKind := m.values.map Value.kind

/-- The addresses of the functions, in declaration order. -/
def addresses (m : Module) : Array ValueId := m.functions.map Func.value

@[simp] lemma size_valueKinds (m : Module) : m.valueKinds.size = m.values.size := Array.size_map

@[simp] lemma size_addresses (m : Module) : m.addresses.size = m.functions.size := Array.size_map

lemma kind?_eq_getElem? (m : Module) (v : ValueId) : m.kind? v = m.valueKinds[v.index]? := by
  rw [kind?, value?, valueKinds, Array.getElem?_map]

lemma func?_value_eq_getElem? (m : Module) (f : FuncId) :
    (m.func? f).map Func.value = m.addresses[f.index]? := by
  rw [func?, addresses, Array.getElem?_map]

/-- What one addition makes of the kinds of values and of the addresses of functions. -/
inductive Addition (m m' : Module) : Prop
  /-- Neither a value nor a function is added. -/
  | nothing (kinds : m'.valueKinds = m.valueKinds) (addresses : m'.addresses = m.addresses)
  /-- A value is added, which is neither the address of a function nor a constant that is there. -/
  | value {kind : ValueKind} (kinds : m'.valueKinds = m.valueKinds.push kind)
      (addresses : m'.addresses = m.addresses) (noFunction : ∀ f, kind ≠ .function f)
      (fresh : ∀ c, kind = .constInt c → kind ∉ m.valueKinds)
  /-- A function is added: its address, and its parameters behind it. -/
  | func (params : Array ValueKind)
      (kinds : m'.valueKinds = m.valueKinds.push (.function ⟨m.functions.size⟩) ++ params)
      (addresses : m'.addresses = m.addresses.push ⟨m.values.size⟩)
      (arguments : ∀ kind ∈ params, ∃ f k, kind = .argument f k)

/-- Additions, one after the other. -/
abbrev Additions : Module → Module → Prop := Relation.ReflTransGen Addition

namespace Addition

lemma of_values (hvalues : m'.values = m.values) (hfuncs : m'.functions = m.functions) :
    m.Addition m' :=
  .nothing (congrArg (·.map Value.kind) hvalues) (congrArg (·.map Func.value) hfuncs)

/-- The value that is added is neither an address of a function nor a constant. -/
lemma of_push {value : Value} (hvalues : m'.values = m.values.push value)
    (hfuncs : m'.functions = m.functions) (hfunction : ∀ f, value.kind ≠ .function f)
    (hconst : ∀ c, value.kind ≠ .constInt c) : m.Addition m' := by
  refine .value ?_ (congrArg (·.map Func.value) hfuncs) hfunction fun c hc => absurd hc (hconst c)
  rw [valueKinds, hvalues, Array.map_push]
  rfl

/-- Reads do not count. -/
lemma of_bare (h : m.bare.Addition m'.bare) : m.Addition m' := by
  have hkinds : ∀ n : Module, n.bare.valueKinds = n.valueKinds := fun n => Array.map_map
  have hsize : ∀ n : Module, n.bare.values.size = n.values.size := fun n => Array.size_map
  cases h with
  | nothing kinds addresses => exact .nothing (by rwa [hkinds, hkinds] at kinds) addresses
  | value kinds addresses noFunction fresh =>
    rw [hkinds] at kinds fresh
    exact .value (hkinds m ▸ kinds) addresses noFunction fresh
  | func params kinds addresses arguments =>
    rw [hkinds, hkinds] at kinds
    exact .func params kinds (hsize m ▸ addresses) arguments

/-- The simplifier, and what else touches reads and instructions only, adds nothing. -/
lemma of_residue {s : ValueId → ValueId} {gone : List InstId}
    (hbare : m'.bare = m.bare.residue s gone) : m.Addition m' :=
  of_bare (hbare ▸ of_values rfl rfl)

/-- A value can be described anew, as long as its kind stays. -/
lemma modifyValue (m : Module) (v : ValueId) {f : Value → Value}
    (hf : ∀ value, (f value).kind = value.kind) : m.Addition (m.modifyValue v f) :=
  .nothing (map_modify_eq_map hf m.values v.index) rfl

/-- A function can be described anew, as long as its address stays. -/
lemma modifyFunc (m : Module) (f : FuncId) {g : Func → Func}
    (hg : ∀ func, (g func).value = func.value) : m.Addition (m.modifyFunc f g) :=
  .nothing rfl (map_modify_eq_map hg m.functions f.index)

/-- A value that is shared is added only if there is none of its kind. -/
lemma shareValue (m : Module) {fresh : Value} (hfresh : ∀ f, fresh.kind ≠ .function f) :
    m.Addition (m.shareValue fresh).1 := by
  rw [Module.shareValue]
  split
  · exact of_values rfl rfl
  · rename_i hnone
    rw [Array.findIdx?_eq_none_iff] at hnone
    refine .value Array.map_push rfl hfresh fun c _ hmem => ?_
    obtain ⟨value, hvalue, heq⟩ := Array.mem_map.1 hmem
    simpa [heq] using hnone value hvalue

/-! ## Each operation -/

lemma placeBlock {b : BlockId} (hrun : m.placeBlock b = .ok m') : m.Addition m' := by
  obtain ⟨block, func, -, -, -, rfl⟩ := placeBlock_eq_ok hrun
  exact modifyFunc m block.func fun _ => rfl

/-- A block is created, and then it is placed. -/
lemma addBlock {func : FuncId} {name : Option String} {b : BlockId}
    (hrun : m.addBlock func name = .ok (m', b)) : m.Additions m' := by
  obtain ⟨m₁, hplace, heq⟩ := bind_eq_ok.1 hrun
  obtain ⟨rfl, -⟩ := Prod.mk.inj (pure_eq_ok.1 heq)
  have hcreate : m.Addition (m.createBlock func name).1 := of_values rfl rfl
  exact .head hcreate (.single (placeBlock hplace))

lemma constInt {bits : Nat} {raw : Int} {v : ValueId} (hrun : m.constInt bits raw = .ok (m', v)) :
    m.Addition m' := by
  rw [Module.constInt] at hrun
  split at hrun
  · obtain ⟨rfl, -⟩ := Prod.mk.inj (Except.ok.inj hrun)
    exact shareValue m (by simp)
  · cases hrun

lemma appendInst {b : BlockId} {spec : InstSpec} {vs : List ValueId} {i : InstId}
    (hrun : m.appendInst b spec vs = .ok (m', i)) : m.Addition m' :=
  of_bare ((bare_appendInst hrun).2 ▸ of_push rfl rfl (by simp) (by simp))

lemma addFunc (m : Module) (name : String) (returnType : Ty) (params : List Ty) :
    m.Addition (m.addFunc name returnType params).1 := by
  set arguments := params.zipIdx.map fun param =>
    ({ kind := .argument ⟨m.functions.size⟩ param.2, ty := param.1 } : Value)
  refine .func (arguments.toArray.map Value.kind) ?_ Array.map_push fun kind hkind => ?_
  · have hvalues : (m.addFunc name returnType params).1.values
        = m.values.push
          { kind := .function ⟨m.functions.size⟩, ty := .ptr } ++ arguments.toArray := rfl
    rw [valueKinds, hvalues, Array.map_append, Array.map_push]
    rfl
  · obtain ⟨value, hvalue, rfl⟩ := Array.mem_map.1 hkind
    obtain ⟨param, -, rfl⟩ := List.mem_map.1 (List.mem_toArray.1 hvalue)
    exact ⟨_, _, rfl⟩

end Addition

/-- An operation is a sequence of additions. -/
lemma Intact.additions (h : m.Intact) {op : Op} (hrun : op.run m = .ok m') : m.Additions m' := by
  cases op with
  | describe name sourceFilename targetLines =>
    obtain rfl := Except.ok.inj hrun
    exact .single (.of_values rfl rfl)
  | addFunc name returnType params =>
    obtain rfl := Except.ok.inj hrun
    exact .single (.addFunc m name returnType params)
  | describeFunc f name returnType linkage attrs vararg =>
    obtain ⟨-, -, heq⟩ := bind_eq_ok.1 hrun
    obtain rfl := pure_eq_ok.1 heq
    exact .single (.modifyFunc m f fun _ => rfl)
  | addGlobal name definition =>
    obtain rfl := Except.ok.inj hrun
    exact .single (.of_push rfl rfl (by simp) (by simp))
  | createBlock func name =>
    obtain rfl := Except.ok.inj hrun
    exact .single (.of_values rfl rfl)
  | placeBlock b => exact .single (.placeBlock hrun)
  | addBlock func name =>
    obtain ⟨⟨m₁, b⟩, hrun', heq⟩ := bind_eq_ok.1 hrun
    obtain rfl := pure_eq_ok.1 heq
    exact Addition.addBlock hrun'
  | constInt bits raw =>
    obtain ⟨⟨m₁, v⟩, hrun', heq⟩ := bind_eq_ok.1 hrun
    obtain rfl := pure_eq_ok.1 heq
    exact .single (.constInt hrun')
  | null =>
    obtain rfl := Except.ok.inj hrun
    exact .single (.shareValue m (by simp))
  | placeholder ty name =>
    obtain rfl := Except.ok.inj hrun
    exact .single (.of_push rfl rfl (by simp) (by simp))
  | setValueName v name =>
    obtain ⟨-, -, heq⟩ := bind_eq_ok.1 hrun
    obtain rfl := pure_eq_ok.1 heq
    exact .single (.modifyValue m v fun _ => rfl)
  | appendInst b spec operands =>
    obtain ⟨⟨m₁, i⟩, hrun', heq⟩ := bind_eq_ok.1 hrun
    obtain rfl := pure_eq_ok.1 heq
    exact .single (.appendInst hrun')
  | setSpec i spec =>
    obtain ⟨-, -, heq⟩ := bind_eq_ok.1 hrun
    obtain rfl := pure_eq_ok.1 heq
    exact .single (.of_values rfl rfl)
  | setOperand u v =>
    exact .single (.of_bare ((h.agrees.setOperand hrun).2 ▸ .of_values rfl rfl))
  | replaceAllUses source target =>
    obtain ⟨⟨m₁, n⟩, hrun', heq⟩ := bind_eq_ok.1 hrun
    obtain rfl := pure_eq_ok.1 heq
    rcases h.agrees.replaceAllUses_eq_ok hrun' with ⟨rfl, -⟩ | ⟨-, -, -, -, -, rfl⟩
    · exact .refl
    · exact .single (.of_residue (bare_redirected m source target))
  | eraseInst i => exact .single (.of_bare ((h.eraseInst_eq_ok hrun).2.2 ▸ .of_values rfl rfl))
  | eraseInsts b ids =>
    exact .single (.of_bare ((h.eraseInsts_eq_ok hrun).2.2 ▸ .of_values rfl rfl))
  | build func current step =>
    obtain ⟨⟨⟨⟩, b⟩, hrun', heq⟩ := bind_eq_ok.1 hrun
    obtain rfl := pure_eq_ok.1 heq
    exact Build.along_step (fun hrun => Addition.addBlock hrun)
      (fun hrun => .single (.constInt hrun))
      (fun hrun => .single (.appendInst hrun)) step _ _ _ hrun'
  | eliminate f maxBits =>
    obtain ⟨⟨m₁, n⟩, hrun', heq⟩ := bind_eq_ok.1 hrun
    obtain rfl := pure_eq_ok.1 heq
    obtain ⟨gone, hsteps⟩ := h.steps_of_eliminate hrun'
    obtain ⟨s, gone', hresidue⟩ := hsteps.residue (Sweep.sound_start _ h [])
    exact .single (.of_residue hresidue)
  | simplify o =>
    obtain ⟨gone, hsteps⟩ := h.steps_of_simplified hrun
    obtain ⟨s, gone', hresidue⟩ := hsteps.residue (Sweep.sound_start _ h [])
    exact .single (.of_residue hresidue)

end Module
end SsaFold
