import SsaFold.Proofs.Growth
import SsaFold.Proofs.Text.Header

/-!
# Modules that are being read

`Module.Draft` is what holds of a module at every point of the reading: an instruction reads only
what its function may read, or a placeholder; it branches within its function; and everything in
the module can be written again.

Two relations say what a step in the reading keeps.  `Module.Keeps` is all that the rules of a draft
depend on: values keep their kinds and types, blocks their names and functions, and functions their
parameters.  `Module.Extends` says more of a step in the body of one function: nothing changes
outside this function, what is known keeps its name, and reads are renamed by a map that moves
placeholders only.
-/

namespace SsaFold

namespace Text

/-- The name, if there is one, can be written, and it is not a number. -/
def Nameable (name : Option String) : Prop := ∀ s, name = some s → Quotable s ∧ isNumbered s = false

lemma nameable_none : Nameable none := by simp [Nameable]

lemma keptName_eq_some {name s : String} :
    keptName name = some s ↔ name = s ∧ isNumbered name = false := by
  rw [keptName]
  cases isNumbered name <;> simp

lemma nameable_keptName {name : String} (h : Quotable name) : Nameable (keptName name) := by
  intro s hs
  obtain ⟨rfl, hnumbered⟩ := keptName_eq_some.1 hs
  exact ⟨h, hnumbered⟩

end Text

/-- A function without its blocks. -/
def Func.heading (f : Func) : Func := { f with layout := #[] }

/-- A value of the kind belongs to no function. -/
def ValueKind.IsShared : ValueKind → Prop
  | .constInt _ | .null | .function _ | .global _ => True
  | .argument _ _ | .inst _ | .placeholder => False

namespace Module

variable {m m' m'' : Module}

/-! ## Functions of entries -/

/-- The kind of a value. -/
def kind? (m : Module) (v : ValueId) : Option ValueKind := (m.value? v).map Value.kind

/-- The function of a block. -/
def owner? (m : Module) (b : BlockId) : Option FuncId := (m.block? b).map Block.func

lemma kind?_eq_some {v : ValueId} {kind : ValueKind} :
    m.kind? v = some kind ↔ ∃ value, m.value? v = some value ∧ value.kind = kind := by
  simp [kind?]

lemma owner?_eq_some {b : BlockId} {f : FuncId} :
    m.owner? b = some f ↔ ∃ block, m.block? b = some block ∧ block.func = f := by
  simp [owner?]

/-! ## What an instruction may read -/

/-- The value `v`, being of the kind, can be read in function `f`: it belongs to no function, or to
`f`. -/
def Offers (m : Module) (f : FuncId) (v : ValueId) : ValueKind → Prop
  | .argument g k => g = f ∧ ∃ func, m.func? f = some func ∧ func.params[k]? = some v
  | .inst i => ∃ inst, m.inst? i = some inst ∧ inst.result = v ∧ m.owner? inst.parent = some f
  | .function g => ∃ func, m.func? g = some func
  | .global g => ∃ glob, m.global? g = some glob
  | .constInt _ | .null => True
  | .placeholder => False

/-- The value can be read in function `f`. -/
def Visible (m : Module) (f : FuncId) (v : ValueId) : Prop :=
  ∃ value, m.value? v = some value ∧ value.ty ≠ .void ∧ m.Offers f v value.kind

lemma Visible.offers {f : FuncId} {v : ValueId} {kind : ValueKind} (h : m.Visible f v)
    (hkind : m.kind? v = some kind) : m.Offers f v kind := by
  obtain ⟨value, hv, -, hoffers⟩ := h
  obtain ⟨value', hv', rfl⟩ := kind?_eq_some.1 hkind
  obtain rfl := Option.some.inj (hv.symm.trans hv')
  exact hoffers

lemma Visible.not_placeholder {f : FuncId} {v : ValueId} (h : m.Visible f v) :
    m.kind? v ≠ some .placeholder := fun hkind => h.offers hkind

/-- What belongs to no function has a type. -/
lemma Shaped.visible_of_shared (h : m.Shaped) {f : FuncId} {v : ValueId} {kind : ValueKind}
    (hv : m.kind? v = some kind) (hkind : kind.IsShared) (hoffers : m.Offers f v kind) :
    m.Visible f v := by
  obtain ⟨value, hvalue, rfl⟩ := kind?_eq_some.1 hv
  have hfits := h.fits v value hvalue
  refine ⟨value, hvalue, fun hty => ?_, hoffers⟩
  cases hk : value.kind <;> simp_all [ValueKind.Fits, ValueKind.IsShared, IntConst.ty]

/-- What a typed instruction reads is there. -/
lemma Typed.exists_value (h : m.Typed) {i : InstId} {inst : Inst} (hi : m.inst? i = some inst)
    {v : ValueId} (hv : v ∈ inst.operandValues) : ∃ value, m.value? v = some value := by
  obtain ⟨-, tys, htys, -⟩ := h i inst hi
  have hmem : m.typeOf? v ∈ tys.map some := htys ▸ List.mem_map_of_mem hv
  obtain ⟨ty, -, hty⟩ := List.mem_map.1 hmem
  obtain ⟨value, hvalue, -⟩ := typeOf?_eq_some.1 hty.symm
  exact ⟨value, hvalue⟩

/-! ## Appending an instruction -/

/-- The instruction that is appended, and its result, which is new. -/
lemma inst?_appendInst {b : BlockId} {spec : InstSpec} {vs : List ValueId} {i : InstId}
    {inst : Inst} (hrun : m.appendInst b spec vs = .ok (m', i)) (hi : m'.inst? i = some inst) :
    inst.toInstSpec = spec ∧ inst.operandValues = vs ∧ inst.parent = b ∧
      m.value? inst.result = none ∧ ∃ value, m'.value? inst.result = some value ∧
        value.kind = .inst i ∧ value.ty = spec.ty ∧ value.name = none := by
  obtain ⟨rfl, hbare⟩ := bare_appendInst hrun
  have hi' : m'.bare.inst? ⟨m.insts.size⟩ = some inst.bare := by rw [inst?_bare, hi]; rfl
  rw [hbare, inst?_withInst, if_pos size_insts_bare.symm] at hi'
  have heq := Option.some.inj hi'
  have hresult : inst.result = ⟨m.values.size⟩ := by
    rw [← Inst.result_bare, ← heq, size_values_bare]
  refine ⟨by rw [← Inst.toInstSpec_bare, ← heq], ?_, by rw [← Inst.parent_bare, ← heq], ?_, ?_⟩
  · rw [← Inst.operandValues_bare, ← heq]
    simp [Inst.operandValues, Function.comp_def]
  · simp [hresult, value?]
  · have hv : m'.bare.value? inst.result
        = some { kind := .inst ⟨m.bare.insts.size⟩, ty := spec.ty } := by
      rw [hbare, value?_withInst, hresult, if_pos size_values_bare.symm]
    rw [value?_bare, Option.map_eq_some_iff] at hv
    obtain ⟨value, hv, heq⟩ := hv
    have hkind : value.kind = .inst ⟨m.bare.insts.size⟩ := (congrArg Value.kind heq : _)
    exact ⟨value, hv, by rw [hkind, size_insts_bare], (congrArg Value.ty heq : _),
      (congrArg Value.name heq : _)⟩

/-- What an append adds, and what it leaves as it is. -/
lemma inst?_of_appendInst {b : BlockId} {spec : InstSpec} {vs : List ValueId} {i : InstId}
    (hrun : m.appendInst b spec vs = .ok (m', i)) {j : InstId} {inst' : Inst}
    (hj : m'.inst? j = some inst') :
    j = i ∨ ∃ inst, m.inst? j = some inst ∧ inst'.bare = inst.bare := by
  obtain ⟨rfl, hbare⟩ := bare_appendInst hrun
  have hj' : m'.bare.inst? j = some inst'.bare := by rw [inst?_bare, hj]; rfl
  rw [hbare, inst?_withInst, inst?_bare, size_insts_bare] at hj'
  split_ifs at hj' with hnew
  · exact .inl (congrArg InstId.mk hnew)
  · obtain ⟨inst, hinst, heq⟩ := Option.map_eq_some_iff.1 hj'
    exact .inr ⟨inst, hinst, heq.symm⟩

/-- A value that was there changes in its use list only. -/
lemma value?_appendInst {b : BlockId} {spec : InstSpec} {vs : List ValueId} {i : InstId}
    (hrun : m.appendInst b spec vs = .ok (m', i)) {v : ValueId} {value : Value}
    (hv : m.value? v = some value) : ∃ value', m'.value? v = some value' ∧
      value'.bare = value.bare := by
  obtain ⟨-, hbare⟩ := bare_appendInst hrun
  have hlt : v.index ≠ m.bare.values.size := by
    rw [size_values_bare]
    exact Nat.ne_of_lt (Array.getElem?_eq_some_iff.1 hv).1
  have hv' : m'.bare.value? v = some value.bare := by
    rw [hbare, value?_withInst, if_neg hlt, value?_bare, hv]
    rfl
  rwa [value?_bare, Option.map_eq_some_iff] at hv'

lemma block?_appendInst {b : BlockId} {spec : InstSpec} {vs : List ValueId} {i : InstId}
    (hrun : m.appendInst b spec vs = .ok (m', i)) (c : BlockId) : m'.block? c = if b = c then
      (m.block? c).map fun x => { x with insts := x.insts.push i } else m.block? c := by
  obtain ⟨rfl, hbare⟩ := bare_appendInst hrun
  rw [← block?_bare, hbare, block?_withInst, block?_bare, size_insts_bare]

lemma functions_appendInst {b : BlockId} {spec : InstSpec} {vs : List ValueId} {i : InstId}
    (hrun : m.appendInst b spec vs = .ok (m', i)) : m'.functions = m.functions := by
  have := congrArg Module.functions (bare_appendInst hrun).2
  exact this

lemma outline_appendInst {b : BlockId} {spec : InstSpec} {vs : List ValueId} {i : InstId}
    (hrun : m.appendInst b spec vs = .ok (m', i)) :
    ∃ functions blocks insts values, m' = { m with functions, blocks, insts, values } := by
  have hbare := (bare_appendInst hrun).2
  refine ⟨m'.functions, m'.blocks, m'.insts, m'.values, ?_⟩
  have hname : m'.name = m.name := (congrArg Module.name hbare : _)
  have hsource : m'.sourceFilename = m.sourceFilename := (congrArg Module.sourceFilename hbare : _)
  have htarget : m'.targetLines = m.targetLines := (congrArg Module.targetLines hbare : _)
  have hglobals : m'.globals = m.globals := (congrArg Module.globals hbare : _)
  rw [← hname, ← hsource, ← htarget, ← hglobals]

/-- Only a name changes. -/
lemma setValueName_eq_ok {v : ValueId} {name : Option String}
    (hrun : m.setValueName v name = .ok m') :
    m' = { m with values := m'.values } ∧ ∀ w, m'.value? w =
      if v = w then (m.value? w).map fun value => { value with name } else m.value? w := by
  simp only [Module.setValueName, bind_eq_ok, pure_eq_ok] at hrun
  obtain ⟨-, -, rfl⟩ := hrun
  exact ⟨rfl, fun w => value?_modifyValue m v w _⟩

/-! ## What a step keeps -/

/-- The entries of the one module are in the other, as far as the rules of a draft depend on
them. -/
structure Keeps (m m' : Module) : Prop where
  value : ∀ {v value}, m.value? v = some value →
    ∃ value', m'.value? v = some value' ∧ value'.kind = value.kind ∧ value'.ty = value.ty
  block : ∀ {b block}, m.block? b = some block →
    ∃ block', m'.block? b = some block' ∧ block'.name = block.name ∧ block'.func = block.func
  inst : ∀ {i inst}, m.inst? i = some inst →
    ∃ inst', m'.inst? i = some inst' ∧ inst'.result = inst.result ∧ inst'.parent = inst.parent
  func : ∀ {f func}, m.func? f = some func →
    ∃ func', m'.func? f = some func' ∧ func'.params = func.params
  global : ∀ {g glob}, m.global? g = some glob → m'.global? g = some glob

namespace Keeps

lemma refl (m : Module) : m.Keeps m :=
  ⟨fun hv => ⟨_, hv, rfl, rfl⟩, fun hb => ⟨_, hb, rfl, rfl⟩, fun hi => ⟨_, hi, rfl, rfl⟩,
    fun hf => ⟨_, hf, rfl⟩, id⟩

lemma trans (h : m.Keeps m') (h' : m'.Keeps m'') : m.Keeps m'' where
  value hv := by
    obtain ⟨value', hv', hkind, hty⟩ := h.value hv
    obtain ⟨value'', hv'', hkind', hty'⟩ := h'.value hv'
    exact ⟨value'', hv'', hkind'.trans hkind, hty'.trans hty⟩
  block hb := by
    obtain ⟨block', hb', hname, hfunc⟩ := h.block hb
    obtain ⟨block'', hb'', hname', hfunc'⟩ := h'.block hb'
    exact ⟨block'', hb'', hname'.trans hname, hfunc'.trans hfunc⟩
  inst hi := by
    obtain ⟨inst', hi', hresult, hparent⟩ := h.inst hi
    obtain ⟨inst'', hi'', hresult', hparent'⟩ := h'.inst hi'
    exact ⟨inst'', hi'', hresult'.trans hresult, hparent'.trans hparent⟩
  func hf := by
    obtain ⟨func', hf', hparams⟩ := h.func hf
    obtain ⟨func'', hf'', hparams'⟩ := h'.func hf'
    exact ⟨func'', hf'', hparams'.trans hparams⟩
  global hg := h'.global (h.global hg)

variable {f : FuncId} {v : ValueId}

lemma kind? (h : m.Keeps m') {kind : ValueKind} (hv : m.kind? v = some kind) :
    m'.kind? v = some kind := by
  obtain ⟨value, hvalue, rfl⟩ := kind?_eq_some.1 hv
  obtain ⟨value', hv', hkind, -⟩ := h.value hvalue
  exact kind?_eq_some.2 ⟨value', hv', hkind⟩

lemma owner? (h : m.Keeps m') {b : BlockId} (hb : m.owner? b = some f) : m'.owner? b = some f := by
  obtain ⟨block, hblock, rfl⟩ := owner?_eq_some.1 hb
  obtain ⟨block', hb', -, hfunc⟩ := h.block hblock
  exact owner?_eq_some.2 ⟨block', hb', hfunc⟩

lemma offers (h : m.Keeps m') {kind : ValueKind} (hk : m.Offers f v kind) :
    m'.Offers f v kind := by
  cases kind with
  | inst i =>
    obtain ⟨inst, hi, rfl, howner⟩ := hk
    obtain ⟨inst', hi', hresult, hparent⟩ := h.inst hi
    exact ⟨inst', hi', hresult, hparent ▸ h.owner? howner⟩
  | argument g k =>
    obtain ⟨hg, func, hf, hparam⟩ := hk
    obtain ⟨func', hf', hparams⟩ := h.func hf
    exact ⟨hg, func', hf', hparams ▸ hparam⟩
  | function g =>
    obtain ⟨func, hf⟩ := hk
    obtain ⟨func', hf', -⟩ := h.func hf
    exact ⟨func', hf'⟩
  | global g =>
    obtain ⟨glob, hg⟩ := hk
    exact ⟨glob, h.global hg⟩
  | _ => exact hk

lemma visible (h : m.Keeps m') (hv : m.Visible f v) : m'.Visible f v := by
  obtain ⟨value, hv, hty, hoffers⟩ := hv
  obtain ⟨value', hv', hkind, hty'⟩ := h.value hv
  exact ⟨value', hv', hty' ▸ hty, hkind ▸ h.offers hoffers⟩

/-- Where values and blocks are at most added, all is kept. -/
lemma of_append (vs : Array Value) (hvalues : m'.values = m.values ++ vs)
    (hinsts : m'.insts = m.insts) (bs : Array Block) (hblocks : m'.blocks = m.blocks ++ bs)
    (hfuncs : ∀ {f func}, m.func? f = some func →
      ∃ func', m'.func? f = some func' ∧ func'.params = func.params)
    (hglobals : ∀ {g glob}, m.global? g = some glob → m'.global? g = some glob) : m.Keeps m' := by
  have hblock : ∀ {b block}, m.block? b = some block → m'.block? b = some block := by
    intro b block hb
    rw [block?, hblocks, Array.getElem?_append_left (Array.getElem?_eq_some_iff.1 hb).1]
    exact hb
  refine ⟨fun {v value} hv => ⟨value, ?_, rfl, rfl⟩, fun hb => ⟨_, hblock hb, rfl, rfl⟩,
    fun {i inst} hi => ⟨inst, by rwa [inst?, hinsts], rfl, rfl⟩, hfuncs, hglobals⟩
  rw [value?, hvalues, Array.getElem?_append_left (Array.getElem?_eq_some_iff.1 hv).1]
  exact hv

/-- A value can be named. -/
lemma setValueName (h : m.Keeps m') {v : ValueId} {name : Option String}
    (hrun : m'.setValueName v name = .ok m'') : m.Keeps m'' := by
  obtain ⟨heq, hvalue⟩ := setValueName_eq_ok hrun
  refine ⟨fun {w value} hw => ?_, fun hb => heq ▸ h.block hb, fun hi => heq ▸ h.inst hi,
    fun hf => heq ▸ h.func hf, fun hg => heq ▸ h.global hg⟩
  obtain ⟨value', hw', hkind, hty⟩ := h.value hw
  rw [hvalue]
  split_ifs
  · exact ⟨_, congrArg (Option.map _) hw', hkind, hty⟩
  · exact ⟨value', hw', hkind, hty⟩

end Keeps

/-- The second module differs from the first in function `g` only, and by what has been added.
Reads are renamed by `s`, which moves placeholders only. -/
structure Extends (g : FuncId) (s : ValueId → ValueId) (m m' : Module) : Prop where
  /-- Nothing but functions, blocks, instructions and values has changed. -/
  outline : ∃ functions blocks insts values, m' = { m with functions, blocks, insts, values }
  value : ∀ {v value}, m.value? v = some value → ∃ value', m'.value? v = some value' ∧
    value'.kind = value.kind ∧ value'.ty = value.ty ∧ value'.name = value.name
  fixed : ∀ {v kind}, m.kind? v = some kind → kind ≠ .placeholder → s v = v
  inst : ∀ {i inst}, m.inst? i = some inst →
    ∃ inst', m'.inst? i = some inst' ∧ inst'.bare = (inst.rename s).bare
  block : ∀ {b block}, m.block? b = some block → ∃ block', m'.block? b = some block' ∧
    block'.name = block.name ∧ block'.func = block.func ∧ (block.func ≠ g → block' = block)
  func : ∀ {f func}, m.func? f = some func →
    ∃ layout, m'.func? f = some { func with layout } ∧ (f ≠ g → layout = func.layout)
  headings : m'.functions.map Func.heading = m.functions.map Func.heading

namespace Extends

variable {g : FuncId} {s t : ValueId → ValueId}

lemma globals_eq (h : m.Extends g s m') : m'.globals = m.globals := by
  obtain ⟨functions, blocks, insts, values, rfl⟩ := h.outline
  rfl

lemma keeps (h : m.Extends g s m') : m.Keeps m' where
  value hv := by
    obtain ⟨value', hv', hkind, hty, -⟩ := h.value hv
    exact ⟨value', hv', hkind, hty⟩
  block hb := by
    obtain ⟨block', hb', hname, hfunc, -⟩ := h.block hb
    exact ⟨block', hb', hname, hfunc⟩
  inst {i inst} hi := by
    obtain ⟨inst', hi', heq⟩ := h.inst hi
    exact ⟨inst', hi', (Inst.result_eq_of_bare heq).trans (inst.result_rename s),
      (Inst.parent_eq_of_bare heq).trans (inst.parent_rename s)⟩
  func hf := by
    obtain ⟨layout, hf', -⟩ := h.func hf
    exact ⟨_, hf', rfl⟩
  global hg := by rwa [global?, h.globals_eq]

lemma refl (g : FuncId) (m : Module) : m.Extends g id m :=
  ⟨⟨_, _, _, _, rfl⟩, fun hv => ⟨_, hv, rfl, rfl, rfl⟩, fun _ _ => rfl,
    fun {_ inst} hi => ⟨inst, hi, by rw [Inst.rename_id]⟩,
    fun hb => ⟨_, hb, rfl, rfl, fun _ => rfl⟩, fun {_ func} hf => ⟨func.layout, hf, fun _ => rfl⟩,
    rfl⟩

lemma trans (h : m.Extends g s m') (h' : m'.Extends g t m'') : m.Extends g (t ∘ s) m'' where
  outline := by
    obtain ⟨_, _, _, _, rfl⟩ := h.outline
    obtain ⟨_, _, _, _, rfl⟩ := h'.outline
    exact ⟨_, _, _, _, rfl⟩
  value hv := by
    obtain ⟨value', hv', hkind, hty, hname⟩ := h.value hv
    obtain ⟨value'', hv'', hkind', hty', hname'⟩ := h'.value hv'
    exact ⟨value'', hv'', hkind'.trans hkind, hty'.trans hty, hname'.trans hname⟩
  fixed hv hkind := by
    rw [Function.comp_apply, h.fixed hv hkind, h'.fixed (h.keeps.kind? hv) hkind]
  inst hi := by
    obtain ⟨inst', hi', heq⟩ := h.inst hi
    obtain ⟨inst'', hi'', heq'⟩ := h'.inst hi'
    refine ⟨inst'', hi'', ?_⟩
    rw [heq', Inst.bare_rename, heq, ← Inst.bare_rename, Inst.rename_rename]
  block hb := by
    obtain ⟨block', hb', hname, hfunc, hsame⟩ := h.block hb
    obtain ⟨block'', hb'', hname', hfunc', hsame'⟩ := h'.block hb'
    refine ⟨block'', hb'', hname'.trans hname, hfunc'.trans hfunc, fun hg => ?_⟩
    rw [hsame' (hfunc ▸ hg), hsame hg]
  func hf := by
    obtain ⟨layout, hf', hsame⟩ := h.func hf
    obtain ⟨layout', hf'', hsame'⟩ := h'.func hf'
    exact ⟨layout', hf'', fun hg => (hsame' hg).trans (hsame hg)⟩
  headings := h'.headings.trans h.headings

/-- Values and blocks can be added. -/
lemma of_append (g : FuncId) (vs : Array Value) (bs : Array Block)
    (heq : m' = { m with values := m.values ++ vs, blocks := m.blocks ++ bs }) :
    m.Extends g id m' := by
  subst heq
  refine ⟨⟨_, _, _, _, rfl⟩, fun {v value} hv => ⟨value, ?_, rfl, rfl, rfl⟩, fun _ _ => rfl,
    fun {i inst} hi => ⟨inst, hi, by rw [Inst.rename_id]⟩,
    fun {b block} hb => ⟨block, ?_, rfl, rfl, fun _ => rfl⟩,
    fun {f func} hf => ⟨func.layout, hf, fun _ => rfl⟩, rfl⟩
  · rw [value?, Array.getElem?_append_left (Array.getElem?_eq_some_iff.1 hv).1]
    exact hv
  · rw [block?, Array.getElem?_append_left (Array.getElem?_eq_some_iff.1 hb).1]
    exact hb

/-- A block can be placed. -/
lemma placeBlock {b : BlockId} (hrun : m.placeBlock b = .ok m') (hb : m.owner? b = some g) :
    m.Extends g id m' := by
  obtain ⟨block, func, hblock, hf, -, rfl⟩ := placeBlock_eq_ok hrun
  obtain ⟨_, hblock', rfl⟩ := owner?_eq_some.1 hb
  obtain rfl := Option.some.inj (hblock.symm.trans hblock')
  refine ⟨⟨_, _, _, _, rfl⟩, (refl block.func m).value, fun _ _ => rfl, (refl block.func m).inst,
    (refl block.func m).block, fun {f fn} hf' => ?_, ?_⟩
  · rw [func?_modifyFunc]
    split_ifs with hfunc
    · exact ⟨_, congrArg (Option.map _) hf', fun hne => absurd hfunc.symm hne⟩
    · exact ⟨fn.layout, hf', fun _ => rfl⟩
  · have hheading : ∀ f : Func, { f with layout := f.layout.push b }.heading = f.heading :=
      fun _ => rfl
    exact map_modify_eq_map hheading m.functions block.func.index

/-- An instruction can be appended to a block of the function. -/
lemma appendInst {b : BlockId} {spec : InstSpec} {vs : List ValueId} {i : InstId}
    (hrun : m.appendInst b spec vs = .ok (m', i)) (hb : m.owner? b = some g) :
    m.Extends g id m' := by
  obtain ⟨-, hbare⟩ := bare_appendInst hrun
  obtain ⟨block, hblock, hfunc⟩ := owner?_eq_some.1 hb
  refine ⟨outline_appendInst hrun, fun {v value} hv => ?_, fun _ _ => rfl, fun {j inst} hj => ?_,
    fun {c block'} hc => ?_, fun {f func} hf => ⟨func.layout, ?_, fun _ => rfl⟩, ?_⟩
  · obtain ⟨value', hv', heq⟩ := value?_appendInst hrun hv
    exact ⟨value', hv', (congrArg Value.kind heq : _), (congrArg Value.ty heq : _),
      (congrArg Value.name heq : _)⟩
  · have hlt : j.index ≠ m.bare.insts.size := by
      rw [size_insts_bare]
      exact Nat.ne_of_lt (index_lt_of_inst? hj)
    have hj' : m'.bare.inst? j = some inst.bare := by
      rw [hbare, inst?_withInst, if_neg hlt, inst?_bare, hj]
      rfl
    rw [inst?_bare, Option.map_eq_some_iff] at hj'
    obtain ⟨inst', hj', heq⟩ := hj'
    exact ⟨inst', hj', by rw [Inst.rename_id, heq]⟩
  · rw [block?_appendInst hrun]
    split_ifs with hbc
    · subst hbc
      obtain rfl := Option.some.inj (hblock.symm.trans hc)
      exact ⟨_, congrArg (Option.map _) hc, rfl, rfl, fun hne => absurd hfunc hne⟩
    · exact ⟨block', hc, rfl, rfl, fun _ => rfl⟩
  · rwa [func?, functions_appendInst hrun]
  · rw [functions_appendInst hrun]

/-- The reads of a placeholder can be sent elsewhere. -/
lemma redirected (g : FuncId) {source : ValueId} (target : ValueId)
    (hsource : m.kind? source = some .placeholder) :
    m.Extends g (redirection source target) (m.redirected source target) := by
  have hbare := bare_redirected m source target
  refine ⟨⟨_, _, _, _, rfl⟩, fun {v value} hv =>
      ⟨_, (value?_redirected v).trans (congrArg (Option.map _) hv), rfl, rfl, rfl⟩,
    fun {v kind} hv hkind => if_neg ?_,
    fun hi => inst?_residue_of_not_mem hbare hi List.not_mem_nil,
    (refl g m).block, (refl g m).func, rfl⟩
  rintro rfl
  exact hkind (Option.some.inj (hv.symm.trans hsource))

/-- A value that is new can be named. -/
lemma setValueName (h : m.Extends g s m') {v : ValueId} {name : Option String}
    (hnew : m.value? v = none) (hrun : m'.setValueName v name = .ok m'') : m.Extends g s m'' := by
  obtain ⟨heq, hvalue⟩ := setValueName_eq_ok hrun
  refine ⟨?_, fun {w value} hw => ?_, h.fixed, fun hi => heq ▸ h.inst hi,
    fun hb => heq ▸ h.block hb, fun hf => heq ▸ h.func hf, heq ▸ h.headings⟩
  · obtain ⟨_, _, _, _, rfl⟩ := h.outline
    rw [heq]
    exact ⟨_, _, _, _, rfl⟩
  · have hvw : v ≠ w := by
      rintro rfl
      simp [hnew] at hw
    rw [hvalue, if_neg hvw]
    exact h.value hw

end Extends

/-! ## Drafts -/

/-- The instruction keeps to its function, and a line can hold it. -/
structure Regular (m : Module) (inst : Inst) : Prop where
  /-- It reads and branches within the function of its block. -/
  within : ∃ f, m.owner? inst.parent = some f ∧
    (∀ v ∈ inst.operandValues, m.Visible f v ∨ m.kind? v = some .placeholder) ∧
    ∀ b ∈ inst.targets, m.owner? b = some f
  /-- It says what some statement says. -/
  stated : ∃ s : Text.Statement, s.Valid ∧
    inst.toInstSpec = s.operation.spec s.align inst.targets ∧
    inst.targets.length = s.operation.labels.length
  /-- A callee is not the null pointer. -/
  callee : inst.opcode = .call → ∀ v, inst.operandValues.getLast? = some v →
    ∃ kind, m.kind? v = some kind ∧ kind ≠ .null

/-- A header can hold the function, and its parameters are known as such. -/
structure Declared (m : Module) (f : FuncId) (func : Func) : Prop where
  name : Text.Quotable func.name
  returnType : func.returnType.Readable
  linkage : ∀ w ∈ func.linkage, Text.IsWord w ∧ Ty.ofWord? w = none
  attrs : ∀ a ∈ func.attrs, Text.IsAttr a
  params : ∀ k v, func.params[k]? = some v →
    ∃ value, m.value? v = some value ∧ value.kind = .argument f k ∧ value.ty ≠ .void
  /-- The label of a placed block is a word. -/
  labels : ∀ b ∈ func.layout, ∃ block, m.block? b = some block ∧
    ∀ s, block.name = some s → Text.IsWord s

/-- What holds of a module at every point of the reading. -/
structure Draft (m : Module) : Prop where
  insts : ∀ i inst, m.inst? i = some inst → m.Regular inst
  values : ∀ v value, m.value? v = some value → value.ty.Readable ∧ Text.Nameable value.name
  funcs : ∀ f func, m.func? f = some func → m.Declared f func

variable {inst inst' : Inst}

lemma Regular.mono (h : m.Regular inst) (hk : m.Keeps m') (hinst : inst'.bare = inst.bare) :
    m'.Regular inst' := by
  obtain ⟨f, howner, hoperands, htargets⟩ := h.within
  have hspec := Inst.toInstSpec_eq_of_bare hinst
  have htargets' : inst'.targets = inst.targets := congrArg InstSpec.targets hspec
  refine ⟨⟨f, ?_, fun v hv => ?_, fun b hb => hk.owner? (htargets b (htargets' ▸ hb))⟩, ?_,
    fun hcall v hv => ?_⟩
  · rw [Inst.parent_eq_of_bare hinst]
    exact hk.owner? howner
  · rw [Inst.operandValues_eq_of_bare hinst] at hv
    exact (hoperands v hv).imp hk.visible hk.kind?
  · rw [htargets', hspec]
    exact h.stated
  · rw [Inst.operandValues_eq_of_bare hinst] at hv
    obtain ⟨kind, hkind, hne⟩ := h.callee (congrArg InstSpec.opcode hspec ▸ hcall) v hv
    exact ⟨kind, hk.kind? hkind, hne⟩

lemma Declared.mono {f : FuncId} {func : Func} (h : m.Declared f func) (hk : m.Keeps m') :
    m'.Declared f func := by
  refine ⟨h.name, h.returnType, h.linkage, h.attrs, fun k v hv => ?_, fun b hb => ?_⟩
  · obtain ⟨value, hvalue, hkind, hty⟩ := h.params k v hv
    obtain ⟨value', hvalue', hkind', hty'⟩ := hk.value hvalue
    exact ⟨value', hvalue', hkind'.trans hkind, hty' ▸ hty⟩
  · obtain ⟨block, hblock, hlabel⟩ := h.labels b hb
    obtain ⟨block', hblock', hname, -⟩ := hk.block hblock
    exact ⟨block', hblock', hname ▸ hlabel⟩

namespace Draft

lemma empty (name : String) : (empty name).Draft := by
  constructor <;> intro k _ h <;> simp [Module.empty, inst?, value?, func?] at h

/-- A module stays a draft when it gains values, and instructions that are regular. -/
lemma of_insts (h : m.Draft) (hk : m.Keeps m') (hfuncs : m'.functions = m.functions)
    (hvalues : ∀ v value, m'.value? v = some value → value.ty.Readable ∧ Text.Nameable value.name)
    (hinsts : ∀ i inst', m'.inst? i = some inst' →
      m'.Regular inst' ∨ ∃ inst, m.inst? i = some inst ∧ inst'.bare = inst.bare) : m'.Draft := by
  refine ⟨fun i inst' hi' => ?_, hvalues, fun f func hf => ?_⟩
  · rcases hinsts i inst' hi' with hnew | ⟨inst, hi, heq⟩
    · exact hnew
    · exact (h.insts i inst hi).mono hk heq
  · rw [func?, hfuncs] at hf
    exact (h.funcs f func hf).mono hk

lemma pushValue (h : m.Draft) {value : Value} (hty : value.ty.Readable)
    (hname : Text.Nameable value.name) : (m.pushValue value).1.Draft := by
  refine h.of_insts (.of_append #[value] rfl rfl #[] (by simp [Module.pushValue])
    (fun hf => ⟨_, hf, rfl⟩) id) rfl (fun v value' hv => ?_) fun i inst hi => .inr ⟨inst, hi, rfl⟩
  simp only [value?, values_pushValue, Array.getElem?_push] at hv
  split_ifs at hv
  · exact Option.some.inj hv ▸ ⟨hty, hname⟩
  · exact h.values v value' hv

lemma shareValue (h : m.Draft) {value : Value} (hty : value.ty.Readable)
    (hname : Text.Nameable value.name) : (m.shareValue value).1.Draft := by
  rw [Module.shareValue]
  split
  · exact h
  · exact h.pushValue hty hname

lemma createBlock (h : m.Draft) (f : FuncId) (name : Option String) :
    (m.createBlock f name).1.Draft :=
  h.of_insts (.of_append #[] (by simp [Module.createBlock]) rfl #[_] rfl
    (fun hf => ⟨_, hf, rfl⟩) id) rfl h.values fun i inst hi => .inr ⟨inst, hi, rfl⟩

/-- A block can be placed if its label is a word. -/
lemma placeBlock (h : m.Draft) {b : BlockId} (hrun : m.placeBlock b = .ok m')
    (hlabel : ∀ block, m.block? b = some block → ∀ s, block.name = some s → Text.IsWord s) :
    m'.Draft := by
  have hk : m.Keeps m' := by
    obtain ⟨block, -, hblock, -⟩ := placeBlock_eq_ok hrun
    exact (Extends.placeBlock hrun (owner?_eq_some.2 ⟨block, hblock, rfl⟩)).keeps
  obtain ⟨block, func, hblock, hf, -, rfl⟩ := placeBlock_eq_ok hrun
  refine ⟨fun i inst hi => (h.insts i inst hi).mono hk rfl, h.values, fun g fn hg => ?_⟩
  rw [func?_modifyFunc] at hg
  split_ifs at hg with hfunc
  · subst hfunc
    rw [hf, Option.map_some, Option.some.injEq] at hg
    subst hg
    have hold := h.funcs _ func hf
    refine ⟨hold.name, hold.returnType, hold.linkage, hold.attrs, hold.params, fun c hc => ?_⟩
    rcases Array.mem_push.1 hc with hc | rfl
    · exact hold.labels c hc
    · exact ⟨block, hblock, hlabel block hblock⟩
  · have hold := h.funcs g fn hg
    exact ⟨hold.name, hold.returnType, hold.linkage, hold.attrs, hold.params, hold.labels⟩

lemma setValueName (h : m.Draft) {v : ValueId} {name : Option String}
    (hrun : m.setValueName v name = .ok m') (hname : Text.Nameable name) : m'.Draft := by
  have hk := (Keeps.refl m).setValueName hrun
  simp only [Module.setValueName, bind_eq_ok, pure_eq_ok] at hrun
  obtain ⟨-, -, rfl⟩ := hrun
  refine h.of_insts hk rfl (fun w value hw => ?_) fun i inst hi => .inr ⟨inst, hi, rfl⟩
  rw [value?_modifyValue] at hw
  split_ifs at hw
  · obtain ⟨value', hw', rfl⟩ := Option.map_eq_some_iff.1 hw
    exact ⟨(h.values w value' hw').1, hname⟩
  · exact h.values w value hw

/-- An instruction can be appended that is regular in its block. -/
lemma appendInst (h : m.Draft) {b : BlockId} {spec : InstSpec} {vs : List ValueId} {i : InstId}
    (hrun : m.appendInst b spec vs = .ok (m', i)) {f : FuncId} (hb : m.owner? b = some f)
    (hvs : ∀ v ∈ vs, m.Visible f v ∨ m.kind? v = some .placeholder)
    (htargets : ∀ c ∈ spec.targets, m.owner? c = some f)
    (hstated : ∃ s : Text.Statement, s.Valid ∧
      spec = s.operation.spec s.align spec.targets ∧
      spec.targets.length = s.operation.labels.length)
    (hcallee : spec.opcode = .call → ∀ v, vs.getLast? = some v →
      ∃ kind, m.kind? v = some kind ∧ kind ≠ .null) : m'.Draft := by
  have hk := (Extends.appendInst hrun hb).keeps
  obtain ⟨-, hbare⟩ := bare_appendInst hrun
  have hty : spec.ty.Readable := by
    obtain ⟨s, hs, hspec, -⟩ := hstated
    rw [hspec]
    exact hs.operation.resultType
  refine h.of_insts hk (functions_appendInst hrun) (fun v value hv => ?_) fun j inst' hj => ?_
  · have hv' : m'.bare.value? v = some value.bare := by rw [value?_bare, hv]; rfl
    rw [hbare, value?_withInst, value?_bare] at hv'
    split_ifs at hv'
    · have heq := Option.some.inj hv'
      have hvty : value.ty = spec.ty := (congrArg Value.ty heq).symm
      have hvname : value.name = none := (congrArg Value.name heq).symm
      exact ⟨hvty ▸ hty, hvname ▸ Text.nameable_none⟩
    · obtain ⟨value₀, hv₀, heq⟩ := Option.map_eq_some_iff.1 hv'
      have hvty : value₀.ty = value.ty := (congrArg Value.ty heq : _)
      have hvname : value₀.name = value.name := (congrArg Value.name heq : _)
      exact hvty ▸ hvname ▸ h.values v value₀ hv₀
  · rcases inst?_of_appendInst hrun hj with rfl | hold
    · obtain ⟨hspec, hvalues, hparent, -⟩ := inst?_appendInst hrun hj
      refine .inl ⟨⟨f, hparent ▸ hk.owner? hb, fun v hv => ?_, fun c hc => ?_⟩, ?_,
        fun hcall v hv => ?_⟩
      · exact (hvs v (hvalues ▸ hv)).imp hk.visible hk.kind?
      · exact hk.owner? (htargets c (hspec ▸ hc))
      · rw [hspec]
        exact hstated
      · obtain ⟨kind, hkind, hne⟩ := hcallee (hspec ▸ hcall) v (hvalues ▸ hv)
        exact ⟨kind, hk.kind? hkind, hne⟩
    · exact .inr hold

/-- A module stays a draft when reads are renamed and instructions are erased, as long as what is
read can be read. -/
lemma of_residue (h : m.Draft) {s : ValueId → ValueId} {gone : List InstId}
    (hbare : m'.bare = m.bare.residue s gone)
    (hreads : ∀ i inst, i ∉ gone → m.inst? i = some inst → ∀ f, m.owner? inst.parent = some f →
      ∀ v ∈ inst.operandValues, m.Visible f v ∨ m.kind? v = some .placeholder →
        m'.Visible f (s v) ∨ m'.kind? (s v) = some .placeholder)
    (hcallee : ∀ i inst, m.inst? i = some inst → inst.opcode = .call →
      ∀ v, inst.operandValues.getLast? = some v →
        ∃ kind, m.kind? (s v) = some kind ∧ kind ≠ .null) :
    m'.Draft := by
  have hkind : ∀ v, m'.kind? v = m.kind? v := fun v => by
    have := congrArg (Option.map Value.kind) (value?_of_residue hbare v)
    simpa [Module.kind?, Function.comp_def, Value.bare] using this
  have howner : ∀ b, m'.owner? b = m.owner? b := fun b => by
    rw [Module.owner?, Module.owner?, block?_of_residue hbare]
    simp [Function.comp_def]
  refine ⟨fun i inst' hi' => ?_, fun v value' hv' => ?_, fun f func hf => ?_⟩
  · obtain ⟨hgone, inst, hi, heq⟩ := inst?_of_residue hbare hi'
    have hold := h.insts i inst hi
    obtain ⟨f, hf, hoperands, htargets⟩ := hold.within
    have hspec : inst'.toInstSpec = inst.toInstSpec :=
      (Inst.toInstSpec_eq_of_bare heq).trans (inst.toInstSpec_rename s)
    have hvalues : inst'.operandValues = inst.operandValues.map s :=
      (Inst.operandValues_eq_of_bare heq).trans (inst.operandValues_rename s)
    have htargets' : inst'.targets = inst.targets := congrArg InstSpec.targets hspec
    refine ⟨⟨f, ?_, fun v hv => ?_, fun b hb => ?_⟩, ?_, fun hcall v hv => ?_⟩
    · rw [Inst.parent_eq_of_bare heq, Inst.parent_rename, howner, hf]
    · rw [hvalues, List.mem_map] at hv
      obtain ⟨w, hw, rfl⟩ := hv
      exact hreads i inst hgone hi f hf w hw (hoperands w hw)
    · rw [howner]
      exact htargets b (htargets' ▸ hb)
    · rw [htargets', hspec]
      exact hold.stated
    · rw [hvalues, List.getLast?_map, Option.map_eq_some_iff] at hv
      obtain ⟨w, hw, rfl⟩ := hv
      rw [hkind]
      exact hcallee i inst hi (congrArg InstSpec.opcode hspec ▸ hcall) w hw
  · have hv := value?_of_residue hbare v
    rw [hv', Option.map_some, eq_comm, Option.map_eq_some_iff] at hv
    obtain ⟨value, hv, heq⟩ := hv
    have hty : value.ty = value'.ty := (congrArg Value.ty heq : _)
    have hname : value.name = value'.name := (congrArg Value.name heq : _)
    exact hty ▸ hname ▸ h.values v value hv
  · rw [func?, functions_of_residue hbare] at hf
    have hold := h.funcs f func hf
    refine ⟨hold.name, hold.returnType, hold.linkage, hold.attrs, fun k v hv => ?_, fun b hb => ?_⟩
    · obtain ⟨value, hvalue, hk, hty⟩ := hold.params k v hv
      have hv' := value?_of_residue hbare v
      rw [hvalue, Option.map_some, Option.map_eq_some_iff] at hv'
      obtain ⟨value', hv', heq⟩ := hv'
      have hk' : value'.kind = value.kind := (congrArg Value.kind heq : _)
      have hty' : value'.ty = value.ty := (congrArg Value.ty heq : _)
      exact ⟨value', hv', hk'.trans hk, hty' ▸ hty⟩
    · obtain ⟨block, hblock, hlabel⟩ := hold.labels b hb
      exact ⟨_, (block?_of_residue hbare b).trans (congrArg (Option.map _) hblock), hlabel⟩

end Draft

end Module
end SsaFold
