import SsaFold.Proofs.Related
import SsaFold.Proofs.Text.Draft

/-!
# Modules that mirror each other

Two modules can hold one program under different indices.  A `Pairing` says which entries of the two
stand for each other, and the modules mirror each other along it (`Pairing.Mirrors`) if entries that
are paired say the same of entries that are paired.

The pairing is fixed, while the modules change: what a step of the simplifier does is a renaming of
reads and an erasure (`Module.residue`), and the modules go on to mirror each other if both steps
send paired values to paired values and erase paired instructions (`Pairing.Mirrors.residue`).
-/

namespace SsaFold

namespace Module

variable {m m' : Module}

lemma isConstant_eq (v : ValueId) (k : Int) (maxBits : Nat) : m.isConstant v k maxBits =
    match m.kind? v with
    | some (.constInt c) => decide (c.bits ≤ maxBits) && c.value == k
    | _ => false := by
  rw [isConstant, kind?]
  rcases m.value? v with _ | ⟨kind, ty, name, uses⟩
  · rfl
  · cases kind <;> rfl

section Residue

variable {s : ValueId → ValueId} {gone : List InstId}

/-- A value changes in its use list only. -/
lemma exists_value_of_residue (h : m'.bare = m.bare.residue s gone) {v : ValueId} {value : Value}
    (hv : m.value? v = some value) :
    ∃ value', m'.value? v = some value' ∧ value'.bare = value.bare := by
  have := value?_of_residue h v
  rwa [hv, Option.map_some, Option.map_eq_some_iff] at this

lemma typeOf?_of_residue (h : m'.bare = m.bare.residue s gone) : m'.typeOf? = m.typeOf? := by
  funext v
  have := congrArg (Option.map Value.ty) (value?_of_residue h v)
  simpa [typeOf?, Function.comp_def, Value.bare] using this

lemma kind?_of_residue (h : m'.bare = m.bare.residue s gone) (v : ValueId) :
    m'.kind? v = m.kind? v := by
  have := congrArg (Option.map Value.kind) (value?_of_residue h v)
  simpa [kind?, Function.comp_def, Value.bare] using this

lemma inst?_residue_eq_none (h : m'.bare = m.bare.residue s gone) {i : InstId}
    (hi : m.inst? i = none) : m'.inst? i = none := by
  cases hi' : m'.inst? i with
  | none => rfl
  | some inst' =>
    obtain ⟨-, inst, hinst, -⟩ := inst?_of_residue h hi'
    rw [hi] at hinst
    cases hinst

end Residue

end Module

/-! ## Pairings -/

/-- Which entries of two modules stand for each other. -/
structure Pairing where
  /-- Values that belong to no function. -/
  shared : ValueId → ValueId → Prop
  /-- Parameters and results. -/
  own : ValueId → ValueId → Prop
  inst : InstId → InstId → Prop
  block : BlockId → BlockId → Prop
  own_biUnique : Relator.BiUnique own
  inst_biUnique : Relator.BiUnique inst
  block_biUnique : Relator.BiUnique block

namespace Pairing

variable (R : Pairing)

/-- The values stand for each other. -/
def value (v w : ValueId) : Prop := R.shared v w ∨ R.own v w

/-- The values are parameters or results, of one type and under one name.  The result of a `void`
instruction has no name that counts. -/
structure PairsOwn (value value' : Value) : Prop where
  left : ¬ value.kind.IsShared
  right : ¬ value'.kind.IsShared
  ty : value'.ty = value.ty
  name : value.ty ≠ .void → value'.name = value.name

/-- The instructions say the same. -/
structure PairsInst (inst inst' : Inst) : Prop where
  spec : inst'.toInstSpec = { inst.toInstSpec with targets := inst'.targets }
  operands : List.Forall₂ R.value inst.operandValues inst'.operandValues
  targets : List.Forall₂ R.block inst.targets inst'.targets
  result : R.own inst.result inst'.result

/-- The blocks have one name, or none, and list paired instructions. -/
structure PairsBlock (block block' : Block) : Prop where
  name : block'.name = block.name
  insts : List.Forall₂ R.inst block.insts.toList block'.insts.toList

/-- The functions have one header and the same blocks.  The parameters of a declaration are known by
their types only. -/
structure PairsFunc (m n : Module) (func func' : Func) : Prop where
  name : func'.name = func.name
  returnType : func'.returnType = func.returnType
  linkage : func'.linkage = func.linkage
  attrs : func'.attrs = func.attrs
  vararg : func'.vararg = func.vararg
  paramTypes : func'.params.map n.typeOf? = func.params.map m.typeOf?
  params : func.isDeclaration = false → List.Forall₂ R.own func.params func'.params
  layout : List.Forall₂ R.block func.layout.toList func'.layout.toList

/-- The modules say the same of what is paired. -/
structure Mirrors (m n : Module) : Prop where
  name : n.name = m.name
  sourceFilename : n.sourceFilename = m.sourceFilename
  targetLines : n.targetLines = m.targetLines
  globals : n.globals.toList.map (fun g => (g.name, g.definition))
    = m.globals.toList.map fun g => (g.name, g.definition)
  funcs : List.Forall₂ (R.PairsFunc m n) m.functions.toList n.functions.toList
  blocks : ∀ {b c}, R.block b c →
    ∃ block block', m.block? b = some block ∧ n.block? c = some block' ∧ R.PairsBlock block block'
  /-- Both are there, or both have been erased. -/
  insts : ∀ {i j}, R.inst i j → Option.Rel R.PairsInst (m.inst? i) (n.inst? j)
  shared : ∀ {v w}, R.shared v w →
    ∃ kind : ValueKind, kind.IsShared ∧ m.kind? v = some kind ∧ n.kind? w = some kind
  own : ∀ {v w}, R.own v w →
    ∃ value value', m.value? v = some value ∧ n.value? w = some value' ∧ PairsOwn value value'

variable {R}

lemma PairsInst.opcode {inst inst' : Inst} (h : R.PairsInst inst inst') :
    inst'.opcode = inst.opcode :=
  (congrArg InstSpec.opcode h.spec :)

lemma PairsFunc.isDeclaration {m n : Module} {func func' : Func} (h : R.PairsFunc m n func func') :
    func'.isDeclaration = func.isDeclaration := by
  have := h.layout.length_eq
  rw [Array.length_toList, Array.length_toList] at this
  simp only [Func.isDeclaration, Array.isEmpty, this]

lemma PairsOwn.of_bare {value value' value₁ value₁' : Value} (h : PairsOwn value value')
    (heq : value₁.bare = value.bare) (heq' : value₁'.bare = value'.bare) :
    PairsOwn value₁ value₁' := by
  have hkind : value₁.kind = value.kind := (congrArg Value.kind heq : _)
  have hkind' : value₁'.kind = value'.kind := (congrArg Value.kind heq' : _)
  have hty : value₁.ty = value.ty := (congrArg Value.ty heq : _)
  have hty' : value₁'.ty = value'.ty := (congrArg Value.ty heq' : _)
  have hname : value₁.name = value.name := (congrArg Value.name heq : _)
  have hname' : value₁'.name = value'.name := (congrArg Value.name heq' : _)
  refine ⟨hkind ▸ h.left, hkind' ▸ h.right, ?_, fun hvoid => ?_⟩
  · rw [hty, hty', h.ty]
  · rw [hname, hname', h.name (hty ▸ hvoid)]

/-- Instructions stay paired when their reads are renamed to paired values. -/
lemma PairsInst.rename {inst inst' inst₁ inst₁' : Inst} (h : R.PairsInst inst inst')
    {s t : ValueId → ValueId} (heq : inst₁.bare = (inst.rename s).bare)
    (heq' : inst₁'.bare = (inst'.rename t).bare)
    (hvalue : ∀ {v w}, R.value v w → R.value (s v) (t w)) : R.PairsInst inst₁ inst₁' := by
  have hspec := Inst.toInstSpec_eq_of_bare heq
  have hspec' := Inst.toInstSpec_eq_of_bare heq'
  have htargets : inst₁.targets = inst.targets := congrArg InstSpec.targets hspec
  have htargets' : inst₁'.targets = inst'.targets := congrArg InstSpec.targets hspec'
  refine ⟨?_, ?_, ?_, ?_⟩
  · rw [hspec, hspec']
    exact h.spec
  · rw [Inst.operandValues_eq_of_bare heq, Inst.operandValues_eq_of_bare heq',
      Inst.operandValues_rename, Inst.operandValues_rename]
    exact List.rel_map (fun _ _ hvw => hvalue hvw) h.operands
  · rw [htargets, htargets']
    exact h.targets
  · rw [Inst.result_eq_of_bare heq, Inst.result_eq_of_bare heq']
    exact h.result

namespace Mirrors

variable {m n m' n' : Module}

lemma func? (h : R.Mirrors m n) (f : FuncId) :
    Option.Rel (R.PairsFunc m n) (m.func? f) (n.func? f) := by
  rw [Module.func?, Module.func?, ← Array.getElem?_toList, ← Array.getElem?_toList]
  exact rel_getElem? h.funcs f.index

/-- A parameter or result is never paired with a shared value. -/
lemma not_own_of_shared (h : R.Mirrors m n) {v w w' : ValueId} (hshared : R.shared v w) :
    ¬ R.own v w' := by
  intro hown
  obtain ⟨kind, hkind, hv, -⟩ := h.shared hshared
  obtain ⟨value, hvalue, rfl⟩ := Module.kind?_eq_some.1 hv
  obtain ⟨value', -, hvalue', -, hnot, -, -, -⟩ := h.own hown
  obtain rfl := Option.some.inj (hvalue.symm.trans hvalue')
  exact hnot hkind

lemma not_own_of_shared' (h : R.Mirrors m n) {v v' w : ValueId} (hshared : R.shared v w) :
    ¬ R.own v' w := by
  intro hown
  obtain ⟨kind, hkind, -, hw⟩ := h.shared hshared
  obtain ⟨value, hvalue, rfl⟩ := Module.kind?_eq_some.1 hw
  obtain ⟨-, value', -, hvalue', -, hnot, -, -⟩ := h.own hown
  obtain rfl := Option.some.inj (hvalue.symm.trans hvalue')
  exact hnot hkind

/-- A value is a given result if its partner is that result's partner. -/
lemma eq_iff (h : R.Mirrors m n) {v w r s : ValueId} (hvalue : R.value v w) (hown : R.own r s) :
    v = r ↔ w = s := by
  rcases hvalue with hshared | hvalue
  -- A shared value is no result, and none of its partners is one.
  · refine iff_of_false ?_ ?_
    · rintro rfl
      exact h.not_own_of_shared hshared hown
    · rintro rfl
      exact h.not_own_of_shared' hshared hown
  · exact Relator.rel_eq R.own_biUnique hvalue hown

/-- Paired values are the same integer constant, or neither is one. -/
lemma isConstant (h : R.Mirrors m n) {v w : ValueId} (hvalue : R.value v w) (k : Int)
    (maxBits : Nat) : n.isConstant w k maxBits = m.isConstant v k maxBits := by
  rw [Module.isConstant_eq, Module.isConstant_eq]
  rcases hvalue with hshared | hown
  · obtain ⟨kind, -, hv, hw⟩ := h.shared hshared
    rw [hv, hw]
  · obtain ⟨value, value', hv, hw, hleft, hright, -, -⟩ := h.own hown
    rw [Module.kind?_eq_some.2 ⟨value, hv, rfl⟩, Module.kind?_eq_some.2 ⟨value', hw, rfl⟩]
    cases hkind : value.kind <;> cases hkind' : value'.kind <;>
      simp_all only [ValueKind.IsShared, not_true_eq_false]

section Residue

variable {s t : ValueId → ValueId} {gone gone' : List InstId}

/-- The modules go on to mirror each other when the reads of both are renamed, and instructions are
erased from both. -/
lemma residue (h : R.Mirrors m n) (hm : m'.bare = m.bare.residue s gone)
    (hn : n'.bare = n.bare.residue t gone') (hvalue : ∀ {v w}, R.value v w → R.value (s v) (t w))
    (hgone : ∀ {i j}, R.inst i j → (i ∈ gone ↔ j ∈ gone')) : R.Mirrors m' n' := by
  obtain ⟨hglobals, hname, hsource, htarget⟩ := Module.header_of_residue hm
  obtain ⟨hglobals', hname', hsource', htarget'⟩ := Module.header_of_residue hn
  refine ⟨?_, ?_, ?_, ?_, ?_, fun hb => ?_, fun {i j} hi => rel_iff.2 ?_, fun hv => ?_,
    fun hv => ?_⟩
  · rw [hname, hname', h.name]
  · rw [hsource, hsource', h.sourceFilename]
  · rw [htarget, htarget', h.targetLines]
  · rw [hglobals, hglobals', h.globals]
  · rw [Module.functions_of_residue hm, Module.functions_of_residue hn]
    refine h.funcs.imp fun func func' hpair => { hpair with paramTypes := ?_ }
    rw [Module.typeOf?_of_residue hm, Module.typeOf?_of_residue hn]
    exact hpair.paramTypes
  · obtain ⟨block, block', hblock, hblock', hpair⟩ := h.blocks hb
    rw [Module.block?_of_residue hm, Module.block?_of_residue hn, hblock, hblock']
    refine ⟨_, _, rfl, rfl, hpair.name, ?_⟩
    rw [Array.toList_filter, Array.toList_filter]
    refine List.rel_filter (fun i j hij => ?_) hpair.insts
    simpa using not_congr (hgone hij)
  -- An instruction that is erased now is erased on both sides; one that was erased before stays so.
  · by_cases hmem : i ∈ gone
    · exact .inl ⟨Module.inst?_eq_none_of_residue hm hmem,
        Module.inst?_eq_none_of_residue hn ((hgone hi).1 hmem)⟩
    have hmem' := mt (hgone hi).2 hmem
    rcases rel_iff.1 (h.insts hi) with ⟨hinst, hinst'⟩ | ⟨inst, inst', hinst, hinst', hpair⟩
    · exact .inl ⟨Module.inst?_residue_eq_none hm hinst, Module.inst?_residue_eq_none hn hinst'⟩
    · obtain ⟨inst₁, hinst₁, heq⟩ := Module.inst?_residue_of_not_mem hm hinst hmem
      obtain ⟨inst₁', hinst₁', heq'⟩ := Module.inst?_residue_of_not_mem hn hinst' hmem'
      exact .inr ⟨inst₁, inst₁', hinst₁, hinst₁', hpair.rename heq heq' hvalue⟩
  · obtain ⟨kind, hkind, hleft, hright⟩ := h.shared hv
    rw [← Module.kind?_of_residue hm] at hleft
    rw [← Module.kind?_of_residue hn] at hright
    exact ⟨kind, hkind, hleft, hright⟩
  · obtain ⟨value, value', hvalue, hvalue', hpair⟩ := h.own hv
    obtain ⟨value₁, hvalue₁, heq⟩ := Module.exists_value_of_residue hm hvalue
    obtain ⟨value₁', hvalue₁', heq'⟩ := Module.exists_value_of_residue hn hvalue'
    exact ⟨value₁, value₁', hvalue₁, hvalue₁', hpair.of_bare heq heq'⟩

end Residue

end Mirrors

end Pairing

end SsaFold
