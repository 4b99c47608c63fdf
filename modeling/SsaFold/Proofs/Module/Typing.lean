import SsaFold.Proofs.Module.Instructions

/-!
# Well-typed modules

`InstSpec.Accepts` is the table of typing rules: which operand types an instruction may have,
given what it says of its operands.  A module is `Typed` if all its instructions obey the table.

Operations on a module do not ask for types, so a reachable module need not be typed.  What keeps
a module typed is that reads are sent to values of the same type only.
-/

namespace SsaFold

/-- The instruction may have operands of these types. -/
def InstSpec.Accepts (spec : InstSpec) (tys : List Ty) : Prop :=
  match spec.opcode with
  | .binary _ => ∃ bits, spec.ty = .int bits ∧ tys = [.int bits, .int bits]
  | .icmp => spec.ty = .i1 ∧ spec.predicate.isSome ∧ ∃ ty, tys = [ty, ty]
  | .select => tys = [.i1, spec.ty, spec.ty]
  | .phi => tys = spec.targets.map fun _ => spec.ty
  | .call => ∃ args, tys = args ++ [.ptr]
  | .alloca => spec.ty = .ptr ∧ tys = []
  | .load => tys = [.ptr]
  | .store => spec.ty = .void ∧ ∃ ty, tys = [ty, .ptr]
  | .ret => spec.ty = .void ∧ tys.length ≤ 1
  | .br => spec.ty = .void ∧
      ((tys = [] ∧ spec.targets.length = 1) ∨ (tys = [.i1] ∧ spec.targets.length = 2))
  | .unreachable => spec.ty = .void ∧ tys = []

namespace Module

/-- The type of a value. -/
def typeOf? (m : Module) (v : ValueId) : Option Ty := (m.value? v).map Value.ty

/-- The instruction obeys the table, and its result has its type. -/
def TypedInst (m : Module) (inst : Inst) : Prop :=
  m.typeOf? inst.result = some inst.ty ∧
    ∃ tys, inst.operandValues.map m.typeOf? = tys.map some ∧ inst.toInstSpec.Accepts tys

/-- Every instruction obeys the table. -/
def Typed (m : Module) : Prop := ∀ i inst, m.inst? i = some inst → m.TypedInst inst

/-- Values of the one module have the same types in the other. -/
def TypesIn (m m' : Module) : Prop := ∀ v ty, m.typeOf? v = some ty → m'.typeOf? v = some ty

variable {m m' m'' : Module} {inst inst' : Inst}

lemma typeOf?_eq_some {v : ValueId} {ty : Ty} :
    m.typeOf? v = some ty ↔ ∃ value, m.value? v = some value ∧ value.ty = ty := by
  simp [typeOf?]

@[simp] lemma typeOf?_bare (v : ValueId) : m.bare.typeOf? v = m.typeOf? v := by
  rw [typeOf?, typeOf?, value?_bare]
  cases m.value? v <;> rfl

namespace TypesIn

lemma refl (m : Module) : m.TypesIn m := fun _ _ h => h

lemma trans (h : m.TypesIn m') (h' : m'.TypesIn m'') : m.TypesIn m'' :=
  fun v ty hv => h' v ty (h v ty hv)

lemma of_bare (h : m.bare.TypesIn m'.bare) : m.TypesIn m' := fun v ty hv => by
  rw [← typeOf?_bare] at hv ⊢
  exact h v ty hv

lemma map_typeOf? (h : m.TypesIn m') {vs : List ValueId} {tys : List Ty}
    (hvs : vs.map m.typeOf? = tys.map some) : vs.map m'.typeOf? = tys.map some := by
  induction vs generalizing tys with
  | nil => simpa using hvs
  | cons v vs ih =>
    cases tys with
    | nil => simp at hvs
    | cons ty tys =>
      simp only [List.map_cons, List.cons.injEq] at hvs ⊢
      exact ⟨h v ty hvs.1, ih hvs.2⟩

end TypesIn

/-- An instruction stays typed where the values keep their types. -/
lemma TypedInst.mono (h : m.TypedInst inst) (htypes : m.TypesIn m') : m'.TypedInst inst := by
  obtain ⟨hresult, tys, hoperands, haccepts⟩ := h
  exact ⟨htypes _ _ hresult, tys, htypes.map_typeOf? hoperands, haccepts⟩

lemma TypedInst.of_bare (h : m.TypedInst inst) (hinst : inst'.bare = inst.bare) :
    m.TypedInst inst' := by
  rwa [TypedInst, Inst.toInstSpec_eq_of_bare hinst, Inst.result_eq_of_bare hinst,
    Inst.operandValues_eq_of_bare hinst]

/-- An instruction stays typed if its reads are renamed to values of the same types. -/
lemma TypedInst.rename (h : m.TypedInst inst) {s : ValueId → ValueId}
    (hs : ∀ v ∈ inst.operandValues, m.typeOf? (s v) = m.typeOf? v) :
    m.TypedInst (inst.rename s) := by
  obtain ⟨hresult, tys, hoperands, haccepts⟩ := h
  refine ⟨hresult, tys, ?_, haccepts⟩
  rw [Inst.operandValues_rename, List.map_map, ← hoperands]
  exact List.map_congr_left hs

/-- A module stays typed when reads are renamed to values of the same types. -/
lemma Typed.of_residue (h : m.Typed) {s : ValueId → ValueId} {gone : List InstId}
    (hbare : m'.bare = m.bare.residue s gone) (hs : ∀ v, m.typeOf? (s v) = m.typeOf? v) :
    m'.Typed := by
  intro i inst' hi'
  obtain ⟨-, inst, hi, heq⟩ := inst?_of_residue hbare hi'
  have htypes : m.TypesIn m' := by
    refine .of_bare fun v ty hv => ?_
    rw [hbare]
    exact hv
  exact (((h i inst hi).rename fun v _ => hs v).of_bare heq).mono htypes

/-- A module stays typed when it gains values, and instructions that are typed. -/
lemma Typed.of_insts (h : m.Typed) (htypes : m.TypesIn m')
    (hinsts : ∀ i inst', m'.inst? i = some inst' →
      m'.TypedInst inst' ∨ ∃ inst, m.inst? i = some inst ∧ inst'.bare = inst.bare) : m'.Typed := by
  intro i inst' hi'
  rcases hinsts i inst' hi' with hnew | ⟨inst, hi, heq⟩
  · exact hnew
  · exact ((h i inst hi).mono htypes).of_bare heq

end Module
end SsaFold
