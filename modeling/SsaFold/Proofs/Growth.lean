import SsaFold.Proofs.Module.Typing
import SsaFold.Proofs.Reachable

/-!
# Growing a well-formed module

A module is well-formed if operations lead to it and it is typed.  A reader adds to such a module,
and `Module.Grows` says what it keeps while it does so: the module stays well-formed, and values
keep their types.  Each operation that a reader uses is a growth: most without a condition, an
append if the operands are of accepted types, and a redirection if both values are of one type.
-/

namespace SsaFold
namespace Module

/-- Operations lead to the module, and it is typed. -/
structure WellFormed (m : Module) : Prop where
  reachable : Reachable m
  typed : m.Typed

/-- What a reader keeps while it adds to a module. -/
structure Grows (m m' : Module) : Prop extends WellFormed m' where
  types : m.TypesIn m'

variable {m m' m'' : Module} {v : ValueId} {ty : Ty}

lemma WellFormed.refl (h : m.WellFormed) : m.Grows m := ⟨h, .refl m⟩

lemma Grows.trans (h : m.Grows m') (h' : m'.Grows m'') : m.Grows m'' :=
  ⟨h'.toWellFormed, h.types.trans h'.types⟩

lemma wellFormed_empty (name : String) : (empty name).WellFormed := by
  refine ⟨.empty name, fun i inst hi => ?_⟩
  simp [empty, inst?] at hi

/-- An operation that touches no instruction and no type. -/
lemma WellFormed.grows_of_op (h : m.WellFormed) (op : Op) (hrun : op.run m = .ok m')
    (htypes : m.TypesIn m') (hinsts : m'.insts = m.insts) : m.Grows m' := by
  refine ⟨⟨h.reachable.step op hrun, h.typed.of_insts htypes fun i inst hi => .inr ?_⟩, htypes⟩
  exact ⟨inst, by rwa [inst?, ← hinsts], rfl⟩

/-! ## Values -/

/-- Values that are added leave the others where they are. -/
lemma typesIn_append (vs : Array Value) (hvalues : m'.values = m.values ++ vs) : m.TypesIn m' := by
  intro v ty hty
  obtain ⟨value, hv, rfl⟩ := typeOf?_eq_some.1 hty
  refine typeOf?_eq_some.2 ⟨value, ?_, rfl⟩
  rw [value?, hvalues, Array.getElem?_append_left (Array.getElem?_eq_some_iff.1 hv).1]
  exact hv

lemma typesIn_of_values (hvalues : m'.values = m.values) : m.TypesIn m' :=
  typesIn_append #[] (by simpa using hvalues)

/-- A value that is shared is of the kind that was asked for, whether it was there or not. -/
lemma shareValue_eq (fresh : Value) : (m.shareValue fresh).1.insts = m.insts ∧
    (∃ vs, (m.shareValue fresh).1.values = m.values ++ vs) ∧
      ∃ value, (m.shareValue fresh).1.value? (m.shareValue fresh).2 = some value ∧
        value.kind = fresh.kind := by
  rw [shareValue]
  split
  · rename_i k hk
    obtain ⟨hlt, hkind, -⟩ := Array.findIdx?_eq_some_iff_getElem.1 hk
    refine ⟨rfl, ⟨#[], by simp⟩, m.values[k], Array.getElem?_eq_getElem hlt, ?_⟩
    simpa using hkind
  · exact ⟨rfl, ⟨#[fresh], rfl⟩, fresh, value?_pushValue_self m fresh, rfl⟩

/-- If the type of a value is decided by its kind, then a shared value has the type asked for. -/
lemma WellFormed.shareValue (h : m.WellFormed) {fresh : Value}
    (hfits : ∀ ty, fresh.kind.Fits ty → ty = fresh.ty) (op : Op)
    (hrun : op.run m = .ok (m.shareValue fresh).1) : m.Grows (m.shareValue fresh).1 ∧
      (m.shareValue fresh).1.typeOf? (m.shareValue fresh).2 = some fresh.ty := by
  obtain ⟨hinsts, ⟨vs, hvalues⟩, value, hv, hkind⟩ := shareValue_eq (m := m) fresh
  have hgrows := h.grows_of_op op hrun (typesIn_append vs hvalues) hinsts
  refine ⟨hgrows, typeOf?_eq_some.2 ⟨value, hv, hfits _ ?_⟩⟩
  rw [← hkind]
  exact hgrows.reachable.intact.shaped.fits _ value hv

lemma WellFormed.constInt (h : m.WellFormed) {bits : Nat} {raw : Int}
    (hrun : m.constInt bits raw = .ok (m', v)) :
    m.Grows m' ∧ m'.typeOf? v = some (.int bits) := by
  have hop : (Op.constInt bits raw).run m = .ok m' := by simp [Op.run, hrun]
  rw [Module.constInt] at hrun
  split at hrun
  · rename_i c hc
    obtain ⟨rfl, rfl⟩ := Prod.mk.inj (Except.ok.inj hrun)
    have hbits : c.ty = .int bits := by
      rw [IntConst.ofInt?] at hc
      split_ifs at hc
      rw [← Option.some.inj hc]
      rfl
    exact hbits ▸ h.shareValue (fun ty hty => hty) _ hop
  · cases hrun

lemma WellFormed.null (h : m.WellFormed) :
    m.Grows m.null.1 ∧ m.null.1.typeOf? m.null.2 = some .ptr :=
  h.shareValue (fun _ hty => hty) .null rfl

lemma WellFormed.placeholder (h : m.WellFormed) (ty : Ty) (name : Option String) :
    m.Grows (m.placeholder ty name).1 ∧
      (m.placeholder ty name).1.typeOf? (m.placeholder ty name).2 = some ty := by
  refine ⟨h.grows_of_op (.placeholder ty name) rfl (typesIn_append #[_] rfl) rfl, ?_⟩
  exact typeOf?_eq_some.2 ⟨_, value?_pushValue_self m _, rfl⟩

lemma WellFormed.setValueName (h : m.WellFormed) {name : Option String}
    (hrun : m.setValueName v name = .ok m') : m.Grows m' := by
  have hop : (Op.setValueName v name).run m = .ok m' := hrun
  simp only [Module.setValueName, bind_eq_ok, pure_eq_ok] at hrun
  obtain ⟨-, -, rfl⟩ := hrun
  refine h.grows_of_op _ hop (fun w ty hty => ?_) rfl
  rw [typeOf?, value?_modifyValue]
  split
  · simpa [typeOf?, Function.comp_def] using hty
  · exact hty

/-- Reads can be sent to a value of the same type. -/
lemma WellFormed.replaceAllUses (h : m.WellFormed) {source target : ValueId} {n : Nat}
    (hrun : m.replaceAllUses source target = .ok (m', n))
    (htypes : m.typeOf? source = m.typeOf? target) : m.Grows m' := by
  have hop : (Op.replaceAllUses source target).run m = .ok m' := by simp [Op.run, hrun]
  rcases h.reachable.intact.agrees.replaceAllUses_eq_ok hrun with ⟨rfl, -⟩ | ⟨-, -, -, -, -, rfl⟩
  · exact h.refl
  · have hbare := bare_redirected m source target
    refine ⟨⟨h.reachable.step _ hop, h.typed.of_residue hbare fun w => ?_⟩, .of_bare ?_⟩
    · rcases eq_or_ne w source with rfl | hne
      · simp [redirection, htypes]
      · simp [redirection, hne]
    · rw [hbare]
      exact fun w ty hw => hw

/-! ## Functions, globals and blocks -/

lemma WellFormed.describe (h : m.WellFormed) (name : String) (sourceFilename : Option String)
    (targetLines : List String) : m.Grows { m with name, sourceFilename, targetLines } :=
  h.grows_of_op (.describe name sourceFilename targetLines) rfl (typesIn_of_values rfl) rfl

lemma WellFormed.addGlobal (h : m.WellFormed) (name definition : String) :
    m.Grows (m.addGlobal name definition).1 ∧
      (m.addGlobal name definition).1.typeOf? ⟨m.values.size⟩ = some .ptr := by
  refine ⟨h.grows_of_op (.addGlobal name definition) rfl (typesIn_append #[_] rfl) rfl, ?_⟩
  set address : Value := { kind := .global ⟨m.globals.size⟩, ty := .ptr }
  exact typeOf?_eq_some.2 ⟨address, value?_pushValue_self m address, rfl⟩

/-- The address of a function that is added has the type of addresses. -/
lemma WellFormed.addFunc (h : m.WellFormed) (name : String) (returnType : Ty) (params : List Ty) :
    m.Grows (m.addFunc name returnType params).1 ∧
      ∃ func, (m.addFunc name returnType params).1.func? (m.addFunc name returnType params).2
          = some func ∧
        (m.addFunc name returnType params).1.typeOf? func.value = some .ptr := by
  set m' := (m.addFunc name returnType params).1
  set address : Value := { kind := .function ⟨m.functions.size⟩, ty := .ptr }
  obtain ⟨vs, hvalues⟩ : ∃ vs, m'.values = m.values.push address ++ vs := ⟨_, rfl⟩
  refine ⟨h.grows_of_op (.addFunc name returnType params) rfl ?_ rfl, ?_⟩
  · refine typesIn_append (#[address] ++ vs) ?_
    rw [hvalues, ← Array.append_assoc]
    rfl
  · refine ⟨_, Array.getElem?_push_size, typeOf?_eq_some.2 ⟨address, ?_, rfl⟩⟩
    simp [value?, hvalues, Array.getElem?_append]

lemma WellFormed.describeFunc (h : m.WellFormed) {f : FuncId} {func : Func}
    (hf : m.func? f = some func) (linkage attrs : List String) (vararg : Bool) :
    m.Grows (m.modifyFunc f fun x => { x with linkage, attrs, vararg }) := by
  refine h.grows_of_op (.describeFunc f func.name func.returnType linkage attrs vararg) ?_
    (typesIn_of_values rfl) rfl
  -- The name and the return type that the operation sets are those that the function has.
  simp only [Op.run, getFunc_eq_ok.2 hf, ok_bind, pure, Except.pure, Except.ok.injEq, modifyFunc]
  congr 1
  refine Array.ext_getElem? fun g => ?_
  rw [Array.getElem?_modify, Array.getElem?_modify]
  by_cases hg : f.index = g
  · subst hg
    simp [show m.functions[f.index]? = some func from hf]
  · simp [hg]

lemma WellFormed.createBlock (h : m.WellFormed) (func : FuncId) (name : Option String) :
    m.Grows (m.createBlock func name).1 :=
  h.grows_of_op (.createBlock func name) rfl (typesIn_of_values rfl) rfl

lemma WellFormed.placeBlock (h : m.WellFormed) {b : BlockId} (hrun : m.placeBlock b = .ok m') :
    m.Grows m' := by
  have hop : (Op.placeBlock b).run m = .ok m' := hrun
  obtain ⟨block, func, -, -, -, rfl⟩ := placeBlock_eq_ok hrun
  exact h.grows_of_op _ hop (typesIn_of_values rfl) rfl

/-! ## Instructions -/

/-- An instruction can be appended if the table accepts the types of its operands. -/
lemma WellFormed.appendInst (h : m.WellFormed) {b : BlockId} {spec : InstSpec} {i : InstId}
    {vs : List ValueId} (hrun : m.appendInst b spec vs = .ok (m', i)) {tys : List Ty}
    (htys : vs.map m.typeOf? = tys.map some) (haccepts : spec.Accepts tys) : m.Grows m' := by
  have hop : (Op.appendInst b spec vs).run m = .ok m' := by simp [Op.run, hrun]
  obtain ⟨-, hbare⟩ := bare_appendInst hrun
  have htypes : m.TypesIn m' := .of_bare (hbare ▸ typesIn_append #[_] rfl)
  refine ⟨⟨h.reachable.step _ hop, h.typed.of_insts htypes fun j inst' hj => ?_⟩, htypes⟩
  have hj' : m'.bare.inst? j = some inst'.bare := by rw [inst?_bare, hj]; rfl
  rw [hbare, inst?_withInst] at hj'
  split_ifs at hj' with hnew
  · -- The new instruction: its result has been added along with it.
    left
    have hinst := Option.some.inj hj'
    have hresult : m'.typeOf? ⟨m.bare.values.size⟩ = some spec.ty := by
      rw [← typeOf?_bare, hbare, typeOf?, value?_withInst, if_pos rfl]
      rfl
    have hbareInst : m'.TypedInst inst'.bare := by
      refine hinst ▸ ⟨hresult, tys, ?_, haccepts⟩
      rw [← htypes.map_typeOf? htys]
      simp [Inst.operandValues, Function.comp_def]
    exact hbareInst.of_bare (Inst.bare_bare _).symm
  · right
    rw [inst?_bare, Option.map_eq_some_iff] at hj'
    obtain ⟨inst, hinst, heq⟩ := hj'
    exact ⟨inst, hinst, heq.symm⟩

end Module
end SsaFold
