import SsaFold.CallCount
import SsaFold.Proofs.Simplify.Verification
import SsaFold.Proofs.Text.Lawful

/-!
# The simplifier does not change calls

The callee of a call is its last operand, and a redirection rewrites that operand like any other.
But a callee is a pointer, and what is redirected is the result of arithmetic, which is an integer.
So in a typed module each call keeps its callee, and no call is erased: the calls are the same, in
the same order (`Module.Reduces.placedCalls`), and so are their counts (`countCalls_simplify`).
-/

namespace SsaFold

namespace Module

variable {m m' : Module}

/-! ## The callee of a call -/

/-- The function whose address a value is. -/
def addressed? (m : Module) (v : ValueId) : Option FuncId :=
  match m.kind? v with
  | some (.function f) => some f
  | _ => none

lemma callee?_eq (m : Module) (inst : Inst) : m.callee? inst =
    if inst.opcode = .call then inst.operandValues.getLast?.bind m.addressed? else none := by
  have hlast : inst.operandValues.getLast? = inst.operands.back?.map Operand.value := by
    rw [Inst.operandValues, List.getLast?_map, Array.getLast?_toList]
  rw [callee?, hlast]
  cases inst.operands.back? with
  | none => rfl
  | some o =>
    simp only [Option.bind_some, Option.map_some, addressed?, kind?]
    rcases m.value? o.value with _ | ⟨kind, ty, name, uses⟩
    · rfl
    · cases kind <;> rfl

/-- The call that an instruction is: the name of the function it surely reaches. -/
def callAt? (m : Module) (i : InstId) : Option (Option String) :=
  (m.inst? i).bind fun inst =>
    if inst.opcode = .call then some (((m.callee? inst).bind m.func?).map Func.name) else none

lemma placedCalls_eq (m : Module) : m.placedCalls = m.placedInsts.filterMap m.callAt? := by
  rw [placedCalls]
  induction m.placedInsts with
  | nil => rfl
  | cons i rest ih =>
    cases hi : m.inst? i with
    | none => simpa [callAt?, hi, -Option.map_bind] using ih
    | some inst =>
      by_cases hcall : inst.opcode = .call <;> simpa [callAt?, hi, hcall, -Option.map_bind] using ih

/-! ## Through a run -/

/-- The result of an addition or a multiplication is an integer. -/
lemma TypedInst.typeOf?_arithmetic {inst : Inst} (h : m.TypedInst inst)
    (hop : inst.opcode = .binary .add ∨ inst.opcode = .binary .mul) :
    ∃ bits, m.typeOf? inst.result = some (.int bits) := by
  obtain ⟨hresult, tys, -, haccepts⟩ := h
  obtain ⟨bits, hty, -⟩ : ∃ bits, inst.ty = .int bits ∧ tys = [.int bits, .int bits] := by
    rcases hop with hop | hop <;> simpa only [InstSpec.Accepts, hop] using haccepts
  exact ⟨bits, hty ▸ hresult⟩

section Reduces

variable {gone : List InstId} {s : ValueId → ValueId}

/-- What is erased is no call. -/
lemma Reduces.ne_call (h : m.Reduces gone s m') {i : InstId} {inst : Inst} (hi : i ∈ gone)
    (hinst : m.inst? i = some inst) : inst.opcode ≠ .call := by
  obtain ⟨-, inst', hinst', hop⟩ := h.arithmetic i hi
  obtain rfl := Option.some.inj (hinst.symm.trans hinst')
  rcases hop with hop | hop <;> simp [hop]

/-- What is not erased is there, with its reads renamed. -/
lemma Reduces.exists_inst (h : m.Reduces gone s m') {i : InstId} {inst : Inst} (hi : i ∉ gone)
    (hinst : m.inst? i = some inst) : ∃ inst', m'.inst? i = some inst' ∧
      inst'.operandValues = inst.operandValues.map s ∧ inst'.toInstSpec = inst.toInstSpec := by
  cases hinst' : m'.inst? i with
  | none => exact absurd ((h.mem_gone i).2 ⟨⟨inst, hinst⟩, hinst'⟩) hi
  | some inst' =>
    obtain ⟨inst₀, hinst₀, hvalues, hspec, -, -⟩ := h.insts i inst' hinst'
    obtain rfl := Option.some.inj (hinst.symm.trans hinst₀)
    exact ⟨inst', rfl, hvalues, hspec⟩

/-- A pointer is not renamed. -/
lemma Reduces.fixed_pointer (h : m.Reduces gone s m') (hm : m.Typed) {v : ValueId}
    (hv : m.typeOf? v = some .ptr) : s v = v := by
  refine h.fixed v fun i hi inst hinst hresult => ?_
  obtain ⟨-, inst', hinst', hop⟩ := h.arithmetic i hi
  obtain rfl := Option.some.inj (hinst.symm.trans hinst')
  obtain ⟨bits, hty⟩ := (hm i inst hinst).typeOf?_arithmetic hop
  rw [hresult, hv] at hty
  cases hty

/-- An instruction that is left has the callee it had. -/
lemma Reduces.callee? (h : m.Reduces gone s m') (hm : m.Typed) {i : InstId} {inst inst' : Inst}
    (hi : m.inst? i = some inst) (hspec : inst'.toInstSpec = inst.toInstSpec)
    (hvalues : inst'.operandValues = inst.operandValues.map s) :
    m'.callee? inst' = m.callee? inst := by
  have hop : inst'.opcode = inst.opcode := congrArg InstSpec.opcode hspec
  rw [callee?_eq, callee?_eq, hop]
  split_ifs with hcall
  · rw [hvalues, List.getLast?_map]
    cases hlast : inst.operandValues.getLast? with
    | none => rfl
    | some v =>
      have hpointer := h.fixed_pointer hm ((hm i inst hi).callee hcall hlast)
      have hkind : m'.kind? v = m.kind? v := by
        simpa [kind?, Function.comp_def, Value.bare] using congrArg (Option.map Value.kind)
          (h.values v)
      simp only [Option.map_some, Option.bind_some, hpointer, addressed?, hkind]
  · rfl

/-- The calls stay the same, in the same order. -/
lemma Reduces.callAt? (h : m.Reduces gone s m') (hm : m.Typed) {i : InstId} (hi : i ∉ gone) :
    m'.callAt? i = m.callAt? i := by
  rw [Module.callAt?, Module.callAt?]
  cases hinst : m.inst? i with
  | none =>
    cases hinst' : m'.inst? i with
    | none => rfl
    | some inst' =>
      obtain ⟨inst, hinst₀, -⟩ := h.insts i inst' hinst'
      rw [hinst] at hinst₀
      cases hinst₀
  | some inst =>
    obtain ⟨inst', hinst', hvalues, hspec⟩ := h.exists_inst hi hinst
    have hfuncs : m'.func? = m.func? := by
      funext f
      rw [func?, func?, h.functions]
    simp only [hinst', Option.bind_some, h.callee? hm hinst hspec hvalues, hfuncs,
      congrArg InstSpec.opcode hspec]

lemma Reduces.placedCalls (h : m.Reduces gone s m') (hm : m.Typed) :
    m'.placedCalls = m.placedCalls := by
  rw [placedCalls_eq, placedCalls_eq, placedInsts_of_blocks h.functions h.blocks,
    List.filterMap_filter]
  refine List.filterMap_congr fun i _ => ?_
  by_cases hi : i ∈ gone
  · obtain ⟨-, inst, hinst, -⟩ := h.arithmetic i hi
    simp [hi, Module.callAt?, hinst, h.ne_call hi hinst]
  · simpa [hi] using h.callAt? hm hi

end Reduces

end Module

/-- A run on what the reader returns leaves the calls as they are: every call is placed still and
reaches what it reached, and the counts are the same. -/
theorem countCalls_simplify {text : String} {m : Module} (hread : Module.ofText text = .ok m)
    (o : Options) : ∃ m' stats, m.simplify o = .ok (m', stats) ∧ m'.countCalls = m.countCalls ∧
      (∀ i ∈ m.placedInsts, ∀ inst, m.inst? i = some inst → inst.opcode = .call →
        i ∈ m'.placedInsts ∧ ∃ inst', m'.inst? i = some inst' ∧ inst'.opcode = .call ∧
          m'.callee? inst' = m.callee? inst) ∧
      ∀ i ∈ m'.placedInsts, i ∈ m.placedInsts := by
  obtain ⟨hm, hcheck⟩ := Module.wellFormed_ofText hread
  have hintact := hm.reachable.intact
  obtain ⟨m', stats, hrun, -⟩ := hintact.simplify_verified hcheck o.maxIdentityBits
  obtain ⟨m₁, gone, hrun₁, hsteps⟩ := hintact.simplify_steps o.maxIdentityBits
  obtain ⟨rfl, -⟩ := Prod.mk.inj (Except.ok.inj ((hrun false).symm.trans hrun₁))
  obtain ⟨s, hs⟩ := hsteps.traced hintact
  have hreduces := hs.reduces hintact.shaped
  have hplaced := Module.placedInsts_of_blocks hreduces.functions hreduces.blocks
  refine ⟨m', stats, hrun o.verify, ?_, fun i hi inst hinst hcall => ?_, fun i hi => ?_⟩
  · rw [Module.countCalls, Module.countCalls, hreduces.placedCalls hm.typed]
  · have hgone : i ∉ gone := fun hmem => hreduces.ne_call hmem hinst hcall
    obtain ⟨inst', hinst', hvalues, hspec⟩ := hreduces.exists_inst hgone hinst
    refine ⟨?_, inst', hinst', (congrArg InstSpec.opcode hspec :).trans hcall,
      hreduces.callee? hm.typed hinst hspec hvalues⟩
    rw [hplaced, List.mem_filter]
    exact ⟨hi, by simpa using hgone⟩
  · rw [hplaced] at hi
    exact List.mem_of_mem_filter hi

/-- A sum that is dropped is an argument of a direct call and of an indirect one. -/
def sendText : String :=
  "declare void @g(i1, ...)\ndefine void @f(i8 %x, ptr %h) \x7b\na:\n  %q = add i8 %x, 0\n" ++
  "  call void (i1, ...) @g(i1 true, i8 %q)\n  call void %h(i8 %q)\n  ret void\n\x7d\n"

theorem countCalls_simplify_sendText : ∃ m m' stats, Module.ofText sendText = .ok m ∧
    m.placedCalls = [some "g", none] ∧ m.simplify ⟨32, true⟩ = .ok (m', stats) ∧
    m'.countCalls = m.countCalls := by
  have hcalls : (Module.ofText sendText).toOption.map Module.placedCalls
      = some [some "g", none] := by
    decide +kernel
  cases hread : Module.ofText sendText with
  | error e => simp [hread, Except.toOption] at hcalls
  | ok m =>
    obtain ⟨m', stats, hrun, hcounts, -⟩ := countCalls_simplify hread ⟨32, true⟩
    refine ⟨m, m', stats, rfl, ?_, hrun, hcounts⟩
    simpa [hread, Except.toOption] using hcalls

end SsaFold
