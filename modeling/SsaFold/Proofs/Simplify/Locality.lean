import SsaFold.Proofs.Module.UseLists
import SsaFold.Proofs.Mirror.Pairing
import SsaFold.Proofs.Simplify.Plan
import SsaFold.Proofs.Text.Lawful

/-!
# The simplifier works within a function

A function has its blocks, the instructions in them, its parameters and its results.  In a complete
module an instruction reads what its function has, or a value that belongs to no function
(`Module.Descends.hasValue_or_isShared`).  So a fold or an erasure in one function leaves another as
it is, with the use lists of its values (`Module.WorksIn`); and what it does to its own function
depends on this function only (`Module.SameIn`).  Only the use lists of shared values tell more.
-/

namespace SsaFold

namespace Module

variable {m₀ m n m' n' : Module} {f g : FuncId} {i : InstId} {inst : Inst} {v kept : ValueId}
  {maxBits : Nat}

/-! ## What a function has -/

/-- The instruction stands in a block of the function. -/
def HasInst (m : Module) (f : FuncId) (i : InstId) : Prop :=
  ∃ inst, m.inst? i = some inst ∧ m.owner? inst.parent = some f

/-- The value is a parameter or a result of the function. -/
inductive HasValue (m : Module) (f : FuncId) (v : ValueId) : Prop
  | argument {k : Nat} (kind : m.kind? v = some (.argument f k))
  | result {i : InstId} (kind : m.kind? v = some (.inst i)) (inst : m.HasInst f i)

lemma HasInst.unique (hf : m.HasInst f i) (hg : m.HasInst g i) : f = g := by
  obtain ⟨inst, hi, hf⟩ := hf
  obtain ⟨inst', hi', hg⟩ := hg
  obtain rfl := Option.some.inj (hi.symm.trans hi')
  exact Option.some.inj (hf.symm.trans hg)

/-- No value belongs to two functions. -/
lemma HasValue.unique (hf : m.HasValue f v) (hg : m.HasValue g v) : f = g := by
  cases hf with
  | argument hkind =>
    cases hg with
    | argument hkind' =>
      exact (ValueKind.argument.inj (Option.some.inj (hkind.symm.trans hkind'))).1
    | result hkind' => cases hkind.symm.trans hkind'
  | result hkind hi =>
    cases hg with
    | argument hkind' => cases hkind.symm.trans hkind'
    | result hkind' hi' =>
      obtain rfl := ValueKind.inst.inj (Option.some.inj (hkind.symm.trans hkind'))
      exact hi.unique hi'

lemma HasValue.not_isShared (h : m.HasValue f v) {kind : ValueKind}
    (hkind : m.kind? v = some kind) :
    ¬ kind.IsShared := by
  cases h with
  | argument hkind' =>
    obtain rfl := Option.some.inj (hkind.symm.trans hkind')
    exact not_false
  | result hkind' =>
    obtain rfl := Option.some.inj (hkind.symm.trans hkind')
    exact not_false

/-! ## On the way of a run -/

/-- The module `m` can come about from `m₀` when reads are renamed and instructions are erased, and
nothing is missing in it. -/
structure Descends (m₀ m : Module) : Prop where
  complete : m.Complete
  bare : ∃ s gone, m.bare = m₀.bare.residue s gone

lemma Complete.descends (h : m.Complete) : m.Descends m := ⟨h, id, [], (residue_id_nil _).symm⟩

namespace Descends

lemma functions (h : m₀.Descends m) : m.functions = m₀.functions := by
  obtain ⟨s, gone, hbare⟩ := h.bare
  exact functions_of_residue hbare

lemma kind? (h : m₀.Descends m) (v : ValueId) : m.kind? v = m₀.kind? v := by
  obtain ⟨s, gone, hbare⟩ := h.bare
  exact kind?_of_residue hbare v

/-- A value of a function is there. -/
lemma exists_value (h : m₀.Descends m) (hv : m₀.HasValue f v) :
    ∃ value, m.value? v = some value := by
  obtain ⟨kind, hkind⟩ : ∃ kind, m.kind? v = some kind := by
    rw [h.kind?]
    cases hv with
    | argument hkind => exact ⟨_, hkind⟩
    | result hkind => exact ⟨_, hkind⟩
  obtain ⟨value, hvalue, -⟩ := kind?_eq_some.1 hkind
  exact ⟨value, hvalue⟩

lemma owner? (h : m₀.Descends m) (b : BlockId) : m.owner? b = m₀.owner? b := by
  obtain ⟨s, gone, hbare⟩ := h.bare
  rw [Module.owner?, Module.owner?, block?_of_residue hbare]
  cases m₀.block? b <;> rfl

lemma hasInst_iff (h : m₀.Descends m) (hi : m.inst? i = some inst) :
    m₀.HasInst f i ↔ m.owner? inst.parent = some f := by
  obtain ⟨s, gone, hbare⟩ := h.bare
  obtain ⟨-, inst₀, hi₀, heq⟩ := inst?_of_residue hbare hi
  rw [h.owner?, (Inst.parent_eq_of_bare heq).trans (inst₀.parent_rename s), HasInst, hi₀]
  simp

/-- An instruction reads what its function has, or what belongs to no function. -/
lemma hasValue_or_isShared (h : m₀.Descends m) (hi : m.inst? i = some inst) (hf : m₀.HasInst f i)
    (hv : v ∈ inst.operandValues) :
    m₀.HasValue f v ∨ ∃ kind, m₀.kind? v = some kind ∧ kind.IsShared := by
  obtain ⟨value, hvalue, -, hoffers⟩ := h.complete.visible hi ((h.hasInst_iff hi).1 hf) hv
  have hkind : m₀.kind? v = some value.kind := by
    rw [← h.kind?]
    exact kind?_eq_some.2 ⟨value, hvalue, rfl⟩
  cases hk : value.kind with
  | argument g k =>
    rw [hk] at hkind hoffers
    exact .inl (.argument (hoffers.1 ▸ hkind))
  | inst j =>
    rw [hk] at hkind hoffers
    obtain ⟨instj, hj, -, howner⟩ := hoffers
    exact .inl (.result hkind ((h.hasInst_iff hj).2 howner))
  | placeholder =>
    rw [hk] at hoffers
    exact hoffers.elim
  | _ => exact .inr ⟨_, hkind, by rw [hk]; trivial⟩

/-- What is read in one function belongs to no other. -/
lemma not_hasValue (h : m₀.Descends m) (hi : m.inst? i = some inst) (hg : m₀.HasInst g i)
    (hfg : f ≠ g) (hv : v ∈ inst.operandValues) : ¬ m₀.HasValue f v := by
  intro hf
  rcases h.hasValue_or_isShared hi hg hv with hg | ⟨kind, hkind, hshared⟩
  · exact hfg (hf.unique hg)
  · exact hf.not_isShared hkind hshared

lemma hasValue_result (h : m₀.Descends m) (hi : m.inst? i = some inst) (hf : m₀.HasInst f i) :
    m₀.HasValue f inst.result := by
  obtain ⟨value, hvalue, hkind⟩ := h.complete.intact.shaped.result i inst hi
  refine .result ?_ hf
  rw [← h.kind?]
  exact kind?_eq_some.2 ⟨value, hvalue, hkind⟩

/-- A fold leads on. -/
lemma redirected (h : m₀.Descends m) (hi : m.inst? i = some inst)
    (hfolds : m.Folds maxBits inst kept) (hne : kept ≠ inst.result) :
    m₀.Descends (m.redirected inst.result kept) := by
  obtain ⟨block, hb, -⟩ := (h.complete.intact.shaped.held i _).2 ⟨inst, hi, rfl⟩
  have hstep : Sweep.Step maxBits ⟨m, [], []⟩ ⟨m.redirected inst.result kept, [i], []⟩ :=
    .fold hi (h.complete.placed _ _ hb) hfolds hne List.not_mem_nil
  obtain ⟨s, gone, hbare⟩ := h.bare
  refine ⟨hstep.complete (Sweep.sound_start maxBits h.complete.intact []) h.complete,
    redirection inst.result kept ∘ s, gone, ?_⟩
  rw [bare_redirected, hbare, residue_residue, List.append_nil]

/-- So does an erasure. -/
lemma eraseInst (h : m₀.Descends m) (hrun : m.eraseInst i = .ok m') : m₀.Descends m' := by
  obtain ⟨⟨b, inst, value, hi, -, hvalue, huses⟩, hm', hbare⟩ :=
    h.complete.intact.eraseInst_eq_ok hrun
  have hunread := (h.complete.intact.agrees.uses_eq_empty_iff hvalue).1 huses
  obtain ⟨s, gone, hbare₀⟩ := h.bare
  refine ⟨h.complete.of_residue hm' hbare (fun _ => rfl) (fun _ _ => rfl) ?_, id ∘ s, gone ++ [i],
    by rw [hbare, hbare₀, residue_residue]⟩
  intro j instj _ hj f hf v hv
  refine ⟨h.complete.visible hj hf hv, fun k instk hk hresult hmem => ?_⟩
  -- Nothing reads the result of what is erased.
  obtain rfl := List.mem_singleton.1 hmem
  obtain rfl := Option.some.inj (hi.symm.trans hk)
  exact (hresult ▸ hunread).not_mem hj hv

end Descends

/-! ## Modules that agree on a function -/

/-- The modules agree on what function `f` of `m₀` has: the blocks, the instructions, and the use
lists of the parameters and results. -/
structure SameIn (m₀ : Module) (f : FuncId) (m n : Module) : Prop where
  block : ∀ b, m₀.owner? b = some f → n.block? b = m.block? b
  inst : ∀ i, m₀.HasInst f i → (n.inst? i).map Inst.bare = (m.inst? i).map Inst.bare
  uses : ∀ v, m₀.HasValue f v → n.usesOf v = m.usesOf v

namespace SameIn

lemma refl (m₀ : Module) (f : FuncId) (m : Module) : SameIn m₀ f m m :=
  ⟨fun _ _ => rfl, fun _ _ => rfl, fun _ _ => rfl⟩

lemma symm (h : SameIn m₀ f m n) : SameIn m₀ f n m :=
  ⟨fun b hb => (h.block b hb).symm, fun i hi => (h.inst i hi).symm, fun v hv => (h.uses v hv).symm⟩

lemma trans (h : SameIn m₀ f m n) (h' : SameIn m₀ f n n') : SameIn m₀ f m n' :=
  ⟨fun b hb => (h'.block b hb).trans (h.block b hb), fun i hi => (h'.inst i hi).trans (h.inst i hi),
    fun v hv => (h'.uses v hv).trans (h.uses v hv)⟩

/-- An instruction of the function is in both modules. -/
lemma exists_inst (h : SameIn m₀ f m n) (hf : m₀.HasInst f i) (hi : m.inst? i = some inst) :
    ∃ inst', n.inst? i = some inst' ∧ inst'.bare = inst.bare := by
  have := h.inst i hf
  rwa [hi, Option.map_some, Option.map_eq_some_iff] at this

end SameIn

/-! ## One fold, one erasure -/

/-- What a fold has done. -/
lemma Intact.foldInst_eq_ok (h : m.Intact) {folded : Bool}
    (hrun : m.foldInst maxBits i = .ok (m', folded)) : ∃ inst, m.inst? i = some inst ∧
      ((m' = m ∧ folded = false ∧ ∀ kept, m.kept? maxBits inst = some kept → kept = inst.result) ∨
        ∃ kept, m' = m.redirected inst.result kept ∧ folded = true ∧
          m.kept? maxBits inst = some kept ∧ kept ≠ inst.result) := by
  obtain ⟨inst, hi⟩ : ∃ inst, m.inst? i = some inst := by
    simp only [Module.foldInst, survivingOperand, bind_eq_ok, getInst_eq_ok] at hrun
    obtain ⟨-, ⟨inst, hi, -⟩, -⟩ := hrun
    exact ⟨inst, hi⟩
  refine ⟨inst, hi, ?_⟩
  cases hk : m.survivor? inst maxBits with
  | none =>
    rw [foldInst_of_none hi hk, Except.ok.injEq, Prod.mk.injEq] at hrun
    refine .inl ⟨hrun.1.symm, hrun.2.symm, fun kept hkept => ?_⟩
    simp [kept?, hk] at hkept
  | some k =>
    obtain ⟨o, ho, -⟩ := folds_of_survivor? hk
    have hkept : m.kept? maxBits inst = some o.value :=
      kept?_eq_some.2 ⟨k, hk, by simp [Inst.operandValues, ho]⟩
    by_cases hself : o.value = inst.result
    · rw [foldInst_of_self hi hk ho hself, Except.ok.injEq, Prod.mk.injEq] at hrun
      refine .inl ⟨hrun.1.symm, hrun.2.symm, fun kept hkept' => ?_⟩
      rw [← hself]
      exact Option.some.inj (hkept'.symm.trans hkept)
    · rw [h.foldInst_of_kept hi hk ho hself, Except.ok.injEq, Prod.mk.injEq] at hrun
      exact .inr ⟨o.value, hrun.1.symm, hrun.2.symm, hkept, hself⟩

/-- The use lists after a redirection. -/
lemma usesOf_redirected_of_value? {value : Value} (hv : m.value? v = some value)
    (source target : ValueId) : (m.redirected source target).usesOf v =
      (if v = source then #[] else m.usesOf v) ++ if v = target then m.usesOf source else #[] := by
  simp only [usesOf, value?_redirected, hv, Option.map_some, Option.getD_some]

/-- A fold in another function leaves a function as it is. -/
lemma Descends.sameIn_redirected (h : m₀.Descends m) (hi : m.inst? i = some inst)
    (hg : m₀.HasInst g i) (hkept : kept ∈ inst.operandValues) (hfg : f ≠ g) :
    SameIn m₀ f m (m.redirected inst.result kept) where
  block _ _ := rfl
  inst j hj := by
    have hbare := bare_redirected m inst.result kept
    cases hinst : m.inst? j with
    | none => rw [inst?_residue_eq_none hbare hinst]
    | some instj =>
      obtain ⟨instj', hinst', heq⟩ := inst?_residue_of_not_mem hbare hinst List.not_mem_nil
      -- The function does not read the result.
      have hread : ∀ v ∈ instj.operandValues, redirection inst.result kept v = v := by
        intro v hv
        refine if_neg ?_
        rintro rfl
        exact h.not_hasValue hinst hj hfg.symm hv (h.hasValue_result hi hg)
      rw [hinst', Option.map_some, Option.map_some, heq, Inst.rename_congr _ (t := id) hread,
        Inst.rename_id]
  uses v hv := by
    obtain ⟨value, hvalue⟩ := h.exists_value hv
    have hs : v ≠ inst.result := by
      rintro rfl
      exact hfg (hv.unique (h.hasValue_result hi hg))
    have ht : v ≠ kept := by
      rintro rfl
      exact h.not_hasValue hi hg hfg hkept hv
    rw [usesOf_redirected_of_value? hvalue, if_neg hs, if_neg ht, Array.append_empty]

/-- An erasure in another function leaves a function as it is. -/
lemma Descends.sameIn_eraseInst (h : m₀.Descends m) (hg : m₀.HasInst g i)
    (hrun : m.eraseInst i = .ok m') (hfg : f ≠ g) : SameIn m₀ f m m' := by
  obtain ⟨⟨b, inst, value, hi, rfl, -⟩, -, hbare⟩ := h.complete.intact.eraseInst_eq_ok hrun
  refine ⟨fun c hc => ?_, fun j hj => ?_, fun v hv => ?_⟩
  · rw [block?_of_residue hbare]
    cases hblock : m.block? c with
    | none => rfl
    | some block =>
      -- The erased instruction stands in a block of the other function.
      have hkeep : ∀ j ∈ block.insts, j ∉ [i] := by
        intro j hj hmem
        obtain rfl := List.mem_singleton.1 hmem
        obtain ⟨inst', hi', rfl⟩ := (h.complete.intact.shaped.held j c).1 ⟨block, hblock, hj⟩
        rw [← h.owner?] at hc
        exact hfg (((h.hasInst_iff hi').2 hc).unique hg)
      have hsame : block.insts.filter (· ∉ [i]) = block.insts :=
        Array.filter_eq_self.2 fun j hj => by simpa using hkeep j hj
      rw [Option.map_some, hsame]
  · have hji : j ∉ [i] := by
      intro hmem
      obtain rfl := List.mem_singleton.1 hmem
      exact hfg (hj.unique hg)
    cases hinst : m.inst? j with
    | none => rw [inst?_residue_eq_none hbare hinst]
    | some instj =>
      obtain ⟨instj', hinst', heq⟩ := inst?_residue_of_not_mem hbare hinst hji
      rw [hinst', Option.map_some, Option.map_some, heq, Inst.rename_id]
  · rw [h.complete.intact.agrees.usesOf_eraseInst hi hrun, dropReads_of_not_mem]
    exact fun hmem => h.not_hasValue hi hg hfg hmem hv

/-! ## The same twice -/

/-- What an instruction of the function hands on is the same in both modules. -/
lemma Descends.kept?_eq (h : m₀.Descends m) (h' : m₀.Descends n) {inst' : Inst}
    (heq : inst'.bare = inst.bare) : n.kept? maxBits inst' = m.kept? maxBits inst := by
  obtain ⟨s, gone, hbare⟩ := h.bare
  obtain ⟨t, gone', hbare'⟩ := h'.bare
  have hvalues := Inst.operandValues_eq_of_bare heq
  rw [Module.kept?, Module.kept?, hvalues]
  congr 1
  refine survivor?_congr (congrArg InstSpec.opcode (Inst.toInstSpec_eq_of_bare heq)) hvalues
    fun v _ k => ?_
  rw [isConstant_of_residue hbare', isConstant_of_residue hbare]

/-- The same fold in both modules. -/
lemma SameIn.redirected (h : SameIn m₀ f m n) (hm : m₀.Descends m) (hn : m₀.Descends n)
    {source target : ValueId} (hs : m₀.HasValue f source) :
    SameIn m₀ f (m.redirected source target) (n.redirected source target) where
  block := h.block
  inst j hj := by
    have hleft := congrArg (·.inst? j) (bare_redirected m source target)
    have hright := congrArg (·.inst? j) (bare_redirected n source target)
    simp only [inst?_bare, inst?_residue, List.not_mem_nil, if_false] at hleft hright
    rw [hleft, hright, h.inst j hj]
  uses v hv := by
    obtain ⟨value, hvalue⟩ := hm.exists_value hv
    obtain ⟨value', hvalue'⟩ := hn.exists_value hv
    rw [usesOf_redirected_of_value? hvalue, usesOf_redirected_of_value? hvalue', h.uses v hv,
      h.uses source hs]

/-- The same erasure in both modules. -/
lemma SameIn.eraseInst (h : SameIn m₀ f m n) (hm : m₀.Descends m) (hn : m₀.Descends n)
    (hf : m₀.HasInst f i) (hrun : m.eraseInst i = .ok m') (hrun' : n.eraseInst i = .ok n') :
    SameIn m₀ f m' n' := by
  obtain ⟨⟨-, inst, -, hi, -⟩, -, hbare⟩ := hm.complete.intact.eraseInst_eq_ok hrun
  obtain ⟨-, -, hbare'⟩ := hn.complete.intact.eraseInst_eq_ok hrun'
  obtain ⟨inst', hi', heq⟩ := h.exists_inst hf hi
  refine ⟨fun b hb => ?_, fun j hj => ?_, fun v hv => ?_⟩
  · rw [block?_of_residue hbare, block?_of_residue hbare', h.block b hb]
  · have hleft := congrArg (·.inst? j) hbare
    have hright := congrArg (·.inst? j) hbare'
    simp only [inst?_bare, inst?_residue] at hleft hright
    rw [hleft, hright, h.inst j hj]
  · rw [hm.complete.intact.agrees.usesOf_eraseInst hi hrun,
      hn.complete.intact.agrees.usesOf_eraseInst hi' hrun', h.uses v hv,
      Inst.operandValues_eq_of_bare heq]

end Module
end SsaFold
