import SsaFold.Proofs.Module.Typing
import SsaFold.Proofs.Simplify.Effect

/-!
# The simplifier preserves meaning

A module is read here as a set of equations.  A valuation gives every value a datum: an integer of
its width where its type is an integer type, the number itself where it is a constant, and
anything otherwise.  It is consistent with the module if every placed addition and multiplication
comes out right, and if every other placed instruction stands in a relation, its own and arbitrary,
to what it reads.  Control flow, cycles and forward references have no part in this: they are
dealt with by the arbitrary relations.

A fold changes no valuation: by the equation of the instruction its result and the operand it hands
on are equal, so every read has the same datum before and after.  An erasure takes equations
away.  Since the results of the erased instructions are unread, a valuation can be changed there
to satisfy them.
-/

namespace SsaFold

/-- What a value may stand for: an integer modulo a power of two, or anything else. -/
inductive Datum (α : Type) where
  | int (bits : Nat) (x : BitVec bits)
  | other (a : α)

variable {α : Type}

/-- The relation that an instruction demands between its result and its operands.  The flags of an
addition or multiplication do not count. -/
def Inst.Holds (inst : Inst) (rel : Datum α → List (Datum α) → Prop) (ρ : ValueId → Datum α) :
    Prop :=
  match inst.opcode with
  | .binary .add => ∃ bits x y, inst.operandValues.map ρ = [.int bits x, .int bits y] ∧
      ρ inst.result = .int bits (x + y)
  | .binary .mul => ∃ bits x y, inst.operandValues.map ρ = [.int bits x, .int bits y] ∧
      ρ inst.result = .int bits (x * y)
  | _ => rel (ρ inst.result) (inst.operandValues.map ρ)

namespace Module

/-- The valuation gives integers to values of an integer type, and constants their numbers. -/
structure Interprets (m : Module) (ρ : ValueId → Datum α) : Prop where
  int : ∀ v bits, m.typeOf? v = some (.int bits) → ∃ x, ρ v = .int bits x
  constant : ∀ v value c, m.value? v = some value → value.kind = .constInt c →
    ρ v = .int c.bits (BitVec.ofInt c.bits c.value)

/-- The valuation interprets the module and satisfies every placed instruction.  The relations in
`rels` are those of the instructions that are no additions or multiplications. -/
structure Consistent (m : Module) (rels : InstId → Datum α → List (Datum α) → Prop)
    (ρ : ValueId → Datum α) : Prop where
  interprets : m.Interprets ρ
  holds : ∀ i ∈ m.placedInsts, ∀ inst, m.inst? i = some inst → inst.Holds (rels i) ρ

end Module

/-! ## What an instruction demands -/

section Holds

variable {inst inst' : Inst} {rel : Datum α → List (Datum α) → Prop} {ρ ρ' : ValueId → Datum α}

/-- Only the datum of the result and those of the operands count. -/
lemma Inst.Holds.congr (h : inst.Holds rel ρ) (hop : inst'.opcode = inst.opcode)
    (hresult : ρ' inst'.result = ρ inst.result)
    (hoperands : inst'.operandValues.map ρ' = inst.operandValues.map ρ) : inst'.Holds rel ρ' := by
  rw [Inst.Holds] at h ⊢
  rwa [hop, hresult, hoperands]

lemma Inst.holds_add_iff (hop : inst.opcode = .binary .add) {bits : Nat} {x y : BitVec bits}
    (hvalues : inst.operandValues.map ρ = [.int bits x, .int bits y]) :
    inst.Holds rel ρ ↔ ρ inst.result = .int bits (x + y) := by
  rw [Inst.Holds]
  rw [hop, hvalues]
  constructor
  · rintro ⟨bits', x', y', heq, hresult⟩
    obtain ⟨⟨rfl, rfl⟩, -, rfl⟩ : (bits = bits' ∧ HEq x x') ∧ bits = bits' ∧ HEq y y' := by
      simpa using heq
    exact hresult
  · exact fun hresult => ⟨bits, x, y, rfl, hresult⟩

lemma Inst.holds_mul_iff (hop : inst.opcode = .binary .mul) {bits : Nat} {x y : BitVec bits}
    (hvalues : inst.operandValues.map ρ = [.int bits x, .int bits y]) :
    inst.Holds rel ρ ↔ ρ inst.result = .int bits (x * y) := by
  rw [Inst.Holds]
  rw [hop, hvalues]
  constructor
  · rintro ⟨bits', x', y', heq, hresult⟩
    obtain ⟨⟨rfl, rfl⟩, -, rfl⟩ : (bits = bits' ∧ HEq x x') ∧ bits = bits' ∧ HEq y y' := by
      simpa using heq
    exact hresult
  · exact fun hresult => ⟨bits, x, y, rfl, hresult⟩

namespace Module

variable {m : Module} {maxBits : Nat}

/-- A constant that is taken for an identity element stands for it at its type. -/
lemma Interprets.constant_eq (hρ : m.Interprets ρ) {v : ValueId} {n : Int} {bits : Nat}
    (hconst : m.isConstant v n maxBits = true) (hty : m.typeOf? v = some (.int bits)) :
    ρ v = .int bits (BitVec.ofInt bits n) := by
  obtain ⟨value, c, hv, hkind, -, rfl⟩ := isConstant_eq_true.1 hconst
  have hdatum := hρ.constant v value c hv hkind
  obtain ⟨x, hx⟩ := hρ.int v bits hty
  obtain ⟨rfl, -⟩ : c.bits = bits ∧ _ := by simpa using hdatum.symm.trans hx
  exact hdatum

/-- The operands of an arithmetic instruction stand for integers of its width. -/
lemma TypedInst.operands (h : m.TypedInst inst) {op : BinaryOp} (hop : inst.opcode = .binary op)
    {lhs rhs : ValueId} (hvalues : inst.operandValues = [lhs, rhs]) :
    ∃ bits, m.typeOf? lhs = some (.int bits) ∧ m.typeOf? rhs = some (.int bits) ∧
      m.typeOf? inst.result = some (.int bits) := by
  obtain ⟨hresult, tys, htypes, haccepts⟩ := h
  simp only [InstSpec.Accepts, hop] at haccepts
  obtain ⟨bits, hty, rfl⟩ := haccepts
  rw [hvalues] at htypes
  simp only [List.map_cons, List.map_nil, List.cons.injEq, and_true] at htypes
  exact ⟨bits, htypes.1, htypes.2, by rw [hresult, hty]⟩

/-- An identity operation demands that its result equals the operand that it hands on. -/
lemma Folds.holds_iff {kept : ValueId} (h : m.Folds maxBits inst kept)
    (htyped : m.TypedInst inst) (hρ : m.Interprets ρ) :
    inst.Holds rel ρ ↔ ρ inst.result = ρ kept := by
  have hop₂ := h.arithmetic
  obtain ⟨n, lhs, rhs, hop, hvalues, hside⟩ := h
  have hint : ∀ {v bits}, m.typeOf? v = some (.int bits) → ∃ x, ρ v = .int bits x := hρ.int _ _
  rcases hop₂ with hadd | hmul
  · obtain ⟨bits, hlhs, hrhs, -⟩ := htyped.operands hadd hvalues
    obtain rfl : n = 0 := by simpa [hadd, Opcode.identity?, BinaryOp.identity?] using hop.symm
    rcases hside with ⟨hconst, rfl⟩ | ⟨hconst, rfl⟩
    · obtain ⟨y, hy⟩ := hint hrhs
      have hx := hρ.constant_eq hconst hlhs
      rw [Inst.holds_add_iff hadd (by rw [hvalues, List.map_cons, List.map_singleton, hx, hy]), hy]
      simp
    · obtain ⟨x, hx⟩ := hint hlhs
      have hy := hρ.constant_eq hconst hrhs
      rw [Inst.holds_add_iff hadd (by rw [hvalues, List.map_cons, List.map_singleton, hx, hy]), hx]
      simp
  · obtain ⟨bits, hlhs, hrhs, -⟩ := htyped.operands hmul hvalues
    obtain rfl : n = 1 := by simpa [hmul, Opcode.identity?, BinaryOp.identity?] using hop.symm
    rcases hside with ⟨hconst, rfl⟩ | ⟨hconst, rfl⟩
    · obtain ⟨y, hy⟩ := hint hrhs
      have hx := hρ.constant_eq hconst hlhs
      rw [Inst.holds_mul_iff hmul (by rw [hvalues, List.map_cons, List.map_singleton, hx, hy]), hy]
      simp
    · obtain ⟨x, hx⟩ := hint hlhs
      have hy := hρ.constant_eq hconst hrhs
      rw [Inst.holds_mul_iff hmul (by rw [hvalues, List.map_cons, List.map_singleton, hx, hy]), hx]
      simp

/-- The operand that an identity operation hands on has the type of its result. -/
lemma Folds.typeOf?_kept {kept : ValueId} (h : m.Folds maxBits inst kept)
    (htyped : m.TypedInst inst) : m.typeOf? kept = m.typeOf? inst.result := by
  obtain ⟨op, hop⟩ := h.exists_binary
  obtain ⟨n, lhs, rhs, -, hvalues, hside⟩ := h
  obtain ⟨bits, hlhs, hrhs, hresult⟩ := htyped.operands hop hvalues
  rcases hside with ⟨-, rfl⟩ | ⟨-, rfl⟩
  · rw [hrhs, hresult]
  · rw [hlhs, hresult]

end Module

end Holds

/-! ## One step -/

namespace Module

variable {m m' : Module} {maxBits : Nat} {rels : InstId → Datum α → List (Datum α) → Prop}
  {ρ ρ' : ValueId → Datum α}

lemma Interprets.congr (h : m.Interprets ρ)
    (hvalues : ∀ v, (m'.value? v).map Value.bare = (m.value? v).map Value.bare) :
    m'.Interprets ρ := by
  have hold : ∀ {v value'}, m'.value? v = some value' →
      ∃ value, m.value? v = some value ∧ value.bare = value'.bare := by
    intro v value' hv
    have := hvalues v
    rwa [hv, Option.map_some, eq_comm, Option.map_eq_some_iff] at this
  refine ⟨fun v bits hty => h.int v bits ?_, fun v value' c hv hkind => ?_⟩
  · obtain ⟨value', hv, hty'⟩ := typeOf?_eq_some.1 hty
    obtain ⟨value, hv₀, heq⟩ := hold hv
    exact typeOf?_eq_some.2 ⟨value, hv₀, (congrArg Value.ty heq).trans hty'⟩
  · obtain ⟨value, hv₀, heq⟩ := hold hv
    exact h.constant v value c hv₀ ((congrArg Value.kind heq).trans hkind)

/-- What is consistent stays so if reads are renamed to values with the same datum, and if
instructions are erased. -/
lemma Consistent.of_residue (h : m.Consistent rels ρ) {s : ValueId → ValueId} {gone : List InstId}
    (hbare : m'.bare = m.bare.residue s gone) (hs : ∀ v, ρ (s v) = ρ v) : m'.Consistent rels ρ := by
  refine ⟨h.interprets.congr (value?_of_residue hbare), fun i hi inst' hi' => ?_⟩
  rw [placedInsts_of_residue hbare] at hi
  obtain ⟨-, inst, hlive, heq⟩ := inst?_of_residue hbare hi'
  refine (h.holds i (List.mem_filter.1 hi).1 inst hlive).congr ?_ ?_ ?_
  · exact congrArg InstSpec.opcode
      ((Inst.toInstSpec_eq_of_bare heq).trans (inst.toInstSpec_rename s))
  · rw [Inst.result_eq_of_bare heq, Inst.result_rename]
  · rw [Inst.operandValues_eq_of_bare heq, Inst.operandValues_rename, List.map_map]
    exact List.map_congr_left fun v _ => hs v

/-- The converse, where nothing is erased. -/
lemma Consistent.of_renamed (h : m'.Consistent rels ρ) {s : ValueId → ValueId}
    (hbare : m'.bare = m.bare.residue s []) (hs : ∀ v, ρ (s v) = ρ v) : m.Consistent rels ρ := by
  refine ⟨h.interprets.congr fun v => (value?_of_residue hbare v).symm, fun i hi inst hlive => ?_⟩
  obtain ⟨inst', hlive', heq⟩ := inst?_residue_of_not_mem hbare hlive List.not_mem_nil
  have hi' : i ∈ m'.placedInsts := by
    rw [placedInsts_of_residue hbare]
    simpa using hi
  refine (h.holds i hi' inst' hlive').congr ?_ ?_ ?_
  · exact congrArg InstSpec.opcode
      ((Inst.toInstSpec_eq_of_bare heq).trans (inst.toInstSpec_rename s)).symm
  · rw [Inst.result_eq_of_bare heq, Inst.result_rename]
  · rw [Inst.operandValues_eq_of_bare heq, Inst.operandValues_rename, List.map_map]
    exact (List.map_congr_left fun v _ => hs v).symm

section Fold

variable {i : InstId} {inst : Inst} {kept : ValueId}

lemma typeOf?_redirection (htyped : m.TypedInst inst) (hfolds : m.Folds maxBits inst kept)
    (v : ValueId) : m.typeOf? (redirection inst.result kept v) = m.typeOf? v := by
  rw [redirection]
  split_ifs with hv
  · rw [hv, hfolds.typeOf?_kept htyped]
  · rfl

lemma eq_of_redirection (h : ρ inst.result = ρ kept) (v : ValueId) :
    ρ (redirection inst.result kept v) = ρ v := by
  rw [redirection]
  split_ifs with hv
  · rw [hv, h]
  · rfl

/-- A valuation that is consistent after a fold was so before, since the folded instruction is
still there. -/
lemma Consistent.unfold (h : (m.redirected inst.result kept).Consistent rels ρ) (hm : m.Intact)
    (htyped : m.Typed) (live : m.inst? i = some inst) (placed : inst.parent ∈ m.placedBlocks)
    (folds : m.Folds maxBits inst kept) (other : kept ≠ inst.result) : m.Consistent rels ρ := by
  have hbare := bare_redirected m inst.result kept
  obtain ⟨inst', live', heq⟩ := inst?_residue_of_not_mem hbare live List.not_mem_nil
  have htyped' := htyped.of_residue hbare (typeOf?_redirection (htyped i inst live) folds)
  have folds' := folds.of_residue hbare (Sweep.redirection_constant maxBits kept hm.shaped live) heq
  rw [redirection, if_neg other] at folds'
  have hplaced : i ∈ (m.redirected inst.result kept).placedInsts := by
    rw [placedInsts_of_residue hbare]
    simpa using hm.shaped.mem_placedInsts.2 ⟨inst, live, placed⟩
  have hresult := (folds'.holds_iff (htyped' i inst' live') h.interprets).1
    (h.holds i hplaced inst' live')
  rw [Inst.result_eq_of_bare heq, Inst.result_rename] at hresult
  exact h.of_renamed hbare (eq_of_redirection hresult)

end Fold

end Module

namespace Sweep

variable {maxBits : Nat} {s : Sweep} {m' : Module}
  {rels : InstId → Datum α → List (Datum α) → Prop} {ρ ρ' : ValueId → Datum α}

/-- The value is the result of an instruction that waits for its erasure. -/
def Awaited (s : Sweep) (v : ValueId) : Prop :=
  ∃ i ∈ s.waiting, ∃ inst, s.module.inst? i = some inst ∧ inst.result = v

/-- The valuation `ρ` gives each awaited result the datum that `ρ'` gives to the operand that its
instruction hands on, and is `ρ'` elsewhere. -/
structure Restores (maxBits : Nat) (s : Sweep) (ρ ρ' : ValueId → Datum α) : Prop where
  folded : ∀ i ∈ s.waiting, ∀ inst, s.module.inst? i = some inst →
    ∃ kept, s.module.Folds maxBits inst kept ∧ ρ inst.result = ρ' kept
  changed : ∀ v, ρ v ≠ ρ' v → s.Awaited v

/-- Every valuation can be restored, since a result belongs to one instruction only. -/
lemma Sound.exists_restores (hs : s.Sound maxBits) (ρ' : ValueId → Datum α) :
    ∃ ρ, Restores maxBits s ρ ρ' := by
  have hdatum : ∀ v, ∃ d,
      (∀ i ∈ s.waiting, ∀ inst, s.module.inst? i = some inst → inst.result = v →
        ∃ kept, s.module.Folds maxBits inst kept ∧ d = ρ' kept) ∧ (d ≠ ρ' v → s.Awaited v) := by
    intro v
    by_cases hv : s.Awaited v
    · obtain ⟨i, hi, inst, hlive, hresult⟩ := hv
      obtain ⟨inst₀, hlive₀, -, kept, hfolds⟩ := hs.waiting i hi
      obtain rfl : inst = inst₀ := Option.some.inj (hlive.symm.trans hlive₀)
      refine ⟨ρ' kept, fun j hj instj hlivej hresultj => ⟨kept, ?_, rfl⟩, fun _ =>
        ⟨i, hi, inst, hlive, hresult⟩⟩
      obtain rfl := hs.intact.shaped.result_inj hlive hlivej (hresult.trans hresultj.symm)
      rwa [← Option.some.inj (hlive.symm.trans hlivej)]
    · exact ⟨ρ' v, fun i hi inst hlive hresult => absurd ⟨i, hi, inst, hlive, hresult⟩ hv,
        fun hne => absurd rfl hne⟩
  choose ρ hfolded hchanged using hdatum
  exact ⟨ρ, fun i hi inst hlive => hfolded inst.result i hi inst hlive rfl, hchanged⟩

namespace Restores

/-- What is read keeps its datum, because awaited results are unread. -/
lemma eq_of_mem (h : Restores maxBits s ρ ρ') (hs : s.Sound maxBits) {i : InstId} {inst : Inst}
    (hlive : s.module.inst? i = some inst) {v : ValueId} (hv : v ∈ inst.operandValues) :
    ρ v = ρ' v := by
  by_contra hne
  obtain ⟨j, hj, instj, hlivej, rfl⟩ := h.changed v hne
  obtain ⟨inst₀, hlive₀, hunread, -⟩ := hs.waiting j hj
  obtain rfl : instj = inst₀ := Option.some.inj (hlivej.symm.trans hlive₀)
  exact hunread.not_mem hlive hv

/-- So does the result of an instruction that stays. -/
lemma eq_of_not_mem (h : Restores maxBits s ρ ρ') (hs : s.Sound maxBits) {i : InstId} {inst : Inst}
    (hlive : s.module.inst? i = some inst) (hi : i ∉ s.waiting) :
    ρ inst.result = ρ' inst.result := by
  by_contra hne
  obtain ⟨j, hj, instj, hlivej, hresult⟩ := h.changed _ hne
  exact hi (hs.intact.shaped.result_inj hlivej hlive hresult ▸ hj)

lemma interprets (h : Restores maxBits s ρ ρ') (hs : s.Sound maxBits) (htyped : s.module.Typed)
    (hρ' : s.module.Interprets ρ') : s.module.Interprets ρ := by
  refine ⟨fun v bits hty => ?_, fun v value c hv hkind => ?_⟩
  · by_cases hne : ρ v = ρ' v
    · rw [hne]
      exact hρ'.int v bits hty
    · obtain ⟨i, hi, inst, hlive, rfl⟩ := h.changed v hne
      obtain ⟨kept, hfolds, heq⟩ := h.folded i hi inst hlive
      rw [heq]
      exact hρ'.int kept bits ((hfolds.typeOf?_kept (htyped i inst hlive)).trans hty)
  · by_cases hne : ρ v = ρ' v
    · rw [hne]
      exact hρ'.constant v value c hv hkind
    · -- A constant is no result.
      obtain ⟨i, hi, inst, hlive, rfl⟩ := h.changed v hne
      obtain ⟨value', hv', hkind'⟩ := hs.intact.shaped.result i inst hlive
      obtain rfl : value = value' := Option.some.inj (hv.symm.trans hv')
      rw [hkind] at hkind'
      cases hkind'

end Restores

/-- A valuation that is consistent after an erasure can be changed on the results of the erased
instructions so that it is consistent before. -/
lemma Sound.unerase (hs : s.Sound maxBits) (htyped : s.module.Typed)
    (hbare : m'.bare = s.module.bare.residue id s.waiting) (h : m'.Consistent rels ρ') :
    ∃ ρ, s.module.Consistent rels ρ ∧ ∀ v, ρ v ≠ ρ' v → s.Awaited v := by
  obtain ⟨ρ, hρ⟩ := hs.exists_restores ρ'
  have hint' : s.module.Interprets ρ' :=
    h.interprets.congr fun v => (Module.value?_of_residue hbare v).symm
  have hint := hρ.interprets hs htyped hint'
  refine ⟨ρ, ⟨hint, fun j hj instj hlive => ?_⟩, hρ.changed⟩
  by_cases hwait : j ∈ s.waiting
  · obtain ⟨kept, hfolds, heq⟩ := hρ.folded j hwait instj hlive
    refine (hfolds.holds_iff (htyped j instj hlive) hint).2 ?_
    rw [heq, hρ.eq_of_mem hs hlive hfolds.kept_mem]
  · obtain ⟨instj', hlive', heq⟩ := Module.inst?_residue_of_not_mem hbare hlive hwait
    rw [Inst.rename_id] at heq
    have hj' : j ∈ m'.placedInsts := by
      rw [Module.placedInsts_of_residue hbare]
      exact List.mem_filter.2 ⟨hj, by simpa using hwait⟩
    refine (h.holds j hj' instj' hlive').congr ?_ ?_ ?_
    · exact (congrArg InstSpec.opcode (Inst.toInstSpec_eq_of_bare heq)).symm
    · rw [Inst.result_eq_of_bare heq, hρ.eq_of_not_mem hs hlive hwait]
    · rw [Inst.operandValues_eq_of_bare heq]
      exact List.map_congr_left fun v hv => hρ.eq_of_mem hs hlive hv

end Sweep

/-! ## A run -/

/-- The two modules have the same consistent valuations, up to the results of instructions that are
in `m` only. -/
structure Module.SameMeaning (m m' : Module) : Prop where
  /-- What is consistent with `m` is consistent with `m'`. -/
  forward : ∀ (α : Type) (rels : InstId → Datum α → List (Datum α) → Prop) (ρ : ValueId → Datum α),
    m.Consistent rels ρ → m'.Consistent rels ρ
  /-- An instruction of `m'` is in `m`, and reads the same data there, operand by operand. -/
  reads : ∀ (α : Type) (rels : InstId → Datum α → List (Datum α) → Prop) (ρ : ValueId → Datum α),
    m.Consistent rels ρ → ∀ i inst', m'.inst? i = some inst' →
      ∃ inst, m.inst? i = some inst ∧ inst'.operandValues.map ρ = inst.operandValues.map ρ
  /-- What is consistent with `m'` is consistent with `m` when it is changed on the results of
  instructions that `m'` has no more. -/
  backward : ∀ (α : Type) (rels : InstId → Datum α → List (Datum α) → Prop)
    (ρ' : ValueId → Datum α), m'.Consistent rels ρ' → ∃ ρ, m.Consistent rels ρ ∧
      ∀ v, ρ v ≠ ρ' v → ∃ i inst, m.inst? i = some inst ∧ m'.inst? i = none ∧ inst.result = v

namespace Sweep

variable {maxBits : Nat} {m : Module} {s t : Sweep}
  {rels : InstId → Datum α → List (Datum α) → Prop}

/-- What is kept while a run goes on: the typing, that renamed reads keep their data, and that a
valuation can be taken back to the start. -/
structure Faithful (m : Module) (rels : InstId → Datum α → List (Datum α) → Prop) (t : Sweep) :
    Prop where
  typed : t.module.Typed
  residue : ∃ f, t.module.bare = m.bare.residue f t.erased
  forward : ∀ ρ, m.Consistent rels ρ →
    ∃ f, t.module.bare = m.bare.residue f t.erased ∧ ∀ v, ρ (f v) = ρ v
  backward : ∀ ρ', t.module.Consistent rels ρ' → ∃ ρ, m.Consistent rels ρ ∧
    ∀ v, ρ v ≠ ρ' v → ∃ i ∈ t.erased, ∃ inst, m.inst? i = some inst ∧ inst.result = v

lemma faithful_start (h : m.Typed) : Faithful m rels ⟨m, [], []⟩ where
  typed := h
  residue := ⟨id, (Module.residue_id_nil _).symm⟩
  forward := fun _ _ => ⟨id, (Module.residue_id_nil _).symm, fun _ => rfl⟩
  backward := fun ρ' h => ⟨ρ', h, fun _ hne => absurd rfl hne⟩

lemma Step.faithful (h : Step maxBits s t) (hs : s.Sound maxBits) (hf : Faithful m rels s) :
    Faithful m rels t := by
  cases h with
  | @fold m₁ waiting erased i inst kept live placed folds other fresh =>
    have hbare := Module.bare_redirected m₁ inst.result kept
    have hcompose : ∀ {f}, m₁.bare = m.bare.residue f erased →
        (m₁.redirected inst.result kept).bare
          = m.bare.residue (Module.redirection inst.result kept ∘ f) erased := by
      intro f hf
      rw [hbare, hf, Module.residue_residue, List.append_nil]
    refine ⟨hf.typed.of_residue hbare (Module.typeOf?_redirection (hf.typed i inst live) folds),
      ?_, fun ρ hρ => ?_, fun ρ' hρ' => ?_⟩
    · obtain ⟨f, heq⟩ := hf.residue
      exact ⟨_, hcompose heq⟩
    · -- The module before the fold is consistent, so its folded instruction equates the two values.
      obtain ⟨f, heq, hdata⟩ := hf.forward ρ hρ
      have hρ₁ : m₁.Consistent rels ρ := hρ.of_residue heq hdata
      have hresult : ρ inst.result = ρ kept :=
        (folds.holds_iff (hf.typed i inst live) hρ₁.interprets).1
          (hρ₁.holds i (hs.intact.shaped.mem_placedInsts.2 ⟨inst, live, placed⟩) inst live)
      refine ⟨_, hcompose heq, fun v => ?_⟩
      rw [Function.comp_apply, Module.eq_of_redirection hresult, hdata]
    · exact hf.backward ρ' (hρ'.unfold hs.intact hf.typed live placed folds other)
  | @erase m₁ m₂ waiting erased b run =>
    have hbare := (hs.intact.eraseInsts_eq_ok run).2.2
    have hcompose : ∀ {f}, m₁.bare = m.bare.residue f erased →
        m₂.bare = m.bare.residue f (erased ++ waiting) := by
      intro f hf
      rw [hbare, hf, Module.residue_residue, Function.id_comp]
    refine ⟨hf.typed.of_residue hbare fun _ => rfl, ?_, fun ρ hρ => ?_, fun ρ' hρ' => ?_⟩
    · obtain ⟨f, heq⟩ := hf.residue
      exact ⟨f, hcompose heq⟩
    · obtain ⟨f, heq, hdata⟩ := hf.forward ρ hρ
      exact ⟨f, hcompose heq, hdata⟩
    · obtain ⟨ρ₁, hρ₁, hchanged₁⟩ := hs.unerase hf.typed hbare hρ'
      obtain ⟨ρ, hρ, hchanged⟩ := hf.backward ρ₁ hρ₁
      refine ⟨ρ, hρ, fun v hne => ?_⟩
      -- The value was changed for this erasure or for an earlier one.
      by_cases hv : ρ v = ρ₁ v
      · obtain ⟨i, hi, inst₁, hlive₁, rfl⟩ := hchanged₁ v (hv ▸ hne)
        obtain ⟨f, heq⟩ := hf.residue
        obtain ⟨-, inst, hlive, hinst⟩ := Module.inst?_of_residue heq hlive₁
        refine ⟨i, List.mem_append_right _ hi, inst, hlive, ?_⟩
        rw [Inst.result_eq_of_bare hinst, Inst.result_rename]
      · obtain ⟨i, hi, inst, hlive, hresult⟩ := hchanged v hv
        exact ⟨i, List.mem_append_left _ hi, inst, hlive, hresult⟩

lemma Steps.faithful (h : Steps maxBits ⟨m, [], []⟩ t) (hm : m.Intact) (htyped : m.Typed)
    (rels : InstId → Datum α → List (Datum α) → Prop) : Faithful m rels t :=
  (h.induction (sound_start maxBits hm []) (faithful_start htyped)
    fun _ _ hstep hs hf => hstep.faithful hs hf).2

/-- A run on a typed module preserves its meaning. -/
lemma Steps.sameMeaning (h : Steps maxBits ⟨m, [], []⟩ t) (hm : m.Intact) (htyped : m.Typed) :
    m.SameMeaning t.module := by
  refine ⟨fun α rels ρ hρ => ?_, fun α rels ρ hρ i inst' hi' => ?_, fun α rels ρ' hρ' => ?_⟩
  · obtain ⟨f, heq, hdata⟩ := (h.faithful hm htyped rels).forward ρ hρ
    exact hρ.of_residue heq hdata
  · obtain ⟨f, heq, hdata⟩ := (h.faithful hm htyped rels).forward ρ hρ
    obtain ⟨-, inst, hi, hinst⟩ := Module.inst?_of_residue heq hi'
    refine ⟨inst, hi, ?_⟩
    rw [Inst.operandValues_eq_of_bare hinst, Inst.operandValues_rename, List.map_map]
    exact List.map_congr_left fun v _ => hdata v
  · have hf := h.faithful hm htyped rels
    obtain ⟨ρ, hρ, hchanged⟩ := hf.backward ρ' hρ'
    refine ⟨ρ, hρ, fun v hne => ?_⟩
    obtain ⟨i, hi, inst, hlive, hresult⟩ := hchanged v hne
    obtain ⟨f, heq⟩ := hf.residue
    exact ⟨i, inst, hlive, Module.inst?_eq_none_of_residue heq hi, hresult⟩

end Sweep

end SsaFold
