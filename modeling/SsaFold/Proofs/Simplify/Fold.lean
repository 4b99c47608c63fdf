import SsaFold.Simplify.Pass
import SsaFold.Proofs.Module.Instructions

/-!
# Folding one instruction

`Module.Folds` says that an instruction is an identity operation and which operand it hands on.
Unlike `Module.survivor?` it does not choose: of `0 + 0` both operands are handed on.  That is
what makes it stable, for a renaming of reads may turn an instruction into one where the choice
falls on the other position, but it cannot end the identity.

A fold needs nothing but an intact module, and it leaves the result of the instruction unread.
-/

namespace SsaFold
namespace Module

/-- Nothing reads `v`. -/
def Unread (m : Module) (v : ValueId) : Prop := ∀ u o, m.operand? u = some o → o.value ≠ v

/-- The instruction has an identity element as one operand, and `kept` is the other. -/
def Folds (m : Module) (maxBits : Nat) (inst : Inst) (kept : ValueId) : Prop :=
  ∃ n lhs rhs, inst.opcode.identity? = some n ∧ inst.operandValues = [lhs, rhs] ∧
    ((m.isConstant lhs n maxBits = true ∧ kept = rhs) ∨
      (m.isConstant rhs n maxBits = true ∧ kept = lhs))

variable {m m' : Module} {maxBits : Nat}

/-! ## Unread values -/

lemma Agrees.uses_eq_empty_iff (h : m.Agrees) {v : ValueId} {value : Value}
    (hv : m.value? v = some value) : value.uses = #[] ↔ m.Unread v := by
  constructor
  · rintro huses u ⟨w, slot⟩ ho rfl
    have := (agrees_iff.1 h u _ slot).1 ho
    rw [use?_of_value? hv, huses] at this
    simp at this
  · intro hunread
    refine Array.eq_empty_of_size_eq_zero ?_
    by_contra hne
    have hslot : m.use? v 0 = some value.uses[0] := by
      rw [use?_of_value? hv]
      exact Array.getElem?_eq_getElem (Nat.pos_of_ne_zero hne)
    exact hunread _ _ ((agrees_iff.1 h _ v 0).2 hslot) rfl

/-- A value that is read after a renaming comes from a value that was read before. -/
lemma Unread.of_residue {s : ValueId → ValueId} {gone : List InstId}
    (hbare : m'.bare = m.bare.residue s gone) {v : ValueId}
    (h : ∀ u o, m.operand? u = some o → s o.value ≠ v) : m'.Unread v := by
  intro u o' ho'
  obtain ⟨-, o, ho, heq⟩ := operand?_of_residue hbare ho'
  rw [heq]
  exact h u o ho

/-- A value that an instruction reads is not unread. -/
lemma Unread.not_mem (h : m.Unread v) {i : InstId} {inst : Inst} (hi : m.inst? i = some inst) :
    v ∉ inst.operandValues := by
  intro hmem
  obtain ⟨o, ho, rfl⟩ := List.mem_map.1 hmem
  obtain ⟨k, hk⟩ := Array.mem_iff_getElem?.1 (Array.mem_toList_iff.1 ho)
  exact h ⟨i, k⟩ o ((operand?_of_inst? hi k).trans hk) rfl

/-! ## Identity elements -/

lemma isConstant_bare (v : ValueId) (n : Int) :
    m.bare.isConstant v n maxBits = m.isConstant v n maxBits := by
  rw [isConstant, isConstant, value?_bare]
  cases m.value? v with
  | none => rfl
  | some value =>
    rcases value with ⟨kind, ty, name, uses⟩
    cases kind <;> rfl

/-- Constants stay what they are. -/
lemma isConstant_of_residue {s : ValueId → ValueId} {gone : List InstId}
    (hbare : m'.bare = m.bare.residue s gone) (v : ValueId) (n : Int) :
    m'.isConstant v n maxBits = m.isConstant v n maxBits := by
  rw [← isConstant_bare, hbare, ← isConstant_bare (m := m)]
  rfl

lemma isConstant_eq_true {v : ValueId} {n : Int} : m.isConstant v n maxBits = true ↔
    ∃ value c, m.value? v = some value ∧ value.kind = .constInt c ∧ c.bits ≤ maxBits ∧
      c.value = n := by
  rw [isConstant]
  cases hv : m.value? v with
  | none => simp
  | some value =>
    rcases value with ⟨kind, ty, name, uses⟩
    cases kind <;> simp

/-- The result of an instruction is not a constant. -/
lemma Shaped.result_ne_constant (h : m.Shaped) {i : InstId} {inst : Inst}
    (hi : m.inst? i = some inst) {v : ValueId} {n : Int} (hv : m.isConstant v n maxBits = true) :
    v ≠ inst.result := by
  rintro rfl
  obtain ⟨value, c, hvalue, hkind, -⟩ := isConstant_eq_true.1 hv
  obtain ⟨value', hvalue', hkind'⟩ := h.result i inst hi
  obtain rfl : value = value' := Option.some.inj (hvalue.symm.trans hvalue')
  rw [hkind] at hkind'
  cases hkind'

/-- Two instructions never share a result. -/
lemma Shaped.result_inj (h : m.Shaped) {i j : InstId} {inst inst' : Inst}
    (hi : m.inst? i = some inst) (hj : m.inst? j = some inst') (heq : inst.result = inst'.result) :
    i = j := by
  obtain ⟨value, hv, hkind⟩ := h.result i inst hi
  obtain ⟨value', hv', hkind'⟩ := h.result j inst' hj
  obtain rfl : value = value' := Option.some.inj ((heq ▸ hv).symm.trans hv')
  exact ValueKind.inst.inj (hkind.symm.trans hkind')

/-! ## Identity operations -/

lemma Folds.kept_mem {inst : Inst} {kept : ValueId} (h : m.Folds maxBits inst kept) :
    kept ∈ inst.operandValues := by
  obtain ⟨n, lhs, rhs, -, hvalues, ⟨-, rfl⟩ | ⟨-, rfl⟩⟩ := h <;> simp [hvalues]

/-- What an identity operation does not hand on is an identity element. -/
lemma Folds.eq_or_isConstant {inst : Inst} {kept v : ValueId} (h : m.Folds maxBits inst kept)
    (hv : v ∈ inst.operandValues) : v = kept ∨ ∃ n, m.isConstant v n maxBits = true := by
  obtain ⟨n, lhs, rhs, -, hvalues, hside⟩ := h
  simp only [hvalues, List.mem_cons, List.not_mem_nil, or_false] at hv
  rcases hv with rfl | rfl <;> rcases hside with ⟨hconst, hkept⟩ | ⟨hconst, hkept⟩
  · exact .inr ⟨n, hconst⟩
  · exact .inl hkept.symm
  · exact .inl hkept.symm
  · exact .inr ⟨n, hconst⟩

/-- A renaming that spares the constants does not end an identity. -/
lemma Folds.rename {inst : Inst} {kept : ValueId} (h : m.Folds maxBits inst kept)
    {s : ValueId → ValueId} (hs : ∀ v n, m.isConstant v n maxBits = true → s v = v) :
    m.Folds maxBits (inst.rename s) (s kept) := by
  obtain ⟨n, lhs, rhs, hop, hvalues, hside⟩ := h
  refine ⟨n, s lhs, s rhs, hop, by rw [Inst.operandValues_rename, hvalues]; rfl, ?_⟩
  rcases hside with ⟨hconst, rfl⟩ | ⟨hconst, rfl⟩
  · exact .inl ⟨by rwa [hs lhs n hconst], rfl⟩
  · exact .inr ⟨by rwa [hs rhs n hconst], rfl⟩

/-- So it is in the module in which the reads are renamed. -/
lemma Folds.of_residue {s : ValueId → ValueId} {gone : List InstId}
    (hbare : m'.bare = m.bare.residue s gone)
    (hs : ∀ v n, m.isConstant v n maxBits = true → s v = v) {inst inst' : Inst} {kept : ValueId}
    (hinst : inst'.bare = (inst.rename s).bare) (h : m.Folds maxBits inst kept) :
    m'.Folds maxBits inst' (s kept) := by
  obtain ⟨n, lhs, rhs, hop, hvalues, hside⟩ := h.rename hs
  have hop' : inst'.opcode = (inst.rename s).opcode :=
    congrArg InstSpec.opcode (Inst.toInstSpec_eq_of_bare hinst)
  refine ⟨n, lhs, rhs, hop' ▸ hop, (Inst.operandValues_eq_of_bare hinst).trans hvalues, ?_⟩
  simpa only [isConstant_of_residue hbare] using hside

/-- The operand that survives is handed on. -/
lemma folds_of_survivor? {inst : Inst} {k : Nat} (h : m.survivor? inst maxBits = some k) :
    ∃ o, inst.operands[k]? = some o ∧ m.Folds maxBits inst o.value := by
  have hget : ∀ (j : Nat) v, inst.operandValues[j]? = some v →
      ∃ o : Operand, inst.operands[j]? = some o ∧ o.value = v := by
    intro j v hj
    simpa [Inst.operandValues] using hj
  rw [survivor?] at h
  split at h
  · rename_i n lhs rhs hop hvalues
    split_ifs at h with hlhs hrhs
    · obtain rfl := Option.some.inj h
      obtain ⟨o, ho, hvalue⟩ := hget 1 rhs (by simp [hvalues])
      exact ⟨o, ho, n, lhs, rhs, hop, hvalues, .inl ⟨hlhs, hvalue⟩⟩
    · obtain rfl := Option.some.inj h
      obtain ⟨o, ho, hvalue⟩ := hget 0 lhs (by simp [hvalues])
      exact ⟨o, ho, n, lhs, rhs, hop, hvalues, .inr ⟨hrhs, hvalue⟩⟩
  · cases h

/-! ## The fold -/

section FoldInst

variable {i : InstId} {inst : Inst}

lemma foldInst_of_none (hi : m.inst? i = some inst) (hk : m.survivor? inst maxBits = none) :
    m.foldInst maxBits i = .ok (m, false) := by
  simp only [foldInst, survivingOperand, getInst_eq_ok.2 hi, ok_bind, hk]
  rfl

lemma foldInst_of_self (hi : m.inst? i = some inst) {k : Nat} {o : Operand}
    (hk : m.survivor? inst maxBits = some k) (ho : inst.operands[k]? = some o)
    (hself : o.value = inst.result) : m.foldInst maxBits i = .ok (m, false) := by
  have hop : m.getOperand ⟨i, k⟩ = .ok o := getOperand_eq_ok.2 ((operand?_of_inst? hi k).trans ho)
  simp only [foldInst, survivingOperand, getInst_eq_ok.2 hi, ok_bind, hk, pure_bind, hop, hself,
    if_true]
  rfl

lemma Intact.foldInst_of_kept (h : m.Intact) (hi : m.inst? i = some inst) {k : Nat} {o : Operand}
    (hk : m.survivor? inst maxBits = some k) (ho : inst.operands[k]? = some o)
    (hne : o.value ≠ inst.result) :
    m.foldInst maxBits i = .ok (m.redirected inst.result o.value, true) := by
  have ho' : m.operand? ⟨i, k⟩ = some o := (operand?_of_inst? hi k).trans ho
  obtain ⟨rv, hrv, -⟩ := h.shaped.result i inst hi
  obtain ⟨kv, hkv⟩ := h.agrees.exists_value ho'
  have hrun := h.agrees.replaceAllUses_eq (Ne.symm hne) hrv hkv
  simp only [Module.foldInst, survivingOperand, getInst_eq_ok.2 hi, ok_bind, hk, pure_bind,
    getOperand_eq_ok.2 ho', if_neg hne, hrun]
  rfl

/-- A fold always succeeds.  Either the instruction stays as it is, or its reads go to the operand
it hands on. -/
lemma Intact.foldInst (h : m.Intact) (maxBits : Nat) (hi : m.inst? i = some inst) :
    m.foldInst maxBits i = .ok (m, false) ∨
      ∃ kept, m.Folds maxBits inst kept ∧ kept ≠ inst.result ∧
        m.foldInst maxBits i = .ok (m.redirected inst.result kept, true) := by
  cases hk : m.survivor? inst maxBits with
  | none => exact .inl (foldInst_of_none hi hk)
  | some k =>
    obtain ⟨o, ho, hfolds⟩ := folds_of_survivor? hk
    by_cases hself : o.value = inst.result
    · exact .inl (foldInst_of_self hi hk ho hself)
    · exact .inr ⟨o.value, hfolds, hself, h.foldInst_of_kept hi hk ho hself⟩

end FoldInst

end Module
end SsaFold
