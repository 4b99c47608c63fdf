import SsaFold.Proofs.Module.Erasing

/-!
# Use lists after an erasure

An erasure removes the reads of an instruction, one operand after the other, and each removal lets
the last entry of a use list take the free position.  What becomes of a use list can be told without
the positions that operands remember: it depends on the use list as it was and on what the
instruction reads (`Module.Agrees.usesOf_eraseInst`).  So the use lists of values that an
instruction does not read stay as they are.
-/

namespace SsaFold

/-- The use list without the read at `u`; the last entry takes its position. -/
def dropRead (uses : Array Use) (u : Use) : Array Use := swapRemove uses (uses.toList.idxOf u)

/-- The use list of `v` without the reads of an instruction that reads the values `vs`. -/
def dropReads (i : InstId) (vs : List ValueId) (v : ValueId) (uses : Array Use) : Array Use :=
  (List.range vs.length).foldl
    (fun uses k => if vs[k]? = some v then dropRead uses ⟨i, k⟩ else uses) uses

/-- The use list of a value that is not read stays. -/
lemma dropReads_of_not_mem {i : InstId} {vs : List ValueId} {v : ValueId} (hv : v ∉ vs)
    (uses : Array Use) : dropReads i vs v uses = uses := by
  have hne : ∀ k, vs[k]? ≠ some v := fun k hk => hv (List.mem_of_getElem? hk)
  simp only [dropReads, hne, if_false]
  exact List.foldl_fixed _

namespace Module

variable {m m' : Module} {i : InstId} {inst : Inst}

/-- Removing a read takes it out of the use list of the value that was read. -/
lemma AgreesOff.usesOf_removeUse {D : Use → Prop} (h : m.AgreesOff D) {u : Use} {o : Operand}
    (hD : ¬ D u) (ho : m.operand? u = some o) (hrun : m.removeUse o.value u = .ok m')
    (v : ValueId) : m'.usesOf v = if o.value = v then dropRead (m.usesOf v) u else m.usesOf v := by
  split_ifs with hv
  · subst hv
    simp only [Module.removeUse, bind_eq_ok, getOperand_eq_ok, getValue_eq_ok] at hrun
    obtain ⟨o', ho', value, hvalue, hrun⟩ := hrun
    obtain rfl := Option.some.inj (ho.symm.trans ho')
    -- No other position of the use list holds the read.
    have hslot : value.uses.toList.idxOf u = o.slot := by
      have hmem : u ∈ value.uses.toList :=
        Array.mem_toList_iff.2 (Array.mem_of_getElem? ((h.getElem?_uses hvalue).2 ⟨hD, ho⟩))
      have hidx : value.uses[value.uses.toList.idxOf u]? = some u := by
        rw [← Array.getElem?_toList, List.getElem?_idxOf hmem]
      have hop := ((h.getElem?_uses hvalue).1 hidx).2
      exact (congrArg Operand.slot (Option.some.inj (ho.symm.trans hop))).symm
    have huses : (m.modifyValue o.value fun x =>
        { x with uses := swapRemove value.uses o.slot }).usesOf o.value
          = dropRead (m.usesOf o.value) u := by
      rw [usesOf, value?_modifyValue, if_pos rfl, hvalue, usesOf_eq hvalue, dropRead, hslot]
      rfl
    split_ifs at hrun
    · split at hrun
      · rw [setOperandAt_eq_ok hrun]
        exact huses
      · obtain rfl := pure_eq_ok.1 hrun
        exact huses
    · simp at hrun
  · exact Module.usesOf_removeUse hrun (Ne.symm hv)

/-- Detaching an instruction takes its reads out of the use lists. -/
lemma Agrees.usesOf_detach (h : m.Agrees) (hi : m.inst? i = some inst) {b : BlockId}
    (hrun : m.detach i = .ok (m', b)) (v : ValueId) :
    m'.usesOf v = dropReads i inst.operandValues v (m.usesOf v) := by
  have hop : ∀ k, m.operand? ⟨i, k⟩ = inst.operands[k]? := operand?_of_inst? hi
  simp only [Module.detach, bind_eq_ok, getInst_eq_ok, pure_eq_ok, Prod.mk.injEq] at hrun
  obtain ⟨inst', hi', m₂, hloop, rfl, -⟩ := hrun
  obtain rfl := Option.some.inj (hi.symm.trans hi')
  -- After `k` steps the reads by the first `k` operands have left the use lists.
  obtain ⟨m₁, hrun₁, -, -, huses⟩ := foldlM_range_ok
    (P := fun k (s : Module) => (s.AgreesOff fun u => u.user = i ∧ u.operand < k) ∧
      s.bare = m.bare ∧ ∀ v, s.usesOf v = (List.range k).foldl
        (fun uses j => if inst.operandValues[j]? = some v then dropRead uses ⟨i, j⟩ else uses)
        (m.usesOf v))
    (f := fun (s : Module) k => do
      let operand ← s.getOperand ⟨i, k⟩
      s.removeUse operand.value ⟨i, k⟩)
    inst.operands.size
    (by
      rintro k s hk ⟨hs, hbare, huses⟩
      have hk' := Array.getElem?_eq_getElem hk
      obtain ⟨o, ho, hvalue⟩ := operand?_of_bare_eq hbare (hop k ▸ hk')
      obtain ⟨t, hrun, ht, hbare'⟩ := hs.removeUse o.value o.slot (by simp) ho
      refine ⟨t, by simp [getOperand_eq_ok.2 ho, hrun], ?_, hbare'.trans hbare, fun v => ?_⟩
      · refine Records.congr ht fun u o => ?_
        rcases u with ⟨j, n⟩
        simp only [Use.mk.injEq, Nat.lt_succ_iff_lt_or_eq]
        tauto
      · have hread : inst.operandValues[k]? = some o.value := by
          simp [Inst.operandValues, hk', hvalue]
        rw [hs.usesOf_removeUse (by simp) ho hrun, huses, List.range_succ, List.foldl_append,
          List.foldl_cons, List.foldl_nil, hread]
        simp only [Option.some.injEq])
    m ⟨by simpa using agreesOff_false.2 h, rfl, fun v => rfl⟩
  obtain rfl : m₂ = m₁ := Except.ok.inj (hloop.symm.trans hrun₁)
  show m₂.usesOf v = _
  rw [huses, dropReads, Inst.operandValues, List.length_map, Array.length_toList]

/-- Erasing an instruction takes its reads out of the use lists. -/
lemma Agrees.usesOf_eraseInst (h : m.Agrees) (hi : m.inst? i = some inst)
    (hrun : m.eraseInst i = .ok m') (v : ValueId) :
    m'.usesOf v = dropReads i inst.operandValues v (m.usesOf v) := by
  simp only [Module.eraseInst, bind_eq_ok] at hrun
  obtain ⟨-, -, ⟨m₁, b⟩, hdetach, hfilter⟩ := hrun
  rw [← h.usesOf_detach hi hdetach]
  obtain ⟨-, rfl⟩ := filterBlock_eq_ok.1 hfilter
  rfl

end Module
end SsaFold
