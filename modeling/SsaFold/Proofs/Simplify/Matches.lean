import SsaFold.Proofs.Simplify.Plan

/-!
# No match is missed

An instruction that matches in the original module may read something else by the time it is
visited.  It still matches then, since a renaming spares the constants, though the other position
may survive.  So it goes, or it has come to hand on its own result.  In the second case what it
reads is settled: its operands are constants and its own result, and no later visit redirects these.
-/

namespace SsaFold

variable {m : Module} {maxBits : Nat}

/-- Among the instructions that are visited from the start, one that matches goes, or hands on its
own result in the end. -/
lemma Plan.mem_gone_or_self (hm : m.Shaped) {ids : List InstId} (hnodup : ids.Nodup) {i : InstId}
    {inst : Inst} (hi : m.inst? i = some inst) (hmem : i ∈ ids) {kept : ValueId}
    (hfolds : m.Folds maxBits inst kept) :
    i ∈ (visits m maxBits {} ids).gone ∨
      m.kept? maxBits (inst.rename (visits m maxBits {} ids).rename) = some inst.result := by
  obtain ⟨before, after, rfl⟩ := List.append_of_mem hmem
  obtain ⟨p, hp⟩ : ∃ p, p = visits m maxBits {} before := ⟨_, rfl⟩
  have hconst : ∀ v n, m.isConstant v n maxBits = true → p.rename v = v := fun v n hv =>
    hp ▸ rename_start (hm.isConstant_not_mem hv before)
  rw [visits_append, visits_cons, ← hp]
  obtain ⟨now, hnow⟩ := (hfolds.rename hconst).exists_kept?
  by_cases hself : now = inst.result
  · subst hself
    right
    have hafter : i ∉ after := (List.nodup_cons.1 (List.nodup_append.1 hnodup).2.1).1
    rw [visit_of_self hi hnow, ← hnow]
    refine congrArg _ (inst.rename_congr fun v hv => rename_visits fun hmem => ?_)
    have hv' : p.rename v ∈ (inst.rename p.rename).operandValues := by
      rw [Inst.operandValues_rename]
      exact List.mem_map_of_mem hv
    -- What is read now is the result itself, or a constant.
    rcases (Module.folds_of_kept? hnow).eq_or_isConstant hv' with hresult | ⟨n, hvn⟩
    · exact hafter ((hm.result_mem_resultsOf hi).1 (hresult ▸ hmem))
    · exact hm.isConstant_not_mem hvn after hmem
  · left
    refine gone_visits_of_mem ?_
    rw [visit_of_kept hi hnow hself]
    exact List.mem_append_right _ (List.mem_singleton_self i)

lemma Module.survivingOperand_eq_ok {i : InstId} {r : Option Nat} :
    m.survivingOperand i maxBits = .ok r ↔
      ∃ inst, m.inst? i = some inst ∧ m.survivor? inst maxBits = r := by
  simp [survivingOperand]

/-- Every placed instruction that matches in a reachable module is erased by a run, or it is still
there and the operand that survives is its own result. -/
theorem Reachable.simplify_misses_no_match {m : Module} (h : Reachable m) (maxBits : Nat) :
    ∃ m' stats, m.simplify ⟨maxBits, false⟩ = .ok (m', stats) ∧
      ∀ i ∈ m.placedInsts, ∀ k, m.survivingOperand i maxBits = .ok (some k) →
        m'.inst? i = none ∨ ∃ inst' k', m'.inst? i = some inst' ∧
          m'.survivingOperand i maxBits = .ok (some k') ∧
          inst'.operandValues[k']? = some inst'.result := by
  have hm := h.intact.shaped
  obtain ⟨m', n, hrun, hbare⟩ := h.intact.simplify_plan maxBits
  refine ⟨m', _, hrun, fun i hi k hk => ?_⟩
  obtain ⟨inst, hinst, hk⟩ := Module.survivingOperand_eq_ok.1 hk
  obtain ⟨o, -, hfolds⟩ := Module.folds_of_survivor? hk
  by_cases hgone : i ∈ (m.plan maxBits).gone
  · exact .inl (Module.inst?_eq_none_of_residue hbare hgone)
  · have hself := (Plan.mem_gone_or_self hm hm.nodup_placedInsts hinst hi hfolds).resolve_left hgone
    obtain ⟨k', hk', hresult⟩ := Module.kept?_eq_some.1 hself
    obtain ⟨inst', hinst', heq⟩ := Module.inst?_residue_of_not_mem hbare hinst hgone
    refine .inr ⟨inst', k', hinst', Module.survivingOperand_eq_ok.2 ⟨inst', hinst', ?_⟩, ?_⟩
    · exact (Module.survivor?_of_residue hbare heq).trans hk'
    · rw [Inst.operandValues_eq_of_bare heq, Inst.result_eq_of_bare heq, Inst.result_rename]
      exact hresult

/-- In the knot, `b` goes, and `c` comes to read itself. -/
theorem simplify_misses_no_match_knot : ∃ m m' stats, Op.runAll (.empty "knot") knot = .ok m ∧
    m.simplify ⟨32, false⟩ = .ok (m', stats) ∧ m.survivingOperand ⟨2⟩ 32 = .ok (some 0) ∧
    m'.inst? ⟨1⟩ = none ∧ ∃ inst' k', m'.inst? ⟨2⟩ = some inst' ∧
      m'.survivingOperand ⟨2⟩ 32 = .ok (some k') ∧
      inst'.operandValues[k']? = some inst'.result := by
  have hruns : (Op.runAll (.empty "knot") knot).toOption.map (fun m =>
      (m.placedInsts, m.survivingOperand ⟨2⟩ 32,
        (m.simplify ⟨32, false⟩).toOption.map fun r => ((r.1.inst? ⟨1⟩), (r.1.inst? ⟨2⟩).isSome)))
      = some ([⟨0⟩, ⟨1⟩, ⟨2⟩, ⟨3⟩], .ok (some 0), some (none, true)) := by decide +kernel
  obtain ⟨m, -, hrun, -⟩ := knot_runs
  obtain ⟨m', stats, hsimplify, hmatches⟩ :=
    Reachable.simplify_misses_no_match ((Reachable.empty "knot").runAll hrun) 32
  simp only [hrun, hsimplify, Except.toOption, Option.map_some, Option.some.injEq,
    Prod.mk.injEq] at hruns
  obtain ⟨hplaced, hmatch, hgone, hlive⟩ := hruns
  refine ⟨m, m', stats, hrun, hsimplify, hmatch, hgone, ?_⟩
  refine (hmatches ⟨2⟩ (by simp [hplaced]) 0 hmatch).resolve_left fun hnone => ?_
  simp [hnone] at hlive

end SsaFold
