import SsaFold.Proofs.Mirror.Pairing
import SsaFold.Proofs.Simplify.Sweep

/-!
# Runs that mirror each other

On intact modules that mirror each other the simplifier does the same, one instruction after the
other: the same operand survives (`Pairing.Mirrors.survivor?`), it is the result itself in both
modules or in neither (`Pairing.Mirrors.eq_iff`), and so the reads of paired results go to paired
values and paired instructions wait for their erasure.  The runs end alike
(`Pairing.Alike.simplify`), whatever the order in which the reads of a value are recorded.
-/

namespace SsaFold

namespace Pairing

open SsaFold.Module (getInst_eq_ok getBlock_eq_ok getFunc_eq_ok)

variable {R : Pairing} {m n m' n' : Module} {maxBits : Nat}

/-- The modules are intact and mirror each other. -/
structure Alike (R : Pairing) (m n : Module) : Prop where
  mirrors : R.Mirrors m n
  left : m.Intact
  right : n.Intact

/-! ## One instruction -/

section FoldInst

variable {i j : InstId} {inst inst' : Inst}

/-- Of paired instructions the same operand survives. -/
lemma Mirrors.survivor? (h : R.Mirrors m n) (hpair : R.PairsInst inst inst') (maxBits : Nat) :
    n.survivor? inst' maxBits = m.survivor? inst maxBits := by
  have hoperands := hpair.operands
  rw [Module.survivor?, Module.survivor?, hpair.opcode]
  generalize inst.operandValues = vs at hoperands
  generalize inst'.operandValues = ws at hoperands
  cases inst.opcode.identity? with
  | none => rfl
  | some k =>
    rcases hoperands with _ | ⟨hlhs, _ | ⟨hrhs, _ | _⟩⟩
    · rfl
    · rfl
    · simp only [h.isConstant hlhs, h.isConstant hrhs]
    · rfl

lemma rel_operands (h : R.PairsInst inst inst') {k : Nat} {o o' : Operand}
    (ho : inst.operands[k]? = some o) (ho' : inst'.operands[k]? = some o') :
    R.value o.value o'.value := by
  have hvalue : inst.operandValues[k]? = some o.value := by simp [Inst.operandValues, ho]
  have hvalue' : inst'.operandValues[k]? = some o'.value := by simp [Inst.operandValues, ho']
  obtain ⟨hnone, -⟩ | ⟨v, w, hv, hw, hvw⟩ := rel_iff.1 (rel_getElem? h.operands k)
  · rw [hvalue] at hnone
    cases hnone
  · obtain rfl := Option.some.inj (hvalue.symm.trans hv)
    obtain rfl := Option.some.inj (hvalue'.symm.trans hw)
    exact hvw

/-- Redirections of the reads of paired results to paired values send paired values to paired
values. -/
lemma Mirrors.redirection (h : R.Mirrors m n) {r s kept kept' : ValueId} (hresult : R.own r s)
    (hkept : R.value kept kept') {v w : ValueId} (hvw : R.value v w) :
    R.value (Module.redirection r kept v) (Module.redirection s kept' w) := by
  rw [Module.redirection, Module.redirection]
  by_cases hv : v = r
  · rwa [if_pos hv, if_pos ((h.eq_iff hvw hresult).1 hv)]
  · rwa [if_neg hv, if_neg (mt (h.eq_iff hvw hresult).2 hv)]

/-- Paired instructions are both folded, or neither is. -/
lemma Alike.foldInst (h : R.Alike m n) (hij : R.inst i j) {folded folded' : Bool}
    (hrun : m.foldInst maxBits i = .ok (m', folded))
    (hrun' : n.foldInst maxBits j = .ok (n', folded')) : folded = folded' ∧ R.Alike m' n' := by
  obtain ⟨inst, hi⟩ : ∃ inst, m.inst? i = some inst := by
    simp only [Module.foldInst, Module.survivingOperand, bind_eq_ok, getInst_eq_ok] at hrun
    obtain ⟨-, ⟨inst, hi, -⟩, -⟩ := hrun
    exact ⟨inst, hi⟩
  obtain ⟨hnone, -⟩ | ⟨_, inst', hi₁, hj, hpair⟩ := rel_iff.1 (h.mirrors.insts hij)
  · rw [hi] at hnone
    cases hnone
  obtain rfl := Option.some.inj (hi.symm.trans hi₁)
  have hsame := h.mirrors.survivor? hpair maxBits
  cases hk : m.survivor? inst maxBits with
  | none =>
    obtain ⟨rfl, rfl⟩ :=
      Prod.mk.inj (Except.ok.inj (hrun.symm.trans (Module.foldInst_of_none hi hk)))
    obtain ⟨rfl, rfl⟩ := Prod.mk.inj (Except.ok.inj
      (hrun'.symm.trans (Module.foldInst_of_none hj (hsame.trans hk))))
    exact ⟨rfl, h⟩
  | some k =>
    obtain ⟨o, ho, hfolds⟩ := Module.folds_of_survivor? hk
    obtain ⟨o', ho', hfolds'⟩ := Module.folds_of_survivor? (hsame.trans hk)
    have hkept := rel_operands hpair ho ho'
    have hself := h.mirrors.eq_iff hkept hpair.result
    -- What survives can be the result itself: then neither module changes.
    by_cases heq : o.value = inst.result
    · obtain ⟨rfl, rfl⟩ := Prod.mk.inj (Except.ok.inj
        (hrun.symm.trans (Module.foldInst_of_self hi hk ho heq)))
      obtain ⟨rfl, rfl⟩ := Prod.mk.inj (Except.ok.inj
        (hrun'.symm.trans (Module.foldInst_of_self hj (hsame.trans hk) ho' (hself.1 heq))))
      exact ⟨rfl, h⟩
    · have hne := mt hself.2 heq
      obtain ⟨rfl, rfl⟩ := Prod.mk.inj (Except.ok.inj
        (hrun.symm.trans (h.left.foldInst_of_kept hi hk ho heq)))
      obtain ⟨rfl, rfl⟩ := Prod.mk.inj (Except.ok.inj
        (hrun'.symm.trans (h.right.foldInst_of_kept hj (hsame.trans hk) ho' hne)))
      refine ⟨rfl, ?_, Sweep.intact_redirected h.left hi hfolds.kept_mem heq,
        Sweep.intact_redirected h.right hj hfolds'.kept_mem hne⟩
      exact h.mirrors.residue (Module.bare_redirected _ _ _) (Module.bare_redirected _ _ _)
        (h.mirrors.redirection hpair.result hkept) (fun _ => by simp)

end FoldInst

/-! ## Loops -/

/-- Paired instructions wait, in the same order. -/
lemma Alike.scan (h : R.Alike m n) {ids jds : List InstId} (hids : List.Forall₂ R.inst ids jds)
    {queued queued' : List InstId} (hrun : m.scan maxBits ids = .ok (m', queued))
    (hrun' : n.scan maxBits jds = .ok (n', queued')) :
    List.Forall₂ R.inst queued queued' ∧ R.Alike m' n' := by
  induction hids generalizing m n queued queued' with
  | nil =>
    obtain ⟨rfl, rfl⟩ := Prod.mk.inj (Except.ok.inj hrun)
    obtain ⟨rfl, rfl⟩ := Prod.mk.inj (Except.ok.inj hrun')
    exact ⟨.nil, h⟩
  | cons hij _ ih =>
    simp only [Module.scan, bind_eq_ok, pure_eq_ok, Prod.mk.injEq] at hrun hrun'
    obtain ⟨⟨m₁, folded⟩, hfold, ⟨m₂, later⟩, hscan, rfl, rfl⟩ := hrun
    obtain ⟨⟨n₁, folded'⟩, hfold', ⟨n₂, later'⟩, hscan', rfl, rfl⟩ := hrun'
    obtain ⟨rfl, h₁⟩ := h.foldInst hij hfold hfold'
    obtain ⟨hlater, h₂⟩ := ih h₁ hscan hscan'
    refine ⟨?_, h₂⟩
    cases folded with
    | true => exact .cons hij hlater
    | false => exact hlater

lemma Alike.simplifyBlock (h : R.Alike m n) {b c : BlockId} (hbc : R.block b c) {k k' : Nat}
    (hrun : m.simplifyBlock maxBits b = .ok (m', k))
    (hrun' : n.simplifyBlock maxBits c = .ok (n', k')) : k = k' ∧ R.Alike m' n' := by
  obtain ⟨block, block', hb, hc, hpair⟩ := h.mirrors.blocks hbc
  simp only [Module.simplifyBlock, getBlock_eq_ok.2 hb, getBlock_eq_ok.2 hc, ok_bind, bind_eq_ok,
    pure_eq_ok, Prod.mk.injEq] at hrun hrun'
  obtain ⟨⟨m₁, queued⟩, hscan, m₂, herase, rfl, rfl⟩ := hrun
  obtain ⟨⟨n₁, queued'⟩, hscan', n₂, herase', rfl, rfl⟩ := hrun'
  obtain ⟨hqueued, h₁⟩ := h.scan hpair.insts hscan hscan'
  -- Erasing renames nothing, and what is erased is paired.
  obtain ⟨-, hm, hbare⟩ := h₁.left.eraseInsts_eq_ok herase
  obtain ⟨-, hn, hbare'⟩ := h₁.right.eraseInsts_eq_ok herase'
  exact ⟨hqueued.length_eq, h₁.mirrors.residue hbare hbare' id
    (mem_iff_of_forall₂ R.inst_biUnique hqueued), hm, hn⟩

lemma Alike.simplifyBlocks (h : R.Alike m n) {bs cs : List BlockId}
    (hbs : List.Forall₂ R.block bs cs) {k k' : Nat}
    (hrun : m.simplifyBlocks maxBits bs = .ok (m', k))
    (hrun' : n.simplifyBlocks maxBits cs = .ok (n', k')) : k = k' ∧ R.Alike m' n' := by
  induction hbs generalizing m n k k' with
  | nil =>
    obtain ⟨rfl, rfl⟩ := Prod.mk.inj (Except.ok.inj hrun)
    obtain ⟨rfl, rfl⟩ := Prod.mk.inj (Except.ok.inj hrun')
    exact ⟨rfl, h⟩
  | cons hbc _ ih =>
    simp only [Module.simplifyBlocks, bind_eq_ok, pure_eq_ok, Prod.mk.injEq] at hrun hrun'
    obtain ⟨⟨m₁, here⟩, hblock, ⟨m₂, later⟩, hrest, rfl, rfl⟩ := hrun
    obtain ⟨⟨n₁, here'⟩, hblock', ⟨n₂, later'⟩, hrest', rfl, rfl⟩ := hrun'
    obtain ⟨rfl, h₁⟩ := h.simplifyBlock hbc hblock hblock'
    obtain ⟨rfl, h₂⟩ := ih h₁ hrest hrest'
    exact ⟨rfl, h₂⟩

lemma Alike.eliminateAll (h : R.Alike m n) {fs : List FuncId} {stats stats' : Stats}
    (hrun : m.eliminateAll maxBits fs = .ok (m', stats))
    (hrun' : n.eliminateAll maxBits fs = .ok (n', stats')) : stats = stats' ∧ R.Alike m' n' := by
  induction fs generalizing m n stats stats' with
  | nil =>
    obtain ⟨rfl, rfl⟩ := Prod.mk.inj (Except.ok.inj hrun)
    obtain ⟨rfl, rfl⟩ := Prod.mk.inj (Except.ok.inj hrun')
    exact ⟨rfl, h⟩
  | cons f rest ih =>
    rw [Module.eliminateAll, bind_eq_ok] at hrun hrun'
    obtain ⟨func, hf, hrun⟩ := hrun
    obtain ⟨func', hf', hrun'⟩ := hrun'
    have hpair := h.mirrors.func? f
    rw [getFunc_eq_ok.1 hf, getFunc_eq_ok.1 hf'] at hpair
    obtain ⟨hpair⟩ := hpair
    rw [hpair.isDeclaration] at hrun'
    split_ifs at hrun hrun' with hdecl
    · exact ih h hrun hrun'
    · simp only [Module.eliminate, hf, hf', ok_bind, bind_eq_ok, pure_eq_ok, Prod.mk.injEq]
        at hrun hrun'
      obtain ⟨⟨m₁, here⟩, hblocks, ⟨m₂, later⟩, hrest, rfl, rfl⟩ := hrun
      obtain ⟨⟨n₁, here'⟩, hblocks', ⟨n₂, later'⟩, hrest', rfl, rfl⟩ := hrun'
      obtain ⟨rfl, h₁⟩ := h.simplifyBlocks hpair.layout hblocks hblocks'
      obtain ⟨rfl, h₂⟩ := ih h₁ hrest hrest'
      exact ⟨rfl, h₂⟩

lemma Mirrors.funcIds (h : R.Mirrors m n) : n.funcIds = m.funcIds := by
  have := h.funcs.length_eq
  rw [Array.length_toList, Array.length_toList] at this
  rw [Module.funcIds, Module.funcIds, this]

/-- Runs on modules that mirror each other have the same statistics, and end with modules that
mirror each other. -/
theorem Alike.simplify (h : R.Alike m n) (maxBits : Nat) : ∃ m' n' stats,
    m.simplify ⟨maxBits, false⟩ = .ok (m', stats) ∧ n.simplify ⟨maxBits, false⟩ = .ok (n', stats) ∧
      R.Alike m' n' := by
  have hok : ∀ {m : Module}, m.Intact →
      ∃ m' stats, m.simplify ⟨maxBits, false⟩ = .ok (m', stats) := by
    intro m hm
    obtain ⟨m', gone, hrun, -⟩ := hm.simplify_steps maxBits
    exact ⟨m', _, hrun⟩
  obtain ⟨m', stats, hrun⟩ := hok h.left
  obtain ⟨n', stats', hrun'⟩ := hok h.right
  have hall := Module.simplify_unverified.1 hrun'
  rw [h.mirrors.funcIds] at hall
  obtain ⟨rfl, h'⟩ := h.eliminateAll (Module.simplify_unverified.1 hrun) hall
  exact ⟨m', n', stats, hrun, hrun', h'⟩

end Pairing

end SsaFold
