import Mathlib.Data.List.Infix
import SsaFold.Proofs.Module.Erasing
import SsaFold.Proofs.Simplify.Plan
import SsaFold.Proofs.Simplify.Verification

/-!
# One sweep suffices

A fold can make a match of an instruction that has been visited already, if that instruction reads
the result of the folded one.  Where no addition or multiplication reads ahead, to a result that is
placed at or after it, this does not happen.  `Plan.Settled` is the invariant: whatever is not a
result still to come is not renamed to one.  So when an instruction is visited, what it reads by
then is settled, and either the instruction goes or it does not match in the end.  Phis and the like
may read ahead all the same.

A run over a module without a match changes nothing at all (`Module.NoMatch.simplify`).
-/

namespace SsaFold

namespace Module

variable {m m' : Module} {maxBits : Nat}

/-- Some placed addition or multiplication reads its own result, or that of an instruction placed
after it. -/
def ReadsAhead (m : Module) : Prop :=
  ∃ before i after inst, m.placedInsts = before ++ i :: after ∧ m.inst? i = some inst ∧
    (inst.opcode = .binary .add ∨ inst.opcode = .binary .mul) ∧
    ∃ v ∈ inst.operandValues, v ∈ m.resultsOf (i :: after)

lemma readsAhead_iff : m.ReadsAhead ↔ ∃ ids ∈ m.placedInsts.tails, ∃ i ∈ ids.head?,
    ∃ inst ∈ m.inst? i, (inst.opcode = .binary .add ∨ inst.opcode = .binary .mul) ∧
      ∃ v ∈ inst.operandValues, v ∈ m.resultsOf ids := by
  simp only [ReadsAhead, List.mem_tails, Option.mem_def]
  constructor
  · rintro ⟨before, i, after, inst, hplaced, hi, hop, hread⟩
    exact ⟨i :: after, ⟨before, hplaced.symm⟩, i, rfl, inst, hi, hop, hread⟩
  · rintro ⟨ids, ⟨before, hplaced⟩, i, hhead, inst, hi, hop, hread⟩
    obtain ⟨after, rfl⟩ := List.head?_eq_some_iff.1 hhead
    exact ⟨before, i, after, inst, hplaced.symm, hi, hop, hread⟩

instance : Decidable m.ReadsAhead := decidable_of_iff _ readsAhead_iff.symm

end Module

/-! ## What is settled -/

namespace Plan

variable {m : Module} {maxBits : Nat} {p : Plan} {i : InstId} {rest : List InstId}

/-- Of the results still to come, none has been renamed, and none is read in place of another
value. -/
structure Settled (m : Module) (rest : List InstId) (p : Plan) : Prop where
  fresh : ∀ v ∈ m.resultsOf rest, p.rename v = v
  behind : ∀ v, v ∉ m.resultsOf rest → p.rename v ∉ m.resultsOf rest

lemma settled_start (m : Module) (rest : List InstId) : Settled m rest {} :=
  ⟨fun _ _ => rfl, fun _ hv => hv⟩

/-- What an identity operation hands on is settled if it reads nothing ahead. -/
lemma Settled.kept_not_mem (h : Settled m rest p) {inst : Inst} {kept : ValueId}
    (hkept : m.kept? maxBits (inst.rename p.rename) = some kept)
    (hreads : ∀ v ∈ inst.operandValues, v ∉ m.resultsOf rest) : kept ∉ m.resultsOf rest := by
  have hmem := (Module.folds_of_kept? hkept).kept_mem
  rw [Inst.operandValues_rename] at hmem
  obtain ⟨v, hv, rfl⟩ := List.mem_map.1 hmem
  exact h.behind v (hreads v hv)

/-- What is settled stays so when less is still to come. -/
lemma Settled.tail (h : Settled m (i :: rest) p) : Settled m rest p := by
  have hsub : ∀ v, v ∈ m.resultsOf rest → v ∈ m.resultsOf (i :: rest) := by
    intro v hv
    rw [Module.mem_resultsOf] at hv ⊢
    obtain ⟨j, hj, hresult⟩ := hv
    exact ⟨j, List.mem_cons_of_mem i hj, hresult⟩
  refine ⟨fun v hv => h.fresh v (hsub v hv), fun v hv hmem => ?_⟩
  by_cases hahead : v ∈ m.resultsOf (i :: rest)
  · rw [h.fresh v hahead] at hmem
    exact hv hmem
  · exact h.behind v hahead (hsub _ hmem)

/-- A visit keeps things settled, unless the instruction matches and reads ahead. -/
lemma Settled.visit (h : Settled m (i :: rest) p) (hm : m.Shaped) (hnew : i ∉ rest)
    (hreads : ∀ inst kept, m.inst? i = some inst →
      m.kept? maxBits (inst.rename p.rename) = some kept →
      ∀ v ∈ inst.operandValues, v ∉ m.resultsOf (i :: rest)) :
    Settled m rest (p.visit m maxBits i) := by
  rcases visit_cases m maxBits p i with hp | ⟨inst, kept, hi, hkept, -, hp⟩
  · rw [hp]
    exact h.tail
  · have hrename : ∀ v, (p.visit m maxBits i).rename v
        = if p.rename v = inst.result then kept else p.rename v := fun v => by rw [hp]; rfl
    have hahead : kept ∉ m.resultsOf (i :: rest) := h.kept_not_mem hkept (hreads inst kept hi hkept)
    rw [Module.resultsOf_cons hi, List.mem_cons, not_or] at hahead
    refine ⟨fun v hv => ?_, fun v hv => ?_⟩
    · have hne : v ≠ inst.result := by
        rintro rfl
        exact hnew ((hm.result_mem_resultsOf hi).1 hv)
      rw [hrename, h.tail.fresh v hv, if_neg hne]
    · rw [hrename]
      split_ifs
      · exact hahead.2
      · exact h.tail.behind v hv

/-- Visiting instructions none of which reads ahead where it matches keeps things settled. -/
lemma Settled.visits (hm : m.Shaped) {seen : List InstId} (h : Settled m (seen ++ rest) p)
    (hnodup : (seen ++ rest).Nodup)
    (hreads : ∀ before i after inst, seen = before ++ i :: after → m.inst? i = some inst →
      (inst.opcode = .binary .add ∨ inst.opcode = .binary .mul) →
      ∀ v ∈ inst.operandValues, v ∉ m.resultsOf (i :: (after ++ rest))) :
    Settled m rest (p.visits m maxBits seen) := by
  induction seen generalizing p with
  | nil => exact h
  | cons i seen ih =>
    obtain ⟨hnew, hnodup'⟩ := List.nodup_cons.1 hnodup
    refine ih (h.visit hm hnew fun inst kept hi hkept => ?_) hnodup'
      fun before j after inst heq => ?_
    · exact hreads [] i seen inst rfl hi (Module.folds_of_kept? hkept).arithmetic
    · exact hreads (i :: before) j after inst (by rw [heq, List.cons_append])

end Plan

namespace Module

variable {m m' : Module} {maxBits : Nat}

/-- If nothing is read ahead, then an instruction that does not go does not match in the end. -/
lemma Shaped.kept?_plan_eq_none (hm : m.Shaped) (hahead : ¬ m.ReadsAhead) {i : InstId} {inst : Inst}
    (hi : m.inst? i = some inst) (hmem : i ∈ m.placedInsts) (hlive : i ∉ (m.plan maxBits).gone) :
    m.kept? maxBits (inst.rename (m.plan maxBits).rename) = none := by
  have hreads : ∀ before j after instj, m.placedInsts = before ++ j :: after →
      m.inst? j = some instj → (instj.opcode = .binary .add ∨ instj.opcode = .binary .mul) →
      ∀ v ∈ instj.operandValues, v ∉ m.resultsOf (j :: after) :=
    fun before j after instj heq hj hop v hv hread =>
      hahead ⟨before, j, after, instj, heq, hj, hop, v, hv, hread⟩
  obtain ⟨before, after, hplaced⟩ := List.append_of_mem hmem
  obtain ⟨p, hp⟩ : ∃ p, p = Plan.visits m maxBits {} before := ⟨_, rfl⟩
  have hplan : m.plan maxBits = p.visits m maxBits (i :: after) := by
    rw [plan, hplaced, Plan.visits_append, hp]
  have hsettled : p.Settled m (i :: after) := by
    rw [hp]
    refine (Plan.settled_start m _).visits hm (hplaced ▸ hm.nodup_placedInsts)
      fun before' j after' instj heq => hreads before' j (after' ++ i :: after) instj ?_
    rw [hplaced, heq, List.append_assoc, List.cons_append]
  cases hkept : m.kept? maxBits (inst.rename (m.plan maxBits).rename) with
  | none => rfl
  | some kept =>
    exfalso
    have hbehind := hreads before i after inst hplaced hi (folds_of_kept? hkept).arithmetic
    -- What the instruction reads in the end is what it has read when it was visited.
    have hsame : inst.rename (m.plan maxBits).rename = inst.rename p.rename := by
      refine inst.rename_congr fun v hv => ?_
      rw [hplan, Plan.rename_visits (hsettled.behind v (hbehind v hv))]
    rw [hsame] at hkept
    have hne : kept ≠ inst.result := by
      rintro rfl
      exact hsettled.kept_not_mem hkept hbehind
        ((hm.result_mem_resultsOf hi).2 List.mem_cons_self)
    refine hlive ?_
    rw [hplan, Plan.visits_cons, Plan.visit_of_kept hi hkept hne]
    exact Plan.gone_visits_of_mem (List.mem_append_right _ (List.mem_singleton_self i))

/-! ## A run without a match -/

/-- No placed instruction matches. -/
def NoMatch (m : Module) (maxBits : Nat) : Prop :=
  ∀ i ∈ m.placedInsts, ∀ inst, m.inst? i = some inst → m.survivor? inst maxBits = none

/-- If nothing is read ahead, nothing matches after a run. -/
lemma Intact.noMatch_of_plan (h : m.Intact) (hahead : ¬ m.ReadsAhead)
    (hbare : m'.bare = m.bare.residue (m.plan maxBits).rename (m.plan maxBits).gone) :
    m'.NoMatch maxBits := by
  intro i hi inst' hi'
  rw [placedInsts_of_residue hbare, List.mem_filter] at hi
  obtain ⟨hgone, inst, hinst, heq⟩ := inst?_of_residue hbare hi'
  have hnone := h.shaped.kept?_plan_eq_none hahead hinst hi.1 hgone
  rw [survivor?_of_residue hbare heq]
  cases hk : m.survivor? (inst.rename (m.plan maxBits).rename) maxBits with
  | none => rfl
  | some k =>
    obtain ⟨v, hv⟩ := exists_kept? hk
    rw [hnone] at hv
    cases hv

/-- A scan over instructions that do not match changes nothing. -/
lemma scan_eq_self {ids : List InstId}
    (h : ∀ i ∈ ids, ∃ inst, m.inst? i = some inst ∧ m.survivor? inst maxBits = none) :
    m.scan maxBits ids = .ok (m, []) := by
  induction ids with
  | nil => rfl
  | cons i rest ih =>
    obtain ⟨⟨inst, hi, hk⟩, hrest⟩ := List.forall_mem_cons.1 h
    simp only [scan, foldInst_of_none hi hk, ok_bind, ih hrest]
    rfl

lemma eraseInsts_nil {b : BlockId} {block : Block} (hb : m.block? b = some block) :
    m.eraseInsts b [] = .ok m := by
  have hrun : m.filterBlock b (fun i => !([] : List InstId).contains i) = .ok (m.dropFrom b []) :=
    filterBlock_eq_ok.2 ⟨⟨block, hb⟩, rfl⟩
  rw [dropFrom_nil] at hrun
  exact hrun

lemma NoMatch.simplifyBlocks (h : m.NoMatch maxBits) (hm : m.Shaped) {bs : List BlockId}
    (hbs : ∀ b ∈ bs, b ∈ m.placedBlocks) : m.simplifyBlocks maxBits bs = .ok (m, 0) := by
  induction bs with
  | nil => rfl
  | cons b rest ih =>
    obtain ⟨hb, hrest⟩ := List.forall_mem_cons.1 hbs
    obtain ⟨block, hblock⟩ := hm.exists_block hb
    have hscan : m.scan maxBits block.insts.toList = .ok (m, []) := by
      refine scan_eq_self fun i hi => ?_
      obtain ⟨inst, hinst, hparent⟩ := hm.exists_inst hblock i hi
      exact ⟨inst, hinst, h i (hm.mem_placedInsts.2 ⟨inst, hinst, hparent ▸ hb⟩) inst hinst⟩
    have hrun : m.simplifyBlock maxBits b = .ok (m, 0) := by
      simp only [simplifyBlock, getBlock_eq_ok.2 hblock, ok_bind, hscan, eraseInsts_nil hblock]
      rfl
    simp only [Module.simplifyBlocks, hrun, ok_bind, ih hrest]
    rfl

lemma NoMatch.eliminateAll (h : m.NoMatch maxBits) (hm : m.Shaped) {fs : List FuncId}
    (hfs : ∀ f ∈ fs, ∃ func, m.func? f = some func) :
    m.eliminateAll maxBits fs = .ok (m, ⟨(m.definitions fs).length, 0⟩) := by
  induction fs with
  | nil => rfl
  | cons f rest ih =>
    obtain ⟨⟨func, hf⟩, hrest⟩ := List.forall_mem_cons.1 hfs
    have hplaced : ∀ b ∈ func.layout.toList, b ∈ m.placedBlocks := fun b hb =>
      mem_placedBlocks.2 ⟨f, func, hf, Array.mem_toList_iff.1 hb⟩
    cases hdecl : func.isDeclaration with
    | true => simp [Module.eliminateAll, getFunc_eq_ok.2 hf, hdecl, ih hrest, definitions, hf]
    | false =>
      simp [Module.eliminateAll, Module.eliminate, getFunc_eq_ok.2 hf, hdecl,
        h.simplifyBlocks hm hplaced, ih hrest, definitions, hf, pure, Except.pure]

/-- A run over a module without a match changes nothing. -/
lemma NoMatch.simplify (h : m.NoMatch maxBits) (hm : m.Shaped) :
    m.simplify ⟨maxBits, false⟩ = .ok (m, ⟨(m.definitions m.funcIds).length, 0⟩) :=
  simplify_unverified.2 (h.eliminateAll hm fun _ => mem_funcIds.1)

/-- If nothing is read ahead, a second run without verification changes nothing. -/
lemma Intact.simplify_twice (h : m.Intact) (hahead : ¬ m.ReadsAhead) (maxBits : Nat) :
    ∃ m' stats, m.simplify ⟨maxBits, false⟩ = .ok (m', stats) ∧ m'.Intact ∧
      m'.simplify ⟨maxBits, false⟩ = .ok (m', ⟨stats.functions, 0⟩) := by
  obtain ⟨m', n, hrun, hbare⟩ := h.simplify_plan maxBits
  obtain ⟨m₁, gone, hrun₁, hsteps⟩ := h.simplify_steps maxBits
  obtain ⟨rfl, -⟩ := Prod.mk.inj (Except.ok.inj (hrun.symm.trans hrun₁))
  have hm' := (hsteps.sound (Sweep.sound_start maxBits h [])).intact
  have hdefs : m'.definitions m'.funcIds = m.definitions m.funcIds := by
    simp only [definitions, funcIds, func?, functions_of_residue hbare]
  refine ⟨m', _, hrun, hm', ?_⟩
  rw [(h.noMatch_of_plan hahead hbare).simplify hm'.shaped, hdefs]

/-- A run that is to verify does nothing to a module with a defect. -/
lemma simplify_of_defect {d : Defect} (hd : m.check = .error d) (maxBits : Nat) :
    m.simplify ⟨maxBits, true⟩ = .error (.error (.malformedBefore d)) := by
  simp only [Module.simplify, if_true, checkAs, hd]
  rfl

end Module

/-- If no placed addition or multiplication of a reachable module reads its own result or that of an
instruction placed after it, then a second run with the same options leaves the module as the first
has left it.  Where the first run succeeds, as it does without verification, the second reports the
same number of definitions, and that it has erased nothing. -/
theorem Reachable.one_sweep_suffices {m : Module} (h : Reachable m) (hahead : ¬ m.ReadsAhead)
    (o : Options) :
    ∃ m', m.simplified o = .ok m' ∧ m'.simplified o = .ok m' ∧
      (o.verify = false → ∃ stats, m.simplify o = .ok (m', stats)) ∧
      ∀ m₁ stats, m.simplify o = .ok (m₁, stats) →
        m₁ = m' ∧ m'.simplify o = .ok (m', ⟨stats.functions, 0⟩) := by
  rcases o with ⟨maxBits, verify⟩
  obtain ⟨m', stats, hrun, hm', hagain⟩ := h.intact.simplify_twice hahead maxBits
  have hsame : ∀ {verify stats'}, m.simplify ⟨maxBits, verify⟩ = .ok (m', stats') →
      ∀ m₁ stats₁, m.simplify ⟨maxBits, verify⟩ = .ok (m₁, stats₁) → m₁ = m' ∧ stats₁ = stats' := by
    intro verify stats' hrun' m₁ stats₁ hrun₁
    exact Prod.mk.inj (Except.ok.inj (hrun₁.symm.trans hrun'))
  cases verify with
  | false =>
    refine ⟨m', by simp only [Module.simplified, hrun], by simp only [Module.simplified, hagain],
      fun _ => ⟨stats, hrun⟩, fun m₁ stats₁ hrun₁ => ?_⟩
    obtain ⟨rfl, rfl⟩ := hsame hrun m₁ stats₁ hrun₁
    exact ⟨rfl, hagain⟩
  | true =>
    cases hcheck : m.check with
    | error d =>
      have hrefused := Module.simplify_of_defect hcheck maxBits
      have hstays : m.simplified ⟨maxBits, true⟩ = .ok m := by
        simp only [Module.simplified, hrefused]
      refine ⟨m, hstays, hstays, by simp, fun m₁ stats₁ hrun₁ => ?_⟩
      rw [hrefused] at hrun₁
      cases hrun₁
    | ok _ =>
      obtain ⟨m₂, stats₂, hruns, hcheck'⟩ := h.intact.simplify_verified hcheck maxBits
      obtain ⟨rfl, rfl⟩ := hsame hrun m₂ stats₂ (hruns false)
      obtain ⟨m₃, stats₃, hagains, -⟩ := hm'.simplify_verified hcheck' maxBits
      obtain ⟨rfl, rfl⟩ := Prod.mk.inj (Except.ok.inj ((hagains false).symm.trans hagain))
      refine ⟨m₃, Module.simplified_of_check hcheck hrun true,
        Module.simplified_of_check hcheck' hagain true, by simp, fun m₁ stats₁ hrun₁ => ?_⟩
      obtain ⟨rfl, rfl⟩ := hsame (hruns true) m₁ stats₁ hrun₁
      exact ⟨rfl, hagains true⟩

/-- The sum `a = 1 + 0`, which the product `b = x * a` reads, and before them a phi that reads
`b`. -/
def chain : List Op := [
  .addFunc "f" (.int 32) [.int 32],
  .constInt 32 0,
  .constInt 32 1,
  .addBlock ⟨0⟩ none,
  .appendInst ⟨0⟩ { opcode := .phi, ty := .int 32, targets := [⟨0⟩, ⟨0⟩] } [⟨1⟩, ⟨1⟩],
  .appendInst ⟨0⟩ { opcode := .binary .add, ty := .int 32 } [⟨3⟩, ⟨2⟩],
  .appendInst ⟨0⟩ { opcode := .binary .mul, ty := .int 32 } [⟨1⟩, ⟨5⟩],
  .setOperand ⟨⟨0⟩, 1⟩ ⟨6⟩,
  .build ⟨0⟩ (some ⟨0⟩) (.ret (some ⟨6⟩))]

theorem one_sweep_suffices_chain : ∃ m m', Op.runAll (.empty "chain") chain = .ok m ∧
    ¬ m.ReadsAhead ∧ m.simplify ⟨32, true⟩ = .ok (m', ⟨1, 2⟩) ∧
    m'.simplify ⟨32, true⟩ = .ok (m', ⟨1, 0⟩) := by
  have hruns : (Op.runAll (.empty "chain") chain).toOption.map (fun m =>
      (decide m.ReadsAhead, (m.simplify ⟨32, true⟩).toOption.map Prod.snd))
      = some (false, some ⟨1, 2⟩) := by decide +kernel
  cases hrun : Op.runAll (.empty "chain") chain with
  | error e => simp [hrun, Except.toOption] at hruns
  | ok m =>
    simp only [hrun, Except.toOption, Option.map_some, Option.some.injEq, Prod.mk.injEq,
      decide_eq_false_iff_not] at hruns
    obtain ⟨hahead, hstats⟩ := hruns
    cases hsimplify : m.simplify ⟨32, true⟩ with
    | error e => simp [hsimplify] at hstats
    | ok r =>
      obtain ⟨m₁, stats⟩ := r
      obtain rfl : stats = ⟨1, 2⟩ := by simpa [hsimplify] using hstats
      obtain ⟨m', -, -, -, hsecond⟩ :=
        Reachable.one_sweep_suffices ((Reachable.empty "chain").runAll hrun) hahead ⟨32, true⟩
      obtain ⟨rfl, hagain⟩ := hsecond m₁ _ hsimplify
      exact ⟨m, m₁, rfl, hahead, hsimplify, hagain⟩

end SsaFold
