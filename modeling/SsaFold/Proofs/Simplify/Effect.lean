import SsaFold.Proofs.Reachable

/-!
# The effect of the simplifier is one substitution

A run rewrites an operand again and again, and what it is sent to may be replaced later.
`Sweep.Traced` follows the composition of all redirections through the steps of a run.  At every
moment it is the identity outside the results of folded instructions, and it never leads to such a
result: a result that has been folded is unread, and a redirection leads to a value that is read.

`Module.Reduces` spells out what is left of a module at the end.
-/

namespace SsaFold
namespace Sweep

/-! ## Following the redirections -/

/-- The instructions that have been folded, erased or not. -/
def folded (t : Sweep) : List InstId := t.erased ++ t.waiting

/-- The module at `t` is what renaming the reads of `m` by `f` and erasing leave behind. -/
structure Traced (m : Module) (f : ValueId → ValueId) (t : Sweep) : Prop where
  bare : t.module.bare = m.bare.residue f t.erased
  /-- No instruction is folded twice. -/
  once : t.folded.Nodup
  /-- A folded instruction is an identity operation of a placed block, and its result is unread. -/
  identity : ∀ i ∈ t.folded, ∃ inst, m.inst? i = some inst ∧ inst.parent ∈ m.placedBlocks ∧
    inst.opcode.identity?.isSome ∧ t.module.Unread inst.result
  /-- Only results of folded instructions are renamed. -/
  fixed : ∀ v, (∀ i ∈ t.folded, ∀ inst, m.inst? i = some inst → inst.result ≠ v) → f v = v
  /-- Nothing is renamed to such a result. -/
  avoids : ∀ v, ∀ i ∈ t.folded, ∀ inst, m.inst? i = some inst → f v ≠ inst.result

variable {maxBits : Nat} {s t : Sweep} {m : Module} {f : ValueId → ValueId}

lemma traced_start (m : Module) : Traced m id ⟨m, [], []⟩ where
  bare := (Module.residue_id_nil _).symm
  once := List.nodup_nil
  identity := fun _ hi => absurd hi List.not_mem_nil
  fixed := fun _ _ => rfl
  avoids := fun _ _ hi => absurd hi List.not_mem_nil

section Fold

variable {m₁ : Module} {waiting erased : List InstId} {i : InstId} {inst : Inst} {kept : ValueId}

/-- What is folded was an identity operation of a placed block from the start, with the same
result. -/
lemma Traced.exists_original (h : Traced m f ⟨m₁, waiting, erased⟩) (live : m₁.inst? i = some inst)
    (placed : inst.parent ∈ m₁.placedBlocks) (folds : m₁.Folds maxBits inst kept) :
    i ∉ erased ∧ ∃ inst₀, m.inst? i = some inst₀ ∧ inst₀.parent ∈ m.placedBlocks ∧
      inst₀.opcode.identity?.isSome ∧ inst₀.result = inst.result := by
  obtain ⟨hnew, inst₀, live₀, heq⟩ := Module.inst?_of_residue h.bare live
  have hspec : inst.toInstSpec = inst₀.toInstSpec :=
    (Inst.toInstSpec_eq_of_bare heq).trans (inst₀.toInstSpec_rename f)
  have hparent : inst.parent = inst₀.parent :=
    (Inst.parent_eq_of_bare heq).trans (inst₀.parent_rename f)
  have hresult : inst.result = inst₀.result :=
    (Inst.result_eq_of_bare heq).trans (inst₀.result_rename f)
  have hfuncs : m₁.functions = m.functions := Module.functions_of_residue h.bare
  refine ⟨hnew, inst₀, live₀, ?_, ?_, hresult.symm⟩
  · rw [← hparent]
    simpa only [Module.placedBlocks, hfuncs] using placed
  · obtain ⟨n, -, -, hop, -⟩ := folds
    rw [← hspec, hop]
    rfl

/-- A fold composes the substitution with its redirection. -/
lemma Traced.fold (h : Traced m f ⟨m₁, waiting, erased⟩) (live : m₁.inst? i = some inst)
    (placed : inst.parent ∈ m₁.placedBlocks) (folds : m₁.Folds maxBits inst kept)
    (other : kept ≠ inst.result) (fresh : i ∉ waiting) :
    Traced m (Module.redirection inst.result kept ∘ f)
      ⟨m₁.redirected inst.result kept, waiting ++ [i], erased⟩ := by
  obtain ⟨hnew, inst₀, live₀, hplaced, hop, hresult⟩ := h.exists_original live placed folds
  have hfolded : ∀ j, j ∈ folded ⟨m₁.redirected inst.result kept, waiting ++ [i], erased⟩ ↔
      j ∈ folded ⟨m₁, waiting, erased⟩ ∨ j = i := by
    simp [Sweep.folded, or_assoc]
  have hunread : ∀ j ∈ folded ⟨m₁, waiting, erased⟩, ∀ instj, m.inst? j = some instj →
      m₁.Unread instj.result := by
    intro j hj instj hlive
    obtain ⟨instj', hlive', -, -, hunread⟩ := h.identity j hj
    obtain rfl : instj = instj' := Option.some.inj (hlive.symm.trans hlive')
    exact hunread
  refine ⟨?_, ?_, fun j hj => ?_, fun v hv => ?_, fun v j hj instj hlive => ?_⟩
  · rw [Module.bare_redirected, h.bare, Module.residue_residue, List.append_nil]
  · have := h.once
    simp only [Sweep.folded, ← List.append_assoc] at this ⊢
    refine List.nodup_append.2 ⟨this, List.pairwise_singleton _ i, ?_⟩
    rintro j hj k hk rfl
    rw [List.mem_singleton.1 hk] at hj
    rcases List.mem_append.1 hj with hj | hj
    · exact hnew hj
    · exact fresh hj
  · rcases (hfolded j).1 hj with hj | rfl
    · obtain ⟨instj, hlive, hplaced, hop, hunread⟩ := h.identity j hj
      exact ⟨instj, hlive, hplaced, hop, unread_redirected live folds.kept_mem hunread⟩
    · refine ⟨inst₀, live₀, hplaced, hop, ?_⟩
      rw [hresult]
      exact unread_redirected_self other
  · have hfix : f v = v := h.fixed v fun j hj => hv j ((hfolded j).2 (.inl hj))
    have hne : v ≠ inst.result := by
      rw [← hresult]
      exact (hv i ((hfolded i).2 (.inr rfl)) inst₀ live₀).symm
    rw [Function.comp_apply, hfix, Module.redirection, if_neg hne]
  · rw [Function.comp_apply, Module.redirection]
    rcases (hfolded j).1 hj with hold | rfl
    · split_ifs
      · rintro rfl
        exact (hunread j hold instj hlive).not_mem live folds.kept_mem
      · exact h.avoids v j hold instj hlive
    · obtain rfl : instj = inst₀ := Option.some.inj (hlive.symm.trans live₀)
      rw [hresult]
      split_ifs with hread
      · exact other
      · exact hread

/-- An erasure leaves the substitution as it is. -/
lemma Traced.erase (h : Traced m f ⟨m₁, waiting, erased⟩) {m₂ : Module}
    (hbare : m₂.bare = m₁.bare.residue id waiting) : Traced m f ⟨m₂, [], erased ++ waiting⟩ := by
  have hfolded : folded ⟨m₂, [], erased ++ waiting⟩ = folded ⟨m₁, waiting, erased⟩ := by
    simp [Sweep.folded]
  refine ⟨?_, hfolded ▸ h.once, fun i hi => ?_, fun v hv => h.fixed v (hfolded ▸ hv),
    fun v i hi => h.avoids v i (hfolded ▸ hi)⟩
  · rw [hbare, h.bare, Module.residue_residue]
    rfl
  · obtain ⟨inst, hlive, hplaced, hop, hunread⟩ := h.identity i (hfolded ▸ hi)
    exact ⟨inst, hlive, hplaced, hop, Module.Unread.of_residue hbare hunread⟩

end Fold

/-- A run can be followed from its start to its end. -/
theorem Steps.traced (h : Steps maxBits ⟨m, [], []⟩ t) (hm : m.Intact) : ∃ f, Traced m f t := by
  have hs := sound_start maxBits hm []
  refine (h.induction (P := fun t => ∃ f, Traced m f t) hs ⟨id, traced_start m⟩ ?_).2
  rintro s t hstep hs ⟨f, hf⟩
  cases hstep with
  | fold live placed folds other fresh => exact ⟨_, hf.fold live placed folds other fresh⟩
  | erase run => exact ⟨f, hf.erase (hs.intact.eraseInsts_eq_ok run).2.2⟩

end Sweep

/-! ## The effect of a run -/

/-- The module `m'` is `m` without the instructions in `gone`, with all reads renamed by `s`. -/
structure Module.Reduces (m : Module) (gone : List InstId) (s : ValueId → ValueId) (m' : Module) :
    Prop where
  /-- No instruction is named twice. -/
  goneOnce : gone.Nodup
  /-- The instructions that are there no more. -/
  mem_gone : ∀ i, i ∈ gone ↔ (∃ inst, m.inst? i = some inst) ∧ m'.inst? i = none
  /-- Only additions and multiplications of placed blocks are erased. -/
  arithmetic : ∀ i ∈ gone, i ∈ m.placedInsts ∧ ∃ inst, m.inst? i = some inst ∧
    (inst.opcode = .binary .add ∨ inst.opcode = .binary .mul)
  /-- Only results of erased instructions are renamed. -/
  fixed : ∀ v, (∀ i ∈ gone, ∀ inst, m.inst? i = some inst → inst.result ≠ v) → s v = v
  /-- Nothing is renamed to the result of an erased instruction. -/
  avoids : ∀ v, ∀ i ∈ gone, ∀ inst, m.inst? i = some inst → s v ≠ inst.result
  /-- An instruction that is left reads what it read before, renamed; the rest of it stays. -/
  insts : ∀ i inst', m'.inst? i = some inst' → ∃ inst, m.inst? i = some inst ∧
    inst'.operandValues = inst.operandValues.map s ∧ inst'.toInstSpec = inst.toInstSpec ∧
    inst'.result = inst.result ∧ inst'.parent = inst.parent
  /-- The erased instructions are taken out of the blocks, and the order stays. -/
  blocks : m'.blocks = m.blocks.map fun b => { b with insts := b.insts.filter (· ∉ gone) }
  /-- Values stay what they are; their use lists do not. -/
  values : ∀ v, (m'.value? v).map Value.bare = (m.value? v).map Value.bare
  functions : m'.functions = m.functions
  globals : m'.globals = m.globals
  name : m'.name = m.name
  sourceFilename : m'.sourceFilename = m.sourceFilename
  targetLines : m'.targetLines = m.targetLines

lemma BinaryOp.eq_of_identity? {op : BinaryOp} (h : op.identity?.isSome) :
    op = .add ∨ op = .mul := by
  cases op <;> simp_all [BinaryOp.identity?]

lemma Opcode.eq_of_identity? {op : Opcode} (h : op.identity?.isSome) :
    op = .binary .add ∨ op = .binary .mul := by
  cases op with
  | binary op => exact (BinaryOp.eq_of_identity? h).imp (congrArg _) (congrArg _)
  | _ => simp [Opcode.identity?] at h

/-- An identity operation is an addition or a multiplication. -/
lemma Module.Folds.arithmetic {m : Module} {maxBits : Nat} {inst : Inst} {kept : ValueId}
    (h : m.Folds maxBits inst kept) :
    inst.opcode = .binary .add ∨ inst.opcode = .binary .mul := by
  obtain ⟨n, -, -, hop, -⟩ := h
  exact Opcode.eq_of_identity? (Option.isSome_iff_exists.2 ⟨n, hop⟩)

lemma Module.Folds.exists_binary {m : Module} {maxBits : Nat} {inst : Inst} {kept : ValueId}
    (h : m.Folds maxBits inst kept) : ∃ op, inst.opcode = .binary op :=
  h.arithmetic.elim (⟨_, ·⟩) (⟨_, ·⟩)

/-- No terminator is folded. -/
lemma Sweep.Traced.isTerminator_eq_false {m : Module} {f : ValueId → ValueId} {t : Sweep}
    (h : Traced m f t) {i : InstId} (hi : i ∈ t.folded) {inst : Inst}
    (hinst : m.inst? i = some inst) :
    inst.opcode.isTerminator = false := by
  obtain ⟨inst', hinst', -, hidentity, -⟩ := h.identity i hi
  obtain rfl := Option.some.inj (hinst.symm.trans hinst')
  rcases Opcode.eq_of_identity? hidentity with hop | hop <;> rw [hop] <;> rfl

lemma Sweep.Traced.reduces {m m' : Module} {gone : List InstId} {s : ValueId → ValueId}
    (h : Traced m s ⟨m', [], gone⟩) (hm : m.Shaped) : m.Reduces gone s m' := by
  have hfolded : Sweep.folded ⟨m', [], gone⟩ = gone := List.append_nil gone
  have hbare : m'.bare = m.bare.residue s gone := h.bare
  obtain ⟨hglobals, hname, hsource, htarget⟩ := Module.header_of_residue hbare
  have hid := h.identity
  rw [hfolded] at hid
  refine ⟨hfolded ▸ h.once, fun i => ⟨fun hi => ?_, fun ⟨⟨inst, hi⟩, hnone⟩ => ?_⟩, fun i hi => ?_,
    fun v hv => h.fixed v (by rwa [hfolded]), fun v i hi => h.avoids v i (by rwa [hfolded]),
    fun i inst' hi' => ?_, Module.blocks_of_residue hbare, Module.value?_of_residue hbare,
    Module.functions_of_residue hbare, hglobals, hname, hsource, htarget⟩
  · obtain ⟨inst, hlive, -⟩ := hid i hi
    exact ⟨⟨inst, hlive⟩, Module.inst?_eq_none_of_residue hbare hi⟩
  · by_contra hmem
    obtain ⟨inst', hi', -⟩ := Module.inst?_residue_of_not_mem hbare hi hmem
    rw [hnone] at hi'
    cases hi'
  · obtain ⟨inst, hlive, hplaced, hop, -⟩ := hid i hi
    exact ⟨hm.mem_placedInsts.2 ⟨inst, hlive, hplaced⟩, inst, hlive, Opcode.eq_of_identity? hop⟩
  · obtain ⟨-, inst, hi, heq⟩ := Module.inst?_of_residue hbare hi'
    refine ⟨inst, hi, ?_, ?_, ?_, ?_⟩
    · rw [Inst.operandValues_eq_of_bare heq, Inst.operandValues_rename]
    · rw [Inst.toInstSpec_eq_of_bare heq, Inst.toInstSpec_rename]
    · rw [Inst.result_eq_of_bare heq, Inst.result_rename]
    · rw [Inst.parent_eq_of_bare heq, Inst.parent_rename]

/-- A run on a reachable module is one erasure and one substitution.  It reports how many
instructions it has erased, which are as many as are placed no more, and how many definitions it
has gone over. -/
theorem Reachable.simplify_reduces {m : Module} (h : Reachable m) (maxBits : Nat) :
    ∃ m' stats gone s, m.simplify ⟨maxBits, false⟩ = .ok (m', stats) ∧ m.Reduces gone s m' ∧
      stats.eliminated = gone.length ∧ gone.length + m'.instCount = m.instCount ∧
      stats.functions = m.functions.toList.countP fun f => !f.layout.isEmpty := by
  obtain ⟨m', gone, hrun, hsteps⟩ := h.intact.simplify_steps maxBits
  obtain ⟨s, hs⟩ := hsteps.traced h.intact
  have hreduces := hs.reduces h.intact.shaped
  refine ⟨m', _, gone, s, hrun, hreduces, rfl, ?_, Module.length_definitions⟩
  exact h.intact.shaped.instCount_of_residue hs.bare hreduces.goneOnce fun i hi =>
    (hreduces.arithmetic i hi).1

/-- In the knot only `b` is erased, and `c` takes its place. -/
theorem simplify_reduces_knot : ∃ m m' stats s, Op.runAll (.empty "knot") knot = .ok m ∧
    m.simplify ⟨32, false⟩ = .ok (m', stats) ∧ m.Reduces [⟨1⟩] s m' ∧ s ⟨5⟩ = ⟨6⟩ ∧
    stats = ⟨1, 1⟩ ∧ m.instCount = 4 ∧ m'.instCount = 3 := by
  obtain ⟨m, -, hrun, -⟩ := knot_runs
  obtain ⟨m', stats, gone, s, hsimplify, hreduces, helim, hcount, -⟩ :=
    Reachable.simplify_reduces ((Reachable.empty "knot").runAll hrun) 32
  have hbefore : (Op.runAll (.empty "knot") knot).toOption.map (fun m =>
      (m.instCount, (m.inst? ⟨1⟩).isSome, (m.inst? ⟨2⟩).map Inst.operandValues))
      = some (4, true, some [⟨5⟩, ⟨3⟩]) := by decide +kernel
  have hafter : (Op.runAll (.empty "knot") knot).toOption.map (fun m =>
      (m.simplify ⟨32, false⟩).toOption.map fun r =>
        (r.2, (r.1.inst? ⟨1⟩).isNone, (r.1.inst? ⟨2⟩).map Inst.operandValues))
      = some (some (⟨1, 1⟩, true, some [⟨6⟩, ⟨3⟩])) := by decide +kernel
  simp only [hrun, hsimplify, Except.toOption, Option.map_some, Option.some.injEq, Prod.mk.injEq,
    Option.isSome_iff_exists, Option.isNone_iff_eq_none, Option.map_eq_some_iff] at hbefore hafter
  obtain ⟨hfour, hlive, inst, hinst, hreads⟩ := hbefore
  obtain ⟨rfl, hnone, inst', hinst', hreads'⟩ := hafter
  obtain rfl : gone = [⟨1⟩] := by
    obtain ⟨i, rfl⟩ := List.length_eq_one_iff.1 helim.symm
    rw [← List.mem_singleton.1 ((hreduces.mem_gone ⟨1⟩).2 ⟨hlive, hnone⟩)]
  refine ⟨m, m', ⟨1, 1⟩, s, hrun, hsimplify, hreduces, ?_, rfl, hfour, ?_⟩
  · obtain ⟨inst₀, hinst₀, hrenamed, -⟩ := hreduces.insts ⟨2⟩ inst' hinst'
    obtain rfl := Option.some.inj (hinst.symm.trans hinst₀)
    rw [hreads, hreads'] at hrenamed
    exact (List.cons.inj hrenamed).1.symm
  · rw [hfour, List.length_singleton] at hcount
    omega

end SsaFold
