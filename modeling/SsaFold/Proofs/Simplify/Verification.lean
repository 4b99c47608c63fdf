import SsaFold.Pipeline
import SsaFold.Proofs.Module.Check
import SsaFold.Proofs.Simplify.Effect
import SsaFold.Proofs.Text.Reader

/-!
# Verifying changes nothing

A run of the simplifier keeps a module free of defects.  It sends reads to values that are read
already, so none of them becomes the first read of an undefined value (`Sweep.Step.resolved`); and
it erases arithmetic only, so a block keeps its last instruction, and all its terminators
(`Module.Terminated.of_residue`).  So a check after the run never fails where the check before it
has succeeded, and on a text, which the reader has checked already, the option that asks for both
makes no difference (`verify_unobservable`).
-/

namespace SsaFold

namespace Module

variable {m m' : Module}

/-- If no terminator is erased, each placed block still ends with its only terminator. -/
lemma Terminated.of_residue (h : m.Terminated) {s : ValueId → ValueId} {gone : List InstId}
    (hbare : m'.bare = m.bare.residue s gone)
    (hgone : ∀ i ∈ gone, ∀ inst, m.inst? i = some inst → inst.opcode.isTerminator = false) :
    m'.Terminated := by
  have hspec : ∀ {i inst inst'}, m.inst? i = some inst → m'.inst? i = some inst' →
      inst'.opcode = inst.opcode := by
    intro i inst inst' hi hi'
    obtain ⟨-, inst₀, hi₀, heq⟩ := inst?_of_residue hbare hi'
    obtain rfl := Option.some.inj (hi.symm.trans hi₀)
    exact congrArg InstSpec.opcode
      ((Inst.toInstSpec_eq_of_bare heq).trans (inst.toInstSpec_rename s))
  intro b hb block' hblock'
  rw [block?_of_residue hbare, Option.map_eq_some_iff] at hblock'
  obtain ⟨block, hblock, rfl⟩ := hblock'
  have hplaced : b ∈ m.placedBlocks := by
    rwa [placedBlocks, ← functions_of_residue hbare]
  obtain ⟨init, i, inst, hlist, hi, hterminator, hinit⟩ := h b hplaced block hblock
  have hkept : i ∉ gone := fun hmem => by
    rw [hgone i hmem inst hi] at hterminator
    cases hterminator
  obtain ⟨inst', hi', -⟩ := inst?_residue_of_not_mem hbare hi hkept
  refine ⟨init.filter (· ∉ gone), i, inst', ?_, hi', hspec hi hi' ▸ hterminator,
    fun j hj instj' hj' => ?_⟩
  · rw [Array.toList_filter, hlist, List.filter_append]
    simp [hkept]
  · obtain ⟨-, instj, hinstj, -⟩ := inst?_of_residue hbare hj'
    rw [hspec hinstj hj']
    exact hinit j (List.mem_of_mem_filter hj) instj hinstj

end Module

namespace Sweep

variable {maxBits : Nat} {s t : Sweep}

/-- A step makes nobody read a value that was not read before. -/
lemma Step.resolved (h : Step maxBits s t) (hs : s.Sound maxBits) (hm : s.module.Resolved) :
    t.module.Resolved := by
  have hkind : ∀ {m m' : Module} {f gone}, m'.bare = m.bare.residue f gone → ∀ {v value'},
      m'.value? v = some value' → ∃ value, m.value? v = some value ∧ value.kind = value'.kind := by
    intro m m' f gone hbare v value' hv
    have hvalue := Module.value?_of_residue hbare v
    rw [hv, Option.map_some] at hvalue
    obtain ⟨value, hvalue, heq⟩ := Option.map_eq_some_iff.1 hvalue.symm
    exact ⟨value, hvalue, (congrArg Value.kind heq :)⟩
  cases h with
  | @fold m waiting erased i inst kept live placed folds other fresh =>
    have hbare := Module.bare_redirected m inst.result kept
    intro u o' value' ho' hv'
    obtain ⟨-, o, ho, hread⟩ := Module.operand?_of_residue hbare ho'
    obtain ⟨value, hv, hvalue⟩ := hkind hbare hv'
    rw [← hvalue]
    rw [hread, Module.redirection] at hv
    split_ifs at hv
    · -- What is read now has been read by the folded instruction.
      obtain ⟨ok, hok, rfl⟩ := List.mem_map.1 folds.kept_mem
      obtain ⟨k, hk⟩ := List.mem_iff_getElem?.1 hok
      rw [Array.getElem?_toList] at hk
      exact hm ⟨i, k⟩ ok value ((Module.operand?_of_inst? live k).trans hk) hv
    · exact hm u o value ho hv
  | erase run =>
    have hbare := (hs.intact.eraseInsts_eq_ok run).2.2
    intro u o' value' ho' hv'
    obtain ⟨-, o, ho, hread⟩ := Module.operand?_of_residue hbare ho'
    obtain ⟨value, hv, hvalue⟩ := hkind hbare hv'
    rw [← hvalue]
    exact hm u o value ho ((congrArg _ hread).symm.trans hv)

end Sweep

namespace Module

variable {m m' : Module}

/-- The simplifier leaves a module without a defect where it finds one. -/
lemma Intact.check_simplify (h : m.Intact) (hcheck : m.check = .ok ()) {maxBits : Nat}
    {stats : Stats} (hrun : m.simplify ⟨maxBits, false⟩ = .ok (m', stats)) : m'.check = .ok () := by
  obtain ⟨hresolved, hends⟩ := h.check_eq_ok_iff.1 hcheck
  obtain ⟨m₁, gone, hrun₁, hsteps⟩ := h.simplify_steps maxBits
  obtain ⟨rfl, -⟩ := Prod.mk.inj (Except.ok.inj (hrun.symm.trans hrun₁))
  obtain ⟨hsound, hresolved'⟩ := hsteps.induction (P := fun t => t.module.Resolved)
    (Sweep.sound_start maxBits h []) hresolved fun _ _ hstep hs hm => hstep.resolved hs hm
  obtain ⟨f, htraced⟩ := hsteps.traced h
  refine hsound.intact.check_eq_ok_iff.2
    ⟨hresolved', hends.of_residue htraced.bare fun i hi inst => ?_⟩
  exact htraced.isTerminator_eq_false (List.mem_append_left _ hi)

/-- If a module has no defect, then verifying makes no difference to a run, and the run leaves a
module without a defect. -/
lemma Intact.simplify_verified (h : m.Intact) (hcheck : m.check = .ok ()) (maxBits : Nat) :
    ∃ m' stats, (∀ verify, m.simplify ⟨maxBits, verify⟩ = .ok (m', stats)) ∧ m'.check = .ok () := by
  obtain ⟨m', stats, hrun⟩ : ∃ m' stats, m.simplify ⟨maxBits, false⟩ = .ok (m', stats) := by
    obtain ⟨m', gone, hrun, -⟩ := h.simplify_steps maxBits
    exact ⟨m', _, hrun⟩
  have hcheck' := h.check_simplify hcheck hrun
  refine ⟨m', stats, fun verify => ?_, hcheck'⟩
  cases verify with
  | false => exact hrun
  | true =>
    rw [simplify_of_check hcheck hrun, checkAs, hcheck']
    rfl

end Module

/-- A run that verifies fails only for a defect that is found before it, and leaves the module as it
is then.  Otherwise it does what a run without verifying does, and the module has no defect after
it.  On a text, verifying makes no difference: to the text that is returned, to the numbers, or to
the error. -/
theorem verify_unobservable (maxBits : Nat) :
    (∀ m, Reachable m →
      (m.check = .ok () → ∃ m' stats, m.simplify ⟨maxBits, false⟩ = .ok (m', stats) ∧
        m'.check = .ok () ∧ m.simplify ⟨maxBits, true⟩ = .ok (m', stats)) ∧
      ∀ d, m.check = .error d →
        m.simplify ⟨maxBits, true⟩ = .error (.error (.malformedBefore d)) ∧
        m.simplified ⟨maxBits, true⟩ = .ok m) ∧
    ∀ source, simplifyText source ⟨maxBits, true⟩ = simplifyText source ⟨maxBits, false⟩ := by
  refine ⟨fun m hm => ⟨fun hcheck => ?_, fun d hd => ?_⟩, fun source => ?_⟩
  · obtain ⟨m', stats, hrun, hcheck'⟩ := hm.intact.simplify_verified hcheck maxBits
    exact ⟨m', stats, hrun false, hcheck', hrun true⟩
  · have hrun : m.simplify ⟨maxBits, true⟩ = .error (.error (.malformedBefore d)) := by
      simp only [Module.simplify, if_true, Module.checkAs, hd]
      rfl
    exact ⟨hrun, by simp only [Module.simplified, hrun]⟩
  · rw [simplifyText, simplifyText]
    cases hread : Module.ofText source with
    | error e => rfl
    | ok m =>
      obtain ⟨hm, hcheck⟩ := Module.wellFormed_ofText hread
      obtain ⟨m', stats, hrun, -⟩ := hm.reachable.intact.simplify_verified hcheck maxBits
      simp only [Except.mapError, ok_bind, hrun]

/-- The knot has no defect, and a function with an empty block has one. -/
theorem verify_unobservable_knot : (∃ m m' stats, Op.runAll (.empty "knot") knot = .ok m ∧
      m.check = .ok () ∧ m.simplify ⟨32, true⟩ = .ok (m', stats) ∧ m'.check = .ok ()) ∧
    ∃ m, Op.runAll (.empty "") [.addFunc "f" .void [], .addBlock ⟨0⟩ none] = .ok m ∧
      m.simplify ⟨32, true⟩ = .error (.error (.malformedBefore (.emptyBlock "f" ⟨0⟩))) := by
  constructor
  · have hok : (Op.runAll (.empty "knot") knot).toOption.map Module.defect? = some none := by
      decide +kernel
    obtain ⟨m, -, hrun, -⟩ := knot_runs
    have hcheck : m.check = .ok () := by simpa [hrun, Except.toOption] using hok
    obtain ⟨m', stats, -, hcheck', hrun'⟩ :=
      ((verify_unobservable 32).1 m ((Reachable.empty "knot").runAll hrun)).1 hcheck
    exact ⟨m, m', stats, hrun, hcheck, hrun', hcheck'⟩
  · have hbad : (Op.runAll (.empty "") [.addFunc "f" .void [], .addBlock ⟨0⟩ none]).toOption.map
        Module.defect? = some (some (.emptyBlock "f" ⟨0⟩)) := by decide +kernel
    cases hrun : Op.runAll (.empty "") [.addFunc "f" .void [], .addBlock ⟨0⟩ none] with
    | error e => simp [hrun, Except.toOption] at hbad
    | ok m =>
      have hcheck : m.check = .error (.emptyBlock "f" ⟨0⟩) := by
        simp only [hrun, Except.toOption, Option.map_some, Option.some.injEq] at hbad
        simp [Module.check, hbad]
      exact ⟨m, rfl,
        (((verify_unobservable 32).1 m ((Reachable.empty "").runAll hrun)).2 _ hcheck).1⟩

end SsaFold
