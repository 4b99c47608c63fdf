import Mathlib.Logic.Relation
import SsaFold.Proofs.Module.Placement
import SsaFold.Proofs.Simplify.Fold

/-!
# A run of the simplifier as a sequence of steps

The loops over functions, blocks and instructions do two things to a module.  They *fold* an
instruction: its reads go to the operand it hands on, and it waits.  And at the end of a block
they *erase* the instructions that wait.  `Sweep.Step` is one of the two, and every run is a
sequence of steps (`Intact.simplify_steps`).  What holds of a run is proved of one step then.

`Sweep.Sound` is what the steps keep.  Its heart is that the result of a waiting instruction stays
unread: a fold sends reads only to a value that is read, and so never to such a result.  This is
what the erasure asks for, and therefore a run cannot fail.
-/

namespace SsaFold

/-- Where a run stands. -/
structure Sweep where
  module : Module
  /-- The folded instructions of the block at hand; they wait for their erasure. -/
  waiting : List InstId := []
  /-- The instructions that have been erased. -/
  erased : List InstId := []

namespace Sweep

/-- One thing a run does. -/
inductive Step (maxBits : Nat) : Sweep → Sweep → Prop
  /-- An instruction of a placed block hands its reads on, and waits. -/
  | fold {m : Module} {waiting erased : List InstId} {i : InstId} {inst : Inst} {kept : ValueId}
      (live : m.inst? i = some inst) (placed : inst.parent ∈ m.placedBlocks)
      (folds : m.Folds maxBits inst kept) (other : kept ≠ inst.result) (fresh : i ∉ waiting) :
      Step maxBits ⟨m, waiting, erased⟩ ⟨m.redirected inst.result kept, waiting ++ [i], erased⟩
  /-- The waiting instructions are erased. -/
  | erase {m m' : Module} {waiting erased : List InstId} {b : BlockId}
      (run : m.eraseInsts b waiting = .ok m') :
      Step maxBits ⟨m, waiting, erased⟩ ⟨m', [], erased ++ waiting⟩

/-- One step after the other. -/
abbrev Steps (maxBits : Nat) : Sweep → Sweep → Prop := Relation.ReflTransGen (Step maxBits)

/-- What every step keeps. -/
structure Sound (maxBits : Nat) (s : Sweep) : Prop where
  intact : s.module.Intact
  /-- No instruction waits twice. -/
  waitingOnce : s.waiting.Nodup
  /-- An instruction that waits is an identity operation whose result is unread. -/
  waiting : ∀ i ∈ s.waiting, ∃ inst, s.module.inst? i = some inst ∧ s.module.Unread inst.result ∧
    ∃ kept, s.module.Folds maxBits inst kept

variable {maxBits : Nat} {s t : Sweep}

/-! ## One step -/

section Fold

variable {m : Module} {i : InstId} {inst : Inst} {kept : ValueId}

/-- The fold of an instruction makes its result unread. -/
lemma unread_redirected_self (hne : kept ≠ inst.result) :
    (m.redirected inst.result kept).Unread inst.result := by
  refine Module.Unread.of_residue (Module.bare_redirected _ _ _) fun u o ho => ?_
  rw [Module.redirection]
  split_ifs with hread
  · exact hne
  · exact hread

/-- What is unread stays so, because the reads go to a value that is read already. -/
lemma unread_redirected (hi : m.inst? i = some inst) (hk : kept ∈ inst.operandValues) {v : ValueId}
    (hv : m.Unread v) : (m.redirected inst.result kept).Unread v := by
  refine Module.Unread.of_residue (Module.bare_redirected _ _ _) fun u o ho => ?_
  rw [Module.redirection]
  split_ifs
  · rintro rfl
    exact hv.not_mem hi hk
  · exact hv u o ho

/-- Redirecting the reads of a result spares the constants. -/
lemma redirection_constant (maxBits : Nat) (kept : ValueId) (h : m.Shaped)
    (hi : m.inst? i = some inst) (v : ValueId) (n : Int) (hv : m.isConstant v n maxBits = true) :
    Module.redirection inst.result kept v = v :=
  if_neg (h.result_ne_constant hi hv)

lemma intact_redirected (h : m.Intact) (hi : m.inst? i = some inst)
    (hk : kept ∈ inst.operandValues) (hne : kept ≠ inst.result) :
    (m.redirected inst.result kept).Intact := by
  obtain ⟨rv, hrv, -⟩ := h.shaped.result i inst hi
  obtain ⟨u, o, ho, rfl⟩ : ∃ u o, m.operand? u = some o ∧ o.value = kept := by
    by_contra hno
    refine Module.Unread.not_mem (fun u o ho heq => hno ⟨u, o, ho, heq⟩) hi hk
  obtain ⟨kv, hkv⟩ := h.agrees.exists_value ho
  exact h.redirected (Ne.symm hne) hrv hkv

end Fold

/-- What a step does to the bare module. -/
lemma Step.residue (h : Step maxBits s t) (hs : s.Sound maxBits) :
    ∃ f gone, t.module.bare = s.module.bare.residue f gone := by
  cases h with
  | fold _ _ _ _ _ => exact ⟨_, [], Module.bare_redirected _ _ _⟩
  | erase run => exact ⟨id, _, (hs.intact.eraseInsts_eq_ok run).2.2⟩

theorem Step.sound (h : Step maxBits s t) (hs : s.Sound maxBits) : t.Sound maxBits := by
  cases h with
  | @fold m waiting erased i inst kept live placed folds other fresh =>
    have hbare := Module.bare_redirected m inst.result kept
    have hsame : ∀ {j instj}, m.inst? j = some instj → ∃ instj',
        (m.redirected inst.result kept).inst? j = some instj' ∧
          instj'.bare = (instj.rename (Module.redirection inst.result kept)).bare :=
      fun hj => Module.inst?_residue_of_not_mem hbare hj (by simp)
    have hconst := redirection_constant maxBits kept hs.intact.shaped live
    refine ⟨intact_redirected hs.intact live folds.kept_mem other, ?_, fun j hj => ?_⟩
    · exact List.nodup_append.2 ⟨hs.waitingOnce, List.pairwise_singleton _ i,
        fun j hj k hk heq => fresh (List.mem_singleton.1 hk ▸ heq ▸ hj)⟩
    · rcases List.mem_append.1 hj with hj | hj
      · obtain ⟨instj, hlive, hunread, keptj, hfolds⟩ := hs.waiting j hj
        obtain ⟨instj', hlive', heq⟩ := hsame hlive
        refine ⟨instj', hlive', ?_, _, hfolds.of_residue hbare hconst heq⟩
        rw [Inst.result_eq_of_bare heq, Inst.result_rename]
        exact unread_redirected live folds.kept_mem hunread
      · obtain rfl := List.mem_singleton.1 hj
        obtain ⟨inst', hlive', heq⟩ := hsame live
        refine ⟨inst', hlive', ?_, _, folds.of_residue hbare hconst heq⟩
        rw [Inst.result_eq_of_bare heq, Inst.result_rename]
        exact unread_redirected_self other
  | erase run =>
    exact ⟨(hs.intact.eraseInsts_eq_ok run).2.1, List.nodup_nil, fun i hi => absurd hi (by simp)⟩

/-! ## Many steps -/

/-- What one step keeps, many steps keep. -/
theorem Steps.induction (h : Steps maxBits s t) {P : Sweep → Prop} (hs : s.Sound maxBits)
    (hP : P s) (step : ∀ s t, Step maxBits s t → s.Sound maxBits → P s → P t) :
    t.Sound maxBits ∧ P t := by
  induction h with
  | refl => exact ⟨hs, hP⟩
  | tail _ hstep ih => exact ⟨hstep.sound ih.1, step _ _ hstep ih.1 ih.2⟩

lemma Steps.sound (h : Steps maxBits s t) (hs : s.Sound maxBits) : t.Sound maxBits :=
  (h.induction (P := fun _ => True) hs trivial fun _ _ _ _ _ => trivial).1

lemma Steps.residue (h : Steps maxBits s t) (hs : s.Sound maxBits) :
    ∃ f gone, t.module.bare = s.module.bare.residue f gone := by
  refine (h.induction (P := fun t => ∃ f gone, t.module.bare = s.module.bare.residue f gone) hs
    ⟨id, [], (Module.residue_id_nil _).symm⟩ fun t u hstep ht ⟨f, gone, heq⟩ => ?_).2
  obtain ⟨g, more, heq'⟩ := hstep.residue ht
  exact ⟨g ∘ f, gone ++ more, by rw [heq', heq, Module.residue_residue]⟩

lemma sound_start {m : Module} (maxBits : Nat) (h : m.Intact) (erased : List InstId) :
    Sound maxBits ⟨m, [], erased⟩ :=
  ⟨h, List.nodup_nil, fun i hi => absurd hi (by simp)⟩

/-! ## Runs -/

section Runs

variable {m : Module} {b : BlockId}

lemma Steps.functions (h : Steps maxBits s t) (hs : s.Sound maxBits) :
    t.module.functions = s.module.functions := by
  obtain ⟨f, gone, hbare⟩ := h.residue hs
  exact Module.functions_of_residue hbare

lemma Steps.placedBlocks (h : Steps maxBits s t) (hs : s.Sound maxBits) :
    t.module.placedBlocks = s.module.placedBlocks := by
  rw [Module.placedBlocks, Module.placedBlocks, h.functions hs]

lemma Steps.parent (h : Steps maxBits s t) (hs : s.Sound maxBits) {i : InstId} {inst inst' : Inst}
    (hi : s.module.inst? i = some inst) (hi' : t.module.inst? i = some inst') :
    inst'.parent = inst.parent := by
  obtain ⟨f, gone, hbare⟩ := h.residue hs
  obtain ⟨-, inst₀, hi₀, heq⟩ := Module.inst?_of_residue hbare hi'
  obtain rfl : inst₀ = inst := Option.some.inj (hi₀.symm.trans hi)
  rw [Inst.parent_eq_of_bare heq, Inst.parent_rename]

/-- A scan succeeds.  It takes one step for each instruction that it queues. -/
lemma Sound.scan_steps (hs : s.Sound maxBits) (hb : b ∈ s.module.placedBlocks) {ids : List InstId}
    (hids : ∀ i ∈ ids, ∃ inst, s.module.inst? i = some inst ∧ inst.parent = b)
    (hnodup : ids.Nodup) (hfresh : ∀ i ∈ ids, i ∉ s.waiting) :
    ∃ m' queued, s.module.scan maxBits ids = .ok (m', queued) ∧ queued.Sublist ids ∧
      Steps maxBits s ⟨m', s.waiting ++ queued, s.erased⟩ := by
  induction ids generalizing s with
  | nil => exact ⟨s.module, [], rfl, .slnil, by rw [List.append_nil]⟩
  | cons i rest ih =>
    obtain ⟨inst, hi, rfl⟩ := hids i List.mem_cons_self
    obtain ⟨hnew, hnodup⟩ := List.nodup_cons.1 hnodup
    rcases hs.intact.foldInst maxBits hi with hrun | ⟨kept, hfolds, hne, hrun⟩
    · -- The instruction stays as it is.
      obtain ⟨m', queued, hscan, hsub, hsteps⟩ := ih hs hb
        (fun j hj => hids j (List.mem_cons_of_mem i hj)) hnodup
        (fun j hj => hfresh j (List.mem_cons_of_mem i hj))
      refine ⟨m', queued, ?_, hsub.cons i, hsteps⟩
      simp only [Module.scan, hrun, ok_bind, hscan]
      rfl
    · -- The instruction is folded, and queued before those that follow.
      have hstep : Step maxBits s
          ⟨s.module.redirected inst.result kept, s.waiting ++ [i], s.erased⟩ :=
        .fold hi hb hfolds hne (hfresh i List.mem_cons_self)
      have hsteps₁ : Steps maxBits s _ := .single hstep
      obtain ⟨m', queued, hscan, hsub, hsteps⟩ := ih (hstep.sound hs)
        (by rwa [hsteps₁.placedBlocks hs])
        (fun j hj => by
          obtain ⟨instj, hlive, hparent⟩ := hids j (List.mem_cons_of_mem i hj)
          obtain ⟨instj', hlive', heq⟩ := Module.inst?_residue_of_not_mem
            (Module.bare_redirected s.module inst.result kept) hlive (by simp)
          exact ⟨instj', hlive', (hsteps₁.parent hs hlive hlive').trans hparent⟩)
        hnodup
        (fun j hj hmem => by
          rcases List.mem_append.1 hmem with hmem | hmem
          · exact hfresh j (List.mem_cons_of_mem i hj) hmem
          · exact hnew (List.mem_singleton.1 hmem ▸ hj))
      refine ⟨m', i :: queued, ?_, hsub.cons_cons i, hsteps₁.trans ?_⟩
      · simp only [Module.scan, hrun, ok_bind, hscan]
        rfl
      · simpa using hsteps

/-- What waits can be erased from the block that holds it. -/
lemma Sound.erasable (hs : s.Sound maxBits) {i : InstId} (hi : i ∈ s.waiting)
    (hparent : ∀ inst, s.module.inst? i = some inst → inst.parent = b) : s.module.Erasable b i := by
  obtain ⟨inst, hlive, hunread, -⟩ := hs.waiting i hi
  obtain ⟨value, hv, -⟩ := hs.intact.shaped.result i inst hlive
  exact ⟨inst, value, hlive, hparent inst hlive, hv,
    (hs.intact.agrees.uses_eq_empty_iff hv).2 hunread⟩

end Runs

end Sweep

namespace Module

open Sweep

variable {m m' : Module} {maxBits : Nat} {b : BlockId}

/-- However far a block has been scanned, the queue can be erased from it. -/
lemma Intact.scan_steps (h : m.Intact) (maxBits : Nat) (hb : b ∈ m.placedBlocks) {block : Block}
    (hblock : m.block? b = some block) {seen unseen : List InstId}
    (hinsts : block.insts.toList = seen ++ unseen) (erased : List InstId) :
    ∃ m₁ queued, m.scan maxBits seen = .ok (m₁, queued) ∧
      Steps maxBits ⟨m, [], erased⟩ ⟨m₁, queued, erased⟩ ∧ ∀ i ∈ queued, m₁.Erasable b i := by
  have hs := sound_start maxBits h erased
  have hlive : ∀ i ∈ seen, ∃ inst, m.inst? i = some inst ∧ inst.parent = b := fun i hi =>
    h.shaped.exists_inst hblock i (hinsts ▸ List.mem_append_left unseen hi)
  have hnodup := h.shaped.heldOnce b block hblock
  rw [hinsts] at hnodup
  obtain ⟨m₁, queued, hscan, hsub, hsteps⟩ := hs.scan_steps hb hlive
    (List.nodup_append.1 hnodup).1 fun _ _ => List.not_mem_nil
  rw [List.nil_append] at hsteps
  refine ⟨m₁, queued, hscan, hsteps, fun i hi => ?_⟩
  refine (hsteps.sound hs).erasable hi fun inst' hlive' => ?_
  obtain ⟨inst, hi₀, rfl⟩ := hlive i (hsub.subset hi)
  exact hsteps.parent hs hi₀ hlive'

/-- A block is simplified in one step for each instruction that is queued, and one for their
erasure. -/
lemma Intact.simplifyBlock_steps (h : m.Intact) (maxBits : Nat) (hb : b ∈ m.placedBlocks)
    (erased : List InstId) :
    ∃ m' gone, m.simplifyBlock maxBits b = .ok (m', gone.length) ∧
      Steps maxBits ⟨m, [], erased⟩ ⟨m', [], erased ++ gone⟩ := by
  obtain ⟨block, hblock⟩ := h.shaped.exists_block hb
  have hs := sound_start maxBits h erased
  obtain ⟨m₁, queued, hscan, hsteps, hqueued⟩ :=
    h.scan_steps maxBits hb hblock (List.append_nil _).symm erased
  have h₁ := (hsteps.sound hs).intact
  obtain ⟨block₁, hblock₁⟩ := h₁.shaped.exists_block (by rwa [hsteps.placedBlocks hs])
  obtain ⟨m', herase, -⟩ := h₁.eraseInsts hblock₁ hqueued
  refine ⟨m', queued, ?_, hsteps.tail (.erase herase)⟩
  simp only [simplifyBlock, getBlock_eq_ok.2 hblock, ok_bind, hscan, herase]
  rfl

lemma Intact.simplifyBlocks_steps (h : m.Intact) (maxBits : Nat) {bs : List BlockId}
    (hbs : ∀ b ∈ bs, b ∈ m.placedBlocks) (erased : List InstId) :
    ∃ m' gone, m.simplifyBlocks maxBits bs = .ok (m', gone.length) ∧
      Steps maxBits ⟨m, [], erased⟩ ⟨m', [], erased ++ gone⟩ := by
  induction bs generalizing m erased with
  | nil => exact ⟨m, [], rfl, by rw [List.append_nil]⟩
  | cons b rest ih =>
    have hb := hbs b List.mem_cons_self
    obtain ⟨m₁, here, hrun, hsteps⟩ := h.simplifyBlock_steps maxBits hb erased
    have hs := sound_start maxBits h erased
    obtain ⟨m', later, hrest, hsteps'⟩ := ih (hsteps.sound hs).intact
      (fun c hc => by
        rw [hsteps.placedBlocks hs]
        exact hbs c (List.mem_cons_of_mem b hc)) (erased ++ here)
    refine ⟨m', here ++ later, ?_, hsteps.trans (by rwa [← List.append_assoc])⟩
    simp only [simplifyBlocks, hrun, ok_bind, hrest, List.length_append]
    rfl

/-- A function that is there can be simplified. -/
lemma Intact.eliminate_steps (h : m.Intact) (maxBits : Nat) {f : FuncId} {func : Func}
    (hf : m.func? f = some func) (erased : List InstId) :
    ∃ m' gone, m.eliminate f maxBits = .ok (m', gone.length) ∧
      Steps maxBits ⟨m, [], erased⟩ ⟨m', [], erased ++ gone⟩ := by
  have hplaced : ∀ b ∈ func.layout.toList, b ∈ m.placedBlocks := fun b hb =>
    mem_placedBlocks.2 ⟨f, func, hf, Array.mem_toList_iff.1 hb⟩
  obtain ⟨m', gone, hrun, hsteps⟩ := h.simplifyBlocks_steps maxBits hplaced erased
  refine ⟨m', gone, ?_, hsteps⟩
  simp only [eliminate, getFunc_eq_ok.2 hf, ok_bind, hrun]

lemma Intact.eliminateAll_steps (h : m.Intact) (maxBits : Nat) {fs : List FuncId}
    (hfs : ∀ f ∈ fs, ∃ func, m.func? f = some func) (erased : List InstId) :
    ∃ m' gone, m.eliminateAll maxBits fs = .ok (m', ⟨(m.definitions fs).length, gone.length⟩) ∧
      Steps maxBits ⟨m, [], erased⟩ ⟨m', [], erased ++ gone⟩ := by
  induction fs generalizing m erased with
  | nil => exact ⟨m, [], rfl, by rw [List.append_nil]⟩
  | cons f rest ih =>
    obtain ⟨func, hf⟩ := hfs f List.mem_cons_self
    by_cases hdecl : func.isDeclaration = true
    · obtain ⟨m', gone, hrun, hsteps⟩ := ih h (fun g hg => hfs g (List.mem_cons_of_mem f hg)) erased
      refine ⟨m', gone, ?_, hsteps⟩
      simp only [eliminateAll, getFunc_eq_ok.2 hf, ok_bind, hdecl, if_true, hrun, definitions,
        List.filter_cons, hf, Option.any_some, Bool.not_true, Bool.false_eq_true, if_false]
    · obtain ⟨m₁, here, hrun, hsteps⟩ := h.eliminate_steps maxBits hf erased
      have hs := sound_start maxBits h erased
      have hfuncs : ∀ g, m₁.func? g = m.func? g := fun g => by
        rw [func?, func?, show m₁.functions = m.functions from hsteps.functions hs]
      obtain ⟨m', later, hrest, hsteps'⟩ := ih (hsteps.sound hs).intact
        (fun g hg => hfuncs g ▸ hfs g (List.mem_cons_of_mem f hg)) (erased ++ here)
      refine ⟨m', here ++ later, ?_, hsteps.trans (by rwa [← List.append_assoc])⟩
      rw [Bool.not_eq_true] at hdecl
      have hdefs : m₁.definitions rest = m.definitions rest := by simp only [definitions, hfuncs]
      simp only [eliminateAll, getFunc_eq_ok.2 hf, ok_bind, hdecl, Bool.false_eq_true, if_false,
        hrun, hrest, hdefs, List.length_append]
      simp [definitions, hf, hdecl]

lemma simplify_unverified {r : Module × Stats} :
    m.simplify ⟨maxBits, false⟩ = .ok r ↔ m.eliminateAll maxBits m.funcIds = .ok r := by
  simp [simplify]

/-- Verification decides whether there is an outcome, not which. -/
lemma eliminateAll_of_simplify {o : Options} {r : Module × Stats} (h : m.simplify o = .ok r) :
    m.eliminateAll o.maxIdentityBits m.funcIds = .ok r := by
  rw [simplify] at h
  cases hv : o.verify with
  | false => simpa [hv] using h
  | true =>
    simp only [hv, if_true, bind_eq_ok, liftM_eq_ok, pure_eq_ok] at h
    obtain ⟨-, -, ⟨m', stats⟩, hrun, -, -, rfl⟩ := h
    exact hrun

/-- A run without verification succeeds, and is a sequence of steps. -/
theorem Intact.simplify_steps (h : m.Intact) (maxBits : Nat) :
    ∃ m' gone, m.simplify ⟨maxBits, false⟩
        = .ok (m', ⟨(m.definitions m.funcIds).length, gone.length⟩) ∧
      Steps maxBits ⟨m, [], []⟩ ⟨m', [], gone⟩ := by
  have hfuncs : ∀ f ∈ m.funcIds, ∃ func, m.func? f = some func := fun f => mem_funcIds.1
  obtain ⟨m', gone, hrun, hsteps⟩ := h.eliminateAll_steps maxBits hfuncs []
  exact ⟨m', gone, simplify_unverified.2 hrun, hsteps⟩

end Module
end SsaFold
