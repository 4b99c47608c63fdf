import SsaFold.Proofs.Module.Check
import SsaFold.Proofs.Text.Bodies

/-!
# What is read is lawful

A module is lawful if each block has its place in its own function, an instruction reads and
branches within its function only, and the typing rules are obeyed.  Whatever the reader returns is
lawful, and the simplifier keeps it so (`Module.lawful_ofText`).

The reader leaves a draft in which no placeholder is read any more (`Module.Complete`), and this is
what the steps of a run keep.  A fold sends the reads of a result to an operand of the same
instruction.  Both are of one type, and both belong to the function of that instruction.
-/

namespace SsaFold
namespace Module

variable {m m' : Module}

/-! ## Lawful modules -/

/-- The instruction obeys the typing rules and keeps to its function. -/
structure LawfulInst (m : Module) (inst : Inst) : Prop where
  typed : m.TypedInst inst
  /-- All that it reads can be read in its function, and it branches within this function. -/
  within : ∃ f, m.owner? inst.parent = some f ∧ (∀ v ∈ inst.operandValues, m.Visible f v) ∧
    ∀ b ∈ inst.targets, m.owner? b = some f
  /-- A `phi` chooses from something. -/
  incoming : inst.opcode = .phi → inst.targets ≠ []

/-- The module is well-formed and well-typed. -/
structure Lawful (m : Module) : Prop where
  /-- Every block is placed once, in its own function. -/
  placedOnce : ∀ b block, m.block? b = some block → m.placedBlocks.count b = 1 ∧
    ∃ func, m.func? block.func = some func ∧ b ∈ func.layout
  insts : ∀ i inst, m.inst? i = some inst → m.LawfulInst inst

/-! ## Complete modules -/

/-- The module is a draft in which nothing is missing. -/
structure Complete (m : Module) : Prop where
  intact : m.Intact
  typed : m.Typed
  draft : m.Draft
  /-- No placeholder is read. -/
  resolved : ∀ i inst, m.inst? i = some inst → ∀ v ∈ inst.operandValues,
    m.kind? v ≠ some .placeholder
  placed : ∀ b block, m.block? b = some block → b ∈ m.placedBlocks
  /-- No block goes on after a terminator. -/
  ends : ∀ b block, m.block? b = some block → block.insts.toList.Pairwise fun i _ =>
    ∀ inst, m.inst? i = some inst → inst.opcode.isTerminator = false

/-- What is read can be read in the function. -/
lemma Complete.within (h : m.Complete) {i : InstId} {inst : Inst} (hi : m.inst? i = some inst) :
    ∃ f, m.owner? inst.parent = some f ∧ (∀ v ∈ inst.operandValues, m.Visible f v) ∧
      ∀ b ∈ inst.targets, m.owner? b = some f := by
  obtain ⟨f, howner, hoperands, htargets⟩ := (h.draft.insts i inst hi).within
  exact ⟨f, howner, fun v hv => (hoperands v hv).resolve_right (h.resolved i inst hi v hv),
    htargets⟩

lemma Complete.visible (h : m.Complete) {i : InstId} {inst : Inst} (hi : m.inst? i = some inst)
    {f : FuncId} (hf : m.owner? inst.parent = some f) {v : ValueId} (hv : v ∈ inst.operandValues) :
    m.Visible f v := by
  obtain ⟨g, hg, hoperands, -⟩ := h.within hi
  obtain rfl := Option.some.inj (hf.symm.trans hg)
  exact hoperands v hv

theorem Complete.lawful (h : m.Complete) : m.Lawful := by
  refine ⟨fun b block hb => ?_, fun i inst hi => ⟨h.typed i inst hi, h.within hi, fun hphi => ?_⟩⟩
  · have hplaced := h.placed b block hb
    refine ⟨List.count_eq_one_of_mem h.intact.shaped.nodup_placedBlocks hplaced, ?_⟩
    obtain ⟨f, func, hf, hmem⟩ := mem_placedBlocks.1 hplaced
    obtain ⟨block', hb', rfl⟩ := h.intact.shaped.placed f func hf b hmem
    obtain rfl := Option.some.inj (hb.symm.trans hb')
    exact ⟨func, hf, hmem⟩
  · obtain ⟨s, hs, hspec, hlength⟩ := (h.draft.insts i inst hi).stated
    have hop : s.operation.opcode = .phi := by rw [← hphi, hspec]; rfl
    intro hnil
    cases hoperation : s.operation with
    | phi ty incoming =>
      rw [hnil, hoperation, Text.Operation.labels, List.length_nil, List.length_map] at hlength
      exact hs.operation.incoming ty incoming hoperation (List.length_eq_zero_iff.1 hlength.symm)
    | _ => simp [hoperation, Text.Operation.opcode] at hop

/-- A block of a function stands in its layout. -/
lemma Complete.mem_layout (h : m.Complete) {f : FuncId} {func : Func} (hf : m.func? f = some func)
    {b : BlockId} (hb : m.owner? b = some f) : b ∈ func.layout := by
  obtain ⟨block, hblock, rfl⟩ := owner?_eq_some.1 hb
  obtain ⟨-, func', hf', hlayout⟩ := h.lawful.placedOnce b block hblock
  obtain rfl := Option.some.inj (hf.symm.trans hf')
  exact hlayout

/-- A result can be read in the function of its instruction. -/
lemma Complete.visible_result (h : m.Complete) {i : InstId} {inst : Inst}
    (hi : m.inst? i = some inst) {f : FuncId} (hf : m.owner? inst.parent = some f)
    (hvoid : inst.ty ≠ .void) :
    m.Visible f inst.result := by
  obtain ⟨value, hvalue, hkind⟩ := h.intact.shaped.result i inst hi
  obtain ⟨value', hvalue', hty⟩ := typeOf?_eq_some.1 (h.typed i inst hi).1
  obtain rfl := Option.some.inj (hvalue.symm.trans hvalue')
  exact ⟨value, hvalue, hty ▸ hvoid, hkind ▸ ⟨inst, hi, rfl, hf⟩⟩

/-! ## After the last line -/

lemma Resolved.kind?_ne (h : m.Resolved) {i : InstId} {inst : Inst} (hi : m.inst? i = some inst)
    {v : ValueId} (hv : v ∈ inst.operandValues) : m.kind? v ≠ some .placeholder := by
  intro hkind
  obtain ⟨value, hvalue, hplaceholder⟩ := kind?_eq_some.1 hkind
  obtain ⟨o, ho, rfl⟩ := List.mem_map.1 hv
  obtain ⟨k, hk⟩ := List.mem_iff_getElem?.1 ho
  rw [Array.getElem?_toList] at hk
  exact h ⟨i, k⟩ o value ((operand?_of_inst? hi k).trans hk) hvalue hplaceholder

lemma Ends.pairwise {block : Block} (h : m.Ends block) : block.insts.toList.Pairwise fun i _ =>
    ∀ inst, m.inst? i = some inst → inst.opcode.isTerminator = false := by
  obtain ⟨init, last, -, hlist, -, -, hinit⟩ := h
  rw [hlist, List.pairwise_append]
  exact ⟨List.pairwise_of_forall_mem_list fun i hi _ _ => hinit i hi, List.pairwise_singleton _ _,
    fun i hi _ _ => hinit i hi⟩

/-- A draft in which all blocks are placed and no defect is found is complete. -/
lemma Draft.complete (h : m.Draft) (hm : m.WellFormed) (hcheck : m.check = .ok ())
    (hplaced : ∀ b block, m.block? b = some block → b ∈ m.placedBlocks) : m.Complete := by
  have hintact := hm.reachable.intact
  obtain ⟨hresolved, hends⟩ := hintact.check_eq_ok_iff.1 hcheck
  exact ⟨hintact, hm.typed, h, fun _ _ hi _ hv => hresolved.kind?_ne hi hv, hplaced,
    fun b block hb => (hends b (hplaced b block hb) block hb).pairwise⟩

/-- What the reader returns is complete. -/
theorem complete_ofText {text : String} (hread : ofText text = .ok m) : m.Complete := by
  obtain ⟨hm, hcheck⟩ := wellFormed_ofText hread
  simp only [ofText, bind_eq_ok, mapError_eq_ok, pure_eq_ok] at hread
  obtain ⟨o, houtline, s, hheaders, m₁, hbodies, ⟨⟩, -, rfl⟩ := hread
  obtain ⟨hsketch, hlines⟩ := Text.Outline.ofText_sketch houtline
  have hsound := Text.Outline.headers_sound hsketch hlines hheaders
  have := Text.readBodies_sketch hsound hlines hbodies
  exact this.draft.complete hm hcheck this.placed

/-! ## Through a run of the simplifier -/

section Residue

variable {s : ValueId → ValueId} {gone : List InstId}

/-- What can be read can still be read, unless it is the result of an erased instruction. -/
lemma Visible.of_residue {f : FuncId} {v : ValueId} (h : m.Visible f v)
    (hbare : m'.bare = m.bare.residue s gone)
    (hgone : ∀ i inst, m.inst? i = some inst → inst.result = v → i ∉ gone) : m'.Visible f v := by
  obtain ⟨value, hv, hty, hoffers⟩ := h
  have hvalue := value?_of_residue hbare v
  rw [hv, Option.map_some, Option.map_eq_some_iff] at hvalue
  obtain ⟨value', hv', heq⟩ := hvalue
  have hkind' : value'.kind = value.kind := (congrArg Value.kind heq : _)
  have hty' : value'.ty = value.ty := (congrArg Value.ty heq : _)
  refine ⟨value', hv', hty' ▸ hty, hkind' ▸ ?_⟩
  have hfunc : ∀ g, m'.func? g = m.func? g := fun g => by
    rw [func?, func?, functions_of_residue hbare]
  cases hkind : value.kind with
  | inst i =>
    rw [hkind] at hoffers
    obtain ⟨inst, hi, hresult, howner⟩ := hoffers
    obtain ⟨inst', hi', heq⟩ := inst?_residue_of_not_mem hbare hi (hgone i inst hi hresult)
    refine ⟨inst', hi', ?_, ?_⟩
    · rw [Inst.result_eq_of_bare heq, Inst.result_rename, hresult]
    · rw [Inst.parent_eq_of_bare heq, Inst.parent_rename, ← howner, owner?, owner?,
        block?_of_residue hbare]
      cases m.block? inst.parent <;> rfl
  | global g =>
    rw [hkind] at hoffers
    show ∃ glob, m'.global? g = some glob
    rwa [global?, (header_of_residue hbare).1]
  | argument g k =>
    rw [hkind] at hoffers
    obtain ⟨hg, func, hf, hparam⟩ := hoffers
    exact ⟨hg, func, (hfunc f).trans hf, hparam⟩
  | function g =>
    rw [hkind] at hoffers
    obtain ⟨func, hf⟩ := hoffers
    exact ⟨func, (hfunc g).trans hf⟩
  | placeholder => rw [hkind] at hoffers; exact hoffers
  | _ => trivial

/-- The callee of a call is a pointer. -/
lemma TypedInst.callee {inst : Inst} (h : m.TypedInst inst) (hcall : inst.opcode = .call)
    {v : ValueId} (hv : inst.operandValues.getLast? = some v) : m.typeOf? v = some .ptr := by
  obtain ⟨-, tys, htys, haccepts⟩ := h
  simp only [InstSpec.Accepts, hcall] at haccepts
  obtain ⟨args, rfl⟩ := haccepts
  have := congrArg List.getLast? htys
  rw [List.getLast?_map, List.getLast?_map, hv, List.getLast?_concat, Option.map_some,
    Option.map_some] at this
  exact Option.some.inj this

/-- A complete module stays so when reads are sent to what can be read at the same place and is of
the same type, and instructions are erased that nothing reads.  A pointer is read as before. -/
lemma Complete.of_residue (h : m.Complete) (hm' : m'.Intact)
    (hbare : m'.bare = m.bare.residue s gone) (htypes : ∀ v, m.typeOf? (s v) = m.typeOf? v)
    (hpointers : ∀ v, m.typeOf? v = some .ptr → s v = v)
    (hreads : ∀ i inst, i ∉ gone → m.inst? i = some inst → ∀ f, m.owner? inst.parent = some f →
      ∀ v ∈ inst.operandValues, m.Visible f (s v) ∧
        ∀ j inst', m.inst? j = some inst' → inst'.result = s v → j ∉ gone) : m'.Complete := by
  have hvisible : ∀ i inst, i ∉ gone → m.inst? i = some inst → ∀ f, m.owner? inst.parent = some f →
      ∀ v ∈ inst.operandValues, m'.Visible f (s v) := by
    intro i inst hgone hi f hf v hv
    obtain ⟨hv, hnew⟩ := hreads i inst hgone hi f hf v hv
    exact hv.of_residue hbare hnew
  refine ⟨hm', h.typed.of_residue hbare htypes, ?_, fun i inst' hi' v hv => ?_,
    fun b block' hb' => ?_, fun b block' hb' => ?_⟩
  · refine h.draft.of_residue hbare (fun i inst hgone hi f hf v hv _ =>
      .inl (hvisible i inst hgone hi f hf v hv)) fun i inst hi hcall v hv => ?_
    rw [hpointers v ((h.typed i inst hi).callee hcall hv)]
    exact (h.draft.insts i inst hi).callee hcall v hv
  · obtain ⟨hgone, inst, hi, heq⟩ := inst?_of_residue hbare hi'
    rw [Inst.operandValues_eq_of_bare heq, Inst.operandValues_rename, List.mem_map] at hv
    obtain ⟨w, hw, rfl⟩ := hv
    obtain ⟨f, hf, -⟩ := h.within hi
    exact (hvisible i inst hgone hi f hf w hw).not_placeholder
  · rw [block?_of_residue hbare, Option.map_eq_some_iff] at hb'
    obtain ⟨block, hb, -⟩ := hb'
    rw [placedBlocks, functions_of_residue hbare]
    exact h.placed b block hb
  · rw [block?_of_residue hbare, Option.map_eq_some_iff] at hb'
    obtain ⟨block, hb, rfl⟩ := hb'
    rw [Array.toList_filter]
    refine ((h.ends b block hb).imp fun {i j} hi inst' hi' => ?_).filter _
    obtain ⟨-, inst, hinst, heq⟩ := inst?_of_residue hbare hi'
    have hspec := (Inst.toInstSpec_eq_of_bare heq).trans (inst.toInstSpec_rename s)
    rw [congrArg InstSpec.opcode hspec]
    exact hi inst hinst

end Residue

/-- An identity operation yields an integer. -/
lemma Folds.typeOf?_result {maxBits : Nat} {inst : Inst} {kept : ValueId}
    (h : m.Folds maxBits inst kept) (htyped : m.TypedInst inst) :
    ∃ bits, m.typeOf? inst.result = some (.int bits) := by
  obtain ⟨op, hop⟩ := h.exists_binary
  obtain ⟨n, lhs, rhs, -, hvalues, -⟩ := h
  obtain ⟨bits, -, -, hresult⟩ := htyped.operands hop hvalues
  exact ⟨bits, hresult⟩

/-- What an instruction hands on can be read wherever its result is read. -/
lemma Complete.visible_kept (h : m.Complete) {i : InstId} {inst : Inst} (hi : m.inst? i = some inst)
    {kept : ValueId} (hkept : kept ∈ inst.operandValues) {f : FuncId}
    (hresult : m.Visible f inst.result) : m.Visible f kept := by
  obtain ⟨value, hvalue, hkind⟩ := h.intact.shaped.result i inst hi
  obtain ⟨inst', hi', -, howner⟩ := hresult.offers (kind?_eq_some.2 ⟨value, hvalue, hkind⟩)
  obtain rfl := Option.some.inj (hi.symm.trans hi')
  exact h.visible hi howner hkept

end Module

namespace Sweep

variable {maxBits : Nat} {s t : Sweep}

lemma Step.complete (h : Step maxBits s t) (hs : s.Sound maxBits) (hc : s.module.Complete) :
    t.module.Complete := by
  have hintact := (h.sound hs).intact
  cases h with
  | @fold m waiting erased i inst kept live placed folds other fresh =>
    have htyped := hc.typed i inst live
    have htypes := Module.typeOf?_redirection htyped folds
    refine hc.of_residue hintact (Module.bare_redirected _ _ _) htypes (fun v hv => ?_)
      fun j instj _ hj f hf v hv => ⟨?_, fun _ _ _ _ => List.not_mem_nil⟩
    · refine if_neg ?_
      rintro rfl
      -- The result of arithmetic is not a pointer.
      obtain ⟨bits, hty⟩ := folds.typeOf?_result htyped
      rw [hty] at hv
      cases hv
    · rw [Module.redirection]
      split_ifs with hread
      · exact hc.visible_kept live folds.kept_mem (hread ▸ hc.visible hj hf hv)
      · exact hc.visible hj hf hv
  | erase run =>
    refine hc.of_residue hintact (hs.intact.eraseInsts_eq_ok run).2.2
      (fun _ => rfl) (fun _ _ => rfl)
      fun i inst hi hinst f hf v hv => ⟨hc.visible hinst hf hv, fun j instj hj hresult hwaits => ?_⟩
    -- Nothing reads the result of an instruction that waits.
    obtain ⟨instj', hj', hunread, -⟩ := hs.waiting j hwaits
    obtain rfl := Option.some.inj (hj.symm.trans hj')
    exact (hresult ▸ hunread).not_mem hinst hv

end Sweep

namespace Module

variable {m : Module}

/-- The simplifier leaves a complete module complete. -/
lemma Complete.simplify (h : m.Complete) (maxBits : Nat) : ∃ m' stats,
    m.simplify ⟨maxBits, false⟩ = .ok (m', stats) ∧ m'.Complete := by
  obtain ⟨m', gone, hrun, hsteps⟩ := h.intact.simplify_steps maxBits
  exact ⟨m', _, hrun, (hsteps.induction (P := fun t => t.module.Complete)
    (Sweep.sound_start maxBits h.intact []) h fun _ _ hstep hs hc => hstep.complete hs hc).2⟩

/-- Whatever the reader returns is lawful.  The simplifier succeeds on it and leaves a lawful
module, whether it verifies or not. -/
theorem lawful_ofText {text : String} (hread : ofText text = .ok m) (maxBits : Nat) :
    m.Lawful ∧ ∃ m', (∃ stats, m.simplify ⟨maxBits, false⟩ = .ok (m', stats)) ∧
      (∀ verify, m.simplified ⟨maxBits, verify⟩ = .ok m') ∧ m'.Lawful := by
  have hm := complete_ofText hread
  obtain ⟨m', stats, hrun, hm'⟩ := hm.simplify maxBits
  exact ⟨hm.lawful, m', ⟨stats, hrun⟩,
    simplified_of_check (wellFormed_ofText hread).2 hrun, hm'.lawful⟩

/-- A loop whose `phi` reads a value before its definition, with an addition of zero in it. -/
def waitText : String :=
  "define void @f(i1 %c) \x7b\n  br label %b\n" ++
  "b:\n  %p = phi i8 [ 1, %0 ], [ %q, %b ]\n  %q = add i8 %p, 0\n" ++
  "  br i1 %c, label %b, label %d\n" ++
  "d:\n  ret void\n\x7d\n"

theorem lawful_ofText_waitText : ∃ m m', ofText waitText = .ok m ∧ m.Lawful ∧
    (∃ stats, m.simplify ⟨32, false⟩ = .ok (m', stats)) ∧ m'.Lawful := by
  have hok : (ofText waitText).isOk = true := by decide +kernel
  cases hread : ofText waitText with
  | ok m =>
    obtain ⟨hm, m', hrun, -, hm'⟩ := lawful_ofText hread 32
    exact ⟨m, m', rfl, hm, hrun, hm'⟩
  | error e => simp [hread, Except.isOk, Except.toBool] at hok

end Module
end SsaFold
