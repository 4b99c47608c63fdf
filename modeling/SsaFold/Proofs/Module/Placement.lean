import Mathlib.Data.List.Nodup
import SsaFold.Proofs.Module.Intact

/-!
# Placement

The placed blocks and the instructions in them.  In an intact module both lists are free of
repetitions: a block tells which layout it belongs to, and an instruction tells its block.
-/

namespace SsaFold
namespace Module

variable {m m' : Module} {b : BlockId}

/-! ## Blocks -/

lemma mem_functions {func : Func} : func ∈ m.functions ↔ ∃ f, m.func? f = some func := by
  rw [Array.mem_iff_getElem?]
  constructor
  · rintro ⟨k, hk⟩
    exact ⟨⟨k⟩, hk⟩
  · rintro ⟨⟨k⟩, hk⟩
    exact ⟨k, hk⟩

lemma mem_placedBlocks :
    b ∈ m.placedBlocks ↔ ∃ f func, m.func? f = some func ∧ b ∈ func.layout := by
  simp only [placedBlocks, List.mem_flatMap, Array.mem_toList_iff, mem_functions]
  constructor
  · rintro ⟨func, ⟨f, hf⟩, hb⟩
    exact ⟨f, func, hf, hb⟩
  · rintro ⟨f, func, hf, hb⟩
    exact ⟨func, ⟨f, hf⟩, hb⟩

/-- A placed block is there. -/
lemma Shaped.exists_block (h : m.Shaped) (hb : b ∈ m.placedBlocks) :
    ∃ block, m.block? b = some block := by
  obtain ⟨f, func, hf, hmem⟩ := mem_placedBlocks.1 hb
  obtain ⟨block, hblock, -⟩ := h.placed f func hf b hmem
  exact ⟨block, hblock⟩

/-- What a block lists is there, and the block is its parent. -/
lemma Shaped.exists_inst (h : m.Shaped) {block : Block} (hb : m.block? b = some block) :
    ∀ i ∈ block.insts.toList, ∃ inst, m.inst? i = some inst ∧ inst.parent = b :=
  fun i hi => (h.held i b).1 ⟨block, hb, Array.mem_toList_iff.1 hi⟩

lemma Shaped.count_eq (h : m.Shaped) {i : InstId} {inst : Inst} (hi : m.inst? i = some inst)
    {b : BlockId} {block : Block} (hb : m.block? b = some block) :
    block.insts.toList.count i = if b = inst.parent then 1 else 0 := by
  split_ifs with hparent
  · subst hparent
    obtain ⟨block', hb', hmem⟩ := (h.held i inst.parent).2 ⟨inst, hi, rfl⟩
    obtain rfl : block = block' := Option.some.inj (hb.symm.trans hb')
    exact List.count_eq_one_of_mem (h.heldOnce _ block hb) (Array.mem_toList_iff.2 hmem)
  · refine List.count_eq_zero.2 fun hmem => hparent ?_
    obtain ⟨inst', hi', rfl⟩ := (h.held i b).1 ⟨block, hb, Array.mem_toList_iff.1 hmem⟩
    rw [Option.some.inj (hi.symm.trans hi')]

lemma Shaped.nodup_placedBlocks (h : m.Shaped) : m.placedBlocks.Nodup := by
  refine List.nodup_flatMap.2 ⟨fun func hfunc => ?_, ?_⟩
  · obtain ⟨k, hk⟩ := Array.mem_iff_getElem?.1 (Array.mem_toList_iff.1 hfunc)
    exact h.placedOnce ⟨k⟩ func hk
  · rw [List.pairwise_iff_getElem]
    intro j k hj hk hjk b hbj hbk
    -- The function of a block tells in whose layout it is.
    have hfunc : ∀ n (hn : n < m.functions.toList.length),
        m.func? ⟨n⟩ = some m.functions.toList[n] := by
      intro n hn
      simp [func?]
    obtain ⟨block, hb, hbf⟩ := h.placed ⟨j⟩ _ (hfunc j hj) b (Array.mem_toList_iff.1 hbj)
    obtain ⟨block', hb', hbf'⟩ := h.placed ⟨k⟩ _ (hfunc k hk) b (Array.mem_toList_iff.1 hbk)
    obtain rfl : block = block' := Option.some.inj (hb.symm.trans hb')
    have := FuncId.mk.inj (hbf.symm.trans hbf')
    omega

/-! ## Instructions -/

/-- The instructions of a block in order, if there is one. -/
def instsOf (m : Module) (b : BlockId) : List InstId := ((m.block? b).map (·.insts.toList)).getD []

lemma placedInsts_eq : m.placedInsts = m.placedBlocks.flatMap m.instsOf := rfl

lemma mem_instsOf {i : InstId} :
    i ∈ m.instsOf b ↔ ∃ block, m.block? b = some block ∧ i ∈ block.insts := by
  rw [instsOf]
  cases m.block? b <;> simp

/-- An instruction is placed if its parent is. -/
lemma Shaped.mem_placedInsts (h : m.Shaped) {i : InstId} :
    i ∈ m.placedInsts ↔ ∃ inst, m.inst? i = some inst ∧ inst.parent ∈ m.placedBlocks := by
  simp only [placedInsts_eq, List.mem_flatMap, mem_instsOf, h.held]
  constructor
  · rintro ⟨_, hb, inst, hi, rfl⟩
    exact ⟨inst, hi, hb⟩
  · rintro ⟨inst, hi, hb⟩
    exact ⟨_, hb, inst, hi, rfl⟩

lemma Shaped.nodup_placedInsts (h : m.Shaped) : m.placedInsts.Nodup := by
  rw [placedInsts_eq]
  refine List.nodup_flatMap.2 ⟨fun b hb => ?_, ?_⟩
  · rw [instsOf]
    cases hblock : m.block? b with
    | none => exact List.nodup_nil
    | some block => exact h.heldOnce b block hblock
  · refine h.nodup_placedBlocks.imp fun {b c} hne i hb hc => hne ?_
    -- The parent of an instruction tells in which block it is.
    obtain ⟨inst, hi, rfl⟩ := (h.held i b).1 (mem_instsOf.1 hb)
    obtain ⟨inst', hi', rfl⟩ := (h.held i c).1 (mem_instsOf.1 hc)
    rw [Option.some.inj (hi.symm.trans hi')]

/-- Taking instructions out of the blocks takes them out of the list of the placed ones. -/
lemma placedInsts_of_blocks {gone : List InstId} (hfuncs : m'.functions = m.functions)
    (hblocks : m'.blocks = m.blocks.map fun b => { b with insts := b.insts.filter (· ∉ gone) }) :
    m'.placedInsts = m.placedInsts.filter (· ∉ gone) := by
  have hplaced : m'.placedBlocks = m.placedBlocks := by rw [placedBlocks, placedBlocks, hfuncs]
  rw [placedInsts_eq, placedInsts_eq, hplaced, List.filter_flatMap]
  congr 1
  funext b
  rw [instsOf, instsOf, block?, block?, hblocks, Array.getElem?_map]
  cases m.blocks[b.index]? <;> simp

lemma placedInsts_of_residue {s : ValueId → ValueId} {gone : List InstId}
    (hbare : m'.bare = m.bare.residue s gone) :
    m'.placedInsts = m.placedInsts.filter (· ∉ gone) :=
  placedInsts_of_blocks (functions_of_residue hbare) (blocks_of_residue hbare)

/-- Each erased instruction counts once. -/
lemma Shaped.instCount_of_residue (h : m.Shaped) {s : ValueId → ValueId} {gone : List InstId}
    (hbare : m'.bare = m.bare.residue s gone) (hgone : gone.Nodup)
    (hplaced : ∀ i ∈ gone, i ∈ m.placedInsts) : gone.length + m'.instCount = m.instCount := by
  have hperm : (m.placedInsts.filter (· ∈ gone)).Perm gone := by
    refine (List.perm_ext_iff_of_nodup (h.nodup_placedInsts.filter _) hgone).2 fun i => ?_
    simp only [List.mem_filter, decide_eq_true_eq]
    exact ⟨And.right, fun hi => ⟨hplaced i hi, hi⟩⟩
  rw [instCount, instCount, placedInsts_of_residue hbare, ← hperm.length_eq,
    List.length_eq_length_filter_add (l := m.placedInsts) (· ∈ gone)]
  simp

/-! ## Functions -/

lemma mem_funcIds {f : FuncId} : f ∈ m.funcIds ↔ ∃ func, m.func? f = some func := by
  rcases f with ⟨k⟩
  simp only [funcIds, List.mem_map, List.mem_range, FuncId.mk.injEq, exists_eq_right, func?]
  constructor
  · exact fun hk => ⟨_, Array.getElem?_eq_getElem hk⟩
  · rintro ⟨func, hf⟩
    exact (Array.getElem?_eq_some_iff.1 hf).1

/-- The definitions among some functions. -/
def definitions (m : Module) (fs : List FuncId) : List FuncId :=
  fs.filter fun f => (m.func? f).any fun func => !func.isDeclaration

lemma countP_range {α : Type} (p : α → Bool) (xs : List α) :
    (List.range xs.length).countP (fun k => (xs[k]?).any p) = xs.countP p := by
  induction xs with
  | nil => rfl
  | cons x xs ih =>
    rw [List.length_cons, List.range_succ_eq_map, List.countP_cons, List.countP_map,
      List.countP_cons]
    simpa [Function.comp_def] using ih

/-- The definitions are the functions whose layout is not empty. -/
lemma length_definitions :
    (m.definitions m.funcIds).length = m.functions.toList.countP fun f => !f.layout.isEmpty := by
  rw [definitions, funcIds, ← List.countP_eq_length_filter, List.countP_map,
    ← countP_range _ m.functions.toList]
  simp [Function.comp_def, func?, Func.isDeclaration]

end Module
end SsaFold
