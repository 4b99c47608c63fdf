import SsaFold.Proofs.Module.Placement
import SsaFold.Proofs.Simplify.Fold

/-!
# What a check can find

`Module.check` looks for ten kinds of defects.  In an intact module only two things can be wrong: a
value is read that was never defined, or a placed block does not end with its only terminator
(`Module.Intact.check_eq_ok_iff`).  Operands and use lists agree there, and each instruction is
listed once, by its parent; the lemmas follow the parts of the check in this order.
-/

namespace SsaFold

namespace Module

variable {m : Module}

/-- No value is read that was never defined. -/
def Resolved (m : Module) : Prop :=
  ∀ u o value, m.operand? u = some o → m.value? o.value = some value → value.kind ≠ .placeholder

/-- The block ends with a terminator and has no other. -/
def Ends (m : Module) (block : Block) : Prop :=
  ∃ init i inst, block.insts.toList = init ++ [i] ∧ m.inst? i = some inst ∧
    inst.opcode.isTerminator = true ∧
    ∀ j ∈ init, ∀ inst, m.inst? j = some inst → inst.opcode.isTerminator = false

/-- Every placed block ends with its only terminator. -/
def Terminated (m : Module) : Prop :=
  ∀ b ∈ m.placedBlocks, ∀ block, m.block? b = some block → m.Ends block

lemma mem_liveInsts {i : InstId} {inst : Inst} :
    (i, inst) ∈ m.liveInsts ↔ m.inst? i = some inst := by
  rcases i with ⟨k⟩
  simp only [liveInsts, List.mem_filterMap, Prod.exists, Option.map_eq_some_iff, Prod.mk.injEq,
    InstId.mk.injEq, List.mem_zipIdx_iff_getElem?, Array.getElem?_toList, inst?,
    Option.join_eq_some_iff]
  constructor
  · rintro ⟨slot, _, hslot, inst', rfl, rfl, rfl⟩
    exact hslot
  · exact fun h => ⟨_, k, h, inst, rfl, rfl, rfl⟩

/-! ## Reads -/

lemma Agrees.operandsDefect?_eq_none (h : m.Agrees) : m.operandsDefect? = none := by
  simp only [operandsDefect?, List.findSome?_eq_none_iff]
  rintro ⟨i, inst⟩ hi ⟨o, k⟩ hk
  rw [mem_liveInsts] at hi
  rw [List.mem_zipIdx_iff_getElem?, Array.getElem?_toList] at hk
  have ho : m.operand? ⟨i, k⟩ = some o := (operand?_of_inst? hi k).trans hk
  obtain ⟨value, hv, hslot⟩ := use?_eq_some.1 ((agrees_iff.1 h ⟨i, k⟩ o.value o.slot).1 ho)
  simp only [operandDefect?, hv, hslot, if_true]

lemma Agrees.useDefect?_eq_none (h : m.Agrees) {v : ValueId} {value : Value}
    (hv : m.value? v = some value) {u : Use} {slot : Nat} (hslot : value.uses[slot]? = some u) :
    m.useDefect? v u slot = none := by
  have ho := (agrees_iff.1 h u v slot).2 (use?_eq_some.2 ⟨value, hv, hslot⟩)
  obtain ⟨inst, hi, hk⟩ := operand?_eq_some.1 ho
  simp only [useDefect?, hi, hk, if_true]

/-- All that can be wrong with the values is that one is read that was never defined. -/
lemma Agrees.valuesDefect?_eq_none_iff (h : m.Agrees) : m.valuesDefect? = none ↔ m.Resolved := by
  have hvalue : ∀ v value, m.value? v = some value → (m.valueDefect? v value = none ↔
      (value.kind = .placeholder → m.Unread v)) := by
    intro v value hv
    have huses : (value.uses.toList.zipIdx.findSome? fun x => m.useDefect? v x.1 x.2) = none := by
      rw [List.findSome?_eq_none_iff]
      rintro ⟨u, slot⟩ hslot
      rw [List.mem_zipIdx_iff_getElem?, Array.getElem?_toList] at hslot
      exact h.useDefect?_eq_none hv hslot
    rw [valueDefect?, huses, Option.none_or, ← h.uses_eq_empty_iff hv]
    by_cases hkind : value.kind = .placeholder <;> simp [hkind]
  simp only [valuesDefect?, List.findSome?_eq_none_iff]
  constructor
  · intro hnone u o value ho hv hkind
    refine (hvalue _ _ hv).1 (hnone (value, o.value.index) ?_) hkind u o ho rfl
    exact List.mem_zipIdx_iff_getElem?.2 (Array.getElem?_toList.trans hv)
  · rintro hresolved ⟨value, k⟩ hk
    rw [List.mem_zipIdx_iff_getElem?, Array.getElem?_toList] at hk
    refine (hvalue ⟨k⟩ value hk).2 fun hkind u o ho hread => ?_
    exact hresolved u o value ho (hread ▸ hk) hkind

/-! ## Places -/

lemma foldl_modify_count (is : List InstId) (counts : Array Nat) {k : Nat} (hk : k < counts.size) :
    (is.foldl (fun counts i => counts.modify i.index (· + 1)) counts).getD k 0
      = counts.getD k 0 + is.count ⟨k⟩ := by
  induction is generalizing counts with
  | nil => rfl
  | cons i is ih =>
    rw [List.foldl_cons, ih _ (by simpa using hk), List.count_cons]
    simp only [Array.getD_eq_getD_getElem?, Array.getElem?_modify, Array.getElem?_eq_getElem hk]
    by_cases hi : i = ⟨k⟩
    · simp only [hi, if_true, Option.map_some, Option.getD_some, beq_self_eq_true]
      omega
    · have hindex : i.index ≠ k := fun heq => hi (congrArg InstId.mk heq)
      simp [hi, hindex]

lemma placementCounts_eq (i : InstId) (hi : i.index < m.insts.size) :
    m.placementCounts.getD i.index 0
      = (m.blocks.toList.flatMap fun b => b.insts.toList).count i := by
  have hfold : m.placementCounts = (m.blocks.toList.flatMap fun b => b.insts.toList).foldl
      (fun counts i => counts.modify i.index (· + 1)) (Array.replicate m.insts.size 0) := by
    rw [placementCounts, List.foldl_flatMap, ← Array.foldl_toList]
    simp only [Array.foldl_toList]
  rw [hfold, foldl_modify_count _ _ (by simpa using hi)]
  simp [hi]

/-- Each instruction is listed once, all blocks taken together. -/
lemma Shaped.nodup_listed (h : m.Shaped) :
    (m.blocks.toList.flatMap fun b => b.insts.toList).Nodup := by
  have hblock : ∀ k (hk : k < m.blocks.toList.length), m.block? ⟨k⟩ = some m.blocks.toList[k] := by
    intro k hk
    simp [block?]
  refine List.nodup_flatMap.2 ⟨fun block hmem => ?_, ?_⟩
  · obtain ⟨k, hk, rfl⟩ := List.getElem_of_mem hmem
    exact h.heldOnce ⟨k⟩ _ (hblock k hk)
  · rw [List.pairwise_iff_getElem]
    intro j k hj hk hjk i hij hik
    -- An instruction that two blocks list has both as its parent.
    obtain ⟨inst, hi, hparent⟩ := h.exists_inst (hblock j hj) i hij
    obtain ⟨inst', hi', hparent'⟩ := h.exists_inst (hblock k hk) i hik
    obtain rfl := Option.some.inj (hi.symm.trans hi')
    have := BlockId.mk.inj (hparent.symm.trans hparent')
    omega

lemma Shaped.placementDefect?_eq_none (h : m.Shaped) : m.placementDefect? = none := by
  simp only [placementDefect?, Option.or_eq_none_iff, List.findSome?_eq_none_iff]
  constructor
  · rintro ⟨block, k⟩ hk
    rw [List.mem_zipIdx_iff_getElem?, Array.getElem?_toList] at hk
    simp only [heldDefect?, List.findSome?_eq_none_iff]
    intro i hi
    obtain ⟨inst, hinst, hparent⟩ := h.exists_inst (b := ⟨k⟩) hk i hi
    simp only [hinst, hparent, if_true]
  · rintro ⟨i, inst⟩ hi
    rw [mem_liveInsts] at hi
    obtain ⟨block, hb, hmem⟩ := (h.held i inst.parent).2 ⟨inst, hi, rfl⟩
    have hlisted : i ∈ m.blocks.toList.flatMap fun b => b.insts.toList :=
      List.mem_flatMap.2 ⟨block, Array.mem_toList_iff.2 (Array.mem_of_getElem? hb),
        Array.mem_toList_iff.2 hmem⟩
    have hindex : i.index < m.insts.size := by
      by_contra hle
      simp [inst?, Array.getElem?_eq_none (by omega : m.insts.size ≤ i.index)] at hi
    simp only [placementCounts_eq i hindex, List.count_eq_one_of_mem h.nodup_listed hlisted,
      if_true]

/-! ## Ends of blocks -/

lemma Shaped.endDefect?_eq_none_iff (h : m.Shaped) (func : String) {b : BlockId} {block : Block}
    (hb : m.block? b = some block) : m.endDefect? func b = none ↔ m.Ends block := by
  have hlive := h.exists_inst hb
  simp only [endDefect?, hb, Option.map_some, Option.getD_some, Ends]
  rcases List.eq_nil_or_concat block.insts.toList with hnil | ⟨init, i, hlist⟩
  · simp [Array.toList_eq_nil_iff.1 hnil]
  · obtain ⟨inst, hi, -⟩ := hlive i (by simp [hlist])
    have hsize : block.insts.size = init.length + 1 := by
      rw [← Array.length_toList, hlist]
      simp
    have hempty : block.insts.isEmpty = false := by
      rw [Array.isEmpty_eq_false_iff, ← Array.size_pos_iff]
      omega
    rw [hempty, if_neg (by simp), hlist, List.findSome?_eq_none_iff]
    simp only [Prod.forall, List.mem_zipIdx_iff_getElem?, hsize, Nat.add_right_cancel_iff]
    -- The check compares at each position whether a terminator stands there with whether it is the
    -- last.
    constructor
    · intro hnone
      refine ⟨init, i, inst, by simp, hi, ?_, fun j hj instj hinstj => ?_⟩
      · have hlast := hnone i init.length (by simp)
        simp only [hi] at hlast
        split_ifs at hlast with hterminator
        simpa using hterminator
      · obtain ⟨k, hk, rfl⟩ := List.getElem_of_mem hj
        have hearlier := hnone init[k] k (by simp [List.getElem?_append, hk])
        simp only [hinstj] at hearlier
        split_ifs at hearlier with hterminator
        rw [hterminator, decide_eq_false_iff_not]
        omega
    · rintro ⟨init', i', inst', heq, hi', hlast, hearlier⟩ j k hj
      obtain ⟨rfl, hconcat⟩ := List.append_inj' (heq.symm.trans List.concat_eq_append) rfl
      obtain rfl := List.singleton_inj.1 hconcat
      obtain rfl := Option.some.inj (hi.symm.trans hi')
      rw [List.concat_eq_append, List.getElem?_append] at hj
      split_ifs at hj with hk
      · cases hinstj : m.inst? j with
        | none => rfl
        | some instj =>
          have hfalse := hearlier j (List.mem_of_getElem? hj) instj hinstj
          simp [hfalse, Nat.ne_of_lt hk]
      · have hlength := (List.getElem?_eq_some_iff.1 hj).1
        rw [List.length_singleton] at hlength
        obtain rfl : k = init'.length := by omega
        rw [Nat.sub_self, List.getElem?_cons_zero, Option.some.injEq] at hj
        simp [← hj, hi, hlast]

lemma Shaped.layoutDefect?_eq_none_iff (h : m.Shaped) : m.layoutDefect? = none ↔ m.Terminated := by
  simp only [layoutDefect?, List.findSome?_eq_none_iff]
  constructor
  · intro hnone b hb block hblock
    obtain ⟨f, func, hf, hmem⟩ := mem_placedBlocks.1 hb
    exact (h.endDefect?_eq_none_iff func.name hblock).1 (hnone func
      (Array.mem_toList_iff.2 (Array.mem_of_getElem? hf)) b (Array.mem_toList_iff.2 hmem))
  · intro hends func hfunc b hmem
    have hb : b ∈ m.placedBlocks := List.mem_flatMap.2 ⟨func, hfunc, hmem⟩
    obtain ⟨block, hblock⟩ := h.exists_block hb
    exact (h.endDefect?_eq_none_iff func.name hblock).2 (hends b hb block hblock)

/-! ## All defects -/

/-- A check of an intact module succeeds exactly if no value is read that was never defined, and
every placed block ends with its only terminator. -/
theorem Intact.check_eq_ok_iff (h : m.Intact) : m.check = .ok () ↔ m.Resolved ∧ m.Terminated := by
  rw [Module.check_eq_ok_iff, defect?, Option.or_eq_none_iff, Option.or_eq_none_iff,
    Option.or_eq_none_iff, h.agrees.valuesDefect?_eq_none_iff, h.shaped.layoutDefect?_eq_none_iff]
  simp [h.agrees.operandsDefect?_eq_none, h.shaped.placementDefect?_eq_none]

end Module
end SsaFold
