import SsaFold.Proofs.Module.Check
import SsaFold.Proofs.Reachable

/-!
# The verdict on a reachable module

Of the ten kinds of defects only three can be found in a module that operations lead to.
`Module.Flaw` has one constructor for each of them, and each says what is wrong in the module that
is refused: a value that is read has no definition, a placed block is empty, or a terminator stands
where none should, or none where one should.

The check of the operands and the check of the places never fail there, and neither does the check
of a recorded read (`Reachable.check_verdict`).
-/

namespace SsaFold
namespace Module

variable {m : Module} {d : Defect}

/-- What can be wrong with an intact module, as the check reports it. -/
inductive Flaw (m : Module) : Defect → Prop
  /-- An instruction reads a value that has no definition, under the name that the value has. -/
  | unresolved {u : Use} {o : Operand} {value : Value} (read : m.operand? u = some o)
      (here : m.value? o.value = some value) (undefined : value.kind = .placeholder) :
      Flaw m (.unresolved value.name)
  /-- A placed block lists nothing. -/
  | emptyBlock {func : Func} {b : BlockId} {block : Block} (declared : func ∈ m.functions)
      (placed : b ∈ func.layout) (here : m.block? b = some block) (empty : block.insts = #[]) :
      Flaw m (.emptyBlock func.name b)
  /-- A placed block lists a terminator before its end, or ends without one. -/
  | terminator {func : Func} {b : BlockId} {block : Block} {k : Nat} {i : InstId} {inst : Inst}
      (declared : func ∈ m.functions) (placed : b ∈ func.layout) (here : m.block? b = some block)
      (listed : block.insts[k]? = some i) (live : m.inst? i = some inst)
      (misplaced : ¬ (inst.opcode.isTerminator = true ↔ k + 1 = block.insts.size)) :
      Flaw m (.terminator func.name b inst.opcode k)

lemma check_eq_error_iff : m.check = .error d ↔ m.defect? = some d := by
  unfold check
  split <;> simp_all

/-! ## What each part of the check finds -/

lemma Agrees.flaw_of_valuesDefect? (h : m.Agrees) (hd : m.valuesDefect? = some d) : m.Flaw d := by
  obtain ⟨⟨value, k⟩, hk, hd⟩ := List.exists_of_findSome?_eq_some hd
  rw [List.mem_zipIdx_iff_getElem?, Array.getElem?_toList] at hk
  have hv : m.value? ⟨k⟩ = some value := hk
  dsimp only at hd
  rw [valueDefect?, Option.or_eq_some_iff] at hd
  rcases hd with hd | ⟨-, hd⟩
  · -- No recorded read is at fault.
    obtain ⟨⟨u, slot⟩, hslot, hd⟩ := List.exists_of_findSome?_eq_some hd
    rw [List.mem_zipIdx_iff_getElem?, Array.getElem?_toList] at hslot
    dsimp only at hd
    rw [h.useDefect?_eq_none hv hslot] at hd
    cases hd
  · split_ifs at hd with hread
    obtain ⟨hkind, huses⟩ := hread
    obtain rfl := Option.some.inj hd
    -- The first recorded read is a read of the value.
    have hsize : 0 < value.uses.size := Array.size_pos_iff.2 huses
    have hslot : value.uses[0]? = some value.uses[0] := Array.getElem?_eq_getElem hsize
    have ho := (agrees_iff.1 h value.uses[0] ⟨k⟩ 0).2 (use?_eq_some.2 ⟨value, hv, hslot⟩)
    exact .unresolved ho hv hkind

lemma flaw_of_endDefect? {func : Func} (hfunc : func ∈ m.functions) {b : BlockId}
    (hb : b ∈ func.layout) {block : Block} (hblock : m.block? b = some block)
    (hd : m.endDefect? func.name b = some d) : m.Flaw d := by
  simp only [endDefect?, hblock, Option.map_some, Option.getD_some] at hd
  split_ifs at hd with hempty
  · obtain rfl := Option.some.inj hd
    exact .emptyBlock hfunc hb hblock (Array.isEmpty_iff.1 hempty)
  · obtain ⟨⟨i, k⟩, hk, hd⟩ := List.exists_of_findSome?_eq_some hd
    rw [List.mem_zipIdx_iff_getElem?, Array.getElem?_toList] at hk
    cases hi : m.inst? i with
    | none => simp [hi] at hd
    | some inst =>
      simp only [hi] at hd
      split_ifs at hd with hplace
      obtain rfl := Option.some.inj hd
      refine .terminator hfunc hb hblock hk hi fun hiff => hplace ?_
      rw [Bool.eq_iff_iff, hiff, decide_eq_true_iff]

lemma Shaped.flaw_of_layoutDefect? (h : m.Shaped) (hd : m.layoutDefect? = some d) : m.Flaw d := by
  obtain ⟨func, hfunc, hd⟩ := List.exists_of_findSome?_eq_some hd
  obtain ⟨b, hb, hd⟩ := List.exists_of_findSome?_eq_some hd
  obtain ⟨block, hblock⟩ := h.exists_block (List.mem_flatMap.2 ⟨func, hfunc, hb⟩)
  exact flaw_of_endDefect? (Array.mem_toList_iff.1 hfunc) (Array.mem_toList_iff.1 hb) hblock hd

/-- What the check of an intact module reports is wrong with it. -/
lemma Intact.flaw_of_check (h : m.Intact) (hd : m.check = .error d) : m.Flaw d := by
  rw [check_eq_error_iff, defect?, h.agrees.operandsDefect?_eq_none, Option.none_or,
    Option.or_eq_some_iff, h.shaped.placementDefect?_eq_none, Option.none_or] at hd
  rcases hd with hd | ⟨-, hd⟩
  · exact h.agrees.flaw_of_valuesDefect? hd
  · exact h.shaped.flaw_of_layoutDefect? hd

/-! ## The conditions of success, spelled out -/

lemma resolved_iff : m.Resolved ↔ ∀ i inst v value, m.inst? i = some inst →
    v ∈ inst.operandValues → m.value? v = some value → value.kind ≠ .placeholder := by
  constructor
  · intro h i inst v value hi hv hvalue
    obtain ⟨o, ho, rfl⟩ := List.mem_map.1 hv
    obtain ⟨k, hk⟩ := Array.mem_iff_getElem?.1 (Array.mem_toList_iff.1 ho)
    exact h ⟨i, k⟩ o value ((operand?_of_inst? hi k).trans hk) hvalue
  · intro h u o value ho hvalue
    obtain ⟨inst, hi, hk⟩ := operand?_eq_some.1 ho
    exact h u.user inst o.value value hi
      (List.mem_map_of_mem (Array.mem_toList_iff.2 (Array.mem_of_getElem? hk))) hvalue

lemma Shaped.terminated_iff (h : m.Shaped) : m.Terminated ↔ ∀ func ∈ m.functions,
    ∀ b ∈ func.layout, ∃ block, m.block? b = some block ∧ m.Ends block := by
  have hplaced : ∀ {func : Func} {b}, func ∈ m.functions → b ∈ func.layout → b ∈ m.placedBlocks :=
    fun hfunc hb => List.mem_flatMap.2 ⟨_, Array.mem_toList_iff.2 hfunc, Array.mem_toList_iff.2 hb⟩
  constructor
  · intro hends func hfunc b hb
    obtain ⟨block, hblock⟩ := h.exists_block (hplaced hfunc hb)
    exact ⟨block, hblock, hends b (hplaced hfunc hb) block hblock⟩
  · intro hends b hb block hblock
    obtain ⟨f, func, hf, hmem⟩ := mem_placedBlocks.1 hb
    obtain ⟨block', hblock', hend⟩ := hends func (Array.mem_of_getElem? hf) b hmem
    obtain rfl := Option.some.inj (hblock.symm.trans hblock')
    exact hend

/-- An intact module with a flaw is refused. -/
lemma Intact.exists_check_of_flaw (h : m.Intact) (hflaw : m.Flaw d) :
    ∃ d', m.check = .error d' := by
  cases hcheck : m.check with
  | error d' => exact ⟨d', rfl⟩
  | ok _ =>
    exfalso
    obtain ⟨hresolved, hterminated⟩ := h.check_eq_ok_iff.1 hcheck
    have hends := h.shaped.terminated_iff.1 hterminated
    cases hflaw with
    | unresolved read here undefined => exact hresolved _ _ _ read here undefined
    | emptyBlock declared placed here empty =>
      obtain ⟨block', hblock', _, _, _, hlist, -⟩ := hends _ declared _ placed
      obtain rfl := Option.some.inj (here.symm.trans hblock')
      simp [empty] at hlist
    | @terminator func b block k i inst declared placed here listed live misplaced =>
      obtain ⟨block', hblock', hend⟩ := hends _ declared _ placed
      obtain rfl := Option.some.inj (here.symm.trans hblock')
      have hnone := (h.shaped.endDefect?_eq_none_iff func.name here).2 hend
      have hsize : ¬ block.insts.isEmpty = true := by
        rw [Array.isEmpty_iff]
        rintro hnil
        simp [hnil] at listed
      simp only [endDefect?, here, Option.map_some, Option.getD_some, if_neg hsize,
        List.findSome?_eq_none_iff, Prod.forall, List.mem_zipIdx_iff_getElem?,
        Array.getElem?_toList] at hnone
      have hplace := hnone i k listed
      simp only [live] at hplace
      split_ifs at hplace with heq
      rw [heq, decide_eq_true_iff] at misplaced
      exact misplaced Iff.rfl

end Module

open SsaFold.Module

/-- The check of a reachable module succeeds exactly if no instruction, placed or not, reads a value
without a definition, and every placed block ends with its only terminator.  If it fails, then what
it reports is wrong; and neither an operand nor a recorded read nor the place of an instruction can
be at fault. -/
theorem Reachable.check_verdict {m : Module} (h : Reachable m) :
    (m.check = .ok () ↔
      (∀ i inst v value, m.inst? i = some inst → v ∈ inst.operandValues → m.value? v = some value →
        value.kind ≠ .placeholder) ∧
      ∀ func ∈ m.functions, ∀ b ∈ func.layout, ∃ block, m.block? b = some block ∧ m.Ends block) ∧
    (∀ d, m.check = .error d → m.Flaw d) ∧
    m.operandsDefect? = none ∧
    (∀ (v : ValueId) (value : Value) (slot : Nat) (u : Use), m.value? v = some value →
      value.uses[slot]? = some u → m.useDefect? v u slot = none) ∧
    m.placementDefect? = none := by
  have hintact := h.intact
  refine ⟨?_, fun d hd => hintact.flaw_of_check hd, hintact.agrees.operandsDefect?_eq_none,
    fun v value slot u hv hslot => hintact.agrees.useDefect?_eq_none hv hslot,
    hintact.shaped.placementDefect?_eq_none⟩
  rw [hintact.check_eq_ok_iff, resolved_iff, hintact.shaped.terminated_iff]

/-- A function that returns at once, and a block that is not placed and adds an undefined value to
itself. -/
def openEnd : List Op := [
  .addFunc "f" .void [],
  .addBlock ⟨0⟩ none,
  .build ⟨0⟩ (some ⟨0⟩) (.ret none),
  .placeholder (.int 32) (some "x"),
  .createBlock ⟨0⟩ none,
  .appendInst ⟨1⟩ { opcode := .binary .add, ty := .int 32 } [⟨2⟩, ⟨2⟩]]

/-- The check finds the undefined value although the block is not placed.  Once the sum is erased it
succeeds, although the block is empty then. -/
theorem check_verdict_openEnd :
    (∃ m, Op.runAll (.empty "") openEnd = .ok m ∧ m.check = .error (.unresolved (some "x")) ∧
      m.Flaw (.unresolved (some "x"))) ∧
    ∃ m, Op.runAll (.empty "") (openEnd ++ [.eraseInst ⟨1⟩]) = .ok m ∧ m.check = .ok () ∧
      ∀ func ∈ m.functions, ∀ b ∈ func.layout, ∃ block, m.block? b = some block ∧ m.Ends block := by
  constructor
  · have hfind : (Op.runAll (.empty "") openEnd).toOption.map Module.defect?
        = some (some (.unresolved (some "x"))) := by decide +kernel
    obtain ⟨m, hm, hd⟩ := toOption_map_eq_some.1 hfind
    have hcheck := check_eq_error_iff.2 hd
    have hreachable := (Reachable.empty "").runAll hm
    exact ⟨m, hm, hcheck, (Reachable.check_verdict hreachable).2.1 _ hcheck⟩
  · have hfind : (Op.runAll (.empty "") (openEnd ++ [.eraseInst ⟨1⟩])).toOption.map Module.defect?
        = some none := by decide +kernel
    obtain ⟨m, hm, hd⟩ := toOption_map_eq_some.1 hfind
    have hcheck := Module.check_eq_ok_iff.2 hd
    have hreachable := (Reachable.empty "").runAll hm
    exact ⟨m, hm, hcheck, ((Reachable.check_verdict hreachable).1.1 hcheck).2⟩

end SsaFold
