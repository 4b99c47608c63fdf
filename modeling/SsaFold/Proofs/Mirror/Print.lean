import SsaFold.Proofs.Mirror.Pairing
import SsaFold.Proofs.Simplify.Calls
import SsaFold.Proofs.Text.Writing

/-!
# Prints of modules that mirror each other

What is printed of a module depends on names, types and numbers, and not on indices.  In modules
that mirror each other what is numbered is paired, in the same order (`Pairing.Mirrors.slotted`), so
what is paired has one number (`Pairing.Mirrors.numbering`) and one name in print.  From there on
the printer does the same, and the texts are equal (`Pairing.Mirrors.toText`).
-/

namespace SsaFold

open SsaFold.Module Text

namespace Pairing

variable {R : Pairing} {m n : Module} {f : FuncId} {func func' : Func}

/-! ## Numbers -/

/-- What is numbered is paired. -/
inductive PairsSlotted (R : Pairing) : Slotted → Slotted → Prop
  | value {v w : ValueId} (own : R.own v w) : PairsSlotted R (.value v) (.value w)
  | block {b c : BlockId} (block : R.block b c) : PairsSlotted R (.block b) (.block c)

lemma PairsSlotted.eq_iff {x x' y y' : Slotted} (h : R.PairsSlotted x y)
    (h' : R.PairsSlotted x' y') :
    x = x' ↔ y = y' := by
  rcases h with hown | hblock <;> rcases h' with hown' | hblock'
  · rw [Slotted.value.injEq, Slotted.value.injEq]
    exact Relator.rel_eq R.own_biUnique hown hown'
  · simp
  · simp
  · rw [Slotted.block.injEq, Slotted.block.injEq]
    exact Relator.rel_eq R.block_biUnique hblock hblock'

namespace Mirrors

/-- Paired values have one name, or none. -/
lemma nameOf? (h : R.Mirrors m n) {v w : ValueId} (hown : R.own v w)
    (hty : m.typeOf? v ≠ some .void) : m.nameOf? v = n.nameOf? w := by
  obtain ⟨value, value', hv, hw, hpair⟩ := h.own hown
  have hvoid : value.ty ≠ .void := fun hvoid => hty (typeOf?_eq_some.2 ⟨value, hv, hvoid⟩)
  simp [Module.nameOf?, hv, hw, hpair.name hvoid]

lemma isUnnamed (h : R.Mirrors m n) {v w : ValueId} (hown : R.own v w)
    (hty : m.typeOf? v ≠ some .void) : m.isUnnamed v = n.isUnnamed w := by
  obtain ⟨value, value', hv, hw, -⟩ := h.own hown
  have hname := h.nameOf? hown hty
  simp only [Module.nameOf?, hv, hw, Option.bind_some] at hname
  simp [Module.isUnnamed, hv, hw, hname]

/-- Of paired values the unnamed ones are paired. -/
lemma filter_isUnnamed (h : R.Mirrors m n) {vs ws : List ValueId} (hvs : List.Forall₂ R.own vs ws)
    (hty : ∀ v ∈ vs, m.typeOf? v ≠ some .void) :
    List.Forall₂ R.own (vs.filter m.isUnnamed) (ws.filter n.isUnnamed) := by
  have hpairs : List.Forall₂ (fun v w => R.own v w ∧ m.isUnnamed v = n.isUnnamed w) vs ws :=
    ((List.forall₂_and_left _ _).2 ⟨hty, hvs⟩).imp fun v w hvw => ⟨hvw.2, h.isUnnamed hvw.2 hvw.1⟩
  exact (List.rel_filter (fun _ _ hvw => by simp [hvw.2]) hpairs).imp fun _ _ hvw => hvw.1

lemma unnamedResults (h : R.Mirrors m n) (hm : m.Typed) {block block' : Block}
    (hpair : R.PairsBlock block block') :
    List.Forall₂ R.own (m.unnamedResults block) (n.unnamedResults block') := by
  have hinsts : List.Forall₂ R.PairsInst (block.insts.toList.filterMap m.inst?)
      (block'.insts.toList.filterMap n.inst?) :=
    List.rel_filterMap (fun _ _ hij => h.insts hij) hpair.insts
  refine h.filter_isUnnamed ?_ fun v hv => ?_
  · refine List.rel_map (fun inst inst' hinst => hinst.result) (List.rel_filter ?_ hinsts)
    intro inst inst' hinst
    have hty : inst'.ty = inst.ty := (congrArg InstSpec.ty hinst.spec :)
    simp [hty]
  · obtain ⟨inst, hinst, rfl⟩ := List.mem_map.1 hv
    obtain ⟨hmem, hnot⟩ := List.mem_filter.1 hinst
    obtain ⟨i, -, hi⟩ := List.mem_filterMap.1 hmem
    rw [(hm i inst hi).1]
    intro hvoid
    rw [Option.some.inj hvoid] at hnot
    simp [Ty.isVoid] at hnot

/-- What is numbered is paired, in the same order. -/
lemma slotted (h : R.Mirrors m n) (hm : m.Complete) (hf : m.func? f = some func)
    (hfunc : R.PairsFunc m n func func') (hdefined : func.isDeclaration = false) :
    List.Forall₂ R.PairsSlotted (m.slotted func) (n.slotted func') := by
  rw [Module.slotted, Module.slotted]
  -- Parameters come first, and then for each block its label and its results.
  refine List.rel_append ?_ (List.rel_flatMap hfunc.layout fun b c hbc => ?_)
  · refine List.rel_map (fun _ _ hown => .value hown)
      (h.filter_isUnnamed (hfunc.params hdefined) fun v hv hvoid => ?_)
    obtain ⟨k, hk⟩ := List.mem_iff_getElem?.1 hv
    obtain ⟨value, hvalue, -, hty⟩ := (hm.draft.funcs f func hf).params k v hk
    obtain ⟨value', hvalue', hvoid⟩ := typeOf?_eq_some.1 hvoid
    obtain rfl := Option.some.inj (hvalue.symm.trans hvalue')
    exact hty hvoid
  · obtain ⟨block, block', hb, hc, hpair⟩ := h.blocks hbc
    simp only [hb, hc, hpair.name]
    refine List.rel_append ?_ (List.rel_map (fun _ _ hown => .value hown)
      (h.unnamedResults hm.typed hpair))
    split_ifs
    · exact .cons (.block hbc) .nil
    · exact .nil

/-- What is paired has one number, or none. -/
lemma numbering (h : R.Mirrors m n) (hm : m.Complete) (hf : m.func? f = some func)
    (hfunc : R.PairsFunc m n func func') (hdefined : func.isDeclaration = false) {x y : Slotted}
    (hxy : R.PairsSlotted x y) : (m.numbering func)[x]? = (n.numbering func')[y]? := by
  rw [Module.numbering, Module.numbering, Std.HashMap.ofList_eq_insertMany_empty,
    Std.HashMap.ofList_eq_insertMany_empty, Std.HashMap.getElem?_insertMany_list,
    Std.HashMap.getElem?_insertMany_list, Std.HashMap.getElem?_empty, Std.HashMap.getElem?_empty,
    Option.or_none, Option.or_none, List.findSomeRev?_eq_findSome?_reverse,
    List.findSomeRev?_eq_findSome?_reverse]
  -- Each number is looked up by what has it, and that is paired.
  refine findSome?_eq_of_forall₂ ((List.rel_reverse
    (rel_zipIdx (h.slotted hm hf hfunc hdefined) 0)).imp ?_)
  rintro ⟨x', k⟩ ⟨y', k'⟩ ⟨hxy', rfl⟩
  have heq : x' = x ↔ y' = y := PairsSlotted.eq_iff hxy' hxy
  by_cases hx : x' = x
  · simp [hx, heq.1 hx]
  · simp [hx, mt heq.2 hx]

end Mirrors

/-! ## Names -/

section Names

open Text.Printing

variable {v w : ValueId} {b c : BlockId}

/-- What is paired has one name in print, if it is named or numbered. -/
lemma Mirrors.nameOrSlot (h : R.Mirrors m n) (hm : m.Complete) (hf : m.func? f = some func)
    (hfunc : R.PairsFunc m n func func') (hdefined : func.isDeclaration = false) {x y : Slotted}
    (hxy : R.PairsSlotted x y) {name : Option String}
    (hnumber : name = none → ∃ k, (m.numbering func)[x]? = some k) (text text' : String) :
    (of m func).nameOrSlot name x text = (of n func').nameOrSlot name y text' := by
  have hslots : (of m func).slots[x]? = (of n func').slots[y]? :=
    h.numbering hm hf hfunc hdefined hxy
  rw [nameOrSlot_eq hnumber, nameOrSlot_eq (by rwa [← hslots]), rawName, rawName, hslots]

lemma Mirrors.localName (h : R.Mirrors m n) (hm : m.Complete) (hf : m.func? f = some func)
    (hfunc : R.PairsFunc m n func func') (hdefined : func.isDeclaration = false) (hown : R.own v w)
    (hv : m.Visible f v) : (of m func).localName v = (of n func').localName w := by
  obtain ⟨value, value', hvalue, hvalue', hpair⟩ := h.own hown
  obtain ⟨_, hvalue₁, hty, -⟩ := id hv
  obtain rfl := Option.some.inj (hvalue.symm.trans hvalue₁)
  have hnumber : value.name = none → ∃ k, (m.numbering func)[Slotted.value v]? = some k := by
    refine fun hnone => exists_number (hm.value_mem_slotted hf hv (fun kind hkind => ?_) ?_)
    · obtain ⟨_, hvalue₁, rfl⟩ := kind?_eq_some.1 hkind
      obtain rfl := Option.some.inj (hvalue.symm.trans hvalue₁)
      exact hpair.left
    · simp [Module.nameOf?, hvalue, hnone]
  have hname := h.nameOrSlot hm hf hfunc hdefined (.value hown) hnumber v.text w.text
  simp only [Printing.localName, getValue_eq_ok.2 hvalue, getValue_eq_ok.2 hvalue', ok_bind,
    hpair.name hty, hname]

lemma Mirrors.labelName (h : R.Mirrors m n) (hm : m.Complete) (hf : m.func? f = some func)
    (hfunc : R.PairsFunc m n func func') (hdefined : func.isDeclaration = false) (hbc : R.block b c)
    (hb : b ∈ func.layout) : (of m func).labelName b = (of n func').labelName c := by
  obtain ⟨block, block', hblock, hblock', hpair⟩ := h.blocks hbc
  have hname := h.nameOrSlot hm hf hfunc hdefined (.block hbc)
    (fun hnone => exists_number (block_mem_slotted hb hblock hnone)) b.text c.text
  simp only [Printing.labelName, getBlock_eq_ok.2 hblock, getBlock_eq_ok.2 hblock', ok_bind,
    hpair.name, hname]

end Names

/-! ## Values -/

section Values

open Text.Printing

variable {v w : ValueId}

/-- The values are printed alike. -/
structure PrintsAlike (p q : Printing) (v w : ValueId) : Prop where
  value : p.value v = q.value w
  typed : p.typed v = q.typed w

lemma Mirrors.typeOf? (h : R.Mirrors m n) (hm : m.Shaped) (hn : n.Shaped) (hvw : R.value v w) :
    m.typeOf? v = n.typeOf? w := by
  rcases hvw with hshared | hown
  · obtain ⟨kind, hkind, hv, hw⟩ := h.shared hshared
    obtain ⟨value, hvalue, rfl⟩ := kind?_eq_some.1 hv
    obtain ⟨value', hvalue', hsame⟩ := kind?_eq_some.1 hw
    have hfits := hm.fits v value hvalue
    have hfits' := hn.fits w value' hvalue'
    rw [hsame] at hfits'
    -- What belongs to no function has the type that suits what it is.
    have hty : value.ty = value'.ty := by
      cases hk : value.kind <;> rw [hk] at hfits hfits' hkind <;>
        first | exact hfits.trans hfits'.symm | exact hkind.elim
    rw [typeOf?_eq_some.2 ⟨value, hvalue, hty⟩, typeOf?_eq_some.2 ⟨value', hvalue', rfl⟩]
  · obtain ⟨value, value', hvalue, hvalue', hpair⟩ := h.own hown
    rw [typeOf?_eq_some.2 ⟨value, hvalue, hpair.ty.symm⟩, typeOf?_eq_some.2 ⟨value', hvalue', rfl⟩]

/-- Values of one type are not told apart by what looks at their types only. -/
lemma bind_getValue_congr {α : Type} (h : m.typeOf? v = n.typeOf? w) (g : Ty → Except Fault α) :
    (m.getValue v >>= fun value => g value.ty) = (n.getValue w >>= fun value => g value.ty) := by
  rw [Module.typeOf?, Module.typeOf?] at h
  rw [Module.getValue, Module.getValue]
  cases hv : m.value? v <;> cases hw : n.value? w <;> simp_all

lemma Mirrors.funcName (h : R.Mirrors m n) (g : FuncId) :
    (do return globalText (← m.getFunc g).name : Except Fault String)
      = (do return globalText (← n.getFunc g).name) := by
  rw [Module.getFunc, Module.getFunc]
  obtain ⟨hleft, hright⟩ | ⟨func, func', hleft, hright, hpair⟩ := rel_iff.1 (h.func? g)
  · rw [hleft, hright]
  · rw [hleft, hright]
    exact congrArg (fun name => Except.ok (globalText name)) hpair.name.symm

lemma Mirrors.globalName (h : R.Mirrors m n) (g : GlobalId) :
    (do return globalText (← m.getGlobal g).name : Except Fault String)
      = (do return globalText (← n.getGlobal g).name) := by
  have hnames := congrArg (fun gs => gs[g.index]?.map Prod.fst) h.globals
  simp only [List.getElem?_map, Array.getElem?_toList, Option.map_map] at hnames
  rw [Module.getGlobal, Module.getGlobal, global?, global?]
  cases hleft : m.globals[g.index]? <;> cases hright : n.globals[g.index]? <;>
    simp_all [Function.comp_def]

/-- Paired values are printed alike. -/
lemma Mirrors.printsAlike (h : R.Mirrors m n) (hm : m.Complete) (hn : n.Shaped)
    (hf : m.func? f = some func) (hfunc : R.PairsFunc m n func func')
    (hdefined : func.isDeclaration = false) (hvw : R.value v w) (hv : m.Visible f v) :
    PrintsAlike (of m func) (of n func') v w := by
  have hvalue : (of m func).value v = (of n func').value w := by
    rcases hvw with hshared | hown
    · obtain ⟨kind, hkind, hv, hw⟩ := h.shared hshared
      obtain ⟨value, hvalue, rfl⟩ := kind?_eq_some.1 hv
      obtain ⟨value', hvalue', hsame⟩ := kind?_eq_some.1 hw
      simp only [Printing.value, getValue_eq_ok.2 hvalue, getValue_eq_ok.2 hvalue', ok_bind, hsame]
      cases hk : value.kind with
      | constInt c => rfl
      | null => rfl
      | function g => exact h.funcName g
      | global g => exact h.globalName g
      | _ => exact (hk ▸ hkind).elim
    · have hlocal := h.localName hm hf hfunc hdefined hown hv
      obtain ⟨value, value', hvalue, hvalue', hpair⟩ := h.own hown
      have hleft := hpair.left
      have hright := hpair.right
      simp only [Printing.value, getValue_eq_ok.2 hvalue, getValue_eq_ok.2 hvalue', ok_bind]
      cases hk : value.kind <;> rw [hk] at hleft <;> cases hk' : value'.kind <;> rw [hk'] at hright
        <;> first | exact hlocal | exact (hleft trivial).elim | exact (hright trivial).elim
  refine ⟨hvalue, ?_⟩
  rw [Printing.typed, Printing.typed]
  simp only [hvalue]
  exact bind_getValue_congr (h.typeOf? hm.intact.shaped hn hvw)
    fun ty => do return ty.text ++ " " ++ (← (of n func').value w)

end Values

/-! ## Instructions -/

section Instructions

open Text.Printing

variable {p q : Printing} {inst inst' : Inst}

/-- The instructions say the same of what is printed alike. -/
structure SaysAlike (p q : Printing) (inst inst' : Inst) : Prop where
  spec : inst'.toInstSpec = { inst.toInstSpec with targets := inst'.targets }
  operands : List.Forall₂ (PrintsAlike p q) inst.operandValues inst'.operandValues
  labels : List.Forall₂ (fun b c => p.labelName b = q.labelName c) inst.targets inst'.targets
  calleeType : p.calleeType inst = q.calleeType inst'
  result : inst.ty ≠ .void → p.localName inst.result = q.localName inst'.result

namespace SaysAlike

lemma opcode (h : SaysAlike p q inst inst') : inst'.opcode = inst.opcode :=
  (congrArg InstSpec.opcode h.spec :)

lemma ty (h : SaysAlike p q inst inst') : inst'.ty = inst.ty := (congrArg InstSpec.ty h.spec :)

/-- Both have an operand at a position, and these are printed alike, or neither has one. -/
lemma bind_operand {α : Type} (h : SaysAlike p q inst inst') (k : Nat)
    {F G : ValueId → Except Fault α} (hFG : ∀ v w, PrintsAlike p q v w → F v = G w) :
    (operand inst k >>= F) = (operand inst' k >>= G) := by
  have hnone : ∀ {inst : Inst}, inst.operandValues[k]? = none →
      operand inst k = .error .outOfBounds := by
    intro inst hnone
    rw [Inst.operandValues, List.getElem?_map, Option.map_eq_none_iff,
      Array.getElem?_toList] at hnone
    rw [operand, hnone]
  obtain ⟨hleft, hright⟩ | ⟨v, w, hleft, hright, hvw⟩ := rel_iff.1 (rel_getElem? h.operands k)
  · rw [hnone hleft, hnone hright]
    rfl
  · rw [operand_ok hleft, operand_ok hright, ok_bind, ok_bind, hFG v w hvw]

lemma pair (h : SaysAlike p q inst inst') : p.pair inst = q.pair inst' := by
  rw [Printing.pair, Printing.pair]
  refine h.bind_operand 0 fun x x' hx => ?_
  rw [hx.typed]
  refine bind_congr fun _ => h.bind_operand 1 fun y y' hy => ?_
  rw [hy.value]

lemma typedList {vs ws : List ValueId} (h : List.Forall₂ (PrintsAlike p q) vs ws) :
    p.typedList vs = q.typedList ws := by
  rw [Printing.typedList, Printing.typedList, mapM_eq_of_forall₂ (h.imp fun _ _ hvw => hvw.typed)]

lemma incoming (h : SaysAlike p q inst inst') : p.incoming inst = q.incoming inst' := by
  rw [Printing.incoming, Printing.incoming]
  refine congrArg (· >>= _) (mapM_eq_of_forall₂ ((rel_zip h.operands h.labels).imp ?_))
  rintro ⟨v, b⟩ ⟨w, c⟩ ⟨hvw, hbc⟩
  simp only [hvw.value, hbc]

lemma labelRef {b c : BlockId} (h : p.labelName b = q.labelName c) :
    p.labelRef b = q.labelRef c := by
  rw [Printing.labelRef, Printing.labelRef, h]

lemma branch (h : SaysAlike p q inst inst') : p.branch inst = q.branch inst' := by
  have hoperands := h.operands
  have hlabels := h.labels
  have htargets : (inst.targets.mapM fun b => do return " " ++ (← p.labelRef b))
      = inst'.targets.mapM fun b => do return " " ++ (← q.labelRef b) :=
    mapM_eq_of_forall₂ (h.labels.imp fun b c hbc => by rw [labelRef hbc])
  rw [Printing.branch, Printing.branch]
  -- The printer tells the branches apart by how many operands and targets there are.
  generalize inst.operandValues = vs at hoperands
  generalize inst'.operandValues = ws at hoperands
  generalize inst.targets = bs at hlabels htargets
  generalize inst'.targets = cs at hlabels htargets
  rcases hoperands with _ | ⟨hcond, _⟩
  · simp only [htargets]
  rcases hlabels with _ | ⟨hfirst, _ | ⟨hsecond, _ | _⟩⟩
  · rfl
  · simp only [htargets]
  · simp only [hcond.typed, labelRef hfirst, labelRef hsecond]
  · simp only [htargets]

lemma call {v w : ValueId} (h : SaysAlike p q inst inst') (hvw : PrintsAlike p q v w) :
    p.call inst v = q.call inst' w := by
  have hargs : List.Forall₂ (PrintsAlike p q) inst.operandValues.dropLast
      inst'.operandValues.dropLast := by
    rw [List.dropLast_eq_take, List.dropLast_eq_take, ← h.operands.length_eq]
    exact List.forall₂_take _ h.operands
  rw [Printing.call, Printing.call, h.ty, h.calleeType, hvw.value, typedList hargs]

/-- Behind the name of the opcode the same is printed. -/
lemma operandsText (h : SaysAlike p q inst inst') : p.operands inst = q.operands inst' := by
  have hspec := h.spec
  have hflags : inst'.flags = inst.flags := (congrArg InstSpec.flags hspec :)
  have hpredicate : inst'.predicate = inst.predicate := (congrArg InstSpec.predicate hspec :)
  have halloc : inst'.allocTy = inst.allocTy := (congrArg InstSpec.allocTy hspec :)
  rw [Printing.operands, Printing.operands, h.opcode]
  cases inst.opcode with
  | binary op => simp only [hflags, h.pair]
  | icmp => simp only [hpredicate, h.pair]
  | select =>
    refine h.bind_operand 0 fun x x' hx => h.bind_operand 1 fun y y' hy =>
      h.bind_operand 2 fun z z' hz => ?_
    rw [typedList (.cons hx (.cons hy (.cons hz .nil)))]
  | phi => simp only [h.ty, h.incoming]
  | call =>
    obtain ⟨hleft, hright⟩ | ⟨v, w, hleft, hright, hvw⟩ := rel_iff.1 (rel_getLast? h.operands)
    · simp only [hleft, hright]
    · simp only [hleft, hright, h.call hvw]
  | alloca => simp only [halloc]
  | load =>
    refine h.bind_operand 0 fun x x' hx => ?_
    rw [hx.typed, h.ty]
  | store =>
    refine h.bind_operand 0 fun x x' hx => h.bind_operand 1 fun y y' hy => ?_
    rw [typedList (.cons hx (.cons hy .nil))]
  | ret =>
    have hoperands := h.operands
    generalize inst.operandValues = vs at hoperands
    generalize inst'.operandValues = ws at hoperands
    rcases hoperands with _ | ⟨hvalue, _⟩
    · rfl
    · simp only [hvalue.typed]
  | br => exact h.branch
  | unreachable => rfl

lemma align (h : SaysAlike p q inst inst') : Printing.align inst = Printing.align inst' := by
  have halign : inst'.align = inst.align := (congrArg InstSpec.align h.spec :)
  have hsize : inst.operands.size = inst'.operands.size := by
    simpa [Inst.operandValues] using h.operands.length_eq
  rw [Printing.align, Printing.align, halign, h.opcode, Array.isEmpty, Array.isEmpty, hsize]

/-- Instructions that say the same of what is printed alike are printed alike. -/
lemma instText (h : SaysAlike p q inst inst') : p.inst inst = q.inst inst' := by
  rw [Printing.inst, Printing.inst, h.ty, h.opcode, h.operandsText, h.align]
  by_cases hvoid : inst.ty.isVoid = true
  · rw [if_pos hvoid, if_pos hvoid]
  · rw [if_neg hvoid, if_neg hvoid, h.result (mt Ty.isVoid_iff.2 hvoid)]

end SaysAlike

end Instructions

/-! ## Functions -/

namespace Mirrors

open Text.Printing

lemma addressed? (h : R.Mirrors m n) {v w : ValueId} (hvw : R.value v w) :
    m.addressed? v = n.addressed? w := by
  rw [Module.addressed?, Module.addressed?]
  rcases hvw with hshared | hown
  · obtain ⟨kind, -, hv, hw⟩ := h.shared hshared
    rw [hv, hw]
  · obtain ⟨value, value', hv, hw, hpair⟩ := h.own hown
    have hleft := hpair.left
    have hright := hpair.right
    rw [kind?_eq_some.2 ⟨value, hv, rfl⟩, kind?_eq_some.2 ⟨value', hw, rfl⟩]
    cases hk : value.kind <;> rw [hk] at hleft <;> cases hk' : value'.kind <;> rw [hk'] at hright
      <;> first | rfl | exact (hleft trivial).elim | exact (hright trivial).elim

/-- Paired calls surely reach one function, or neither does. -/
lemma callee? (h : R.Mirrors m n) {inst inst' : Inst} (hpair : R.PairsInst inst inst') :
    m.callee? inst = n.callee? inst' := by
  rw [callee?_eq, callee?_eq, hpair.opcode]
  obtain ⟨hleft, hright⟩ | ⟨v, w, hleft, hright, hvw⟩ := rel_iff.1 (rel_getLast? hpair.operands)
  · rw [hleft, hright]
    rfl
  · rw [hleft, hright, Option.bind_some, Option.bind_some, h.addressed? hvw]

lemma paramTypes (hfunc : R.PairsFunc m n func func') : paramTypes m func = paramTypes n func' := by
  rw [Printing.paramTypes, Printing.paramTypes, hfunc.vararg]
  have hparams : List.Forall₂ (fun v w => m.typeOf? v = n.typeOf? w) func.params func'.params :=
    List.forall₂_map_left_iff.1 (List.forall₂_map_right_iff.1
      (List.forall₂_eq_eq_eq ▸ hfunc.paramTypes.symm))
  refine congrArg (· >>= _) (mapM_eq_of_forall₂ (hparams.imp fun v w hvw => ?_))
  exact bind_getValue_congr hvw fun ty => pure ty.text

lemma calleeType (h : R.Mirrors m n) {inst inst' : Inst} (hpair : R.PairsInst inst inst') :
    (of m func).calleeType inst = (of n func').calleeType inst' := by
  rw [Printing.calleeType, Printing.calleeType, ← h.callee? hpair]
  cases m.callee? inst with
  | none => rfl
  | some g =>
    dsimp only
    rw [Module.getFunc, Module.getFunc]
    obtain ⟨hleft, hright⟩ | ⟨callee, callee', hleft, hright, hcallee⟩ := rel_iff.1 (h.func? g)
    · rw [hleft, hright]
      rfl
    · simp only [hleft, hright, ok_bind, hcallee.vararg, paramTypes hcallee]

section Bodies

variable (h : R.Mirrors m n) (hm : m.Complete) (hn : n.Shaped) (hf : m.func? f = some func)
  (hfunc : R.PairsFunc m n func func') (hdefined : func.isDeclaration = false)

include h hm hn hf hfunc hdefined

lemma saysAlike {i : InstId} {inst inst' : Inst} (hi : m.inst? i = some inst)
    (howner : m.owner? inst.parent = some f) (hpair : R.PairsInst inst inst') :
    SaysAlike (of m func) (of n func') inst inst' := by
  obtain ⟨g, hg, hvisible, htargets⟩ := hm.within hi
  obtain rfl := Option.some.inj (howner.symm.trans hg)
  refine ⟨hpair.spec, ?_, ?_, h.calleeType hpair, fun hvoid => ?_⟩
  · refine ((List.forall₂_and_left _ _).2 ⟨hvisible, hpair.operands⟩).imp fun v w hvw => ?_
    exact h.printsAlike hm hn hf hfunc hdefined hvw.2 hvw.1
  · refine ((List.forall₂_and_left _ _).2 ⟨htargets, hpair.targets⟩).imp fun b c hbc => ?_
    exact h.labelName hm hf hfunc hdefined hbc.2 (hm.mem_layout hf hbc.1)
  · exact h.localName hm hf hfunc hdefined hpair.result (hm.visible_result hi howner hvoid)

lemma blockText {b c : BlockId} (hbc : R.block b c) (hb : b ∈ func.layout) :
    (of m func).block b = (of n func').block c := by
  obtain ⟨block, block', hblock, hblock', hpair⟩ := h.blocks hbc
  simp only [Printing.block, getBlock_eq_ok.2 hblock, getBlock_eq_ok.2 hblock', ok_bind]
  refine congrArg (· >>= _) (mapM_eq_of_forall₂ ?_)
  have hlive := hm.intact.shaped.exists_inst hblock
  refine ((List.forall₂_and_left _ _).2 ⟨hlive, hpair.insts⟩).imp ?_
  rintro i j ⟨⟨inst, hi, rfl⟩, hij⟩
  obtain ⟨hnone, -⟩ | ⟨_, inst', hi', hj, hinst⟩ := rel_iff.1 (h.insts hij)
  · rw [hi] at hnone
    cases hnone
  obtain rfl := Option.some.inj (hi.symm.trans hi')
  obtain ⟨block₁, hblock₁, hfunc₁⟩ := hm.intact.shaped.placed f func hf _ hb
  have hsays := h.saysAlike hm hn hf hfunc hdefined hi
    (owner?_eq_some.2 ⟨block₁, hblock₁, hfunc₁⟩) hinst
  simp only [getInst_eq_ok.2 hi, getInst_eq_ok.2 hj, ok_bind, hsays.instText]

lemma blocksText :
    (of m func).blocks func.layout.toList = (of n func').blocks func'.layout.toList := by
  have hlayout : List.Forall₂ (fun b c => b ∈ func.layout ∧ R.block b c) func.layout.toList
      func'.layout.toList :=
    (List.forall₂_and_left _ _).2 ⟨fun b hb => Array.mem_toList_iff.1 hb, hfunc.layout⟩
  have hlater : ∀ {b c}, b ∈ func.layout ∧ R.block b c →
      (of m func).laterBlock b = (of n func').laterBlock c := by
    rintro b c ⟨hb, hbc⟩
    rw [Printing.laterBlock, Printing.laterBlock, h.labelName hm hf hfunc hdefined hbc hb,
      h.blockText hm hn hf hfunc hdefined hbc hb]
  have hentry : ∀ {b c}, b ∈ func.layout ∧ R.block b c →
      (of m func).entryBlock b = (of n func').entryBlock c := by
    rintro b c ⟨hb, hbc⟩
    obtain ⟨block, block', hblock, hblock', hpair⟩ := h.blocks hbc
    rw [Printing.entryBlock, Printing.entryBlock, h.labelName hm hf hfunc hdefined hbc hb,
      h.blockText hm hn hf hfunc hdefined hbc hb]
    simp only [getBlock_eq_ok.2 hblock, getBlock_eq_ok.2 hblock', ok_bind, hpair.name]
  generalize func.layout.toList = bs at hlayout
  generalize func'.layout.toList = cs at hlayout
  cases hlayout with
  | nil => rfl
  | cons hfirst hrest =>
    rw [Printing.blocks, Printing.blocks, hentry hfirst,
      mapM_eq_of_forall₂ (hrest.imp fun _ _ hbc => hlater hbc)]

lemma paramsText : (of m func).params func = (of n func').params func' := by
  rw [Printing.params, Printing.params, hfunc.vararg]
  refine congrArg (· >>= _) (mapM_eq_of_forall₂ ?_)
  have hvisible : ∀ v ∈ func.params, m.Visible f v := by
    intro v hv
    obtain ⟨k, hk⟩ := List.mem_iff_getElem?.1 hv
    obtain ⟨value, hvalue, hkind, hvoid⟩ := (hm.draft.funcs f func hf).params k v hk
    exact ⟨value, hvalue, hvoid, hkind ▸ ⟨rfl, func, hf, hk⟩⟩
  refine ((List.forall₂_and_left _ _).2 ⟨hvisible, hfunc.params hdefined⟩).imp fun v w hvw => ?_
  exact (h.printsAlike hm hn hf hfunc hdefined (.inr hvw.2) hvw.1).typed

end Bodies

lemma header (hfunc : R.PairsFunc m n func func') (word params : String) :
    header word func params = header word func' params := by
  simp only [Printing.header, hfunc.name, hfunc.returnType, hfunc.linkage, hfunc.attrs]

/-- Paired functions are printed alike. -/
lemma funcText (h : R.Mirrors m n) (hm : m.Complete) (hn : n.Shaped) (hf : m.func? f = some func)
    (hfunc : R.PairsFunc m n func func') : funcText m func = funcText n func' := by
  rw [Text.funcText, Text.funcText, hfunc.isDeclaration]
  by_cases hdecl : func.isDeclaration = true
  · rw [if_pos hdecl, if_pos hdecl]
    simp only [Printing.declaration, header hfunc, paramTypes hfunc]
  · rw [if_neg hdecl, if_neg hdecl]
    rw [Bool.not_eq_true] at hdecl
    simp only [Printing.definition, header hfunc, h.paramsText hm hn hf hfunc hdecl,
      h.blocksText hm hn hf hfunc hdecl]

/-- Modules that mirror each other are printed alike. -/
theorem toText (h : R.Mirrors m n) (hm : m.Complete) (hn : n.Shaped) : m.toText = n.toText := by
  have hglobals : n.globals.toList.map Global.definition
      = m.globals.toList.map Global.definition := by
    have := congrArg (List.map Prod.snd) h.globals
    simpa [Function.comp_def] using this
  have hpreamble : preamble m = preamble n := by
    simp only [preamble, h.name, h.sourceFilename, h.targetLines]
  have hknown : ∀ func ∈ m.functions.toList, ∃ f, m.func? f = some func := by
    intro func hmem
    obtain ⟨k, hk⟩ := List.mem_iff_getElem?.1 hmem
    exact ⟨⟨k⟩, by rwa [Module.func?, ← Array.getElem?_toList]⟩
  rw [Module.toText, Module.toText]
  simp only [hglobals, hpreamble]
  refine foldlM_eq_of_forall₂ (((List.forall₂_and_left _ _).2 ⟨hknown, h.funcs⟩).imp ?_) _
  rintro func func' ⟨⟨f, hf⟩, hfunc⟩ out
  rw [h.funcText hm hn hf hfunc]

end Mirrors

end Pairing

end SsaFold
