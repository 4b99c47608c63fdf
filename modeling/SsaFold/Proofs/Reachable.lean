import Mathlib.Data.List.Nodup
import SsaFold.Module.Builder
import SsaFold.Proofs.Simplify.Sweep

/-!
# Reachable modules

`Op` lists the operations on a module, with what each is given: adding entries, describing them
anew, redirecting operands, erasing, a step of a builder, and the simplifier.  A module is
`Reachable` if it comes from an empty one by operations that end without a fault, in whatever
order.  The operations may be ill-typed, an instruction may read itself, and blocks need not be
placed.

Every operation keeps a module intact, so every reachable module is.  `Module.Integrity` spells
out what that means for the reader of a module (`Reachable.integrity`).
-/

namespace SsaFold

/-! ## Steps of a builder -/

/-- A step of a builder and what it is given. -/
inductive BuildStep where
  | param (k : Nat)
  | block (name : Option String)
  | positionAtEnd (b : BlockId)
  | currentBlock
  | constInt (ty : Ty) (value : Int)
  | add (lhs rhs : ValueId)
  | mul (lhs rhs : ValueId)
  | icmp (p : Predicate) (lhs rhs : ValueId)
  | phi (ty : Ty) (incoming : List (ValueId × BlockId))
  | call (callee : FuncId) (args : List ValueId)
  | callIndirect (ty : Ty) (pointer : ValueId) (args : List ValueId)
  | alloca (ty : Ty)
  | load (ty : Ty) (pointer : ValueId)
  | store (value pointer : ValueId)
  | ret (value : Option ValueId)
  | br (target : BlockId)
  | condBr (cond : ValueId) (ifTrue ifFalse : BlockId)
  | unreachable

/-- Take a step. -/
def BuildStep.run : BuildStep → Build Unit
  | param k => discard (Build.param k)
  | block name => discard (Build.block name)
  | positionAtEnd b => Build.positionAtEnd b
  | currentBlock => discard Build.currentBlock
  | constInt ty value => discard (Build.constInt ty value)
  | add lhs rhs => discard (Build.add lhs rhs)
  | mul lhs rhs => discard (Build.mul lhs rhs)
  | icmp p lhs rhs => discard (Build.icmp p lhs rhs)
  | phi ty incoming => discard (Build.phi ty incoming)
  | call callee args => discard (Build.call callee args)
  | callIndirect ty pointer args => discard (Build.callIndirect ty pointer args)
  | alloca ty => discard (Build.alloca ty)
  | load ty pointer => discard (Build.load ty pointer)
  | store value pointer => discard (Build.store value pointer)
  | ret value => discard (Build.ret value)
  | br target => discard (Build.br target)
  | condBr cond ifTrue ifFalse => discard (Build.condBr cond ifTrue ifFalse)
  | unreachable => discard Build.unreachable

namespace Build

/-- The module before the step and the module after it are related. -/
def Along (R : Module → Module → Prop) {α : Type} (x : Build α) : Prop :=
  ∀ b a b', x b = .ok (a, b') → R b.module b'.module

/-- The step keeps a module intact. -/
def Keeps {α : Type} (x : Build α) : Prop :=
  ∀ b a b', x b = .ok (a, b') → b.module.Intact → b'.module.Intact

section Along

variable {α β : Type} {R : Module → Module → Prop}

lemma along_throw (e : Fault) : Along R (throw e : Build α) := by
  intro b a b' hrun
  exact absurd hrun (by simp)

lemma along_onModule {f : Module → Except Fault (Module × α)}
    (hf : ∀ {m m' a}, f m = .ok (m', a) → R m m') : Along R (onModule f) := by
  intro b a b' hrun
  simp only [onModule, StateT.bind_eq_ok, StateT.get_eq_ok, StateT.lift_eq_ok, StateT.set_eq_ok,
    StateT.pure_eq_ok] at hrun
  obtain ⟨_, _, ⟨rfl, rfl⟩, ⟨m', a'⟩, _, ⟨hf', rfl⟩, _, _, rfl, rfl, rfl⟩ := hrun
  exact hf hf'

lemma along_constInt (hconst : ∀ {m m' bits raw v}, m.constInt bits raw = .ok (m', v) → R m m')
    (ty : Ty) (value : Int) : Along R (constInt ty value) := by
  unfold constInt
  split
  · exact along_onModule fun hrun => hconst hrun
  · exact along_throw _

variable [IsPreorder Module R]

lemma along_pure (a : α) : Along R (pure a : Build α) := by
  intro b a' b' hrun
  obtain ⟨-, rfl⟩ := StateT.pure_eq_ok.1 hrun
  exact refl_of R _

lemma Along.bind {x : Build α} {f : α → Build β} (hx : Along R x) (hf : ∀ a, Along R (f a)) :
    Along R (x >>= f) := by
  intro b c b'' hrun
  obtain ⟨a, b', hx', hf'⟩ := StateT.bind_eq_ok.1 hrun
  exact trans_of R (hx b a b' hx') (hf a b' c b'' hf')

lemma along_get : Along R (get : Build Builder) := by
  intro b a b' hrun
  obtain ⟨-, rfl⟩ := StateT.get_eq_ok.1 hrun
  exact refl_of R _

lemma along_lift (x : Except Fault α) : Along R (liftM x : Build α) := by
  intro b a b' hrun
  obtain ⟨-, rfl⟩ := StateT.lift_eq_ok.1 hrun
  exact refl_of R _

lemma along_modify {f : Builder → Builder} (hf : ∀ b, (f b).module = b.module) :
    Along R (modify f : Build PUnit) := by
  intro b a b' hrun
  obtain rfl := StateT.modify_eq_ok.1 hrun
  rw [hf]
  exact refl_of R _

/-- A step whose answer is not asked for. -/
lemma Along.discard {x : Build α} (hx : Along R x) : Along R (discard x) :=
  (hx.bind fun _ => along_pure PUnit.unit : Along R (x >>= fun _ => pure PUnit.unit))

/-! ### Each step -/

lemma along_param (k : Nat) : Along R (param k) := by
  refine along_get.bind fun b => (along_lift _).bind fun func => ?_
  split
  · exact along_pure _
  · exact along_throw _

lemma along_block (hblock : ∀ {m m' f name b}, m.addBlock f name = .ok (m', b) → R m m')
    (name : Option String) : Along R (block name) := by
  refine along_get.bind fun b => ?_
  have hadd : Along R (onModule (·.addBlock b.func name)) := along_onModule fun hrun => hblock hrun
  refine hadd.bind fun c => ?_
  exact (along_modify (f := fun b => { b with current := some c }) fun _ => rfl).bind fun _ =>
    along_pure c

section Append

variable (happend : ∀ {m m' b spec vs i}, m.appendInst b spec vs = .ok (m', i) → R m m')
include happend

lemma along_push (spec : InstSpec) (operands : List ValueId) : Along R (push spec operands) := by
  refine along_get.bind fun b => ?_
  split
  · exact along_onModule fun hrun => happend hrun
  · exact along_throw _

lemma along_pushValue (spec : InstSpec) (operands : List ValueId) :
    Along R (pushValue spec operands) :=
  (along_push happend spec operands).bind fun _ => along_get.bind fun _ => (along_lift _).bind
    fun _ => along_pure _

lemma along_binary (op : Opcode) (lhs rhs : ValueId) : Along R (binary op lhs rhs) :=
  along_get.bind fun _ => (along_lift _).bind fun _ => along_pushValue happend _ _

lemma along_call (callee : FuncId) (args : List ValueId) : Along R (call callee args) :=
  along_get.bind fun _ => (along_lift _).bind fun _ => along_pushValue happend _ _

end Append

/-- A builder changes a module by adding blocks, constants and instructions only. -/
lemma along_step (hblock : ∀ {m m' f name b}, m.addBlock f name = .ok (m', b) → R m m')
    (hconst : ∀ {m m' bits raw v}, m.constInt bits raw = .ok (m', v) → R m m')
    (happend : ∀ {m m' b spec vs i}, m.appendInst b spec vs = .ok (m', i) → R m m')
    (step : BuildStep) : Along R step.run := by
  cases step with
  | param k => exact (along_param k).discard
  | block name => exact (along_block hblock name).discard
  | positionAtEnd b => exact along_modify fun _ => rfl
  | currentBlock => exact (along_get.bind fun _ => along_pure _).discard
  | constInt ty value => exact (along_constInt hconst ty value).discard
  | add lhs rhs => exact (along_binary happend _ lhs rhs).discard
  | mul lhs rhs => exact (along_binary happend _ lhs rhs).discard
  | call callee args => exact (along_call happend callee args).discard
  | icmp | phi | callIndirect | alloca | load => exact (along_pushValue happend _ _).discard
  | store | ret | br | condBr | unreachable => exact (along_push happend _ _).discard

end Along

lemma keeps_step (step : BuildStep) : Keeps step.run := by
  have : IsPreorder Module fun m m' => m.Intact → m'.Intact :=
    { refl _ := id, trans _ _ _ h h' := h' ∘ h }
  exact along_step (R := fun m m' => m.Intact → m'.Intact) (fun hrun h => h.addBlock hrun)
    (fun hrun h => h.constInt hrun) (fun hrun h => h.appendInst hrun) step

end Build

/-! ## Operations -/

/-- An operation on a module and what it is given. -/
inductive Op where
  /-- Describe the module anew. -/
  | describe (name : String) (sourceFilename : Option String) (targetLines : List String)
  | addFunc (name : String) (returnType : Ty) (params : List Ty)
  /-- Describe a function anew; its parameters and its layout stay. -/
  | describeFunc (f : FuncId) (name : String) (returnType : Ty) (linkage attrs : List String)
      (vararg : Bool)
  | addGlobal (name definition : String)
  | createBlock (func : FuncId) (name : Option String)
  | placeBlock (b : BlockId)
  | addBlock (func : FuncId) (name : Option String)
  | constInt (bits : Nat) (raw : Int)
  | null
  | placeholder (ty : Ty) (name : Option String)
  | setValueName (v : ValueId) (name : Option String)
  | appendInst (b : BlockId) (spec : InstSpec) (operands : List ValueId)
  /-- Let an instruction say something else of its operands. -/
  | setSpec (i : InstId) (spec : InstSpec)
  | setOperand (u : Use) (v : ValueId)
  | replaceAllUses (source target : ValueId)
  | eraseInst (i : InstId)
  | eraseInsts (b : BlockId) (ids : List InstId)
  /-- One step of a builder for a function, wherever it is positioned. -/
  | build (func : FuncId) (current : Option BlockId) (step : BuildStep)
  | eliminate (f : FuncId) (maxBits : Nat)
  | simplify (o : Options)

/-- The module that a run of the simplifier leaves, also where it answers with an error: the
module is as it was if a defect was found before, and simplified if one was found after. -/
def Module.simplified (m : Module) (o : Options) : Except Fault Module :=
  match m.simplify o with
  | .ok (m', _) => .ok m'
  | .error (.fault e) => .error e
  | .error (.error (.malformedBefore _)) => .ok m
  | .error (.error (.malformedAfter _)) => do
    return (← m.eliminateAll o.maxIdentityBits m.funcIds).1

/-- Do an operation. -/
def Op.run (m : Module) : Op → Except Fault Module
  | describe name sourceFilename targetLines => .ok { m with name, sourceFilename, targetLines }
  | addFunc name returnType params => .ok (m.addFunc name returnType params).1
  | describeFunc f name returnType linkage attrs vararg => do
    let _ ← m.getFunc f
    return m.modifyFunc f fun x => { x with name, returnType, linkage, attrs, vararg }
  | addGlobal name definition => .ok (m.addGlobal name definition).1
  | createBlock func name => .ok (m.createBlock func name).1
  | placeBlock b => m.placeBlock b
  | addBlock func name => return (← m.addBlock func name).1
  | constInt bits raw => return (← m.constInt bits raw).1
  | null => .ok m.null.1
  | placeholder ty name => .ok (m.placeholder ty name).1
  | setValueName v name => m.setValueName v name
  | appendInst b spec operands => return (← m.appendInst b spec operands).1
  | setSpec i spec => m.setSpec i fun _ => spec
  | setOperand u v => m.setOperand u v
  | replaceAllUses source target => return (← m.replaceAllUses source target).1
  | eraseInst i => m.eraseInst i
  | eraseInsts b ids => m.eraseInsts b ids
  | build func current step => return (← step.run { module := m, func, current }).2.module
  | eliminate f maxBits => return (← m.eliminate f maxBits).1
  | simplify o => m.simplified o

/-- The modules that operations lead to. -/
inductive Reachable : Module → Prop
  | empty (name : String) : Reachable (Module.empty name)
  | step {m m' : Module} (op : Op) (h : Reachable m) (run : op.run m = .ok m') : Reachable m'

namespace Module

variable {m m' : Module}

/-- What a run over one function has done, step by step. -/
lemma Intact.steps_of_eliminate (h : m.Intact) {f : FuncId} {maxBits n : Nat}
    (hrun : m.eliminate f maxBits = .ok (m', n)) :
    ∃ gone, Sweep.Steps maxBits ⟨m, [], []⟩ ⟨m', [], gone⟩ := by
  obtain ⟨func, hf, -⟩ := bind_eq_ok.1 hrun
  obtain ⟨m₁, gone, hrun₁, hsteps⟩ := h.eliminate_steps maxBits (getFunc_eq_ok.1 hf) []
  obtain ⟨rfl, -⟩ := Prod.mk.inj (Except.ok.inj (hrun₁.symm.trans hrun))
  exact ⟨gone, hsteps⟩

/-- What a run over all functions has done, step by step. -/
lemma Intact.steps_of_simplified (h : m.Intact) {o : Options} (hrun : m.simplified o = .ok m') :
    ∃ gone, Sweep.Steps o.maxIdentityBits ⟨m, [], []⟩ ⟨m', [], gone⟩ := by
  have hfuncs : ∀ f ∈ m.funcIds, ∃ func, m.func? f = some func := fun f => mem_funcIds.1
  obtain ⟨m₁, gone, hrun₁, hsteps⟩ := h.eliminateAll_steps o.maxIdentityBits hfuncs []
  rw [Module.simplified] at hrun
  split at hrun
  · rename_i m₂ stats hsimplify
    rw [eliminateAll_of_simplify hsimplify, Except.ok.injEq, Prod.mk.injEq] at hrun₁
    obtain rfl := Except.ok.inj hrun
    exact ⟨gone, hrun₁.1 ▸ hsteps⟩
  · cases hrun
  · obtain rfl := Except.ok.inj hrun
    exact ⟨[], .refl⟩
  · simp only [hrun₁, ok_bind, pure_eq_ok] at hrun
    exact ⟨gone, hrun ▸ hsteps⟩

lemma Intact.steps (h : m.Intact) {maxBits : Nat} {gone : List InstId}
    (hsteps : Sweep.Steps maxBits ⟨m, [], []⟩ ⟨m', [], gone⟩) : m'.Intact :=
  (hsteps.sound (Sweep.sound_start _ h [])).intact

/-- An operation keeps a module intact. -/
lemma Intact.run (h : m.Intact) {op : Op} (hrun : op.run m = .ok m') : m'.Intact := by
  cases op with
  | describe name sourceFilename targetLines =>
    obtain rfl := Except.ok.inj hrun
    exact ⟨h.agrees, h.shaped.congr ⟨fun _ => rfl, fun _ => rfl, rfl, fun _ => rfl⟩⟩
  | addFunc name returnType params =>
    obtain rfl := Except.ok.inj hrun
    exact h.addFunc name returnType params
  | describeFunc f name returnType linkage attrs vararg =>
    obtain ⟨-, -, heq⟩ := bind_eq_ok.1 hrun
    obtain rfl := pure_eq_ok.1 heq
    exact h.modifyFunc f fun _ => rfl
  | addGlobal name definition =>
    obtain rfl := Except.ok.inj hrun
    exact h.addGlobal name definition
  | createBlock func name =>
    obtain rfl := Except.ok.inj hrun
    exact h.createBlock func name
  | placeBlock b => exact h.placeBlock hrun
  | addBlock func name =>
    obtain ⟨⟨m₁, b⟩, hrun', heq⟩ := bind_eq_ok.1 hrun
    obtain rfl := pure_eq_ok.1 heq
    exact h.addBlock hrun'
  | constInt bits raw =>
    obtain ⟨⟨m₁, v⟩, hrun', heq⟩ := bind_eq_ok.1 hrun
    obtain rfl := pure_eq_ok.1 heq
    exact h.constInt hrun'
  | null =>
    obtain rfl := Except.ok.inj hrun
    exact h.shareValue rfl rfl
  | placeholder ty name =>
    obtain rfl := Except.ok.inj hrun
    exact h.pushValue rfl trivial
  | setValueName v name => exact h.setValueName hrun
  | appendInst b spec operands =>
    obtain ⟨⟨m₁, i⟩, hrun', heq⟩ := bind_eq_ok.1 hrun
    obtain rfl := pure_eq_ok.1 heq
    exact h.appendInst hrun'
  | setSpec i spec => exact h.setSpec (f := fun _ => spec) hrun
  | setOperand u v => exact h.setOperand hrun
  | replaceAllUses source target =>
    obtain ⟨⟨m₁, n⟩, hrun', heq⟩ := bind_eq_ok.1 hrun
    obtain rfl := pure_eq_ok.1 heq
    exact h.replaceAllUses hrun'
  | eraseInst i => exact (h.eraseInst_eq_ok hrun).2.1
  | eraseInsts b ids => exact (h.eraseInsts_eq_ok hrun).2.1
  | build func current step =>
    obtain ⟨⟨⟨⟩, b⟩, hrun', heq⟩ := bind_eq_ok.1 hrun
    obtain rfl := pure_eq_ok.1 heq
    exact Build.keeps_step step _ _ _ hrun' h
  | eliminate f maxBits =>
    obtain ⟨⟨m₁, n⟩, hrun', heq⟩ := bind_eq_ok.1 hrun
    obtain rfl := pure_eq_ok.1 heq
    obtain ⟨gone, hsteps⟩ := h.steps_of_eliminate hrun'
    exact h.steps hsteps
  | simplify o =>
    obtain ⟨gone, hsteps⟩ := h.steps_of_simplified hrun
    exact h.steps hsteps

end Module

lemma Reachable.intact {m : Module} (h : Reachable m) : m.Intact := by
  induction h with
  | empty name => exact Module.intact_empty name
  | step op _ run ih => exact ih.run run

/-! ## Integrity -/

namespace Module

/-- Both records of the reads agree, and every instruction and every block is in one place. -/
structure Integrity (m : Module) : Prop where
  /-- A use list holds no place twice. -/
  usesOnce : ∀ v value, m.value? v = some value → value.uses.toList.Nodup
  /-- A use list holds the places at which an instruction reads the value, and no others. -/
  mem_uses : ∀ v value i k, m.value? v = some value →
    (⟨i, k⟩ ∈ value.uses ↔ ∃ inst, m.inst? i = some inst ∧ inst.operandValues[k]? = some v)
  /-- An operand remembers the position of its entry in the use list of the value that it reads. -/
  slot : ∀ i inst (k : Nat) (o : Operand), m.inst? i = some inst → inst.operands[k]? = some o →
    ∃ value, m.value? o.value = some value ∧ value.uses[o.slot]? = some ⟨i, k⟩
  /-- The parent of an instruction is there. -/
  parent : ∀ i inst, m.inst? i = some inst → ∃ block, m.block? inst.parent = some block
  /-- An instruction is listed once by its parent, and by no other block. -/
  listed : ∀ i inst, m.inst? i = some inst → ∀ b block, m.block? b = some block →
    block.insts.toList.count i = if b = inst.parent then 1 else 0
  /-- No block and no use list knows an instruction that has been erased. -/
  erased : ∀ i, m.inst? i = none →
    (∀ b block, m.block? b = some block → i ∉ block.insts) ∧
      ∀ v value k, m.value? v = some value → ⟨i, k⟩ ∉ value.uses
  /-- A block is placed at most once, all layouts taken together. -/
  placedOnce : m.placedBlocks.Nodup
  /-- A block is placed in the layout of its own function. -/
  placed : ∀ f func b, m.func? f = some func → b ∈ func.layout →
    ∃ block, m.block? b = some block ∧ block.func = f

variable {m : Module}

lemma Agrees.nodup_uses (h : m.Agrees) {v : ValueId} {value : Value}
    (hv : m.value? v = some value) : value.uses.toList.Nodup := by
  have hget : ∀ {j u}, value.uses[j]? = some u → m.operand? u = some ⟨v, j⟩ := by
    intro j u hj
    rw [agrees_iff.1 h, use?_of_value? hv, hj]
  refine List.nodup_iff_getElem?_ne_getElem?.2 fun j k hjk hk heq => ?_
  -- A place at two positions would remember both.
  rw [Array.getElem?_toList, Array.getElem?_toList] at heq
  have hk' : value.uses[k]? = some value.uses[k] := Array.getElem?_eq_getElem (by simpa using hk)
  have := (hget (heq.trans hk')).symm.trans (hget hk')
  simp only [Option.some.injEq, Operand.mk.injEq, true_and] at this
  omega

lemma Agrees.mem_uses (h : m.Agrees) {v : ValueId} {value : Value} (hv : m.value? v = some value)
    {i : InstId} {k : Nat} :
    ⟨i, k⟩ ∈ value.uses ↔ ∃ inst, m.inst? i = some inst ∧ inst.operandValues[k]? = some v := by
  rw [Array.mem_iff_getElem?]
  constructor
  · rintro ⟨slot, hslot⟩
    rw [← use?_of_value? hv, ← agrees_iff.1 h, operand?_eq_some] at hslot
    obtain ⟨inst, hi, ho⟩ := hslot
    exact ⟨inst, hi, by simp [Inst.operandValues, show inst.operands[k]? = _ from ho]⟩
  · rintro ⟨inst, hi, hk⟩
    obtain ⟨⟨w, slot⟩, ho, rfl⟩ : ∃ o : Operand, inst.operands[k]? = some o ∧ o.value = v := by
      simpa [Inst.operandValues] using hk
    refine ⟨slot, ?_⟩
    rw [← use?_of_value? hv, ← agrees_iff.1 h, operand?_of_inst? hi, ho]

lemma Intact.toIntegrity (h : m.Intact) : m.Integrity where
  usesOnce v value hv := h.agrees.nodup_uses hv
  mem_uses v value i k hv := h.agrees.mem_uses hv
  slot i inst k o hi ho := by
    rw [← use?_eq_some, ← agrees_iff.1 h.agrees, operand?_of_inst? hi, ho]
  parent i inst hi := by
    obtain ⟨block, hb, -⟩ := (h.shaped.held i inst.parent).2 ⟨inst, hi, rfl⟩
    exact ⟨block, hb⟩
  listed i inst hi b block hb := h.shaped.count_eq hi hb
  erased i hi := by
    refine ⟨fun b block hb hmem => ?_, fun v value k hv hmem => ?_⟩
    · obtain ⟨inst, hinst, -⟩ := (h.shaped.held i b).1 ⟨block, hb, hmem⟩
      rw [hi] at hinst
      cases hinst
    · obtain ⟨inst, hinst, -⟩ := (h.agrees.mem_uses hv).1 hmem
      rw [hi] at hinst
      cases hinst
  placedOnce := h.shaped.nodup_placedBlocks
  placed f func b hf hb := h.shaped.placed f func hf b hb

end Module

/-- Every reachable module has integrity, whatever operations have led to it. -/
theorem Reachable.integrity {m : Module} (h : Reachable m) : m.Integrity := h.intact.toIntegrity

/-! ## A knot -/

/-- Do operations in order. -/
def Op.runAll (m : Module) (ops : List Op) : Except Fault Module := ops.foldlM Op.run m

lemma Reachable.runAll {m m' : Module} (h : Reachable m) {ops : List Op}
    (hrun : Op.runAll m ops = .ok m') : Reachable m' :=
  foldlM_keeps (P := Reachable) (fun _ op _ h hop => h.step op hop) h hrun

/-- A function whose entry block holds `a = a + 0`, then `b = c + 0` and `c = b * 1`, and returns
`c`.  A block that is not placed adds `b` and `c`. -/
def knot : List Op := [
  .addFunc "f" (.int 32) [.int 32],
  .constInt 32 0,
  .constInt 32 1,
  .addBlock ⟨0⟩ (some "entry"),
  .createBlock ⟨0⟩ none,
  .appendInst ⟨0⟩ { opcode := .binary .add, ty := .int 32 } [⟨4⟩, ⟨2⟩],
  .appendInst ⟨0⟩ { opcode := .binary .add, ty := .int 32 } [⟨1⟩, ⟨2⟩],
  .appendInst ⟨0⟩ { opcode := .binary .mul, ty := .int 32 } [⟨5⟩, ⟨3⟩],
  .setOperand ⟨⟨1⟩, 0⟩ ⟨6⟩,
  .build ⟨0⟩ (some ⟨0⟩) (.ret (some ⟨6⟩)),
  .build ⟨0⟩ (some ⟨1⟩) (.add ⟨5⟩ ⟨6⟩)]

/-- The knot can be tied, and its entry block is the one block in the layout of its function. -/
lemma knot_runs : ∃ m func, Op.runAll (.empty "knot") knot = .ok m ∧ m.func? ⟨0⟩ = some func ∧
    func.layout.toList = [⟨0⟩] := by
  have : ((Op.runAll (.empty "knot") knot).toOption.bind (·.func? ⟨0⟩)).map (·.layout.toList)
      = some [⟨0⟩] := by decide +kernel
  rw [Option.map_eq_some_iff] at this
  obtain ⟨func, hfunc, hlayout⟩ := this
  cases hrun : Op.runAll (.empty "knot") knot with
  | ok m => exact ⟨m, func, rfl, by simpa [hrun, Except.toOption] using hfunc, hlayout⟩
  | error e => simp [hrun, Except.toOption] at hfunc

theorem integrity_knot : ∃ m, Op.runAll (.empty "knot") knot = .ok m ∧ m.Integrity := by
  obtain ⟨m, -, hrun, -⟩ := knot_runs
  exact ⟨m, hrun, Reachable.integrity ((Reachable.empty "knot").runAll hrun)⟩

end SsaFold
