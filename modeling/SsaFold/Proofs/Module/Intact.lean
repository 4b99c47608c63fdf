import SsaFold.Module.Values
import SsaFold.Proofs.Module.Reads

/-!
# Intact modules

`Intact` is what every operation on a module keeps.  It has two parts.  The record of the reads
agrees (`Agrees`).  And the entries have their *shape*: a result belongs to its instruction, a
block lists each instruction whose parent it is once and no others, and a layout lists blocks of
its own function once each.

Shape has nothing to do with what is read.  `SameShape` says of two modules that they differ in
use lists, operands, names and the like only, so that one has its shape if the other has; and an
erasure, as `Module.residue` does it, keeps shape as well.
-/

namespace SsaFold

/-- The type suits a value of the kind.  A result, a parameter and a placeholder may be of any
type. -/
def ValueKind.Fits : ValueKind → Ty → Prop
  | .constInt c, ty => ty = c.ty
  | .null, ty | .function _, ty | .global _, ty => ty = .ptr
  | .argument _ _, _ | .inst _, _ | .placeholder, _ => True

namespace Module

/-- What holds of the entries of a module, whatever is read. -/
structure Shaped (m : Module) : Prop where
  /-- The result of an instruction is known as such. -/
  result : ∀ i inst, m.inst? i = some inst →
    ∃ value, m.value? inst.result = some value ∧ value.kind = .inst i
  /-- The type of a value suits what it is. -/
  fits : ∀ v value, m.value? v = some value → value.kind.Fits value.ty
  /-- A block lists exactly the instructions whose parent it is. -/
  held : ∀ i b, (∃ block, m.block? b = some block ∧ i ∈ block.insts) ↔
    ∃ inst, m.inst? i = some inst ∧ inst.parent = b
  /-- A block lists an instruction once. -/
  heldOnce : ∀ b block, m.block? b = some block → block.insts.toList.Nodup
  /-- A layout lists blocks of its own function. -/
  placed : ∀ f func, m.func? f = some func → ∀ b ∈ func.layout,
    ∃ block, m.block? b = some block ∧ block.func = f
  /-- A layout lists a block once. -/
  placedOnce : ∀ f func, m.func? f = some func → func.layout.toList.Nodup

/-- What every operation on a module keeps. -/
structure Intact (m : Module) : Prop where
  agrees : m.Agrees
  shaped : m.Shaped

/-! ## Modules of one shape -/

/-- The two modules differ in what shape does not depend on. -/
structure SameShape (m m' : Module) : Prop where
  insts : ∀ i, (m'.inst? i).map (fun x => (x.result, x.parent))
    = (m.inst? i).map fun x => (x.result, x.parent)
  values : ∀ v, (m'.value? v).map (fun x => (x.kind, x.ty))
    = (m.value? v).map fun x => (x.kind, x.ty)
  blocks : m'.blocks = m.blocks
  layouts : ∀ f, (m'.func? f).map Func.layout = (m.func? f).map Func.layout

section SameShape

variable {m m' m'' : Module}

namespace SameShape

lemma symm (h : SameShape m m') : SameShape m' m :=
  ⟨fun i => (h.insts i).symm, fun v => (h.values v).symm, h.blocks.symm,
    fun f => (h.layouts f).symm⟩

lemma trans (h : SameShape m m') (h' : SameShape m' m'') : SameShape m m'' :=
  ⟨fun i => (h'.insts i).trans (h.insts i), fun v => (h'.values v).trans (h.values v),
    h'.blocks.trans h.blocks, fun f => (h'.layouts f).trans (h.layouts f)⟩

lemma block? (h : SameShape m m') (b : BlockId) : m'.block? b = m.block? b := by
  simp only [Module.block?, h.blocks]

lemma inst? (h : SameShape m m') {i : InstId} {inst' : Inst} (hi : m'.inst? i = some inst') :
    ∃ inst, m.inst? i = some inst ∧ inst.result = inst'.result ∧ inst.parent = inst'.parent := by
  have := h.insts i
  rw [hi, Option.map_some, eq_comm, Option.map_eq_some_iff] at this
  obtain ⟨inst, hinst, heq⟩ := this
  exact ⟨inst, hinst, (Prod.mk.inj heq).1, (Prod.mk.inj heq).2⟩

lemma value? (h : SameShape m m') {v : ValueId} {value' : Value} (hv : m'.value? v = some value') :
    ∃ value, m.value? v = some value ∧ value.kind = value'.kind ∧ value.ty = value'.ty := by
  have := h.values v
  rw [hv, Option.map_some, eq_comm, Option.map_eq_some_iff] at this
  obtain ⟨value, hvalue, heq⟩ := this
  exact ⟨value, hvalue, (Prod.mk.inj heq).1, (Prod.mk.inj heq).2⟩

lemma func? (h : SameShape m m') {f : FuncId} {func' : Func} (hf : m'.func? f = some func') :
    ∃ func, m.func? f = some func ∧ func.layout = func'.layout := by
  have := h.layouts f
  rwa [hf, Option.map_some, eq_comm, Option.map_eq_some_iff] at this

lemma updateOperands (m : Module) (F : Use → Operand → Operand) :
    SameShape m (m.updateOperands F) := by
  refine ⟨fun i => ?_, fun _ => rfl, rfl, fun _ => rfl⟩
  rw [inst?_updateOperands]
  cases m.inst? i <;> rfl

lemma modifyValue (m : Module) (v : ValueId) {f : Value → Value}
    (h : ∀ x, (f x).kind = x.kind ∧ (f x).ty = x.ty) : SameShape m (m.modifyValue v f) := by
  refine ⟨fun _ => rfl, fun w => ?_, rfl, fun _ => rfl⟩
  rw [value?_modifyValue]
  split
  · cases m.value? w <;> simp [h]
  · rfl

lemma modifyInst (m : Module) (i : InstId) {f : Inst → Inst}
    (h : ∀ x, (f x).result = x.result ∧ (f x).parent = x.parent) :
    SameShape m (m.modifyInst i f) := by
  refine ⟨fun j => ?_, fun _ => rfl, rfl, fun _ => rfl⟩
  rw [inst?_modifyInst]
  split
  · cases m.inst? j <;> simp [h]
  · rfl

lemma bare (m : Module) : SameShape m m.bare := by
  refine ⟨fun i => ?_, fun v => ?_, rfl, fun _ => rfl⟩
  · rw [inst?_bare]
    cases m.inst? i <;> rfl
  · rw [value?_bare]
    cases m.value? v <;> rfl

end SameShape

lemma Shaped.congr (h : m.Shaped) (hs : SameShape m m') : m'.Shaped where
  result i inst' hi := by
    obtain ⟨inst, hinst, hres, -⟩ := hs.inst? hi
    obtain ⟨value, hv, hkind⟩ := h.result i inst hinst
    obtain ⟨value', hv', hkind', -⟩ := hs.symm.value? (hres ▸ hv)
    exact ⟨value', hv', hkind'.trans hkind⟩
  fits v value' hv := by
    obtain ⟨value, hv₀, hkind, hty⟩ := hs.value? hv
    rw [← hkind, ← hty]
    exact h.fits v value hv₀
  held i b := by
    rw [hs.block?, h.held]
    constructor
    · rintro ⟨inst, hi, rfl⟩
      obtain ⟨inst', hi', -, hparent⟩ := hs.symm.inst? hi
      exact ⟨inst', hi', hparent⟩
    · rintro ⟨inst', hi', rfl⟩
      obtain ⟨inst, hi, -, hparent⟩ := hs.inst? hi'
      exact ⟨inst, hi, hparent⟩
  heldOnce b block hb := h.heldOnce b block (hs.block? b ▸ hb)
  placed f func' hf b hb := by
    obtain ⟨func, hf₀, hlayout⟩ := hs.func? hf
    rw [hs.block?]
    exact h.placed f func hf₀ b (hlayout ▸ hb)
  placedOnce f func' hf := by
    obtain ⟨func, hf₀, hlayout⟩ := hs.func? hf
    exact hlayout ▸ h.placedOnce f func hf₀

/-- An erasure takes instructions out of the table and out of their blocks alike. -/
lemma Shaped.residue (h : m.Shaped) (s : ValueId → ValueId) (gone : List InstId) :
    (m.residue s gone).Shaped where
  result i inst' hi := by
    rw [inst?_residue] at hi
    split_ifs at hi
    obtain ⟨inst, hinst, rfl⟩ := Option.map_eq_some_iff.1 hi
    exact h.result i inst hinst
  fits := h.fits
  held i b := by
    have := h.held i b
    simp only [block?_residue, inst?_residue, Option.map_eq_some_iff]
    by_cases hi : i ∈ gone
    · simp only [hi, if_true]
      constructor
      · rintro ⟨_, ⟨block, hb, rfl⟩, hmem⟩
        simp [hi] at hmem
      · rintro ⟨_, ⟨⟩, _⟩
    · simp only [hi, if_false]
      constructor
      · rintro ⟨_, ⟨block, hb, rfl⟩, hmem⟩
        obtain ⟨inst, hinst, hparent⟩ := this.1 ⟨block, hb, (Array.mem_filter.1 hmem).1⟩
        exact ⟨inst.rename s, by simp [hinst], hparent⟩
      · rintro ⟨_, hi', hparent⟩
        obtain ⟨inst, hinst, rfl⟩ := Option.map_eq_some_iff.1 hi'
        obtain ⟨block, hb, hmem⟩ := this.2 ⟨inst, hinst, hparent⟩
        exact ⟨_, ⟨block, hb, rfl⟩, Array.mem_filter.2 ⟨hmem, by simpa using hi⟩⟩
  heldOnce b block' hb := by
    rw [block?_residue, Option.map_eq_some_iff] at hb
    obtain ⟨block, hb, rfl⟩ := hb
    rw [Array.toList_filter]
    exact (h.heldOnce b block hb).filter _
  placed f func hf b hb := by
    obtain ⟨block, hblock, hfunc⟩ := h.placed f func hf b hb
    rw [block?_residue, hblock]
    exact ⟨_, rfl, hfunc⟩
  placedOnce := h.placedOnce

/-- A module is shaped if its bare module is the residue of a shaped one. -/
lemma Shaped.of_bare_eq (h : m.Shaped) {s : ValueId → ValueId} {gone : List InstId}
    (hbare : m'.bare = m.bare.residue s gone) : m'.Shaped := by
  have : m'.bare.Shaped := hbare ▸ (h.congr (.bare m)).residue s gone
  exact this.congr (SameShape.bare m').symm

end SameShape

/-! ## Adding entries -/

section Adding

variable {m m' : Module}

/-- Values without reads can be added, and functions without blocks. -/
lemma Intact.grow (h : m.Intact) (vs : Array Value) (hvalues : m'.values = m.values ++ vs)
    (huses : ∀ x ∈ vs, x.uses = #[]) (hfits : ∀ x ∈ vs, x.kind.Fits x.ty)
    (hinsts : m'.insts = m.insts) (hblocks : m'.blocks = m.blocks)
    (hfuncs : ∀ f func, m'.func? f = some func → func.layout = #[] ∨
      ∃ func₀, m.func? f = some func₀ ∧ func₀.layout = func.layout) : m'.Intact := by
  have hinst : ∀ i, m'.inst? i = m.inst? i := fun i => by simp only [inst?, hinsts]
  have hblock : ∀ b, m'.block? b = m.block? b := fun b => by simp only [block?, hblocks]
  have hold : ∀ {v value}, m.value? v = some value → m'.value? v = some value := by
    intro v value hv
    rw [value?, hvalues, Array.getElem?_append_left (Array.getElem?_eq_some_iff.1 hv).1]
    exact hv
  have hnew : ∀ {v value}, m'.value? v = some value → m.value? v = some value ∨ value ∈ vs := by
    intro v value hv
    rw [value?, hvalues, Array.getElem?_append] at hv
    split_ifs at hv with hlt
    · exact .inl hv
    · exact .inr (Array.mem_of_getElem? hv)
  refine ⟨agrees_iff.2 fun u v slot => ?_, ?_⟩
  · rw [operand?, hinst, ← operand?, agrees_iff.1 h.agrees, use?_eq_some, use?_eq_some]
    constructor
    · rintro ⟨value, hv, hslot⟩
      exact ⟨value, hold hv, hslot⟩
    · rintro ⟨value, hv, hslot⟩
      rcases hnew hv with hv | hmem
      · exact ⟨value, hv, hslot⟩
      · rw [huses value hmem] at hslot
        simp at hslot
  · constructor
    · intro i inst hi
      obtain ⟨value, hv, hkind⟩ := h.shaped.result i inst (hinst i ▸ hi)
      exact ⟨value, hold hv, hkind⟩
    · intro v value hv
      rcases hnew hv with hv | hmem
      · exact h.shaped.fits v value hv
      · exact hfits value hmem
    · intro i b
      rw [hblock, hinst]
      exact h.shaped.held i b
    · intro b block hb
      exact h.shaped.heldOnce b block (hblock b ▸ hb)
    · intro f func hf b hb
      rcases hfuncs f func hf with hnil | ⟨func₀, hf₀, hlayout⟩
      · simp [hnil] at hb
      · rw [hblock]
        exact h.shaped.placed f func₀ hf₀ b (hlayout ▸ hb)
    · intro f func hf
      rcases hfuncs f func hf with hnil | ⟨func₀, hf₀, hlayout⟩
      · simp [hnil]
      · exact hlayout ▸ h.shaped.placedOnce f func₀ hf₀

lemma intact_empty (name : String) : (empty name).Intact := by
  refine ⟨fun u v slot => ?_, ?_, ?_, ?_, ?_, ?_, ?_⟩ <;>
    simp [empty, operand?, inst?, use?, value?, block?, func?]

lemma Intact.pushValue (h : m.Intact) {value : Value} (huses : value.uses = #[])
    (hfits : value.kind.Fits value.ty) : (m.pushValue value).1.Intact := by
  refine h.grow #[value] (by simp) ?_ ?_ rfl rfl fun f func hf => .inr ⟨func, hf, rfl⟩
  · simpa using huses
  · simpa using hfits

lemma Intact.shareValue (h : m.Intact) {value : Value} (huses : value.uses = #[])
    (hfits : value.kind.Fits value.ty) : (m.shareValue value).1.Intact := by
  rw [Module.shareValue]
  split
  · exact h
  · exact h.pushValue huses hfits

lemma Intact.constInt (h : m.Intact) {bits : Nat} {raw : Int} {v : ValueId}
    (hrun : m.constInt bits raw = .ok (m', v)) : m'.Intact := by
  rw [Module.constInt] at hrun
  split at hrun
  · rw [Except.ok.injEq, Prod.mk.injEq] at hrun
    rw [← hrun.1]
    exact h.shareValue rfl rfl
  · cases hrun

lemma Intact.addFunc (h : m.Intact) (name : String) (returnType : Ty) (params : List Ty) :
    (m.addFunc name returnType params).1.Intact := by
  set address : Value := { kind := .function ⟨m.functions.size⟩, ty := .ptr }
  set argument : Ty × Nat → Value := fun p =>
    { kind := .argument ⟨m.functions.size⟩ p.2, ty := p.1 }
  have hvalues : (m.addFunc name returnType params).1.values
      = m.values ++ (#[address] ++ (params.zipIdx.map argument).toArray) := by
    rw [← Array.append_assoc]
    rfl
  refine h.grow _ hvalues ?_ ?_ rfl rfl ?_
  · intro x hx
    simp only [Array.mem_append, List.mem_toArray, List.mem_singleton, List.mem_map] at hx
    rcases hx with rfl | ⟨p, -, rfl⟩
    · rfl
    · rfl
  · intro x hx
    simp only [Array.mem_append, List.mem_toArray, List.mem_singleton, List.mem_map] at hx
    rcases hx with rfl | ⟨p, -, rfl⟩
    · rfl
    · trivial
  · intro f func hf
    simp only [Module.addFunc, func?, Array.getElem?_push] at hf
    split_ifs at hf
    · left
      rw [← Option.some.inj hf]
    · exact .inr ⟨func, hf, rfl⟩

lemma Intact.addGlobal (h : m.Intact) (name definition : String) :
    (m.addGlobal name definition).1.Intact :=
  h.grow #[{ kind := .global ⟨m.globals.size⟩, ty := .ptr }] (by simp [Module.addGlobal])
    (by simp) (by simp [ValueKind.Fits]) rfl rfl fun _ func hf => .inr ⟨func, hf, rfl⟩

lemma Intact.createBlock (h : m.Intact) (func : FuncId) (name : Option String) :
    (m.createBlock func name).1.Intact := by
  have hblock : ∀ b, (m.createBlock func name).1.block? b
      = if b.index = m.blocks.size then some { name, func } else m.block? b := by
    intro b
    simp only [Module.createBlock, block?, Array.getElem?_push]
  have hnone : ∀ b : BlockId, b.index = m.blocks.size → m.block? b = none := by
    intro b hb
    simp [block?, hb]
  have hs := h.shaped
  refine ⟨h.agrees, hs.result, hs.fits, fun i b => ?_, fun b block hb => ?_, fun f fn hf b hb => ?_,
    hs.placedOnce⟩
  · rw [hblock]
    split_ifs with hb
    · have hnobody : ¬ ∃ inst, m.inst? i = some inst ∧ inst.parent = b := by
        rw [← hs.held, hnone b hb]
        rintro ⟨_, ⟨⟩, _⟩
      constructor
      · rintro ⟨block, heq, hi⟩
        obtain rfl := Option.some.inj heq
        simp at hi
      · exact fun hi => absurd hi hnobody
    · exact hs.held i b
  · rw [hblock] at hb
    split_ifs at hb
    · rw [← Option.some.inj hb]
      simp
    · exact hs.heldOnce b block hb
  · obtain ⟨block, hb', hfunc⟩ := hs.placed f fn hf b hb
    refine ⟨block, ?_, hfunc⟩
    rw [hblock, if_neg fun hsize => ?_, hb']
    simp [hnone b hsize] at hb'

lemma func?_modifyFunc (m : Module) (f g : FuncId) (change : Func → Func) :
    (m.modifyFunc f change).func? g = if f = g then (m.func? g).map change else m.func? g := by
  simp only [func?, modifyFunc, Array.getElem?_modify]
  rcases f with ⟨i⟩; rcases g with ⟨j⟩
  by_cases h : i = j <;> simp [h]

/-- A placement that succeeds adds the block to the layout of its function. -/
lemma placeBlock_eq_ok {b : BlockId} (hrun : m.placeBlock b = .ok m') :
    ∃ block func, m.block? b = some block ∧ m.func? block.func = some func ∧ b ∉ func.layout ∧
      m' = m.modifyFunc block.func fun f => { f with layout := f.layout.push b } := by
  simp only [Module.placeBlock, bind_eq_ok, getBlock_eq_ok, getFunc_eq_ok] at hrun
  obtain ⟨block, hb, func, hf, hrun⟩ := hrun
  split_ifs at hrun with hmem
  · simp at hrun
  · exact ⟨block, func, hb, hf, hmem, (pure_eq_ok.1 hrun).symm⟩

lemma Intact.placeBlock (h : m.Intact) {b : BlockId} (hrun : m.placeBlock b = .ok m') :
    m'.Intact := by
  obtain ⟨block, func, hb, hf, hnew, rfl⟩ := placeBlock_eq_ok hrun
  have hs := h.shaped
  refine ⟨h.agrees, hs.result, hs.fits, hs.held, hs.heldOnce, fun g fn hg c hc => ?_,
    fun g fn hg => ?_⟩
  all_goals rw [func?_modifyFunc] at hg; split_ifs at hg with hfg
  · subst hfg
    rw [hf, Option.map_some, Option.some.injEq] at hg
    subst hg
    rcases Array.mem_push.1 hc with hc | rfl
    · exact hs.placed _ func hf c hc
    · exact ⟨block, hb, rfl⟩
  · exact hs.placed g fn hg c hc
  · subst hfg
    rw [hf, Option.map_some, Option.some.injEq] at hg
    subst hg
    rw [Array.toList_push]
    refine List.nodup_append.2 ⟨hs.placedOnce _ func hf, List.pairwise_singleton _ b, ?_⟩
    rintro c hc d hd rfl
    rw [List.mem_singleton.1 hd] at hc
    exact hnew (Array.mem_toList_iff.1 hc)
  · exact hs.placedOnce g fn hg

lemma Intact.addBlock (h : m.Intact) {func : FuncId} {name : Option String} {b : BlockId}
    (hrun : m.addBlock func name = .ok (m', b)) : m'.Intact := by
  simp only [Module.addBlock, bind_eq_ok, pure_eq_ok, Prod.mk.injEq] at hrun
  obtain ⟨m₁, hplace, rfl, -⟩ := hrun
  exact (h.createBlock func name).placeBlock hplace

end Adding

end Module
end SsaFold
