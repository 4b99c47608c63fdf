import Mathlib.Tactic.Common
import SsaFold.Module.Insts
import SsaFold.Proofs.Outcome

/-!
# Operands, and modules without positions

Everything an operation does to operands is one map over all places: `updateOperands F` lets
`F u` act on the operand at `u`.  Such maps compose, and they depend on the operands that are
there only.

A module has two layers.  The *bare* module is what a reader of the program sees: values,
instructions with the values they read, blocks, functions.  The other layer is the record of
the reads: the use lists, and the position each operand remembers.  `Module.bare` forgets the
second layer, so `m'.bare = m.bare` says in one equation that an operation has changed nothing
but the record.  `Module.residue` is what a renaming of reads and an erasure leave behind.
-/

namespace SsaFold

/-- A map that pays no heed to positions. -/
lemma mapIdx_const {α β : Type} (f : α → β) (xs : Array α) :
    xs.mapIdx (fun _ x => f x) = xs.map f := by
  refine Array.ext_getElem? fun k => ?_
  simp

/-- A change does not show in what it leaves alone. -/
lemma map_modify_eq_map {α β : Type} {f : α → α} {g : α → β} (h : ∀ x, g (f x) = g x)
    (xs : Array α) (k : Nat) : (xs.modify k f).map g = xs.map g := by
  refine Array.ext_getElem? fun j => ?_
  rw [Array.getElem?_map, Array.getElem?_modify, Array.getElem?_map]
  split_ifs <;> simp [Function.comp_def, h]

/-! ## Entries -/

/-- The instruction with `g k` applied to its operand `k`. -/
def Inst.mapOperands (g : Nat → Operand → Operand) (inst : Inst) : Inst :=
  { inst with operands := inst.operands.mapIdx g }

/-- The operand without its position. -/
def Operand.bare (o : Operand) : Operand := { o with slot := 0 }

/-- The instruction without the positions of its reads. -/
def Inst.bare (inst : Inst) : Inst := inst.mapOperands fun _ => Operand.bare

/-- The value without its use list. -/
def Value.bare (value : Value) : Value := { value with uses := #[] }

/-- The instruction with every read renamed by `s`. -/
def Inst.rename (s : ValueId → ValueId) (inst : Inst) : Inst :=
  inst.mapOperands fun _ o => { o with value := s o.value }

namespace Inst

variable (inst : Inst)

lemma mapOperands_mapOperands (f g : Nat → Operand → Operand) :
    (inst.mapOperands f).mapOperands g = inst.mapOperands fun k o => g k (f k o) := by
  simp [mapOperands, Function.comp_def]

lemma mapOperands_congr {f g : Nat → Operand → Operand}
    (h : ∀ k o, inst.operands[k]? = some o → f k o = g k o) :
    inst.mapOperands f = inst.mapOperands g := by
  have : inst.operands.mapIdx f = inst.operands.mapIdx g := by
    refine Array.mapIdx_eq_mapIdx_iff.2 fun k hk => h k _ ?_
    simp
  simp only [mapOperands, this]

lemma mapOperands_id : (mapOperands fun _ o => o) = id := by
  funext inst
  simp [mapOperands, mapIdx_const]

lemma modify_operands (j : Nat) (f : Operand → Operand) :
    { inst with operands := inst.operands.modify j f }
      = inst.mapOperands fun k o => if k = j then f o else o := by
  have : inst.operands.modify j f = inst.operands.mapIdx fun k o => if k = j then f o else o := by
    refine Array.ext_getElem? fun k => ?_
    rw [Array.getElem?_modify, Array.getElem?_mapIdx]
    by_cases hk : j = k
    · simp [hk]
    · simp [hk, Ne.symm hk]
  rw [this]
  rfl

@[simp] lemma toInstSpec_bare : inst.bare.toInstSpec = inst.toInstSpec := rfl
@[simp] lemma result_bare : inst.bare.result = inst.result := rfl
@[simp] lemma parent_bare : inst.bare.parent = inst.parent := rfl

@[simp] lemma operandValues_bare : inst.bare.operandValues = inst.operandValues := by
  simp [operandValues, bare, mapOperands, Operand.bare, mapIdx_const, Function.comp_def]

@[simp] lemma toInstSpec_rename (s : ValueId → ValueId) :
    (inst.rename s).toInstSpec = inst.toInstSpec := rfl

@[simp] lemma result_rename (s : ValueId → ValueId) : (inst.rename s).result = inst.result := rfl
@[simp] lemma parent_rename (s : ValueId → ValueId) : (inst.rename s).parent = inst.parent := rfl

@[simp] lemma operandValues_rename (s : ValueId → ValueId) :
    (inst.rename s).operandValues = inst.operandValues.map s := by
  simp [operandValues, rename, mapOperands, mapIdx_const, Function.comp_def]

@[simp] lemma bare_bare : inst.bare.bare = inst.bare := by
  simp only [bare, mapOperands_mapOperands]
  rfl

lemma bare_rename (s : ValueId → ValueId) : (inst.rename s).bare = inst.bare.rename s := by
  simp [bare, rename, mapOperands_mapOperands, Operand.bare]

lemma rename_rename (s t : ValueId → ValueId) : (inst.rename s).rename t = inst.rename (t ∘ s) := by
  simp [rename, mapOperands_mapOperands]

/-- Renamings that agree on what an instruction reads do the same to it. -/
lemma rename_congr {s t : ValueId → ValueId} (h : ∀ v ∈ inst.operandValues, s v = t v) :
    inst.rename s = inst.rename t := by
  refine inst.mapOperands_congr fun k o ho => ?_
  have hmem : o.value ∈ inst.operandValues :=
    List.mem_map_of_mem (Array.mem_toList_iff.2 (Array.mem_of_getElem? ho))
  rw [h o.value hmem]

@[simp] lemma rename_id : inst.rename id = inst := by
  simp [rename, mapOperands, mapIdx_const]

section OfBare

variable {inst inst' : Inst}

/-- Instructions that agree up to positions read the same values. -/
lemma operandValues_eq_of_bare (h : inst'.bare = inst.bare) :
    inst'.operandValues = inst.operandValues := by
  rw [← operandValues_bare inst', h, operandValues_bare]

lemma toInstSpec_eq_of_bare (h : inst'.bare = inst.bare) : inst'.toInstSpec = inst.toInstSpec := by
  rw [← toInstSpec_bare inst', h, toInstSpec_bare]

lemma result_eq_of_bare (h : inst'.bare = inst.bare) : inst'.result = inst.result := by
  rw [← result_bare inst', h, result_bare]

lemma parent_eq_of_bare (h : inst'.bare = inst.bare) : inst'.parent = inst.parent := by
  rw [← parent_bare inst', h, parent_bare]

end OfBare

end Inst

namespace Module

/-! ## Places -/

/-- The operand at a place. -/
def operand? (m : Module) (u : Use) : Option Operand :=
  (m.inst? u.user).bind fun inst => inst.operands[u.operand]?

/-- The read that the use list of `v` holds at position `slot`. -/
def use? (m : Module) (v : ValueId) (slot : Nat) : Option Use :=
  (m.value? v).bind fun value => value.uses[slot]?

/-- Let `F u` act on the operand at `u`, for every place. -/
def updateOperands (m : Module) (F : Use → Operand → Operand) : Module :=
  { m with
    insts := m.insts.mapIdx fun k slot => slot.map (Inst.mapOperands fun j => F ⟨⟨k⟩, j⟩) }

section Places

variable {m : Module}

lemma operand?_eq_some {u : Use} {o : Operand} :
    m.operand? u = some o ↔
      ∃ inst, m.inst? u.user = some inst ∧ inst.operands[u.operand]? = some o := by
  simp [operand?, Option.bind_eq_some_iff]

lemma operand?_of_inst? {i : InstId} {inst : Inst} (h : m.inst? i = some inst) (k : Nat) :
    m.operand? ⟨i, k⟩ = inst.operands[k]? := by
  simp [operand?, h]

lemma use?_eq_some {v : ValueId} {slot : Nat} {u : Use} :
    m.use? v slot = some u ↔ ∃ value, m.value? v = some value ∧ value.uses[slot]? = some u := by
  simp [use?, Option.bind_eq_some_iff]

lemma use?_of_value? {v : ValueId} {value : Value} (h : m.value? v = some value) (slot : Nat) :
    m.use? v slot = value.uses[slot]? := by
  simp [use?, h]

@[simp] lemma getOperand_eq_ok {u : Use} {o : Operand} :
    m.getOperand u = .ok o ↔ m.operand? u = some o := by
  rw [operand?_eq_some]
  rw [getOperand]
  constructor
  · intro h
    cases hi : m.getInst u.user with
    | error e => simp [hi, bind, Except.bind] at h
    | ok inst =>
      refine ⟨inst, getInst_eq_ok.1 hi, ?_⟩
      cases ho : inst.operands[u.operand]? with
      | none => simp [hi, ho, bind, Except.bind, throw, throwThe, MonadExceptOf.throw] at h
      | some o' => simpa [hi, ho, bind, Except.bind, pure, Except.pure] using h
  · rintro ⟨inst, hi, ho⟩
    simp [getInst_eq_ok.2 hi, ho, bind, Except.bind, pure, Except.pure]

end Places

section UpdateOperands

variable (m : Module) (F G : Use → Operand → Operand)

@[simp] lemma value?_updateOperands (v : ValueId) :
    (m.updateOperands F).value? v = m.value? v := rfl

@[simp] lemma use?_updateOperands (v : ValueId) (slot : Nat) :
    (m.updateOperands F).use? v slot = m.use? v slot := rfl

lemma inst?_updateOperands (i : InstId) :
    (m.updateOperands F).inst? i = (m.inst? i).map (Inst.mapOperands fun k => F ⟨i, k⟩) := by
  cases h : m.insts[i.index]? with
  | none => simp [inst?, updateOperands, h]
  | some slot => cases slot <;> simp [inst?, updateOperands, h]

@[simp] lemma operand?_updateOperands (u : Use) :
    (m.updateOperands F).operand? u = (m.operand? u).map (F u) := by
  simp only [operand?, inst?_updateOperands]
  cases m.inst? u.user <;> simp [Inst.mapOperands]

lemma updateOperands_updateOperands :
    (m.updateOperands F).updateOperands G = m.updateOperands fun u o => G u (F u o) := by
  simp [updateOperands, Function.comp_def, Inst.mapOperands_mapOperands]

variable {m F G}

/-- The operands that are there decide what an update does. -/
lemma updateOperands_congr (h : ∀ u o, m.operand? u = some o → F u o = G u o) :
    m.updateOperands F = m.updateOperands G := by
  have hinsts : (m.updateOperands F).insts = (m.updateOperands G).insts := by
    refine Array.mapIdx_eq_mapIdx_iff.2 fun k hk => ?_
    cases hs : m.insts[k] with
    | none => rfl
    | some inst =>
      have hi : m.inst? ⟨k⟩ = some inst := by simp [inst?, hk, hs]
      simp only [Option.map_some, Option.some.injEq]
      exact inst.mapOperands_congr fun j o ho => h ⟨⟨k⟩, j⟩ o (by rw [operand?_of_inst? hi, ho])
  have hF : m.updateOperands F = { m with insts := (m.updateOperands F).insts } := rfl
  rw [hF, hinsts]
  rfl

lemma updateOperands_eq_self (h : ∀ u o, m.operand? u = some o → F u o = o) :
    m.updateOperands F = m := by
  rw [updateOperands_congr (G := fun _ o => o) h]
  simp [updateOperands, Inst.mapOperands_id, mapIdx_const]

/-- Changing the operand at one place is an update of all places. -/
lemma setOperandAt_eq {u : Use} {o : Operand} (h : m.operand? u = some o)
    (f : Operand → Operand) :
    m.setOperandAt u f = .ok (m.updateOperands fun w x => if w = u then f x else x) := by
  have hinsts : m.insts.modify u.user.index
        (·.map fun x => { x with operands := x.operands.modify u.operand f })
      = m.insts.mapIdx fun k slot => slot.map
          (Inst.mapOperands fun j x => if (⟨⟨k⟩, j⟩ : Use) = u then f x else x) := by
    refine Array.ext_getElem? fun k => ?_
    rw [Array.getElem?_modify, Array.getElem?_mapIdx]
    rcases u with ⟨⟨n⟩, j⟩
    by_cases hk : n = k
    · subst hk
      simp only [if_true, Use.mk.injEq, true_and, Inst.modify_operands]
    · have hne : ∀ l : Nat, (⟨⟨k⟩, l⟩ : Use) ≠ ⟨⟨n⟩, j⟩ := by
        rintro l ⟨⟩
        exact hk rfl
      simp [hk, hne, Inst.mapOperands_id]
  have hg : m.getOperand u = .ok o := getOperand_eq_ok.2 h
  simp only [setOperandAt, hg, bind, Except.bind, pure, Except.pure, modifyInst, updateOperands,
    hinsts]

end UpdateOperands

/-! ## Bare modules -/

/-- The module without its record of the reads. -/
def bare (m : Module) : Module :=
  { m.updateOperands (fun _ => Operand.bare) with values := m.values.map Value.bare }

section Bare

variable {m m' : Module}

@[simp] lemma size_insts_bare : m.bare.insts.size = m.insts.size := by simp [bare, updateOperands]
@[simp] lemma size_values_bare : m.bare.values.size = m.values.size := by simp [bare]
@[simp] lemma block?_bare (b : BlockId) : m.bare.block? b = m.block? b := rfl
@[simp] lemma inst?_bare (i : InstId) : m.bare.inst? i = (m.inst? i).map Inst.bare := by
  show (m.updateOperands fun _ => Operand.bare).inst? i = _
  rw [inst?_updateOperands]
  rfl

@[simp] lemma value?_bare (v : ValueId) : m.bare.value? v = (m.value? v).map Value.bare := by
  simp [bare, value?]

@[simp] lemma operand?_bare (u : Use) : m.bare.operand? u = (m.operand? u).map Operand.bare := by
  show (m.updateOperands fun _ => Operand.bare).operand? u = _
  rw [operand?_updateOperands]

lemma bare_updateOperands_eq {F G : Use → Operand → Operand}
    (h : ∀ u o, m.operand? u = some o → (F u o).bare = G u o.bare) :
    (m.updateOperands F).bare = m.bare.updateOperands G := by
  have : (m.updateOperands F).updateOperands (fun _ => Operand.bare)
      = (m.updateOperands fun _ => Operand.bare).updateOperands G := by
    rw [updateOperands_updateOperands, updateOperands_updateOperands]
    exact updateOperands_congr h
  simp only [bare, this]
  rfl

lemma bare_updateOperands {F : Use → Operand → Operand}
    (h : ∀ u o, m.operand? u = some o → (F u o).value = o.value) :
    (m.updateOperands F).bare = m.bare := by
  rw [bare_updateOperands_eq (G := fun _ o => o) fun u o ho => by simp [Operand.bare, h u o ho]]
  exact updateOperands_eq_self fun _ _ _ => rfl

lemma bare_modifyValue {v : ValueId} {f : Value → Value} (h : ∀ x, (f x).bare = x.bare) :
    (m.modifyValue v f).bare = m.bare := by
  have hm : (m.modifyValue v f).bare
      = { m.bare with values := (m.values.modify v.index f).map Value.bare } := rfl
  rw [hm, map_modify_eq_map h]
  rfl

lemma bare_modifyBlock {b : BlockId} {f : Block → Block} :
    (m.modifyBlock b f).bare = m.bare.modifyBlock b f := rfl

/-- What one bare module shows of a read, the other shows too. -/
lemma operand?_of_bare_eq (h : m'.bare = m.bare) {u : Use} {o : Operand}
    (ho : m.operand? u = some o) : ∃ o', m'.operand? u = some o' ∧ o'.value = o.value := by
  have hb : m'.bare.operand? u = some o.bare := by rw [h, operand?_bare, ho]; rfl
  rw [operand?_bare, Option.map_eq_some_iff] at hb
  obtain ⟨o', ho', hbare⟩ := hb
  exact ⟨o', ho', (Operand.mk.inj hbare).1⟩

end Bare

/-! ## What a renaming and an erasure leave behind -/

/-- The module in which every read is renamed by `s`, and the instructions in `gone` are there no
more. -/
def residue (m : Module) (s : ValueId → ValueId) (gone : List InstId) : Module :=
  { m with
    insts := m.insts.mapIdx fun k slot => if ⟨k⟩ ∈ gone then none else slot.map (Inst.rename s)
    blocks := m.blocks.map fun b => { b with insts := b.insts.filter (· ∉ gone) } }

section Residue

variable (m : Module) (s t : ValueId → ValueId) (gone more : List InstId)

@[simp] lemma value?_residue (v : ValueId) : (m.residue s gone).value? v = m.value? v := rfl

lemma inst?_residue (i : InstId) :
    (m.residue s gone).inst? i = if i ∈ gone then none else (m.inst? i).map (Inst.rename s) := by
  rcases i with ⟨k⟩
  simp only [inst?, residue, Array.getElem?_mapIdx]
  cases m.insts[k]? with
  | none => simp
  | some slot => by_cases hk : (⟨k⟩ : InstId) ∈ gone <;> simp [hk]

lemma block?_residue (b : BlockId) :
    (m.residue s gone).block? b =
      (m.block? b).map fun b => { b with insts := b.insts.filter (· ∉ gone) } := by
  simp [block?, residue]

lemma filter_nil_blocks :
    m.blocks.map (fun b => { b with insts := b.insts.filter (· ∉ ([] : List InstId)) })
      = m.blocks := by
  have hfilter : (fun b : Block => { b with insts := b.insts.filter (· ∉ ([] : List InstId)) })
      = id := by
    funext b
    have : b.insts.filter (· ∉ ([] : List InstId)) = b.insts := by simp
    rw [this]
    rfl
  rw [hfilter, Array.map_id]

/-- With nothing erased, a residue is an update of the operands. -/
lemma residue_nil : m.residue s [] = m.updateOperands fun _ o => { o with value := s o.value } := by
  rw [residue, filter_nil_blocks]
  simp only [List.not_mem_nil, if_false]
  rfl

@[simp] lemma residue_id_nil : m.residue id [] = m := by
  rw [residue_nil]
  exact updateOperands_eq_self fun _ _ _ => rfl

lemma residue_residue :
    (m.residue s gone).residue t more = m.residue (t ∘ s) (gone ++ more) := by
  have hinsts : ((m.residue s gone).residue t more).insts
      = (m.residue (t ∘ s) (gone ++ more)).insts := by
    simp only [residue, Array.mapIdx_mapIdx]
    congr 1
    funext k slot
    by_cases hk : (⟨k⟩ : InstId) ∈ gone <;> by_cases hk' : (⟨k⟩ : InstId) ∈ more <;>
      cases slot <;> simp [hk, hk', Inst.rename_rename]
  have hblocks : ((m.residue s gone).residue t more).blocks
      = (m.residue (t ∘ s) (gone ++ more)).blocks := by
    simp only [residue, Array.map_map]
    congr 1
    funext b
    simp [Array.filter_filter, not_or, Bool.and_comm]
  have hres : (m.residue s gone).residue t more
      = { m with
          insts := ((m.residue s gone).residue t more).insts
          blocks := ((m.residue s gone).residue t more).blocks } := rfl
  rw [hres, hinsts, hblocks]
  rfl

end Residue

section BareResidue

variable {m m' : Module} {s : ValueId → ValueId} {gone : List InstId}

/-- An instruction that is left had its reads renamed. -/
lemma inst?_of_residue (h : m'.bare = m.bare.residue s gone) {i : InstId} {inst' : Inst}
    (hi : m'.inst? i = some inst') :
    i ∉ gone ∧ ∃ inst, m.inst? i = some inst ∧ inst'.bare = (inst.rename s).bare := by
  have hb : m'.bare.inst? i = some inst'.bare := by rw [inst?_bare, hi]; rfl
  rw [h, inst?_residue, inst?_bare] at hb
  split_ifs at hb with hgone
  rw [Option.map_map, Option.map_eq_some_iff] at hb
  obtain ⟨inst, hinst, heq⟩ := hb
  exact ⟨hgone, inst, hinst, by rw [← heq, Inst.bare_rename]; rfl⟩

/-- An instruction that is not erased is left. -/
lemma inst?_residue_of_not_mem (h : m'.bare = m.bare.residue s gone) {i : InstId} {inst : Inst}
    (hi : m.inst? i = some inst) (hgone : i ∉ gone) :
    ∃ inst', m'.inst? i = some inst' ∧ inst'.bare = (inst.rename s).bare := by
  have hb : m'.bare.inst? i = some (inst.bare.rename s) := by
    rw [h, inst?_residue, if_neg hgone, inst?_bare, hi]
    rfl
  rw [inst?_bare, Option.map_eq_some_iff] at hb
  obtain ⟨inst', hinst', heq⟩ := hb
  exact ⟨inst', hinst', by rw [heq, Inst.bare_rename]⟩

lemma inst?_eq_none_of_residue (h : m'.bare = m.bare.residue s gone) {i : InstId} (hi : i ∈ gone) :
    m'.inst? i = none := by
  cases hinst : m'.inst? i with
  | none => rfl
  | some inst' => exact absurd hi (inst?_of_residue h hinst).1

lemma operand?_of_residue (h : m'.bare = m.bare.residue s gone) {u : Use} {o' : Operand}
    (ho : m'.operand? u = some o') :
    u.user ∉ gone ∧ ∃ o, m.operand? u = some o ∧ o'.value = s o.value := by
  obtain ⟨inst', hi', hk'⟩ := operand?_eq_some.1 ho
  obtain ⟨hgone, inst, hi, hbare⟩ := inst?_of_residue h hi'
  refine ⟨hgone, ?_⟩
  have hvalues := Inst.operandValues_eq_of_bare hbare
  have hk : (inst.operandValues.map s)[u.operand]? = some o'.value := by
    rw [← Inst.operandValues_rename, ← hvalues]
    simp [Inst.operandValues, hk']
  rw [operand?_of_inst? hi]
  simp only [Inst.operandValues, List.map_map, List.getElem?_map, Array.getElem?_toList,
    Option.map_eq_some_iff] at hk
  obtain ⟨o, ho, heq⟩ := hk
  exact ⟨o, ho, heq.symm⟩

lemma value?_of_residue (h : m'.bare = m.bare.residue s gone) (v : ValueId) :
    (m'.value? v).map Value.bare = (m.value? v).map Value.bare := by
  rw [← value?_bare, h, value?_residue, value?_bare]

lemma block?_of_residue (h : m'.bare = m.bare.residue s gone) (b : BlockId) :
    m'.block? b = (m.block? b).map fun x => { x with insts := x.insts.filter (· ∉ gone) } := by
  rw [← block?_bare, h, block?_residue, block?_bare]

lemma functions_of_residue (h : m'.bare = m.bare.residue s gone) : m'.functions = m.functions := by
  have := congrArg Module.functions h
  exact this

lemma blocks_of_residue (h : m'.bare = m.bare.residue s gone) :
    m'.blocks = m.blocks.map fun x => { x with insts := x.insts.filter (· ∉ gone) } := by
  have := congrArg Module.blocks h
  exact this

/-- What is said of the module as a whole stays. -/
lemma header_of_residue (h : m'.bare = m.bare.residue s gone) :
    m'.globals = m.globals ∧ m'.name = m.name ∧ m'.sourceFilename = m.sourceFilename ∧
      m'.targetLines = m.targetLines := by
  have hglobals := congrArg Module.globals h
  have hname := congrArg Module.name h
  have hsource := congrArg Module.sourceFilename h
  have htarget := congrArg Module.targetLines h
  exact ⟨hglobals, hname, hsource, htarget⟩

end BareResidue

end Module
end SsaFold
