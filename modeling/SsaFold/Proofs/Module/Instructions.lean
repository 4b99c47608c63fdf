import SsaFold.Proofs.Module.Intact

/-!
# Instructions come, change and go

Each operation on instructions keeps a module intact.  What it does besides is one equation
between bare modules: `Module.withInst` says what an append adds, `Module.residue` what an
erasure leaves.  Appending and redirecting are described from their success.  For an erasure the
conditions of success are given too, `Module.Erasable`, since its callers must meet them.
-/

namespace SsaFold
namespace Module

variable {m m' : Module}

/-! ## Descriptions and redirections -/

/-- Names and the like can be changed freely. -/
lemma Intact.congr (h : m.Intact) (hs : SameShape m m') (hop : ∀ u, m'.operand? u = m.operand? u)
    (huse : ∀ v slot, m'.use? v slot = m.use? v slot) : m'.Intact := by
  refine ⟨agrees_iff.2 fun u v slot => ?_, h.shaped.congr hs⟩
  rw [hop, huse]
  exact agrees_iff.1 h.agrees u v slot

lemma Intact.setValueName (h : m.Intact) {v : ValueId} {name : Option String}
    (hrun : m.setValueName v name = .ok m') : m'.Intact := by
  simp only [Module.setValueName, bind_eq_ok, pure_eq_ok] at hrun
  obtain ⟨-, -, rfl⟩ := hrun
  refine h.congr (.modifyValue m v fun _ => ⟨rfl, rfl⟩) (fun _ => rfl) fun w slot => ?_
  rw [use?_modifyValue]
  split
  · rfl
  · rfl

lemma Intact.setSpec (h : m.Intact) {i : InstId} {f : InstSpec → InstSpec}
    (hrun : m.setSpec i f = .ok m') : m'.Intact := by
  simp only [Module.setSpec, bind_eq_ok, pure_eq_ok] at hrun
  obtain ⟨-, -, rfl⟩ := hrun
  refine h.congr (.modifyInst m i fun _ => ⟨rfl, rfl⟩) (fun u => ?_) fun _ _ => rfl
  simp only [operand?, inst?_modifyInst]
  split
  · cases m.inst? u.user <;> rfl
  · rfl

/-- A function can be described anew, as long as its layout stays. -/
lemma Intact.modifyFunc (h : m.Intact) (f : FuncId) {change : Func → Func}
    (hlayout : ∀ x, (change x).layout = x.layout) : (m.modifyFunc f change).Intact := by
  refine h.congr ⟨fun _ => rfl, fun _ => rfl, rfl, fun g => ?_⟩ (fun _ => rfl) fun _ _ => rfl
  rw [func?_modifyFunc]
  split
  · cases m.func? g <;> simp [hlayout]
  · rfl

lemma Intact.setOperand (h : m.Intact) {u : Use} {v : ValueId} (hrun : m.setOperand u v = .ok m') :
    m'.Intact := by
  obtain ⟨hagrees, hbare⟩ := h.agrees.setOperand hrun
  refine ⟨hagrees, h.shaped.congr ?_⟩
  exact ((SameShape.bare m).trans (hbare ▸ .updateOperands m.bare _)).trans (SameShape.bare m').symm

lemma Intact.redirected (h : m.Intact) {source target : ValueId} {sv tv : Value}
    (hne : source ≠ target) (hs : m.value? source = some sv) (ht : m.value? target = some tv) :
    (m.redirected source target).Intact :=
  ⟨h.agrees.redirected hne hs ht, h.shaped.of_bare_eq (bare_redirected _ _ _)⟩

lemma Intact.replaceAllUses (h : m.Intact) {source target : ValueId} {n : Nat}
    (hrun : m.replaceAllUses source target = .ok (m', n)) : m'.Intact := by
  rcases h.agrees.replaceAllUses_eq_ok hrun with ⟨rfl, -⟩ | ⟨hne, sv, tv, hs, ht, rfl⟩
  · exact h
  · exact h.redirected hne hs ht

/-! ## Appending -/

/-- The bare module with one more instruction at the end of block `b`. -/
def withInst (m : Module) (b : BlockId) (spec : InstSpec) (vs : List ValueId) : Module :=
  { m with
    values := m.values.push { kind := .inst ⟨m.insts.size⟩, ty := spec.ty }
    insts := m.insts.push (some
      { spec with operands := (vs.map (⟨·, 0⟩)).toArray, result := ⟨m.values.size⟩, parent := b })
    blocks := m.blocks.modify b.index fun x => { x with insts := x.insts.push ⟨m.insts.size⟩ } }

section Append

variable {i : InstId} {k : Nat} {vs : List ValueId} {ops : List Operand}

/-- Recording the reads of an instruction adds them to the record in operand order. -/
lemma Records.addUses {R : Use → Operand → Prop} (h : m.Records R)
    (hrun : m.addUses i k vs = .ok (m', ops)) :
    m'.Records fun u o => R u o ∨
      (u.user = i ∧ k ≤ u.operand ∧ ops[u.operand - k]? = some o) := by
  induction vs generalizing m k ops R with
  | nil =>
    simp only [Module.addUses, Except.ok.injEq, Prod.mk.injEq] at hrun
    obtain ⟨rfl, rfl⟩ := hrun
    exact h.congr fun u o => by simp
  | cons v vs ih =>
    simp only [Module.addUses, bind_eq_ok, pure_eq_ok, Prod.mk.injEq] at hrun
    obtain ⟨⟨m₁, slot⟩, hadd, ⟨m₂, rest⟩, hrest, rfl, rfl⟩ := hrun
    refine (ih (h.addUse hadd) hrest).congr fun u o => ?_
    rcases u with ⟨j, n⟩
    rw [or_assoc]
    refine or_congr_right ?_
    simp only [Use.mk.injEq]
    by_cases hn : n = k
    · subst hn
      have hlt : ¬ n + 1 ≤ n := by omega
      simp [hlt, eq_comm]
    · by_cases hlt : k + 1 ≤ n
      · have hsub : n - k = n - (k + 1) + 1 := by omega
        have hle : k ≤ n := by omega
        simp [hn, hlt, hle, hsub]
      · have hle : ¬ k ≤ n := by omega
        simp [hn, hlt, hle]

lemma bare_addUses (hrun : m.addUses i k vs = .ok (m', ops)) :
    m'.bare = m.bare ∧ m'.insts = m.insts ∧ ops.map Operand.value = vs := by
  induction vs generalizing m k ops with
  | nil =>
    simp only [Module.addUses, Except.ok.injEq, Prod.mk.injEq] at hrun
    obtain ⟨rfl, rfl⟩ := hrun
    exact ⟨rfl, rfl, rfl⟩
  | cons v vs ih =>
    simp only [Module.addUses, bind_eq_ok, pure_eq_ok, Prod.mk.injEq] at hrun
    obtain ⟨⟨m₁, slot⟩, hadd, ⟨m₂, rest⟩, hrest, rfl, rfl⟩ := hrun
    obtain ⟨hbare, hinsts, hvalues⟩ := ih hrest
    exact ⟨hbare.trans (bare_addUse hadd), hinsts.trans (insts_addUse hadd), by simp [hvalues]⟩

lemma inst?_of_size_le {j : InstId} (h : m.insts.size ≤ j.index) : m.inst? j = none := by
  simp [inst?, h]

lemma inst?_push {inst : Inst} (j : InstId) :
    ({ m with insts := m.insts.push (some inst) } : Module).inst? j
      = if j.index = m.insts.size then some inst else m.inst? j := by
  simp only [inst?, Array.getElem?_push]
  split <;> rfl

/-- What a successful append has done. -/
lemma appendInst_eq_ok {b : BlockId} {spec : InstSpec}
    (hrun : m.appendInst b spec vs = .ok (m', i)) :
    ∃ m₁ ops block,
      (m.pushValue { kind := .inst ⟨m.insts.size⟩, ty := spec.ty }).1.addUses ⟨m.insts.size⟩ 0 vs
        = .ok (m₁, ops) ∧
      m₁.block? b = some block ∧ i = ⟨m.insts.size⟩ ∧
      m' = { m₁ with
        insts := m₁.insts.push (some
          { spec with operands := ops.toArray, result := ⟨m.values.size⟩, parent := b })
        blocks := m₁.blocks.modify b.index fun x =>
          { x with insts := x.insts.push ⟨m.insts.size⟩ } } := by
  simp only [Module.appendInst, bind_eq_ok, pure_eq_ok, getBlock_eq_ok, Prod.mk.injEq] at hrun
  obtain ⟨⟨m₁, ops⟩, hadd, block, hb, rfl, rfl⟩ := hrun
  exact ⟨m₁, ops, block, hadd, hb, rfl, rfl⟩

/-- Reads can be recorded of values that are there. -/
lemma addUses_ok (hvs : ∀ v ∈ vs, ∃ value, m.value? v = some value) :
    ∃ m' ops, m.addUses i k vs = .ok (m', ops) := by
  induction vs generalizing m k with
  | nil => exact ⟨m, [], rfl⟩
  | cons v vs ih =>
    obtain ⟨⟨value, hv⟩, hvs⟩ := List.forall_mem_cons.1 hvs
    obtain ⟨m₁, hm₁⟩ : ∃ m₁, m₁ = m.modifyValue v fun x => { x with uses := x.uses.push ⟨i, k⟩ } :=
      ⟨_, rfl⟩
    have hadd : m.addUse v ⟨i, k⟩ = .ok (m₁, value.uses.size) :=
      addUse_eq_ok_iff.2 ⟨value, hv, rfl, hm₁⟩
    have hvs₁ : ∀ w ∈ vs, ∃ value, m₁.value? w = some value := by
      intro w hw
      obtain ⟨value', hw'⟩ := hvs w hw
      rw [hm₁, value?_modifyValue, hw']
      split_ifs <;> exact ⟨_, rfl⟩
    obtain ⟨m₂, ops, hrest⟩ := ih (k := k + 1) hvs₁
    exact ⟨m₂, ⟨v, value.uses.size⟩ :: ops, by simp [Module.addUses, hadd, hrest]⟩

/-- An append succeeds if its block and what it reads are there. -/
lemma appendInst_ok {b : BlockId} {block : Block} (spec : InstSpec) (hb : m.block? b = some block)
    (hvs : ∀ v ∈ vs, ∃ value, m.value? v = some value) :
    ∃ m' i, m.appendInst b spec vs = .ok (m', i) := by
  have hvs' : ∀ v ∈ vs, ∃ value,
      (m.pushValue { kind := .inst ⟨m.insts.size⟩, ty := spec.ty }).1.value? v = some value := by
    intro v hv
    obtain ⟨value, hvalue⟩ := hvs v hv
    refine ⟨value, ?_⟩
    rw [value?, values_pushValue, Array.getElem?_push_lt (Array.getElem?_eq_some_iff.1 hvalue).1]
    exact congrArg some (Array.getElem?_eq_some_iff.1 hvalue).2
  obtain ⟨m₁, ops, hadd⟩ := addUses_ok (i := ⟨m.insts.size⟩) (k := 0) hvs'
  have hb₁ : m₁.block? b = some block := by
    rw [← block?_bare, (bare_addUses hadd).1, block?_bare]
    exact hb
  simp only [Module.appendInst, bind_eq_ok, pure_eq_ok, getBlock_eq_ok, Prod.mk.injEq]
  exact ⟨_, _, (m₁, ops), hadd, block, hb₁, rfl, rfl⟩

lemma inst?_withInst (b : BlockId) (spec : InstSpec) (j : InstId) :
    (m.withInst b spec vs).inst? j = if j.index = m.insts.size then some
      { spec with operands := (vs.map (⟨·, 0⟩)).toArray, result := ⟨m.values.size⟩, parent := b }
      else m.inst? j := by
  simp only [inst?, withInst, Array.getElem?_push]
  split <;> rfl

lemma value?_withInst (b : BlockId) (spec : InstSpec) (v : ValueId) :
    (m.withInst b spec vs).value? v = if v.index = m.values.size then some
      { kind := .inst ⟨m.insts.size⟩, ty := spec.ty } else m.value? v := by
  simp only [value?, withInst, Array.getElem?_push]

lemma block?_withInst (b c : BlockId) (spec : InstSpec) :
    (m.withInst b spec vs).block? c = if b = c then (m.block? c).map fun x =>
      { x with insts := x.insts.push ⟨m.insts.size⟩ } else m.block? c :=
  block?_modifyBlock m b c _

lemma Shaped.withInst (h : m.Shaped) {b : BlockId} {block : Block} (hb : m.block? b = some block)
    (spec : InstSpec) (vs : List ValueId) : (m.withInst b spec vs).Shaped where
  result j inst hj := by
    rw [inst?_withInst] at hj
    split_ifs at hj with hnew
    · obtain rfl := Option.some.inj hj
      refine ⟨_, by rw [value?_withInst, if_pos rfl], ?_⟩
      rw [← hnew]
    · obtain ⟨value, hv, hkind⟩ := h.result j inst hj
      refine ⟨value, ?_, hkind⟩
      rw [value?_withInst, if_neg fun hsize => ?_, hv]
      simp [Module.value?, hsize] at hv
  fits v value hv := by
    rw [value?_withInst] at hv
    split_ifs at hv
    · obtain rfl := Option.some.inj hv
      trivial
    · exact h.fits v value hv
  held j c := by
    have hold := h.held j c
    rw [inst?_withInst, block?_withInst]
    by_cases hj : j.index = m.insts.size
    · -- The new instruction was in no block before.
      have hnone : ¬ ∃ block, m.block? c = some block ∧ j ∈ block.insts := by
        rw [hold, inst?_of_size_le (Nat.le_of_eq hj.symm)]
        rintro ⟨_, ⟨⟩, _⟩
      rw [if_pos hj]
      by_cases hbc : b = c
      · subst hbc
        simp [hb, ← hj]
      · simpa [hbc] using hnone
    · rw [if_neg hj, ← hold]
      by_cases hbc : b = c
      · have hne : j ≠ ⟨m.insts.size⟩ := fun heq => hj (congrArg InstId.index heq)
        simp [← hbc, hb, hne]
      · simp [hbc]
  heldOnce c block' hc := by
    rw [block?_withInst] at hc
    split_ifs at hc with hbc
    · subst hbc
      rw [hb, Option.map_some, Option.some.injEq] at hc
      subst hc
      rw [Array.toList_push]
      refine List.nodup_append.2 ⟨h.heldOnce b block hb, List.pairwise_singleton _ _, ?_⟩
      rintro j hj _ hnew rfl
      rw [List.mem_singleton.1 hnew] at hj
      obtain ⟨inst, hinst, -⟩ := (h.held _ b).1 ⟨block, hb, Array.mem_toList_iff.1 hj⟩
      simp [inst?_of_size_le] at hinst
    · exact h.heldOnce c block' hc
  placed f func hf c hc := by
    obtain ⟨block', hc', hfunc⟩ := h.placed f func hf c hc
    rw [block?_withInst, hc']
    by_cases hbc : b = c <;> simp [hbc, hfunc]
  placedOnce := h.placedOnce

lemma bare_pushInst (inst : Inst) :
    ({ m with insts := m.insts.push (some inst) } : Module).bare
      = { m.bare with insts := m.bare.insts.push (some inst.bare) } := by
  simp [bare, updateOperands, Inst.bare]

lemma bare_pushValue (value : Value) :
    (m.pushValue value).1.bare = (m.bare.pushValue value.bare).1 := by
  simp only [bare, pushValue, Array.map_push]
  rfl

/-- An append adds one instruction to the bare module. -/
lemma bare_appendInst {b : BlockId} {spec : InstSpec}
    (hrun : m.appendInst b spec vs = .ok (m', i)) :
    i = ⟨m.insts.size⟩ ∧ m'.bare = m.bare.withInst b spec vs := by
  obtain ⟨m₁, ops, block, hadd, -, rfl, rfl⟩ := appendInst_eq_ok hrun
  obtain ⟨hbare, -, hvalues⟩ := bare_addUses hadd
  refine ⟨rfl, ?_⟩
  set inst : Inst := { spec with operands := ops.toArray, result := ⟨m.values.size⟩, parent := b }
  have hops : ops.toArray.mapIdx (fun _ => Operand.bare)
      = (vs.map fun v => (⟨v, 0⟩ : Operand)).toArray := by
    refine (mapIdx_const Operand.bare _).trans ?_
    simp [← hvalues, Function.comp_def, Operand.bare]
  have hinst : inst.bare = { spec with
      operands := (vs.map fun v => (⟨v, 0⟩ : Operand)).toArray
      result := ⟨m.values.size⟩, parent := b } := by
    simp only [Inst.bare, Inst.mapOperands, inst, hops]
  show (({ m₁ with insts := m₁.insts.push (some inst) } : Module).modifyBlock b _).bare = _
  rw [bare_modifyBlock, bare_pushInst, hbare, bare_pushValue, hinst]
  simp only [withInst, size_insts_bare, size_values_bare]
  rfl

lemma Intact.appendInst (h : m.Intact) {b : BlockId} {spec : InstSpec}
    (hrun : m.appendInst b spec vs = .ok (m', i)) : m'.Intact := by
  have hbare := (bare_appendInst hrun).2
  obtain ⟨m₁, ops, block, hadd, hb, rfl, rfl⟩ := appendInst_eq_ok hrun
  obtain ⟨hbare₁, hinsts, -⟩ := bare_addUses hadd
  have hb' : m.bare.block? b = some block := by
    rw [← hb, ← block?_bare (m := m₁), hbare₁]
    rfl
  refine ⟨agrees_iff.2 fun u v slot => ?_, ?_⟩
  · set fresh : Value := { kind := .inst ⟨m.insts.size⟩, ty := spec.ty }
    set inst : Inst := { spec with operands := ops.toArray, result := ⟨m.values.size⟩, parent := b }
    have hfits : fresh.kind.Fits fresh.ty := trivial
    have hagrees : (m.pushValue fresh).1.Agrees := (h.pushValue rfl hfits).agrees
    have hop : operand? { m₁ with insts := m₁.insts.push (some inst) } u
        = if u.user.index = m.insts.size then ops[u.operand]? else m.operand? u := by
      have hsame : m₁.insts = m.insts := hinsts
      rw [operand?, inst?_push, hsame]
      split_ifs
      · simp [inst]
      · simp only [inst?, hsame]
        rfl
    show operand? { m₁ with insts := m₁.insts.push (some inst) } u = _ ↔ m₁.use? v slot = some u
    rw [hop, ← hagrees.addUses hadd u v slot]
    split_ifs with hu
    · have hnone : (m.pushValue fresh).1.operand? u = none := by
        rw [operand?, inst?_pushValue, inst?_of_size_le (Nat.le_of_eq hu.symm)]
        rfl
      simp [hnone, ← hu]
    · have hne : u.user ≠ ⟨m.insts.size⟩ := fun heq => hu (congrArg InstId.index heq)
      simp only [hne, false_and, or_false]
      rfl
  · exact (hbare ▸ (h.shaped.congr (.bare m)).withInst hb' spec vs : Shaped _).congr
      (SameShape.bare _).symm

end Append

/-! ## Erasing -/

/-- The module in which the places of the instructions in `gone` are empty, though their blocks
still list them. -/
def without (m : Module) (gone : List InstId) : Module :=
  { m with insts := m.insts.mapIdx fun k slot => if ⟨k⟩ ∈ gone then none else slot }

/-- Instruction `i` can be erased from block `b`: it is there, and nothing reads its result. -/
def Erasable (m : Module) (b : BlockId) (i : InstId) : Prop :=
  ∃ inst value, m.inst? i = some inst ∧ inst.parent = b ∧
    m.value? inst.result = some value ∧ value.uses = #[]

section Erase

variable {i : InstId} {b : BlockId} {gone more : List InstId}

lemma without_nil : m.without [] = m := by
  have : (fun (k : Nat) (slot : Option Inst) => if (⟨k⟩ : InstId) ∈ [] then none else slot)
      = fun _ slot => id slot := by
    funext k slot
    simp
  rw [without, this, mapIdx_const, Array.map_id]

lemma without_congr (h : ∀ i, i ∈ gone ↔ i ∈ more) : m.without gone = m.without more := by
  simp only [without, h]

lemma inst?_without (j : InstId) :
    (m.without gone).inst? j = if j ∈ gone then none else m.inst? j := by
  simp only [inst?, without, Array.getElem?_mapIdx]
  cases m.insts[j.index]? with
  | none => simp
  | some slot => by_cases hj : j ∈ gone <;> simp [hj]

@[simp] lemma size_insts_without : (m.without gone).insts.size = m.insts.size := by simp [without]

lemma index_lt_of_inst? {inst : Inst} (h : m.inst? i = some inst) : i.index < m.insts.size := by
  by_contra hle
  rw [inst?_of_size_le (Nat.not_lt.1 hle)] at h
  cases h

lemma dropInst_without : (m.without gone).dropInst i = m.without (i :: gone) := by
  have : ((m.without gone).dropInst i).insts = (m.without (i :: gone)).insts := by
    refine Array.ext_getElem? fun k => ?_
    rw [dropInst, Array.getElem?_setIfInBounds]
    simp only [without, Array.getElem?_mapIdx, List.mem_cons, Array.size_mapIdx]
    rcases i with ⟨n⟩
    by_cases hk : n = k
    · subst hk
      by_cases hn : n < m.insts.size <;> simp [hn]
    · simp [hk, Ne.symm hk]
  have hm : (m.without gone).dropInst i
      = { m with insts := ((m.without gone).dropInst i).insts } := rfl
  rw [hm, this]
  rfl

lemma bare_dropInst : (m.dropInst i).bare = m.bare.dropInst i := by
  have : (m.dropInst i).bare.insts = (m.bare.dropInst i).insts := by
    simp [bare, dropInst, updateOperands, Array.mapIdx_setIfInBounds]
  have hm : (m.dropInst i).bare = { m.bare with insts := (m.dropInst i).bare.insts } := rfl
  rw [hm, this]
  rfl

/-- The reads of an instruction leave the record one after the other, and then its place is
emptied. -/
lemma Agrees.detach (h : m.Agrees) {inst : Inst} (hi : m.inst? i = some inst) :
    ∃ m', m.detach i = .ok (m', inst.parent) ∧ m'.Agrees ∧ m'.bare = m.bare.dropInst i := by
  have hop : ∀ k, m.operand? ⟨i, k⟩ = inst.operands[k]? := operand?_of_inst? hi
  -- After `k` steps the reads by the first `k` operands have left the record.
  obtain ⟨m₁, hrun, h₁, hbare⟩ := foldlM_range_ok
    (P := fun k (s : Module) => (s.AgreesOff fun u => u.user = i ∧ u.operand < k) ∧ s.bare = m.bare)
    (f := fun (s : Module) k => do
      let operand ← s.getOperand ⟨i, k⟩
      s.removeUse operand.value ⟨i, k⟩)
    inst.operands.size
    (by
      rintro k s hk ⟨hs, hbare⟩
      obtain ⟨o, ho, -⟩ := operand?_of_bare_eq hbare (hop k ▸ Array.getElem?_eq_getElem hk)
      obtain ⟨t, hrun, ht, hbare'⟩ := hs.removeUse o.value o.slot (by simp) ho
      refine ⟨t, by simp [getOperand_eq_ok.2 ho, hrun], ?_, hbare'.trans hbare⟩
      refine Records.congr ht fun u o => ?_
      rcases u with ⟨j, n⟩
      simp only [Use.mk.injEq, Nat.lt_succ_iff_lt_or_eq]
      tauto)
    m ⟨by simpa using agreesOff_false.2 h, rfl⟩
  refine ⟨m₁.dropInst i, ?_, agrees_iff.2 fun u v slot => ?_, by rw [bare_dropInst, hbare]⟩
  · simp only [Module.detach, getInst_eq_ok.2 hi, ok_bind, hrun]
    rfl
  · show _ ↔ m₁.use? v slot = some u
    rw [← h₁ u v slot, operand?, inst?_dropInst]
    by_cases hu : i = u.user
    · subst hu
      simp only [if_true, true_and, Option.bind_none, reduceCtorEq, false_iff, not_and, Nat.not_lt]
      intro hle ho
      obtain ⟨o, ho', -⟩ := operand?_of_bare_eq hbare.symm ho
      have := (Array.getElem?_eq_some_iff.1 ((hop u.operand).symm.trans ho')).1
      omega
    · simp [hu, Ne.symm hu, operand?]

lemma residue_id : m.residue id gone
    = { m.without gone with
        blocks := m.blocks.map fun x => { x with insts := x.insts.filter (· ∉ gone) } } := by
  have : Inst.rename id = id := funext Inst.rename_id
  simp only [residue, without, this, Option.map_id, id]

/-- Only the parents of the erased instructions have to be gone over. -/
lemma Shaped.filter_parent (h : m.Shaped)
    (hgone : ∀ i ∈ gone, ∃ inst, m.inst? i = some inst ∧ inst.parent = b) :
    m.blocks.modify b.index (fun x => { x with insts := x.insts.filter (· ∉ gone) })
      = m.blocks.map fun x => { x with insts := x.insts.filter (· ∉ gone) } := by
  refine Array.ext_getElem? fun k => ?_
  rw [Array.getElem?_modify, Array.getElem?_map]
  split_ifs with hk
  · rfl
  · cases hblock : m.blocks[k]? with
    | none => rfl
    | some block =>
      have hall : ∀ j ∈ block.insts, j ∉ gone := by
        intro j hj hmem
        obtain ⟨inst, hinst, hparent⟩ := (h.held j ⟨k⟩).1 ⟨block, hblock, hj⟩
        obtain ⟨inst', hinst', hparent'⟩ := hgone j hmem
        obtain rfl : inst = inst' := Option.some.inj (hinst.symm.trans hinst')
        exact hk (by rw [← hparent', hparent])
      have hsame : block.insts.filter (· ∉ gone) = block.insts :=
        Array.filter_eq_self.2 fun j hj => by simpa using hall j hj
      rw [Option.map_some, hsame]

/-- When the places of some instructions of a block are empty, going over the block ends their
erasure. -/
lemma Shaped.filterBlock (h : m.Shaped) {m₁ : Module} {block : Block} (keep : InstId → Bool)
    (hbare : m₁.bare = m.bare.without gone) (hagrees : m₁.Agrees) (hb : m.block? b = some block)
    (hgone : ∀ i ∈ gone, ∃ inst, m.inst? i = some inst ∧ inst.parent = b)
    (hkeep : ∀ i, keep i = decide (i ∉ gone)) :
    ∃ m', m₁.filterBlock b keep = .ok m' ∧ m'.Intact ∧ m'.bare = m.bare.residue id gone := by
  obtain rfl : keep = fun i => decide (i ∉ gone) := funext hkeep
  have hb₁ : m₁.block? b = some block := by
    rw [← block?_bare, hbare]
    exact hb
  set m' := m₁.modifyBlock b fun x => { x with insts := x.insts.filter (· ∉ gone) }
  have hbare' : m'.bare = m.bare.residue id gone := by
    rw [bare_modifyBlock, hbare, residue_id, ← (h.congr (.bare m)).filter_parent (b := b) ?_]
    · rfl
    · intro i hi
      obtain ⟨inst, hinst, hparent⟩ := hgone i hi
      exact ⟨inst.bare, by rw [inst?_bare, hinst]; rfl, hparent⟩
  refine ⟨m', ?_, ⟨hagrees, h.of_bare_eq hbare'⟩, hbare'⟩
  simp only [Module.filterBlock, getBlock_eq_ok.2 hb₁, ok_bind]
  rfl

lemma checkUnused_eq_ok {inst : Inst} : m.checkUnused i = .ok inst ↔
    m.inst? i = some inst ∧ ∃ value, m.value? inst.result = some value ∧ value.uses = #[] := by
  rw [checkUnused]
  simp only [bind_eq_ok, getInst_eq_ok, getValue_eq_ok]
  constructor
  · rintro ⟨inst', hi, value, hv, hrun⟩
    split_ifs at hrun with hsize
    · obtain rfl := pure_eq_ok.1 hrun
      exact ⟨hi, value, hv, Array.size_eq_zero_iff.1 hsize⟩
    · simp at hrun
  · rintro ⟨hi, value, hv, huses⟩
    exact ⟨inst, hi, value, hv, by simp [huses]⟩

lemma checkErasable_eq_ok : m.checkErasable b i = .ok () ↔ m.Erasable b i := by
  rw [checkErasable, Erasable]
  simp only [bind_eq_ok, checkUnused_eq_ok]
  constructor
  · rintro ⟨inst, ⟨hi, value, hv, huses⟩, hrun⟩
    split_ifs at hrun with hparent
    exact ⟨inst, value, hi, hparent, hv, huses⟩
  · rintro ⟨inst, value, hi, hparent, hv, huses⟩
    exact ⟨inst, ⟨hi, value, hv, huses⟩, by simp [hparent]⟩

lemma isErased_eq (h : i.index < m.insts.size) : m.isErased i = .ok (m.inst? i).isNone := by
  rw [isErased, inst?]
  rw [Array.getElem?_eq_getElem h]
  cases m.insts[i.index] <;> rfl

/-- An instruction that can be erased is, and nothing else changes but the record. -/
lemma Intact.eraseInst (h : m.Intact) (hi : m.Erasable b i) :
    ∃ m', m.eraseInst i = .ok m' ∧ m'.Intact ∧ m'.bare = m.bare.residue id [i] := by
  obtain ⟨inst, value, hinst, hparent, hv, huses⟩ := hi
  obtain ⟨m₁, hdetach, h₁, hbare⟩ := h.agrees.detach hinst
  obtain ⟨block, hb, -⟩ := (h.shaped.held i b).2 ⟨inst, hinst, hparent⟩
  rw [← without_nil (m := m.bare), dropInst_without] at hbare
  obtain ⟨m', hrun, hm', hbare'⟩ := h.shaped.filterBlock (· != i) hbare h₁ hb
    (by simpa using ⟨inst, hinst, hparent⟩) (by simp [bne, beq_eq_decide])
  refine ⟨m', ?_, hm', hbare'⟩
  simp only [Module.eraseInst, checkUnused_eq_ok.2 ⟨hinst, value, hv, huses⟩, hdetach, ok_bind,
    hparent, hrun]

/-- Detach an instruction, unless that has been done. -/
def detachOnce (m : Module) (i : InstId) : Except Fault Module := do
  if ← m.isErased i then return m
  return (← m.detach i).1

/-- A common erasure in three parts. -/
lemma eraseInsts_eq (b : BlockId) (ids : List InstId) :
    m.eraseInsts b ids = (do
      ids.forM (m.checkErasable b)
      let m ← ids.foldlM detachOnce m
      m.filterBlock b fun i => !ids.contains i) := rfl

section DetachOnce

variable {s : Module} {done : List InstId} {inst : Inst}

lemma index_lt_of_without (hbare : s.bare = m.bare.without done) (hi : m.inst? i = some inst) :
    i.index < s.insts.size := by
  rw [← size_insts_bare, hbare, size_insts_without, size_insts_bare]
  exact index_lt_of_inst? hi

lemma inst?_of_without (hbare : s.bare = m.bare.without done) (hi : m.inst? i = some inst) :
    (s.inst? i).map Inst.bare = if i ∈ done then none else some inst.bare := by
  rw [← inst?_bare, hbare, inst?_without, inst?_bare, hi]
  rfl

/-- An instruction that has been detached is passed over. -/
lemma detachOnce_of_mem (hbare : s.bare = m.bare.without done) (hi : m.inst? i = some inst)
    (hdone : i ∈ done) : s.detachOnce i = .ok s := by
  have hslot := inst?_of_without hbare hi
  rw [if_pos hdone, Option.map_eq_none_iff] at hslot
  simp [detachOnce, isErased_eq (index_lt_of_without hbare hi), hslot]

/-- An instruction that is still there is detached. -/
lemma Agrees.detachOnce_of_not_mem (h : s.Agrees) (hbare : s.bare = m.bare.without done)
    (hi : m.inst? i = some inst) (hdone : i ∉ done) :
    ∃ t c, s.detach i = .ok (t, c) ∧ s.detachOnce i = .ok t ∧ t.Agrees ∧
      t.bare = m.bare.without (i :: done) := by
  have hslot := inst?_of_without hbare hi
  rw [if_neg hdone] at hslot
  obtain ⟨inst', hinst', -⟩ := Option.map_eq_some_iff.1 hslot
  obtain ⟨t, hdetach, ht, hbare'⟩ := h.detach hinst'
  refine ⟨t, _, hdetach, ?_, ht, ?_⟩
  · simp [detachOnce, isErased_eq (index_lt_of_without hbare hi), hinst', hdetach]
  · rw [hbare', hbare, dropInst_without]

end DetachOnce

/-- Detaching instructions empties their places, whether they are named once or more often. -/
lemma Agrees.detachAll (h : m.Agrees) {ids : List InstId}
    (hids : ∀ i ∈ ids, ∃ inst, m.inst? i = some inst) :
    ∃ m', ids.foldlM detachOnce m = .ok m' ∧ m'.Agrees ∧ m'.bare = m.bare.without ids := by
  -- While the loop runs, each instruction is detached or still to come.
  obtain ⟨m', hrun, h', done, hdone, hbare⟩ := foldlM_ok
    (P := fun rest (s : Module) => s.Agrees ∧
      ∃ done, (∀ j, j ∈ ids ↔ j ∈ done ∨ j ∈ rest) ∧ s.bare = m.bare.without done)
    (f := detachOnce)
    (by
      rintro i rest s ⟨hs, done, hdone, hbare⟩
      obtain ⟨inst, hi⟩ := hids i ((hdone i).2 (.inr List.mem_cons_self))
      by_cases hmem : i ∈ done
      · refine ⟨s, detachOnce_of_mem hbare hi hmem, hs, done, fun j => ?_, hbare⟩
        rw [hdone, List.mem_cons]
        constructor
        · rintro (hj | rfl | hj)
          exacts [.inl hj, .inl hmem, .inr hj]
        · exact Or.imp_right .inr
      · obtain ⟨t, -, -, hrun, ht, hbare'⟩ := hs.detachOnce_of_not_mem hbare hi hmem
        refine ⟨t, hrun, ht, i :: done, fun j => ?_, hbare'⟩
        rw [hdone, List.mem_cons, List.mem_cons, or_assoc, or_left_comm])
    ids m ⟨h, [], by simp, without_nil.symm⟩
  have hgone : ∀ j, j ∈ done ↔ j ∈ ids := fun j => by simp [hdone]
  exact ⟨m', hrun, h', hbare.trans (without_congr hgone)⟩

/-- Instructions of one block that can be erased are, all together. -/
lemma Intact.eraseInsts (h : m.Intact) {block : Block} (hb : m.block? b = some block)
    {ids : List InstId} (hids : ∀ i ∈ ids, m.Erasable b i) :
    ∃ m', m.eraseInsts b ids = .ok m' ∧ m'.Intact ∧ m'.bare = m.bare.residue id ids := by
  have hheld : ∀ i ∈ ids, ∃ inst, m.inst? i = some inst ∧ inst.parent = b := by
    intro i hi
    obtain ⟨inst, value, hinst, hparent, -⟩ := hids i hi
    exact ⟨inst, hinst, hparent⟩
  have hcheck : ids.forM (m.checkErasable b) = .ok () :=
    forM_eq_ok.2 fun i hi => checkErasable_eq_ok.2 (hids i hi)
  obtain ⟨m₁, hdetach, h₁, hbare⟩ := h.agrees.detachAll fun i hi =>
    (hheld i hi).imp fun _ => And.left
  obtain ⟨m', hfilter, hm', hbare'⟩ := h.shaped.filterBlock (fun i => !ids.contains i) hbare h₁
    hb hheld (by simp)
  refine ⟨m', ?_, hm', hbare'⟩
  simp only [eraseInsts_eq, hcheck, hdetach, ok_bind, hfilter]

/-- A single erasure succeeds for instructions that can be erased only. -/
lemma erasable_of_eraseInst (hrun : m.eraseInst i = .ok m') : ∃ b, m.Erasable b i := by
  simp only [Module.eraseInst, bind_eq_ok, checkUnused_eq_ok] at hrun
  obtain ⟨inst, ⟨hi, value, hv, huses⟩, -⟩ := hrun
  exact ⟨inst.parent, inst, value, hi, rfl, hv, huses⟩

/-- A common erasure succeeds for instructions that can be erased only. -/
lemma Agrees.erasable_of_eraseInsts (h : m.Agrees) {ids : List InstId}
    (hrun : m.eraseInsts b ids = .ok m') :
    (∃ block, m.block? b = some block) ∧ ∀ i ∈ ids, m.Erasable b i := by
  simp only [eraseInsts_eq, bind_eq_ok] at hrun
  obtain ⟨⟨⟩, hcheck, m₁, hloop, hfilter⟩ := hrun
  have hids : ∀ i ∈ ids, m.Erasable b i := fun i hi =>
    checkErasable_eq_ok.1 (forM_eq_ok.1 hcheck i hi)
  refine ⟨?_, hids⟩
  obtain ⟨m₂, hrun₂, -, hbare⟩ := h.detachAll fun i hi => by
    obtain ⟨inst, value, hinst, -⟩ := hids i hi
    exact ⟨inst, hinst⟩
  obtain rfl : m₁ = m₂ := Except.ok.inj (hloop.symm.trans hrun₂)
  simp only [Module.filterBlock, bind_eq_ok, getBlock_eq_ok] at hfilter
  obtain ⟨block, hb, -⟩ := hfilter
  refine ⟨block, ?_⟩
  rw [← block?_bare, hbare] at hb
  exact hb

/-- What a single erasure has done. -/
lemma Intact.eraseInst_eq_ok (h : m.Intact) (hrun : m.eraseInst i = .ok m') :
    (∃ b, m.Erasable b i) ∧ m'.Intact ∧ m'.bare = m.bare.residue id [i] := by
  obtain ⟨b, hi⟩ := erasable_of_eraseInst hrun
  obtain ⟨m₁, hrun₁, hintact, hbare⟩ := h.eraseInst hi
  obtain rfl : m₁ = m' := Except.ok.inj (hrun₁.symm.trans hrun)
  exact ⟨⟨b, hi⟩, hintact, hbare⟩

/-- What a common erasure has done. -/
lemma Intact.eraseInsts_eq_ok (h : m.Intact) {ids : List InstId}
    (hrun : m.eraseInsts b ids = .ok m') :
    (∀ i ∈ ids, m.Erasable b i) ∧ m'.Intact ∧ m'.bare = m.bare.residue id ids := by
  obtain ⟨⟨block, hb⟩, hids⟩ := h.agrees.erasable_of_eraseInsts hrun
  obtain ⟨m₁, hrun₁, hintact, hbare⟩ := h.eraseInsts hb hids
  obtain rfl : m₁ = m' := Except.ok.inj (hrun₁.symm.trans hrun)
  exact ⟨hids, hintact, hbare⟩

end Erase

end Module
end SsaFold
