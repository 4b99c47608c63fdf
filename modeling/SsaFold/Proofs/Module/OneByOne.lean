import SsaFold.Proofs.Reachable

/-!
# Redirecting reads one by one

Redirecting every read of a value at once moves its use list to the end of another.  Redirecting the
reads one after the other permutes the use list at every step, for each read that is removed lets
the last one take its position.  Both lead to the same module
(`Reachable.replaceAllUses_eq_setOperands`).

The order in which the one-by-one run leaves the dwindling use list need not be followed.  Where
operands and use lists agree, the bare module and the use lists decide the whole module
(`Module.Agrees.ext`); and a use list other than the dwindling one changes by what is added at its
end (`Module.Agrees.usesOf_setOperand`).
-/

namespace SsaFold

namespace Module

variable {m m' : Module}

/-! ## What decides a module -/

lemma use?_eq_usesOf (m : Module) (v : ValueId) (slot : Nat) :
    m.use? v slot = (m.usesOf v)[slot]? := by
  simp only [use?, usesOf]
  cases m.value? v <;> simp

/-- An operand remembers what the use lists say. -/
lemma Agrees.operand?_congr (h : m.Agrees) (h' : m'.Agrees) (huses : ∀ v, m'.usesOf v = m.usesOf v)
    (u : Use) : m'.operand? u = m.operand? u := by
  refine Option.ext ?_
  rintro ⟨v, slot⟩
  rw [agrees_iff.1 h', agrees_iff.1 h, use?_eq_usesOf, use?_eq_usesOf, huses]

/-- Where operands and use lists agree, the slots follow from the use lists. -/
lemma Agrees.ext (h : m.Agrees) (h' : m'.Agrees) (hbare : m'.bare = m.bare)
    (huses : ∀ v, m'.usesOf v = m.usesOf v) : m' = m := by
  have hvalues : m'.values = m.values := by
    refine Array.ext_getElem? fun k => ?_
    have hk : (m'.value? ⟨k⟩).map Value.bare = (m.value? ⟨k⟩).map Value.bare := by
      rw [← value?_bare, ← value?_bare, hbare]
    have huse := huses ⟨k⟩
    simp only [usesOf, value?] at hk huse
    cases hv : m.values[k]? <;> cases hv' : m'.values[k]? <;> simp only [hv, hv', Option.map_some,
      Option.map_none, Option.getD_some, reduceCtorEq, Option.some.injEq] at hk huse ⊢
    exact congrArg₂ (fun (x : Value) uses => { x with uses }) hk huse
  have hinsts : m'.insts = m.insts := by
    refine Array.ext_getElem? fun k => ?_
    have hk := congrArg (·.insts[k]?) hbare
    simp only [bare, updateOperands, Array.getElem?_mapIdx] at hk
    rcases hi : m.insts[k]? with _ | _ | inst <;> rcases hi' : m'.insts[k]? with _ | _ | inst' <;>
      simp only [hi, hi', Option.map_some, Option.map_none, reduceCtorEq, Option.some.injEq] at hk ⊢
    have hoperands : inst'.operands = inst.operands := by
      refine Array.ext_getElem? fun j => ?_
      have hinst : m.inst? ⟨k⟩ = some inst := by simp [inst?, hi]
      have hinst' : m'.inst? ⟨k⟩ = some inst' := by simp [inst?, hi']
      rw [← operand?_of_inst? hinst, ← operand?_of_inst? hinst', h.operand?_congr h' huses]
    exact congrArg₂ (fun (x : Inst) operands => { x with operands }) hk hoperands
  have hrest : ∀ x y : Module, x.bare = y.bare → { x with values := #[], insts := #[] }
      = { y with values := #[], insts := #[] } :=
    fun x y hxy => congrArg (fun z : Module => { z with values := #[], insts := #[] }) hxy
  calc m' = { ({ m' with values := #[], insts := #[] } : Module) with
        values := m'.values, insts := m'.insts } := rfl
    _ = { ({ m with values := #[], insts := #[] } : Module) with
        values := m.values, insts := m.insts } := by rw [hrest m' m hbare, hvalues, hinsts]
    _ = m := rfl

/-! ## One read -/

/-- Removing a read leaves the use lists of other values as they are. -/
lemma usesOf_removeUse {v w : ValueId} {u : Use} (hrun : m.removeUse v u = .ok m') (hw : w ≠ v) :
    m'.usesOf w = m.usesOf w := by
  simp only [removeUse, bind_eq_ok, getOperand_eq_ok, getValue_eq_ok] at hrun
  obtain ⟨o, -, value, -, hrun⟩ := hrun
  split_ifs at hrun
  · have huses : (m.modifyValue v fun x => { x with uses := swapRemove value.uses o.slot }).usesOf w
        = m.usesOf w := by
      rw [usesOf, value?_modifyValue, if_neg (Ne.symm hw), usesOf]
    split at hrun
    · rw [setOperandAt_eq_ok hrun]
      exact huses
    · obtain rfl := pure_eq_ok.1 hrun
      exact huses
  · simp at hrun

lemma usesOf_addUse {v : ValueId} {u : Use} {slot : Nat} (hrun : m.addUse v u = .ok (m', slot))
    (w : ValueId) : m'.usesOf w = if w = v then (m.usesOf w).push u else m.usesOf w := by
  obtain ⟨value, hv, -, rfl⟩ := addUse_eq_ok_iff.1 hrun
  simp only [usesOf, value?_modifyValue, eq_comm (a := v)]
  split_ifs with hw
  · simp [hw, hv]
  · rfl

/-- Letting an operand read another value adds the read to the end of the use list of that value; of
the other use lists only the one it leaves changes. -/
lemma Agrees.usesOf_setOperand (h : m.Agrees) {u : Use} {o : Operand} (ho : m.operand? u = some o)
    {v : ValueId} (hne : o.value ≠ v) {value : Value} (hv : m.value? v = some value) :
    ∃ m', m.setOperand u v = .ok m' ∧
      ∀ w, w ≠ o.value → m'.usesOf w = if w = v then (m.usesOf w).push u else m.usesOf w := by
  -- The read is removed, which leaves its operand off the record, and is entered again.
  obtain ⟨m₁, hremove, h₁, hbare₁⟩ := (agreesOff_false.2 h).removeUse o.value o.slot not_false ho
  have h₁' : m₁.AgreesOff fun w => w = u := by simpa using h₁
  obtain ⟨o₁, ho₁, -⟩ := operand?_of_bare_eq hbare₁ ho
  obtain ⟨value₁, hv₁⟩ : ∃ value₁, m₁.value? v = some value₁ := by
    have hbare : (m₁.value? v).map Value.bare = some value.bare := by
      rw [← value?_bare, hbare₁, value?_bare, hv, Option.map_some]
    obtain ⟨value₁, hv₁, -⟩ := Option.map_eq_some_iff.1 hbare
    exact ⟨value₁, hv₁⟩
  obtain ⟨⟨m₂, slot⟩, hadd⟩ : ∃ r, m₁.addUse v u = .ok r :=
    ⟨_, addUse_eq_ok_iff.2 ⟨value₁, hv₁, rfl, rfl⟩⟩
  obtain ⟨m₃, hset, -⟩ := h₁'.enter ho₁ hadd
  refine ⟨m₃, ?_, fun w hw => ?_⟩
  · simp only [Module.setOperand, getOperand_eq_ok.2 ho, ok_bind, if_neg hne, hremove, hadd, hset]
  · rw [setOperandAt_eq_ok hset]
    exact (usesOf_addUse hadd w).trans (by rw [usesOf_removeUse hremove hw])

/-! ## All reads of a value -/

lemma usesOf_redirected {source target : ValueId} {sv tv : Value} (hne : source ≠ target)
    (hs : m.value? source = some sv) (ht : m.value? target = some tv) (v : ValueId) :
    (m.redirected source target).usesOf v =
      if v = source then #[] else if v = target then tv.uses ++ sv.uses else m.usesOf v := by
  simp only [usesOf, value?_redirected]
  by_cases hvs : v = source
  · simp [hvs, hs, hne]
  · by_cases hvt : v = target
    · simp [hvt, hs, ht, Ne.symm hne]
    · cases m.value? v <;> simp [hvs, hvt]

/-- Sending reads of `source` to `target`, one after the other. -/
lemma Agrees.foldlM_setOperand (h : m.Agrees) {source target : ValueId} (hne : source ≠ target)
    {value : Value} (ht : m.value? target = some value) {us : List Use} (hus : us.Nodup)
    (hreads : ∀ u ∈ us, ∃ o, m.operand? u = some o ∧ o.value = source) :
    ∃ m', us.foldlM (fun m u => m.setOperand u target) m = .ok m' ∧ m'.Agrees ∧
      m'.bare = m.bare.updateOperands (fun u o => if u ∈ us then ⟨target, 0⟩ else o) ∧
      m'.usesOf target = m.usesOf target ++ us.toArray ∧
      ∀ w, w ≠ source → w ≠ target → m'.usesOf w = m.usesOf w := by
  induction us generalizing m value with
  | nil =>
    refine ⟨m, rfl, h, ?_, by simp, fun _ _ _ => rfl⟩
    exact (updateOperands_eq_self fun u o _ => by simp).symm
  | cons u us ih =>
    obtain ⟨hu, hus⟩ := List.nodup_cons.1 hus
    obtain ⟨o, ho, hsource⟩ := hreads u List.mem_cons_self
    obtain ⟨m₁, hset, huses₁⟩ := h.usesOf_setOperand ho (hsource ▸ hne) ht
    obtain ⟨h₁, hbare₁⟩ := h.setOperand hset
    rw [hsource] at huses₁
    obtain ⟨value₁, ht₁⟩ : ∃ value₁, m₁.value? target = some value₁ := by
      have hbare : (m₁.value? target).map Value.bare = some value.bare := by
        rw [← value?_bare, hbare₁, value?_updateOperands, value?_bare, ht, Option.map_some]
      obtain ⟨value₁, hv₁, -⟩ := Option.map_eq_some_iff.1 hbare
      exact ⟨value₁, hv₁⟩
    have hreads₁ : ∀ w ∈ us, ∃ o, m₁.operand? w = some o ∧ o.value = source := by
      intro w hw
      obtain ⟨ow, how, hvalue⟩ := hreads w (List.mem_cons_of_mem u hw)
      have hbare : m₁.bare.operand? w = some ow.bare := by
        have hwu : w ≠ u := fun heq => hu (heq ▸ hw)
        rw [hbare₁, operand?_updateOperands, operand?_bare, how, Option.map_some, Option.map_some,
          if_neg hwu]
      rw [operand?_bare] at hbare
      obtain ⟨ow₁, how₁, heq⟩ := Option.map_eq_some_iff.1 hbare
      exact ⟨ow₁, how₁, (congrArg Operand.value heq :).trans hvalue⟩
    obtain ⟨m', hrun, h', hbare', htarget, hother⟩ := ih h₁ ht₁ hus hreads₁
    refine ⟨m', by rw [List.foldlM_cons, hset, ok_bind, hrun], h', ?_, ?_, fun w hws hwt => ?_⟩
    · rw [hbare', hbare₁, updateOperands_updateOperands]
      refine updateOperands_congr fun w x _ => ?_
      by_cases hwu : w = u <;> by_cases hw : w ∈ us <;> simp [hwu, hw]
    · rw [htarget, huses₁ target (Ne.symm hne), if_pos rfl]
      simp
    · rw [hother w hws hwt, huses₁ w hws, if_neg hwt]

end Module

/-- Redirecting all reads of a value at once is redirecting them one by one, in the order of the use
list as it was; their number is returned. -/
theorem Reachable.replaceAllUses_eq_setOperands {m : Module} (h : Reachable m)
    {source target : ValueId} {sv tv : Value} (hne : source ≠ target)
    (hs : m.value? source = some sv) (ht : m.value? target = some tv) :
    ∃ m', m.replaceAllUses source target = .ok (m', sv.uses.size) ∧
      sv.uses.toList.foldlM (fun m u => m.setOperand u target) m = .ok m' := by
  have hm := h.intact.agrees
  have hmem : ∀ u, u ∈ sv.uses.toList ↔ ∃ o, m.operand? u = some o ∧ o.value = source := by
    intro u
    rw [Array.mem_toList_iff, Array.mem_iff_getElem?]
    constructor
    · rintro ⟨slot, hslot⟩
      exact ⟨⟨source, slot⟩, (Module.agrees_iff.1 hm _ _ _).2
        (by rwa [Module.use?_of_value? hs]), rfl⟩
    · rintro ⟨⟨v, slot⟩, ho, rfl⟩
      exact ⟨slot, by rwa [← Module.use?_of_value? hs, ← Module.agrees_iff.1 hm]⟩
  obtain ⟨m', hrun, h', hbare, htarget, hother⟩ :=
    hm.foldlM_setOperand hne ht (hm.nodup_uses hs) fun u hu => (hmem u).1 hu
  refine ⟨_, hm.replaceAllUses_eq hne hs ht, hrun.trans (congrArg Except.ok ?_)⟩
  -- Nothing reads `source` any more.
  have hunread : m'.Unread source := by
    intro u o ho hvalue
    have ho' : m'.bare.operand? u = some o.bare := by rw [Module.operand?_bare, ho, Option.map_some]
    rw [hbare, Module.operand?_updateOperands, Module.operand?_bare, Option.map_map,
      Option.map_eq_some_iff] at ho'
    obtain ⟨o₀, ho₀, heq⟩ := ho'
    have heq' := congrArg Operand.value heq
    simp only [Function.comp_apply] at heq'
    split_ifs at heq' with hu
    · exact hne (heq'.trans hvalue).symm
    · exact hu ((hmem u).2 ⟨o₀, ho₀, heq'.trans hvalue⟩)
  have hsource : m'.usesOf source = #[] := by
    rw [Module.usesOf]
    cases hv : m'.value? source with
    | none => rfl
    | some value => exact (h'.uses_eq_empty_iff hv).2 hunread
  refine (h'.ext (hm.redirected hne hs ht) ?_ fun v => ?_).symm
  · rw [hbare, Module.bare_redirected, Module.residue_nil]
    refine Module.updateOperands_congr fun u o ho => ?_
    rw [Module.operand?_bare, Option.map_eq_some_iff] at ho
    obtain ⟨o, ho, rfl⟩ := ho
    have hu : u ∈ sv.uses.toList ↔ o.value = source := by
      simp [hmem, ho]
    by_cases hvalue : o.value = source <;> simp [Module.redirection, Operand.bare, hu, hvalue]
  · rw [Module.usesOf_redirected hne hs ht]
    split_ifs with hvs hvt
    · rw [hvs, hsource]
    · rw [hvt, htarget, Module.usesOf_eq ht, Array.toArray_toList]
    · rw [hother v hvs hvt]

/-- A call that reads the first parameter three times and the second once, and the sum of the first
parameter with itself. -/
def manyReads : List Op := [
  .addFunc "f" (.int 32) [.int 32, .int 32],
  .addBlock ⟨0⟩ none,
  .appendInst ⟨0⟩ { opcode := .call, ty := .int 32 } [⟨1⟩, ⟨2⟩, ⟨1⟩, ⟨1⟩, ⟨0⟩],
  .appendInst ⟨0⟩ { opcode := .binary .add, ty := .int 32 } [⟨1⟩, ⟨1⟩]]

theorem replaceAllUses_eq_setOperands_manyReads : ∃ m m' sv,
    Op.runAll (.empty "reads") manyReads = .ok m ∧ m.value? ⟨1⟩ = some sv ∧
    sv.uses = #[⟨⟨0⟩, 0⟩, ⟨⟨0⟩, 2⟩, ⟨⟨0⟩, 3⟩, ⟨⟨1⟩, 0⟩, ⟨⟨1⟩, 1⟩] ∧
    m.replaceAllUses ⟨1⟩ ⟨2⟩ = .ok (m', 5) ∧
    sv.uses.toList.foldlM (fun m u => m.setOperand u ⟨2⟩) m = .ok m' := by
  have hvalues : (Op.runAll (.empty "reads") manyReads).toOption.map (fun m =>
      ((m.value? ⟨1⟩).map Value.uses, (m.value? ⟨2⟩).isSome))
      = some (some #[⟨⟨0⟩, 0⟩, ⟨⟨0⟩, 2⟩, ⟨⟨0⟩, 3⟩, ⟨⟨1⟩, 0⟩, ⟨⟨1⟩, 1⟩], true) := by decide +kernel
  cases hrun : Op.runAll (.empty "reads") manyReads with
  | error e => simp [hrun, Except.toOption] at hvalues
  | ok m =>
    simp only [hrun, Except.toOption, Option.map_some, Option.some.injEq, Prod.mk.injEq,
      Option.map_eq_some_iff, Option.isSome_iff_exists] at hvalues
    obtain ⟨⟨sv, hs, huses⟩, tv, ht⟩ := hvalues
    obtain ⟨m', hbulk, hsteps⟩ := Reachable.replaceAllUses_eq_setOperands
      ((Reachable.empty "reads").runAll hrun) (by decide) hs ht
    exact ⟨m, m', sv, rfl, hs, huses, by simpa [huses] using hbulk, hsteps⟩

end SsaFold
