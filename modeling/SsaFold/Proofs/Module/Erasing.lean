import SsaFold.Proofs.Module.OneByOne

/-!
# Erasing instructions together and one by one

A common erasure checks all its instructions, detaches them, and goes over their block once.  One
erasure after the other checks, detaches and goes over the block for each instruction in turn.
Both lead to the same module, down to the order of the use lists, and a common erasure that is
refused has changed nothing (`Reachable.eraseInsts_all_or_nothing`).

Detaching pays no heed to blocks (`Module.detach_modifyBlock`), so every pass over the block can be
put off until all instructions are detached, and then the passes are one.  The operands that doomed
instructions share need not be followed: both runs detach the same instructions in the same order.
-/

namespace SsaFold
namespace Module

variable {m m' : Module} {b : BlockId} {i : InstId}

/-! ## Steps in place -/

/-- Do steps on a module that is changed in place.  A step that faults ends the work, and the module
stays as the steps before it have left it. -/
def inPlace (m : Module) : List (Module → Except Fault Module) → Module × Option Fault
  | [] => (m, none)
  | step :: rest =>
    match step m with
    | .error e => (m, some e)
    | .ok m' => m'.inPlace rest

/-- The steps of a common erasure: the checks, one for each instruction, then the detachments, and
then one pass over the block. -/
def erasureSteps (b : BlockId) (ids : List InstId) : List (Module → Except Fault Module) :=
  ids.map (fun i m => do m.checkErasable b i; return m) ++
    ids.map (fun i m => m.detachOnce i) ++ [fun m => m.filterBlock b fun i => !ids.contains i]

lemma inPlace_eq_none {steps : List (Module → Except Fault Module)} :
    m.inPlace steps = (m', none) ↔ steps.foldlM (fun m step => step m) m = .ok m' := by
  induction steps generalizing m with
  | nil => simp [inPlace, pure_eq_ok]
  | cons step rest ih =>
    rw [inPlace, List.foldlM_cons]
    cases step m with
    | ok m₁ => exact ih
    | error e => simp [bind, Except.bind]

/-- Steps that leave the module alone can be passed over. -/
lemma inPlace_append {steps rest : List (Module → Except Fault Module)}
    (h : ∀ step ∈ steps, step m = .ok m) : m.inPlace (steps ++ rest) = m.inPlace rest := by
  induction steps with
  | nil => rfl
  | cons step steps ih =>
    rw [List.forall_mem_cons] at h
    rw [List.cons_append, inPlace, h.1]
    exact ih h.2

/-- Checking changes nothing, and a check that succeeds does not stop the work. -/
lemma foldlM_checks (ids : List InstId) :
    (ids.map fun i (m : Module) => do m.checkErasable b i; return m).foldlM
        (fun (m : Module) (step : Module → Except Fault Module) => step m) m
      = do ids.forM (m.checkErasable b); return m := by
  induction ids with
  | nil => rfl
  | cons i ids ih =>
    rw [List.map_cons, List.foldlM_cons]
    show (m.checkErasable b i >>= fun _ => pure m) >>= _
      = (m.checkErasable b i >>= fun _ => ids.forM (m.checkErasable b)) >>= fun _ => pure m
    cases m.checkErasable b i with
    | error e => rfl
    | ok _ => exact ih

/-- A common erasure does its steps one after the other. -/
lemma eraseInsts_eq_steps (b : BlockId) (ids : List InstId) :
    m.eraseInsts b ids = (erasureSteps b ids).foldlM (fun m step => step m) m := by
  rw [erasureSteps, List.foldlM_append, List.foldlM_append, foldlM_checks]
  cases hcheck : ids.forM (m.checkErasable b) with
  | error e =>
    simp only [eraseInsts_eq, hcheck]
    rfl
  | ok _ =>
    simp only [eraseInsts_eq, hcheck, ok_bind, pure_bind, List.foldlM_map, List.foldlM_cons,
      List.foldlM_nil, bind_pure]

/-! ## Detaching pays no heed to blocks -/

section Blocks

variable {f g : Block → Block}

lemma modifyBlock_modifyBlock : (m.modifyBlock b f).modifyBlock b g = m.modifyBlock b (g ∘ f) := by
  have : (m.blocks.modify b.index f).modify b.index g = m.blocks.modify b.index (g ∘ f) := by
    refine Array.ext_getElem? fun k => ?_
    simp only [Array.getElem?_modify]
    split_ifs <;> simp
  rw [modifyBlock, modifyBlock, modifyBlock, this]

lemma modifyBlock_eq_self (h : ∀ x, f x = x) : m.modifyBlock b f = m := by
  have : m.blocks.modify b.index f = m.blocks := by
    refine Array.ext_getElem? fun k => ?_
    rw [Array.getElem?_modify, funext h]
    split_ifs <;> simp
  rw [modifyBlock, this]

lemma setOperandAt_modifyBlock (u : Use) (change : Operand → Operand) :
    (m.modifyBlock b f).setOperandAt u change
      = (m.setOperandAt u change).map (·.modifyBlock b f) := by
  have hget : (m.modifyBlock b f).getOperand u = m.getOperand u := rfl
  rw [setOperandAt, setOperandAt, hget]
  cases m.getOperand u <;> rfl

lemma removeUse_modifyBlock (v : ValueId) (u : Use) :
    (m.modifyBlock b f).removeUse v u = (m.removeUse v u).map (·.modifyBlock b f) := by
  have hoperand : (m.modifyBlock b f).getOperand u = m.getOperand u := rfl
  have hvalue : (m.modifyBlock b f).getValue v = m.getValue v := rfl
  rw [removeUse, removeUse, hoperand, hvalue]
  cases m.getOperand u with
  | error e => rfl
  | ok o =>
    cases m.getValue v with
    | error e => rfl
    | ok value =>
      simp only [ok_bind]
      split_ifs
      · cases (swapRemove value.uses o.slot)[o.slot]? with
        | none => rfl
        | some moved =>
          exact setOperandAt_modifyBlock (m := m.modifyValue v fun x =>
            { x with uses := swapRemove value.uses o.slot }) moved fun x =>
              { x with slot := o.slot }
      · rfl

lemma detach_modifyBlock (i : InstId) :
    (m.modifyBlock b f).detach i = (m.detach i).map fun r => (r.1.modifyBlock b f, r.2) := by
  have hinst : (m.modifyBlock b f).getInst i = m.getInst i := rfl
  rw [detach, detach, hinst]
  cases m.getInst i with
  | error e => rfl
  | ok inst =>
    have hloop := foldlM_map_state (f := fun (s : Module) k => do
        let operand ← s.getOperand ⟨i, k⟩
        s.removeUse operand.value ⟨i, k⟩)
      (fun s => s.modifyBlock b f)
      (by
        intro s k
        have hoperand : (s.modifyBlock b f).getOperand ⟨i, k⟩ = s.getOperand ⟨i, k⟩ := rfl
        simp only [hoperand]
        cases s.getOperand ⟨i, k⟩ with
        | error e => rfl
        | ok o => exact removeUse_modifyBlock o.value ⟨i, k⟩)
      (List.range inst.operands.size) m
    simp only [ok_bind, hloop]
    cases ((List.range inst.operands.size).foldlM _ m : Except Fault Module) <;> rfl

end Blocks

/-! ## Detaching first, and one pass over the block -/

/-- Detach instructions in order. -/
def detachEach (m : Module) (ids : List InstId) : Except Fault Module :=
  ids.foldlM (fun m i => return (← m.detach i).1) m

lemma detachEach_cons {c : BlockId} (hdetach : m.detach i = .ok (m', c)) (ids : List InstId) :
    m.detachEach (i :: ids) = m'.detachEach ids := by
  rw [detachEach, List.foldlM_cons, hdetach]
  rfl

/-- The block without some instructions. -/
def dropFrom (m : Module) (b : BlockId) (ids : List InstId) : Module :=
  m.modifyBlock b fun x => { x with insts := x.insts.filter fun i => !ids.contains i }

lemma dropFrom_nil : m.dropFrom b [] = m := by
  refine modifyBlock_eq_self fun x => ?_
  have : x.insts.filter (fun i => !([] : List InstId).contains i) = x.insts :=
    Array.filter_eq_self.2 (by simp)
  rw [this]

lemma detachEach_dropFrom (ids more : List InstId) :
    (m.dropFrom b ids).detachEach more = (m.detachEach more).map (·.dropFrom b ids) := by
  refine foldlM_map_state (fun s => s.dropFrom b ids) (fun s i => ?_) more m
  simp only [dropFrom, detach_modifyBlock]
  cases s.detach i <;> rfl

/-- Two passes over a block are one. -/
lemma dropFrom_dropFrom (ids more : List InstId) :
    (m.dropFrom b ids).dropFrom b more = m.dropFrom b (ids ++ more) := by
  rw [dropFrom, dropFrom, modifyBlock_modifyBlock, dropFrom]
  congr 1
  funext x
  simp [Array.filter_filter, Bool.and_comm]

lemma filterBlock_eq_ok {keep : InstId → Bool} : m.filterBlock b keep = .ok m' ↔
    (∃ block, m.block? b = some block) ∧
      m' = m.modifyBlock b fun x => { x with insts := x.insts.filter keep } := by
  simp only [filterBlock, bind_eq_ok, pure_eq_ok, getBlock_eq_ok]
  constructor
  · rintro ⟨block, hb, rfl⟩
    exact ⟨⟨block, hb⟩, rfl⟩
  · rintro ⟨⟨block, hb⟩, rfl⟩
    exact ⟨block, hb, rfl⟩

/-- An erasure detaches, and goes over the block. -/
lemma Agrees.eraseInst_eq_dropFrom (h : m.Agrees) (hi : m.Erasable b i)
    (hrun : m.eraseInst i = .ok m') : ∃ m₁, m.detach i = .ok (m₁, b) ∧ m' = m₁.dropFrom b [i] := by
  obtain ⟨inst, value, hinst, rfl, -⟩ := hi
  obtain ⟨m₁, hdetach, -⟩ := h.detach hinst
  refine ⟨m₁, hdetach, ?_⟩
  simp only [eraseInst, bind_eq_ok, hdetach, Except.ok.injEq, filterBlock_eq_ok] at hrun
  obtain ⟨-, -, _, rfl, -, rfl⟩ := hrun
  have hkeep : (fun j : InstId => j != i) = fun j => !([i] : List InstId).contains j := by
    funext j
    simp [bne, beq_eq_decide]
  rw [hkeep, dropFrom]

/-- What can be erased still can when another instruction has been erased. -/
lemma Erasable.of_eraseInst (h : m.Agrees) (h' : m'.Agrees)
    (hbare : m'.bare = m.bare.residue id [i]) {j : InstId} (hj : m.Erasable b j) (hne : j ≠ i) :
    m'.Erasable b j := by
  obtain ⟨inst, value, hinst, hparent, hv, huses⟩ := hj
  obtain ⟨inst', hinst', heq⟩ := inst?_residue_of_not_mem hbare hinst (by simpa using hne)
  have hresult : inst'.result = inst.result :=
    (Inst.result_eq_of_bare heq).trans (inst.result_rename id)
  obtain ⟨value', hv', -⟩ := Option.map_eq_some_iff.1
    ((value?_of_residue hbare inst.result).trans (congrArg _ hv))
  have hunread : m'.Unread inst.result :=
    .of_residue hbare ((h.uses_eq_empty_iff hv).1 huses)
  exact ⟨inst', value', hinst', (Inst.parent_eq_of_bare heq).trans hparent, hresult ▸ hv',
    (h'.uses_eq_empty_iff hv').2 hunread⟩

/-- One erasure after the other can detach all instructions first. -/
lemma Intact.foldlM_eraseInst (h : m.Intact) {ids : List InstId} (hnodup : ids.Nodup)
    (hids : ∀ i ∈ ids, m.Erasable b i) :
    ∃ m', m.detachEach ids = .ok m' ∧ ids.foldlM Module.eraseInst m = .ok (m'.dropFrom b ids) := by
  induction ids generalizing m with
  | nil => exact ⟨m, rfl, by rw [dropFrom_nil]; rfl⟩
  | cons i rest ih =>
    obtain ⟨hnew, hnodup⟩ := List.nodup_cons.1 hnodup
    obtain ⟨hi, hrest⟩ := List.forall_mem_cons.1 hids
    obtain ⟨m₂, herase, hm₂, hbare⟩ := h.eraseInst hi
    obtain ⟨m₁, hdetach, rfl⟩ := h.agrees.eraseInst_eq_dropFrom hi herase
    have hrest₂ : ∀ j ∈ rest, (m₁.dropFrom b [i]).Erasable b j := fun j hj =>
      (hrest j hj).of_eraseInst h.agrees hm₂.agrees hbare fun heq => hnew (heq ▸ hj)
    -- The pass over the block that has been made for `i` is put off.
    obtain ⟨m₂', hdetach₂, hrun⟩ := ih hm₂ hnodup hrest₂
    rw [detachEach_dropFrom] at hdetach₂
    cases hlater : m₁.detachEach rest with
    | error e => simp [hlater, Except.map] at hdetach₂
    | ok m₁' =>
      obtain rfl : m₁'.dropFrom b [i] = m₂' := by
        simpa [hlater, Except.map] using hdetach₂
      refine ⟨m₁', (detachEach_cons hdetach rest).trans hlater, ?_⟩
      rw [List.foldlM_cons, herase, ok_bind, hrun, dropFrom_dropFrom, List.singleton_append]

/-- A common erasure detaches an instruction where it is named first. -/
lemma Agrees.foldlM_detachOnce {s : Module} {done ids : List InstId} (h : s.Agrees)
    (hbare : s.bare = m.bare.without done) (hids : ∀ i ∈ ids, ∃ inst, m.inst? i = some inst) :
    ids.foldlM detachOnce s = s.detachEach (ids.filter (· ∉ done)).eraseDups := by
  induction ids generalizing s done with
  | nil => rfl
  | cons i rest ih =>
    obtain ⟨⟨inst, hi⟩, hrest⟩ := List.forall_mem_cons.1 hids
    rw [List.foldlM_cons]
    by_cases hdone : i ∈ done
    · rw [detachOnce_of_mem hbare hi hdone, ok_bind, ih h hbare hrest,
        List.filter_cons_of_neg (by simpa using hdone)]
    · obtain ⟨t, c, hdetach, honce, ht, hbare'⟩ := h.detachOnce_of_not_mem hbare hi hdone
      rw [honce, ok_bind, ih ht hbare' hrest, List.filter_cons_of_pos (by simpa using hdone),
        List.eraseDups_cons, detachEach_cons hdetach, List.filter_filter]
      congr 3
      funext j
      simp [beq_eq_decide]

lemma nodup_eraseDups (ids : List InstId) : ids.eraseDups.Nodup := by
  induction hn : ids.length using Nat.strongRecOn generalizing ids with
  | _ n ih =>
    cases ids with
    | nil => exact List.nodup_nil
    | cons i rest =>
      rw [List.eraseDups_cons, List.nodup_cons]
      refine ⟨by simp, ih _ ?_ _ rfl⟩
      rw [← hn, List.length_cons]
      exact Nat.lt_succ_of_le (List.length_filter_le _ _)

/-- A common erasure that succeeds is one erasure after the other, in the order in which the
instructions are named first. -/
lemma Intact.eraseInsts_eq_foldlM (h : m.Intact) {ids : List InstId}
    (hrun : m.eraseInsts b ids = .ok m') : ids.eraseDups.foldlM Module.eraseInst m = .ok m' := by
  obtain ⟨hids, -, -⟩ := h.eraseInsts_eq_ok hrun
  obtain ⟨m₁, hdetach, hsingle⟩ := h.foldlM_eraseInst (nodup_eraseDups ids) fun i hi =>
    hids i (List.mem_eraseDups.1 hi)
  have hloop : ids.foldlM detachOnce m = .ok m₁ := by
    rw [h.agrees.foldlM_detachOnce without_nil.symm fun i hi => ?_, ← hdetach]
    · simp
    · obtain ⟨inst, value, hinst, -⟩ := hids i hi
      exact ⟨inst, hinst⟩
  simp only [eraseInsts_eq, bind_eq_ok, hloop, Except.ok.injEq, exists_eq_left',
    filterBlock_eq_ok] at hrun
  obtain ⟨-, -, -, rfl⟩ := hrun
  have hkeep : (fun i => !ids.contains i) = fun i => !ids.eraseDups.contains i := by
    funext i
    simp [List.mem_eraseDups]
  rw [hsingle, dropFrom, hkeep]

/-! ## A common erasure that is refused -/

/-- Only a check can fault: where all instructions can be erased, a common erasure succeeds. -/
lemma Intact.eraseInsts_eq_error (h : m.Intact) {block : Block} (hb : m.block? b = some block)
    {ids : List InstId} {e : Fault} (hrun : m.eraseInsts b ids = .error e) :
    ids.forM (m.checkErasable b) = .error e := by
  cases hcheck : ids.forM (m.checkErasable b) with
  | error e' => simpa [eraseInsts_eq, hcheck, bind, Except.bind] using hrun
  | ok _ =>
    have hids : ∀ i ∈ ids, m.Erasable b i := fun i hi =>
      checkErasable_eq_ok.1 (forM_eq_ok.1 hcheck i hi)
    obtain ⟨m', hsuccess, -⟩ := h.eraseInsts hb hids
    rw [hsuccess] at hrun
    cases hrun

/-- The checks before the one that fails leave the module alone. -/
lemma inPlace_erasureSteps {before after : List InstId} {e : Fault}
    (hbefore : ∀ j ∈ before, m.checkErasable b j = .ok ()) (hi : m.checkErasable b i = .error e) :
    m.inPlace (erasureSteps b (before ++ i :: after)) = (m, some e) := by
  rw [erasureSteps, List.map_append, List.append_assoc, List.append_assoc, inPlace_append]
  · rw [List.map_cons, List.cons_append, inPlace]
    simp [hi, bind, Except.bind]
  · intro step hstep
    obtain ⟨j, hj, rfl⟩ := List.mem_map.1 hstep
    simp [hbefore j hj]

end Module

/-- A common erasure succeeds exactly if each of its instructions is there, belongs to the block,
and is unread.  Then it is one erasure after the other, each of which succeeds, in the order in
which the instructions are named first.  Otherwise the first instruction that cannot be erased
decides the fault, and nothing has changed when it is found. -/
theorem Reachable.eraseInsts_all_or_nothing {m : Module} (h : Reachable m) {b : BlockId}
    {block : Block} (hb : m.block? b = some block) (ids : List InstId) :
    ((∃ m', m.eraseInsts b ids = .ok m') ↔ ∀ i ∈ ids, m.Erasable b i) ∧
    (∀ m', m.eraseInsts b ids = .ok m' →
      m.inPlace (Module.erasureSteps b ids) = (m', none) ∧
      ids.eraseDups.foldlM Module.eraseInst m = .ok m') ∧
    ∀ e, m.eraseInsts b ids = .error e →
      m.inPlace (Module.erasureSteps b ids) = (m, some e) ∧
      ∃ before i after, ids = before ++ i :: after ∧ (∀ j ∈ before, m.Erasable b j) ∧
        ¬ m.Erasable b i ∧ m.checkErasable b i = .error e := by
  refine ⟨⟨fun ⟨m', hrun⟩ => (h.intact.eraseInsts_eq_ok hrun).1, fun hids => ?_⟩,
    fun m' hrun => ⟨?_, h.intact.eraseInsts_eq_foldlM hrun⟩, fun e hrun => ?_⟩
  · obtain ⟨m', hrun, -⟩ := h.intact.eraseInsts hb hids
    exact ⟨m', hrun⟩
  · rwa [Module.inPlace_eq_none, ← Module.eraseInsts_eq_steps]
  · obtain ⟨before, i, after, rfl, hbefore, hi⟩ :=
      forM_eq_error.1 (h.intact.eraseInsts_eq_error hb hrun)
    refine ⟨Module.inPlace_erasureSteps hbefore hi, before, i, after, rfl, fun j hj => ?_,
      fun hi' => ?_, hi⟩
    · exact Module.checkErasable_eq_ok.1 (hbefore j hj)
    · rw [Module.checkErasable_eq_ok.2 hi'] at hi
      cases hi

/-- Of the two instructions of `manyReads`, both of which read the first parameter, one is named
twice: both places are empty afterwards, and nothing reads the parameter.  A common erasure that
comes to an instruction that is not there changes nothing. -/
theorem eraseInsts_manyReads : ∃ m m', Op.runAll (.empty "reads") manyReads = .ok m ∧
    m.eraseInsts ⟨0⟩ [⟨1⟩, ⟨0⟩, ⟨1⟩] = .ok m' ∧
    [⟨1⟩, ⟨0⟩].foldlM Module.eraseInst m = .ok m' ∧
    m'.insts = #[none, none] ∧ (m'.value? ⟨1⟩).map Value.uses = some #[] ∧
    m.inPlace (Module.erasureSteps ⟨0⟩ [⟨1⟩, ⟨2⟩]) = (m, some .outOfBounds) := by
  have hrefused : (Op.runAll (.empty "reads") manyReads).toOption.map (fun m =>
      ((m.block? ⟨0⟩).isSome, m.eraseInsts ⟨0⟩ [⟨1⟩, ⟨2⟩]))
      = some (true, .error .outOfBounds) := by decide +kernel
  have herased : (Op.runAll (.empty "reads") manyReads).toOption.map (fun m =>
      (m.eraseInsts ⟨0⟩ [⟨1⟩, ⟨0⟩, ⟨1⟩]).toOption.map fun m' =>
        (m'.insts, (m'.value? ⟨1⟩).map Value.uses))
      = some (some (#[none, none], some #[])) := by decide +kernel
  obtain ⟨m, hrun, heq⟩ := toOption_map_eq_some.1 hrefused
  simp only [Prod.mk.injEq, Option.isSome_iff_exists] at heq
  obtain ⟨⟨block, hb⟩, herror⟩ := heq
  simp only [hrun, toOption_map_eq_some, Except.ok.injEq, exists_eq_left', Prod.mk.injEq] at herased
  obtain ⟨m', herase, hempty, huses⟩ := herased
  have h := (Reachable.empty "reads").runAll hrun
  have hone := (h.eraseInsts_all_or_nothing hb [⟨1⟩, ⟨0⟩, ⟨1⟩]).2.1 m' herase
  have hnothing := (h.eraseInsts_all_or_nothing hb [⟨1⟩, ⟨2⟩]).2.2 _ herror
  exact ⟨m, m', hrun, herase, hone.2, hempty, huses, hnothing.1⟩

end SsaFold
