import SsaFold.Proofs.Simplify.Effect

/-!
# A run as a fold over the placed instructions

The loops over functions, blocks and instructions visit each placed instruction once, in order.
What a visit does depends on the original module and on two things only: how reads have been renamed
so far, and hence which operand the instruction hands on by now.  A `Plan` holds the renaming, and
the instructions that go; `Plan.visit` is one visit.  The folding of `Plan.visit` over the placed
instructions tells the outcome of a run (`Module.Intact.simplify_plan`), and nothing in it is
rewritten in place.

So what is claimed of a run is an induction along one list.  Its basic fact is `Plan.rename_visits`:
a value keeps its renaming for as long as the result it leads to is not visited.
-/

namespace SsaFold

namespace Module

variable {m m' : Module} {maxBits : Nat} {inst inst' : Inst} {v : ValueId}

/-! ## The operand that is handed on -/

/-- The value that an instruction hands on: its operand that survives. -/
def kept? (m : Module) (maxBits : Nat) (inst : Inst) : Option ValueId :=
  (m.survivor? inst maxBits).bind fun k => inst.operandValues[k]?

lemma kept?_eq_some : m.kept? maxBits inst = some v ↔
    ∃ k, m.survivor? inst maxBits = some k ∧ inst.operandValues[k]? = some v := by
  simp [kept?, Option.bind_eq_some_iff]

/-- A position that survives is that of an operand. -/
lemma exists_kept? {k : Nat} (h : m.survivor? inst maxBits = some k) :
    ∃ v, m.kept? maxBits inst = some v := by
  obtain ⟨o, ho, -⟩ := folds_of_survivor? h
  exact ⟨o.value, kept?_eq_some.2 ⟨k, h, by simp [Inst.operandValues, ho]⟩⟩

lemma folds_of_kept? (h : m.kept? maxBits inst = some v) : m.Folds maxBits inst v := by
  obtain ⟨k, hk, hv⟩ := kept?_eq_some.1 h
  obtain ⟨o, ho, hfolds⟩ := folds_of_survivor? hk
  obtain rfl : o.value = v := by simpa [Inst.operandValues, ho] using hv
  exact hfolds

/-- An identity operation hands on one of its operands. -/
lemma Folds.exists_kept? (h : m.Folds maxBits inst v) : ∃ w, m.kept? maxBits inst = some w := by
  obtain ⟨n, lhs, rhs, hop, hvalues, hside⟩ := h
  obtain ⟨k, hk⟩ : ∃ k, m.survivor? inst maxBits = some k := by
    simp only [survivor?, hop, hvalues]
    rcases hside with ⟨hconst, -⟩ | ⟨hconst, -⟩
    · exact ⟨1, by rw [if_pos hconst]⟩
    · by_cases hlhs : m.isConstant lhs n maxBits = true
      · exact ⟨1, by rw [if_pos hlhs]⟩
      · exact ⟨0, by rw [if_neg hlhs, if_pos hconst]⟩
  exact Module.exists_kept? hk

/-- Which operand survives depends on the opcode, and on which operands are identity elements. -/
lemma survivor?_congr {bound : Nat} (hop : inst'.opcode = inst.opcode)
    (hvalues : inst'.operandValues = inst.operandValues)
    (hconst : ∀ v ∈ inst.operandValues, ∀ n, m'.isConstant v n bound = m.isConstant v n maxBits) :
    m'.survivor? inst' bound = m.survivor? inst maxBits := by
  rw [survivor?, survivor?, hop, hvalues]
  split
  · rename_i n lhs rhs _ heq
    rw [hconst lhs (by simp [heq]), hconst rhs (by simp [heq])]
  · rfl

lemma survivor?_of_residue {s : ValueId → ValueId} {gone : List InstId}
    (hbare : m'.bare = m.bare.residue s gone) (hinst : inst'.bare = (inst.rename s).bare) :
    m'.survivor? inst' maxBits = m.survivor? (inst.rename s) maxBits := by
  refine survivor?_congr ?_ ?_ fun v _ n => isConstant_of_residue hbare v n
  · exact congrArg InstSpec.opcode (Inst.toInstSpec_eq_of_bare hinst)
  · exact Inst.operandValues_eq_of_bare hinst

/-! ## Results -/

/-- The results of some instructions. -/
def resultsOf (m : Module) (ids : List InstId) : List ValueId :=
  ids.filterMap fun i => (m.inst? i).map Inst.result

lemma mem_resultsOf {ids : List InstId} :
    v ∈ m.resultsOf ids ↔ ∃ i ∈ ids, ∃ inst, m.inst? i = some inst ∧ inst.result = v := by
  simp [resultsOf]

lemma resultsOf_cons {i : InstId} (hi : m.inst? i = some inst) (ids : List InstId) :
    m.resultsOf (i :: ids) = inst.result :: m.resultsOf ids := by
  simp [resultsOf, hi]

/-- The result of an instruction is that of no other. -/
lemma Shaped.result_mem_resultsOf (h : m.Shaped) {i : InstId} (hi : m.inst? i = some inst)
    {ids : List InstId} : inst.result ∈ m.resultsOf ids ↔ i ∈ ids := by
  rw [mem_resultsOf]
  constructor
  · rintro ⟨j, hj, instj, hinstj, heq⟩
    rwa [h.result_inj hi hinstj heq.symm]
  · exact fun hmem => ⟨i, hmem, inst, hi, rfl⟩

/-- A constant is nobody's result. -/
lemma Shaped.isConstant_not_mem (h : m.Shaped) {n : Int} (hv : m.isConstant v n maxBits = true)
    (ids : List InstId) : v ∉ m.resultsOf ids := by
  intro hmem
  obtain ⟨i, -, inst, hi, heq⟩ := mem_resultsOf.1 hmem
  exact h.result_ne_constant hi hv heq.symm

end Module

/-! ## Plans -/

/-- What a run has done: how reads are renamed, and which instructions go. -/
structure Plan where
  rename : ValueId → ValueId := id
  gone : List InstId := []

namespace Plan

/-- Visit an instruction of `m`.  If it hands on another value than its result, its reads are sent
there and it goes. -/
def visit (m : Module) (maxBits : Nat) (p : Plan) (i : InstId) : Plan :=
  match m.inst? i with
  | none => p
  | some inst =>
    match m.kept? maxBits (inst.rename p.rename) with
    | none => p
    | some kept =>
      if kept = inst.result then p
      else ⟨Module.redirection inst.result kept ∘ p.rename, p.gone ++ [i]⟩

/-- Visit instructions in order. -/
def visits (m : Module) (maxBits : Nat) (p : Plan) (ids : List InstId) : Plan :=
  ids.foldl (visit m maxBits) p

variable {m : Module} {maxBits : Nat} {p : Plan} {i : InstId} {ids : List InstId} {inst : Inst}
  {v kept : ValueId}

@[simp] lemma visits_cons (i : InstId) (ids : List InstId) :
    p.visits m maxBits (i :: ids) = (p.visit m maxBits i).visits m maxBits ids := rfl

@[simp] lemma visits_append (ids more : List InstId) :
    p.visits m maxBits (ids ++ more) = (p.visits m maxBits ids).visits m maxBits more :=
  List.foldl_append

lemma visit_of_none (hi : m.inst? i = some inst)
    (hk : m.kept? maxBits (inst.rename p.rename) = none) : p.visit m maxBits i = p := by
  simp [visit, hi, hk]

lemma visit_of_self (hi : m.inst? i = some inst)
    (hk : m.kept? maxBits (inst.rename p.rename) = some inst.result) :
    p.visit m maxBits i = p := by
  simp [visit, hi, hk]

lemma visit_of_kept (hi : m.inst? i = some inst)
    (hk : m.kept? maxBits (inst.rename p.rename) = some kept) (hne : kept ≠ inst.result) :
    p.visit m maxBits i
      = ⟨Module.redirection inst.result kept ∘ p.rename, p.gone ++ [i]⟩ := by
  simp [visit, hi, hk, hne]

/-- A visit changes nothing, or lets the instruction go. -/
lemma visit_cases (m : Module) (maxBits : Nat) (p : Plan) (i : InstId) :
    p.visit m maxBits i = p ∨ ∃ inst kept, m.inst? i = some inst ∧
      m.kept? maxBits (inst.rename p.rename) = some kept ∧ kept ≠ inst.result ∧
      p.visit m maxBits i
        = ⟨Module.redirection inst.result kept ∘ p.rename, p.gone ++ [i]⟩ := by
  cases hi : m.inst? i with
  | none => exact .inl (by simp [visit, hi])
  | some inst =>
    cases hk : m.kept? maxBits (inst.rename p.rename) with
    | none => exact .inl (visit_of_none hi hk)
    | some kept =>
      by_cases hne : kept = inst.result
      · exact .inl (visit_of_self hi (hne ▸ hk))
      · exact .inr ⟨inst, kept, rfl, hk, hne, visit_of_kept hi hk hne⟩

/-- A value keeps its renaming for as long as the result it leads to is not visited. -/
lemma rename_visits (h : p.rename v ∉ m.resultsOf ids) :
    (p.visits m maxBits ids).rename v = p.rename v := by
  induction ids generalizing p with
  | nil => rfl
  | cons i rest ih =>
    obtain ⟨hne, hrest⟩ : (∀ inst, m.inst? i = some inst → p.rename v ≠ inst.result) ∧
        p.rename v ∉ m.resultsOf rest := by
      simp only [Module.mem_resultsOf, List.mem_cons] at h ⊢
      exact ⟨fun inst hi heq => h ⟨i, .inl rfl, inst, hi, heq.symm⟩,
        fun ⟨j, hj, instj, hinstj, heq⟩ => h ⟨j, .inr hj, instj, hinstj, heq⟩⟩
    have hvisit : (p.visit m maxBits i).rename v = p.rename v := by
      rcases visit_cases m maxBits p i with hp | ⟨inst, kept, hinst, -, -, hp⟩
      · rw [hp]
      · rw [hp]
        exact if_neg (hne inst hinst)
    rw [visits_cons, ih (by rwa [hvisit]), hvisit]

/-- From the start, a value that is nobody's result keeps its name. -/
lemma rename_start (h : v ∉ m.resultsOf ids) : (visits m maxBits {} ids).rename v = v :=
  rename_visits h

/-- What goes has been visited. -/
lemma mem_gone_visits (h : i ∈ (p.visits m maxBits ids).gone) : i ∈ p.gone ∨ i ∈ ids := by
  induction ids generalizing p with
  | nil => exact .inl h
  | cons j rest ih =>
    rcases ih h with hi | hi
    · rcases visit_cases m maxBits p j with hp | ⟨_, _, -, -, -, hp⟩
      · exact .inl (hp ▸ hi)
      · rw [hp, List.mem_append, List.mem_singleton] at hi
        exact hi.imp_right fun heq : i = j => heq ▸ List.mem_cons_self
    · exact .inr (List.mem_cons_of_mem j hi)

/-- What goes does not come back. -/
lemma gone_visits_of_mem (h : i ∈ p.gone) : i ∈ (p.visits m maxBits ids).gone := by
  induction ids generalizing p with
  | nil => exact h
  | cons j rest ih =>
    refine ih ?_
    rcases visit_cases m maxBits p j with hp | ⟨_, _, -, -, -, hp⟩
    · rwa [hp]
    · rw [hp]
      exact List.mem_append_left _ h

end Plan

/-! ## The plan of a run -/

namespace Module

open Plan

/-- What a run does. -/
def plan (m : Module) (maxBits : Nat) : Plan := Plan.visits m maxBits {} m.placedInsts

variable {m m₁ m' : Module} {maxBits : Nat} {p : Plan} {erased : List InstId}

/-- A fold is a visit. -/
lemma Intact.foldInst_visit (h : m₁.Intact) (hbare : m₁.bare = m.bare.residue p.rename erased)
    {i : InstId} {inst : Inst} (hi : m.inst? i = some inst) (hlive : i ∉ erased) (maxBits : Nat) :
    ∃ m₂ folded, m₁.foldInst maxBits i = .ok (m₂, folded) ∧ m₂.Intact ∧
      m₂.bare = m.bare.residue (p.visit m maxBits i).rename erased ∧
      (p.visit m maxBits i).gone = p.gone ++ if folded then [i] else [] := by
  obtain ⟨inst₁, hi₁, heq⟩ := inst?_residue_of_not_mem hbare hi hlive
  have hsurvivor : m₁.survivor? inst₁ maxBits = m.survivor? (inst.rename p.rename) maxBits :=
    survivor?_of_residue hbare heq
  have hresult : inst₁.result = inst.result :=
    (Inst.result_eq_of_bare heq).trans (inst.result_rename _)
  cases hk : m₁.survivor? inst₁ maxBits with
  | none =>
    have hvisit : p.visit m maxBits i = p := visit_of_none hi (by simp [kept?, ← hsurvivor, hk])
    exact ⟨m₁, false, foldInst_of_none hi₁ hk, h, by rw [hvisit, hbare], by simp [hvisit]⟩
  | some k =>
    obtain ⟨o, ho, hfolds⟩ := folds_of_survivor? hk
    have hkept : m.kept? maxBits (inst.rename p.rename) = some o.value := by
      refine kept?_eq_some.2 ⟨k, hsurvivor.symm.trans hk, ?_⟩
      rw [← Inst.operandValues_bare, ← heq, Inst.operandValues_bare]
      simp [Inst.operandValues, ho]
    by_cases hself : o.value = inst₁.result
    · have hvisit : p.visit m maxBits i = p :=
        visit_of_self hi (hkept.trans (congrArg some (hself.trans hresult)))
      exact ⟨m₁, false, foldInst_of_self hi₁ hk ho hself, h, by rw [hvisit, hbare],
        by simp [hvisit]⟩
    · have hvisit := visit_of_kept hi hkept (hresult ▸ hself)
      refine ⟨_, true, h.foldInst_of_kept hi₁ hk ho hself,
        Sweep.intact_redirected h hi₁ hfolds.kept_mem hself, ?_, by simp [hvisit]⟩
      rw [bare_redirected, hbare, residue_residue, List.append_nil, hvisit, hresult]

/-- A scan visits its instructions, and queues those that go. -/
lemma Intact.scan_visits (h : m₁.Intact) (hbare : m₁.bare = m.bare.residue p.rename erased)
    {ids : List InstId} (hids : ∀ i ∈ ids, i ∉ erased ∧ ∃ inst, m.inst? i = some inst)
    (maxBits : Nat) :
    ∃ m₂ queued, m₁.scan maxBits ids = .ok (m₂, queued) ∧ m₂.Intact ∧
      m₂.bare = m.bare.residue (p.visits m maxBits ids).rename erased ∧
      (p.visits m maxBits ids).gone = p.gone ++ queued := by
  induction ids generalizing m₁ p with
  | nil => exact ⟨m₁, [], rfl, h, hbare, (List.append_nil _).symm⟩
  | cons i rest ih =>
    obtain ⟨⟨hlive, inst, hi⟩, hrest⟩ := List.forall_mem_cons.1 hids
    obtain ⟨m₂, folded, hfold, h₂, hbare₂, hgone₂⟩ := h.foldInst_visit hbare hi hlive maxBits
    obtain ⟨m₃, queued, hscan, h₃, hbare₃, hgone₃⟩ := ih h₂ hbare₂ hrest
    refine ⟨m₃, if folded then i :: queued else queued, ?_, h₃, hbare₃, ?_⟩
    · simp only [scan, hfold, ok_bind, hscan]
      rfl
    · rw [visits_cons, hgone₃, hgone₂]
      cases folded <;> simp

/-- A block of which nothing has gone yet is simplified by visiting its instructions. -/
lemma Intact.simplifyBlock_visits (h : m₁.Intact) (hm : m.Shaped)
    (hbare : m₁.bare = m.bare.residue p.rename p.gone) {b : BlockId}
    (hnew : ∀ i ∈ m.instsOf b, i ∉ p.gone) {n : Nat}
    (hrun : m₁.simplifyBlock maxBits b = .ok (m', n)) :
    m'.Intact ∧ m'.bare = m.bare.residue (p.visits m maxBits (m.instsOf b)).rename
      (p.visits m maxBits (m.instsOf b)).gone := by
  simp only [simplifyBlock, bind_eq_ok, getBlock_eq_ok, pure_eq_ok, Prod.mk.injEq] at hrun
  obtain ⟨block₁, hblock₁, ⟨m₂, doomed⟩, hscan, _, herase, rfl, -⟩ := hrun
  rw [block?_of_residue hbare, Option.map_eq_some_iff] at hblock₁
  obtain ⟨block, hblock, rfl⟩ := hblock₁
  have hinsts : m.instsOf b = block.insts.toList := by rw [instsOf, hblock]; rfl
  rw [hinsts] at hnew ⊢
  have hsame : block.insts.filter (· ∉ p.gone) = block.insts :=
    Array.filter_eq_self.2 fun i hi => by simpa using hnew i (Array.mem_toList_iff.2 hi)
  rw [hsame] at hscan
  obtain ⟨m₂', queued, hscan', h₂, hbare₂, hgone⟩ := h.scan_visits hbare
    (fun i hi => ⟨hnew i hi, (hm.exists_inst hblock i hi).imp fun _ => And.left⟩) maxBits
  obtain ⟨rfl, rfl⟩ := Prod.mk.inj (Except.ok.inj (hscan.symm.trans hscan'))
  obtain ⟨-, h', hbare'⟩ := h₂.eraseInsts_eq_ok herase
  refine ⟨h', ?_⟩
  rw [hbare', hbare₂, residue_residue, Function.id_comp, hgone]

/-- Blocks that share no instruction are simplified by visiting their instructions. -/
lemma Intact.simplifyBlocks_visits (h : m₁.Intact) (hm : m.Shaped)
    (hbare : m₁.bare = m.bare.residue p.rename p.gone) {bs : List BlockId}
    (hnodup : (bs.flatMap m.instsOf).Nodup) (hnew : ∀ i ∈ bs.flatMap m.instsOf, i ∉ p.gone)
    {n : Nat} (hrun : m₁.simplifyBlocks maxBits bs = .ok (m', n)) :
    m'.Intact ∧ m'.bare = m.bare.residue (p.visits m maxBits (bs.flatMap m.instsOf)).rename
      (p.visits m maxBits (bs.flatMap m.instsOf)).gone := by
  induction bs generalizing m₁ p n with
  | nil =>
    obtain ⟨rfl, -⟩ := Prod.mk.inj (Except.ok.inj hrun)
    exact ⟨h, hbare⟩
  | cons b rest ih =>
    simp only [simplifyBlocks, bind_eq_ok, pure_eq_ok, Prod.mk.injEq] at hrun
    obtain ⟨⟨m₂, here⟩, hblock, ⟨_, later⟩, hrest, rfl, -⟩ := hrun
    rw [List.flatMap_cons] at hnodup hnew ⊢
    obtain ⟨-, hnodup', hdisjoint⟩ := List.nodup_append.1 hnodup
    obtain ⟨h₂, hbare₂⟩ := h.simplifyBlock_visits hm hbare
      (fun i hi => hnew i (List.mem_append_left _ hi)) hblock
    rw [visits_append]
    refine ih h₂ hbare₂ hnodup' (fun i hi hgone => ?_) hrest
    rcases mem_gone_visits hgone with hold | hseen
    · exact hnew i (List.mem_append_right _ hi) hold
    · exact hdisjoint i hseen i hi rfl

/-- The layout of a function, if there is one. -/
def layoutOf (m : Module) (f : FuncId) : List BlockId :=
  ((m.func? f).map (·.layout.toList)).getD []

lemma flatMap_range {α β : Type} (g : α → List β) (xs : List α) :
    (List.range xs.length).flatMap (fun k => ((xs[k]?).map g).getD []) = xs.flatMap g := by
  induction xs with
  | nil => rfl
  | cons x xs ih =>
    rw [List.length_cons, List.range_succ_eq_map, List.flatMap_cons, List.flatMap_map,
      List.flatMap_cons, ← ih]
    rfl

lemma placedBlocks_eq (m : Module) : m.placedBlocks = m.funcIds.flatMap m.layoutOf := by
  rw [placedBlocks, ← flatMap_range, funcIds, List.flatMap_map, Array.length_toList]
  simp only [layoutOf, func?, Array.getElem?_toList]

/-- Functions that share no instruction are simplified by visiting their placed instructions. -/
lemma Intact.eliminateAll_visits (h : m₁.Intact) (hm : m.Shaped)
    (hbare : m₁.bare = m.bare.residue p.rename p.gone) {fs : List FuncId}
    (hnodup : ((fs.flatMap m.layoutOf).flatMap m.instsOf).Nodup)
    (hnew : ∀ i ∈ (fs.flatMap m.layoutOf).flatMap m.instsOf, i ∉ p.gone) {stats : Stats}
    (hrun : m₁.eliminateAll maxBits fs = .ok (m', stats)) :
    m'.bare = m.bare.residue
      (p.visits m maxBits ((fs.flatMap m.layoutOf).flatMap m.instsOf)).rename
      (p.visits m maxBits ((fs.flatMap m.layoutOf).flatMap m.instsOf)).gone := by
  induction fs generalizing m₁ p stats with
  | nil =>
    obtain ⟨rfl, -⟩ := Prod.mk.inj (Except.ok.inj hrun)
    exact hbare
  | cons f rest ih =>
    simp only [eliminateAll, bind_eq_ok, getFunc_eq_ok] at hrun
    obtain ⟨func, hf, hrun⟩ := hrun
    have hfunc : m.func? f = some func := by
      rwa [func?, ← functions_of_residue hbare]
    have hlayout : m.layoutOf f = func.layout.toList := by rw [layoutOf, hfunc]; rfl
    rw [List.flatMap_cons, List.flatMap_append, hlayout] at hnodup hnew ⊢
    obtain ⟨hnodup₁, hnodup', hdisjoint⟩ := List.nodup_append.1 hnodup
    split_ifs at hrun with hdecl
    · -- A declaration has no blocks.
      have hnone : func.layout.toList = [] := by
        simpa [Func.isDeclaration] using hdecl
      rw [hnone] at hnew ⊢
      exact ih h hbare hnodup' hnew hrun
    · simp only [bind_eq_ok, pure_eq_ok, Prod.mk.injEq] at hrun
      obtain ⟨⟨m₂, here⟩, hblocks, ⟨_, later⟩, hrest, rfl, -⟩ := hrun
      rw [Module.eliminate, getFunc_eq_ok.2 hf, ok_bind] at hblocks
      obtain ⟨h₂, hbare₂⟩ := h.simplifyBlocks_visits hm hbare hnodup₁
        (fun i hi => hnew i (List.mem_append_left _ hi)) hblocks
      rw [visits_append]
      refine ih h₂ hbare₂ hnodup' (fun i hi hgone => ?_) hrest
      rcases mem_gone_visits hgone with hold | hseen
      · exact hnew i (List.mem_append_right _ hi) hold
      · exact hdisjoint i hseen i hi rfl

/-- A run without verification succeeds, and does what its plan says. -/
theorem Intact.simplify_plan (h : m.Intact) (maxBits : Nat) :
    ∃ m' n, m.simplify ⟨maxBits, false⟩ = .ok (m', ⟨(m.definitions m.funcIds).length, n⟩) ∧
      m'.bare = m.bare.residue (m.plan maxBits).rename (m.plan maxBits).gone := by
  obtain ⟨m', gone, hrun, -⟩ := h.simplify_steps maxBits
  have hplaced : m.placedInsts = (m.funcIds.flatMap m.layoutOf).flatMap m.instsOf := by
    rw [placedInsts_eq, placedBlocks_eq]
  have hstart : m.bare = m.bare.residue ({} : Plan).rename ({} : Plan).gone :=
    (residue_id_nil _).symm
  refine ⟨m', _, hrun, ?_⟩
  rw [plan, hplaced]
  exact h.eliminateAll_visits h.shaped hstart (hplaced ▸ h.shaped.nodup_placedInsts)
    (fun _ _ => List.not_mem_nil) (simplify_unverified.1 hrun)

end Module
end SsaFold
