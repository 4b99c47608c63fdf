import SsaFold.Proofs.Simplify.Verification
import SsaFold.Proofs.Text.Distinct
import SsaFold.Proofs.Text.Printing

/-!
# References in print

A parameter, result or block is referred to under its name, or under its number if it has none.  In
a function of a module that is read, the numbers count what has no name
(`Module.Complete.numbering_iff`), and whatever an instruction reads or branches to has a name or a
number.  No two values are referred to alike, and no two blocks (`Module.References`): names tell
apart what has one, numbers what has none, and a number is nobody's name.

The simplifier erases instructions whose results are not read, and so leaves no reference to
something that is not numbered (`Module.references_ofText`).
-/

namespace SsaFold

open Text

namespace Module

variable {m : Module} {f : FuncId} {func : Func} {v w : ValueId} {b c : BlockId}

/-! ## Parameters and results -/

/-- What the instructions of the block return. -/
def resultsIn (m : Module) (b : BlockId) : List ValueId :=
  match m.block? b with
  | some block => m.results block
  | none => []

/-- The parameters of a function, and what its instructions return. -/
def locals (m : Module) (func : Func) : List ValueId :=
  func.params ++ func.layout.toList.flatMap m.resultsIn

lemma mem_resultsIn :
    v ∈ m.resultsIn b ↔ ∃ block, m.block? b = some block ∧ v ∈ m.results block := by
  rw [resultsIn]
  cases m.block? b <;> simp

lemma mem_locals : v ∈ m.locals func ↔ m.IsLocal func v := by
  simp only [locals, IsLocal, List.mem_append, List.mem_flatMap, Array.mem_toList_iff,
    mem_resultsIn, mem_results]

lemma Complete.params_nodup (h : m.Complete) (hf : m.func? f = some func) : func.params.Nodup := by
  refine List.pairwise_iff_getElem.2 fun i j hi hj hlt heq => ?_
  obtain ⟨value, hvalue, hkind, -⟩ := (h.draft.funcs f func hf).params i _
    (List.getElem?_eq_getElem hi)
  obtain ⟨value', hvalue', hkind', -⟩ := (h.draft.funcs f func hf).params j _
    (List.getElem?_eq_getElem hj)
  rw [heq] at hvalue
  obtain rfl := Option.some.inj (hvalue.symm.trans hvalue')
  have hindex := ValueKind.argument.inj (hkind.symm.trans hkind')
  omega

lemma Shaped.results_nodup (h : m.Shaped) {block : Block} (hblock : m.block? b = some block) :
    (m.results block).Nodup := by
  have hinsts : (block.insts.toList.filterMap m.inst?).Nodup := by
    refine (h.heldOnce b block hblock).filterMap fun i j inst hi hj => ?_
    exact h.result_inj hi hj rfl
  refine (hinsts.filter _).map_on fun x hx y hy heq => ?_
  obtain ⟨i, -, hi⟩ := List.mem_filterMap.1 (List.mem_filter.1 hx).1
  obtain ⟨j, -, hj⟩ := List.mem_filterMap.1 (List.mem_filter.1 hy).1
  obtain rfl := h.result_inj hi hj heq
  exact Option.some.inj (hi.symm.trans hj)

/-- No value is returned in two blocks. -/
lemma Shaped.results_disjoint (h : m.Shaped) (hne : b ≠ c) {block block' : Block}
    (hblock : m.block? b = some block) (hblock' : m.block? c = some block') :
    List.Disjoint (m.results block) (m.results block') := by
  intro v hv hw
  obtain ⟨i, hi, inst, hinst, -, hresult⟩ := mem_results.1 hv
  obtain ⟨j, hj, inst', hinst', -, hresult'⟩ := mem_results.1 hw
  obtain rfl := h.result_inj hinst hinst' (hresult.trans hresult'.symm)
  obtain ⟨inst₁, hinst₁, rfl⟩ := (h.held i b).1 ⟨block, hblock, hi⟩
  obtain ⟨inst₂, hinst₂, rfl⟩ := (h.held i c).1 ⟨block', hblock', hj⟩
  exact hne (congrArg Inst.parent (Option.some.inj (hinst₁.symm.trans hinst₂)))

/-- A parameter is not returned by an instruction. -/
lemma Complete.params_disjoint (h : m.Complete) (hf : m.func? f = some func) (block : Block) :
    List.Disjoint func.params (m.results block) := by
  intro v hparam hresult
  obtain ⟨i, -, inst, hi, -, rfl⟩ := mem_results.1 hresult
  obtain ⟨value, hvalue, hkind⟩ := h.intact.shaped.result i inst hi
  obtain ⟨k, hk⟩ := List.mem_iff_getElem?.1 hparam
  obtain ⟨value', hvalue', hkind', -⟩ := (h.draft.funcs f func hf).params k _ hk
  obtain rfl := Option.some.inj (hvalue.symm.trans hvalue')
  cases hkind.symm.trans hkind'

lemma Complete.locals_nodup (h : m.Complete) (hf : m.func? f = some func) :
    (m.locals func).Nodup := by
  have hs := h.intact.shaped
  refine List.nodup_append'.2 ⟨h.params_nodup hf, List.nodup_flatMap.2 ⟨fun b _ => ?_, ?_⟩, ?_⟩
  · rw [resultsIn]
    cases hblock : m.block? b with
    | none => exact List.nodup_nil
    | some block => exact hs.results_nodup hblock
  · refine (hs.placedOnce f func hf).imp fun hne v hb hc => ?_
    obtain ⟨block, hblock, hv⟩ := mem_resultsIn.1 hb
    obtain ⟨block', hblock', hv'⟩ := mem_resultsIn.1 hc
    exact hs.results_disjoint hne hblock hblock' hv hv'
  · intro v hparam hresult
    obtain ⟨b, -, hb⟩ := List.mem_flatMap.1 hresult
    obtain ⟨block, -, hv⟩ := mem_resultsIn.1 hb
    exact h.params_disjoint hf block hparam hv

/-! ## Numbers -/

lemma mem_results_of_unnamed {block : Block} (hv : v ∈ m.unnamedResults block) :
    v ∈ m.results block :=
  mem_results.2 (mem_unnamedResults.1 hv).1

lemma Shaped.slottedIn_nodup (h : m.Shaped) (b : BlockId) : (m.slottedIn b).Nodup := by
  rw [slottedIn]
  cases hblock : m.block? b with
  | none => exact List.nodup_nil
  | some block =>
    have hresults : (m.unnamedResults block).Nodup := (h.results_nodup hblock).filter _
    refine List.nodup_append'.2 ⟨by split_ifs <;> simp, hresults.map fun _ _ => Slotted.value.inj,
      fun x hlabel hresult => ?_⟩
    obtain ⟨v, -, rfl⟩ := List.mem_map.1 hresult
    split_ifs at hlabel
    · cases List.mem_singleton.1 hlabel
    · cases hlabel

/-- Blocks share nothing that is numbered. -/
lemma Shaped.slottedIn_disjoint (h : m.Shaped) (hne : b ≠ c) :
    List.Disjoint (m.slottedIn b) (m.slottedIn c) := by
  intro x hb hc
  obtain ⟨block, hblock, hx⟩ := mem_slottedIn.1 hb
  obtain ⟨block', hblock', hx'⟩ := mem_slottedIn.1 hc
  rcases hx with ⟨rfl, -⟩ | ⟨v, hv, rfl⟩ <;> rcases hx' with ⟨heq, -⟩ | ⟨w, hw, heq⟩
  · exact hne (Slotted.block.inj heq)
  · cases heq
  · cases heq
  · obtain rfl := Slotted.value.inj heq
    exact h.results_disjoint hne hblock hblock' (mem_results_of_unnamed hv)
      (mem_results_of_unnamed hw)

/-- Nothing is numbered twice. -/
lemma Complete.slotted_nodup (h : m.Complete) (hf : m.func? f = some func) :
    (m.slotted func).Nodup := by
  have hs := h.intact.shaped
  rw [slotted_eq]
  refine List.nodup_append'.2 ⟨?_, List.nodup_flatMap.2 ⟨fun b _ => hs.slottedIn_nodup b, ?_⟩, ?_⟩
  · exact ((h.params_nodup hf).filter _).map fun _ _ => Slotted.value.inj
  · exact (hs.placedOnce f func hf).imp fun hne => hs.slottedIn_disjoint hne
  · intro x hparam hblock
    obtain ⟨v, hv, rfl⟩ := List.mem_map.1 hparam
    obtain ⟨b, -, hb⟩ := List.mem_flatMap.1 hblock
    obtain ⟨block, -, ⟨heq, -⟩ | ⟨w, hw, heq⟩⟩ := mem_slottedIn.1 hb
    · cases heq
    · obtain rfl := Slotted.value.inj heq
      exact h.params_disjoint hf block (List.mem_filter.1 hv).1 (mem_results_of_unnamed hw)

/-- The numbers count what is numbered. -/
lemma Complete.numbering_iff (h : m.Complete) (hf : m.func? f = some func) {x : Slotted} {k : Nat} :
    (m.numbering func)[x]? = some k ↔ (m.slotted func)[k]? = some x := by
  refine ⟨slotted_of_numbering, fun hx => ?_⟩
  obtain ⟨j, hj⟩ := exists_number (List.mem_of_getElem? hx)
  obtain ⟨hlt, -⟩ := List.getElem?_eq_some_iff.1 hx
  have hjk : k = j :=
    (List.getElem?_inj hlt (h.slotted_nodup hf)).1 (hx.trans (slotted_of_numbering hj).symm)
  rw [hj, hjk]

/-! ## References -/

/-- What has no name and is printed in the function. -/
def IsUnnamed (m : Module) (func : Func) : Slotted → Prop
  | .value v => m.IsLocal func v ∧ m.isUnnamed v = true
  | .block b => b ∈ func.layout ∧ ∃ block, m.block? b = some block ∧ block.name = none

/-- The text refers to `x`: it is one token, a local name, and this is the name of `x`, or its
number if it has none. -/
def RefersTo (m : Module) (func : Func) (x : Slotted) (name : Option String) (text : String) :
    Prop :=
  ∃ key, tokenize text = .ok [.localName key] ∧ (name = some key ∨
    name = none ∧ ∃ k, (m.numbering func)[x]? = some k ∧ key = toString k)

open Printing in
/-- In print the references of the function are complete, and they are unambiguous. -/
structure References (m : Module) (func : Func) : Prop where
  printed : ∃ t, funcText m func = .ok t
  /-- What has no name is counted: the parameters, then for each block its label and its results. -/
  number : ∀ x (k : Nat), (m.numbering func)[x]? = some k ↔ (m.slotted func)[k]? = some x
  numbered : ∀ x, x ∈ m.slotted func ↔ m.IsUnnamed func x
  /-- Parameters and results are referred to. -/
  value : ∀ v, m.IsLocal func v → ∃ t, (of m func).value v = .ok t ∧
    (of m func).localName v = .ok t ∧ m.RefersTo func (.value v) (m.nameOf? v) t
  /-- Blocks are referred to. -/
  block : ∀ b ∈ func.layout, ∃ block t, m.block? b = some block ∧ (of m func).labelName b = .ok t ∧
    m.RefersTo func (.block b) block.name ("%" ++ t)
  /-- What an instruction reads is referred to, or belongs to no function and is printed as one
  token, and what it branches to is referred to. -/
  inst : ∀ b ∈ func.layout, ∀ block, m.block? b = some block → ∀ i ∈ block.insts, ∃ inst,
    m.inst? i = some inst ∧ (∀ v ∈ inst.operandValues, m.IsLocal func v ∨
      (∃ kind, m.kind? v = some kind ∧ kind.IsShared) ∧
        ∃ t token, (of m func).value v = .ok t ∧ tokenize t = .ok [token]) ∧
    ∀ c ∈ inst.targets, c ∈ func.layout
  values_apart : ∀ v w, m.IsLocal func v → m.IsLocal func w →
    (of m func).localName v = (of m func).localName w → v = w
  blocks_apart : ∀ b ∈ func.layout, ∀ c ∈ func.layout,
    (of m func).labelName b = (of m func).labelName c → b = c

/-- A parameter or result can be read in the function. -/
lemma Complete.visible_of_isLocal (h : m.Complete) (hf : m.func? f = some func)
    (hv : m.IsLocal func v) :
    m.Visible f v ∧ m.IsOf f v ∧ ∀ kind, m.kind? v = some kind → ¬ kind.IsShared := by
  rcases hv with hparam | ⟨b, hb, block, hblock, i, hi, inst, hinst, hty, rfl⟩
  · obtain ⟨k, hk⟩ := List.mem_iff_getElem?.1 hparam
    obtain ⟨value, hvalue, hkind, hty⟩ := (h.draft.funcs f func hf).params k v hk
    refine ⟨⟨value, hvalue, hty, hkind ▸ ⟨rfl, func, hf, hk⟩⟩, .inl ⟨func, hf, hparam⟩,
      fun kind hkind' => ?_⟩
    obtain rfl := Option.some.inj ((kind?_eq_some.2 ⟨value, hvalue, hkind⟩).symm.trans hkind')
    exact id
  · obtain ⟨block', hblock', hfunc⟩ := h.intact.shaped.placed f func hf b hb
    obtain ⟨inst', hinst', rfl⟩ := (h.intact.shaped.held i b).1 ⟨block, hblock, hi⟩
    obtain rfl := Option.some.inj (hinst.symm.trans hinst')
    have howner : m.owner? inst.parent = some f := owner?_eq_some.2 ⟨block', hblock', hfunc⟩
    refine ⟨h.visible_result hinst howner hty, .inr ⟨i, inst, hinst, howner, rfl⟩,
      fun kind hkind => ?_⟩
    obtain ⟨value, hvalue, hkind'⟩ := h.intact.shaped.result i inst hinst
    obtain rfl := Option.some.inj ((kind?_eq_some.2 ⟨value, hvalue, hkind'⟩).symm.trans hkind)
    exact id

open Printing

/-- What is printed as a name or number refers to what has it. -/
lemma refersTo_of_lexes {x : Slotted} {name : Option String} {t : String}
    (hlexes : Lexes t [.localName ((of m func).rawName name x)])
    (hnumber : name = none → ∃ k, (m.numbering func)[x]? = some k) : m.RefersTo func x name t := by
  refine ⟨_, hlexes.tokens_eq true, ?_⟩
  cases name with
  | some s => exact .inl rfl
  | none =>
    obtain ⟨k, hk⟩ := hnumber rfl
    refine .inr ⟨rfl, k, hk, ?_⟩
    simp only [rawName, hk, Option.getD_none, Option.getD_some]

/-- What belongs to a function is printed under its name. -/
lemma value_eq_localName {value : Value} (hv : m.value? v = some value)
    (hown : ¬ value.kind.IsShared) :
    (of m func).value v = (of m func).localName v := by
  simp only [Printing.value, getValue_eq_ok.2 hv, ok_bind]
  cases hkind : value.kind with
  | argument | inst | placeholder => rfl
  | _ =>
    rw [hkind] at hown
    exact absurd trivial hown

namespace Printable

/-- A parameter or result is printed under its name, or under its number. -/
lemma localName_ok_of_isLocal (h : m.Printable) (hf : m.func? f = some func)
    (hv : m.IsLocal func v) :
    Nameable (m.nameOf? v) ∧
      (m.nameOf? v = none → ∃ k, (m.numbering func)[Slotted.value v]? = some k) ∧
      ∃ t, (of m func).value v = .ok t ∧ (of m func).localName v = .ok t ∧
        Lexes t [.localName ((of m func).valueName v)] := by
  obtain ⟨hvisible, -, hown⟩ := h.complete.visible_of_isLocal hf hv
  obtain ⟨-, t, ht, hlexes⟩ := localName_ok h hf hvisible hown
  obtain ⟨value, hvalue, -⟩ := id hvisible
  have hname : m.nameOf? v = value.name := by simp [nameOf?, hvalue]
  refine ⟨hname ▸ (h.complete.draft.values v value hvalue).2,
    fun hnone => exists_number (h.complete.value_mem_slotted hf hvisible hown hnone), t,
      ?_, ht, hlexes⟩
  rw [value_eq_localName hvalue (hown _ (kind?_eq_some.2 ⟨value, hvalue, rfl⟩)), ht]

/-- A block is printed under its name, or under its number. -/
lemma labelName_refersTo (h : m.Printable) (hf : m.func? f = some func) (hb : b ∈ func.layout) :
    ∃ block t, m.block? b = some block ∧ (of m func).labelName b = .ok t ∧
      m.RefersTo func (.block b) block.name ("%" ++ t) := by
  obtain ⟨block, hblock, -⟩ := (h.complete.draft.funcs f func hf).labels b hb
  obtain ⟨hlabel, hisLabel⟩ := labelName_ok h hf hb
  have hname : (of m func).blockName b = (of m func).rawName block.name (.block b) := by
    rw [blockName, hblock, Option.bind_some]
  refine ⟨block, _, hblock, hlabel, refersTo_of_lexes ?_ fun hnone =>
    exists_number (block_mem_slotted hb hblock hnone)⟩
  exact hname ▸ lexes_localName (quotable_of_isLabel hisLabel)

/-- What an instruction reads or branches to is referred to, or is shared. -/
lemma reads (h : m.Printable) (hf : m.func? f = some func) (hb : b ∈ func.layout) {block : Block}
    (hblock : m.block? b = some block) {i : InstId} (hi : i ∈ block.insts) :
    ∃ inst, m.inst? i = some inst ∧
      (∀ v ∈ inst.operandValues, m.IsLocal func v ∨
        (∃ kind, m.kind? v = some kind ∧ kind.IsShared) ∧
          ∃ t token, (of m func).value v = .ok t ∧ tokenize t = .ok [token]) ∧
      ∀ c ∈ inst.targets, c ∈ func.layout := by
  have hcomplete := h.complete
  obtain ⟨block', hblock', hfunc⟩ := hcomplete.intact.shaped.placed f func hf b hb
  obtain ⟨inst, hinst, rfl⟩ := (hcomplete.intact.shaped.held i b).1 ⟨block, hblock, hi⟩
  have howner : m.owner? inst.parent = some f := owner?_eq_some.2 ⟨block', hblock', hfunc⟩
  obtain ⟨g, hg, -, htargets⟩ := hcomplete.within hinst
  obtain rfl := Option.some.inj (howner.symm.trans hg)
  refine ⟨inst, hinst, fun v hv => ?_, fun c hc => hcomplete.mem_layout hf (htargets c hc)⟩
  have hvisible := hcomplete.visible hinst howner hv
  by_cases hshared : ∃ kind, m.kind? v = some kind ∧ kind.IsShared
  · obtain ⟨a, ha⟩ := exists_spelled h hf hvisible
    obtain ⟨t, ht, hlexes⟩ := ha.value
    exact .inr ⟨hshared, t, _, ht, hlexes.tokens_eq true⟩
  · exact .inl (hcomplete.isLocal hf hvisible fun kind hkind hown => hshared ⟨kind, hkind, hown⟩)

/-- Values under one name in print are the same, if names tell them apart. -/
lemma eq_of_valueName (h : m.Printable) (hf : m.func? f = some func) (hapart : m.NamesApart f)
    (hv : m.IsLocal func v) (hw : m.IsLocal func w)
    (heq : (of m func).valueName v = (of m func).valueName w) : v = w := by
  obtain ⟨hnameable, hnumber, -⟩ := h.localName_ok_of_isLocal hf hv
  obtain ⟨hnameable', hnumber', -⟩ := h.localName_ok_of_isLocal hf hw
  obtain ⟨hsame, hnumbers⟩ := rawName_inj hnameable hnameable' hnumber hnumber' heq
  cases hname : m.nameOf? v with
  | none =>
    obtain ⟨k, hk, hk'⟩ := hnumbers hname
    exact Slotted.value.inj (numbering_inj hk hk')
  | some n =>
    obtain ⟨-, hv, -⟩ := h.complete.visible_of_isLocal hf hv
    obtain ⟨-, hw, -⟩ := h.complete.visible_of_isLocal hf hw
    exact hapart.value hv hw hname (hsame.trans hname)

/-- Values that are printed alike are the same, if names tell them apart. -/
lemma eq_of_localName (h : m.Printable) (hf : m.func? f = some func) (hapart : m.NamesApart f)
    (hv : m.IsLocal func v) (hw : m.IsLocal func w)
    (heq : (of m func).localName v = (of m func).localName w) : v = w := by
  obtain ⟨-, -, t, -, ht, hlexes⟩ := h.localName_ok_of_isLocal hf hv
  obtain ⟨-, -, t', -, ht', hlexes'⟩ := h.localName_ok_of_isLocal hf hw
  obtain rfl := Except.ok.inj (ht.symm.trans (heq.trans ht'))
  have htokens := (hlexes.tokens_eq true).symm.trans (hlexes'.tokens_eq true)
  exact h.eq_of_valueName hf hapart hv hw (by simpa using htokens)

/-- Blocks under one name in print are the same, if names tell them apart. -/
lemma eq_of_blockName (h : m.Printable) (hf : m.func? f = some func) (hapart : m.NamesApart f)
    (hb : b ∈ func.layout) (hc : c ∈ func.layout)
    (heq : (of m func).blockName b = (of m func).blockName c) : b = c := by
  obtain ⟨block, block', hblock, hblock', hsame, hunnamed⟩ := blockName_inj h.complete hf hb hc heq
  cases hname : block.name with
  | none => exact hunnamed hname
  | some n =>
    obtain ⟨_, hplaced, hfunc⟩ := h.complete.intact.shaped.placed f func hf b hb
    obtain ⟨_, hplaced', hfunc'⟩ := h.complete.intact.shaped.placed f func hf c hc
    obtain rfl := Option.some.inj (hblock.symm.trans hplaced)
    obtain rfl := Option.some.inj (hblock'.symm.trans hplaced')
    exact hapart.block hblock hfunc hblock' hfunc' hname (hsame.trans hname)

/-- Blocks that are printed alike are the same, if names tell them apart. -/
lemma eq_of_labelName (h : m.Printable) (hf : m.func? f = some func) (hapart : m.NamesApart f)
    (hb : b ∈ func.layout) (hc : c ∈ func.layout)
    (heq : (of m func).labelName b = (of m func).labelName c) : b = c := by
  obtain ⟨hlabel, hisLabel⟩ := labelName_ok h hf hb
  obtain ⟨hlabel', hisLabel'⟩ := labelName_ok h hf hc
  have htexts := Except.ok.inj (hlabel.symm.trans (heq.trans hlabel'))
  have hlexes := lexes_localName (quotable_of_isLabel hisLabel)
  rw [localText, htexts] at hlexes
  have htokens := (hlexes.tokens_eq true).symm.trans
    ((lexes_localName (quotable_of_isLabel hisLabel')).tokens_eq true)
  exact h.eq_of_blockName hf hapart hb hc (by simpa using htokens)

/-- In a module that can be printed references are complete, and they are unambiguous if names tell
apart what they are given to. -/
theorem references (h : m.Printable) (hf : m.func? f = some func) (hapart : m.NamesApart f) :
    m.References func where
  printed := by
    obtain ⟨_, -, -, -, t, ht, -⟩ := exists_chapter h hf
    exact ⟨t, ht⟩
  number _ _ := h.complete.numbering_iff hf
  numbered x := by cases x <;> simp only [IsUnnamed, value_mem_slotted_iff, block_mem_slotted_iff]
  value v hv := by
    obtain ⟨-, hnumber, t, hvalue, hname, hlexes⟩ := h.localName_ok_of_isLocal hf hv
    exact ⟨t, hvalue, hname, refersTo_of_lexes hlexes hnumber⟩
  block _ hb := h.labelName_refersTo hf hb
  inst _ hb _ hblock _ hi := h.reads hf hb hblock hi
  values_apart _ _ hv hw heq := h.eq_of_localName hf hapart hv hw heq
  blocks_apart _ hb _ hc heq := h.eq_of_labelName hf hapart hb hc heq

end Printable

/-- What the simplifier leaves of a module that is read can be printed, whether it verifies or
not. -/
lemma exists_residue_of_simplify {text : String} (hread : ofText text = .ok m) (maxBits : Nat) :
    ∃ m' stats s gone, (∀ verify, m.simplify ⟨maxBits, verify⟩ = .ok (m', stats)) ∧ m'.Printable ∧
      m'.bare = m.bare.residue s gone := by
  have hprintable := printable_ofText hread
  have hintact := hprintable.complete.intact
  obtain ⟨m', stats, hruns, -⟩ := hintact.simplify_verified (wellFormed_ofText hread).2 maxBits
  obtain ⟨_, _, hrun, hprintable'⟩ := hprintable.simplify maxBits
  obtain ⟨rfl, -⟩ := Prod.mk.inj (Except.ok.inj ((hruns false).symm.trans hrun))
  obtain ⟨_, gone, hrun', hsteps⟩ := hintact.simplify_steps maxBits
  obtain ⟨rfl, -⟩ := Prod.mk.inj (Except.ok.inj (hrun.symm.trans hrun'))
  obtain ⟨s, htraced⟩ := hsteps.traced hintact
  exact ⟨m', stats, s, _, hruns, hprintable', htraced.bare⟩

/-- In a module that is read the references of a function that has blocks are complete and
unambiguous when it is printed, and they still are after the simplifier, whatever its options. -/
theorem references_ofText {text : String} (hread : ofText text = .ok m) :
    (∀ func ∈ m.functions, func.isDeclaration = false → m.References func) ∧
    ∀ o, ∃ m' stats, m.simplify o = .ok (m', stats) ∧
      ∀ func ∈ m'.functions, func.isDeclaration = false → m'.References func := by
  have hapart : ∀ f func, m.func? f = some func → func.isDeclaration = false → m.NamesApart f :=
    fun f func hf hdefined => namesApart_ofText hread hf
      (by simpa [Func.isDeclaration] using hdefined)
  refine ⟨fun func hmem hdefined => ?_, fun o => ?_⟩
  · obtain ⟨f, hf⟩ := mem_functions.1 hmem
    exact (printable_ofText hread).references hf (hapart f func hf hdefined)
  · obtain ⟨m', stats, _, _, hruns, hprintable, hbare⟩ :=
      exists_residue_of_simplify hread o.maxIdentityBits
    refine ⟨m', stats, hruns o.verify, fun func hmem hdefined => ?_⟩
    obtain ⟨f, hf⟩ := mem_functions.1 hmem
    have hf₀ : m.func? f = some func := by rwa [func?, functions_of_residue hbare] at hf
    exact hprintable.references hf ((hapart f func hf₀ hdefined).of_residue hbare)

/-- A loop in a function with a parameter, a sum, a comparison and two blocks that have no names,
and a parameter whose name is quoted.  The simplifier erases the first sum. -/
def renumberedText : String :=
  "define i32 @f(i32 %0, i32 %\"a b\") \x7b\n  %2 = add i32 %0, 0\n  br label %loop\n" ++
  "loop:\n  %i = phi i32 [ %2, %1 ], [ %n, %loop ]\n  %n = add i32 %i, %\"a b\"\n" ++
  "  %3 = icmp slt i32 %n, 10\n  br i1 %3, label %loop, label %4\n4:\n  ret i32 %n\n\x7d\n"

/-- Of its five numbers four are left, and its references are complete and unambiguous before and
after. -/
theorem references_renumberedText : ∃ m m' stats func func', ofText renumberedText = .ok m ∧
    m.func? ⟨0⟩ = some func ∧ (m.slotted func).length = 5 ∧ m.References func ∧
    m.simplify ⟨32, true⟩ = .ok (m', stats) ∧ m'.func? ⟨0⟩ = some func' ∧
    (m'.slotted func').length = 4 ∧ m'.References func' := by
  have hrun : (ofText renumberedText).toOption.map (fun m =>
      ((m.func? ⟨0⟩).map fun f => (f.isDeclaration, (m.slotted f).length),
        (m.simplify ⟨32, true⟩).toOption.map fun r =>
          (r.1.func? ⟨0⟩).map fun f => (f.isDeclaration, (r.1.slotted f).length)))
        = some (some (false, 5), some (some (false, 4))) := by
    decide +kernel
  obtain ⟨m, hread, heq⟩ := toOption_map_eq_some.1 hrun
  obtain ⟨hbefore, hafter⟩ := Prod.mk.inj heq
  obtain ⟨func, hf, hfunc⟩ := Option.map_eq_some_iff.1 hbefore
  obtain ⟨⟨m', stats⟩, hsimplify, hafter⟩ := toOption_map_eq_some.1 hafter
  obtain ⟨func', hf', hfunc'⟩ := Option.map_eq_some_iff.1 hafter
  obtain ⟨hdefined, hnumbers⟩ := Prod.mk.inj hfunc
  obtain ⟨hdefined', hnumbers'⟩ := Prod.mk.inj hfunc'
  obtain ⟨hreferences, hsimplified⟩ := references_ofText hread
  obtain ⟨m₁, stats₁, hrun₁, hreferences'⟩ := hsimplified ⟨32, true⟩
  obtain ⟨rfl, rfl⟩ := Prod.mk.inj (Except.ok.inj (hrun₁.symm.trans hsimplify))
  exact ⟨m, m₁, stats₁, func, func', hread, hf, hnumbers,
    hreferences func (Array.mem_of_getElem? hf) hdefined, hsimplify, hf', hnumbers',
    hreferences' func' (Array.mem_of_getElem? hf') hdefined'⟩

end Module
end SsaFold
