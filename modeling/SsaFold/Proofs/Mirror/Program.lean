import SsaFold.Proofs.Mirror.Pairing
import SsaFold.Proofs.Text.Chapter

/-!
# One program in two modules

In a complete module a block, an instruction, and a parameter or result of a definition has one
place (`Module.Shaped.blockAt?_inj`, `Module.Shaped.instAt?_inj`, `Module.Complete.ownAt?_inj`).  So
places pair the entries of two complete modules (`Module.pairing`), and if the modules are one
program, then they mirror each other along this pairing (`Module.SameProgram.mirrors`).
-/

namespace SsaFold

/-! ## Places -/

section Places

variable {P α β : Type} {left : P → Option α} {right : P → Option β}

/-- Where each has one place, the entries at the same places are paired. -/
lemma biUnique_places (hleft : ∀ {p q a}, left p = some a → left q = some a → p = q)
    (hright : ∀ {p q b}, right p = some b → right q = some b → p = q) :
    Relator.BiUnique fun a b => ∃ p, left p = some a ∧ right p = some b := by
  constructor
  · rintro a a' b ⟨p, ha, hb⟩ ⟨q, ha', hb'⟩
    obtain rfl := hright hb hb'
    exact Option.some.inj (ha.symm.trans ha')
  · rintro a b b' ⟨p, ha, hb⟩ ⟨q, ha', hb'⟩
    obtain rfl := hleft ha ha'
    exact Option.some.inj (hb.symm.trans hb')

end Places

/-- Where a parameter or a result of a definition stands. -/
inductive Place where
  /-- Parameter `k` of a function. -/
  | param (f : FuncId) (k : Nat)
  /-- The result of instruction `l` of block `k` of a function. -/
  | result (f : FuncId) (k l : Nat)

namespace Module

variable {m n : Module} {f g : FuncId} {k l : Nat}

/-- The parameter or result at a place. -/
def ownAt? (m : Module) : Place → Option ValueId
  | .param f k => (m.func? f).bind fun func => if func.isDeclaration then none else func.params[k]?
  | .result f k l => ((m.instAt? f k l).bind m.inst?).map Inst.result

lemma blockAt?_eq_some {b : BlockId} :
    m.blockAt? f k = some b ↔ ∃ func, m.func? f = some func ∧ func.layout[k]? = some b := by
  simp [blockAt?, Option.bind_eq_some_iff]

lemma instAt?_eq_some {i : InstId} : m.instAt? f k l = some i ↔
    ∃ b block, m.blockAt? f k = some b ∧ m.block? b = some block ∧ block.insts[l]? = some i := by
  simp [instAt?, Option.bind_eq_some_iff]

lemma ownAt?_param {v : ValueId} : m.ownAt? (.param f k) = some v ↔
    ∃ func, m.func? f = some func ∧ func.isDeclaration = false ∧ func.params[k]? = some v := by
  rw [ownAt?, Option.bind_eq_some_iff]
  refine exists_congr fun func => and_congr_right fun _ => ?_
  cases func.isDeclaration <;> simp

lemma ownAt?_result {v : ValueId} : m.ownAt? (.result f k l) = some v ↔
    ∃ i inst, m.instAt? f k l = some i ∧ m.inst? i = some inst ∧ inst.result = v := by
  simp [ownAt?, Option.bind_eq_some_iff]

/-- A block stands at one place. -/
lemma Shaped.blockAt?_inj (h : m.Shaped) {b : BlockId} (hb : m.blockAt? f k = some b)
    (hb' : m.blockAt? g l = some b) : f = g ∧ k = l := by
  obtain ⟨func, hf, hk⟩ := blockAt?_eq_some.1 hb
  obtain ⟨func', hg, hl⟩ := blockAt?_eq_some.1 hb'
  obtain ⟨block, hblock, rfl⟩ := h.placed f func hf b (Array.mem_of_getElem? hk)
  obtain ⟨block', hblock', rfl⟩ := h.placed g func' hg b (Array.mem_of_getElem? hl)
  obtain rfl := Option.some.inj (hblock.symm.trans hblock')
  obtain rfl := Option.some.inj (hf.symm.trans hg)
  rw [← Array.getElem?_toList] at hk hl
  exact ⟨rfl, (List.getElem?_inj (List.getElem?_eq_some_iff.1 hk).1 (h.placedOnce _ func hf)).1
    (hk.trans hl.symm)⟩

/-- An instruction stands at one place, in the block that is its parent. -/
lemma Shaped.instAt?_inj (h : m.Shaped) {i : InstId} {k' l' : Nat} (hi : m.instAt? f k l = some i)
    (hi' : m.instAt? g k' l' = some i) : f = g ∧ k = k' ∧ l = l' := by
  obtain ⟨b, block, hb, hblock, hl⟩ := instAt?_eq_some.1 hi
  obtain ⟨b', block', hb', hblock', hl'⟩ := instAt?_eq_some.1 hi'
  obtain ⟨inst, hinst, rfl⟩ := (h.held i b).1 ⟨block, hblock, Array.mem_of_getElem? hl⟩
  obtain ⟨inst', hinst', rfl⟩ := (h.held i b').1 ⟨block', hblock', Array.mem_of_getElem? hl'⟩
  obtain rfl := Option.some.inj (hinst.symm.trans hinst')
  obtain rfl := Option.some.inj (hblock.symm.trans hblock')
  obtain ⟨rfl, rfl⟩ := h.blockAt?_inj hb hb'
  rw [← Array.getElem?_toList] at hl hl'
  exact ⟨rfl, rfl,
    (List.getElem?_inj (List.getElem?_eq_some_iff.1 hl).1 (h.heldOnce _ block hblock)).1
      (hl.trans hl'.symm)⟩

/-- What a value at a place is. -/
lemma Complete.kind?_param (h : m.Complete) {v : ValueId} (hv : m.ownAt? (.param f k) = some v) :
    m.kind? v = some (.argument f k) := by
  obtain ⟨func, hf, -, hk⟩ := ownAt?_param.1 hv
  obtain ⟨value, hvalue, hkind, -⟩ := (h.draft.funcs f func hf).params k v hk
  exact kind?_eq_some.2 ⟨value, hvalue, hkind⟩

lemma Shaped.kind?_result (h : m.Shaped) {v : ValueId} (hv : m.ownAt? (.result f k l) = some v) :
    ∃ i, m.instAt? f k l = some i ∧ m.kind? v = some (.inst i) := by
  obtain ⟨i, inst, hi, hinst, rfl⟩ := ownAt?_result.1 hv
  obtain ⟨value, hvalue, hkind⟩ := h.result i inst hinst
  exact ⟨i, hi, kind?_eq_some.2 ⟨value, hvalue, hkind⟩⟩

/-- A parameter or result stands at one place. -/
lemma Complete.ownAt?_inj (h : m.Complete) {p q : Place} {v : ValueId} (hp : m.ownAt? p = some v)
    (hq : m.ownAt? q = some v) : p = q := by
  -- The kind of the value tells the place, of a result through its instruction.
  cases p with
  | param f k =>
    have hkind := h.kind?_param hp
    cases q with
    | param g l =>
      have hsame := hkind.symm.trans (h.kind?_param hq)
      simpa using hsame
    | result g k' l =>
      obtain ⟨i, -, hkind'⟩ := h.intact.shaped.kind?_result hq
      simp [hkind] at hkind'
  | result f k l =>
    obtain ⟨i, hi, hkind⟩ := h.intact.shaped.kind?_result hp
    cases q with
    | param g k' => simp [h.kind?_param hq] at hkind
    | result g k' l' =>
      obtain ⟨j, hj, hkind'⟩ := h.intact.shaped.kind?_result hq
      obtain rfl : i = j := by simpa using hkind.symm.trans hkind'
      obtain ⟨rfl, rfl, rfl⟩ := h.intact.shaped.instAt?_inj hi hj
      rfl

/-- The entries of two complete modules at the same places, and the values that are the same by
themselves. -/
def pairing (hm : m.Complete) (hn : n.Complete) : Pairing where
  shared v w := ∃ kind : ValueKind, kind.IsShared ∧ m.kind? v = some kind ∧ n.kind? w = some kind
  own v w := ∃ p, m.ownAt? p = some v ∧ n.ownAt? p = some w
  inst i j := ∃ p : FuncId × Nat × Nat,
    m.instAt? p.1 p.2.1 p.2.2 = some i ∧ n.instAt? p.1 p.2.1 p.2.2 = some j
  block b c := ∃ p : FuncId × Nat, m.blockAt? p.1 p.2 = some b ∧ n.blockAt? p.1 p.2 = some c
  own_biUnique := biUnique_places hm.ownAt?_inj hn.ownAt?_inj
  inst_biUnique := biUnique_places
    (fun hi hj => by simpa [Prod.ext_iff] using hm.intact.shaped.instAt?_inj hi hj)
    (fun hi hj => by simpa [Prod.ext_iff] using hn.intact.shaped.instAt?_inj hi hj)
  block_biUnique := biUnique_places
    (fun hb hc => Prod.ext_iff.2 (hm.intact.shaped.blockAt?_inj hb hc))
    (fun hb hc => Prod.ext_iff.2 (hn.intact.shaped.blockAt?_inj hb hc))

/-! ## Reads -/

/-- The function of an instruction that stands at a place. -/
lemma Shaped.owner?_of_instAt? (h : m.Shaped) {i : InstId} {inst : Inst}
    (hi : m.instAt? f k l = some i) (hinst : m.inst? i = some inst) :
    m.owner? inst.parent = some f := by
  obtain ⟨b, block, hb, hblock, hl⟩ := instAt?_eq_some.1 hi
  obtain ⟨func, hf, hk⟩ := blockAt?_eq_some.1 hb
  obtain ⟨inst', hinst', rfl⟩ := (h.held i b).1 ⟨block, hblock, Array.mem_of_getElem? hl⟩
  obtain rfl := Option.some.inj (hinst.symm.trans hinst')
  obtain ⟨block', hblock', hfunc⟩ := h.placed f func hf _ (Array.mem_of_getElem? hk)
  exact owner?_eq_some.2 ⟨block', hblock', hfunc⟩

/-- A parameter that is read has its place, for a function that has blocks is a definition. -/
lemma Visible.ownAt?_param {v : ValueId} {b : BlockId} (h : m.Visible f v)
    (hkind : m.kind? v = some (.argument f k)) (hb : m.blockAt? f l = some b) :
    m.ownAt? (.param f k) = some v := by
  obtain ⟨-, func, hf, hparam⟩ := h.offers hkind
  obtain ⟨func', hf', hl⟩ := blockAt?_eq_some.1 hb
  obtain rfl := Option.some.inj (hf.symm.trans hf')
  refine Module.ownAt?_param.2 ⟨func, hf, ?_, hparam⟩
  have hne : func.layout ≠ #[] :=
    Array.ne_empty_of_size_pos (Array.size_pos_of_mem (Array.mem_of_getElem? hl))
  simpa [Func.isDeclaration] using hne

/-- A result that is read has its place. -/
lemma Visible.ownAt?_result {v : ValueId} {i : InstId} (h : m.Visible f v)
    (hkind : m.kind? v = some (.inst i)) (hi : m.instAt? f k l = some i) :
    m.ownAt? (.result f k l) = some v := by
  obtain ⟨inst, hinst, hresult, -⟩ := h.offers hkind
  exact Module.ownAt?_result.2 ⟨i, inst, hi, hinst, hresult⟩

/-! ## One program -/

namespace SameProgram

/-- Blocks at one position are the same. -/
lemma sameInsts (h : m.SameProgram n) {b c : BlockId} (hb : m.blockAt? f k = some b)
    (hc : n.blockAt? f k = some c) : m.SameInsts n f b c := by
  obtain ⟨func, hf, hb⟩ := blockAt?_eq_some.1 hb
  obtain ⟨func', hf', hc⟩ := blockAt?_eq_some.1 hc
  rw [← Array.getElem?_toList] at hb hc
  obtain ⟨c', hc', hsame⟩ := exists_of_forall₂_left (h.func f func func' hf hf').blocks hb
  obtain rfl := Option.some.inj (hc.symm.trans hc')
  exact hsame

/-- Instructions at one position are the same. -/
lemma sameInst (h : m.SameProgram n) {i j : InstId} (hi : m.instAt? f k l = some i)
    (hj : n.instAt? f k l = some j) :
    ∃ inst inst', m.inst? i = some inst ∧ n.inst? j = some inst' ∧ m.SameInst n f inst inst' := by
  obtain ⟨b, block, hb, hblock, hi⟩ := instAt?_eq_some.1 hi
  obtain ⟨c, block', hc, hblock', hj⟩ := instAt?_eq_some.1 hj
  obtain ⟨block₀, block₀', hblock₀, hblock₀', -, hinsts⟩ := h.sameInsts hb hc
  obtain rfl := Option.some.inj (hblock.symm.trans hblock₀)
  obtain rfl := Option.some.inj (hblock'.symm.trans hblock₀')
  rw [← Array.getElem?_toList] at hi hj
  obtain ⟨j', hj', hsame⟩ := exists_of_forall₂_left hinsts hi
  obtain rfl := Option.some.inj (hj.symm.trans hj')
  exact hsame

variable (hm : m.Complete) (hn : n.Complete)

section Instructions

variable {i j : InstId} {inst inst' : Inst}

/-- Operands that correspond are paired. -/
lemma value (hi : m.instAt? f k l = some i) (hj : n.instAt? f k l = some j) {v w : ValueId}
    (hv : m.Visible f v) (hw : n.Visible f w) (hvw : m.SameValue n f v w) :
    (pairing hm hn).value v w := by
  obtain ⟨b, -, hb, -⟩ := instAt?_eq_some.1 hi
  obtain ⟨c, -, hc, -⟩ := instAt?_eq_some.1 hj
  -- `f` is a definition: a block of it holds the instructions.
  cases hvw with
  | shared left right shared => exact .inl ⟨_, shared, left, right⟩
  | argument left right =>
    exact .inr ⟨.param f _, hv.ownAt?_param left hb, hw.ownAt?_param right hc⟩
  | result left right at_left at_right =>
    exact .inr ⟨.result f _ _, hv.ownAt?_result left at_left, hw.ownAt?_result right at_right⟩

/-- Instructions at one position are paired, and say the same. -/
lemma pairsInst (hi : m.instAt? f k l = some i) (hj : n.instAt? f k l = some j)
    (hinst : m.inst? i = some inst) (hinst' : n.inst? j = some inst')
    (hsame : m.SameInst n f inst inst') : (pairing hm hn).PairsInst inst inst' := by
  have howner := hm.intact.shaped.owner?_of_instAt? hi hinst
  have howner' := hn.intact.shaped.owner?_of_instAt? hj hinst'
  refine ⟨hsame.spec, forall₂_of_getElem? hsame.operands.length_eq fun q v w hv hw => ?_, ?_,
    ⟨.result f k l, ?_, ?_⟩⟩
  · obtain ⟨w', hw', hvw⟩ := exists_of_forall₂_left hsame.operands hv
    obtain rfl := Option.some.inj (hw.symm.trans hw')
    exact value hm hn hi hj (hm.visible hinst howner (List.mem_of_getElem? hv))
      (hn.visible hinst' howner' (List.mem_of_getElem? hw)) hvw
  · refine hsame.targets.imp ?_
    rintro b c ⟨q, hb, hc⟩
    exact ⟨(f, q), hb, hc⟩
  · exact ownAt?_result.2 ⟨i, inst, hi, hinst, rfl⟩
  · exact ownAt?_result.2 ⟨j, inst', hj, hinst', rfl⟩

end Instructions

/-- Blocks at one position list instructions at one position. -/
lemma pairsBlock (h : m.SameProgram n) {b c : BlockId} (hb : m.blockAt? f k = some b)
    (hc : n.blockAt? f k = some c) :
    ∃ block block', m.block? b = some block ∧ n.block? c = some block' ∧
      (pairing hm hn).PairsBlock block block' := by
  obtain ⟨block, block', hblock, hblock', hname, hinsts⟩ := h.sameInsts hb hc
  refine ⟨block, block', hblock, hblock', hname,
    forall₂_of_getElem? hinsts.length_eq fun l i j hi hj => ⟨(f, k, l), ?_, ?_⟩⟩
  · exact instAt?_eq_some.2 ⟨b, block, hb, hblock, Array.getElem?_toList ▸ hi⟩
  · exact instAt?_eq_some.2 ⟨c, block', hc, hblock', Array.getElem?_toList ▸ hj⟩

/-- Functions at one position list parameters and blocks at one position. -/
lemma pairsFunc (h : m.SameProgram n) {func func' : Func} (hf : m.func? f = some func)
    (hf' : n.func? f = some func') :
    (pairing hm hn).PairsFunc m n func func' := by
  have hsame := h.func f func func' hf hf'
  have hlayout : func'.layout.size = func.layout.size := by simpa using hsame.blocks.length_eq.symm
  have hparams : func.params.length = func'.params.length := by
    simpa using congrArg List.length hsame.paramTypes.symm
  refine ⟨hsame.name, hsame.returnType, hsame.linkage, hsame.attrs, hsame.vararg, hsame.paramTypes,
    fun hdefined => forall₂_of_getElem? hparams fun k v w hv hw => ⟨.param f k, ?_, ?_⟩,
    forall₂_of_getElem? hsame.blocks.length_eq fun k b c hb hc => ⟨(f, k), ?_, ?_⟩⟩
  · exact ownAt?_param.2 ⟨func, hf, hdefined, hv⟩
  · refine ownAt?_param.2 ⟨func', hf', ?_, hw⟩
    rw [Func.isDeclaration, Array.isEmpty, hlayout]
    exact hdefined
  · exact (blockAt?_eq hf k).trans (Array.getElem?_toList ▸ hb)
  · exact (blockAt?_eq hf' k).trans (Array.getElem?_toList ▸ hc)

include hm hn in
/-- Parameters and results at one place have one type, and one name. -/
lemma pairsOwn (h : m.SameProgram n) {p : Place} {v w : ValueId} (hv : m.ownAt? p = some v)
    (hw : n.ownAt? p = some w) :
    ∃ value value', m.value? v = some value ∧ n.value? w = some value' ∧
      Pairing.PairsOwn value value' := by
  cases p with
  | param f k =>
    obtain ⟨value, hvalue, hkind⟩ := kind?_eq_some.1 (hm.kind?_param hv)
    obtain ⟨value', hvalue', hkind'⟩ := kind?_eq_some.1 (hn.kind?_param hw)
    obtain ⟨func, hf, hdefined, hk⟩ := ownAt?_param.1 hv
    obtain ⟨func', hf', -, hk'⟩ := ownAt?_param.1 hw
    have hsame := h.func f func func' hf hf'
    have hty := congrArg (·[k]?) hsame.paramTypes
    have hname := congrArg (·[k]?) (hsame.paramNames hdefined)
    simp only [List.getElem?_map, hk, hk', Option.map_some, Option.some.injEq, typeOf?, nameOf?,
      hvalue, hvalue', Option.bind_some] at hty hname
    exact ⟨value, value', hvalue, hvalue', by simp [hkind, ValueKind.IsShared],
      by simp [hkind', ValueKind.IsShared], hty, fun _ => hname⟩
  | result f k l =>
    obtain ⟨i, inst, hi, hinst, rfl⟩ := ownAt?_result.1 hv
    obtain ⟨j, inst', hj, hinst', rfl⟩ := ownAt?_result.1 hw
    obtain ⟨inst₀, inst₀', hinst₀, hinst₀', hsame⟩ := h.sameInst hi hj
    obtain rfl := Option.some.inj (hinst.symm.trans hinst₀)
    obtain rfl := Option.some.inj (hinst'.symm.trans hinst₀')
    obtain ⟨value, hvalue, hkind⟩ := hm.intact.shaped.result i inst hinst
    obtain ⟨value', hvalue', hkind'⟩ := hn.intact.shaped.result j inst' hinst'
    have hty := (hm.typed i inst hinst).1
    have hty' := (hn.typed j inst' hinst').1
    have hname := hsame.name
    simp only [typeOf?, nameOf?, hvalue, hvalue', Option.map_some, Option.bind_some,
      Option.some.injEq] at hty hty' hname
    have hspec : inst'.ty = inst.ty := (congrArg InstSpec.ty hsame.spec :)
    exact ⟨value, value', hvalue, hvalue', by simp [hkind, ValueKind.IsShared],
      by simp [hkind', ValueKind.IsShared], by rw [hty, hty', hspec],
      fun hvoid => hname (hty ▸ hvoid)⟩

/-- Modules that are one program mirror each other. -/
theorem mirrors (h : m.SameProgram n) : (pairing hm hn).Mirrors m n where
  name := h.name
  sourceFilename := h.sourceFilename
  targetLines := h.targetLines
  globals := h.globals
  funcs := by
    refine forall₂_of_getElem? (by simp [h.functions]) fun k func func' hf hf' => ?_
    rw [Array.getElem?_toList] at hf hf'
    exact h.pairsFunc hm hn (f := ⟨k⟩) hf hf'
  blocks := by
    rintro b c ⟨⟨f, k⟩, hb, hc⟩
    exact h.pairsBlock hm hn hb hc
  insts := by
    rintro i j ⟨⟨f, k, l⟩, hi, hj⟩
    obtain ⟨inst, inst', hinst, hinst', hsame⟩ := h.sameInst hi hj
    rw [hinst, hinst']
    exact .some (pairsInst hm hn hi hj hinst hinst' hsame)
  shared := fun hshared => hshared
  own := by
    rintro v w ⟨p, hv, hw⟩
    exact h.pairsOwn hm hn hv hw

end SameProgram

end Module

end SsaFold
