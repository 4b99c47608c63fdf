import SsaFold.Proofs.Related
import SsaFold.Proofs.Text.Lookup

/-!
# Reading a body keeps a draft

`Body.Draft` is the invariant of a body that is being read.  A name stands for a value that can be
read in the function, or for a placeholder that is read in this function only; so the definition may
take its place.  No two names share a placeholder, and no two labels share a block.  A block that is
not yet placed still has a label, and so none is forgotten.
-/

namespace SsaFold.Text

lemma isNumbered_toString (n : Nat) : isNumbered (toString n) = true := by
  have htext : (toString n).toList = Nat.toDigits 10 n := by
    rw [Nat.toString_eq_repr, Nat.repr, String.toList_ofList]
  have hdigits : (Nat.toDigits 10 n).all Char.isDigit = true := by
    simpa using fun c hc => Nat.isDigit_of_mem_toDigits (by decide) (by decide) hc
  have hne : (Nat.toDigits 10 n).isEmpty = false := by simp [Nat.toDigits_ne_nil]
  rw [isNumbered, htext, hdigits, hne]
  rfl

lemma keptName_toString (n : Nat) : keptName (toString n) = none := by
  rw [keptName, if_pos (isNumbered_toString n)]

/-- The names of functions and globals stand for their addresses. -/
def Addresses (m : Module) (symbols : Symbols) : Prop :=
  ∀ (name : String) v, symbols[name]? = some v →
    (∃ f func, m.kind? v = some (.function f) ∧ m.func? f = some func) ∨
      ∃ g glob, m.kind? v = some (.global g) ∧ m.global? g = some glob

lemma Addresses.mono {m m' : Module} {symbols : Symbols} (h : Addresses m symbols)
    (hk : m.Keeps m') : Addresses m' symbols := by
  intro name v hv
  rcases h name v hv with ⟨f, func, hkind, hf⟩ | ⟨g, glob, hkind, hg⟩
  · obtain ⟨func', hf', -⟩ := hk.func hf
    exact .inl ⟨f, func', hk.kind? hkind, hf'⟩
  · exact .inr ⟨g, glob, hk.kind? hkind, hk.global hg⟩

namespace Body

variable {b b' : Body} {v : ValueId}

/-- A value that a name may stand for in function `f`: a parameter or result, which then has this
name, or a placeholder, which is then read in this function only. -/
structure Bound (m : Module) (f : FuncId) (name : String) (v : ValueId) : Prop where
  own : ∃ kind, m.kind? v = some kind ∧ ¬ kind.IsShared
  readable :
    (m.Visible f v ∧ ∀ value, m.value? v = some value → value.name = keptName name) ∨
      m.kind? v = some .placeholder ∧ ∀ i inst, m.inst? i = some inst →
        v ∈ inst.operandValues → m.owner? inst.parent = some f

/-- The invariant of a body that is being read. -/
structure Draft (b : Body) : Prop where
  wellFormed : b.WellFormed
  module : b.module.Draft
  addresses : Addresses b.module b.symbols
  values : ∀ (name : String) v, b.values[name]? = some v →
    Bound b.module b.func name v
  /-- A placeholder has one name. -/
  apart : ∀ (name name' : String) v, b.values[name]? = some v → b.values[name']? = some v →
    b.module.kind? v = some .placeholder → name = name'
  blocks : ∀ (label : String) c, b.blocks[label]? = some c →
    ∃ block, b.module.block? c = some block ∧ block.func = b.func ∧ block.name = keptName label
  /-- A block has one label. -/
  blocksApart : ∀ (label label' : String) c, b.blocks[label]? = some c →
    b.blocks[label']? = some c → label = label'
  /-- A block that is not placed has a label. -/
  known : ∀ c block, b.module.block? c = some block →
    c ∈ b.module.placedBlocks ∨ ∃ label : String, b.blocks[label]? = some c
  current : ∀ c, b.current = some c → b.module.owner? c = some b.func
  home : ∃ func, b.module.func? b.func = some func

/-- The counter does not matter. -/
lemma Draft.setNextSlot (h : b.Draft) (n : Nat) : Draft { b with nextSlot := n } :=
  ⟨h.wellFormed, h.module, h.addresses, h.values, h.apart, h.blocks, h.blocksApart, h.known,
    h.current, h.home⟩

lemma Draft.setTerminated (h : b.Draft) (t : Bool) : Draft { b with terminated := t } :=
  ⟨h.wellFormed, h.module, h.addresses, h.values, h.apart, h.blocks, h.blocksApart, h.known,
    h.current, h.home⟩

/-- The function of the body stays. -/
lemma Draft.home_of_keeps (h : b.Draft) {m : Module} (hk : b.module.Keeps m) :
    ∃ func, m.func? b.func = some func := by
  obtain ⟨func, hfunc⟩ := h.home
  obtain ⟨func', hfunc', -⟩ := hk.func hfunc
  exact ⟨func', hfunc'⟩

/-! ## Names -/

section Bound

variable {m m' : Module} {f : FuncId} {name : String}

lemma Bound.exists_value (h : Bound m f name v) : ∃ value, m.value? v = some value := by
  obtain ⟨kind, hkind, -⟩ := h.own
  obtain ⟨value, hv, -⟩ := Module.kind?_eq_some.1 hkind
  exact ⟨value, hv⟩

/-- A name can keep its value, if the name of the value stays, and no other function reads it. -/
lemma Bound.mono (h : Bound m f name v) (hk : m.Keeps m')
    (hname : ∀ value value', m.value? v = some value → m'.value? v = some value' →
      value'.name = value.name)
    (hreads : m.kind? v = some .placeholder → ∀ i inst', m'.inst? i = some inst' →
      v ∈ inst'.operandValues → m'.owner? inst'.parent = some f) : Bound m' f name v := by
  obtain ⟨value, hv⟩ := h.exists_value
  obtain ⟨kind, hkind, hown⟩ := h.own
  refine ⟨⟨kind, hk.kind? hkind, hown⟩, ?_⟩
  rcases h.readable with ⟨hvisible, hnamed⟩ | ⟨hplaceholder, -⟩
  · refine .inl ⟨hk.visible hvisible, fun value' hv' => ?_⟩
    rw [hname value value' hv hv', hnamed value hv]
  · exact .inr ⟨hk.kind? hplaceholder, hreads hplaceholder⟩

/-- The readers of a placeholder that has a name are in the function. -/
lemma Bound.owner? (h : Bound m f name v) (hkind : m.kind? v = some .placeholder) {i : InstId}
    {inst : Inst} (hi : m.inst? i = some inst) (hmem : v ∈ inst.operandValues) :
    m.owner? inst.parent = some f := by
  rcases h.readable with ⟨hvisible, -⟩ | ⟨-, hreads⟩
  · exact absurd hkind hvisible.not_placeholder
  · exact hreads i inst hi hmem

end Bound

/-- A value that an operand stands for can be read in the function, or it is a placeholder. -/
lemma Draft.readable (h : b.Draft) {a : TypedAtom} (ha : b.Denotes a v) :
    b.module.Visible b.func v ∨ b.module.kind? v = some .placeholder := by
  have hshared : ∀ {kind}, b.module.kind? v = some kind → kind.IsShared →
      b.module.Offers b.func v kind → b.module.Visible b.func v :=
    h.wellFormed.module.reachable.intact.shaped.visible_of_shared
  rcases a with ⟨ty, atom⟩
  cases atom with
  | localName name => exact (h.values name v ha).readable.imp And.left And.left
  | globalName name =>
    rcases h.addresses name v ha with ⟨f, func, hkind, hf⟩ | ⟨g, glob, hkind, hg⟩
    · exact .inl (hshared hkind trivial ⟨func, hf⟩)
    · exact .inl (hshared hkind trivial ⟨glob, hg⟩)
  | int n =>
    obtain ⟨bits, c, -, -, hkind⟩ := ha
    exact .inl (hshared hkind trivial trivial)
  | bool t =>
    obtain ⟨c, -, hkind⟩ := ha
    exact .inl (hshared hkind trivial trivial)
  | null => exact .inl (hshared ha trivial trivial)

/-! ## Lookups -/

lemma Lookup.grows (h : Lookup b b') (hb : b.WellFormed) : b.Grows b' := by
  cases h with
  | label _ => exact ⟨hb.module.createBlock _ _, rfl⟩
  | forward _ _ _ => exact ⟨(hb.module.placeholder _ _).1, rfl⟩
  | constant run => exact ⟨(hb.module.constInt run).1, rfl⟩
  | null => exact ⟨hb.module.null.1, rfl⟩

lemma getElem?_insert {β : Type} (map : Std.TreeMap String β) (name name' : String) (x : β) :
    (map.insert name x)[name']? = if name = name' then some x else map[name']? := by
  rw [Std.TreeMap.getElem?_insert]
  simp only [Std.compare_eq_iff_eq]

/-- What lookups leave alone keeps its value and its readers. -/
lemma Bound.widens {name : String} (h : Bound b.module b.func name v) (hw : b.Widens b') :
    Bound b'.module b'.func name v := by
  rw [hw.func]
  refine h.mono hw.module.keeps (fun value value' hv hv' => ?_) fun hkind i inst hi hmem => ?_
  · rw [Option.some.inj (hv'.symm.trans (hw.value hv))]
  · rw [Module.inst?, hw.insts] at hi
    exact hw.module.keeps.owner? (h.owner? hkind hi hmem)

/-- The parts of the invariant that a lookup keeps whatever it does. -/
lemma Draft.widens (h : b.Draft) (hw : b.Widens b') (hgrows : b.Grows b')
    (hmodule : b'.module.Draft)
    (hvalues : ∀ (name : String) v, b'.values[name]? = some v →
      b.values[name]? = some v ∨ Bound b'.module b'.func name v)
    (hapart : ∀ (name name' : String) v, b'.values[name]? = some v → b'.values[name']? = some v →
      b'.module.kind? v = some .placeholder → name = name')
    (hblocks : ∀ (label : String) c, b'.blocks[label]? = some c → b.blocks[label]? = some c ∨
      ∃ block, b'.module.block? c = some block ∧ block.func = b.func ∧
        block.name = keptName label)
    (hblocksApart : ∀ (label label' : String) c, b'.blocks[label]? = some c →
      b'.blocks[label']? = some c → label = label')
    (hknown : ∀ c block, b'.module.block? c = some block →
      (∃ block, b.module.block? c = some block) ∨
      ∃ label : String, b'.blocks[label]? = some c) : b'.Draft := by
  refine ⟨hgrows.wellFormed h.wellFormed, hmodule, ?_, fun name v hv => ?_, hapart,
    fun label c hc => ?_, hblocksApart, fun c block hc => ?_, fun c hc => ?_,
    hw.func ▸ h.home_of_keeps hw.module.keeps⟩
  · rw [hw.symbols]
    exact h.addresses.mono hw.module.keeps
  · rcases hvalues name v hv with hv | hbound
    · exact (h.values name v hv).widens hw
    · exact hbound
  · rw [hw.func]
    rcases hblocks label c hc with hc | hnew
    · obtain ⟨block, hblock, hfunc, hname⟩ := h.blocks label c hc
      exact ⟨block, hw.block hblock, hfunc, hname⟩
    · exact hnew
  · rcases hknown c block hc with ⟨block, hblock⟩ | hlabel
    · refine (h.known c block hblock).imp (fun hplaced => ?_) fun ⟨label, hlabel⟩ =>
        ⟨label, hw.blocks hlabel⟩
      rwa [Module.placedBlocks, hw.functions]
    · exact .inr hlabel
  · rw [hw.func]
    exact hw.module.keeps.owner? (h.current c (hw.current ▸ hc))

/-- A value that has a name was of the same kind before. -/
lemma Draft.kind?_of_keeps (h : b.Draft) {m : Module} (hk : b.module.Keeps m) {name : String}
    {kind : ValueKind} (hv : b.values[name]? = some v) (hkind : m.kind? v = some kind) :
    b.module.kind? v = some kind := by
  obtain ⟨value, hvalue⟩ := (h.values name v hv).exists_value
  obtain ⟨value', hvalue', heq, -⟩ := hk.value hvalue
  rw [← hkind, Module.kind?, Module.kind?, hvalue, hvalue', Option.map_some, Option.map_some, heq]

lemma Draft.share (h : b.Draft) {fresh : Value}
    (hgrows : b.Grows { b with module := (b.module.shareValue fresh).1 })
    (hmodule : (b.module.shareValue fresh).1.Draft) :
    Draft { b with module := (b.module.shareValue fresh).1 } := by
  have hw := widens_share b fresh
  refine h.widens hw hgrows hmodule (fun _ _ hv => .inl hv) (fun name name' v hv hv' hkind => ?_)
    (fun _ _ hc => .inl hc) h.blocksApart fun c block hc => .inl ⟨block, ?_⟩
  · exact h.apart name name' v hv hv' (h.kind?_of_keeps hw.module.keeps hv hkind)
  · have hblocks : (b.module.shareValue fresh).1.blocks = b.module.blocks := by
      rw [Module.shareValue]
      split <;> rfl
    exact (congrArg (·[c.index]?) hblocks).symm.trans hc

lemma Draft.lookup (h : b.Draft) (hstep : Lookup b b') : b'.Draft := by
  have hw := hstep.widens
  have hgrows := hstep.grows h.wellFormed
  cases hstep with
  | @label label unknown =>
    have hnew : (b.module.createBlock b.func (keptName label)).1.block? ⟨b.module.blocks.size⟩
        = some { name := keptName label, func := b.func } := Array.getElem?_push_size
    -- No label stands for a block that is not there yet.
    have hfresh : ∀ label' : String, b.blocks[label']? ≠ some ⟨b.module.blocks.size⟩ := by
      intro label' hlabel'
      obtain ⟨block, hblock, -⟩ := h.blocks label' _ hlabel'
      simp [Module.block?] at hblock
    refine h.widens hw hgrows (h.module.createBlock _ _) (fun _ _ hv => .inl hv) h.apart
      (fun label' c hc => ?_) (fun label₁ label₂ c hc₁ hc₂ => ?_) fun c block hc => ?_
    · rw [getElem?_insert] at hc
      split_ifs at hc with heq
      · obtain rfl := Option.some.inj hc
        exact .inr ⟨_, hnew, rfl, heq ▸ rfl⟩
      · exact .inl hc
    · simp only [getElem?_insert] at hc₁ hc₂
      split_ifs at hc₁ hc₂ with h₁ h₂ h₂
      · exact h₁.symm.trans h₂
      · exact absurd (Option.some.inj hc₁ ▸ hc₂) (hfresh _)
      · exact absurd (Option.some.inj hc₂ ▸ hc₁) (hfresh _)
      · exact h.blocksApart label₁ label₂ c hc₁ hc₂
    · by_cases hc' : c.index = b.module.blocks.size
      · exact .inr ⟨label, by rw [getElem?_insert, if_pos rfl, ← hc']⟩
      · left
        simp only [Module.block?, Module.createBlock, Array.getElem?_push, if_neg hc'] at hc
        exact ⟨block, hc⟩
  | @forward name ty unbound quotable readable =>
    have hnew := Module.value?_pushValue_self b.module
      { kind := .placeholder, ty, name := keptName name }
    have hfresh : ∀ name' : String, b.values[name']? ≠ some ⟨b.module.values.size⟩ := by
      intro name' hname'
      obtain ⟨value, hv⟩ := (h.values name' _ hname').exists_value
      simp [Module.value?] at hv
    refine h.widens hw hgrows
      (h.module.pushValue readable (nameable_keptName quotable)) (fun name' v hv => ?_)
      (fun name₁ name₂ v hv₁ hv₂ hkind => ?_) (fun _ _ hc => .inl hc) h.blocksApart
      fun c block hc => .inl ⟨block, hc⟩
    · rw [getElem?_insert] at hv
      split_ifs at hv with heq
      · obtain rfl := Option.some.inj hv
        have hkind := Module.kind?_eq_some.2 ⟨_, hnew, rfl⟩
        refine .inr ⟨⟨_, hkind, id⟩, .inr ⟨hkind, fun i inst hi hmem => ?_⟩⟩
        -- Nothing reads a value that is not there yet.
        obtain ⟨value, hv⟩ := h.wellFormed.module.typed.exists_value hi hmem
        simp [Module.value?] at hv
      · exact .inl hv
    · simp only [getElem?_insert] at hv₁ hv₂
      split_ifs at hv₁ hv₂ with h₁ h₂ h₂
      · exact h₁.symm.trans h₂
      · exact absurd (Option.some.inj hv₁ ▸ hv₂) (hfresh _)
      · exact absurd (Option.some.inj hv₂ ▸ hv₁) (hfresh _)
      · exact h.apart name₁ name₂ v hv₁ hv₂ (h.kind?_of_keeps hw.module.keeps hv₁ hkind)
  | constant run =>
    obtain ⟨c, -, rfl, -⟩ := Module.constInt_eq_share run
    exact h.share hgrows (h.module.shareValue ⟨c.bits_pos, c.bits_le⟩ nameable_none)
  | null => exact h.share hgrows (h.module.shareValue trivial nameable_none)

lemma Draft.lookups (h : b.Draft) (hsteps : Lookups b b') : b'.Draft := by
  induction hsteps with
  | refl => exact h
  | tail _ hstep ih => exact ih.lookup hstep

/-! ## Blocks -/

/-- A placement adds one block to those that are placed. -/
lemma mem_placedBlocks_placeBlock {m m' : Module} {c : BlockId} (hrun : m.placeBlock c = .ok m')
    (d : BlockId) : d ∈ m'.placedBlocks ↔ d ∈ m.placedBlocks ∨ d = c := by
  obtain ⟨block, func, -, hf, -, rfl⟩ := Module.placeBlock_eq_ok hrun
  simp only [Module.mem_placedBlocks, Module.func?_modifyFunc]
  constructor
  · rintro ⟨f, fn, hfn, hd⟩
    split_ifs at hfn with hfunc
    · obtain ⟨fn₀, hfn₀, rfl⟩ := Option.map_eq_some_iff.1 hfn
      exact (Array.mem_push.1 hd).imp_left fun hd => ⟨f, fn₀, hfn₀, hd⟩
    · exact .inl ⟨f, fn, hfn, hd⟩
  · rintro (⟨f, fn, hfn, hd⟩ | rfl)
    · by_cases hfunc : block.func = f
      · exact ⟨f, _, by rw [if_pos hfunc, hfn]; rfl, Array.mem_push.2 (.inl hd)⟩
      · exact ⟨f, fn, by rw [if_neg hfunc, hfn], hd⟩
    · exact ⟨block.func, _, by rw [if_pos rfl, hf]; rfl, Array.mem_push_self⟩

lemma Begins.draft {label : String} {c : BlockId} (hbegins : Begins label c b b') (h : b.Draft)
    (hlabel : IsLabel label) : b'.Draft := by
  obtain ⟨n, b₁, m, hlookups, hc, hplace, rfl⟩ := hbegins.looked
  have h₁ := (h.setNextSlot n).lookups hlookups
  obtain ⟨block, hblock, hfunc, hname⟩ := h₁.blocks label c hc
  have howner := Module.owner?_eq_some.2 ⟨block, hblock, hfunc⟩
  have hk := (Module.Extends.placeBlock hplace howner).keeps
  refine ⟨h₁.wellFormed.grows (h₁.wellFormed.module.placeBlock hplace), ?_,
    h₁.addresses.mono hk, fun name v hv => ?_, fun name name' v hv hv' hkind => ?_,
    fun label' d hd => ?_, h₁.blocksApart, fun d block' hd => ?_, fun d hd => ?_,
    h₁.home_of_keeps hk⟩
  · refine h₁.module.placeBlock hplace fun block' hblock' s hs => ?_
    obtain rfl := Option.some.inj (hblock.symm.trans hblock')
    obtain ⟨rfl, hnumbered⟩ := keptName_eq_some.1 (hname.symm.trans hs)
    exact hlabel.resolve_right (by simp [hnumbered])
  all_goals obtain ⟨block', func, -, -, -, rfl⟩ := Module.placeBlock_eq_ok hplace
  · refine (h₁.values name v hv).mono hk (fun value value' hv hv' => ?_)
      fun hkind i inst hi hmem => ?_
    · rw [Option.some.inj (hv'.symm.trans hv)]
    · exact (h₁.values name v hv).owner? hkind hi hmem
  · exact h₁.apart name name' v hv hv' hkind
  · exact h₁.blocks label' d hd
  · exact (h₁.known d _ hd).imp_left fun hplaced =>
      (mem_placedBlocks_placeBlock hplace d).2 (.inl hplaced)
  · obtain rfl := Option.some.inj hd
    exact howner

/-! ## Instructions -/

/-- A callee is a name, and no name stands for the null pointer. -/
lemma Draft.kind?_callee (h : b.Draft) {op : Operation} (hop : op.Valid) {vs : List ValueId}
    (hvs : List.Forall₂ b.Denotes op.operands vs) (hcall : op.opcode = .call)
    (hv : vs.getLast? = some v) : ∃ kind, b.module.kind? v = some kind ∧ kind ≠ .null := by
  cases op with
  | call ty callee args =>
    have hname := hop.callee ty callee args rfl
    have hrev := List.forall₂_reverse_iff.2 hvs
    rw [Operation.operands, List.reverse_append, List.reverse_singleton] at hrev
    rw [← List.head?_reverse] at hv
    cases hrev' : vs.reverse with
    | nil => simp [hrev'] at hv
    | cons w rest =>
      rw [hrev'] at hrev hv
      obtain rfl := Option.some.inj hv
      have hdenotes := (List.forall₂_cons.1 hrev).1
      cases callee with
      | localName name =>
        obtain ⟨kind, hkind, hown⟩ := (h.values name w hdenotes).own
        exact ⟨kind, hkind, fun hnull => hown (hnull ▸ trivial)⟩
      | globalName name =>
        rcases h.addresses name w hdenotes with ⟨f, func, hkind, -⟩ | ⟨g, glob, hkind, -⟩
        · exact ⟨_, hkind, by simp⟩
        · exact ⟨_, hkind, by simp⟩
      | _ => exact hname.elim
  | _ => simp [Operation.opcode] at hcall

section Emit

variable {c : BlockId} {s : Statement} {vs : List ValueId} {cs : List BlockId} {m : Module}
  {i : InstId}

lemma Draft.emit (h : b.Draft) (hc : b.module.owner? c = some b.func) (hs : s.Valid)
    (hvs : List.Forall₂ b.Denotes s.operation.operands vs)
    (hcs : List.Forall₂ b.Labels s.operation.labels cs)
    (hrun : b.module.appendInst c (s.operation.spec s.align cs) vs = .ok (m, i))
    (hm : WellFormed { b with module := m }) : Draft { b with module := m } := by
  have hk := (Module.Extends.appendInst hrun hc).keeps
  have hreadable : ∀ v ∈ vs, b.module.Visible b.func v ∨ b.module.kind? v = some .placeholder := by
    intro v hv
    obtain ⟨a, -, hdenotes⟩ := exists_mem_of_forall₂ hvs v hv
    exact h.readable hdenotes
  have htargets : ∀ d ∈ cs, b.module.owner? d = some b.func := by
    intro d hd
    obtain ⟨label, -, hlabel⟩ := exists_mem_of_forall₂ hcs d hd
    obtain ⟨block, hblock, hfunc, -⟩ := h.blocks label d hlabel
    exact Module.owner?_eq_some.2 ⟨block, hblock, hfunc⟩
  refine ⟨hm, ?_, h.addresses.mono hk, fun name v hv => ?_, fun name name' v hv hv' hkind => ?_,
    fun label d hd => ?_, h.blocksApart, fun d block hd => ?_,
    fun d hd => hk.owner? (h.current d hd), h.home_of_keeps hk⟩
  · exact h.module.appendInst hrun hc hreadable htargets ⟨s, hs, rfl, hcs.length_eq.symm⟩
      fun hcall v hv => h.kind?_callee hs.operation hvs hcall hv
  · refine (h.values name v hv).mono hk (fun value value' hv hv' => ?_)
      fun hkind j inst' hj hmem => ?_
    · obtain ⟨value'', hv'', heq⟩ := Module.value?_appendInst hrun hv
      obtain rfl := Option.some.inj (hv'.symm.trans hv'')
      exact (congrArg Value.name heq : _)
    · rcases Module.inst?_of_appendInst hrun hj with rfl | ⟨inst, hinst, heq⟩
      · obtain ⟨-, -, rfl, -⟩ := Module.inst?_appendInst hrun hj
        exact hk.owner? hc
      · rw [Inst.operandValues_eq_of_bare heq] at hmem
        rw [Inst.parent_eq_of_bare heq]
        exact hk.owner? ((h.values name v hv).owner? hkind hinst hmem)
  · exact h.apart name name' v hv hv' (h.kind?_of_keeps hk hv hkind)
  · obtain ⟨block, hblock, hfunc, hname⟩ := h.blocks label d hd
    obtain ⟨block', hblock', hname', hfunc'⟩ := hk.block hblock
    exact ⟨block', hblock', hfunc'.trans hfunc, hname'.trans hname⟩
  · have hold : ∃ block, b.module.block? d = some block := by
      rw [Module.block?_appendInst hrun] at hd
      split_ifs at hd
      · obtain ⟨block, hblock, -⟩ := Option.map_eq_some_iff.1 hd
        exact ⟨block, hblock⟩
      · exact ⟨block, hd⟩
    obtain ⟨block, hblock⟩ := hold
    refine (h.known d block hblock).imp_left fun hplaced => ?_
    rwa [Module.placedBlocks, Module.functions_appendInst hrun]

end Emit

section Bind

variable {i : InstId} {name : String} {u : Unit}

/-- Only the placeholder of the name is renamed. -/
lemma Resolves.moved {m : Module} (h : b.Resolves name v m) (w : ValueId) :
    b.rebinding name v w = w ∨
      b.values[name]? = some w ∧ b.module.kind? w = some .placeholder ∧
        b.rebinding name v w = v := by
  rw [rebinding]
  split_ifs with hw
  · rcases h with ⟨hnone, -⟩ | ⟨old, n, hold, hplaceholder, -⟩
    · simp [hnone] at hw
    · obtain rfl := Option.some.inj (hold.symm.trans hw)
      exact .inr ⟨hw, hplaceholder, rfl⟩
  · exact .inl rfl

section Resolves

variable {m m' : Module} (h : b.Draft) (hkind : b.module.kind? v = some (.inst i))
  (hresolves : b.Resolves name v m)

include h hkind hresolves

/-- Where the placeholder was read, the result can be read. -/
lemma Draft.module_of_resolves (hv : b.module.Visible b.func v) : m.Draft := by
  obtain ⟨hbare, hextends⟩ := hresolves.bare h.wellFormed (by simp [hkind])
  refine h.module.of_residue hbare (fun j inst _ hj f hf w hw hreadable => ?_)
    fun j inst hj hcall w hw => ?_
  · rcases hresolves.moved w with heq | ⟨hw', hplaceholder, heq⟩ <;> rw [heq]
    · exact hreadable.imp hextends.keeps.visible hextends.keeps.kind?
    · obtain rfl :=
        Option.some.inj (((h.values name w hw').owner? hplaceholder hj hw).symm.trans hf)
      exact .inl (hextends.keeps.visible hv)
  · rcases hresolves.moved w with heq | ⟨-, -, heq⟩ <;> rw [heq]
    · exact (h.module.insts j inst hj).callee hcall w hw
    · exact ⟨_, hkind, by simp⟩

/-- What is bound to a name stays bound to it. -/
lemma Draft.bound_of_resolves (hfresh : ∀ name : String, b.values[name]? ≠ some v)
    {given : Option String} (hset : m.setValueName v given = .ok m') {name' : String} {w : ValueId}
    (hw : b.values[name']? = some w) : Bound m' b.func name' w := by
  have hne : b.module.kind? v ≠ some .placeholder := by simp [hkind]
  obtain ⟨hbare, hextends⟩ := hresolves.bare h.wellFormed hne
  have hk := hextends.keeps.setValueName hset
  refine (h.values name' w hw).mono hk (fun value value' hv₀ hv' => ?_)
    fun hplaceholder j inst' hj hmem => ?_
  · have hvw : v ≠ w := by
      rintro rfl
      exact hfresh name' hw
    rw [(Module.setValueName_eq_ok hset).2, if_neg hvw] at hv'
    have heq := Module.value?_of_residue hbare w
    rw [hv₀, hv', Option.map_some, Option.map_some, Option.some.injEq] at heq
    exact (congrArg Value.name heq : _)
  · have hinst' : m'.inst? j = m.inst? j := (Module.setValueName_eq_ok hset).1 ▸ rfl
    rw [hinst'] at hj
    obtain ⟨-, inst, hinst, heq⟩ := Module.inst?_of_residue hbare hj
    rw [Inst.operandValues_eq_of_bare heq, Inst.operandValues_rename, List.mem_map] at hmem
    obtain ⟨x, hx, hxw⟩ := hmem
    rw [Inst.parent_eq_of_bare heq, Inst.parent_rename]
    rcases hresolves.moved x with hsame | ⟨-, -, hsent⟩
    · obtain rfl := hsame.symm.trans hxw
      exact hk.owner? ((h.values name' x hw).owner? hplaceholder hinst hx)
    · obtain rfl := hsent.symm.trans hxw
      exact absurd hplaceholder hne

end Resolves

/-- A result takes the place of the placeholder of its name. -/
lemma Draft.nameResult (h : b.Draft) (hv : b.module.Visible b.func v)
    (hkind : b.module.kind? v = some (.inst i)) (hfresh : ∀ name : String, b.values[name]? ≠ some v)
    (hname : Quotable name) (hrun : nameResult name v b = .ok (u, b')) : b'.Draft := by
  have hgrows := nameResult_grows h.wellFormed hrun
  obtain ⟨m, m', n, hresolves, hset, rfl⟩ := nameResult_eq_ok hrun
  obtain ⟨hbare, hextends⟩ := hresolves.bare h.wellFormed (by simp [hkind])
  have hk := hextends.keeps.setValueName hset
  have hm := h.module_of_resolves hkind hresolves hv
  refine ⟨hgrows.wellFormed h.wellFormed, hm.setValueName hset (nameable_keptName hname),
    h.addresses.mono hk, fun name' w hw => ?_, fun name₁ name₂ w hw₁ hw₂ hplaceholder => ?_,
    fun label d hd => ?_, h.blocksApart, fun d block hd => ?_,
    fun d hd => hk.owner? (h.current d hd), h.home_of_keeps hk⟩
  · rw [getElem?_insert] at hw
    split_ifs at hw with heq
    · obtain rfl := Option.some.inj hw
      refine ⟨⟨_, hk.kind? hkind, id⟩, .inl ⟨hk.visible hv, fun value hvalue => ?_⟩⟩
      rw [(Module.setValueName_eq_ok hset).2, if_pos rfl, Option.map_eq_some_iff] at hvalue
      obtain ⟨_, -, rfl⟩ := hvalue
      rw [heq]
    · exact h.bound_of_resolves hkind hresolves hfresh hset hw
  · have hv' : m'.kind? v ≠ some .placeholder := by simp [hk.kind? hkind]
    simp only [getElem?_insert] at hw₁ hw₂
    split_ifs at hw₁ hw₂ with h₁ h₂ h₂
    · exact h₁.symm.trans h₂
    · exact absurd (Option.some.inj hw₁ ▸ hplaceholder) hv'
    · exact absurd (Option.some.inj hw₂ ▸ hplaceholder) hv'
    · exact h.apart name₁ name₂ w hw₁ hw₂ (h.kind?_of_keeps hk hw₁ hplaceholder)
  · obtain ⟨block, hblock, hfunc, hlabel⟩ := h.blocks label d hd
    obtain ⟨block', hblock', hname', hfunc'⟩ := hk.block hblock
    exact ⟨block', hblock', hfunc'.trans hfunc, hname'.trans hlabel⟩
  · have hblocks : m'.block? d = m.block? d := (Module.setValueName_eq_ok hset).1 ▸ rfl
    have hfuncs : m'.functions = m.functions := (Module.setValueName_eq_ok hset).1 ▸ rfl
    rw [hblocks, Module.block?_of_residue hbare, Option.map_eq_some_iff] at hd
    obtain ⟨block₀, hblock₀, -⟩ := hd
    refine (h.known d block₀ hblock₀).imp_left fun hplaced => ?_
    rwa [Module.placedBlocks, hfuncs, Module.functions_of_residue hbare]

/-- A number can stand for a result, also if a placeholder had it. -/
lemma Draft.numberResult (h : b.Draft) (hv : b.module.Visible b.func v)
    (hkind : b.module.kind? v = some (.inst i))
    (hname : ∀ value, b.module.value? v = some value → value.name = none)
    (hrun : numberResult v b = .ok (u, b')) : b'.Draft := by
  have hgrows := numberResult_grows h.wellFormed hrun
  obtain ⟨n, rfl⟩ := numberResult_eq_ok hrun
  have hne : b.module.kind? v ≠ some .placeholder := by simp [hkind]
  refine ⟨hgrows.wellFormed h.wellFormed, h.module, h.addresses, fun name w hw => ?_,
    fun name₁ name₂ w hw₁ hw₂ hplaceholder => ?_, h.blocks, h.blocksApart, h.known, h.current,
    h.home⟩
  · rw [getElem?_insert] at hw
    split_ifs at hw with heq
    · obtain rfl := Option.some.inj hw
      refine ⟨⟨_, hkind, id⟩, .inl ⟨hv, fun value hvalue => ?_⟩⟩
      rw [hname value hvalue, ← heq, keptName_toString]
    · exact h.values name w hw
  · simp only [getElem?_insert] at hw₁ hw₂
    split_ifs at hw₁ hw₂ with h₁ h₂ h₂
    · exact h₁.symm.trans h₂
    · exact absurd (Option.some.inj hw₁ ▸ hplaceholder) hne
    · exact absurd (Option.some.inj hw₂ ▸ hplaceholder) hne
    · exact h.apart name₁ name₂ w hw₁ hw₂ hplaceholder

end Bind

/-! ## Lines -/

lemma isLabel_toString (n : Nat) : IsLabel (toString n) := .inr (isNumbered_toString n)

/-- The block to which an instruction is appended belongs to the function. -/
lemma Draft.openBlock (h : b.Draft) {c : BlockId} (hrun : openBlock b = .ok (c, b')) :
    b'.Draft ∧ b'.module.owner? c = some b'.func := by
  rcases openBlock_eq_ok hrun with ⟨hopen, rfl⟩ | ⟨-, hbegins⟩
  · exact ⟨h, h.current c hopen.1⟩
  · have h' := hbegins.draft h (isLabel_toString _)
    obtain ⟨n, b₁, m, -, -, -, rfl⟩ := hbegins.looked
    exact ⟨h', h'.current c rfl⟩

lemma Draft.instruction (h : b.Draft) {ts : List Token} (hts : ∀ t ∈ ts, t.Valid) {u : Unit}
    (hrun : instruction ts b = .ok (u, b')) : b'.Draft := by
  obtain ⟨name, op, s, hparses, c, b₁, b₂, vs, cs, m, i, inst, b₄, hopen, hlookups, hvs, hcs,
    happend, hwell, hinst, hbinds, rfl⟩ := instruction_eq_ok hts hrun
  obtain ⟨hname, hs, hop, hvoid⟩ := hparses.valid hts
  obtain ⟨h₁, hc⟩ := h.openBlock hopen
  have h₂ := h₁.lookups hlookups
  have hw := hlookups.widens
  have hc₂ : b₂.module.owner? c = some b₂.func := hw.func ▸ hw.module.keeps.owner? hc
  have h₃ := h₂.emit hc₂ hs hvs hcs happend (hwell h.wellFormed)
  have hk := (Module.Extends.appendInst happend hc₂).keeps
  obtain ⟨hspec, -, hparent, hnew, value, hvalue, hkind, hty, hunnamed⟩ :=
    Module.inst?_appendInst happend hinst
  have hkind' := Module.kind?_eq_some.2 ⟨value, hvalue, hkind⟩
  have hvisible : inst.ty ≠ .void → m.Visible b₂.func inst.result := fun hne =>
    ⟨value, hvalue, by rwa [hty, ← hspec],
      hkind ▸ ⟨inst, hinst, rfl, hparent ▸ hk.owner? hc₂⟩⟩
  refine Draft.setTerminated ?_ _
  cases name with
  | some name =>
    have hne : inst.ty ≠ .void := hspec ▸ hvoid rfl
    refine h₃.nameResult (hvisible hne) hkind' (fun name' hname' => ?_) (hname name rfl) hbinds
    -- The result is new, so it has no name yet.
    obtain ⟨value', hvalue'⟩ := (h₂.values name' _ hname').exists_value
    simp [hnew] at hvalue'
  | none =>
    simp only [Binds] at hbinds
    split_ifs at hbinds with hne
    · exact hbinds ▸ h₃
    · refine h₃.numberResult (hvisible hne) hkind' (fun value' hvalue' => ?_) hbinds
      obtain rfl := Option.some.inj (hvalue.symm.trans hvalue')
      exact hunnamed

/-- A line keeps a draft. -/
lemma Draft.line (h : b.Draft) {ts : List Token} (hts : ∀ t ∈ ts, t.Valid) {u : Unit}
    (hrun : line ts b = .ok (u, b')) : b'.Draft := by
  unfold Body.line at hrun
  split at hrun
  · obtain ⟨c, hbegins⟩ := beginBlock_eq_ok hrun
    exact hbegins.draft h (hts _ List.mem_cons_self)
  · simp at hrun
  · exact h.instruction hts hrun

end Body
end SsaFold.Text
