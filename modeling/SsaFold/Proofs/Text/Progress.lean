import SsaFold.Proofs.Text.Bodies
import SsaFold.Proofs.Text.Chapter

/-!
# Reading a body that is written out

The lines of a chapter say where each block begins and how each result is called.  While they are
read, the function holds the paragraphs that have been read (`Body.Progress`): a label adds a
paragraph (`Progress.label`), and an instruction line adds an entry to the last one
(`Progress.entry`).

A step may send the reads of a placeholder elsewhere, and the scope of the body goes with it
(`Body.Moves`).
-/

namespace SsaFold.Text.Body

open SsaFold.Module

variable {b b' : Body} {s : ValueId → ValueId}

/-! ## Scopes that move -/

/-- What the names met so far stand for. -/
def scope (b : Body) : Scope := ⟨b.Denotes, b.Labels⟩

/-- What a name stands for in the first body it stands for in the second, renamed. -/
structure Moves (s : ValueId → ValueId) (b b' : Body) : Prop where
  module : ∃ g, b.module.Extends g s b'.module
  denotes : ∀ {a v}, b.Denotes a v → b'.Denotes a (s v)
  labels : ∀ {l c}, b.Labels l c → b'.Labels l c

/-- Operands that are no local names stand for what they did. -/
lemma denotes_of_extends {g : FuncId} (hm : b.module.Extends g s b'.module)
    (hsymbols : b'.symbols = b.symbols) (haddresses : Addresses b.module b.symbols)
    (hvalues : ∀ (name : String) v, b.values[name]? = some v → b'.values[name]? = some (s v))
    {a : TypedAtom} {v : ValueId} (ha : b.Denotes a v) : b'.Denotes a (s v) := by
  have hkind : ∀ kind, b.module.kind? v = some kind → kind ≠ .placeholder →
      s v = v ∧ b'.module.kind? v = some kind := fun kind hkind hne =>
    ⟨hm.fixed hkind hne, hm.keeps.kind? hkind⟩
  obtain ⟨ty, atom⟩ := a
  cases atom with
  | localName name => exact hvalues name v ha
  | globalName name =>
    have hbound : b.symbols[name]? = some v := ha
    have hfixed : s v = v := by
      rcases haddresses name v hbound with ⟨f, -, hk, -⟩ | ⟨g, -, hk, -⟩
      · exact (hkind _ hk (by simp)).1
      · exact (hkind _ hk (by simp)).1
    show b'.symbols[name]? = some (s v)
    rw [hsymbols, hfixed]
    exact hbound
  | int n =>
    obtain ⟨bits, c, hty, hc, hk⟩ := ha
    obtain ⟨hfixed, hk'⟩ := hkind _ hk (by simp)
    exact ⟨bits, c, hty, hc, by rwa [hfixed]⟩
  | bool t =>
    obtain ⟨c, hc, hk⟩ := ha
    obtain ⟨hfixed, hk'⟩ := hkind _ hk (by simp)
    exact ⟨c, hc, by rwa [hfixed]⟩
  | null =>
    obtain ⟨hfixed, hk'⟩ := hkind _ ha (by simp)
    show b'.module.kind? (s v) = some .null
    rwa [hfixed]

lemma Widens.moves (h : b.Widens b') : Moves id b b' :=
  ⟨⟨_, h.module⟩, fun ha => h.denotes ha, fun hl => h.blocks hl⟩

/-- A name stays what it is, unless it is that of a value that is new. -/
lemma nameOf?_of_extends {m m' : Module} {g : FuncId} (hm : m.Extends g s m') {v : ValueId}
    {value : Value} (hv : m.value? v = some value) : m'.nameOf? v = m.nameOf? v := by
  obtain ⟨value', hv', -, -, hname⟩ := hm.value hv
  simp [nameOf?, hv, hv', hname]

section Extends

variable {m m' : Module} {g : FuncId} {S T : Scope}

/-- An instruction holds its line on, under a scope into which what it reads is renamed.  Its result
is not. -/
lemma holdsEntry_of_extends (hm : m.Extends g s m')
    (hdenotes : ∀ {a v}, S.denotes a v → T.denotes a (s v))
    (hlabels : ∀ {l c}, S.labels l c → T.labels l c) (h : m.Shaped) {i : InstId} {inst : Inst}
    {e : Entry} (hi : m.inst? i = some inst) (hentry : m.HoldsEntry S inst e) :
    ∃ inst', m'.inst? i = some inst' ∧ m'.HoldsEntry T inst' e := by
  obtain ⟨value, hvalue, hkind⟩ := h.result i inst hi
  have hfixed : s inst.result = inst.result :=
    hm.fixed (kind?_eq_some.2 ⟨value, hvalue, hkind⟩) (by simp)
  obtain ⟨inst', hi', hbare⟩ := hm.inst hi
  have hspec : inst'.toInstSpec = inst.toInstSpec :=
    (Inst.toInstSpec_eq_of_bare hbare).trans (inst.toInstSpec_rename s)
  have htargets : inst'.targets = inst.targets := congrArg InstSpec.targets hspec
  have hty : inst'.ty = inst.ty := congrArg InstSpec.ty hspec
  have hresult' : inst'.result = inst.result :=
    (Inst.result_eq_of_bare hbare).trans (inst.result_rename s)
  refine ⟨inst', hi', ?_, ?_, ?_, fun n hn => ?_⟩
  · rw [hspec]
    exact hentry.spec
  · rw [Inst.operandValues_eq_of_bare hbare, Inst.operandValues_rename]
    exact List.forall₂_map_right_iff.2 (hentry.operands.imp fun _ _ ha => hdenotes ha)
  · rw [htargets]
    exact hentry.targets.imp fun _ _ hl => hlabels hl
  · obtain ⟨hbound, hname⟩ := hentry.result n hn
    rw [hresult', hty, nameOf?_of_extends hm hvalue]
    have hmoved := hdenotes hbound
    rw [hfixed] at hmoved
    exact ⟨hmoved, hname⟩

lemma holdsEntries_of_extends (hm : m.Extends g s m')
    (hdenotes : ∀ {a v}, S.denotes a v → T.denotes a (s v))
    (hlabels : ∀ {l c}, S.labels l c → T.labels l c) (h : m.Shaped) {is : List InstId}
    {es : List Entry}
    (hes : List.Forall₂ (fun i e => ∃ inst, m.inst? i = some inst ∧ m.HoldsEntry S inst e) is es) :
    List.Forall₂ (fun i e => ∃ inst, m'.inst? i = some inst ∧ m'.HoldsEntry T inst e) is es := by
  refine hes.imp fun i e => ?_
  rintro ⟨inst, hi, hentry⟩
  exact holdsEntry_of_extends hm hdenotes hlabels h hi hentry

lemma holdsParagraph_of_extends (hm : m.Extends g s m')
    (hdenotes : ∀ {a v}, S.denotes a v → T.denotes a (s v))
    (hlabels : ∀ {l c}, S.labels l c → T.labels l c) (h : m.Shaped) {c : BlockId} {p : Paragraph}
    (hblock : ∀ block, m.block? c = some block → m'.block? c = some block)
    (hp : m.HoldsParagraph S c p) : m'.HoldsParagraph T c p := by
  obtain ⟨block, hb, hname, hentries⟩ := hp.block
  exact ⟨⟨block, hblock block hb, hname, holdsEntries_of_extends hm hdenotes hlabels h hentries⟩,
    fun l hl => hlabels (hp.label l hl)⟩

end Extends

lemma Draft.shaped (h : b.Draft) : b.module.Shaped := h.wellFormed.module.reachable.intact.shaped

/-- Results are not renamed, and so instructions hold their lines on. -/
lemma Moves.holdsEntries (hm : Moves s b b') (h : b.module.Shaped) {is : List InstId}
    {es : List Entry} (hes : List.Forall₂ (fun i e => ∃ inst, b.module.inst? i = some inst ∧
      b.module.HoldsEntry b.scope inst e) is es) :
    List.Forall₂ (fun i e => ∃ inst, b'.module.inst? i = some inst ∧
      b'.module.HoldsEntry b'.scope inst e) is es := by
  obtain ⟨g, hextends⟩ := hm.module
  exact holdsEntries_of_extends hextends (T := b'.scope) (fun ha => hm.denotes ha)
    (fun hl => hm.labels hl) h hes

lemma Moves.holdsParagraph (hm : Moves s b b') (h : b.module.Shaped) {c : BlockId} {p : Paragraph}
    (hblock : ∀ block, b.module.block? c = some block → b'.module.block? c = some block)
    (hp : b.module.HoldsParagraph b.scope c p) : b'.module.HoldsParagraph b'.scope c p := by
  obtain ⟨g, hextends⟩ := hm.module
  exact holdsParagraph_of_extends hextends (T := b'.scope) (fun ha => hm.denotes ha)
    (fun hl => hm.labels hl) h hblock hp

/-! ## What has been read -/

/-- The last instruction that has been read is a terminator. -/
def ended (ps : List Paragraph) : Bool :=
  (ps.getLast?.bind (·.entries.getLast?)).any (·.statement.operation.opcode.isTerminator)

/-- The name stands for a value for good. -/
def Settled (b : Body) (name : String) (v : ValueId) : Prop :=
  b.values[name]? = some v ∧ ∃ kind, b.module.kind? v = some kind ∧ kind ≠ .placeholder

lemma Settled.moves {name : String} {v : ValueId} (h : b.Settled name v) (hm : Moves s b b') :
    b'.Settled name v := by
  obtain ⟨hv, kind, hkind, hne⟩ := h
  obtain ⟨g, hextends⟩ := hm.module
  have hbound : b.Denotes ⟨.void, .localName name⟩ v := hv
  have hmoved := hm.denotes hbound
  rw [hextends.fixed hkind hne] at hmoved
  exact ⟨hmoved, kind, hextends.keeps.kind? hkind, hne⟩

/-- The paragraphs have been read, and the names that were given to begin with are settled. -/
structure Progress (given : String → ValueId → Prop) (b : Body) (ps : List Paragraph) : Prop where
  draft : b.Draft
  given : ∀ name v, given name v → b.Settled name v
  holds : ∀ func, b.module.func? b.func = some func →
    List.Forall₂ (b.module.HoldsParagraph b.scope) func.layout.toList ps ∧
      b.current = func.layout.toList.getLast?
  /-- A block that is only mentioned is empty. -/
  idle : ∀ c block, b.module.block? c = some block → c ∉ b.module.placedBlocks → block.insts = #[]
  terminated : b.terminated = ended ps

variable {ps : List Paragraph} {given : String → ValueId → Prop}

lemma Progress.setNextSlot (h : Progress given b ps) (n : Nat) :
    Progress given { b with nextSlot := n } ps :=
  ⟨h.draft.setNextSlot n, h.given, h.holds, h.idle, h.terminated⟩

/-- A block that is met for the first time is empty. -/
lemma Lookups.block? (h : Lookups b b') {c : BlockId} {block : Block}
    (hc : b'.module.block? c = some block) :
    b.module.block? c = some block ∨ block.insts = #[] := by
  induction h with
  | refl => exact .inl hc
  | tail _ hstep ih =>
    cases hstep with
    | label unknown =>
      rw [Module.block?, createBlock, Array.getElem?_push] at hc
      split_ifs at hc
      · obtain rfl := Option.some.inj hc
        exact .inr rfl
      · exact ih hc
    | forward => exact ih hc
    | constant run =>
      obtain ⟨_, -, rfl, -⟩ := Module.constInt_eq_share run
      refine ih ?_
      rw [← hc, shareValue]
      split <;> rfl
    | null =>
      refine ih ?_
      rw [← hc, Module.null, shareValue]
      split <;> rfl

/-- Looking names up reads nothing. -/
lemma Progress.lookups (h : Progress given b ps) (hl : Lookups b b') : Progress given b' ps := by
  have hw := hl.widens
  refine ⟨h.draft.lookups hl, fun name v hv => (h.given name v hv).moves hw.moves, fun func hf =>
    ?_, fun c block hc hplaced => ?_, ?_⟩
  · have hf' : b.module.func? b.func = some func := by
      rwa [func?, hw.functions, hw.func] at hf
    obtain ⟨hholds, hcurrent⟩ := h.holds func hf'
    refine ⟨hholds.imp fun c p hp => ?_, hw.current.trans hcurrent⟩
    exact hw.moves.holdsParagraph h.draft.shaped (fun _ hb => hw.block hb) hp
  · rcases hl.block? hc with hold | hempty
    · refine h.idle c block hold ?_
      rwa [placedBlocks, hw.functions] at hplaced
    · exact hempty
  · exact hw.terminated.trans h.terminated

lemma ended_concat_nil (label : Option String) : ended (ps ++ [⟨label, []⟩]) = false := by
  simp [ended]

/-- A block begins with no lines but its label. -/
lemma Progress.begins (h : Progress given b ps) {l : String} {c : BlockId}
    (hbegins : Begins l c b b') (hl : IsLabel l) {label : Option String}
    (hlabel : label = some l ∨ label = none ∧ keptName l = none) :
    Progress given b' (ps ++ [⟨label, []⟩]) ∧ b'.IsOpen c := by
  have hdraft := hbegins.draft h.draft hl
  obtain ⟨n, b₁, m, hlookups, hc, hplace, rfl⟩ := hbegins.looked
  have h₁ := (h.setNextSlot n).lookups hlookups
  obtain ⟨block, hblock, hfunc, hname⟩ := h₁.draft.blocks l c hc
  have howner : b₁.module.owner? c = some b₁.func := owner?_eq_some.2 ⟨block, hblock, hfunc⟩
  have hextends := Extends.placeBlock hplace howner
  obtain ⟨block', func, hblock', hfunc', hnew, rfl⟩ := placeBlock_eq_ok hplace
  obtain rfl := Option.some.inj (hblock.symm.trans hblock')
  rw [hfunc] at hfunc' hdraft hextends ⊢
  obtain ⟨m₂, hm₂⟩ : ∃ m₂, m₂ = b₁.module.modifyFunc b₁.func fun f =>
      { f with layout := f.layout.push c } := ⟨_, rfl⟩
  rw [← hm₂] at hdraft hextends ⊢
  have hmoves : Moves id b₁ { b₁ with module := m₂, current := some c, terminated := false } := by
    have hdenotes := @denotes_of_extends b₁
      { b₁ with module := m₂, current := some c, terminated := false } id _ hextends rfl
      h₁.draft.addresses fun _ _ => id
    exact ⟨⟨_, hextends⟩, fun ha => hdenotes ha, fun hl => hl⟩
  have hblocks : ∀ d, m₂.block? d = b₁.module.block? d := fun d => by rw [hm₂]; rfl
  have hunplaced : c ∉ b₁.module.placedBlocks := by
    intro hmem
    obtain ⟨g, func', hg, hmem⟩ := mem_placedBlocks.1 hmem
    obtain ⟨block', hblock', rfl⟩ := h₁.draft.shaped.placed g func' hg c hmem
    obtain rfl := Option.some.inj (hblock.symm.trans hblock')
    rw [hfunc] at hg
    obtain rfl := Option.some.inj (hfunc'.symm.trans hg)
    exact hnew hmem
  refine ⟨⟨hdraft, fun name v hv => (h₁.given name v hv).moves hmoves, fun func₂ hf => ?_,
    fun d block₂ hd hplaced => ?_, (ended_concat_nil label).symm⟩, rfl, rfl⟩
  · dsimp only at hf
    rw [hm₂, func?_modifyFunc, if_pos rfl, hfunc', Option.map_some, Option.some.injEq] at hf
    subst hf
    obtain ⟨hholds, -⟩ := h₁.holds func hfunc'
    rw [Array.toList_push]
    refine ⟨List.rel_append (hholds.imp fun d p hp => ?_)
      (.cons ⟨⟨block, (hblocks c).trans hblock, ?_, ?_⟩, ?_⟩ .nil), (List.getLast?_concat ..).symm⟩
    · exact hmoves.holdsParagraph h₁.draft.shaped (fun _ hb => (hblocks d).trans hb) hp
    · rw [hname]
      rcases hlabel with rfl | ⟨rfl, hnone⟩
      · rfl
      · exact hnone
    · rw [h₁.idle c block hblock hunplaced]
      exact .nil
    · rintro l' hl'
      rcases hlabel with rfl | ⟨rfl, -⟩
      · obtain rfl := Option.some.inj hl'
        exact hc
      · cases hl'
  · refine h₁.idle d block₂ ((hblocks d).symm.trans hd) fun hmem => hplaced ?_
    rw [hfunc, ← hm₂] at hplace
    exact (mem_placedBlocks_placeBlock hplace d).2 (.inl hmem)

/-- A label begins a paragraph. -/
theorem Progress.label (h : Progress given b ps) {l : String} (hl : IsLabel l) {u : Unit}
    (hrun : line [.label l] b = .ok (u, b')) : Progress given b' (ps ++ [⟨some l, []⟩]) := by
  obtain ⟨c, hbegins⟩ := beginBlock_eq_ok hrun
  exact (h.begins hbegins hl (.inl rfl)).1

/-! ## Instruction lines -/

section Entries

variable {c : BlockId} {m : Module} {i : InstId} {inst : Inst} {spec : InstSpec} {vs : List ValueId}
  {name : Option String}

/-- What an instruction line leaves: the instruction stands last in its block, and its result has
its name. -/
structure Appends (s : ValueId → ValueId) (c : BlockId) (i : InstId) (inst : Inst)
    (name : Option String) (b b' : Body) : Prop where
  moves : Moves s b b'
  func : b'.func = b.func
  current : b'.current = b.current
  functions : b'.module.functions = b.module.functions
  block : ∀ d, b'.module.block? d = if c = d then
    (b.module.block? d).map fun x => { x with insts := x.insts.push i } else b.module.block? d
  live : ∃ inst', b'.module.inst? i = some inst' ∧ inst'.bare = (inst.rename s).bare
  result : ∀ n, name = some n →
    b'.values[n]? = some inst.result ∧ b'.module.nameOf? inst.result = keptName n

/-- A name that is not the one that is given is not renamed. -/
lemma rebinding_of_ne (h : b.Draft) {v w : ValueId} {n name : String}
    (hextends : b.module.Extends b.func id m) {m' : Module}
    (hresolves : Resolves { b with module := m } n v m') (hw : b.values[name]? = some w)
    (hne : n ≠ name) :
    rebinding { b with module := m } n v w = w := by
  refine if_neg fun hold => ?_
  rcases hresolves with ⟨hnone, -⟩ | ⟨old, -, hold', hkind, -⟩
  · rw [hold] at hnone
    cases hnone
  · obtain rfl := Option.some.inj (hold.symm.trans hold')
    exact hne (h.apart n name w hold hw (h.kind?_of_keeps hextends.keeps hold hkind))

/-- What it leaves to name the result of an instruction that has been appended: the reads of the
name are sent to the result, and nothing else is new. -/
lemma nameResult_appended (hc : b.module.owner? c = some b.func)
    (happend : b.module.appendInst c spec vs = .ok (m, i))
    (hwell : WellFormed { b with module := m }) (hinst : m.inst? i = some inst) {n : String}
    {u : Unit} (hrun : nameResult n inst.result { b with module := m } = .ok (u, b')) :
    ∃ m₁ m₂ k, Resolves { b with module := m } n inst.result m₁ ∧
      m₁.bare = m.bare.residue (rebinding { b with module := m } n inst.result) [] ∧
      m.Extends b.func (rebinding { b with module := m } n inst.result) m₁ ∧
      b.module.Extends b.func (rebinding { b with module := m } n inst.result ∘ id) m₂ ∧
      m₁.setValueName inst.result (keptName n) = .ok m₂ ∧
      (∃ inst', m₂.inst? i = some inst' ∧
        inst'.bare = (inst.rename (rebinding { b with module := m } n inst.result)).bare) ∧
      b' = { b with module := m₂, nextSlot := k, values := b.values.insert n inst.result } := by
  obtain ⟨m₁, m₂, k, hresolves, hset, rfl⟩ := nameResult_eq_ok hrun
  obtain ⟨-, -, -, hnew, value, hvalue, hkind, -⟩ := inst?_appendInst happend hinst
  have hne : m.kind? inst.result ≠ some .placeholder := by
    simp [kind?_eq_some.2 ⟨value, hvalue, hkind⟩]
  obtain ⟨hbare, hresolved⟩ := hresolves.bare hwell hne
  have hextends : b.module.Extends b.func id m := .appendInst happend hc
  obtain ⟨inst₁, hinst₁, heq⟩ := inst?_residue_of_not_mem hbare hinst List.not_mem_nil
  refine ⟨m₁, m₂, k, hresolves, hbare, hresolved, (hextends.trans hresolved).setValueName hnew hset,
    hset, ⟨inst₁, ?_, heq⟩, rfl⟩
  rw [(setValueName_eq_ok hset).1]
  exact hinst₁

lemma Binds.appends (h : b.Draft) (hc : b.module.owner? c = some b.func)
    (happend : b.module.appendInst c spec vs = .ok (m, i))
    (hwell : WellFormed { b with module := m }) (hinst : m.inst? i = some inst)
    (hnamed : inst.ty ≠ .void → name.isSome) (hbinds : Binds name inst { b with module := m } b') :
    ∃ s, Appends s c i inst name b b' := by
  have hextends : b.module.Extends b.func id m := .appendInst happend hc
  have hblock := block?_appendInst happend
  have hfunctions := functions_appendInst happend
  obtain ⟨-, -, -, hnew, value, hvalue, hkind, -⟩ := inst?_appendInst happend hinst
  cases name with
  | none =>
    have hvoid : inst.ty = .void := by_contra fun hne => absurd (hnamed hne) (by simp)
    simp only [Binds, if_pos hvoid] at hbinds
    subst hbinds
    have hdenotes := @denotes_of_extends b { b with module := m } id _ hextends rfl h.addresses
      fun _ _ => id
    exact ⟨id, ⟨⟨_, hextends⟩, fun ha => hdenotes ha, fun hl => hl⟩, rfl, rfl, hfunctions, hblock,
      ⟨inst, hinst, by rw [Inst.rename_id]⟩, (by simp)⟩
  | some n =>
    obtain ⟨m₁, m₂, k, hresolves, hbare, hresolved, hall, hset, hlive, rfl⟩ :=
      nameResult_appended hc happend hwell hinst hbinds
    obtain ⟨hm₂, hvalue₂⟩ := setValueName_eq_ok hset
    have hdenotes := @denotes_of_extends b
      { b with module := m₂, nextSlot := k, values := b.values.insert n inst.result } _ _ hall rfl
      h.addresses (fun name w hw => by
        dsimp only
        rw [getElem?_insert]
        split_ifs with hsame
        · exact congrArg some (if_pos (hsame ▸ hw)).symm
        · rw [Function.comp_apply, id, rebinding_of_ne h hextends hresolves hw hsame]
          exact hw)
    have hblock₁ : ∀ d, m₁.block? d = m.block? d := by
      intro d
      rw [block?_of_residue hbare]
      show (m.block? d).map _ = m.block? d
      cases m.block? d with
      | none => rfl
      | some block =>
        have hkept : block.insts.filter (· ∉ []) = block.insts := Array.filter_eq_self.2 (by simp)
        rw [Option.map_some, hkept]
    refine ⟨_, ⟨⟨_, hall⟩, fun ha => hdenotes ha, fun hl => hl⟩, rfl, rfl, ?_, fun d => ?_,
      hlive, ?_⟩
    · rw [hm₂]
      exact (functions_of_residue hbare).trans hfunctions
    · rw [hm₂]
      exact (hblock₁ d).trans (hblock d)
    · rintro _ ⟨⟩
      refine ⟨Std.TreeMap.getElem?_insert_self, ?_⟩
      obtain ⟨value₁, hvalue₁, -⟩ := hresolved.value hvalue
      simp [nameOf?, hvalue₂, hvalue₁]

/-- The instruction of a line that is appended holds the line. -/
lemma Appends.holdsEntry (h : Appends s c i inst name b b') {e : Entry} (hname : e.name = name)
    {cs : List BlockId} (hspec : inst.toInstSpec = e.statement.operation.spec e.statement.align cs)
    (hvs : List.Forall₂ b.Denotes e.statement.operation.operands inst.operandValues)
    (hcs : List.Forall₂ b.Labels e.statement.operation.labels cs) :
    ∃ inst', b'.module.inst? i = some inst' ∧ b'.module.HoldsEntry b'.scope inst' e := by
  obtain ⟨inst', hi', hbare⟩ := h.live
  have hspec' : inst'.toInstSpec = inst.toInstSpec :=
    (Inst.toInstSpec_eq_of_bare hbare).trans (inst.toInstSpec_rename s)
  have htargets : inst'.targets = cs := congrArg InstSpec.targets (hspec'.trans hspec)
  refine ⟨inst', hi', ?_, ?_, ?_, fun n hn => ?_⟩
  · rw [htargets, hspec', hspec]
  · rw [Inst.operandValues_eq_of_bare hbare, Inst.operandValues_rename]
    exact List.forall₂_map_right_iff.2 (hvs.imp fun _ _ ha => h.moves.denotes ha)
  · rw [htargets]
    exact hcs.imp fun _ _ hl => h.moves.labels hl
  · rw [Inst.result_eq_of_bare hbare, Inst.result_rename]
    exact h.result n (hname ▸ hn)

/-- An instruction line adds an entry to the last paragraph. -/
lemma Progress.appends {qs : List Paragraph} {p : Paragraph} (h : Progress given b (qs ++ [p]))
    (hopen : b.IsOpen c) (happends : Appends s c i inst name b b') {t : Bool}
    (hdraft : Draft { b' with terminated := t }) {e : Entry}
    (hentry : ∃ inst', b'.module.inst? i = some inst' ∧ b'.module.HoldsEntry b'.scope inst' e)
    (ht : t = e.statement.operation.opcode.isTerminator) :
    Progress given { b' with terminated := t }
      (qs ++ [{ p with entries := p.entries ++ [e] }]) := by
  obtain ⟨func, hfunc⟩ := h.draft.home
  obtain ⟨hholds, hcurrent⟩ := h.holds func hfunc
  obtain ⟨ds, last, hds, hlast, hlayout⟩ := exists_append_of_forall₂ hholds
  obtain ⟨c', _, hp, hnil, rfl⟩ := List.forall₂_cons_right_iff.1 hlast
  obtain rfl := List.forall₂_nil_right_iff.1 hnil
  obtain rfl : c = c' := by
    rw [hlayout, List.getLast?_concat, hopen.1] at hcurrent
    exact Option.some.inj hcurrent
  have hnodup := h.draft.shaped.placedOnce b.func func hfunc
  have hplaced : c ∈ b.module.placedBlocks :=
    mem_placedBlocks.2 ⟨b.func, func, hfunc, Array.mem_toList_iff.1 (hlayout ▸ by simp)⟩
  have hgiven : ∀ n v, given n v → b'.Settled n v :=
    fun n v hv => (h.given n v hv).moves happends.moves
  refine ⟨hdraft, hgiven, fun func' hf => ?_, fun d block hd hunplaced => ?_, by simp [ended, ht]⟩
  · obtain rfl : func = func' := by
      have hf' : b'.module.func? b'.func = some func' := hf
      rw [func?, happends.functions, happends.func] at hf'
      exact Option.some.inj (hfunc.symm.trans hf')
    refine ⟨?_, happends.current.trans hcurrent⟩
    rw [hlayout] at hnodup ⊢
    refine List.rel_append (forall₂_imp_mem hds fun d hd q hq => ?_) (.cons ?_ .nil)
    · -- The blocks in front of the last one do not change.
      have hne : c ≠ d := by
        rintro rfl
        exact (List.nodup_append.1 hnodup).2.2 c hd c List.mem_cons_self rfl
      exact happends.moves.holdsParagraph h.draft.shaped
        (fun block hblock => by rw [happends.block, if_neg hne, hblock]) hq
    · obtain ⟨block, hblock, hname, hentries⟩ := hp.block
      refine ⟨⟨{ block with insts := block.insts.push i }, ?_, hname, ?_⟩, fun l hl =>
        happends.moves.labels (hp.label l hl)⟩
      · show b'.module.block? c = _
        rw [happends.block, if_pos rfl, hblock, Option.map_some]
      · rw [Array.toList_push]
        exact List.rel_append (happends.moves.holdsEntries h.draft.shaped hentries)
          (.cons hentry .nil)
  · have hd' : b'.module.block? d = some block := hd
    have hunplaced' : d ∉ b.module.placedBlocks := by
      rwa [placedBlocks, happends.functions] at hunplaced
    have hne : c ≠ d := fun heq => hunplaced' (heq ▸ hplaced)
    rw [happends.block, if_neg hne] at hd'
    exact h.idle d block hd' hunplaced'

/-- The first instruction of a body whose first label is left out begins a block. -/
lemma Progress.openBlock_nil (h : Progress given b []) (hrun : openBlock b = .ok (c, b')) :
    Progress given b' [⟨none, []⟩] ∧ b'.IsOpen c := by
  obtain ⟨func, hfunc⟩ := h.draft.home
  obtain ⟨hholds, hcurrent⟩ := h.holds func hfunc
  rw [List.forall₂_nil_right_iff.1 hholds, List.getLast?_nil] at hcurrent
  rcases openBlock_eq_ok hrun with ⟨⟨hopen, -⟩, -⟩ | ⟨-, hbegins⟩
  · rw [hcurrent] at hopen
    cases hopen
  · exact h.begins hbegins (isLabel_toString _) (.inr ⟨rfl, keptName_toString _⟩)

/-- As long as it has not ended, the last block is open. -/
lemma Progress.exists_isOpen {qs : List Paragraph} {p : Paragraph}
    (h : Progress given b (qs ++ [p])) (hended : ended (qs ++ [p]) = false) : ∃ c, b.IsOpen c := by
  obtain ⟨func, hfunc⟩ := h.draft.home
  obtain ⟨hholds, hcurrent⟩ := h.holds func hfunc
  obtain ⟨ds, last, -, hlast, hlayout⟩ := exists_append_of_forall₂ hholds
  obtain ⟨d, _, -, hnil, rfl⟩ := List.forall₂_cons_right_iff.1 hlast
  obtain rfl := List.forall₂_nil_right_iff.1 hnil
  rw [hlayout, List.getLast?_concat] at hcurrent
  exact ⟨d, hcurrent, h.terminated.trans hended⟩

/-- An instruction in front of a terminator goes on in the block. -/
lemma Progress.openBlock_concat {qs : List Paragraph} {p : Paragraph}
    (h : Progress given b (qs ++ [p])) (hended : ended (qs ++ [p]) = false)
    (hrun : openBlock b = .ok (c, b')) : b' = b ∧ b.IsOpen c := by
  obtain ⟨d, hopen⟩ := h.exists_isOpen hended
  obtain ⟨rfl, rfl⟩ := Prod.mk.inj (Except.ok.inj (hopen.openBlock.symm.trans hrun))
  exact ⟨rfl, hopen⟩

/-- What the tokens of a line are read as is told by the line. -/
lemma Parses.unique {ts : List Token} {name name' : Option String} {op op' : Opcode}
    {s s' : Statement} (h : Parses ts name op s) (h' : Parses ts name' op' s') :
    name = name' ∧ op = op' ∧ s = s' := by
  obtain ⟨rest, rest₁, hhead, hphrase⟩ := h
  obtain ⟨rest', rest₁', hhead', hphrase'⟩ := h'
  obtain ⟨hpair, rfl⟩ := Prod.mk.inj (Except.ok.inj (hhead.symm.trans hhead'))
  obtain ⟨rfl, rfl⟩ := Prod.mk.inj hpair
  obtain ⟨rfl, -⟩ := Prod.mk.inj (Except.ok.inj (hphrase.symm.trans hphrase'))
  exact ⟨rfl, rfl, rfl⟩

/-- An instruction line is no label. -/
lemma line_entry (e : Entry) : line e.tokens = instruction e.tokens := by
  obtain ⟨first, rest, htokens, hfirst⟩ := e.tokens_eq_cons
  have hlabel : ∀ l, first ≠ .label l := by
    rcases hfirst with ⟨s, rfl⟩ | ⟨op, rfl⟩ <;> exact fun l => by simp
  rw [htokens]
  unfold Body.line
  split
  · rename_i heq
    exact absurd (List.cons.inj heq).1 (hlabel _)
  · rename_i heq
    exact absurd (List.cons.inj heq).1 (hlabel _)
  · rfl

/-- What an instruction line does once its block stands. -/
lemma exists_appends (h : b.Draft) {e : Entry} (he : e.Valid) (hts : ∀ t ∈ e.tokens, t.Valid)
    {u : Unit} (hrun : line e.tokens b = .ok (u, b')) :
    ∃ c b₁ b₂ i inst s b₄, openBlock b = .ok (c, b₁) ∧
      Lookups b₁ b₂ ∧ Appends s c i inst e.name b₂ b₄ ∧
      b' = { b₄ with terminated := e.statement.operation.opcode.isTerminator } ∧
      ∃ inst', b₄.module.inst? i = some inst' ∧ b₄.module.HoldsEntry b₄.scope inst' e := by
  rw [line_entry] at hrun
  obtain ⟨name, op, st, hparses, c, b₁, b₂, vs, cs, m, i, inst, b₄, hopen, hlookups, hvs, hcs,
    happend, hwell, hinst, hbinds, rfl⟩ := instruction_eq_ok hts hrun
  obtain ⟨rfl, rfl, rfl⟩ := hparses.unique
    (Statement.parses_tokens he.statement he.named.1 he.operands he.group)
  obtain ⟨h₁, hc⟩ := h.openBlock hopen
  have hw := hlookups.widens
  obtain ⟨hspec, hvalues, -⟩ := inst?_appendInst happend hinst
  have hty : inst.ty = e.statement.operation.resultType := congrArg InstSpec.ty hspec
  obtain ⟨s, happends⟩ := Binds.appends (h₁.lookups hlookups) (hw.func ▸ hw.module.keeps.owner? hc)
    happend (hwell h.wellFormed) hinst (fun hne => he.named.2 (hty ▸ hne)) hbinds
  exact ⟨c, b₁, b₂, i, inst, s, b₄, hopen, hlookups, happends, rfl,
    happends.holdsEntry rfl hspec (hvalues ▸ hvs) hcs⟩

/-- A body in which a block stands open has it open after names have been looked up. -/
lemma Lookups.isOpen (h : Lookups b b') (hopen : b.IsOpen c) : b'.IsOpen c :=
  ⟨h.widens.current.trans hopen.1, h.widens.terminated.trans hopen.2⟩

/-- An instruction line adds an entry to the last paragraph, unless that has ended. -/
theorem Progress.entry {qs : List Paragraph} {p : Paragraph} (h : Progress given b (qs ++ [p]))
    (hended : ended (qs ++ [p]) = false) {e : Entry} (he : e.Valid) (hts : ∀ t ∈ e.tokens, t.Valid)
    {u : Unit} (hrun : line e.tokens b = .ok (u, b')) :
    Progress given b' (qs ++ [{ p with entries := p.entries ++ [e] }]) := by
  have hdraft := h.draft.line hts hrun
  obtain ⟨c, b₁, b₂, i, inst, s, b₄, hopen, hlookups, happends, rfl, hentry⟩ :=
    exists_appends h.draft he hts hrun
  obtain ⟨rfl, hisOpen⟩ := h.openBlock_concat hended hopen
  exact (h.lookups hlookups).appends (hlookups.isOpen hisOpen) happends hdraft hentry rfl

/-- The first instruction line begins a paragraph if its label is left out. -/
theorem Progress.firstEntry (h : Progress given b []) {e : Entry} (he : e.Valid)
    (hts : ∀ t ∈ e.tokens, t.Valid) {u : Unit} (hrun : line e.tokens b = .ok (u, b')) :
    Progress given b' [⟨none, [e]⟩] := by
  have hdraft := h.draft.line hts hrun
  obtain ⟨c, b₁, b₂, i, inst, s, b₄, hopen, hlookups, happends, rfl, hentry⟩ :=
    exists_appends h.draft he hts hrun
  obtain ⟨h₁, hisOpen⟩ := h.openBlock_nil hopen
  have h₂ : Progress given b₂ ([] ++ [⟨none, []⟩]) := h₁.lookups hlookups
  exact h₂.appends (hlookups.isOpen hisOpen) happends hdraft hentry rfl

end Entries

/-! ## Paragraphs -/

/-- Lines that are read one after the other. -/
def lines : List (List Token) → BodyM Unit
  | [] => return
  | ts :: tss => do
    line ts
    lines tss

lemma lines_cons {ts : List Token} {tss : List (List Token)} (hline : line ts b = .ok ((), b')) :
    lines (ts :: tss) b = lines tss b' := by
  show line ts b >>= _ = _
  rw [hline]
  rfl

lemma lines_append {tss tss' : List (List Token)} (hrun : lines tss b = .ok ((), b')) :
    lines (tss ++ tss') b = lines tss' b' := by
  induction tss generalizing b with
  | nil =>
    obtain ⟨-, rfl⟩ := StateT.pure_eq_ok.1 hrun
    rfl
  | cons ts tss ih =>
    rw [lines, StateT.bind_eq_ok] at hrun
    obtain ⟨_, b₁, hline, hrest⟩ := hrun
    rw [List.cons_append, lines_cons hline]
    exact ih hrest

lemma lines_cons_eq_ok {ts : List Token} {tss : List (List Token)} {u : Unit}
    (hrun : lines (ts :: tss) b = .ok (u, b')) :
    ∃ b₁, line ts b = .ok ((), b₁) ∧ lines tss b₁ = .ok (u, b') := by
  rw [lines, StateT.bind_eq_ok] at hrun
  obtain ⟨_, b₁, hline, hrest⟩ := hrun
  exact ⟨b₁, hline, hrest⟩

lemma lines_append_eq_ok {tss tss' : List (List Token)} {u : Unit}
    (hrun : lines (tss ++ tss') b = .ok (u, b')) :
    ∃ b₁, lines tss b = .ok ((), b₁) ∧ lines tss' b₁ = .ok (u, b') := by
  induction tss generalizing b with
  | nil => exact ⟨b, rfl, hrun⟩
  | cons ts tss ih =>
    obtain ⟨b₁, hline, hrest⟩ := lines_cons_eq_ok hrun
    obtain ⟨b₂, hlines, hrest⟩ := ih hrest
    refine ⟨b₂, ?_, hrest⟩
    rw [lines, StateT.bind_eq_ok]
    exact ⟨(), b₁, hline, hlines⟩

/-- What has been read has not ended the block if another line of it follows. -/
lemma ended_of_pairwise {qs : List Paragraph} {p : Paragraph} {e : Entry} {es : List Entry}
    (hends : (p.entries ++ e :: es).Pairwise fun e _ =>
      e.statement.operation.opcode.isTerminator = false) : ended (qs ++ [p]) = false := by
  simp only [ended, List.getLast?_concat, Option.bind_some, Option.any_eq_false]
  intro e' he'
  exact (List.pairwise_append.1 hends).2.2 e' (List.mem_of_getLast? he') e List.mem_cons_self

/-- The last paragraph takes in entries, one after the other. -/
lemma Progress.entries {qs : List Paragraph} {p : Paragraph} (h : Progress given b (qs ++ [p]))
    {es : List Entry} (hes : ∀ e ∈ es, e.Valid)
    (hends : (p.entries ++ es).Pairwise fun e _ =>
      e.statement.operation.opcode.isTerminator = false)
    (hts : ∀ ts ∈ es.map Entry.tokens, ∀ t ∈ ts, t.Valid) {u : Unit}
    (hrun : lines (es.map Entry.tokens) b = .ok (u, b')) :
    Progress given b' (qs ++ [{ p with entries := p.entries ++ es }]) := by
  induction es generalizing b p with
  | nil =>
    obtain ⟨-, rfl⟩ := StateT.pure_eq_ok.1 hrun
    rwa [List.append_nil]
  | cons e es ih =>
    obtain ⟨he, hes⟩ := List.forall_mem_cons.1 hes
    obtain ⟨hte, hts⟩ := List.forall_mem_cons.1 hts
    obtain ⟨b₁, hline, hrest⟩ := lines_cons_eq_ok hrun
    have hended : ended (qs ++ [p]) = false := ended_of_pairwise hends
    have h₁ := h.entry hended he hte hline
    have := ih (p := { p with entries := p.entries ++ [e] }) h₁ hes (by simpa using hends) hts hrest
    simpa using this

/-- The lines of a paragraph are read as this paragraph. -/
theorem Progress.paragraph (h : Progress given b ps) {p : Paragraph} (hp : p.Valid)
    (hlabel : p.label.isSome ∨ ps = []) (hts : ∀ ts ∈ p.lines, ∀ t ∈ ts, t.Valid) {u : Unit}
    (hrun : lines p.lines b = .ok (u, b')) : Progress given b' (ps ++ [p]) := by
  obtain ⟨label, entries⟩ := p
  cases label with
  | some l =>
    obtain ⟨b₁, hline, hrest⟩ := lines_cons_eq_ok hrun
    have h₁ := h.label (hp.label l rfl) hline
    exact h₁.entries hp.entries hp.ends (fun ts hmem => hts ts (List.mem_cons_of_mem _ hmem)) hrest
  | none =>
    obtain rfl : ps = [] := hlabel.resolve_left (by simp)
    cases entries with
    | nil => exact absurd rfl (hp.begins rfl)
    | cons e es =>
      obtain ⟨he, hes⟩ := List.forall_mem_cons.1 hp.entries
      obtain ⟨b₁, hline, hrest⟩ := lines_cons_eq_ok hrun
      have h₁ := h.firstEntry he (hts _ List.mem_cons_self) hline
      exact Progress.entries (show Progress given b₁ ([] ++ [(⟨none, [e]⟩ : Paragraph)]) from h₁)
        hes hp.ends (fun ts hmem => hts ts (List.mem_cons_of_mem _ hmem)) hrest

/-- The lines of paragraphs are read as these paragraphs. -/
theorem Progress.paragraphs (h : Progress given b ps) {qs : List Paragraph}
    (hqs : ∀ q ∈ qs, q.Valid) (hlabels : ∀ q ∈ qs.tail, q.label.isSome)
    (hfirst : ps = [] ∨ ∀ q ∈ qs.head?, q.label.isSome)
    (hts : ∀ ts ∈ qs.flatMap Paragraph.lines, ∀ t ∈ ts, t.Valid) {u : Unit}
    (hrun : lines (qs.flatMap Paragraph.lines) b = .ok (u, b')) : Progress given b' (ps ++ qs) := by
  induction qs generalizing b ps with
  | nil =>
    obtain ⟨-, rfl⟩ := StateT.pure_eq_ok.1 hrun
    rwa [List.append_nil]
  | cons q qs ih =>
    obtain ⟨hq, hqs⟩ := List.forall_mem_cons.1 hqs
    rw [List.flatMap_cons] at hrun hts
    obtain ⟨b₁, hlines, hrest⟩ := lines_append_eq_ok hrun
    have h₁ := h.paragraph hq (hfirst.symm.imp_left fun h => h q rfl)
      (fun ts hmem => hts ts (List.mem_append_left _ hmem)) hlines
    rw [List.append_cons]
    refine ih h₁ hqs (fun r hr => hlabels r (List.mem_of_mem_tail hr)) (.inr fun r hr => ?_)
      (fun ts hmem => hts ts (List.mem_append_right _ hmem)) hrest
    exact hlabels r (List.mem_of_mem_head? hr)

end SsaFold.Text.Body
