import SsaFold.Proofs.Text.Sites

/-!
# What the lines of a body leave

The lines of a body, as they stand in any text, fall into paragraphs (`FallInto`): a label begins
one, and so does an instruction that follows a terminator or comes first.  While they are read, the
blocks of the function are those that the paragraphs describe (`Body.Laid`), in the scope of what is
written in the function (`Module.written`): a local name is written for a value that has it, and a
label for a block that has it.

This scope is told by the module, and not by what the names stand for while the body is read.  A
result without a name takes its number from whatever had it, but no instruction that has been read
changes by that.
-/

namespace SsaFold

open Text

namespace Module

variable {m m' : Module} {g : FuncId} {s : ValueId → ValueId} {v : ValueId}

/-- What names are written for in the body of function `f`.  A number is written for a value or
block without a name. -/
def written (m : Module) (symbols : Symbols) (f : FuncId) : Scope where
  denotes a v :=
    match a.atom with
    | .localName n => (∃ kind, m.kind? v = some kind ∧ ¬ kind.IsShared) ∧ m.nameOf? v = keptName n
    | _ => Body.Denotes { module := m, func := f, symbols } a v
  labels l c := ∃ block, m.block? c = some block ∧ block.func = f ∧ block.name = keptName l

/-- Names stay when reads are renamed: a value goes over into one with the same name. -/
structure Renames (g : FuncId) (s : ValueId → ValueId) (m m' : Module) : Prop where
  extension : m.Extends g s m'
  own : ∀ {v kind}, m.kind? v = some kind → ¬ kind.IsShared →
    (∃ kind', m'.kind? (s v) = some kind' ∧ ¬ kind'.IsShared) ∧ m'.nameOf? (s v) = m.nameOf? v

lemma Extends.renames (h : m.Extends g id m') : m.Renames g id m' := by
  refine ⟨h, fun {v kind} hv hkind => ⟨⟨kind, h.keeps.kind? hv, hkind⟩, ?_⟩⟩
  obtain ⟨value, hvalue, -⟩ := kind?_eq_some.1 hv
  exact Body.nameOf?_of_extends h hvalue

lemma Renames.denotes (h : m.Renames g s m') {symbols : Symbols} (haddresses : Addresses m symbols)
    {f : FuncId} {a : TypedAtom} (ha : (m.written symbols f).denotes a v) :
    (m'.written symbols f).denotes a (s v) := by
  have hshared := @Body.denotes_of_extends { module := m, func := f, symbols }
    { module := m', func := f, symbols } s g h.extension rfl haddresses
      (fun name v hv => by simp at hv) a v
  obtain ⟨ty, atom⟩ := a
  cases atom with
  | localName n =>
    obtain ⟨⟨kind, hkind, hown⟩, hname⟩ := ha
    obtain ⟨hown', hname'⟩ := h.own hkind hown
    exact ⟨hown', hname'.trans hname⟩
  | _ => exact hshared ha

lemma Extends.labels (h : m.Extends g s m') {symbols : Symbols} {f : FuncId} {l : String}
    {c : BlockId} (hl : (m.written symbols f).labels l c) : (m'.written symbols f).labels l c := by
  obtain ⟨block, hblock, hfunc, hname⟩ := hl
  obtain ⟨block', hblock', hname', hfunc', -⟩ := h.block hblock
  exact ⟨block', hblock', hfunc'.trans hfunc, hname'.trans hname⟩

end Module

namespace Text

/-! ## Paragraphs -/

/-- The line is read as the entry. -/
def Entry.IsReadFrom (e : Entry) (ts : List Token) : Prop :=
  ∃ op, Body.Parses ts e.name op e.statement

/-- The lines are read as the paragraph: its label, unless it is left out, and a line for each
entry. -/
def Paragraph.IsReadFrom (p : Paragraph) (tss : List (List Token)) : Prop :=
  ∃ entries, tss = p.label.toList.map (fun l => [.label l]) ++ entries ∧
    List.Forall₂ Entry.IsReadFrom p.entries entries

/-- The lines fall into the paragraphs, one after the other. -/
def FallInto (tss : List (List Token)) (ps : List Paragraph) : Prop :=
  ∃ groups : List (List (List Token)), groups.flatten = tss ∧
    List.Forall₂ Paragraph.IsReadFrom ps groups

variable {tss : List (List Token)} {ps : List Paragraph}

lemma FallInto.begin (h : FallInto tss ps) (label : Option String) :
    FallInto (tss ++ label.toList.map fun l => [.label l]) (ps ++ [⟨label, []⟩]) := by
  obtain ⟨groups, rfl, hgroups⟩ := h
  refine ⟨groups ++ [label.toList.map fun l => [.label l]], by simp,
    List.rel_append hgroups (.cons ?_ .nil)⟩
  exact ⟨[], (List.append_nil _).symm, .nil⟩

/-- One more line belongs to the last paragraph. -/
lemma FallInto.append {p : Paragraph} {e : Entry} {ts : List Token} (h : FallInto tss (ps ++ [p]))
    (he : e.IsReadFrom ts) :
    FallInto (tss ++ [ts]) (ps ++ [{ p with entries := p.entries ++ [e] }]) := by
  obtain ⟨groups, rfl, hgroups⟩ := h
  obtain ⟨init, last, hinit, hlast, rfl⟩ := exists_append_of_forall₂ hgroups.flip
  obtain ⟨group, _, hgroup, hnil, rfl⟩ := List.forall₂_cons_right_iff.1 hlast
  obtain rfl := List.forall₂_nil_right_iff.1 hnil
  obtain ⟨entries, rfl, hentries⟩ := hgroup
  refine ⟨init ++ [p.label.toList.map (fun l => [.label l]) ++ (entries ++ [ts])], by simp,
    List.rel_append hinit.flip (.cons ⟨entries ++ [ts], rfl, ?_⟩ .nil)⟩
  exact List.rel_append hentries (.cons he .nil)

namespace Body

open SsaFold.Module

variable {b b' : Body} {c : BlockId}

/-! ## Names -/

/-- What a name stands for has this name. -/
def Named (b : Body) : Prop :=
  ∀ (n : String) v, b.values[n]? = some v → b.module.nameOf? v = keptName n

lemma Named.lookups (h : b.Named) (hb : b.Draft) (hl : Lookups b b') : b'.Named := by
  induction hl with
  | refl => exact h
  | @tail b₁ b₂ hsteps hstep ih =>
    have hb₁ := hb.lookups hsteps
    have hold : ∀ (n : String) v, b₁.values[n]? = some v → b₂.module.nameOf? v = keptName n := by
      intro n v hv
      obtain ⟨value, hvalue⟩ := (hb₁.values n v hv).exists_value
      rw [nameOf?_of_extends hstep.widens.module hvalue]
      exact ih n v hv
    cases hstep with
    | @forward name ty unbound _ _ =>
      intro n v hv
      by_cases hold' : b₁.values[n]? = some v
      · exact hold n v hold'
      · rw [getElem?_insert] at hv
        split_ifs at hv with hname
        · obtain rfl := Option.some.inj hv
          have hnew :=
            value?_pushValue_self b₁.module { kind := .placeholder, ty, name := keptName name }
          rw [nameOf?]
          exact hname ▸ congrArg (Option.bind · Value.name) hnew
        · exact absurd hv hold'
    | _ => exact hold

lemma Begins.named {l : String} (hbegins : Begins l c b b') (h : b.Named) (hb : b.Draft) :
    b'.Named := by
  obtain ⟨n, b₁, m, hlookups, -, hplace, rfl⟩ := hbegins.looked
  have h₁ := Named.lookups (b := { b with nextSlot := n }) h (hb.setNextSlot n) hlookups
  obtain ⟨_, _, -, -, -, rfl⟩ := placeBlock_eq_ok hplace
  exact h₁

/-! ## What an instruction line adds -/

/-- What is left when an instruction has been appended to a block and its result has been
entered. -/
structure Adds (c : BlockId) (i : InstId) (inst : Inst) (name : Option String) (b b' : Body) :
    Prop where
  func : b'.func = b.func
  symbols : b'.symbols = b.symbols
  current : b'.current = b.current
  labels : b'.blocks = b.blocks
  renames : b.module.Renames b.func (b.sending name inst.result) b'.module
  functions : b'.module.functions = b.module.functions
  block : ∀ d, b'.module.block? d = if c = d then
    (b.module.block? d).map fun x => { x with insts := x.insts.push i } else b.module.block? d
  /-- Only this instruction is new. -/
  insts : ∀ {j inst'}, b'.module.inst? j = some inst' → j = i ∨
    ∃ inst₀, b.module.inst? j = some inst₀ ∧ inst'.result = inst₀.result ∧
      inst'.parent = inst₀.parent
  live : ∃ inst', b'.module.inst? i = some inst' ∧
    inst'.bare = (inst.rename (b.sending name inst.result)).bare
  result : b'.module.nameOf? inst.result = name.bind keptName
  enters : Enters i inst name b b'

section Adds

variable {m : Module} {spec : InstSpec} {vs : List ValueId} {i : InstId} {inst : Inst}
  {name : Option String}

/-- A name is sent to a result of the same name. -/
lemma Enters.renames (h : Enters i inst name b b') (hnamed : b.Named)
    (hkind : b'.module.kind? inst.result = some (.inst i))
    (hname : b'.module.nameOf? inst.result = name.bind keptName) :
    b.module.Renames b.func (b.sending name inst.result) b'.module := by
  refine ⟨h.stays.module, fun {v kind} hv hown => ?_⟩
  obtain ⟨value, hvalue, -⟩ := kind?_eq_some.1 hv
  cases name with
  | none => exact (Extends.renames h.stays.module).own hv hown
  | some n =>
    by_cases hold : b.values[n]? = some v
    · have hsent : b.sending (some n) inst.result v = inst.result := if_pos hold
      rw [hsent, hname, hnamed n v hold]
      exact ⟨⟨_, hkind, id⟩, rfl⟩
    · have hkept : b.sending (some n) inst.result v = v := if_neg hold
      rw [hkept]
      exact ⟨⟨kind, h.stays.module.keeps.kind? hv, hown⟩, nameOf?_of_extends h.stays.module hvalue⟩

lemma Binds.adds (h : b.Draft) (hnamed : b.Named) (hc : b.module.owner? c = some b.func)
    (happend : b.module.appendInst c spec vs = .ok (m, i))
    (hwell : WellFormed { b with module := m }) (hinst : m.inst? i = some inst)
    (hbinds : Binds name inst { b with module := m } b') :
    Adds c i inst name b b' := by
  have henters := hbinds.enters h hc happend hwell hinst
  have hblock := block?_appendInst happend
  have hfunctions := functions_appendInst happend
  have hinsts : ∀ {j inst'}, m.inst? j = some inst' → j = i ∨
      ∃ inst₀, b.module.inst? j = some inst₀ ∧ inst'.result = inst₀.result ∧
        inst'.parent = inst₀.parent := fun hj =>
    (inst?_of_appendInst happend hj).imp_right fun ⟨inst₀, hinst₀, heq⟩ =>
      ⟨inst₀, hinst₀, Inst.result_eq_of_bare heq, Inst.parent_eq_of_bare heq⟩
  obtain ⟨-, -, -, hnew, value, hvalue, hkind, -, hunnamed⟩ := inst?_appendInst happend hinst
  have hkind' : m.kind? inst.result = some (.inst i) := kind?_eq_some.2 ⟨value, hvalue, hkind⟩
  cases name with
  | none =>
    have hresult : m.nameOf? inst.result = none := by rw [nameOf?, hvalue]; exact hunnamed
    have hrenames : b'.module = m →
        b.module.Renames b.func (b.sending none inst.result) b'.module :=
      fun heq => henters.renames hnamed (heq ▸ hkind') (heq ▸ hresult)
    simp only [Binds] at hbinds
    split_ifs at hbinds
    · subst hbinds
      exact ⟨rfl, rfl, rfl, rfl, hrenames rfl, hfunctions, hblock, hinsts, henters.live,
        hresult, henters⟩
    · obtain ⟨k, rfl⟩ := numberResult_eq_ok hbinds
      exact ⟨rfl, rfl, rfl, rfl, hrenames rfl, hfunctions, hblock, hinsts, henters.live,
        hresult, henters⟩
  | some n =>
    obtain ⟨m₁, m₂, k, -, hbare, hresolved, hall, hset, -, rfl⟩ :=
      nameResult_appended hc happend hwell hinst hbinds
    obtain ⟨hm₂, hvalue₂⟩ := setValueName_eq_ok hset
    have hblock₁ : ∀ d, m₁.block? d = m.block? d := by
      intro d
      rw [block?_of_residue hbare]
      cases hd : m.block? d with
      | none => rfl
      | some block =>
        have hkept : block.insts.filter (· ∉ []) = block.insts := Array.filter_eq_self.2 (by simp)
        rw [Option.map_some, hkept]
    have hkind₂ : m₂.kind? inst.result = some (.inst i) :=
      (hresolved.keeps.setValueName hset).kind? hkind'
    have hresult : m₂.nameOf? inst.result = keptName n := by
      obtain ⟨value₁, hvalue₁, -⟩ := hresolved.value hvalue
      simp [nameOf?, hvalue₂, hvalue₁]
    refine ⟨rfl, rfl, rfl, rfl, henters.renames hnamed hkind₂ hresult, ?_, fun d => ?_,
      fun {j inst'} hj => ?_, henters.live, hresult, henters⟩
    · rw [hm₂]
      exact (functions_of_residue hbare).trans hfunctions
    · rw [hm₂]
      exact (hblock₁ d).trans (hblock d)
    · rw [hm₂] at hj
      obtain ⟨-, inst₁, hinst₁, heq⟩ := inst?_of_residue hbare hj
      rw [Inst.result_eq_of_bare heq, Inst.parent_eq_of_bare heq, Inst.result_rename,
        Inst.parent_rename]
      exact hinsts hinst₁

/-- The name of the result stands for it, and all others for what they stood for. -/
lemma Adds.named (h : Adds c i inst name b b') (hb : b.Draft) (hnamed : b.Named) : b'.Named := by
  intro n v hv
  rw [h.enters.values] at hv
  split_ifs at hv with hkey
  · obtain rfl := Option.some.inj hv
    rw [h.result]
    cases name with
    | some own =>
      obtain rfl : own = n := Option.some.inj hkey
      rfl
    | none =>
      rw [enteredAs, Option.none_or] at hkey
      split_ifs at hkey
      rw [← Option.some.inj hkey, keptName_toString]
      rfl
  · obtain ⟨value, hvalue⟩ := (hb.values n v hv).exists_value
    rw [nameOf?_of_extends h.enters.stays.module hvalue]
    exact hnamed n v hv

/-- The instruction that is added holds its line. -/
lemma Adds.holdsEntry (h : Adds c i inst name b b') (hb : b.Draft) {e : Entry}
    (hname : e.name = name) {cs : List BlockId}
    (hspec : inst.toInstSpec = e.statement.operation.spec e.statement.align cs)
    (hvs : List.Forall₂ b.Denotes e.statement.operation.operands inst.operandValues)
    (hnamed : b.Named) (hcs : List.Forall₂ b.Labels e.statement.operation.labels cs)
    (hshaped : b'.module.Shaped) : ∃ inst', b'.module.inst? i = some inst' ∧
      b'.module.HoldsEntry (b'.module.written b.symbols b.func) inst' e := by
  obtain ⟨inst', hi', hbare⟩ := h.live
  have hkind : b'.module.kind? inst.result = some (.inst i) := by
    obtain ⟨value, hvalue, hkind⟩ := hshaped.result i inst' hi'
    rw [Inst.result_eq_of_bare hbare, Inst.result_rename] at hvalue
    exact kind?_eq_some.2 ⟨value, hvalue, hkind⟩
  have hspec' : inst'.toInstSpec = inst.toInstSpec :=
    (Inst.toInstSpec_eq_of_bare hbare).trans (inst.toInstSpec_rename _)
  have htargets : inst'.targets = cs := congrArg InstSpec.targets (hspec'.trans hspec)
  have hdenotes : ∀ a v, b.Denotes a v → (b.module.written b.symbols b.func).denotes a v := by
    rintro ⟨ty, atom⟩ v hv
    cases atom with
    | localName n => exact ⟨(hb.values n v hv).own, hnamed n v hv⟩
    | _ => exact hv
  refine ⟨inst', hi', ?_, ?_, ?_, fun n hn => ?_⟩
  · rw [htargets, hspec', hspec]
  · rw [Inst.operandValues_eq_of_bare hbare, Inst.operandValues_rename]
    exact List.forall₂_map_right_iff.2
      (hvs.imp fun _ _ ha => h.renames.denotes hb.addresses (hdenotes _ _ ha))
  · rw [htargets]
    refine hcs.imp fun l d hl => ?_
    obtain ⟨block, hblock, hfunc, hlabel⟩ := hb.blocks l d hl
    have hlabels : (b.module.written b.symbols b.func).labels l d := ⟨block, hblock, hfunc, hlabel⟩
    exact h.renames.extension.labels hlabels
  · rw [Inst.result_eq_of_bare hbare, Inst.result_rename]
    have hresult : b'.module.nameOf? inst.result = keptName n := by
      rw [h.result, ← hname, hn]
      rfl
    exact ⟨⟨⟨_, hkind, id⟩, hresult⟩, hresult⟩

/-- To open a block keeps the names. -/
lemma Named.openBlock (h : b.Named) (hb : b.Draft) (hopen : openBlock b = .ok (c, b')) :
    b'.Named := by
  rcases openBlock_eq_ok hopen with ⟨-, rfl⟩ | ⟨-, hbegins⟩
  · exact h
  · exact hbegins.named h hb

/-- A line begins the block of its label, or it adds the instruction that it says to an open
block. -/
lemma line_adds (h : b.Draft) (hnamed : b.Named) {ts : List Token} (hts : ∀ t ∈ ts, t.Valid)
    {u : Unit} (hrun : line ts b = .ok (u, b')) : (∃ l c, ts = [.label l] ∧ Begins l c b b') ∨
      ∃ (c : BlockId) (b₁ b₂ b₃ : Body) (i : InstId) (inst : Inst) (e : Entry) (t : Bool),
        openBlock b = .ok (c, b₁) ∧ b₁.Draft ∧ Lookups b₁ b₂ ∧ Adds c i inst e.name b₂ b₃ ∧
        b' = { b₃ with terminated := t } ∧ e.IsReadFrom ts ∧
        ∃ inst', b₃.module.inst? i = some inst' ∧
          b₃.module.HoldsEntry (b₃.module.written b₂.symbols b₂.func) inst' e := by
  have hdraft := h.line hts hrun
  unfold Body.line at hrun
  split at hrun
  · rename_i l
    obtain ⟨c, hbegins⟩ := beginBlock_eq_ok hrun
    exact .inl ⟨l, c, rfl, hbegins⟩
  · simp at hrun
  · obtain ⟨name, op, s, hparses, c, b₁, b₂, vs, cs, m, i, inst, b₃, hopen, hlookups, hvs, hcs,
      happend, hwell, hinst, hbinds, rfl⟩ := instruction_eq_ok hts hrun
    obtain ⟨h₁, hc⟩ := h.openBlock hopen
    have h₂ := h₁.lookups hlookups
    have hnamed₂ := (hnamed.openBlock h hopen).lookups h₁ hlookups
    have hw := hlookups.widens
    obtain ⟨hspec, hvalues, -⟩ := inst?_appendInst happend hinst
    have hadds := Binds.adds h₂ hnamed₂ (hw.func ▸ hw.module.keeps.owner? hc) happend
      (hwell h.wellFormed) hinst hbinds
    exact .inr ⟨c, b₁, b₂, b₃, i, inst, ⟨name, [], s⟩, _, hopen, h₁, hlookups, hadds, rfl,
      ⟨op, hparses⟩, hadds.holdsEntry h₂ rfl hspec (hvalues ▸ hvs) hnamed₂ hcs hdraft.shaped⟩

end Adds

/-! ## What has been read -/

/-- The blocks of the function hold the lines that have been read. -/
structure Laid (b : Body) (tss : List (List Token)) : Prop where
  draft : b.Draft
  named : b.Named
  holds : ∀ func, b.module.func? b.func = some func → ∃ ps, FallInto tss ps ∧
    List.Forall₂ (b.module.HoldsParagraph (b.module.written b.symbols b.func))
      func.layout.toList ps ∧ b.current = func.layout.toList.getLast?
  /-- A block that is only mentioned is empty. -/
  idle : ∀ d block, b.module.block? d = some block → d ∉ b.module.placedBlocks → block.insts = #[]

lemma Laid.setNextSlot (h : b.Laid tss) (n : Nat) : Laid { b with nextSlot := n } tss :=
  ⟨h.draft.setNextSlot n, h.named, h.holds, h.idle⟩

/-- Looking names up reads no line. -/
lemma Laid.lookups (h : b.Laid tss) (hl : Lookups b b') : b'.Laid tss := by
  have hw := hl.widens
  refine ⟨h.draft.lookups hl, h.named.lookups h.draft hl, fun func hf => ?_,
    fun d block hd hplaced => ?_⟩
  · rw [func?, hw.functions, hw.func] at hf
    obtain ⟨ps, hps, hholds, hcurrent⟩ := h.holds func hf
    rw [hw.symbols, hw.func, hw.current]
    refine ⟨ps, hps, hholds.imp fun d p hp => ?_, hcurrent⟩
    exact holdsParagraph_of_extends hw.module (hw.module.renames.denotes h.draft.addresses)
      hw.module.labels h.draft.shaped (fun _ hd => hw.block hd) hp
  · rcases hl.block? hd with hold | hempty
    · refine h.idle d block hold ?_
      rwa [placedBlocks, hw.functions] at hplaced
    · exact hempty

/-- A block begins with no lines but its label. -/
lemma Laid.begins (h : b.Laid tss) {l : String} (hbegins : Begins l c b b') (hl : IsLabel l)
    {label : Option String} (hlabel : label = some l ∨ label = none ∧ keptName l = none) :
    b'.Laid (tss ++ label.toList.map fun l => [.label l]) ∧ b'.current = some c := by
  have hdraft := hbegins.draft h.draft hl
  have hnamed := hbegins.named h.named h.draft
  obtain ⟨n, b₁, m, hlookups, hc, hplace, rfl⟩ := hbegins.looked
  have h₁ := (h.setNextSlot n).lookups hlookups
  obtain ⟨block, hblock, hfunc, hname⟩ := h₁.draft.blocks l c hc
  have hextends := Extends.placeBlock hplace (owner?_eq_some.2 ⟨block, hblock, hfunc⟩)
  have hplaced := mem_placedBlocks_placeBlock hplace
  obtain ⟨block', func, hblock', hfunc', hnew, hm⟩ := placeBlock_eq_ok hplace
  obtain rfl := Option.some.inj (hblock.symm.trans hblock')
  rw [hfunc] at hfunc' hm
  have hblocks : ∀ d, m.block? d = b₁.module.block? d := fun d => by rw [hm]; rfl
  have hunplaced : c ∉ b₁.module.placedBlocks := by
    intro hmem
    obtain ⟨g, func', hg, hmem⟩ := mem_placedBlocks.1 hmem
    obtain ⟨block', hblock', rfl⟩ := h₁.draft.shaped.placed g func' hg c hmem
    obtain rfl := Option.some.inj (hblock.symm.trans hblock')
    rw [hfunc] at hg
    obtain rfl := Option.some.inj (hfunc'.symm.trans hg)
    exact hnew hmem
  refine ⟨⟨hdraft, hnamed, fun func₂ hf => ?_, fun d block₂ hd hunplaced => ?_⟩, rfl⟩
  · have hf' : m.func? b₁.func = some func₂ := hf
    rw [hm, func?_modifyFunc, if_pos rfl, hfunc', Option.map_some, Option.some.injEq] at hf'
    subst hf'
    obtain ⟨ps, hps, hholds, -⟩ := h₁.holds func hfunc'
    rw [Array.toList_push]
    refine ⟨_, hps.begin label, List.rel_append (hholds.imp fun d p hp => ?_)
      (.cons ⟨⟨block, (hblocks c).trans hblock, ?_, ?_⟩, fun l' hl' => ?_⟩ .nil),
      (List.getLast?_concat ..).symm⟩
    · exact holdsParagraph_of_extends hextends (hextends.renames.denotes h₁.draft.addresses)
        hextends.labels h₁.draft.shaped (fun _ hd => (hblocks d).trans hd) hp
    · rw [hname]
      rcases hlabel with rfl | ⟨rfl, hnone⟩
      · rfl
      · exact hnone
    · rw [h₁.idle c block hblock hunplaced]
      exact .nil
    · rcases hlabel with rfl | ⟨rfl, -⟩
      · obtain rfl := Option.some.inj hl'
        exact ⟨block, (hblocks c).trans hblock, hfunc, hname⟩
      · cases hl'
  · exact h₁.idle d block₂ ((hblocks d).symm.trans hd) fun hmem =>
      hunplaced ((hplaced d).2 (.inl hmem))

/-- The block to which an instruction is added holds one more line. -/
lemma Adds.holdsParagraph {i : InstId} {inst : Inst} {name : Option String}
    (h : Adds c i inst name b b') (hb : b.Draft) {p : Paragraph}
    (hp : b.module.HoldsParagraph (b.module.written b.symbols b.func) c p) {e : Entry}
    (he : ∃ inst', b'.module.inst? i = some inst' ∧
      b'.module.HoldsEntry (b'.module.written b.symbols b.func) inst' e) :
    b'.module.HoldsParagraph (b'.module.written b.symbols b.func) c
      { p with entries := p.entries ++ [e] } := by
  obtain ⟨⟨block, hblock, hname, hentries⟩, hlabel⟩ := hp
  refine ⟨⟨{ block with insts := block.insts.push i }, ?_, hname, ?_⟩, fun l hl =>
    h.renames.extension.labels (hlabel l hl)⟩
  · rw [h.block, if_pos rfl, hblock, Option.map_some]
  · rw [Array.toList_push]
    exact List.rel_append
      (holdsEntries_of_extends h.renames.extension (h.renames.denotes hb.addresses)
      h.renames.extension.labels hb.shaped hentries) (.cons he .nil)

/-- An instruction that is added to the last block is the one of its line. -/
lemma Laid.adds {i : InstId} {inst : Inst} {name : Option String} (h : b.Laid tss)
    (hcurrent : b.current = some c) (hadds : Adds c i inst name b b') {t : Bool}
    (hdraft : Draft { b' with terminated := t }) {e : Entry} {ts : List Token}
    (he : e.IsReadFrom ts) (hentry : ∃ inst', b'.module.inst? i = some inst' ∧
      b'.module.HoldsEntry (b'.module.written b.symbols b.func) inst' e) :
    Laid { b' with terminated := t } (tss ++ [ts]) := by
  obtain ⟨func, hfunc⟩ := h.draft.home
  obtain ⟨ps, hps, hholds, hlast⟩ := h.holds func hfunc
  have hc : func.layout.toList.getLast? = some c := hlast.symm.trans hcurrent
  obtain ⟨ds, hlayout⟩ := List.getLast?_eq_some_iff.1 hc
  have hnodup := h.draft.shaped.placedOnce b.func func hfunc
  have hplaced : c ∈ b.module.placedBlocks :=
    mem_placedBlocks.2 ⟨b.func, func, hfunc, Array.mem_toList_iff.1 (hlayout ▸ by simp)⟩
  rw [hlayout] at hholds hnodup
  obtain ⟨qs, rest, hqs, hrest, rfl⟩ := exists_append_of_forall₂ hholds.flip
  obtain ⟨p, _, hp, hnil, rfl⟩ := List.forall₂_cons_right_iff.1 hrest
  obtain rfl := List.forall₂_nil_right_iff.1 hnil
  refine ⟨hdraft, hadds.named h.draft h.named, fun func' hf => ?_, fun d block hd hunplaced => ?_⟩
  · have hf' : b'.module.func? b'.func = some func' := hf
    rw [func?, hadds.functions, hadds.func] at hf'
    obtain rfl := Option.some.inj (hfunc.symm.trans hf')
    have hdenotes : ∀ {a v}, (b.module.written b.symbols b.func).denotes a v →
        (b'.module.written b.symbols b.func).denotes a (b.sending name inst.result v) :=
      hadds.renames.denotes h.draft.addresses
    refine ⟨_, hps.append he, ?_, hadds.current.trans hlast⟩
    have hscope : b'.module.written b'.symbols b'.func = b'.module.written b.symbols b.func := by
      rw [hadds.symbols, hadds.func]
    show List.Forall₂ (b'.module.HoldsParagraph (b'.module.written b'.symbols b'.func)) _ _
    rw [hlayout, hscope]
    refine List.rel_append (forall₂_imp_mem hqs.flip fun d hd q hq => ?_) (.cons ?_ .nil)
    · -- The blocks in front of the last one do not change.
      have hne : c ≠ d := by
        rintro rfl
        exact (List.nodup_append.1 hnodup).2.2 c hd c List.mem_cons_self rfl
      exact holdsParagraph_of_extends hadds.renames.extension hdenotes
        hadds.renames.extension.labels
        h.draft.shaped (fun block hblock => by rw [hadds.block, if_neg hne, hblock]) hq
    · exact hadds.holdsParagraph h.draft hp hentry
  · have hd' : b'.module.block? d = some block := hd
    have hunplaced' : d ∉ b.module.placedBlocks := by
      rwa [placedBlocks, hadds.functions] at hunplaced
    have hne : c ≠ d := fun heq => hunplaced' (heq ▸ hplaced)
    rw [hadds.block, if_neg hne] at hd'
    exact h.idle d block hd' hunplaced'

/-- A line adds what it says. -/
theorem Laid.line (h : b.Laid tss) {ts : List Token} (hts : ∀ t ∈ ts, t.Valid) {u : Unit}
    (hrun : line ts b = .ok (u, b')) : b'.Laid (tss ++ [ts]) := by
  have hdraft := h.draft.line hts hrun
  rcases line_adds h.draft h.named hts hrun with ⟨l, c, rfl, hbegins⟩ |
    ⟨c, b₁, b₂, b₃, i, inst, e, t, hopen, -, hlookups, hadds, rfl, he, hentry⟩
  · exact (h.begins hbegins (hts _ List.mem_cons_self) (.inl rfl)).1
  · have hopened : b₁.Laid tss ∧ b₁.current = some c := by
      rcases openBlock_eq_ok hopen with ⟨hisOpen, rfl⟩ | ⟨-, hbegins⟩
      · exact ⟨h, hisOpen.1⟩
      · have hbegun := h.begins hbegins (isLabel_toString _) (.inr ⟨rfl, keptName_toString _⟩)
        rwa [Option.toList_none, List.map_nil, List.append_nil] at hbegun
    exact (hopened.1.lookups hlookups).adds (hlookups.widens.current.trans hopened.2) hadds
      hdraft he hentry

/-- Lines add what they say, one after the other. -/
theorem Laid.lines {tss' : List (List Token)} (h : b.Laid tss)
    (htss : ∀ ts ∈ tss', ∀ t ∈ ts, t.Valid) {u : Unit} (hrun : lines tss' b = .ok (u, b')) :
    b'.Laid (tss ++ tss') := by
  induction tss' generalizing b tss with
  | nil =>
    obtain ⟨-, rfl⟩ := StateT.pure_eq_ok.1 hrun
    rwa [List.append_nil]
  | cons ts tss' ih =>
    obtain ⟨hts, htss⟩ := List.forall_mem_cons.1 htss
    obtain ⟨b₁, hline, hrest⟩ := lines_cons_eq_ok hrun
    rw [List.append_cons]
    exact ih (h.line hts hline) htss hrest

/-- In the beginning names are those of parameters. -/
lemma named_start {m : Module} {symbols : Symbols} {d : Definition} (hd : d.Fits m)
    (hrun : Body.start m symbols d.func d.params = .ok b) : b.Named := by
  simp only [Body.start, bind_eq_ok, pure_eq_ok] at hrun
  obtain ⟨⟨u, _⟩, hparams, rfl⟩ := hrun
  obtain ⟨func, hfunc, -, -, hnames⟩ := hd.func
  obtain ⟨k, values, rfl, -, hvalues, -⟩ := nameParams_eq_ok hparams hfunc
  intro n v hv
  rcases hvalues n v hv with hnone | ⟨j, name, hname, hparam, hkey⟩
  · simp at hnone
  · rw [Nat.zero_add] at hparam
    obtain ⟨value, hvalue, heq⟩ := hnames j v name hparam hname
    simp [nameOf?, hvalue, heq, hkey]

/-- In the beginning nothing has been read. -/
lemma laid_start {m : Module} {symbols : Symbols} {d : Definition} (h : Sketch m symbols)
    (hd : d.Fits m) (hrun : Body.start m symbols d.func d.params = .ok b) : b.Laid [] := by
  obtain ⟨hdraft, rfl, -, hfunc⟩ := Draft.start h hd hrun
  refine ⟨hdraft, named_start hd hrun, fun func' hf => ?_,
    fun c block hc hplaced => absurd (h.placed c block hc) hplaced⟩
  obtain ⟨func, hfunc', hlayout, -⟩ := hd.func
  rw [hfunc] at hf
  obtain rfl := Option.some.inj (hfunc'.symm.trans hf)
  have hcurrent : b.current = none := by
    simp only [Body.start, bind_eq_ok, pure_eq_ok] at hrun
    obtain ⟨⟨u, _⟩, hparams, rfl⟩ := hrun
    obtain ⟨k, values, heq, -⟩ := nameParams_eq_ok hparams hfunc'
    rw [heq]
  rw [hlayout, hcurrent]
  exact ⟨[], ⟨[], rfl, .nil⟩, .nil, rfl⟩

end Body
end Text
end SsaFold
