import SsaFold.Proofs.Text.Afterwards
import SsaFold.Proofs.Text.Passages

/-!
# Every function is read from its own lines

The lines of a text with tokens are those of its functions, one after the other.  A function has the
header of its own lines, its blocks are the paragraphs between this header and the brace that closes
the body, and nothing else belongs to it (`Module.IsReadFrom`, `Module.ofText_inStep`).

Lines that have no tokens may stand anywhere, also within bodies.  A header that stands within a
body is no line of it, and such a text is refused.
-/

namespace SsaFold

open Text

namespace Text

/-! ## Passages of a text -/

/-- The passage is that of a definition. -/
def Passage.isDefinition : Passage → Bool
  | declaration _ => false
  | definition _ _ _ => true

/-- The lines between the header and the brace. -/
def Passage.body : Passage → List (List Token)
  | declaration _ => []
  | definition _ body _ => body.map TokenLine.tokens

lemma Passage.Valid.isDefinition? {p : Passage} (h : p.Valid) :
    p.header.isDefinition? = some p.isDefinition := by
  cases p with
  | declaration header => exact h
  | definition header body brace => exact h.1

/-- The last entry is a terminator, and there is no other. -/
def Paragraph.Closes (p : Paragraph) : Prop :=
  ∃ init last, p.entries = init ++ [last] ∧ last.statement.operation.opcode.isTerminator = true ∧
    ∀ e ∈ init, e.statement.operation.opcode.isTerminator = false

/-- Only what has a type can have a name in its line. -/
lemma FallInto.named {tss : List (List Token)} {ps : List Paragraph} (h : FallInto tss ps)
    (htss : ∀ ts ∈ tss, ∀ t ∈ ts, t.Valid) {p : Paragraph} (hp : p ∈ ps) {e : Entry}
    (he : e ∈ p.entries) (hname : e.name.isSome) : e.statement.operation.resultType ≠ .void := by
  obtain ⟨groups, rfl, hgroups⟩ := h
  obtain ⟨group, hgroup, entries, rfl, hentries⟩ := exists_mem_of_forall₂ hgroups.flip p hp
  obtain ⟨ts, hts, op, hparses⟩ := exists_mem_of_forall₂ hentries.flip e he
  have hmem : ts ∈ groups.flatten := List.mem_flatten.2 ⟨_, hgroup, List.mem_append_right _ hts⟩
  exact (hparses.valid (htss ts hmem)).2.2.2 hname

end Text

namespace Module

variable {m m' : Module} {symbols : Symbols} {f : FuncId} {func : Func} {b : BlockId}
  {p : Paragraph}

/-! ## What is written in a function -/

/-- What names are written for in function `f`, if all that is written can be read there. -/
def scopeOf (m : Module) (symbols : Symbols) (f : FuncId) : Scope where
  denotes a v := m.Visible f v ∧ (m.written symbols f).denotes a v
  labels := (m.written symbols f).labels

/-- What is kept of a body is written as it was. -/
lemma KeepsBody.denotes (h : KeepsBody f m m') {a : TypedAtom} {v : ValueId}
    (ha : (m.written symbols f).denotes a v) : (m'.written symbols f).denotes a v := by
  obtain ⟨ty, atom⟩ := a
  cases atom with
  | localName n =>
    obtain ⟨⟨kind, hkind, hown⟩, hname⟩ := ha
    obtain ⟨value, hvalue, -⟩ := kind?_eq_some.1 hkind
    exact ⟨⟨kind, h.kind? hkind, hown⟩, (h.nameOf? hvalue).trans hname⟩
  | globalName n => exact ha
  | int n =>
    obtain ⟨bits, c, hty, hc, hkind⟩ := ha
    exact ⟨bits, c, hty, hc, h.kind? hkind⟩
  | bool t =>
    obtain ⟨c, hc, hkind⟩ := ha
    exact ⟨c, hc, h.kind? hkind⟩
  | null => exact h.kind? ha

lemma KeepsBody.labels (h : KeepsBody f m m') {l : String} {c : BlockId}
    (hl : (m.written symbols f).labels l c) : (m'.written symbols f).labels l c := by
  obtain ⟨block, hblock, hfunc, hname⟩ := hl
  exact ⟨block, h.block hblock hfunc, hfunc, hname⟩

lemma KeepsBody.holdsEntry (h : KeepsBody f m m') (hm : m.Shaped) {i : InstId} {inst : Inst}
    {e : Entry} (hi : m.inst? i = some inst) (howner : m.owner? inst.parent = some f)
    (he : m.HoldsEntry (m.written symbols f) inst e) :
    ∃ inst', m'.inst? i = some inst' ∧ m'.HoldsEntry (m'.written symbols f) inst' e := by
  obtain ⟨inst', hi', hbare⟩ := h.inst hi howner
  have hspec := Inst.toInstSpec_eq_of_bare hbare
  have htargets : inst'.targets = inst.targets := congrArg InstSpec.targets hspec
  have hty : inst'.ty = inst.ty := congrArg InstSpec.ty hspec
  refine ⟨inst', hi', ?_, ?_, ?_, fun n hn => ?_⟩
  · rw [htargets, hspec]
    exact he.spec
  · rw [Inst.operandValues_eq_of_bare hbare]
    exact he.operands.imp fun _ _ ha => h.denotes ha
  · rw [htargets]
    exact he.targets.imp fun _ _ hl => h.labels hl
  · obtain ⟨hbound, hname⟩ := he.result n hn
    obtain ⟨value, hvalue, -⟩ := hm.result i inst hi
    rw [Inst.result_eq_of_bare hbare, hty, h.nameOf? hvalue]
    exact ⟨h.denotes hbound, hname⟩

/-- A block of the body holds its lines on. -/
lemma KeepsBody.holdsParagraph (h : KeepsBody f m m') (hm : m.Shaped) (howner : m.owner? b = some f)
    (hp : m.HoldsParagraph (m.written symbols f) b p) :
    m'.HoldsParagraph (m'.written symbols f) b p := by
  obtain ⟨block, hblock, hname, hentries⟩ := hp.block
  obtain ⟨block', hblock', hfunc⟩ := owner?_eq_some.1 howner
  obtain rfl := Option.some.inj (hblock.symm.trans hblock')
  refine ⟨⟨block, h.block hblock hfunc, hname, ?_⟩, fun l hl => h.labels (hp.label l hl)⟩
  refine forall₂_imp_mem hentries fun i hi e => ?_
  rintro ⟨inst, hinst, hentry⟩
  obtain ⟨inst', hinst', hparent⟩ := (hm.held i b).1 ⟨block, hblock, Array.mem_toList_iff.1 hi⟩
  obtain rfl := Option.some.inj (hinst.symm.trans hinst')
  exact h.holdsEntry hm hinst (hparent ▸ howner) hentry

/-- What is written in a module that is complete can be read where it is written. -/
lemma Complete.holdsParagraph (h : m.Complete) (howner : m.owner? b = some f)
    (hnamed : ∀ e ∈ p.entries, e.name.isSome → e.statement.operation.resultType ≠ .void)
    (hp : m.HoldsParagraph (m.written symbols f) b p) :
    m.HoldsParagraph (m.scopeOf symbols f) b p := by
  obtain ⟨block, hblock, hname, hentries⟩ := hp.block
  refine ⟨⟨block, hblock, hname, ?_⟩, hp.label⟩
  have hnamed' : List.Forall₂ (fun i e => (∃ inst, m.inst? i = some inst ∧
      m.HoldsEntry (m.written symbols f) inst e) ∧
        (e.name.isSome → e.statement.operation.resultType ≠ .void)) block.insts.toList p.entries :=
    (forall₂_imp_mem hentries.flip fun e he i hi => ⟨hi, hnamed e he⟩).flip
  refine forall₂_imp_mem hnamed' fun i hi e => ?_
  rintro ⟨⟨inst, hinst, hentry⟩, hresult⟩
  obtain ⟨inst', hinst', hparent⟩ :=
    (h.intact.shaped.held i b).1 ⟨block, hblock, Array.mem_toList_iff.1 hi⟩
  obtain rfl := Option.some.inj (hinst.symm.trans hinst')
  rw [← hparent] at howner
  refine ⟨inst, hinst, hentry.spec, ?_, hentry.targets, fun n hn => ?_⟩
  · exact (forall₂_imp_mem hentry.operands.flip fun v hv a ha =>
      ⟨h.visible hinst howner hv, ha⟩).flip
  · obtain ⟨hbound, hname⟩ := hentry.result n hn
    have hty : inst.ty = e.statement.operation.resultType := congrArg InstSpec.ty hentry.spec
    exact ⟨⟨h.visible_result hinst howner (hty ▸ hresult (by rw [hn]; rfl)), hbound⟩, hname⟩

/-- A block that ends with its only terminator is written so. -/
lemma HoldsParagraph.closes {S : Scope} (h : m.HoldsParagraph S b p)
    (hends : ∀ block, m.block? b = some block → m.Ends block) : p.Closes := by
  obtain ⟨block, hblock, -, hentries⟩ := h.block
  obtain ⟨init, i, inst, hlist, hi, hterminator, hinit⟩ := hends block hblock
  rw [hlist] at hentries
  obtain ⟨es, rest, hes, hrest, heq⟩ := exists_append_of_forall₂ hentries.flip
  obtain ⟨e, _, ⟨inst', hi', hentry⟩, hnil, rfl⟩ := List.forall₂_cons_right_iff.1 hrest
  obtain rfl := List.forall₂_nil_right_iff.1 hnil
  obtain rfl := Option.some.inj (hi.symm.trans hi')
  have hopcode : ∀ {inst : Inst} {e : Entry}, m.HoldsEntry S inst e →
      inst.opcode = e.statement.operation.opcode :=
        fun hentry => congrArg InstSpec.opcode hentry.spec
  refine ⟨es, e, heq, hopcode hentry ▸ hterminator, fun e' he' => ?_⟩
  obtain ⟨j, hj, inst', hinst', hentry'⟩ := exists_mem_of_forall₂ hes.flip e' he'
  exact hopcode hentry' ▸ hinit j hj inst' hinst'

/-! ## Functions and passages -/

/-- The lines have been read into the function, which was empty before, and what was left then is
what stands in the module. -/
def BuiltBy (m : Module) (symbols : Symbols) (f : FuncId) (names : List (Option String))
    (tss : List (List Token)) : Prop :=
  ∃ m₀ b b', (∀ c block, m₀.block? c = some block → block.func ≠ f) ∧
    Body.start m₀ symbols f names = .ok b ∧ Body.lines tss b = .ok ((), b') ∧
      KeepsBody f b'.module m

/-- The function is the one that the lines of the passage say. -/
structure IsReadFrom (m : Module) (symbols : Symbols) (f : FuncId) (func : Func) (p : Passage) :
    Prop where
  /-- Its header is the one of the passage, and its blocks hold the lines between header and
  brace. -/
  chapter : ∃ c : Chapter, Header.read p.isDefinition p.header.rest = .ok c.header ∧
    FallInto p.body c.paragraphs ∧ (∀ q ∈ c.paragraphs, q.Closes) ∧
    m.HoldsChapter (m.scopeOf symbols f) func c ∧
    (p.isDefinition = true → m.BuiltBy symbols f (c.header.params.map Param.name) p.body)
  declared : p.isDefinition = false → func.layout = #[]
  /-- No other block belongs to it, and no other instruction. -/
  blocks : ∀ b, m.owner? b = some f → b ∈ func.layout
  insts : ∀ i inst, m.inst? i = some inst → m.owner? inst.parent = some f →
    ∃ b ∈ func.layout, ∃ block, m.block? b = some block ∧ i ∈ block.insts

end Module

namespace Text

open SsaFold.Module

variable {text : String} {m : Module}

/-- An empty function has no blocks. -/
lemma Definition.Fits.not_owner {d : Definition} {symbols : Symbols} (hd : d.Fits m)
    (hm : Sketch m symbols) : ∀ c block, m.block? c = some block → block.func ≠ d.func := by
  rintro c block hc hfunc
  obtain ⟨g, fn, hg, hmem⟩ := mem_placedBlocks.1 (hm.placed c block hc)
  obtain ⟨block', hc', rfl⟩ := hm.wellFormed.module.reachable.intact.shaped.placed g fn hg c hmem
  obtain rfl := Option.some.inj (hc.symm.trans hc')
  obtain ⟨func, hfunc', hlayout, -⟩ := hd.func
  rw [hfunc] at hg
  obtain rfl := Option.some.inj (hfunc'.symm.trans hg)
  simp [hlayout] at hmem

/-- The module that is returned has been built from that with the headers. -/
lemma spares_ofText (hread : Module.ofText text = .ok m) {o : Outline} {s : Headers}
    (houtline : Outline.ofText text = .ok o) (hheaders : o.headers = .ok s) :
    s.module.Spares m := by
  have hbind := hread
  simp only [Module.ofText, bind_eq_ok, mapError_eq_ok, pure_eq_ok] at hbind
  obtain ⟨o', houtline', s', hheaders', m, hbodies, ⟨⟩, -, rfl⟩ := hbind
  obtain rfl := Except.ok.inj (houtline.symm.trans houtline')
  obtain rfl := Except.ok.inj (hheaders.symm.trans hheaders')
  obtain ⟨hsketch, hvalid⟩ := Outline.ofText_sketch houtline
  exact readBodies_spares (Outline.headers_sound hsketch hvalid hheaders) hvalid hbodies

/-- A function keeps its header while bodies are read. -/
lemma holdsHeader_of_spares {m' : Module} (h : m.Spares m') {f : FuncId} {func : Func}
    {header : Header} (hf : m.func? f = some func) (hheader : m.HoldsHeader func header) :
    ∃ func', m'.func? f = some func' ∧ m'.HoldsHeader func' header := by
  obtain ⟨func', hf', -⟩ := h.keeps.func hf
  obtain ⟨func₀, hf₀, hheading⟩ := h.heading hf'
  obtain rfl := Option.some.inj (hf.symm.trans hf₀)
  refine ⟨func', hf', holdsHeader_of_values hheader hheading fun {v value} hv => ?_⟩
  obtain ⟨value', hv', -, hty⟩ := h.keeps.value hv
  obtain ⟨value'', hv'', hname⟩ := h.name hv
  obtain rfl := Option.some.inj (hv'.symm.trans hv'')
  exact ⟨value', hv', hty, hname⟩

/-- The names that are written for parameters are written for them. -/
lemma denotes_params (h : m.Complete) (symbols : Symbols) {f : FuncId} {func : Func}
    {header : Header} (hf : m.func? f = some func) (hheader : m.HoldsHeader func header) :
    List.Forall₂ (fun v (p : Param) => ∀ s, p.name = some s →
      (m.scopeOf symbols f).denotes ⟨p.ty, .localName s⟩ v) func.params header.params := by
  refine forall₂_of_getElem? hheader.params.length_eq fun k v p hv hp s hs => ?_
  obtain ⟨p', hp', hparam⟩ := exists_of_forall₂_left hheader.params hv
  obtain rfl := Option.some.inj (hp.symm.trans hp')
  obtain ⟨value, hvalue, hkind, hty⟩ := (h.draft.funcs f func hf).params k v hv
  have hargument : m.kind? v = some (.argument f k) := kind?_eq_some.2 ⟨value, hvalue, hkind⟩
  exact ⟨⟨value, hvalue, hty, hkind ▸ ⟨rfl, func, hf, hv⟩⟩, ⟨_, hargument, id⟩, hparam.name s hs⟩

/-- The body of a definition is what its lines say. -/
lemma BodyOf.isBuilt {d : Definition} {b : Body} {tss : List (List Token)} (h : BodyOf text d b tss)
    (hread : Module.ofText text = .ok m) {o : Outline} {s : Headers}
    (houtline : Outline.ofText text = .ok o) (hheaders : o.headers = .ok s) {func : Func}
    (hf : m.func? d.func = some func) : m.BuiltBy s.symbols d.func d.params tss ∧
      ∃ ps, FallInto tss ps ∧ (∀ q ∈ ps, q.Closes) ∧
        List.Forall₂ (m.HoldsParagraph (m.scopeOf s.symbols d.func)) func.layout.toList ps := by
  obtain ⟨m₀, b', hm, hd, hstart, htss, hrun, hfunc, hsymbols, hkeeps⟩ :=
    h.kept hread houtline hheaders
  have hcomplete := complete_ofText hread
  obtain ⟨-, hends⟩ := hcomplete.intact.check_eq_ok_iff.1 (wellFormed_ofText hread).2
  refine ⟨⟨m₀, b, b', hd.not_owner hm, hstart, hrun, hkeeps⟩, ?_⟩
  have hlaid : b'.Laid tss := by
    have := (Body.laid_start hm hd hstart).lines htss hrun
    rwa [List.nil_append] at this
  obtain ⟨func₀, hf₀⟩ := hlaid.draft.home
  obtain ⟨ps, hps, hholds, -⟩ := hlaid.holds func₀ hf₀
  rw [hfunc] at hf₀ hholds
  rw [hsymbols] at hholds
  obtain rfl := Option.some.inj ((hkeeps.func hf₀).symm.trans hf)
  have howner : ∀ c ∈ func₀.layout.toList, b'.module.owner? c = some d.func ∧
      m.owner? c = some d.func := by
    intro c hc
    obtain ⟨block, hblock, hown⟩ :=
      hlaid.draft.shaped.placed d.func func₀ hf₀ c (Array.mem_toList_iff.1 hc)
    exact ⟨owner?_eq_some.2 ⟨block, hblock, hown⟩,
      owner?_eq_some.2 ⟨block, hkeeps.block hblock hown, hown⟩⟩
  have hheld : List.Forall₂ (m.HoldsParagraph (m.scopeOf s.symbols d.func))
      func₀.layout.toList ps := by
    have hnamed : List.Forall₂ (fun c p =>
        b'.module.HoldsParagraph (b'.module.written s.symbols d.func) c p ∧
          ∀ e ∈ p.entries, e.name.isSome → e.statement.operation.resultType ≠ .void)
        func₀.layout.toList ps :=
      (forall₂_imp_mem hholds.flip fun p hp c hc => ⟨hc, fun e he => hps.named htss hp he⟩).flip
    refine forall₂_imp_mem hnamed fun c hc p hp => ?_
    obtain ⟨howner', howner⟩ := howner c hc
    exact hcomplete.holdsParagraph howner hp.2
      (hkeeps.holdsParagraph hlaid.draft.shaped howner' hp.1)
  refine ⟨ps, hps, fun q hq => ?_, hheld⟩
  obtain ⟨c, hc, hp⟩ := exists_mem_of_forall₂ hheld q hq
  refine hp.closes fun block hblock => hends c (mem_placedBlocks.2 ⟨d.func, func₀, hf, ?_⟩)
    block hblock
  exact Array.mem_toList_iff.1 hc

end Text

namespace Module

variable {m : Module} {text : String}

/-- A function of a module that is read is the one of its passage. -/
lemma isReadFrom_ofText (hread : ofText text = .ok m) {o : Outline} {s : Headers}
    (houtline : Outline.ofText text = .ok o) (hheaders : o.headers = .ok s) {ps : List Passage}
    (hlines : ps.flatMap Passage.lines = tokenLines text) (hvalid : ∀ p ∈ ps, p.Valid)
    (hbodies : ∀ (j : Nat) p, ps[j]? = some p → p.IsBodyAt text j)
    {k : Nat} {func : Func} {p : Passage} (hf : m.func? ⟨k⟩ = some func) (hp : ps[k]? = some p) :
    m.IsReadFrom s.symbols ⟨k⟩ func p := by
  have hcomplete := complete_ofText hread
  have hline : ((tokenLines text).filter TokenLine.isHeader)[k]? = some p.header := by
    rw [← hlines, Passage.filter_isHeader hvalid, List.getElem?_map, hp]
    rfl
  obtain ⟨definition, h, func₀, hdef, hreadHeader, hf₀, hlayout, hheld⟩ :=
    (Outline.finds_headers houtline hheaders).header k p.header hline
  rw [(hvalid p (List.mem_of_getElem? hp)).isDefinition?, Option.some.injEq] at hdef
  subst hdef
  have hreach : Reaches text s.symbols (.outside s.module) s.definitions o.lines :=
    ⟨o, s, [], houtline, hheaders, rfl, rfl, rfl⟩
  have hheld' : m.HoldsHeader func h := by
    obtain ⟨func', hf', hheld'⟩ :=
      holdsHeader_of_spares (spares_ofText hread houtline hheaders) hf₀ hheld
    rwa [Option.some.inj (hf.symm.trans hf')]
  have hparams := denotes_params hcomplete s.symbols hf hheld'
  have hinsts : ∀ i inst, m.inst? i = some inst → m.owner? inst.parent = some ⟨k⟩ →
      ∃ b ∈ func.layout, ∃ block, m.block? b = some block ∧ i ∈ block.insts := by
    intro i inst hi howner
    obtain ⟨block, hblock, hmem⟩ := (hcomplete.intact.shaped.held i inst.parent).2 ⟨inst, hi, rfl⟩
    exact ⟨_, hcomplete.mem_layout hf howner, block, hblock, hmem⟩
  cases p with
  | declaration header =>
    have hother := (Outline.awaits houtline hheaders).ne_func hline
      (hvalid _ (List.mem_of_getElem? hp))
    obtain rfl := Option.some.inj (((hreach.keepsBody hread hother).func hf₀).symm.trans hf)
    refine ⟨⟨⟨h, []⟩, hreadHeader, ⟨[], rfl, .nil⟩, by simp, ⟨hheld', fun _ => hparams, ?_⟩, nofun⟩,
      fun _ => hlayout, fun b => hcomplete.mem_layout hf, hinsts⟩
    rw [hlayout]
    exact .nil
  | definition header body brace =>
    obtain ⟨d, b, hbody, hnotes⟩ := hbodies k _ hp header body brace rfl
    obtain ⟨h', hreadHeader', hnames⟩ := hnotes.params
    obtain rfl := Except.ok.inj (hreadHeader.symm.trans hreadHeader')
    have hfunc : d.func = ⟨k⟩ := hnotes.func
    obtain ⟨hbuilt, qs, hqs, hcloses, hholds⟩ := hbody.isBuilt hread houtline hheaders (hfunc ▸ hf)
    rw [hfunc, hnames] at hbuilt
    rw [hfunc] at hholds
    exact ⟨⟨⟨h, qs⟩, hreadHeader, hqs, hcloses, ⟨hheld', fun _ => hparams, hholds⟩, fun _ =>
      hbuilt⟩, nofun, fun b => hcomplete.mem_layout hf, hinsts⟩

/-- The lines with tokens of a text that is read are those of its functions, one after the other. -/
lemma exists_passages_ofText (hread : ofText text = .ok m) :
    ∃ (o : Outline) (s : Headers) (ps : List Passage),
      Outline.ofText text = .ok o ∧ o.headers = .ok s ∧
      Known m s.symbols ∧ ps.flatMap Passage.lines = tokenLines text ∧ (∀ p ∈ ps, p.Valid) ∧
      ps.length = m.functions.size ∧
      ∀ (j : Nat) p, ps[j]? = some p → p.IsBodyAt text j := by
  have hbind := hread
  simp only [ofText, bind_eq_ok, mapError_eq_ok] at hbind
  obtain ⟨o, houtline, s, hheaders, -⟩ := hbind
  have hfound := Outline.finds_headers houtline hheaders
  have hspares := spares_ofText hread houtline hheaders
  have hreach : Reaches text s.symbols (.outside s.module) s.definitions o.lines :=
    ⟨o, s, [], houtline, hheaders, rfl, rfl, rfl⟩
  obtain ⟨hlines, -⟩ := Outline.lines_ofText houtline
  obtain ⟨ps, hflat, hvalid, hbodies⟩ :=
    exists_passages hreach hread (hlines ▸ Outline.awaits houtline hheaders)
  rw [hlines] at hflat
  refine ⟨o, s, ps, houtline, hheaders, hspares.known hfound.known, hflat, hvalid, ?_, fun j p hp =>
    Nat.zero_add j ▸ hbodies j p hp⟩
  have hfilter := congrArg List.length (Passage.filter_isHeader hvalid)
  rw [hflat, ← List.countP_eq_length_filter, List.length_map, ← hfound.size] at hfilter
  rw [← hfilter, ← Array.size_map (f := Func.heading), ← hspares.headings, Array.size_map]

/-- A function that has blocks has been read from the lines of a body. -/
lemma exists_bodyOf_func (hread : ofText text = .ok m) {f : FuncId} {func : Func}
    (hf : m.func? f = some func) (hdefined : func.layout ≠ #[]) :
    ∃ d b tss, BodyOf text d b tss ∧ d.func = f := by
  obtain ⟨o, s, ps, houtline, hheaders, -, hlines, hvalid, hlength, hbodies⟩ :=
    exists_passages_ofText hread
  obtain ⟨hlt, -⟩ := Array.getElem?_eq_some_iff.1 hf
  obtain ⟨p, hp⟩ : ∃ p, ps[f.index]? = some p := ⟨_, List.getElem?_eq_getElem (hlength ▸ hlt)⟩
  cases p with
  | declaration header =>
    have hdeclared := isReadFrom_ofText hread houtline hheaders hlines hvalid hbodies hf hp
    exact absurd (hdeclared.declared rfl) hdefined
  | definition header body brace =>
    obtain ⟨d, b, hbody, hnotes⟩ := hbodies f.index _ hp header body brace rfl
    exact ⟨d, b, _, hbody, hnotes.func⟩

/-- The sweeps over headers and bodies stay in step: no text is refused because they do not.  If a
text is read, then its lines with tokens are those of the functions of the module, one after the
other, and each function is the one that its own lines say. -/
theorem ofText_inStep (text : String) :
    (∀ n, ofText text ≠ .error (.error (.outOfSync n))) ∧
    ∀ m, ofText text = .ok m → ∃ (symbols : Symbols) (ps : List Passage), Known m symbols ∧
      ps.flatMap Passage.lines = tokenLines text ∧ (∀ p ∈ ps, p.Valid) ∧
      ps.length = m.functions.size ∧
      ∀ k func p, m.func? ⟨k⟩ = some func → ps[k]? = some p → m.IsReadFrom symbols ⟨k⟩ func p := by
  refine ⟨fun n => ofText_ne_outOfSync, fun m hread => ?_⟩
  obtain ⟨o, s, ps, houtline, hheaders, hknown, hlines, hvalid, hlength, hbodies⟩ :=
    exists_passages_ofText hread
  exact ⟨s.symbols, ps, hknown, hlines, hvalid, hlength, fun k func p hf hp =>
    isReadFrom_ofText hread houtline hheaders hlines hvalid hbodies hf hp⟩

/-- A text in which other lines stand between functions and within a body. -/
def mixedText : String :=
  "declare i32 @p(i32)\ndefine i32 @f(i32 %x) \x7b\nentry:\ntarget triple = \"t\"\n" ++
  "  %y = add i32 %x, 0\n@g = global i32 0\n  br label %out\n!0 = !\x7b\x7d\nout:\n" ++
  "  ret i32 %y\n\x7d\n" ++
  "attributes #0 = \x7b nounwind \x7d\ndeclare void @q()\ndefine void @h() \x7b\n  ret void\n\x7d\n"

/-- Its second function is the one that the second of its passages says, and has both blocks. -/
theorem inStep_mixedText : ∃ (m : Module) (symbols : Symbols) (ps : List Passage) (func : Func)
    (p : Passage), ofText mixedText = .ok m ∧ ps.flatMap Passage.lines = tokenLines mixedText ∧
      ps.length = 4 ∧ m.func? ⟨1⟩ = some func ∧ ps[1]? = some p ∧ func.layout.size = 2 ∧
      m.IsReadFrom symbols ⟨1⟩ func p := by
  have hrun : (ofText mixedText).toOption.map
      (fun m => (m.functions.size, (m.func? ⟨1⟩).map fun f => f.layout.size))
        = some (4, some 2) := by
    decide +kernel
  obtain ⟨m, hread, heq⟩ := toOption_map_eq_some.1 hrun
  simp only [Prod.mk.injEq, Option.map_eq_some_iff] at heq
  obtain ⟨hsize, func, hfunc, hlayout⟩ := heq
  obtain ⟨symbols, ps, -, hlines, -, hlength, hfunctions⟩ := (ofText_inStep mixedText).2 m hread
  obtain ⟨p, hp⟩ : ∃ p, ps[1]? = some p := ⟨_, List.getElem?_eq_getElem (by omega)⟩
  exact ⟨m, symbols, ps, func, p, hread, hlines, hlength.trans hsize, hfunc, hp, hlayout,
    hfunctions 1 func p hfunc hp⟩

end Module
end SsaFold
