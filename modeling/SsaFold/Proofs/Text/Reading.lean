import SsaFold.Proofs.Text.Legible
import SsaFold.Proofs.Text.Progress

/-!
# Reading chapters

At the end of its body a function holds the paragraphs that have been read (`Progress.finish`), and
the bodies that are read later change nothing about that (`Body.Finished.later`).  So at the end of
the text every function holds its chapter (`holdsRead_ofText`).
-/

namespace SsaFold.Text

variable {m m' : Module} {symbols : Symbols}

namespace Body

open SsaFold.Module

variable {b b' : Body} {names : List (Option String)} {ps : List Paragraph}

/-! ## The beginning of a body -/

/-- The parameters of the function of a body have the names. -/
def Names (b : Body) (names : List (Option String)) (name : String) (v : ValueId) : Prop :=
  ∃ (func : Func) (k : Nat), b.module.func? b.func = some func ∧ names[k]? = some (some name) ∧
    func.params[k]? = some v

/-- At the beginning of a body nothing has been read, and the parameters have their names. -/
lemma Progress.start {d : Definition} (h : Sketch m symbols) (hd : d.Fits m)
    (hrun : Body.start m symbols d.func d.params = .ok b) : Progress (b.Names d.params) b [] := by
  obtain ⟨hdraft, -⟩ := Draft.start h hd hrun
  simp only [Body.start, bind_eq_ok, pure_eq_ok] at hrun
  obtain ⟨⟨u, _⟩, hparams, rfl⟩ := hrun
  obtain ⟨func, hfunc, hlayout, -⟩ := hd.func
  obtain ⟨n, values, rfl, -, -, hbound⟩ := nameParams_eq_ok hparams hfunc
  refine ⟨hdraft, ?_, fun func' hf => ?_, fun c block hc hplaced =>
    absurd (h.placed c block hc) hplaced, rfl⟩
  · rintro name v ⟨func', k, hf, hname, hparam⟩
    obtain rfl := Option.some.inj (hfunc.symm.trans hf)
    obtain ⟨w, hw, hvalue⟩ := hbound k name hname
    rw [Nat.zero_add] at hw
    obtain rfl := Option.some.inj (hparam.symm.trans hw)
    obtain ⟨value, hv, hkind, -⟩ := (h.draft.funcs d.func func hfunc).params k v hparam
    exact ⟨hvalue, _, Module.kind?_eq_some.2 ⟨value, hv, hkind⟩, (by simp)⟩
  · obtain rfl := Option.some.inj (hfunc.symm.trans hf)
    simp [hlayout]

/-! ## The end of a body -/

/-- A body that has been read to its end: the function holds the paragraphs, and every name stands
for one thing for good. -/
structure Finished (b : Body) (names : List (Option String)) (ps : List Paragraph) : Prop where
  holds : ∀ func, b.module.func? b.func = some func →
    List.Forall₂ (b.module.HoldsParagraph b.scope) func.layout.toList ps
  names : ∀ name v, b.Names names name v → b.values[name]? = some v
  settled : ∀ (name : String) v, b.values[name]? = some v → b.Settled name v
  apart : ∀ (l l' : String) c, b.blocks[l]? = some c → b.blocks[l']? = some c → l = l'
  placed : ∀ (l : String) c, b.blocks[l]? = some c → ∀ func, b.module.func? b.func = some func →
    c ∈ func.layout

/-- At its end a body has been read. -/
lemma Progress.finish {given : String → ValueId → Prop} (h : Progress given b ps)
    (hnames : ∀ name v, b.Names names name v → given name v) (hend : b.endError? = none) :
    b.Finished names ps := by
  have hclosed := closed_of_endError? hend
  refine ⟨fun func hf => (h.holds func hf).1,
    fun name v hv => (h.given name v (hnames name v hv)).1, fun name v hv => ⟨hv, ?_⟩,
    h.draft.blocksApart, fun l c hc func hf => ?_⟩
  · obtain ⟨kind, hkind, -⟩ := (h.draft.values name v hv).own
    refine ⟨kind, hkind, ?_⟩
    rintro rfl
    exact hclosed.defined name v hv hkind
  · have := hclosed.placed l c hc
    simpa [isPlaced, hf] using this

/-- In the scope of a body that has been read a name stands for one thing. -/
lemma Finished.oneMeaning (h : b.Finished names ps) {func : Func}
    (hf : b.module.func? b.func = some func) : Module.OneMeaning func b.scope where
  value := fun hv hv' => Option.some.inj (hv.symm.trans hv')
  label := fun hl hl' => Option.some.inj (hl.symm.trans hl')
  apart := fun hl hl' => h.apart _ _ _ hl hl'
  placed := fun hl => h.placed _ _ hl func hf

/-- A function keeps its parameters. -/
lemma names_of_extends {g : FuncId} {s : ValueId → ValueId} (hm : b.module.Extends g s b'.module)
    (hfunc : b'.func = b.func) {func : Func} (hf : b.module.func? b.func = some func)
    {name : String} {v : ValueId} (h : b'.Names names name v) : b.Names names name v := by
  obtain ⟨func', k, hf', hname, hparam⟩ := h
  obtain ⟨layout, hf'', -⟩ := hm.func hf
  rw [hfunc] at hf'
  obtain rfl := Option.some.inj (hf'.symm.trans hf'')
  exact ⟨func, k, hf, hname, hparam⟩

/-- A body that has been read stays so while the body of another function is read. -/
lemma Finished.later (h : b.Finished names ps) {func : Func}
    (hf : b.module.func? b.func = some func) (hshaped : b.module.Shaped)
    (haddresses : Addresses b.module b.symbols) {g : FuncId} {s : ValueId → ValueId}
    (hm : b.module.Extends g s m') (hne : b.func ≠ g) :
    Finished { b with module := m' } names ps := by
  have hfixed : ∀ (name : String) v, b.values[name]? = some v → b.values[name]? = some (s v) := by
    intro name v hv
    obtain ⟨-, kind, hkind, hplaceholder⟩ := h.settled name v hv
    rwa [hm.fixed hkind hplaceholder]
  have hdenotes := @denotes_of_extends b { b with module := m' } s g hm rfl haddresses hfixed
  have hmoves : Moves s b { b with module := m' } := ⟨⟨g, hm⟩, fun ha => hdenotes ha, fun hl => hl⟩
  have hfunc : ∀ func', m'.func? b.func = some func' → func' = func := by
    intro func' hf'
    obtain ⟨layout, hf'', hlayout⟩ := hm.func hf
    obtain rfl := Option.some.inj (hf'.symm.trans hf'')
    rw [hlayout hne]
  refine ⟨fun func' hf' => ?_, fun name v hv => h.names name v
      (names_of_extends (show b.module.Extends g s ({ b with module := m' } : Body).module from hm)
        rfl hf hv),
    fun name v hv => ?_, h.apart, fun l c hc func' hf' => ?_⟩
  · obtain rfl := hfunc func' hf'
    refine forall₂_imp_mem (h.holds _ hf) fun c hc p hp => ?_
    -- The blocks of the function are not those of the other one.
    refine hmoves.holdsParagraph hshaped (fun block hblock => ?_) hp
    obtain ⟨block', hblock', howner⟩ := hshaped.placed b.func _ hf c (Array.mem_toList_iff.1 hc)
    obtain rfl := Option.some.inj (hblock.symm.trans hblock')
    obtain ⟨block', hblock', -, -, hsame⟩ := hm.block hblock
    rwa [hsame (howner ▸ hne)] at hblock'
  · obtain ⟨-, kind, hkind, hplaceholder⟩ := h.settled name v hv
    exact ⟨hv, kind, hm.keeps.kind? hkind, hplaceholder⟩
  · obtain rfl := hfunc func' hf'
    exact h.placed l c hc _ hf

/-! ## Lines of a body -/

/-- Lines change nothing outside the function of the body. -/
lemma lines_stays (h : b.Draft) {tss : List (List Token)} (htss : ∀ ts ∈ tss, ∀ t ∈ ts, t.Valid)
    {u : Unit} (hrun : lines tss b = .ok (u, b')) : ∃ s, Stays s b b' := by
  induction tss generalizing b with
  | nil =>
    obtain ⟨-, rfl⟩ := StateT.pure_eq_ok.1 hrun
    exact ⟨id, .refl b⟩
  | cons ts tss ih =>
    obtain ⟨hts, htss⟩ := List.forall_mem_cons.1 htss
    obtain ⟨b₁, hline, hrest⟩ := lines_cons_eq_ok hrun
    obtain ⟨s, hs⟩ := line_stays h hts hline
    obtain ⟨t, ht⟩ := ih (h.line hts hline) htss hrest
    exact ⟨t ∘ s, hs.trans ht⟩

end Body

/-! ## Chapters -/

/-- The body of the function has been read as the chapter. -/
def Recorded (m : Module) (symbols : Symbols) (f : FuncId) (c : Chapter) : Prop :=
  ∃ b : Body, b.module = m ∧ b.symbols = symbols ∧ b.func = f ∧ (∃ func, m.func? f = some func) ∧
    b.Finished (c.header.params.map Param.name) c.paragraphs

/-- The function is as it was, with what has been read of it. -/
structure Untouched (symbols : Symbols) (f : FuncId) (m m' : Module) : Prop where
  func : ∀ func, m.func? f = some func → m'.func? f = some func
  recorded : ∀ c, Recorded m symbols f c → Recorded m' symbols f c

lemma Untouched.refl (f : FuncId) (m : Module) :
    Untouched symbols f m m := ⟨fun _ => id, fun _ => id⟩

lemma Untouched.trans {m'' : Module} {f : FuncId} (h : Untouched symbols f m m')
    (h' : Untouched symbols f m' m'') : Untouched symbols f m m'' :=
  ⟨fun func hf => h'.func func (h.func func hf), fun c hc => h'.recorded c (h.recorded c hc)⟩

/-- While the body of another function is read, a function is as it was. -/
lemma untouched_of_extends {f g : FuncId} (hm : Sketch m symbols) {s : ValueId → ValueId}
    (hextends : m.Extends g s m') (hne : f ≠ g) : Untouched symbols f m m' := by
  have hfunc : ∀ func, m.func? f = some func → m'.func? f = some func := by
    intro func hf
    obtain ⟨layout, hf', hlayout⟩ := hextends.func hf
    rwa [hlayout hne] at hf'
  refine ⟨hfunc, fun c => ?_⟩
  rintro ⟨b, rfl, rfl, rfl, ⟨func, hf⟩, hfinished⟩
  exact ⟨{ b with module := m' }, rfl, rfl, rfl, ⟨func, hfunc func hf⟩,
    hfinished.later hf hm.wellFormed.module.reachable.intact.shaped hm.addresses hextends hne⟩

/-- A line of a body is no line above it or below it. -/
lemma first_ne_of_mem_lines {p : Paragraph} {ts : List Token} (hts : ts ∈ p.lines) :
    ∃ first rest, ts = first :: rest ∧ first ≠ .punct '\x7d' ∧ first ≠ .word "define" ∧
      first ≠ .word "declare" := by
  rcases List.mem_append.1 hts with hlabel | hentry
  · obtain ⟨l, -, rfl⟩ := List.mem_map.1 hlabel
    exact ⟨_, _, rfl, (by simp), (by simp), (by simp)⟩
  · obtain ⟨e, -, rfl⟩ := List.mem_map.1 hentry
    obtain ⟨first, rest, htokens, hfirst⟩ := e.tokens_eq_cons
    refine ⟨first, rest, htokens, ?_⟩
    rcases hfirst with ⟨s, rfl⟩ | ⟨op, rfl⟩
    · exact ⟨(by simp), (by simp), (by simp)⟩
    · obtain ⟨hdefine, hdeclare, -⟩ := mnemonic_ne op
      exact ⟨(by simp), fun h => hdefine (Token.word.inj h), fun h => hdeclare (Token.word.inj h)⟩

/-- No line of a body closes it. -/
lemma ne_brace_of_lines {ls : List TokenLine} {ps : List Paragraph}
    (hls : ls.map TokenLine.tokens = ps.flatMap Paragraph.lines) :
    ∀ l ∈ ls, l.tokens ≠ [.punct '\x7d'] := by
  intro l hl
  obtain ⟨p, -, hp⟩ := List.mem_flatMap.1 (hls ▸ List.mem_map_of_mem hl)
  obtain ⟨first, rest, htokens, hne, -⟩ := first_ne_of_mem_lines hp
  obtain ⟨rfl, -⟩ := List.cons.inj htokens
  exact fun heq => hne (List.cons.inj heq).1

/-- Lines in front of the closing brace are read into the body. -/
lemma readLines_inside {ls : List TokenLine} {b : Body} {ds : List Definition}
    {s : Position × List Definition} (hopen : ∀ l ∈ ls, l.tokens ≠ [.punct '\x7d']) :
    ls.foldlM (readLine symbols) (.inside b, ds) = .ok s ↔
      ∃ b', s = (.inside b', ds) ∧ Body.lines (ls.map TokenLine.tokens) b = .ok ((), b') := by
  induction ls generalizing b with
  | nil =>
    constructor
    · intro hrun
      exact ⟨b, (pure_eq_ok.1 hrun).symm, rfl⟩
    · rintro ⟨b', rfl, hrun⟩
      obtain ⟨-, rfl⟩ := StateT.pure_eq_ok.1 hrun
      rfl
  | cons l ls ih =>
    obtain ⟨hl, hls⟩ := List.forall_mem_cons.1 hopen
    have hline : ∀ s₁, readLine symbols (.inside b, ds) l = .ok s₁ ↔
        ∃ b₁, s₁ = (.inside b₁, ds) ∧ Body.line l.tokens b = .ok ((), b₁) := by
      intro s₁
      rw [readLine, if_neg fun h => hl (by rw [TokenLine.tokens, h.1, h.2])]
      simp only [bind_eq_ok, mapError_eq_ok, pure_eq_ok]
      constructor
      · rintro ⟨⟨u, b₁⟩, hline, rfl⟩
        exact ⟨b₁, rfl, hline⟩
      · rintro ⟨b₁, rfl, hline⟩
        exact ⟨⟨(), b₁⟩, hline, rfl⟩
    rw [List.foldlM_cons, bind_eq_ok]
    simp only [hline, List.map_cons, Body.lines, StateT.bind_eq_ok]
    constructor
    · rintro ⟨_, ⟨b₁, rfl, hfirst⟩, hrest⟩
      obtain ⟨b', hs, hlines⟩ := (ih hls).1 hrest
      exact ⟨b', hs, (), b₁, hfirst, hlines⟩
    · rintro ⟨b', hs, u, b₁, hfirst, hlines⟩
      exact ⟨_, ⟨b₁, rfl, hfirst⟩, (ih hls).2 ⟨b', hs, hlines⟩⟩

/-- The line begins a definition. -/
lemma isDefinition?_define {l : TokenLine} {rest : List Token}
    (h : l.tokens = .word "define" :: rest) :
    l.isDefinition? = some true := by
  obtain ⟨hfirst, -⟩ := List.cons.inj h
  simp only [TokenLine.isDefinition?, hfirst]

/-- The line is a declaration. -/
lemma isDefinition?_declare {l : TokenLine} {rest : List Token}
    (h : l.tokens = .word "declare" :: rest) :
    l.isDefinition? = some false := by
  obtain ⟨hfirst, -⟩ := List.cons.inj h
  simp only [TokenLine.isDefinition?, hfirst]

/-- The lines of a definition: the header, the lines of its body, and the brace. -/
lemma exists_lines_of_define {c : Chapter} (hdefined : c.paragraphs ≠ []) {ls : List TokenLine}
    (hls : ls.map TokenLine.tokens = c.lines) : ∃ first body last, ls = first :: (body ++ [last]) ∧
      first.tokens = .word "define" :: c.header.tokens true ∧
      body.map TokenLine.tokens = c.paragraphs.flatMap Paragraph.lines ∧
      last.tokens = [.punct '\x7d'] := by
  rw [Chapter.lines, if_neg hdefined, List.cons_append] at hls
  obtain ⟨first, rest, rfl, hfirst, hrest⟩ := List.map_eq_cons_iff.1 hls
  obtain ⟨body, end_, rfl, hbody, hend⟩ := List.map_eq_append_iff.1 hrest
  obtain ⟨last, none, rfl, hlast, hnone⟩ := List.map_eq_cons_iff.1 hend
  obtain rfl := List.map_eq_nil_iff.1 hnone
  exact ⟨first, body, last, rfl, hfirst, hbody, hlast⟩

/-- The lines of a definition are read as its body. -/
theorem readLines_define {c : Chapter} (hc : c.Valid) (hdefined : c.paragraphs ≠ [])
    {ls : List TokenLine} (hls : ls.map TokenLine.tokens = c.lines) (hvalid : ∀ l ∈ ls, l.Valid)
    {d : Definition} {ds : List Definition} (hparams : d.params = c.header.params.map Param.name)
    (hm : Sketch m symbols) (hd : d.Fits m) {s : Position × List Definition}
    (hrun : ls.foldlM (readLine symbols) (.outside m, d :: ds) = .ok s) :
    ∃ m' t, s = (.outside m', ds) ∧ m.Extends d.func t m' ∧ Recorded m' symbols d.func c := by
  obtain ⟨first, body, last, rfl, hfirst, hbody, hlast⟩ := exists_lines_of_define hdefined hls
  rw [List.foldlM_cons, bind_eq_ok] at hrun
  obtain ⟨s₁, hstart, hrun⟩ := hrun
  simp only [readLine, isDefinition?_define hfirst, bind_eq_ok, mapError_eq_ok,
    pure_eq_ok] at hstart
  obtain ⟨b, hstart, rfl⟩ := hstart
  obtain ⟨hdraft, rfl, rfl, hfunc⟩ := Body.Draft.start hm hd hstart
  rw [List.foldlM_append, bind_eq_ok] at hrun
  obtain ⟨s₂, hinside, hrun⟩ := hrun
  -- The body is read line by line.
  obtain ⟨b', rfl, hlines⟩ := (readLines_inside (ne_brace_of_lines hbody)).1 hinside
  have hbodyValid : ∀ ts ∈ body.map TokenLine.tokens, ∀ t ∈ ts, t.Valid := by
    intro ts hts
    obtain ⟨l, hl, rfl⟩ := List.mem_map.1 hts
    exact hvalid l (List.mem_cons_of_mem _ (List.mem_append_left _ hl))
  obtain ⟨t, hstays⟩ := Body.lines_stays hdraft hbodyValid hlines
  have hprogress : Body.Progress (b.Names d.params) b' c.paragraphs := by
    rw [hbody] at hlines hbodyValid
    exact (Body.Progress.start hm hd hstart).paragraphs hc.paragraphs hc.labels
      (.inl rfl) hbodyValid hlines
  -- The brace ends it.
  obtain ⟨hlastFirst, hlastRest⟩ := List.cons.inj hlast
  simp only [List.foldlM_cons, List.foldlM_nil, bind_eq_ok, pure_eq_ok] at hrun
  obtain ⟨_, hend, rfl⟩ := hrun
  rw [readLine, if_pos ⟨hlastFirst, hlastRest⟩] at hend
  split at hend
  · simp at hend
  · rename_i hnone
    obtain rfl := pure_eq_ok.1 hend
    obtain ⟨func, hf⟩ := hprogress.draft.home
    refine ⟨b'.module, t, rfl, hfunc ▸ hstays.module, b', rfl, hstays.symbols,
      hstays.func.trans hfunc, ⟨func, ?_⟩, hprogress.finish (fun name v hv => ?_) hnone⟩
    · rw [← hfunc, ← hstays.func]
      exact hf
    · obtain ⟨func₀, hf₀⟩ := hdraft.home
      exact Body.names_of_extends hstays.module hstays.func hf₀ (hparams ▸ hv)

/-- A declaration has no body. -/
lemma readLines_declare {c : Chapter} (hdeclared : c.paragraphs = []) {ls : List TokenLine}
    (hls : ls.map TokenLine.tokens = c.lines) (ds : List Definition) :
    ls.foldlM (readLine symbols) (.outside m, ds) = .ok (.outside m, ds) := by
  rw [Chapter.lines, if_pos hdeclared] at hls
  obtain ⟨line, none, rfl, hline, hnone⟩ := List.map_eq_cons_iff.1 hls
  obtain rfl := List.map_eq_nil_iff.1 hnone
  simp [readLine, isDefinition?_declare hline]

/-- The definitions among chapters, the first of which is that of function `k`: their functions, and
how their parameters are called. -/
def definitionsOf : Nat → List Chapter → List (FuncId × List (Option String))
  | _, [] => []
  | k, c :: cs =>
    (if c.paragraphs = [] then [] else [(⟨k⟩, c.header.params.map Param.name)])
      ++ definitionsOf (k + 1) cs

lemma exists_of_mem_definitionsOf {k : Nat} {cs : List Chapter} {f : FuncId}
    {names : List (Option String)} (h : (f, names) ∈ definitionsOf k cs) :
    ∃ (j : Nat) (c : Chapter), f = ⟨k + j⟩ ∧ cs[j]? = some c ∧ c.paragraphs ≠ [] := by
  induction cs generalizing k with
  | nil => simp [definitionsOf] at h
  | cons c cs ih =>
    rcases List.mem_append.1 h with h | h
    · split_ifs at h with hdeclared
      · simp at h
      · obtain ⟨rfl, -⟩ := Prod.mk.inj (List.mem_singleton.1 h)
        exact ⟨0, c, rfl, rfl, hdeclared⟩
    · obtain ⟨j, c', rfl, hc', hdefined⟩ := ih h
      exact ⟨j + 1, c', congrArg FuncId.mk (by omega), hc', hdefined⟩

/-- No definition is that of a function whose chapter is a declaration. -/
lemma ne_of_declared {cs : List Chapter} {ds : List Definition}
    (hds : ds.map (fun d => (d.func, d.params)) = definitionsOf 0 cs) {k : Nat} {c : Chapter}
    (hc : cs[k]? = some c) (hdeclared : c.paragraphs = []) : ∀ d ∈ ds, (⟨k⟩ : FuncId) ≠ d.func := by
  rintro d hd heq
  obtain ⟨j, c', hindex, hc', hdefined⟩ := exists_of_mem_definitionsOf
    (hds ▸ List.mem_map_of_mem hd : (d.func, d.params) ∈ definitionsOf 0 cs)
  obtain rfl : k = j := by simpa using congrArg FuncId.index (heq.trans hindex)
  obtain rfl := Option.some.inj (hc.symm.trans hc')
  exact hdefined hdeclared

/-- Chapters are read one after the other, and a body stays as it has been read. -/
theorem readLines_chapters {cs : List Chapter} {k : Nat} (hcs : ∀ c ∈ cs, c.Valid)
    {ls : List TokenLine} (hls : ls.map TokenLine.tokens = cs.flatMap Chapter.lines)
    (hvalid : ∀ l ∈ ls, l.Valid) (hm : Sketch m symbols) {ds : List Definition}
    (hpending : Pending m ds) (hds : ds.map (fun d => (d.func, d.params)) = definitionsOf k cs)
    {p : Position} {ds' : List Definition}
    (hrun : ls.foldlM (readLine symbols) (.outside m, ds) = .ok (p, ds')) :
    ∃ n, p = .outside n ∧ (∀ f, (∀ d ∈ ds, f ≠ d.func) → Untouched symbols f m n) ∧
      ∀ (j : Nat) c, cs[j]? = some c → c.paragraphs ≠ [] → Recorded n symbols ⟨k + j⟩ c := by
  induction cs generalizing k m ls ds with
  | nil =>
    obtain rfl := List.map_eq_nil_iff.1 hls
    obtain ⟨rfl, -⟩ := Prod.mk.inj (pure_eq_ok.1 hrun)
    exact ⟨m, rfl, fun f _ => .refl f m, by simp⟩
  | cons c cs ih =>
    obtain ⟨hc, hcs⟩ := List.forall_mem_cons.1 hcs
    obtain ⟨ls₁, ls₂, rfl, hls₁, hls₂⟩ := List.map_eq_append_iff.1 hls
    obtain ⟨hvalid₁, hvalid₂⟩ := List.forall_mem_append.1 hvalid
    rw [List.foldlM_append, bind_eq_ok] at hrun
    obtain ⟨⟨p₁, ds₁⟩, hfirst, hrest⟩ := hrun
    have hsound := readLines_sound (p := .outside m) ⟨hm, hpending⟩ hvalid₁ hfirst
    have hindex : ∀ j, k + 1 + j = k + (j + 1) := fun j => by omega
    by_cases hdeclared : c.paragraphs = []
    · rw [readLines_declare hdeclared hls₁, Except.ok.injEq, Prod.mk.injEq] at hfirst
      obtain ⟨rfl, rfl⟩ := hfirst
      rw [definitionsOf, if_pos hdeclared, List.nil_append] at hds
      obtain ⟨n, rfl, hkept, hread⟩ := ih hcs hls₂ hvalid₂ hm hpending hds hrest
      refine ⟨n, rfl, hkept, fun j c' hc' hdefined => ?_⟩
      cases j with
      | zero => exact absurd (Option.some.inj hc' ▸ hdeclared) hdefined
      | succ j => exact hindex j ▸ hread j c' hc' hdefined
    · rw [definitionsOf, if_neg hdeclared, List.singleton_append] at hds
      obtain ⟨d, ds, rfl, hd, hds⟩ := List.map_eq_cons_iff.1 hds
      obtain ⟨hfunc, hparams⟩ := Prod.mk.inj hd
      obtain ⟨hfits, hwait⟩ := List.forall_mem_cons.1 hpending.fits
      obtain ⟨hnew, honce⟩ := List.nodup_cons.1 (List.map_cons ▸ hpending.once)
      obtain ⟨m', t, heq, hextends, hrecorded⟩ :=
        readLines_define hc hdeclared hls₁ hvalid₁ hparams hm hfits hfirst
      obtain ⟨rfl, rfl⟩ := Prod.mk.inj heq
      obtain ⟨n, rfl, hkept, hread⟩ := ih hcs hls₂ hvalid₂ hsound.1 hsound.2 hds hrest
      refine ⟨n, rfl, fun f hf => ?_, fun j c' hc' hdefined => ?_⟩
      · obtain ⟨hne, hf⟩ := List.forall_mem_cons.1 hf
        exact (untouched_of_extends hm hextends hne).trans (hkept f hf)
      · cases j with
        | zero =>
          obtain rfl := Option.some.inj hc'
          refine hfunc ▸ (hkept d.func fun d' hd' heq => hnew ?_).recorded c hrecorded
          exact List.mem_map.2 ⟨d', hd', heq.symm⟩
        | succ j => exact hindex j ▸ hread j c' hc' hdefined

/-! ## Headers -/

open SsaFold.Module in
/-- A function keeps its header if its parameters keep their types and names. -/
lemma holdsHeader_of_values {func func' : Func} {h : Header} (hfunc : m.HoldsHeader func h)
    (hheading : func'.heading = func.heading)
    (hvalue : ∀ {v value}, m.value? v = some value →
      ∃ value', m'.value? v = some value' ∧ value'.ty = value.ty ∧ value'.name = value.name) :
    m'.HoldsHeader func' h := by
  refine ⟨(congrArg Func.name hheading :).trans hfunc.name,
    (congrArg Func.returnType hheading :).trans hfunc.returnType,
    (congrArg Func.linkage hheading :).trans hfunc.linkage,
    (congrArg Func.attrs hheading :).trans hfunc.attrs,
    (congrArg Func.vararg hheading :).trans hfunc.vararg, ?_⟩
  have hparams : func'.params = func.params := (congrArg Func.params hheading :)
  rw [hparams]
  refine hfunc.params.imp fun v p hp => ?_
  obtain ⟨value, hv, hty⟩ := typeOf?_eq_some.1 hp.ty
  obtain ⟨value', hv', hty', hname⟩ := hvalue hv
  refine ⟨typeOf?_eq_some.2 ⟨value', hv', hty'.trans hty⟩, fun s hs => ?_⟩
  rw [← hp.name s hs, nameOf?, nameOf?, hv, hv']
  exact hname

/-- A function that is added has its header. -/
lemma holdsHeader_addHeader {h : Header} {f : FuncId} (hrun : addHeader m h = .ok (m', f)) :
    m'.HoldsHeader (h.func m.values.size) h := by
  obtain ⟨-, -, hparams⟩ := func?_addHeader hrun
  refine ⟨rfl, rfl, rfl, rfl, rfl,
    List.forall₂_iff_get.2 ⟨by simp [Header.func], fun k hk hk' => ?_⟩⟩
  have hparam := hparams k _ (List.getElem?_eq_getElem hk')
  have hv : (h.func m.values.size).params.get ⟨k, hk⟩ = ⟨m.values.size + 1 + k⟩ := by
    simp [Header.func]
  rw [hv]
  refine ⟨Module.typeOf?_eq_some.2 ⟨_, hparam, rfl⟩, fun s hs => ?_⟩
  rw [List.get_eq_getElem] at hs
  simp [Module.nameOf?, hparam, hs]

/-- What has been added for chapters: a function for each of them, with its header. -/
structure Headers.Hold (s : Headers) (cs : List Chapter) : Prop where
  size : s.module.functions.size = cs.length
  definitions : s.definitions.reverse.map (fun d => (d.func, d.params)) = definitionsOf 0 cs
  header : ∀ (k : Nat) c, cs[k]? = some c → ∃ func, s.module.func? ⟨k⟩ = some func ∧
    func.layout = #[] ∧ s.module.HoldsHeader func c.header
  known : Known s.module s.symbols

lemma definitionsOf_append (k : Nat) (cs cs' : List Chapter) :
    definitionsOf k (cs ++ cs') = definitionsOf k cs ++ definitionsOf (k + cs.length) cs' := by
  induction cs generalizing k with
  | nil => rfl
  | cons c cs ih =>
    rw [List.cons_append, definitionsOf, definitionsOf, ih, List.append_assoc, List.length_cons]
    congr 3
    omega

/-- A header line adds the function of its chapter. -/
lemma Headers.Hold.addHeader {s s' : Headers} {cs : List Chapter} (h : s.Hold cs) {c : Chapter}
    (hc : c.header.Valid) {line : TokenLine} {definition : Bool}
    (hline : line.isDefinition? = some definition) (hrest : line.rest = c.header.tokens definition)
    (hdefinition : definition = true ↔ c.paragraphs ≠ []) (hrun : s.add line = .ok s') :
    s'.Hold (cs ++ [c]) := by
  simp only [Headers.add, hline, hrest, Header.read_tokens hc, bind_eq_ok] at hrun
  obtain ⟨header, hheader, hrun⟩ := hrun
  obtain rfl := Except.ok.inj hheader
  by_cases hknown : s.symbols.contains c.header.name = true
  · simp [hknown] at hrun
  rw [if_neg hknown] at hrun
  simp only [bind_eq_ok, liftM_eq_ok, pure_eq_ok, Module.getFunc_eq_ok] at hrun
  obtain ⟨⟨m, f⟩, hadd, func, hfunc, rfl⟩ := hrun
  have hkeeps := keeps_addHeader hadd
  have hholds := holdsHeader_addHeader hadd
  obtain ⟨hfunc', haddress, -⟩ := func?_addHeader hadd
  obtain rfl := Option.some.inj (hfunc'.symm.trans hfunc)
  obtain ⟨rfl, rfl⟩ := addHeader_eq_ok hadd
  have hold : ∀ {g func}, s.module.func? g = some func →
      Module.func? { s.module with
        values := s.module.values ++ (c.header.newValues ⟨s.module.functions.size⟩).toArray
        functions := s.module.functions.push (c.header.func s.module.values.size) } g
          = some func := by
    intro g func hg
    obtain ⟨hlt, heq⟩ := Array.getElem?_eq_some_iff.1 hg
    rw [Module.func?, Array.getElem?_push_lt hlt, heq]
  refine ⟨by simp [h.size], ?_, fun k c' hc' => ?_, ?_⟩
  · rw [definitionsOf_append, ← h.definitions, Nat.zero_add, ← h.size]
    cases definition with
    | true => simp [definitionsOf, hdefinition.1 rfl]
    | false => simp [definitionsOf, not_not.1 (mt hdefinition.2 Bool.false_ne_true)]
  · rw [List.getElem?_append] at hc'
    split_ifs at hc' with hk
    · obtain ⟨func, hfunc, hlayout, hheader⟩ := h.header k c' hc'
      refine ⟨func, hold hfunc, hlayout, holdsHeader_of_values hheader rfl fun {v value} hv =>
        ⟨value, ?_, rfl, rfl⟩⟩
      rw [Module.value?, Array.getElem?_append_left (Array.getElem?_eq_some_iff.1 hv).1]
      exact hv
    · rw [List.getElem?_singleton] at hc'
      split_ifs at hc' with hlast
      obtain rfl := Option.some.inj hc'
      obtain rfl : k = s.module.functions.size := by rw [h.size]; omega
      exact ⟨_, hfunc', rfl, hholds⟩
  · refine h.known.insert hkeeps (getElem?_eq_none_of_contains hknown) (fun g func hg => ?_)
      fun g glob hg => .inl hg
    rw [Module.func?, Array.getElem?_push] at hg
    split_ifs at hg with hnew
    · obtain rfl := Option.some.inj hg
      obtain rfl : g = ⟨s.module.functions.size⟩ := congrArg FuncId.mk hnew
      exact .inr ⟨rfl, Module.kind?_eq_some.2 ⟨_, haddress, rfl⟩⟩
    · exact .inl hg

/-- Lines that are no headers add nothing. -/
lemma Headers.foldlM_add_of_none {s : Headers} {ls : List TokenLine}
    (hls : ∀ l ∈ ls, l.isDefinition? = none) : ls.foldlM Headers.add s = .ok s := by
  induction ls with
  | nil => rfl
  | cons l ls ih =>
    obtain ⟨hl, hls⟩ := List.forall_mem_cons.1 hls
    rw [List.foldlM_cons, Headers.add, hl]
    exact ih hls

/-- Of the lines of a chapter only its header counts. -/
lemma Headers.foldlM_add_chapter {c : Chapter} {ls : List TokenLine}
    (hls : ls.map TokenLine.tokens = c.lines) :
    ∃ line definition, line.isDefinition? = some definition ∧
      line.rest = c.header.tokens definition ∧ (definition = true ↔ c.paragraphs ≠ []) ∧
      ∀ s, ls.foldlM Headers.add s = Headers.add s line := by
  by_cases hdeclared : c.paragraphs = []
  · rw [Chapter.lines, if_pos hdeclared] at hls
    obtain ⟨line, none, rfl, hline, hnone⟩ := List.map_eq_cons_iff.1 hls
    obtain rfl := List.map_eq_nil_iff.1 hnone
    exact ⟨line, false, isDefinition?_declare hline, (List.cons.inj hline).2, by simp [hdeclared],
      fun s => by simp⟩
  · obtain ⟨first, body, last, rfl, hfirst, hbody, hlast⟩ := exists_lines_of_define hdeclared hls
    refine ⟨first, true, isDefinition?_define hfirst, (List.cons.inj hfirst).2, by simp [hdeclared],
      fun s => ?_⟩
    have hrest : ∀ l ∈ body ++ [last], l.isDefinition? = none := by
      intro l hl
      rw [TokenLine.isDefinition?]
      rcases List.mem_append.1 hl with hl | hl
      · obtain ⟨p, -, hp⟩ := List.mem_flatMap.1 (hbody ▸ List.mem_map_of_mem hl)
        obtain ⟨first, rest, htokens, -, hdefine, hdeclare⟩ := first_ne_of_mem_lines hp
        obtain ⟨rfl, -⟩ := List.cons.inj htokens
        split
        · rename_i heq
          exact absurd heq hdefine
        · rename_i heq
          exact absurd heq hdeclare
        · rfl
      · obtain rfl := List.mem_singleton.1 hl
        simp only [(List.cons.inj hlast).1]
    rw [List.foldlM_cons]
    simp only [foldlM_add_of_none hrest]
    exact bind_pure _

/-- The lines of a chapter add its function. -/
lemma Headers.Hold.chapter {s s' : Headers} {cs : List Chapter} (h : s.Hold cs) {c : Chapter}
    (hc : c.Valid) {ls : List TokenLine} (hls : ls.map TokenLine.tokens = c.lines)
    (hrun : ls.foldlM Headers.add s = .ok s') : s'.Hold (cs ++ [c]) := by
  obtain ⟨line, definition, hline, hrest, hdefinition, hadd⟩ := foldlM_add_chapter hls
  exact h.addHeader hc.header hline hrest hdefinition ((hadd s).symm.trans hrun)

/-- Chapters add their functions one after the other. -/
lemma Headers.Hold.chapters {s s' : Headers} {cs cs' : List Chapter} (h : s.Hold cs)
    (hcs : ∀ c ∈ cs', c.Valid) {ls : List TokenLine}
    (hls : ls.map TokenLine.tokens = cs'.flatMap Chapter.lines)
    (hrun : ls.foldlM Headers.add s = .ok s') : s'.Hold (cs ++ cs') := by
  induction cs' generalizing s cs ls with
  | nil =>
    obtain rfl := List.map_eq_nil_iff.1 hls
    obtain rfl := pure_eq_ok.1 hrun
    rwa [List.append_nil]
  | cons c cs' ih =>
    obtain ⟨hc, hcs⟩ := List.forall_mem_cons.1 hcs
    obtain ⟨ls₁, ls₂, rfl, hls₁, hls₂⟩ := List.map_eq_append_iff.1 hls
    rw [List.foldlM_append, bind_eq_ok] at hrun
    obtain ⟨s₁, hfirst, hrest⟩ := hrun
    rw [List.append_cons]
    exact ih (h.chapter hc hls₁ hfirst) hcs hls₂ hrest

/-! ## Texts -/

/-- The functions of a module that has been read hold the chapters.  The scopes are those of bodies
that have been read with the symbols. -/
structure HoldsRead (n : Module) (symbols : Symbols) (cs : List Chapter) : Prop where
  known : Known n symbols
  size : n.functions.size = cs.length
  chapter : ∀ (k : Nat) c, cs[k]? = some c → ∃ func T, n.func? ⟨k⟩ = some func ∧
    n.HoldsChapter T func c ∧ Module.OneMeaning func T ∧
    ∀ a v, T.denotes a v → ∃ b : Body, b.module = n ∧ b.symbols = symbols ∧ b.Denotes a v

/-- A function whose body has been read holds its chapter. -/
lemma Recorded.holdsChapter {f : FuncId} {func : Func} {c : Chapter} (h : Recorded m symbols f c)
    (hf : m.func? f = some func) (hheader : m.HoldsHeader func c.header) :
    ∃ T, m.HoldsChapter T func c ∧ Module.OneMeaning func T ∧
      ∀ a v, T.denotes a v → ∃ b : Body, b.module = m ∧ b.symbols = symbols ∧ b.Denotes a v := by
  obtain ⟨b, rfl, rfl, rfl, -, hfinished⟩ := h
  refine ⟨b.scope, ⟨hheader, fun _ => ?_, hfinished.holds func hf⟩, hfinished.oneMeaning hf,
    fun a v hv => ⟨b, rfl, rfl, hv⟩⟩
  refine List.forall₂_iff_get.2 ⟨hheader.params.length_eq, fun k hk hk' s hs => ?_⟩
  refine hfinished.names s _ ⟨func, k, hf, ?_, List.getElem?_eq_getElem hk⟩
  rw [List.getElem?_map, List.getElem?_eq_getElem hk', Option.map_some]
  exact congrArg some hs

/-- A declaration holds its chapter in the empty scope. -/
lemma holdsChapter_of_declared {func : Func} {c : Chapter} (hlayout : func.layout = #[])
    (hdeclared : c.paragraphs = []) (hheader : m.HoldsHeader func c.header) :
    ∃ T, m.HoldsChapter T func c ∧ Module.OneMeaning func T ∧
      ∀ a v, T.denotes a v → ∃ b : Body, b.module = m ∧ b.symbols = symbols ∧ b.Denotes a v := by
  refine ⟨⟨fun _ _ => False, fun _ _ => False⟩, ⟨hheader, absurd hdeclared, ?_⟩,
    ⟨False.elim, False.elim, False.elim, False.elim⟩, fun _ _ => False.elim⟩
  simp [hlayout, hdeclared]

/-- When the headers of chapters have been added there is a function for each of them. -/
lemma hold_headers {o : Outline} {s : Headers} {cs : List Chapter}
    (hfunctions : o.module.functions = #[]) (hknown : Known o.module o.symbols)
    (hlines : o.lines.map TokenLine.tokens = cs.flatMap Chapter.lines) (hcs : ∀ c ∈ cs, c.Valid)
    (hrun : o.headers = .ok s) : s.module.functions.size = cs.length ∧
      s.definitions.map (fun d => (d.func, d.params)) = definitionsOf 0 cs ∧
      (∀ (k : Nat) c, cs[k]? = some c → ∃ func, s.module.func? ⟨k⟩ = some func ∧ func.layout = #[] ∧
        s.module.HoldsHeader func c.header) ∧ Known s.module s.symbols := by
  simp only [Outline.headers, bind_eq_ok, pure_eq_ok] at hrun
  obtain ⟨s₁, hfold, rfl⟩ := hrun
  have hempty : Headers.Hold { module := o.module, symbols := o.symbols } [] := by
    refine ⟨?_, rfl, by simp, hknown⟩
    rw [hfunctions]
    rfl
  have hall := hempty.chapters hcs hlines hfold
  exact ⟨hall.size, hall.definitions, hall.header, hall.known⟩

/-- A text that is laid out as chapters is read as a module whose functions hold them. -/
theorem holdsRead_ofText {text : String} {n : Module} {kinds : List LineKind} {cs : List Chapter}
    (hread : Module.ofText text = .ok n) (hprints : Prints text kinds)
    (hkinds : kinds.filterMap LineKind.tokens? = cs.flatMap Chapter.lines)
    (hcs : ∀ c ∈ cs, c.Valid) :
    ∃ o symbols, Outline.Gathers kinds {} o ∧ o.module.Apart n ∧ HoldsRead n symbols cs := by
  simp only [Module.ofText, bind_eq_ok, mapError_eq_ok, pure_eq_ok] at hread
  obtain ⟨o, houtline, s, hheaders, n, hbodies, ⟨⟩, -, rfl⟩ := hread
  obtain ⟨hsketch, hvalid⟩ := Outline.ofText_sketch houtline
  have hsound := Outline.headers_sound hsketch hvalid hheaders
  have hspares := readBodies_spares hsound hvalid hbodies
  have hgathers := Outline.gathers_ofText hprints houtline
  have hlines : o.lines.map TokenLine.tokens = cs.flatMap Chapter.lines := by
    simpa [hkinds] using hgathers.lines
  -- The headers of the chapters are there before the first body is read.
  obtain ⟨hsize, hdefinitions, hheader, hknown⟩ :=
    hold_headers (o := o) hgathers.functions (Outline.ofText_known houtline) hlines hcs hheaders
  simp only [readBodies, bind_eq_ok] at hbodies
  obtain ⟨⟨p, ds⟩, hfold, hend⟩ := hbodies
  obtain ⟨n', rfl, huntouched, hrecorded⟩ :=
    readLines_chapters hcs hlines hvalid hsound.sketch hsound.pending hdefinitions hfold
  obtain rfl := pure_eq_ok.1 hend
  refine ⟨_, s.symbols, hgathers, (Outline.headers_apart hheaders).trans hspares.apart,
    hspares.known hknown, ?_, fun k c hc => ?_⟩
  · rw [← hsize, ← Array.size_map (f := Func.heading), hspares.headings, Array.size_map]
  · obtain ⟨func, hf, hlayout, hheld⟩ := hheader k c hc
    obtain ⟨func', hf', -⟩ := hspares.keeps.func hf
    obtain ⟨func₀, hf₀, hheading⟩ := hspares.heading hf'
    obtain rfl := Option.some.inj (hf.symm.trans hf₀)
    have hheld' : n'.HoldsHeader func' c.header := by
      refine holdsHeader_of_values hheld hheading fun {v value} hv => ?_
      obtain ⟨value', hv', -, hty⟩ := hspares.keeps.value hv
      obtain ⟨value'', hv'', hname⟩ := hspares.name hv
      obtain rfl := Option.some.inj (hv'.symm.trans hv'')
      exact ⟨value', hv', hty, hname⟩
    by_cases hdeclared : c.paragraphs = []
    · have hothers := ne_of_declared hdefinitions hc hdeclared
      obtain rfl := Option.some.inj (hf'.symm.trans ((huntouched ⟨k⟩ hothers).func func hf))
      exact ⟨func', holdsChapter_of_declared hlayout hdeclared hheld' |>.imp fun _ h => ⟨hf', h⟩⟩
    · have hrec := hrecorded k c hc hdeclared
      rw [Nat.zero_add] at hrec
      exact ⟨func', (hrec.holdsChapter hf' hheld').imp fun _ h => ⟨hf', h⟩⟩

end SsaFold.Text
