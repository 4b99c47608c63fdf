import SsaFold.Proofs.Text.Sites

/-!
# The body of one definition

The sweep over the bodies takes in one line after the other (`readLine_cases`), and `Reaches` says
where it stands in a text.  A body is what stands between a header and the next brace (`BodyOf`),
and `Body.Somewhere` says that it has a line of some kind.

If the text is read, then each of its headers has a body (`exists_bodyOf`), and the body is read
from the first line to the last (`BodyOf.read`).  What then stands at a place of its function stands
there in the module that is returned (`Reaches.valueAt?`).
-/

namespace SsaFold.Text

variable {text : String} {symbols : Symbols} {p p' : Position} {ds ds' : List Definition}
  {l : TokenLine} {after : List TokenLine} {m : Module}

/-! ## Positions -/

lemma Position.Sound.module (h : p.Sound symbols ds) : p.module.Draft ∧ p.module.Shaped := by
  cases p with
  | outside m =>
    obtain ⟨hm, -⟩ := h
    exact ⟨hm.draft, hm.wellFormed.module.reachable.intact.shaped⟩
  | inside b =>
    obtain ⟨hb, -⟩ := h
    exact ⟨hb.module, hb.shaped⟩

/-- A line begins a body, or stands between functions, or ends a body, or stands in it. -/
lemma readLine_cases (hrun : readLine symbols (p, ds) l = .ok (p', ds')) :
    (∃ m d b, p = .outside m ∧ ds = d :: ds' ∧ Body.start m symbols d.func d.params = .ok b ∧
      p' = .inside b) ∨
    (∃ m, p = .outside m ∧ p' = .outside m ∧ ds' = ds) ∨
    (∃ b, p = .inside b ∧ l.tokens = [.punct '\x7d'] ∧ b.endError? = none ∧
      p' = .outside b.module ∧ ds' = ds) ∨
    ∃ b b', p = .inside b ∧ Body.line l.tokens b = .ok ((), b') ∧ p' = .inside b' ∧ ds' = ds := by
  cases p with
  | outside m =>
    simp only [readLine] at hrun
    split at hrun
    · simp only [bind_eq_ok, mapError_eq_ok, pure_eq_ok, Prod.mk.injEq] at hrun
      obtain ⟨b, hstart, rfl, rfl⟩ := hrun
      exact .inl ⟨m, _, b, rfl, rfl, hstart, rfl⟩
    · simp at hrun
    · obtain ⟨rfl, rfl⟩ := Prod.mk.inj (pure_eq_ok.1 hrun)
      exact .inr (.inl ⟨m, rfl, rfl, rfl⟩)
    · simp at hrun
  | inside b =>
    simp only [readLine] at hrun
    split_ifs at hrun with hbrace
    · split at hrun
      · simp at hrun
      · rename_i hend
        obtain ⟨rfl, rfl⟩ := Prod.mk.inj (pure_eq_ok.1 hrun)
        exact .inr
          (.inr (.inl ⟨b, rfl, by rw [TokenLine.tokens, hbrace.1, hbrace.2], hend, rfl, rfl⟩))
    · simp only [bind_eq_ok, mapError_eq_ok, pure_eq_ok, Prod.mk.injEq] at hrun
      obtain ⟨⟨_, b'⟩, hline, rfl, rfl⟩ := hrun
      exact .inr (.inr (.inr ⟨b, b', rfl, hline, rfl, rfl⟩))

lemma readLine_extends (h : p.Sound symbols ds) (hl : l.Valid)
    (hrun : readLine symbols (p, ds) l = .ok (p', ds')) :
    ∃ g s, p.module.Extends g s p'.module := by
  rcases readLine_cases hrun with ⟨m, d, b, rfl, rfl, hstart, rfl⟩ | ⟨m, rfl, rfl, -⟩ |
    ⟨b, rfl, -, -, rfl, -⟩ | ⟨b, b', rfl, hline, rfl, -⟩
  · obtain ⟨hm, hpending⟩ := h
    obtain ⟨-, heq, -⟩ := Body.Draft.start hm (hpending.fits d List.mem_cons_self) hstart
    exact ⟨d.func, id, by rw [Position.module, Position.module, heq]; exact .refl _ _⟩
  · exact ⟨⟨0⟩, id, .refl _ _⟩
  · exact ⟨b.func, id, .refl _ _⟩
  · obtain ⟨s, hstays⟩ := Body.line_stays h.1 hl hline
    exact ⟨b.func, s, hstays.module⟩

/-! ## Places in a text -/

/-- The sweep over the bodies of the text comes to the position, where definitions and lines are
still to be read. -/
def Reaches (text : String) (symbols : Symbols) (p : Position) (ds : List Definition)
    (after : List TokenLine) : Prop :=
  ∃ o s before, Outline.ofText text = .ok o ∧ o.headers = .ok s ∧ s.symbols = symbols ∧
    o.lines = before ++ after ∧
    before.foldlM (readLine symbols) (.outside s.module, s.definitions) = .ok (p, ds)

/-- What holds between functions and is kept by each line holds at every position. -/
lemma Reaches.induction {P : Position → Prop} (h : Reaches text symbols p ds after)
    (start : ∀ m, P (.outside m))
    (step : ∀ p ds l p' ds', p.Sound symbols ds → TokenLine.Valid l → P p →
      readLine symbols (p, ds) l = .ok (p', ds') → P p') :
    p.Sound symbols ds ∧ P p ∧ ∀ l ∈ after, l.Valid := by
  obtain ⟨o, s, before, houtline, hheaders, rfl, hlines, hrun⟩ := h
  obtain ⟨hsketch, hvalid⟩ := Outline.ofText_sketch houtline
  rw [hlines] at hvalid
  obtain ⟨hbefore, hafter⟩ := List.forall_mem_append.1 hvalid
  have hsound := Outline.headers_sound hsketch (hlines ▸ hvalid) hheaders
  have hboth := foldlM_keeps_mem
    (P := fun t : Position × List Definition => t.1.Sound s.symbols t.2 ∧ P t.1)
    (fun t l hl t' ht hread => ⟨readLine_sound ht.1 (hbefore l hl) hread,
      step t.1 t.2 l t'.1 t'.2 ht.1 (hbefore l hl) ht.2 hread⟩)
    ⟨hsound.outside, start _⟩ hrun
  exact ⟨hboth.1, hboth.2, hafter⟩

lemma Reaches.sound (h : Reaches text symbols p ds after) :
    p.Sound symbols ds ∧ ∀ l ∈ after, l.Valid := by
  obtain ⟨hsound, -, hafter⟩ := h.induction (P := fun _ => True) (fun _ => trivial)
    fun _ _ _ _ _ _ _ _ _ => trivial
  exact ⟨hsound, hafter⟩

lemma Reaches.foldlM {ls : List TokenLine} (h : Reaches text symbols p ds (ls ++ after))
    (hrun : ls.foldlM (readLine symbols) (p, ds) = .ok (p', ds')) :
    Reaches text symbols p' ds' after := by
  obtain ⟨o, s, before, houtline, hheaders, hsymbols, hlines, hbefore⟩ := h
  refine ⟨o, s, before ++ ls, houtline, hheaders, hsymbols, by rw [hlines, List.append_assoc], ?_⟩
  rw [List.foldlM_append, hbefore]
  exact hrun

lemma Reaches.step (h : Reaches text symbols p ds (l :: after))
    (hrun : readLine symbols (p, ds) l = .ok (p', ds')) : Reaches text symbols p' ds' after := by
  have hone : [l].foldlM (readLine symbols) (p, ds) = .ok (p', ds') := by
    rw [List.foldlM_cons, hrun]
    rfl
  exact Reaches.foldlM h hone

/-- If the text is read, then its bodies are. -/
lemma exists_reaches (hread : Module.ofText text = .ok m) {o : Outline}
    (houtline : Outline.ofText text = .ok o) :
    ∃ symbols m₀ ds, Reaches text symbols (.outside m₀) ds o.lines := by
  simp only [Module.ofText, bind_eq_ok, mapError_eq_ok] at hread
  obtain ⟨o', houtline', s, hheaders, -⟩ := hread
  obtain rfl := Except.ok.inj (houtline.symm.trans houtline')
  exact ⟨s.symbols, s.module, s.definitions, o, s, [], houtline, hheaders, rfl, rfl, rfl⟩

/-- If the text is read, then its last line is reached. -/
lemma Reaches.rest (h : Reaches text symbols p ds after) (hread : Module.ofText text = .ok m) :
    ∃ ds', after.foldlM (readLine symbols) (p, ds) = .ok (.outside m, ds') := by
  obtain ⟨o, s, before, houtline, hheaders, rfl, hlines, hbefore⟩ := h
  simp only [Module.ofText, bind_eq_ok, mapError_eq_ok, pure_eq_ok] at hread
  obtain ⟨o', houtline', s', hheaders', m', hbodies, ⟨⟩, -, rfl⟩ := hread
  obtain rfl := Except.ok.inj (houtline.symm.trans houtline')
  obtain rfl := Except.ok.inj (hheaders.symm.trans hheaders')
  simp only [readBodies, bind_eq_ok] at hbodies
  obtain ⟨⟨q, ds'⟩, hfold, hend⟩ := hbodies
  rw [hlines, List.foldlM_append, hbefore] at hfold
  cases q with
  | outside m₁ =>
    obtain rfl := pure_eq_ok.1 hend
    exact ⟨ds', hfold⟩
  | inside b => simp at hend

/-- If the text is read, then each line of a body is. -/
lemma Reaches.line {b : Body} (h : Reaches text symbols (.inside b) ds (l :: after))
    (hread : Module.ofText text = .ok m) (hl : l.tokens ≠ [.punct '\x7d']) :
    ∃ b', Body.line l.tokens b = .ok ((), b') ∧ Reaches text symbols (.inside b') ds after := by
  obtain ⟨ds', hrest⟩ := h.rest hread
  rw [List.foldlM_cons, bind_eq_ok] at hrest
  obtain ⟨⟨p, ds₁⟩, hstep, -⟩ := hrest
  have hafter := h.step hstep
  rcases readLine_cases hstep with ⟨_, _, _, hp, -⟩ | ⟨_, hp, -⟩ | ⟨_, -, hbrace, -⟩ |
    ⟨b₁, b', hp, hline, rfl, rfl⟩
  · cases hp
  · cases hp
  · exact absurd hbrace hl
  · obtain rfl := Position.inside.inj hp
    exact ⟨b', hline, hafter⟩

/-- What stands at a place and is no placeholder stands there in the module that is returned. -/
lemma Reaches.valueAt? (h : Reaches text symbols p ds after) (hread : Module.ofText text = .ok m)
    {f : FuncId} {x : Site} {v : ValueId} {kind : ValueKind} (hv : p.module.valueAt? f x = some v)
    (hkind : p.module.kind? v = some kind) (hne : kind ≠ .placeholder) :
    m.valueAt? f x = some v := by
  obtain ⟨hsound, hafter⟩ := h.sound
  obtain ⟨ds', hrest⟩ := h.rest hread
  refine (foldlM_keeps_mem (P := fun t : Position × List Definition => t.1.Sound symbols t.2 ∧
    t.1.module.valueAt? f x = some v ∧ t.1.module.kind? v = some kind) ?_
      ⟨hsound, hv, hkind⟩ hrest).2.1
  rintro t l hl t' ⟨ht, hv, hkind⟩ hstep
  obtain ⟨g, s, hextends⟩ := readLine_extends ht (hafter l hl) hstep
  refine ⟨readLine_sound ht (hafter l hl) hstep, ?_, hextends.keeps.kind? hkind⟩
  have := hextends.valueAt? ht.module.1 ht.module.2 hv
  rwa [hextends.fixed hkind hne] at this

/-! ## Bodies -/

/-- The text has a definition with the lines as its body, and the reading of the body begins with
`b`. -/
structure BodyOf (text : String) (d : Definition) (b : Body) (tss : List (List Token)) : Prop where
  found : ∃ symbols m ds header ls last after,
    Reaches text symbols (.outside m) (d :: ds) (header :: (ls ++ last :: after)) ∧
      header.isDefinition? = some true ∧ Body.start m symbols d.func d.params = .ok b ∧
      ls.map TokenLine.tokens = tss ∧ last.tokens = [.punct '\x7d']
  /-- The body goes on to the first brace. -/
  inside : ∀ ts ∈ tss, ts ≠ [.punct '\x7d']

namespace Body

/-- Of the lines, one is as `P` says in the body that is read to it. -/
inductive Somewhere (P : Body → List Token → Prop) : Body → List (List Token) → Prop
  | here {b : Body} {ts : List Token} {tss : List (List Token)} (h : P b ts) :
      Somewhere P b (ts :: tss)
  | later {b b' : Body} {ts : List Token} {tss : List (List Token)}
      (hline : line ts b = .ok ((), b')) (h : Somewhere P b' tss) : Somewhere P b (ts :: tss)

lemma not_somewhere {P : Body → List Token → Prop} (h : ∀ b ts, ¬ P b ts) {b : Body}
    {tss : List (List Token)} : ¬ Somewhere P b tss := by
  intro hsome
  induction hsome with
  | here hp => exact h _ _ hp
  | later _ _ ih => exact ih

/-- What each line keeps, or brings about if it is as `P` says, holds at the end of the lines. -/
lemma lines_gather {b b' : Body} {tss : List (List Token)} {u : Unit} {I Q : Body → Prop}
    {P N : Body → List Token → Prop}
    (step : ∀ b ts b', I b → (∀ t ∈ ts, t.Valid) → line ts b = .ok ((), b') → ¬ N b ts →
      I b' ∧ (Q b ∨ P b ts → Q b'))
    (h : I b) (htss : ∀ ts ∈ tss, ∀ t ∈ ts, t.Valid) (hrun : lines tss b = .ok (u, b'))
    (hn : ¬ Somewhere N b tss) (hx : Q b ∨ Somewhere P b tss) : Q b' := by
  induction tss generalizing b with
  | nil =>
    obtain ⟨-, rfl⟩ := StateT.pure_eq_ok.1 hrun
    refine hx.resolve_right fun hx => ?_
    cases hx
  | cons ts tss ih =>
    obtain ⟨hts, htss⟩ := List.forall_mem_cons.1 htss
    obtain ⟨b₁, hline, hrest⟩ := lines_cons_eq_ok hrun
    obtain ⟨h₁, hstep⟩ := step b ts b₁ h hts hline fun h => hn (.here h)
    refine ih h₁ htss hrest (fun h => hn (.later hline h)) ?_
    rcases hx with hx | hx
    · exact .inl (hstep (.inl hx))
    · cases hx with
      | here hx => exact .inl (hstep (.inr hx))
      | later hline' hx =>
        obtain ⟨-, rfl⟩ := Prod.mk.inj (Except.ok.inj (hline.symm.trans hline'))
        exact .inr hx

end Body

variable {d : Definition} {b : Body} {tss : List (List Token)}

/-- A body begins with names for its parameters only. -/
lemma BodyOf.begins (h : BodyOf text d b tss) : ∃ symbols m ds ls last after,
    Reaches text symbols (.inside b) ds (ls ++ last :: after) ∧ Sketch m symbols ∧ d.Fits m ∧
      Body.start m symbols d.func d.params = .ok b ∧ ls.map TokenLine.tokens = tss ∧
      last.tokens = [.punct '\x7d'] := by
  obtain ⟨symbols, m, ds, header, ls, last, after, hreach, hheader, hstart, hls, hlast⟩ := h.found
  obtain ⟨⟨hm, hpending⟩, -⟩ := hreach.sound
  have hstep : readLine symbols (.outside m, d :: ds) header = .ok (.inside b, ds) := by
    simp only [readLine, hheader, bind_eq_ok, mapError_eq_ok, pure_eq_ok]
    exact ⟨b, hstart, rfl⟩
  exact ⟨symbols, m, ds, ls, last, after, hreach.step hstep, hm, hpending.fits d List.mem_cons_self,
    hstart, hls, hlast⟩

lemma not_isInstruction_define {ts : List Token} : ¬ Body.IsInstruction (.word "define" :: ts) := by
  rintro ⟨x, hx⟩
  have : (Statement.head.run (.word "define" :: ts)).result
      = .error (.unknownOpcode "define") := rfl
  rw [this] at hx
  cases hx

/-- If the text is read, then each of its headers has a body. -/
lemma exists_bodyOf (hread : Module.ofText text = .ok m) {o : Outline}
    (houtline : Outline.ofText text = .ok o) {before tss after : List (List Token)}
    {rest : List Token}
    (hlines : o.lines.map TokenLine.tokens
      = before ++ (.word "define" :: rest) :: (tss ++ [.punct '\x7d'] :: after))
    (htss : ∀ ts ∈ tss, ts ≠ [.punct '\x7d']) : ∃ d b, BodyOf text d b tss := by
  obtain ⟨ls₀, ls₁, hsplit, -, hls₁⟩ := List.map_eq_append_iff.1 hlines
  obtain ⟨header, ls₂, rfl, hheader, hls₂⟩ := List.map_eq_cons_iff.1 hls₁
  obtain ⟨ls, ls₃, rfl, hls, hls₃⟩ := List.map_eq_append_iff.1 hls₂
  obtain ⟨last, ls₄, rfl, hlast, -⟩ := List.map_eq_cons_iff.1 hls₃
  obtain ⟨symbols, m₀, ds, hstart⟩ := exists_reaches hread houtline
  rw [hsplit] at hstart
  obtain ⟨ds₁, hrest⟩ := hstart.rest hread
  rw [List.foldlM_append, bind_eq_ok] at hrest
  obtain ⟨⟨p, ds₂⟩, hbefore, hrest⟩ := hrest
  have hreach := hstart.foldlM hbefore
  cases p with
  | outside m₁ =>
    rw [List.foldlM_cons, bind_eq_ok] at hrest
    obtain ⟨q, hstep, -⟩ := hrest
    have hdefine := isDefinition?_define hheader
    cases ds₂ with
    | nil => simp [readLine, hdefine] at hstep
    | cons d ds₂ =>
      simp only [readLine, hdefine, bind_eq_ok, mapError_eq_ok, pure_eq_ok] at hstep
      obtain ⟨b, hstart, -⟩ := hstep
      exact ⟨d, b,
        ⟨symbols, m₁, ds₂, header, ls, last, ls₄, hreach, hdefine, hstart, hls, hlast⟩, htss⟩
  | inside b =>
    -- A header is no line of a body.
    obtain ⟨b', hline, -⟩ := hreach.line hread (by simp [hheader])
    have hrun : Body.instruction (.word "define" :: rest) b = .ok ((), b') := by
      rwa [hheader] at hline
    obtain ⟨name, op, s, hparses, -⟩ := Body.instruction_stages hrun
    exact absurd hparses.isInstruction not_isInstruction_define

/-- The body of a text that is one definition. -/
lemma exists_bodyOf_of_lines (header : List Token) (hok : (Module.ofText text).isOk = true)
    (hlines : (Outline.ofText text).toOption.map (fun o => o.lines.map TokenLine.tokens)
      = some ((.word "define" :: header) :: (tss ++ [[.punct '\x7d']])))
    (htss : ∀ ts ∈ tss, ts ≠ [.punct '\x7d']) :
    ∃ m d b, Module.ofText text = .ok m ∧ BodyOf text d b tss := by
  cases hread : Module.ofText text with
  | error e => simp [hread, Except.isOk, Except.toBool] at hok
  | ok m =>
    cases houtline : Outline.ofText text with
    | error e => simp [houtline, Except.toOption] at hlines
    | ok o =>
      rw [houtline] at hlines
      have hsplit : o.lines.map TokenLine.tokens
          = [] ++ (.word "define" :: header) :: (tss ++ [.punct '\x7d'] :: []) :=
        Option.some.inj hlines
      obtain ⟨d, b, hbody⟩ := exists_bodyOf hread houtline hsplit htss
      exact ⟨m, d, b, rfl, hbody⟩

/-- If the text is read, then the body is read to its end. -/
lemma BodyOf.read (h : BodyOf text d b tss) (hread : Module.ofText text = .ok m) :
    (b.Draft ∧ ∀ ts ∈ tss, ∀ t ∈ ts, t.Valid) ∧ b.func = d.func ∧
      ∃ b', Body.lines tss b = .ok ((), b') ∧ b'.func = d.func ∧ b'.endError? = none ∧
        ∃ symbols ds after, Reaches text symbols (.inside b') ds after := by
  obtain ⟨symbols, m₀, ds, ls, last, after, hreach, hm, hd, hstart, rfl, hlast⟩ := h.begins
  obtain ⟨hb, -, -, hfunc⟩ := Body.Draft.start hm hd hstart
  obtain ⟨hsound, hvalid⟩ := hreach.sound
  have htss : ∀ ts ∈ ls.map TokenLine.tokens, ∀ t ∈ ts, t.Valid := by
    intro ts hts
    obtain ⟨l, hl, rfl⟩ := List.mem_map.1 hts
    exact hvalid l (List.mem_append_left _ hl)
  obtain ⟨ds', hrest⟩ := hreach.rest hread
  rw [List.foldlM_append, bind_eq_ok] at hrest
  obtain ⟨q, hlines, hrest⟩ := hrest
  obtain ⟨b', rfl, hrun⟩ := (readLines_inside
    fun l hl => h.inside _ (List.mem_map_of_mem hl)).1 hlines
  obtain ⟨s, hstays⟩ := Body.lines_stays hb htss hrun
  rw [List.foldlM_cons, bind_eq_ok] at hrest
  obtain ⟨q', hbrace, -⟩ := hrest
  have hend : b'.endError? = none := by
    obtain ⟨hfirst, hnil⟩ := List.cons.inj hlast
    rw [readLine, if_pos ⟨hfirst, hnil⟩] at hbrace
    split at hbrace
    · simp at hbrace
    · assumption
  exact ⟨⟨hb, htss⟩, hfunc, b', hrun, hstays.func.trans hfunc, hend, symbols, ds, last :: after,
    hreach.foldlM hlines⟩

end SsaFold.Text
