import SsaFold.Proofs.Text.AcceptedLines

/-!
# Texts that are accepted

A text falls into lines that are sorted by what they are, headers, and bodies.  If it defines no
global and no function twice, then the first two sweeps succeed (`Outline.ofText_ok`,
`Headers.foldlM_add_ok`), and so it is up to the bodies whether it is read.

The first label of a body may be left out.  Then the first block has the next number, and it makes
no difference whether this number is written (`Body.lines_firstLabelled`).  So a definition that is
coherent is read exactly if its names leave room and its labels fit, with the first one filled in
(`Chapter.Fits`).  What has been read then passes the check, and `ofText_ok_iff` says so of the
whole text.
-/

namespace SsaFold.Text

/-- The first label is filled in if it is left out. -/
def firstLabelled (l : String) : List Paragraph → List Paragraph
  | [] => []
  | p :: ps => { p with label := p.label.or (some l) } :: ps

/-- The counter behind the parameters: the number of the first block if its label is left out. -/
def Chapter.entrySlot (c : Chapter) : Nat :=
  (c.header.params.filterMap Param.name).foldl (fun n name => Body.slotAfter name n) 0

/-- The names of a definition leave room, and its labels fit, where the first block has the next
number if its label is left out. -/
structure Chapter.Fits (c : Chapter) : Prop where
  room : ∀ x ∈ c.bindings, HasRoom x.1
  labels : LabelsFit (firstLabelled (toString c.entrySlot) c.paragraphs)

namespace Body

open SsaFold.Module

variable {b b' : Body}

/-! ## A first label that is left out -/

section FirstLabel

variable {c : BlockId} {ts : List Token} {ps : List Paragraph}

/-- As long as no block is placed, the next number can be written as its label. -/
lemma beginBlock_nextSlot (hclosed : ∀ d, ¬ b.IsOpen d) (hplaced : ∀ d, ¬ b.isPlaced d = true) :
    beginBlock (toString b.nextSlot) b = .ok ((), b') ↔
      ∃ c, openBlock b = .ok (c, b') ∧ b'.IsOpen c := by
  rw [openBlock_of_closed hclosed]
  simp only [beginBlock, StateT.bind_eq_ok, StateT.get_eq_ok, StateT.pure_eq_ok]
  constructor
  · rintro ⟨key, b₁, hkey, c, b₂, hblock, _, _, ⟨rfl, rfl⟩, hrun⟩
    obtain ⟨rfl, -⟩ := takeKey_eq_ok hkey
    split_ifs at hrun
    · simp at hrun
    · have hrun' := hrun
      obtain ⟨m, -, rfl⟩ := enter_eq_ok hrun
      exact ⟨c, ⟨_, b₁, hkey, c, b₂, hblock, (), _, hrun', rfl, rfl⟩, rfl, rfl⟩
  · rintro ⟨c, ⟨key, b₁, hkey, d, b₂, hblock, ⟨⟩, b₃, henter, rfl, rfl⟩, -⟩
    obtain ⟨rfl, hb₁⟩ := takeKey_eq_ok hkey
    refine ⟨_, b₁, hkey, d, b₂, hblock, b₂, b₂, ⟨rfl, rfl⟩, ?_⟩
    have hw := (blockOf_eq_ok hblock).1.widens
    have hnew : ¬ b₂.isPlaced d = true := by
      rw [isPlaced_congr hw.functions hw.func, hb₁]
      exact hplaced d
    rw [if_neg hnew]
    exact henter

/-- An instruction asks for the state only after its block has been opened. -/
lemma instruction_of_openBlock (hrun : openBlock b = .ok (c, b')) (hopen : b'.IsOpen c) :
    instruction ts b = instruction ts b' := by
  rw [instruction]
  cases (Statement.head.run ts).result with
  | error e => rfl
  | ok head =>
    show openBlock b >>= _ = openBlock b' >>= _
    rw [hrun, hopen.openBlock]

/-- It makes no difference whether the first label is written. -/
lemma lines_firstLabelled (h : Progress given b []) (hps : ∀ p ∈ ps, p.Valid) :
    lines ((firstLabelled (toString b.nextSlot) ps).flatMap Paragraph.lines) b = .ok ((), b') ↔
      lines (ps.flatMap Paragraph.lines) b = .ok ((), b') := by
  obtain ⟨func, hfunc⟩ := h.draft.home
  obtain ⟨hholds, hcurrent⟩ := h.holds func hfunc
  rw [List.forall₂_nil_right_iff] at hholds
  rw [hholds, List.getLast?_nil] at hcurrent
  have hclosed : ∀ d, ¬ b.IsOpen d := fun d hd =>
    Option.some_ne_none d (hd.1.symm.trans hcurrent)
  have hplaced : ∀ d, ¬ b.isPlaced d = true := fun d => by
    simp [isPlaced, hfunc, ← Array.mem_toList_iff, hholds]
  cases ps with
  | nil => rfl
  | cons p ps =>
    obtain ⟨label, entries⟩ := p
    cases label with
    | some l => rfl
    | none =>
      obtain ⟨e, es, rfl⟩ := List.exists_cons_of_ne_nil ((hps _ List.mem_cons_self).begins rfl)
      show lines ([.label (toString b.nextSlot)] :: e.tokens :: _) b = _ ↔
        lines (e.tokens :: _) b = _
      constructor
      · intro hrun
        obtain ⟨b₁, hlabel, hrun⟩ := lines_cons_eq_ok hrun
        obtain ⟨b₂, hline, hrun⟩ := lines_cons_eq_ok hrun
        obtain ⟨c, hopened, hopen⟩ := (beginBlock_nextSlot hclosed hplaced).1 hlabel
        rw [line_entry, ← instruction_of_openBlock hopened hopen, ← line_entry] at hline
        rwa [lines_cons hline]
      · intro hrun
        obtain ⟨b₁, hline, hrun⟩ := lines_cons_eq_ok hrun
        obtain ⟨-, -, -, -, c, b₂, -, -, -, -, hopened, -⟩ :=
          instruction_stages (line_entry e ▸ hline)
        have hopen : b₂.IsOpen c := by
          rcases openBlock_eq_ok hopened with ⟨hopen, rfl⟩ | ⟨-, hbegins⟩
          · exact hopen
          · obtain ⟨n, b₃, m, -, -, -, rfl⟩ := hbegins.looked
            exact ⟨rfl, rfl⟩
        have hlabel : line [.label (toString b.nextSlot)] b = .ok ((), b₂) :=
          (beginBlock_nextSlot hclosed hplaced).2 ⟨c, hopened, hopen⟩
        rw [line_entry, instruction_of_openBlock hopened hopen, ← line_entry] at hline
        rwa [lines_cons hlabel, lines_cons hline]

end FirstLabel

/-! ## The beginning of a body -/

/-- Parameters whose names are all different are named. -/
lemma nameParams_ok {func : Func} {names : List String} {k : Nat}
    (hfunc : b.module.func? b.func = some func) (hlength : k + names.length ≤ func.params.length)
    (honce : names.Nodup) (hroom : ∀ n ∈ names, HasRoom n)
    (hnew : ∀ n ∈ names, b.values[n]? = none) :
    ∃ b', nameParams k (names.map some) b = .ok ((), b') ∧
      b'.nextSlot = names.foldl (fun n name => slotAfter name n) b.nextSlot ∧
      ∀ (n : String) v, b'.values[n]? = some v →
        b.values[n]? = some v ∨ ∃ j, names[j]? = some n ∧ func.params[k + j]? = some v := by
  induction names generalizing b k with
  | nil => exact ⟨b, rfl, rfl, fun n v hv => .inl hv⟩
  | cons name names ih =>
    obtain ⟨hfresh, honce⟩ := List.nodup_cons.1 honce
    obtain ⟨hname, hroom⟩ := List.forall_mem_cons.1 hroom
    obtain ⟨hnone, hnew⟩ := List.forall_mem_cons.1 hnew
    rw [List.length_cons] at hlength
    obtain ⟨v, hv⟩ : ∃ v, func.params[k]? = some v :=
      ⟨_, List.getElem?_eq_getElem (show k < func.params.length by omega)⟩
    obtain ⟨b₁, hb₁⟩ : ∃ b₁ : Body, b₁ = { b with nextSlot := slotAfter name b.nextSlot } :=
      ⟨_, rfl⟩
    have hkey : takeKey (some name) b = .ok (name, b₁) := takeKey_ok_iff.2 ⟨hname, rfl, hb₁⟩
    have hfunc₁ : b₁.module.func? b₁.func = some func := hb₁ ▸ hfunc
    have hvalues₁ : b₁.values = b.values := hb₁ ▸ rfl
    obtain ⟨b', hrest, hslot, hnames⟩ := ih (b := { b₁ with values := b₁.values.insert name v })
      (k := k + 1) hfunc₁ (by omega) honce hroom fun n hn => by
        have hne : name ≠ n := fun heq => hfresh (heq ▸ hn)
        rw [getElem?_insert, if_neg hne, hvalues₁]
        exact hnew n hn
    refine ⟨b', nameParams_cons_eq_ok.2 ⟨name, b₁, func, v, hkey, hvalues₁ ▸ hnone, hfunc₁, hv,
      hrest⟩, ?_, fun n w hw => ?_⟩
    · rw [hslot, hb₁]
      rfl
    · rcases hnames n w hw with hold | ⟨j, hj, hparam⟩
      · rw [getElem?_insert] at hold
        split_ifs at hold with heq
        · obtain rfl := Option.some.inj hold
          exact .inr ⟨0, congrArg some heq, hv⟩
        · exact .inl (hvalues₁ ▸ hold)
      · exact .inr ⟨j + 1, hj, by rwa [show k + (j + 1) = k + 1 + j by omega]⟩

end Body

/-! ## Chapters -/

section Chapters

variable {m : Module} {symbols : Symbols} {globals : List String} {c : Chapter} {d : Definition}

/-- The vocabulary of a definition. -/
def Chapter.Coherent.vocabulary (h : c.Coherent globals) (hroom : ∀ x ∈ c.bindings, HasRoom x.1)
    (labels : List String) : Vocabulary :=
  ⟨globals, c.bindings, labels, h.once, hroom⟩

lemma map_name_of_isSome {ps : List Param} (h : ∀ p ∈ ps, p.name.isSome) :
    ps.map Param.name = (ps.filterMap Param.name).map some := by
  induction ps with
  | nil => rfl
  | cons p ps ih =>
    obtain ⟨hp, hps⟩ := List.forall_mem_cons.1 h
    obtain ⟨name, hname⟩ := Option.isSome_iff_exists.1 hp
    rw [List.map_cons, List.filterMap_cons_some hname, List.map_cons, hname, ih hps]

lemma map_fst_bindings (ps : List Param) :
    (ps.flatMap Param.bindings).map Prod.fst = ps.filterMap Param.name := by
  induction ps with
  | nil => rfl
  | cons p ps ih =>
    rw [List.flatMap_cons, List.map_append, ih]
    cases hname : p.name <;> simp [Param.bindings, hname]

lemma mem_param_bindings {ps : List Param} {n : String} {ty : Ty} :
    (n, ty) ∈ ps.flatMap Param.bindings ↔ ∃ p ∈ ps, p.name = some n ∧ p.ty = ty := by
  simp [Param.bindings]

section Start

variable {func : Func} (hparams : d.params = c.header.params.map Param.name)
  (hnamed : ∀ p ∈ c.header.params, p.name.isSome) (hfunc : m.func? d.func = some func)
  (hheader : m.HoldsHeader func c.header)

include hparams hnamed hfunc hheader

/-- The body of a coherent chapter can begin, and then only parameters have names. -/
lemma Chapter.Coherent.start_ok (h : c.Coherent globals) (hroom : ∀ x ∈ c.bindings, HasRoom x.1) :
    ∃ b, Body.start m symbols d.func d.params = .ok b ∧ b.nextSlot = c.entrySlot ∧
      (∀ l : String, b.blocks[l]? = none) ∧
      ∀ (n : String) v, b.values[n]? = some v → ∃ (j : Nat) (p : Param),
        c.header.params[j]? = some p ∧ p.name = some n ∧ func.params[j]? = some v := by
  have hnames : d.params = (c.header.params.filterMap Param.name).map some :=
    hparams.trans (map_name_of_isSome hnamed)
  have honce := h.once
  rw [Chapter.bindings, List.map_append, map_fst_bindings] at honce
  have hlength : 0 + (c.header.params.filterMap Param.name).length ≤ func.params.length := by
    rw [hheader.params.length_eq, Nat.zero_add]
    exact List.length_filterMap_le ..
  obtain ⟨b, hrun, hslot, hvalues⟩ :=
    Body.nameParams_ok (b := { module := m, func := d.func, symbols }) hfunc hlength
    (List.nodup_append.1 honce).1 (fun n hn => by
      rw [← map_fst_bindings] at hn
      obtain ⟨x, hx, rfl⟩ := List.mem_map.1 hn
      exact hroom x (List.mem_append_left _ hx)) (by simp)
  refine ⟨b, ?_, hslot, fun l => ?_, fun n v hv => ?_⟩
  · simp only [Body.start, bind_eq_ok, pure_eq_ok]
    exact ⟨((), b), hnames ▸ hrun, rfl⟩
  · obtain ⟨k, values, rfl, -⟩ := Body.nameParams_eq_ok hrun hfunc
    simp
  · obtain ⟨j, hj, hparam⟩ := (hvalues n v hv).resolve_left (by simp)
    rw [Nat.zero_add] at hparam
    have hname : (c.header.params.map Param.name)[j]? = some (some n) := by
      rw [map_name_of_isSome hnamed, List.getElem?_map, hj, Option.map_some]
    obtain ⟨p, hp, hname⟩ := Option.map_eq_some_iff.1 (List.getElem?_map ▸ hname)
    exact ⟨j, p, hp, hname, hparam⟩

/-- Where the body of a coherent chapter begins its results are expected. -/
lemma Chapter.Coherent.start (h : c.Coherent globals) (hroom : ∀ x ∈ c.bindings, HasRoom x.1)
    (labels : List String) (hglobals : ∀ name ∈ globals, ∃ v, symbols[name]? = some v)
    (hm : Sketch m symbols) (hd : d.Fits m) : ∃ b, Body.start m symbols d.func d.params = .ok b ∧
      b.nextSlot = c.entrySlot ∧
      b.Expects (h.vocabulary hroom labels) (c.paragraphs.flatMap Paragraph.bindings) := by
  obtain ⟨b, hstart, hslot, hblocks, hvalue⟩ := h.start_ok hparams hnamed hfunc hheader hroom
  obtain ⟨-, hmodule, hsymbols, hbfunc⟩ := Body.Draft.start hm hd hstart
  have hprogress := Body.Progress.start hm hd hstart
  refine ⟨b, hstart, hslot, List.suffix_append _ _, hsymbols ▸ hglobals, fun n v hv => ?_,
    fun n ty v hn hv => ?_, fun n ty hn => ?_, fun l c hl => ?_⟩
  · obtain ⟨j, p, hp, hname, hv⟩ := hvalue n v hv
    obtain ⟨p', hp', hholds⟩ := exists_of_forall₂_left hheader.params hv
    obtain rfl := Option.some.inj (hp.symm.trans hp')
    refine ⟨p.ty, List.mem_append_left _ ?_, hmodule ▸ hholds.ty⟩
    exact mem_param_bindings.2 ⟨p, List.mem_of_getElem? hp, hname, rfl⟩
  · -- A result that has the name of a parameter would be its second meaning.
    obtain ⟨j, p, hp, hname, -⟩ := hvalue n v hv
    have honce := h.once
    rw [Chapter.bindings, List.map_append, map_fst_bindings] at honce
    refine absurd rfl ((List.nodup_append.1 honce).2.2 n ?_ n (List.mem_map_of_mem hn))
    exact List.mem_filterMap.2 ⟨p, List.mem_of_getElem? hp, hname⟩
  · refine (List.mem_append.1 hn).symm.imp_right fun hn => ?_
    obtain ⟨p, hp, hname, rfl⟩ := mem_param_bindings.1 hn
    obtain ⟨j, hj⟩ := List.mem_iff_getElem?.1 hp
    obtain ⟨v, hv, -⟩ := exists_of_forall₂_right hheader.params hj
    refine ⟨v, hprogress.given n v ⟨func, j, by rw [hmodule, hbfunc, hfunc], ?_, hv⟩⟩
    rw [hparams, List.getElem?_map, hj, Option.map_some, hname]
  · rw [hblocks] at hl
    cases hl

end Start

/-! ### The first label -/

section FirstLabelled

variable {l : String} {ps : List Paragraph}

/-- What holds of the paragraphs, and of a first one when its label is filled in, holds of all. -/
lemma forall_mem_firstLabelled {P : Paragraph → Prop} (h : ∀ p ∈ ps, P p)
    (hfirst : ∀ p ∈ ps, p.label = none → P { p with label := some l }) :
    ∀ p ∈ firstLabelled l ps, P p := by
  cases ps with
  | nil => exact h
  | cons p ps =>
    refine List.forall_mem_cons.2 ⟨?_, fun q hq => h q (List.mem_cons_of_mem p hq)⟩
    cases hlabel : p.label with
    | none => exact hfirst p List.mem_cons_self hlabel
    | some l' =>
      rw [Option.some_or, ← hlabel]
      exact h p List.mem_cons_self

lemma isSome_of_mem_firstLabelled (h : ∀ p ∈ ps.tail, p.label.isSome) :
    ∀ p ∈ firstLabelled l ps, p.label.isSome := by
  cases ps with
  | nil => exact h
  | cons p ps => exact List.forall_mem_cons.2 ⟨by simp, h⟩

lemma bindings_firstLabelled :
    (firstLabelled l ps).flatMap Paragraph.bindings = ps.flatMap Paragraph.bindings := by
  cases ps <;> rfl

lemma ended_firstLabelled : Body.ended (firstLabelled l ps) = Body.ended ps := by
  rcases ps with - | ⟨p, - | ⟨q, ps⟩⟩ <;> rfl

/-- The last of the paragraphs has ended. -/
lemma ended_of_closes (hne : ps ≠ []) (h : ∀ p ∈ ps, p.Closes) : Body.ended ps = true := by
  obtain ⟨init, last, hentries, hlast, -⟩ := h _ (List.getLast_mem hne)
  rw [Body.ended, List.getLast?_eq_some_getLast hne, Option.bind_some, hentries,
    List.getLast?_concat]
  exact hlast

end FirstLabelled

/-! ### Lines -/

/-- The lines of a definition: its body begins, the lines of the body are read, and the brace ends
it. -/
lemma readLines_define_ok {b : Body} (hstart : Body.start m symbols d.func d.params = .ok b)
    {first last : TokenLine} {body : List TokenLine} {header : List Token} {ps : List Paragraph}
    (hfirst : first.tokens = .word "define" :: header)
    (hbody : body.map TokenLine.tokens = ps.flatMap Paragraph.lines)
    (hlast : last.tokens = [.punct '\x7d']) {ds : List Definition}
    {s : Position × List Definition} :
    (first :: (body ++ [last])).foldlM (readLine symbols) (.outside m, d :: ds) = .ok s ↔
      ∃ b', Body.lines (ps.flatMap Paragraph.lines) b = .ok ((), b') ∧ b'.endError? = none ∧
        s = (.outside b'.module, ds) := by
  have hbegin : readLine symbols (.outside m, d :: ds) first = .ok (.inside b, ds) := by
    simp [readLine, isDefinition?_define hfirst, hstart, Except.mapError]
  have hbrace : ∀ b', readLine symbols (.inside b', ds) last = .ok s ↔
      b'.endError? = none ∧ s = (.outside b'.module, ds) := by
    intro b'
    rw [readLine, if_pos (List.cons.inj hlast)]
    cases b'.endError? with
    | none =>
      simp only [pure_eq_ok, true_and]
      exact eq_comm
    | some e => simp
  rw [List.foldlM_cons, hbegin, ok_bind, List.foldlM_append, bind_eq_ok]
  simp only [readLines_inside (ne_brace_of_lines hbody), hbody, List.foldlM_cons,
    List.foldlM_nil, bind_pure]
  constructor
  · rintro ⟨_, ⟨b', rfl, hlines⟩, hend⟩
    exact ⟨b', hlines, (hbrace b').1 hend⟩
  · rintro ⟨b', hlines, hend⟩
    exact ⟨_, ⟨b', rfl, hlines⟩, (hbrace b').2 hend⟩

/-- The names that a definition gives have been taken when it has been read. -/
lemma hasRoom_of_define (hc : c.Valid) (hdefined : c.paragraphs ≠ []) {ls : List TokenLine}
    (hls : ls.map TokenLine.tokens = c.lines) {ds : List Definition}
    (hparams : d.params = c.header.params.map Param.name) (hm : Sketch m symbols) (hd : d.Fits m)
    {func : Func} (hfunc : m.func? d.func = some func) (hheader : m.HoldsHeader func c.header)
    {s : Position × List Definition}
    (hrun : ls.foldlM (readLine symbols) (.outside m, d :: ds) = .ok s) :
    ∀ x ∈ c.bindings, HasRoom x.1 := by
  obtain ⟨first, body, last, rfl, hfirst, hbody, hlast⟩ := exists_lines_of_define hdefined hls
  obtain ⟨b, hstart⟩ : ∃ b, Body.start m symbols d.func d.params = .ok b := by
    rw [List.foldlM_cons, bind_eq_ok] at hrun
    obtain ⟨s₁, hbegin, -⟩ := hrun
    simp only [readLine, isDefinition?_define hfirst, bind_eq_ok, mapError_eq_ok] at hbegin
    obtain ⟨b, hstart, -⟩ := hbegin
    exact ⟨b, hstart⟩
  obtain ⟨b', hlines, -⟩ := (readLines_define_ok hstart hfirst hbody hlast).1 hrun
  intro x hx
  rcases List.mem_append.1 hx with hx | hx
  · obtain ⟨p, hp, hx⟩ := List.mem_flatMap.1 hx
    obtain ⟨n, hn, rfl⟩ := List.mem_map.1 hx
    obtain ⟨k, hk⟩ := List.mem_iff_getElem?.1 hp
    obtain ⟨v, hv, -⟩ := exists_of_forall₂_right hheader.params hk
    obtain ⟨-, hmodule, -, hbfunc⟩ := Body.Draft.start hm hd hstart
    obtain ⟨hvalue, kind, hkind, hne⟩ := (Body.Progress.start hm hd hstart).given n v
      ⟨func, k, by rw [hmodule, hbfunc, hfunc],
        by rw [hparams, List.getElem?_map, hk, Option.map_some, Option.mem_toList.1 hn], hv⟩
    exact (Body.roomy_start hstart).value n v hvalue fun heq =>
      hne (Option.some.inj (hkind.symm.trans heq))
  · exact (Body.hasRoom_of_lines hc.paragraphs hlines).1 x hx

/-- The lines of a coherent definition are read exactly if its labels fit, and its names leave
room. -/
theorem readLines_define_iff (hc : c.Valid) (hdefined : c.paragraphs ≠ []) (h : c.Coherent globals)
    (hglobals : ∀ name ∈ globals, ∃ v, symbols[name]? = some v)
    {ls : List TokenLine} (hls : ls.map TokenLine.tokens = c.lines) (hvalid : ∀ l ∈ ls, l.Valid)
    {ds : List Definition} (hparams : d.params = c.header.params.map Param.name)
    (hm : Sketch m symbols) (hd : d.Fits m) {func : Func} (hfunc : m.func? d.func = some func)
    (hheader : m.HoldsHeader func c.header) :
    (∃ s, ls.foldlM (readLine symbols) (.outside m, d :: ds) = .ok s) ↔ c.Fits := by
  suffices hiff : (∀ x ∈ c.bindings, HasRoom x.1) →
      ((∃ s, ls.foldlM (readLine symbols) (.outside m, d :: ds) = .ok s) ↔
        LabelsFit (firstLabelled (toString c.entrySlot) c.paragraphs)) by
    constructor
    · rintro ⟨s, hrun⟩
      have hroom := hasRoom_of_define hc hdefined hls hparams hm hd hfunc hheader hrun
      exact ⟨hroom, (hiff hroom).1 ⟨s, hrun⟩⟩
    · rintro ⟨hroom, hlabels⟩
      exact (hiff hroom).2 hlabels
  intro hroom
  obtain ⟨first, body, last, rfl, hfirst, hbody, hlast⟩ := exists_lines_of_define hdefined hls
  obtain ⟨ps, hps⟩ : ∃ ps, ps = firstLabelled (toString c.entrySlot) c.paragraphs := ⟨_, rfl⟩
  obtain ⟨b, hstart, hslot, hexpects⟩ :=
    h.start hparams (hc.params hdefined) hfunc hheader hroom (labelsOf ps) hglobals hm hd
  have hprogress := Body.Progress.start hm hd hstart
  have hts : ∀ ts ∈ c.paragraphs.flatMap Paragraph.lines, ∀ t ∈ ts, t.Valid := by
    intro ts hts
    obtain ⟨l, hl, rfl⟩ := List.mem_map.1 (hbody ▸ hts)
    exact hvalid l (List.mem_cons_of_mem _ (List.mem_append_left _ hl))
  have hlabel : IsLabel (toString c.entrySlot) := Body.isLabel_toString _
  -- With its first label the body is the same.
  rw [← bindings_firstLabelled, ← hps] at hexpects
  have hiff := Body.lines_ok_iff hexpects hprogress rfl
    (hps ▸ forall_mem_firstLabelled hc.paragraphs fun p hp hnone => by
      have hp := hc.paragraphs p hp
      exact ⟨fun l hl => Option.some.inj hl ▸ hlabel, hp.entries, by simp, hp.ends⟩)
    (hps ▸ isSome_of_mem_firstLabelled hc.labels)
    (by rw [hps, ended_firstLabelled, ended_of_closes hdefined h.closes])
    (List.forall_mem_flatMap.2 <| hps ▸ forall_mem_firstLabelled (List.forall_mem_flatMap.1 hts)
      fun p hp hnone => List.forall_mem_cons.2 ⟨by simpa [Token.Valid] using hlabel, fun ts hmem =>
        List.forall_mem_flatMap.1 hts p hp ts (by simpa [Paragraph.lines, hnone] using hmem)⟩)
    (hps ▸ forall_mem_firstLabelled h.operands fun p hp _ => h.operands p hp)
  rw [← hps, ← hiff, hps, ← hslot]
  simp only [Body.lines_firstLabelled hprogress hc.paragraphs,
    readLines_define_ok hstart hfirst hbody hlast]
  constructor
  · rintro ⟨s, b', hlines, hend, -⟩
    exact ⟨b', hlines, hend⟩
  · rintro ⟨b', hlines, hend⟩
    exact ⟨_, b', hlines, hend, rfl⟩

/-- A function keeps its header while the bodies of others are read. -/
lemma holdsHeader_of_extends {m' : Module} {f g : FuncId} {t : ValueId → ValueId}
    (hm : m.Extends g t m') {func : Func} (hfunc : m.func? f = some func) {header : Header}
    (hheader : m.HoldsHeader func header) :
    ∃ func', m'.func? f = some func' ∧ m'.HoldsHeader func' header := by
  obtain ⟨layout, hfunc', -⟩ := hm.func hfunc
  refine ⟨_, hfunc', holdsHeader_of_values hheader rfl fun hv => ?_⟩
  obtain ⟨value', hv', -, hty, hname⟩ := hm.value hv
  exact ⟨value', hv', hty, hname⟩

/-- Chapters that are coherent are read exactly if each definition fits. -/
theorem readLines_chapters_iff {cs : List Chapter} {k : Nat} (hcs : ∀ c ∈ cs, c.Valid)
    (hcoherent : ∀ c ∈ cs, c.paragraphs ≠ [] → c.Coherent globals)
    (hglobals : ∀ name ∈ globals, ∃ v, symbols[name]? = some v) {ls : List TokenLine}
    (hls : ls.map TokenLine.tokens = cs.flatMap Chapter.lines) (hvalid : ∀ l ∈ ls, l.Valid)
    (hm : Sketch m symbols) {ds : List Definition} (hpending : Pending m ds)
    (hds : ds.map (fun d => (d.func, d.params)) = definitionsOf k cs)
    (hheaders : ∀ (j : Nat) c, cs[j]? = some c → ∃ func, m.func? ⟨k + j⟩ = some func ∧
      m.HoldsHeader func c.header) :
    (∃ s, ls.foldlM (readLine symbols) (.outside m, ds) = .ok s) ↔
      ∀ c ∈ cs, c.paragraphs ≠ [] → c.Fits := by
  induction cs generalizing k m ls ds with
  | nil =>
    obtain rfl := List.map_eq_nil_iff.1 hls
    exact ⟨fun _ => by simp, fun _ => ⟨_, rfl⟩⟩
  | cons c cs ih =>
    obtain ⟨hc, hcs⟩ := List.forall_mem_cons.1 hcs
    obtain ⟨hfirstCoherent, hcoherent⟩ := List.forall_mem_cons.1 hcoherent
    obtain ⟨ls₁, ls₂, rfl, hls₁, hls₂⟩ := List.map_eq_append_iff.1 hls
    obtain ⟨hvalid₁, hvalid₂⟩ := List.forall_mem_append.1 hvalid
    have hindex : ∀ j, k + 1 + j = k + (j + 1) := fun j => by omega
    obtain ⟨func, hfunc, hheader⟩ := hheaders 0 c rfl
    have hheaders₂ : ∀ (j : Nat) c, cs[j]? = some c → ∃ func, m.func? ⟨k + 1 + j⟩ = some func ∧
        m.HoldsHeader func c.header := fun j c' hc' => hindex j ▸ hheaders (j + 1) c' hc'
    -- The lines of this chapter are read if its labels fit, and leave the others as they are.
    suffices h : ((∃ s₁, ls₁.foldlM (readLine symbols) (.outside m, ds) = .ok s₁) ↔
          (c.paragraphs ≠ [] → c.Fits)) ∧
        ∀ s₁, ls₁.foldlM (readLine symbols) (.outside m, ds) = .ok s₁ →
          ((∃ s, ls₂.foldlM (readLine symbols) s₁ = .ok s) ↔
            ∀ c ∈ cs, c.paragraphs ≠ [] → c.Fits) by
      rw [List.forall_mem_cons, ← h.1]
      simp only [List.foldlM_append, bind_eq_ok]
      constructor
      · rintro ⟨s, s₁, hfirst, hrest⟩
        exact ⟨⟨s₁, hfirst⟩, (h.2 s₁ hfirst).1 ⟨s, hrest⟩⟩
      · rintro ⟨⟨s₁, hfirst⟩, hfits⟩
        obtain ⟨s, hrest⟩ := (h.2 s₁ hfirst).2 hfits
        exact ⟨s, s₁, hfirst, hrest⟩
    by_cases hdeclared : c.paragraphs = []
    · rw [readLines_declare hdeclared hls₁]
      rw [definitionsOf, if_pos hdeclared, List.nil_append] at hds
      refine ⟨iff_of_true ⟨_, rfl⟩ (absurd hdeclared), ?_⟩
      rintro _ ⟨⟩
      exact ih hcs hcoherent hls₂ hvalid₂ hm hpending hds hheaders₂
    · rw [definitionsOf, if_neg hdeclared, List.singleton_append] at hds
      obtain ⟨d, ds, rfl, hd, hds⟩ := List.map_eq_cons_iff.1 hds
      obtain ⟨hdfunc, hparams⟩ := Prod.mk.inj hd
      have hfits := hpending.fits d List.mem_cons_self
      refine ⟨(readLines_define_iff hc hdeclared (hfirstCoherent hdeclared) hglobals hls₁ hvalid₁
        hparams hm hfits (hdfunc ▸ hfunc) hheader).trans (by simp [hdeclared]), fun s₁ hfirst => ?_⟩
      obtain ⟨m', t, rfl, hextends, -⟩ :=
        readLines_define hc hdeclared hls₁ hvalid₁ hparams hm hfits hfirst
      have hsound := readLines_sound (p := .outside m) ⟨hm, hpending⟩ hvalid₁ hfirst
      refine ih hcs hcoherent hls₂ hvalid₂ hsound.1 hsound.2 hds fun j c' hc' => ?_
      obtain ⟨func', hfunc', hheader'⟩ := hheaders₂ j c' hc'
      exact holdsHeader_of_extends hextends hfunc' hheader'

/-! ## What has been read passes the check -/

/-- What a name stands for when a body has been read is no placeholder. -/
lemma Body.Finished.kind?_ne {b : Body} {names : List (Option String)} {ps : List Paragraph}
    (h : b.Finished names ps) (haddresses : Addresses b.module b.symbols) {a : TypedAtom}
    {v : ValueId} (ha : b.Denotes a v) : b.module.kind? v ≠ some .placeholder := by
  obtain ⟨ty, atom⟩ := a
  cases atom with
  | localName name =>
    obtain ⟨-, kind, hkind, hne⟩ := h.settled name v ha
    exact fun heq => hne (Option.some.inj (hkind.symm.trans heq))
  | globalName name =>
    rcases haddresses name v ha with ⟨f, -, hkind, -⟩ | ⟨g, -, hkind, -⟩ <;> simp [hkind]
  | int n =>
    obtain ⟨bits, c, -, -, hkind⟩ := ha
    simp [hkind]
  | bool t =>
    obtain ⟨c, -, hkind⟩ := ha
    simp [hkind]
  | null =>
    have hkind : b.module.kind? v = some .null := ha
    simp [hkind]

/-- A block that holds a paragraph which ends with its only terminator does so, too. -/
lemma HoldsParagraph.ends {S : Scope} {b : BlockId} {p : Paragraph} (h : m.HoldsParagraph S b p)
    (hp : p.Closes) : ∃ block, m.block? b = some block ∧ m.Ends block := by
  obtain ⟨block, hblock, -, hentries⟩ := h.block
  obtain ⟨init, last, heq, hlast, hinit⟩ := hp
  rw [heq] at hentries
  obtain ⟨is, js, his, hjs, hinsts⟩ := exists_append_of_forall₂ hentries
  obtain ⟨i, _, ⟨inst, hi, hentry⟩, hnil, rfl⟩ := List.forall₂_cons_right_iff.1 hjs
  obtain rfl := List.forall₂_nil_right_iff.1 hnil
  have hopcode : ∀ {inst : Inst} {e : Entry}, m.HoldsEntry S inst e →
      inst.opcode = e.statement.operation.opcode :=
        fun hentry => congrArg InstSpec.opcode hentry.spec
  refine ⟨block, hblock, is, i, inst, hinsts, hi, hopcode hentry ▸ hlast, fun j hj inst' hj' => ?_⟩
  obtain ⟨k, hk⟩ := List.mem_iff_getElem?.1 hj
  obtain ⟨e, he, inst'', hj'', hentry'⟩ := exists_of_forall₂_left his hk
  obtain rfl := Option.some.inj (hj'.symm.trans hj'')
  exact hopcode hentry' ▸ hinit e (List.mem_of_getElem? he)

/-- The check refuses no module whose definitions have been read to the end. -/
lemma check_of_recorded (h : Sketch m symbols) (hfuncs : ∀ f func, m.func? f = some func →
      func.layout = #[] ∨ ∃ c, Recorded m symbols f c ∧ ∀ p ∈ c.paragraphs, p.Closes) :
    m.check = .ok () := by
  have hintact := h.wellFormed.module.reachable.intact
  -- A placed block holds a paragraph under the scope of its body.
  have hholds : ∀ f func, m.func? f = some func → ∀ b ∈ func.layout, ∃ (S : Scope) (p : Paragraph),
      m.HoldsParagraph S b p ∧ p.Closes ∧ ∀ a v, S.denotes a v → m.kind? v ≠ some .placeholder := by
    intro f func hf b hb
    rcases hfuncs f func hf with hempty | ⟨c, ⟨bd, rfl, rfl, rfl, -, hfinished⟩, hcloses⟩
    · simp [hempty] at hb
    · obtain ⟨k, hk⟩ := Array.mem_iff_getElem?.1 hb
      rw [← Array.getElem?_toList] at hk
      obtain ⟨p, hp, hparagraph⟩ := exists_of_forall₂_left (hfinished.holds func hf) hk
      exact ⟨bd.scope, p, hparagraph, hcloses p (List.mem_of_getElem? hp),
        fun a v ha => hfinished.kind?_ne h.addresses ha⟩
  rw [hintact.check_eq_ok_iff, Module.resolved_iff, hintact.shaped.terminated_iff]
  constructor
  · intro i inst v value hi hv hvalue hplaceholder
    obtain ⟨block, hblock, hmem⟩ := (hintact.shaped.held i inst.parent).2 ⟨inst, hi, rfl⟩
    obtain ⟨f, func, hf, hplaced⟩ := Module.mem_placedBlocks.1 (h.placed _ block hblock)
    obtain ⟨S, p, hparagraph, -, hS⟩ := hholds f func hf _ hplaced
    obtain ⟨block', hblock', -, hentries⟩ := hparagraph.block
    obtain rfl := Option.some.inj (hblock.symm.trans hblock')
    obtain ⟨k, hk⟩ := Array.mem_iff_getElem?.1 hmem
    rw [← Array.getElem?_toList] at hk
    obtain ⟨e, -, inst', hi', hentry⟩ := exists_of_forall₂_left hentries hk
    obtain rfl := Option.some.inj (hi.symm.trans hi')
    obtain ⟨j, hj⟩ := List.mem_iff_getElem?.1 hv
    obtain ⟨a, -, ha⟩ := exists_of_forall₂_right hentry.operands hj
    exact hS a v ha (Module.kind?_eq_some.2 ⟨value, hvalue, hplaceholder⟩)
  · intro func hfunc b hb
    obtain ⟨f, hf⟩ := Module.mem_functions.1 hfunc
    obtain ⟨S, p, hparagraph, hcloses, -⟩ := hholds f func hf b hb
    exact HoldsParagraph.ends hparagraph hcloses

end Chapters

/-! ## Globals and headers -/

/-- The names of the globals that lines define. -/
def globalNames (kinds : List LineKind) : List String :=
  (kinds.filterMap LineKind.globalDef?).map Prod.fst

lemma globalNames_cons (kind : LineKind) (kinds : List LineKind) :
    globalNames (kind :: kinds) = globalNames [kind] ++ globalNames kinds := by
  rw [globalNames, ← List.singleton_append, List.filterMap_append, List.map_append]
  rfl

section Sweeps

variable {kinds : List LineKind} {cs : List Chapter}

/-- A line is taken in unless it names no source file, or defines a global again. -/
lemma Outline.add_ok {o : Outline} (number : Nat) {line : String} {kind : LineKind}
    (hline : IsLine line kind) (hsource : kind ≠ .sourceFilename none)
    (hnew : ∀ n ∈ globalNames [kind], o.symbols[n]? = none) : ∃ o', o.add number line = .ok o' ∧
      ∀ n ∉ globalNames [kind], o.symbols[n]? = none → o'.symbols[n]? = none := by
  simp only [Outline.add, hline.kind]
  cases kind with
  | globalDef name definition =>
    have hknown : ¬ o.symbols.contains name = true := by
      rw [Std.TreeMap.contains_eq_isSome_getElem?,
        hnew name (by simp [globalNames, LineKind.globalDef?])]
      simp
    simp only [Except.mapError, ok_bind, if_neg hknown]
    refine ⟨_, rfl, fun n hn hnone => ?_⟩
    have hne : name ≠ n := fun heq => hn (by simp [globalNames, LineKind.globalDef?, heq])
    rw [Body.getElem?_insert, if_neg hne]
    exact hnone
  | sourceFilename name =>
    cases name with
    | none => exact absurd rfl hsource
    | some name => exact ⟨_, rfl, fun _ _ hnone => hnone⟩
  | _ => exact ⟨_, rfl, fun _ _ hnone => hnone⟩

lemma Outline.foldlM_add_ok {o : Outline} {lines : List (Nat × String)}
    (hlines : List.Forall₂ IsLine (lines.map Prod.snd) kinds)
    (hsource : .sourceFilename none ∉ kinds) (honce : (globalNames kinds).Nodup)
    (hnew : ∀ n ∈ globalNames kinds, o.symbols[n]? = none) :
    ∃ o', lines.foldlM (fun (o : Outline) (number, line) => o.add number line) o = .ok o' ∧
      ∀ n ∉ globalNames kinds, o.symbols[n]? = none → o'.symbols[n]? = none := by
  induction lines generalizing o kinds with
  | nil => exact ⟨o, rfl, fun _ _ hnone => hnone⟩
  | cons x lines ih =>
    obtain ⟨kind, kinds, hline, hlines', rfl⟩ := List.forall₂_cons_left_iff.1 hlines
    obtain ⟨hfirst, hsource⟩ := not_or.1 (mt List.mem_cons.2 hsource)
    rw [globalNames_cons] at honce hnew ⊢
    obtain ⟨-, honce, hapart⟩ := List.nodup_append.1 honce
    obtain ⟨hnewFirst, hnew⟩ := List.forall_mem_append.1 hnew
    obtain ⟨o₁, hadd, hkept⟩ := add_ok x.1 hline (Ne.symm hfirst) hnewFirst
    obtain ⟨o', hrest, hkept'⟩ := ih hlines' hsource honce fun n hn =>
      hkept n (fun hmem => hapart n hmem n hn rfl) (hnew n hn)
    refine ⟨o', by rw [List.foldlM_cons]; exact (congrArg (· >>= _) hadd).trans hrest,
      fun n hn hnone => ?_⟩
    obtain ⟨hn₁, hn₂⟩ := not_or.1 (mt List.mem_append.2 hn)
    exact hkept' n hn₂ (hkept n hn₁ hnone)

/-- Lines of which none defines a global again are sorted. -/
lemma Outline.ofText_ok {text : String} (hprints : Prints text kinds)
    (hsource : .sourceFilename none ∉ kinds) (honce : (globalNames kinds).Nodup) :
    ∃ o, Outline.ofText text = .ok o ∧
      ∀ n ∉ globalNames kinds, o.symbols[n]? = none := by
  obtain ⟨lines, all, rfl, hlines, rfl⟩ := hprints
  have hnames : globalNames (all.filter (· ≠ .skipped)) = globalNames all :=
    congrArg (List.map Prod.fst) (Outline.filterMap_unskipped rfl all)
  rw [hnames] at honce ⊢
  have hclean : ∀ line ∈ lines, Clean line := by
    intro line hmem
    obtain ⟨kind, -, hline⟩ := exists_mem_of_forall₂ hlines.flip line hmem
    exact hline.clean
  rw [← numberedLines_unlines hclean] at hlines
  have hsourceAll : .sourceFilename none ∉ all :=
    fun hmem => hsource (List.mem_filter.2 ⟨hmem, by simp⟩)
  obtain ⟨o, hfold, hkept⟩ := foldlM_add_ok (o := {}) hlines hsourceAll honce (by simp)
  refine ⟨{ o with lines := o.lines.reverse }, ?_, fun n hn => hkept n hn (by simp)⟩
  rw [Outline.ofText, hfold]
  rfl

/-- The function of a chapter is added if its name is new. -/
lemma Headers.add_ok {s : Headers} {c : Chapter} (hc : c.Valid) {line : TokenLine}
    {definition : Bool} (hline : line.isDefinition? = some definition)
    (hrest : line.rest = c.header.tokens definition) (hnew : s.symbols[c.header.name]? = none) :
    ∃ s', Headers.add s line = .ok s' ∧
      ∀ n ≠ c.header.name, s.symbols[n]? = none → s'.symbols[n]? = none := by
  obtain ⟨m, f, hadd⟩ := addHeader_ok s.module c.header
  obtain ⟨hfunc, -⟩ := func?_addHeader hadd
  have hknown : ¬ s.symbols.contains c.header.name = true := by
    rw [Std.TreeMap.contains_eq_isSome_getElem?, hnew]
    simp
  obtain ⟨v, hv⟩ : ∃ v, v = (c.header.func s.module.values.size).value := ⟨_, rfl⟩
  refine ⟨⟨m, s.symbols.insert c.header.name v, if definition
    then ⟨f, line.number, c.header.params.map Param.name⟩ :: s.definitions else s.definitions⟩,
    ?_, fun n hne hnone => ?_⟩
  · simp only [Headers.add, hline, hrest, Header.read_tokens hc.header, bind_eq_ok]
    refine ⟨c.header, rfl, ?_⟩
    rw [if_neg hknown]
    simp only [bind_eq_ok, liftM_eq_ok, pure_eq_ok, Module.getFunc_eq_ok]
    exact ⟨(m, f), hadd, _, hfunc, hv ▸ rfl⟩
  · rw [Body.getElem?_insert, if_neg hne.symm]
    exact hnone

/-- The functions of chapters are added if their names are new, and differ. -/
lemma Headers.foldlM_add_ok {s : Headers} (hcs : ∀ c ∈ cs, c.Valid) {ls : List TokenLine}
    (hls : ls.map TokenLine.tokens = cs.flatMap Chapter.lines)
    (honce : (cs.map fun c => c.header.name).Nodup)
    (hnew : ∀ c ∈ cs, s.symbols[c.header.name]? = none) :
    ∃ s', ls.foldlM Headers.add s = .ok s' := by
  induction cs generalizing s ls with
  | nil =>
    obtain rfl := List.map_eq_nil_iff.1 hls
    exact ⟨s, rfl⟩
  | cons c cs ih =>
    obtain ⟨hc, hcs⟩ := List.forall_mem_cons.1 hcs
    obtain ⟨hnewFirst, hnew⟩ := List.forall_mem_cons.1 hnew
    obtain ⟨hfresh, honce⟩ := List.nodup_cons.1 honce
    obtain ⟨ls₁, ls₂, rfl, hls₁, hls₂⟩ := List.map_eq_append_iff.1 hls
    obtain ⟨line, definition, hline, hrest, -, hfold⟩ := foldlM_add_chapter hls₁
    obtain ⟨s₁, hadd, hkept⟩ := add_ok hc hline hrest hnewFirst
    obtain ⟨s', hs'⟩ := ih hcs hls₂ honce fun c' hc' =>
      hkept _ (fun heq => hfresh (List.mem_map.2 ⟨c', hc', heq⟩)) (hnew c' hc')
    exact ⟨s', by rw [List.foldlM_append, hfold, hadd, ok_bind, hs']⟩

end Sweeps

/-! ## Texts -/

/-- The names of globals and functions are known when the headers have been read. -/
lemma exists_symbol {kinds : List LineKind} {cs : List Chapter} {o : Outline} {s : Headers}
    (hglobals : o.module.globals.toList.map (fun g => (g.name, g.definition))
      = kinds.filterMap LineKind.globalDef?) (hheaders : o.headers = .ok s)
    (hheader : ∀ (k : Nat) c, cs[k]? = some c → ∃ func, s.module.func? ⟨k⟩ = some func ∧
      func.layout = #[] ∧ s.module.HoldsHeader func c.header) (hknown : Known s.module s.symbols) :
    ∀ name ∈ globalNames kinds ++ cs.map (fun c => c.header.name),
      ∃ v, s.symbols[name]? = some v := by
  intro name hname
  rcases List.mem_append.1 hname with hname | hname
  · obtain ⟨_, _, _, _, hmodule⟩ := Outline.headers_apart hheaders
    have hnames : s.module.globals.toList.map Global.name = globalNames kinds := by
      rw [hmodule, globalNames, ← hglobals, List.map_map]
      rfl
    obtain ⟨g, hg, rfl⟩ := List.mem_map.1 (hnames ▸ hname)
    obtain ⟨k, hk⟩ := Array.mem_iff_getElem?.1 (Array.mem_toList_iff.1 hg)
    obtain ⟨v, hv, -⟩ := hknown.global ⟨k⟩ g hk
    exact ⟨v, hv⟩
  · obtain ⟨c, hc, rfl⟩ := List.mem_map.1 hname
    obtain ⟨k, hk⟩ := List.mem_iff_getElem?.1 hc
    obtain ⟨func, hf, -, hholds⟩ := hheader k c hk
    obtain ⟨v, hv, -⟩ := hknown.func ⟨k⟩ func hf
    exact ⟨v, hholds.name ▸ hv⟩

/-- A text in which no global or function is defined twice, and whose definitions are coherent, is
read exactly if each definition fits. -/
theorem ofText_ok_iff {text : String} {kinds : List LineKind} {cs : List Chapter}
    (hprints : Prints text kinds)
    (hkinds : kinds.filterMap LineKind.tokens? = cs.flatMap Chapter.lines) (hcs : ∀ c ∈ cs, c.Valid)
    (hsource : .sourceFilename none ∉ kinds)
    (honce : (globalNames kinds ++ cs.map fun c => c.header.name).Nodup)
    (hcoherent : ∀ c ∈ cs, c.paragraphs ≠ [] →
      c.Coherent (globalNames kinds ++ cs.map fun c => c.header.name)) :
    (∃ n, Module.ofText text = .ok n) ↔ ∀ c ∈ cs, c.paragraphs ≠ [] → c.Fits := by
  obtain ⟨honceGlobals, honceFuncs, hapart⟩ := List.nodup_append.1 honce
  obtain ⟨o, houtline, hfresh⟩ := Outline.ofText_ok hprints hsource honceGlobals
  obtain ⟨hsketch, hvalid⟩ := Outline.ofText_sketch houtline
  have hgathers := Outline.gathers_ofText hprints houtline
  have hlines : o.lines.map TokenLine.tokens = cs.flatMap Chapter.lines := by
    simpa [hkinds] using hgathers.lines
  obtain ⟨s₁, hfold₁⟩ :=
    Headers.foldlM_add_ok (s := { module := o.module, symbols := o.symbols }) hcs hlines
    honceFuncs fun c hc => hfresh _ fun hmem => hapart _ hmem _ (List.mem_map_of_mem hc) rfl
  obtain ⟨s, hheaders⟩ : ∃ s, o.headers = .ok s := ⟨_, by rw [Outline.headers, hfold₁]; rfl⟩
  have hsound := Outline.headers_sound hsketch hvalid hheaders
  obtain ⟨hsize, hdefinitions, hheader, hknown⟩ :=
    hold_headers (o := o) hgathers.functions (Outline.ofText_known houtline) hlines hcs hheaders
  have hglobals := exists_symbol (o := o) hgathers.globals hheaders hheader hknown
  -- All that is left to decide are the bodies.
  rw [← readLines_chapters_iff (m := s.module) (k := 0) hcs hcoherent hglobals hlines hvalid
    hsound.sketch hsound.pending hdefinitions fun j c hc => by
      obtain ⟨func, hf, -, hholds⟩ := hheader j c hc
      exact ⟨func, by rwa [Nat.zero_add], hholds⟩]
  constructor
  · rintro ⟨n, hread⟩
    simp only [Module.ofText, houtline, Except.mapError, ok_bind, hheaders, readBodies,
      bind_eq_ok] at hread
    obtain ⟨n', ⟨p, hp, -⟩, -⟩ := hread
    exact ⟨p, hp⟩
  · rintro ⟨⟨p, ds⟩, hfold⟩
    obtain ⟨n, rfl, huntouched, hrecorded⟩ :=
      readLines_chapters hcs hlines hvalid hsound.sketch hsound.pending hdefinitions hfold
    have hbodies : readBodies s o.lines = .ok n := by
      rw [readBodies, hfold]
      rfl
    have hcheck : n.check = .ok () := by
      refine check_of_recorded (readBodies_sketch hsound hvalid hbodies) fun f func hf => ?_
      obtain ⟨k⟩ := f
      obtain ⟨func₀, hf₀, -⟩ := (readBodies_spares hsound hvalid hbodies).heading hf
      obtain ⟨c, hc⟩ : ∃ c, cs[k]? = some c :=
        ⟨_, List.getElem?_eq_getElem (hsize ▸ (Array.getElem?_eq_some_iff.1 hf₀).1)⟩
      by_cases hdeclared : c.paragraphs = []
      · obtain ⟨func₁, hf₁, hlayout, -⟩ := hheader k c hc
        have hsame := (huntouched ⟨k⟩ (ne_of_declared hdefinitions hc hdeclared)).func func₁ hf₁
        obtain rfl := Option.some.inj (hf.symm.trans hsame)
        exact .inl hlayout
      · have hread := hrecorded k c hc hdeclared
        rw [Nat.zero_add] at hread
        exact .inr ⟨c, hread, (hcoherent c (List.mem_of_getElem? hc) hdeclared).closes⟩
    refine ⟨n, ?_⟩
    simp only [Module.ofText, houtline, Except.mapError, ok_bind, hheaders, hbodies, hcheck]
    rfl

end SsaFold.Text
