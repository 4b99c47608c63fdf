import SsaFold.Proofs.Text.Writing

/-!
# Printed modules

A function of a module that can be printed is printed as lines that say a chapter which it holds
(`Printing.exists_chapter`), and a module is printed as the lines above its functions and the lines
of these chapters (`Module.Printable.toText_ok`).
-/

namespace SsaFold.Text

open SsaFold.Module

/-! ## Lines -/

section Lines

variable {s : String} {ts : List Token}

/-- What the lines with these tokens are taken for. -/
def kindsOf (tss : List (List Token)) : List LineKind := tss.map LineKind.ofTokens

lemma kindsOf_append (tss tss' : List (List Token)) :
    kindsOf (tss ++ tss') = kindsOf tss ++ kindsOf tss' := List.map_append

lemma ofTokens_cons {first : Token} {rest : List Token} (h : first ≠ .word "source_filename") :
    LineKind.ofTokens (first :: rest) = .tokens first rest := by
  unfold LineKind.ofTokens
  split
  · rename_i heq
    cases heq
  · rename_i heq
    exact absurd (List.cons.inj heq).1 h
  · rename_i heq
    obtain ⟨rfl, rfl⟩ := List.cons.inj heq
    rfl

/-- A text that begins with a character like this is split into tokens. -/
lemma beginsTokens_cons {c : Char} {cs : List Char} (hblank : isBlank c = false)
    (h : c ∉ [';', '!', '@', 't', 'a']) : BeginsTokens (c :: cs) := by
  simp only [List.mem_cons, List.not_mem_nil, or_false, not_or] at h
  refine ⟨⟨c, cs, rfl, hblank, h.1, h.2.1, h.2.2.1⟩, startsWith_eq_false fun hstart => ?_,
    startsWith_eq_false fun hstart => ?_⟩
  · exact h.2.2.2.1 (List.cons_prefix_cons.1 hstart).1.symm
  · exact h.2.2.2.2 (List.cons_prefix_cons.1 hstart).1.symm

lemma beginsTokens_mnemonic (op : Opcode) (rest : List Char) :
    BeginsTokens (op.mnemonic.toList ++ rest) := by
  obtain ⟨c, cs, hword, hstart, -⟩ := isWord_mnemonic op
  have hfirst : c ∉ [';', '!', '@', 't'] ∧ ¬ "attributes".toList.take 2 <+: op.mnemonic.toList ∧
      2 ≤ op.mnemonic.toList.length := by
    have : ∀ op : Opcode, op.mnemonic.toList.head?.all (· ∉ [';', '!', '@', 't']) = true ∧
        ¬ "attributes".toList.take 2 <+: op.mnemonic.toList ∧ 2 ≤ op.mnemonic.toList.length := by
      rintro (⟨⟨⟩⟩ | _) <;> decide
    obtain ⟨hc, hattributes, hlength⟩ := this op
    rw [hword, List.head?_cons, Option.all_some, decide_eq_true_eq] at hc
    exact ⟨hc, hattributes, hlength⟩
  obtain ⟨hc, hattributes, hlength⟩ := hfirst
  simp only [List.mem_cons, List.not_mem_nil, or_false, not_or] at hc
  refine ⟨⟨c, cs ++ rest, by rw [hword, List.cons_append],
    isBlank_of_isNameChar (isNameChar_of_isWordStart hstart), hc.1, hc.2.1, hc.2.2.1⟩,
    startsWith_eq_false fun hstart => ?_, startsWith_eq_false fun hstart => hattributes ?_⟩
  · rw [hword, List.cons_append] at hstart
    exact hc.2.2.2 (List.cons_prefix_cons.1 hstart).1.symm
  · have htwo : "attributes".toList.take 2 <+: op.mnemonic.toList ++ rest :=
      ((List.take_prefix ..).trans (by decide)).trans hstart
    exact List.prefix_of_prefix_length_le htwo (List.prefix_append ..) (by simpa using hlength)

/-- A line that begins so is taken for its tokens. -/
lemma Lexes.isLine {first : Token} {rest : List Token} (h : Lexes s (first :: rest))
    (hbegins : BeginsTokens s.toList) : IsLine s (.ofTokens (first :: rest)) := by
  have := isLine_tokens (show ∀ c ∈ "".toList, c = ' ' by simp) hbegins h.clean (h.tokens_eq true)
  rwa [String.empty_append] at this

/-- Texts behind one another. -/
lemma prints_join {ss : List String} {tsss : List (List (List Token))}
    (h : List.Forall₂ (fun s tss => Prints s (kindsOf tss)) ss tsss) :
    Prints (String.join ss) (kindsOf tsss.flatten) := by
  induction h with
  | nil => exact prints_empty
  | cons hs _ ih =>
    rw [String.join_cons, List.flatten_cons, kindsOf_append]
    exact hs.append ih

end Lines

/-! ## Blocks -/

namespace Printing

variable {m : Module} {f : FuncId} {func : Func} {b : BlockId}

/-- An instruction line is split into tokens. -/
lemma beginsTokens_inst {p : Printing} {inst : Inst} {t : String} (hrun : p.inst inst = .ok t) :
    BeginsTokens t.toList := by
  simp only [Printing.inst] at hrun
  split_ifs at hrun
  · simp only [bind_eq_ok, pure_eq_ok] at hrun
    obtain ⟨_, rfl, text, -, rfl⟩ := hrun
    simp only [String.empty_append, String.toList_append, List.append_assoc]
    exact beginsTokens_mnemonic _ _
  · simp only [bind_eq_ok, pure_eq_ok, Printing.localName] at hrun
    obtain ⟨_, ⟨value, -, rfl⟩, _, rfl, text, -, rfl⟩ := hrun
    simp only [String.toList_append, List.append_assoc]
    exact beginsTokens_cons (by decide) (by decide)

lemma entry_first_ne (e : Entry) : ∃ first rest, e.tokens = first :: rest ∧
    first ≠ .word "source_filename" := by
  obtain ⟨first, rest, htokens, hfirst⟩ := e.tokens_eq_cons
  refine ⟨first, rest, htokens, ?_⟩
  rcases hfirst with ⟨s, rfl⟩ | ⟨op, rfl⟩
  · simp
  · exact fun h => (mnemonic_ne op).2.2 (Token.word.inj h)

/-- An instruction is printed as a line. -/
lemma prints_entry {p : Printing} {inst : Inst} {e : Entry} {t : String} (hlexes : Lexes t e.tokens)
    (hrun : p.inst inst = .ok t) : Prints ("  " ++ t ++ "\n") (kindsOf [e.tokens]) := by
  have hbegins := beginsTokens_inst hrun
  obtain ⟨first, rest, htokens, hfirst⟩ := entry_first_ne e
  have hindent : ∀ c ∈ "  ".toList, c = ' ' := by simp
  have hline := isLine_tokens hindent hbegins hlexes.clean (hlexes.tokens_eq true)
  refine prints_line hline ?_
  rw [htokens, ofTokens_cons hfirst]
  simp

/-- A placed block is printed as a paragraph, with or without its label. -/
lemma exists_paragraph (hm : m.Printable) (hf : m.func? f = some func) (hb : b ∈ func.layout)
    {label : Option String} (hlabel : label = some ((of m func).blockName b) ∨
      label = none ∧ ∀ block, m.block? b = some block → block.name = none) :
    ∃ p : Paragraph, p.label = label ∧ p.Valid ∧ m.HoldsParagraph ((of m func).scope f func) b p ∧
      ∃ t, (of m func).block b = .ok t ∧ Prints t (kindsOf (p.entries.map Entry.tokens)) := by
  obtain ⟨block, hblock, hword⟩ := (hm.complete.draft.funcs f func hf).labels b hb
  obtain ⟨block', hblock', hfunc⟩ := hm.complete.intact.shaped.placed f func hf b hb
  obtain rfl := Option.some.inj (hblock.symm.trans hblock')
  have howner : m.owner? b = some f := owner?_eq_some.2 ⟨block, hblock, hfunc⟩
  have hinsts := hm.complete.intact.shaped.exists_inst hblock
  obtain ⟨entries, hentries⟩ : ∃ entries, List.Forall₂ (fun i (e : Entry) => ∃ inst,
      m.inst? i = some inst ∧ e.Valid ∧ m.HoldsEntry ((of m func).scope f func) inst e ∧
        ∃ t, (of m func).inst inst = .ok t ∧ Lexes t e.tokens) block.insts.toList entries := by
    refine exists_forall₂ fun i hi => ?_
    obtain ⟨inst, hinst, rfl⟩ := hinsts i hi
    obtain ⟨e, he, hholds, htext⟩ := exists_entry hm hf hinst howner
    exact ⟨e, inst, hinst, he, hholds, htext⟩
  obtain ⟨ss, hss, hprints⟩ := mapM_ok
    (f := fun i => do return "  " ++ (← (of m func).inst (← m.getInst i)) ++ "\n")
    (R := fun t (e : Entry) => Prints t (kindsOf [e.tokens])) (hentries.imp fun i e h => by
      obtain ⟨inst, hinst, -, -, t, ht, hlexes⟩ := h
      refine ⟨_, ?_, prints_entry hlexes ht⟩
      simp only [getInst_eq_ok.2 hinst, ht, ok_bind]
      rfl)
  refine ⟨⟨label, entries⟩, rfl, ⟨fun l hl => ?_, fun e he => ?_, fun hnone hempty => ?_, ?_⟩,
    ⟨⟨block, hblock, ?_, hentries.imp fun i e h => ?_⟩, fun l hl => ?_⟩, String.join ss, ?_, ?_⟩
  · rcases hlabel with rfl | ⟨rfl, -⟩
    · obtain rfl := Option.some.inj hl
      exact (labelName_ok hm hf hb).2
    · cases hl
  · obtain ⟨i, -, inst, -, he, -⟩ := exists_mem_of_forall₂ hentries e he
    exact he
  · -- The terminator of the block is printed.
    obtain ⟨i, hi, -⟩ := hm.anchored b block hblock
    obtain rfl : entries = [] := hempty
    have := List.forall₂_nil_right_iff.1 hentries
    simp [Array.toList_eq_nil_iff.1 this] at hi
  · refine pairwise_of_forall₂ hentries ?_ (hm.complete.ends b block hblock)
    rintro i e ⟨inst, hinst, -, hholds, -⟩ hnot
    have hopcode : inst.opcode = e.statement.operation.opcode :=
      congrArg InstSpec.opcode hholds.spec
    exact hopcode ▸ hnot inst hinst
  · rcases hlabel with rfl | ⟨rfl, hnone⟩
    · simp only [blockName, hblock, Option.bind_some]
      exact (keptName_rawName (nameable_of_isWord hword)).symm
    · exact hnone block hblock
  · obtain ⟨inst, hinst, -, hholds, -⟩ := h
    exact ⟨inst, hinst, hholds⟩
  · rcases hlabel with rfl | ⟨rfl, -⟩
    · obtain rfl := Option.some.inj hl
      exact ⟨hb, rfl⟩
    · cases hl
  · simp only [Printing.block, getBlock_eq_ok.2 hblock, ok_bind]
    rw [hss]
    rfl
  · have := prints_join (List.forall₂_map_right_iff.2 hprints)
    rwa [← List.flatMap_def, ← List.map_eq_flatMap] at this

/-- A label is printed as a line. -/
lemma prints_label {l : String} (h : IsLabel l) :
    Prints (nameText l ++ ":\n") (kindsOf [[.label l]]) := by
  have hplain := isPlain_of_isLabel h
  have hline : IsLine (l ++ ":") (.ofTokens [.label l]) := by
    have hchars : ∀ c ∈ (l ++ ":").toList, isBlank c = false := by
      intro c hc
      rw [isPlain, Bool.and_eq_true, List.all_eq_true] at hplain
      rcases List.mem_append.1 (String.toList_append ▸ hc) with hc | hc
      · exact isBlank_of_isNameChar (hplain.2 c hc)
      · obtain rfl := List.mem_singleton.1 hc
        decide
    have hclean : Clean (l ++ ":") := by
      refine ⟨fun hmem => absurd (hchars _ hmem) (by decide), fun hlast => ?_⟩
      exact absurd (hchars _ (List.mem_of_getLast? hlast)) (by decide)
    have hbegins : BeginsTokens (l ++ ":").toList := by
      rw [isPlain, Bool.and_eq_true, List.all_eq_true] at hplain
      obtain ⟨c, cs, hcs⟩ : ∃ c cs, l.toList = c :: cs :=
        List.exists_cons_of_ne_nil (by simpa using hplain.1)
      have hc : isNameChar c = true := hplain.2 c (by rw [hcs]; exact List.mem_cons_self)
      refine ⟨⟨c, cs ++ [':'], by simp [hcs], isBlank_of_isNameChar hc, ?_, ?_, ?_⟩, ?_, ?_⟩
      any_goals
        rintro rfl
        exact absurd hc (by decide)
      all_goals
        refine startsWith_eq_false fun hstart => ?_
        exact absurd (hchars ' ' (hstart.subset (by decide))) (by decide)
    have := isLine_tokens (show ∀ c ∈ "".toList, c = ' ' by simp) hbegins hclean (tokens_label h)
    rwa [String.empty_append] at this
  have hlabel : Token.label l ≠ .word "source_filename" := by simp
  have := prints_line hline (by rw [ofTokens_cons hlabel]; simp)
  rw [nameText, if_pos hplain]
  rwa [String.append_assoc] at this

/-- The label of the first block is left out if the block has no name. -/
def LeavesOut (m : Module) (func : Func) (ps : List Paragraph) : Prop :=
  ∀ b block p, func.layout[0]? = some b → m.block? b = some block → block.name = none →
    ps[0]? = some p → p.label = none

/-- The first block of a definition is printed, without a label if it has no name. -/
lemma exists_entryParagraph (hm : m.Printable) (hf : m.func? f = some func) (hb : b ∈ func.layout) :
    ∃ p : Paragraph, p.Valid ∧ m.HoldsParagraph ((of m func).scope f func) b p ∧
      (∀ block, m.block? b = some block → block.name = none → p.label = none) ∧
      ∃ t, (of m func).entryBlock b = .ok t ∧ Prints t (kindsOf p.lines) := by
  obtain ⟨block, hblock, -⟩ := (hm.complete.draft.funcs f func hf).labels b hb
  obtain ⟨hlabel, hisLabel⟩ := labelName_ok hm hf hb
  cases hname : block.name with
  | some s =>
    obtain ⟨p, hp, hvalid, hholds, t, ht, hprints⟩ := exists_paragraph hm hf hb (.inl rfl)
    have hlines := (prints_label hisLabel).append hprints
    rw [← kindsOf_append] at hlines
    refine ⟨p, hvalid, hholds, fun block' hblock' hnone => ?_, _, ?_,
      by simpa [Paragraph.lines, hp] using hlines⟩
    · obtain rfl := Option.some.inj (hblock.symm.trans hblock')
      cases hname.symm.trans hnone
    simp only [Printing.entryBlock, getBlock_eq_ok.2 hblock, hname, Option.isSome_some, if_true,
      hlabel, ht, ok_bind, pure_bind]
    rfl
  | none =>
    obtain ⟨p, hp, hvalid, hholds, t, ht, hprints⟩ := exists_paragraph hm hf hb
      (.inr ⟨rfl, fun block' hblock' => Option.some.inj (hblock.symm.trans hblock') ▸ hname⟩)
    refine ⟨p, hvalid, hholds, fun _ _ _ => hp, t, ?_, by simpa [Paragraph.lines, hp] using hprints⟩
    simp only [Printing.entryBlock, getBlock_eq_ok.2 hblock, hname, Option.isSome_none,
      Bool.false_eq_true, if_false, ht, ok_bind, pure_bind, String.empty_append]
    rfl

/-- Any other block is printed behind an empty line, with its label. -/
lemma exists_laterParagraph (hm : m.Printable) (hf : m.func? f = some func) (hb : b ∈ func.layout) :
    ∃ p : Paragraph, p.Valid ∧ p.label.isSome ∧ m.HoldsParagraph ((of m func).scope f func) b p ∧
      ∃ t, (of m func).laterBlock b = .ok t ∧ Prints t (kindsOf p.lines) := by
  obtain ⟨hlabel, hisLabel⟩ := labelName_ok hm hf hb
  obtain ⟨p, hp, hvalid, hholds, t, ht, hprints⟩ := exists_paragraph hm hf hb (.inl rfl)
  have hlines := (prints_newline.append (prints_label hisLabel)).append hprints
  rw [List.nil_append, ← kindsOf_append] at hlines
  refine ⟨p, hvalid, by simp [hp], hholds,
    "\n" ++ (nameText ((of m func).blockName b) ++ ":\n") ++ t, ?_,
    by simpa [Paragraph.lines, hp] using hlines⟩
  simp only [Printing.laterBlock, hlabel, ht, ok_bind, String.append_assoc]
  rfl

/-- The blocks of a definition are printed, and only the first may stand without a label. -/
lemma exists_paragraphs (hm : m.Printable) (hf : m.func? f = some func)
    (hdefined : func.layout ≠ #[]) :
    ∃ ps : List Paragraph, ps ≠ [] ∧
      List.Forall₂ (m.HoldsParagraph ((of m func).scope f func)) func.layout.toList ps ∧
      (∀ p ∈ ps, p.Valid) ∧ (∀ p ∈ ps.tail, p.label.isSome) ∧ LeavesOut m func ps ∧
      ∃ t, (of m func).blocks func.layout.toList = .ok t ∧
        Prints t (kindsOf (ps.flatMap Paragraph.lines)) := by
  obtain ⟨entry, rest, hlayout⟩ : ∃ entry rest, func.layout.toList = entry :: rest :=
    List.exists_cons_of_ne_nil (by simpa using hdefined)
  have hplaced : ∀ b ∈ entry :: rest, b ∈ func.layout := fun b hb =>
    Array.mem_toList_iff.1 (hlayout ▸ hb)
  obtain ⟨hentry, hrest⟩ := List.forall_mem_cons.1 hplaced
  obtain ⟨p, hp, hholds, hleft, t, ht, hprints⟩ := exists_entryParagraph hm hf hentry
  obtain ⟨ps, hps⟩ := exists_forall₂ fun b hb => exists_laterParagraph hm hf (hrest b hb)
  obtain ⟨ss, hss, hrestPrints⟩ := mapM_ok
    (R := fun t (p : Paragraph) => Prints t (kindsOf p.lines)) (hps.imp fun _ _ h => h.2.2.2)
  refine ⟨p :: ps, List.cons_ne_nil _ _, hlayout ▸ .cons hholds (hps.imp fun _ _ h => h.2.2.1),
    fun q hq => ?_, fun q hq => ?_, fun b block q hb hblock hname hq => ?_,
    t ++ String.join ss, ?_, ?_⟩
  · rcases List.mem_cons.1 hq with rfl | hq
    · exact hp
    · obtain ⟨_, -, h⟩ := exists_mem_of_forall₂ hps q hq
      exact h.1
  · obtain ⟨_, -, h⟩ := exists_mem_of_forall₂ hps q hq
    exact h.2.1
  · rw [← Array.getElem?_toList, hlayout] at hb
    obtain rfl := Option.some.inj hb
    obtain rfl := Option.some.inj hq
    exact hleft block hblock hname
  · simp only [hlayout, Printing.blocks, ht, hss, ok_bind]
    rfl
  · rw [List.flatMap_cons, kindsOf_append]
    exact hprints.append (prints_join (List.forall₂_map_right_iff.2 hrestPrints))

/-! ## Functions -/

lemma lexes_attr {a : String} (h : IsAttr a) : Lexes a [attrToken a] := by
  rcases h with hword | ⟨digits, hdigits, rfl⟩
  · have htoken : attrToken a = .word a := by
      obtain ⟨c, cs, hcs, hc, -⟩ := hword
      rw [attrToken, hcs]
      split
      · rename_i heq
        obtain ⟨rfl, -⟩ := List.cons.inj heq
        exact absurd hc (by decide)
      · rfl
    exact htoken ▸ lexes_word hword
  · have htoken : attrToken ("#" ++ digits) = .attrRef digits := by simp [attrToken]
    exact htoken ▸ lexes_attrRef hdigits

/-- A header is printed as its tokens. -/
lemma lexes_header {h : Header} (hh : h.Valid) {word : String} (hword : IsWord word) {func : Func}
    (hname : func.name = h.name) (hreturnType : func.returnType = h.returnType)
    (hlinkage : func.linkage = h.linkage) (hattrs : func.attrs = h.attrs) {params : String}
    (hparams : Lexes params (Header.paramTokens h.params h.vararg)) :
    Lexes (header word func params) (.word word :: h.tokens false) := by
  have hend : Follows ")" [.punct ')'] := Lexes.mark follows_empty.lexes (by decide) rfl
  have hopen := (lexes_append hparams hend).mark (by decide)
    (show ("(" ++ (params ++ ")")).toList = '(' :: (params ++ ")").toList by simp)
  have hcall := lexes_append (lexes_globalName hh.name) hopen
  have hparts : List.Forall₂ Lexes
      (word :: h.linkage ++ [h.returnType.text,
        globalText h.name ++ ("(" ++ (params ++ ")"))] ++ h.attrs)
      ([.word word] :: h.linkage.map (fun w => [.word w])
        ++ [[.word h.returnType.text], [.globalName h.name] ++ .punct '(' ::
          (Header.paramTokens h.params h.vararg ++ [.punct ')'])]
        ++ h.attrs.map fun a => [attrToken a]) := by
    refine List.rel_append (List.rel_append (.cons (lexes_word hword) ?_)
      (.cons (lexes_word (isWord_ty _)) (.cons hcall .nil))) ?_
    · exact List.forall₂_map_right_iff.2
        (List.forall₂_same.2 fun w hw => lexes_word (hh.linkage w hw).1)
    · exact List.forall₂_map_right_iff.2
        (List.forall₂_same.2 fun a ha => lexes_attr (hh.attrs a ha))
  have := lexes_intercalate_blank hparts
  simpa [header, Header.tokens, hname, hreturnType, hlinkage, hattrs, ← List.flatMap_def,
    ← List.map_eq_flatMap, String.append_assoc] using this

/-- A header line is split into tokens. -/
lemma beginsTokens_header {word : String} (hword : word = "define" ∨ word = "declare") {func : Func}
    {params : String} (more : String) : BeginsTokens (header word func params ++ more).toList := by
  obtain ⟨cs, hcs⟩ : ∃ cs, word.toList = 'd' :: cs := by
    rcases hword with rfl | rfl <;> exact ⟨_, rfl⟩
  rw [header, List.cons_append, List.cons_append, String.intercalate_cons_of_ne_nil (by simp)]
  simp only [String.toList_append, List.append_assoc, hcs, List.cons_append]
  exact beginsTokens_cons (by decide) (by decide)

/-- Parameters are printed with their names. -/
lemma exists_params (hm : m.Printable) (hf : m.func? f = some func) :
    ∃ params : List Param, List.Forall₂ m.HoldsParam func.params params ∧
      List.Forall₂ (fun v (p : Param) => ∀ s, p.name = some s →
        ((of m func).scope f func).denotes ⟨p.ty, .localName s⟩ v) func.params params ∧
      (∀ p ∈ params, p.Valid ∧ p.name.isSome) ∧ ∃ t, (of m func).params func = .ok t ∧
        Lexes t (Header.paramTokens params func.vararg) := by
  obtain ⟨params, hparams⟩ : ∃ params, List.Forall₂ (fun v (p : Param) => p.Valid ∧ p.name.isSome ∧
      (m.HoldsParam v p ∧
        ∀ s, p.name = some s → ((of m func).scope f func).denotes ⟨p.ty, .localName s⟩ v) ∧
      ∃ t, (of m func).typed v = .ok t ∧ Lexes t p.tokens) func.params params := by
    refine exists_forall₂ fun v hv => ?_
    obtain ⟨k, hk⟩ := List.mem_iff_getElem?.1 hv
    obtain ⟨value, hvalue, hkind, hvoid⟩ := (hm.complete.draft.funcs f func hf).params k v hk
    have hvisible : m.Visible f v := ⟨value, hvalue, hvoid, hkind ▸ ⟨rfl, func, hf, hk⟩⟩
    obtain ⟨⟨ty, atom⟩, ha⟩ := exists_spelled hm hf hvisible
    have hatom : atom = .localName ((of m func).valueName v) := by
      have := ha.denotes.1
      rw [atom?, kind?_eq_some.2 ⟨value, hvalue, hkind⟩] at this
      exact (Option.some.inj this).symm
    obtain rfl := hatom
    have hnameable : Nameable (m.nameOf? v) := by
      simpa [nameOf?, hvalue] using (hm.complete.draft.values v value hvalue).2
    refine ⟨⟨ty, some ((of m func).valueName v)⟩, ⟨ha.valid.ty, ha.not_void, fun s hs => ?_⟩, rfl,
      ⟨⟨ha.denotes.2.1, fun s hs => ?_⟩, fun s hs => ?_⟩, ha.typed⟩
    · exact Option.some.inj hs ▸ ha.valid.atom
    · obtain rfl := Option.some.inj hs
      exact (keptName_rawName hnameable).symm
    · obtain rfl := Option.some.inj hs
      exact ha.denotes
  obtain ⟨ss, hss, hlexes⟩ := mapM_ok (R := fun t (p : Param) => Lexes t p.tokens)
    (hparams.imp fun _ _ h => h.2.2.2)
  refine ⟨params, hparams.imp fun _ _ h => h.2.2.1.1, hparams.imp fun _ _ h => h.2.2.1.2,
    fun p hp => ?_, ", ".intercalate (ss ++ if func.vararg then ["..."] else []), ?_,
    lexes_intercalate_comma ?_⟩
  · obtain ⟨_, -, h⟩ := exists_mem_of_forall₂ hparams p hp
    exact ⟨h.1, h.2.1⟩
  · simp only [Printing.params, hss, ok_bind]
    rfl
  · refine List.rel_append (List.forall₂_map_right_iff.2 hlexes) ?_
    split_ifs
    · exact .cons lexes_ellipsis .nil
    · exact .nil

/-- A declaration is printed as one line. -/
lemma exists_declaration (hm : m.Printable) (hf : m.func? f = some func)
    (hlayout : func.layout = #[]) :
    ∃ c : Chapter, c.Valid ∧ m.HoldsChapter ((of m func).scope f func) func c ∧
      LeavesOut m func c.paragraphs ∧
      ∃ t, funcText m func = .ok t ∧ Prints t (kindsOf c.lines) := by
  have hdeclared := hm.complete.draft.funcs f func hf
  obtain ⟨types, htypes, hreadable, t, ht, hlexes⟩ := paramTypes_ok hm hf
  let h : Header :=
    ⟨func.name, func.returnType, func.linkage, types.map (⟨·, none⟩), func.vararg, func.attrs⟩
  have hh : h.Valid := by
    refine ⟨hdeclared.name, hdeclared.returnType, hdeclared.linkage, fun p hp => ?_,
      hdeclared.attrs⟩
    obtain ⟨ty, hty, rfl⟩ := List.mem_map.1 hp
    exact ⟨(hreadable ty hty).1, (hreadable ty hty).2, (by simp)⟩
  have hparams : Lexes t (Header.paramTokens h.params h.vararg) := by
    rw [Header.paramTokens, List.map_map]
    exact hlexes
  have hline := lexes_header hh (show IsWord "declare" by decide) rfl rfl rfl rfl hparams
  refine ⟨⟨h, []⟩, ⟨hh, (by simp), (by simp), (by simp)⟩,
    ⟨⟨rfl, rfl, rfl, rfl, rfl, ?_⟩, absurd rfl, ?_⟩, fun _ _ _ _ _ _ hp => absurd hp (by simp),
    header "declare" func t ++ "\n", ?_, ?_⟩
  · refine List.forall₂_map_right_iff.2 ?_
    have hsame : List.Forall₂ (fun v ty => m.typeOf? v = some ty) func.params types :=
      List.forall₂_map_left_iff.1 (List.forall₂_map_right_iff.1 (List.forall₂_eq_eq_eq ▸ htypes))
    exact hsame.imp fun v ty hty => ⟨hty, (by simp)⟩
  · simp [hlayout]
  · have hdeclaration : func.isDeclaration = true := by simp [Func.isDeclaration, hlayout]
    simp only [funcText, hdeclaration, if_true, declaration, ht, ok_bind]
    rfl
  · have hbegins := @beginsTokens_header "declare" (.inr rfl) func t ""
    rw [String.append_empty] at hbegins
    exact prints_line (hline.isLine hbegins)
      (by rw [ofTokens_cons (by decide)]; simp)

/-- A definition is printed as its header, its blocks and a brace. -/
lemma exists_definition (hm : m.Printable) (hf : m.func? f = some func)
    (hlayout : func.layout ≠ #[]) :
    ∃ c : Chapter, c.Valid ∧ m.HoldsChapter ((of m func).scope f func) func c ∧
      LeavesOut m func c.paragraphs ∧
      ∃ t, funcText m func = .ok t ∧ Prints t (kindsOf c.lines) := by
  have hdeclared := hm.complete.draft.funcs f func hf
  obtain ⟨params, hparams, hnames, hvalid, t, ht, hlexes⟩ := exists_params hm hf
  obtain ⟨ps, hne, hps, hpsValid, hlabels, hleft, u, hu, hprints⟩ := exists_paragraphs hm hf hlayout
  let h : Header :=
    ⟨func.name, func.returnType, func.linkage, params, func.vararg, func.attrs⟩
  have hh : h.Valid :=
    ⟨hdeclared.name, hdeclared.returnType, hdeclared.linkage, fun p hp => (hvalid p hp).1,
      hdeclared.attrs⟩
  have hheader := lexes_header hh (show IsWord "define" by decide) rfl rfl rfl rfl hlexes
  have hbrace : Follows "\x7b" [.punct '\x7b'] := Lexes.mark follows_empty.lexes (by decide) rfl
  have hline : Lexes (header "define" func t ++ (" " ++ "\x7b"))
      (.word "define" :: h.tokens true) := by
    have := lexes_append hheader hbrace.lexes.blank
    simpa [Header.tokens] using this
  have hopening : Prints (header "define" func t ++ (" " ++ "\x7b") ++ "\n")
      (kindsOf [.word "define" :: h.tokens true]) :=
    prints_line (hline.isLine (beginsTokens_header (.inl rfl) _))
      (by rw [ofTokens_cons (by decide)]; simp)
  have hclosing : Prints "\x7d\n" (kindsOf [[.punct '\x7d']]) := by
    have hlexes : Lexes "\x7d" [.punct '\x7d'] :=
      (Lexes.mark follows_empty.lexes (by decide) rfl).lexes
    exact prints_line (hlexes.isLine (beginsTokens_cons (by decide) (by decide)))
      (by rw [ofTokens_cons (by decide)]; simp)
  refine ⟨⟨h, ps⟩, ⟨hh, fun _ p hp => (hvalid p hp).2, hpsValid, hlabels⟩,
    ⟨⟨rfl, rfl, rfl, rfl, rfl, hparams⟩, fun _ => hnames, hps⟩, hleft,
    header "define" func t ++ (" " ++ "\x7b") ++ "\n" ++ u ++ "\x7d\n", ?_, ?_⟩
  · have hdefinition : func.isDeclaration = false := by simpa [Func.isDeclaration] using hlayout
    simp only [funcText, hdefinition, Bool.false_eq_true, if_false, definition, ht, hu, ok_bind]
    simp only [String.append_assoc]
    rfl
  · have := (hopening.append hprints).append hclosing
    rw [← kindsOf_append, ← kindsOf_append] at this
    simpa [Chapter.lines, hne] using this

/-- A function is printed as a chapter that it holds. -/
lemma exists_chapter (hm : m.Printable) (hf : m.func? f = some func) :
    ∃ c : Chapter, c.Valid ∧ m.HoldsChapter ((of m func).scope f func) func c ∧
      LeavesOut m func c.paragraphs ∧
      ∃ t, funcText m func = .ok t ∧ Prints t (kindsOf c.lines) := by
  by_cases hlayout : func.layout = #[]
  · exact exists_declaration hm hf hlayout
  · exact exists_definition hm hf hlayout

end Printing

end SsaFold.Text

namespace SsaFold.Module

open Text

/-! ## Modules -/

variable {m : Module}

/-- What the lines above the functions of a module are taken for. -/
def kinds (m : Module) : List LineKind :=
  (if m.name = "" then [] else [.moduleName m.name]) ++
    (m.sourceFilename.map fun s => LineKind.sourceFilename (some s)).toList ++
    m.targetLines.map .target ++ m.globals.toList.map fun g => .globalDef g.name g.definition

/-- The chapters are held by the functions of the module, each in print. -/
def HoldsAll (m : Module) (cs : List Chapter) : Prop :=
  List.Forall₂ (fun (x : Func × Nat) (c : Chapter) => c.Valid ∧
    m.HoldsChapter ((Printing.of m x.1).scope ⟨x.2⟩ x.1) x.1 c ∧
      Printing.LeavesOut m x.1 c.paragraphs) m.functions.toList.zipIdx cs

lemma Legible.prints_preamble (h : m.Legible) :
    Prints (unlines (preamble m)) ((if m.name = "" then [] else [.moduleName m.name]) ++
      (m.sourceFilename.map fun s => LineKind.sourceFilename (some s)).toList ++
      m.targetLines.map .target) := by
  refine prints_lines (List.rel_append (List.rel_append ?_ ?_) ?_) fun kind hkind => ?_
  · split_ifs with hname
    · exact .nil
    · exact .cons (h.name hname) .nil
  · cases hsource : m.sourceFilename with
    | none => exact .nil
    | some s =>
      have hquoted := lexes_str (h.sourceFilename s hsource)
      have hchars : ("=" ++ (" " ++ ("\"" ++ s ++ "\""))).toList
          = '=' :: (" " ++ ("\"" ++ s ++ "\"")).toList := by
        simp
      have hequals := hquoted.blank.lexes.mark (by decide) hchars
      have hall := lexes_append (lexes_word (w := "source_filename") (by decide))
        hequals.lexes.blank
      have htext : "source_filename" ++ (" " ++ ("=" ++ (" " ++ ("\"" ++ s ++ "\""))))
          = "source_filename = \"" ++ s ++ "\"" := by
        have hstart :
            "source_filename = \"" = "source_filename" ++ (" " ++ ("=" ++ (" " ++ "\""))) := by
          decide
        rw [hstart]
        simp only [String.append_assoc]
      rw [htext] at hall
      refine .cons ?_ .nil
      have := hall.isLine (by
        simp only [String.toList_append, List.append_assoc]
        exact beginsTokens_cons (by decide) (by decide))
      exact this
  · exact List.forall₂_map_right_iff.2 (List.forall₂_same.2 h.targetLines)
  · rintro rfl
    rcases List.mem_append.1 hkind with hkind | hkind
    · rcases List.mem_append.1 hkind with hkind | hkind
      · split_ifs at hkind <;> simp at hkind
      · simp at hkind
    · simp at hkind

/-- Functions that are printed one after the other. -/
lemma prints_functions {fs : List Func} {cs : List Chapter}
    (h : List.Forall₂
      (fun func c => ∃ t, funcText m func = .ok t ∧ Prints t (kindsOf c.lines)) fs cs)
    {out : String} {kinds : List LineKind} (hout : Prints out kinds) :
    ∃ out', fs.foldlM (fun out f => do return afterEmptyLine out (← funcText m f)) out = .ok out' ∧
      Prints out' (kinds ++ kindsOf (cs.flatMap Chapter.lines)) := by
  induction h generalizing out kinds with
  | nil => exact ⟨out, rfl, by simpa [kindsOf] using hout⟩
  | cons hc _ ih =>
    obtain ⟨t, ht, hprints⟩ := hc
    obtain ⟨out', hrun, hprints'⟩ := ih (hout.afterEmptyLine hprints)
    refine ⟨out', ?_, ?_⟩
    · rw [List.foldlM_cons]
      simp only [ht, ok_bind, pure_bind]
      exact hrun
    · rwa [List.flatMap_cons, kindsOf_append, ← List.append_assoc]

/-- A module that can be printed is printed as lines that say what it says. -/
theorem Printable.toText_ok (h : m.Printable) : ∃ cs out, m.HoldsAll cs ∧ m.toText = .ok out ∧
    Prints out (m.kinds ++ kindsOf (cs.flatMap Chapter.lines)) := by
  have hglobals : Prints (unlines (m.globals.toList.map Global.definition))
      (m.globals.toList.map fun g => .globalDef g.name g.definition) := by
    refine prints_lines (List.forall₂_map_left_iff.2 (List.forall₂_map_right_iff.2
      (List.forall₂_same.2 fun g hg => h.legible.globals g (Array.mem_toList_iff.1 hg)))) ?_
    rintro kind hkind rfl
    simp at hkind
  have hstart : Prints (if m.globals.toList.map Global.definition = [] then unlines (preamble m)
      else afterEmptyLine (unlines (preamble m)) (unlines (m.globals.toList.map Global.definition)))
      m.kinds := by
    split_ifs with hnone
    · have hnil : m.globals.toList = [] := List.map_eq_nil_iff.1 hnone
      have hkinds := h.legible.prints_preamble
      rw [kinds, hnil, List.map_nil, List.append_nil]
      exact hkinds
    · exact h.legible.prints_preamble.afterEmptyLine hglobals
  obtain ⟨cs, hcs⟩ : ∃ cs, List.Forall₂ (fun (x : Func × Nat) (c : Chapter) => (c.Valid ∧
      m.HoldsChapter ((Printing.of m x.1).scope ⟨x.2⟩ x.1) x.1 c ∧
        Printing.LeavesOut m x.1 c.paragraphs) ∧
      ∃ t, funcText m x.1 = .ok t ∧ Prints t (kindsOf c.lines)) m.functions.toList.zipIdx cs := by
    refine exists_forall₂ fun ⟨func, k⟩ hmem => ?_
    have hf : m.func? ⟨k⟩ = some func := by
      rw [func?, ← Array.getElem?_toList]
      exact List.mem_zipIdx_iff_getElem?.1 hmem
    obtain ⟨c, hc, hholds, hleft, htext⟩ := Printing.exists_chapter h hf
    exact ⟨c, ⟨hc, hholds, hleft⟩, htext⟩
  have htexts : List.Forall₂ (fun func c => ∃ t, funcText m func = .ok t ∧
      Prints t (kindsOf c.lines)) m.functions.toList cs := by
    rw [← List.zipIdx_map_fst 0 m.functions.toList, List.forall₂_map_left_iff]
    exact hcs.imp fun _ _ h => h.2
  obtain ⟨out, hrun, hprints⟩ := prints_functions htexts hstart
  exact ⟨cs, out, hcs.imp fun _ _ h => h.1, hrun, hprints⟩

end SsaFold.Module
