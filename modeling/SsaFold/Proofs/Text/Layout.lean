import Mathlib.Data.List.DropRight
import SsaFold.Proofs.Text.Headers
import SsaFold.Proofs.Text.Lexing
import SsaFold.Text.Printer

/-!
# Printed lines

A text is printed line by line, and it falls into the same lines when it is read
(`numberedLines_unlines`).  `IsLine` says of a line what the reader takes it for.  What a module
says of itself, and its globals, are kept as they were written, or nearly so; `Module.Legible` says
that the lines they are printed on are taken for what they are.
-/

namespace SsaFold.Text

/-! ## Ends that have been cut off -/

section Trim

variable {p : Char → Bool} {cs : List Char}

lemma trimWhere_eq (p : Char → Bool) (cs : List Char) :
    trimWhere p cs = (cs.dropWhile p).rdropWhile p := rfl

lemma trimWhere_isPrefixOf (p : Char → Bool) (cs : List Char) : trimWhere p cs <+: cs.dropWhile p :=
  List.rdropWhile_prefix p _

lemma mem_of_mem_trimWhere {c : Char} (h : c ∈ trimWhere p cs) : c ∈ cs :=
  mem_of_mem_dropWhile ((trimWhere_isPrefixOf p cs).subset h)

lemma getLast?_trimWhere : ∀ c ∈ (trimWhere p cs).getLast?, p c = false := by
  intro c hc
  have hne : trimWhere p cs ≠ [] := by
    rintro hnil
    simp [hnil] at hc
  obtain rfl := Option.some.inj ((List.getLast?_eq_some_getLast hne).symm.trans hc)
  exact eq_false_of_ne_true (List.rdropWhile_last_not p (cs.dropWhile p) hne)

lemma head?_trimWhere : ∀ c ∈ (trimWhere p cs).head?, p c = false := by
  intro c hc
  obtain ⟨rest, hrest⟩ := trimWhere_isPrefixOf p cs
  cases htrim : trimWhere p cs with
  | nil => simp [htrim] at hc
  | cons d ds =>
    rw [htrim] at hc hrest
    obtain rfl := Option.some.inj hc
    have := List.head?_dropWhile_not p cs
    rw [← hrest] at this
    simpa using this

/-- Nothing is cut off from a text that neither begins nor ends so. -/
lemma trimWhere_eq_self (hhead : ∀ c ∈ cs.head?, p c = false)
    (hlast : ∀ c ∈ cs.getLast?, p c = false) : trimWhere p cs = cs := by
  have hdrop : cs.dropWhile p = cs := by
    cases cs with
    | nil => rfl
    | cons c cs => rw [List.dropWhile_cons_of_neg (by simpa using hhead c rfl)]
  rw [trimWhere_eq, hdrop, List.rdropWhile_eq_self_iff]
  intro hne
  simpa using hlast _ (List.getLast?_eq_some_getLast hne)

/-- One character more is cut off. -/
lemma trimWhere_cons {c : Char} (h : p c = true) : trimWhere p (c :: cs) = trimWhere p cs := by
  rw [trimWhere_eq, List.dropWhile_cons_of_pos h, trimWhere_eq]

lemma trimWhere_concat {c : Char} (h : p c = true) : trimWhere p (cs ++ [c]) = trimWhere p cs := by
  rw [trimWhere_eq, trimWhere_eq, List.dropWhile_append]
  split_ifs with hempty
  · rw [List.isEmpty_iff.1 hempty, List.dropWhile_cons_of_pos h, List.dropWhile_nil]
  · rw [List.rdropWhile_concat_pos p _ c h]

@[simp] lemma trimWhere_trimWhere : trimWhere p (trimWhere p cs) = trimWhere p cs :=
  trimWhere_eq_self head?_trimWhere getLast?_trimWhere

end Trim

/-! ## Lines -/

/-- The text is a line, and the reader takes it for this. -/
structure IsLine (s : String) (kind : LineKind) : Prop where
  clean : Clean s
  kind : LineKind.of s = .ok kind

lemma startsWith_eq_false {start : String} {cs : List Char} (h : ¬ start.toList <+: cs) :
    startsWith start cs = false := by
  rw [startsWith, ← Bool.not_eq_true, List.isPrefixOf_iff_prefix]
  exact h

lemma clean_trim {line : String} (h : '\n' ∉ line.toList) :
    Clean (String.ofList (trimWhere isBlank line.toList)) := by
  refine ⟨fun hmem => h ?_, fun hlast => ?_⟩
  · exact mem_of_mem_trimWhere (String.toList_ofList ▸ hmem)
  · rw [String.toList_ofList] at hlast
    exact absurd (getLast?_trimWhere _ hlast) (by decide)

section Kinds

variable {line name t d : String}

/-- How a line is sorted, by what is left of it when blanks have been cut off. -/
inductive Sorted (line : String) (cs : List Char) : LineKind → Prop
  | moduleName {rest : List Char} (start : dropStart? "; ModuleID =" cs = some rest) :
      Sorted line cs (.moduleName (String.ofList (trimWhere (· = '\'') (trimWhere isBlank rest))))
  | target (other : dropStart? "; ModuleID =" cs = none) (start : startsWith "target " cs = true) :
      Sorted line cs (.target (String.ofList cs))
  | skipped : Sorted line cs .skipped
  | globalDef {name : String} {rest : List Char} (other : dropStart? "; ModuleID =" cs = none)
      (target : startsWith "target " cs = false)
      (skip : (startsWith "attributes " cs || startsWith "!" cs) = false)
      (start : cs = '@' :: rest) (defined : definedName rest = .ok name) :
      Sorted line cs (.globalDef name (String.ofList cs))
  | tokens {ts : List Token} (lexed : tokenize line = .ok ts) : Sorted line cs (.ofTokens ts)

lemma sorted_of_kind {kind : LineKind} (h : LineKind.of line = .ok kind) :
    Sorted line (trimWhere isBlank line.toList) kind := by
  simp only [LineKind.of] at h
  split at h
  · rename_i rest hstart
    exact Except.ok.inj h ▸ .moduleName hstart
  rename_i hmodule
  by_cases htarget : startsWith "target " (trimWhere isBlank line.toList) = true
  · rw [if_pos htarget] at h
    exact Except.ok.inj h ▸ .target hmodule htarget
  rw [if_neg htarget] at h
  by_cases hskip : (startsWith "attributes " (trimWhere isBlank line.toList) ||
      startsWith "!" (trimWhere isBlank line.toList)) = true
  · rw [if_pos hskip] at h
    exact Except.ok.inj h ▸ .skipped
  rw [if_neg hskip] at h
  split at h
  · rename_i cs hcs
    obtain ⟨name, hname, rfl⟩ := map_eq_ok_iff.1 h
    exact .globalDef hmodule (eq_false_of_ne_true htarget)
      (eq_false_of_ne_true hskip) hcs hname
  · obtain ⟨ts, hts, rfl⟩ := map_eq_ok_iff.1 h
    exact .tokens hts

/-- What tokens make of a line. -/
lemma ofTokens_cases (ts : List Token) : LineKind.ofTokens ts = .skipped ∨
    (∃ name, LineKind.ofTokens ts = .sourceFilename name ∧ ∀ s, name = some s → .str s ∈ ts) ∨
      ∃ first rest, LineKind.ofTokens ts = .tokens first rest := by
  unfold LineKind.ofTokens
  split
  · exact .inl rfl
  · split
    · exact .inr (.inl ⟨_, rfl, by simp⟩)
    · exact .inr (.inl ⟨_, rfl, by simp⟩)
  · exact .inr (.inr ⟨_, _, rfl⟩)

/-- A line that describes the target is kept as it is written, and so it is taken for the same. -/
lemma isLine_target (hline : '\n' ∉ line.toList) (h : LineKind.of line = .ok (.target t)) :
    IsLine t (.target t) := by
  generalize hkind : LineKind.target t = kind at h
  cases sorted_of_kind h with
  | target hmodule htarget =>
    obtain rfl := LineKind.target.inj hkind
    refine ⟨clean_trim hline, ?_⟩
    simp only [LineKind.of, String.toList_ofList, trimWhere_trimWhere, hmodule, htarget, if_true]
  | @tokens ts hts =>
    rcases ofTokens_cases ts with heq | ⟨_, heq, -⟩ | ⟨_, _, heq⟩ <;> rw [heq] at hkind
      <;> cases hkind
  | _ => cases hkind

/-- So is the definition of a global. -/
lemma isLine_globalDef (hline : '\n' ∉ line.toList)
    (h : LineKind.of line = .ok (.globalDef name d)) :
    IsLine d (.globalDef name d) ∧ Quotable name := by
  generalize hkind : LineKind.globalDef name d = kind at h
  cases sorted_of_kind h with
  | @globalDef name' cs hmodule htarget hskip hcs hname =>
    obtain ⟨rfl, rfl⟩ := LineKind.globalDef.inj hkind
    refine ⟨⟨clean_trim hline, ?_⟩, ?_⟩
    · have htrim : trimWhere isBlank ('@' :: cs) = '@' :: cs := hcs ▸ trimWhere_trimWhere
      rw [hcs] at hmodule htarget hskip ⊢
      simp only [LineKind.of, String.toList_ofList, htrim, hmodule, htarget, hskip,
        Bool.false_eq_true, if_false, hname]
      rfl
    · simp only [definedName, bind_eq_ok] at hname
      obtain ⟨⟨name', rest⟩, htake, hname⟩ := hname
      have hcs' : '\n' ∉ cs := fun hmem =>
        hline (mem_of_mem_trimWhere (hcs ▸ List.mem_cons_of_mem _ hmem))
      split at hname
      · obtain rfl := pure_eq_ok.1 hname
        exact (takeName_valid hcs' htake).1
      · cases hname
  | @tokens ts hts =>
    rcases ofTokens_cases ts with heq | ⟨_, heq, -⟩ | ⟨_, _, heq⟩ <;> rw [heq] at hkind
      <;> cases hkind
  | _ => cases hkind

/-- A string gives the name of the source file. -/
lemma quotable_sourceFilename (hline : '\n' ∉ line.toList)
    (h : LineKind.of line = .ok (.sourceFilename (some name))) : Quotable name := by
  generalize hkind : LineKind.sourceFilename (some name) = kind at h
  cases sorted_of_kind h with
  | @tokens ts hts =>
    rcases ofTokens_cases ts with heq | ⟨_, heq, hmem⟩ | ⟨_, _, heq⟩ <;> rw [heq] at hkind
    · cases hkind
    · exact valid_of_tokenize hline hts (.str name)
        (hmem name (LineKind.sourceFilename.inj hkind).symm)
    · cases hkind
  | _ => cases hkind

/-- The name of a module is written between quotation marks, and quotation marks are cut off from
it. -/
lemma isLine_moduleName (hline : '\n' ∉ line.toList)
    (h : LineKind.of line = .ok (.moduleName name)) :
    IsLine ("; ModuleID = '" ++ name ++ "'") (.moduleName name) := by
  generalize hkind : LineKind.moduleName name = kind at h
  cases sorted_of_kind h with
  | @moduleName rest hstart =>
    obtain rfl := LineKind.moduleName.inj hkind
    set cs := trimWhere (· = '\'') (trimWhere isBlank rest) with hcs
    have hquoted : ("; ModuleID = '" ++ String.ofList cs ++ "'").toList
        = "; ModuleID =".toList ++ ' ' :: ('\'' :: cs ++ ['\'']) := by simp
    have hlast : ∀ before : List Char, ∀ c ∈ (before ++ ['\'']).getLast?, isBlank c = false := by
      intro before c hc
      rw [List.getLast?_concat] at hc
      exact Option.some.inj hc ▸ (by decide)
    have hwhole : "; ModuleID =".toList ++ ' ' :: ('\'' :: cs ++ ['\''])
        = ("; ModuleID =".toList ++ ' ' :: '\'' :: cs) ++ ['\''] := by simp
    have htrim : trimWhere isBlank ('\'' :: cs ++ ['\'']) = '\'' :: cs ++ ['\''] :=
      trimWhere_eq_self (fun c hc => Option.some.inj hc ▸ (by decide)) (hlast _)
    have hname : trimWhere (· = '\'') ('\'' :: cs ++ ['\'']) = cs := by
      rw [trimWhere_concat (by decide), trimWhere_cons (by decide), hcs, trimWhere_trimWhere]
    have hsub : ∀ c ∈ cs, c ∈ line.toList := by
      intro c hc
      have hrest := mem_of_mem_trimWhere (mem_of_mem_trimWhere hc)
      rw [dropStart?] at hstart
      split_ifs at hstart
      rw [← Option.some.inj hstart] at hrest
      exact mem_of_mem_trimWhere (List.mem_of_mem_drop hrest)
    refine ⟨⟨fun hmem => ?_, fun hend => ?_⟩, ?_⟩
    · rw [hquoted, List.mem_append, List.mem_cons, List.mem_append, List.mem_cons] at hmem
      rcases hmem with hmem | hmem | (hmem | hmem) | hmem
      · exact absurd hmem (by decide)
      · exact absurd hmem (by decide)
      · exact absurd hmem (by decide)
      · exact hline (hsub _ hmem)
      · exact absurd hmem (by decide)
    · rw [hquoted, hwhole] at hend
      exact absurd (hlast _ _ hend) (by decide)
    · have hself : trimWhere isBlank ("; ModuleID =".toList ++ ' ' :: ('\'' :: cs ++ ['\'']))
          = "; ModuleID =".toList ++ ' ' :: ('\'' :: cs ++ ['\'']) :=
        trimWhere_eq_self (fun c hc => Option.some.inj hc ▸ (by decide))
          (by rw [hwhole]; exact hlast _)
      have hdrop :
          dropStart? "; ModuleID =" ("; ModuleID =".toList ++ ' ' :: ('\'' :: cs ++ ['\'']))
          = some (' ' :: ('\'' :: cs ++ ['\''])) := by
        rw [dropStart?, if_pos (List.isPrefixOf_iff_prefix.2 (List.prefix_append _ _))]
        rfl
      simp only [LineKind.of, hquoted, hself, hdrop]
      rw [trimWhere_cons (by decide), htrim, hname]
  | @tokens ts hts =>
    rcases ofTokens_cases ts with heq | ⟨_, heq, -⟩ | ⟨_, _, heq⟩ <;> rw [heq] at hkind
      <;> cases hkind
  | _ => cases hkind

/-- The text begins as no other line than one of tokens. -/
def BeginsTokens (cs : List Char) : Prop :=
  (∃ c rest, cs = c :: rest ∧ isBlank c = false ∧ c ≠ ';' ∧ c ≠ '!' ∧ c ≠ '@') ∧
    startsWith "target " cs = false ∧ startsWith "attributes " cs = false

/-- A piece that is read as tokens is taken for a line of tokens, also behind blanks. -/
lemma isLine_tokens {indent text : String} {ts : List Token}
    (hindent : ∀ c ∈ indent.toList, c = ' ') (htext : BeginsTokens text.toList) (h : Clean text)
    (hlex : tokens true text.toList = .ok ts) : IsLine (indent ++ text) (.ofTokens ts) := by
  obtain ⟨⟨c, rest, hcs, hblank, hcomment, hmeta, hglobal⟩, htarget, hattributes⟩ := htext
  have hblanks : ∀ d ∈ indent.toList, isBlank d = true := fun d hd => hindent d hd ▸ (by decide)
  have hdrop : (indent ++ text).toList.dropWhile isBlank = text.toList := by
    rw [String.toList_append, List.dropWhile_append_of_pos hblanks, hcs,
      List.dropWhile_cons_of_neg (by simp [hblank])]
  have htrim : trimWhere isBlank (indent ++ text).toList <+: text.toList :=
    hdrop ▸ trimWhere_isPrefixOf isBlank _
  obtain ⟨ds, hds⟩ : ∃ ds, trimWhere isBlank (indent ++ text).toList = c :: ds := by
    cases hd : trimWhere isBlank (indent ++ text).toList with
    | nil =>
      rw [trimWhere_eq, hdrop, List.rdropWhile_eq_nil_iff, hcs] at hd
      simp [hblank] at hd
    | cons d ds =>
      rw [hd, hcs] at htrim
      exact ⟨ds, by rw [(List.cons_prefix_cons.1 htrim).1]⟩
  -- What does not begin the text does not begin what is left of it.
  have hother : ∀ start : String, startsWith start text.toList = false →
      startsWith start (c :: ds) = false := by
    intro start hstart
    refine startsWith_eq_false fun hbegin => ?_
    have := List.isPrefixOf_iff_prefix.2 (hbegin.trans (hds ▸ htrim))
    rw [startsWith, this] at hstart
    cases hstart
  have hmodule : dropStart? "; ModuleID =" (c :: ds) = none := by
    rw [dropStart?, if_neg]
    intro hstart
    exact hcomment (List.cons_prefix_cons.1 (List.isPrefixOf_iff_prefix.1 hstart)).1.symm
  have hbang : startsWith "!" (c :: ds) = false :=
    startsWith_eq_false fun hstart => hmeta (List.cons_prefix_cons.1 hstart).1.symm
  have htokens : tokenize (indent ++ text) = .ok ts := by
    rw [tokenize, String.toList_append, ← hlex]
    clear hdrop htrim hds
    generalize indent.toList = blanks at hblanks
    induction blanks with
    | nil => rfl
    | cons d blanks ih =>
      obtain ⟨hd, hblanks⟩ := List.forall_mem_cons.1 hblanks
      rw [List.cons_append, tokens_blank hd, ih hblanks]
  refine ⟨.append ?_ h, ?_⟩
  · refine ⟨fun hmem => absurd (hindent _ hmem) (by decide), fun hlast => ?_⟩
    exact absurd (hindent _ (List.mem_of_getLast? hlast)) (by decide)
  · simp only [LineKind.of, hds, hmodule, hother _ htarget, hother _ hattributes, hbang,
      Bool.or_self, Bool.false_eq_true, if_false]
    split
    · rename_i heq
      exact absurd (List.cons.inj heq).1 hglobal
    · rw [htokens]
      rfl

end Kinds

/-! ## Texts -/

/-- The characters of a line and of its end are read as that line. -/
lemma splitLines_append {line rest : List Char} (hline : '\n' ∉ line)
    (hlast : line.getLast? ≠ some '\r') :
    splitLines (line ++ '\n' :: rest) = line :: splitLines rest := by
  induction line with
  | nil => exact splitLines_newline rest
  | cons c cs ih =>
    obtain ⟨hc, hcs⟩ := not_or.1 fun h => hline (List.mem_cons.2 h)
    have hsplit : splitLines (cs ++ '\n' :: rest) = cs :: splitLines rest := by
      refine ih hcs fun h => hlast ?_
      cases cs with
      | nil => cases h
      | cons d ds => exact h
    rw [List.cons_append]
    conv_lhs => unfold splitLines
    split
    · rename_i heq
      cases heq
    · rename_i tail heq
      obtain ⟨rfl, htail⟩ := List.cons.inj heq
      cases cs with
      | nil => exact absurd rfl hlast
      | cons d ds => exact absurd (List.cons.inj htail).1.symm (List.ne_of_not_mem_cons hcs)
    · rename_i d tail _ heq
      obtain ⟨rfl, rfl⟩ := List.cons.inj heq
      rw [if_neg (Ne.symm hc), hsplit]

/-- A text falls into the lines of which it is made. -/
lemma splitLines_unlines {lines : List String} (h : ∀ line ∈ lines, Clean line) :
    splitLines (unlines lines).toList = lines.map String.toList := by
  induction lines with
  | nil => rfl
  | cons line lines ih =>
    obtain ⟨hline, hlines⟩ := List.forall_mem_cons.1 h
    have htext : (unlines (line :: lines)).toList
        = line.toList ++ '\n' :: (unlines lines).toList := by
      simp [unlines, String.join_cons]
    rw [htext, splitLines_append hline.line hline.last, ih hlines, List.map_cons]

lemma numberedLines_unlines {lines : List String} (h : ∀ line ∈ lines, Clean line) :
    (numberedLines (unlines lines)).map Prod.snd = lines := by
  rw [numberedLines, splitLines_unlines h, List.map_map]
  have hsnd : ((fun x : Nat × String => x.2) ∘ fun x : List Char × Nat =>
      (x.2 + 1, String.ofList x.1)) = String.ofList ∘ Prod.fst := rfl
  rw [hsnd, ← List.map_map, List.zipIdx_map_fst, List.map_map]
  simp [Function.comp_def]

/-- The text consists of lines that the reader takes for these, and of lines that it skips. -/
def Prints (text : String) (kinds : List LineKind) : Prop :=
  ∃ lines all, text = unlines lines ∧ List.Forall₂ IsLine lines all ∧
    all.filter (· ≠ .skipped) = kinds

section Prints

variable {text text' : String} {kinds kinds' : List LineKind}

lemma unlines_append (lines lines' : List String) :
    unlines (lines ++ lines') = unlines lines ++ unlines lines' := by
  rw [unlines, List.map_append, String.join_append, unlines, unlines]

lemma prints_empty : Prints "" [] := ⟨[], [], rfl, .nil, rfl⟩

lemma Prints.append (h : Prints text kinds) (h' : Prints text' kinds') :
    Prints (text ++ text') (kinds ++ kinds') := by
  obtain ⟨lines, all, rfl, hlines, rfl⟩ := h
  obtain ⟨lines', all', rfl, hlines', rfl⟩ := h'
  exact ⟨lines ++ lines', all ++ all', (unlines_append _ _).symm, List.rel_append hlines hlines',
    List.filter_append ..⟩

lemma prints_line {s : String} {kind : LineKind} (h : IsLine s kind) (hkind : kind ≠ .skipped) :
    Prints (s ++ "\n") [kind] :=
  ⟨[s], [kind], by simp [unlines], .cons h .nil, by simp [hkind]⟩

/-- An empty line is skipped. -/
lemma prints_newline : Prints "\n" [] := by
  have hempty : tokenize "" = .ok [] := by
    rw [tokenize]
    exact tokens.eq_1 true
  refine ⟨[""], [.skipped], by simp [unlines], .cons ⟨⟨by simp, by simp⟩, ?_⟩ .nil, rfl⟩
  show (tokenize "").map LineKind.ofTokens = _
  rw [hempty]
  rfl

lemma Prints.afterEmptyLine (h : Prints text kinds) (h' : Prints text' kinds') :
    Prints (afterEmptyLine text text') (kinds ++ kinds') := by
  rw [Text.afterEmptyLine]
  split_ifs with hempty
  · obtain ⟨lines, all, rfl, hlines, rfl⟩ := h
    cases hlines with
    | nil => exact h'
    | @cons line kind lines all hline hlines =>
      have hlength := congrArg String.length hempty
      simp [unlines, String.join_cons] at hlength
  · have := (h.append prints_newline).append h'
    rwa [List.append_nil] at this

lemma prints_lines {ss : List String} {kinds : List LineKind} (h : List.Forall₂ IsLine ss kinds)
    (hkinds : ∀ kind ∈ kinds, kind ≠ .skipped) : Prints (unlines ss) kinds :=
  ⟨ss, kinds, rfl, h, List.filter_eq_self.2 fun kind hkind => by simpa using hkinds kind hkind⟩

end Prints

/-! ## What the sweep over the lines has found -/

namespace LineKind

/-- The name of the module, if the line gives it. -/
def moduleName? : LineKind → Option String
  | moduleName name => some name
  | _ => none

/-- The name of the source file, if the line gives it. -/
def sourceName? : LineKind → Option String
  | sourceFilename name => name
  | _ => none

/-- The description of the target on the line. -/
def target? : LineKind → Option String
  | target text => some text
  | _ => none

/-- The global that the line defines, and its definition. -/
def globalDef? : LineKind → Option (String × String)
  | globalDef name definition => some (name, definition)
  | _ => none

/-- The tokens of the line, if it is left for the other sweeps. -/
def tokens? : LineKind → Option (List Token)
  | tokens first rest => some (first :: rest)
  | _ => none

end LineKind

/-- The tokens of a line. -/
def TokenLine.tokens (line : TokenLine) : List Token := line.first :: line.rest

/-- The functions and globals of the module are known by their names. -/
structure Known (m : Module) (symbols : Symbols) : Prop where
  func : ∀ f func, m.func? f = some func →
    ∃ v, symbols[func.name]? = some v ∧ m.kind? v = some (.function f)
  global : ∀ g glob, m.global? g = some glob →
    ∃ v, symbols[glob.name]? = some v ∧ m.kind? v = some (.global g)

namespace Outline

variable {o o' o'' : Outline} {kinds kinds' : List LineKind}

/-- What lines of certain kinds add to what has been found. -/
structure Gathers (kinds : List LineKind) (o o' : Outline) : Prop where
  name : o'.module.name = (kinds.filterMap LineKind.moduleName?).getLast?.getD o.module.name
  sourceFilename : o'.module.sourceFilename
    = (kinds.filterMap LineKind.sourceName?).getLast?.or o.module.sourceFilename
  targetLines : o'.module.targetLines = o.module.targetLines ++ kinds.filterMap LineKind.target?
  globals : o'.module.globals.toList.map (fun g => (g.name, g.definition))
    = o.module.globals.toList.map (fun g => (g.name, g.definition))
      ++ kinds.filterMap LineKind.globalDef?
  functions : o'.module.functions = o.module.functions
  lines : o'.lines.reverse.map TokenLine.tokens
    = o.lines.reverse.map TokenLine.tokens ++ kinds.filterMap LineKind.tokens?

lemma gathers_nil (o : Outline) : Gathers [] o o := by constructor <;> simp

lemma Gathers.append (h : Gathers kinds o o') (h' : Gathers kinds' o' o'') :
    Gathers (kinds ++ kinds') o o'' := by
  refine ⟨?_, ?_, ?_, ?_, h'.functions.trans h.functions, ?_⟩
  · rw [h'.name, h.name, List.filterMap_append, List.getLast?_append]
    cases (kinds'.filterMap LineKind.moduleName?).getLast? <;> rfl
  · rw [h'.sourceFilename, h.sourceFilename, List.filterMap_append, List.getLast?_append,
      Option.or_assoc]
  · rw [h'.targetLines, h.targetLines, List.filterMap_append, List.append_assoc]
  · rw [h'.globals, h.globals, List.filterMap_append, List.append_assoc]
  · rw [h'.lines, h.lines, List.filterMap_append, List.append_assoc]

lemma gathers_add {number : Nat} {line : String} {kind : LineKind} (hline : IsLine line kind)
    (hrun : o.add number line = .ok o') : Gathers [kind] o o' := by
  simp only [Outline.add, hline.kind] at hrun
  cases kind with
  | globalDef name definition =>
    dsimp only [Except.mapError] at hrun
    simp only [ok_bind] at hrun
    split_ifs at hrun
    · cases hrun
    · obtain rfl := pure_eq_ok.1 hrun
      constructor <;> simp [Module.addGlobal, Module.pushValue, LineKind.moduleName?,
        LineKind.sourceName?, LineKind.target?, LineKind.globalDef?, LineKind.tokens?]
  | sourceFilename name =>
    cases name with
    | none => cases hrun
    | some name =>
      obtain rfl := pure_eq_ok.1 hrun
      constructor <;> simp [LineKind.moduleName?, LineKind.sourceName?, LineKind.target?,
        LineKind.globalDef?, LineKind.tokens?]
  | _ =>
    obtain rfl := pure_eq_ok.1 hrun
    constructor <;> simp [LineKind.moduleName?, LineKind.sourceName?, LineKind.target?,
      LineKind.globalDef?, LineKind.tokens?, TokenLine.tokens]

lemma filterMap_unskipped {β : Type} {g : LineKind → Option β} (hg : g .skipped = none)
    (kinds : List LineKind) : (kinds.filter (· ≠ .skipped)).filterMap g = kinds.filterMap g := by
  rw [List.filterMap_filter]
  refine List.filterMap_congr fun kind _ => ?_
  split_ifs with hkind
  · rfl
  · rw [show kind = .skipped by simpa using hkind, hg]

/-- Lines that are skipped add nothing. -/
lemma Gathers.unskipped (h : Gathers kinds o o') : Gathers (kinds.filter (· ≠ .skipped)) o o' := by
  obtain ⟨hname, hsource, htarget, hglobals, hfunctions, hlines⟩ := h
  constructor
  · rw [filterMap_unskipped rfl, hname]
  · rw [filterMap_unskipped rfl, hsource]
  · rw [filterMap_unskipped rfl, htarget]
  · rw [filterMap_unskipped rfl, hglobals]
  · exact hfunctions
  · rw [filterMap_unskipped rfl, hlines]

lemma gathers_foldlM {lines : List (Nat × String)}
    (hlines : List.Forall₂ IsLine (lines.map Prod.snd) kinds)
    (hrun : lines.foldlM (fun (o : Outline) (number, line) => o.add number line) o = .ok o') :
    Gathers kinds o o' := by
  induction lines generalizing o kinds with
  | nil =>
    obtain rfl := List.forall₂_nil_left_iff.1 hlines
    obtain rfl := Except.ok.inj hrun
    exact gathers_nil o
  | cons x lines ih =>
    obtain ⟨number, line⟩ := x
    rw [List.foldlM_cons, bind_eq_ok] at hrun
    obtain ⟨o₁, hadd, hrest⟩ := hrun
    obtain ⟨kind, kinds, hline, hlines', rfl⟩ := List.forall₂_cons_left_iff.1 hlines
    exact (gathers_add hline hadd).append (ih hlines' hrest)

/-- What is found in a text is what its lines are taken for. -/
lemma gathers_ofText {text : String} (htext : Prints text kinds)
    (hrun : Outline.ofText text = .ok o) :
    Gathers kinds {} { o with lines := o.lines.reverse } := by
  obtain ⟨lines, all, rfl, hlines, rfl⟩ := htext
  simp only [Outline.ofText, bind_eq_ok, pure_eq_ok] at hrun
  obtain ⟨o₁, hfold, rfl⟩ := hrun
  have hclean : ∀ line ∈ lines, Clean line := by
    intro line hmem
    obtain ⟨kind, -, hline⟩ := exists_mem_of_forall₂ hlines.flip line hmem
    exact hline.clean
  rw [← numberedLines_unlines hclean] at hlines
  dsimp only
  rw [List.reverse_reverse]
  exact (gathers_foldlM hlines hfold).unskipped

end Outline

/-! ## What is known by name -/

section Known

variable {m m' : Module} {symbols : Symbols} {name : String} {v : ValueId}

/-- What is known stays known, if no function or global is new. -/
lemma Known.mono (h : Known m symbols) (hk : m.Keeps m')
    (hfunc : ∀ f func', m'.func? f = some func' → ∃ func,
      m.func? f = some func ∧ func'.name = func.name)
    (hglobal : m'.globals = m.globals) : Known m' symbols := by
  refine ⟨fun f func' hf => ?_, fun g glob hg => ?_⟩
  · obtain ⟨func, hf, hname⟩ := hfunc f func' hf
    obtain ⟨v, hv, hkind⟩ := h.func f func hf
    exact ⟨v, hname ▸ hv, hk.kind? hkind⟩
  · rw [Module.global?, hglobal] at hg
    obtain ⟨v, hv, hkind⟩ := h.global g glob hg
    exact ⟨v, hv, hk.kind? hkind⟩

/-- A function or global with a new name becomes known by it. -/
lemma Known.insert (h : Known m symbols) (hk : m.Keeps m') (hnew : symbols[name]? = none)
    (hfunc : ∀ f func, m'.func? f = some func →
      m.func? f = some func ∨ func.name = name ∧ m'.kind? v = some (.function f))
    (hglobal : ∀ g glob, m'.global? g = some glob →
      m.global? g = some glob ∨ glob.name = name ∧ m'.kind? v = some (.global g)) :
    Known m' (symbols.insert name v) := by
  refine ⟨fun f func hf => ?_, fun g glob hg => ?_⟩
  · rcases hfunc f func hf with hold | ⟨rfl, hkind⟩
    · obtain ⟨w, hw, hkind⟩ := h.func f func hold
      exact ⟨w, Body.getElem?_insert_of_none hnew hw, hk.kind? hkind⟩
    · exact ⟨v, Std.TreeMap.getElem?_insert_self, hkind⟩
  · rcases hglobal g glob hg with hold | ⟨rfl, hkind⟩
    · obtain ⟨w, hw, hkind⟩ := h.global g glob hold
      exact ⟨w, Body.getElem?_insert_of_none hnew hw, hk.kind? hkind⟩
    · exact ⟨v, Std.TreeMap.getElem?_insert_self, hkind⟩

lemma getElem?_eq_none_of_contains (h : ¬ symbols.contains name = true) : symbols[name]? = none :=
  Std.TreeMap.getElem?_eq_none (by simpa using h)

lemma Outline.add_known {o o' : Outline} {number : Nat} {line : String}
    (h : Known o.module o.symbols) (hrun : o.add number line = .ok o') :
    Known o'.module o'.symbols := by
  simp only [Outline.add, bind_eq_ok] at hrun
  obtain ⟨kind, -, hrun⟩ := hrun
  cases kind with
  | globalDef name definition =>
    dsimp only at hrun
    split_ifs at hrun with hknown
    · simp at hrun
    · obtain rfl := pure_eq_ok.1 hrun
      refine h.insert (o.module.keeps_addGlobal name definition)
        (getElem?_eq_none_of_contains hknown) (fun f func hf => .inl hf) fun g glob hg => ?_
      have hg' : (o.module.globals.push ⟨name, definition, ⟨o.module.values.size⟩⟩)[g.index]?
          = some glob := hg
      rw [Array.getElem?_push] at hg'
      split_ifs at hg' with hindex
      · obtain rfl := Option.some.inj hg'
        refine .inr ⟨rfl, Module.kind?_eq_some.2 ⟨_, Array.getElem?_push_size, ?_⟩⟩
        rw [← hindex]
      · exact .inl hg'
  | sourceFilename name =>
    cases name with
    | none => simp at hrun
    | some name =>
      obtain rfl := pure_eq_ok.1 hrun
      exact ⟨h.func, h.global⟩
  | moduleName name =>
    obtain rfl := pure_eq_ok.1 hrun
    exact ⟨h.func, h.global⟩
  | target text =>
    obtain rfl := pure_eq_ok.1 hrun
    exact ⟨h.func, h.global⟩
  | _ =>
    obtain rfl := pure_eq_ok.1 hrun
    exact h

lemma Outline.ofText_known {text : String} {o : Outline} (hrun : Outline.ofText text = .ok o) :
    Known o.module o.symbols := by
  simp only [Outline.ofText, bind_eq_ok, pure_eq_ok] at hrun
  obtain ⟨o₁, hlines, rfl⟩ := hrun
  have hempty : Known (Module.empty "") ∅ := by
    constructor <;> intro k _ h <;> simp [Module.empty, Module.func?, Module.global?] at h
  have h := foldlM_keeps (P := fun o : Outline => Known o.module o.symbols)
    (fun _ _ _ h hadd => add_known h hadd) hempty hlines
  exact h

end Known

end SsaFold.Text
