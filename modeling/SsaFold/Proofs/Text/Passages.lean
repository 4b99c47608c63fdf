import SsaFold.Proofs.Text.ErrorLines
import SsaFold.Proofs.Text.OneBody

/-!
# How a text falls into functions

The lines with tokens (`tokenLines`) are all that the sweeps over headers and bodies see of a text.
What names the module or the target, defines a global or is metadata is passed over, wherever it
stands.

The first of these sweeps adds a function for each line that begins with `define` or `declare`, and
notes the definitions.  The second comes to headers only between bodies, since no line of a body is
one (`isDefinition?_of_line`).  So the definitions that it has still to read are those among the
lines in front of it (`Awaits`), and this is kept by each line (`Awaits.step`): it never comes to a
header that has not been noted (`ofText_ne_outOfSync`).

Thus the lines of a text that is read are those of its functions, one after the other
(`exists_passages`), and the body of each is read from its own lines.
-/

namespace SsaFold.Text

/-! ## The lines with tokens -/

/-- The line, if it is a header, a label, an instruction or a brace. -/
def tokenLine? (number : Nat) (line : String) : Option TokenLine :=
  match LineKind.of line with
  | .ok (.tokens first rest) => some ⟨number, first, rest⟩
  | _ => none

/-- The lines of a text that are headers, labels, instructions or braces. -/
def tokenLines (text : String) : List TokenLine :=
  (numberedLines text).filterMap fun (number, line) => tokenLine? number line

/-- A line is put in front of those with tokens if it is one of them, and it adds no function. -/
lemma Outline.lines_add {o o' : Outline} {number : Nat} {line : String}
    (hrun : o.add number line = .ok o') : o'.lines = (tokenLine? number line).toList ++ o.lines ∧
      o'.module.functions = o.module.functions := by
  simp only [Outline.add, bind_eq_ok, mapError_eq_ok] at hrun
  obtain ⟨kind, hkind, hrun⟩ := hrun
  rw [tokenLine?, hkind]
  cases kind with
  | globalDef name definition =>
    dsimp only at hrun
    split_ifs at hrun
    · cases hrun
    · obtain rfl := pure_eq_ok.1 hrun
      exact ⟨rfl, rfl⟩
  | sourceFilename name =>
    cases name with
    | none => cases hrun
    | some name =>
      obtain rfl := pure_eq_ok.1 hrun
      exact ⟨rfl, rfl⟩
  | _ =>
    obtain rfl := pure_eq_ok.1 hrun
    exact ⟨rfl, rfl⟩

/-- Sorting the lines of a text leaves those with tokens, in their order, and adds no functions. -/
lemma Outline.lines_ofText {text : String} {o : Outline} (hrun : Outline.ofText text = .ok o) :
    o.lines = tokenLines text ∧ o.module.functions = #[] := by
  simp only [Outline.ofText, bind_eq_ok, pure_eq_ok] at hrun
  obtain ⟨o₁, hfold, rfl⟩ := hrun
  have hgathered : ∀ (lines : List (Nat × String)) (o o' : Outline),
      lines.foldlM (fun (o : Outline) (number, line) => o.add number line) o = .ok o' →
        (o'.lines.reverse = o.lines.reverse ++
          lines.filterMap fun (number, line) => tokenLine? number line) ∧
        o'.module.functions = o.module.functions := by
    intro lines
    induction lines with
    | nil =>
      intro o o' hrun
      obtain rfl := Except.ok.inj hrun
      exact ⟨(List.append_nil _).symm, rfl⟩
    | cons x lines ih =>
      intro o o' hrun
      rw [List.foldlM_cons, bind_eq_ok] at hrun
      obtain ⟨o₁, hadd, hrest⟩ := hrun
      obtain ⟨hlines, hfunctions⟩ := lines_add hadd
      obtain ⟨hlines', hfunctions'⟩ := ih o₁ o' hrest
      refine ⟨?_, hfunctions'.trans hfunctions⟩
      rw [hlines', hlines, List.reverse_append, List.append_assoc, List.filterMap_cons]
      dsimp only
      cases tokenLine? x.1 x.2 <;> rfl
  exact hgathered _ _ _ hfold

/-- The line begins with `define` or `declare`. -/
def TokenLine.isHeader (l : TokenLine) : Bool := l.isDefinition?.isSome

/-! ## Headers -/

/-- A line is no header, or a function is added with the header that it holds. -/
lemma Headers.add_eq_ok {s s' : Headers} {l : TokenLine} (hrun : s.add l = .ok s') :
    (l.isDefinition? = none ∧ s' = s) ∨
      ∃ definition h m f, l.isDefinition? = some definition ∧
        Header.read definition l.rest = .ok h ∧ s.symbols[h.name]? = none ∧
        addHeader s.module h = .ok (m, f) ∧ s'.module = m ∧
        s'.symbols = s.symbols.insert h.name ⟨s.module.values.size⟩ ∧
        s'.definitions = if definition then ⟨f, l.number, h.params.map Param.name⟩ :: s.definitions
          else s.definitions := by
  rw [Headers.add] at hrun
  cases hdef : l.isDefinition? with
  | none =>
    simp only [hdef, pure_eq_ok] at hrun
    exact .inl ⟨rfl, hrun.symm⟩
  | some definition =>
    simp only [hdef, bind_eq_ok, mapError_eq_ok] at hrun
    obtain ⟨h, hheader, hrun⟩ := hrun
    by_cases hknown : s.symbols.contains h.name = true
    · simp [hknown] at hrun
    rw [if_neg hknown] at hrun
    simp only [bind_eq_ok, liftM_eq_ok, pure_eq_ok, Module.getFunc_eq_ok] at hrun
    obtain ⟨⟨m, f⟩, hadd, func, hfunc, rfl⟩ := hrun
    obtain rfl := Option.some.inj ((func?_addHeader hadd).1.symm.trans hfunc)
    exact .inr ⟨definition, h, m, f, rfl, hheader, getElem?_eq_none_of_contains hknown, hadd,
      rfl, rfl, rfl⟩

/-- The name of a header is known when its function has been added. -/
lemma known_addHeader {m m' : Module} {symbols : Symbols} {h : Header} {f : FuncId}
    (hknown : Known m symbols) (hnew : symbols[h.name]? = none)
    (hadd : addHeader m h = .ok (m', f)) :
    Known m' (symbols.insert h.name ⟨m.values.size⟩) := by
  have hkeeps := keeps_addHeader hadd
  obtain ⟨-, haddress, -⟩ := func?_addHeader hadd
  obtain ⟨rfl, rfl⟩ := addHeader_eq_ok hadd
  refine hknown.insert hkeeps hnew (fun g func hg => ?_) fun g glob hg => .inl hg
  rw [Module.func?, Array.getElem?_push] at hg
  split_ifs at hg with hlast
  · obtain rfl := Option.some.inj hg
    obtain rfl : g = ⟨m.functions.size⟩ := congrArg FuncId.mk hlast
    exact .inr ⟨rfl, Module.kind?_eq_some.2 ⟨_, haddress, rfl⟩⟩
  · exact .inl hg

/-- The definitions among lines in front of which `k` functions have been added: the functions that
they are, and their headers. -/
def definitionsAmong : Nat → List TokenLine → List (FuncId × TokenLine)
  | _, [] => []
  | k, l :: ls =>
    match l.isDefinition? with
    | none => definitionsAmong k ls
    | some definition =>
      (if definition then [(⟨k⟩, l)] else []) ++ definitionsAmong (k + 1) ls

lemma definitionsAmong_append (k : Nat) (ls ls' : List TokenLine) :
    definitionsAmong k (ls ++ ls')
      = definitionsAmong k ls ++ definitionsAmong (k + ls.countP TokenLine.isHeader) ls' := by
  induction ls generalizing k with
  | nil => rfl
  | cons l ls ih =>
    rw [List.cons_append, definitionsAmong, definitionsAmong, List.countP_cons]
    cases hdef : l.isDefinition? with
    | none =>
      dsimp only
      rw [ih, TokenLine.isHeader, hdef, if_neg (by simp), Nat.add_zero]
    | some definition =>
      dsimp only
      rw [ih, List.append_assoc, TokenLine.isHeader, hdef, Nat.add_right_comm, Nat.add_assoc]
      rfl

/-- Each of them is the function of a header that begins with `define`. -/
lemma exists_of_mem_definitionsAmong {k : Nat} {ls : List TokenLine} {x : FuncId × TokenLine}
    (hx : x ∈ definitionsAmong k ls) : ∃ j : Nat, x.1 = ⟨k + j⟩ ∧
      (ls.filter TokenLine.isHeader)[j]? = some x.2 ∧ x.2.isDefinition? = some true := by
  induction ls generalizing k with
  | nil => cases hx
  | cons l ls ih =>
    rw [definitionsAmong] at hx
    rw [List.filter_cons, TokenLine.isHeader]
    cases hdef : l.isDefinition? with
    | none =>
      rw [hdef] at hx
      exact ih hx
    | some definition =>
      rw [hdef] at hx
      rw [Option.isSome_some, if_pos rfl]
      rcases List.mem_append.1 hx with hfirst | hx
      · cases definition with
        | false => cases hfirst
        | true =>
          obtain rfl := List.mem_singleton.1 hfirst
          exact ⟨0, rfl, rfl, hdef⟩
      · obtain ⟨j, hfunc, hline, hdefinition⟩ := ih hx
        exact ⟨j + 1, by rw [hfunc]; congr 1; omega, hline, hdefinition⟩

/-- The definition has been noted for the function when the sweep over the headers has come to the
line. -/
structure Definition.Notes (d : Definition) (x : FuncId × TokenLine) : Prop where
  func : d.func = x.1
  number : d.number = x.2.number
  params : ∃ h, Header.read true x.2.rest = .ok h ∧ d.params = h.params.map Param.name

/-- The definitions that have not been read are those among the lines that are left, in front of
which `k` functions have been added. -/
def Awaits (k : Nat) (ds : List Definition) (ls : List TokenLine) : Prop :=
  List.Forall₂ Definition.Notes ds (definitionsAmong k ls)

/-- No definition is noted for the function of a declaration. -/
lemma Awaits.ne_func {ds : List Definition} {ls : List TokenLine} (h : Awaits 0 ds ls) {k : Nat}
    {l : TokenLine} (hl : (ls.filter TokenLine.isHeader)[k]? = some l)
    (hdef : l.isDefinition? = some false) :
    ∀ d ∈ ds, (⟨k⟩ : FuncId) ≠ d.func := by
  intro d hd heq
  obtain ⟨x, hx, hnotes⟩ := exists_mem_of_forall₂ (List.Forall₂.flip h) d hd
  obtain ⟨j, hfunc, hline, hdefinition⟩ := exists_of_mem_definitionsAmong hx
  rw [← hnotes.func, ← heq, Nat.zero_add, FuncId.mk.injEq] at hfunc
  subst hfunc
  obtain rfl := Option.some.inj (hl.symm.trans hline)
  rw [hdef] at hdefinition
  cases hdefinition

/-- What the sweep over the headers has found in the lines: for each header a function that has
it. -/
structure Headers.Finds (s : Headers) (ls : List TokenLine) : Prop where
  size : s.module.functions.size = ls.countP TokenLine.isHeader
  definitions : Awaits 0 s.definitions.reverse ls
  header : ∀ (k : Nat) l, (ls.filter TokenLine.isHeader)[k]? = some l → ∃ definition h func,
    l.isDefinition? = some definition ∧ Header.read definition l.rest = .ok h ∧
      s.module.func? ⟨k⟩ = some func ∧ func.layout = #[] ∧ s.module.HoldsHeader func h
  known : Known s.module s.symbols

/-- Each line is taken in as it should be. -/
lemma Headers.Finds.add {s s' : Headers} {ls : List TokenLine} {l : TokenLine} (h : s.Finds ls)
    (hrun : s.add l = .ok s') : s'.Finds (ls ++ [l]) := by
  rcases Headers.add_eq_ok hrun with ⟨hdef, rfl⟩ |
    ⟨definition, header, m, f, hdef, hheader, hnew, hadd, rfl, hsymbols, hdefinitions⟩
  · have hno : l.isHeader = false := by rw [TokenLine.isHeader, hdef]; rfl
    refine ⟨?_, ?_, ?_, h.known⟩
    · rw [List.countP_append, List.countP_singleton, hno]
      exact h.size
    · rw [Awaits, definitionsAmong_append, definitionsAmong, hdef]
      exact (List.append_nil (definitionsAmong 0 ls)).symm ▸ h.definitions
    · rw [List.filter_append, List.filter_singleton, hno, cond_false, List.append_nil]
      exact h.header
  · have hyes : l.isHeader = true := by rw [TokenLine.isHeader, hdef]; rfl
    have hholds := holdsHeader_addHeader hadd
    have hknown := hsymbols ▸ known_addHeader h.known hnew hadd
    obtain ⟨hfunc, -⟩ := func?_addHeader hadd
    obtain ⟨rfl, hm⟩ := addHeader_eq_ok hadd
    refine ⟨?_, ?_, fun k l' hl' => ?_, hknown⟩
    · rw [List.countP_append, List.countP_singleton, hyes, ← h.size, hm]
      simp
    · rw [Awaits, definitionsAmong_append, definitionsAmong, hdef, Nat.zero_add, ← h.size,
        hdefinitions]
      cases definition with
      | false => exact (List.append_nil (definitionsAmong 0 ls)).symm ▸ h.definitions
      | true =>
        rw [if_pos rfl, List.reverse_cons]
        exact List.rel_append h.definitions (.cons ⟨rfl, rfl, header, hheader, rfl⟩ .nil)
    · rw [List.filter_append, List.filter_singleton, hyes, cond_true, List.getElem?_append] at hl'
      split_ifs at hl' with hk
      · obtain ⟨definition', header', func, hdef', hread', hfunc', hlayout, hheld⟩ :=
          h.header k l' hl'
        refine ⟨definition', header', func, hdef', hread', ?_, hlayout,
          holdsHeader_of_values hheld rfl fun {v value} hv => ⟨value, ?_, rfl, rfl⟩⟩
        · rw [hm, Module.func?, Array.getElem?_push_lt (Array.getElem?_eq_some_iff.1 hfunc').1]
          exact congrArg some (Array.getElem?_eq_some_iff.1 hfunc').2
        · rw [hm, Module.value?, Array.getElem?_append_left (Array.getElem?_eq_some_iff.1 hv).1]
          exact hv
      · rw [List.getElem?_singleton] at hl'
        split_ifs at hl' with hlast
        obtain rfl := Option.some.inj hl'
        obtain rfl : k = s.module.functions.size := by
          rw [h.size, List.countP_eq_length_filter]
          omega
        exact ⟨definition, header, _, hdef, hheader, hfunc, rfl, hholds⟩

lemma Headers.Finds.foldlM {s s' : Headers} {ls ls' : List TokenLine} (h : s.Finds ls)
    (hrun : ls'.foldlM Headers.add s = .ok s') : s'.Finds (ls ++ ls') := by
  induction ls' generalizing s ls with
  | nil =>
    obtain rfl := pure_eq_ok.1 hrun
    rwa [List.append_nil]
  | cons l ls' ih =>
    rw [List.foldlM_cons, bind_eq_ok] at hrun
    obtain ⟨s₁, hadd, hrest⟩ := hrun
    rw [List.append_cons]
    exact ih (h.add hadd) hrest

/-- What has been found when all lines with tokens have been taken in. -/
lemma Outline.finds_headers {text : String} {o : Outline} {s : Headers}
    (houtline : Outline.ofText text = .ok o) (hheaders : o.headers = .ok s) :
    Headers.Finds { s with definitions := s.definitions.reverse } (tokenLines text) := by
  obtain ⟨hlines, hfunctions⟩ := Outline.lines_ofText houtline
  simp only [Outline.headers, bind_eq_ok, pure_eq_ok] at hheaders
  obtain ⟨s₁, hfold, rfl⟩ := hheaders
  have hempty : Headers.Finds { module := o.module, symbols := o.symbols } [] :=
    ⟨by rw [hfunctions]; rfl, .nil, by simp, Outline.ofText_known houtline⟩
  have hall := hempty.foldlM hfold
  rw [List.nil_append, hlines] at hall
  rwa [List.reverse_reverse]

/-- The definitions that have been found are all that are to be read. -/
lemma Outline.awaits {text : String} {o : Outline} {s : Headers}
    (houtline : Outline.ofText text = .ok o) (hheaders : o.headers = .ok s) :
    Awaits 0 s.definitions (tokenLines text) := by
  have hfound := (Outline.finds_headers houtline hheaders).definitions
  rwa [List.reverse_reverse] at hfound

/-! ## The two sweeps -/

section Sweeps

variable {text : String} {symbols : Symbols} {p p' : Position} {ds ds' : List Definition}
  {l : TokenLine} {ls : List TokenLine} {k n : Nat}

/-- No line of a body is a header. -/
lemma isDefinition?_of_line {b b' : Body} {u : Unit} (hrun : Body.line l.tokens b = .ok (u, b')) :
    l.isDefinition? = none := by
  by_contra hheader
  have hfirst : l.first = .word "define" ∨ l.first = .word "declare" := by
    rw [TokenLine.isDefinition?] at hheader
    split at hheader <;> simp_all
  have hline : Body.instruction l.tokens b = .ok (u, b') := by
    rcases hfirst with hfirst | hfirst <;>
      simpa only [Body.line, TokenLine.tokens, hfirst] using hrun
  obtain ⟨name, op, s, ⟨rest, rest', hhead, -⟩, -⟩ := Body.instruction_stages hline
  rcases hfirst with hfirst | hfirst <;> rw [TokenLine.tokens, hfirst] at hhead <;> cases hhead

lemma isDefinition?_brace (h : l.tokens = [.punct '\x7d']) : l.isDefinition? = none := by
  obtain ⟨hfirst, -⟩ := List.cons.inj h
  rw [TokenLine.isDefinition?, hfirst]

/-- Lines that are no headers add no definitions. -/
lemma definitionsAmong_of_none {ls' : List TokenLine} (h : ∀ l ∈ ls, l.isDefinition? = none) :
    definitionsAmong k (ls ++ ls') = definitionsAmong k ls' := by
  induction ls with
  | nil => rfl
  | cons l ls ih =>
    obtain ⟨hl, hls⟩ := List.forall_mem_cons.1 h
    rw [List.cons_append, definitionsAmong, hl]
    exact ih hls

/-- The definitions that are left are those among the lines that are left, whatever the line is. -/
lemma Awaits.step (h : Awaits k ds (l :: ls)) (hrun : readLine symbols (p, ds) l = .ok (p', ds')) :
    Awaits (k + if l.isHeader then 1 else 0) ds' ls := by
  have hskip : l.isDefinition? = none → Awaits (k + if l.isHeader then 1 else 0) ds ls := by
    intro hdef
    rw [TokenLine.isHeader, hdef]
    rwa [Awaits, definitionsAmong, hdef] at h
  cases p with
  | outside m =>
    simp only [readLine] at hrun
    split at hrun
    · rename_i d rest hdef
      obtain ⟨b, -, heq⟩ := bind_eq_ok.1 hrun
      obtain ⟨-, rfl⟩ := Prod.mk.inj (pure_eq_ok.1 heq)
      rw [Awaits, definitionsAmong, hdef] at h
      rw [TokenLine.isHeader, hdef]
      exact (List.forall₂_cons.1 h).2
    · cases hrun
    · rename_i hdef
      obtain ⟨-, rfl⟩ := Prod.mk.inj (pure_eq_ok.1 hrun)
      rw [Awaits, definitionsAmong, hdef] at h
      rwa [TokenLine.isHeader, hdef]
    · cases hrun
  | inside b =>
    rcases readLine_cases hrun with ⟨_, _, _, hp, -⟩ | ⟨_, hp, -⟩ | ⟨_, -, hbrace, -, -, rfl⟩ |
      ⟨_, _, -, hline, -, rfl⟩
    · cases hp
    · cases hp
    · exact hskip (isDefinition?_brace hbrace)
    · exact hskip (isDefinition?_of_line hline)

/-- So there is a definition for each header that is come to. -/
lemma Awaits.ne_outOfSync (h : Awaits k ds (l :: ls)) :
    readLine symbols (p, ds) l ≠ .error (.error (.outOfSync n)) := by
  intro hrun
  cases p with
  | outside m =>
    simp only [readLine] at hrun
    split at hrun
    · rcases bind_eq_error.1 hrun with hstart | ⟨b, -, hrun⟩
      · obtain ⟨_, -, heq⟩ := mapError_map_eq_refusal.1 hstart
        cases heq
      · cases hrun
    · rename_i hdef
      rw [Awaits, definitionsAmong, hdef] at h
      cases h
    · cases hrun
    · cases hrun
  | inside b =>
    simp only [readLine] at hrun
    split_ifs at hrun
    · split at hrun <;> cases hrun
    · rcases bind_eq_error.1 hrun with hline | ⟨b', -, hrun⟩
      · obtain ⟨_, -, heq⟩ := mapError_map_eq_refusal.1 hline
        cases heq
      · cases hrun

lemma Awaits.foldlM {ls' : List TokenLine} (h : Awaits k ds (ls ++ ls'))
    (hrun : ls.foldlM (readLine symbols) (p, ds) = .ok (p', ds')) :
    Awaits (k + ls.countP TokenLine.isHeader) ds' ls' := by
  induction ls generalizing k p ds with
  | nil =>
    obtain ⟨-, rfl⟩ := Prod.mk.inj (pure_eq_ok.1 hrun)
    exact h
  | cons l ls ih =>
    rw [List.foldlM_cons, bind_eq_ok] at hrun
    obtain ⟨⟨p₁, ds₁⟩, hstep, hrest⟩ := hrun
    rw [List.countP_cons, Nat.add_comm (ls.countP _), ← Nat.add_assoc]
    exact ih (h.step hstep) hrest

/-- No header that is come to has been missed. -/
lemma readBodies_ne_outOfSync {s : Headers} (h : Awaits 0 s.definitions ls) :
    readBodies s ls ≠ .error (.error (.outOfSync n)) := by
  intro hrun
  rcases bind_eq_error.1 hrun with hlines | ⟨⟨p, ds⟩, -, hend⟩
  · obtain ⟨before, l, after, ⟨p, ds⟩, rfl, hbefore, hline⟩ := foldlM_eq_error.1 hlines
    exact (h.foldlM hbefore).ne_outOfSync hline
  · cases p with
    | outside m => cases hend
    | inside b =>
      rcases bind_eq_error.1 hend with hfunc | ⟨func, -, hend⟩
      · exact absurd hfunc (by simp)
      · cases hend

lemma Outline.ofText_ne_outOfSync : Outline.ofText text ≠ .error (.outOfSync n) := by
  intro hrun
  rcases bind_eq_error.1 hrun with hlines | ⟨_, -, hrun⟩
  · obtain ⟨before, ⟨number, line⟩, after, o, -, -, hadd⟩ := foldlM_eq_error.1 hlines
    rcases bind_eq_error.1 hadd with hkind | ⟨kind, -, hadd⟩
    · obtain ⟨_, -, heq⟩ := mapError_eq_error.1 hkind
      cases heq
    · cases kind with
      | globalDef name definition =>
        dsimp only at hadd
        split_ifs at hadd <;> cases hadd
      | sourceFilename name => cases name <;> cases hadd
      | _ => cases hadd
  · cases hrun

lemma Outline.headers_ne_outOfSync {o : Outline} : o.headers ≠ .error (.error (.outOfSync n)) := by
  intro hrun
  rcases bind_eq_error.1 hrun with hlines | ⟨_, -, hrun⟩
  · obtain ⟨before, l, after, s, -, -, hadd⟩ := foldlM_eq_error.1 hlines
    rw [Headers.add] at hadd
    cases hdef : l.isDefinition? with
    | none =>
      rw [hdef] at hadd
      cases hadd
    | some definition =>
      rw [hdef] at hadd
      rcases bind_eq_error.1 hadd with hheader | ⟨header, -, hadd⟩
      · obtain ⟨_, -, heq⟩ := mapError_eq_error.1 hheader
        cases heq
      · dsimp only at hadd
        by_cases hknown : s.symbols.contains header.name = true
        · rw [if_pos hknown] at hadd
          cases hadd
        · rw [if_neg hknown] at hadd
          simp [bind_eq_error, pure, Except.pure] at hadd
  · cases hrun

/-- The sweep over the bodies never comes to a header that the sweep over the headers has missed. -/
theorem ofText_ne_outOfSync : Module.ofText text ≠ .error (.error (.outOfSync n)) := by
  intro hread
  rcases bind_eq_error.1 hread with houtline | ⟨o, houtline, hread⟩
  · obtain ⟨e, houtline, heq⟩ := mapError_eq_error.1 houtline
    obtain rfl := Failure.error.inj heq
    exact Outline.ofText_ne_outOfSync houtline
  rw [mapError_eq_ok] at houtline
  rcases bind_eq_error.1 hread with hheaders | ⟨s, hheaders, hread⟩
  · exact Outline.headers_ne_outOfSync hheaders
  rcases bind_eq_error.1 hread with hbodies | ⟨m, -, hread⟩
  · have hawaits := Outline.awaits houtline hheaders
    rw [← (Outline.lines_ofText houtline).1] at hawaits
    exact readBodies_ne_outOfSync hawaits hbodies
  · rcases bind_eq_error.1 hread with hcheck | ⟨_, -, hread⟩
    · obtain ⟨_, -, heq⟩ := mapError_eq_error.1 hcheck
      cases heq
    · cases hread

end Sweeps

/-! ## Passages -/

/-- The lines of a function: a declaration, or a header with the lines of a body and the brace that
closes it. -/
inductive Passage where
  | declaration (header : TokenLine)
  | definition (header : TokenLine) (body : List TokenLine) (brace : TokenLine)

namespace Passage

def header : Passage → TokenLine
  | declaration header => header
  | definition header _ _ => header

def lines : Passage → List TokenLine
  | declaration header => [header]
  | definition header body brace => header :: (body ++ [brace])

/-- The header is the only one, and the brace is the first one. -/
def Valid : Passage → Prop
  | declaration header => header.isDefinition? = some false
  | definition header body brace => header.isDefinition? = some true ∧
      (∀ l ∈ body, l.isDefinition? = none ∧ l.tokens ≠ [.punct '\x7d']) ∧
      brace.tokens = [.punct '\x7d']

/-- Among the lines of a passage is one header. -/
lemma Valid.filter_isHeader {p : Passage} (h : p.Valid) :
    p.lines.filter TokenLine.isHeader = [p.header] := by
  cases p with
  | declaration header =>
    have hheader : header.isHeader = true := by rw [TokenLine.isHeader, (h : _ = _)]; rfl
    simp [lines, Passage.header, hheader]
  | definition header body brace =>
    obtain ⟨hdef, hbody, hbrace⟩ := h
    have hheader : header.isHeader = true := by rw [TokenLine.isHeader, hdef]; rfl
    have hnone : (body ++ [brace]).filter TokenLine.isHeader = [] := by
      refine List.filter_eq_nil_iff.2 fun l hl => ?_
      have hl : l.isDefinition? = none := by
        rcases List.mem_append.1 hl with hl | hl
        · exact (hbody l hl).1
        · exact List.mem_singleton.1 hl ▸ isDefinition?_brace hbrace
      simp [TokenLine.isHeader, hl]
    rw [lines, List.filter_cons, hheader, if_pos rfl, hnone]
    rfl

/-- The headers of passages are the header lines. -/
lemma filter_isHeader {ps : List Passage} (h : ∀ p ∈ ps, p.Valid) :
    (ps.flatMap lines).filter TokenLine.isHeader = ps.map Passage.header := by
  induction ps with
  | nil => rfl
  | cons p ps ih =>
    obtain ⟨hp, hps⟩ := List.forall_mem_cons.1 h
    rw [List.flatMap_cons, List.filter_append, hp.filter_isHeader, ih hps]
    rfl

end Passage

section Passages

variable {text : String} {symbols : Symbols} {m m₁ : Module} {ds : List Definition}
  {ls : List TokenLine}

/-- A body that is begun in a text that is read is closed. -/
lemma Reaches.exists_brace {b : Body} (h : Reaches text symbols (.inside b) ds ls)
    (hread : Module.ofText text = .ok m) : ∃ body brace after m₂, ls = body ++ brace :: after ∧
      (∀ l ∈ body, l.isDefinition? = none ∧ l.tokens ≠ [.punct '\x7d']) ∧
      brace.tokens = [.punct '\x7d'] ∧ Reaches text symbols (.outside m₂) ds after := by
  induction ls generalizing b with
  | nil =>
    obtain ⟨ds', hrest⟩ := h.rest hread
    cases pure_eq_ok.1 hrest
  | cons l ls ih =>
    by_cases hbrace : l.tokens = [.punct '\x7d']
    · obtain ⟨ds', hrest⟩ := h.rest hread
      rw [List.foldlM_cons, bind_eq_ok] at hrest
      obtain ⟨⟨p, ds₁⟩, hstep, -⟩ := hrest
      have hafter := h.step hstep
      obtain ⟨hfirst, hnil⟩ := List.cons.inj hbrace
      rw [readLine, if_pos ⟨hfirst, hnil⟩] at hstep
      split at hstep
      · cases hstep
      · obtain ⟨rfl, rfl⟩ := Prod.mk.inj (pure_eq_ok.1 hstep)
        exact ⟨[], l, ls, b.module, rfl, by simp, hbrace, hafter⟩
    · obtain ⟨b', hline, hafter⟩ := h.line hread hbrace
      obtain ⟨body, brace, after, m₂, rfl, hbody, hlast, hrest⟩ := ih hafter
      exact ⟨l :: body, brace, after, m₂, rfl,
        List.forall_mem_cons.2 ⟨⟨isDefinition?_of_line hline, hbrace⟩, hbody⟩, hlast, hrest⟩

/-- The passage at index `k` has the body of the definition that has been noted for its header. -/
def Passage.IsBodyAt (text : String) (k : Nat) (p : Passage) : Prop :=
  ∀ header body brace, p = .definition header body brace →
    ∃ d b, BodyOf text d b (body.map TokenLine.tokens) ∧ d.Notes (⟨k⟩, header)

/-- The lines that are left of a text that is read begin with those of a function. -/
lemma Reaches.exists_passage {l : TokenLine} {k : Nat}
    (h : Reaches text symbols (.outside m₁) ds (l :: ls)) (hread : Module.ofText text = .ok m)
    (hawaits : Awaits k ds (l :: ls)) :
    ∃ (p : Passage) (after : List TokenLine) (m₂ : Module) (ds' : List Definition),
      p.lines ++ after = l :: ls ∧ p.Valid ∧ p.IsBodyAt text k ∧
        Reaches text symbols (.outside m₂) ds' after ∧ Awaits (k + 1) ds' after := by
  obtain ⟨ds', hrest⟩ := h.rest hread
  rw [List.foldlM_cons, bind_eq_ok] at hrest
  obtain ⟨⟨p, ds₁⟩, hstep, -⟩ := hrest
  have hnext := h.step hstep
  simp only [readLine] at hstep
  split at hstep
  · rename_i d rest hdef
    simp only [bind_eq_ok, mapError_eq_ok, pure_eq_ok, Prod.mk.injEq] at hstep
    obtain ⟨b, hstart, rfl, rfl⟩ := hstep
    obtain ⟨body, brace, after, m₂, rfl, hbody, hbrace, hafter⟩ := hnext.exists_brace hread
    rw [Awaits, definitionsAmong, hdef] at hawaits
    obtain ⟨hd, hrest⟩ := List.forall₂_cons.1 hawaits
    -- The body has no headers.
    have hnone : ∀ l ∈ body ++ [brace], l.isDefinition? = none := by
      intro l hl
      rcases List.mem_append.1 hl with hl | hl
      · exact (hbody l hl).1
      · exact List.mem_singleton.1 hl ▸ isDefinition?_brace hbrace
    have hskip : definitionsAmong (k + 1) (body ++ [brace] ++ after)
        = definitionsAmong (k + 1) after :=
      definitionsAmong_of_none hnone
    rw [List.append_assoc, List.singleton_append] at hskip
    refine ⟨.definition l body brace, after, m₂, _, by simp [Passage.lines], ⟨hdef, hbody, hbrace⟩,
      ?_, hafter, ?_⟩
    · rintro _ _ _ ⟨⟩
      refine ⟨d, b,
        ⟨⟨symbols, m₁, rest, l, body, brace, after, h, hdef, hstart, rfl, hbrace⟩, ?_⟩, hd⟩
      intro ts hts
      obtain ⟨l', hl', rfl⟩ := List.mem_map.1 hts
      exact (hbody l' hl').2
    · rw [Awaits, ← hskip]
      exact hrest
  · cases hstep
  · rename_i hdef
    obtain ⟨rfl, rfl⟩ := Prod.mk.inj (pure_eq_ok.1 hstep)
    rw [Awaits, definitionsAmong, hdef] at hawaits
    refine ⟨.declaration l, ls, m₁, _, rfl, hdef, fun _ _ _ heq => ?_, hnext, hawaits⟩
    cases heq
  · cases hstep

/-- The lines that are left of a text that is read are those of functions, and each body among them
is read for the function of its header. -/
theorem exists_passages (h : Reaches text symbols (.outside m₁) ds ls)
    (hread : Module.ofText text = .ok m) {k : Nat} (hawaits : Awaits k ds ls) :
    ∃ ps : List Passage, ps.flatMap Passage.lines = ls ∧ (∀ p ∈ ps, p.Valid) ∧
      ∀ (j : Nat) p, ps[j]? = some p → p.IsBodyAt text (k + j) := by
  induction hlength : ls.length using Nat.strong_induction_on generalizing ls m₁ ds k with
  | _ length ih =>
    subst hlength
    cases ls with
    | nil => exact ⟨[], rfl, by simp, by simp⟩
    | cons l ls =>
      obtain ⟨p, after, m₂, ds', hlines, hp, hbody, hafter, hrest⟩ := h.exists_passage hread hawaits
      have hlt : after.length < (l :: ls).length := by
        rw [← hlines, List.length_append]
        cases p <;> simp [Passage.lines]
      obtain ⟨ps, rfl, hvalid, hbodies⟩ := ih after.length hlt hafter hrest rfl
      refine ⟨p :: ps, hlines, List.forall_mem_cons.2 ⟨hp, hvalid⟩, fun j p' hj => ?_⟩
      cases j with
      | zero => exact Option.some.inj hj ▸ hbody
      | succ j =>
        rw [Nat.add_comm j, ← Nat.add_assoc]
        exact hbodies j p' hj

end Passages

end SsaFold.Text
