import SsaFold.Proofs.Module.Verdict
import SsaFold.Proofs.Text.Reader

/-!
# The line that an error names

The three sweeps of the reader put the number of a line in front of what they refuse: the sweep over
the lines that of the line it has come to, and the other two that of a line with tokens, or of the
header whose body they begin.  So the number is that of a line of the text.

Two exits of the reader put no number there.  A body that is not closed is noticed when no line is
left, and what is wrong with the module as a whole is found after the last line.
`ofText_error_line` says that an error names its line unless it takes one of these exits, and what
has happened then.
-/

namespace SsaFold
namespace Text

variable {text : String} {e : ReadError}

/-! ## Errors -/

/-- The number in front of an error, if there is one. -/
def ReadError.line? : ReadError → Option Nat
  | lex number _ _ | sourceFilename number | redefined number _ | header number _ | body number _
  | topLevel number _ | outOfSync number => some number
  | unclosed _ | malformed _ => none

/-- An error as it is displayed, with its causes. -/
def ReadError.display (e : ReadError) : String := ": ".intercalate e.causes

/-- The lines of a text are numbered from one. -/
def NumbersLine (text : String) (n : Nat) : Prop := 1 ≤ n ∧ n ≤ (splitLines text.toList).length

/-- What is displayed begins with the number of a line of the text. -/
def ReadError.NamesLine (text : String) (e : ReadError) : Prop :=
  ∃ n rest, NumbersLine text n ∧ e.display = lineText n ++ ": " ++ rest

lemma ReadError.display_of_line? {n : Nat} (h : e.line? = some n) :
    ∃ rest, e.display = lineText n ++ ": " ++ rest := by
  cases e with
  | lex | header | body =>
    obtain rfl := Option.some.inj h
    exact ⟨_, rfl⟩
  | sourceFilename number =>
    obtain rfl := Option.some.inj h
    exact ⟨"malformed source_filename", by simp [display, causes, ← String.toList_inj]⟩
  | redefined number name =>
    obtain rfl := Option.some.inj h
    exact ⟨"redefinition of @" ++ name, by simp [display, causes, ← String.toList_inj]⟩
  | topLevel number found =>
    obtain rfl := Option.some.inj h
    exact ⟨"unexpected '" ++ found.text ++ "' at top level",
      by simp [display, causes, ← String.toList_inj]⟩
  | outOfSync number =>
    obtain rfl := Option.some.inj h
    exact ⟨"function header out of sync", by simp [display, causes, ← String.toList_inj]⟩
  | unclosed | malformed => cases h

lemma ReadError.line?_of_display {n : Nat} {rest : String}
    (h : e.display = lineText n ++ ": " ++ rest) : e.line? ≠ none := by
  have hhead : e.display.toList.head? = some 'l' := by
    rw [h, lineText]
    simp
  cases e with
  | unclosed func => simp [display, causes] at hhead
  | malformed d => simp [display, causes] at hhead
  | _ => simp [line?]

lemma numbersLine_of_mem {n : Nat} {line : String} (h : (n, line) ∈ numberedLines text) :
    NumbersLine text n := by
  obtain ⟨⟨cs, k⟩, hk, heq⟩ := List.mem_map.1 h
  obtain ⟨rfl, -⟩ := Prod.mk.inj heq
  have hlt := List.snd_lt_of_mem_zipIdx hk
  simp only [NumbersLine]
  omega

/-! ## The sweep over the lines -/

lemma Outline.line?_of_add {o : Outline} {number : Nat} {line : String}
    (hrun : o.add number line = .error e) : e.line? = some number := by
  rcases bind_eq_error.1 hrun with hkind | ⟨kind, -, hrun⟩
  · obtain ⟨_, -, rfl⟩ := mapError_eq_error.1 hkind
    rfl
  · cases kind with
    | globalDef name definition =>
      dsimp only at hrun
      split_ifs at hrun
      · obtain rfl := Except.error.inj hrun
        rfl
      · cases hrun
    | sourceFilename name =>
      cases name with
      | none =>
        obtain rfl := Except.error.inj hrun
        rfl
      | some name => cases hrun
    | _ => cases hrun

/-- A line with tokens keeps its number. -/
lemma Outline.number_of_add {o o' : Outline} {number : Nat} {line : String}
    (hrun : o.add number line = .ok o') :
    ∀ l ∈ o'.lines, l ∈ o.lines ∨ l.number = number := by
  obtain ⟨kind, -, hrun⟩ := bind_eq_ok.1 hrun
  cases kind with
  | tokens first rest =>
    obtain rfl := pure_eq_ok.1 hrun
    intro l hl
    rcases List.mem_cons.1 hl with rfl | hl
    · exact .inr rfl
    · exact .inl hl
  | globalDef name definition =>
    dsimp only at hrun
    split_ifs at hrun
    · cases hrun
    · exact pure_eq_ok.1 hrun ▸ fun l => .inl
  | sourceFilename name =>
    cases name with
    | none => cases hrun
    | some name => exact pure_eq_ok.1 hrun ▸ fun l => .inl
  | _ => exact pure_eq_ok.1 hrun ▸ fun l => .inl

lemma Outline.numbersLine_of_error (hrun : Outline.ofText text = .error e) :
    ∃ n, e.line? = some n ∧ NumbersLine text n := by
  rcases bind_eq_error.1 hrun with hlines | ⟨_, -, hrun⟩
  · obtain ⟨before, ⟨n, line⟩, after, o, hsplit, -, hadd⟩ := foldlM_eq_error.1 hlines
    have hmem : (n, line) ∈ numberedLines text :=
      hsplit ▸ List.mem_append_right _ List.mem_cons_self
    exact ⟨n, line?_of_add hadd, numbersLine_of_mem hmem⟩
  · cases hrun

lemma Outline.numbersLine_of_ok {o : Outline} (hrun : Outline.ofText text = .ok o) :
    ∀ l ∈ o.lines, NumbersLine text l.number := by
  simp only [Outline.ofText, bind_eq_ok, pure_eq_ok] at hrun
  obtain ⟨o₁, hlines, rfl⟩ := hrun
  have h := foldlM_keeps_mem (P := fun o : Outline => ∀ l ∈ o.lines, NumbersLine text l.number)
    (fun o nl hnl o' ho hadd l hl => ?_) (by simp) hlines
  · exact fun l hl => h l (List.mem_reverse.1 hl)
  · rcases number_of_add hadd l hl with hl | hl
    · exact ho l hl
    · exact hl ▸ numbersLine_of_mem hnl

/-! ## The sweep over the headers -/

lemma Headers.line?_of_add {s : Headers} {line : TokenLine}
    (hrun : s.add line = .error (.error e)) : e.line? = some line.number := by
  rw [Headers.add] at hrun
  cases hdef : line.isDefinition? with
  | none =>
    rw [hdef] at hrun
    cases hrun
  | some definition =>
    rw [hdef] at hrun
    rcases bind_eq_error.1 hrun with hheader | ⟨header, -, hrun⟩
    · obtain ⟨_, -, heq⟩ := mapError_eq_error.1 hheader
      obtain rfl := Failure.error.inj heq
      rfl
    · dsimp only at hrun
      by_cases hknown : s.symbols.contains header.name = true
      · rw [if_pos hknown] at hrun
        obtain rfl := Failure.error.inj (Except.error.inj hrun)
        rfl
      · -- Adding the function may fault, but it refuses nothing.
        rw [if_neg hknown] at hrun
        simp [bind_eq_error, pure, Except.pure] at hrun

lemma Headers.number_of_add {s s' : Headers} {line : TokenLine} (hrun : s.add line = .ok s') :
    ∀ d ∈ s'.definitions, d ∈ s.definitions ∨ d.number = line.number := by
  rw [Headers.add] at hrun
  cases hdef : line.isDefinition? with
  | none =>
    simp only [hdef, pure_eq_ok] at hrun
    exact hrun ▸ fun d => .inl
  | some definition =>
    simp only [hdef, bind_eq_ok] at hrun
    obtain ⟨header, -, hrun⟩ := hrun
    by_cases hknown : s.symbols.contains header.name = true
    · simp [hknown] at hrun
    · rw [if_neg hknown] at hrun
      simp only [bind_eq_ok, liftM_eq_ok, pure_eq_ok] at hrun
      obtain ⟨⟨m, f⟩, -, func, -, rfl⟩ := hrun
      intro d hd
      cases definition with
      | false => exact .inl hd
      | true =>
        rcases List.mem_cons.1 hd with rfl | hd
        · exact .inr rfl
        · exact .inl hd

lemma Outline.line?_of_headers {o : Outline} (hrun : o.headers = .error (.error e)) :
    ∃ l ∈ o.lines, e.line? = some l.number := by
  rcases bind_eq_error.1 hrun with hlines | ⟨_, -, hrun⟩
  · obtain ⟨before, l, after, s, hsplit, -, hadd⟩ := foldlM_eq_error.1 hlines
    exact ⟨l, hsplit ▸ List.mem_append_right _ List.mem_cons_self, Headers.line?_of_add hadd⟩
  · cases hrun

lemma Outline.number_of_headers {o : Outline} {s : Headers} (hrun : o.headers = .ok s) :
    ∀ d ∈ s.definitions, ∃ l ∈ o.lines, d.number = l.number := by
  simp only [Outline.headers, bind_eq_ok, pure_eq_ok] at hrun
  obtain ⟨s₁, hlines, rfl⟩ := hrun
  have h := foldlM_keeps_mem
    (P := fun s : Headers => ∀ d ∈ s.definitions, ∃ l ∈ o.lines, d.number = l.number)
    (fun s l hl s' hs hadd d hd => ?_) (by simp) hlines
  · exact fun d hd => h d (List.mem_reverse.1 hd)
  · rcases Headers.number_of_add hadd d hd with hd | hd
    · exact hs d hd
    · exact ⟨l, hl, hd⟩

/-! ## The sweep over the bodies -/

/-- A failure whose error has been restated is a restated error. -/
lemma mapError_map_eq_refusal {ε δ α : Type} {x : Except (Failure ε) α} {f : ε → δ} {d : δ} :
    x.mapError (·.map f) = .error (.error d) ↔ ∃ e, x = .error (.error e) ∧ f e = d := by
  rcases x with (_ | _) | _ <;> simp [Except.mapError, Failure.map]

section Bodies

variable {symbols : Symbols} {p p' : Position} {ds ds' : List Definition} {line : TokenLine}

lemma line?_of_readLine (hrun : readLine symbols (p, ds) line = .error (.error e)) :
    e.line? = some line.number ∨ ∃ d ∈ ds, e.line? = some d.number := by
  cases p with
  | outside m =>
    simp only [readLine] at hrun
    split at hrun
    · rename_i d rest _
      rcases bind_eq_error.1 hrun with hstart | ⟨b, -, hrun⟩
      · obtain ⟨_, -, rfl⟩ := mapError_map_eq_refusal.1 hstart
        exact .inr ⟨d, List.mem_cons_self, rfl⟩
      · cases hrun
    · obtain rfl := Failure.error.inj (Except.error.inj hrun)
      exact .inl rfl
    · cases hrun
    · obtain rfl := Failure.error.inj (Except.error.inj hrun)
      exact .inl rfl
  | inside b =>
    left
    simp only [readLine] at hrun
    split_ifs at hrun
    · split at hrun
      · obtain rfl := Failure.error.inj (Except.error.inj hrun)
        rfl
      · cases hrun
    · rcases bind_eq_error.1 hrun with hline | ⟨b', -, hrun⟩
      · obtain ⟨_, -, rfl⟩ := mapError_map_eq_refusal.1 hline
        rfl
      · cases hrun

/-- No definition comes to those that have not been read. -/
lemma subset_of_readLine (hrun : readLine symbols (p, ds) line = .ok (p', ds')) : ds' ⊆ ds := by
  cases p with
  | outside m =>
    simp only [readLine] at hrun
    split at hrun
    · obtain ⟨b, -, heq⟩ := bind_eq_ok.1 hrun
      obtain ⟨-, rfl⟩ := Prod.mk.inj (pure_eq_ok.1 heq)
      exact List.subset_cons_self _ _
    · cases hrun
    · obtain ⟨-, rfl⟩ := Prod.mk.inj (pure_eq_ok.1 hrun)
      exact List.Subset.refl _
    · cases hrun
  | inside b =>
    simp only [readLine] at hrun
    split_ifs at hrun
    · split at hrun
      · cases hrun
      · obtain ⟨-, rfl⟩ := Prod.mk.inj (pure_eq_ok.1 hrun)
        exact List.Subset.refl _
    · obtain ⟨b', -, heq⟩ := bind_eq_ok.1 hrun
      obtain ⟨-, rfl⟩ := Prod.mk.inj (pure_eq_ok.1 heq)
      exact List.Subset.refl _

end Bodies

/-! ## The two exits without a number -/

/-- After the last line the body of the function of this name is still open. -/
def LeavesOpen (text name : String) : Prop :=
  ∃ o s b ds func, Outline.ofText text = .ok o ∧ o.headers = .ok s ∧
    o.lines.foldlM (readLine s.symbols) (.outside s.module, s.definitions) = .ok (.inside b, ds) ∧
    b.module.func? b.func = some func ∧ func.name = name

/-- The lines have been read, and this is the module that they make up. -/
def Assembles (text : String) (m : Module) : Prop :=
  ∃ o s, Outline.ofText text = .ok o ∧ o.headers = .ok s ∧ readBodies s o.lines = .ok m

/-- What is noticed only after the last line. -/
inductive NoticedLast (text : String) : ReadError → Prop
  | unclosed {name : String} (opened : LeavesOpen text name) : NoticedLast text (.unclosed name)
  | malformed {m : Module} {d : Defect} (assembled : Assembles text m) (flaw : m.Flaw d) :
      NoticedLast text (.malformed d)

lemma NoticedLast.line?_eq_none (h : NoticedLast text e) : e.line? = none := by
  cases h <;> rfl

lemma Assembles.wellFormed {m : Module} (h : Assembles text m) : m.WellFormed := by
  obtain ⟨o, s, houtline, hheaders, hbodies⟩ := h
  exact readBodies_wellFormed
    (Outline.headers_scoped (Outline.ofText_scoped houtline) hheaders) hbodies

lemma line?_of_foldlM {s : Headers} {lines : List TokenLine}
    (hrun : lines.foldlM (readLine s.symbols) (.outside s.module, s.definitions)
      = .error (.error e)) :
    (∃ l ∈ lines, e.line? = some l.number) ∨ ∃ d ∈ s.definitions, e.line? = some d.number := by
  obtain ⟨before, l, after, ⟨p, ds⟩, hsplit, hbefore, hline⟩ := foldlM_eq_error.1 hrun
  have hds : ds ⊆ s.definitions := foldlM_keeps
    (P := fun s' : Position × List Definition => s'.2 ⊆ s.definitions)
    (fun _ _ _ h hread => List.Subset.trans (subset_of_readLine hread) h)
      (List.Subset.refl _) hbefore
  rcases line?_of_readLine hline with hl | ⟨d, hd, hnumber⟩
  · exact .inl ⟨l, hsplit ▸ List.mem_append_right _ List.mem_cons_self, hl⟩
  · exact .inr ⟨d, hds hd, hnumber⟩

/-- A text that is refused takes one of the exits. -/
lemma numbersLine_or_noticedLast (hread : Module.ofText text = .error (.error e)) :
    (∃ n, e.line? = some n ∧ NumbersLine text n) ∨ NoticedLast text e := by
  rcases bind_eq_error.1 hread with hread | ⟨o, houtline, hread⟩
  · obtain ⟨e', houtline, heq⟩ := mapError_eq_error.1 hread
    obtain rfl := Failure.error.inj heq
    exact .inl (Outline.numbersLine_of_error houtline)
  rw [mapError_eq_ok] at houtline
  have hnumbers := Outline.numbersLine_of_ok houtline
  rcases bind_eq_error.1 hread with hheaders | ⟨s, hheaders, hread⟩
  · obtain ⟨l, hl, hline⟩ := Outline.line?_of_headers hheaders
    exact .inl ⟨_, hline, hnumbers l hl⟩
  rcases bind_eq_error.1 hread with hbodies | ⟨m, hbodies, hread⟩
  · rcases bind_eq_error.1 hbodies with hlines | ⟨⟨p, ds⟩, hlines, hend⟩
    · rcases line?_of_foldlM hlines with ⟨l, hl, hline⟩ | ⟨d, hd, hline⟩
      · exact .inl ⟨_, hline, hnumbers l hl⟩
      · obtain ⟨l, hl, hnumber⟩ := Outline.number_of_headers hheaders d hd
        exact .inl ⟨_, hline, hnumber ▸ hnumbers l hl⟩
    · cases p with
      | outside m => cases hend
      | inside b =>
        rcases bind_eq_error.1 hend with hfunc | ⟨func, hfunc, hend⟩
        · exact absurd hfunc (by simp)
        · obtain rfl := Failure.error.inj (Except.error.inj hend)
          rw [liftM_eq_ok, Module.getFunc_eq_ok] at hfunc
          exact .inr (.unclosed ⟨o, s, b, ds, func, houtline, hheaders, hlines, hfunc, rfl⟩)
  · rcases bind_eq_error.1 hread with hverdict | ⟨_, -, hread⟩
    · obtain ⟨d, hcheck, heq⟩ := mapError_eq_error.1 hverdict
      obtain rfl := Failure.error.inj heq
      have hm : Assembles text m := ⟨o, s, houtline, hheaders, hbodies⟩
      exact .inr (.malformed hm (hm.wellFormed.reachable.intact.flaw_of_check hcheck))
    · cases hread

lemma LeavesOpen.ofText {name : String} (h : LeavesOpen text name) :
    Module.ofText text = .error (.error (.unclosed name)) := by
  obtain ⟨o, s, b, ds, func, houtline, hheaders, hlines, hfunc, rfl⟩ := h
  have hlift : (liftM (b.module.getFunc b.func) : Except (Failure ReadError) Func) = .ok func :=
    liftM_eq_ok.2 (Module.getFunc_eq_ok.2 hfunc)
  have hbodies : readBodies s o.lines = .error (.error (.unclosed func.name)) := by
    simp only [readBodies, hlines, ok_bind, hlift]
    rfl
  simp only [Module.ofText, mapError_eq_ok.2 houtline, ok_bind, hheaders, hbodies]
  rfl

lemma Assembles.ofText {m : Module} (h : Assembles text m) :
    Module.ofText text = (m.check.mapError (.error <| .malformed ·) >>= fun _ => .ok m) := by
  obtain ⟨o, s, houtline, hheaders, hbodies⟩ := h
  simp only [Module.ofText, mapError_eq_ok.2 houtline, ok_bind, hheaders, hbodies]
  rfl

end Text

namespace Module

open Text

/-- The error that the reader answers with begins with the number of a line of the text, unless it
is noticed only after the last line.  There are such errors for exactly those texts that leave a
body open, or whose lines make up a module with a flaw. -/
theorem ofText_error_line (text : String) :
    (∀ e, ofText text = .error (.error e) → (e.NamesLine text ↔ ¬ NoticedLast text e)) ∧
    ((∃ e, ofText text = .error (.error e) ∧ ¬ e.NamesLine text) ↔
      (∃ name, LeavesOpen text name) ∨ ∃ m d, Assembles text m ∧ m.Flaw d) := by
  have hiff : ∀ e, ofText text = .error (.error e) → (e.NamesLine text ↔ ¬ NoticedLast text e) := by
    intro e hread
    constructor
    · rintro ⟨n, rest, -, hdisplay⟩ hlast
      exact ReadError.line?_of_display hdisplay hlast.line?_eq_none
    · intro hlast
      obtain ⟨n, hline, hn⟩ := (numbersLine_or_noticedLast hread).resolve_right hlast
      obtain ⟨rest, hrest⟩ := ReadError.display_of_line? hline
      exact ⟨n, rest, hn, hrest⟩
  refine ⟨hiff, ⟨?_, ?_⟩⟩
  · rintro ⟨e, hread, hnames⟩
    rw [hiff e hread, not_not] at hnames
    cases hnames with
    | unclosed opened => exact .inl ⟨_, opened⟩
    | malformed assembled flaw => exact .inr ⟨_, _, assembled, flaw⟩
  · rintro (⟨name, hopen⟩ | ⟨m, d, hm, hflaw⟩)
    · refine ⟨_, hopen.ofText, fun hnames => ?_⟩
      exact (hiff _ hopen.ofText).1 hnames (.unclosed hopen)
    · have hintact := hm.wellFormed.reachable.intact
      obtain ⟨d', hcheck⟩ := hintact.exists_check_of_flaw hflaw
      have hread : ofText text = .error (.error (.malformed d')) := by
        rw [hm.ofText, hcheck]
        rfl
      refine ⟨_, hread, fun hnames => (hiff _ hread).1 hnames ?_⟩
      exact .malformed hm (hintact.flaw_of_check hcheck)

/-- An instruction stands behind the brace that closes the body. -/
def strayText : String := "define void @f() \x7b\n  ret void\n\x7d\nret void\n"

/-- The body is not closed. -/
def openText : String := "define void @f() \x7b\n"

/-- The block `a` is empty. -/
def emptyBlockText : String := "define void @f() \x7b\na:\nb:\n  ret void\n\x7d\n"

/-- The block `a` does not end with a terminator. -/
def unendedText : String := "define void @f() \x7b\na:\n  add i8 1, 2\nb:\n  ret void\n\x7d\n"

/-- The number one is read before it is counted, so the addition does not define what has been
read. -/
def unmetText : String :=
  "define void @f() \x7b\n  br label %loop\nloop:\n" ++
  "  %i = phi i32 [ 0, %0 ], [ %1, %loop ]\n  add i32 %i, 1\n  br label %loop\n\x7d\n"

theorem ofText_error_line_texts :
    (∃ e, ofText strayText = .error (.error e) ∧ e.NamesLine strayText) ∧
    (∃ e, ofText openText = .error (.error e) ∧ ¬ e.NamesLine openText) ∧
    (∃ e, ofText emptyBlockText = .error (.error e) ∧ ¬ e.NamesLine emptyBlockText) ∧
    (∃ e, ofText unendedText = .error (.error e) ∧ ¬ e.NamesLine unendedText) ∧
    ∃ e, ofText unmetText = .error (.error e) ∧ ¬ e.NamesLine unmetText := by
  have hlast : ∀ {text e}, ofText text = .error (.error e) → e.line? = none →
      ¬ e.NamesLine text := by
    intro text e hread hnone hnames
    refine ((ofText_error_line text).1 e hread).1 hnames ?_
    exact (numbersLine_or_noticedLast hread).resolve_left (by simp [hnone])
  have hstray : ofText strayText = .error (.error (.topLevel 4 (.word "ret"))) := by decide +kernel
  have hopen : ofText openText = .error (.error (.unclosed "f")) := by decide +kernel
  have hempty : ofText emptyBlockText = .error (.error (.malformed (.emptyBlock "f" ⟨0⟩))) := by
    decide +kernel
  have hunended : ofText unendedText
      = .error (.error (.malformed (.terminator "f" ⟨0⟩ (.binary .add) 0))) := by decide +kernel
  have hunmet : ofText unmetText = .error (.error (.malformed (.unresolved none))) := by
    decide +kernel
  refine ⟨⟨_, hstray, ?_⟩, ⟨_, hopen, hlast hopen rfl⟩, ⟨_, hempty, hlast hempty rfl⟩,
    ⟨_, hunended, hlast hunended rfl⟩, ⟨_, hunmet, hlast hunmet rfl⟩⟩
  exact ((ofText_error_line strayText).1 _ hstray).2 nofun

/-- So not every error names a line: a text of one line can be refused without its number. -/
theorem not_forall_error_names_line :
    ¬ ∀ text e, ofText text = .error (.error e) → e.NamesLine text := by
  intro h
  have hread : ofText openText = .error (.error (.unclosed "f")) := by decide +kernel
  obtain ⟨n, rest, -, hdisplay⟩ := h openText _ hread
  exact ReadError.line?_of_display hdisplay rfl

end Module
end SsaFold
