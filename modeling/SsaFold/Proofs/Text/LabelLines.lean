import SsaFold.Proofs.Reachable
import SsaFold.Proofs.Related
import SsaFold.Proofs.Text.Layout
import SsaFold.Proofs.Text.Naming
import SsaFold.Text.Reader

/-!
# Label lines

The printer writes a label as it writes a reference to the block, without the sigil: the name,
between quotation marks if it has to be.  The reader takes a name behind a sigil with or without
quotation marks, but a label only if it is a word or a number.  So every reference is read back, and
a label line is read back exactly if its name `IsLabel`.  Any other label line is refused, and the
printed text with it (`Module.toText_label`).
-/

namespace SsaFold
namespace Text

/-! ## A colon at the end of a line -/

section Colon

variable {first : Bool} {c : Char} {cs rest : List Char} {t : Token} {name : String}

lemma isNameChar_iff : isNameChar c = true ↔ isWordStart c = true ∨ c.isDigit = true ∨ c = '-' := by
  simp only [isNameChar, isWordStart, Char.isAlphanum, Bool.or_eq_true, decide_eq_true_eq,
    List.mem_cons, List.not_mem_nil, or_false]
  tauto

lemma dropWhile_concat {α : Type} {p : α → Bool} {a : α} {as : List α} (h : p a = false) :
    (as ++ [a]).dropWhile p = as.dropWhile p ++ [a] := by
  rw [List.dropWhile_append]
  split_ifs with hempty
  · simp [List.isEmpty_iff.1 hempty, h]
  · rfl

/-- Among the characters of a name and a colon, the colon can only be reached as that of a label. -/
lemma nextToken_concat_colon (hc : isNameChar c = true) (hcs : ∀ d ∈ cs, isNameChar d = true)
    (h : nextToken first c (cs ++ [':']) = .ok (t, rest)) :
    (∃ ds, ds <:+ cs ∧ rest = ds ++ [':']) ∨
      (first = true ∧ IsLabel (String.ofList (c :: cs))) := by
  have hcolon : ∀ d ∈ [':'].head?, isNameChar d = false := by simp [isNameChar]
  have hdigits : (cs ++ [':']).dropWhile Char.isDigit = cs.dropWhile Char.isDigit ++ [':'] :=
    dropWhile_concat (by decide)
  rcases isNameChar_iff.1 hc with hstart | hdigit | rfl
  · by_cases hdots : c = '.' ∧ (cs ++ [':']).take 2 = ['.', '.']
    · -- Dots are a token without the colon.
      obtain ⟨rfl, htake⟩ := hdots
      have hnext : nextToken first '.' (cs ++ [':']) = .ok (.ellipsis, (cs ++ [':']).drop 2) := by
        simp [nextToken, htake]
      obtain ⟨-, rfl⟩ := Prod.mk.inj (Except.ok.inj (hnext.symm.trans h))
      rcases cs with _ | ⟨d, _ | ⟨e, ds⟩⟩
      · simp at htake
      · simp at htake
      · exact .inl ⟨ds, (List.suffix_cons e ds).trans (List.suffix_cons d _), rfl⟩
    · rw [nextToken_word hstart hdots, takeWhile_append_of_stops hcs hcolon,
        dropWhile_append_of_stops hcs hcolon] at h
      cases first with
      | true =>
        refine .inr ⟨rfl, .inl ⟨c, cs, String.toList_ofList, hstart, hcs, fun hword => hdots ?_⟩⟩
        obtain ⟨rfl, htake⟩ := hword
        rcases cs with _ | ⟨d, _ | ⟨e, ds⟩⟩
        · simp at htake
        · simp at htake
        · exact ⟨rfl, htake⟩
      | false =>
        rw [labelOr_of_not (by simp)] at h
        obtain ⟨_, -, heq⟩ := map_eq_ok_iff.1 h
        obtain ⟨-, rfl⟩ := Prod.mk.inj heq
        exact .inl ⟨[], List.nil_suffix, rfl⟩
  · rw [nextToken_digit hdigit, hdigits] at h
    by_cases hlabel : first = true ∧ ∀ d ∈ cs, d.isDigit = true
    · obtain ⟨rfl, hall⟩ := hlabel
      refine .inr ⟨rfl, .inr ?_⟩
      simpa [isNumbered, hdigit] using hall
    · -- The number ends in front of another character of the name.
      rw [labelOr_of_not] at h
      · obtain ⟨_, -, heq⟩ := map_eq_ok_iff.1 h
        obtain ⟨-, rfl⟩ := Prod.mk.inj heq
        exact .inl ⟨_, List.dropWhile_suffix _, rfl⟩
      · rintro rfl
        cases hdrop : cs.dropWhile Char.isDigit with
        | nil => exact absurd ⟨rfl, List.dropWhile_eq_nil_iff.1 hdrop⟩ hlabel
        | cons d ds =>
          rintro hd
          obtain rfl := Option.some.inj hd
          have hmem := hcs ':' (mem_of_mem_dropWhile (hdrop ▸ List.mem_cons_self))
          simp [isNameChar] at hmem
  · -- Neither is the colon part of a negative number.
    rw [nextToken_minus, hdigits] at h
    split_ifs at h
    obtain ⟨_, -, heq⟩ := map_eq_ok_iff.1 h
    obtain ⟨-, rfl⟩ := Prod.mk.inj heq
    exact .inl ⟨_, List.dropWhile_suffix _, rfl⟩

/-- The colon behind a name begins no token. -/
lemma tokens_concat_colon (hcs : ∀ d ∈ cs, isNameChar d = true) :
    ∃ e, tokens false (cs ++ [':']) = .error e := by
  induction hn : cs.length using Nat.strong_induction_on generalizing cs with
  | _ n ih =>
    cases cs with
    | nil => exact ⟨.unexpectedChar ':', tokens_of_error (by decide) (by decide) rfl⟩
    | cons c cs =>
      obtain ⟨hc, hcs⟩ := List.forall_mem_cons.1 hcs
      have hblank := isBlank_of_isNameChar hc
      have hcomment : c ≠ ';' := by
        rintro rfl
        exact absurd hc (by decide)
      cases hnext : nextToken false c (cs ++ [':']) with
      | error e => exact ⟨e, tokens_of_error hblank hcomment hnext⟩
      | ok tr =>
        obtain ⟨t, rest⟩ := tr
        obtain ⟨ds, hds, rfl⟩ := (nextToken_concat_colon hc hcs hnext).resolve_right (by simp)
        have hlength : ds.length < n := hn ▸ Nat.lt_succ_of_le hds.length_le
        obtain ⟨e, he⟩ := ih ds.length hlength (fun d hd => hcs d (hds.subset hd)) rfl
        refine ⟨e, ?_⟩
        rw [List.cons_append, tokens_of_nextToken hblank hcomment hnext, he]
        rfl

/-- A line of a name and a colon is refused unless the name can be that of a label. -/
lemma tokenize_of_not_isLabel (hname : Quotable name) (h : ¬ IsLabel name) :
    ∃ e, tokenize (nameText name ++ ":") = .error e := by
  have hcolon : ":".toList = [':'] := rfl
  rw [tokenize, String.toList_append, hcolon, nameText]
  split_ifs with hplain
  · rw [isPlain, Bool.and_eq_true, List.all_eq_true] at hplain
    obtain ⟨hne, hall⟩ := hplain
    cases hcs : name.toList with
    | nil => simp [hcs] at hne
    | cons c cs =>
      obtain ⟨hc, hcs'⟩ := List.forall_mem_cons.1 (hcs ▸ hall)
      have hblank := isBlank_of_isNameChar hc
      have hcomment : c ≠ ';' := by
        rintro rfl
        exact absurd hc (by decide)
      cases hnext : nextToken true c (cs ++ [':']) with
      | error e => exact ⟨e, tokens_of_error hblank hcomment hnext⟩
      | ok tr =>
        obtain ⟨t, rest⟩ := tr
        rcases nextToken_concat_colon hc hcs' hnext with ⟨ds, hds, rfl⟩ | ⟨-, hlabel⟩
        · obtain ⟨e, he⟩ := tokens_concat_colon fun d hd => hcs' d (hds.subset hd)
          refine ⟨e, ?_⟩
          rw [List.cons_append, tokens_of_nextToken hblank hcomment hnext, he]
          rfl
        · rw [← hcs, String.ofList_toList] at hlabel
          exact absurd hlabel h
  · -- A string has been read in front of the colon.
    have hnext : nextToken true '"' (name.toList ++ '"' :: [':']) = .ok (.str name, [':']) := by
      rw [nextToken, if_neg (by decide), if_neg (by decide), if_neg (by decide), if_neg (by decide),
        if_pos rfl, takeQuoted_append hname.1]
      rfl
    obtain ⟨e, he⟩ := tokens_concat_colon (List.forall_mem_nil _)
    have hchars : ("\"" ++ name ++ "\"").toList ++ [':']
        = '"' :: (name.toList ++ '"' :: [':']) := by
      simp
    rw [List.nil_append] at he
    refine ⟨e, ?_⟩
    rw [hchars, tokens_of_nextToken (by decide) (by decide) hnext, he]
    rfl

/-- So a line of a name and a colon is a label exactly if the name can be that of one. -/
lemma tokenize_label_iff (hname : Quotable name) :
    tokenize (nameText name ++ ":") = .ok [.label name] ↔ IsLabel name := by
  constructor
  · intro hlex
    by_contra hlabel
    obtain ⟨e, he⟩ := tokenize_of_not_isLabel hname hlabel
    rw [hlex] at he
    cases he
  · intro h
    rw [nameText, if_pos (isPlain_of_isLabel h)]
    exact tokens_label h

/-- The line is taken for what its tokens make it. -/
lemma kind_label (name : String) :
    LineKind.of (nameText name ++ ":") = (tokenize (nameText name ++ ":")).map .ofTokens := by
  obtain ⟨c, cs, hcs, hc, hspace⟩ : ∃ c cs, (nameText name ++ ":").toList = c :: cs ∧
      (c = '"' ∨ isNameChar c = true) ∧ (c ≠ '"' → ' ' ∉ cs) := by
    rw [nameText]
    split_ifs with hplain
    · rw [isPlain, Bool.and_eq_true, List.all_eq_true] at hplain
      obtain ⟨hne, hall⟩ := hplain
      cases hcs : name.toList with
      | nil => simp [hcs] at hne
      | cons c cs =>
        obtain ⟨hc, hcs'⟩ := List.forall_mem_cons.1 (hcs ▸ hall)
        refine ⟨c, cs ++ [':'], by simp [hcs], .inr hc, fun _ hmem => ?_⟩
        rcases List.mem_append.1 hmem with hmem | hmem
        · exact absurd (hcs' _ hmem) (by decide)
        · exact absurd hmem (by decide)
    · exact ⟨'"', name.toList ++ ['"', ':'], by simp, .inl rfl, fun h => absurd rfl h⟩
  have hne : ∀ d : Char, d ≠ '"' → isNameChar d = false → c ≠ d := by
    rintro d hd hchar rfl
    rcases hc with hc | hc
    · exact hd hc
    · simp [hc] at hchar
  have hblank : isBlank c = false := by
    rcases hc with rfl | hc
    · decide
    · exact isBlank_of_isNameChar hc
  -- Nothing is cut off, and the line begins as no other.
  have htrim : trimWhere isBlank (c :: cs) = c :: cs := by
    refine trimWhere_eq_self (fun d hd => Option.some.inj hd ▸ hblank) fun d hd => ?_
    have hlast : (c :: cs).getLast? = some ':' := by
      rw [← hcs, String.toList_append]
      exact List.getLast?_concat
    obtain rfl := Option.some.inj (hlast.symm.trans hd)
    decide
  have hstart : ∀ start : String, start.toList.head? ≠ some '"' → ' ' ∈ start.toList.tail →
      startsWith start (c :: cs) = false := by
    intro start hquote hblank'
    refine startsWith_eq_false fun hprefix => ?_
    cases hs : start.toList with
    | nil => simp [hs] at hblank'
    | cons d ds =>
      rw [hs] at hprefix hquote hblank'
      obtain ⟨rfl, hds⟩ := List.cons_prefix_cons.1 hprefix
      exact hspace (fun h => hquote (h ▸ rfl)) (hds.subset hblank')
  have hmodule : dropStart? "; ModuleID =" (c :: cs) = none := by
    rw [dropStart?, if_neg]
    intro hprefix
    have hhead := (List.cons_prefix_cons.1 (List.isPrefixOf_iff_prefix.1 hprefix)).1
    exact hne ';' (by decide) (by decide) hhead.symm
  have hbang : startsWith "!" (c :: cs) = false :=
    startsWith_eq_false fun hprefix =>
      hne '!' (by decide) (by decide) (List.cons_prefix_cons.1 hprefix).1.symm
  simp only [LineKind.of, hcs, htrim, hmodule, hstart "target " (by decide) (by decide),
    hstart "attributes " (by decide) (by decide), hbang, Bool.or_self, Bool.false_eq_true, if_false]
  split
  · rename_i heq
    exact absurd (List.cons.inj heq).1 (hne '@' (by decide) (by decide))
  · rfl

end Colon

/-! ## Lines of a text -/

/-- The text ends where one of its lines ends. -/
def EndsLine (text : String) : Prop := text = "" ∨ ∃ s, text = s ++ "\n"

/-- The line stands in the text. -/
def HasLine (line text : String) : Prop :=
  ∃ before after, EndsLine before ∧ text = before ++ (line ++ "\n" ++ after)

section Lines

variable {line s s' : String}

lemma EndsLine.append (h : EndsLine s) (h' : EndsLine s') : EndsLine (s ++ s') := by
  rcases h' with rfl | ⟨t, rfl⟩
  · rwa [String.append_empty]
  · exact .inr ⟨s ++ t, (String.append_assoc ..).symm⟩

lemma endsLine_join {ss : List String} (h : ∀ s ∈ ss, EndsLine s) : EndsLine (String.join ss) := by
  induction ss with
  | nil => exact .inl rfl
  | cons s ss ih =>
    obtain ⟨hs, hss⟩ := List.forall_mem_cons.1 h
    rw [String.join_cons]
    exact hs.append (ih hss)

lemma hasLine_self (line after : String) : HasLine line (line ++ "\n" ++ after) :=
  ⟨"", after, .inl rfl, by rw [String.empty_append]⟩

lemma HasLine.behind (h : HasLine line s) (hs' : EndsLine s') : HasLine line (s' ++ s) := by
  obtain ⟨before, after, hbefore, rfl⟩ := h
  exact ⟨s' ++ before, after, hs'.append hbefore, (String.append_assoc ..).symm⟩

lemma HasLine.append (h : HasLine line s) (s' : String) : HasLine line (s ++ s') := by
  obtain ⟨before, after, hbefore, rfl⟩ := h
  exact ⟨before, after ++ s', hbefore, by simp only [String.append_assoc]⟩

lemma HasLine.ne_empty (h : HasLine line s) : s ≠ "" := by
  obtain ⟨before, after, -, rfl⟩ := h
  intro hempty
  have hlength := congrArg String.length hempty
  simp at hlength

lemma hasLine_join {ss : List String} (h : ∀ s ∈ ss, EndsLine s) {s : String} (hs : s ∈ ss)
    (hline : HasLine line s) : HasLine line (String.join ss) := by
  induction ss with
  | nil => cases hs
  | cons t ss ih =>
    obtain ⟨ht, hss⟩ := List.forall_mem_cons.1 h
    rw [String.join_cons]
    rcases List.mem_cons.1 hs with rfl | hs
    · exact hline.append _
    · exact (ih hss hs).behind ht

/-- A character that ends no line belongs to the line behind it. -/
lemma splitLines_cons {c : Char} {cs first : List Char} {more : List (List Char)}
    (hfeed : c ≠ '\n') (hreturn : c = '\r' → cs.head? ≠ some '\n')
    (h : splitLines cs = first :: more) : splitLines (c :: cs) = (c :: first) :: more := by
  conv_lhs => unfold splitLines
  split
  · rename_i heq
    cases heq
  · rename_i tail heq
    obtain ⟨rfl, rfl⟩ := List.cons.inj heq
    exact absurd rfl (hreturn rfl)
  · rename_i d tail _ heq
    obtain ⟨rfl, rfl⟩ := List.cons.inj heq
    rw [if_neg hfeed, h]

/-- What stands behind a line feed falls into the same lines as on its own. -/
lemma splitLines_concat (cs rest : List Char) :
    ∃ first more, splitLines (cs ++ '\n' :: rest) = first :: (more ++ splitLines rest) := by
  induction hn : cs.length using Nat.strong_induction_on generalizing cs with
  | _ n ih =>
    rcases cs with _ | ⟨c, cs⟩
    · exact ⟨[], [], splitLines_newline rest⟩
    by_cases hfeed : c = '\n'
    · obtain ⟨first, more, hsplit⟩ := ih cs.length (by simp [← hn]) cs rfl
      refine ⟨[], first :: more, ?_⟩
      rw [hfeed, List.cons_append, splitLines_newline, hsplit, List.cons_append]
    by_cases hreturn : c = '\r' ∧ (cs ++ '\n' :: rest).head? = some '\n'
    · obtain ⟨rfl, hhead⟩ := hreturn
      rcases cs with _ | ⟨d, cs⟩
      · exact ⟨[], [], by rw [List.cons_append, List.nil_append, splitLines]; rfl⟩
      · obtain rfl := Option.some.inj hhead
        have hshorter : cs.length < n := by
          rw [← hn, List.length_cons, List.length_cons]
          omega
        obtain ⟨first, more, hsplit⟩ := ih cs.length hshorter cs rfl
        refine ⟨[], first :: more, ?_⟩
        rw [List.cons_append, List.cons_append, splitLines, hsplit, List.cons_append]
    · obtain ⟨first, more, hsplit⟩ := ih cs.length (by simp [← hn]) cs rfl
      exact ⟨c :: first, more, splitLines_cons hfeed (fun hc hhead => hreturn ⟨hc, hhead⟩) hsplit⟩

/-- A line that stands in a text is one of its numbered lines. -/
lemma HasLine.exists_number {text : String} (h : HasLine line text) (hline : Clean line) :
    ∃ n, (n, line) ∈ numberedLines text := by
  obtain ⟨before, after, hbefore, rfl⟩ := h
  have hmem : line.toList ∈ splitLines (before ++ (line ++ "\n" ++ after)).toList := by
    have hown : splitLines (line ++ "\n" ++ after).toList
        = line.toList :: splitLines after.toList := by
      rw [← splitLines_append hline.line hline.last]
      simp
    rcases hbefore with rfl | ⟨t, rfl⟩
    · rw [String.empty_append, hown]
      exact List.mem_cons_self
    · obtain ⟨first, more, hsplit⟩ := splitLines_concat t.toList (line ++ "\n" ++ after).toList
      have hchars : (t ++ "\n" ++ (line ++ "\n" ++ after)).toList
          = t.toList ++ '\n' :: (line ++ "\n" ++ after).toList := by simp
      rw [hchars, hsplit, hown]
      simp
  obtain ⟨k, hk, heq⟩ := List.getElem_of_mem hmem
  refine ⟨k + 1, List.mem_map.2 ⟨(line.toList, k), ?_, by simp⟩⟩
  exact List.mem_zipIdx_iff_getElem?.2 (List.getElem?_eq_some_iff.2 ⟨hk, heq⟩)

end Lines

/-! ## Printed labels -/

namespace Printing

variable {p : Printing} {b : BlockId} {block : Block} {name s : String}

/-- A block that has a name is printed under it. -/
lemma labelName_of_name (hblock : p.module.block? b = some block) (hname : block.name = some name) :
    p.labelName b = .ok (nameText name) := by
  simp only [labelName, Module.getBlock_eq_ok.2 hblock, ok_bind, nameOrSlot, hname]
  rfl

lemma endsLine_block (hrun : p.block b = .ok s) : EndsLine s := by
  simp only [Printing.block, bind_eq_ok, pure_eq_ok] at hrun
  obtain ⟨_, -, lines, hlines, rfl⟩ := hrun
  refine endsLine_join fun line hline => ?_
  obtain ⟨i, -, hi⟩ := exists_mem_of_forall₂ (forall₂_of_mapM hlines) line hline
  simp only [bind_eq_ok, pure_eq_ok] at hi
  obtain ⟨_, -, text, -, rfl⟩ := hi
  exact .inr ⟨_, rfl⟩

lemma entryBlock_eq_ok (hrun : p.entryBlock b = .ok s) : ∃ block label body,
    p.module.block? b = some block ∧ p.block b = .ok body ∧ s = label ++ body ∧
      (if block.name.isSome then ∃ l, p.labelName b = .ok l ∧ label = l ++ ":\n"
      else label = "") := by
  simp only [entryBlock, bind_eq_ok, Module.getBlock_eq_ok] at hrun
  obtain ⟨block, hblock, hrun⟩ := hrun
  by_cases hname : block.name.isSome = true
  · simp only [if_pos hname, bind_eq_ok, pure_eq_ok] at hrun
    obtain ⟨l, hl, label, rfl, body, hbody, rfl⟩ := hrun
    exact ⟨block, _, body, hblock, hbody, rfl, by rw [if_pos hname]; exact ⟨l, hl, rfl⟩⟩
  · simp only [if_neg hname, bind_eq_ok, pure_eq_ok] at hrun
    obtain ⟨label, rfl, body, hbody, rfl⟩ := hrun
    exact ⟨block, _, body, hblock, hbody, rfl, by rw [if_neg hname]⟩

lemma laterBlock_eq_ok (hrun : p.laterBlock b = .ok s) : ∃ label body,
    p.labelName b = .ok label ∧ p.block b = .ok body ∧ s = "\n" ++ label ++ ":\n" ++ body := by
  simp only [laterBlock, bind_eq_ok, pure_eq_ok] at hrun
  obtain ⟨label, hlabel, body, hbody, rfl⟩ := hrun
  exact ⟨label, body, hlabel, hbody, rfl⟩

lemma endsLine_label (label : String) : EndsLine (label ++ ":\n") :=
  .inr ⟨label ++ ":", by rw [String.append_assoc]; rfl⟩

lemma endsLine_entryBlock (hrun : p.entryBlock b = .ok s) : EndsLine s := by
  obtain ⟨block, label, body, -, hbody, rfl, hlabel⟩ := entryBlock_eq_ok hrun
  refine EndsLine.append ?_ (endsLine_block hbody)
  split_ifs at hlabel
  · obtain ⟨l, -, rfl⟩ := hlabel
    exact endsLine_label l
  · exact .inl hlabel

lemma endsLine_laterBlock (hrun : p.laterBlock b = .ok s) : EndsLine s := by
  obtain ⟨label, body, -, hbody, rfl⟩ := laterBlock_eq_ok hrun
  exact (endsLine_label _).append (endsLine_block hbody)

lemma hasLine_label (label body : String) : HasLine (label ++ ":") (label ++ ":\n" ++ body) := by
  have htext : label ++ ":" ++ "\n" = label ++ ":\n" := by rw [String.append_assoc]; rfl
  exact htext ▸ hasLine_self (label ++ ":") body

section Labels

variable (hblock : p.module.block? b = some block) (hname : block.name = some name)
include hblock hname

lemma hasLine_entryBlock (hrun : p.entryBlock b = .ok s) : HasLine (nameText name ++ ":") s := by
  obtain ⟨block', label, body, hblock', -, rfl, hlabel⟩ := entryBlock_eq_ok hrun
  obtain rfl := Option.some.inj (hblock.symm.trans hblock')
  rw [hname, if_pos Option.isSome_some, labelName_of_name hblock hname] at hlabel
  obtain ⟨l, hl, rfl⟩ := hlabel
  obtain rfl := Except.ok.inj hl
  exact hasLine_label _ body

lemma hasLine_laterBlock (hrun : p.laterBlock b = .ok s) : HasLine (nameText name ++ ":") s := by
  obtain ⟨label, body, hlabel, -, rfl⟩ := laterBlock_eq_ok hrun
  rw [labelName_of_name hblock hname] at hlabel
  obtain rfl := Except.ok.inj hlabel
  have hline := (hasLine_label (nameText name) body).behind (show EndsLine "\n" from .inr ⟨"", rfl⟩)
  simpa only [String.append_assoc] using hline

lemma hasLine_blocks {bs : List BlockId} (hb : b ∈ bs) (hrun : p.blocks bs = .ok s) :
    HasLine (nameText name ++ ":") s := by
  cases bs with
  | nil => cases hb
  | cons entry rest =>
    simp only [blocks, bind_eq_ok, pure_eq_ok] at hrun
    obtain ⟨first, hfirst, later, hlater, rfl⟩ := hrun
    have hrest := forall₂_of_mapM hlater
    rcases List.mem_cons.1 hb with rfl | hb
    · exact (hasLine_entryBlock hblock hname hfirst).append _
    · obtain ⟨k, hk⟩ := List.mem_iff_getElem?.1 hb
      obtain ⟨t, ht, hrun⟩ := exists_of_forall₂_left hrest hk
      refine (hasLine_join (fun t ht => ?_) (List.mem_of_getElem? ht)
        (hasLine_laterBlock hblock hname hrun)).behind (endsLine_entryBlock hfirst)
      obtain ⟨c, -, hc⟩ := exists_mem_of_forall₂ hrest t ht
      exact endsLine_laterBlock hc

lemma hasLine_definition {func : Func} (hb : b ∈ func.layout) (hrun : p.definition func = .ok s) :
    HasLine (nameText name ++ ":") s := by
  simp only [definition, bind_eq_ok, pure_eq_ok] at hrun
  obtain ⟨params, -, text, htext, rfl⟩ := hrun
  refine ((hasLine_blocks hblock hname (Array.mem_toList_iff.2 hb) htext).behind ?_).append _
  exact .inr ⟨header "define" func params ++ " \x7b", by rw [String.append_assoc]; rfl⟩

end Labels

end Printing

/-- A text is refused if one of its lines is. -/
lemma Outline.exists_error_of_line {text line : String} {n : Nat} {e : LexError}
    (hmem : (n, line) ∈ numberedLines text) (hline : LineKind.of line = .error e) :
    ∃ e', Outline.ofText text = .error e' := by
  cases hrun : Outline.ofText text with
  | error e' => exact ⟨e', rfl⟩
  | ok o =>
    exfalso
    obtain ⟨before, after, hsplit⟩ := List.append_of_mem hmem
    obtain ⟨o₁, hlines, -⟩ := bind_eq_ok.1 hrun
    rw [hsplit, List.foldlM_append, bind_eq_ok] at hlines
    obtain ⟨o₂, -, hlines⟩ := hlines
    rw [List.foldlM_cons, bind_eq_ok] at hlines
    obtain ⟨o₃, hadd, -⟩ := hlines
    simp only [Outline.add, hline, Except.mapError] at hadd
    cases hadd

end Text

namespace Module

open Text

variable {m : Module} {out : String} {func : Func} {b : BlockId} {block : Block} {name : String}

/-- The label of a named block stands on a line of its own. -/
lemma hasLine_toText (hprint : m.toText = .ok out) (hfunc : func ∈ m.functions)
    (hb : b ∈ func.layout) (hblock : m.block? b = some block) (hname : block.name = some name) :
    HasLine (nameText name ++ ":") out := by
  obtain ⟨before, after, hsplit⟩ := List.append_of_mem (Array.mem_toList_iff.2 hfunc)
  simp only [toText, hsplit, List.foldlM_append, List.foldlM_cons, bind_eq_ok] at hprint
  obtain ⟨before', -, out', ⟨text, htext, heq⟩, hafter⟩ := hprint
  obtain rfl := pure_eq_ok.1 heq
  have hdefined : ¬ func.isDeclaration = true := by
    rw [Func.isDeclaration, Array.isEmpty_iff]
    rintro hnil
    simp [hnil] at hb
  rw [funcText, if_neg hdefined] at htext
  have hline := Printing.hasLine_definition (p := ⟨m, m.numbering func⟩) hblock hname hb htext
  refine foldlM_keeps (P := HasLine (nameText name ++ ":")) (fun out f out' h hrun => ?_) ?_ hafter
  · obtain ⟨text', -, heq⟩ := bind_eq_ok.1 hrun
    obtain rfl := pure_eq_ok.1 heq
    rw [afterEmptyLine]
    rw [if_neg h.ne_empty, String.append_assoc]
    exact h.append _
  · rw [afterEmptyLine]
    split_ifs
    · exact hline
    · exact hline.behind (.inr ⟨before', rfl⟩)

/-- The label of a named block is printed on a line of its own, and a reference to the block is read
as its name.  The label is read so exactly if its name can be that of a label; the printed text is
refused otherwise. -/
theorem toText_label (hprint : m.toText = .ok out) (hfunc : func ∈ m.functions)
    (hb : b ∈ func.layout) (hblock : m.block? b = some block) (hname : block.name = some name)
    (hquotable : Quotable name) :
    (∃ n, (n, nameText name ++ ":") ∈ numberedLines out) ∧
    (∃ ref, Printing.labelRef ⟨m, m.numbering func⟩ b = .ok ref ∧
      tokenize ref = .ok [.word "label", .localName name]) ∧
    (tokenize (nameText name ++ ":") = .ok [.label name] ↔ IsLabel name) ∧
    (¬ IsLabel name → (∃ e, tokenize (nameText name ++ ":") = .error e) ∧
      ∃ e, ofText out = .error (.error e)) := by
  have hclean : Clean (nameText name ++ ":") :=
    (clean_nameText hquotable).append ⟨by decide, by decide⟩
  obtain ⟨n, hn⟩ := (hasLine_toText hprint hfunc hb hblock hname).exists_number hclean
  refine ⟨⟨n, hn⟩, ⟨"label " ++ localText name, ?_, ?_⟩, tokenize_label_iff hquotable,
    fun hlabel => ?_⟩
  · have hlabelName := Printing.labelName_of_name (p := ⟨m, m.numbering func⟩) hblock hname
    have htext : "label " ++ localText name = "label %" ++ nameText name := by
      rw [localText, ← String.append_assoc]
      rfl
    rw [htext, Printing.labelRef, hlabelName]
    rfl
  · have hlexes := lexes_append (lexes_word (w := "label") (by decide))
      (lexes_localName hquotable).blank
    have := hlexes.tokens_eq true
    rwa [← String.append_assoc] at this
  · obtain ⟨e, he⟩ := tokenize_of_not_isLabel hquotable hlabel
    have hkind : LineKind.of (nameText name ++ ":") = .error e := by
      rw [kind_label, he]
      rfl
    obtain ⟨e', he'⟩ := Outline.exists_error_of_line hn hkind
    refine ⟨⟨e, he⟩, e', ?_⟩
    rw [ofText, he']
    rfl

/-- A function with a block whose name can be that of a label, and one with a blank in its name. -/
def blankInName : List Op := [
  .addFunc "f" .void [],
  .addBlock ⟨0⟩ none,
  .addBlock ⟨0⟩ (some "loop"),
  .addBlock ⟨0⟩ (some "a b"),
  .build ⟨0⟩ (some ⟨0⟩) (.br ⟨1⟩),
  .build ⟨0⟩ (some ⟨1⟩) (.br ⟨2⟩),
  .build ⟨0⟩ (some ⟨2⟩) (.ret none)]

lemma blankInName_runs : ∃ m func loop block out, Op.runAll (.empty "") blankInName = .ok m ∧
    func ∈ m.functions ∧ ⟨1⟩ ∈ func.layout ∧ ⟨2⟩ ∈ func.layout ∧ m.block? ⟨1⟩ = some loop ∧
    loop.name = some "loop" ∧ m.block? ⟨2⟩ = some block ∧ block.name = some "a b" ∧
    m.toText = .ok out := by
  have hrun : (Op.runAll (.empty "") blankInName).toOption.map (fun m =>
      (m.functions.map Func.layout, (m.block? ⟨1⟩).map Block.name, (m.block? ⟨2⟩).map Block.name,
        m.toText.isOk))
          = some (#[#[⟨0⟩, ⟨1⟩, ⟨2⟩]], some (some "loop"), some (some "a b"), true) := by
    decide +kernel
  obtain ⟨m, hm, heq⟩ := toOption_map_eq_some.1 hrun
  simp only [Prod.mk.injEq, Option.map_eq_some_iff] at heq
  obtain ⟨hlayouts, ⟨loop, hloop, hloopName⟩, ⟨block, hblock, hname⟩, hprint⟩ := heq
  obtain ⟨func, hfunc, hlayout⟩ := Array.mem_map.1 (hlayouts ▸ Array.mem_singleton_self _)
  cases hout : m.toText with
  | error f => simp [hout, Except.isOk, Except.toBool] at hprint
  | ok out =>
    refine ⟨m, func, loop, block, out, hm, hfunc, ?_, ?_, hloop, hloopName, hblock, hname, hout⟩
    · simp [hlayout]
    · simp [hlayout]

/-- The label of the one block is read, and that of the other is refused, and the whole text with
it. -/
theorem toText_label_blankInName : ∃ m out, Op.runAll (.empty "") blankInName = .ok m ∧
    m.toText = .ok out ∧ tokenize (nameText "loop" ++ ":") = .ok [.label "loop"] ∧
    (∃ e, tokenize (nameText "a b" ++ ":") = .error e) ∧ ∃ e, ofText out = .error (.error e) := by
  obtain ⟨m, func, loop, block, out, hm, hfunc, hb₁, hb₂, hloop, hloopName, hblock, hname, hout⟩ :=
    blankInName_runs
  obtain ⟨-, -, hread, -⟩ :=
    toText_label hout hfunc hb₁ hloop hloopName (by decide : Quotable "loop")
  obtain ⟨-, -, -, hrefused⟩ := toText_label hout hfunc hb₂ hblock hname
    (by decide : Quotable "a b")
  exact ⟨m, out, hm, hout, hread.2 (by decide), hrefused (by decide)⟩

/-- So not every label that is printed is read as that label. -/
theorem not_forall_label_reads_back : ¬ ∀ (m : Module) (out : String) (func : Func) (b : BlockId)
    (block : Block) (name : String), Reachable m → m.toText = .ok out → func ∈ m.functions →
    b ∈ func.layout → m.block? b = some block → block.name = some name → Quotable name →
    tokenize (nameText name ++ ":") = .ok [.label name] := by
  intro h
  obtain ⟨m, func, loop, block, out, hm, hfunc, -, hb, -, -, hblock, hname, hout⟩ :=
    blankInName_runs
  have hread := h m out func ⟨2⟩ block "a b" ((Reachable.empty "").runAll hm) hout hfunc hb hblock
    hname (by decide)
  have hrefused : tokenize (nameText "a b" ++ ":") = .error (.unexpectedChar ':') := by
    decide +kernel
  rw [hread] at hrefused
  cases hrefused

end Module
end SsaFold
