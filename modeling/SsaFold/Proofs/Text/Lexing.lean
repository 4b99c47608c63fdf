import SsaFold.Proofs.Text.Token

/-!
# Splitting printed text

A printed line is put together from pieces, and its tokens are put together from the tokens of the
pieces.  This is so because no token goes on across the border of two pieces: behind a name, a word
or a number there always stands a blank or a mark.

`Lexes` says that a piece is read as certain tokens if nothing follows it that a token could go on
into, and `Follows` that the piece itself may stand behind any other one.  A piece is also `Clean`:
the line that it belongs to ends where it is meant to end.
-/

namespace SsaFold.Text

/-! ## Characters -/

lemma isBlank_of_isNameChar {c : Char} (h : isNameChar c = true) : isBlank c = false := by
  have hrange : 33 ≤ c.toNat ∧ c.toNat ≤ 126 := by
    simp only [isNameChar, Char.isAlphanum, Bool.or_eq_true, isAlpha_iff, isDigit_iff,
      decide_eq_true_eq, List.mem_cons, List.not_mem_nil, or_false] at h
    rcases h with ((h | h) | h) | rfl | rfl | rfl | rfl
    · omega
    · omega
    · omega
    all_goals decide
  simp only [isBlank, blankRanges, List.any_cons, List.any_nil, Bool.or_false, Bool.or_eq_false_iff,
    Bool.and_eq_false_iff, decide_eq_false_iff_not]
  omega

/-- No token goes on into these characters: they begin neither as a name does nor with the colon of
a label. -/
def Stops (cs : List Char) : Prop := ∀ c ∈ cs.head?, isNameChar c = false ∧ c ≠ ':'

lemma stops_nil : Stops [] := by simp [Stops]

lemma stops_cons {c : Char} {cs : List Char} (h : isNameChar c = false) (hc : c ≠ ':') :
    Stops (c :: cs) := by
  rintro d hd
  obtain rfl := Option.some.inj hd
  exact ⟨h, hc⟩

section TakeWhile

variable {p : Char → Bool} {cs rest : List Char}

lemma takeWhile_append_of_stops (hcs : ∀ c ∈ cs, p c = true)
    (hrest : ∀ c ∈ rest.head?, p c = false) :
    (cs ++ rest).takeWhile p = cs := by
  rw [List.takeWhile_append_of_pos hcs]
  cases rest with
  | nil => simp
  | cons c rest => simp [hrest c rfl]

lemma dropWhile_append_of_stops (hcs : ∀ c ∈ cs, p c = true)
    (hrest : ∀ c ∈ rest.head?, p c = false) :
    (cs ++ rest).dropWhile p = rest := by
  rw [List.dropWhile_append_of_pos hcs]
  cases rest with
  | nil => rfl
  | cons c rest => simp [hrest c rfl]

end TakeWhile

lemma Stops.not_isNameChar {cs : List Char} (h : Stops cs) : ∀ c ∈ cs.head?, isNameChar c = false :=
  fun c hc => (h c hc).1

lemma Stops.not_isDigit {cs : List Char} (h : Stops cs) : ∀ c ∈ cs.head?, c.isDigit = false := by
  intro c hc
  by_contra hdigit
  have := isNameChar_of_isDigit (by simpa using hdigit)
  simp [h.not_isNameChar c hc] at this

/-! ## Single tokens -/

section Tokens

variable {first : Bool} {c : Char} {cs rest : List Char} {t : Token}

lemma tokens_blank (h : isBlank c = true) : tokens first (c :: cs) = tokens first cs := by
  rw [tokens, if_pos h]

lemma tokens_of_nextToken (hblank : isBlank c = false) (hcomment : c ≠ ';')
    (h : nextToken first c cs = .ok (t, rest)) :
    tokens first (c :: cs) = (tokens false rest).map (t :: ·) := by
  rw [tokens, if_neg (by simp [hblank]), if_neg hcomment]
  split
  · rename_i e he
    rw [h] at he
    cases he
  · rename_i token rest' htoken
    rw [h] at htoken
    obtain ⟨rfl, rfl⟩ := Prod.mk.inj (Except.ok.inj htoken)
    rfl

lemma tokens_of_error {e : LexError} (hblank : isBlank c = false) (hcomment : c ≠ ';')
    (h : nextToken first c cs = .error e) : tokens first (c :: cs) = .error e := by
  rw [tokens, if_neg (by simp [hblank]), if_neg hcomment]
  split
  · rename_i e' he
    rw [h] at he
    rw [Except.error.inj he]
  · rename_i token rest' htoken
    rw [h] at htoken
    cases htoken

lemma nextToken_mark (hc : c ∈ marks) : nextToken first c cs = .ok (.punct c, cs) := by
  simp only [marks, List.mem_cons, List.not_mem_nil, or_false] at hc
  rcases hc with rfl | rfl | rfl | rfl | rfl | rfl | rfl | rfl <;> rfl

/-- Without a colon, or behind another token, a word or number is no label. -/
lemma labelOr_of_not {text : List Char} {other : Except LexError Token}
    (h : first = true → rest.head? ≠ some ':') :
    labelOr first text rest other = other.map (·, rest) := by
  unfold labelOr
  split
  · exact absurd rfl (h rfl)
  · rfl

lemma labelOr_of_stops {text : List Char} {other : Except LexError Token} (h : Stops rest) :
    labelOr first text rest other = other.map (·, rest) :=
  labelOr_of_not fun _ hcolon => (h ':' hcolon).2 rfl

/-- A character that begins a word begins no other token, dots apart. -/
lemma nextToken_word (hc : isWordStart c = true) (hdots : ¬ (c = '.' ∧ cs.take 2 = ['.', '.'])) :
    nextToken first c cs = labelOr first (c :: cs.takeWhile isNameChar) (cs.dropWhile isNameChar)
      (.ok (.word (String.ofList (c :: cs.takeWhile isNameChar)))) := by
  have hne : ∀ d, isWordStart d = false → c ≠ d := by
    rintro d hd rfl
    simp [hc] at hd
  rw [nextToken, if_neg (hne '%' (by decide)), if_neg (hne '@' (by decide)),
    if_neg (hne '#' (by decide)), if_neg (hne '!' (by decide)), if_neg (hne '"' (by decide)),
    if_neg hdots, if_neg (hne '-' (by decide)), if_neg (by simp [not_isDigit_of_isWordStart hc]),
    if_pos hc]

lemma nextToken_minus : nextToken first '-' cs =
    if cs.takeWhile Char.isDigit = [] then .error .strayMinus
    else (literal true (cs.takeWhile Char.isDigit)).map (·, cs.dropWhile Char.isDigit) := by
  rw [nextToken, if_neg (by decide), if_neg (by decide), if_neg (by decide), if_neg (by decide),
    if_neg (by decide), if_neg (by simp), if_pos rfl]

lemma nextToken_digit (hc : c.isDigit = true) : nextToken first c cs =
    labelOr first (c :: cs.takeWhile Char.isDigit) (cs.dropWhile Char.isDigit)
      (literal false (c :: cs.takeWhile Char.isDigit)) := by
  have hne : ∀ d : Char, d.isDigit = false → c ≠ d := by
    rintro d hd rfl
    simp [hc] at hd
  rw [nextToken, if_neg (hne '%' (by decide)), if_neg (hne '@' (by decide)),
    if_neg (hne '#' (by decide)), if_neg (hne '!' (by decide)), if_neg (hne '"' (by decide)),
    if_neg (fun h => hne '.' (by decide) h.1), if_neg (hne '-' (by decide)), if_pos hc]

end Tokens

/-! ## Clean text -/

/-- No line ends in the text, and a line that ends behind it ends with a line feed only. -/
structure Clean (s : String) : Prop where
  line : '\n' ∉ s.toList
  last : s.toList.getLast? ≠ some '\r'

section Clean

variable {s s' : String}

lemma Clean.append (h : Clean s) (h' : Clean s') : Clean (s ++ s') := by
  refine ⟨fun hmem => ?_, fun hlast => ?_⟩
  · rw [String.toList_append, List.mem_append] at hmem
    exact hmem.elim h.line h'.line
  · rw [String.toList_append, List.getLast?_append, Option.or_eq_some_iff] at hlast
    exact hlast.elim h'.last fun hs => h.last hs.2

lemma clean_of_isNameChar (h : ∀ c ∈ s.toList, isNameChar c = true) : Clean s := by
  refine ⟨fun hmem => absurd (h _ hmem) (by decide), fun hlast => ?_⟩
  exact absurd (h _ (List.mem_of_getLast? hlast)) (by decide)

lemma clean_quoted (h : Quotable s) : Clean ("\"" ++ s ++ "\"") := by
  refine ⟨fun hmem => ?_, fun hlast => ?_⟩
  · simp only [String.toList_append, List.mem_append] at hmem
    rcases hmem with (hmem | hmem) | hmem
    · exact absurd hmem (by decide)
    · exact h.2 hmem
    · exact absurd hmem (by decide)
  · have hquote : "\"".toList = ['"'] := rfl
    rw [String.toList_append, hquote, List.getLast?_concat] at hlast
    exact absurd (Option.some.inj hlast) (by decide)

lemma clean_nameText (h : Quotable s) : Clean (nameText s) := by
  rw [nameText]
  split_ifs with hplain
  · simp only [isPlain, Bool.and_eq_true, List.all_eq_true] at hplain
    exact clean_of_isNameChar hplain.2
  · exact clean_quoted h

end Clean

/-! ## Pieces -/

/-- The text is read as the tokens, if nothing follows that a token could go on into. -/
structure Lexes (s : String) (ts : List Token) : Prop where
  clean : Clean s
  reads : ∀ first rest, Stops rest →
    tokens first (s.toList ++ rest) = (tokens (first && ts.isEmpty) rest).map (ts ++ ·)

/-- So is the text also behind other text. -/
structure Follows (s : String) (ts : List Token) : Prop where
  lexes : Lexes s ts
  stops : ∀ rest, Stops rest → Stops (s.toList ++ rest)

section Pieces

variable {s s' : String} {ts ts' : List Token}

lemma Lexes.tokens_eq (h : Lexes s ts) (first : Bool) : tokens first s.toList = .ok ts := by
  have := h.reads first [] stops_nil
  rw [List.append_nil] at this
  rw [this, tokens]
  simp [Except.map]

lemma lexes_append (h : Lexes s ts) (h' : Follows s' ts') : Lexes (s ++ s') (ts ++ ts') := by
  refine ⟨h.clean.append h'.lexes.clean, fun first rest hrest => ?_⟩
  have hempty : (ts ++ ts').isEmpty = (ts.isEmpty && ts'.isEmpty) := by cases ts <;> rfl
  rw [String.toList_append, List.append_assoc, h.reads first _ (h'.stops rest hrest),
    h'.lexes.reads _ rest hrest, hempty, Bool.and_assoc]
  cases tokens (first && (ts.isEmpty && ts'.isEmpty)) rest with
  | error e => rfl
  | ok more => simp [Except.map]

lemma follows_append (h : Follows s ts) (h' : Follows s' ts') : Follows (s ++ s') (ts ++ ts') := by
  refine ⟨lexes_append h.lexes h', fun rest hrest => ?_⟩
  rw [String.toList_append, List.append_assoc]
  exact h.stops _ (h'.stops rest hrest)

lemma follows_empty : Follows "" [] := by
  refine ⟨⟨⟨by decide, by decide⟩, fun first rest _ => ?_⟩, fun rest hrest => hrest⟩
  cases h : tokens first rest <;> simp [h, Except.map]

/-- A blank stops a token and is none. -/
lemma Lexes.blank (h : Lexes s ts) : Follows (" " ++ s) ts := by
  refine ⟨⟨.append ⟨by decide, by decide⟩ h.clean, fun first rest hrest => ?_⟩,
    fun rest hrest => ?_⟩
  · rw [String.toList_append, List.append_assoc, ← h.reads first rest hrest]
    exact tokens_blank (by decide)
  · rw [String.toList_append, List.append_assoc]
    exact stops_cons (by decide) (by decide)

/-- A mark stops a token and is one. -/
lemma Lexes.mark {c : Char} (h : Lexes s ts) (hc : c ∈ marks) (hs : s'.toList = c :: s.toList) :
    Follows s' (.punct c :: ts) := by
  have hchar : isBlank c = false ∧ c ≠ ';' ∧ isNameChar c = false ∧ c ≠ ':' := by
    simp only [marks, List.mem_cons, List.not_mem_nil, or_false] at hc
    rcases hc with rfl | rfl | rfl | rfl | rfl | rfl | rfl | rfl <;> decide
  obtain ⟨hblank, hcomment, hname, hcolon⟩ := hchar
  have hend : ∀ d, isBlank d = true → d ≠ c := by
    rintro d hd rfl
    simp [hblank] at hd
  have hclean : Clean s' := by
    refine ⟨fun hmem => ?_, fun hlast => ?_⟩
    · rw [hs, List.mem_cons] at hmem
      exact hmem.elim (hend _ (by decide)) h.clean.line
    · rw [hs, ← List.singleton_append, List.getLast?_append, Option.or_eq_some_iff] at hlast
      exact hlast.elim h.clean.last fun hc => hend _ (by decide) (Option.some.inj hc.2).symm
  refine ⟨⟨hclean, fun first rest hrest => ?_⟩, fun rest hrest => ?_⟩
  · rw [hs, List.cons_append, tokens_of_nextToken hblank hcomment (nextToken_mark hc),
      h.reads false rest hrest, List.isEmpty_cons, Bool.and_false]
    cases h : tokens false rest <;> simp [h, Except.map]
  · rw [hs]
    exact stops_cons hname hcolon

lemma Lexes.comma (h : Lexes s ts) : Follows (", " ++ s) (.punct ',' :: ts) :=
  h.blank.lexes.mark (by decide) (by simp)

/-- A text that is one token. -/
lemma lexes_token {c : Char} {cs : List Char} {t : Token} (hs : s.toList = c :: cs)
    (hclean : Clean s) (hblank : isBlank c = false) (hcomment : c ≠ ';')
    (h : ∀ first rest, Stops rest → nextToken first c (cs ++ rest) = .ok (t, rest)) :
    Lexes s [t] := by
  refine ⟨hclean, fun first rest hrest => ?_⟩
  rw [hs, List.cons_append, tokens_of_nextToken hblank hcomment (h first rest hrest)]
  cases first <;> rfl

end Pieces

/-! ## Words and names -/

/-- What follows a word does not make dots of it. -/
lemma not_dots_append {c : Char} {cs rest : List Char} (h : ¬ (c = '.' ∧ cs.take 2 = ['.', '.']))
    (hrest : ∀ c ∈ rest.head?, isNameChar c = false) :
    ¬ (c = '.' ∧ (cs ++ rest).take 2 = ['.', '.']) := by
  have hdot : rest.head? ≠ some '.' := fun hhead => absurd (hrest '.' hhead) (by decide)
  rintro ⟨rfl, htake⟩
  rcases cs with _ | ⟨d, _ | ⟨e, cs⟩⟩
  · rcases rest with _ | ⟨d, rest⟩
    · simp at htake
    · simp only [List.nil_append, List.take_succ_cons, List.cons.injEq] at htake
      exact hdot (congrArg some htake.1)
  · rcases rest with _ | ⟨e, rest⟩
    · simp at htake
    · simp only [List.cons_append, List.nil_append, List.take_succ_cons, List.cons.injEq] at htake
      exact hdot (congrArg some htake.2.1)
  · exact h ⟨rfl, htake⟩

lemma lexes_word {w : String} (h : IsWord w) : Lexes w [.word w] := by
  obtain ⟨c, cs, hw, hstart, hcs, hdots⟩ := h
  have hchar := isNameChar_of_isWordStart hstart
  have hclean : Clean w := clean_of_isNameChar (hw ▸ List.forall_mem_cons.2 ⟨hchar, hcs⟩)
  refine lexes_token hw hclean (isBlank_of_isNameChar hchar) ?_
    fun first rest hrest => ?_
  · rintro rfl
    simp [isWordStart] at hstart
  · rw [nextToken_word hstart (not_dots_append hdots hrest.not_isNameChar),
      takeWhile_append_of_stops hcs hrest.not_isNameChar,
      dropWhile_append_of_stops hcs hrest.not_isNameChar, labelOr_of_stops hrest, ← hw,
      String.ofList_toList]
    rfl

lemma takeQuoted_append {s : String} {rest : List Char} (h : '"' ∉ s.toList) :
    takeQuoted (s.toList ++ '"' :: rest) = .ok (s, rest) := by
  have hs : ∀ c ∈ s.toList, (decide (c ≠ '"')) = true := fun c hc =>
    decide_eq_true fun heq => h (heq ▸ hc)
  have hrest : ∀ c ∈ ('"' :: rest).head?, (decide (c ≠ '"')) = false := by simp
  rw [takeQuoted, dropWhile_append_of_stops hs hrest, takeWhile_append_of_stops hs hrest,
    String.ofList_toList]

/-- A name is read back, quoted or not. -/
lemma takeName_nameText {s : String} {rest : List Char} (sigil : Char) (h : Quotable s)
    (hrest : Stops rest) : takeName sigil ((nameText s).toList ++ rest) = .ok (s, rest) := by
  rw [nameText]
  split_ifs with hplain
  · simp only [isPlain, Bool.and_eq_true, Bool.not_eq_true', List.isEmpty_eq_false_iff,
      List.all_eq_true] at hplain
    obtain ⟨hne, hall⟩ := hplain
    have htake := takeWhile_append_of_stops hall hrest.not_isNameChar
    have hdrop := dropWhile_append_of_stops hall hrest.not_isNameChar
    unfold takeName
    split
    · rename_i cs heq
      obtain ⟨c, cs', hs⟩ := List.exists_cons_of_ne_nil hne
      rw [hs, List.cons_append] at heq
      have := hall c (by simp [hs])
      rw [(List.cons.inj heq).1] at this
      exact absurd this (by decide)
    · rw [htake, hdrop, if_neg hne, String.ofList_toList]
  · have hquoted : ("\"" ++ s ++ "\"").toList ++ rest = '"' :: (s.toList ++ '"' :: rest) := by simp
    rw [hquoted, takeName]
    exact takeQuoted_append h.1

lemma lexes_localName {s : String} (h : Quotable s) : Lexes (localText s) [.localName s] := by
  refine lexes_token (show (localText s).toList = '%' :: (nameText s).toList by simp [localText])
    (.append ⟨by decide, by decide⟩ (clean_nameText h)) (by decide) (by decide)
      fun first rest hrest => ?_
  rw [nextToken, if_pos rfl, takeName_nameText '%' h hrest]
  rfl

lemma lexes_globalName {s : String} (h : Quotable s) : Lexes (globalText s) [.globalName s] := by
  refine lexes_token (show (globalText s).toList = '@' :: (nameText s).toList by simp [globalText])
    (.append ⟨by decide, by decide⟩ (clean_nameText h)) (by decide) (by decide)
      fun first rest hrest => ?_
  rw [nextToken, if_neg (by decide), if_pos rfl, takeName_nameText '@' h hrest]
  rfl

lemma lexes_str {s : String} (h : Quotable s) : Lexes ("\"" ++ s ++ "\"") [.str s] := by
  have hchars : ("\"" ++ s ++ "\"").toList = '"' :: (s.toList ++ ['"']) := by simp
  refine lexes_token hchars (clean_quoted h) (by decide) (by decide) fun first rest hrest => ?_
  rw [nextToken, if_neg (by decide), if_neg (by decide), if_neg (by decide), if_neg (by decide),
    if_pos rfl, List.append_assoc, List.singleton_append, takeQuoted_append h.1]
  rfl

lemma lexes_attrRef {digits : String} (h : ∀ c ∈ digits.toList, c.isDigit = true) :
    Lexes ("#" ++ digits) [.attrRef digits] := by
  have hclean := clean_of_isNameChar fun c hc => isNameChar_of_isDigit (h c hc)
  refine lexes_token (show ("#" ++ digits).toList = '#' :: digits.toList by simp)
    (.append ⟨by decide, by decide⟩ hclean) (by decide) (by decide) fun first rest hrest => ?_
  rw [nextToken, if_neg (by decide), if_neg (by decide), if_pos rfl,
    takeWhile_append_of_stops h hrest.not_isDigit, dropWhile_append_of_stops h hrest.not_isDigit,
    String.ofList_toList]

lemma lexes_ellipsis : Lexes "..." [.ellipsis] := by
  refine lexes_token (show "...".toList = ['.', '.', '.'] by simp) ⟨by decide, by decide⟩
    (by decide) (by decide)
    fun first rest _ => ?_
  rw [nextToken, if_neg (by decide), if_neg (by decide), if_neg (by decide), if_neg (by decide),
    if_neg (by decide), if_pos ⟨rfl, rfl⟩]
  rfl

/-! ## Numbers -/

lemma isDigit_toDigits (n : Nat) : ∀ c ∈ Nat.toDigits 10 n, c.isDigit = true := fun _ hc =>
  Nat.isDigit_of_mem_toDigits (by decide) (by decide) hc

lemma toList_toString (n : Nat) : (toString n).toList = Nat.toDigits 10 n := by
  rw [Nat.toString_eq_repr, Nat.toList_repr]

lemma clean_toString (n : Nat) : Clean (toString n) :=
  clean_of_isNameChar fun c hc =>
    isNameChar_of_isDigit (isDigit_toDigits n c (toList_toString n ▸ hc))

/-- A number that fits 64 bits as a signed number is read as it is. -/
lemma literalValue?_eq {n : Int} (hlower : -(modulus 64 : Int) ≤ 2 * n)
    (hupper : 2 * n < modulus 64) :
    literalValue? n = some n := by
  have hmod : (modulus 64 : Int) = 18446744073709551616 := rfl
  have hbmod : n.bmod (modulus 64) = n := by
    rw [hmod] at hlower hupper
    exact Int.bmod_eq_of_le (by show -((18446744073709551616 : Nat) : Int) / 2 ≤ n; omega)
      (by show n < (((18446744073709551616 : Nat) : Int) + 1) / 2; omega)
  rw [literalValue?, if_pos ⟨hlower, by omega⟩, hbmod]

lemma lexes_nat {n : Nat} (h : 2 * n < modulus 64) : Lexes (toString n) [.int n] := by
  obtain ⟨c, cs, hcs⟩ := List.exists_cons_of_ne_nil (Nat.toDigits_ne_nil (b := 10) (n := n))
  have hdigits := isDigit_toDigits n
  rw [hcs] at hdigits
  obtain ⟨hc, hall⟩ := List.forall_mem_cons.1 hdigits
  refine lexes_token ((toList_toString n).trans hcs) (clean_toString n)
    (isBlank_of_isNameChar (isNameChar_of_isDigit hc)) ?_ fun first rest hrest => ?_
  · rintro rfl
    exact absurd hc (by decide)
  · have hliteral : literal false (c :: cs) = .ok (.int n) := by
      rw [literal, ← hcs, Nat.ofDigitChars_toDigits (by decide) (by decide)]
      simp only [Bool.false_eq_true, if_false]
      rw [literalValue?_eq (by omega) (by exact_mod_cast h)]
    rw [nextToken_digit hc, takeWhile_append_of_stops hall hrest.not_isDigit,
      dropWhile_append_of_stops hall hrest.not_isDigit, labelOr_of_stops hrest, hliteral]
    rfl

lemma lexes_int {n : Int} (hlower : -(modulus 64 : Int) ≤ 2 * n) (hupper : 2 * n < modulus 64) :
    Lexes (toString n) [.int n] := by
  cases n with
  | ofNat k =>
    rw [Int.ofNat_eq_natCast] at hupper
    exact lexes_nat (by omega)
  | negSucc k =>
    have htext : toString (Int.negSucc k) = "-" ++ toString (k + 1) := rfl
    have hlist : (toString (Int.negSucc k)).toList = '-' :: Nat.toDigits 10 (k + 1) := by
      rw [htext, String.toList_append, toList_toString]
      rfl
    have hclean : Clean (toString (Int.negSucc k)) :=
      htext ▸ .append ⟨by decide, by decide⟩ (clean_toString _)
    refine lexes_token hlist hclean (by decide) (by decide) fun first rest hrest => ?_
    have hliteral : literal true (Nat.toDigits 10 (k + 1)) = .ok (.int (Int.negSucc k)) := by
      rw [literal, Nat.ofDigitChars_toDigits (by decide) (by decide)]
      have hneg : -((k + 1 : Nat) : Int) = Int.negSucc k := rfl
      simp only [if_true]
      rw [hneg, literalValue?_eq hlower hupper]
    rw [nextToken_minus, takeWhile_append_of_stops (isDigit_toDigits _) hrest.not_isDigit,
      dropWhile_append_of_stops (isDigit_toDigits _) hrest.not_isDigit,
      if_neg Nat.toDigits_ne_nil, hliteral]
    rfl

/-! ## Labels -/

/-- A word or number with a colon behind it is a label. -/
lemma tokens_label {s : String} (h : IsLabel s) :
    tokens true (s ++ ":").toList = .ok [.label s] := by
  have hstop : ∀ c ∈ [':'].head?, isNameChar c = false := by
    intro c hc
    obtain rfl := Option.some.inj hc
    decide
  obtain ⟨c, cs, hs, hchar, hnext⟩ : ∃ c cs, s.toList = c :: cs ∧ isNameChar c = true ∧
      nextToken true c (cs ++ [':']) = .ok (.label s, []) := by
    rcases h with ⟨c, cs, hs, hstart, hcs, hdots⟩ | hnumbered
    · refine ⟨c, cs, hs, isNameChar_of_isWordStart hstart, ?_⟩
      rw [nextToken_word hstart (not_dots_append hdots hstop), takeWhile_append_of_stops hcs hstop,
        dropWhile_append_of_stops hcs hstop, ← hs, String.ofList_toList]
      simp [labelOr]
    · simp only [isNumbered, Bool.and_eq_true, Bool.not_eq_true', List.isEmpty_eq_false_iff,
        List.all_eq_true] at hnumbered
      obtain ⟨hne, hall⟩ := hnumbered
      obtain ⟨c, cs, hs⟩ := List.exists_cons_of_ne_nil hne
      rw [hs] at hall
      obtain ⟨hc, hcs⟩ := List.forall_mem_cons.1 hall
      have hstop' : ∀ c ∈ [':'].head?, c.isDigit = false := by
        intro c hc
        obtain rfl := Option.some.inj hc
        decide
      refine ⟨c, cs, hs, isNameChar_of_isDigit hc, ?_⟩
      rw [nextToken_digit hc, takeWhile_append_of_stops hcs hstop',
        dropWhile_append_of_stops hcs hstop', ← hs]
      simp [labelOr]
  have htext : (s ++ ":").toList = c :: (cs ++ [':']) := by simp [hs]
  have hcomment : c ≠ ';' := by
    rintro rfl
    exact absurd hchar (by decide)
  rw [htext, tokens_of_nextToken (isBlank_of_isNameChar hchar) hcomment hnext, tokens]
  rfl

/-! ## Lists -/

section Lists

variable {ss : List String} {tss : List (List Token)}

/-- Pieces with blanks between them. -/
lemma lexes_intercalate_blank (h : List.Forall₂ Lexes ss tss) :
    Lexes (" ".intercalate ss) tss.flatten := by
  induction h with
  | nil => exact follows_empty.lexes
  | @cons s ts ss tss hs hss ih =>
    cases hss with
    | nil => simpa using hs
    | @cons s' ts' ss tss hs' hss =>
      rw [String.intercalate_cons_cons, String.append_assoc, List.flatten_cons]
      exact lexes_append hs ih.blank

/-- Pieces with commas between them. -/
lemma lexes_intercalate_comma (h : List.Forall₂ Lexes ss tss) :
    Lexes (", ".intercalate ss) (List.intercalate [.punct ','] tss) := by
  induction h with
  | nil => exact follows_empty.lexes
  | @cons s ts ss tss hs hss ih =>
    cases hss with
    | nil => simpa using hs
    | @cons s' ts' ss tss hs' hss =>
      rw [String.intercalate_cons_cons, String.append_assoc, List.intercalate_cons_cons,
        List.append_assoc]
      exact lexes_append hs ih.comma

end Lists

end SsaFold.Text
