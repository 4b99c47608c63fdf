import SsaFold.Text.Blank
import SsaFold.Text.Token

/-!
# Splitting a line into tokens

Blanks separate tokens, and a semicolon outside quotation marks begins a comment.  Each step
takes one token from the front and leaves a shorter rest, which is why the reading ends.
-/

namespace SsaFold.Text

/-- What can be wrong with the characters of a line. -/
inductive LexError where
  /-- A sigil is not followed by a name. -/
  | expectedName (sigil : Char)
  /-- A quotation mark is not closed. -/
  | unterminatedString
  /-- A minus sign is not followed by a digit. -/
  | strayMinus
  /-- A number has more than 64 bits. -/
  | tooLarge (literal : String)
  /-- A character begins no token. -/
  | unexpectedChar (c : Char)
  /-- The name of a global is not followed by its definition. -/
  | expectedDefinition (name : String)
deriving DecidableEq

/-- The text of an error in the given line. -/
def LexError.message (line : String) : LexError → String
  | expectedName sigil => "expected a name after '" ++ sigil.toString ++ "'"
  | unterminatedString => "unterminated string in '" ++ trim line ++ "'"
  | strayMinus => "stray '-' in '" ++ trim line ++ "'"
  | tooLarge literal => "integer literal '" ++ literal ++ "' does not fit in 64 bits"
  | unexpectedChar c =>
      "unexpected character '" ++ c.toString ++ "' in '" ++ trim line ++ "'"
  | expectedDefinition name => "expected '=' after @" ++ name

/-- The number of a literal: it has to fit 64 bits, signed or unsigned, and is read as signed. -/
def literalValue? (n : Int) : Option Int :=
  if -(modulus 64 : Int) ≤ 2 * n ∧ n < modulus 64 then some (n.bmod (modulus 64)) else none

/-- The token of the literal with the given digits. -/
def literal (negative : Bool) (digits : List Char) : Except LexError Token :=
  let n : Int := Nat.ofDigitChars 10 digits 0
  match literalValue? (if negative then -n else n) with
  | some value => .ok (.int value)
  | none => .error (.tooLarge (String.ofList (if negative then '-' :: digits else digits)))

/-- The text up to the quotation mark that closes it, and the rest. -/
def takeQuoted (cs : List Char) : Except LexError (String × List Char) :=
  match cs.dropWhile (· ≠ '"') with
  | _ :: rest => .ok (String.ofList (cs.takeWhile (· ≠ '"')), rest)
  | [] => .error .unterminatedString

/-- The name after a sigil, and the rest. -/
def takeName (sigil : Char) (cs : List Char) : Except LexError (String × List Char) :=
  match cs with
  | '"' :: cs => takeQuoted cs
  | cs =>
    if cs.takeWhile isNameChar = [] then .error (.expectedName sigil)
    else .ok (String.ofList (cs.takeWhile isNameChar), cs.dropWhile isNameChar)

/-- A word or number is a label if it stands first in its line and a colon follows. -/
def labelOr (first : Bool) (text : List Char) (rest : List Char)
    (other : Except LexError Token) : Except LexError (Token × List Char) :=
  match first, rest with
  | true, ':' :: rest => .ok (.label (String.ofList text), rest)
  | _, rest => other.map (·, rest)

/-- The token that begins with `c`, and the rest.  Labels are recognised only at the beginning
of a line. -/
def nextToken (first : Bool) (c : Char) (cs : List Char) : Except LexError (Token × List Char) :=
  if c = '%' then (takeName c cs).map fun (name, rest) => (.localName name, rest)
  else if c = '@' then (takeName c cs).map fun (name, rest) => (.globalName name, rest)
  else if c = '#' then
    .ok (.attrRef (String.ofList (cs.takeWhile Char.isDigit)), cs.dropWhile Char.isDigit)
  else if c = '!' then
    .ok (.metadata (String.ofList (cs.takeWhile isNameChar)), cs.dropWhile isNameChar)
  else if c = '"' then (takeQuoted cs).map fun (text, rest) => (.str text, rest)
  else if c = '.' ∧ cs.take 2 = ['.', '.'] then .ok (.ellipsis, cs.drop 2)
  else if c = '-' then
    if cs.takeWhile Char.isDigit = [] then .error .strayMinus
    else (literal true (cs.takeWhile Char.isDigit)).map (·, cs.dropWhile Char.isDigit)
  else if c.isDigit then
    let digits := c :: cs.takeWhile Char.isDigit
    labelOr first digits (cs.dropWhile Char.isDigit) (literal false digits)
  else if isWordStart c then
    let word := c :: cs.takeWhile isNameChar
    labelOr first word (cs.dropWhile isNameChar) (.ok (.word (String.ofList word)))
  else if c ∈ marks then .ok (.punct c, cs)
  else .error (.unexpectedChar c)

section Lengths

variable {cs rest : List Char} {first : Bool} {c : Char} {token : Token} {name : String}

theorem length_dropWhile_le {α : Type} (p : α → Bool) (l : List α) :
    (l.dropWhile p).length ≤ l.length :=
  (List.dropWhile_sublist p).length_le

theorem takeQuoted_length (h : takeQuoted cs = .ok (name, rest)) : rest.length ≤ cs.length := by
  have hd := length_dropWhile_le (· ≠ '"') cs
  unfold takeQuoted at h
  split at h
  · rename_i hcs
    rw [hcs] at hd
    simp only [Except.ok.injEq, Prod.mk.injEq] at h
    simp only [List.length_cons] at hd
    rw [← h.2]; omega
  · simp at h

theorem takeName_length {sigil : Char} (h : takeName sigil cs = .ok (name, rest)) :
    rest.length ≤ cs.length := by
  unfold takeName at h
  split at h
  · have := takeQuoted_length h
    simp only [List.length_cons]; omega
  · split at h
    · simp at h
    · simp only [Except.ok.injEq, Prod.mk.injEq] at h
      rw [← h.2]; exact length_dropWhile_le _ _

theorem labelOr_length {text : List Char} {other : Except LexError Token}
    (h : labelOr first text cs other = .ok (token, rest)) : rest.length ≤ cs.length := by
  unfold labelOr at h
  split at h
  · simp only [Except.ok.injEq, Prod.mk.injEq] at h
    rw [← h.2]; simp
  · cases other <;> simp [Except.map] at h
    exact h.2 ▸ Nat.le_refl _

/-- A token is at least one character long. -/
theorem nextToken_length (h : nextToken first c cs = .ok (token, rest)) :
    rest.length ≤ cs.length := by
  unfold nextToken at h
  split at h
  · cases hn : takeName c cs with
    | error e => simp [hn, Except.map] at h
    | ok p =>
      simp only [hn, Except.map, Except.ok.injEq, Prod.mk.injEq] at h
      rw [← h.2]; exact takeName_length hn
  split at h
  · cases hn : takeName c cs with
    | error e => simp [hn, Except.map] at h
    | ok p =>
      simp only [hn, Except.map, Except.ok.injEq, Prod.mk.injEq] at h
      rw [← h.2]; exact takeName_length hn
  split at h
  · simp only [Except.ok.injEq, Prod.mk.injEq] at h
    rw [← h.2]; exact length_dropWhile_le _ _
  split at h
  · simp only [Except.ok.injEq, Prod.mk.injEq] at h
    rw [← h.2]; exact length_dropWhile_le _ _
  split at h
  · cases hq : takeQuoted cs with
    | error e => simp [hq, Except.map] at h
    | ok p =>
      simp only [hq, Except.map, Except.ok.injEq, Prod.mk.injEq] at h
      rw [← h.2]; exact takeQuoted_length hq
  split at h
  · simp only [Except.ok.injEq, Prod.mk.injEq] at h
    rw [← h.2, List.length_drop]; omega
  split at h
  · split at h
    · simp at h
    · cases hl : literal true (cs.takeWhile Char.isDigit) with
      | error e => simp [hl, Except.map] at h
      | ok p =>
        simp only [hl, Except.map, Except.ok.injEq, Prod.mk.injEq] at h
        rw [← h.2]; exact length_dropWhile_le _ _
  split at h
  · exact Nat.le_trans (labelOr_length h) (length_dropWhile_le _ _)
  split at h
  · exact Nat.le_trans (labelOr_length h) (length_dropWhile_le _ _)
  split at h
  · simp only [Except.ok.injEq, Prod.mk.injEq] at h
    exact h.2 ▸ Nat.le_refl _
  · simp at h

end Lengths

/-- The tokens of a line; `first` holds as long as none has been read. -/
def tokens (first : Bool) : List Char → Except LexError (List Token)
  | [] => .ok []
  | c :: cs =>
    if isBlank c then tokens first cs
    else if c = ';' then .ok []
    else match _h : nextToken first c cs with
      | .error e => .error e
      | .ok (token, rest) => (tokens false rest).map (token :: ·)
termination_by cs => cs.length
decreasing_by
  · simp
  · have := nextToken_length _h
    simp only [List.length_cons]; omega

/-- The tokens of a line. -/
def tokenize (line : String) : Except LexError (List Token) := tokens true line.toList

/-- The name that a line defines, given what follows its sigil.  Only the part up to the
equals sign is read. -/
def definedName (cs : List Char) : Except LexError String := do
  let (name, rest) ← takeName '@' cs
  match rest.dropWhile isBlank with
  | '=' :: _ => return name
  | _ => throw (.expectedDefinition name)

end SsaFold.Text
