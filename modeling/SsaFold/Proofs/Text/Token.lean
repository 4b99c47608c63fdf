import Mathlib.Data.List.TakeWhile
import SsaFold.Proofs.Outcome
import SsaFold.Text.Lexer

/-!
# What the lexer returns

A token carries text, and not every text can be in every token: a name never holds a quotation
mark, a bare word is not taken for something else, and no token holds the end of a line.
`Token.Valid` says what a token may carry, and all tokens of a line are valid (`valid_of_tokenize`).
A text that some valid token has carried can be written again.
-/

namespace SsaFold.Text

/-! ## Texts that tokens carry -/

/-- The text may stand between quotation marks in a line. -/
def Quotable (s : String) : Prop := '"' ∉ s.toList ∧ '\n' ∉ s.toList

instance (s : String) : Decidable (Quotable s) := inferInstanceAs (Decidable (_ ∧ _))

/-- The characters make up one word: it begins as words do, and not with three dots. -/
def IsWord (w : String) : Prop :=
  ∃ c cs, w.toList = c :: cs ∧ isWordStart c = true ∧ (∀ d ∈ cs, isNameChar d = true) ∧
    ¬ (c = '.' ∧ cs.take 2 = ['.', '.'])

/-- The characters make up one word, as a check. -/
def isWordText : List Char → Bool
  | c :: cs => isWordStart c && cs.all isNameChar && decide (¬ (c = '.' ∧ cs.take 2 = ['.', '.']))
  | [] => false

lemma isWord_iff {w : String} : IsWord w ↔ isWordText w.toList = true := by
  cases hw : w.toList with
  | nil => simp [IsWord, hw, isWordText]
  | cons c cs =>
    simp only [IsWord, hw, isWordText, List.cons.injEq, Bool.and_eq_true, List.all_eq_true,
      decide_eq_true_eq, and_assoc, exists_eq_left', exists_and_left]

instance (w : String) : Decidable (IsWord w) := decidable_of_iff _ isWord_iff.symm

/-- The text can stand in front of the colon of a label. -/
def IsLabel (s : String) : Prop := IsWord s ∨ isNumbered s = true

instance (s : String) : Decidable (IsLabel s) := inferInstanceAs (Decidable (_ ∨ _))

/-- The token carries a text that a token of its kind may carry. -/
def Token.Valid : Token → Prop
  | .localName s | .globalName s | .str s => Quotable s
  | .word w => IsWord w
  | .label s => IsLabel s
  | .attrRef digits => ∀ c ∈ digits.toList, c.isDigit = true
  | .int _ | .metadata _ | .punct _ | .ellipsis => True

section Characters

variable {c : Char}

lemma isNameChar_of_isDigit (h : c.isDigit = true) : isNameChar c = true := by
  simp [isNameChar, Char.isAlphanum, h]

lemma isNameChar_of_isWordStart (h : isWordStart c = true) : isNameChar c = true := by
  simp only [isWordStart, Bool.or_eq_true, List.mem_cons, List.not_mem_nil, or_false,
    decide_eq_true_eq] at h
  rcases h with h | rfl | rfl | rfl
  · simp [isNameChar, Char.isAlphanum, h]
  all_goals decide

/-- The letters by their numbers. -/
lemma isAlpha_iff : c.isAlpha = true ↔
    (65 ≤ c.toNat ∧ c.toNat ≤ 90) ∨ (97 ≤ c.toNat ∧ c.toNat ≤ 122) := by
  have hranges : c.isAlpha = (decide ('A'.val ≤ c.val ∧ c.val ≤ 'Z'.val) ||
      (decide ('a'.val ≤ c.val) && decide (c.val ≤ 'z'.val))) := rfl
  rw [hranges]
  simp only [Bool.or_eq_true, Bool.and_eq_true, decide_eq_true_eq, UInt32.le_iff_toNat_le]
  rfl

lemma isDigit_iff : c.isDigit = true ↔ 48 ≤ c.toNat ∧ c.toNat ≤ 57 := by
  have hrange : c.isDigit = (decide ('0'.val ≤ c.val) && decide (c.val ≤ '9'.val)) := rfl
  rw [hrange]
  simp only [Bool.and_eq_true, decide_eq_true_eq, UInt32.le_iff_toNat_le]
  rfl

lemma not_isDigit_of_isWordStart (h : isWordStart c = true) : c.isDigit = false := by
  simp only [isWordStart, Bool.or_eq_true, List.mem_cons, List.not_mem_nil, or_false,
    decide_eq_true_eq] at h
  rcases h with h | rfl | rfl | rfl
  · rw [isAlpha_iff] at h
    rw [← Bool.not_eq_true, isDigit_iff]
    omega
  all_goals decide

/-- Characters of names are neither quotation marks nor ends of lines. -/
lemma quotable_of_isNameChar {cs : List Char} (h : ∀ c ∈ cs, isNameChar c = true) :
    Quotable (String.ofList cs) := by
  constructor <;> intro hmem <;> exact absurd (h _ (by simpa using hmem)) (by decide)

end Characters

/-! ## Tokens of a line -/

section Lexer

variable {cs rest : List Char} {first : Bool} {c : Char} {token : Token} {name : String}

lemma mem_of_mem_dropWhile {α : Type} {p : α → Bool} {l : List α} {a : α}
    (h : a ∈ l.dropWhile p) : a ∈ l :=
  (List.dropWhile_sublist p).subset h

lemma takeQuoted_valid (hline : '\n' ∉ cs) (h : takeQuoted cs = .ok (name, rest)) :
    Quotable name ∧ '\n' ∉ rest := by
  unfold takeQuoted at h
  split at h
  · rename_i d tail hdrop
    simp only [Except.ok.injEq, Prod.mk.injEq] at h
    obtain ⟨rfl, rfl⟩ := h
    refine ⟨⟨fun hmem => ?_, fun hmem => ?_⟩, fun hmem => hline ?_⟩
    · have := List.mem_takeWhile_imp (String.toList_ofList ▸ hmem)
      simp at this
    · exact hline ((List.takeWhile_sublist _).subset (String.toList_ofList ▸ hmem))
    · exact mem_of_mem_dropWhile (hdrop ▸ List.mem_cons_of_mem d hmem)
  · cases h

lemma takeName_valid {sigil : Char} (hline : '\n' ∉ cs)
    (h : takeName sigil cs = .ok (name, rest)) : Quotable name ∧ '\n' ∉ rest := by
  unfold takeName at h
  split at h
  · exact takeQuoted_valid (fun hmem => hline (List.mem_cons_of_mem _ hmem)) h
  · split_ifs at h
    simp only [Except.ok.injEq, Prod.mk.injEq] at h
    obtain ⟨rfl, rfl⟩ := h
    exact ⟨quotable_of_isNameChar fun c hc => List.mem_takeWhile_imp hc,
      fun hmem => hline (mem_of_mem_dropWhile hmem)⟩

lemma labelOr_valid {text : List Char} {other : Except LexError Token} (hline : '\n' ∉ cs)
    (hlabel : IsLabel (String.ofList text)) (hother : ∀ t, other = .ok t → t.Valid)
    (h : labelOr first text cs other = .ok (token, rest)) : token.Valid ∧ '\n' ∉ rest := by
  unfold labelOr at h
  split at h
  · simp only [Except.ok.injEq, Prod.mk.injEq] at h
    obtain ⟨rfl, rfl⟩ := h
    exact ⟨hlabel, fun hmem => hline (List.mem_cons_of_mem _ hmem)⟩
  · cases other with
    | error e => simp [Except.map] at h
    | ok t =>
      simp only [Except.map, Except.ok.injEq, Prod.mk.injEq] at h
      obtain ⟨rfl, rfl⟩ := h
      exact ⟨hother t rfl, hline⟩

lemma literal_valid {negative : Bool} {digits : List Char}
    (h : literal negative digits = .ok token) : token.Valid := by
  simp only [literal] at h
  split at h
  · rw [← Except.ok.inj h]
    trivial
  · cases h

lemma map_eq_ok_iff {ε α β : Type} {x : Except ε α} {f : α → β} {b : β} :
    x.map f = .ok b ↔ ∃ a, x = .ok a ∧ f a = b := by
  cases x <;> simp [Except.map]

/-- The next token is valid, and what is left is still part of one line. -/
lemma nextToken_valid (hline : '\n' ∉ c :: cs) (h : nextToken first c cs = .ok (token, rest)) :
    token.Valid ∧ '\n' ∉ rest := by
  have hcs : '\n' ∉ cs := fun hmem => hline (List.mem_cons_of_mem c hmem)
  have hdrop : ∀ p : Char → Bool, '\n' ∉ cs.dropWhile p := fun p hmem =>
    hcs (mem_of_mem_dropWhile hmem)
  unfold nextToken at h
  split_ifs at h with hlocal hglobal hattr hmeta hstr hdots hminus hnone hdigit hword hmark
  · -- a local name
    obtain ⟨⟨name, tail⟩, hname, heq⟩ := map_eq_ok_iff.1 h
    obtain ⟨rfl, rfl⟩ := Prod.mk.inj heq
    exact takeName_valid hcs hname
  · -- a global name
    obtain ⟨⟨name, tail⟩, hname, heq⟩ := map_eq_ok_iff.1 h
    obtain ⟨rfl, rfl⟩ := Prod.mk.inj heq
    exact takeName_valid hcs hname
  · -- a reference to attributes
    obtain ⟨rfl, rfl⟩ := Prod.mk.inj (Except.ok.inj h)
    exact ⟨fun d hd => List.mem_takeWhile_imp (String.toList_ofList ▸ hd), hdrop _⟩
  · -- metadata
    obtain ⟨rfl, rfl⟩ := Prod.mk.inj (Except.ok.inj h)
    exact ⟨trivial, hdrop _⟩
  · -- a string
    obtain ⟨⟨text, tail⟩, htext, heq⟩ := map_eq_ok_iff.1 h
    obtain ⟨rfl, rfl⟩ := Prod.mk.inj heq
    exact takeQuoted_valid hcs htext
  · -- dots
    obtain ⟨rfl, rfl⟩ := Prod.mk.inj (Except.ok.inj h)
    exact ⟨trivial, fun hmem => hcs (List.mem_of_mem_drop hmem)⟩
  · -- a negative number
    obtain ⟨t, hliteral, heq⟩ := map_eq_ok_iff.1 h
    obtain ⟨rfl, rfl⟩ := Prod.mk.inj heq
    exact ⟨literal_valid hliteral, hdrop _⟩
  · -- a number, or a label that is one
    refine labelOr_valid (hdrop _) (.inr ?_) (fun t => literal_valid) h
    have hall : ∀ d ∈ cs.takeWhile Char.isDigit, d.isDigit = true := fun d hd =>
      List.mem_takeWhile_imp hd
    simp only [isNumbered, String.toList_ofList, List.all_cons, hdigit, Bool.true_and,
      List.isEmpty_cons, Bool.not_false, List.all_eq_true]
    exact hall
  · -- a word, or a label that is one
    have hall : IsWord (String.ofList (c :: cs.takeWhile isNameChar)) := by
      refine ⟨c, _, String.toList_ofList, hword, fun d hd => List.mem_takeWhile_imp hd, ?_⟩
      rintro ⟨rfl, hdots'⟩
      refine hdots ⟨rfl, ?_⟩
      -- The word goes on as the line does.
      have hprefix := (List.takeWhile_prefix isNameChar : cs.takeWhile isNameChar <+: cs)
      obtain ⟨tail, htail⟩ := hprefix
      have hlen : 2 ≤ (cs.takeWhile isNameChar).length := by
        have := congrArg List.length hdots'
        simp only [List.length_take, List.length_cons, List.length_nil] at this
        omega
      rw [← htail, List.take_append_of_le_length hlen, hdots']
    refine labelOr_valid (hdrop _) (.inl hall) (fun t ht => ?_) h
    rw [← Except.ok.inj ht]
    exact hall
  · -- a mark
    obtain ⟨rfl, rfl⟩ := Prod.mk.inj (Except.ok.inj h)
    exact ⟨trivial, hcs⟩

lemma tokens_valid {ts : List Token} (hline : '\n' ∉ cs) (h : tokens first cs = .ok ts) :
    ∀ t ∈ ts, t.Valid := by
  fun_induction tokens first cs generalizing ts with
  | case1 first =>
    rw [← Except.ok.inj h]
    simp
  | case2 first c cs hblank ih =>
    exact ih (fun hmem => hline (List.mem_cons_of_mem c hmem)) h
  | case3 first cs hblank =>
    rw [← Except.ok.inj h]
    simp
  | case4 first c cs hblank hcomment e hnext => cases h
  | case5 first c cs hblank hcomment token rest hnext ih =>
    obtain ⟨ts', hrest, rfl⟩ := map_eq_ok_iff.1 h
    obtain ⟨hvalid, hline'⟩ := nextToken_valid hline hnext
    exact List.forall_mem_cons.2 ⟨hvalid, ih hline' hrest⟩

/-- All tokens of a line are valid. -/
theorem valid_of_tokenize {line : String} {ts : List Token} (hline : '\n' ∉ line.toList)
    (h : tokenize line = .ok ts) : ∀ t ∈ ts, t.Valid :=
  tokens_valid hline h

end Lexer

end SsaFold.Text
