import SsaFold.Proofs.Text.RoundTrip

/-!
# Integer literals

A literal stands for a residue.  Its number has to fit 64 bits, signed or unsigned, and is read as a
signed one; the type of the operand then tells how many of the bits count, and the constant holds
the one representative that lies between minus one half and one half of the modulus.  None of these
steps leaves the residue class, since every width divides the 64 bits of the first one.

The text of a constant is a literal of this representative, or a truth value.  So what is printed
for a constant is read at its type as the constant, and since constants are shared this is the same
value (`integer_literals`).
-/

namespace SsaFold
namespace Text

/-! ## Literals -/

/-- A number as it is written: digits, with a minus sign in front of them or not. -/
structure Literal where
  negative : Bool
  digits : List Char
  digits_ne_nil : digits ≠ []
  isDigit_digits : ∀ c ∈ digits, c.isDigit = true

namespace Literal

variable (l : Literal) {first : Bool} {rest : List Char}

/-- The characters of the literal. -/
def chars : List Char := if l.negative then '-' :: l.digits else l.digits

/-- The number that the literal denotes. -/
def number : Int :=
  if l.negative then -(Nat.ofDigitChars 10 l.digits 0 : Int) else Nat.ofDigitChars 10 l.digits 0

/-- The number fits 64 bits, signed or unsigned. -/
def Fits : Prop := -2 ^ 63 ≤ l.number ∧ l.number < 2 ^ 64

instance : Decidable l.Fits := inferInstanceAs (Decidable (_ ∧ _))

/-- The number as a signed one of 64 bits. -/
def token : Token := .int (l.number.bmod (modulus 64))

/-- No more digits follow, and the literal is not the number of a label. -/
def EndsBefore (first : Bool) (rest : List Char) : Prop :=
  (∀ c ∈ rest.head?, c.isDigit = false) ∧
    (first = true → l.negative = false → rest.head? ≠ some ':')

lemma literal_eq : literal l.negative l.digits
    = if l.Fits then .ok l.token else .error (.tooLarge (String.ofList l.chars)) := by
  have hmodulus : (modulus 64 : Int) = 18446744073709551616 := rfl
  have hfits : l.Fits ↔ -(modulus 64 : Int) ≤ 2 * l.number ∧ l.number < modulus 64 := by
    rw [hmodulus, Fits]
    omega
  have hvalue : literalValue? l.number
      = if l.Fits then some (l.number.bmod (modulus 64)) else none := by
    simp only [literalValue?, hfits]
  rw [literal]
  split
  · rename_i value heq
    have hboth := hvalue.symm.trans heq
    split_ifs at hboth with h
    rw [if_pos h, token, Option.some.inj hboth]
  · rename_i heq
    have hboth := hvalue.symm.trans heq
    split_ifs at hboth with h
    rw [if_neg h]
    rfl

/-- The next token of a line that goes on with the literal. -/
lemma nextToken_chars (first : Bool) (rest : List Char) :
    ∃ c cs, l.chars = c :: cs ∧ isBlank c = false ∧ c ≠ ';' ∧ (l.EndsBefore first rest →
      nextToken first c (cs ++ rest) = (literal l.negative l.digits).map (·, rest)) := by
  rcases l with ⟨negative, digits, hne, hdigits⟩
  cases negative with
  | true =>
    refine ⟨'-', digits, rfl, by decide, by decide, fun h => ?_⟩
    rw [nextToken_minus, takeWhile_append_of_stops hdigits h.1,
      dropWhile_append_of_stops hdigits h.1, if_neg hne]
  | false =>
    obtain ⟨c, cs, rfl⟩ := List.exists_cons_of_ne_nil hne
    obtain ⟨hc, hcs⟩ := List.forall_mem_cons.1 hdigits
    refine ⟨c, cs, rfl, isBlank_of_isNameChar (isNameChar_of_isDigit hc), ?_, fun h => ?_⟩
    · rintro rfl
      exact absurd hc (by decide)
    · rw [nextToken_digit hc, takeWhile_append_of_stops hcs h.1, dropWhile_append_of_stops hcs h.1,
        labelOr_of_not fun hfirst => h.2 hfirst rfl]

/-- A literal is read if its number fits, and refused if it does not. -/
lemma tokens_chars (h : l.EndsBefore first rest) : tokens first (l.chars ++ rest)
    = if l.Fits then (tokens false rest).map (l.token :: ·)
      else .error (.tooLarge (String.ofList l.chars)) := by
  obtain ⟨c, cs, hcs, hblank, hcomment, hnext⟩ := l.nextToken_chars first rest
  replace hnext := hnext h
  rw [l.literal_eq] at hnext
  rw [hcs, List.cons_append]
  split_ifs at hnext ⊢ with hfits
  · exact tokens_of_nextToken hblank hcomment hnext
  · rw [← hcs]
    exact tokens_of_error hblank hcomment hnext

end Literal

/-! ## Operands -/

/-- At the type, the token is read as the value. -/
def ReadsAs (t : Token) (ty : Ty) (b : Body) (v : ValueId) (b' : Body) : Prop :=
  ∃ a, Atom.ofToken? t = some a ∧ Body.readOperand ⟨ty, a⟩ b = .ok (v, b')

section Constants

variable {b : Body} {m : Module} {v : ValueId} {bits : Nat} {raw : Int}

lemma readOperand_int (hrun : b.module.constInt bits raw = .ok (m, v)) :
    Body.readOperand ⟨.int bits, .int raw⟩ b = .ok (v, { b with module := m }) := by
  show Body.tryModule (·.constInt bits raw) b = _
  exact Body.tryModule_eq_ok.2 ⟨m, hrun, rfl⟩

lemma readOperand_bool {t : Bool} (hrun : b.module.constInt 1 (if t then 1 else 0) = .ok (m, v)) :
    Body.readOperand ⟨.int 1, .bool t⟩ b = .ok (v, { b with module := m }) := by
  show Body.tryModule (·.constInt 1 (if t then 1 else 0)) b = _
  exact Body.tryModule_eq_ok.2 ⟨m, hrun, rfl⟩

end Constants

/-- A literal that is an operand stands for the constant of its residue. -/
lemma readsAs_literal (l : Literal) {bits : Nat} (hbits : 1 ≤ bits ∧ bits ≤ 64) (b : Body) :
    ∃ v b' c, ReadsAs l.token (.int bits) b v b' ∧ b'.module.kind? v = some (.constInt c) ∧
      c.bits = bits ∧ c.value ≡ l.number [ZMOD 2 ^ bits] := by
  set raw := l.number.bmod (modulus 64)
  set c := IntConst.ofInt bits raw hbits.1 hbits.2
  have hc : IntConst.ofInt? bits raw = some c := dif_pos hbits
  have hconst : b.module.constInt bits raw
      = .ok (b.module.shareValue { kind := .constInt c, ty := c.ty }) := by
    rw [Module.constInt, hc]
  have hkind := Module.kind?_shareValue b.module { kind := .constInt c, ty := c.ty }
  refine ⟨_, _, c, ⟨.int raw, rfl, readOperand_int hconst⟩, hkind, rfl, ?_⟩
  have hraw : raw ≡ l.number [ZMOD 2 ^ 64] := by
    rw [← modulus_eq]
    exact Int.bmod_emod
  exact (IntConst.modEq_of_ofInt? hc).2.trans (hraw.of_dvd (pow_dvd_pow 2 hbits.2))

/-- What is printed for a constant. -/
lemma value_constant {p : Printing} {v : ValueId} {c : IntConst}
    (hv : p.module.kind? v = some (.constInt c)) : p.value v = .ok c.text := by
  obtain ⟨value, hvalue, hkind⟩ := Module.kind?_eq_some.1 hv
  simp only [Printing.value, Module.getValue_eq_ok.2 hvalue, ok_bind, hkind]
  rfl

/-- The text of a constant is one token, which is read as this constant if the module holds it. -/
lemma readsAs_text (c : IntConst) : ∃ t, (∀ first, tokens first c.text.toList = .ok [t]) ∧
    ∀ (b : Body) v, Reachable b.module → b.module.kind? v = some (.constInt c) →
      ReadsAs t (.int c.bits) b v b := by
  refine ⟨_, (IntConst.lexes_text c).tokens_eq, fun b v hb hv => ?_⟩
  by_cases hbits : c.bits = 1
  · have hread : IntConst.ofInt? 1 (if decide (c.value ≠ 0) = true then 1 else 0) = some c := by
      simpa using IntConst.ofInt?_bool hbits
    rw [if_pos hbits, hbits]
    refine ⟨.bool (c.value ≠ 0), ?_, readOperand_bool (hb.constInt_of_kind? hv hread)⟩
    by_cases hzero : c.value = 0 <;> simp [hzero, Atom.token, Atom.ofToken?]
  · rw [if_neg hbits]
    exact ⟨.int c.value, rfl, readOperand_int (hb.constInt_of_kind? hv c.ofInt?_value)⟩

/-- Integer literals denote residues.  A literal is accepted exactly if its number fits 64 bits; as
an operand it is the constant that is congruent to its number; constants of one module are one value
exactly if they are of one width and congruent, whatever is done between asking for the one and the
other; and what is printed for a constant is read as this value again, at any later time. -/
theorem integer_literals :
    (∀ (l : Literal) first rest, l.EndsBefore first rest →
      (l.Fits → tokens first (l.chars ++ rest) = (tokens false rest).map (l.token :: ·)) ∧
      (¬ l.Fits → tokens first (l.chars ++ rest) = .error (.tooLarge (String.ofList l.chars)))) ∧
    (∀ (l : Literal) (bits : Nat) (b : Body), 1 ≤ bits ∧ bits ≤ 64 →
      ∃ v b' c, ReadsAs l.token (.int bits) b v b' ∧ b'.module.kind? v = some (.constInt c) ∧
        c.bits = bits ∧ -2 ^ (bits - 1) ≤ c.value ∧ c.value < 2 ^ (bits - 1) ∧
        c.value ≡ l.number [ZMOD 2 ^ bits]) ∧
    (∀ (m m₁ m₂ m₃ : Module) (ops : List Op) (bits bits' : Nat) (x y : Int) (v w : ValueId),
      Reachable m → m.constInt bits x = .ok (m₁, v) → Op.runAll m₁ ops = .ok m₂ →
      m₂.constInt bits' y = .ok (m₃, w) → (v = w ↔ bits = bits' ∧ x ≡ y [ZMOD 2 ^ bits])) ∧
    (∀ (p : Printing) (v : ValueId) (c : IntConst), Reachable p.module →
      p.module.kind? v = some (.constInt c) → ∃ text t, p.value v = .ok text ∧
        text = (if c.bits = 1 then if c.value = 0 then "false" else "true" else toString c.value) ∧
        (∀ first, tokens first text.toList = .ok [t]) ∧
        ∀ (ops : List Op) (b : Body), Op.runAll p.module ops = .ok b.module →
          ReadsAs t (.int c.bits) b v b) := by
  refine ⟨fun l first rest h => ?_, fun l bits b hbits => ?_,
    fun m m₁ m₂ m₃ ops bits bits' x y v w h hx hrun hy => h.constInt_eq_iff hx hrun hy,
    fun p v c h hv => ?_⟩
  · have htokens := l.tokens_chars h
    exact ⟨fun hfits => by rwa [if_pos hfits] at htokens,
      fun hfits => by rwa [if_neg hfits] at htokens⟩
  · obtain ⟨v, b', c, hreads, hkind, rfl, hmod⟩ := readsAs_literal l hbits b
    exact ⟨v, b', c, hreads, hkind, rfl, c.value_mem.1, c.value_mem.2, hmod⟩
  · obtain ⟨t, hlex, hreads⟩ := readsAs_text c
    refine ⟨c.text, t, value_constant hv, rfl, hlex, fun ops b hrun => ?_⟩
    exact hreads b v (h.runAll hrun) ((h.keepsConstants_runAll hrun).kind? hv)

/-- The largest number that fits. -/
def Literal.largest : Literal :=
  ⟨false, "18446744073709551615".toList, by decide +kernel, List.all_eq_true.1 (by decide +kernel)⟩

/-- The number after it. -/
def Literal.overLargest : Literal :=
  ⟨false, "18446744073709551616".toList, by decide +kernel, List.all_eq_true.1 (by decide +kernel)⟩

/-- A function that adds 255 to itself at eight bits, and its sum erased again. -/
def between : List Op := [
  .addFunc "f" .void [],
  .addBlock ⟨0⟩ none,
  .appendInst ⟨0⟩ { opcode := .binary .add, ty := .int 8 } [⟨0⟩, ⟨0⟩],
  .eraseInst ⟨0⟩]

/-- The largest literal is minus one, and the number after it is refused.  At eight bits, 255 and
minus one are one constant, also if it is read and given up in between; it is printed as minus one,
and read again. -/
theorem integer_literals_boundaries :
    tokens false Literal.largest.chars = .ok [.int (-1)] ∧
    tokens false Literal.overLargest.chars = .error (.tooLarge "18446744073709551616") ∧
    (∀ b : Body, ∃ v b' c, ReadsAs (.int (-1)) (.int 8) b v b' ∧
      b'.module.kind? v = some (.constInt c) ∧ c.value = -1) ∧
    ∃ (m₁ m₂ m₃ : Module) (v : ValueId), (Module.empty "").constInt 8 255 = .ok (m₁, v) ∧
      Op.runAll m₁ between = .ok m₂ ∧ m₂.constInt 8 (-1) = .ok (m₃, v) ∧
      Printing.value ⟨m₁, ∅⟩ v = .ok "-1" ∧
      ∀ b : Body, b.module = m₂ → ReadsAs (.int (-1)) (.int 8) b v b := by
  obtain ⟨hlex, hoperand, hshare, hprint⟩ := integer_literals
  have htoken : Literal.largest.token = .int (-1) := by decide +kernel
  refine ⟨?_, ?_, fun b => ?_, ?_⟩
  · have hread := (hlex Literal.largest false [] ⟨by simp, by simp⟩).1 (by decide +kernel)
    rw [List.append_nil, htoken, tokens] at hread
    exact hread
  · have hread := (hlex Literal.overLargest false [] ⟨by simp, by simp⟩).2 (by decide +kernel)
    rw [List.append_nil] at hread
    rw [hread]
    decide +kernel
  · obtain ⟨v, b', c, hreads, hkind, -, hlower, hupper, hmod⟩ :=
      hoperand Literal.largest 8 b (by decide)
    have hnumber : Literal.largest.number = 18446744073709551615 := by decide +kernel
    refine ⟨v, b', c, htoken ▸ hreads, hkind, ?_⟩
    rw [hnumber, Int.ModEq] at hmod
    omega
  · have hruns : ((Module.empty "").constInt 8 255 >>= fun asked => Op.runAll asked.1 between >>=
        (·.constInt 8 (-1))).toOption.map (fun _ => ()) = some () := by decide +kernel
    obtain ⟨⟨m₃, w⟩, hall, -⟩ := toOption_map_eq_some.1 hruns
    obtain ⟨⟨m₁, v⟩, hx, hrest⟩ := bind_eq_ok.1 hall
    obtain ⟨m₂, hrun, hy⟩ := bind_eq_ok.1 hrest
    have hempty := Reachable.empty ""
    obtain rfl : v = w :=
      (hshare _ m₁ m₂ m₃ between 8 8 255 (-1) v w hempty hx hrun hy).2 (by decide)
    obtain ⟨c, hc, hv⟩ := Module.kind?_constInt hx
    obtain rfl : IntConst.ofInt 8 255 (by decide) (by decide) = c := Option.some.inj hc
    have hm₁ : Reachable m₁ := hempty.step (.constInt 8 255) (by simp [Op.run, hx])
    obtain ⟨text, t, hvalue, htext, htokens, hreads⟩ := hprint ⟨m₁, ∅⟩ v _ hm₁ hv
    obtain rfl : text = "-1" := htext.trans (by decide +kernel)
    have hminus : tokens true "-1".toList = .ok [.int (-1)] := by decide +kernel
    obtain rfl : t = .int (-1) := by
      have heq := Except.ok.inj ((htokens true).symm.trans hminus)
      exact List.singleton_inj.1 heq
    exact ⟨m₁, m₂, m₃, v, hx, hrun, hy, hvalue, fun b hb => hreads between b (hb ▸ hrun)⟩

end Text
end SsaFold
