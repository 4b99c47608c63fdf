/-!
# Decimal numbers

Reading a number from its decimal digits.  Leading zeros are allowed, and a bound keeps out
numbers that are too large.
-/

namespace SsaFold.Text

/-- The number with the given digits; there is at least one. -/
def digits? (cs : List Char) : Option Nat :=
  if cs ≠ [] ∧ cs.all Char.isDigit then some (Nat.ofDigitChars 10 cs 0) else none

/-- The number below `bound` with the given digits. -/
def natBelow? (bound : Nat) (cs : List Char) : Option Nat :=
  (digits? cs).filter (· < bound)

/-- The number below `bound` with the given digits, which a plus sign may precede. -/
def unsignedBelow? (bound : Nat) : List Char → Option Nat
  | '+' :: cs => natBelow? bound cs
  | cs => natBelow? bound cs

/-- The number below `bound` with the given digits, which a sign may precede.  Of the negative
numbers only zero is one. -/
def signedBelow? (bound : Nat) : List Char → Option Nat
  | '-' :: cs => (natBelow? bound cs).filter (· = 0)
  | cs => unsignedBelow? bound cs

/-- The digits of a number read back. -/
theorem digits?_toDigits (n : Nat) : digits? (Nat.toDigits 10 n) = some n := by
  have h : Nat.toDigits 10 n ≠ [] ∧ (Nat.toDigits 10 n).all Char.isDigit = true := by
    constructor
    · exact Nat.toDigits_ne_nil
    · simpa using fun c hc => Nat.isDigit_of_mem_toDigits (by decide) (by decide) hc
  rw [digits?, if_pos h, Nat.ofDigitChars_toDigits (by decide) (by decide)]

end SsaFold.Text
