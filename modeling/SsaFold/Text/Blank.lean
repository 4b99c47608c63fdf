/-!
# White space

The blanks of the text format are the characters with the Unicode property `White_Space`.
-/

namespace SsaFold.Text

/-- The ranges of code points with the property `White_Space`. -/
def blankRanges : List (Nat × Nat) :=
  [(0x9, 0xD), (0x20, 0x20), (0x85, 0x85), (0xA0, 0xA0), (0x1680, 0x1680), (0x2000, 0x200A),
    (0x2028, 0x2029), (0x202F, 0x202F), (0x205F, 0x205F), (0x3000, 0x3000)]

/-- The character is a blank. -/
def isBlank (c : Char) : Bool :=
  blankRanges.any fun (first, last) => first ≤ c.toNat && c.toNat ≤ last

/-- Cut off the characters at both ends that satisfy `p`. -/
def trimWhere (p : Char → Bool) (cs : List Char) : List Char :=
  ((cs.dropWhile p).reverse.dropWhile p).reverse

/-- Cut off the blanks at both ends. -/
def trim (s : String) : String := String.ofList (trimWhere isBlank s.toList)

example : (blankRanges.map fun (first, last) => last + 1 - first).sum = 25 := by decide

end SsaFold.Text
