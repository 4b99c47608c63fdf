import SsaFold.IntConst
import SsaFold.Text.Decimal

/-!
# Names

A name made of name characters is written as it is; any other is written between quotation
marks.  A name of digits only is the number of a slot, and is not kept as a name.
-/

namespace SsaFold.Text

/-- The character may stand in a name that is not quoted. -/
def isNameChar (c : Char) : Bool := c.isAlphanum || c ∈ ['_', '.', '$', '-']

/-- The character may begin a word. -/
def isWordStart (c : Char) : Bool := c.isAlpha || c ∈ ['_', '.', '$']

/-- The name needs no quotation marks. -/
def isPlain (name : String) : Bool := !name.toList.isEmpty && name.toList.all isNameChar

/-- A name without its sigil, quoted if it has to be. -/
def nameText (name : String) : String :=
  if isPlain name then name else "\"" ++ name ++ "\""

/-- The name of a local value or block as it is written. -/
def localText (name : String) : String := "%" ++ nameText name

/-- The name of a function or global as it is written. -/
def globalText (name : String) : String := "@" ++ nameText name

/-- The name consists of digits. -/
def isNumbered (name : String) : Bool := !name.toList.isEmpty && name.toList.all Char.isDigit

/-- The name under which an entry is kept: a numbered one is not. -/
def keptName (name : String) : Option String := if isNumbered name then none else some name

/-- Slots are numbered below this bound. -/
def slotBound : Nat := modulus 64

/-- The slot that a name denotes; a plus sign may precede its number. -/
def slot? (name : String) : Option Nat := unsignedBelow? slotBound name.toList

end SsaFold.Text

namespace SsaFold

/-- The type that a word denotes; its width has not been looked at. -/
def Ty.ofWord? (word : String) : Option Ty :=
  if word = "void" then some .void
  else if word = "ptr" then some .ptr
  else match word.toList with
    | 'i' :: digits => (Text.natBelow? (modulus 32) digits).map .int
    | _ => none

end SsaFold
