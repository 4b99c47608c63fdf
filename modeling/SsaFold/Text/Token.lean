import SsaFold.Text.Name

/-!
# Tokens

The pieces of a line.
-/

namespace SsaFold.Text

/-- A piece of a line. -/
inductive Token where
  /-- The name of a local value or block, without its sigil. -/
  | localName (name : String)
  /-- The name of a function or global, without its sigil. -/
  | globalName (name : String)
  /-- A bare word. -/
  | word (word : String)
  /-- A label, without the colon that ends it. -/
  | label (name : String)
  /-- A number, read as a signed number of 64 bits. -/
  | int (value : Int)
  /-- Text between quotation marks. -/
  | str (text : String)
  /-- A reference to a group of attributes. -/
  | attrRef (digits : String)
  /-- A reference to metadata. -/
  | metadata (name : String)
  /-- One of the marks `= , ( ) [ ] { }`. -/
  | punct (mark : Char)
  /-- Three dots. -/
  | ellipsis
deriving DecidableEq, Repr, Inhabited

/-- How a token is written in messages. -/
def Token.text : Token → String
  | localName name => "%" ++ name
  | globalName name => "@" ++ name
  | word w => w
  | label name => name ++ ":"
  | int value => toString value
  | str text => "\"" ++ text ++ "\""
  | attrRef digits => "#" ++ digits
  | metadata name => "!" ++ name
  | punct mark => mark.toString
  | ellipsis => "..."

/-- The marks that are tokens. -/
def marks : List Char := ['=', ',', '(', ')', '[', ']', '{', '}']

end SsaFold.Text
