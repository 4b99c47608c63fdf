import SsaFold.Module.Basic
import SsaFold.Text.Token

/-!
# Reading from the tokens of a line

A *phrase* takes tokens from the front of what is left of a line.  Besides its result it
lists the operands it met, in order, and it lists them also when it fails: what is wrong with
an operand is reported before what is wrong with the tokens after it.
-/

namespace SsaFold.Text

/-! ## What can be wrong -/

/-- What a phrase looks for. -/
inductive Wanted where
  | mark (c : Char)
  | keyword (word : String)
  | anyWord
  | localName
  | integer
  | functionName
  | callee
  | type
  | value
deriving DecidableEq

/-- How a phrase says what it looks for. -/
def Wanted.text : Wanted → String
  | mark c => "'" ++ c.toString ++ "'"
  | keyword word => "'" ++ word ++ "'"
  | anyWord => "a keyword"
  | localName => "a local name"
  | integer => "an integer"
  | functionName => "a function name"
  | callee => "a callee"
  | type => "a type"
  | value => "a value"

/-- What can be wrong with the tokens of a line. -/
inductive PhraseError where
  /-- The line ends too early. -/
  | endOfLine
  /-- Another token is looked for. -/
  | expected (wanted : Wanted) (found : Token)
  /-- An integer type is not 1 to 64 bits wide. -/
  | unsupportedWidth (found : Token)
  /-- A parameter cannot be `void`. -/
  | voidParameter (func : String)
  /-- A line goes on after a function header. -/
  | afterHeader (found : Token)
  /-- A line goes on after a label. -/
  | afterLabel (found : Token)
  /-- A line goes on after an instruction. -/
  | afterInstruction (found : Token)
  | unknownOpcode (name : String)
  | unknownPredicate (name : String)
  /-- Arithmetic is done on integers. -/
  | integerOperands (op : Opcode) (found : Ty)
  /-- A `select` chooses by a truth value. -/
  | selectCondition (found : Ty)
  /-- The two values of a `select` have one type. -/
  | selectArms (ifTrue ifFalse : Ty)
  /-- A `br` chooses by a truth value. -/
  | branchCondition (found : Ty)
  /-- An instruction without a result cannot be named. -/
  | voidResult (op : Opcode)
  /-- An alignment does not fit 32 bits. -/
  | alignment (n : Int)
deriving DecidableEq

/-- The text of an error. -/
def PhraseError.message : PhraseError → String
  | endOfLine => "unexpected end of line"
  | expected wanted found => "expected " ++ wanted.text ++ " but found '" ++ found.text ++ "'"
  | unsupportedWidth found =>
      "integer type '" ++ found.text ++ "' is wider than i" ++ toString maxIntBits
  | voidParameter func => "parameter of @" ++ func ++ " cannot be void"
  | afterHeader found => "unexpected '" ++ found.text ++ "' after function header"
  | afterLabel found => "unexpected '" ++ found.text ++ "' after label"
  | afterInstruction found => "unexpected '" ++ found.text ++ "' after instruction"
  | unknownOpcode name => "unknown opcode '" ++ name ++ "'"
  | unknownPredicate name => "unknown icmp predicate '" ++ name ++ "'"
  | integerOperands op found =>
      "'" ++ op.mnemonic ++ "' requires integer operands, found " ++ found.text
  | selectCondition found => "select condition must be i1, found " ++ found.text
  | selectArms ifTrue ifFalse =>
      "select arms differ in type: " ++ ifTrue.text ++ " vs " ++ ifFalse.text
  | branchCondition found => "branch condition must be i1, found " ++ found.text
  | voidResult op => "cannot name the void result of '" ++ op.mnemonic ++ "'"
  | alignment n => "invalid alignment " ++ toString n

/-! ## Operands -/

/-- An operand as it is written. -/
inductive Atom where
  | localName (name : String)
  | globalName (name : String)
  | int (value : Int)
  | bool (value : Bool)
  | null
deriving DecidableEq, Repr

/-- The operand that a token denotes. -/
def Atom.ofToken? : Token → Option Atom
  | .localName name => some (.localName name)
  | .globalName name => some (.globalName name)
  | .int value => some (.int value)
  | .word "true" => some (.bool true)
  | .word "false" => some (.bool false)
  | .word "null" => some .null
  | _ => none

/-- An operand and the type at which it is read. -/
structure TypedAtom where
  ty : Ty
  atom : Atom
deriving DecidableEq, Repr

/-! ## Phrases -/

/-- What has been read: the operands met, and the result or what is wrong. -/
structure Reading (α : Type) where
  /-- The operands met, in order. -/
  met : List TypedAtom
  result : Except PhraseError α

namespace Reading

variable {α β : Type}

/-- A reading that meets no operand. -/
def ofExcept (result : Except PhraseError α) : Reading α := ⟨[], result⟩

/-- A reading that fails. -/
def fail (e : PhraseError) : Reading α := ⟨[], .error e⟩

/-- A reading that succeeds. -/
def done (a : α) : Reading α := ⟨[], .ok a⟩

/-- The same reading after an operand. -/
def after (a : TypedAtom) (r : Reading α) : Reading α := { r with met := a :: r.met }

/-- The same reading with another result. -/
def map (f : α → β) (r : Reading α) : Reading β := ⟨r.met, r.result.map f⟩

/-- Go on reading. -/
def bind (r : Reading α) (f : α → Reading β) : Reading β :=
  match r.result with
  | .ok a => ⟨r.met ++ (f a).met, (f a).result⟩
  | .error e => ⟨r.met, .error e⟩

@[simp] theorem bind_done (a : α) (f : α → Reading β) : (done a).bind f = f a := by
  simp [bind, done]

@[simp] theorem bind_fail (e : PhraseError) (f : α → Reading β) : (fail e).bind f = fail e := rfl

@[simp] theorem bind_after (a : TypedAtom) (r : Reading α) (f : α → Reading β) :
    (r.after a).bind f = (r.bind f).after a := by
  rcases r with ⟨met, _ | _⟩ <;> simp [bind, after]

end Reading

/-- A phrase: from the tokens that are left to what is read of them and the tokens after it. -/
structure Phrase (α : Type) where
  run : List Token → Reading (α × List Token)

namespace Phrase

instance : Monad Phrase where
  pure a := ⟨fun ts => .done (a, ts)⟩
  bind p f := ⟨fun ts => (p.run ts).bind fun (a, rest) => (f a).run rest⟩

@[simp] theorem run_pure {α : Type} (a : α) (ts : List Token) :
    (pure a : Phrase α).run ts = .done (a, ts) := rfl

@[simp] theorem run_bind {α β : Type} (p : Phrase α) (f : α → Phrase β) (ts : List Token) :
    (p >>= f).run ts = (p.run ts).bind fun (a, rest) => (f a).run rest := rfl

/-- The phrase that fails. -/
def fail {α : Type} (e : PhraseError) : Phrase α := ⟨fun _ => .fail e⟩

/-- The next token, left where it is. -/
def peek : Phrase (Option Token) := ⟨fun ts => .done (ts.head?, ts)⟩

/-- The next token. -/
def next : Phrase Token where
  run
    | [] => .fail .endOfLine
    | t :: ts => .done (t, ts)

/-- Take the next token if it is `t`. -/
def eat (t : Token) : Phrase Bool where
  run
    | [] => .done (false, [])
    | u :: ts => if u = t then .done (true, ts) else .done (false, u :: ts)

/-- A mark. -/
def mark (c : Char) : Phrase Unit := do
  let t ← next
  unless t = .punct c do fail (.expected (.mark c) t)

/-- A given word. -/
def keyword (word : String) : Phrase Unit := do
  let t ← next
  unless t = .word word do fail (.expected (.keyword word) t)

/-- Any word. -/
def word : Phrase String := do
  match ← next with
  | .word w => return w
  | t => fail (.expected .anyWord t)

/-- The name of a local value or block. -/
def localName : Phrase String := do
  match ← next with
  | .localName name => return name
  | t => fail (.expected .localName t)

/-- The type that a token denotes. -/
def typeOf (t : Token) : Except PhraseError Ty :=
  match t with
  | .word w =>
    match Ty.ofWord? w with
    | some (.int bits) =>
      if 0 < bits ∧ bits ≤ maxIntBits then .ok (.int bits) else .error (.unsupportedWidth t)
    | some ty => .ok ty
    | none => .error (.expected .type t)
  | _ => .error (.expected .type t)

/-- A type. -/
def type : Phrase Ty := do
  let t ← next
  match typeOf t with
  | .ok ty => return ty
  | .error e => fail e

/-- An operand of a known type. -/
def operand (ty : Ty) : Phrase Atom where
  run
    | [] => .fail .endOfLine
    | t :: ts =>
      match Atom.ofToken? t with
      | some atom => .after ⟨ty, atom⟩ (.done (atom, ts))
      | none => .fail (.expected .value t)

/-- A type and an operand of that type. -/
def typedOperand : Phrase TypedAtom := do
  let ty ← type
  return ⟨ty, ← operand ty⟩

/-- The token denotes a type, be its width supported or not. -/
def isType : Token → Bool
  | .word w => (Ty.ofWord? w).isSome
  | _ => false

/-- The words in front of the next type. -/
def wordsBeforeType : List Token → Except PhraseError (List String × List Token)
  | [] => .error .endOfLine
  | t :: ts =>
    if isType t then .ok ([], t :: ts)
    else match t with
      | .word w => (wordsBeforeType ts).map fun (ws, rest) => (w :: ws, rest)
      | _ => .error (.expected .anyWord t)

/-- The words in front of the next type. -/
def modifiers : Phrase (List String) := ⟨fun ts => .ofExcept (wordsBeforeType ts)⟩

end Phrase
end SsaFold.Text
