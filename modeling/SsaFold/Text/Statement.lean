import SsaFold.Text.Phrase

/-!
# Instructions as they are written

An instruction line is an optional result name, an opcode, the operation itself and a
trailer.  Operands and labels are names here; what they stand for depends on the function
around them.
-/

namespace SsaFold.Text

/-- An operation as it is written. -/
inductive Operation where
  /-- Arithmetic on integers of the given width. -/
  | binary (op : BinaryOp) (flags : ArithFlags) (bits : Nat) (lhs rhs : Atom)
  | icmp (p : Predicate) (ty : Ty) (lhs rhs : Atom)
  | select (cond : Atom) (ty : Ty) (ifTrue ifFalse : Atom)
  /-- The values with the labels they come from. -/
  | phi (ty : Ty) (incoming : List (Atom × String))
  /-- The callee is written in front of the arguments. -/
  | call (ty : Ty) (callee : Atom) (args : List TypedAtom)
  | alloca (ty : Ty)
  | load (ty : Ty) (pointer : Atom)
  | store (value : TypedAtom) (pointer : Atom)
  | ret (value : Option TypedAtom)
  | br (target : String)
  | condBr (cond : Atom) (ifTrue ifFalse : String)
  | unreachable
deriving DecidableEq, Repr

namespace Operation

/-- The opcode of an operation. -/
def opcode : Operation → Opcode
  | binary op .. => .binary op
  | icmp .. => .icmp
  | select .. => .select
  | phi .. => .phi
  | call .. => .call
  | alloca .. => .alloca
  | load .. => .load
  | store .. => .store
  | ret .. => .ret
  | br .. => .br
  | condBr .. => .br
  | unreachable => .unreachable

/-- The type of the result. -/
def resultType : Operation → Ty
  | binary _ _ bits _ _ => .int bits
  | icmp .. => .i1
  | select _ ty _ _ => ty
  | phi ty _ => ty
  | call ty _ _ => ty
  | alloca _ => .ptr
  | load ty _ => ty
  | store .. | ret .. | br .. | condBr .. | unreachable => .void

end Operation

/-- An instruction line, its result name aside. -/
structure Statement where
  operation : Operation
  /-- The alignment, if one is written. -/
  align : Option Nat
deriving DecidableEq, Repr

namespace Statement

open Phrase

/-! ## The head of an instruction -/

/-- The words that may stand in front of an opcode. -/
def tailMarkers : List String := ["tail", "musttail", "notail"]

/-- The name of the result, if the line begins with one and an equals sign. -/
def resultName : Phrase (Option String) where
  run
    | .localName name :: .punct '=' :: ts => .done (some name, ts)
    | ts => .done (none, ts)

/-- The name of the result and the opcode. -/
def head : Phrase (Option String × Opcode) := do
  let name ← resultName
  let first ← word
  let mnemonic ← if first ∈ tailMarkers then word else pure first
  match Opcode.ofMnemonic? mnemonic with
  | some op => return (name, op)
  | none => fail (.unknownOpcode mnemonic)

/-! ## Operations -/

/-- The flags in front of `ts`, added to `flags`. -/
def takeFlags (flags : ArithFlags) : List Token → ArithFlags × List Token
  | .word "nuw" :: ts => takeFlags { flags with nuw := true } ts
  | .word "nsw" :: ts => takeFlags { flags with nsw := true } ts
  | .word "exact" :: ts => takeFlags { flags with exact := true } ts
  | ts => (flags, ts)

/-- The flags of an arithmetic operation. -/
def arithFlags : Phrase ArithFlags := ⟨fun ts => .done (takeFlags {} ts)⟩

/-- The name of a label. -/
def label : Phrase String := do
  keyword "label"
  localName

/-- The pointer operand of a `load` or `store`. -/
def pointer : Phrase Atom := do
  keyword "ptr"
  operand .ptr

/-- Arithmetic on two integers. -/
def binary (op : BinaryOp) : Phrase Operation := do
  let flags ← arithFlags
  let lhs ← typedOperand
  match lhs.ty with
  | .int bits =>
    mark ','
    return .binary op flags bits lhs.atom (← operand lhs.ty)
  | ty => fail (.integerOperands (.binary op) ty)

/-- A comparison. -/
def icmp : Phrase Operation := do
  let name ← word
  match Predicate.ofName? name with
  | none => fail (.unknownPredicate name)
  | some p =>
    let lhs ← typedOperand
    mark ','
    return .icmp p lhs.ty lhs.atom (← operand lhs.ty)

/-- A choice between two values. -/
def select : Phrase Operation := do
  let cond ← typedOperand
  unless cond.ty = .i1 do fail (.selectCondition cond.ty)
  mark ','
  let ifTrue ← typedOperand
  mark ','
  let ifFalse ← typedOperand
  unless ifTrue.ty = ifFalse.ty do fail (.selectArms ifTrue.ty ifFalse.ty)
  return .select cond.atom ifTrue.ty ifTrue.atom ifFalse.atom

/-- Where the reading of the incoming values of a `phi` stands. -/
inductive IncomingPlace where
  | opening
  | value
  | comma (atom : Atom)
  | label (atom : Atom)
  | closing (atom : Atom) (label : String)

/-- The incoming values of a `phi`.  A comma that is not followed by a bracket belongs to what
comes after. -/
def readIncoming (ty : Ty) :
    IncomingPlace → List Token → Reading (List (Atom × String) × List Token)
  | _, [] => .fail .endOfLine
  | .opening, t :: ts =>
    if t = .punct '[' then readIncoming ty .value ts else .fail (.expected (.mark '[') t)
  | .value, t :: ts =>
    match Atom.ofToken? t with
    | some atom => .after ⟨ty, atom⟩ (readIncoming ty (.comma atom) ts)
    | none => .fail (.expected .value t)
  | .comma atom, t :: ts =>
    if t = .punct ',' then readIncoming ty (.label atom) ts else .fail (.expected (.mark ',') t)
  | .label atom, .localName label :: ts => readIncoming ty (.closing atom label) ts
  | .label _, t :: _ => .fail (.expected .localName t)
  | .closing atom label, .punct ']' :: .punct ',' :: .punct '[' :: ts =>
    (readIncoming ty .value ts).map fun (incoming, rest) => ((atom, label) :: incoming, rest)
  | .closing atom label, t :: ts =>
    if t = .punct ']' then .done ([(atom, label)], ts) else .fail (.expected (.mark ']') t)

/-- A value that depends on the block control came from. -/
def phi : Phrase Operation := do
  let ty ← type
  return .phi ty (← ⟨readIncoming ty .opening⟩)

/-- What follows the next closing parenthesis. -/
def dropGroup : List Token → Except PhraseError (List Token)
  | [] => .error .endOfLine
  | t :: ts => if t = .punct ')' then .ok ts else dropGroup ts

/-- The type of the callee, if it is spelled out, is passed over. -/
def functionType : Phrase Unit where
  run
    | .punct '(' :: ts => .ofExcept ((dropGroup ts).map ((), ·))
    | ts => .done ((), ts)

/-- The callee of a call. -/
def callee : Phrase Atom where
  run
    | [] => .fail .endOfLine
    | .globalName name :: ts => .after ⟨.ptr, .globalName name⟩ (.done (.globalName name, ts))
    | .localName name :: ts => .after ⟨.ptr, .localName name⟩ (.done (.localName name, ts))
    | t :: _ => .fail (.expected .callee t)

/-- Where the reading of call arguments stands. -/
inductive ArgPlace where
  | type
  | value (ty : Ty)
  | finish

/-- The arguments up to the closing parenthesis.  Attributes in front of a value are passed
over, and so is the number after `align`. -/
def readArgs : ArgPlace → List Token → Reading (List TypedAtom × List Token)
  | _, [] => .fail .endOfLine
  | .type, t :: ts =>
    match Phrase.typeOf t with
    | .ok ty => readArgs (.value ty) ts
    | .error e => .fail e
  | .value ty, t :: ts =>
    match t, Atom.ofToken? t, ts with
    | _, some atom, ts =>
      .after ⟨ty, atom⟩ <| (readArgs .finish ts).map fun (args, rest) => (⟨ty, atom⟩ :: args, rest)
    | .word "align", none, .int _ :: rest => readArgs (.value ty) rest
    | .word _, none, ts => readArgs (.value ty) ts
    | t, none, _ => .fail (.expected .value t)
  | .finish, t :: ts =>
    if t = .punct ')' then .done ([], ts)
    else if t = .punct ',' then readArgs .type ts
    else .fail (.expected (.mark ',') t)

/-- The arguments of a call, the opening parenthesis having been read. -/
def args : Phrase (List TypedAtom) where
  run
    | .punct ')' :: ts => .done ([], ts)
    | ts => readArgs .type ts

/-- A call.  Words in front of the return type are passed over. -/
def call : Phrase Operation := do
  let _ ← modifiers
  let ty ← type
  functionType
  let callee ← callee
  mark '('
  return .call ty callee (← args)

/-- A return, with or without a value. -/
def ret : Phrase Operation := do
  if ← eat (.word "void") then return .ret none
  return .ret (some (← typedOperand))

/-- A branch to one block, or to one of two. -/
def branch : Phrase Operation := do
  if (← peek) = some (.word "label") then return .br (← label)
  let cond ← typedOperand
  unless cond.ty = .i1 do fail (.branchCondition cond.ty)
  mark ','
  let ifTrue ← label
  mark ','
  return .condBr cond.atom ifTrue (← label)

/-- Room for a value. -/
def alloca : Phrase Operation := return .alloca (← type)

/-- A read of memory. -/
def load : Phrase Operation := do
  let ty ← type
  mark ','
  return .load ty (← pointer)

/-- A write to memory. -/
def store : Phrase Operation := do
  let value ← typedOperand
  mark ','
  return .store value (← pointer)

/-- The operation of an opcode. -/
def operationOf : Opcode → Phrase Operation
  | .binary op => binary op
  | .icmp => icmp
  | .select => select
  | .phi => phi
  | .call => call
  | .alloca => alloca
  | .load => load
  | .store => store
  | .ret => ret
  | .br => branch
  | .unreachable => return .unreachable

/-! ## The trailer -/

/-- The alignment that a number stands for. -/
def alignOf (n : Int) : Except PhraseError Nat :=
  if 0 ≤ n ∧ n < modulus 32 then .ok n.toNat else .error (.alignment n)

/-- What follows an operation: alignment, attribute references, and metadata, which ends the
line.  The last alignment counts. -/
def readTrailer (align : Option Nat) : List Token → Except PhraseError (Option Nat)
  | [] => .ok align
  | .attrRef _ :: ts => readTrailer align ts
  | .metadata _ :: _ => .ok align
  | .punct ',' :: .word "align" :: .int n :: ts =>
    match alignOf n with
    | .ok n => readTrailer (some n) ts
    | .error e => .error e
  | .punct ',' :: .word "align" :: t :: _ => .error (.expected .integer t)
  | .punct ',' :: .word "align" :: [] => .error .endOfLine
  | .punct ',' :: .metadata _ :: _ => .ok align
  | .punct ',' :: t :: _ => .error (.afterInstruction t)
  | .punct ',' :: [] => .error .endOfLine
  | t :: _ => .error (.afterInstruction t)

/-- What follows an operation. -/
def trailer : Phrase (Option Nat) := ⟨fun ts => .ofExcept ((readTrailer none ts).map (·, []))⟩

/-- The instruction of an opcode; only one with a result may be named. -/
def phrase (name : Option String) (op : Opcode) : Phrase Statement := do
  let operation ← operationOf op
  let align ← trailer
  if name.isSome && operation.resultType.isVoid then fail (.voidResult op)
  return { operation, align }

end Statement
end SsaFold.Text
