/-!
# Opcodes

The closed set of operations, the comparison predicates of `icmp`, and the flags an
arithmetic instruction may carry.
-/

namespace SsaFold

/-- The integer operations with two operands of the result's type. -/
inductive BinaryOp where
  | add | sub | mul | sdiv | udiv | srem | urem
  | and | or | xor | shl | lshr | ashr
deriving DecidableEq, Repr, Inhabited

namespace BinaryOp

/-- The name of an operation in text. -/
def mnemonic : BinaryOp → String
  | add => "add"
  | sub => "sub"
  | mul => "mul"
  | sdiv => "sdiv"
  | udiv => "udiv"
  | srem => "srem"
  | urem => "urem"
  | and => "and"
  | or => "or"
  | xor => "xor"
  | shl => "shl"
  | lshr => "lshr"
  | ashr => "ashr"

/-- Every two-operand operation. -/
def all : List BinaryOp :=
  [add, sub, mul, sdiv, udiv, srem, urem, and, or, xor, shl, lshr, ashr]

/-- The number that leaves the other operand as it is, on either side. -/
def identity? : BinaryOp → Option Int
  | add => some 0
  | mul => some 1
  | _ => none

end BinaryOp

/-- What an instruction does. -/
inductive Opcode where
  /-- Two-operand integer arithmetic. -/
  | binary (op : BinaryOp)
  | icmp | select | phi | call | alloca | load | store
  | ret | br | unreachable
deriving DecidableEq, Repr, Inhabited

namespace Opcode

/-- The name of an opcode in text. -/
def mnemonic : Opcode → String
  | binary op => op.mnemonic
  | icmp => "icmp"
  | select => "select"
  | phi => "phi"
  | call => "call"
  | alloca => "alloca"
  | load => "load"
  | store => "store"
  | ret => "ret"
  | br => "br"
  | unreachable => "unreachable"

/-- Every opcode. -/
def all : List Opcode :=
  BinaryOp.all.map binary ++
    [icmp, select, phi, call, alloca, load, store, ret, br, unreachable]

/-- The opcode with the given name. -/
def ofMnemonic? (name : String) : Option Opcode :=
  all.find? fun op => op.mnemonic == name

/-- The opcode is a two-operand integer operation. -/
def isBinary : Opcode → Bool
  | binary _ => true
  | _ => false

/-- The opcode ends a block. -/
def isTerminator : Opcode → Bool
  | ret | br | unreachable => true
  | _ => false

/-- The identity element of a two-operand operation. -/
def identity? : Opcode → Option Int
  | binary op => op.identity?
  | _ => none

theorem ofMnemonic?_mnemonic (op : Opcode) : ofMnemonic? op.mnemonic = some op := by
  rcases op with ⟨⟨⟩⟩ | _ <;> decide

end Opcode

/-- How `icmp` compares its operands. -/
inductive Predicate where
  | eq | ne | ugt | uge | ult | ule | sgt | sge | slt | sle
deriving DecidableEq, Repr, Inhabited

namespace Predicate

/-- The name of a predicate in text. -/
def name : Predicate → String
  | eq => "eq"
  | ne => "ne"
  | ugt => "ugt"
  | uge => "uge"
  | ult => "ult"
  | ule => "ule"
  | sgt => "sgt"
  | sge => "sge"
  | slt => "slt"
  | sle => "sle"

/-- Every predicate. -/
def all : List Predicate := [eq, ne, ugt, uge, ult, ule, sgt, sge, slt, sle]

/-- The predicate with the given name. -/
def ofName? (s : String) : Option Predicate := all.find? fun p => p.name == s

theorem ofName?_name (p : Predicate) : ofName? p.name = some p := by
  cases p <;> decide

end Predicate

/-- The flags of an arithmetic instruction: no unsigned wrap, no signed wrap, exact. -/
structure ArithFlags where
  nuw : Bool := false
  nsw : Bool := false
  exact : Bool := false
deriving DecidableEq, Repr, Inhabited

namespace ArithFlags

/-- The flags that are set, by name, in the order in which they are written. -/
def names (f : ArithFlags) : List String :=
  (if f.nuw then ["nuw"] else []) ++ (if f.nsw then ["nsw"] else []) ++
    (if f.exact then ["exact"] else [])

end ArithFlags
end SsaFold
