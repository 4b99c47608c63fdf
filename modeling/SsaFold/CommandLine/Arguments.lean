import SsaFold.Simplify.Pass
import SsaFold.Text.Decimal

/-!
# Arguments

The command line names an input, an optional output and options:
`INPUT [OUTPUT] [--verify] [--max-identity-bits N] [-v | --verbose]* [-q | --quiet]*`.
After `--` every argument is a name.
-/

namespace SsaFold.CommandLine

/-- What the command line asks for. -/
structure Request where
  /-- The file that is read. -/
  input : String
  /-- The file to which the simplified module is written; without it calls are reported. -/
  output : Option String
  options : Options
deriving DecidableEq, Repr

/-- What has been collected from the arguments. -/
structure Collected where
  names : List String := []
  verify : Bool := false
  maxIdentityBits : Option Nat := none
deriving DecidableEq, Repr

namespace Collected

/-- Take in a name; there are at most two, and none is empty. -/
def addName (c : Collected) (name : String) : Option Collected :=
  if name = "" ∨ c.names.length = 2 then none else some { c with names := c.names ++ [name] }

/-- Take in the bound on identity elements, a number of 32 bits. -/
def setBits (c : Collected) (text : String) : Option Collected :=
  match c.maxIdentityBits, Text.signedBelow? (modulus 32) text.toList with
  | none, some n => some { c with maxIdentityBits := some n }
  | _, _ => none

/-- What follows the equals sign of `--max-identity-bits=`. -/
def attachedBits? (arg : String) : Option String :=
  let option := "--max-identity-bits=".toList
  if option.isPrefixOf arg.toList then
    some (String.ofList (arg.toList.drop option.length))
  else none

/-- A dash and one or more of the letters `v` and `q`. -/
def isVerbosity (arg : String) : Bool :=
  match arg.toList with
  | '-' :: c :: cs => (c :: cs).all (· ∈ ['v', 'q'])
  | _ => false

/-- The argument looks like an option. -/
def isOption (arg : String) : Bool :=
  match arg.toList with
  | '-' :: _ :: _ => true
  | _ => false

/-- Take in the arguments. -/
def addAll (c : Collected) : List String → Option Collected
  | [] => some c
  | "--" :: names => names.foldlM addName c
  | "--verify" :: rest => if c.verify then none else { c with verify := true }.addAll rest
  | "--max-identity-bits" :: text :: rest =>
    if isOption text then none else (c.setBits text).bind (·.addAll rest)
  | arg :: rest =>
    if arg = "--verbose" ∨ arg = "--quiet" ∨ isVerbosity arg then c.addAll rest
    else match attachedBits? arg with
      | some text => (c.setBits text).bind (·.addAll rest)
      | none => if isOption arg then none else (c.addName arg).bind (·.addAll rest)

end Collected

/-- What the arguments ask for, if they are well formed. -/
def Request.ofArgs? (args : List String) : Option Request := do
  let c ← ({} : Collected).addAll args
  let options : Options := { verify := c.verify }
  let options :=
    match c.maxIdentityBits with
    | some n => { options with maxIdentityBits := n }
    | none => options
  match c.names with
  | [input] => return { input, output := none, options }
  | [input, output] => return { input, output := some output, options }
  | _ => none

end SsaFold.CommandLine
