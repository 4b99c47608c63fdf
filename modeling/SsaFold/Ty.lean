/-!
# Types of values

A value is an integer of a fixed width, an opaque pointer, or nothing at all (`void`, the
type of an instruction that produces no result).
-/

namespace SsaFold

/-- The type of a value. -/
inductive Ty where
  /-- No value. -/
  | void
  /-- An integer of the given width in bits. -/
  | int (bits : Nat)
  /-- An opaque pointer. -/
  | ptr
deriving DecidableEq, Repr, Inhabited

namespace Ty

/-- Truth values are one bit wide. -/
abbrev i1 : Ty := int 1

/-- The type has no values. -/
def isVoid : Ty → Bool
  | void => true
  | _ => false

/-- How a type is written. -/
def text : Ty → String
  | void => "void"
  | int bits => "i" ++ toString bits
  | ptr => "ptr"

@[simp] theorem isVoid_iff {ty : Ty} : ty.isVoid = true ↔ ty = void := by
  cases ty <;> simp [isVoid]

end Ty
end SsaFold
