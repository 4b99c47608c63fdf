import SsaFold.Ty

/-!
# Integer constants

A constant of width `bits` is a residue modulo `2 ^ bits`.  It is held as the one
representative that lies between minus one half and one half of the modulus, so that
`4294967295` and `-1` are the same constant at width 32, and the true one-bit constant is
`-1`.
-/

namespace SsaFold

/-- The widest integers have this many bits. -/
def maxIntBits : Nat := 64

/-- There are `2 ^ bits` integers of a width, and they are counted modulo this number. -/
def modulus (bits : Nat) : Nat := Nat.pow 2 bits

theorem modulus_zero : modulus 0 = 1 := rfl

theorem modulus_succ (bits : Nat) : modulus (bits + 1) = 2 * modulus bits :=
  Nat.mul_comm (Nat.pow 2 bits) 2

theorem modulus_pos (bits : Nat) : 0 < modulus bits := by
  induction bits with
  | zero => simp [modulus_zero]
  | succ n ih => rw [modulus_succ]; omega

/-- An integer constant of a supported width, held by its signed representative. -/
structure IntConst where
  /-- The width in bits. -/
  bits : Nat
  /-- The signed representative. -/
  value : Int
  bits_pos : 0 < bits
  bits_le : bits ≤ maxIntBits
  lower : -(modulus bits : Int) ≤ 2 * value
  upper : 2 * value < modulus bits
deriving DecidableEq

namespace IntConst

/-- The constant of width `bits` congruent to `raw` modulo `2 ^ bits`. -/
def ofInt (bits : Nat) (raw : Int) (pos : 0 < bits) (le : bits ≤ maxIntBits) : IntConst where
  bits := bits
  value := raw.bmod (modulus bits)
  bits_pos := pos
  bits_le := le
  lower := by
    obtain ⟨n, rfl⟩ : ∃ n, bits = n + 1 := ⟨bits - 1, by omega⟩
    have h := @Int.le_bmod raw (modulus (n + 1)) (modulus_pos _)
    have := modulus_succ n
    omega
  upper := by
    obtain ⟨n, rfl⟩ : ∃ n, bits = n + 1 := ⟨bits - 1, by omega⟩
    have h := @Int.bmod_lt raw (modulus (n + 1)) (modulus_pos _)
    have := modulus_succ n
    omega

/-- The constant of width `bits` congruent to `raw`, if the width is supported. -/
def ofInt? (bits : Nat) (raw : Int) : Option IntConst :=
  if h : 0 < bits ∧ bits ≤ maxIntBits then some (ofInt bits raw h.1 h.2) else none

/-- The type of a constant. -/
def ty (c : IntConst) : Ty := .int c.bits

/-- A constant is written as a truth value at width one and in signed decimal otherwise. -/
def text (c : IntConst) : String :=
  if c.bits = 1 then (if c.value = 0 then "false" else "true") else toString c.value

@[ext] theorem ext {c d : IntConst} (hb : c.bits = d.bits) (hv : c.value = d.value) : c = d := by
  cases c; cases d; simp_all

@[simp] theorem bits_ofInt {bits : Nat} {raw : Int} (h₁ : 0 < bits) (h₂ : bits ≤ maxIntBits) :
    (ofInt bits raw h₁ h₂).bits = bits := rfl

@[simp] theorem value_ofInt {bits : Nat} {raw : Int} (h₁ : 0 < bits) (h₂ : bits ≤ maxIntBits) :
    (ofInt bits raw h₁ h₂).value = raw.bmod (modulus bits) := rfl

/-- Two numbers give one constant exactly when they are congruent modulo `2 ^ bits`. -/
theorem ofInt_eq_ofInt_iff {bits : Nat} {a b : Int} (h₁ : 0 < bits) (h₂ : bits ≤ maxIntBits) :
    ofInt bits a h₁ h₂ = ofInt bits b h₁ h₂ ↔ a % modulus bits = b % modulus bits := by
  constructor
  · intro h
    have hv : a.bmod (modulus bits) = b.bmod (modulus bits) := congrArg value h
    rw [← @Int.bmod_emod a (modulus bits), ← @Int.bmod_emod b (modulus bits), hv]
  · intro h
    refine ext rfl ?_
    simp only [value_ofInt]
    rw [← @Int.emod_bmod a (modulus bits), ← @Int.emod_bmod b (modulus bits), h]

end IntConst
end SsaFold
