import SsaFold.Module.Fault

/-!
# Reads

The use list of a value holds its reads in no particular order: a new read goes to the end,
and when a read is removed the last one takes its position.  Every operation below changes
the operand and the use list together, so the two records of a read agree between calls.
-/

namespace SsaFold

/-- Remove the entry at position `k` of `a`; the last entry takes its place. -/
def swapRemove {α : Type} (a : Array α) (k : Nat) : Array α :=
  match a.back? with
  | some last => (a.setIfInBounds k last).pop
  | none => a

/-- Only the removed position and the last one change. -/
theorem getElem?_swapRemove {α : Type} {a : Array α} {k : Nat} (hk : k < a.size) (j : Nat) :
    (swapRemove a k)[j]? =
      if j + 1 < a.size then (if j = k then a.back? else a[j]?) else none := by
  have hlast : a.back? = some a[a.size - 1] := by
    rw [Array.back?_eq_getElem?]; exact Array.getElem?_eq_getElem (by omega)
  have hs : swapRemove a k = (a.setIfInBounds k a[a.size - 1]).pop := by simp [swapRemove, hlast]
  rw [hs, Array.getElem?_pop, Array.size_setIfInBounds, Array.getElem?_setIfInBounds, hlast]
  by_cases hj : j + 1 < a.size
  · have hj' : j < a.size - 1 := by omega
    by_cases hjk : k = j
    · subst hjk; simp [hj, hj', hk]
    · simp [hj, hj', hjk, Ne.symm hjk]
  · have hj' : ¬ j < a.size - 1 := by omega
    simp [hj, hj']

namespace Module

/-- Record a read at the end of the use list of `v`; its position is returned too. -/
def addUse (m : Module) (v : ValueId) (u : Use) : Except Fault (Module × Nat) := do
  let value ← m.getValue v
  return (m.modifyValue v fun x => { x with uses := x.uses.push u }, value.uses.size)

/-- Change the operand at a place that must exist. -/
def setOperandAt (m : Module) (u : Use) (f : Operand → Operand) : Except Fault Module := do
  let _ ← m.getOperand u
  return m.modifyInst u.user fun x => { x with operands := x.operands.modify u.operand f }

/-- Remove a read from the use list of `v`.  The read that takes its position is told so. -/
def removeUse (m : Module) (v : ValueId) (u : Use) : Except Fault Module := do
  let slot := (← m.getOperand u).slot
  let value ← m.getValue v
  unless value.uses[slot]? = some u do
    throw (.useOutOfSync v slot)
  let uses := swapRemove value.uses slot
  let m := m.modifyValue v fun x => { x with uses }
  match uses[slot]? with
  | some moved => m.setOperandAt moved fun o => { o with slot }
  | none => return m

/-- Let an operand read `v`. -/
def setOperand (m : Module) (u : Use) (v : ValueId) : Except Fault Module := do
  let old := (← m.getOperand u).value
  if old = v then return m
  let m ← m.removeUse old u
  let (m, slot) ← m.addUse v u
  m.setOperandAt u fun _ => ⟨v, slot⟩

/-- Let the operands at the given places read `v`, where their entries will stand from
position `slot` on. -/
def redirect (m : Module) (v : ValueId) : Nat → List Use → Except Fault Module
  | _, [] => .ok m
  | slot, u :: us => do
    let m ← m.setOperandAt u fun _ => ⟨v, slot⟩
    redirect m v (slot + 1) us

/-- Let every operand that reads `source` read `target`; the entries move to the end of the
use list of `target` in order.  The number of operands is returned too. -/
def replaceAllUses (m : Module) (source target : ValueId) : Except Fault (Module × Nat) := do
  if source = target then return (m, 0)
  let moved := (← m.getValue source).uses
  let m := m.modifyValue source fun x => { x with uses := #[] }
  let base := (← m.getValue target).uses.size
  let m ← m.redirect target base moved.toList
  return (m.modifyValue target fun x => { x with uses := x.uses ++ moved }, moved.size)

/-- Recording a read needs the value and changes nothing but its use list. -/
theorem addUse_eq_ok_iff {m m' : Module} {v : ValueId} {u : Use} {slot : Nat} :
    m.addUse v u = .ok (m', slot) ↔
      ∃ value, m.value? v = some value ∧ slot = value.uses.size ∧
        m' = m.modifyValue v fun x => { x with uses := x.uses.push u } := by
  unfold addUse
  cases h : m.getValue v with
  | error e =>
    have hn : m.value? v = none := by
      cases hv : m.value? v with
      | none => rfl
      | some value => simp [getValue_eq_ok.2 hv] at h
    simp [bind, Except.bind, hn]
  | ok value =>
    have hv := getValue_eq_ok.1 h
    simp only [bind, Except.bind, pure, Except.pure, Except.ok.injEq, Prod.mk.injEq, hv,
      Option.some.injEq]
    constructor
    · rintro ⟨rfl, rfl⟩
      exact ⟨value, rfl, rfl, rfl⟩
    · rintro ⟨_, rfl, rfl, rfl⟩
      exact ⟨rfl, rfl⟩

@[simp] theorem replaceAllUses_self (m : Module) (v : ValueId) :
    m.replaceAllUses v v = .ok (m, 0) := by
  simp [replaceAllUses, pure, Except.pure]

end Module
end SsaFold
