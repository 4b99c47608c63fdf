import SsaFold.Proofs.Module.Additions

/-!
# Addresses of functions

A function stands for one value, its address, which is added together with it.  No other addition is
a value of this kind or a function.  So a value of this kind is the address of the function that its
kind names, and of no other (`Reachable.addressed`).
-/

namespace SsaFold
namespace Module

variable {m m' : Module}

/-- The values that say of themselves that they are addresses of functions are these addresses. -/
def Addressed (m : Module) : Prop :=
  ∀ v f, m.kind? v = some (.function f) ↔ ∃ func, m.func? f = some func ∧ func.value = v

lemma addressed_iff : m.Addressed ↔ ∀ (v : ValueId) (f : FuncId),
    m.valueKinds[v.index]? = some (.function f) ↔ m.addresses[f.index]? = some v := by
  refine forall₂_congr fun v f => ?_
  rw [kind?_eq_getElem?, ← func?_value_eq_getElem?, Option.map_eq_some_iff]

/-- An address is added to both tables at once. -/
lemma Addition.addressed (h : m.Addition m') (hm : m.Addressed) : m'.Addressed := by
  rw [addressed_iff] at hm ⊢
  intro v f
  cases h with
  | nothing kinds addresses => rw [kinds, addresses, hm v f]
  | value kinds addresses noFunction _ =>
    rw [kinds, addresses, ← hm v f, Array.getElem?_push]
    split_ifs with hnew
    · simp [hnew, noFunction]
    · rfl
  | func params kinds addresses arguments =>
    -- The parameters come behind the address, and they are no addresses.
    have hkind : m'.valueKinds[v.index]? = some (.function f) ↔
        f.index = m.functions.size ∧ v.index = m.values.size ∨
          m.valueKinds[v.index]? = some (.function f) := by
      rw [kinds, Array.getElem?_append, Array.getElem?_push, Array.size_push, size_valueKinds]
      split_ifs with hlt hnew
      · rcases f with ⟨f⟩
        simp [hnew, eq_comm]
      · simp [hnew]
      · have hparam : params[v.index - (m.values.size + 1)]? ≠ some (.function f) := by
          intro h
          obtain ⟨_, _, heq⟩ := arguments _ (Array.mem_of_getElem? h)
          cases heq
        have hnone : m.valueKinds[v.index]? = none := by
          rw [Array.getElem?_eq_none_iff, size_valueKinds]
          omega
        simp [hparam, hnone, show v.index ≠ m.values.size by omega]
    rw [hkind, addresses, hm v f, Array.getElem?_push, size_addresses]
    split_ifs with hnew
    · rcases v with ⟨v⟩
      simp [hnew, eq_comm]
    · simp [hnew]

lemma Additions.addressed (h : m.Additions m') (hm : m.Addressed) : m'.Addressed := by
  induction h with
  | refl => exact hm
  | tail _ hstep ih => exact hstep.addressed ih

end Module

/-- In a reachable module the addresses of functions are what they say. -/
lemma Reachable.addressed {m : Module} (h : Reachable m) : m.Addressed := by
  induction h with
  | empty name =>
    intro v f
    simp [Module.kind?, Module.value?, Module.func?, Module.empty]
  | step op h hrun ih => exact (h.intact.additions hrun).addressed ih

end SsaFold
