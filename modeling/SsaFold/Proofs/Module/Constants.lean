import Mathlib.Data.Int.ModEq
import SsaFold.Proofs.Module.Additions

/-!
# Constants are shared

An addition leaves the kinds of the values that are there alone, and a constant is added only where
there is none of its kind (`Module.KeepsConstants`).  So a constant that has been asked for stays
what it is, whatever is done in between, and asking for a congruent number at the same width leads
to it again (`Reachable.constInt_eq_iff`).
-/

namespace SsaFold

lemma modulus_eq (bits : Nat) : (modulus bits : Int) = 2 ^ bits := by
  rw [modulus]
  exact Int.natCast_pow 2 bits

namespace IntConst

/-- The constant lies between minus one half and one half of the modulus. -/
lemma value_mem (c : IntConst) : -2 ^ (c.bits - 1) ≤ c.value ∧ c.value < 2 ^ (c.bits - 1) := by
  have hhalf : (modulus c.bits : Int) = 2 * 2 ^ (c.bits - 1) := by
    rw [modulus_eq, ← pow_succ', Nat.sub_add_cancel c.bits_pos]
  have hlower := c.lower
  have hupper := c.upper
  rw [hhalf] at hlower hupper
  constructor <;> omega

lemma ofInt?_eq_some {bits : Nat} {raw : Int} {c : IntConst} (h : ofInt? bits raw = some c) :
    ∃ (pos : 0 < bits) (le : bits ≤ maxIntBits), c = ofInt bits raw pos le := by
  rw [ofInt?] at h
  split_ifs at h with hbits
  exact ⟨hbits.1, hbits.2, (Option.some.inj h).symm⟩

/-- The constant is congruent to the number that it is asked for. -/
lemma modEq_of_ofInt? {bits : Nat} {raw : Int} {c : IntConst} (h : ofInt? bits raw = some c) :
    c.bits = bits ∧ c.value ≡ raw [ZMOD 2 ^ bits] := by
  obtain ⟨pos, le, rfl⟩ := ofInt?_eq_some h
  refine ⟨rfl, ?_⟩
  rw [value_ofInt, ← modulus_eq]
  exact Int.bmod_emod

end IntConst

namespace Module

variable {m m' m'' : Module} {v w : ValueId}

/-- No constant is held twice. -/
def SharesConstants (m : Module) : Prop :=
  ∀ v w c, m.kind? v = some (.constInt c) → m.kind? w = some (.constInt c) → v = w

/-- Values keep their kinds, and no constant comes to be held twice. -/
structure KeepsConstants (m m' : Module) : Prop where
  kind? : ∀ {v kind}, m.kind? v = some kind → m'.kind? v = some kind
  shares : m.SharesConstants → m'.SharesConstants

namespace KeepsConstants

lemma refl (m : Module) : m.KeepsConstants m := ⟨id, id⟩

lemma trans (h : m.KeepsConstants m') (h' : m'.KeepsConstants m'') : m.KeepsConstants m'' :=
  ⟨h'.kind? ∘ h.kind?, h'.shares ∘ h.shares⟩

/-- Kinds are added, and no constant is among them. -/
lemma of_append (kinds : Array ValueKind) (hkinds : m'.valueKinds = m.valueKinds ++ kinds)
    (hconst : ∀ c, .constInt c ∉ kinds) : m.KeepsConstants m' := by
  have hold : ∀ v c, m'.kind? v = some (.constInt c) → m.kind? v = some (.constInt c) := by
    intro v c hv
    rw [kind?_eq_getElem?, hkinds, Array.getElem?_append] at hv
    rw [kind?_eq_getElem?]
    split_ifs at hv with hlt
    · exact hv
    · exact absurd (Array.mem_of_getElem? hv) (hconst c)
  constructor
  · intro v kind hv
    rw [kind?_eq_getElem?] at hv ⊢
    rwa [hkinds, Array.getElem?_append_left (Array.getElem?_eq_some_iff.1 hv).1]
  · intro hm v w c hv hw
    exact hm v w c (hold v c hv) (hold w c hw)

/-- A kind is added that no value has had. -/
lemma of_push {kind : ValueKind} (hkinds : m'.valueKinds = m.valueKinds.push kind)
    (hfresh : kind ∉ m.valueKinds) : m.KeepsConstants m' := by
  have hkind : ∀ v, m'.kind? v
      = if v.index = m.valueKinds.size then some kind else m.kind? v := by
    intro v
    rw [kind?_eq_getElem?, kind?_eq_getElem?, hkinds, Array.getElem?_push]
  have hnew : ∀ v, m.kind? v ≠ some kind := by
    intro v hv
    rw [kind?_eq_getElem?] at hv
    exact hfresh (Array.mem_of_getElem? hv)
  constructor
  · intro v kind' hv
    rw [kind?_eq_getElem?] at hv ⊢
    rwa [hkinds, Array.getElem?_push_lt (Array.getElem?_eq_some_iff.1 hv).1,
      ← Array.getElem?_eq_getElem]
  · intro hm v w c hv hw
    rw [hkind] at hv hw
    split_ifs at hv hw with h₁ h₂ h₂
    · rcases v with ⟨v⟩
      rcases w with ⟨w⟩
      exact congrArg _ (h₁.trans h₂.symm)
    · exact absurd (hw.trans hv.symm) (hnew w)
    · exact absurd (hv.trans hw.symm) (hnew v)
    · exact hm v w c hv hw

end KeepsConstants

lemma Addition.keepsConstants (h : m.Addition m') : m.KeepsConstants m' := by
  cases h with
  | nothing kinds => exact .of_append #[] (by simpa using kinds) (by simp)
  | @value kind kinds _ _ fresh =>
    by_cases hconst : ∃ c, kind = .constInt c
    · obtain ⟨c, hc⟩ := hconst
      exact .of_push kinds (fresh c hc)
    · refine .of_append #[kind] (by simpa using kinds) fun c hc => hconst ⟨c, ?_⟩
      exact (Array.mem_singleton.1 hc).symm
  | func params kinds _ arguments =>
    refine .of_append (#[.function ⟨m.functions.size⟩] ++ params) ?_ fun c hc => ?_
    · rw [kinds, ← Array.append_assoc, Array.push_eq_append]
    · rcases Array.mem_append.1 hc with hc | hc
      · cases Array.mem_singleton.1 hc
      · obtain ⟨_, _, heq⟩ := arguments _ hc
        cases heq

lemma Additions.keepsConstants (h : m.Additions m') : m.KeepsConstants m' := by
  induction h with
  | refl => exact .refl m
  | tail _ hstep ih => exact ih.trans hstep.keepsConstants

/-! ## Asking for a constant -/

/-- A constant is a value that is shared. -/
lemma constInt_eq_share {bits : Nat} {n : Int}
    (hrun : m.constInt bits n = .ok (m', v)) : ∃ c, IntConst.ofInt? bits n = some c ∧
      m' = (m.shareValue { kind := .constInt c, ty := c.ty }).1 ∧
      v = (m.shareValue { kind := .constInt c, ty := c.ty }).2 := by
  rw [Module.constInt] at hrun
  split at hrun
  · rename_i c hc
    have heq := Except.ok.inj hrun
    exact ⟨c, hc, (congrArg Prod.fst heq).symm, (congrArg Prod.snd heq).symm⟩
  · cases hrun

/-- A value that is shared is of the kind that was asked for. -/
lemma kind?_shareValue (m : Module) (fresh : Value) :
    (m.shareValue fresh).1.kind? (m.shareValue fresh).2 = some fresh.kind := by
  obtain ⟨-, -, value, hv, hkind⟩ := shareValue_eq (m := m) fresh
  exact kind?_eq_some.2 ⟨value, hv, hkind⟩

/-- What is asked for is there afterwards. -/
lemma kind?_constInt {bits : Nat} {n : Int} (hrun : m.constInt bits n = .ok (m', v)) :
    ∃ c, IntConst.ofInt? bits n = some c ∧ m'.kind? v = some (.constInt c) := by
  obtain ⟨c, hc, rfl, rfl⟩ := constInt_eq_share hrun
  exact ⟨c, hc, kind?_shareValue m _⟩

end Module

open SsaFold.Module

variable {m m₁ m₂ m₃ : Module}

lemma Reachable.keepsConstants_runAll (h : Reachable m) {ops : List Op}
    (hrun : Op.runAll m ops = .ok m₁) :
    m.KeepsConstants m₁ := by
  have hboth := foldlM_keeps (P := fun m' => Reachable m' ∧ m.KeepsConstants m')
    (fun m₁ op m₂ h hop => ⟨h.1.step op hop, h.2.trans (h.1.intact.additions hop).keepsConstants⟩)
    ⟨h, .refl m⟩ hrun
  exact hboth.2

lemma Reachable.sharesConstants (h : Reachable m) : m.SharesConstants := by
  induction h with
  | empty name =>
    intro v w c hv
    simp [kind?, value?, Module.empty] at hv
  | step op h hrun ih => exact (h.intact.additions hrun).keepsConstants.shares ih

/-- A constant that is there is found. -/
lemma Reachable.constInt_of_kind? (h : Reachable m) {v : ValueId} {c : IntConst}
    (hv : m.kind? v = some (.constInt c)) {bits : Nat} {raw : Int}
    (hc : IntConst.ofInt? bits raw = some c) : m.constInt bits raw = .ok (m, v) := by
  have hfound := kind?_shareValue m { kind := .constInt c, ty := c.ty }
  rw [Module.constInt, hc]
  show Except.ok (m.shareValue _) = _
  rw [Module.shareValue] at hfound ⊢
  split at hfound
  · rename_i k hk
    rw [h.sharesConstants v ⟨k⟩ c hv hfound]
  · rename_i hnone
    obtain ⟨value, hvalue, heq⟩ := kind?_eq_some.1 hv
    have hne := Array.findIdx?_eq_none_iff.1 hnone value (Array.mem_of_getElem? hvalue)
    simp [heq] at hne

/-- Two constants that are asked for, whatever is done in between, are one value exactly if they are
of one width and their numbers are congruent. -/
lemma Reachable.constInt_eq_iff (h : Reachable m) {bits bits' : Nat} {a b : Int} {v w : ValueId}
    {ops : List Op} (ha : m.constInt bits a = .ok (m₁, v)) (hrun : Op.runAll m₁ ops = .ok m₂)
    (hb : m₂.constInt bits' b = .ok (m₃, w)) : v = w ↔ bits = bits' ∧ a ≡ b [ZMOD 2 ^ bits] := by
  have h₁ : Reachable m₁ := h.step (.constInt bits a) (by simp [Op.run, ha])
  have h₂ := h₁.runAll hrun
  have h₃ : Reachable m₃ := h₂.step (.constInt bits' b) (by simp [Op.run, hb])
  obtain ⟨c, hc, hv⟩ := kind?_constInt ha
  obtain ⟨d, hd, hw⟩ := kind?_constInt hb
  replace hv := (Addition.constInt hb).keepsConstants.kind?
    ((h₁.keepsConstants_runAll hrun).kind? hv)
  have hiff : v = w ↔ c = d := by
    constructor
    · rintro rfl
      exact ValueKind.constInt.inj (Option.some.inj (hv.symm.trans hw))
    · rintro rfl
      exact h₃.sharesConstants v w c hv hw
  obtain ⟨pos, le, rfl⟩ := IntConst.ofInt?_eq_some hc
  obtain ⟨pos', le', rfl⟩ := IntConst.ofInt?_eq_some hd
  rw [hiff]
  constructor
  · intro heq
    obtain rfl : bits = bits' := congrArg IntConst.bits heq
    refine ⟨rfl, ?_⟩
    rw [IntConst.ofInt_eq_ofInt_iff, modulus_eq] at heq
    exact heq
  · rintro ⟨rfl, heq⟩
    rw [IntConst.ofInt_eq_ofInt_iff, modulus_eq]
    exact heq

end SsaFold
