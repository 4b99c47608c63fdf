import SsaFold.Proofs.Mirror.Print

/-!
# Modules with one bare module

Where two modules differ in the record of the reads only, every entry stands for itself
(`Module.selfPairing`), and the modules mirror each other.  So the order in which the reads of a
value are recorded is not seen in print (`Module.toText_of_bare`).
-/

namespace SsaFold

namespace Module

variable {m n : Module}

/-- Every entry stands for itself. -/
def selfPairing (m : Module) : Pairing where
  shared v w := v = w ∧ ∃ kind, m.kind? v = some kind ∧ kind.IsShared
  own v w := v = w ∧ ∃ kind, m.kind? v = some kind ∧ ¬ kind.IsShared
  inst i j := i = j
  block b c := b = c ∧ ∃ block, m.block? b = some block
  own_biUnique := ⟨fun _ _ _ h h' => h.1.trans h'.1.symm, fun _ _ _ h h' => h.1.symm.trans h'.1⟩
  inst_biUnique := ⟨fun _ _ _ h h' => h.trans h'.symm, fun _ _ _ h h' => h.symm.trans h'⟩
  block_biUnique := ⟨fun _ _ _ h h' => h.1.trans h'.1.symm, fun _ _ _ h h' => h.1.symm.trans h'.1⟩

/-- A value that is there stands for itself. -/
lemma selfPairing_value {v : ValueId} {kind : ValueKind} (hv : m.kind? v = some kind) :
    m.selfPairing.value v v := by
  by_cases hkind : kind.IsShared
  · exact .inl ⟨rfl, kind, hv, hkind⟩
  · exact .inr ⟨rfl, kind, hv, hkind⟩

lemma Complete.selfPairing_inst (h : m.Complete) {i : InstId} {inst : Inst}
    (hi : m.inst? i = some inst) : m.selfPairing.PairsInst inst inst := by
  obtain ⟨f, -, hoperands, htargets⟩ := h.within hi
  refine ⟨rfl, List.forall₂_same.2 fun v hv => ?_, List.forall₂_same.2 fun b hb => ?_, ?_⟩
  · obtain ⟨value, hvalue, -⟩ := hoperands v hv
    exact selfPairing_value (kind?_eq_some.2 ⟨value, hvalue, rfl⟩)
  · obtain ⟨block, hblock, -⟩ := owner?_eq_some.1 (htargets b hb)
    exact ⟨rfl, block, hblock⟩
  · obtain ⟨value, hvalue, hkind⟩ := h.intact.shaped.result i inst hi
    exact ⟨rfl, _, kind?_eq_some.2 ⟨value, hvalue, hkind⟩, not_false⟩

lemma Complete.selfPairing_func (h : m.Complete) {f : FuncId} {func : Func}
    (hf : m.func? f = some func) : m.selfPairing.PairsFunc m m func func := by
  refine ⟨rfl, rfl, rfl, rfl, rfl, rfl, fun _ => List.forall₂_same.2 fun v hv => ?_,
    List.forall₂_same.2 fun b hb => ?_⟩
  · obtain ⟨k, hk⟩ := List.mem_iff_getElem?.1 hv
    obtain ⟨value, hvalue, hkind, -⟩ := (h.draft.funcs f func hf).params k v hk
    exact ⟨rfl, _, kind?_eq_some.2 ⟨value, hvalue, hkind⟩, not_false⟩
  · obtain ⟨block, hblock, -⟩ := h.intact.shaped.placed f func hf b (Array.mem_toList_iff.1 hb)
    exact ⟨rfl, block, hblock⟩

/-- A complete module mirrors itself. -/
lemma Complete.selfPairing_mirrors (h : m.Complete) : m.selfPairing.Mirrors m m where
  name := rfl
  sourceFilename := rfl
  targetLines := rfl
  globals := rfl
  funcs := by
    refine List.forall₂_same.2 fun func hmem => ?_
    obtain ⟨k, hk⟩ := List.mem_iff_getElem?.1 hmem
    exact h.selfPairing_func (f := ⟨k⟩) (by rwa [func?, ← Array.getElem?_toList])
  blocks := by
    rintro b _ ⟨rfl, block, hblock⟩
    exact ⟨block, block, hblock, hblock, rfl, List.forall₂_same.2 fun _ _ => rfl⟩
  insts := by
    rintro i _ rfl
    cases hi : m.inst? i with
    | none => exact .none
    | some inst => exact .some (h.selfPairing_inst hi)
  shared := by
    rintro v _ ⟨rfl, kind, hkind, hshared⟩
    exact ⟨kind, hshared, hkind, hkind⟩
  own := by
    rintro v _ ⟨rfl, kind, hkind, hown⟩
    obtain ⟨value, hvalue, rfl⟩ := kind?_eq_some.1 hkind
    exact ⟨value, value, hvalue, hvalue, hown, hown, rfl, fun _ => rfl⟩

/-- The record of the reads is not printed. -/
theorem toText_of_bare (h : m.Complete) (hn : n.Shaped) (hbare : n.bare = m.bare) :
    n.toText = m.toText := by
  have hm : m.bare = m.bare.residue id [] := (residue_id_nil _).symm
  have hmirrors := h.selfPairing_mirrors.residue hm (hbare.trans hm) (fun hvw => hvw)
    fun _ => by simp
  exact (hmirrors.toText h hn).symm

end Module
end SsaFold
