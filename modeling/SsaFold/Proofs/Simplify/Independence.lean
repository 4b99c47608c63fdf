import SsaFold.Proofs.Simplify.Locality

/-!
# Functions are simplified independently

What holds of one fold and one erasure is carried through the loops of the simplifier.  A run in one
function leaves the others as they are (`Module.Descends.worksIn_eliminate`), and two runs in one
function erase as many instructions and end alike, whatever has been done to other functions before
(`Module.SameIn.eliminate`).
-/

namespace SsaFold

namespace Module

variable {m₀ m n m' n' m'' : Module} {f g : FuncId} {i : InstId} {b : BlockId} {maxBits k k' : Nat}

/-! ## Work in one function -/

/-- Work in function `g` leads from `m` to `m'`: it leads on, and leaves the other functions as they
are. -/
structure WorksIn (m₀ : Module) (g : FuncId) (m m' : Module) : Prop where
  descends : m₀.Descends m'
  elsewhere : ∀ f, f ≠ g → SameIn m₀ f m m'

lemma Descends.worksIn_refl (h : m₀.Descends m) (g : FuncId) : WorksIn m₀ g m m :=
  ⟨h, fun f _ => .refl m₀ f m⟩

lemma WorksIn.trans (h : WorksIn m₀ g m m') (h' : WorksIn m₀ g m' m'') : WorksIn m₀ g m m'' :=
  ⟨h'.descends, fun f hf => (h.elsewhere f hf).trans (h'.elsewhere f hf)⟩

section Works

variable (h : m₀.Descends m)
include h

lemma Descends.worksIn_foldInst {folded : Bool} (hg : m₀.HasInst g i)
    (hrun : m.foldInst maxBits i = .ok (m', folded)) : WorksIn m₀ g m m' := by
  obtain ⟨inst, hi, ⟨rfl, -⟩ | ⟨kept, rfl, -, hkept, hne⟩⟩ := h.complete.intact.foldInst_eq_ok hrun
  · exact h.worksIn_refl g
  · have hfolds := folds_of_kept? hkept
    exact ⟨h.redirected hi hfolds hne, fun f => h.sameIn_redirected hi hg hfolds.kept_mem⟩

lemma Descends.worksIn_scan {ids queued : List InstId} (hids : ∀ i ∈ ids, m₀.HasInst g i)
    (hrun : m.scan maxBits ids = .ok (m', queued)) :
    WorksIn m₀ g m m' ∧ ∀ i ∈ queued, m₀.HasInst g i := by
  induction ids generalizing m queued with
  | nil =>
    obtain ⟨rfl, rfl⟩ := Prod.mk.inj (Except.ok.inj hrun)
    exact ⟨h.worksIn_refl g, fun i hi => absurd hi List.not_mem_nil⟩
  | cons i rest ih =>
    obtain ⟨hi, hrest⟩ := List.forall_mem_cons.1 hids
    simp only [scan, bind_eq_ok, pure_eq_ok, Prod.mk.injEq] at hrun
    obtain ⟨⟨m₁, folded⟩, hfold, ⟨m₂, later⟩, hscan, rfl, rfl⟩ := hrun
    have hworks := h.worksIn_foldInst hi hfold
    obtain ⟨hworks', hlater⟩ := ih hworks.descends hrest hscan
    refine ⟨hworks.trans hworks', ?_⟩
    split_ifs
    · exact List.forall_mem_cons.2 ⟨hi, hlater⟩
    · exact hlater

lemma Descends.worksIn_eraseEach {ids : List InstId} (hids : ∀ i ∈ ids, m₀.HasInst g i)
    (hrun : ids.foldlM Module.eraseInst m = .ok m') : WorksIn m₀ g m m' :=
  foldlM_keeps_mem (P := WorksIn m₀ g m)
    (fun _ i hi _ hs hrun => hs.trans ⟨hs.descends.eraseInst hrun, fun _ =>
      hs.descends.sameIn_eraseInst (hids i hi) hrun⟩) (h.worksIn_refl g) hrun

/-- What a block of the function lists belongs to the function. -/
lemma Descends.hasInst_of_mem (hb : m₀.owner? b = some g) {block : Block}
    (hblock : m.block? b = some block) : ∀ i ∈ block.insts.toList, m₀.HasInst g i := by
  intro i hi
  obtain ⟨inst, hinst, rfl⟩ := h.complete.intact.shaped.exists_inst hblock i hi
  exact (h.hasInst_iff hinst).2 ((h.owner? inst.parent).trans hb)

lemma Descends.worksIn_simplifyBlock (hb : m₀.owner? b = some g)
    (hrun : m.simplifyBlock maxBits b = .ok (m', k)) : WorksIn m₀ g m m' := by
  simp only [simplifyBlock, bind_eq_ok, getBlock_eq_ok, pure_eq_ok, Prod.mk.injEq] at hrun
  obtain ⟨block, hblock, ⟨m₁, doomed⟩, hscan, _, herase, rfl, -⟩ := hrun
  obtain ⟨hworks, hdoomed⟩ := h.worksIn_scan (h.hasInst_of_mem hb hblock) hscan
  refine hworks.trans (hworks.descends.worksIn_eraseEach (fun i hi => ?_)
    (hworks.descends.complete.intact.eraseInsts_eq_foldlM herase))
  exact hdoomed i (List.mem_eraseDups.1 hi)

lemma Descends.worksIn_simplifyBlocks {bs : List BlockId} (hbs : ∀ b ∈ bs, m₀.owner? b = some g)
    (hrun : m.simplifyBlocks maxBits bs = .ok (m', k)) : WorksIn m₀ g m m' := by
  induction bs generalizing m k with
  | nil =>
    obtain ⟨rfl, -⟩ := Prod.mk.inj (Except.ok.inj hrun)
    exact h.worksIn_refl g
  | cons b rest ih =>
    obtain ⟨hb, hrest⟩ := List.forall_mem_cons.1 hbs
    simp only [simplifyBlocks, bind_eq_ok, pure_eq_ok, Prod.mk.injEq] at hrun
    obtain ⟨⟨m₁, here⟩, hblock, ⟨_, later⟩, hblocks, rfl, -⟩ := hrun
    have hworks := h.worksIn_simplifyBlock hb hblock
    exact hworks.trans (ih hworks.descends hrest hblocks)

/-- The blocks of a function belong to it. -/
lemma Descends.owner?_of_mem_layout {func : Func} (hf : m.func? f = some func) :
    ∀ b ∈ func.layout.toList, m₀.owner? b = some f := by
  intro b hb
  obtain ⟨block, hblock, hfunc⟩ :=
    h.complete.intact.shaped.placed f func hf b (Array.mem_toList_iff.1 hb)
  rw [← h.owner?]
  exact owner?_eq_some.2 ⟨block, hblock, hfunc⟩

/-- To simplify a function is work in this function. -/
lemma Descends.worksIn_eliminate (hrun : m.eliminate f maxBits = .ok (m', k)) :
    WorksIn m₀ f m m' := by
  simp only [eliminate, bind_eq_ok, getFunc_eq_ok] at hrun
  obtain ⟨func, hf, hblocks⟩ := hrun
  exact h.worksIn_simplifyBlocks (h.owner?_of_mem_layout hf) hblocks

end Works

/-! ## The same work twice -/

section Twice

variable (hsame : SameIn m₀ f m n) (hm : m₀.Descends m) (hn : m₀.Descends n)
include hsame hm hn

lemma SameIn.foldInst {folded folded' : Bool} (hf : m₀.HasInst f i)
    (hrun : m.foldInst maxBits i = .ok (m', folded))
    (hrun' : n.foldInst maxBits i = .ok (n', folded')) :
    folded' = folded ∧ SameIn m₀ f m' n' := by
  obtain ⟨inst, hi, hcases⟩ := hm.complete.intact.foldInst_eq_ok hrun
  obtain ⟨inst', hi', hcases'⟩ := hn.complete.intact.foldInst_eq_ok hrun'
  obtain ⟨inst'', hi'', heq⟩ := hsame.exists_inst hf hi
  obtain rfl := Option.some.inj (hi'.symm.trans hi'')
  have hresult := Inst.result_eq_of_bare heq
  rw [hm.kept?_eq hn heq, hresult] at hcases'
  rcases hcases with ⟨rfl, rfl, hself⟩ | ⟨kept, rfl, rfl, hkept, hne⟩ <;>
    rcases hcases' with ⟨rfl, rfl, hself'⟩ | ⟨kept', rfl, rfl, hkept', hne'⟩
  · exact ⟨rfl, hsame⟩
  · exact absurd (hself kept' hkept') hne'
  · exact absurd (hself' kept hkept) hne
  · obtain rfl := Option.some.inj (hkept.symm.trans hkept')
    exact ⟨rfl, hsame.redirected hm hn (hm.hasValue_result hi hf)⟩

lemma SameIn.scan {ids queued queued' : List InstId} (hids : ∀ i ∈ ids, m₀.HasInst f i)
    (hrun : m.scan maxBits ids = .ok (m', queued))
    (hrun' : n.scan maxBits ids = .ok (n', queued')) :
    queued' = queued ∧ SameIn m₀ f m' n' := by
  induction ids generalizing m n queued queued' with
  | nil =>
    obtain ⟨rfl, rfl⟩ := Prod.mk.inj (Except.ok.inj hrun)
    obtain ⟨rfl, rfl⟩ := Prod.mk.inj (Except.ok.inj hrun')
    exact ⟨rfl, hsame⟩
  | cons i rest ih =>
    obtain ⟨hi, hrest⟩ := List.forall_mem_cons.1 hids
    simp only [Module.scan, bind_eq_ok, pure_eq_ok, Prod.mk.injEq] at hrun hrun'
    obtain ⟨⟨m₁, folded⟩, hfold, ⟨_, later⟩, hscan, rfl, rfl⟩ := hrun
    obtain ⟨⟨n₁, folded'⟩, hfold', ⟨_, later'⟩, hscan', rfl, rfl⟩ := hrun'
    obtain ⟨rfl, hsame₁⟩ := hsame.foldInst hm hn hi hfold hfold'
    obtain ⟨rfl, hsame₂⟩ := ih hsame₁ (hm.worksIn_foldInst hi hfold).descends
      (hn.worksIn_foldInst hi hfold').descends hrest hscan hscan'
    exact ⟨rfl, hsame₂⟩

lemma SameIn.eraseEach {ids : List InstId} (hids : ∀ i ∈ ids, m₀.HasInst f i)
    (hrun : ids.foldlM Module.eraseInst m = .ok m')
    (hrun' : ids.foldlM Module.eraseInst n = .ok n') : SameIn m₀ f m' n' := by
  induction ids generalizing m n with
  | nil =>
    obtain rfl := Except.ok.inj hrun
    obtain rfl := Except.ok.inj hrun'
    exact hsame
  | cons i rest ih =>
    obtain ⟨hi, hrest⟩ := List.forall_mem_cons.1 hids
    simp only [List.foldlM_cons, bind_eq_ok] at hrun hrun'
    obtain ⟨m₁, herase, hrest₁⟩ := hrun
    obtain ⟨n₁, herase', hrest₁'⟩ := hrun'
    exact ih (hsame.eraseInst hm hn hi herase herase') (hm.eraseInst herase) (hn.eraseInst herase')
      hrest hrest₁ hrest₁'

lemma SameIn.simplifyBlock (hb : m₀.owner? b = some f)
    (hrun : m.simplifyBlock maxBits b = .ok (m', k))
    (hrun' : n.simplifyBlock maxBits b = .ok (n', k')) : k' = k ∧ SameIn m₀ f m' n' := by
  simp only [Module.simplifyBlock, bind_eq_ok, getBlock_eq_ok, pure_eq_ok, Prod.mk.injEq]
    at hrun hrun'
  obtain ⟨block, hblock, ⟨m₁, doomed⟩, hscan, _, herase, rfl, rfl⟩ := hrun
  obtain ⟨block', hblock', ⟨n₁, doomed'⟩, hscan', _, herase', rfl, rfl⟩ := hrun'
  obtain rfl := Option.some.inj (hblock.symm.trans ((hsame.block b hb).symm.trans hblock'))
  have hids := hm.hasInst_of_mem hb hblock
  obtain ⟨hworks, hdoomed⟩ := hm.worksIn_scan hids hscan
  have hworks' := (hn.worksIn_scan hids hscan').1
  obtain ⟨rfl, hsame₁⟩ := hsame.scan hm hn hids hscan hscan'
  refine ⟨rfl, hsame₁.eraseEach hworks.descends hworks'.descends (fun i hi => ?_)
    (hworks.descends.complete.intact.eraseInsts_eq_foldlM herase)
    (hworks'.descends.complete.intact.eraseInsts_eq_foldlM herase')⟩
  exact hdoomed i (List.mem_eraseDups.1 hi)

lemma SameIn.simplifyBlocks {bs : List BlockId} (hbs : ∀ b ∈ bs, m₀.owner? b = some f)
    (hrun : m.simplifyBlocks maxBits bs = .ok (m', k))
    (hrun' : n.simplifyBlocks maxBits bs = .ok (n', k')) : k' = k ∧ SameIn m₀ f m' n' := by
  induction bs generalizing m n k k' with
  | nil =>
    obtain ⟨rfl, rfl⟩ := Prod.mk.inj (Except.ok.inj hrun)
    obtain ⟨rfl, rfl⟩ := Prod.mk.inj (Except.ok.inj hrun')
    exact ⟨rfl, hsame⟩
  | cons b rest ih =>
    obtain ⟨hb, hrest⟩ := List.forall_mem_cons.1 hbs
    simp only [Module.simplifyBlocks, bind_eq_ok, pure_eq_ok, Prod.mk.injEq] at hrun hrun'
    obtain ⟨⟨m₁, here⟩, hblock, ⟨_, later⟩, hblocks, rfl, rfl⟩ := hrun
    obtain ⟨⟨n₁, here'⟩, hblock', ⟨_, later'⟩, hblocks', rfl, rfl⟩ := hrun'
    obtain ⟨rfl, hsame₁⟩ := hsame.simplifyBlock hm hn hb hblock hblock'
    obtain ⟨rfl, hsame₂⟩ := ih hsame₁ (hm.worksIn_simplifyBlock hb hblock).descends
      (hn.worksIn_simplifyBlock hb hblock').descends hrest hblocks hblocks'
    exact ⟨rfl, hsame₂⟩

/-- What it comes to depends on the function only. -/
lemma SameIn.eliminate (hrun : m.eliminate f maxBits = .ok (m', k))
    (hrun' : n.eliminate f maxBits = .ok (n', k')) : k' = k ∧ SameIn m₀ f m' n' := by
  simp only [Module.eliminate, bind_eq_ok, getFunc_eq_ok] at hrun hrun'
  obtain ⟨func, hf, hblocks⟩ := hrun
  obtain ⟨func', hf', hblocks'⟩ := hrun'
  have hfunc : n.func? f = m.func? f := by rw [func?, func?, hm.functions, hn.functions]
  obtain rfl := Option.some.inj (hf.symm.trans (hfunc ▸ hf'))
  exact hsame.simplifyBlocks hm hn (hm.owner?_of_mem_layout hf) hblocks hblocks'

end Twice

end Module
end SsaFold
