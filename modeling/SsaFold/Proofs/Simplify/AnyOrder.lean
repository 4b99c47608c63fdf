import SsaFold.Proofs.Mirror.Bare
import SsaFold.Proofs.Simplify.Independence
import SsaFold.Proofs.Text.Printing

/-!
# The order of the functions does not matter

When functions are simplified one after the other, each becomes what it becomes on its own, with the
same number of erased instructions (`Module.Descends.eliminateEach`).  So two orders end with
modules that agree on every function.  All that is left for them to differ in is the order in which
the reads of shared values are recorded (`Module.SameButOrder`), and this is not printed.
-/

namespace SsaFold

namespace Module

variable {m₀ m n m' n' : Module} {f g : FuncId} {i : InstId} {v : ValueId} {maxBits k : Nat}

/-! ## Functions one after the other -/

/-- Simplify functions in the given order.  The number of the instructions that were erased is
returned with each function. -/
def eliminateEach (m : Module) (maxBits : Nat) :
    List FuncId → Except Fault (Module × List (FuncId × Nat))
  | [] => .ok (m, [])
  | f :: rest => do
    let (m, here) ← m.eliminate f maxBits
    let (m, later) ← eliminateEach m maxBits rest
    return (m, (f, here) :: later)

/-- The number of instructions that are erased when the function is simplified. -/
def erasedIn (m : Module) (maxBits : Nat) (f : FuncId) : Nat :=
  match m.eliminate f maxBits with
  | .ok (_, k) => k
  | .error _ => 0

/-- The modules differ at most in the order in which the reads of shared values are recorded. -/
structure SameButOrder (m n : Module) : Prop where
  bare : n.bare = m.bare
  uses : ∀ v, (n.usesOf v).toList.Perm (m.usesOf v).toList
  own : ∀ v kind, m.kind? v = some kind → ¬ kind.IsShared → n.usesOf v = m.usesOf v

lemma Descends.eliminate_ok (h : m₀.Descends m) (maxBits : Nat) (hf : f ∈ m₀.funcIds) :
    ∃ m' k, m.eliminate f maxBits = .ok (m', k) := by
  obtain ⟨func, hfunc⟩ := mem_funcIds.1 hf
  rw [func?, ← h.functions] at hfunc
  obtain ⟨m', gone, hrun, -⟩ := h.complete.intact.eliminate_steps maxBits hfunc []
  exact ⟨m', _, hrun⟩

/-- Functions can be simplified in any order.  A function that is not among them stays as it is, and
one that is among them becomes what it becomes on its own. -/
lemma Descends.eliminateEach (h : m₀.Descends m) (maxBits : Nat) {fs : List FuncId}
    (hfs : ∀ f ∈ fs, f ∈ m₀.funcIds) (hnodup : fs.Nodup) :
    ∃ m', m.eliminateEach maxBits fs = .ok (m', fs.map fun f => (f, m.erasedIn maxBits f)) ∧
      m₀.Descends m' ∧ (∀ f ∉ fs, SameIn m₀ f m m') ∧
      ∀ f ∈ fs, ∃ m₁ k, m.eliminate f maxBits = .ok (m₁, k) ∧ SameIn m₀ f m₁ m' := by
  induction fs generalizing m with
  | nil => exact ⟨m, rfl, h, fun f _ => .refl m₀ f m, fun f hf => absurd hf List.not_mem_nil⟩
  | cons g rest ih =>
    obtain ⟨hg, hrest⟩ := List.forall_mem_cons.1 hfs
    obtain ⟨hnew, hnodup⟩ := List.nodup_cons.1 hnodup
    obtain ⟨m₁, k, hrun⟩ := h.eliminate_ok maxBits hg
    have hworks := h.worksIn_eliminate hrun
    obtain ⟨m', hrun', h', hother, hdone⟩ := ih hworks.descends hrest hnodup
    -- What is simplified later has not been touched by now.
    have hlater : ∀ f ∈ rest, SameIn m₀ f m m₁ := by
      intro f hf
      refine hworks.elsewhere f ?_
      rintro rfl
      exact hnew hf
    have hcount : ∀ f ∈ rest, m₁.erasedIn maxBits f = m.erasedIn maxBits f := by
      intro f hf
      obtain ⟨m₂, k₂, hrun₂⟩ := hworks.descends.eliminate_ok maxBits (hrest f hf)
      obtain ⟨m₃, k₃, hrun₃⟩ := h.eliminate_ok maxBits (hrest f hf)
      rw [erasedIn, erasedIn, hrun₂, hrun₃]
      exact ((hlater f hf).eliminate h hworks.descends hrun₃ hrun₂).1
    refine ⟨m', ?_, h', fun f hf => ?_, fun f hf => ?_⟩
    · have hhere : m.erasedIn maxBits g = k := by rw [erasedIn, hrun]
      simp only [Module.eliminateEach, hrun, ok_bind, hrun', List.map_cons, hhere]
      rw [List.map_congr_left fun f hf => by rw [hcount f hf]]
      rfl
    · obtain ⟨hne, hnot⟩ := not_or.1 (List.mem_cons.not.1 hf)
      exact (hworks.elsewhere f hne).trans (hother f hnot)
    · rcases List.mem_cons.1 hf with rfl | hf
      · exact ⟨m₁, k, hrun, hother f hnew⟩
      · obtain ⟨m₂, k₂, hrun₂, hsame₂⟩ := hdone f hf
        obtain ⟨m₃, k₃, hrun₃⟩ := h.eliminate_ok maxBits (hrest f hf)
        exact ⟨m₃, k₃, hrun₃,
          ((hlater f hf).eliminate h hworks.descends hrun₃ hrun₂).2.trans hsame₂⟩

/-! ## Modules that agree on every function -/

/-- The table of the instructions is known from its entries and its size. -/
lemma insts_ext (hsize : n.insts.size = m.insts.size) (hinst : ∀ i, n.inst? i = m.inst? i) :
    n.insts = m.insts := by
  refine Array.ext hsize fun k hk hk' => ?_
  have := hinst ⟨k⟩
  rwa [inst?, inst?, Array.getElem?_eq_getElem hk, Array.getElem?_eq_getElem hk', Option.join_some,
    Option.join_some] at this

/-- Two outcomes that agree on every function differ in the record of the reads only. -/
lemma Complete.bare_eq (h : m₀.Complete) (hm : m₀.Descends m) (hn : m₀.Descends n)
    (hsame : ∀ f, SameIn m₀ f m n) : n.bare = m.bare := by
  obtain ⟨s, gone, hbare⟩ := hm.bare
  obtain ⟨t, gone', hbare'⟩ := hn.bare
  have hinsts : n.bare.insts = m.bare.insts := by
    refine insts_ext ?_ fun i => ?_
    · rw [hbare, hbare', residue, residue, Array.size_mapIdx, Array.size_mapIdx]
    · rw [inst?_bare, inst?_bare]
      cases hi : m₀.inst? i with
      | none => rw [inst?_residue_eq_none hbare hi, inst?_residue_eq_none hbare' hi]
      | some inst =>
        obtain ⟨f, hf, -⟩ := h.within hi
        exact (hsame f).inst i ⟨inst, hi, hf⟩
  have hblocks : n.blocks = m.blocks := by
    refine Array.ext_getElem? fun k => ?_
    show n.block? ⟨k⟩ = m.block? ⟨k⟩
    cases hb : m₀.block? ⟨k⟩ with
    | none => rw [block?_of_residue hbare, block?_of_residue hbare', hb, Option.map_none,
        Option.map_none]
    | some block => exact (hsame block.func).block ⟨k⟩ (owner?_eq_some.2 ⟨block, hb, rfl⟩)
  -- Nothing else has changed on the way.
  have hrest : ∀ (x : Module) {s gone}, x.bare = m₀.bare.residue s gone →
      x.bare = { m₀.bare with insts := x.bare.insts, blocks := x.blocks } :=
    fun x _ _ hx => congrArg
      (fun y : Module => { y with insts := x.bare.insts, blocks := x.blocks }) hx
  rw [hrest n hbare', hrest m hbare, hinsts, hblocks]

/-- The reads of a value are known from the bare module, their order aside. -/
lemma Agrees.uses_perm (hm : m.Agrees) (hn : n.Agrees) (hbare : n.bare = m.bare) (v : ValueId) :
    (n.usesOf v).toList.Perm (m.usesOf v).toList := by
  have hvalue : (n.value? v).map Value.bare = (m.value? v).map Value.bare := by
    rw [← value?_bare, ← value?_bare, hbare]
  cases hv : m.value? v with
  | none =>
    rw [hv, Option.map_none, Option.map_eq_none_iff] at hvalue
    simp [usesOf, hv, hvalue]
  | some value =>
    rw [hv, Option.map_some, Option.map_eq_some_iff] at hvalue
    obtain ⟨value', hv', -⟩ := hvalue
    rw [usesOf_eq hv, usesOf_eq hv']
    refine (List.perm_ext_iff_of_nodup (hn.nodup_uses hv') (hm.nodup_uses hv)).2 fun u => ?_
    obtain ⟨i, k⟩ := u
    rw [Array.mem_toList_iff, Array.mem_toList_iff, hn.mem_uses hv', hm.mem_uses hv]
    have hinst : (n.inst? i).map Inst.bare = (m.inst? i).map Inst.bare := by
      rw [← inst?_bare, ← inst?_bare, hbare]
    cases hi : m.inst? i with
    | none =>
      rw [hi, Option.map_none, Option.map_eq_none_iff] at hinst
      simp [hinst]
    | some inst =>
      rw [hi, Option.map_some, Option.map_eq_some_iff] at hinst
      obtain ⟨inst', hi', heq⟩ := hinst
      simp [hi', Inst.operandValues_eq_of_bare heq]

/-- What can be read nowhere is not read. -/
lemma Complete.usesOf_eq_empty (h : m.Complete) (hv : ∀ f, ¬ m.Visible f v) :
    m.usesOf v = #[] := by
  cases hvalue : m.value? v with
  | none => simp [usesOf, hvalue]
  | some value =>
    rw [usesOf_eq hvalue, h.intact.agrees.uses_eq_empty_iff hvalue]
    rintro u o ho rfl
    obtain ⟨inst, hi, hk⟩ := operand?_eq_some.1 ho
    obtain ⟨f, -, hoperands, -⟩ := h.within hi
    exact hv f (hoperands o.value (List.mem_map_of_mem (Array.mem_toList_iff.2
      (Array.mem_of_getElem? hk))))

/-- A value that belongs to no function, and is not shared, is not read: it is a placeholder or the
result of an instruction that is not there. -/
lemma Descends.usesOf_eq_empty (h : m₀.Descends m) {kind : ValueKind}
    (hkind : m₀.kind? v = some kind) (hshared : ¬ kind.IsShared) (hv : ∀ f, ¬ m₀.HasValue f v) :
    m.usesOf v = #[] := by
  refine h.complete.usesOf_eq_empty fun f hvisible => ?_
  have hoffers := hvisible.offers ((h.kind? v).trans hkind)
  cases kind with
  | argument g k => exact hv g (.argument hkind)
  | inst i =>
    obtain ⟨inst, hi, -, howner⟩ := hoffers
    exact hv f (.result hkind ((h.hasInst_iff hi).2 howner))
  | placeholder => exact hoffers
  | _ => exact hshared trivial

/-- Two outcomes that agree on every function differ in the order of reads of shared values only. -/
lemma Complete.sameButOrder (h : m₀.Complete) (hm : m₀.Descends m) (hn : m₀.Descends n)
    (hsame : ∀ f, SameIn m₀ f m n) : SameButOrder m n := by
  have hbare := h.bare_eq hm hn hsame
  refine ⟨hbare, hm.complete.intact.agrees.uses_perm hn.complete.intact.agrees hbare,
    fun v kind hkind hshared => ?_⟩
  rw [hm.kind?] at hkind
  by_cases hv : ∃ f, m₀.HasValue f v
  · obtain ⟨f, hf⟩ := hv
    exact (hsame f).uses v hf
  · rw [not_exists] at hv
    rw [hm.usesOf_eq_empty hkind hshared hv, hn.usesOf_eq_empty hkind hshared hv]

/-! ## Every order -/

/-- Simplifying every function passes over the declarations, in which there is nothing to erase. -/
lemma eliminateAll_of_eliminateEach {fs : List FuncId} {counts : List (FuncId × Nat)}
    (hrun : m.eliminateEach maxBits fs = .ok (m', counts)) :
    ∃ stats, m.eliminateAll maxBits fs = .ok (m', stats) := by
  induction fs generalizing m counts with
  | nil =>
    obtain ⟨rfl, rfl⟩ := Prod.mk.inj (Except.ok.inj hrun)
    exact ⟨{}, rfl⟩
  | cons f rest ih =>
    simp only [Module.eliminateEach, bind_eq_ok, pure_eq_ok, Prod.mk.injEq] at hrun
    obtain ⟨⟨m₁, here⟩, helim, ⟨_, later⟩, hrest, rfl, rfl⟩ := hrun
    obtain ⟨stats, hall⟩ := ih hrest
    obtain ⟨func, hf, hblocks⟩ : ∃ func, m.func? f = some func ∧
        m.simplifyBlocks maxBits func.layout.toList = .ok (m₁, here) := by
      simpa only [Module.eliminate, bind_eq_ok, getFunc_eq_ok] using helim
    cases hdecl : func.isDeclaration with
    | true =>
      have hnone : func.layout.toList = [] := by simpa [Func.isDeclaration] using hdecl
      rw [hnone] at hblocks
      obtain ⟨rfl, rfl⟩ := Prod.mk.inj (Except.ok.inj hblocks)
      refine ⟨stats, ?_⟩
      rw [eliminateAll, getFunc_eq_ok.2 hf, ok_bind, if_pos hdecl, hall]
    | false =>
      refine ⟨⟨stats.functions + 1, here + stats.eliminated⟩, ?_⟩
      rw [eliminateAll, getFunc_eq_ok.2 hf, ok_bind, if_neg (ne_true_of_eq_false hdecl),
        helim, ok_bind]
      dsimp only
      rw [hall, ok_bind]
      rfl

/-- Functions can be simplified in every order.  The order decides neither which instructions are
erased, nor how many for each function, nor what is left of blocks and operands, nor the print; only
the reads of shared values may be recorded in another order.  And to simplify one function changes
no operand of an instruction of another. -/
theorem eliminateEach_perm {text : String} (hread : ofText text = .ok m) (maxBits : Nat)
    {fs : List FuncId} (hfs : fs.Perm m.funcIds) :
    ∃ m₁ m₂ counts₁ counts₂ out,
      m.eliminateEach maxBits m.funcIds = .ok (m₁, counts₁) ∧
      m.eliminateEach maxBits fs = .ok (m₂, counts₂) ∧
      (∃ stats, m.simplify ⟨maxBits, false⟩ = .ok (m₁, stats)) ∧
      (∀ i, m₂.inst? i = none ↔ m₁.inst? i = none) ∧ counts₂.Perm counts₁ ∧
      m₂.blocks = m₁.blocks ∧
      (∀ i, (m₂.inst? i).map Inst.operandValues = (m₁.inst? i).map Inst.operandValues) ∧
      m₁.toText = .ok out ∧ m₂.toText = .ok out ∧ SameButOrder m₁ m₂ ∧
      ∀ before f after, fs = before ++ f :: after → ∃ n n' counts k,
        m.eliminateEach maxBits before = .ok (n, counts) ∧
        n.eliminate f maxBits = .ok (n', k) ∧
        ∀ i inst, n.inst? i = some inst → n.owner? inst.parent ≠ some f →
          ∃ inst', n'.inst? i = some inst' ∧ inst'.operandValues = inst.operandValues := by
  have hm := complete_ofText hread
  have hnodup : m.funcIds.Nodup :=
    List.nodup_range.map fun _ _ heq => FuncId.mk.inj heq
  obtain ⟨m₁, hrun₁, h₁, hother₁, hdone₁⟩ :=
    hm.descends.eliminateEach maxBits (fun _ => id) hnodup
  obtain ⟨m₂, hrun₂, h₂, hother₂, hdone₂⟩ :=
    hm.descends.eliminateEach maxBits (fun f => hfs.mem_iff.1) (hfs.nodup_iff.2 hnodup)
  have hsame : ∀ f, SameIn m f m₁ m₂ := by
    intro f
    by_cases hf : f ∈ m.funcIds
    · obtain ⟨n, k, hrun, hsame₁⟩ := hdone₁ f hf
      obtain ⟨n', k', hrun', hsame₂⟩ := hdone₂ f (hfs.mem_iff.2 hf)
      obtain ⟨rfl, -⟩ := Prod.mk.inj (Except.ok.inj (hrun.symm.trans hrun'))
      exact hsame₁.symm.trans hsame₂
    · exact (hother₁ f hf).symm.trans (hother₂ f fun h => hf (hfs.mem_iff.1 h))
  have horder := hm.sameButOrder h₁ h₂ hsame
  obtain ⟨stats, hall⟩ := eliminateAll_of_eliminateEach hrun₁
  obtain ⟨m₁', stats', hsimplify, hprintable⟩ := (printable_ofText hread).simplify maxBits
  obtain ⟨rfl, rfl⟩ := Prod.mk.inj
    (Except.ok.inj ((simplify_unverified.1 hsimplify).symm.trans hall))
  obtain ⟨-, out, -, hout, -⟩ := hprintable.toText_ok
  have hinst : ∀ i, (m₂.inst? i).map Inst.bare = (m₁'.inst? i).map Inst.bare := fun i => by
    rw [← inst?_bare, ← inst?_bare, horder.bare]
  refine ⟨m₁', m₂, _, _, out, hrun₁, hrun₂, ⟨_, hsimplify⟩, fun i => ?_, hfs.map _, ?_, fun i => ?_,
    hout, ?_, horder, ?_⟩
  · rw [← Option.map_eq_none_iff (f := Inst.bare), hinst, Option.map_eq_none_iff]
  · have := congrArg Module.blocks horder.bare
    exact this
  · have := congrArg (Option.map Inst.operandValues) (hinst i)
    simpa [Function.comp_def] using this
  · rw [toText_of_bare h₁.complete h₂.complete.intact.shaped horder.bare, hout]
  · rintro before f after rfl
    have hmem : ∀ g ∈ before ++ f :: after, g ∈ m.funcIds := fun g => hfs.mem_iff.1
    obtain ⟨n, hrun, hn, -⟩ := hm.descends.eliminateEach maxBits
      (fun g hg => hmem g (List.mem_append_left _ hg))
      (List.nodup_append.1 (hfs.nodup_iff.2 hnodup)).1
    obtain ⟨n', k, helim⟩ := hn.eliminate_ok maxBits
      (hmem f (List.mem_append_right _ List.mem_cons_self))
    refine ⟨n, n', _, k, hrun, helim, fun i inst hi howner => ?_⟩
    obtain ⟨g, hg, -⟩ := hn.complete.within hi
    have hne : g ≠ f := by
      rintro rfl
      exact howner hg
    obtain ⟨inst', hi', heq⟩ := ((hn.worksIn_eliminate helim).elsewhere g hne).exists_inst
      ((hn.hasInst_iff hi).2 hg) hi
    exact ⟨inst', hi', Inst.operandValues_eq_of_bare heq⟩

/-- Two functions that read the same constant, which is an identity element in both. -/
def twoText : String :=
  "define i8 @f(i8 %x) \x7b\n  %a = add i8 %x, 0\n  ret i8 %a\n\x7d\n" ++
  "define i8 @g(i8 %x) \x7b\n  %a = add i8 %x, 0\n  %b = sub i8 0, 0\n  ret i8 %a\n\x7d\n"

/-- In the other order the reads of the constant are recorded in another order. -/
theorem eliminateEach_perm_twoText : ∃ m m₁ m₂ counts₁ counts₂,
    ofText twoText = .ok m ∧ m.funcIds = [⟨0⟩, ⟨1⟩] ∧
    m.eliminateEach 32 m.funcIds = .ok (m₁, counts₁) ∧
    m.eliminateEach 32 [⟨1⟩, ⟨0⟩] = .ok (m₂, counts₂) ∧
    counts₂ = [(⟨1⟩, 1), (⟨0⟩, 1)] ∧ m₂.toText = m₁.toText ∧ SameButOrder m₁ m₂ ∧ m₁ ≠ m₂ := by
  have hruns : (ofText twoText).toOption.map (fun m => (m.funcIds,
      (m.eliminateEach 32 [⟨1⟩, ⟨0⟩]).toOption.map Prod.snd,
      decide ((m.eliminateEach 32 m.funcIds).toOption.map Prod.fst
        = (m.eliminateEach 32 [⟨1⟩, ⟨0⟩]).toOption.map Prod.fst)))
      = some ([⟨0⟩, ⟨1⟩], some [(⟨1⟩, 1), (⟨0⟩, 1)], false) := by decide +kernel
  cases hread : ofText twoText with
  | error e => simp [hread, Except.toOption] at hruns
  | ok m =>
    simp only [hread, Except.toOption, Option.map_some, Option.some.injEq, Prod.mk.injEq] at hruns
    obtain ⟨hfuncs, hcounts, hdiffer⟩ := hruns
    have hperm : List.Perm [⟨1⟩, ⟨0⟩] m.funcIds := hfuncs ▸ .swap _ _ _
    obtain ⟨m₁, m₂, counts₁, counts₂, out, hrun₁, hrun₂, -, -, -, -, -, hout₁, hout₂, horder, -⟩ :=
      eliminateEach_perm hread 32 hperm
    refine ⟨m, m₁, m₂, counts₁, counts₂, rfl, hfuncs, hrun₁, hrun₂, ?_, hout₂.trans hout₁.symm,
      horder, ?_⟩
    · simpa [hrun₂] using hcounts
    · rintro rfl
      simp [hrun₁, hrun₂] at hdiffer

end Module
end SsaFold
