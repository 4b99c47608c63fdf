import SsaFold.Proofs.Simplify.Effect
import SsaFold.Proofs.Text.Lawful
import SsaFold.Proofs.Text.Layout

/-!
# Modules that can be written

Above its functions a module keeps its own name, the name of its source file, and lines as they were
written.  The reader keeps them so that each of them, when it is printed, is a line that says the
same (`Module.Legible`).  Headers and bodies do not touch these parts of a module (`Module.Apart`),
and neither does the simplifier.

A module is ready to be printed (`Module.Printable`) if moreover it is complete and every block has
its terminator.
-/

namespace SsaFold

open Text

namespace Module

variable {m m' m'' : Module}

/-- The modules differ in their functions, blocks, instructions and values only. -/
def Apart (m m' : Module) : Prop :=
  ∃ functions blocks insts values, m' = { m with functions, blocks, insts, values }

lemma Apart.refl (m : Module) : m.Apart m := ⟨_, _, _, _, rfl⟩

lemma Apart.trans (h : m.Apart m') (h' : m'.Apart m'') : m.Apart m'' := by
  obtain ⟨_, _, _, _, rfl⟩ := h
  obtain ⟨_, _, _, _, rfl⟩ := h'
  exact ⟨_, _, _, _, rfl⟩

/-- What stands above the functions of a module is read as it was, when it is printed. -/
structure Legible (m : Module) : Prop where
  name : m.name ≠ "" → IsLine ("; ModuleID = '" ++ m.name ++ "'") (.moduleName m.name)
  sourceFilename : ∀ s, m.sourceFilename = some s → Quotable s
  targetLines : ∀ t ∈ m.targetLines, IsLine t (.target t)
  globals : ∀ g ∈ m.globals, IsLine g.definition (.globalDef g.name g.definition)
  globalNames : ∀ g ∈ m.globals, Quotable g.name

lemma Legible.apart (h : m.Legible) (hm : m.Apart m') : m'.Legible := by
  obtain ⟨_, _, _, _, rfl⟩ := hm
  exact ⟨h.name, h.sourceFilename, h.targetLines, h.globals, h.globalNames⟩

/-- The second module comes from the first by bodies that are read: what there was is there, and of
the functions only layouts have changed. -/
structure Spares (m m' : Module) : Prop where
  apart : m.Apart m'
  keeps : m.Keeps m'
  name : ∀ {v value}, m.value? v = some value →
    ∃ value', m'.value? v = some value' ∧ value'.name = value.name
  headings : m'.functions.map Func.heading = m.functions.map Func.heading

lemma Spares.refl (m : Module) : m.Spares m := ⟨.refl m, .refl m, fun hv => ⟨_, hv, rfl⟩, rfl⟩

lemma Spares.trans (h : m.Spares m') (h' : m'.Spares m'') : m.Spares m'' := by
  refine ⟨h.apart.trans h'.apart, h.keeps.trans h'.keeps, fun hv => ?_,
    h'.headings.trans h.headings⟩
  obtain ⟨value', hv', hname⟩ := h.name hv
  obtain ⟨value'', hv'', hname'⟩ := h'.name hv'
  exact ⟨value'', hv'', hname'.trans hname⟩

lemma Extends.spares {g : FuncId} {s : ValueId → ValueId} (h : m.Extends g s m') : m.Spares m' := by
  refine ⟨h.outline, h.keeps, fun hv => ?_, h.headings⟩
  obtain ⟨value', hv', -, -, hname⟩ := h.value hv
  exact ⟨value', hv', hname⟩

/-- Functions at the same position have one heading. -/
lemma Spares.heading (h : m.Spares m') {f : FuncId} {func' : Func} (hf : m'.func? f = some func') :
    ∃ func, m.func? f = some func ∧ func'.heading = func.heading := by
  have heq := congrArg (·[f.index]?) h.headings
  have hf' : m'.functions[f.index]? = some func' := hf
  simp only [Array.getElem?_map, hf', Option.map_some] at heq
  obtain ⟨func, hfunc, hheading⟩ := Option.map_eq_some_iff.1 heq.symm
  exact ⟨func, hfunc, hheading.symm⟩

/-- What is known by name stays known. -/
lemma Spares.known (h : m.Spares m') {symbols : Symbols} (hknown : Known m symbols) :
    Known m' symbols := by
  refine hknown.mono h.keeps (fun f func' hf => ?_) ?_
  · obtain ⟨func, hfunc, hheading⟩ := h.heading hf
    exact ⟨func, hfunc, (congrArg Func.name hheading :)⟩
  · obtain ⟨_, _, _, _, rfl⟩ := h.apart
    rfl

/-- Every block has its terminator. -/
def Anchored (m : Module) : Prop :=
  ∀ b block, m.block? b = some block →
    ∃ i ∈ block.insts, ∃ inst, m.inst? i = some inst ∧ inst.opcode.isTerminator = true

/-- The module can be printed so that what is printed says what the module says. -/
structure Printable (m : Module) : Prop where
  complete : m.Complete
  legible : m.Legible
  anchored : m.Anchored

end Module

/-! ## Reading -/

namespace Text

variable {m m' : Module}

/-- A line that is taken in is kept as it can be printed. -/
lemma Outline.add_legible {o o' : Outline} {number : Nat} {line : String}
    (hline : '\n' ∉ line.toList) (h : o.module.Legible) (hrun : o.add number line = .ok o') :
    o'.module.Legible := by
  simp only [Outline.add, bind_eq_ok, mapError_eq_ok] at hrun
  obtain ⟨kind, hkind, hrun⟩ := hrun
  cases kind with
  | moduleName name =>
    obtain rfl := pure_eq_ok.1 hrun
    exact { h with name := fun _ => isLine_moduleName hline hkind }
  | target t =>
    obtain rfl := pure_eq_ok.1 hrun
    refine { h with targetLines := fun t' ht' => ?_ }
    rcases List.mem_append.1 ht' with hold | hnew
    · exact h.targetLines t' hold
    · obtain rfl := List.mem_singleton.1 hnew
      exact isLine_target hline hkind
  | globalDef name definition =>
    dsimp only at hrun
    split_ifs at hrun
    · simp at hrun
    · obtain rfl := pure_eq_ok.1 hrun
      obtain ⟨hdefinition, hname⟩ := isLine_globalDef hline hkind
      have hpush : ∀ g ∈ (o.module.addGlobal name definition).1.globals,
          g ∈ o.module.globals ∨ g.name = name ∧ g.definition = definition := by
        intro g hg
        rcases Array.mem_push.1 hg with hold | rfl
        · exact .inl hold
        · exact .inr ⟨rfl, rfl⟩
      refine ⟨h.name, h.sourceFilename, h.targetLines, fun g hg => ?_, fun g hg => ?_⟩
      · rcases hpush g hg with hold | ⟨rfl, rfl⟩
        · exact h.globals g hold
        · exact hdefinition
      · rcases hpush g hg with hold | ⟨rfl, rfl⟩
        · exact h.globalNames g hold
        · exact hname
  | sourceFilename name =>
    cases name with
    | none => simp at hrun
    | some name =>
      obtain rfl := pure_eq_ok.1 hrun
      refine { h with sourceFilename := fun s hs => ?_ }
      obtain rfl := Option.some.inj hs
      exact quotable_sourceFilename hline hkind
  | _ =>
    obtain rfl := pure_eq_ok.1 hrun
    exact h

lemma Outline.ofText_legible {text : String} {o : Outline} (hrun : Outline.ofText text = .ok o) :
    o.module.Legible := by
  simp only [Outline.ofText, bind_eq_ok, pure_eq_ok] at hrun
  obtain ⟨o₁, hlines, rfl⟩ := hrun
  have hempty : (Module.empty "").Legible := by
    constructor <;> simp [Module.empty]
  have hkept : o₁.module.Legible := by
    refine foldlM_keeps_mem (P := fun o : Outline => o.module.Legible) ?_ hempty hlines
    rintro o ⟨number, line⟩ hmem o' h hadd
    obtain ⟨⟨cs, k⟩, hcs, heq⟩ := List.mem_map.1 hmem
    obtain ⟨-, rfl⟩ := Prod.mk.inj heq
    refine add_legible ?_ h hadd
    rw [String.toList_ofList]
    exact not_mem_of_mem_splitLines (List.fst_mem_of_mem_zipIdx hcs)
  exact hkept

lemma Headers.add_apart {s s' : Headers} {line : TokenLine} (hrun : s.add line = .ok s') :
    s.module.Apart s'.module := by
  rw [Headers.add] at hrun
  cases hdef : line.isDefinition? with
  | none =>
    simp only [hdef, pure_eq_ok] at hrun
    exact hrun ▸ .refl _
  | some definition =>
    simp only [hdef, bind_eq_ok] at hrun
    obtain ⟨header, -, hrun⟩ := hrun
    by_cases hknown : s.symbols.contains header.name = true
    · simp [hknown] at hrun
    rw [if_neg hknown] at hrun
    simp only [bind_eq_ok, liftM_eq_ok, pure_eq_ok] at hrun
    obtain ⟨⟨m, f⟩, hadd, func, -, rfl⟩ := hrun
    obtain ⟨-, rfl⟩ := addHeader_eq_ok hadd
    exact ⟨_, _, _, _, rfl⟩

lemma Outline.headers_apart {o : Outline} {s : Headers} (hrun : o.headers = .ok s) :
    o.module.Apart s.module := by
  simp only [Outline.headers, bind_eq_ok, pure_eq_ok] at hrun
  obtain ⟨s₁, hfold, rfl⟩ := hrun
  have hapart : o.module.Apart s₁.module :=
    foldlM_keeps (f := Headers.add) (P := fun s : Headers => o.module.Apart s.module)
      (fun _ _ _ h hadd => h.trans (Headers.add_apart hadd)) (.refl _) hfold
  exact hapart

/-- The module that stands behind a position. -/
def Position.module : Position → Module
  | outside m => m
  | inside b => b.module

/-- A line of a body leaves alone what was there. -/
lemma readLine_spares {symbols : Symbols} {p p' : Position} {ds ds' : List Definition}
    {line : TokenLine} (h : p.Sound symbols ds) (hline : line.Valid)
    (hrun : readLine symbols (p, ds) line = .ok (p', ds')) : p.module.Spares p'.module := by
  cases p with
  | outside m =>
    simp only [readLine] at hrun
    split at hrun
    · rename_i d rest _
      simp only [bind_eq_ok, mapError_eq_ok, pure_eq_ok, Prod.mk.injEq] at hrun
      obtain ⟨b, hstart, rfl, rfl⟩ := hrun
      obtain ⟨hd, -⟩ := List.forall_mem_cons.1 h.2.fits
      obtain ⟨-, rfl, -⟩ := Body.Draft.start h.1 hd hstart
      exact .refl _
    · simp at hrun
    · obtain ⟨rfl, rfl⟩ := Prod.mk.inj (pure_eq_ok.1 hrun)
      exact .refl _
    · simp at hrun
  | inside b =>
    simp only [readLine] at hrun
    split_ifs at hrun
    · split at hrun
      · simp at hrun
      · obtain ⟨rfl, rfl⟩ := Prod.mk.inj (pure_eq_ok.1 hrun)
        exact .refl _
    · simp only [bind_eq_ok, mapError_eq_ok, pure_eq_ok, Prod.mk.injEq] at hrun
      obtain ⟨⟨u, b'⟩, hrun, rfl, rfl⟩ := hrun
      obtain ⟨s, hstays⟩ := Body.line_stays h.1 hline hrun
      exact hstays.module.spares

lemma readBodies_spares {s : Headers} {lines : List TokenLine} (h : s.Sound)
    (hlines : ∀ line ∈ lines, line.Valid) (hrun : readBodies s lines = .ok m) :
    s.module.Spares m := by
  simp only [readBodies, bind_eq_ok] at hrun
  obtain ⟨⟨position, rest⟩, hfold, hrun⟩ := hrun
  have hspares : position.Sound s.symbols rest ∧ s.module.Spares position.module := by
    refine foldlM_keeps_mem (s := (Position.outside s.module, s.definitions))
      (t := (position, rest)) (P := fun p : Position × List Definition =>
        p.1.Sound s.symbols p.2 ∧ s.module.Spares p.1.module)
      (fun p line hline p' hp hread => ?_) ⟨h.outside, .refl _⟩ hfold
    exact ⟨readLine_sound hp.1 (hlines line hline) hread,
      hp.2.trans (readLine_spares hp.1 (hlines line hline) hread)⟩
  cases position with
  | outside m₁ =>
    obtain rfl := pure_eq_ok.1 hrun
    exact hspares.2
  | inside b => simp at hrun

end Text

namespace Module

variable {m m' : Module}

/-- If the placed blocks end with their terminators, and all blocks are placed, each has one. -/
lemma Terminated.anchored (h : m.Terminated) (hm : m.Complete) : m.Anchored := by
  intro b block hb
  obtain ⟨init, i, inst, hlist, hinst, hterminator, -⟩ := h b (hm.placed b block hb) block hb
  refine ⟨i, Array.mem_toList_iff.1 ?_, inst, hinst, hterminator⟩
  rw [hlist]
  exact List.mem_append_right _ (List.mem_singleton_self i)

/-- What the reader returns can be printed. -/
lemma printable_ofText {text : String} (hread : ofText text = .ok m) : m.Printable := by
  have hm := complete_ofText hread
  obtain ⟨-, hends⟩ := hm.intact.check_eq_ok_iff.1 (wellFormed_ofText hread).2
  refine ⟨hm, ?_, hends.anchored hm⟩
  simp only [ofText, bind_eq_ok, mapError_eq_ok, pure_eq_ok] at hread
  obtain ⟨o, houtline, s, hheaders, m₁, hbodies, ⟨⟩, -, rfl⟩ := hread
  obtain ⟨hsketch, hlines⟩ := Text.Outline.ofText_sketch houtline
  have hsound := Text.Outline.headers_sound hsketch hlines hheaders
  exact ((Text.Outline.ofText_legible houtline).apart (Text.Outline.headers_apart hheaders)).apart
    (Text.readBodies_spares hsound hlines hbodies).apart

/-- The simplifier leaves a module that can be printed. -/
lemma Printable.simplify (h : m.Printable) (maxBits : Nat) : ∃ m' stats,
    m.simplify ⟨maxBits, false⟩ = .ok (m', stats) ∧ m'.Printable := by
  obtain ⟨m', stats, hrun, hm'⟩ := h.complete.simplify maxBits
  obtain ⟨m'', gone, hrun', hsteps⟩ := h.complete.intact.simplify_steps maxBits
  obtain ⟨rfl, -⟩ := Prod.mk.inj (Except.ok.inj (hrun.symm.trans hrun'))
  obtain ⟨f, htraced⟩ := hsteps.traced h.complete.intact
  have hbare := htraced.bare
  refine ⟨m', stats, hrun, hm', ?_, fun b block' hb' => ?_⟩
  · obtain ⟨hglobals, hname, hsource, htarget⟩ := header_of_residue hbare
    constructor
    · rw [hname]; exact h.legible.name
    · rw [hsource]; exact h.legible.sourceFilename
    · rw [htarget]; exact h.legible.targetLines
    · rw [hglobals]; exact h.legible.globals
    · rw [hglobals]; exact h.legible.globalNames
  · rw [block?_of_residue hbare, Option.map_eq_some_iff] at hb'
    obtain ⟨block, hb, rfl⟩ := hb'
    obtain ⟨i, hi, inst, hinst, hterminator⟩ := h.anchored b block hb
    have hgone : i ∉ gone := by
      intro hmem
      rw [htraced.isTerminator_eq_false (List.mem_append_left _ hmem) hinst] at hterminator
      cases hterminator
    obtain ⟨inst', hinst', heq⟩ := inst?_residue_of_not_mem hbare hinst hgone
    have hspec := (Inst.toInstSpec_eq_of_bare heq).trans (inst.toInstSpec_rename f)
    exact ⟨i, Array.mem_filter.2 ⟨hi, by simpa using hgone⟩, inst', hinst',
      (congrArg InstSpec.opcode hspec ▸ hterminator :)⟩

end Module
end SsaFold
