import SsaFold.Proofs.Simplify.Meaning
import SsaFold.Proofs.Text.Body
import SsaFold.Text.Reader

/-!
# What the reader returns

A module that is read from a text comes from an empty one by operations, and it is typed
(`Module.wellFormed_ofText`).  So all that is known of reachable and of typed modules holds of it;
above all, the simplifier succeeds on it and preserves its meaning (`Module.simplify_sameMeaning`).

The three sweeps of the reader keep one invariant, `Scoped`: the module is well-formed, and every
symbol that is known so far stands for an address.
-/

namespace SsaFold
namespace Text

variable {m m' : Module} {symbols : Symbols}

/-! ## Lines and globals -/

lemma Outline.add_scoped {o o' : Outline} {number : Nat} {line : String}
    (h : Scoped o.module o.symbols) (hrun : o.add number line = .ok o') :
    Scoped o'.module o'.symbols := by
  simp only [Outline.add, bind_eq_ok] at hrun
  obtain ⟨kind, -, hrun⟩ := hrun
  cases kind with
  | moduleName name =>
    obtain rfl := pure_eq_ok.1 hrun
    exact h.grows (h.module.describe name o.module.sourceFilename o.module.targetLines)
  | target text =>
    obtain rfl := pure_eq_ok.1 hrun
    exact h.grows (h.module.describe _ o.module.sourceFilename (o.module.targetLines ++ [text]))
  | skipped =>
    obtain rfl := pure_eq_ok.1 hrun
    exact h
  | globalDef name definition =>
    dsimp only at hrun
    split_ifs at hrun
    · simp at hrun
    · obtain rfl := pure_eq_ok.1 hrun
      obtain ⟨hgrows, hv⟩ := h.module.addGlobal name definition
      exact (h.grows hgrows).insert hv
  | sourceFilename name =>
    cases name with
    | none => simp at hrun
    | some name =>
      obtain rfl := pure_eq_ok.1 hrun
      exact h.grows (h.module.describe _ (some name) o.module.targetLines)
  | tokens first rest =>
    obtain rfl := pure_eq_ok.1 hrun
    exact h

lemma Outline.ofText_scoped {text : String} {o : Outline} (hrun : Outline.ofText text = .ok o) :
    Scoped o.module o.symbols := by
  simp only [Outline.ofText, bind_eq_ok, pure_eq_ok] at hrun
  obtain ⟨o₁, hlines, rfl⟩ := hrun
  have h₀ : Scoped (Module.empty "") ∅ :=
    ⟨Module.wellFormed_empty "", fun name v hv => by simp at hv⟩
  have h := foldlM_keeps (P := fun o : Outline => Scoped o.module o.symbols)
    (fun _ _ _ h hadd => add_scoped h hadd) h₀ hlines
  exact h

/-! ## Headers -/

/-- The parameters of a header are named one after the other. -/
lemma nameAll_grows (hm : m.WellFormed) {params : List (ValueId × Param)}
    (hrun : params.foldlM (fun m (v, p) => m.setValueName v (p.name.bind keptName)) m = .ok m') :
    m.Grows m' ∧ m'.functions = m.functions := by
  refine foldlM_keeps (P := fun m' => m.Grows m' ∧ m'.functions = m.functions) ?_
    ⟨hm.refl, rfl⟩ hrun
  rintro m₁ ⟨v, p⟩ m₂ ⟨h, hfuncs⟩ hname
  refine ⟨h.trans (h.toWellFormed.setValueName hname), ?_⟩
  simp only [Module.setValueName, bind_eq_ok, pure_eq_ok] at hname
  obtain ⟨-, -, rfl⟩ := hname
  exact hfuncs

/-- A header adds a function, whose address is a symbol then. -/
lemma addHeader_grows (hm : m.WellFormed) {h : Header} {f : FuncId}
    (hrun : addHeader m h = .ok (m', f)) :
    m.Grows m' ∧ ∀ func, m'.func? f = some func → m'.typeOf? func.value = some .ptr := by
  simp only [addHeader, bind_eq_ok, pure_eq_ok, Prod.mk.injEq, Module.getFunc_eq_ok] at hrun
  obtain ⟨func, hfunc, m₂, hnames, rfl, rfl⟩ := hrun
  obtain ⟨h₁, func', hfunc', hty⟩ := hm.addFunc h.name h.returnType (h.params.map Param.ty)
  obtain ⟨h₂, hfuncs⟩ := nameAll_grows h₁.toWellFormed hnames
  obtain rfl := Option.some.inj (hfunc'.symm.trans hfunc)
  set f := (m.addFunc h.name h.returnType (h.params.map Param.ty)).2
  have hfunc₂ : m₂.func? f = some func' := by rwa [Module.func?, hfuncs]
  have h₃ := h₂.toWellFormed.describeFunc hfunc₂ h.linkage h.attrs h.vararg
  refine ⟨(h₁.trans h₂).trans h₃, fun func hf => ?_⟩
  rw [Module.func?_modifyFunc, if_pos rfl, hfunc₂, Option.map_some, Option.some.injEq] at hf
  subst hf
  exact (h₂.trans h₃).types _ _ hty

lemma Headers.add_scoped {s s' : Headers} {line : TokenLine} (h : Scoped s.module s.symbols)
    (hrun : s.add line = .ok s') : Scoped s'.module s'.symbols := by
  rw [Headers.add] at hrun
  cases hdef : line.isDefinition? with
  | none =>
    simp only [hdef, pure_eq_ok] at hrun
    exact hrun ▸ h
  | some definition =>
    simp only [hdef, bind_eq_ok] at hrun
    obtain ⟨header, -, hrun⟩ := hrun
    by_cases hknown : s.symbols.contains header.name = true
    · simp [hknown] at hrun
    · rw [if_neg hknown] at hrun
      simp only [bind_eq_ok, liftM_eq_ok, pure_eq_ok] at hrun
      obtain ⟨⟨m, f⟩, hadd, func, hfunc, rfl⟩ := hrun
      obtain ⟨hgrows, hty⟩ := addHeader_grows h.module hadd
      exact (h.grows hgrows).insert (hty func (Module.getFunc_eq_ok.1 hfunc))

lemma Outline.headers_scoped {o : Outline} {s : Headers} (h : Scoped o.module o.symbols)
    (hrun : o.headers = .ok s) : Scoped s.module s.symbols := by
  simp only [Outline.headers, bind_eq_ok, pure_eq_ok] at hrun
  obtain ⟨s₁, hlines, rfl⟩ := hrun
  have h₁ := foldlM_keeps (P := fun s : Headers => Scoped s.module s.symbols)
    (fun _ _ _ h hadd => Headers.add_scoped h hadd) h hlines
  exact h₁

/-! ## Bodies -/

/-- The invariant of the sweep over the bodies. -/
def Position.Scoped (symbols : Symbols) : Position → Prop
  | outside m => Text.Scoped m symbols
  | inside b => Text.Scoped b.module symbols ∧ b.symbols = symbols

lemma readLine_scoped {s s' : Position × List Definition} {line : TokenLine}
    (h : s.1.Scoped symbols) (hrun : readLine symbols s line = .ok s') : s'.1.Scoped symbols := by
  obtain ⟨position, definitions⟩ := s
  cases position with
  | outside m =>
    simp only [readLine] at hrun
    split at hrun
    · rename_i d rest _ _
      simp only [bind_eq_ok, mapError_eq_ok, pure_eq_ok] at hrun
      obtain ⟨b, hstart, rfl⟩ := hrun
      obtain ⟨hgrows, hsymbols⟩ := Body.start_grows h hstart
      exact ⟨h.grows hgrows, hsymbols⟩
    · simp at hrun
    · obtain rfl := pure_eq_ok.1 hrun
      exact h
    · simp at hrun
  | inside b =>
    obtain ⟨hb, rfl⟩ := h
    simp only [readLine] at hrun
    split_ifs at hrun
    · split at hrun
      · simp at hrun
      · obtain rfl := pure_eq_ok.1 hrun
        exact hb
    · simp only [bind_eq_ok, mapError_eq_ok, pure_eq_ok] at hrun
      obtain ⟨⟨u, b'⟩, hline, rfl⟩ := hrun
      have hgrows := Body.line_grows hb hline
      exact ⟨hb.grows hgrows.module, hgrows.symbols⟩

lemma readBodies_wellFormed {s : Headers} {lines : List TokenLine}
    (h : Scoped s.module s.symbols) (hrun : readBodies s lines = .ok m) : m.WellFormed := by
  simp only [readBodies, bind_eq_ok] at hrun
  obtain ⟨⟨position, rest⟩, hlines, hrun⟩ := hrun
  have hposition := foldlM_keeps (P := fun s' => s'.1.Scoped s.symbols)
    (fun _ _ _ h hline => readLine_scoped h hline) h hlines
  cases position with
  | outside m₁ =>
    obtain rfl := pure_eq_ok.1 hrun
    exact hposition.module
  | inside b => simp at hrun

end Text

namespace Module

/-- What the reader returns comes from an empty module by operations, is typed, and has no
defect. -/
theorem wellFormed_ofText {text : String} {m : Module} (hread : ofText text = .ok m) :
    m.WellFormed ∧ m.check = .ok () := by
  simp only [ofText, bind_eq_ok, mapError_eq_ok, pure_eq_ok] at hread
  obtain ⟨o, houtline, s, hheaders, m₁, hbodies, ⟨⟩, hcheck, rfl⟩ := hread
  have hscoped := Text.Outline.headers_scoped (Text.Outline.ofText_scoped houtline) hheaders
  exact ⟨Text.readBodies_wellFormed hscoped hbodies, hcheck⟩

/-! ## Simplifying what has been read -/

/-- If a module has no defect to begin with, then a run that verifies looks for one at the end. -/
lemma simplify_of_check {m m' : Module} {maxBits : Nat} {stats : Stats}
    (hcheck : m.check = .ok ()) (hrun : m.simplify ⟨maxBits, false⟩ = .ok (m', stats)) :
    m.simplify ⟨maxBits, true⟩ = m'.checkAs .malformedAfter >>= fun _ => .ok (m', stats) := by
  simp only [simplify, if_true, checkAs, hcheck, simplify_unverified.1 hrun]
  rfl

/-- A run leaves the same module whether it verifies or not, if the module has no defect to begin
with. -/
lemma simplified_of_check {m m' : Module} {maxBits : Nat} {stats : Stats}
    (hcheck : m.check = .ok ()) (hrun : m.simplify ⟨maxBits, false⟩ = .ok (m', stats))
    (verify : Bool) : m.simplified ⟨maxBits, verify⟩ = .ok m' := by
  have hall := simplify_unverified.1 hrun
  have hboth := simplify_of_check hcheck hrun
  cases verify with
  | false => simp only [simplified, hrun]
  | true =>
    cases hafter : m'.check with
    | ok u => simp [simplified, hboth, checkAs, hafter, Except.mapError]
    | error d =>
      simp only [simplified, hboth, checkAs, hafter, Except.mapError, bind, Except.bind, hall]
      rfl

/-- The simplifier succeeds on whatever the reader returns, and preserves its meaning.  It leaves
the same module if it verifies, also where it then answers that it has found a defect. -/
theorem simplify_sameMeaning {text : String} {m : Module} (hread : ofText text = .ok m)
    (maxBits : Nat) : ∃ m', (∃ stats, m.simplify ⟨maxBits, false⟩ = .ok (m', stats)) ∧
      (∀ verify, m.simplified ⟨maxBits, verify⟩ = .ok m') ∧ m.SameMeaning m' := by
  obtain ⟨hm, hcheck⟩ := wellFormed_ofText hread
  have hintact := hm.reachable.intact
  obtain ⟨m', gone, hrun, hsteps⟩ := hintact.simplify_steps maxBits
  exact ⟨m', ⟨_, hrun⟩, simplified_of_check hcheck hrun, hsteps.sameMeaning hintact hm.typed⟩

/-- A loop in which a `phi` and an addition of zero read each other. -/
def loopText : String :=
  "define void @f() \x7b\n" ++
  "a:\n  br label %b\n" ++
  "b:\n  %p = phi i8 [ 0, %a ], [ %q, %b ]\n  %q = add i8 %p, 0\n  br label %b\n\x7d\n"

theorem simplify_sameMeaning_loopText : ∃ m m', ofText loopText = .ok m ∧
    (∃ stats, m.simplify ⟨32, false⟩ = .ok (m', stats)) ∧ m.SameMeaning m' := by
  have hok : (ofText loopText).isOk = true := by decide +kernel
  cases hread : ofText loopText with
  | ok m =>
    obtain ⟨m', hrun, -, hmeaning⟩ := simplify_sameMeaning hread 32
    exact ⟨m, m', rfl, hrun, hmeaning⟩
  | error e => simp [hread, Except.isOk, Except.toBool] at hok

end Module
end SsaFold
