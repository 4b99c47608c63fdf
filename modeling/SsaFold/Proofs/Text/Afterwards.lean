import SsaFold.Proofs.Text.Forward
import SsaFold.Proofs.Text.Transcript

/-!
# A body stays as it has been read

When a body has been closed, the lines behind it leave its function alone (`Module.KeepsBody`).  A
line of another body changes blocks and instructions of its own function only, and it renames
placeholders only.  No instruction of a body that has been closed reads a placeholder, if the text
is read; for otherwise it would be read at the end (`Reaches.settled`).

So the body of a function in the module that is returned is that which has been read from its lines
(`BodyOf.kept`).
-/

namespace SsaFold

open Text

namespace Module

variable {m m' m'' : Module} {f g : FuncId} {s : ValueId → ValueId}

/-- The body of function `f` is the same in the second module, and so is what it reads. -/
structure KeepsBody (f : FuncId) (m m' : Module) : Prop where
  func : ∀ {func}, m.func? f = some func → m'.func? f = some func
  block : ∀ {c block}, m.block? c = some block → block.func = f → m'.block? c = some block
  inst : ∀ {i inst}, m.inst? i = some inst → m.owner? inst.parent = some f →
    ∃ inst', m'.inst? i = some inst' ∧ inst'.bare = inst.bare
  value : ∀ {v value}, m.value? v = some value → ∃ value', m'.value? v = some value' ∧
    value'.kind = value.kind ∧ value'.ty = value.ty ∧ value'.name = value.name

/-- No instruction reads a placeholder. -/
def Settled (m : Module) : Prop :=
  ∀ i inst, m.inst? i = some inst → ∀ v ∈ inst.operandValues,
    ∃ kind, m.kind? v = some kind ∧ kind ≠ .placeholder

namespace KeepsBody

lemma refl (f : FuncId) (m : Module) : KeepsBody f m m :=
  ⟨id, fun hc _ => hc, fun hi _ => ⟨_, hi, rfl⟩, fun hv => ⟨_, hv, rfl, rfl, rfl⟩⟩

lemma kind? (h : KeepsBody f m m') {v : ValueId} {kind : ValueKind} (hv : m.kind? v = some kind) :
    m'.kind? v = some kind := by
  obtain ⟨value, hvalue, rfl⟩ := kind?_eq_some.1 hv
  obtain ⟨value', hvalue', hkind, -⟩ := h.value hvalue
  exact kind?_eq_some.2 ⟨value', hvalue', hkind⟩

lemma nameOf? (h : KeepsBody f m m') {v : ValueId} {value : Value} (hv : m.value? v = some value) :
    m'.nameOf? v = m.nameOf? v := by
  obtain ⟨value', hvalue', -, -, hname⟩ := h.value hv
  simp [Module.nameOf?, hv, hvalue', hname]

/-- What is kept is kept while the body of another function is read. -/
lemma later (h : KeepsBody f m m') (hm : m.Settled) (hext : m'.Extends g s m'') (hne : f ≠ g) :
    KeepsBody f m m'' := by
  refine ⟨fun {func} hf => ?_, fun {c block} hc hfunc => ?_, fun {i inst} hi howner => ?_,
    fun {v value} hv => ?_⟩
  · obtain ⟨layout, hf', hlayout⟩ := hext.func (h.func hf)
    rwa [hlayout hne] at hf'
  · obtain ⟨block', hc', -, -, hsame⟩ := hext.block (h.block hc hfunc)
    rwa [hsame (hfunc ▸ hne)] at hc'
  · obtain ⟨inst', hi', hbare⟩ := h.inst hi howner
    obtain ⟨inst'', hi'', hbare'⟩ := hext.inst hi'
    refine ⟨inst'', hi'', ?_⟩
    have hfixed : inst'.rename s = inst'.rename id := by
      refine Inst.rename_congr _ fun v hv => ?_
      rw [Inst.operandValues_eq_of_bare hbare] at hv
      obtain ⟨kind, hkind, hplaceholder⟩ := hm i inst hi v hv
      exact hext.fixed (h.kind? hkind) hplaceholder
    rw [hbare', hfixed, Inst.rename_id, hbare]
  · obtain ⟨value', hv', hkind, hty, hname⟩ := h.value hv
    obtain ⟨value'', hv'', hkind', hty', hname'⟩ := hext.value hv'
    exact ⟨value'', hv'', hkind'.trans hkind, hty'.trans hty, hname'.trans hname⟩

end KeepsBody

end Module

namespace Text

open SsaFold.Module

variable {text : String} {symbols : Symbols} {p p' : Position} {ds ds' : List Definition}
  {l : TokenLine} {after : List TokenLine} {m m₁ : Module}

/-- In a text that is read no instruction reads a placeholder between the bodies. -/
lemma Reaches.settled (h : Reaches text symbols (.outside m₁) ds after)
    (hread : Module.ofText text = .ok m) : m₁.Settled := by
  intro i inst hi v hv
  obtain ⟨⟨hm, -⟩, -⟩ := h.sound
  obtain ⟨value, hvalue⟩ := hm.wellFormed.module.typed.exists_value hi hv
  refine ⟨value.kind, kind?_eq_some.2 ⟨value, hvalue, rfl⟩, fun hkind => ?_⟩
  have hdangles : m₁.Dangles v := ⟨kind?_eq_some.2 ⟨value, hvalue, hkind⟩, i, inst, hi, hv⟩
  exact h.ne_ok (p := .outside m₁) ⟨v, hdangles⟩ hread

/-- The body of function `f` is not at hand. -/
def Position.Spares (f : FuncId) : Position → Prop
  | outside _ => True
  | inside b => f ≠ b.func

lemma readLine_keepsBody {f : FuncId} (h : p.Sound symbols ds) (hl : l.Valid) (hp : p.Spares f)
    (hds : ∀ d ∈ ds, f ≠ d.func) (hm : m₁.Settled) (hkeeps : KeepsBody f m₁ p.module)
    (hrun : readLine symbols (p, ds) l = .ok (p', ds')) :
    p'.Spares f ∧ (∀ d ∈ ds', f ≠ d.func) ∧ KeepsBody f m₁ p'.module := by
  rcases readLine_cases hrun with ⟨m, d, b, rfl, rfl, hstart, rfl⟩ | ⟨m, rfl, rfl, rfl⟩ |
    ⟨b, rfl, -, -, rfl, rfl⟩ | ⟨b, b', rfl, hline, rfl, rfl⟩
  · obtain ⟨hsketch, hpending⟩ := h
    obtain ⟨-, heq, -, hfunc⟩ :=
      Body.Draft.start hsketch (hpending.fits d List.mem_cons_self) hstart
    obtain ⟨hd, hds⟩ := List.forall_mem_cons.1 hds
    refine ⟨by rwa [Position.Spares, hfunc], hds, ?_⟩
    rw [Position.module, heq]
    exact hkeeps
  · exact ⟨trivial, hds, hkeeps⟩
  · exact ⟨trivial, hds, hkeeps⟩
  · obtain ⟨s, hstays⟩ := Body.line_stays h.1 hl hline
    have hne : f ≠ b.func := hp
    refine ⟨?_, hds, hkeeps.later hm hstays.module hne⟩
    rwa [Position.Spares, hstays.func]

/-- A function whose body is not to be read any more is as it is in the module that is returned. -/
lemma Reaches.keepsBody {f : FuncId} (h : Reaches text symbols (.outside m₁) ds after)
    (hread : Module.ofText text = .ok m) (hds : ∀ d ∈ ds, f ≠ d.func) : KeepsBody f m₁ m := by
  obtain ⟨hsound, hafter⟩ := h.sound
  obtain ⟨ds', hrest⟩ := h.rest hread
  have hnow : (Position.outside m₁).Spares f ∧ (∀ d ∈ ds, f ≠ d.func) ∧
      KeepsBody f m₁ (Position.outside m₁).module := ⟨trivial, hds, .refl f m₁⟩
  refine (foldlM_keeps_mem (P := fun t : Position × List Definition => t.1.Sound symbols t.2 ∧
    t.1.Spares f ∧ (∀ d ∈ t.2, f ≠ d.func) ∧ KeepsBody f m₁ t.1.module) ?_
      ⟨hsound, hnow⟩ hrest).2.2.2
  rintro t l hl t' ⟨ht, hspares, hds, hkeeps⟩ hstep
  exact ⟨readLine_sound ht (hafter l hl) hstep,
    readLine_keepsBody ht (hafter l hl) hspares hds (h.settled hread) hkeeps hstep⟩

lemma Reaches.symbols_eq (h : Reaches text symbols p ds after) {o : Outline} {s : Headers}
    (houtline : Outline.ofText text = .ok o) (hheaders : o.headers = .ok s) :
    symbols = s.symbols := by
  obtain ⟨o', s', _, houtline', hheaders', rfl, -⟩ := h
  obtain rfl := Except.ok.inj (houtline.symm.trans houtline')
  obtain rfl := Except.ok.inj (hheaders.symm.trans hheaders')
  rfl

/-- The body of a text that is read stands as it has been read, from the first line to the last, in
the module that is returned. -/
theorem BodyOf.kept {d : Definition} {b : Body} {tss : List (List Token)} (h : BodyOf text d b tss)
    (hread : Module.ofText text = .ok m) {o : Outline} {s : Headers}
    (houtline : Outline.ofText text = .ok o) (hheaders : o.headers = .ok s) :
    ∃ m₀ b', Sketch m₀ s.symbols ∧ d.Fits m₀ ∧ Body.start m₀ s.symbols d.func d.params = .ok b ∧
      (∀ ts ∈ tss, ∀ t ∈ ts, t.Valid) ∧ Body.lines tss b = .ok ((), b') ∧ b'.func = d.func ∧
      b'.symbols = s.symbols ∧ KeepsBody d.func b'.module m := by
  obtain ⟨symbols, m₀, ds, ls, last, after, hreach, hm, hd, hstart, rfl, hlast⟩ := h.begins
  obtain rfl := hreach.symbols_eq houtline hheaders
  obtain ⟨hb, -, hsymbols, hfunc⟩ := Body.Draft.start hm hd hstart
  obtain ⟨hsound, hvalid⟩ := hreach.sound
  have htss : ∀ ts ∈ ls.map TokenLine.tokens, ∀ t ∈ ts, t.Valid := by
    intro ts hts
    obtain ⟨l, hl, rfl⟩ := List.mem_map.1 hts
    exact hvalid l (List.mem_append_left _ hl)
  obtain ⟨ds', hrest⟩ := hreach.rest hread
  rw [List.foldlM_append, bind_eq_ok] at hrest
  obtain ⟨q, hlines, hrest⟩ := hrest
  obtain ⟨b', rfl, hrun⟩ :=
    (readLines_inside fun l hl => h.inside _ (List.mem_map_of_mem hl)).1 hlines
  obtain ⟨t, hstays⟩ := Body.lines_stays hb htss hrun
  rw [List.foldlM_cons, bind_eq_ok] at hrest
  obtain ⟨q', hbrace, -⟩ := hrest
  have hreach' := hreach.foldlM hlines
  have hother : ∀ d' ∈ ds, d.func ≠ d'.func := by
    intro d' hd'
    obtain ⟨⟨-, -, -, hother⟩, -⟩ := hreach'.sound
    rw [← hfunc, ← hstays.func]
    exact (hother d' hd').symm
  obtain ⟨hfirst, hnil⟩ := List.cons.inj hlast
  have hclosed : q' = (.outside b'.module, ds) := by
    rw [readLine, if_pos ⟨hfirst, hnil⟩] at hbrace
    split at hbrace
    · cases hbrace
    · exact (pure_eq_ok.1 hbrace).symm
  exact ⟨m₀, b', hm, hd, hstart, htss, hrun, hstays.func.trans hfunc, hstays.symbols.trans hsymbols,
    (hreach'.step (hclosed ▸ hbrace)).keepsBody hread hother⟩

end Text
end SsaFold
