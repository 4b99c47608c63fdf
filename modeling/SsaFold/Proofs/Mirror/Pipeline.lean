import SsaFold.Proofs.Mirror.Print
import SsaFold.Proofs.Mirror.Program
import SsaFold.Proofs.Mirror.Simplify
import SsaFold.Proofs.Text.RoundTrip

/-!
# What is done with a text depends on its program only

A text and its print are read as one program (`Module.Printable.sameProgram`), under other indices:
the constants are made in another order, the reads of a value are recorded in another order, and
what stood for names before they were defined is gone.  The two modules mirror each other
(`Module.SameProgram.mirrors`), and so runs of the simplifier on them end with modules that do, and
have the same statistics (`Pairing.Alike.simplify`).  Modules that mirror each other are printed
alike (`Pairing.Mirrors.toText`), and make the same calls in the same order
(`Pairing.Mirrors.placedCalls`).
-/

namespace SsaFold

namespace Pairing.Mirrors

variable {R : Pairing} {m n : Module}

/-! ## Calls -/

lemma placedBlocks (h : R.Mirrors m n) : List.Forall₂ R.block m.placedBlocks n.placedBlocks :=
  List.rel_flatMap h.funcs fun _ _ hfunc => hfunc.layout

lemma placedInsts (h : R.Mirrors m n) : List.Forall₂ R.inst m.placedInsts n.placedInsts := by
  refine List.rel_flatMap h.placedBlocks fun b c hbc => ?_
  obtain ⟨block, block', hb, hc, hpair⟩ := h.blocks hbc
  rw [hb, hc]
  exact hpair.insts

/-- Paired instructions are the same call, or neither is a call. -/
lemma callAt? (h : R.Mirrors m n) {i j : InstId} (hij : R.inst i j) :
    m.callAt? i = n.callAt? j := by
  rw [Module.callAt?, Module.callAt?]
  obtain ⟨hi, hj⟩ | ⟨inst, inst', hi, hj, hpair⟩ := rel_iff.1 (h.insts hij)
  · rw [hi, hj]
    rfl
  · have hname : ∀ f, (m.func? f).map Func.name = (n.func? f).map Func.name := by
      intro f
      obtain ⟨hleft, hright⟩ | ⟨func, func', hleft, hright, hfunc⟩ := rel_iff.1 (h.func? f)
      · rw [hleft, hright]
      · rw [hleft, hright, Option.map_some, Option.map_some, hfunc.name]
    simp only [hi, hj, Option.bind_some, hpair.opcode, Option.map_bind, Function.comp_def, hname,
      h.callee? hpair]

/-- The same calls are placed, in the same order. -/
lemma placedCalls (h : R.Mirrors m n) : m.placedCalls = n.placedCalls := by
  rw [Module.placedCalls_eq, Module.placedCalls_eq, ← List.forall₂_eq_eq_eq]
  refine List.rel_filterMap (fun i j hij => ?_) h.placedInsts
  rw [h.callAt? hij]
  cases n.callAt? j with
  | none => exact .none
  | some call => exact .some rfl

end Pairing.Mirrors

/-! ## Pipelines -/

section Pipelines

variable {source : String} {m : Module}

/-- A text that is read is simplified and printed. -/
lemma simplifyText_ok (hread : Module.ofText source = .ok m) (o : Options) :
    ∃ m' stats out, m.simplify ⟨o.maxIdentityBits, false⟩ = .ok (m', stats) ∧ m'.Complete ∧
      m'.toText = .ok out ∧ simplifyText source o = .ok (out, stats) := by
  obtain ⟨hm, hcheck⟩ := Module.wellFormed_ofText hread
  obtain ⟨m', stats, hrun, -⟩ := hm.reachable.intact.simplify_verified hcheck o.maxIdentityBits
  obtain ⟨m₁, stats₁, hrun₁, hprintable⟩ :=
    (Module.printable_ofText hread).simplify o.maxIdentityBits
  obtain ⟨rfl, -⟩ := Prod.mk.inj (Except.ok.inj ((hrun false).symm.trans hrun₁))
  obtain ⟨-, out, -, hout, -⟩ := hprintable.toText_ok
  refine ⟨m', stats, out, hrun false, hprintable.complete, hout, ?_⟩
  have hrun' : m.simplify o = .ok (m', stats) := hrun o.verify
  simp only [simplifyText, hread, hrun', hout, Except.mapError, ok_bind]
  rfl

lemma reportCalls_ok (hread : Module.ofText source = .ok m) :
    reportCalls source = .ok (m.countCalls.reportLines m.name) := by
  simp only [reportCalls, hread, Except.mapError, ok_bind]
  rfl

end Pipelines

/-- Both pipelines give the same on a text that is read and on its print, if that is read too: the
same text with the same statistics, whatever the options, and the same report of calls. -/
theorem pipelines_of_print {source reprint : String} {m n : Module}
    (hread : Module.ofText source = .ok m) (hprint : m.toText = .ok reprint)
    (hreread : Module.ofText reprint = .ok n) (o : Options) :
    (∃ out stats, simplifyText source o = .ok (out, stats) ∧
      simplifyText reprint o = .ok (out, stats)) ∧
    ∃ lines, reportCalls source = .ok lines ∧ reportCalls reprint = .ok lines := by
  have hm := Module.complete_ofText hread
  have hn := Module.complete_ofText hreread
  have hsame := (Module.printable_ofText hread).sameProgram hprint hreread
  have halike : (Module.pairing hm hn).Alike m n := ⟨hsame.mirrors hm hn, hm.intact, hn.intact⟩
  constructor
  · obtain ⟨m', stats, out, hrun, hm', hout, hsource⟩ := simplifyText_ok hread o
    obtain ⟨n', stats', out', hrun', -, hout', hreprint⟩ := simplifyText_ok hreread o
    obtain ⟨m₁, n₁, stats₁, hrun₁, hrun₁', halike'⟩ := halike.simplify o.maxIdentityBits
    obtain ⟨rfl, rfl⟩ := Prod.mk.inj (Except.ok.inj (hrun.symm.trans hrun₁))
    obtain ⟨rfl, rfl⟩ := Prod.mk.inj (Except.ok.inj (hrun'.symm.trans hrun₁'))
    -- The modules mirror each other after the runs as before, so they are printed alike.
    have htext := halike'.mirrors.toText hm' halike'.right.shaped
    obtain rfl := Except.ok.inj (hout.symm.trans (htext.trans hout'))
    exact ⟨out, _, hsource, hreprint⟩
  · refine ⟨_, reportCalls_ok hread, ?_⟩
    have hcounts : m.countCalls = n.countCalls := by
      rw [Module.countCalls, Module.countCalls, halike.mirrors.placedCalls]
    rw [reportCalls_ok hreread, hcounts, halike.mirrors.name]

/-- The print of the loop is another text, and one instruction of each is erased. -/
theorem pipelines_of_print_callText : ∃ m reprint n, Module.ofText Module.callText = .ok m ∧
    m.toText = .ok reprint ∧ Module.ofText reprint = .ok n ∧ reprint ≠ Module.callText ∧
    (∃ out stats, simplifyText Module.callText ⟨32, true⟩ = .ok (out, stats) ∧
      simplifyText reprint ⟨32, true⟩ = .ok (out, stats) ∧ stats.eliminated = 1) ∧
    ∃ lines, reportCalls Module.callText = .ok lines ∧ reportCalls reprint = .ok lines := by
  have hruns : (Module.ofText Module.callText).toOption.map (fun m =>
      (m.reread?.isSome, decide (m.toText = .ok Module.callText))) = some (true, false) := by
    decide +kernel
  have hstats : (simplifyText Module.callText ⟨32, true⟩).toOption.map (fun r => r.2.eliminated)
      = some 1 := by decide +kernel
  obtain ⟨m, hread, heq⟩ := toOption_map_eq_some.1 hruns
  simp only [Prod.mk.injEq, Option.isSome_iff_exists, Module.reread?_eq_some,
    decide_eq_false_iff_not] at heq
  obtain ⟨⟨n, reprint, hprint, hreread⟩, hother⟩ := heq
  obtain ⟨⟨out, stats, hsource, hreprint⟩, hreports⟩ :=
    pipelines_of_print hread hprint hreread ⟨32, true⟩
  rw [hsource] at hstats
  refine ⟨m, reprint, n, hread, hprint, hreread, ?_, ⟨out, stats, hsource, hreprint, ?_⟩, hreports⟩
  · rintro rfl
    exact hother hprint
  · exact Option.some.inj hstats

end SsaFold
