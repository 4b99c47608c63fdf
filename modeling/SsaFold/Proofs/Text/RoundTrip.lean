import SsaFold.Proofs.Text.Printing
import SsaFold.Proofs.Text.Reading

/-!
# Printing and reading back

What is printed is never misread: if the reader accepts the print of a module, then what it returns
is the same program (`Module.Printable.sameProgram`).  So it is for each module that has been read,
and for each that the simplifier makes of it (`Module.sameProgram_of_print`).

The print and what is read hold the same chapters (`Printable.toText_ok`, `holdsRead_ofText`).  What
is left is to compare the operands that are no local names: a constant is read as the one that is
printed (`IntConst.ofInt?_value`), and a name of the module stands for the function or global at the
same position (`Printing.sameShared`).
-/

namespace SsaFold

open Text

/-! ## Constants -/

namespace IntConst

/-- A constant is the one of its own value. -/
lemma ofInt?_value (c : IntConst) : ofInt? c.bits c.value = some c := by
  rw [ofInt?, dif_pos ⟨c.bits_pos, c.bits_le⟩]
  refine congrArg some (ext rfl ?_)
  have hlower := c.lower
  have hupper := c.upper
  exact Int.bmod_eq_of_le (by omega) (by omega)

/-- A truth value is read as the constant that it is printed for. -/
lemma ofInt?_bool {c : IntConst} (h : c.bits = 1) :
    ofInt? 1 (if c.value ≠ 0 then 1 else 0) = some c := by
  have hmodulus : modulus c.bits = 2 := by rw [h]; rfl
  have hlower := c.lower
  have hupper := c.upper
  rw [hmodulus] at hlower hupper
  rw [ofInt?, dif_pos ⟨Nat.one_pos, by decide⟩]
  refine congrArg some (ext h.symm ?_)
  rw [value_ofInt]
  have hvalue : c.value = 0 ∨ c.value = -1 := by omega
  rcases hvalue with hvalue | hvalue <;> rw [hvalue] <;> rfl

end IntConst

/-! ## Names of the module -/

namespace Text

variable {m n : Module} {f : FuncId} {func : Func} {symbols : Symbols}

/-- An operand that is no local name is read as the constant or the address that it is printed
for. -/
lemma Printing.sameShared (hm : m.Shaped) (hknown : Known n symbols)
    (hfuncs : ∀ f func, m.func? f = some func → ∃ func',
      n.func? f = some func' ∧ func'.name = func.name)
    (hglobals : ∀ g glob, m.global? g = some glob →
      ∃ glob', n.global? g = some glob' ∧ glob'.name = glob.name) {T : Scope}
    (hT : ∀ a v, T.denotes a v → ∃ b : Body, b.module = n ∧ b.symbols = symbols ∧ b.Denotes a v) :
    Module.SameShared m n ((Printing.of m func).scope f func) T := by
  rintro ⟨ty, atom⟩ v w ⟨hatom, hty, -⟩ hw hlocal
  obtain ⟨b, rfl, rfl, hw⟩ := hT _ w hw
  obtain ⟨value, hvalue, htype⟩ := Module.typeOf?_eq_some.1 hty
  have hkind := Module.kind?_eq_some.2 ⟨value, hvalue, rfl⟩
  have hfits := hm.fits v value hvalue
  simp only [atom?, hkind] at hatom
  cases hcase : value.kind with
  | constInt c =>
    rw [hcase] at hatom hfits hkind
    obtain rfl : ty = .int c.bits := htype.symm.trans hfits
    refine ⟨.constInt c, trivial, hkind, ?_⟩
    dsimp only at hatom
    split_ifs at hatom with hbits
    · obtain rfl := Option.some.inj hatom
      obtain ⟨c', hc', hk⟩ := hw
      have hread := IntConst.ofInt?_bool hbits
      simp only [decide_eq_true_eq] at hc'
      rwa [Option.some.inj (hc'.symm.trans hread)] at hk
    · obtain rfl := Option.some.inj hatom
      obtain ⟨bits, c', hbits', hc', hk⟩ := hw
      obtain rfl := Ty.int.inj hbits'
      rwa [Option.some.inj (hc'.symm.trans c.ofInt?_value)] at hk
  | null =>
    rw [hcase] at hatom hkind
    obtain rfl := Option.some.inj hatom
    exact ⟨.null, trivial, hkind, hw⟩
  | function g =>
    rw [hcase] at hatom hkind
    obtain ⟨func₀, hg, rfl⟩ := Option.map_eq_some_iff.1 hatom
    obtain ⟨func', hg', hname⟩ := hfuncs g func₀ hg
    obtain ⟨w', hw', hk⟩ := hknown.func g func' hg'
    have hbound : b.symbols[func₀.name]? = some w := hw
    rw [hname] at hw'
    obtain rfl := Option.some.inj (hbound.symm.trans hw')
    exact ⟨.function g, trivial, hkind, hk⟩
  | global g =>
    rw [hcase] at hatom hkind
    obtain ⟨glob, hg, rfl⟩ := Option.map_eq_some_iff.1 hatom
    obtain ⟨glob', hg', hname⟩ := hglobals g glob hg
    obtain ⟨w', hw', hk⟩ := hknown.global g glob' hg'
    have hbound : b.symbols[glob.name]? = some w := hw
    rw [hname] at hw'
    obtain rfl := Option.some.inj (hbound.symm.trans hw')
    exact ⟨.global g, trivial, hkind, hk⟩
  | _ =>
    rw [hcase] at hatom
    obtain rfl := Option.some.inj hatom
    exact absurd rfl (hlocal _)

/-! ## Lines -/

/-- No line of a chapter names the source file. -/
lemma Chapter.first_ne {c : Chapter} {ts : List Token} (hts : ts ∈ c.lines) :
    ∃ first rest, ts = first :: rest ∧ first ≠ .word "source_filename" := by
  have hword : ∀ (word : String) (rest : List Token), word ≠ "source_filename" →
      ∃ first rest', .word word :: rest = first :: rest' ∧ first ≠ .word "source_filename" :=
    fun word rest hne => ⟨_, _, rfl, fun h => hne (Token.word.inj h)⟩
  rw [Chapter.lines] at hts
  split_ifs at hts
  · obtain rfl := List.mem_singleton.1 hts
    exact hword _ _ (by decide)
  · rcases List.mem_append.1 hts with hts | hts
    · rcases List.mem_cons.1 hts with rfl | hts
      · exact hword _ _ (by decide)
      · obtain ⟨p, -, hts⟩ := List.mem_flatMap.1 hts
        rcases List.mem_append.1 hts with hlabel | hentry
        · obtain ⟨l, -, rfl⟩ := List.mem_map.1 hlabel
          exact ⟨_, _, rfl, (by simp)⟩
        · obtain ⟨e, -, rfl⟩ := List.mem_map.1 hentry
          exact Printing.entry_first_ne e
    · obtain rfl := List.mem_singleton.1 hts
      exact ⟨_, _, rfl, (by simp)⟩

/-- The lines of chapters are left for the sweeps over headers and bodies. -/
lemma kindsOf_lines (cs : List Chapter) : ∃ ts : List (Token × List Token),
    cs.flatMap Chapter.lines = ts.map (fun t => t.1 :: t.2) ∧
      kindsOf (cs.flatMap Chapter.lines) = ts.map fun t => .tokens t.1 t.2 := by
  have hlines : ∀ ts ∈ cs.flatMap Chapter.lines, ∃ t : Token × List Token,
      ts = t.1 :: t.2 ∧ LineKind.ofTokens ts = .tokens t.1 t.2 := by
    intro ts hts
    obtain ⟨c, -, hc⟩ := List.mem_flatMap.1 hts
    obtain ⟨first, rest, rfl, hfirst⟩ := Chapter.first_ne hc
    exact ⟨(first, rest), rfl, ofTokens_cons hfirst⟩
  obtain ⟨ts, hts⟩ := exists_forall₂ hlines
  refine ⟨ts, ?_, ?_⟩
  · rw [← List.forall₂_eq_eq_eq, List.forall₂_map_right_iff]
    exact hts.imp fun _ _ h => h.1
  · rw [kindsOf, ← List.forall₂_eq_eq_eq, List.forall₂_map_left_iff, List.forall₂_map_right_iff]
    exact hts.imp fun _ _ h => h.2

end Text

namespace Module

variable {m n : Module}

/-- What is gathered from the lines of a print. -/
lemma filterMap_kinds {β : Type} (m : Module) (ts : List (Token × List Token))
    (g : LineKind → Option β) :
    (m.kinds ++ ts.map fun t => LineKind.tokens t.1 t.2).filterMap g
      = (if m.name = "" then [] else (g (.moduleName m.name)).toList)
        ++ (m.sourceFilename.bind fun s => g (.sourceFilename (some s))).toList
        ++ m.targetLines.filterMap (fun t => g (.target t))
        ++ m.globals.toList.filterMap (fun x => g (.globalDef x.name x.definition))
        ++ ts.filterMap fun t => g (.tokens t.1 t.2) := by
  have hone : ∀ kind, [kind].filterMap g = (g kind).toList := fun kind => by
    cases hkind : g kind <;> simp [hkind]
  simp only [kinds, List.filterMap_append, List.filterMap_map, Function.comp_def]
  congr 4
  · split_ifs
    · rfl
    · exact hone _
  · cases m.sourceFilename with
    | none => rfl
    | some s => exact hone _

/-- Above its functions a module that is read from a print is as the one that was printed. -/
lemma gathered_of_print {o : Outline} {cs : List Chapter}
    (h : Outline.Gathers (m.kinds ++ kindsOf (cs.flatMap Chapter.lines)) {} o) :
    o.module.name = m.name ∧ o.module.sourceFilename = m.sourceFilename ∧
      o.module.targetLines = m.targetLines ∧
      o.module.globals.toList.map (fun g => (g.name, g.definition))
        = m.globals.toList.map fun g => (g.name, g.definition) := by
  obtain ⟨ts, -, hkinds⟩ := kindsOf_lines cs
  obtain ⟨hname, hsource, htarget, hglobals, -, -⟩ := h
  rw [hkinds, filterMap_kinds] at hname hsource htarget hglobals
  refine ⟨?_, ?_, ?_, ?_⟩
  · rw [hname]
    by_cases hempty : m.name = "" <;> simp [hempty, LineKind.moduleName?, empty]
  · rw [hsource]
    cases hs : m.sourceFilename <;> simp [LineKind.sourceName?, empty]
  · rw [htarget]
    simp [LineKind.target?, empty]
  · rw [hglobals]
    simp [LineKind.globalDef?, empty]

/-- The other lines are those of the chapters. -/
lemma tokens_of_print (m : Module) (cs : List Chapter) :
    (m.kinds ++ kindsOf (cs.flatMap Chapter.lines)).filterMap LineKind.tokens?
      = cs.flatMap Chapter.lines := by
  obtain ⟨ts, hlines, hkinds⟩ := kindsOf_lines cs
  rw [hkinds, hlines, filterMap_kinds]
  simp [LineKind.tokens?]

lemma HoldsAll.chapter {cs : List Chapter} (h : m.HoldsAll cs) {k : Nat} {func : Func}
    (hf : m.func? ⟨k⟩ = some func) : ∃ c, cs[k]? = some c ∧ c.Valid ∧
      m.HoldsChapter ((Printing.of m func).scope ⟨k⟩ func) func c ∧
      Printing.LeavesOut m func c.paragraphs := by
  have hindex : m.functions.toList.zipIdx[k]? = some (func, k) := by
    have hf' : m.functions[k]? = some func := hf
    simp [List.getElem?_zipIdx, hf']
  rw [HoldsAll] at h
  obtain ⟨c, hc, hvalid, hholds, hleft⟩ := exists_of_forall₂_left h hindex
  exact ⟨c, hc, hvalid, hholds, hleft⟩

/-- What is printed is never misread. -/
theorem Printable.sameProgram (h : m.Printable) {out : String} (hout : m.toText = .ok out)
    (hread : ofText out = .ok n) : m.SameProgram n := by
  obtain ⟨cs, out', hcs, hout', hprints⟩ := h.toText_ok
  obtain rfl := Except.ok.inj (hout.symm.trans hout')
  have hvalid : ∀ c ∈ cs, c.Valid := fun c hc => by
    obtain ⟨_, -, hc⟩ := exists_mem_of_forall₂ hcs c hc
    exact hc.1
  obtain ⟨o, symbols, hgathers, hapart, hheld⟩ :=
    holdsRead_ofText hread hprints (tokens_of_print m cs) hvalid
  obtain ⟨hname, hsource, htarget, hglobals⟩ := gathered_of_print hgathers
  have habove : n.name = o.module.name ∧ n.sourceFilename = o.module.sourceFilename ∧
      n.targetLines = o.module.targetLines ∧ n.globals = o.module.globals := by
    obtain ⟨_, _, _, _, rfl⟩ := hapart
    exact ⟨rfl, rfl, rfl, rfl⟩
  obtain ⟨hname', hsource', htarget', hglobals'⟩ := habove
  rw [← hglobals'] at hglobals
  have hfuncs : ∀ f func, m.func? f = some func →
      ∃ func', n.func? f = some func' ∧ func'.name = func.name := by
    rintro ⟨k⟩ func hf
    obtain ⟨c, hc, -, hleft, -⟩ := hcs.chapter hf
    obtain ⟨func', T, hf', hright, -⟩ := hheld.chapter k c hc
    exact ⟨func', hf', hright.header.name.trans hleft.header.name.symm⟩
  have hglobs : ∀ g glob, m.global? g = some glob →
      ∃ glob', n.global? g = some glob' ∧ glob'.name = glob.name := by
    rintro ⟨k⟩ glob hg
    have hg' : m.globals.toList[k]? = some glob := by rwa [Array.getElem?_toList]
    have heq := congrArg (·[k]?) hglobals
    simp only [List.getElem?_map, hg', Option.map_some, Option.map_eq_some_iff] at heq
    obtain ⟨glob', hglob', hpair⟩ := heq
    rw [Array.getElem?_toList] at hglob'
    exact ⟨glob', hglob', (Prod.mk.inj hpair).1⟩
  refine ⟨hname'.trans hname, hsource'.trans hsource, htarget'.trans htarget, hglobals, ?_, ?_⟩
  · have hlength := hcs.length_eq
    rw [List.length_zipIdx, Array.length_toList] at hlength
    rw [hheld.size, hlength]
  · rintro ⟨k⟩ func func' hf hf'
    obtain ⟨c, hc, hvalid, hleft, -⟩ := hcs.chapter hf
    obtain ⟨func'', T, hf'', hright, hmeaning, hT⟩ := hheld.chapter k c hc
    obtain rfl := Option.some.inj (hf'.symm.trans hf'')
    have htwins : Twins m n ⟨k⟩ func func' ((Printing.of m func).scope ⟨k⟩ func) T c :=
      ⟨h.complete, complete_ofText hread, hf, hf', hleft, hright, hvalid,
        Printing.oneName h.complete hf, hmeaning,
        Printing.sameShared h.complete.intact.shaped hheld.known hfuncs hglobs hT⟩
    exact htwins.sameFunc

/-- What the reader returns can be printed, and so can what the simplifier makes of it; and if the
print is read, then it is read as the same program. -/
theorem sameProgram_of_print {text : String} (hread : ofText text = .ok m) :
    (∃ out, m.toText = .ok out ∧ ∀ n, ofText out = .ok n → m.SameProgram n) ∧
      ∀ options, ∃ m', m.simplified options = .ok m' ∧
        ∃ out, m'.toText = .ok out ∧ ∀ n, ofText out = .ok n → m'.SameProgram n := by
  have hprint : ∀ m : Module, m.Printable →
      ∃ out, m.toText = .ok out ∧ ∀ n, ofText out = .ok n → m.SameProgram n := by
    intro m hm
    obtain ⟨-, out, -, hout, -⟩ := hm.toText_ok
    exact ⟨out, hout, fun n hn => hm.sameProgram hout hn⟩
  have hm := printable_ofText hread
  refine ⟨hprint m hm, fun ⟨maxBits, verify⟩ => ?_⟩
  obtain ⟨m', stats, hrun, hm'⟩ := hm.simplify maxBits
  exact ⟨m', simplified_of_check (wellFormed_ofText hread).2 hrun verify, hprint m' hm'⟩

/-- A loop that reads a value before its definition and calls a function of variable arity. -/
def callText : String :=
  "declare void @g(i1, ...)\n" ++
  "define void @f(i8 %x) \x7b\na:\n  br label %b\n" ++
  "b:\n  %p = phi i8 [ %x, %a ], [ %q, %b ]\n  %q = add i8 %p, 0\n" ++
  "  call void (i1, ...) @g(i1 true, i8 %q)\n  br label %b\n\x7d\n"

/-- What the reader makes of the print of the module. -/
def reread? (m : Module) : Option Module := do (ofText (← m.toText.toOption)).toOption

lemma reread?_eq_some : m.reread? = some n ↔ ∃ out, m.toText = .ok out ∧ ofText out = .ok n := by
  rw [reread?, Option.bind_eq_bind, Option.bind_eq_some_iff]
  simp only [toOption_eq_some]

/-- Five instructions are printed and read again, and the four that the simplifier leaves. -/
theorem sameProgram_of_print_callText : ∃ m m', ofText callText = .ok m ∧
    m.simplified ⟨32, true⟩ = .ok m' ∧ m.instCount = 5 ∧ m'.instCount = 4 ∧
    (∃ out n, m.toText = .ok out ∧ ofText out = .ok n ∧ n.instCount = 5 ∧ m.SameProgram n) ∧
    ∃ out n, m'.toText = .ok out ∧ ofText out = .ok n ∧ n.instCount = 4 ∧ m'.SameProgram n := by
  have hruns : (ofText callText).toOption.map (fun m =>
      (m.instCount, m.reread?.map instCount, (m.simplified ⟨32, true⟩).toOption.map fun m' =>
        (m'.instCount, m'.reread?.map instCount)))
      = some (5, some 5, some (4, some 4)) := by decide +kernel
  obtain ⟨m, hread, heq⟩ := toOption_map_eq_some.1 hruns
  simp only [Prod.mk.injEq, Option.map_eq_some_iff, toOption_eq_some, reread?_eq_some] at heq
  obtain ⟨hfive, ⟨n, ⟨out, hout, hn⟩, hn₅⟩, m', hm', hfour, n', ⟨out', hout', hn'⟩, hn₄⟩ := heq
  obtain ⟨⟨_, hprint, hsame⟩, hall⟩ := sameProgram_of_print hread
  obtain ⟨_, hrun, _, hprint', hsame'⟩ := hall ⟨32, true⟩
  obtain rfl := Except.ok.inj (hout.symm.trans hprint)
  obtain rfl := Except.ok.inj (hm'.symm.trans hrun)
  obtain rfl := Except.ok.inj (hout'.symm.trans hprint')
  exact ⟨m, m', hread, hm', hfive, hfour, ⟨out, n, hout, hn, hn₅, hsame n hn⟩, out', n', hout', hn',
    hn₄, hsame' n' hn'⟩

end Module
end SsaFold
