import SsaFold.Proofs.Text.InStep

/-!
# Names tell things apart

In a module that is read from a text, no two parameters or results of a function that has blocks
have one name, and no two of its blocks (`Module.namesApart_ofText`).  While its body is read,
whatever has a name is what this name stands for (`Body.Listed`): a name that stands for a parameter
or result is not given again, and a result without a name takes a number, which is nobody's name.

The parameters of a declaration may well have one name.
-/

namespace SsaFold

open Text

namespace Module

variable {m m' : Module} {f : FuncId} {v : ValueId}

/-- The value is a parameter of function `f`, or what an instruction in one of its blocks
returns. -/
def IsOf (m : Module) (f : FuncId) (v : ValueId) : Prop :=
  (∃ func, m.func? f = some func ∧ v ∈ func.params) ∨
    ∃ i inst, m.inst? i = some inst ∧ m.owner? inst.parent = some f ∧ inst.result = v

/-- No two parameters or results of function `f` have one name, and no two of its blocks. -/
structure NamesApart (m : Module) (f : FuncId) : Prop where
  value : ∀ {v w n}, m.IsOf f v → m.IsOf f w → m.nameOf? v = some n → m.nameOf? w = some n → v = w
  block : ∀ {b c block block' n}, m.block? b = some block → block.func = f →
    m.block? c = some block' → block'.func = f → block.name = some n → block'.name = some n → b = c

/-- What belongs to a function is no placeholder. -/
lemma IsOf.exists_value (hv : m.IsOf f v) (hm : m.Draft) (hs : m.Shaped) :
    ∃ value, m.value? v = some value ∧ value.kind ≠ .placeholder := by
  rcases hv with ⟨func, hf, hparam⟩ | ⟨i, inst, hi, -, rfl⟩
  · obtain ⟨k, hk⟩ := List.mem_iff_getElem?.1 hparam
    obtain ⟨value, hvalue, hkind, -⟩ := (hm.funcs f func hf).params k v hk
    exact ⟨value, hvalue, by simp [hkind]⟩
  · obtain ⟨value, hvalue, hkind⟩ := hs.result i inst hi
    exact ⟨value, hvalue, by simp [hkind]⟩

/-- While a body is read, a function gains only what new instructions return. -/
lemma IsOf.of_keeps (hv : m'.IsOf f v) (hm : m.Draft) (hk : m.Keeps m') (fresh : ValueId → Prop)
    (hparams : ∀ {func'}, m'.func? f = some func' →
      ∃ func, m.func? f = some func ∧ func'.params = func.params)
    (hinsts : ∀ {i inst'}, m'.inst? i = some inst' → fresh inst'.result ∨
      ∃ inst, m.inst? i = some inst ∧
      inst'.result = inst.result ∧ inst'.parent = inst.parent) : fresh v ∨ m.IsOf f v := by
  rcases hv with ⟨func', hf', hparam⟩ | ⟨i, inst', hi', howner, rfl⟩
  · obtain ⟨func, hf, heq⟩ := hparams hf'
    exact .inr (.inl ⟨func, hf, heq ▸ hparam⟩)
  · refine (hinsts hi').imp_right fun ⟨inst, hi, hresult, hparent⟩ =>
      .inr ⟨i, inst, hi, ?_, hresult.symm⟩
    obtain ⟨g, hg, -⟩ := (hm.insts i inst hi).within
    rw [hparent, hk.owner? hg] at howner
    rwa [Option.some.inj howner] at hg

/-- What function `f` has in the second module it has in the first, under the same names. -/
structure SameNames (f : FuncId) (m m' : Module) : Prop where
  value : ∀ {v}, m'.IsOf f v → m.IsOf f v ∧ m'.nameOf? v = m.nameOf? v
  block : ∀ {c block'}, m'.block? c = some block' → block'.func = f →
    ∃ block, m.block? c = some block ∧ block.func = f ∧ block'.name = block.name

/-- The function has what it had, and its names, in a module in which its body is the same. -/
lemma KeepsBody.sameNames (h : KeepsBody f m m') (hm : m.Draft) (hs : m.Shaped) {func : Func}
    (hf : m.func? f = some func) (hm' : m'.Complete) : SameNames f m m' := by
  have hf' := h.func hf
  have hblocks : ∀ {c block'}, m'.block? c = some block' → block'.func = f →
      m.block? c = some block' := by
    intro c block' hc hfunc
    have hlayout := hm'.mem_layout hf' (owner?_eq_some.2 ⟨block', hc, hfunc⟩)
    obtain ⟨block, hblock, hfunc'⟩ := hs.placed f func hf c hlayout
    obtain rfl := Option.some.inj (hc.symm.trans (h.block hblock hfunc'))
    exact hblock
  have hvalues : ∀ {v}, m'.IsOf f v → m.IsOf f v := by
    rintro v (⟨func', hfunc', hparam⟩ | ⟨i, inst', hi', howner, rfl⟩)
    · obtain rfl := Option.some.inj (hf'.symm.trans hfunc')
      exact .inl ⟨_, hf, hparam⟩
    · obtain ⟨block', hblock', hfunc'⟩ := owner?_eq_some.1 howner
      have hblock := hblocks hblock' hfunc'
      obtain ⟨_, hb, hmem⟩ := (hm'.intact.shaped.held i inst'.parent).2 ⟨inst', hi', rfl⟩
      obtain rfl := Option.some.inj (hblock'.symm.trans hb)
      obtain ⟨inst, hi, hparent⟩ := (hs.held i inst'.parent).1 ⟨_, hblock, hmem⟩
      have howned : m.owner? inst.parent = some f := owner?_eq_some.2 ⟨_, hparent ▸ hblock, hfunc'⟩
      obtain ⟨inst₀, hi₀, hbare⟩ := h.inst hi howned
      obtain rfl := Option.some.inj (hi'.symm.trans hi₀)
      exact .inr ⟨i, inst, hi, howned, (Inst.result_eq_of_bare hbare).symm⟩
  refine ⟨fun hv => ⟨hvalues hv, ?_⟩, fun hc hfunc => ⟨_, hblocks hc hfunc, hfunc, rfl⟩⟩
  obtain ⟨value, hvalue, -⟩ := (hvalues hv).exists_value hm hs
  exact h.nameOf? hvalue

lemma nameOf?_of_residue {s : ValueId → ValueId} {gone : List InstId}
    (hbare : m'.bare = m.bare.residue s gone) (v : ValueId) : m'.nameOf? v = m.nameOf? v := by
  have hvalue := congrArg (Option.bind · Value.name) (value?_of_residue hbare v)
  simp only [Option.bind_map] at hvalue
  exact hvalue

/-- What is left of a module has its names. -/
lemma sameNames_of_residue {s : ValueId → ValueId} {gone : List InstId}
    (hbare : m'.bare = m.bare.residue s gone) : SameNames f m m' := by
  have hfunctions := functions_of_residue hbare
  have hblocks : ∀ {c block'}, m'.block? c = some block' →
      ∃ block, m.block? c = some block ∧ block'.name = block.name ∧ block'.func = block.func := by
    intro c block' hc
    rw [block?_of_residue hbare, Option.map_eq_some_iff] at hc
    obtain ⟨block, hblock, rfl⟩ := hc
    exact ⟨block, hblock, rfl, rfl⟩
  refine ⟨fun {v} hv => ⟨?_, nameOf?_of_residue hbare v⟩, fun hc hfunc => ?_⟩
  · rcases hv with ⟨func, hf, hparam⟩ | ⟨i, inst', hi', howner, rfl⟩
    · rw [func?, hfunctions] at hf
      exact .inl ⟨func, hf, hparam⟩
    · obtain ⟨-, inst, hi, heq⟩ := inst?_of_residue hbare hi'
      obtain ⟨block', hblock', hfunc⟩ := owner?_eq_some.1 howner
      obtain ⟨block, hblock, -, hfunc'⟩ := hblocks hblock'
      rw [Inst.parent_eq_of_bare heq, Inst.parent_rename] at hblock
      refine .inr ⟨i, inst, hi, owner?_eq_some.2 ⟨block, hblock, hfunc'.symm.trans hfunc⟩, ?_⟩
      rw [Inst.result_eq_of_bare heq, Inst.result_rename]
  · obtain ⟨block, hblock, hname, hfunc'⟩ := hblocks hc
    exact ⟨block, hblock, hfunc'.symm.trans hfunc, hname⟩

/-- Names tell apart what they told apart. -/
lemma SameNames.namesApart (h : SameNames f m m') (hapart : m.NamesApart f) : m'.NamesApart f := by
  refine ⟨fun hv hw hnv hnw => ?_, fun hb hbf hc hcf hnb hnc => ?_⟩
  · obtain ⟨hv, hname⟩ := h.value hv
    obtain ⟨hw, hname'⟩ := h.value hw
    exact hapart.value hv hw (hname ▸ hnv) (hname' ▸ hnw)
  · obtain ⟨block, hb, hfunc, hname⟩ := h.block hb hbf
    obtain ⟨block', hc, hfunc', hname'⟩ := h.block hc hcf
    exact hapart.block hb hfunc hc hfunc' (hname ▸ hnb) (hname' ▸ hnc)

lemma NamesApart.of_residue (h : m.NamesApart f) {s : ValueId → ValueId} {gone : List InstId}
    (hbare : m'.bare = m.bare.residue s gone) : m'.NamesApart f :=
  (sameNames_of_residue hbare).namesApart h

end Module

namespace Text.Body

open SsaFold.Module

variable {b b' : Body} {c : BlockId}

/-- What has a name is what this name stands for. -/
structure Listed (b : Body) : Prop where
  value : ∀ {v n}, b.module.IsOf b.func v → b.module.nameOf? v = some n → b.values[n]? = some v
  block : ∀ {c block n}, b.module.block? c = some block → block.func = b.func →
    block.name = some n → b.blocks[n]? = some c

lemma Listed.namesApart (h : b.Listed) : b.module.NamesApart b.func where
  value hv hw hnv hnw := Option.some.inj ((h.value hv hnv).symm.trans (h.value hw hnw))
  block hb hbf hc hcf hnb hnc :=
    Option.some.inj ((h.block hb hbf hnb).symm.trans (h.block hc hcf hnc))

lemma Listed.setNextSlot (h : b.Listed) (n : Nat) :
    Listed { b with nextSlot := n } := ⟨h.value, h.block⟩

/-- A label that is looked up is that of its block. -/
lemma Listed.lookup (h : b.Listed) (hb : b.Draft) (hl : Lookup b b') : b'.Listed := by
  have hw := hl.widens
  refine ⟨fun {v n} hv hname => ?_, fun {c block n} hc hfunc hname => ?_⟩
  · rw [hw.func] at hv
    have hold := hv.of_keeps hb.module hw.module.keeps (fun _ => False)
      (fun {func'} hf => ⟨func', by rwa [func?, hw.functions] at hf, rfl⟩)
      fun {i inst'} hi => .inr ⟨inst', by rwa [inst?, hw.insts] at hi, rfl, rfl⟩
    have hv := hold.resolve_left id
    obtain ⟨value, hvalue, -⟩ := hv.exists_value hb.module hb.shaped
    rw [nameOf?_of_extends hw.module hvalue] at hname
    exact hw.values (h.value hv hname)
  · cases hl with
    | @label label unknown =>
      rw [Module.block?, createBlock, Array.getElem?_push] at hc
      split_ifs at hc with hnew
      · obtain rfl := Option.some.inj hc
        obtain ⟨rfl, -⟩ := keptName_eq_some.1 hname
        obtain rfl : c = ⟨b.module.blocks.size⟩ := congrArg BlockId.mk hnew
        exact Std.TreeMap.getElem?_insert_self
      · exact hw.blocks (h.block hc hfunc hname)
    | forward => exact h.block hc hfunc hname
    | constant run =>
      obtain ⟨_, -, rfl, -⟩ := Module.constInt_eq_share run
      refine h.block ?_ hfunc hname
      rw [← hc, shareValue]
      split <;> rfl
    | null =>
      refine h.block ?_ hfunc hname
      rw [← hc, Module.null, shareValue]
      split <;> rfl

lemma Listed.lookups (h : b.Listed) (hb : b.Draft) (hl : Lookups b b') : b'.Listed := by
  induction hl with
  | refl => exact h
  | tail hsteps hstep ih => exact ih.lookup (hb.lookups hsteps) hstep

/-- To begin a block gives no names but its label. -/
lemma Begins.listed {l : String} (hbegins : Begins l c b b') (h : b.Listed) (hb : b.Draft) :
    b'.Listed := by
  obtain ⟨n, b₁, m, hlookups, -, hplace, rfl⟩ := hbegins.looked
  have h₁ := (h.setNextSlot n).lookups (hb.setNextSlot n) hlookups
  obtain ⟨block, func, hblock, hfunc, -, rfl⟩ := placeBlock_eq_ok hplace
  refine ⟨fun {v n} hv hname => h₁.value ?_ hname, h₁.block⟩
  rcases hv with ⟨func', hf', hparam⟩ | hresult
  · rw [func?_modifyFunc] at hf'
    split_ifs at hf' with hhere
    · obtain ⟨func₀, hf₀, rfl⟩ := Option.map_eq_some_iff.1 hf'
      exact .inl ⟨func₀, hf₀, hparam⟩
    · exact .inl ⟨func', hf', hparam⟩
  · exact .inr hresult

/-- The result of an instruction is what its name stands for, and a name that has been given
stays. -/
lemma Adds.listed {i : InstId} {inst : Inst} {name : Option String}
    (hadds : Adds c i inst name b b') (h : b.Listed) (hb : b.Draft) : b'.Listed := by
  obtain ⟨inst', hi', hbare⟩ := hadds.live
  refine ⟨fun {v n} hv hname => ?_, fun {d block n} hd hfunc hname => ?_⟩
  · rw [hadds.enters.values]
    rw [hadds.func] at hv
    rcases hv.of_keeps hb.module hadds.renames.extension.keeps (· = inst.result)
        (fun {func'} hf => ⟨func', by rwa [func?, hadds.functions] at hf, rfl⟩)
        (fun {j inst''} hj => (hadds.insts hj).imp_left fun heq => by
          obtain rfl := Option.some.inj (hi'.symm.trans (heq ▸ hj))
          rw [Inst.result_eq_of_bare hbare, Inst.result_rename]) with rfl | hv
    · rw [hadds.result] at hname
      obtain ⟨own, rfl, hkept⟩ := Option.bind_eq_some_iff.1 hname
      obtain ⟨rfl, -⟩ := keptName_eq_some.1 hkept
      exact if_pos rfl
    · obtain ⟨value, hvalue, hplaceholder⟩ := hv.exists_value hb.module hb.shaped
      rw [nameOf?_of_extends hadds.renames.extension hvalue] at hname
      have hbound := h.value hv hname
      rw [if_neg, hbound]
      intro hentered
      cases name with
      | some own =>
        -- Only a placeholder can have stood behind the name.
        obtain rfl : own = n := Option.some.inj hentered
        obtain ⟨value', hvalue', hkind⟩ := kind?_eq_some.1 (hadds.enters.pending own v rfl hbound)
        obtain rfl := Option.some.inj (hvalue.symm.trans hvalue')
        exact hplaceholder hkind
      | none =>
        -- A number is nobody's name.
        rw [enteredAs, Option.none_or] at hentered
        split_ifs at hentered
        obtain rfl := Option.some.inj hentered
        rw [nameOf?, hvalue] at hname
        have hnumbered := ((hb.module.values v value hvalue).2 _ hname).2
        rw [isNumbered_toString] at hnumbered
        cases hnumbered
  · rw [hadds.block] at hd
    rw [hadds.func] at hfunc
    rw [hadds.labels]
    split_ifs at hd
    · obtain ⟨block₀, hblock, rfl⟩ := Option.map_eq_some_iff.1 hd
      exact h.block hblock hfunc hname
    · exact h.block hd hfunc hname

/-- A line gives names as it says. -/
theorem Listed.line (h : b.Listed) (hb : b.Draft) (hnamed : b.Named) {ts : List Token}
    (hts : ∀ t ∈ ts, t.Valid) {u : Unit} (hrun : line ts b = .ok (u, b')) : b'.Listed := by
  rcases line_adds hb hnamed hts hrun with ⟨l, c, -, hbegins⟩ |
    ⟨c, b₁, b₂, b₃, i, inst, e, t, hopen, hb₁, hlookups, hadds, rfl, -⟩
  · exact hbegins.listed h hb
  · have hopened : b₁.Listed := by
      rcases openBlock_eq_ok hopen with ⟨-, rfl⟩ | ⟨-, hbegins⟩
      · exact h
      · exact hbegins.listed h hb
    have hadded := hadds.listed (hopened.lookups hb₁ hlookups) (hb₁.lookups hlookups)
    exact ⟨hadded.value, hadded.block⟩

/-- Lines give names as they say, one after the other. -/
theorem Listed.lines {tss tss' : List (List Token)} (h : b.Listed) (hlaid : b.Laid tss)
    (htss : ∀ ts ∈ tss', ∀ t ∈ ts, t.Valid) {u : Unit} (hrun : lines tss' b = .ok (u, b')) :
    b'.Listed := by
  induction tss' generalizing b tss with
  | nil =>
    obtain ⟨-, rfl⟩ := StateT.pure_eq_ok.1 hrun
    exact h
  | cons ts tss' ih =>
    obtain ⟨hts, htss⟩ := List.forall_mem_cons.1 htss
    obtain ⟨b₁, hline, hrest⟩ := lines_cons_eq_ok hrun
    exact ih (h.line hlaid.draft hlaid.named hts hline) (hlaid.line hts hline) htss hrest

/-- In the beginning there are the parameters, each under its name. -/
lemma listed_start {m : Module} {symbols : Symbols} {d : Definition} (hm : Sketch m symbols)
    (hd : d.Fits m) (hrun : Body.start m symbols d.func d.params = .ok b) : b.Listed := by
  have hempty := hd.not_owner hm
  simp only [Body.start, bind_eq_ok, pure_eq_ok] at hrun
  obtain ⟨⟨u, _⟩, hparams, rfl⟩ := hrun
  obtain ⟨func, hfunc, -, hlength, hnames⟩ := hd.func
  obtain ⟨k, values, rfl, -, -, hbound⟩ := nameParams_eq_ok hparams hfunc
  refine ⟨fun {v n} hv hname => ?_, fun {c block n} hc howner => absurd howner (hempty c block hc)⟩
  rcases hv with ⟨func', hf', hparam⟩ | ⟨i, inst, -, howner, -⟩
  · obtain rfl := Option.some.inj (hfunc.symm.trans hf')
    obtain ⟨j, hj⟩ := List.mem_iff_getElem?.1 hparam
    obtain ⟨hlt, -⟩ := List.getElem?_eq_some_iff.1 hj
    obtain ⟨given, hgiven⟩ : ∃ given, d.params[j]? = some given :=
      ⟨_, List.getElem?_eq_getElem (hlength ▸ hlt)⟩
    obtain ⟨value, hvalue, hkept⟩ := hnames j v given hj hgiven
    have hname' : given.bind keptName = some n := by
      rw [← hkept, ← hname, nameOf?, hvalue]
      rfl
    obtain ⟨own, rfl, hown⟩ := Option.bind_eq_some_iff.1 hname'
    obtain ⟨rfl, -⟩ := keptName_eq_some.1 hown
    obtain ⟨w, hw, hvalues⟩ := hbound j own hgiven
    rw [Nat.zero_add] at hw
    obtain rfl := Option.some.inj (hj.symm.trans hw)
    exact hvalues
  · obtain ⟨block, hblock, hfunc'⟩ := owner?_eq_some.1 howner
    exact absurd hfunc' (hempty _ block hblock)

end Text.Body

namespace Module

variable {m : Module} {text : String} {f : FuncId} {func : Func}

/-- In a function that has been read, names tell parameters and results apart, and blocks. -/
theorem namesApart_ofText (hread : ofText text = .ok m) (hf : m.func? f = some func)
    (hdefined : func.layout ≠ #[]) : m.NamesApart f := by
  obtain ⟨d, b, tss, hbody, rfl⟩ := exists_bodyOf_func hread hf hdefined
  have hbind := hread
  simp only [ofText, bind_eq_ok, mapError_eq_ok] at hbind
  obtain ⟨o, houtline, s, hheaders, -⟩ := hbind
  obtain ⟨m₀, b', hm, hd, hstart, htss, hrun, hfunc, -, hkeeps⟩ :=
    hbody.kept hread houtline hheaders
  have hlaid := Body.laid_start hm hd hstart
  have hdraft := (hlaid.lines htss hrun).draft
  have hlisted := (Body.listed_start hm hd hstart).lines hlaid htss hrun
  obtain ⟨func', hf'⟩ := hdraft.home
  rw [hfunc] at hf'
  exact (hkeeps.sameNames hdraft.module hdraft.shaped hf' (complete_ofText hread)).namesApart
    (hfunc ▸ hlisted.namesApart)

end Module
end SsaFold
