import SsaFold.Proofs.Text.Drafting
import SsaFold.Proofs.Text.Reader

/-!
# Globals and functions

The first two sweeps of the reader add a global for every definition of one and a function for every
header.  `Sketch` is the invariant between functions: the module is a draft, the names of functions
and globals stand for their addresses, and no block waits for its place.  A definition remembers the
names of its parameters, and `Definition.Fits` says that they are those of the function.
-/

namespace SsaFold

open Text

namespace Module

variable {m m' : Module}

/-! ## Globals -/

lemma keeps_describe (m : Module) (name : String) (sourceFilename : Option String)
    (targetLines : List String) : m.Keeps { m with name, sourceFilename, targetLines } :=
  .of_append #[] (by simp) rfl #[] (by simp) (fun hf => ⟨_, hf, rfl⟩) id

lemma Draft.describe (h : m.Draft) (name : String) (sourceFilename : Option String)
    (targetLines : List String) : Draft { m with name, sourceFilename, targetLines } :=
  h.of_insts (m.keeps_describe name sourceFilename targetLines) rfl h.values
    fun _ inst hi => .inr ⟨inst, hi, rfl⟩

lemma keeps_addGlobal (m : Module) (name definition : String) :
    m.Keeps (m.addGlobal name definition).1 := by
  refine .of_append #[_] rfl rfl #[] (by simp [addGlobal, pushValue]) (fun hf => ⟨_, hf, rfl⟩)
    fun {g glob} hg => ?_
  show (m.globals.push _)[g.index]? = _
  rw [Array.getElem?_push_lt (Array.getElem?_eq_some_iff.1 hg).1]
  exact congrArg some (Array.getElem?_eq_some_iff.1 hg).2

lemma Draft.addGlobal (h : m.Draft) (name definition : String) :
    (m.addGlobal name definition).1.Draft := by
  refine h.of_insts (m.keeps_addGlobal name definition) rfl (fun v value hv => ?_)
    fun i inst hi => .inr ⟨inst, hi, rfl⟩
  have hv' : (m.values.push { kind := .global ⟨m.globals.size⟩, ty := .ptr })[v.index]?
      = some value := hv
  rw [Array.getElem?_push] at hv'
  split_ifs at hv'
  · exact Option.some.inj hv' ▸ ⟨trivial, nameable_none⟩
  · exact h.values v value hv'

end Module

namespace Text

variable {m m' : Module} {symbols : Symbols}

/-! ## Headers -/

namespace Header

/-- The function of a header, which stands for the value with index `base`. -/
def func (h : Header) (base : Nat) : Func where
  name := h.name
  returnType := h.returnType
  linkage := h.linkage
  attrs := h.attrs
  vararg := h.vararg
  params := (List.range h.params.length).map fun k => ⟨base + 1 + k⟩
  value := ⟨base⟩

/-- The parameters of a header. -/
def arguments (h : Header) (f : FuncId) : List Value :=
  h.params.zipIdx.map fun (p, k) =>
    { kind := .argument f k, ty := p.ty, name := p.name.bind keptName }

/-- The values of a header: the address of its function, and the parameters. -/
def newValues (h : Header) (f : FuncId) : List Value :=
  { kind := .function f, ty := .ptr } :: h.arguments f

lemma getElem?_params {h : Header} {base k : Nat} {v : ValueId}
    (hv : (h.func base).params[k]? = some v) : v = ⟨base + 1 + k⟩ ∧ k < h.params.length := by
  simp only [func, List.getElem?_map, Option.map_eq_some_iff] at hv
  obtain ⟨k', hk', rfl⟩ := hv
  obtain ⟨hlt, heq⟩ := List.getElem?_eq_some_iff.1 hk'
  rw [List.getElem_range] at heq
  exact ⟨heq ▸ rfl, by simpa using hlt⟩

end Header

/-- The value, named as the parameter is. -/
def Param.named (p : Param) (v : Value) : Value := { v with name := p.name.bind keptName }

/-- Consecutive values are named one after the other. -/
lemma nameAll_eq_ok {as : Array Value} {ps : List Param} {vs : List Value}
    (hvalues : m.values = as ++ vs.toArray) (hlength : vs.length = ps.length)
    (hrun : (((List.range' as.size ps.length).map ValueId.mk).zip ps).foldlM
      (fun m (v, p) => m.setValueName v (p.name.bind keptName)) m = .ok m') :
    m' = { m with values := as ++ (List.zipWith Param.named ps vs).toArray } := by
  induction ps generalizing as vs m with
  | nil =>
    obtain rfl := List.eq_nil_of_length_eq_zero hlength
    rw [← Except.ok.inj hrun, List.zipWith_nil_right, ← hvalues]
  | cons p ps ih =>
    cases vs with
    | nil => simp at hlength
    | cons v vs =>
      rw [List.length_cons, List.range'_succ, List.map_cons, List.zip_cons_cons,
        List.foldlM_cons, bind_eq_ok] at hrun
      obtain ⟨m₁, hname, hrest⟩ := hrun
      simp only [Module.setValueName, bind_eq_ok, pure_eq_ok] at hname
      obtain ⟨-, -, rfl⟩ := hname
      have hvalues₁ : (m.modifyValue ⟨as.size⟩ p.named).values
          = as.push (p.named v) ++ vs.toArray := by
        refine Array.ext_getElem? fun k => ?_
        simp only [Module.modifyValue, hvalues, Array.getElem?_modify]
        rcases Nat.lt_trichotomy k as.size with hk | rfl | hk
        · simp [Array.getElem?_append, hk, hk.ne']
        · simp
        · obtain ⟨j, rfl⟩ := Nat.exists_eq_add_of_le (show as.size + 1 ≤ k from hk)
          simp [Array.getElem?_append, show as.size + 1 + j - as.size = j + 1 by omega,
            show ¬ as.size + 1 + j < as.size by omega, show as.size ≠ as.size + 1 + j by omega]
      rw [ih hvalues₁ (Nat.succ.inj hlength) (by rw [Array.size_push]; exact hrest)]
      simp [Module.modifyValue]

/-- What a header adds to a module. -/
lemma addHeader_eq_ok {h : Header} {f : FuncId} (hrun : addHeader m h = .ok (m', f)) :
    f = ⟨m.functions.size⟩ ∧ m' = { m with
      values := m.values ++ (h.newValues f).toArray
      functions := m.functions.push (h.func m.values.size) } := by
  simp only [addHeader, bind_eq_ok, pure_eq_ok, Prod.mk.injEq, Module.getFunc_eq_ok] at hrun
  obtain ⟨func, hfunc, m₂, hnames, rfl, rfl⟩ := hrun
  refine ⟨rfl, ?_⟩
  simp only [Module.addFunc, Module.func?, Array.getElem?_push_size, Option.some.injEq] at hfunc
  subst hfunc
  simp only [List.length_map] at hnames
  have hids : (List.range h.params.length).map (fun k => (⟨m.values.size + 1 + k⟩ : ValueId))
      = (List.range' (m.values.size + 1) h.params.length).map ValueId.mk := by
    rw [List.range'_eq_map_range, List.map_map]
    rfl
  rw [hids] at hnames
  obtain ⟨vs, hvs⟩ : ∃ vs : List Value, vs = (h.params.map Param.ty).zipIdx.map
      fun p => { kind := .argument ⟨m.functions.size⟩ p.2, ty := p.1 } := ⟨_, rfl⟩
  have hvalues : (m.addFunc h.name h.returnType (h.params.map Param.ty)).1.values
      = m.values.push { kind := .function ⟨m.functions.size⟩, ty := .ptr } ++ vs.toArray := by
    rw [hvs]
    rfl
  have hlength : vs.length = h.params.length := by simp [hvs]
  have hm₂ := nameAll_eq_ok hvalues hlength (by rw [Array.size_push]; exact hnames)
  subst hm₂
  have harguments : List.zipWith Param.named h.params vs = h.arguments ⟨m.functions.size⟩ := by
    refine List.ext_getElem? fun k => ?_
    simp only [hvs, List.getElem?_zipWith, Header.arguments, List.getElem?_map,
      List.getElem?_zipIdx]
    cases h.params[k]? <;> rfl
  rw [harguments]
  simp only [Module.modifyFunc, Module.addFunc, Header.newValues, List.length_map]
  congr 1
  · refine Array.ext_getElem? fun k => ?_
    rw [Array.getElem?_modify]
    split_ifs with hk
    · subst hk
      simp [Header.func]
    · simp [Array.getElem?_push, Ne.symm hk]
  · simp

section AddHeader

variable {h : Header} {f : FuncId}

lemma keeps_addHeader (hrun : addHeader m h = .ok (m', f)) : m.Keeps m' := by
  obtain ⟨rfl, rfl⟩ := addHeader_eq_ok hrun
  refine .of_append _ rfl rfl #[] (by simp) (fun {g func} hg => ⟨func, ?_, rfl⟩) id
  rw [Module.func?, Array.getElem?_push_lt (Array.getElem?_eq_some_iff.1 hg).1]
  exact congrArg some (Array.getElem?_eq_some_iff.1 hg).2

/-- The function that is added, its address, and its parameters. -/
lemma func?_addHeader (hrun : addHeader m h = .ok (m', f)) :
    m'.func? f = some (h.func m.values.size) ∧
      m'.value? ⟨m.values.size⟩ = some { kind := .function f, ty := .ptr } ∧
      ∀ k p, h.params[k]? = some p → m'.value? ⟨m.values.size + 1 + k⟩
        = some { kind := .argument f k, ty := p.ty, name := p.name.bind keptName } := by
  obtain ⟨rfl, rfl⟩ := addHeader_eq_ok hrun
  refine ⟨Array.getElem?_push_size, ?_, fun k p hp => ?_⟩
  · simp [Module.value?, Header.newValues]
  · have hk : (h.arguments ⟨m.functions.size⟩)[k]? = some
        { kind := .argument ⟨m.functions.size⟩ k, ty := p.ty, name := p.name.bind keptName } := by
      simp [Header.arguments, hp]
    have hindex : m.values.size + 1 + k - m.values.size = k + 1 := by omega
    rw [Module.value?, Array.getElem?_append_right (by simp; omega), hindex]
    simpa [Header.newValues] using hk

/-- A function can be added whose header can be written. -/
lemma draft_addHeader (hm : m.Draft) (hh : h.Valid) (hrun : addHeader m h = .ok (m', f)) :
    m'.Draft := by
  have hk := keeps_addHeader hrun
  obtain ⟨-, -, hparams⟩ := func?_addHeader hrun
  obtain ⟨rfl, rfl⟩ := addHeader_eq_ok hrun
  refine ⟨fun i inst hi => (hm.insts i inst hi).mono hk rfl, fun v value hv => ?_,
    fun g func hg => ?_⟩
  · rw [Module.value?, Array.getElem?_append] at hv
    split_ifs at hv
    · exact hm.values v value hv
    · have hmem : value ∈ h.newValues ⟨m.functions.size⟩ := by
        rw [List.getElem?_toArray] at hv
        exact List.mem_of_getElem? hv
      rcases List.mem_cons.1 hmem with rfl | hmem
      · exact ⟨trivial, nameable_none⟩
      · obtain ⟨⟨p, k⟩, hp, rfl⟩ := List.mem_map.1 hmem
        have hvalid := hh.params p (List.fst_mem_of_mem_zipIdx hp)
        refine ⟨hvalid.ty, ?_⟩
        show Nameable (p.name.bind keptName)
        cases hname : p.name with
        | none => exact nameable_none
        | some s => exact nameable_keptName (hvalid.name s hname)
  · rw [Module.func?, Array.getElem?_push] at hg
    split_ifs at hg with hnew
    · obtain rfl := Option.some.inj hg
      refine ⟨hh.name, hh.returnType, hh.linkage, hh.attrs, fun k v hv => ?_, by simp [Header.func]⟩
      obtain ⟨rfl, hlt⟩ := Header.getElem?_params hv
      have hp : h.params[k]? = some h.params[k] := List.getElem?_eq_getElem hlt
      obtain rfl : g = ⟨m.functions.size⟩ := congrArg FuncId.mk hnew
      exact ⟨_, hparams k _ hp, rfl, (hh.params _ (List.getElem_mem hlt)).not_void⟩
    · exact (hm.funcs g func hg).mono hk

end AddHeader

/-! ## What the sweeps keep -/

/-- The invariant between functions. -/
structure Sketch (m : Module) (symbols : Symbols) : Prop where
  wellFormed : Scoped m symbols
  draft : m.Draft
  addresses : Addresses m symbols
  /-- No block waits for its place. -/
  placed : ∀ c block, m.block? c = some block → c ∈ m.placedBlocks

/-- The definition is that of a function whose body has not been read. -/
structure Definition.Fits (m : Module) (d : Definition) : Prop where
  func : ∃ func, m.func? d.func = some func ∧ func.layout = #[] ∧
    func.params.length = d.params.length ∧
    ∀ (k : Nat) v (name : Option String), func.params[k]? = some v → d.params[k]? = some name →
      ∃ value, m.value? v = some value ∧ value.name = name.bind keptName
  quotable : ∀ name ∈ d.params, ∀ s, name = some s → Quotable s

/-- The definitions that are still to be read. -/
structure Pending (m : Module) (ds : List Definition) : Prop where
  fits : ∀ d ∈ ds, d.Fits m
  once : (ds.map Definition.func).Nodup

/-- While the body of another function is read, a definition waits. -/
lemma Definition.Fits.extends {d : Definition} (h : d.Fits m) {g : FuncId} {s : ValueId → ValueId}
    (hm : m.Extends g s m') (hne : d.func ≠ g) : d.Fits m' := by
  obtain ⟨func, hfunc, hlayout, hlength, hnames⟩ := h.func
  obtain ⟨layout, hfunc', hsame⟩ := hm.func hfunc
  refine ⟨⟨_, hfunc', (hsame hne).trans hlayout, hlength, fun k v name hv hname => ?_⟩, h.quotable⟩
  obtain ⟨value, hvalue, heq⟩ := hnames k v name hv hname
  obtain ⟨value', hvalue', -, -, heq'⟩ := hm.value hvalue
  exact ⟨value', hvalue', heq'.trans heq⟩

lemma Addresses.insert (h : Addresses m symbols) {name : String} {v : ValueId}
    (hv : (∃ f func, m.kind? v = some (.function f) ∧ m.func? f = some func) ∨
      ∃ g glob, m.kind? v = some (.global g) ∧ m.global? g = some glob) :
    Addresses m (symbols.insert name v) := by
  intro name' w hw
  rw [Body.getElem?_insert] at hw
  split_ifs at hw
  · exact Option.some.inj hw ▸ hv
  · exact h name' w hw

lemma sketch_empty : Sketch (.empty "") ∅ where
  wellFormed := ⟨Module.wellFormed_empty "", fun name v hv => by simp at hv⟩
  draft := .empty ""
  addresses := fun name v hv => by simp at hv
  placed := fun c block hc => by simp [Module.empty, Module.block?] at hc

/-! ## Globals -/

lemma Outline.add_sketch {o o' : Outline} {number : Nat} {line : String}
    (h : Sketch o.module o.symbols) (hrun : o.add number line = .ok o') :
    Sketch o'.module o'.symbols := by
  have hscoped := add_scoped h.wellFormed hrun
  have hdescribe : ∀ name sourceFilename targetLines,
      Scoped { o.module with name, sourceFilename, targetLines } o.symbols →
        Sketch { o.module with name, sourceFilename, targetLines } o.symbols :=
    fun name sourceFilename targetLines hscoped =>
      ⟨hscoped, h.draft.describe name sourceFilename targetLines,
        h.addresses.mono (o.module.keeps_describe _ _ _), h.placed⟩
  simp only [Outline.add, bind_eq_ok] at hrun
  obtain ⟨kind, -, hrun⟩ := hrun
  cases kind with
  | moduleName name =>
    obtain rfl := pure_eq_ok.1 hrun
    exact hdescribe _ _ _ hscoped
  | target text =>
    obtain rfl := pure_eq_ok.1 hrun
    exact hdescribe _ _ _ hscoped
  | skipped =>
    obtain rfl := pure_eq_ok.1 hrun
    exact h
  | globalDef name definition =>
    dsimp only at hrun
    split_ifs at hrun
    · simp at hrun
    · obtain rfl := pure_eq_ok.1 hrun
      refine ⟨hscoped, h.draft.addGlobal name definition, ?_, h.placed⟩
      refine (h.addresses.mono (o.module.keeps_addGlobal name definition)).insert
        (.inr ⟨⟨o.module.globals.size⟩, _, ?_, Array.getElem?_push_size⟩)
      exact Module.kind?_eq_some.2 ⟨_, Array.getElem?_push_size, rfl⟩
  | sourceFilename name =>
    cases name with
    | none => simp at hrun
    | some name =>
      obtain rfl := pure_eq_ok.1 hrun
      exact hdescribe _ _ _ hscoped
  | tokens first rest =>
    obtain rfl := pure_eq_ok.1 hrun
    exact h

/-- The tokens of a line that is left for the other sweeps. -/
def TokenLine.Valid (line : TokenLine) : Prop := ∀ t ∈ line.first :: line.rest, t.Valid

lemma LineKind.ofTokens_eq_tokens {ts rest : List Token} {first : Token}
    (h : ofTokens ts = .tokens first rest) : ts = first :: rest := by
  unfold ofTokens at h
  split at h
  · cases h
  · split at h <;> cases h
  · obtain ⟨rfl, rfl⟩ := LineKind.tokens.inj h
    rfl

/-- A line is one of the token lines if its tokens say so. -/
lemma LineKind.of_eq_tokens {line : String} {first : Token} {rest : List Token}
    (h : LineKind.of line = .ok (.tokens first rest)) : tokenize line = .ok (first :: rest) := by
  simp only [LineKind.of] at h
  split at h
  · cases h
  · split_ifs at h
    · cases h
    · cases h
    · split at h
      · obtain ⟨_, -, heq⟩ := map_eq_ok_iff.1 h
        cases heq
      · obtain ⟨ts, hts, heq⟩ := map_eq_ok_iff.1 h
        rw [hts, ofTokens_eq_tokens heq]

lemma Outline.add_lines {o o' : Outline} {number : Nat} {line : String}
    (hline : '\n' ∉ line.toList) (h : ∀ l ∈ o.lines, l.Valid) (hrun : o.add number line = .ok o') :
    ∀ l ∈ o'.lines, l.Valid := by
  simp only [Outline.add, bind_eq_ok, mapError_eq_ok] at hrun
  obtain ⟨kind, hkind, hrun⟩ := hrun
  cases kind with
  | tokens first rest =>
    obtain rfl := pure_eq_ok.1 hrun
    exact List.forall_mem_cons.2 ⟨valid_of_tokenize hline (LineKind.of_eq_tokens hkind), h⟩
  | globalDef name definition =>
    dsimp only at hrun
    split_ifs at hrun
    · simp at hrun
    · exact pure_eq_ok.1 hrun ▸ h
  | sourceFilename name =>
    cases name with
    | none => simp at hrun
    | some name => exact pure_eq_ok.1 hrun ▸ h
  | _ => exact pure_eq_ok.1 hrun ▸ h

/-- The globals are added, and all tokens that are left for the other sweeps are valid. -/
lemma Outline.ofText_sketch {text : String} {o : Outline} (hrun : Outline.ofText text = .ok o) :
    Sketch o.module o.symbols ∧ ∀ line ∈ o.lines, line.Valid := by
  simp only [Outline.ofText, bind_eq_ok, pure_eq_ok] at hrun
  obtain ⟨o₁, hlines, rfl⟩ := hrun
  have h : Sketch o₁.module o₁.symbols ∧ ∀ line ∈ o₁.lines, line.Valid := by
    refine foldlM_keeps_mem (P := fun o : Outline => Sketch o.module o.symbols ∧
      ∀ line ∈ o.lines, line.Valid) ?_ ⟨sketch_empty, by simp⟩ hlines
    rintro o ⟨number, line⟩ hmem o' ⟨h, hvalid⟩ hadd
    obtain ⟨⟨cs, k⟩, hcs, heq⟩ := List.mem_map.1 hmem
    obtain ⟨-, rfl⟩ := Prod.mk.inj heq
    refine ⟨add_sketch h hadd, add_lines ?_ hvalid hadd⟩
    rw [String.toList_ofList]
    exact not_mem_of_mem_splitLines (List.fst_mem_of_mem_zipIdx hcs)
  exact ⟨h.1, fun line hline => h.2 line (List.mem_reverse.1 hline)⟩

/-! ## Functions -/

/-- What holds of the functions that have been added so far. -/
structure Headers.Sound (s : Headers) : Prop where
  sketch : Sketch s.module s.symbols
  pending : Pending s.module s.definitions

/-- The definitions that wait do so when a function is added. -/
lemma Definition.Fits.addHeader {d : Definition} (hd : d.Fits m) {h : Header} {f : FuncId}
    (hrun : addHeader m h = .ok (m', f)) : d.Fits m' ∧ d.func ≠ f := by
  obtain ⟨func, hfunc, hlayout, hlength, hnames⟩ := hd.func
  obtain ⟨rfl, rfl⟩ := addHeader_eq_ok hrun
  have hlt := (Array.getElem?_eq_some_iff.1 hfunc).1
  refine ⟨⟨⟨func, ?_, hlayout, hlength, fun k v name hv hname => ?_⟩, hd.quotable⟩, ?_⟩
  · rw [Module.func?, Array.getElem?_push_lt hlt]
    exact congrArg some (Array.getElem?_eq_some_iff.1 hfunc).2
  · obtain ⟨value, hvalue, heq⟩ := hnames k v name hv hname
    refine ⟨value, ?_, heq⟩
    rw [Module.value?, Array.getElem?_append_left (Array.getElem?_eq_some_iff.1 hvalue).1]
    exact hvalue
  · intro heq
    rw [heq] at hlt
    exact Nat.lt_irrefl _ hlt

/-- A function that is added has no body yet. -/
lemma fits_addHeader {h : Header} (hh : h.Valid) {f : FuncId} (hrun : addHeader m h = .ok (m', f))
    (number : Nat) : Definition.Fits m' ⟨f, number, h.params.map Param.name⟩ := by
  obtain ⟨hfunc, -, hparams⟩ := func?_addHeader hrun
  refine ⟨⟨_, hfunc, rfl, by simp [Header.func], fun k v name hv hname => ?_⟩,
    fun name hname s hs => ?_⟩
  · obtain ⟨rfl, hlt⟩ := Header.getElem?_params hv
    have hp : h.params[k]? = some h.params[k] := List.getElem?_eq_getElem hlt
    refine ⟨_, hparams k _ hp, ?_⟩
    rw [List.getElem?_map, hp, Option.map_some, Option.some.injEq] at hname
    rw [← hname]
  · obtain ⟨p, hp, rfl⟩ := List.mem_map.1 hname
    exact (hh.params p hp).name s hs

lemma Headers.add_sound {s s' : Headers} {line : TokenLine} (h : s.Sound) (hline : line.Valid)
    (hrun : s.add line = .ok s') : s'.Sound := by
  have hwell := add_scoped h.sketch.wellFormed hrun
  rw [Headers.add] at hrun
  cases hdef : line.isDefinition? with
  | none =>
    simp only [hdef, pure_eq_ok] at hrun
    exact hrun ▸ h
  | some definition =>
    simp only [hdef, bind_eq_ok] at hrun
    obtain ⟨header, hheader, hrun⟩ := hrun
    by_cases hknown : s.symbols.contains header.name = true
    · simp [hknown] at hrun
    rw [if_neg hknown] at hrun
    simp only [bind_eq_ok, liftM_eq_ok, pure_eq_ok, Module.getFunc_eq_ok] at hrun
    obtain ⟨⟨m, f⟩, hadd, func, hfunc, rfl⟩ := hrun
    have hvalid := Header.read_valid (List.forall_mem_cons.1 hline).2 (mapError_eq_ok.1 hheader)
    have hk := keeps_addHeader hadd
    obtain ⟨hfunc', haddress, -⟩ := func?_addHeader hadd
    obtain rfl := Option.some.inj (hfunc'.symm.trans hfunc)
    have hplaced : ∀ c block, m.block? c = some block → c ∈ m.placedBlocks := by
      obtain ⟨-, rfl⟩ := addHeader_eq_ok hadd
      intro c block hc
      have := h.sketch.placed c block hc
      simp only [Module.placedBlocks, Array.toList_push, List.flatMap_append,
        List.mem_append] at this ⊢
      exact .inl this
    have hwaiting : ∀ d ∈ s.definitions, d.Fits m ∧ d.func ≠ f := fun d hd =>
      (h.pending.fits d hd).addHeader hadd
    refine ⟨⟨hwell, draft_addHeader h.sketch.draft hvalid hadd, ?_, hplaced⟩, ?_⟩
    · exact (h.sketch.addresses.mono hk).insert
        (.inl ⟨f, _, Module.kind?_eq_some.2 ⟨_, haddress, rfl⟩, hfunc'⟩)
    · cases definition with
      | false => exact ⟨fun d hd => (hwaiting d hd).1, h.pending.once⟩
      | true =>
        refine ⟨List.forall_mem_cons.2
          ⟨fits_addHeader hvalid hadd _, fun d hd => (hwaiting d hd).1⟩, ?_⟩
        rw [if_pos rfl, List.map_cons, List.nodup_cons]
        refine ⟨fun hmem => ?_, h.pending.once⟩
        obtain ⟨d, hd, heq⟩ := List.mem_map.1 hmem
        exact (hwaiting d hd).2 heq

/-- The functions are added; none of the definitions has a body yet. -/
lemma Outline.headers_sound {o : Outline} {s : Headers} (h : Sketch o.module o.symbols)
    (hlines : ∀ line ∈ o.lines, line.Valid) (hrun : o.headers = .ok s) : s.Sound := by
  simp only [Outline.headers, bind_eq_ok, pure_eq_ok] at hrun
  obtain ⟨s₁, hfold, rfl⟩ := hrun
  have h₁ : s₁.Sound := foldlM_keeps_mem (P := Headers.Sound)
    (fun s line hmem s' hs hadd => Headers.add_sound hs (hlines line hmem) hadd)
    ⟨h, by simp, by simp⟩ hfold
  refine ⟨h₁.sketch, fun d hd => h₁.pending.fits d (List.mem_reverse.1 hd), ?_⟩
  rw [List.map_reverse, List.nodup_reverse]
  exact h₁.pending.once

end Text
end SsaFold
