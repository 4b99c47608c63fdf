import SsaFold.Proofs.Text.Headers

/-!
# The sweep over the bodies

A body begins with names for the parameters (`Body.Draft.start`), each line of it keeps the
invariant of bodies and changes nothing outside its function (`Body.line_stays`), and at its end all
blocks have their places, so the invariant between functions holds again.
-/

namespace SsaFold.Text

variable {m m' : Module} {symbols : Symbols}

namespace Body

variable {b b' : Body}

/-! ## Parameters -/

/-- A parameter takes a name that is not taken, and then the others are read. -/
lemma nameParams_cons_eq_ok {k : Nat} {name : Option String} {rest : List (Option String)}
    {u : Unit} :
    nameParams k (name :: rest) b = .ok (u, b') ↔
      ∃ key b₁ func v, takeKey name b = .ok (key, b₁) ∧ b₁.values[key]? = none ∧
        b₁.module.func? b₁.func = some func ∧ func.params[k]? = some v ∧
          nameParams (k + 1) rest { b₁ with values := b₁.values.insert key v } = .ok (u, b') := by
  simp only [nameParams, StateT.bind_eq_ok, StateT.get_eq_ok]
  constructor
  · rintro ⟨key, b₁, hkey, _, _, ⟨rfl, rfl⟩, hrun⟩
    split_ifs at hrun with hknown
    · simp at hrun
    simp only [StateT.bind_eq_ok, StateT.liftM_eq_ok, Module.getFunc_eq_ok] at hrun
    obtain ⟨func, _, ⟨hfunc, rfl⟩, hrun⟩ := hrun
    cases hparam : func.params[k]? with
    | none => simp [hparam] at hrun
    | some v =>
      simp only [hparam, StateT.bind_eq_ok, StateT.modify_eq_ok] at hrun
      obtain ⟨_, _, rfl, hrest⟩ := hrun
      exact ⟨key, b₁, func, v, hkey, Std.TreeMap.getElem?_eq_none (by simpa using hknown), hfunc,
        hparam, hrest⟩
  · rintro ⟨key, b₁, func, v, hkey, hunknown, hfunc, hparam, hrest⟩
    refine ⟨key, b₁, hkey, b₁, b₁, ⟨rfl, rfl⟩, ?_⟩
    have hknown : ¬ b₁.values.contains key = true := by
      rw [Std.TreeMap.contains_eq_isSome_getElem?, hunknown]
      simp
    rw [if_neg hknown]
    simp only [StateT.bind_eq_ok, StateT.liftM_eq_ok, Module.getFunc_eq_ok]
    refine ⟨func, b₁, ⟨hfunc, rfl⟩, ?_⟩
    simp only [hparam, StateT.bind_eq_ok, StateT.modify_eq_ok]
    exact ⟨⟨⟩, _, rfl, hrest⟩

/-- Each parameter is bound to its name, or to a number, and nothing else is. -/
lemma nameParams_eq_ok {k : Nat} {names : List (Option String)} {func : Func} {u : Unit}
    (hrun : nameParams k names b = .ok (u, b')) (hfunc : b.module.func? b.func = some func) :
    ∃ n values, b' = { b with nextSlot := n, values } ∧
      (∀ (key : String) v, b.values[key]? = some v → values[key]? = some v) ∧
      (∀ (key : String) v, values[key]? = some v → b.values[key]? = some v ∨
        ∃ j name, names[j]? = some name ∧ func.params[k + j]? = some v ∧
          keptName key = name.bind keptName) ∧
      ∀ (j : Nat) (name : String), names[j]? = some (some name) →
        ∃ v, func.params[k + j]? = some v ∧ values[name]? = some v := by
  induction names generalizing b k with
  | nil =>
    obtain ⟨-, rfl⟩ := StateT.pure_eq_ok.1 hrun
    exact ⟨b.nextSlot, b.values, rfl, fun _ _ => id, fun _ _ => .inl, by simp⟩
  | cons name rest ih =>
    obtain ⟨key, b₁, func', v, hkey, hunknown, hfunc', hparam, hrest⟩ :=
      nameParams_cons_eq_ok.1 hrun
    obtain ⟨hkeyname, rfl⟩ := takeKey_eq_ok hkey
    obtain rfl := Option.some.inj (hfunc.symm.trans hfunc')
    obtain ⟨n, values, rfl, hkept, hnew, hbound⟩ := ih hrest hfunc
    have hself : values[key]? = some v := hkept key v Std.TreeMap.getElem?_insert_self
    have hkeptKey : keptName key = name.bind keptName := by
      cases name with
      | some s => rw [hkeyname]; rfl
      | none => rw [hkeyname]; exact keptName_toString _
    refine ⟨n, values, rfl, fun key' w hw => hkept key' w (getElem?_insert_of_none hunknown hw),
      fun key' w hw => ?_, fun j name' hname' => ?_⟩
    · rcases hnew key' w hw with hw | ⟨j, name', hname', hw, heq⟩
      · rw [getElem?_insert] at hw
        split_ifs at hw with hsame
        · obtain rfl := Option.some.inj hw
          exact .inr ⟨0, name, rfl, hparam, hsame ▸ hkeptKey⟩
        · exact .inl hw
      · exact .inr ⟨j + 1, name', hname', by rwa [show k + (j + 1) = k + 1 + j by omega], heq⟩
    · cases j with
      | zero =>
        obtain rfl := Option.some.inj hname'
        obtain rfl : key = name' := hkeyname
        exact ⟨v, hparam, hself⟩
      | succ j =>
        rw [show k + (j + 1) = k + 1 + j by omega]
        exact hbound j name' hname'

/-- A body in which the parameters have names. -/
lemma Draft.start {d : Definition} (h : Sketch m symbols) (hd : d.Fits m)
    (hrun : start m symbols d.func d.params = .ok b) :
    b.Draft ∧ b.module = m ∧ b.symbols = symbols ∧ b.func = d.func := by
  obtain ⟨hgrows, hsymbols⟩ := start_grows h.wellFormed hrun
  have hwell := h.wellFormed.grows hgrows
  simp only [Body.start, bind_eq_ok, pure_eq_ok] at hrun
  obtain ⟨⟨u, _⟩, hparams, rfl⟩ := hrun
  obtain ⟨func, hfunc, -, -, hnames⟩ := hd.func
  obtain ⟨n, values, rfl, -, hvalues, -⟩ := nameParams_eq_ok hparams hfunc
  have hbound : ∀ (key : String) v, values[key]? = some v →
      Bound m d.func key v ∧ m.Visible d.func v := by
    intro key v hv
    rcases hvalues key v hv with hv | ⟨j, name, hname, hparam, hkey⟩
    · simp at hv
    · rw [Nat.zero_add] at hparam
      obtain ⟨value, hvalue, hkind, hty⟩ := (h.draft.funcs d.func func hfunc).params j v hparam
      obtain ⟨value', hvalue', hnamed⟩ := hnames j v name hparam hname
      obtain rfl := Option.some.inj (hvalue.symm.trans hvalue')
      have hvisible : m.Visible d.func v := ⟨value, hvalue, hty, hkind ▸ ⟨rfl, func, hfunc, hparam⟩⟩
      refine ⟨⟨⟨_, Module.kind?_eq_some.2 ⟨value, hvalue, hkind⟩, id⟩, .inl ⟨hvisible, ?_⟩⟩,
        hvisible⟩
      intro value' hvalue'
      obtain rfl := Option.some.inj (hvalue.symm.trans hvalue')
      rw [hnamed, hkey]
  exact ⟨⟨hwell, h.draft, h.addresses, fun key v hv => (hbound key v hv).1,
    fun key key' v hv hv' hkind => absurd hkind (hbound key v hv).2.not_placeholder, by
      simp, by simp,
    fun c block hc => .inl (h.placed c block hc), by simp, ⟨func, hfunc⟩⟩, rfl, rfl, rfl⟩

/-! ## Lines -/

/-- A step that keeps to the function of the body: reads are renamed by `s`. -/
structure Stays (s : ValueId → ValueId) (b b' : Body) : Prop where
  func : b'.func = b.func
  symbols : b'.symbols = b.symbols
  module : b.module.Extends b.func s b'.module

lemma Stays.refl (b : Body) : Stays id b b := ⟨rfl, rfl, .refl _ _⟩

lemma Stays.trans {b'' : Body} {s t : ValueId → ValueId} (h : Stays s b b') (h' : Stays t b' b'') :
    Stays (t ∘ s) b b'' :=
  ⟨h'.func.trans h.func, h'.symbols.trans h.symbols, h.module.trans (h.func ▸ h'.module)⟩

lemma Widens.stays (h : b.Widens b') : Stays id b b' := ⟨h.func, h.symbols, h.module⟩

lemma Begins.stays {label : String} {c : BlockId} (hbegins : Begins label c b b') (h : b.Draft) :
    Stays id b b' := by
  obtain ⟨n, b₁, m, hlookups, hc, hplace, rfl⟩ := hbegins.looked
  obtain ⟨block, hblock, hfunc, -⟩ := ((h.setNextSlot n).lookups hlookups).blocks label c hc
  have hw := hlookups.widens
  refine ⟨hw.func, hw.symbols, ?_⟩
  have hplaced := Module.Extends.placeBlock hplace (Module.owner?_eq_some.2 ⟨block, hblock, hfunc⟩)
  have hlooked : b.module.Extends b.func id b₁.module := hw.module
  exact hlooked.trans (hw.func ▸ hplaced)

lemma instruction_stays (h : b.Draft) {ts : List Token} (hts : ∀ t ∈ ts, t.Valid) {u : Unit}
    (hrun : instruction ts b = .ok (u, b')) : ∃ s, Stays s b b' := by
  obtain ⟨name, op, s, hparses, c, b₁, b₂, vs, cs, m, i, inst, b₄, hopen, hlookups, -, -,
    happend, hwell, hinst, hbinds, rfl⟩ := instruction_eq_ok hts hrun
  obtain ⟨h₁, hc⟩ := h.openBlock hopen
  have hw := hlookups.widens
  have hopened : Stays id b b₁ := by
    rcases openBlock_eq_ok hopen with ⟨-, rfl⟩ | ⟨-, hbegins⟩
    · exact .refl _
    · exact hbegins.stays h
  have hc₂ : b₂.module.owner? c = some b₂.func := hw.func ▸ hw.module.keeps.owner? hc
  have happended : Stays id b₂ { b₂ with module := m } := ⟨rfl, rfl, .appendInst happend hc₂⟩
  have h₃ := (hopened.trans hw.stays).trans happended
  obtain ⟨-, -, -, hnew, value, hvalue, hkind, -⟩ := Module.inst?_appendInst happend hinst
  cases name with
  | none =>
    simp only [Binds] at hbinds
    split_ifs at hbinds
    · subst hbinds
      exact ⟨_, h₃.func, h₃.symbols, h₃.module⟩
    · obtain ⟨n, rfl⟩ := numberResult_eq_ok hbinds
      exact ⟨_, h₃.func, h₃.symbols, h₃.module⟩
  | some name =>
    obtain ⟨m₁, m₂, n, hresolves, hset, rfl⟩ := nameResult_eq_ok hbinds
    have hne : m.kind? inst.result ≠ some .placeholder := by
      simp [Module.kind?_eq_some.2 ⟨value, hvalue, hkind⟩]
    obtain ⟨-, hextends⟩ := hresolves.bare (hwell h.wellFormed) hne
    -- The result is new to the whole line, so a name may be given to it.
    have hfresh : b.module.value? inst.result = none := by
      by_contra hold
      obtain ⟨value₀, hvalue₀⟩ := Option.ne_none_iff_exists'.1 hold
      obtain ⟨value₂, hvalue₂, -⟩ := (hopened.trans hw.stays).module.value hvalue₀
      rw [hnew] at hvalue₂
      cases hvalue₂
    have hresolved : Stays _ _ { b₂ with module := m₁ } := h₃.trans ⟨rfl, rfl, hextends⟩
    exact ⟨_, h₃.func, h₃.symbols, hresolved.module.setValueName hfresh hset⟩

/-- A line changes nothing outside the function of the body. -/
lemma line_stays (h : b.Draft) {ts : List Token} (hts : ∀ t ∈ ts, t.Valid) {u : Unit}
    (hrun : line ts b = .ok (u, b')) : ∃ s, Stays s b b' := by
  unfold Body.line at hrun
  split at hrun
  · obtain ⟨c, hbegins⟩ := beginBlock_eq_ok hrun
    exact ⟨id, hbegins.stays h⟩
  · simp at hrun
  · exact instruction_stays h hts hrun

/-! ## The end -/

/-- Nothing is missing at the end of the body. -/
structure Closed (b : Body) : Prop where
  placed : ∀ (label : String) c, b.blocks[label]? = some c → b.isPlaced c = true
  defined : ∀ (name : String) v, b.values[name]? = some v → b.module.kind? v ≠ some .placeholder

lemma closed_of_endError? (h : b.endError? = none) : b.Closed := by
  rw [endError?] at h
  split_ifs at h
  simp only [Option.or_eq_none_iff, Option.map_eq_none_iff, undefinedLabel?, undefinedValue?,
    List.find?_eq_none] at h
  obtain ⟨hlabels, hvalues⟩ := h
  refine ⟨fun label c hc => ?_, fun name v hv hkind => ?_⟩
  · have := hlabels (label, c) (Std.TreeMap.mem_toList_iff_getElem?_eq_some.2 hc)
    simpa using this
  · have := hvalues (name, v) (Std.TreeMap.mem_toList_iff_getElem?_eq_some.2 hv)
    obtain ⟨value, hvalue, heq⟩ := Module.kind?_eq_some.1 hkind
    simp [hvalue, heq] at this

/-- A body may end behind a terminator if nothing is missing. -/
lemma Closed.endError?_eq_none (h : b.Closed) {func : Func}
    (hfunc : b.module.func? b.func = some func) (hdefined : func.isDeclaration = false)
    (hterminated : b.terminated = true) : b.endError? = none := by
  have hlabels : b.undefinedLabel? = none := by
    rw [undefinedLabel?, Option.map_eq_none_iff, List.find?_eq_none]
    rintro ⟨label, c⟩ hmem
    simp [h.placed label c (Std.TreeMap.mem_toList_iff_getElem?_eq_some.1 hmem)]
  have hvalues : b.undefinedValue? = none := by
    rw [undefinedValue?, Option.map_eq_none_iff, List.find?_eq_none]
    rintro ⟨name, v⟩ hmem hplaceholder
    obtain ⟨value, hvalue, hkind⟩ := (Option.any_eq_true _ _).1 hplaceholder
    exact h.defined name v (Std.TreeMap.mem_toList_iff_getElem?_eq_some.1 hmem)
      (Module.kind?_eq_some.2 ⟨value, hvalue, of_decide_eq_true hkind⟩)
  simp [endError?, hfunc, hdefined, hterminated, hlabels, hvalues]

/-- At its end a body leaves a module in which all blocks have their places. -/
lemma Draft.sketch (h : b.Draft) (hclosed : b.Closed) : Sketch b.module b.symbols := by
  refine ⟨h.wellFormed, h.module, h.addresses, fun c block hc => ?_⟩
  rcases h.known c block hc with hplaced | ⟨label, hlabel⟩
  · exact hplaced
  · have := hclosed.placed label c hlabel
    rw [isPlaced, Option.any_eq_true] at this
    obtain ⟨func, hfunc, hmem⟩ := this
    exact Module.mem_placedBlocks.2 ⟨b.func, func, hfunc, of_decide_eq_true hmem⟩

end Body

/-! ## The sweep -/

/-- The invariant of the sweep over the bodies. -/
def Position.Sound (symbols : Symbols) (ds : List Definition) : Position → Prop
  | outside m => Sketch m symbols ∧ Pending m ds
  | inside b => b.Draft ∧ b.symbols = symbols ∧ Pending b.module ds ∧
      ∀ d ∈ ds, d.func ≠ b.func

/-- While a body is read, the other definitions wait. -/
lemma Pending.stays {b b' : Body} {s : ValueId → ValueId} {ds : List Definition}
    (h : Pending b.module ds) (hother : ∀ d ∈ ds, d.func ≠ b.func) (hstays : Body.Stays s b b') :
    Pending b'.module ds :=
  ⟨fun d hd => (h.fits d hd).extends hstays.module (hother d hd), h.once⟩

lemma readLine_sound {p p' : Position} {ds ds' : List Definition} {line : TokenLine}
    (h : p.Sound symbols ds) (hline : line.Valid)
    (hrun : readLine symbols (p, ds) line = .ok (p', ds')) : p'.Sound symbols ds' := by
  cases p with
  | outside m =>
    obtain ⟨hm, hpending⟩ := h
    simp only [readLine] at hrun
    split at hrun
    · rename_i d rest _
      simp only [bind_eq_ok, mapError_eq_ok, pure_eq_ok, Prod.mk.injEq] at hrun
      obtain ⟨b, hstart, rfl, rfl⟩ := hrun
      obtain ⟨hd, hrest⟩ := List.forall_mem_cons.1 hpending.fits
      obtain ⟨hnew, honce⟩ := List.nodup_cons.1 (List.map_cons ▸ hpending.once)
      obtain ⟨hb, rfl, hsymbols, hfunc⟩ := Body.Draft.start hm hd hstart
      refine ⟨hb, hsymbols, ⟨hrest, honce⟩, fun d' hd' heq => hnew ?_⟩
      exact List.mem_map.2 ⟨d', hd', heq.trans hfunc⟩
    · simp at hrun
    · obtain ⟨rfl, rfl⟩ := Prod.mk.inj (pure_eq_ok.1 hrun)
      exact ⟨hm, hpending⟩
    · simp at hrun
  | inside b =>
    obtain ⟨hb, rfl, hpending, hother⟩ := h
    simp only [readLine] at hrun
    split_ifs at hrun
    · split at hrun
      · simp at hrun
      · rename_i hend
        obtain ⟨rfl, rfl⟩ := Prod.mk.inj (pure_eq_ok.1 hrun)
        exact ⟨hb.sketch (Body.closed_of_endError? hend), hpending⟩
    · simp only [bind_eq_ok, mapError_eq_ok, pure_eq_ok, Prod.mk.injEq] at hrun
      obtain ⟨⟨u, b'⟩, hrun, rfl, rfl⟩ := hrun
      obtain ⟨s, hstays⟩ := Body.line_stays hb hline hrun
      exact ⟨hb.line hline hrun, hstays.symbols, hpending.stays hother hstays,
        fun d hd => hstays.func ▸ hother d hd⟩

/-- So do lines that are read one after the other. -/
lemma readLines_sound {lines : List TokenLine} {p p' : Position} {ds ds' : List Definition}
    (h : p.Sound symbols ds) (hlines : ∀ line ∈ lines, line.Valid)
    (hrun : lines.foldlM (readLine symbols) (p, ds) = .ok (p', ds')) : p'.Sound symbols ds' :=
  foldlM_keeps_mem (P := fun s : Position × List Definition => s.1.Sound symbols s.2)
    (fun _ line hline _ hs hread => readLine_sound hs (hlines line hline) hread)
    (s := (p, ds)) (t := (p', ds')) h hrun

lemma Headers.Sound.outside {s : Headers} (h : s.Sound) :
    (Position.outside s.module).Sound s.symbols s.definitions := ⟨h.sketch, h.pending⟩

lemma readBodies_sketch {s : Headers} {lines : List TokenLine} (h : s.Sound)
    (hlines : ∀ line ∈ lines, line.Valid) (hrun : readBodies s lines = .ok m) :
    Sketch m s.symbols := by
  simp only [readBodies, bind_eq_ok] at hrun
  obtain ⟨⟨position, rest⟩, hfold, hrun⟩ := hrun
  have hposition := readLines_sound h.outside hlines hfold
  cases position with
  | outside m₁ =>
    obtain rfl := pure_eq_ok.1 hrun
    exact hposition.1
  | inside b => simp at hrun

end SsaFold.Text
