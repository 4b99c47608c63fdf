import SsaFold.Proofs.Text.OneBody

/-!
# The counter

Parameters, blocks and results without a name are numbered by one counter, and names can move it.
`Body.Counts` says what a name does to it, as its characters have it: a name of digits denotes a
number, and the counter goes on behind it, unless the number does not fit in 64 bits.  The last
number that fits is refused, and no other (`Body.takeKey_eq_error`).  A plus sign in front of the
digits makes no difference, although the name is then kept as a name.  Any other name leaves the
counter where it is.

The counter moves at three places: at the parameters (`Body.counts_of_start`), at labels
(`Body.counts_of_label`) and at results (`Body.counts_of_result`).  If a text is read, then all its
names have passed them (`counts_of_ofText`).
-/

namespace SsaFold.Text

variable {n : String} {k : Nat} {cs : List Char}

/-! ## Names as numbers -/

lemma natBelow?_of_digits {bound : Nat} (h : digits? cs = some k) :
    natBelow? bound cs = if k < bound then some k else none := by
  simp only [natBelow?, h, Option.filter_some, decide_eq_true_eq]

lemma natBelow?_eq_none {bound : Nat} (h : digits? cs = none) : natBelow? bound cs = none := by
  rw [natBelow?, h, Option.filter_none]

lemma slot?_of_digits (h : digits? n.toList = some k) :
    slot? n = if k < slotBound then some k else none := by
  have hdigits : ∀ c ∈ n.toList, c.isDigit = true := by
    rw [digits?] at h
    split_ifs at h with hall
    simpa using hall.2
  rw [slot?, unsignedBelow?_of_digits hdigits, natBelow?_of_digits h]

lemma slot?_of_plus (hn : n.toList = '+' :: cs) : slot? n = natBelow? slotBound cs := by
  rw [slot?, hn, unsignedBelow?]

lemma slot?_eq_none (h : digits? n.toList = none)
    (hplus : ∀ cs, n.toList = '+' :: cs → digits? cs = none) :
    slot? n = none := by
  rw [slot?]
  unfold unsignedBelow?
  split
  · rename_i cs hn
    exact natBelow?_eq_none (hplus cs hn)
  · exact natBelow?_eq_none h

lemma slot?_lt (h : slot? n = some k) : k < slotBound := by
  have hbelow : ∀ {cs}, natBelow? slotBound cs = some k → k < slotBound := fun hk => by
    simpa using (Option.filter_eq_some_iff.1 hk).2
  rw [slot?] at h
  unfold unsignedBelow? at h
  split at h <;> exact hbelow h

namespace Body

variable {b b' : Body} {u : Unit}

/-- A name with the number `k` has taken the counter from `slot` to `slot'`. -/
def SetBehind (k slot slot' : Nat) : Prop :=
  k + 1 ≠ slotBound ∧ slot' = if k < slotBound then k + 1 else slot

/-- A name has taken the counter from `slot` to `slot'`. -/
structure Counts (n : String) (slot slot' : Nat) : Prop where
  digits : ∀ k, digits? n.toList = some k → SetBehind k slot slot'
  plus : ∀ cs k, n.toList = '+' :: cs → digits? cs = some k → SetBehind k slot slot'
  other : digits? n.toList = none → (∀ cs, n.toList = '+' :: cs → digits? cs = none) → slot' = slot

/-- Names are taken as their characters have it. -/
lemma counts_of_takeKey {name : Option String} {key : String}
    (hrun : takeKey name b = .ok (key, b')) : Counts key b.nextSlot b'.nextSlot := by
  have hroom : ∀ k, slot? key = some k → k + 1 < slotBound := fun k hk => slot_lt_of_takeKey hrun hk
  obtain ⟨-, rfl⟩ := takeKey_eq_ok hrun
  have hbehind : ∀ k, slot? key = (if k < slotBound then some k else none) →
      SetBehind k b.nextSlot (slotAfter key b.nextSlot) := by
    intro k hk
    rw [SetBehind, slotAfter, hk]
    split_ifs at hk ⊢ with hlt
    · exact ⟨(hroom k hk).ne, rfl⟩
    · exact ⟨by omega, rfl⟩
  refine ⟨fun k hk => hbehind k (slot?_of_digits hk), fun cs k hn hk => hbehind k ?_,
    fun h hplus => ?_⟩
  · rw [slot?_of_plus hn, natBelow?_of_digits hk]
  · rw [slotAfter, slot?_eq_none h hplus]
    rfl

/-- A name is refused exactly if it denotes the last number that fits in 64 bits. -/
theorem takeKey_eq_error {name : Option String} {e : Failure BodyError} :
    takeKey name b = .error e ↔ slot? (name.getD (toString b.nextSlot)) = some (slotBound - 1) ∧
      e = .error (.scope (.slotOutOfRange (name.getD (toString b.nextSlot)))) := by
  rw [takeKey, StateT.get_bind]
  generalize name.getD (toString b.nextSlot) = key
  cases hslot : slot? key with
  | none =>
    show Except.ok _ = Except.error e ↔ _
    simp
  | some k =>
    have hlt := slot?_lt hslot
    dsimp only
    split_ifs with hroom
    · show Except.ok _ = Except.error e ↔ _
      simp only [reduceCtorEq, Option.some.injEq, false_iff, not_and]
      omega
    · show Except.error _ = Except.error e ↔ _
      obtain rfl : k = slotBound - 1 := by omega
      simp [eq_comm]

/-! ## Labels and results -/

/-- A label counts, and its block is open. -/
lemma counts_of_label (hrun : line [.label n] b = .ok (u, b')) :
    Counts n b.nextSlot b'.nextSlot ∧ ∃ c, b'.IsOpen c := by
  have hbegin : beginBlock n b = .ok (u, b') := hrun
  simp only [beginBlock, StateT.bind_eq_ok, StateT.get_eq_ok] at hbegin
  obtain ⟨key, b₁, hkey, c, b₂, hblock, _, _, ⟨rfl, rfl⟩, hrest⟩ := hbegin
  have hcounts := counts_of_takeKey hkey
  obtain ⟨rfl, -⟩ := takeKey_eq_ok hkey
  rw [← (blockOf_eq_ok hblock).1.widens.nextSlot] at hcounts
  split_ifs at hrest
  · simp at hrest
  · obtain ⟨m, -, rfl⟩ := enter_eq_ok hrest
    exact ⟨hcounts, c, rfl, rfl⟩

lemma line_eq_instruction {ts : List Token} (h : IsInstruction ts) :
    line ts b = instruction ts b := by
  unfold line
  split
  · exact absurd h not_isInstruction_label
  · exact absurd h not_isInstruction_label
  · rfl

/-- The name of a result counts when the block of the instruction has been opened. -/
lemma counts_of_result {ts : List Token} (hts : ∀ t ∈ ts, t.Valid) {op : Opcode} {s : Statement}
    (hparses : Parses ts (some n) op s) (hrun : line ts b = .ok (u, b')) :
    ∃ c b₁, openBlock b = .ok (c, b₁) ∧ Counts n b₁.nextSlot b'.nextSlot := by
  rw [line_eq_instruction hparses.isInstruction] at hrun
  obtain ⟨name, op', s', hparses', c, b₁, i, b₂, inst, b₃, hopen, happend, -, hbinds, rfl⟩ :=
    instruction_stages hrun
  obtain ⟨rfl, rfl, rfl⟩ := hparses.unique hparses'
  refine ⟨c, b₁, hopen, ?_⟩
  obtain ⟨b₄, vs, cs, hlookups, -, -, hemit⟩ :=
    append_eq_ok (hparses.valid hts).2.1.operation happend
  obtain ⟨m, -, rfl⟩ := tryModule_eq_ok.1 hemit
  obtain ⟨m₁, m₂, b₅, -, hkey, -, rfl⟩ := nameResult_stages hbinds
  have hcounts := counts_of_takeKey hkey
  dsimp only at hcounts
  rwa [hlookups.widens.nextSlot] at hcounts

/-! ## Parameters -/

lemma nameParams_append {names rest : List (Option String)}
    (hrun : nameParams k (names ++ rest) b = .ok (u, b')) :
    ∃ b₁, nameParams k names b = .ok ((), b₁) ∧ nameParams (k + names.length) rest b₁
      = .ok (u, b') := by
  induction names generalizing b k with
  | nil => exact ⟨b, rfl, hrun⟩
  | cons name names ih =>
    obtain ⟨key, b₁, func, v, hkey, hunknown, hfunc, hparam, hrest⟩ := nameParams_cons_eq_ok.1 hrun
    obtain ⟨b₂, hnames, hrest⟩ := ih hrest
    refine ⟨b₂,
      nameParams_cons_eq_ok.2 ⟨key, b₁, func, v, hkey, hunknown, hfunc, hparam, hnames⟩, ?_⟩
    rwa [List.length_cons, Nat.add_comm names.length, ← Nat.add_assoc]

/-- A parameter that has a name counts behind the parameters in front of it. -/
lemma counts_of_start {m : Module} {symbols : Symbols} {f : FuncId} {params : List (Option String)}
    (hrun : Body.start m symbols f params = .ok b) (hname : params[k]? = some (some n)) :
    ∃ b₀ b₁, Body.start m symbols f (params.take k) = .ok b₀ ∧
      Body.start m symbols f (params.take (k + 1)) = .ok b₁ ∧ Counts n b₀.nextSlot b₁.nextSlot := by
  simp only [Body.start, bind_eq_ok, pure_eq_ok] at hrun ⊢
  obtain ⟨⟨u, _⟩, hparams, rfl⟩ := hrun
  have hsplit : params = params.take (k + 1) ++ params.drop (k + 1) :=
    (List.take_append_drop _ _).symm
  rw [hsplit] at hparams
  obtain ⟨b₁, hupto, -⟩ := nameParams_append hparams
  have htake : params.take (k + 1) = params.take k ++ [some n] := by
    rw [List.take_add_one, hname, Option.toList_some]
  obtain ⟨b₀, hbefore, hlast⟩ := nameParams_append (htake ▸ hupto)
  refine ⟨b₀, b₁, ⟨_, hbefore, rfl⟩, ⟨_, hupto, rfl⟩, ?_⟩
  obtain ⟨key, b₂, func, v, hkey, -, -, -, hnil⟩ := nameParams_cons_eq_ok.1 hlast
  obtain ⟨-, rfl⟩ := StateT.pure_eq_ok.1 hnil
  have hcounts := counts_of_takeKey hkey
  obtain rfl : key = n := (takeKey_eq_ok hkey).1
  exact hcounts

/-! ## Lines in a body -/

/-- The line is one of the body, and is read at `b₀`. -/
def ReadsAt (b : Body) (tss : List (List Token)) (b₀ : Body) (ts : List Token) : Prop :=
  Somewhere (fun b' ts' => b' = b₀ ∧ ts' = ts) b tss

lemma ReadsAt.line {tss : List (List Token)} {ts : List Token} {b₀ : Body} (h : b.ReadsAt tss b₀ ts)
    (htss : ∀ ts ∈ tss, ∀ t ∈ ts, t.Valid) (hrun : lines tss b = .ok (u, b')) :
    (∀ t ∈ ts, t.Valid) ∧ ∃ b₁, Body.line ts b₀ = .ok ((), b₁) := by
  induction tss generalizing b with
  | nil => cases h
  | cons ts' tss ih =>
    obtain ⟨hts, htss⟩ := List.forall_mem_cons.1 htss
    obtain ⟨b₁, hline, hrest⟩ := lines_cons_eq_ok hrun
    cases h with
    | here h =>
      obtain ⟨rfl, rfl⟩ := h
      exact ⟨hts, b₁, hline⟩
    | later hline' h =>
      obtain ⟨-, rfl⟩ := Prod.mk.inj (Except.ok.inj (hline.symm.trans hline'))
      exact ih h htss hrest

end Body

variable {text : String} {m : Module} {d : Definition} {b : Body} {tss : List (List Token)}

/-- In a text that is read, each name of a parameter, a block or a result has counted as its
characters have it. -/
theorem counts_of_ofText (hread : Module.ofText text = .ok m) (hbody : BodyOf text d b tss) :
    (∀ k n, d.params[k]? = some (some n) → ∃ b₀ b₁,
      Body.start b.module b.symbols d.func (d.params.take k) = .ok b₀ ∧
      Body.start b.module b.symbols d.func (d.params.take (k + 1)) = .ok b₁ ∧
      Body.Counts n b₀.nextSlot b₁.nextSlot) ∧
    (∀ b₀ n, b.ReadsAt tss b₀ [.label n] → ∃ b₁,
      Body.line [.label n] b₀ = .ok ((), b₁) ∧ Body.Counts n b₀.nextSlot b₁.nextSlot) ∧
    ∀ b₀ ts n op s, b.ReadsAt tss b₀ ts → Body.Parses ts (some n) op s → ∃ c b₁ b₂,
      Body.openBlock b₀ = .ok (c, b₁) ∧ Body.line ts b₀ = .ok ((), b₂) ∧
      Body.Counts n b₁.nextSlot b₂.nextSlot := by
  obtain ⟨⟨-, htss⟩, -, b', hrun, -⟩ := hbody.read hread
  refine ⟨fun k n hname => ?_, fun b₀ n hline => ?_, fun b₀ ts n op s hline hparses => ?_⟩
  · obtain ⟨symbols, m₀, ds, ls, last, after, -, hm, hd, hstart, -⟩ := hbody.begins
    obtain ⟨-, rfl, rfl, -⟩ := Body.Draft.start hm hd hstart
    exact Body.counts_of_start hstart hname
  · obtain ⟨-, b₁, hrun⟩ := hline.line htss hrun
    exact ⟨b₁, hrun, (Body.counts_of_label hrun).1⟩
  · obtain ⟨hts, b₂, hrun⟩ := hline.line htss hrun
    obtain ⟨c, b₁, hopen, hcounts⟩ := Body.counts_of_result hts hparses hrun
    exact ⟨c, b₁, b₂, hopen, hrun, hcounts⟩

/-- A text with a number that has a plus sign, and one that does not fit in 64 bits. -/
def farText : String :=
  "define void @f() \x7b\n07:\n  %\"+5\" = add i32 1, 2\n" ++
  "  %18446744073709551616 = add i32 1, 2\n  ret void\n\x7d\n"

/-- The line in which the name is given to a sum. -/
def sumLine (name : String) : List Token :=
  [.localName name, .punct '=', .word "add", .word "i32", .int 1, .punct ',', .int 2]

/-- The lines of the body. -/
def farLines : List (List Token) :=
  [[.label "07"], sumLine "+5", sumLine "18446744073709551616", [.word "ret", .word "void"]]

lemma exists_bodyOf_farText :
    ∃ m d b, Module.ofText farText = .ok m ∧ BodyOf farText d b farLines :=
  exists_bodyOf_of_lines [.word "void", .globalName "f", .punct '(', .punct ')', .punct '\x7b']
    (by decide +kernel) (by decide +kernel) (by decide)

/-- The label sets the counter behind `7`, the first sum behind `5`, and the second one leaves
it. -/
theorem counts_of_ofText_farText : ∃ m d b b₁ c₁ b₂ b₃ c₃ b₄ b₅, Module.ofText farText = .ok m ∧
    BodyOf farText d b farLines ∧ Body.line [.label "07"] b = .ok ((), b₁) ∧ b₁.nextSlot = 8 ∧
    Body.openBlock b₁ = .ok (c₁, b₂) ∧ Body.line (sumLine "+5") b₁ = .ok ((), b₃) ∧
    b₃.nextSlot = 6 ∧ Body.openBlock b₃ = .ok (c₃, b₄) ∧
    Body.line (sumLine "18446744073709551616") b₃ = .ok ((), b₅) ∧ b₅.nextSlot = b₄.nextSlot := by
  obtain ⟨m, d, b, hread, hbody⟩ := exists_bodyOf_farText
  obtain ⟨-, hlabels, hresults⟩ := counts_of_ofText hread hbody
  obtain ⟨b₁, hlabel, hseven⟩ := hlabels b "07" (.here ⟨rfl, rfl⟩)
  obtain ⟨c₁, b₂, b₃, hopen, hsum, hfive⟩ := hresults b₁ (sumLine "+5") "+5" _ _
    (.later hlabel (.here ⟨rfl, rfl⟩)) ⟨_, _, rfl, rfl⟩
  obtain ⟨c₃, b₄, b₅, hopen', hsum', hfar⟩ := hresults b₃ (sumLine "18446744073709551616") _ _ _
    (.later hlabel (.later hsum (.here ⟨rfl, rfl⟩))) ⟨_, _, rfl, rfl⟩
  obtain ⟨-, hslot₁⟩ := hseven.digits 7 (by decide)
  obtain ⟨-, hslot₃⟩ := hfive.plus ['5'] 5 (by decide) (by decide)
  obtain ⟨-, hslot₅⟩ := hfar.digits 18446744073709551616 (by decide)
  rw [if_pos (by decide)] at hslot₁ hslot₃
  rw [if_neg (by decide)] at hslot₅
  exact ⟨m, d, b, b₁, c₁, b₂, b₃, c₃, b₄, b₅, hread, hbody, hlabel, hslot₁, hopen, hsum, hslot₃,
    hopen', hsum', hslot₅⟩

/-- So a name of digits can denote a number that does not fit in 64 bits, and a name with another
character can move the counter. -/
theorem not_forall_counts_by_digits :
    (¬ ∀ text m d b tss b₀ ts n op s k, Module.ofText text = .ok m → BodyOf text d b tss →
      Body.ReadsAt b tss b₀ ts → Body.Parses ts (some n) op s → digits? n.toList = some k →
        k + 1 < slotBound) ∧
    ¬ ∀ text m d b tss b₀ ts n op s c b₁ b₂, Module.ofText text = .ok m → BodyOf text d b tss →
      Body.ReadsAt b tss b₀ ts → Body.Parses ts (some n) op s → digits? n.toList = none →
        Body.openBlock b₀ = .ok (c, b₁) → Body.line ts b₀ = .ok ((), b₂) →
          b₂.nextSlot = b₁.nextSlot := by
  obtain ⟨m, d, b, hread, hbody⟩ := exists_bodyOf_farText
  obtain ⟨⟨-, htss⟩, -, b', hrun, -⟩ := hbody.read hread
  obtain ⟨b₁, hlabel, hrun⟩ := Body.lines_cons_eq_ok hrun
  obtain ⟨b₂, hsum, -⟩ := Body.lines_cons_eq_ok hrun
  have hparses : ∀ n, Body.Parses (sumLine n) (some n) _ _ := fun n => ⟨_, _, rfl, rfl⟩
  constructor
  · intro h
    have hlt := h farText m d b farLines b₂ _ _ _ _ 18446744073709551616 hread hbody
      (.later hlabel (.later hsum (.here ⟨rfl, rfl⟩))) (hparses _) (by decide)
    exact absurd hlt (by decide)
  · intro h
    obtain ⟨hseven, c, hopen⟩ := Body.counts_of_label hlabel
    obtain ⟨-, hslot₁⟩ := hseven.digits 7 (by decide)
    obtain ⟨c₁, b₁', hopened, hfive⟩ :=
      Body.counts_of_result (htss _ (by simp [farLines])) (hparses "+5") hsum
    obtain ⟨-, hslot₂⟩ := hfive.plus ['5'] 5 (by decide) (by decide)
    have hsame := h farText m d b farLines b₁ _ _ _ _ c₁ b₁' b₂ hread hbody
      (.later hlabel (.here ⟨rfl, rfl⟩)) (hparses "+5") (by decide) hopened hsum
    -- The block of the label is open, and so the counter stands behind `7` still.
    rcases Body.openBlock_eq_ok hopened with ⟨-, rfl⟩ | ⟨hclosed, -⟩
    · rw [hslot₁, hslot₂, if_pos (by decide), if_pos (by decide)] at hsame
      exact absurd hsame (by decide)
    · exact hclosed c hopen

end SsaFold.Text
