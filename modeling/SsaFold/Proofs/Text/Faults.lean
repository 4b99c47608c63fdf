import SsaFold.Proofs.Text.Bodies

/-!
# When the reader faults

The reader asks for entries that it has added itself, so of the contracts of a module it can break
one only: that a block is placed once.  Parameters, blocks and results are numbered by one counter,
and a result whose name is a number can set the counter back.  An instruction behind a terminator
then begins a block whose number is taken, and does not ask whether this block stands already.

`Body.Clash` is this situation, each function of the reader has a lemma that says that it does not
fault otherwise, and `Module.ofText_eq_fault` says so of the whole reader.
-/

namespace SsaFold.Text

/-! ## Numbers as names -/

/-- A sign counts only if there is one. -/
lemma unsignedBelow?_of_digits {bound : Nat} {cs : List Char} (h : ∀ c ∈ cs, c.isDigit = true) :
    unsignedBelow? bound cs = natBelow? bound cs := by
  unfold unsignedBelow?
  split
  · exact absurd (h '+' List.mem_cons_self) (by decide)
  · rfl

lemma slot?_toString (n : Nat) : slot? (toString n) = if n < slotBound then some n else none := by
  have hdigits : ∀ c ∈ Nat.toDigits 10 n, c.isDigit = true := fun c hc =>
    Nat.isDigit_of_mem_toDigits (by decide) (by decide) hc
  rw [slot?, Nat.toString_eq_repr, Nat.toList_repr, unsignedBelow?_of_digits hdigits, natBelow?,
    digits?_toDigits, Option.filter_some]
  simp only [decide_eq_true_eq]

namespace Body

variable {b b' : Body} {v : ValueId}

/-! ## Steps on the module -/

section Steps

variable {α : Type} {f : Module → Except Fault (Module × α)}

lemma tryModule_of_ok {m : Module} {a : α} (h : f b.module = .ok (m, a)) :
    tryModule f b = .ok (a, { b with module := m }) := tryModule_eq_ok.2 ⟨m, h, rfl⟩

lemma tryModule_of_error {x : Fault} (h : f b.module = .error x) :
    tryModule f b = .error (.fault x) := by
  rw [tryModule]
  refine StateT.bind_eq_fault.2 (.inr ⟨b, b, rfl, StateT.bind_eq_fault.2 (.inl ?_)⟩)
  rw [h]
  rfl

lemma faultless_tryModule {p : Module × α} (h : f b.module = .ok p) :
    Faultless (tryModule f b) := by
  rw [tryModule_of_ok h]
  exact faultless_ok _

end Steps

/-! ## Keys and blocks -/

lemma takeKey_faultless (name : Option String) : Faultless (takeKey name b) := by
  refine StateT.faultless_get_bind ?_
  cases hslot : slot? (name.getD (toString b.nextSlot)) with
  | none => exact faultless_ok _
  | some slot =>
    dsimp only
    split_ifs
    · exact faultless_ok _
    · exact faultless_refusal _

/-- There is a next number unless the counter has come to its end. -/
lemma takeKey_none (h : b.nextSlot + 1 ≠ slotBound) : ∃ n,
    takeKey none b = .ok (toString b.nextSlot, { b with nextSlot := n }) := by
  simp only [takeKey, StateT.bind_eq_ok, StateT.get_eq_ok]
  by_cases hlt : b.nextSlot < slotBound
  · have hnext : b.nextSlot + 1 < slotBound := by omega
    refine ⟨b.nextSlot + 1, b, b, ⟨rfl, rfl⟩, ?_⟩
    simp only [Option.getD_none, slot?_toString, if_pos hlt, if_pos hnext]
    rfl
  · refine ⟨b.nextSlot, b, b, ⟨rfl, rfl⟩, ?_⟩
    simp only [Option.getD_none, slot?_toString, if_neg hlt]
    rfl

lemma nextSlot_of_takeKey_none {key : String} (hrun : takeKey none b = .ok (key, b')) :
    b.nextSlot + 1 ≠ slotBound := by
  intro hlast
  have hlt : b.nextSlot < slotBound := by omega
  have hslot : slot? key = some b.nextSlot := by
    rw [(takeKey_eq_ok hrun).1, Option.getD_none, slot?_toString, if_pos hlt]
  have := slot_lt_of_takeKey hrun hslot
  omega

lemma blockOf_faultless (label : String) : Faultless (blockOf label b) := by
  refine StateT.faultless_get_bind ?_
  cases hblock : b.blocks[label]? with
  | none => exact faultless_ok _
  | some c => exact faultless_ok _

/-- The block of a label is placed unless it stands already. -/
lemma enter_eq_fault {label : String} {c : BlockId} {x : Fault} (h : b.Draft)
    (hc : b.Labels label c) :
    enter c b = .error (.fault x) ↔ x = .alreadyPlaced c ∧ b.isPlaced c = true := by
  obtain ⟨block, hblock, hhome, -⟩ := h.blocks label c hc
  obtain ⟨func, hfunc⟩ := h.home
  have hplace : b.module.placeBlock c = if c ∈ func.layout then .error (.alreadyPlaced c)
      else .ok (b.module.modifyFunc b.func fun f => { f with layout := f.layout.push c }) := by
    rw [Module.placeBlock, Module.getBlock_eq_ok.2 hblock, ok_bind, hhome,
      Module.getFunc_eq_ok.2 hfunc, ok_bind]
    split_ifs <;> rfl
  have hplaced : b.isPlaced c = true ↔ c ∈ func.layout := by simp [isPlaced, hfunc]
  rw [hplaced, enter, StateT.bind_eq_fault]
  split_ifs at hplace with hmem
  · rw [tryModule_of_error (x := .alreadyPlaced c) (by rw [hplace]; rfl)]
    simp [hmem, eq_comm]
  · rw [tryModule_of_ok (a := ()) (by rw [hplace]; rfl)]
    simp only [hmem, and_false, iff_false]
    rintro (hfault | ⟨_, _, -, hfault⟩)
    · exact faultless_ok _ x hfault
    · exact faultless_ok _ x hfault

/-- A label may begin any block: one that stands already is refused. -/
lemma beginBlock_faultless {label : String} (h : b.Draft) : Faultless (beginBlock label b) := by
  refine StateT.faultless_bind (takeKey_faultless _) fun key b₁ hkey => ?_
  obtain ⟨-, rfl⟩ := takeKey_eq_ok hkey
  refine StateT.faultless_bind (blockOf_faultless _) fun c b₂ hblock => ?_
  obtain ⟨hlookups, hlabel⟩ := blockOf_eq_ok hblock
  have h₂ := (h.setNextSlot _).lookups hlookups
  refine StateT.faultless_get_bind ?_
  dsimp only
  split_ifs with hplaced
  · exact faultless_refusal _
  · exact fun x hx => hplaced ((enter_eq_fault h₂ hlabel).1 hx).2

/-- The next instruction begins a block, but the block of the next number stands already. -/
structure Clash (b : Body) (c : BlockId) : Prop where
  closed : ∀ d, ¬ b.IsOpen d
  slot : b.nextSlot + 1 ≠ slotBound
  label : b.Labels (toString b.nextSlot) c
  placed : b.isPlaced c = true

lemma openBlock_of_closed (h : ∀ d, ¬ b.IsOpen d) : openBlock b = (do
    let label ← takeKey none
    let block ← blockOf label
    enter block
    return block : BodyM BlockId) b := by
  rcases b with ⟨_, _, _, _, _, _, current, terminated⟩
  cases current with
  | none => rfl
  | some c =>
    cases terminated with
    | true => rfl
    | false => exact absurd ⟨rfl, rfl⟩ (h c)

lemma openBlock_eq_fault {x : Fault} (h : b.Draft) :
    openBlock b = .error (.fault x) ↔ ∃ c, x = .alreadyPlaced c ∧ b.Clash c := by
  by_cases hopen : ∃ d, b.IsOpen d
  · obtain ⟨d, hd⟩ := hopen
    rw [hd.openBlock]
    refine iff_of_false (faultless_ok _ x) ?_
    rintro ⟨c, -, hclash⟩
    exact hclash.closed d hd
  have hclosed : ∀ d, ¬ b.IsOpen d := fun d hd => hopen ⟨d, hd⟩
  rw [openBlock_of_closed hclosed]
  constructor
  · intro hrun
    rcases StateT.bind_eq_fault.1 hrun with hfault | ⟨key, b₁, hkey, hrun⟩
    · exact absurd hfault (takeKey_faultless none x)
    have hslot := nextSlot_of_takeKey_none hkey
    obtain ⟨rfl, rfl⟩ := takeKey_eq_ok hkey
    rcases StateT.bind_eq_fault.1 hrun with hfault | ⟨c, b₂, hblock, hrun⟩
    · exact absurd hfault (blockOf_faultless _ x)
    obtain ⟨hlookups, hlabel⟩ := blockOf_eq_ok hblock
    have h₂ := (h.setNextSlot _).lookups hlookups
    rcases StateT.bind_eq_fault.1 hrun with hfault | ⟨_, _, -, hpure⟩
    · obtain ⟨rfl, hplaced⟩ := (enter_eq_fault h₂ hlabel).1 hfault
      have hw := hlookups.widens
      have hplaced' : b.isPlaced c = true := by
        rw [isPlaced, Module.func?, hw.functions, hw.func] at hplaced
        exact hplaced
      refine ⟨c, rfl, hclosed, hslot, ?_, hplaced'⟩
      -- A block that is met now for the first time would not stand yet.
      cases hknown : b.blocks[toString b.nextSlot]? with
      | some d => exact hknown.trans ((hw.blocks hknown).symm.trans hlabel)
      | none =>
        obtain ⟨func, hfunc⟩ := h.home
        simp only [isPlaced, hfunc, Option.any_some, decide_eq_true_eq] at hplaced'
        obtain ⟨block, hc, -⟩ :=
          h.wellFormed.module.reachable.intact.shaped.placed b.func func hfunc c hplaced'
        obtain ⟨rfl, -⟩ : (⟨b.module.blocks.size⟩ : BlockId) = c ∧ _ := by
          simp only [blockOf, StateT.bind_eq_ok, StateT.get_eq_ok] at hblock
          obtain ⟨_, _, ⟨rfl, rfl⟩, hblock⟩ := hblock
          simp only [Option.getD_none, hknown, StateT.bind_eq_ok, onModule_eq_ok,
            StateT.modify_eq_ok, StateT.pure_eq_ok] at hblock
          obtain ⟨_, _, ⟨rfl, rfl⟩, _, _, rfl, hc, heq⟩ := hblock
          exact ⟨hc, heq⟩
        simp [Module.block?] at hc
    · exact absurd hpure (faultless_ok _ x)
  · rintro ⟨c, rfl, hclash⟩
    obtain ⟨n, hkey⟩ := takeKey_none hclash.slot
    have hblock : blockOf (toString b.nextSlot) { b with nextSlot := n }
        = .ok (c, { b with nextSlot := n }) := by
      have hlabel : b.blocks[toString b.nextSlot]? = some c := hclash.label
      simp only [blockOf, StateT.bind_eq_ok, StateT.get_eq_ok]
      refine ⟨_, _, ⟨rfl, rfl⟩, ?_⟩
      simp only [hlabel]
      rfl
    have henter := (enter_eq_fault (x := .alreadyPlaced c) (h.setNextSlot n) hclash.label).2
      ⟨rfl, hclash.placed⟩
    refine StateT.bind_eq_fault.2 (.inr ⟨_, _, hkey, ?_⟩)
    refine StateT.bind_eq_fault.2 (.inr ⟨_, _, hblock, ?_⟩)
    exact StateT.bind_eq_fault.2 (.inl henter)

/-! ## Operands -/

lemma readLocal_faultless (h : b.Draft) (ty : Ty) (name : String) :
    Faultless (readLocal ty name b) := by
  refine StateT.faultless_get_bind ?_
  cases hname : b.values[name]? with
  | none => exact faultless_ok _
  | some v =>
    obtain ⟨value, hvalue⟩ := (h.values name v hname).exists_value
    refine StateT.faultless_liftM_bind (Module.getValue_eq_ok.2 hvalue) ?_
    dsimp only
    split_ifs
    · exact faultless_refusal _
    · exact faultless_ok _

lemma constInt_faultless {bits : Nat} (hbits : (Ty.int bits).Readable) (raw : Int) :
    Faultless (tryModule (·.constInt bits raw) b) := by
  obtain ⟨hpos, hle⟩ := hbits
  have hc : IntConst.ofInt? bits raw = some (.ofInt bits raw hpos hle) := dif_pos ⟨hpos, hle⟩
  exact faultless_tryModule (p := b.module.shareValue _) (by rw [Module.constInt, hc])

lemma readOperand_faultless (h : b.Draft) {a : TypedAtom} (ha : a.Valid) :
    Faultless (readOperand a b) := by
  rcases a with ⟨ty, atom⟩
  cases atom with
  | localName name => exact readLocal_faultless h ty name
  | int value =>
    cases ty with
    | int bits => exact constInt_faultless ha.ty value
    | _ => exact faultless_refusal _
  | bool value =>
    rw [readOperand]
    dsimp only
    split_ifs
    all_goals first
      | exact faultless_refusal _
      | exact constInt_faultless ⟨Nat.one_pos, by decide⟩ _
  | null =>
    rw [readOperand]
    dsimp only
    split_ifs
    · exact faultless_refusal _
    · exact faultless_ok _
  | globalName name =>
    refine StateT.faultless_get_bind ?_
    cases b.symbols[name]? with
    | none => exact faultless_refusal _
    | some v =>
      dsimp only
      split_ifs
      · exact faultless_refusal _
      · exact faultless_ok _

/-- Operands that are read one after the other. -/
lemma readOperands_faultless (h : b.Draft) {as : List TypedAtom} (has : ∀ a ∈ as, a.Valid) :
    Faultless (as.mapM readOperand b) := by
  induction as generalizing b with
  | nil => exact faultless_ok _
  | cons a as ih =>
    obtain ⟨ha, has⟩ := List.forall_mem_cons.1 has
    rw [List.mapM_cons]
    refine StateT.faultless_bind (readOperand_faultless h ha) fun v b₁ hread => ?_
    have h₁ := h.lookups (readOperand_eq_ok ha hread).1
    exact StateT.faultless_bind (ih h₁ has) fun _ _ _ => faultless_ok _

lemma readIncoming_faultless (h : b.Draft) {ty : Ty} {incoming : List (Atom × String)}
    (hincoming : ∀ entry ∈ incoming, TypedAtom.Valid ⟨ty, entry.1⟩) :
    Faultless (readIncoming ty incoming b) := by
  induction incoming generalizing b with
  | nil => exact faultless_ok _
  | cons entry rest ih =>
    obtain ⟨hentry, hrest⟩ := List.forall_mem_cons.1 hincoming
    refine StateT.faultless_bind (readOperand_faultless h hentry) fun v b₁ hread => ?_
    have h₁ := h.lookups (readOperand_eq_ok hentry hread).1
    refine StateT.faultless_bind (blockOf_faultless _) fun c b₂ hblock => ?_
    have h₂ := h₁.lookups (blockOf_eq_ok hblock).1
    exact StateT.faultless_bind (ih h₂ hrest) fun _ _ _ => faultless_ok _

/-! ## Instructions -/

/-- The body can take an instruction in block `c`. -/
structure Ready (c : BlockId) (b : Body) : Prop where
  draft : b.Draft
  owner : b.module.owner? c = some b.func

lemma Ready.lookups {c : BlockId} (h : Ready c b) (hsteps : Lookups b b') : Ready c b' :=
  ⟨h.draft.lookups hsteps, hsteps.widens.func ▸ hsteps.widens.module.keeps.owner? h.owner⟩

section Append

variable {c : BlockId} {α : Type}

/-- After an operand the body can still take the instruction. -/
lemma Ready.faultless_read (h : Ready c b) {a : TypedAtom} (ha : a.Valid) {f : ValueId → BodyM α}
    (hf : ∀ v b', readOperand a b = .ok (v, b') → Ready c b' → Faultless (f v b')) :
    Faultless ((readOperand a >>= f) b) :=
  StateT.faultless_bind (readOperand_faultless h.draft ha) fun v b' hread =>
    hf v b' hread (h.lookups (readOperand_eq_ok ha hread).1)

lemma Ready.faultless_blockOf (h : Ready c b) {label : String} {f : BlockId → BodyM α}
    (hf : ∀ d b', blockOf label b = .ok (d, b') → Ready c b' → Faultless (f d b')) :
    Faultless ((blockOf label >>= f) b) :=
  StateT.faultless_bind (blockOf_faultless label) fun d b' hblock =>
    hf d b' hblock (h.lookups (blockOf_eq_ok hblock).1)

lemma Ready.emit (h : Ready c b) (spec : InstSpec) {vs : List ValueId} (tys : List Ty)
    (htys : vs.map b.module.typeOf? = tys.map some) : Faultless (append.emit c spec vs b) := by
  obtain ⟨block, hblock, -⟩ := Module.owner?_eq_some.1 h.owner
  have hvs : ∀ v ∈ vs, ∃ value, b.module.value? v = some value := by
    intro v hv
    obtain ⟨ty, -, hty⟩ := List.mem_map.1 (htys ▸ List.mem_map_of_mem hv)
    obtain ⟨value, hvalue, -⟩ := Module.typeOf?_eq_some.1 hty.symm
    exact ⟨value, hvalue⟩
  obtain ⟨m, i, happend⟩ := Module.appendInst_ok spec hblock hvs
  exact faultless_tryModule happend

/-- Whatever the operation, its operands are there when the instruction is appended. -/
lemma Ready.append (h : Ready c b) (align : Option Nat) {op : Operation} (hop : op.Valid) :
    Faultless (append c align op b) := by
  have hb := h.draft.wellFormed
  have hoperands := hop.operands
  cases op with
  | binary op flags bits lhs rhs =>
    simp only [Operation.operands, List.forall_mem_cons] at hoperands
    obtain ⟨hl, hr, -⟩ := hoperands
    refine h.faultless_read hl fun l b₁ hreadl h₁ => h₁.faultless_read hr fun r b₂ hreadr h₂ => ?_
    exact h₂.emit _ _ (readTwo_typed hb hreadl hreadr).2
  | icmp p ty lhs rhs =>
    simp only [Operation.operands, List.forall_mem_cons] at hoperands
    obtain ⟨hl, hr, -⟩ := hoperands
    refine h.faultless_read hl fun l b₁ hreadl h₁ => h₁.faultless_read hr fun r b₂ hreadr h₂ => ?_
    exact h₂.emit _ _ (readTwo_typed hb hreadl hreadr).2
  | select cond ty ifTrue ifFalse =>
    simp only [Operation.operands, List.forall_mem_cons] at hoperands
    obtain ⟨hc, ht, hf, -⟩ := hoperands
    refine h.faultless_read hc fun x b₁ hreadc h₁ => h₁.faultless_read ht fun t b₂ hreadt h₂ => ?_
    refine h₂.faultless_read hf fun f b₃ hreadf h₃ => h₃.emit _ [.i1, ty, ty] ?_
    obtain ⟨hgrows, hx⟩ := readOperand_typed hb hreadc
    obtain ⟨hgrows', htys⟩ := readTwo_typed (hgrows.wellFormed hb) hreadt hreadf
    rw [List.map_cons, htys, hgrows'.module.types x _ hx]
    rfl
  | phi ty incoming =>
    have hincoming : ∀ entry ∈ incoming, TypedAtom.Valid ⟨ty, entry.1⟩ := fun entry hentry =>
      hop.operands _ (List.mem_map_of_mem hentry)
    refine StateT.faultless_bind (readIncoming_faultless h.draft hincoming)
      fun pairs b₁ hpairs => ?_
    have h₁ := h.lookups (readIncoming_eq_ok hincoming hpairs).1
    exact h₁.emit _ (pairs.map fun _ => ty) (by simp [(readIncoming_typed hb hpairs).2])
  | call ty callee args =>
    obtain ⟨hargs, hcallee⟩ := List.forall_mem_append.1 hoperands
    refine h.faultless_read (hcallee _ (List.mem_singleton_self _)) fun target b₁ htarget h₁ => ?_
    refine StateT.faultless_bind (readOperands_faultless h₁.draft hargs) fun vs b₂ hvs => ?_
    have h₂ := h₁.lookups (readOperands_eq_ok hargs hvs).1
    obtain ⟨hgrows, hty⟩ := readOperand_typed hb htarget
    obtain ⟨hgrows', htys⟩ := readOperands_typed (hgrows.wellFormed hb) hvs
    refine h₂.emit _ (args.map TypedAtom.ty ++ [.ptr]) ?_
    simp [htys, hgrows'.module.types target _ hty]
  | alloca ty => exact h.emit _ [] rfl
  | load ty pointer =>
    refine h.faultless_read (hoperands _ (List.mem_singleton_self _)) fun p b₁ hp h₁ => ?_
    exact h₁.emit _ [.ptr] (by simp [(readOperand_typed hb hp).2])
  | store value pointer =>
    simp only [Operation.operands, List.forall_mem_cons] at hoperands
    obtain ⟨hv, hp, -⟩ := hoperands
    refine h.faultless_read hv fun v b₁ hreadv h₁ => h₁.faultless_read hp fun p b₂ hreadp h₂ => ?_
    exact h₂.emit _ _ (readTwo_typed hb hreadv hreadp).2
  | ret value =>
    refine StateT.faultless_bind (readOperands_faultless h.draft hoperands) fun vs b₁ hvs => ?_
    have h₁ := h.lookups (readOperands_eq_ok hoperands hvs).1
    exact h₁.emit _ _ (readOperands_typed hb hvs).2
  | br target => exact h.faultless_blockOf fun d b₁ _ h₁ => h₁.emit _ [] rfl
  | condBr cond ifTrue ifFalse =>
    refine h.faultless_read (hoperands _ (List.mem_singleton_self _)) fun x b₁ hx h₁ => ?_
    refine h₁.faultless_blockOf fun t b₂ ht h₂ => h₂.faultless_blockOf fun f b₃ hf h₃ => ?_
    obtain ⟨hgrows, hty⟩ := readOperand_typed hb hx
    have hgrows₂ := blockOf_grows (hgrows.wellFormed hb) ht
    have hgrows₃ := blockOf_grows ((hgrows.trans hgrows₂).wellFormed hb) hf
    refine h₃.emit _ [.i1] ?_
    rw [List.map_singleton, (hgrows₂.trans hgrows₃).module.types x _ hty]
    rfl
  | unreachable => exact h.emit _ [] rfl

end Append

/-! ## Results -/

lemma setName_faultless {name : String} (hv : ∃ value, b.module.value? v = some value) :
    Faultless ((do
      let key ← takeKey (some name)
      modify fun b => { b with values := b.values.insert key v }
      tryModule fun m => return (← m.setValueName v (keptName name), ()) : BodyM Unit) b) := by
  obtain ⟨value, hvalue⟩ := hv
  refine StateT.faultless_bind (takeKey_faultless _) fun key b₁ hkey => ?_
  obtain ⟨-, rfl⟩ := takeKey_eq_ok hkey
  refine StateT.faultless_bind (faultless_ok _) fun _ b₂ hmodify => ?_
  obtain rfl := StateT.modify_eq_ok.1 hmodify
  have hset : b.module.setValueName v (keptName name)
      = .ok (b.module.modifyValue v fun value => { value with name := keptName name }) := by
    rw [Module.setValueName, Module.getValue_eq_ok.2 hvalue]
    rfl
  exact faultless_tryModule (p := (_, ())) (by rw [hset]; rfl)

/-- The reads of a placeholder can be sent to its definition. -/
lemma nameResult_faultless (h : b.Draft) (name : String) {value : Value}
    (hv : b.module.value? v = some value) : Faultless (nameResult name v b) := by
  refine StateT.faultless_get_bind ?_
  cases hname : b.values[name]? with
  | none => exact setName_faultless ⟨value, hv⟩
  | some old =>
    obtain ⟨old', hold⟩ := (h.values name old hname).exists_value
    refine StateT.faultless_liftM_bind (Module.getValue_eq_ok.2 hold) ?_
    split_ifs
    · exact faultless_refusal _
    refine StateT.faultless_liftM_bind (Module.getValue_eq_ok.2 hv) ?_
    dsimp only
    split_ifs
    · exact faultless_refusal _
    obtain ⟨m, n, hreplace, hv'⟩ : ∃ m n, b.module.replaceAllUses old v = .ok (m, n) ∧
        ∃ value', m.value? v = some value' := by
      by_cases hne : old = v
      · subst hne
        exact ⟨b.module, 0, Module.replaceAllUses_self _ _, value, hv⟩
      · have hagrees := h.wellFormed.module.reachable.intact.agrees
        refine ⟨_, _, hagrees.replaceAllUses_eq hne hold hv, ?_⟩
        exact ⟨_, (Module.value?_redirected v).trans (congrArg (Option.map _) hv)⟩
    refine StateT.faultless_bind (faultless_tryModule hreplace) fun _ b₁ htry => ?_
    obtain ⟨m', hreplace', rfl⟩ := tryModule_eq_ok.1 htry
    obtain ⟨rfl, -⟩ := Prod.mk.inj (Except.ok.inj (hreplace.symm.trans hreplace'))
    exact setName_faultless hv'

lemma numberResult_faultless : Faultless (numberResult v b) :=
  StateT.faultless_bind (takeKey_faultless none) fun _ _ _ => faultless_ok _

/-! ## Lines -/

/-- The tokens begin as an instruction does: with the name of a result, if there is one, and an
opcode. -/
def IsInstruction (ts : List Token) : Prop := ∃ x, (Statement.head.run ts).result = .ok x

lemma inst?_appendInst_self {m m' : Module} {c : BlockId} {spec : InstSpec} {vs : List ValueId}
    {i : InstId} (hrun : m.appendInst c spec vs = .ok (m', i)) :
    ∃ inst, m'.inst? i = some inst := by
  obtain ⟨rfl, hbare⟩ := Module.bare_appendInst hrun
  have hi := Module.inst?_bare (m := m') ⟨m.insts.size⟩
  rw [hbare, Module.inst?_withInst, if_pos Module.size_insts_bare.symm, eq_comm,
    Option.map_eq_some_iff] at hi
  obtain ⟨inst, hinst, -⟩ := hi
  exact ⟨inst, hinst⟩

/-- Only the block of an instruction can be at fault: the rest of the line is read without. -/
lemma instruction_eq_fault {x : Fault} (h : b.Draft) {ts : List Token} (hts : ∀ t ∈ ts, t.Valid) :
    instruction ts b = .error (.fault x) ↔ IsInstruction ts ∧ openBlock b = .error (.fault x) := by
  rw [instruction]
  cases hhead : (Statement.head.run ts).result with
  | error e =>
    refine iff_of_false (faultless_refusal _ x) ?_
    rintro ⟨⟨y, hy⟩, -⟩
    rw [hhead] at hy
    cases hy
  | ok head =>
    obtain ⟨⟨name, op⟩, rest⟩ := head
    dsimp only
    rw [StateT.bind_eq_fault]
    refine (or_iff_left ?_).trans (and_iff_right ⟨_, hhead⟩).symm
    rintro ⟨c, b₁, hopen, hfault⟩
    obtain ⟨h₁, hc⟩ := h.openBlock hopen
    have hready : Ready c b₁ := ⟨h₁, hc⟩
    obtain ⟨-, hrest⟩ := (Statement.head_yields ts hts).2 _ _ hhead
    obtain ⟨hmet, hphrase⟩ := Statement.phrase_yields name op rest hrest
    revert hfault
    cases hreading : ((Statement.phrase name op).run rest).result with
    | error e =>
      dsimp only
      refine StateT.faultless_bind (readOperands_faultless h₁ hmet) (fun _ _ _ => ?_) x
      exact faultless_refusal _
    | ok statement =>
      obtain ⟨s, rest'⟩ := statement
      obtain ⟨⟨hs, -⟩, -⟩ := hphrase s rest' hreading
      dsimp only
      refine StateT.faultless_bind (hready.append s.align hs.operation) (fun i b₂ happend => ?_) x
      obtain ⟨b₃, vs, cs, hlookups, hvs, hcs, hemit⟩ := append_eq_ok hs.operation happend
      obtain ⟨m, happendInst, rfl⟩ := tryModule_eq_ok.1 hemit
      have h₃ := hready.lookups hlookups
      have hwell := (append_grows h₁.wellFormed happend).wellFormed h₁.wellFormed
      have h₂ := h₃.draft.emit h₃.owner hs hvs hcs happendInst hwell
      obtain ⟨inst, hinst⟩ := inst?_appendInst_self happendInst
      obtain ⟨-, -, -, -, value, hvalue, -⟩ := Module.inst?_appendInst happendInst hinst
      refine StateT.faultless_get_bind ?_
      refine StateT.faultless_liftM_bind (Module.getInst_eq_ok.2 hinst) ?_
      cases name with
      | some name =>
        exact StateT.faultless_bind (nameResult_faultless h₂ name hvalue) fun _ _ _ =>
          faultless_ok _
      | none =>
        dsimp only
        split_ifs
        · exact StateT.faultless_bind numberResult_faultless fun _ _ _ => faultless_ok _
        · exact faultless_ok _

/-- No label begins as an instruction does. -/
lemma not_isInstruction_label {name : String} {ts : List Token} :
    ¬ IsInstruction (.label name :: ts) := by
  rintro ⟨x, hx⟩
  have : (Statement.head.run (.label name :: ts)).result
      = .error (.expected .anyWord (.label name)) := rfl
  rw [this] at hx
  cases hx

/-- A line faults exactly if it is an instruction and begins a block that stands already. -/
theorem line_eq_fault {x : Fault} (h : b.Draft) {ts : List Token} (hts : ∀ t ∈ ts, t.Valid) :
    line ts b = .error (.fault x) ↔
      ∃ c, x = .alreadyPlaced c ∧ IsInstruction ts ∧ b.Clash c := by
  have hright : (IsInstruction ts ∧ openBlock b = .error (.fault x)) ↔
      ∃ c, x = .alreadyPlaced c ∧ IsInstruction ts ∧ b.Clash c := by
    rw [openBlock_eq_fault h]
    constructor
    · rintro ⟨hinst, c, hx, hclash⟩
      exact ⟨c, hx, hinst, hclash⟩
    · rintro ⟨c, hx, hinst, hclash⟩
      exact ⟨hinst, c, hx, hclash⟩
  rw [← hright]
  unfold line
  split
  · exact iff_of_false (beginBlock_faultless h x) fun hinst => not_isInstruction_label hinst.1
  · exact iff_of_false (faultless_refusal _ x) fun hinst => not_isInstruction_label hinst.1
  · exact instruction_eq_fault h hts

/-! ## Parameters -/

/-- A definition names as many parameters as its function has. -/
lemma nameParams_faultless {k : Nat} {names : List (Option String)} {func : Func}
    (hfunc : b.module.func? b.func = some func) (hlength : k + names.length ≤ func.params.length) :
    Faultless (nameParams k names b) := by
  induction names generalizing b k with
  | nil => exact faultless_ok _
  | cons name rest ih =>
    rw [List.length_cons] at hlength
    refine StateT.faultless_bind (takeKey_faultless _) fun key b₁ hkey => ?_
    obtain ⟨-, rfl⟩ := takeKey_eq_ok hkey
    refine StateT.faultless_get_bind ?_
    dsimp only
    split_ifs
    · exact faultless_refusal _
    refine StateT.faultless_liftM_bind (Module.getFunc_eq_ok.2 hfunc) ?_
    have hparam : func.params[k]? = some func.params[k] := List.getElem?_eq_getElem (by omega)
    rw [hparam]
    refine StateT.faultless_bind (faultless_ok _) fun _ b₂ hmodify => ?_
    obtain rfl := StateT.modify_eq_ok.1 hmodify
    exact ih hfunc (by omega)

lemma start_faultless {m : Module} {symbols : Symbols} {d : Definition} (hd : d.Fits m) :
    Faultless (start m symbols d.func d.params) := by
  obtain ⟨func, hfunc, -, hlength, -⟩ := hd.func
  have hparams : Faultless (nameParams 0 d.params { module := m, func := d.func, symbols }) :=
    nameParams_faultless hfunc (by omega)
  exact hparams.bind fun _ _ => faultless_ok _

end Body

/-! ## Headers -/

variable {m : Module} {symbols : Symbols}

/-- A parameter can be named, and the others stay to be named. -/
lemma nameParam_ok {x : ValueId × Param} {rest : List (ValueId × Param)}
    (h : ∀ y ∈ x :: rest, ∃ value, m.value? y.1 = some value) :
    ∃ m', m.setValueName x.1 (x.2.name.bind keptName) = .ok m' ∧
      ∀ y ∈ rest, ∃ value, m'.value? y.1 = some value := by
  obtain ⟨⟨value, hvalue⟩, hrest⟩ := List.forall_mem_cons.1 h
  refine ⟨m.modifyValue x.1 fun value => { value with name := x.2.name.bind keptName }, ?_,
    fun y hy => ?_⟩
  · rw [Module.setValueName, Module.getValue_eq_ok.2 hvalue]
    rfl
  · obtain ⟨value', hvalue'⟩ := hrest y hy
    rw [Module.value?_modifyValue, hvalue']
    split_ifs <;> exact ⟨_, rfl⟩

/-- The parameters of a header are there to be named. -/
lemma addHeader_ok (m : Module) (h : Header) : ∃ m' f, addHeader m h = .ok (m', f) := by
  have hparams : ∀ x ∈ ((List.range (h.params.map Param.ty).length).map
      fun k => (⟨m.values.size + 1 + k⟩ : ValueId)).zip h.params,
      ∃ value, (m.addFunc h.name h.returnType (h.params.map Param.ty)).1.value? x.1
        = some value := by
    rintro ⟨v, p⟩ hmem
    obtain ⟨k, hk, rfl⟩ := List.mem_map.1 (List.of_mem_zip hmem).1
    have hlt : m.values.size + 1 + k < (m.addFunc h.name h.returnType
        (h.params.map Param.ty)).1.values.size := by
      have := List.mem_range.1 hk
      simp only [Module.addFunc, Array.size_append, Array.size_push, List.size_toArray,
        List.length_map, List.length_zipIdx] at this ⊢
      omega
    exact ⟨_, Array.getElem?_eq_getElem hlt⟩
  obtain ⟨m₂, hnames, -⟩ := foldlM_ok
    (f := fun (m : Module) (x : ValueId × Param) => m.setValueName x.1 (x.2.name.bind keptName))
    (fun rest m => ∀ x ∈ rest, ∃ value, m.value? x.1 = some value)
    (fun x rest m₁ hm₁ => nameParam_ok hm₁) _ _ hparams
  simp only [addHeader, bind_eq_ok, pure_eq_ok, Prod.mk.injEq, Module.getFunc_eq_ok]
  exact ⟨_, _, _, Array.getElem?_push_size, m₂, hnames, rfl, rfl⟩

lemma Headers.add_faultless (s : Headers) (line : TokenLine) : Faultless (s.add line) := by
  rw [Headers.add]
  cases line.isDefinition? with
  | none => exact faultless_ok _
  | some definition =>
    refine Faultless.bind faultless_mapError fun h _ => ?_
    dsimp only
    by_cases hknown : s.symbols.contains h.name = true
    · rw [if_pos hknown]
      exact faultless_refusal _
    · rw [if_neg hknown]
      obtain ⟨m, f, hadd⟩ := addHeader_ok s.module h
      refine Faultless.bind (faultless_liftM hadd) fun _ hlift => ?_
      obtain ⟨rfl, rfl⟩ := Prod.mk.inj (Except.ok.inj ((liftM_eq_ok.1 hlift).symm.trans hadd))
      obtain ⟨hfunc, -⟩ := func?_addHeader hadd
      exact Faultless.bind (faultless_liftM (Module.getFunc_eq_ok.2 hfunc)) fun _ _ =>
        faultless_ok _

lemma Outline.headers_faultless (o : Outline) : Faultless o.headers := by
  refine Faultless.bind (fun x hx => ?_) fun _ _ => faultless_ok _
  obtain ⟨before, line, after, s, -, -, hline⟩ := foldlM_eq_error.1 hx
  exact Headers.add_faultless s line x hline

/-! ## Bodies -/

/-- A line faults only in a body. -/
lemma readLine_eq_fault {p : Position} {ds : List Definition} {line : TokenLine} {x : Fault}
    (h : p.Sound symbols ds) (hline : line.Valid) :
    readLine symbols (p, ds) line = .error (.fault x) ↔ ∃ b c, p = .inside b ∧
      x = .alreadyPlaced c ∧ Body.IsInstruction (line.first :: line.rest) ∧ b.Clash c := by
  cases p with
  | outside m =>
    obtain ⟨-, hpending⟩ := h
    refine iff_of_false ?_ (by rintro ⟨b, c, hp, -⟩; cases hp)
    simp only [readLine]
    split
    · rename_i d rest _
      have hd := hpending.fits d List.mem_cons_self
      refine Faultless.bind (fun y hy => ?_) (fun _ _ => faultless_ok _) x
      exact Body.start_faultless hd y (mapError_eq_fault.1 hy)
    · exact faultless_refusal _ x
    · exact faultless_ok _ x
    · exact faultless_refusal _ x
  | inside b =>
    obtain ⟨hb, -⟩ := h
    simp only [readLine]
    split_ifs with hclose
    · refine iff_of_false ?_ ?_
      · split
        · exact faultless_refusal _ x
        · exact faultless_ok _ x
      · rintro ⟨b', c, -, -, ⟨y, hy⟩, -⟩
        rw [hclose.1, hclose.2] at hy
        cases hy
    · rw [bind_eq_fault, mapError_eq_fault]
      have hright : (∃ b' c, Position.inside b = .inside b' ∧ x = .alreadyPlaced c ∧
          Body.IsInstruction (line.first :: line.rest) ∧ b'.Clash c) ↔
            ∃ c, x = .alreadyPlaced c ∧ Body.IsInstruction (line.first :: line.rest) ∧
              b.Clash c := by
        simp
      rw [hright, ← Body.line_eq_fault hb hline]
      refine or_iff_left ?_
      rintro ⟨a, -, hpure⟩
      exact faultless_ok _ x hpure

/-- Reading a text comes to an instruction that begins a block, but the block of the next number
stands already. -/
def Clashes (text : String) (c : BlockId) : Prop :=
  ∃ o s before line after b ds, Outline.ofText text = .ok o ∧ o.headers = .ok s ∧
    o.lines = before ++ line :: after ∧
    before.foldlM (readLine s.symbols) (.outside s.module, s.definitions) = .ok (.inside b, ds) ∧
    Body.IsInstruction (line.first :: line.rest) ∧ b.Clash c

end SsaFold.Text

namespace SsaFold.Module

open Text

/-- The reader faults exactly on a text in which an instruction begins a block that stands
already; on any other text it answers with a module or an error. -/
theorem ofText_eq_fault {text : String} {x : Fault} :
    ofText text = .error (.fault x) ↔ ∃ c, x = .alreadyPlaced c ∧ Clashes text c := by
  constructor
  · intro hrun
    rcases bind_eq_fault.1 hrun with hfault | ⟨o, houtline, hrun⟩
    · exact absurd hfault (faultless_mapError x)
    have houtline' := mapError_eq_ok.1 houtline
    rcases bind_eq_fault.1 hrun with hfault | ⟨s, hheaders, hrun⟩
    · exact absurd hfault (o.headers_faultless x)
    obtain ⟨hsketch, hlines⟩ := Outline.ofText_sketch houtline'
    have hs := Outline.headers_sound hsketch hlines hheaders
    rcases bind_eq_fault.1 hrun with hfault | ⟨m, -, hrun⟩
    · rcases bind_eq_fault.1 hfault with hfault | ⟨⟨p, ds⟩, hfold, hend⟩
      · obtain ⟨before, line, after, ⟨p, ds⟩, hsplit, hbefore, hline⟩ := foldlM_eq_error.1 hfault
        have hvalid : ∀ l ∈ before ++ line :: after, l.Valid := hsplit ▸ hlines
        have hp :=
          readLines_sound hs.outside (fun l hl => hvalid l (List.mem_append_left _ hl)) hbefore
        obtain ⟨b, c, rfl, rfl, hinst, hclash⟩ := (readLine_eq_fault hp
          (hvalid line (List.mem_append_right _ List.mem_cons_self))).1 hline
        exact ⟨c, rfl, o, s, before, line, after, b, ds, houtline', hheaders, hsplit, hbefore,
          hinst, hclash⟩
      · -- The name of the function whose body is not closed can be asked for.
        cases p with
        | outside m => exact absurd hend (faultless_ok _ x)
        | inside b =>
          obtain ⟨hb, -⟩ := readLines_sound hs.outside hlines hfold
          obtain ⟨func, hfunc⟩ := hb.home
          refine absurd hend (Faultless.bind (faultless_liftM (Module.getFunc_eq_ok.2 hfunc)) ?_ x)
          exact fun _ _ => faultless_refusal _
    · refine absurd hrun (Faultless.bind faultless_mapError (fun _ _ => faultless_ok _) x)
  · rintro ⟨c, rfl, o, s, before, line, after, b, ds, houtline, hheaders, hsplit, hbefore, hinst,
      hclash⟩
    obtain ⟨hsketch, hlines⟩ := Outline.ofText_sketch houtline
    have hs := Outline.headers_sound hsketch hlines hheaders
    have hvalid : ∀ l ∈ before ++ line :: after, l.Valid := hsplit ▸ hlines
    have hp := readLines_sound hs.outside (fun l hl => hvalid l (List.mem_append_left _ hl)) hbefore
    have hline := (readLine_eq_fault (x := .alreadyPlaced c) hp
      (hvalid line (List.mem_append_right _ List.mem_cons_self))).2 ⟨b, c, rfl, rfl, hinst, hclash⟩
    have hfold : o.lines.foldlM (readLine s.symbols) (.outside s.module, s.definitions)
        = .error (.fault (.alreadyPlaced c)) :=
      foldlM_eq_error.2 ⟨before, line, after, _, hsplit, hbefore, hline⟩
    refine bind_eq_fault.2 (.inr ⟨o, mapError_eq_ok.2 houtline, ?_⟩)
    refine bind_eq_fault.2 (.inr ⟨s, hheaders, ?_⟩)
    exact bind_eq_fault.2 (.inl (bind_eq_fault.2 (.inl hfold)))

/-- A text in which a number sets the counter back: the second `ret` begins block `3` again. -/
def clashText : String :=
  "define void @f() \x7b\n  br label %3\n3:\n  %2 = add i32 1, 2\n  ret void\n  ret void\n\x7d\n"

/-- So not every text is answered with a module or an error. -/
theorem not_forall_faultless_ofText : ¬ ∀ text, Faultless (ofText text) := by
  intro h
  have hrun : ofText clashText = .error (.fault (.alreadyPlaced ⟨1⟩)) := by decide +kernel
  exact h clashText _ hrun

end SsaFold.Module
