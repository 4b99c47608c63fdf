import SsaFold.Proofs.Text.Legible
import SsaFold.Proofs.Text.Naming
import SsaFold.Proofs.Text.Spelling

/-!
# Printed instructions

An operand of a module that can be printed is printed as an atom that stands for it in the scope of
its function (`Printing.Spelled`), a target is printed as its label, and an instruction is printed
as a line that it holds (`Printing.exists_entry`).

What is printed is told by the statement that the instruction is known to say: the new statement has
the same opcode, type, predicate, flags and alignment, and names the operands anew.
-/

namespace SsaFold.Text

open SsaFold.Module

/-! ## Words -/

lemma isWord_ty (ty : Ty) : IsWord ty.text := by
  cases ty with
  | void => decide
  | ptr => decide
  | int bits =>
    have htext : (Ty.int bits).text.toList = 'i' :: Nat.toDigits 10 bits := by
      rw [Ty.text, String.toList_append, toList_toString]
      rfl
    refine ⟨'i', _, htext, by decide, fun d hd => ?_, by simp⟩
    exact isNameChar_of_isDigit (isDigit_toDigits bits d hd)

lemma isWord_mnemonic (op : Opcode) : IsWord op.mnemonic := by
  rcases op with ⟨⟨⟩⟩ | _ <;> decide

lemma isWord_predicate (p : Predicate) : IsWord p.name := by
  cases p <;> decide

lemma isWord_flags (flags : ArithFlags) : ∀ w ∈ flags.names, IsWord w := by
  have hnuw : IsWord "nuw" := by decide
  have hnsw : IsWord "nsw" := by decide
  have hexact : IsWord "exact" := by decide
  rcases flags with ⟨_ | _, _ | _, _ | _⟩ <;> simp [ArithFlags.names, hnuw, hnsw, hexact]

/-! ## Pieces -/

/-- Each part of a list is printed, and the texts are related to the parts. -/
lemma mapM_ok {α β γ : Type} {ε : Type} {f : α → Except ε β} {R : β → γ → Prop} {as : List α}
    {cs : List γ} (h : List.Forall₂ (fun a c => ∃ b, f a = .ok b ∧ R b c) as cs) :
    ∃ bs, as.mapM f = .ok bs ∧ List.Forall₂ R bs cs := by
  induction h with
  | nil => exact ⟨[], rfl, .nil⟩
  | cons hac _ ih =>
    obtain ⟨b, hb, hbc⟩ := hac
    obtain ⟨bs, hbs, hrest⟩ := ih
    exact ⟨b :: bs, by simp only [List.mapM_cons, hb, hbs, ok_bind]; rfl, .cons hbc hrest⟩

lemma lexes_typed {ty : Ty} {s : String} {ts : List Token} (h : Lexes s ts) :
    Lexes (ty.text ++ " " ++ s) (.word ty.text :: ts) := by
  rw [String.append_assoc]
  exact lexes_append (lexes_word (isWord_ty ty)) h.blank

lemma follows_words {ws : List String} (h : ∀ w ∈ ws, IsWord w) :
    Follows (String.join (ws.map (" " ++ ·))) (ws.map .word) := by
  induction ws with
  | nil => exact follows_empty
  | cons w ws ih =>
    obtain ⟨hw, hws⟩ := List.forall_mem_cons.1 h
    rw [List.map_cons, String.join_cons]
    exact follows_append (lexes_word hw).blank (ih hws)

lemma mem_commas {tss : List (List Token)} {t : Token} (h : t ∈ commas tss) :
    t = .punct ',' ∨ ∃ ts ∈ tss, t ∈ ts := by
  cases tss with
  | nil => simp [commas] at h
  | cons ts tss =>
    rw [commas_cons, List.mem_append, List.mem_flatMap] at h
    rcases h with h | ⟨ts', hts', h⟩
    · exact .inr ⟨ts, List.mem_cons_self, h⟩
    · rcases List.mem_cons.1 h with rfl | h
      · exact .inl rfl
      · exact .inr ⟨ts', List.mem_cons_of_mem _ hts', h⟩

lemma IntConst.lexes_text (c : IntConst) :
    Lexes c.text [(if c.bits = 1 then Atom.bool (c.value ≠ 0) else .int c.value).token] := by
  rw [IntConst.text]
  split_ifs with hbits hvalue
  · simpa [Atom.token, hvalue] using lexes_word (w := "false") (by decide)
  · simpa [Atom.token, hvalue] using lexes_word (w := "true") (by decide)
  · have hmodulus : modulus c.bits ≤ modulus 64 := Nat.pow_le_pow_right Nat.two_pos c.bits_le
    have hlower := c.lower
    have hupper := c.upper
    exact lexes_int (by omega) (by omega)

/-! ## Operands -/

namespace Printing

variable {m : Module} {f : FuncId} {func : Func} {v : ValueId}

/-- The value is printed as the operand. -/
structure Spelled (p : Printing) (f : FuncId) (func : Func) (v : ValueId) (a : TypedAtom) :
    Prop where
  denotes : (p.scope f func).denotes a v
  valid : a.Valid
  not_void : a.ty ≠ .void
  value : ∃ t, p.value v = .ok t ∧ Lexes t [a.atom.token]

lemma Spelled.typed {p : Printing} {a : TypedAtom} (h : p.Spelled f func v a) :
    ∃ t, p.typed v = .ok t ∧ Lexes t a.tokens := by
  obtain ⟨t, ht, hlexes⟩ := h.value
  obtain ⟨value, hvalue, hty⟩ := typeOf?_eq_some.1 h.denotes.2.1
  refine ⟨a.ty.text ++ " " ++ t, ?_, lexes_typed hlexes⟩
  simp only [Printing.typed, getValue_eq_ok.2 hvalue, ht, ok_bind, hty]
  rfl

/-- What belongs to a function and can be read in it is printed under its name. -/
lemma localName_ok (hm : m.Printable) (hf : m.func? f = some func) (hv : m.Visible f v)
    (hown : ∀ kind, m.kind? v = some kind → ¬ kind.IsShared) :
    Quotable ((of m func).valueName v) ∧ ∃ t, (of m func).localName v = .ok t ∧
      Lexes t [.localName ((of m func).valueName v)] := by
  obtain ⟨value, hvalue, -⟩ := id hv
  have hname : m.nameOf? v = value.name := by simp [nameOf?, hvalue]
  have hquotable : Quotable ((of m func).valueName v) :=
    quotable_rawName (hname ▸ (hm.complete.draft.values v value hvalue).2)
  refine ⟨hquotable, _, ?_, lexes_localName hquotable⟩
  have hnumber : value.name = none → ∃ k, (of m func).slots[Slotted.value v]? = some k :=
    fun hnone =>
    exists_number (hm.complete.value_mem_slotted hf hv hown (hname.trans hnone))
  simp only [Printing.localName, getValue_eq_ok.2 hvalue, ok_bind, nameOrSlot_eq hnumber]
  rw [valueName, hname]
  rfl

/-- What can be read in a function can be printed in it. -/
lemma exists_spelled (hm : m.Printable) (hf : m.func? f = some func) (hv : m.Visible f v) :
    ∃ a, (of m func).Spelled f func v a := by
  have hvisible := hv
  obtain ⟨value, hvalue, hvoid, hoffers⟩ := hv
  have hreadable := (hm.complete.draft.values v value hvalue).1
  have hty : m.typeOf? v = some value.ty := typeOf?_eq_some.2 ⟨value, hvalue, rfl⟩
  have hkind := kind?_eq_some.2 ⟨value, hvalue, rfl⟩
  have hget := getValue_eq_ok.2 hvalue
  -- It is enough to know the atom and its text.
  suffices h : ∃ atom, (of m func).atom? v = some atom ∧ atom.Valid ∧
      ∃ t, (of m func).value v = .ok t ∧ Lexes t [atom.token] by
    obtain ⟨atom, hatom, hvalid, htext⟩ := h
    exact ⟨⟨value.ty, atom⟩, ⟨hatom, hty, hvisible⟩, ⟨hreadable, hvalid⟩, hvoid, htext⟩
  simp only [atom?, Printing.value, hkind, hget, ok_bind]
  cases hcase : value.kind with
  | constInt c => exact ⟨_, rfl, by split_ifs <;> trivial, _, rfl, IntConst.lexes_text c⟩
  | null => exact ⟨_, rfl, trivial, _, rfl, lexes_word (by decide)⟩
  | function g =>
    rw [hcase] at hoffers
    obtain ⟨func', hg⟩ := hoffers
    have hname := (hm.complete.draft.funcs g func' hg).name
    refine ⟨.globalName func'.name, by simp [hg], hname, globalText func'.name, ?_,
      lexes_globalName hname⟩
    simp only [getFunc_eq_ok.2 hg, ok_bind]
    rfl
  | global g =>
    rw [hcase] at hoffers
    obtain ⟨glob, hg⟩ := hoffers
    have hname := hm.legible.globalNames glob (Array.mem_of_getElem? hg)
    refine ⟨.globalName glob.name, by simp [hg], hname, globalText glob.name, ?_,
      lexes_globalName hname⟩
    have hget : m.getGlobal g = .ok glob := by rw [getGlobal, hg]
    simp only [hget, ok_bind]
    rfl
  | placeholder =>
    rw [hcase] at hoffers
    exact hoffers.elim
  | _ =>
    obtain ⟨hquotable, t, ht, hlexes⟩ := localName_ok hm hf hvisible (by
      intro kind hkind'
      obtain rfl := Option.some.inj (hkind.symm.trans hkind')
      rw [hcase]
      exact id)
    exact ⟨_, rfl, hquotable, t, ht, hlexes⟩

/-- Operands with their types are printed as a list. -/
lemma typedList_ok {p : Printing} {vs : List ValueId} {as : List TypedAtom}
    (h : List.Forall₂ (p.Spelled f func) vs as) :
    ∃ t, p.typedList vs = .ok t ∧ Lexes t (commas (as.map TypedAtom.tokens)) := by
  obtain ⟨ss, hss, hlexes⟩ := mapM_ok (R := fun t (a : TypedAtom) => Lexes t a.tokens)
    (h.imp fun _ _ ha => ha.typed)
  refine ⟨", ".intercalate ss, ?_, lexes_intercalate_comma (List.forall₂_map_right_iff.2 hlexes)⟩
  simp only [Printing.typedList, hss, ok_bind]
  rfl

/-! ## Labels -/

/-- A placed block has a label in print. -/
lemma labelName_ok (hm : m.Printable) (hf : m.func? f = some func) {b : BlockId}
    (hb : b ∈ func.layout) : (of m func).labelName b = .ok (nameText ((of m func).blockName b)) ∧
      IsLabel ((of m func).blockName b) := by
  obtain ⟨block, hblock, hword⟩ := (hm.complete.draft.funcs f func hf).labels b hb
  have hnumber : block.name = none → ∃ k, (of m func).slots[Slotted.block b]? = some k :=
    fun hnone =>
    exists_number (block_mem_slotted hb hblock hnone)
  constructor
  · simp only [Printing.labelName, getBlock_eq_ok.2 hblock, ok_bind, nameOrSlot_eq hnumber]
    rw [blockName, hblock]
    rfl
  · simp only [blockName, rawName, hblock, Option.bind_some]
    cases hname : block.name with
    | none => exact .inr (isNumbered_toString _)
    | some s => exact .inl (hword s hname)

lemma lexes_label {s : String} (h : IsLabel s) :
    Lexes ("label %" ++ nameText s) [.word "label", .localName s] := by
  have := lexes_append (lexes_word (w := "label") (by decide))
    (lexes_localName (quotable_of_isLabel h)).blank
  rwa [localText, ← String.append_assoc, ← String.append_assoc] at this

lemma labelRef_ok (hm : m.Printable) (hf : m.func? f = some func) {b : BlockId}
    (hb : b ∈ func.layout) : ∃ t, (of m func).labelRef b = .ok t ∧
      Lexes t [.word "label", .localName ((of m func).blockName b)] := by
  obtain ⟨htext, hlabel⟩ := labelName_ok hm hf hb
  refine ⟨_, ?_, lexes_label hlabel⟩
  simp only [Printing.labelRef, htext, ok_bind]
  rfl

/-! ## Operations -/

lemma operand_ok {inst : Inst} {k : Nat} (h : inst.operandValues[k]? = some v) :
    operand inst k = .ok v := by
  rw [Inst.operandValues, List.getElem?_map, Option.map_eq_some_iff] at h
  obtain ⟨o, ho, rfl⟩ := h
  rw [Array.getElem?_toList] at ho
  rw [operand, ho]

/-- The operands of the instruction that are printed. -/
abbrev SpelledAll (m : Module) (f : FuncId) (func : Func) (vs : List ValueId)
    (as : List TypedAtom) : Prop :=
  List.Forall₂ ((of m func).Spelled f func) vs as

/-- The text says what the instruction says, the name of the result and the alignment aside. -/
structure Says (m : Module) (f : FuncId) (func : Func) (inst : Inst) (op : Operation)
    (group : List Token) : Prop where
  valid : op.Valid
  isGroup : IsGroup group
  not_void : ∀ a ∈ op.operands, a.ty ≠ .void
  spec : inst.toInstSpec = op.spec inst.align inst.targets
  operands : List.Forall₂ ((of m func).scope f func).denotes op.operands inst.operandValues
  labels : List.Forall₂ ((of m func).scope f func).labels op.labels inst.targets
  text : ∃ t, (of m func).operands inst = .ok t ∧ Follows t (op.tokens group)

section Says

variable {inst : Inst} {op old : Operation} {align : Option Nat} {group : List Token}

/-- Enough is known of an operation if its operands are printed and it says what a valid one
says. -/
lemma says_of_spelled (hold : old.Valid) (hspec : inst.toInstSpec = old.spec align inst.targets)
    (hnew : op.spec align inst.targets = old.spec align inst.targets)
    (hoperands : SpelledAll m f func inst.operandValues op.operands)
    (hlabels : List.Forall₂ ((of m func).scope f func).labels op.labels inst.targets)
    (hincoming : ∀ ty incoming, op = .phi ty incoming → incoming ≠ [])
    (hcallee : ∀ ty callee args, op = .call ty callee args → callee.IsName)
    (hgroup : IsGroup group)
    (htext : ∃ t, (of m func).operands inst = .ok t ∧ Follows t (op.tokens group)) :
    Says m f func inst op group := by
  have halign : inst.align = align := congrArg InstSpec.align hspec
  have hresult : op.resultType = old.resultType := congrArg InstSpec.ty hnew
  have halloc : op.allocTy? = old.allocTy? := congrArg InstSpec.allocTy hnew
  have hspelled : ∀ a ∈ op.operands, ∃ v, (of m func).Spelled f func v a := by
    intro a ha
    obtain ⟨v, -, hv⟩ := exists_mem_of_forall₂ hoperands a ha
    exact ⟨v, hv⟩
  refine ⟨⟨fun a ha => ?_, ?_, fun ty hty => ?_, hincoming, hcallee⟩, hgroup, fun a ha => ?_, ?_,
    ?_, hlabels, htext⟩
  · obtain ⟨v, hv⟩ := hspelled a ha
    exact hv.valid
  · exact hresult ▸ hold.resultType
  · exact hold.allocTy ty (halloc ▸ hty)
  · obtain ⟨v, hv⟩ := hspelled a ha
    exact hv.not_void
  · rw [halign]
    exact hspec.trans hnew.symm
  · exact (hoperands.imp fun _ _ ha => ha.denotes).flip

/-- An instruction with two operands of one type, of which the first has its type written. -/
lemma pair_ok {x y : ValueId} {a b : TypedAtom} (hx : (of m func).Spelled f func x a)
    (hy : (of m func).Spelled f func y b) (hvalues : inst.operandValues = [x, y]) :
    ∃ t, (of m func).pair inst = .ok t ∧ Lexes t (a.tokens ++ [.punct ',', b.atom.token]) := by
  obtain ⟨s, hs, hlexes⟩ := hx.typed
  obtain ⟨t, ht, hlexes'⟩ := hy.value
  refine ⟨s ++ ", " ++ t, ?_, ?_⟩
  · simp only [pair, operand_ok (show inst.operandValues[0]? = some x by simp [hvalues]),
      operand_ok (show inst.operandValues[1]? = some y by simp [hvalues]), hs, ht, ok_bind]
    rfl
  · rw [String.append_assoc]
    exact lexes_append hlexes hlexes'.comma

/-- The incoming values of a `phi` are printed with their labels. -/
lemma incoming_ok (hm : m.Printable) (hf : m.func? f = some func) {as : List TypedAtom}
    (hspelled : SpelledAll m f func inst.operandValues as)
    (hlength : as.length = inst.targets.length) (htargets : ∀ b ∈ inst.targets, b ∈ func.layout) :
    ∃ t, (of m func).incoming inst = .ok t ∧ Lexes t (commas
      (((as.map TypedAtom.atom).zip (inst.targets.map (of m func).blockName)).map
        incomingTokens)) := by
  have hpairs : List.Forall₂ (fun (x : ValueId × BlockId) (entry : Atom × String) =>
      ∃ t, (do
        return "[ " ++ (← (of m func).value x.1) ++ ", %" ++ (← (of m func).labelName x.2) ++ " ]" :
          Except Fault String) = .ok t ∧ Lexes t (incomingTokens entry))
      (inst.operandValues.zip inst.targets)
      ((as.map TypedAtom.atom).zip (inst.targets.map (of m func).blockName)) := by
    generalize inst.operandValues = vs at hspelled
    generalize inst.targets = bs at hlength htargets
    induction hspelled generalizing bs with
    | nil => exact .nil
    | @cons v a vs as ha _ ih =>
      obtain ⟨b, bs, rfl⟩ := List.exists_cons_of_length_eq_add_one hlength.symm
      obtain ⟨hb, hbs⟩ := List.forall_mem_cons.1 htargets
      refine .cons ?_ (ih bs (by simpa using hlength) hbs)
      obtain ⟨t, ht, hlexes⟩ := ha.value
      obtain ⟨hlabel, hname⟩ := labelName_ok hm hf hb
      refine ⟨"[ " ++ t ++ ", %" ++ nameText ((of m func).blockName b) ++ " ]", ?_, ?_⟩
      · simp only [ht, hlabel, ok_bind]
        rfl
      · have hend : Follows " ]" [.punct ']'] :=
          (Lexes.mark follows_empty.lexes (by decide)
            (show "]".toList = ']' :: "".toList from rfl)).lexes.blank
        have hrest := (lexes_append (lexes_localName (quotable_of_isLabel hname)) hend).comma
        refine ((lexes_append hlexes hrest).blank.lexes.mark (by decide) ?_).lexes
        simp [localText]
  obtain ⟨ss, hss, hlexes⟩ := mapM_ok (R := fun t entry => Lexes t (incomingTokens entry)) hpairs
  refine ⟨", ".intercalate ss, ?_, lexes_intercalate_comma (List.forall₂_map_right_iff.2 hlexes)⟩
  simp only [incoming, hss, ok_bind]
  rfl

/-- The types of the parameters of a function are printed. -/
lemma paramTypes_ok (hm : m.Printable) {g : FuncId} {callee : Func} (hg : m.func? g = some callee) :
    ∃ types : List Ty, callee.params.map m.typeOf? = types.map some ∧
      (∀ ty ∈ types, ty.Readable ∧ ty ≠ .void) ∧ ∃ t, paramTypes m callee = .ok t ∧
        Lexes t (commas (types.map (fun ty => [.word ty.text])
          ++ if callee.vararg then [[.ellipsis]] else [])) := by
  obtain ⟨types, htypes⟩ : ∃ types : List Ty, List.Forall₂ (fun v ty => m.typeOf? v = some ty ∧
      ty.Readable ∧ ty ≠ .void) callee.params types := by
    refine exists_forall₂ fun v hv => ?_
    obtain ⟨k, hk⟩ := List.mem_iff_getElem?.1 hv
    obtain ⟨value, hvalue, -, hvoid⟩ := (hm.complete.draft.funcs g callee hg).params k v hk
    exact ⟨value.ty, typeOf?_eq_some.2 ⟨value, hvalue, rfl⟩,
      (hm.complete.draft.values v value hvalue).1, hvoid⟩
  obtain ⟨ss, hss, hlexes⟩ := mapM_ok (f := fun v => do return (← m.getValue v).ty.text)
    (R := fun t (ty : Ty) => Lexes t [.word ty.text]) (htypes.imp fun v ty hty => by
      obtain ⟨value, hvalue, rfl⟩ := typeOf?_eq_some.1 hty.1
      refine ⟨value.ty.text, ?_, lexes_word (isWord_ty _)⟩
      simp only [getValue_eq_ok.2 hvalue, ok_bind]
      rfl)
  refine ⟨types, ?_, fun ty hty => ?_,
    ", ".intercalate (ss ++ if callee.vararg then ["..."] else []), ?_,
    lexes_intercalate_comma (List.rel_append (List.forall₂_map_right_iff.2 hlexes) ?_)⟩
  · exact List.forall₂_eq_eq_eq ▸ List.forall₂_map_left_iff.2 (List.forall₂_map_right_iff.2
      (htypes.imp fun _ _ h => h.1))
  · obtain ⟨v, -, -, hty⟩ := exists_mem_of_forall₂ htypes ty hty
    exact hty
  · simp only [paramTypes, hss, ok_bind]
    rfl
  · split_ifs
    · exact .cons lexes_ellipsis .nil
    · exact .nil

/-- The type of a callee is spelled out in parentheses, or not at all. -/
lemma calleeType_ok (hm : m.Printable) (hvisible : ∀ v ∈ inst.operandValues, m.Visible f v) :
    ∃ t group, (of m func).calleeType inst = .ok t ∧ IsGroup group ∧ Follows t group := by
  have hnone : IsGroup [] ∧ Follows "" [] := ⟨.inl rfl, follows_empty⟩
  cases hcallee : m.callee? inst with
  | none => exact ⟨"", [], by simp only [calleeType, hcallee]; rfl, hnone⟩
  | some g =>
    obtain ⟨callee, hg⟩ : ∃ callee, m.func? g = some callee := by
      rw [callee?] at hcallee
      split_ifs at hcallee
      split at hcallee
      · rename_i value heq
        obtain rfl := Option.some.inj hcallee
        obtain ⟨o, ho, hvalue⟩ := Option.bind_eq_some_iff.1 heq
        have hmem : o.value ∈ inst.operandValues :=
          List.mem_map_of_mem (Array.mem_toList_iff.2 (Array.mem_of_back? ho))
        obtain ⟨value', hvalue', -, hoffers⟩ := hvisible _ hmem
        obtain rfl := Option.some.inj (hvalue.symm.trans hvalue')
        exact hoffers
      · cases hcallee
    cases hvararg : callee.vararg with
    | false =>
      refine ⟨"", [], ?_, hnone⟩
      simp only [calleeType, hcallee, getFunc_eq_ok.2 hg, ok_bind, hvararg,
        Bool.false_eq_true, if_false]
      rfl
    | true =>
      obtain ⟨types, -, -, t, ht, hlexes⟩ := paramTypes_ok hm hg
      rw [hvararg, if_pos rfl] at hlexes
      refine ⟨" (" ++ t ++ ")", _, ?_, .inr ⟨commas (types.map (fun ty => [.word ty.text])
        ++ [[.ellipsis]]), rfl, ?_⟩, ?_⟩
      · simp only [calleeType, hcallee, getFunc_eq_ok.2 hg, ok_bind, hvararg, if_true, ht]
        rfl
      · intro hmem
        rcases mem_commas hmem with hcomma | ⟨ts, hts, hmem⟩
        · cases hcomma
        · rcases List.mem_append.1 hts with hts | hts
          · obtain ⟨ty, -, rfl⟩ := List.mem_map.1 hts
            simp at hmem
          · obtain rfl := List.mem_singleton.1 hts
            simp at hmem
      · have hend : Follows ")" [.punct ')'] :=
          Lexes.mark follows_empty.lexes (by decide) rfl
        have hopen := (lexes_append hlexes hend).mark (by decide)
          (show ("(" ++ t ++ ")").toList = '(' :: (t ++ ")").toList by simp)
        have := hopen.lexes.blank
        rwa [← String.append_assoc, ← String.append_assoc] at this

end Says

/-! ## One operation each -/

section Operations

variable {vs : List ValueId} {as : List TypedAtom}

lemma spelled_cons (h : SpelledAll m f func vs as) {ty : Ty} {tys : List Ty}
    (htys : as.map TypedAtom.ty = ty :: tys) : ∃ v vs' x as', vs = v :: vs' ∧ as = ⟨ty, x⟩ :: as' ∧
      (of m func).Spelled f func v ⟨ty, x⟩ ∧ SpelledAll m f func vs' as' ∧
      as'.map TypedAtom.ty = tys := by
  cases h with
  | nil => cases htys
  | @cons v a vs as ha has =>
    obtain ⟨hty, hrest⟩ := List.cons.inj htys
    obtain ⟨_, x⟩ := a
    obtain rfl : _ = ty := hty
    exact ⟨v, vs, x, as, rfl, rfl, ha, has, hrest⟩

lemma spelled_nil (h : SpelledAll m f func vs as) (htys : as.map TypedAtom.ty = []) :
    vs = [] ∧ as = [] := by
  obtain rfl := List.map_eq_nil_iff.1 htys
  exact ⟨List.forall₂_nil_right_iff.1 h, rfl⟩

lemma spelled_two (h : SpelledAll m f func vs as) {ty ty' : Ty}
    (htys : as.map TypedAtom.ty = [ty, ty']) : ∃ v w x y, vs = [v, w] ∧ as = [⟨ty, x⟩, ⟨ty', y⟩] ∧
      (of m func).Spelled f func v ⟨ty, x⟩ ∧ (of m func).Spelled f func w ⟨ty', y⟩ := by
  obtain ⟨v, vs, x, as, rfl, rfl, hx, h, htys⟩ := spelled_cons h htys
  obtain ⟨w, vs, y, as, rfl, rfl, hy, h, htys⟩ := spelled_cons h htys
  obtain ⟨rfl, rfl⟩ := spelled_nil h htys
  exact ⟨v, w, x, y, rfl, rfl, hx, hy⟩

variable {inst : Inst} {align : Option Nat}

lemma labels_targets (htargets : ∀ b ∈ inst.targets, b ∈ func.layout) :
    List.Forall₂ ((of m func).scope f func).labels (inst.targets.map (of m func).blockName)
      inst.targets :=
  List.forall₂_map_left_iff.2 (List.forall₂_same.2 fun b hb => ⟨htargets b hb, rfl⟩)

lemma says_binary {bop : BinaryOp} {flags : ArithFlags} {bits : Nat} {lhs rhs : Atom}
    (hold : (Operation.binary bop flags bits lhs rhs).Valid)
    (hspec : inst.toInstSpec = (Operation.binary bop flags bits lhs rhs).spec align inst.targets)
    (htargets : inst.targets = []) (has : SpelledAll m f func inst.operandValues as)
    (haccepts : inst.toInstSpec.Accepts (as.map TypedAtom.ty)) :
    ∃ op group, Says m f func inst op group := by
  rw [hspec] at haccepts
  obtain ⟨bits', hbits, htys⟩ := haccepts
  obtain rfl : bits = bits' := Ty.int.inj hbits
  obtain ⟨v, w, x, y, hvalues, rfl, hx, hy⟩ := spelled_two has htys
  obtain ⟨t, ht, hlexes⟩ := pair_ok hx hy hvalues
  refine ⟨.binary bop flags bits x y, [], says_of_spelled hold hspec rfl has (htargets ▸ .nil)
    (by simp) (by simp) (.inl rfl) ⟨String.join (flags.names.map (" " ++ ·)) ++ (" " ++ t), ?_, ?_⟩⟩
  · have hopcode : inst.opcode = .binary bop := congrArg InstSpec.opcode hspec
    have hflags : inst.flags = flags := congrArg InstSpec.flags hspec
    simp only [Printing.operands, hopcode, hflags, ht, ok_bind, String.append_assoc]
    rfl
  · exact follows_append (follows_words (isWord_flags flags)) hlexes.blank

lemma says_icmp {p : Predicate} {ty : Ty} {lhs rhs : Atom}
    (hold : (Operation.icmp p ty lhs rhs).Valid)
    (hspec : inst.toInstSpec = (Operation.icmp p ty lhs rhs).spec align inst.targets)
    (htargets : inst.targets = []) (has : SpelledAll m f func inst.operandValues as)
    (haccepts : inst.toInstSpec.Accepts (as.map TypedAtom.ty)) :
    ∃ op group, Says m f func inst op group := by
  rw [hspec] at haccepts
  obtain ⟨-, -, ty', htys⟩ := haccepts
  obtain ⟨v, w, x, y, hvalues, rfl, hx, hy⟩ := spelled_two has htys
  obtain ⟨t, ht, hlexes⟩ := pair_ok hx hy hvalues
  refine ⟨.icmp p ty' x y, [], says_of_spelled hold hspec rfl has (htargets ▸ .nil) (by simp)
    (by simp) (.inl rfl) ⟨" " ++ p.name ++ (" " ++ t), ?_, ?_⟩⟩
  · have hopcode : inst.opcode = .icmp := congrArg InstSpec.opcode hspec
    have hpredicate : inst.predicate = some p := congrArg InstSpec.predicate hspec
    simp only [Printing.operands, hopcode, hpredicate, Option.getD_some, ht, ok_bind,
      String.append_assoc]
    rfl
  · exact follows_append (lexes_word (isWord_predicate p)).blank hlexes.blank

lemma says_select {cond ifTrue ifFalse : Atom} {ty : Ty}
    (hold : (Operation.select cond ty ifTrue ifFalse).Valid)
    (hspec : inst.toInstSpec = (Operation.select cond ty ifTrue ifFalse).spec align inst.targets)
    (htargets : inst.targets = []) (has : SpelledAll m f func inst.operandValues as)
    (haccepts : inst.toInstSpec.Accepts (as.map TypedAtom.ty)) :
    ∃ op group, Says m f func inst op group := by
  rw [hspec] at haccepts
  have htys : as.map TypedAtom.ty = [.i1, ty, ty] := haccepts
  have hall := has
  obtain ⟨v, vs, x, as, hvalues, rfl, hx, has, htys⟩ := spelled_cons has htys
  obtain ⟨w, u, y, z, rfl, rfl, hy, hz⟩ := spelled_two has htys
  obtain ⟨t, ht, hlexes⟩ := typedList_ok (hvalues ▸ hall)
  refine ⟨.select x ty y z, [], says_of_spelled hold hspec rfl hall (htargets ▸ .nil) (by simp)
    (by simp) (.inl rfl) ⟨" " ++ t, ?_, hlexes.blank⟩⟩
  have hopcode : inst.opcode = .select := congrArg InstSpec.opcode hspec
  simp only [Printing.operands, hopcode, ht, ok_bind,
    operand_ok (show inst.operandValues[0]? = some v by simp [hvalues]),
    operand_ok (show inst.operandValues[1]? = some w by simp [hvalues]),
    operand_ok (show inst.operandValues[2]? = some u by simp [hvalues])]
  rfl

lemma says_phi (hm : m.Printable) (hf : m.func? f = some func) {ty : Ty}
    {incoming : List (Atom × String)} (hold : (Operation.phi ty incoming).Valid)
    (hspec : inst.toInstSpec = (Operation.phi ty incoming).spec align inst.targets)
    (hlength : inst.targets.length = incoming.length)
    (htargets : ∀ b ∈ inst.targets, b ∈ func.layout)
    (has : SpelledAll m f func inst.operandValues as)
    (haccepts : inst.toInstSpec.Accepts (as.map TypedAtom.ty)) :
    ∃ op group, Says m f func inst op group := by
  have hty : inst.ty = ty := congrArg InstSpec.ty hspec
  have htys : as.map TypedAtom.ty = inst.targets.map fun _ => ty := by
    rw [hspec] at haccepts
    exact haccepts
  have hsame : as.length = inst.targets.length := by simpa using congrArg List.length htys
  let entries := (as.map TypedAtom.atom).zip (inst.targets.map (of m func).blockName)
  have hlabels : (Operation.phi ty entries).labels = inst.targets.map (of m func).blockName :=
    List.map_snd_zip (by simp [hsame])
  have hatoms : entries.map Prod.fst = as.map TypedAtom.atom := List.map_fst_zip (by simp [hsame])
  have hoperands : (Operation.phi ty entries).operands = as := by
    have hall : ∀ a ∈ as, a.ty = ty := by
      intro a ha
      have hmem : a.ty ∈ as.map TypedAtom.ty := List.mem_map_of_mem ha
      rw [htys] at hmem
      exact (List.mem_map.1 hmem).elim fun _ h => h.2.symm
    have : (Operation.phi ty entries).operands = (entries.map Prod.fst).map (⟨ty, ·⟩) := by
      rw [List.map_map]
      rfl
    rw [this, hatoms, List.map_map]
    refine (List.map_congr_left fun a ha => ?_).trans (List.map_id as)
    rw [Function.comp_apply, ← hall a ha, id]
  obtain ⟨t, ht, hlexes⟩ := incoming_ok hm hf has hsame htargets
  refine ⟨.phi ty entries, [], says_of_spelled hold hspec rfl (hoperands ▸ has)
    (hlabels ▸ labels_targets htargets) ?_ (by simp) (.inl rfl)
      ⟨" " ++ (ty.text ++ " " ++ t), ?_, ?_⟩⟩
  · rintro _ _ ⟨⟩ hnil
    -- As many values are printed as the statement has, and it has some.
    have := congrArg List.length hnil
    simp only [entries, List.length_zip, List.length_map, hsame, hlength, Nat.min_self,
      List.length_nil, List.length_eq_zero_iff] at this
    exact hold.incoming ty incoming rfl this
  · have hopcode : inst.opcode = .phi := congrArg InstSpec.opcode hspec
    simp only [Printing.operands, hopcode, hty, ht, ok_bind, String.append_assoc]
    rfl
  · exact (lexes_typed hlexes).blank

lemma says_load {ty : Ty} {pointer : Atom} (hold : (Operation.load ty pointer).Valid)
    (hspec : inst.toInstSpec = (Operation.load ty pointer).spec align inst.targets)
    (htargets : inst.targets = []) (has : SpelledAll m f func inst.operandValues as)
    (haccepts : inst.toInstSpec.Accepts (as.map TypedAtom.ty)) :
    ∃ op group, Says m f func inst op group := by
  rw [hspec] at haccepts
  have hall := has
  obtain ⟨v, vs, x, as, hvalues, rfl, hx, has, htys⟩ := spelled_cons has haccepts
  obtain ⟨rfl, rfl⟩ := spelled_nil has htys
  obtain ⟨t, ht, hlexes⟩ := hx.typed
  refine ⟨.load ty x, [], says_of_spelled hold hspec rfl hall (htargets ▸ .nil) (by simp)
    (by simp) (.inl rfl) ⟨" " ++ ty.text ++ (", " ++ t), ?_, ?_⟩⟩
  · have hopcode : inst.opcode = .load := congrArg InstSpec.opcode hspec
    have hty : inst.ty = ty := congrArg InstSpec.ty hspec
    simp only [Printing.operands, hopcode, hty, ht, ok_bind, String.append_assoc,
      operand_ok (show inst.operandValues[0]? = some v by simp [hvalues])]
    rfl
  · exact follows_append (lexes_word (isWord_ty ty)).blank hlexes.comma

lemma says_store {value : TypedAtom} {pointer : Atom} (hold : (Operation.store value pointer).Valid)
    (hspec : inst.toInstSpec = (Operation.store value pointer).spec align inst.targets)
    (htargets : inst.targets = []) (has : SpelledAll m f func inst.operandValues as)
    (haccepts : inst.toInstSpec.Accepts (as.map TypedAtom.ty)) :
    ∃ op group, Says m f func inst op group := by
  rw [hspec] at haccepts
  obtain ⟨-, ty, htys⟩ := haccepts
  have hall := has
  obtain ⟨v, w, x, y, hvalues, rfl, -, -⟩ := spelled_two has htys
  obtain ⟨t, ht, hlexes⟩ := typedList_ok (hvalues ▸ hall)
  refine ⟨.store ⟨ty, x⟩ y, [], says_of_spelled hold hspec rfl hall (htargets ▸ .nil) (by simp)
    (by simp) (.inl rfl) ⟨" " ++ t, ?_, hlexes.blank⟩⟩
  have hopcode : inst.opcode = .store := congrArg InstSpec.opcode hspec
  simp only [Printing.operands, hopcode, ht, ok_bind,
    operand_ok (show inst.operandValues[0]? = some v by simp [hvalues]),
    operand_ok (show inst.operandValues[1]? = some w by simp [hvalues])]
  rfl

lemma says_alloca {ty : Ty} (hold : (Operation.alloca ty).Valid)
    (hspec : inst.toInstSpec = (Operation.alloca ty).spec align inst.targets)
    (htargets : inst.targets = []) (has : SpelledAll m f func inst.operandValues as)
    (haccepts : inst.toInstSpec.Accepts (as.map TypedAtom.ty)) :
    ∃ op group, Says m f func inst op group := by
  rw [hspec] at haccepts
  have hall := has
  obtain ⟨-, rfl⟩ := spelled_nil has haccepts.2
  refine ⟨.alloca ty, [], says_of_spelled hold hspec rfl hall (htargets ▸ .nil) (by simp) (by simp)
    (.inl rfl) ⟨" " ++ ty.text, ?_, (lexes_word (isWord_ty ty)).blank⟩⟩
  have hopcode : inst.opcode = .alloca := congrArg InstSpec.opcode hspec
  have halloc : inst.allocTy = some ty := congrArg InstSpec.allocTy hspec
  simp only [Printing.operands, hopcode, halloc]
  rfl

lemma says_ret {value : Option TypedAtom} (hold : (Operation.ret value).Valid)
    (hspec : inst.toInstSpec = (Operation.ret value).spec align inst.targets)
    (htargets : inst.targets = []) (has : SpelledAll m f func inst.operandValues as)
    (haccepts : inst.toInstSpec.Accepts (as.map TypedAtom.ty)) :
    ∃ op group, Says m f func inst op group := by
  rw [hspec] at haccepts
  have hlength : (as.map TypedAtom.ty).length ≤ 1 := haccepts.2
  have hopcode : inst.opcode = .ret := congrArg InstSpec.opcode hspec
  cases as with
  | nil =>
    have hvalues : inst.operandValues = [] := List.forall₂_nil_right_iff.1 has
    refine ⟨.ret none, [], says_of_spelled hold hspec rfl has (htargets ▸ .nil) (by simp) (by simp)
      (.inl rfl) ⟨" void", ?_, (lexes_word (isWord_ty .void)).blank⟩⟩
    simp only [Printing.operands, hopcode, hvalues]
    rfl
  | cons a as =>
    obtain rfl : as = [] := by simpa using hlength
    have hall := has
    obtain ⟨v, vs, ha, hvs, hvalues⟩ := List.forall₂_cons_right_iff.1 has
    obtain ⟨t, ht, hlexes⟩ := ha.typed
    refine ⟨.ret (some a), [], says_of_spelled hold hspec rfl hall (htargets ▸ .nil) (by simp)
      (by simp) (.inl rfl) ⟨" " ++ t, ?_, hlexes.blank⟩⟩
    simp only [Printing.operands, hopcode, hvalues, ht, ok_bind]
    rfl

lemma says_unreachable (hold : Operation.unreachable.Valid)
    (hspec : inst.toInstSpec = Operation.unreachable.spec align inst.targets)
    (htargets : inst.targets = []) (has : SpelledAll m f func inst.operandValues as)
    (haccepts : inst.toInstSpec.Accepts (as.map TypedAtom.ty)) :
    ∃ op group, Says m f func inst op group := by
  rw [hspec] at haccepts
  have hall := has
  obtain ⟨-, rfl⟩ := spelled_nil has haccepts.2
  refine ⟨.unreachable, [], says_of_spelled hold hspec rfl hall (htargets ▸ .nil) (by simp)
    (by simp) (.inl rfl) ⟨"", ?_, follows_empty⟩⟩
  have hopcode : inst.opcode = .unreachable := congrArg InstSpec.opcode hspec
  simp only [Printing.operands, hopcode]
  rfl

/-- A branch is printed with one target or with two, as its operand tells. -/
lemma says_branch (hm : m.Printable) (hf : m.func? f = some func) {old : Operation}
    (hold : old.Valid) (hspec : inst.toInstSpec = old.spec align inst.targets)
    (hbranch : old.spec align inst.targets
      = { opcode := .br, ty := .void, targets := inst.targets, align })
    (htargets : ∀ b ∈ inst.targets, b ∈ func.layout)
    (has : SpelledAll m f func inst.operandValues as)
    (haccepts : inst.toInstSpec.Accepts (as.map TypedAtom.ty)) :
    ∃ op group, Says m f func inst op group := by
  have hopcode : inst.opcode = .br := congrArg InstSpec.opcode (hspec.trans hbranch)
  have hlabels := labels_targets (m := m) (f := f) htargets
  have hall := has
  have hcases : (as.map TypedAtom.ty = [] ∧ inst.targets.length = 1) ∨
      (as.map TypedAtom.ty = [.i1] ∧ inst.targets.length = 2) := by
    rw [InstSpec.Accepts, hopcode] at haccepts
    exact haccepts.2
  rcases hcases with ⟨htys, hlength⟩ | ⟨htys, hlength⟩
  · obtain ⟨hvalues, rfl⟩ := spelled_nil has htys
    obtain ⟨b, hb⟩ := List.length_eq_one_iff.1 hlength
    obtain ⟨t, ht, hlexes⟩ := labelRef_ok hm hf (htargets b (by simp [hb]))
    refine ⟨.br ((of m func).blockName b), [], says_of_spelled hold hspec hbranch.symm hall
      (by rw [hb] at hlabels ⊢; exact hlabels) (by simp) (by simp) (.inl rfl)
      ⟨" " ++ t, ?_, hlexes.blank⟩⟩
    simp only [Printing.operands, hopcode, branch, hvalues, hb, List.mapM_cons, List.mapM_nil, ht,
      ok_bind, pure_bind]
    simp [String.join_cons]
  · obtain ⟨v, vs, x, as, hvalues, rfl, hx, has, htys⟩ := spelled_cons has htys
    obtain ⟨rfl, rfl⟩ := spelled_nil has htys
    obtain ⟨b, d, hbd⟩ := List.length_eq_two.1 hlength
    obtain ⟨t, ht, hlexes⟩ := hx.typed
    obtain ⟨u, hu, hlexes_u⟩ := labelRef_ok hm hf (htargets b (by simp [hbd]))
    obtain ⟨w, hw, hlexes_w⟩ := labelRef_ok hm hf (htargets d (by simp [hbd]))
    refine ⟨.condBr x ((of m func).blockName b) ((of m func).blockName d), [],
      says_of_spelled hold hspec hbranch.symm hall (by rw [hbd] at hlabels ⊢; exact hlabels)
        (by simp) (by simp) (.inl rfl) ⟨" " ++ (t ++ (", " ++ u ++ (", " ++ w))), ?_, ?_⟩⟩
    · simp only [Printing.operands, hopcode, branch, hvalues, hbd, ht, hu, hw, ok_bind,
        String.append_assoc]
      rfl
    · have := (lexes_append hlexes (follows_append hlexes_u.comma hlexes_w.comma)).blank
      exact this

/-- The callee of a call is printed as a name. -/
lemma isName_callee (hm : m.Complete) {i : InstId} (hi : m.inst? i = some inst)
    (hcall : inst.opcode = .call) {v : ValueId} (hv : inst.operandValues.getLast? = some v)
    {a : TypedAtom} (ha : (of m func).Spelled f func v a) : a.atom.IsName := by
  obtain ⟨kind, hkind, hnull⟩ := (hm.draft.insts i inst hi).callee hcall v hv
  obtain ⟨value, hvalue, rfl⟩ := kind?_eq_some.1 hkind
  obtain ⟨value', hvalue', hty⟩ := typeOf?_eq_some.1 ((hm.typed i inst hi).callee hcall hv)
  obtain rfl := Option.some.inj (hvalue.symm.trans hvalue')
  have hatom := ha.denotes.1
  have hfits := hm.intact.shaped.fits v value hvalue
  simp only [atom?, hkind] at hatom
  split at hatom
  · rename_i c hc
    -- A constant is no pointer.
    rw [Option.some.inj hc, hty] at hfits
    cases hfits
  · rename_i hc
    exact absurd (Option.some.inj hc) hnull
  · obtain ⟨func', -, heq⟩ := Option.map_eq_some_iff.1 hatom
    exact heq ▸ trivial
  · obtain ⟨glob, -, heq⟩ := Option.map_eq_some_iff.1 hatom
    exact heq ▸ trivial
  all_goals
    first
    | exact (Option.some.inj hatom) ▸ trivial
    | cases hatom

lemma says_call (hm : m.Printable) {i : InstId} (hi : m.inst? i = some inst)
    (hvisible : ∀ v ∈ inst.operandValues, m.Visible f v) {ty : Ty} {callee : Atom}
    {args : List TypedAtom} (hold : (Operation.call ty callee args).Valid)
    (hspec : inst.toInstSpec = (Operation.call ty callee args).spec align inst.targets)
    (htargets : inst.targets = []) (has : SpelledAll m f func inst.operandValues as)
    (haccepts : inst.toInstSpec.Accepts (as.map TypedAtom.ty)) :
    ∃ op group, Says m f func inst op group := by
  rw [hspec] at haccepts
  obtain ⟨tys, htys⟩ := haccepts
  have hopcode : inst.opcode = .call := congrArg InstSpec.opcode hspec
  have hty : inst.ty = ty := congrArg InstSpec.ty hspec
  have hall := has
  obtain ⟨as, last, rfl, -, hlast⟩ := List.map_eq_append_iff.1 htys
  obtain ⟨a, last, rfl, ha, hlast⟩ := List.map_eq_cons_iff.1 hlast
  obtain rfl := List.map_eq_nil_iff.1 hlast
  obtain ⟨_, x⟩ := a
  obtain rfl : _ = Ty.ptr := ha
  obtain ⟨vs, ws, hvs, hws, hvalues⟩ := exists_append_of_forall₂ has
  obtain ⟨v, _, hx, hnil, rfl⟩ := List.forall₂_cons_right_iff.1 hws
  obtain rfl := List.forall₂_nil_right_iff.1 hnil
  have hgetLast : inst.operandValues.getLast? = some v := by simp [hvalues]
  obtain ⟨t, ht, hlexes⟩ := hx.value
  obtain ⟨u, hu, hlexes_u⟩ := typedList_ok hvs
  obtain ⟨s, group, hs, hgroup, hlexes_s⟩ : ∃ s group, (of m func).calleeType inst = .ok s ∧
      IsGroup group ∧ Follows s group := calleeType_ok hm hvisible
  refine ⟨.call ty x as, group, says_of_spelled hold hspec rfl hall (htargets ▸ .nil)
    (by simp) ?_ hgroup ⟨" " ++ (ty.text ++ (s ++ (" " ++ (t ++ ("(" ++ (u ++ ")")))))), ?_, ?_⟩⟩
  · rintro _ _ _ ⟨⟩
    exact isName_callee hm.complete hi hopcode hgetLast hx
  · have hdrop : inst.operandValues.dropLast = vs := by simp [hvalues]
    simp only [Printing.operands, hopcode, hgetLast, Printing.call, hdrop, hty, hs, ht, hu, ok_bind,
      String.append_assoc]
    rfl
  · have hend : Follows ")" [.punct ')'] := Lexes.mark follows_empty.lexes (by decide) rfl
    have hopen := (lexes_append hlexes_u hend).mark (by decide)
      (show ("(" ++ (u ++ ")")).toList = '(' :: (u ++ ")").toList by simp)
    have hcallee := (lexes_append hlexes hopen).blank
    have := (lexes_append (lexes_word (isWord_ty ty)) (follows_append hlexes_s hcallee)).blank
    simpa [Operation.tokens] using this

end Operations

/-! ## Instructions -/

section Entries

variable {inst : Inst} {i : InstId}

/-- What an instruction says is printed. -/
lemma exists_says (hm : m.Printable) (hf : m.func? f = some func) (hi : m.inst? i = some inst)
    (howner : m.owner? inst.parent = some f) : ∃ op group, Says m f func inst op group := by
  obtain ⟨s, hs, hspec, hlength⟩ := (hm.complete.draft.insts i inst hi).stated
  have hvisible : ∀ v ∈ inst.operandValues, m.Visible f v := fun v hv =>
    hm.complete.visible hi howner hv
  have htargets : ∀ b ∈ inst.targets, b ∈ func.layout := by
    obtain ⟨g, hg, -, htargets⟩ := hm.complete.within hi
    obtain rfl := Option.some.inj (howner.symm.trans hg)
    exact fun b hb => hm.complete.mem_layout hf (htargets b hb)
  obtain ⟨as, has⟩ := exists_forall₂ fun v hv => exists_spelled hm hf (hvisible v hv)
  have haccepts : inst.toInstSpec.Accepts (as.map TypedAtom.ty) := by
    obtain ⟨-, tys, htys, haccepts⟩ := hm.complete.typed i inst hi
    have hsame : inst.operandValues.map m.typeOf? = (as.map TypedAtom.ty).map some := by
      rw [List.map_map]
      exact List.forall₂_eq_eq_eq ▸ List.forall₂_map_left_iff.2 (List.forall₂_map_right_iff.2
        (has.imp fun _ _ ha => ha.denotes.2.1))
    have heq : tys = as.map TypedAtom.ty :=
      List.map_injective_iff.2 (fun _ _ => Option.some.inj) (htys.symm.trans hsame)
    exact heq ▸ haccepts
  have hnone : s.operation.labels = [] → inst.targets = [] := fun h =>
    List.eq_nil_of_length_eq_zero (by rw [hlength, h, List.length_nil])
  have hold := hs.operation
  cases hop : s.operation with
  | binary bop flags bits lhs rhs =>
    rw [hop] at hspec hold
    exact says_binary hold hspec (hnone (by rw [hop]; rfl)) has haccepts
  | icmp p ty lhs rhs =>
    rw [hop] at hspec hold
    exact says_icmp hold hspec (hnone (by rw [hop]; rfl)) has haccepts
  | select cond ty ifTrue ifFalse =>
    rw [hop] at hspec hold
    exact says_select hold hspec (hnone (by rw [hop]; rfl)) has haccepts
  | phi ty incoming =>
    rw [hop] at hspec hold hlength
    exact says_phi hm hf hold hspec (hlength.trans (List.length_map ..)) htargets has haccepts
  | call ty callee args =>
    rw [hop] at hspec hold
    exact says_call hm hi hvisible hold hspec (hnone (by rw [hop]; rfl)) has haccepts
  | alloca ty =>
    rw [hop] at hspec hold
    exact says_alloca hold hspec (hnone (by rw [hop]; rfl)) has haccepts
  | load ty pointer =>
    rw [hop] at hspec hold
    exact says_load hold hspec (hnone (by rw [hop]; rfl)) has haccepts
  | store value pointer =>
    rw [hop] at hspec hold
    exact says_store hold hspec (hnone (by rw [hop]; rfl)) has haccepts
  | ret value =>
    rw [hop] at hspec hold
    exact says_ret hold hspec (hnone (by rw [hop]; rfl)) has haccepts
  | br target =>
    rw [hop] at hspec hold
    exact says_branch hm hf hold hspec rfl htargets has haccepts
  | condBr cond ifTrue ifFalse =>
    rw [hop] at hspec hold
    exact says_branch hm hf hold hspec rfl htargets has haccepts
  | unreachable =>
    rw [hop] at hspec hold
    exact says_unreachable hold hspec (hnone (by rw [hop]; rfl)) has haccepts

/-- The alignment is printed behind the operation. -/
lemma follows_align (halign : ∀ n, inst.align = some n → n < modulus 32)
    (hcall : inst.opcode = .call → inst.operands.isEmpty = false) :
    Follows (align inst) (alignTokens inst.align) := by
  rw [align]
  cases hcase : inst.align with
  | none => exact follows_empty
  | some n =>
    have hlt : 2 * n < modulus 64 := by
      have := halign n hcase
      have h32 : modulus 32 = 4294967296 := by decide
      have h64 : modulus 64 = 18446744073709551616 := by decide
      omega
    have hshown : ¬ (inst.opcode = .call ∧ inst.operands.isEmpty = true) := fun ⟨hop, hempty⟩ => by
      rw [hcall hop] at hempty
      cases hempty
    dsimp only
    rw [if_neg hshown]
    have := (lexes_append (lexes_word (w := "align") (by decide)) (lexes_nat hlt).blank).comma
    rwa [← String.append_assoc, ← String.append_assoc] at this

/-- An instruction is printed as a line that it holds. -/
lemma exists_entry (hm : m.Printable) (hf : m.func? f = some func) (hi : m.inst? i = some inst)
    (howner : m.owner? inst.parent = some f) : ∃ e : Entry, e.Valid ∧
      m.HoldsEntry ((of m func).scope f func) inst e ∧
      ∃ t, (of m func).inst inst = .ok t ∧ Lexes t e.tokens := by
  obtain ⟨s, hs, hspec, -⟩ := (hm.complete.draft.insts i inst hi).stated
  have halign : ∀ n, inst.align = some n → n < modulus 32 := by
    have hsame : inst.align = s.align := congrArg InstSpec.align hspec
    exact fun n hn => hs.align n (hsame ▸ hn)
  obtain ⟨op, group, hsaid⟩ := exists_says hm hf hi howner
  have hopcode : inst.opcode = op.opcode := congrArg InstSpec.opcode hsaid.spec
  have hty : inst.ty = op.resultType := congrArg InstSpec.ty hsaid.spec
  obtain ⟨t, ht, hfollows⟩ := hsaid.text
  have hcall : inst.opcode = .call → inst.operands.isEmpty = false := by
    intro hcall
    obtain ⟨-, tys, htys, haccepts⟩ := hm.complete.typed i inst hi
    rw [InstSpec.Accepts, hcall] at haccepts
    obtain ⟨args, rfl⟩ := haccepts
    have := congrArg List.length htys
    simp only [Inst.operandValues, List.length_map, Array.length_toList, List.length_append,
      List.length_singleton] at this
    simp only [Array.isEmpty_eq_false_iff, ne_eq, ← Array.size_eq_zero_iff]
    omega
  -- Behind the name, if there is one, the line is the same.
  have hline : Lexes (inst.opcode.mnemonic ++ (t ++ align inst))
      (.word op.opcode.mnemonic :: op.tokens group ++ alignTokens inst.align) := by
    rw [hopcode, List.cons_append]
    exact lexes_append (lexes_word (isWord_mnemonic _))
      (follows_append hfollows (follows_align halign hcall))
  by_cases hvoid : inst.ty = .void
  · refine ⟨⟨none, group, op, inst.align⟩, ⟨⟨hsaid.valid, halign⟩, by simp, by simp [← hty, hvoid],
      hsaid.not_void, hsaid.isGroup⟩, ⟨hsaid.spec, hsaid.operands, hsaid.labels, by simp⟩, _, ?_,
      hline⟩
    simp only [Printing.inst, hvoid, Ty.isVoid, if_true, ht, ok_bind, pure_bind,
      String.append_assoc, String.empty_append]
    rfl
  · obtain ⟨value, hvalue, hkind⟩ := hm.complete.intact.shaped.result i inst hi
    have hresult := (hm.complete.typed i inst hi).1
    have hvisible := hm.complete.visible_result hi howner hvoid
    have hkind' : m.kind? inst.result = some (.inst i) := kind?_eq_some.2 ⟨value, hvalue, hkind⟩
    obtain ⟨hquotable, n, hn, hlexes⟩ := localName_ok hm hf hvisible (by
      intro kind hshared
      obtain rfl := Option.some.inj (hkind'.symm.trans hshared)
      exact id)
    have hnameable : Nameable (m.nameOf? inst.result) := by
      simpa [nameOf?, hvalue] using (hm.complete.draft.values _ value hvalue).2
    refine ⟨⟨some ((of m func).valueName inst.result), group, op, inst.align⟩,
      ⟨⟨hsaid.valid, halign⟩, fun s hs => Option.some.inj hs ▸ hquotable, by simp [← hty, hvoid],
        hsaid.not_void, hsaid.isGroup⟩,
      ⟨hsaid.spec, hsaid.operands, hsaid.labels, fun s hs => ?_⟩,
      n ++ (" " ++ ("=" ++ (" " ++ (inst.opcode.mnemonic ++ (t ++ align inst))))), ?_, ?_⟩
    · obtain rfl := Option.some.inj hs
      exact ⟨⟨by simp [atom?, hkind'], hresult, hvisible⟩, (keptName_rawName hnameable).symm⟩
    · have hnot : inst.ty.isVoid = false := eq_false_of_ne_true (mt Ty.isVoid_iff.1 hvoid)
      have hequals : " = " = " " ++ ("=" ++ " ") := by decide
      simp only [Printing.inst, hnot, Bool.false_eq_true, if_false, hn, ht, ok_bind, pure_bind,
        hequals, String.append_assoc]
      rfl
    · have hchars : ("=" ++ (" " ++ (inst.opcode.mnemonic ++ (t ++ align inst)))).toList
          = '=' :: (" " ++ (inst.opcode.mnemonic ++ (t ++ align inst))).toList := by simp
      have hmark := hline.blank.lexes.mark (by decide) hchars
      have hall := lexes_append hlexes hmark.lexes.blank
      exact hall

end Entries

end Printing

end SsaFold.Text
