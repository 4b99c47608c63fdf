import SsaFold.Proofs.Text.Lawful
import SsaFold.Proofs.Text.SameProgram
import SsaFold.Proofs.Text.Spelling

/-!
# Functions as they are written

A `Chapter` is what the lines of a function say: a header, and for each block a label, unless it is
left out, and instruction lines.  A function holds a chapter under a scope, which says what the
names in the chapter stand for.

A function that is printed holds the chapter that is printed, and a function that is read holds the
chapter that is read.  In the one scope a thing has one name, in the other a name stands for one
thing, and so two functions that hold one chapter correspond (`Module.Twins.sameFunc`).
-/

namespace SsaFold

namespace Text

/-- An instruction line. -/
structure Entry where
  /-- The name of the result, if there is one. -/
  name : Option String
  /-- The type of the callee, where it is spelled out. -/
  group : List Token
  statement : Statement

/-- The lines of a block. -/
structure Paragraph where
  /-- The first block of a function may stand without a label. -/
  label : Option String
  entries : List Entry

/-- The lines of a function. -/
structure Chapter where
  header : Header
  /-- A declaration has none. -/
  paragraphs : List Paragraph

/-! ## Lines -/

/-- The tokens of an instruction line. -/
def Entry.tokens (e : Entry) : List Token := e.statement.tokens e.name e.group

/-- The lines of a block, its label first. -/
def Paragraph.lines (p : Paragraph) : List (List Token) :=
  p.label.toList.map (fun l => [.label l]) ++ p.entries.map Entry.tokens

/-- The lines of a function. -/
def Chapter.lines (c : Chapter) : List (List Token) :=
  if c.paragraphs = [] then [.word "declare" :: c.header.tokens false]
  else (.word "define" :: c.header.tokens true) :: c.paragraphs.flatMap Paragraph.lines ++
    [[.punct '\x7d']]

/-- The line can be read, and has a name exactly if there is a result. -/
structure Entry.Valid (e : Entry) : Prop where
  statement : e.statement.Valid
  name : ∀ s, e.name = some s → Quotable s
  named : e.name.isSome ↔ e.statement.operation.resultType ≠ .void
  operands : ∀ a ∈ e.statement.operation.operands, a.ty ≠ .void
  group : IsGroup e.group

/-- The lines can be read as one block. -/
structure Paragraph.Valid (p : Paragraph) : Prop where
  label : ∀ l, p.label = some l → IsLabel l
  entries : ∀ e ∈ p.entries, e.Valid
  /-- Without a label a block begins with its first instruction. -/
  begins : p.label = none → p.entries ≠ []
  /-- Behind a terminator another block begins. -/
  ends : p.entries.Pairwise fun e _ => e.statement.operation.opcode.isTerminator = false

/-- The lines can be read as one function.  Only the first label may be left out, and the parameters
of a definition have names. -/
structure Chapter.Valid (c : Chapter) : Prop where
  header : c.header.Valid
  params : c.paragraphs ≠ [] → ∀ p ∈ c.header.params, p.name.isSome
  paragraphs : ∀ p ∈ c.paragraphs, p.Valid
  labels : ∀ p ∈ c.paragraphs.tail, p.label.isSome

/-- An instruction line begins with a name or with an opcode. -/
lemma Entry.tokens_eq_cons (e : Entry) : ∃ first rest, e.tokens = first :: rest ∧
    ((∃ s, first = .localName s) ∨ ∃ op : Opcode, first = .word op.mnemonic) := by
  rw [Entry.tokens, Statement.tokens]
  cases e.name with
  | none => exact ⟨_, _, rfl, .inr ⟨_, rfl⟩⟩
  | some s => exact ⟨_, _, rfl, .inl ⟨s, rfl⟩⟩

/-- The words that begin lines outside of bodies are no opcodes. -/
lemma mnemonic_ne (op : Opcode) :
    op.mnemonic ≠ "define" ∧ op.mnemonic ≠ "declare" ∧ op.mnemonic ≠ "source_filename" := by
  rcases op with ⟨⟨⟩⟩ | _ <;> decide

/-! ## Scopes -/

/-- What names stand for. -/
structure Scope where
  denotes : TypedAtom → ValueId → Prop
  labels : String → BlockId → Prop

end Text

open Text

namespace Module

/-! ## What a function holds -/

section Holds

variable (m : Module) (S : Scope)

/-- The instruction says what the line says. -/
structure HoldsEntry (inst : Inst) (e : Entry) : Prop where
  spec : inst.toInstSpec = e.statement.operation.spec e.statement.align inst.targets
  operands : List.Forall₂ S.denotes e.statement.operation.operands inst.operandValues
  targets : List.Forall₂ S.labels e.statement.operation.labels inst.targets
  result : ∀ s, e.name = some s →
    S.denotes ⟨inst.ty, .localName s⟩ inst.result ∧ m.nameOf? inst.result = keptName s

/-- The block lists what the paragraph lists. -/
structure HoldsParagraph (b : BlockId) (p : Paragraph) : Prop where
  block : ∃ block, m.block? b = some block ∧ block.name = p.label.bind keptName ∧
    List.Forall₂ (fun i e => ∃ inst, m.inst? i = some inst ∧ m.HoldsEntry S inst e)
      block.insts.toList p.entries
  label : ∀ l, p.label = some l → S.labels l b

/-- The value has the type of the parameter that is written, and its name. -/
structure HoldsParam (v : ValueId) (p : Param) : Prop where
  ty : m.typeOf? v = some p.ty
  name : ∀ s, p.name = some s → m.nameOf? v = keptName s

/-- The function has the header that is written. -/
structure HoldsHeader (func : Func) (h : Header) : Prop where
  name : func.name = h.name
  returnType : func.returnType = h.returnType
  linkage : func.linkage = h.linkage
  attrs : func.attrs = h.attrs
  vararg : func.vararg = h.vararg
  params : List.Forall₂ m.HoldsParam func.params h.params

/-- The function is the one that is written. -/
structure HoldsChapter (func : Func) (c : Chapter) : Prop where
  header : m.HoldsHeader func c.header
  /-- In a definition the names of the parameters stand for them. -/
  params : c.paragraphs ≠ [] → List.Forall₂ (fun v (p : Param) => ∀ s, p.name = some s →
    S.denotes ⟨p.ty, .localName s⟩ v) func.params c.header.params
  paragraphs : List.Forall₂ (m.HoldsParagraph S) func.layout.toList c.paragraphs

end Holds

/-! ## Positions -/

section Positions

variable {m : Module} {f : FuncId} {func : Func} {b : BlockId} {block : Block}
  {k : Nat}

lemma blockAt?_eq (hf : m.func? f = some func) (k : Nat) : m.blockAt? f k = func.layout[k]? := by
  simp [blockAt?, hf]

lemma instAt?_eq (hf : m.func? f = some func) (hb : func.layout[k]? = some b)
    (hblock : m.block? b = some block) (l : Nat) : m.instAt? f k l = block.insts[l]? := by
  simp [instAt?, blockAt?_eq hf, hb, hblock]

end Positions

/-! ## Two functions that hold one chapter -/

/-- In the scope of function `f` a thing has one name. -/
structure OneName (m : Module) (f : FuncId) (func : Func) (S : Scope) : Prop where
  /-- What has a name of its own is visible, and belongs to the function. -/
  own : ∀ {s ty v}, S.denotes ⟨ty, .localName s⟩ v →
    m.Visible f v ∧ ∀ kind, m.kind? v = some kind → ¬ kind.IsShared
  value : ∀ {s s' ty ty' v}, S.denotes ⟨ty, .localName s⟩ v →
    S.denotes ⟨ty', .localName s'⟩ v → s = s'
  block : ∀ {l l' b}, S.labels l b → S.labels l' b → l = l'
  /-- The label of a block without a name is its own. -/
  apart : ∀ {l b b' block}, m.block? b = some block → block.name = none → S.labels l b →
    S.labels l b' → b = b'
  placed : ∀ {l b}, S.labels l b → b ∈ func.layout

/-- In the scope a name stands for one thing, and no block has two labels. -/
structure OneMeaning (func : Func) (S : Scope) : Prop where
  value : ∀ {s ty ty' v v'}, S.denotes ⟨ty, .localName s⟩ v →
    S.denotes ⟨ty', .localName s⟩ v' → v = v'
  label : ∀ {l b b'}, S.labels l b → S.labels l b' → b = b'
  apart : ∀ {l l' b}, S.labels l b → S.labels l' b → l = l'
  placed : ∀ {l b}, S.labels l b → b ∈ func.layout

/-- In both scopes an operand that is no local name is the same constant or address. -/
def SameShared (m n : Module) (S T : Scope) : Prop :=
  ∀ a v w, S.denotes a v → T.denotes a w → (∀ s, a.atom ≠ .localName s) →
    ∃ kind : ValueKind, kind.IsShared ∧ m.kind? v = some kind ∧ n.kind? w = some kind

section Same

variable {m n : Module} {f : FuncId} {func func' : Func} {S T : Scope} {c : Chapter}

/-- The functions hold one chapter, each under its scope. -/
structure Twins (m n : Module) (f : FuncId) (func func' : Func) (S T : Scope) (c : Chapter) :
    Prop where
  left : m.Complete
  right : n.Complete
  func_left : m.func? f = some func
  func_right : n.func? f = some func'
  holds_left : m.HoldsChapter S func c
  holds_right : n.HoldsChapter T func' c
  valid : c.Valid
  names : OneName m f func S
  meanings : OneMeaning func' T
  shared : SameShared m n S T

/-- The entry of an instruction, by its position. -/
lemma HoldsChapter.entry (h : m.HoldsChapter S func c) (hf : m.func? f = some func) {k l : Nat}
    {i : InstId} (hi : m.instAt? f k l = some i) :
    ∃ p e inst, c.paragraphs[k]? = some p ∧ p.entries[l]? = some e ∧ m.inst? i = some inst ∧
      m.HoldsEntry S inst e := by
  simp only [instAt?, blockAt?_eq hf, Option.bind_eq_bind, Option.bind_eq_some_iff] at hi
  obtain ⟨b, hb, block, hblock, hi⟩ := hi
  rw [← Array.getElem?_toList] at hb hi
  obtain ⟨p, hp, hparagraph⟩ := exists_of_forall₂_left h.paragraphs hb
  obtain ⟨block', hblock', -, hentries⟩ := hparagraph.block
  obtain rfl := Option.some.inj (hblock.symm.trans hblock')
  obtain ⟨e, he, inst, hinst, hentry⟩ := exists_of_forall₂_left hentries hi
  exact ⟨p, e, inst, hp, he, hinst, hentry⟩

/-- The instruction of an entry, by its position. -/
lemma HoldsChapter.inst (h : m.HoldsChapter S func c) (hf : m.func? f = some func) {k l : Nat}
    {p : Paragraph} {e : Entry} (hp : c.paragraphs[k]? = some p) (he : p.entries[l]? = some e) :
    ∃ i inst, m.instAt? f k l = some i ∧ m.inst? i = some inst ∧ m.HoldsEntry S inst e := by
  obtain ⟨b, hb, hparagraph⟩ := exists_of_forall₂_right h.paragraphs hp
  obtain ⟨block, hblock, -, hentries⟩ := hparagraph.block
  obtain ⟨i, hi, inst, hinst, hentry⟩ := exists_of_forall₂_right hentries he
  rw [Array.getElem?_toList] at hb hi
  exact ⟨i, inst, (instAt?_eq hf hb hblock l).trans hi, hinst, hentry⟩

/-- An instruction has a position in its function. -/
lemma Complete.instAt? (h : m.Complete) (hf : m.func? f = some func) {i : InstId} {inst : Inst}
    (hi : m.inst? i = some inst) (howner : m.owner? inst.parent = some f) :
    ∃ k l, m.instAt? f k l = some i := by
  obtain ⟨block, hblock, hmem⟩ := (h.intact.shaped.held i inst.parent).2 ⟨inst, hi, rfl⟩
  obtain ⟨k, hk⟩ := Array.mem_iff_getElem?.1 (h.mem_layout hf howner)
  obtain ⟨l, hl⟩ := Array.mem_iff_getElem?.1 hmem
  exact ⟨k, l, (instAt?_eq hf hk hblock l).trans hl⟩

namespace Twins

/-- Operands that are written alike correspond. -/
lemma sameValue (h : Twins m n f func func' S T c) (hc : c.paragraphs ≠ []) {a : TypedAtom}
    {v w : ValueId} (hv : S.denotes a v) (hw : T.denotes a w) : m.SameValue n f v w := by
  by_cases hlocal : ∀ s, a.atom ≠ .localName s
  · obtain ⟨kind, hkind, hleft, hright⟩ := h.shared a v w hv hw hlocal
    exact .shared hleft hright hkind
  obtain ⟨s, hs⟩ := not_forall_not.1 hlocal
  obtain ⟨ty, _⟩ := a
  obtain rfl := hs
  obtain ⟨⟨value, hvalue, hty, hoffers⟩, hown⟩ := h.names.own hv
  have hkind := kind?_eq_some.2 ⟨value, hvalue, rfl⟩
  cases hcase : value.kind with
  | argument g k =>
    rw [hcase] at hoffers hkind
    obtain ⟨rfl, func₀, hf₀, hparam⟩ := hoffers
    obtain rfl := Option.some.inj (h.func_left.symm.trans hf₀)
    obtain ⟨p, hp, hleft⟩ := exists_of_forall₂_left (h.holds_left.params hc) hparam
    obtain ⟨w', hw', hright⟩ := exists_of_forall₂_right (h.holds_right.params hc) hp
    obtain ⟨s', hs'⟩ := Option.isSome_iff_exists.1 (h.valid.params hc p (List.mem_of_getElem? hp))
    obtain rfl := h.names.value hv (hleft s' hs')
    obtain rfl := h.meanings.value hw (hright s hs')
    obtain ⟨value', hvalue', hkind', -⟩ := (h.right.draft.funcs g func' h.func_right).params k w hw'
    exact .argument hkind (kind?_eq_some.2 ⟨value', hvalue', hkind'⟩)
  | inst i =>
    rw [hcase] at hoffers hkind
    obtain ⟨inst, hi, rfl, howner⟩ := hoffers
    obtain ⟨k, l, hleft⟩ := h.left.instAt? h.func_left hi howner
    obtain ⟨p, e, inst₀, hp, he, hi₀, hentry⟩ := h.holds_left.entry h.func_left hleft
    obtain rfl := Option.some.inj (hi.symm.trans hi₀)
    obtain ⟨j, inst', hright, hj, hentry'⟩ := h.holds_right.inst h.func_right hp he
    -- The value can be read, so its instruction is not void, and has a name.
    have hresult : e.statement.operation.resultType ≠ .void := by
      obtain ⟨value', hvalue', hty'⟩ := typeOf?_eq_some.1 (h.left.typed i inst hi).1
      obtain rfl := Option.some.inj (hvalue.symm.trans hvalue')
      have hresultType : value.ty = e.statement.operation.resultType := by
        rw [hty', hentry.spec]; rfl
      exact hresultType ▸ hty
    obtain ⟨s', hs'⟩ := Option.isSome_iff_exists.1
      (((h.valid.paragraphs p (List.mem_of_getElem? hp)).entries e
        (List.mem_of_getElem? he)).named.2 hresult)
    obtain rfl := h.names.value hv (hentry.result s' hs').1
    obtain rfl := h.meanings.value hw (hentry'.result s hs').1
    obtain ⟨value', hvalue', hkind'⟩ := h.right.intact.shaped.result j inst' hj
    exact .result hkind (kind?_eq_some.2 ⟨value', hvalue', hkind'⟩) hleft hright
  | placeholder =>
    rw [hcase] at hoffers
    exact hoffers.elim
  | _ =>
    rw [hcase] at hkind
    exact absurd trivial (hown _ hkind)

/-- A block whose label is left out stands first. -/
lemma position_of_label_none (h : c.Valid) {k : Nat} {p : Paragraph}
    (hp : c.paragraphs[k]? = some p) (hlabel : p.label = none) : k = 0 := by
  cases k with
  | zero => rfl
  | succ k =>
    have hmem : p ∈ c.paragraphs.tail := List.mem_of_getElem? ((List.getElem?_tail ..).trans hp)
    have := h.labels p hmem
    simp [hlabel] at this

/-- Targets that are written alike correspond. -/
lemma sameBlock (h : Twins m n f func func' S T c) {l : String} {b d : BlockId}
    (hb : S.labels l b) (hd : T.labels l d) : m.SameBlock n f b d := by
  obtain ⟨k, hk⟩ := Array.mem_iff_getElem?.1 (h.names.placed hb)
  obtain ⟨k', hk'⟩ := Array.mem_iff_getElem?.1 (h.meanings.placed hd)
  suffices hkk : k = k' by
    subst hkk
    exact ⟨k, (blockAt?_eq h.func_left k).trans hk, (blockAt?_eq h.func_right k).trans hk'⟩
  rw [← Array.getElem?_toList] at hk hk'
  obtain ⟨p, hp, hleft⟩ := exists_of_forall₂_left h.holds_left.paragraphs hk
  cases hlabel : p.label with
  | some l' =>
    -- The block at the same position in the other function has the label that is looked for.
    obtain rfl := h.names.block hb (hleft.label l' hlabel)
    obtain ⟨d', hd', hright⟩ := exists_of_forall₂_right h.holds_right.paragraphs hp
    obtain rfl := h.meanings.label hd (hright.label l hlabel)
    have hnodup := h.right.intact.shaped.placedOnce f func' h.func_right
    exact (List.getElem?_inj (List.getElem?_eq_some_iff.1 hd').1 hnodup).1 (hd'.trans hk'.symm)
  | none =>
    obtain rfl := position_of_label_none h.valid hp hlabel
    obtain ⟨p', hp', hright'⟩ := exists_of_forall₂_left h.holds_right.paragraphs hk'
    cases hlabel' : p'.label with
    | none => exact (position_of_label_none h.valid hp' hlabel').symm
    | some l' =>
      -- No other block is labelled like one whose label is left out.
      obtain rfl := h.meanings.apart hd (hright'.label l' hlabel')
      obtain ⟨b', hb', hleft'⟩ := exists_of_forall₂_right h.holds_left.paragraphs hp'
      obtain ⟨block, hblock, hname, -⟩ := hleft.block
      rw [hlabel] at hname
      obtain rfl := h.names.apart hblock hname hb (hleft'.label l hlabel')
      have hnodup := h.left.intact.shaped.placedOnce f func h.func_left
      exact (List.getElem?_inj (List.getElem?_eq_some_iff.1 hk).1 hnodup).1 (hk.trans hb'.symm)

lemma sameInst (h : Twins m n f func func' S T c) {p : Paragraph} (hp : p ∈ c.paragraphs)
    {e : Entry} (he : e ∈ p.entries) {inst inst' : Inst} (hleft : m.HoldsEntry S inst e)
    (hright : n.HoldsEntry T inst' e) : m.SameInst n f inst inst' := by
  have hc : c.paragraphs ≠ [] := List.ne_nil_of_mem hp
  refine ⟨?_, ?_, ?_, fun hty => ?_⟩
  · rw [hleft.spec, hright.spec]
    rfl
  · exact forall₂_of_common hleft.operands.flip hright.operands.flip
      fun _ _ _ _ _ _ _ hv hw => h.sameValue hc hv hw
  · exact forall₂_of_common hleft.targets.flip hright.targets.flip
      fun _ _ _ _ _ _ _ hb hd => h.sameBlock hb hd
  · have hresult : e.statement.operation.resultType ≠ .void := by
      rw [hleft.spec] at hty
      exact hty
    obtain ⟨s, hs⟩ :=
      Option.isSome_iff_exists.1 (((h.valid.paragraphs p hp).entries e he).named.2 hresult)
    rw [(hleft.result s hs).2, (hright.result s hs).2]

lemma sameInsts (h : Twins m n f func func' S T c) {p : Paragraph} (hp : p ∈ c.paragraphs)
    {b d : BlockId} (hleft : m.HoldsParagraph S b p) (hright : n.HoldsParagraph T d p) :
    m.SameInsts n f b d := by
  obtain ⟨block, hblock, hname, hentries⟩ := hleft.block
  obtain ⟨block', hblock', hname', hentries'⟩ := hright.block
  refine ⟨block, block', hblock, hblock', hname'.trans hname.symm, ?_⟩
  refine forall₂_of_common hentries hentries' fun k i j e _ _ he => ?_
  rintro ⟨inst, hi, hentry⟩ ⟨inst', hj, hentry'⟩
  exact ⟨inst, inst', hi, hj, h.sameInst hp (List.mem_of_getElem? he) hentry hentry'⟩

/-- Functions that hold one chapter correspond. -/
lemma sameFunc (h : Twins m n f func func' S T c) : m.SameFunc n f func func' := by
  obtain ⟨⟨hleft, -, hblocks⟩, ⟨hright, -, hblocks'⟩⟩ := And.intro h.holds_left h.holds_right
  refine ⟨hright.name.trans hleft.name.symm, hright.returnType.trans hleft.returnType.symm,
    hright.linkage.trans hleft.linkage.symm, hright.attrs.trans hleft.attrs.symm,
    hright.vararg.trans hleft.vararg.symm, ?_, fun hdefined => ?_, ?_⟩
  · refine List.forall₂_eq_eq_eq ▸ List.forall₂_map_left_iff.2 (List.forall₂_map_right_iff.2 ?_)
    exact forall₂_of_common hright.params hleft.params fun _ _ _ _ _ _ _ hv hw =>
      hv.ty.trans hw.ty.symm
  · have hc : c.paragraphs ≠ [] := by
      intro hnil
      rw [hnil, List.forall₂_nil_right_iff, Array.toList_eq_nil_iff] at hblocks
      simp [Func.isDeclaration, hblocks] at hdefined
    refine List.forall₂_eq_eq_eq ▸ List.forall₂_map_left_iff.2 (List.forall₂_map_right_iff.2 ?_)
    refine forall₂_of_common hright.params hleft.params fun _ _ _ p _ _ hp hv hw => ?_
    obtain ⟨s, hs⟩ := Option.isSome_iff_exists.1 (h.valid.params hc p (List.mem_of_getElem? hp))
    exact (hv.name s hs).trans (hw.name s hs).symm
  · exact forall₂_of_common hblocks hblocks'
      fun _ _ _ p _ _ hp hb hd => h.sameInsts (List.mem_of_getElem? hp) hb hd

end Twins

end Same

end Module
end SsaFold
