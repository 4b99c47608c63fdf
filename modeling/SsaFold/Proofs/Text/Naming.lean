import SsaFold.Proofs.Text.Chapter
import SsaFold.Proofs.Text.Lexing
import SsaFold.Text.Printer

/-!
# Names in print

What has no name is printed under its number.  A number belongs to one thing
(`Module.numbering_inj`), and everything without a name that is printed has one
(`Module.Complete.exists_number`); so the name in print, `Printing.valueName` or
`Printing.blockName`, is a text of its own for whatever has no name.

The names in print make up the scope of a function that is printed (`Printing.scope`).  An operand
is printed as the atom that stands for it there (`Printing.Spelled`).
-/

namespace SsaFold

open Text

namespace Module

/-! ## Numbers -/

section Numbering

variable {m : Module} {func : Func} {x y : Slotted} {k : Nat}

/-- What has a number stands at this position. -/
lemma slotted_of_numbering (h : (m.numbering func)[x]? = some k) :
    (m.slotted func)[k]? = some x := by
  rw [numbering, Std.HashMap.ofList_eq_insertMany_empty, Std.HashMap.getElem?_insertMany_list,
    Std.HashMap.getElem?_empty, Option.or_none, List.findSomeRev?_eq_findSome?_reverse] at h
  obtain ⟨⟨y, j⟩, hmem, h⟩ := List.exists_of_findSome?_eq_some h
  dsimp only at h
  split_ifs at h with heq
  obtain rfl := Option.some.inj h
  obtain rfl := eq_of_beq heq
  exact List.mem_zipIdx_iff_getElem?.1 (List.mem_reverse.1 hmem)

lemma numbering_inj (hx : (m.numbering func)[x]? = some k) (hy : (m.numbering func)[y]? = some k) :
    x = y :=
  Option.some.inj ((slotted_of_numbering hx).symm.trans (slotted_of_numbering hy))

lemma exists_number (hx : x ∈ m.slotted func) : ∃ k, (m.numbering func)[x]? = some k := by
  have hmem : x ∈ m.numbering func := by
    rw [numbering, Std.HashMap.mem_ofList, List.zipIdx_map_fst]
    simpa using hx
  exact Option.isSome_iff_exists.1 (Std.HashMap.mem_iff_isSome_getElem?.1 hmem)

/-- The value is a parameter of the function, or what an instruction in one of its blocks
returns. -/
def IsLocal (m : Module) (func : Func) (v : ValueId) : Prop :=
  v ∈ func.params ∨ ∃ b ∈ func.layout, ∃ block, m.block? b = some block ∧
    ∃ i ∈ block.insts, ∃ inst, m.inst? i = some inst ∧ inst.ty ≠ .void ∧ inst.result = v

/-- What the instructions of a block return, in order. -/
def results (m : Module) (block : Block) : List ValueId :=
  ((block.insts.toList.filterMap m.inst?).filter fun inst => !inst.ty.isVoid).map Inst.result

lemma mem_results {block : Block} {v : ValueId} : v ∈ m.results block ↔
    ∃ i ∈ block.insts, ∃ inst, m.inst? i = some inst ∧ inst.ty ≠ .void ∧ inst.result = v := by
  have hvoid : ∀ ty : Ty, (!ty.isVoid) = true ↔ ty ≠ .void := fun ty => by simp [← Ty.isVoid_iff]
  simp only [results, List.mem_filter, List.mem_map, List.mem_filterMap,
    Array.mem_toList_iff, hvoid]
  grind

lemma mem_unnamedResults {block : Block} {v : ValueId} : v ∈ m.unnamedResults block ↔
    (∃ i ∈ block.insts, ∃ inst, m.inst? i = some inst ∧ inst.ty ≠ .void ∧ inst.result = v) ∧
      m.isUnnamed v = true := by
  rw [← mem_results]
  exact List.mem_filter

/-- What is numbered in a block: its label, and its results. -/
def slottedIn (m : Module) (b : BlockId) : List Slotted :=
  match m.block? b with
  | some block =>
    (if block.name.isNone then [.block b] else []) ++ (m.unnamedResults block).map .value
  | none => []

lemma slotted_eq (m : Module) (func : Func) : m.slotted func =
    (func.params.filter m.isUnnamed).map .value ++ func.layout.toList.flatMap m.slottedIn := rfl

lemma mem_slottedIn {b : BlockId} : x ∈ m.slottedIn b ↔ ∃ block, m.block? b = some block ∧
    (x = .block b ∧ block.name = none ∨ ∃ v ∈ m.unnamedResults block, x = .value v) := by
  rw [slottedIn]
  cases m.block? b with
  | none => simp
  | some block =>
    simp only [List.mem_append, List.mem_map, Option.some.injEq, exists_eq_left']
    cases block.name <;> simp [eq_comm (a := x)]

/-- The values that are numbered. -/
lemma value_mem_slotted_iff {v : ValueId} :
    .value v ∈ m.slotted func ↔ m.IsLocal func v ∧ m.isUnnamed v = true := by
  simp only [slotted_eq, IsLocal, List.mem_append, List.mem_map, List.mem_filter,
    Slotted.value.injEq, List.mem_flatMap, mem_slottedIn, Array.mem_toList_iff, mem_unnamedResults,
    reduceCtorEq, false_and, false_or]
  grind

/-- The blocks that are numbered. -/
lemma block_mem_slotted_iff {b : BlockId} : .block b ∈ m.slotted func ↔
    b ∈ func.layout ∧ ∃ block, m.block? b = some block ∧ block.name = none := by
  simp only [slotted_eq, List.mem_append, List.mem_map, List.mem_flatMap, mem_slottedIn,
    Array.mem_toList_iff, Slotted.block.injEq, reduceCtorEq, and_false, exists_false, or_false,
    false_or]
  grind

/-- A placed block without a name is numbered. -/
lemma block_mem_slotted {b : BlockId} (hb : b ∈ func.layout) {block : Block}
    (hblock : m.block? b = some block) (hname : block.name = none) : .block b ∈ m.slotted func :=
  block_mem_slotted_iff.2 ⟨hb, block, hblock, hname⟩

/-- What belongs to a function and can be read in it is a parameter or is returned in it. -/
lemma Complete.isLocal (h : m.Complete) {f : FuncId} (hf : m.func? f = some func) {v : ValueId}
    (hv : m.Visible f v) (hown : ∀ kind, m.kind? v = some kind → ¬ kind.IsShared) :
    m.IsLocal func v := by
  obtain ⟨value, hvalue, hty, hoffers⟩ := hv
  cases hkind : value.kind with
  | argument g k =>
    rw [hkind] at hoffers
    obtain ⟨-, func', hf', hparam⟩ := hoffers
    obtain rfl := Option.some.inj (hf.symm.trans hf')
    exact .inl (List.mem_of_getElem? hparam)
  | inst i =>
    rw [hkind] at hoffers
    obtain ⟨inst, hi, rfl, howner⟩ := hoffers
    obtain ⟨block, hblock, hmem⟩ := (h.intact.shaped.held i inst.parent).2 ⟨inst, hi, rfl⟩
    obtain ⟨value', hvalue', hty'⟩ := typeOf?_eq_some.1 (h.typed i inst hi).1
    obtain rfl := Option.some.inj (hvalue.symm.trans hvalue')
    exact .inr ⟨_, h.mem_layout hf howner, block, hblock, i, hmem, inst, hi, hty' ▸ hty, rfl⟩
  | placeholder =>
    rw [hkind] at hoffers
    exact hoffers.elim
  | _ => exact absurd trivial (hown _ (kind?_eq_some.2 ⟨value, hvalue, hkind⟩))

/-- What belongs to a function and can be read in it is numbered, if it has no name. -/
lemma Complete.value_mem_slotted (h : m.Complete) {f : FuncId} (hf : m.func? f = some func)
    {v : ValueId} (hv : m.Visible f v) (hown : ∀ kind, m.kind? v = some kind → ¬ kind.IsShared)
    (hname : m.nameOf? v = none) : .value v ∈ m.slotted func := by
  refine value_mem_slotted_iff.2 ⟨h.isLocal hf hv hown, ?_⟩
  obtain ⟨value, hvalue, -⟩ := hv
  have : value.name = none := by simpa [nameOf?, hvalue] using hname
  simp [isUnnamed, hvalue, this]

end Numbering

end Module

namespace Text

/-! ## Names -/

lemma isPlain_toString (n : Nat) : isPlain (toString n) = true := by
  rw [isPlain, toList_toString, Bool.and_eq_true]
  refine ⟨by simp [Nat.toDigits_ne_nil], List.all_eq_true.2 fun c hc => ?_⟩
  exact isNameChar_of_isDigit (isDigit_toDigits n c hc)

lemma quotable_toString (n : Nat) : Quotable (toString n) := by
  rw [← String.ofList_toList (s := toString n), toList_toString]
  exact quotable_of_isNameChar fun c hc => isNameChar_of_isDigit (isDigit_toDigits n c hc)

lemma toString_inj {k k' : Nat} (h : toString k = toString k') : k = k' := by
  have hdigits := congrArg (fun s : String => digits? s.toList) h
  simpa [toList_toString, digits?_toDigits] using hdigits

lemma isPlain_of_isLabel {s : String} (h : IsLabel s) : isPlain s = true := by
  rcases h with ⟨c, cs, hs, hc, hcs, -⟩ | hnumbered
  · rw [isPlain, hs]
    simpa using ⟨isNameChar_of_isWordStart hc, hcs⟩
  · rw [isNumbered, Bool.and_eq_true, List.all_eq_true] at hnumbered
    rw [isPlain, Bool.and_eq_true, List.all_eq_true]
    exact ⟨hnumbered.1, fun c hc => isNameChar_of_isDigit (hnumbered.2 c hc)⟩

lemma quotable_of_isLabel {s : String} (h : IsLabel s) : Quotable s := by
  have hplain := isPlain_of_isLabel h
  rw [isPlain, Bool.and_eq_true, List.all_eq_true] at hplain
  rw [← String.ofList_toList (s := s)]
  exact quotable_of_isNameChar hplain.2

lemma nameable_of_isWord {name : Option String} (h : ∀ s, name = some s → IsWord s) :
    Nameable name := by
  intro s hs
  refine ⟨quotable_of_isLabel (.inl (h s hs)), ?_⟩
  obtain ⟨c, cs, hcs, hc, -⟩ := h s hs
  simp [isNumbered, hcs, not_isDigit_of_isWordStart hc]

namespace Printing

/-- What a function is printed with. -/
abbrev of (m : Module) (func : Func) : Printing := ⟨m, m.numbering func⟩

variable (p : Printing)

/-- A name, or the number that stands for it. -/
def rawName (name : Option String) (owner : Module.Slotted) : String :=
  name.getD (toString (p.slots[owner]?.getD 0))

/-- The name of a value in print. -/
def valueName (v : ValueId) : String := p.rawName (p.module.nameOf? v) (.value v)

/-- The label of a block in print. -/
def blockName (b : BlockId) : String :=
  p.rawName ((p.module.block? b).bind Block.name) (.block b)

variable {p} {name : Option String} {owner : Module.Slotted}

/-- Something with a name or a number is written so. -/
lemma nameOrSlot_eq (h : name = none → ∃ k, p.slots[owner]? = some k) (text : String) :
    p.nameOrSlot name owner text = nameText (p.rawName name owner) := by
  cases name with
  | some s => rfl
  | none =>
    obtain ⟨k, hk⟩ := h rfl
    simp only [nameOrSlot, rawName, hk, Option.getD_none, Option.getD_some, nameText,
      isPlain_toString, if_true]

/-- A name in print is kept as the name that is printed. -/
lemma keptName_rawName (hname : Nameable name) : keptName (p.rawName name owner) = name := by
  cases name with
  | some s => exact keptName_eq_some.2 ⟨rfl, (hname s rfl).2⟩
  | none => exact keptName_toString _

lemma quotable_rawName (hname : Nameable name) : Quotable (p.rawName name owner) := by
  cases name with
  | some s => exact (hname s rfl).1
  | none => exact quotable_toString _

/-- Names in print are the same only if the names are, or if the numbers are. -/
lemma rawName_inj {name' : Option String} {owner' : Module.Slotted} (hname : Nameable name)
    (hname' : Nameable name') (hnumber : name = none → ∃ k, p.slots[owner]? = some k)
    (hnumber' : name' = none → ∃ k, p.slots[owner']? = some k)
    (heq : p.rawName name owner = p.rawName name' owner') :
    name' = name ∧ (name = none → ∃ k, p.slots[owner]? = some k ∧ p.slots[owner']? = some k) := by
  have hsame : name' = name := by
    have hkept : keptName (p.rawName name owner) = name := keptName_rawName hname
    rw [← hkept, heq, keptName_rawName hname']
  refine ⟨hsame, fun hnone => ?_⟩
  obtain rfl := hsame
  obtain rfl := hnone
  obtain ⟨k, hk⟩ := hnumber rfl
  obtain ⟨k', hk'⟩ := hnumber' rfl
  simp only [rawName, hk, hk', Option.getD_none, Option.getD_some] at heq
  exact ⟨k, hk, toString_inj heq ▸ hk'⟩

end Printing

/-! ## The scope of a function in print -/

namespace Printing

section Scope

variable (p : Printing)

/-- The atom that stands for a value. -/
def atom? (v : ValueId) : Option Atom :=
  match p.module.kind? v with
  | some (.constInt c) => some (if c.bits = 1 then .bool (c.value ≠ 0) else .int c.value)
  | some .null => some .null
  | some (.function f) => (p.module.func? f).map fun func => .globalName func.name
  | some (.global g) => (p.module.global? g).map fun glob => .globalName glob.name
  | some (.argument _ _) | some (.inst _) | some .placeholder => some (.localName (p.valueName v))
  | none => none

/-- What is printed stands for what it is printed for. -/
def scope (f : FuncId) (func : Func) : Scope where
  denotes a v := p.atom? v = some a.atom ∧ p.module.typeOf? v = some a.ty ∧ p.module.Visible f v
  labels l b := b ∈ func.layout ∧ p.blockName b = l

variable {p}

/-- A local name is written for a value with this name that belongs to the function. -/
lemma atom?_eq_localName {v : ValueId} {s : String} (h : p.atom? v = some (.localName s)) :
    s = p.valueName v ∧ ∀ kind, p.module.kind? v = some kind → ¬ kind.IsShared := by
  rw [atom?] at h
  split at h
  · split_ifs at h <;> cases h
  · cases h
  · cases hfunc : p.module.func? _ <;> rw [hfunc] at h <;> cases h
  · cases hglob : p.module.global? _ <;> rw [hglob] at h <;> cases h
  all_goals
    rename_i hkind
    first
    | cases h; done
    | refine ⟨(Atom.localName.inj (Option.some.inj h)).symm, fun kind hkind' hshared => ?_⟩
      obtain rfl := Option.some.inj (hkind.symm.trans hkind')
      exact hshared

end Scope

/-- Blocks have one name in print only if they have one name, and then they are the same if they
have none. -/
lemma blockName_inj {m : Module} (hm : m.Complete) {f : FuncId} {func : Func}
    (hf : m.func? f = some func) {b c : BlockId} (hb : b ∈ func.layout) (hc : c ∈ func.layout)
    (heq : (of m func).blockName b = (of m func).blockName c) :
    ∃ block block', m.block? b = some block ∧
      m.block? c = some block' ∧ block'.name = block.name ∧ (block.name = none → b = c) := by
  obtain ⟨block, hblock, hword⟩ := (hm.draft.funcs f func hf).labels b hb
  obtain ⟨block', hblock', hword'⟩ := (hm.draft.funcs f func hf).labels c hc
  simp only [blockName, hblock, hblock', Option.bind_some] at heq
  obtain ⟨hsame, hnumbers⟩ := rawName_inj (nameable_of_isWord hword) (nameable_of_isWord hword')
    (fun hname => Module.exists_number (Module.block_mem_slotted hb hblock hname))
    (fun hname => Module.exists_number (Module.block_mem_slotted hc hblock' hname)) heq
  refine ⟨block, block', hblock, hblock', hsame, fun hname => ?_⟩
  obtain ⟨k, hk, hk'⟩ := hnumbers hname
  exact Module.Slotted.block.inj (Module.numbering_inj hk hk')

/-- In the scope of a function in print a thing has one name. -/
lemma oneName {m : Module} (hm : m.Complete) {f : FuncId} {func : Func}
    (hf : m.func? f = some func) :
    Module.OneName m f func ((of m func).scope f func) where
  own := fun ⟨hatom, _, hvisible⟩ => ⟨hvisible, (atom?_eq_localName hatom).2⟩
  value := fun ⟨hatom, _⟩ ⟨hatom', _⟩ =>
    (atom?_eq_localName hatom).1.trans (atom?_eq_localName hatom').1.symm
  block := fun ⟨_, hl⟩ ⟨_, hl'⟩ => hl.symm.trans hl'
  apart := by
    rintro l b b' block hblock hname ⟨hb, hl⟩ ⟨hb', hl'⟩
    obtain ⟨block₀, _, hblock₀, -, -, hsame⟩ := blockName_inj hm hf hb hb' (hl.trans hl'.symm)
    obtain rfl := Option.some.inj (hblock.symm.trans hblock₀)
    exact hsame hname
  placed := fun ⟨hb, _⟩ => hb

end Printing

end Text
end SsaFold
