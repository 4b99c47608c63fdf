import Mathlib.Data.List.Perm.Subperm
import SsaFold.Proofs.Mirror.Pipeline
import SsaFold.Proofs.Text.AcceptedTexts
import SsaFold.Proofs.Text.References

/-!
# Prints that are read

What is printed of a module that has been read is coherent: names tell apart what has one, numbers
what has none (`Printable.coherent`).  So it depends on the numbers in print alone whether the print
is read (`ofText_ok_iff`).

One number in print is not written where it is given.  If the first block has no name, then its
label is left out, and the reader gives it the number behind the parameters (`Module.entrySlot`).
This is the number under which the block is referred to (`Module.Complete.rereadable`), unless a
parameter has a name that moves the counter, which digits behind a plus sign do.
`Module.Rereadable` says what is needed then, and `Module.accepts_print_iff` that nothing else is,
before and after the simplifier.
-/

namespace SsaFold

open Text

/-- Under the scope the name stands for the value, which has this type. -/
def Text.Scope.Binds (S : Scope) (x : String × Ty) (v : ValueId) : Prop :=
  S.denotes ⟨x.2, .localName x.1⟩ v

namespace Module

variable {m : Module} {f : FuncId} {func : Func} {c : Chapter} {v : ValueId} {b : BlockId} {k : Nat}

/-! ## What a chapter defines -/

section Bindings

variable {S : Scope}

/-- The instructions of a block return what their lines define. -/
lemma HoldsParagraph.bindings {p : Paragraph} (h : m.HoldsParagraph S b p) (hp : p.Valid) :
    List.Forall₂ S.Binds p.bindings (m.resultsIn b) := by
  obtain ⟨block, hblock, -, hentries⟩ := h.block
  have hvalid := forall₂_imp_mem hentries.flip fun e he i hi => And.intro (hp.entries e he) hi
  simp only [resultsIn, hblock, results, Paragraph.bindings]
  generalize p.entries = es at hvalid
  generalize block.insts.toList = is at hvalid
  induction hvalid with
  | nil => exact .nil
  | @cons e i es is hhead _ ih =>
    obtain ⟨he, inst, hi, hentry⟩ := hhead
    have hty : inst.ty = e.statement.operation.resultType := congrArg InstSpec.ty hentry.spec
    rw [List.flatMap_cons, List.filterMap_cons_some hi]
    cases hname : e.name with
    | none =>
      have hvoid : inst.ty.isVoid = true := by rw [hty, he.resultType_eq_void hname]; rfl
      simpa [Entry.bindings, hname, hvoid] using ih
    | some n =>
      have hvoid : inst.ty.isVoid = false := by
        rw [← Bool.not_eq_true, Ty.isVoid_iff, hty]
        exact he.named.1 (by rw [hname]; rfl)
      simp only [Entry.bindings, hname, hvoid, Option.toList_some, List.map_cons, List.map_nil,
        List.filter_cons, Bool.not_false, if_true, List.singleton_append]
      exact .cons (hty ▸ (hentry.result n hname).1) ih

lemma HoldsChapter.params_bindings (h : m.HoldsChapter S func c) (hc : c.Valid)
    (hdefined : c.paragraphs ≠ []) :
    List.Forall₂ S.Binds (c.header.params.flatMap Param.bindings) func.params := by
  have hparams := forall₂_imp_mem (h.params hdefined).flip fun p hp v hv =>
    And.intro (hc.params hdefined p hp) hv
  rw [← List.flatMap_singleton' func.params]
  refine List.rel_flatMap hparams ?_
  rintro p v ⟨hname, hv⟩
  obtain ⟨n, hn⟩ := Option.isSome_iff_exists.1 hname
  rw [Param.bindings, hn]
  exact .cons (hv n hn) .nil

/-- The lines of a definition define its parameters and results. -/
lemma HoldsChapter.bindings (h : m.HoldsChapter S func c) (hc : c.Valid)
    (hdefined : c.paragraphs ≠ []) :
    List.Forall₂ S.Binds c.bindings (m.locals func) := by
  have hresults := forall₂_imp_mem h.paragraphs.flip fun p hp b hb =>
    hb.bindings (hc.paragraphs p hp)
  exact List.rel_append (h.params_bindings hc hdefined) (List.rel_flatMap hresults fun _ _ => id)

end Bindings

/-! ## Names in print -/

section Printed

open Printing

/-- What is bound in print is bound under its name in print. -/
lemma map_fst_of_binds {xs : List (String × Ty)} {vs : List ValueId}
    (h : List.Forall₂ ((of m func).scope f func).Binds xs vs) :
    xs.map Prod.fst = vs.map (of m func).valueName := by
  rw [← List.forall₂_eq_eq_eq, List.forall₂_map_left_iff, List.forall₂_map_right_iff]
  exact h.imp fun x v hx => (atom?_eq_localName hx.1).1

/-- The counter of the reader behind the parameters of the function in print. -/
def entrySlot (m : Module) (func : Func) : Nat :=
  func.params.foldl (fun n v => Body.slotAfter ((of m func).valueName v) n) 0

lemma HoldsChapter.entrySlot_eq (h : m.HoldsChapter ((of m func).scope f func) func c)
    (hc : c.Valid) (hdefined : c.paragraphs ≠ []) : c.entrySlot = m.entrySlot func := by
  rw [Chapter.entrySlot, ← map_fst_bindings, map_fst_of_binds (h.params_bindings hc hdefined),
    entrySlot, List.foldl_map]

section Operands

variable {a : TypedAtom} {names : List (String × Ty)}
  (hnames : List.Forall₂ ((of m func).scope f func).Binds names (m.locals func))
  (ha : ((of m func).scope f func).denotes a v)

include hnames ha

/-- A parameter or result is read under the name that it has where it is defined. -/
lemma fits_of_isLocal (hv : m.IsLocal func v) (globals : List String) : a.Fits globals names := by
  obtain ⟨ty, atom⟩ := a
  obtain ⟨hatom, hty, -⟩ := ha
  obtain ⟨j, hj⟩ := List.mem_iff_getElem?.1 (mem_locals.2 hv)
  obtain ⟨⟨n, ty'⟩, hx, hatom', hty', -⟩ := exists_of_forall₂_right hnames hj
  obtain rfl : atom = .localName n := Option.some.inj (hatom.symm.trans hatom')
  obtain rfl : ty = ty' := Option.some.inj (hty.symm.trans hty')
  exact List.mem_of_getElem? hx

/-- An operand in print is a constant, or it is defined at its type. -/
lemma Complete.operand_fits (h : m.Complete) (hf : m.func? f = some func) :
    a.Fits (m.globals.toList.map Global.name ++ m.functions.toList.map Func.name) names := by
  have hlocal := fun hv => fits_of_isLocal hnames ha hv
    (m.globals.toList.map Global.name ++ m.functions.toList.map Func.name)
  obtain ⟨ty, atom⟩ := a
  obtain ⟨hatom, hty, hvisible⟩ := ha
  obtain ⟨value, hvalue, rfl⟩ := typeOf?_eq_some.1 hty
  have hkind := kind?_eq_some.2 ⟨value, hvalue, rfl⟩
  have hfits := h.intact.shaped.fits v value hvalue
  simp only [atom?, hkind] at hatom
  cases hcase : value.kind with
  | constInt n =>
    rw [hcase] at hatom hfits
    dsimp only at hatom
    split_ifs at hatom with hbits
    · obtain rfl := Option.some.inj hatom
      exact hfits.trans (by rw [IntConst.ty, hbits])
    · obtain rfl := Option.some.inj hatom
      exact ⟨n.bits, hfits⟩
  | null =>
    rw [hcase] at hatom hfits
    obtain rfl := Option.some.inj hatom
    exact hfits
  | function g =>
    rw [hcase] at hatom hfits
    obtain ⟨func', hg, rfl⟩ := Option.map_eq_some_iff.1 hatom
    exact ⟨hfits, List.mem_append_right _
      (List.mem_map_of_mem (Array.mem_toList_iff.2 (Array.mem_of_getElem? hg)))⟩
  | global g =>
    rw [hcase] at hatom hfits
    obtain ⟨glob, hg, rfl⟩ := Option.map_eq_some_iff.1 hatom
    exact ⟨hfits, List.mem_append_left _
      (List.mem_map_of_mem (Array.mem_toList_iff.2 (Array.mem_of_getElem? hg)))⟩
  | _ =>
    refine hlocal (h.isLocal hf hvisible fun kind hkind' => ?_)
    obtain rfl := Option.some.inj (hkind.symm.trans hkind')
    rw [hcase]
    exact id

end Operands

/-- A block of a module that can be printed ends with its only terminator. -/
lemma Printable.ends (h : m.Printable) {block : Block} (hblock : m.block? b = some block) :
    m.Ends block := by
  obtain ⟨i, hi, inst, hinst, hterminator⟩ := h.anchored b block hblock
  obtain ⟨init, rest, hlist⟩ := List.append_of_mem (Array.mem_toList_iff.2 hi)
  have hends := h.complete.ends b block hblock
  rw [hlist, List.pairwise_append] at hends
  obtain ⟨-, hrest, hinit⟩ := hends
  cases rest with
  | nil =>
    exact ⟨init, i, inst, hlist, hinst, hterminator, fun j hj => hinit j hj i List.mem_cons_self⟩
  | cons j rest =>
    -- Nothing stands behind the terminator.
    have hnot := (List.pairwise_cons.1 hrest).1 j List.mem_cons_self inst hinst
    exact absurd (hterminator.symm.trans hnot) (by simp)

/-- A definition in print is coherent, if names tell apart what they are given to. -/
lemma Printable.coherent (h : m.Printable) (hf : m.func? f = some func) (hapart : m.NamesApart f)
    (hholds : m.HoldsChapter ((of m func).scope f func) func c) (hc : c.Valid)
    (hdefined : c.paragraphs ≠ []) :
    c.Coherent (m.globals.toList.map Global.name ++ m.functions.toList.map Func.name) := by
  have hnames := hholds.bindings hc hdefined
  refine ⟨?_, fun p hp e he a ha => ?_, fun p hp => ?_⟩
  · rw [map_fst_of_binds hnames]
    exact (h.complete.locals_nodup hf).map_on fun v hv w hw =>
      h.eq_of_valueName hf hapart (mem_locals.1 hv) (mem_locals.1 hw)
  · obtain ⟨d, -, hp⟩ := exists_mem_of_forall₂ hholds.paragraphs p hp
    obtain ⟨block, -, -, hentries⟩ := hp.block
    obtain ⟨i, -, inst, -, hentry⟩ := exists_mem_of_forall₂ hentries e he
    obtain ⟨v, -, hv⟩ := exists_mem_of_forall₂ hentry.operands.flip a ha
    exact h.complete.operand_fits hnames hv hf
  · obtain ⟨d, -, hp⟩ := exists_mem_of_forall₂ hholds.paragraphs p hp
    exact hp.closes fun block hblock => h.ends hblock

/-! ## Numbers in print -/

/-- The first block of the function has no name, and it is referred to under this number. -/
def EntryNumber (m : Module) (func : Func) (b : BlockId) (k : Nat) : Prop :=
  func.layout[0]? = some b ∧ (m.numbering func)[Slotted.block b]? = some k

/-- The numbers of the function in print suit the reader. -/
structure Rereadable (m : Module) (func : Func) : Prop where
  /-- The numbers of parameters and results leave room, -/
  valueRoom : ∀ v k, (m.numbering func)[Slotted.value v]? = some k → k + 1 ≠ slotBound
  /-- and so do the labels that are numbers. -/
  blockRoom : ∀ b k, (m.numbering func)[Slotted.block b]? = some k → func.layout[0]? ≠ some b →
    k + 1 ≠ slotBound
  /-- If the first label is left out, then the number that the block is given leaves room, -/
  entryRoom : ∀ b k, m.EntryNumber func b k → m.entrySlot func + 1 ≠ slotBound
  /-- no other block has it as its label, -/
  entryApart : ∀ b k, m.EntryNumber func b k → ∀ d,
    (m.numbering func)[Slotted.block d]? = some (m.entrySlot func) → d = b
  /-- and it is the number that is written in branches to the block. -/
  entryTarget : ∀ b k, m.EntryNumber func b k → ∀ i inst, m.inst? i = some inst → b ∈ inst.targets →
    k = m.entrySlot func

lemma valueName_of_number (hk : (m.numbering func)[Slotted.value v]? = some k) :
    m.IsLocal func v ∧ (of m func).valueName v = toString k := by
  obtain ⟨hlocal, hunnamed⟩ :=
    value_mem_slotted_iff.1 (List.mem_of_getElem? (slotted_of_numbering hk))
  obtain ⟨value, hvalue, hname⟩ := (Option.any_eq_true _ _).1 hunnamed
  have hnone : m.nameOf? v = none := by simpa [nameOf?, hvalue] using hname
  refine ⟨hlocal, ?_⟩
  rw [valueName, hnone, rawName, hk]
  rfl

lemma blockName_of_number (hk : (m.numbering func)[Slotted.block b]? = some k) :
    b ∈ func.layout ∧ (∃ block, m.block? b = some block ∧ block.name = none) ∧
      (of m func).blockName b = toString k := by
  obtain ⟨hb, block, hblock, hname⟩ :=
    block_mem_slotted_iff.1 (List.mem_of_getElem? (slotted_of_numbering hk))
  refine ⟨hb, ⟨block, hblock, hname⟩, ?_⟩
  rw [blockName, hblock, Option.bind_some, hname, rawName, hk]
  rfl

/-- A block is printed under its number, or under a name that is no number. -/
lemma Complete.number_or_name (h : m.Complete) (hf : m.func? f = some func) (hb : b ∈ func.layout) :
    (∃ k, (m.numbering func)[Slotted.block b]? = some k) ∨
      ∃ block n, m.block? b = some block ∧ block.func = f ∧ block.name = some n ∧
        isNumbered n = false ∧ (of m func).blockName b = n := by
  obtain ⟨block, hblock, hword⟩ := (h.draft.funcs f func hf).labels b hb
  obtain ⟨block', hblock', hfunc⟩ := h.intact.shaped.placed f func hf b hb
  obtain rfl := Option.some.inj (hblock.symm.trans hblock')
  cases hname : block.name with
  | none => exact .inl (exists_number (block_mem_slotted hb hblock hname))
  | some n =>
    refine .inr ⟨block, n, hblock, hfunc, hname, (nameable_of_isWord hword n hname).2, ?_⟩
    rw [blockName, hblock, Option.bind_some, hname]
    rfl

/-- A number as a label is the number of the block. -/
lemma Complete.number_of_blockName (h : m.Complete) (hf : m.func? f = some func)
    (hb : b ∈ func.layout) (hname : (of m func).blockName b = toString k) :
    (m.numbering func)[Slotted.block b]? = some k := by
  rcases h.number_or_name hf hb with ⟨j, hj⟩ | ⟨-, n, -, -, -, hnot, rfl⟩
  · rwa [← toString_inj ((blockName_of_number hj).2.2.symm.trans hname)]
  · rw [hname, isNumbered_toString] at hnot
    cases hnot

/-- The names of parameters and results in print leave room if their numbers do. -/
lemma Printable.hasRoom_valueName_iff (h : m.Printable) (hf : m.func? f = some func)
    (hroomy : m.NamesRoomy f) : (∀ v ∈ m.locals func, HasRoom ((of m func).valueName v)) ↔
      ∀ v k, (m.numbering func)[Slotted.value v]? = some k → k + 1 ≠ slotBound := by
  constructor
  · intro hroom v k hk
    obtain ⟨hlocal, hname⟩ := valueName_of_number hk
    exact hasRoom_toString.1 (hname ▸ hroom v (mem_locals.2 hlocal))
  · intro hroom v hv
    have hlocal := mem_locals.1 hv
    obtain ⟨-, hnumber, -⟩ := h.localName_ok_of_isLocal hf hlocal
    cases hname : m.nameOf? v with
    | some n =>
      obtain ⟨-, hof, -⟩ := h.complete.visible_of_isLocal hf hlocal
      rw [valueName, hname]
      exact hroomy.value hof hname
    | none =>
      obtain ⟨k, hk⟩ := hnumber hname
      rw [(valueName_of_number hk).2]
      exact hasRoom_toString.2 (hroom v k hk)

/-- The label of a block in print leaves room if its number does. -/
lemma Complete.hasRoom_blockName_iff (h : m.Complete) (hf : m.func? f = some func)
    (hroomy : m.NamesRoomy f) (hb : b ∈ func.layout) : HasRoom ((of m func).blockName b) ↔
      ∀ k, (m.numbering func)[Slotted.block b]? = some k → k + 1 ≠ slotBound := by
  constructor
  · intro hroom k hk
    exact hasRoom_toString.1 ((blockName_of_number hk).2.2 ▸ hroom)
  · intro hroom
    rcases h.number_or_name hf hb with ⟨k, hk⟩ | ⟨block, n, hblock, hfunc, hname, -, hn⟩
    · rw [(blockName_of_number hk).2.2]
      exact hasRoom_toString.2 (hroom k hk)
    · exact hn ▸ hroomy.block hblock hfunc hname

/-! ## Labels -/

/-- Blocks that have their labels written have their names in print. -/
lemma labelsOf_of_holds {bs : List BlockId} {ps : List Paragraph}
    (h : List.Forall₂ (m.HoldsParagraph ((of m func).scope f func)) bs ps)
    (hlabels : ∀ p ∈ ps, p.label.isSome) : labelsOf ps = bs.map (of m func).blockName := by
  induction h with
  | nil => rfl
  | @cons b p bs ps hp _ ih =>
    obtain ⟨hlabel, hlabels⟩ := List.forall_mem_cons.1 hlabels
    obtain ⟨l, hl⟩ := Option.isSome_iff_exists.1 hlabel
    rw [labelsOf, List.filterMap_cons_some hl, ← labelsOf, ih hlabels, List.map_cons,
      ← (hp.label l hl).2]

/-- Branches in print name the blocks where they go. -/
lemma HoldsChapter.labels_iff (h : m.HoldsChapter ((of m func).scope f func) func c)
    (hm : m.Complete) (hf : m.func? f = some func) {P : String → Prop} :
    (∀ p ∈ c.paragraphs, ∀ e ∈ p.entries, ∀ l ∈ e.statement.operation.labels, P l) ↔
      ∀ i inst, m.inst? i = some inst → ∀ d ∈ inst.targets, d ∈ func.layout →
        P ((of m func).blockName d) := by
  constructor
  · intro hall i inst hi d hd hplaced
    -- The instruction stands in the function to which it branches.
    obtain ⟨g, howner, -, htargets⟩ := hm.within hi
    obtain ⟨block, hblock, hhome⟩ := hm.intact.shaped.placed f func hf d hplaced
    obtain rfl : g = f :=
      Option.some.inj ((htargets d hd).symm.trans (owner?_eq_some.2 ⟨block, hblock, hhome⟩))
    obtain ⟨k, l, hl⟩ := hm.instAt? hf hi howner
    obtain ⟨p, e, inst', hp, he, hi', hentry⟩ := h.entry hf hl
    obtain rfl := Option.some.inj (hi.symm.trans hi')
    obtain ⟨l, hl, hlabel⟩ := exists_mem_of_forall₂ hentry.targets d hd
    exact hlabel.2 ▸ hall p (List.mem_of_getElem? hp) e (List.mem_of_getElem? he) l hl
  · intro hall p hp e he l hl
    obtain ⟨b, -, hparagraph⟩ := exists_mem_of_forall₂ h.paragraphs p hp
    obtain ⟨block, -, -, hentries⟩ := hparagraph.block
    obtain ⟨i, -, inst, hi, hentry⟩ := exists_mem_of_forall₂ hentries e he
    obtain ⟨d, hd, hlabel⟩ := exists_mem_of_forall₂ hentry.targets.flip l hl
    exact hlabel.2 ▸ hall i inst hi d hd hlabel.1

/-- It is enough to know the labels. -/
lemma HoldsChapter.labelsFit_iff (h : m.HoldsChapter ((of m func).scope f func) func c)
    (hm : m.Complete) (hf : m.func? f = some func) {l : String} :
    LabelsFit (firstLabelled l c.paragraphs) ↔
      (labelsOf (firstLabelled l c.paragraphs)).Nodup ∧
      (∀ l' ∈ labelsOf (firstLabelled l c.paragraphs), HasRoom l') ∧
      ∀ i inst, m.inst? i = some inst → ∀ d ∈ inst.targets, d ∈ func.layout →
        (of m func).blockName d ∈ labelsOf (firstLabelled l c.paragraphs) := by
  have hentries : ∀ {Q : List Entry → Prop}, (∀ p ∈ firstLabelled l c.paragraphs, Q p.entries) ↔
      ∀ p ∈ c.paragraphs, Q p.entries := by
    intro Q
    cases c.paragraphs <;> simp [firstLabelled]
  rw [← h.labels_iff hm hf (P := (· ∈ labelsOf (firstLabelled l c.paragraphs))),
    ← hentries (Q := fun es => ∀ e ∈ es, ∀ l' ∈ e.statement.operation.labels,
      l' ∈ labelsOf (firstLabelled l c.paragraphs))]
  exact ⟨fun h => ⟨h.once, h.room, h.targets⟩, fun h => ⟨h.1, h.2.1, h.2.2⟩⟩

/-! ### The first label -/

section FirstLabel

variable {bs : List BlockId} {l : String}
  (hholds : m.HoldsChapter ((of m func).scope f func) func c)
  (hlayout : func.layout.toList = b :: bs)

include hholds hlayout

/-- A definition in print has a first paragraph, and the others have labels. -/
lemma exists_firstParagraph (hc : c.Valid) : ∃ p ps, c.paragraphs = p :: ps ∧
    m.HoldsParagraph ((of m func).scope f func) b p ∧
      labelsOf ps = bs.map (of m func).blockName := by
  have hparagraphs := hholds.paragraphs
  rw [hlayout] at hparagraphs
  obtain ⟨p, ps, hfirst, hrest, hps⟩ := List.forall₂_cons_left_iff.1 hparagraphs
  exact ⟨p, ps, hps, hfirst, labelsOf_of_holds hrest (by simpa [hps] using hc.labels)⟩

/-- The label of a first block with a number is left out. -/
lemma labelsOf_of_number (hc : c.Valid) (hleft : LeavesOut m func c.paragraphs)
    (hk : (m.numbering func)[Slotted.block b]? = some k) :
    labelsOf (firstLabelled l c.paragraphs) = l :: bs.map (of m func).blockName := by
  obtain ⟨p, ps, hps, -, hlabels⟩ := exists_firstParagraph hholds hlayout hc
  obtain ⟨-, ⟨block, hblock, hname⟩, -⟩ := blockName_of_number hk
  have hentry : func.layout[0]? = some b := by rw [← Array.getElem?_toList, hlayout]; rfl
  have hlabel : p.label = none := hleft b block p hentry hblock hname (by rw [hps]; rfl)
  rw [hps, firstLabelled, labelsOf, List.filterMap_cons_some (by rw [hlabel]; rfl),
    ← labelsOf, hlabels]

/-- The label of a first block with a name is written. -/
lemma labelsOf_of_name (hc : c.Valid) {block : Block} {n : String}
    (hblock : m.block? b = some block) (hname : block.name = some n) :
    labelsOf (firstLabelled l c.paragraphs) = func.layout.toList.map (of m func).blockName := by
  obtain ⟨p, ps, hps, hfirst, hlabels⟩ := exists_firstParagraph hholds hlayout hc
  obtain ⟨l', hl'⟩ : ∃ l', p.label = some l' := by
    rw [← Option.isSome_iff_exists, Option.isSome_iff_ne_none]
    intro hnone
    obtain ⟨block', hblock', hname', -⟩ := hfirst.block
    obtain rfl := Option.some.inj (hblock.symm.trans hblock')
    rw [hname, hnone] at hname'
    cases hname'
  rw [hps, firstLabelled, labelsOf, List.filterMap_cons_some (by rw [hl']; rfl), ← labelsOf,
    hlabels, hlayout, List.map_cons, (hfirst.label l' hl').2]

end FirstLabel

section Fits

variable {bs : List BlockId} {l : String} (h : m.Printable) (hf : m.func? f = some func)
  (hapart : m.NamesApart f) (hroomy : m.NamesRoomy f)
  (hholds : m.HoldsChapter ((of m func).scope f func) func c)

include h hf hapart hroomy hholds

/-- If the first label is written, then only the numbers need room. -/
lemma labelsFit_of_written
    (hls : labelsOf (firstLabelled l c.paragraphs) = func.layout.toList.map (of m func).blockName) :
    LabelsFit (firstLabelled l c.paragraphs) ↔
      ∀ d j, (m.numbering func)[Slotted.block d]? = some j → j + 1 ≠ slotBound := by
  have hplaced : ∀ {d}, d ∈ func.layout.toList → d ∈ func.layout := Array.mem_toList_iff.1
  rw [hholds.labelsFit_iff h.complete hf, hls]
  constructor
  · rintro ⟨-, hroom, -⟩ d j hj
    obtain ⟨hd, -⟩ := blockName_of_number hj
    refine (h.complete.hasRoom_blockName_iff hf hroomy hd).1 (hroom _ ?_) j hj
    exact List.mem_map_of_mem (Array.mem_toList_iff.2 hd)
  · intro hroom
    refine ⟨?_, List.forall_mem_map.2 fun d hd => ?_, fun i inst _ d _ hd => ?_⟩
    · exact (h.complete.intact.shaped.placedOnce f func hf).map_on fun d hd d' hd' =>
        h.eq_of_blockName hf hapart (hplaced hd) (hplaced hd')
    · exact (h.complete.hasRoom_blockName_iff hf hroomy (hplaced hd)).2 fun j => hroom d j
    · exact List.mem_map_of_mem (Array.mem_toList_iff.2 hd)

/-- If the first label is left out, then the number that the first block is given must suit, too. -/
lemma labelsFit_of_leftOut (hlayout : func.layout.toList = b :: bs)
    (hk : (m.numbering func)[Slotted.block b]? = some k) {slot : Nat}
    (hls : labelsOf (firstLabelled l c.paragraphs)
      = toString slot :: bs.map (of m func).blockName) :
    LabelsFit (firstLabelled l c.paragraphs) ↔
      (∀ d j, (m.numbering func)[Slotted.block d]? = some j → d ≠ b → j + 1 ≠ slotBound) ∧
      slot + 1 ≠ slotBound ∧ (∀ d, (m.numbering func)[Slotted.block d]? = some slot → d = b) ∧
      ∀ i inst, m.inst? i = some inst → b ∈ inst.targets → k = slot := by
  have hplaced : ∀ {d}, d ∈ func.layout ↔ d = b ∨ d ∈ bs := by
    intro d
    rw [← Array.mem_toList_iff, hlayout, List.mem_cons]
  have honce := h.complete.intact.shaped.placedOnce f func hf
  rw [hlayout, List.nodup_cons] at honce
  obtain ⟨hnot, honce⟩ := honce
  have hname := (blockName_of_number hk).2.2
  have hrest : (bs.map (of m func).blockName).Nodup := honce.map_on fun d hd d' hd' =>
    h.eq_of_blockName hf hapart (hplaced.2 (.inr hd)) (hplaced.2 (.inr hd'))
  rw [hholds.labelsFit_iff h.complete hf, hls, List.nodup_cons, List.forall_mem_cons,
    List.forall_mem_map, hasRoom_toString]
  constructor
  · rintro ⟨⟨hnew, -⟩, ⟨hslot, hroom⟩, htargets⟩
    refine ⟨fun d j hj hne => ?_, hslot, fun d hd => ?_, fun i inst hi hb => ?_⟩
    · have hd := (blockName_of_number hj).1
      exact (h.complete.hasRoom_blockName_iff hf hroomy hd).1
        (hroom d ((hplaced.1 hd).resolve_left hne)) j hj
    · obtain ⟨hd', -, hd⟩ := blockName_of_number hd
      exact (hplaced.1 hd').resolve_right fun hmem => hnew (List.mem_map.2 ⟨d, hmem, hd⟩)
    · rcases List.mem_cons.1 (htargets i inst hi b hb (hplaced.2 (.inl rfl))) with heq | hmem
      · exact toString_inj (hname.symm.trans heq)
      · -- No other block has the number of the first one.
        obtain ⟨d, hd, heq⟩ := List.mem_map.1 hmem
        exact absurd
          (h.eq_of_blockName hf hapart (hplaced.2 (.inr hd)) (hplaced.2 (.inl rfl)) heq ▸ hd) hnot
  · rintro ⟨hroom, hslot, hnew, htargets⟩
    refine ⟨⟨fun hmem => ?_, hrest⟩, ⟨hslot, fun d hd => ?_⟩, fun i inst hi d hd hmem => ?_⟩
    · obtain ⟨d, hd, heq⟩ := List.mem_map.1 hmem
      exact hnot (hnew d (h.complete.number_of_blockName hf (hplaced.2 (.inr hd)) heq) ▸ hd)
    · refine (h.complete.hasRoom_blockName_iff hf hroomy (hplaced.2 (.inr hd))).2 fun j hj =>
        hroom d j hj ?_
      rintro rfl
      exact hnot hd
    · rcases hplaced.1 hmem with rfl | hmem
      · rw [hname, htargets i inst hi hd]
        exact List.mem_cons_self
      · exact List.mem_cons_of_mem _ (List.mem_map_of_mem hmem)

/-- A definition in print fits exactly if its numbers suit the reader. -/
lemma Printable.fits_iff (hc : c.Valid) (hleft : LeavesOut m func c.paragraphs)
    (hdefined : c.paragraphs ≠ []) : c.Fits ↔ m.Rereadable func := by
  have hfits : c.Fits ↔ (∀ x ∈ c.bindings, HasRoom x.1) ∧
      LabelsFit (firstLabelled (toString c.entrySlot) c.paragraphs) :=
    ⟨fun h => ⟨h.room, h.labels⟩, fun h => ⟨h.1, h.2⟩⟩
  have hvalues : (∀ x ∈ c.bindings, HasRoom x.1) ↔
      ∀ v k, (m.numbering func)[Slotted.value v]? = some k → k + 1 ≠ slotBound := by
    rw [← h.hasRoom_valueName_iff hf hroomy,
      ← List.forall_mem_map (f := (of m func).valueName) (P := HasRoom),
      ← map_fst_of_binds (hholds.bindings hc hdefined), List.forall_mem_map]
  obtain ⟨b, bs, hlayout⟩ : ∃ b bs, func.layout.toList = b :: bs := by
    refine List.exists_cons_of_ne_nil fun hnil => hdefined ?_
    exact List.forall₂_nil_left_iff.1 (hnil ▸ hholds.paragraphs)
  have hentry : func.layout[0]? = some b := by rw [← Array.getElem?_toList, hlayout]; rfl
  rw [hfits, hvalues, hholds.entrySlot_eq hc hdefined]
  rcases h.complete.number_or_name hf (Array.mem_of_getElem? hentry) with
    ⟨k, hk⟩ | ⟨block, n, hblock, -, hname, -⟩
  · have hnumber : ∀ {d j}, m.EntryNumber func d j → d = b ∧ j = k := by
      rintro d j ⟨hd, hj⟩
      obtain rfl := Option.some.inj (hentry.symm.trans hd)
      exact ⟨rfl, Option.some.inj (hj.symm.trans hk)⟩
    rw [labelsFit_of_leftOut h hf hapart hroomy hholds hlayout hk
      (labelsOf_of_number hholds hlayout hc hleft hk)]
    constructor
    · rintro ⟨hvalueRoom, hrooms, hslot, hnew, htargets⟩
      refine ⟨hvalueRoom, fun d j hj hd => hrooms d j hj fun heq => hd (heq ▸ hentry),
        fun _ _ _ => hslot, fun d j hd => ?_, fun d j hd => ?_⟩
      all_goals
        obtain ⟨rfl, rfl⟩ := hnumber hd
        assumption
    · intro hsuits
      have hk' : m.EntryNumber func b k := ⟨hentry, hk⟩
      refine ⟨hsuits.valueRoom, fun d j hj hne => ?_, hsuits.entryRoom b k hk',
        hsuits.entryApart b k hk', hsuits.entryTarget b k hk'⟩
      exact hsuits.blockRoom d j hj fun hd => hne (Option.some.inj (hd.symm.trans hentry))
  · have hunnumbered : ∀ {d j}, ¬ m.EntryNumber func d j := by
      rintro d j ⟨hd, hj⟩
      obtain rfl := Option.some.inj (hentry.symm.trans hd)
      obtain ⟨-, ⟨block', hblock', hnone⟩, -⟩ := blockName_of_number hj
      obtain rfl := Option.some.inj (hblock.symm.trans hblock')
      cases hname.symm.trans hnone
    rw [labelsFit_of_written h hf hapart hroomy hholds
      (labelsOf_of_name hholds hlayout hc hblock hname)]
    constructor
    · rintro ⟨hvalueRoom, hrooms⟩
      exact ⟨hvalueRoom, fun d j hj _ => hrooms d j hj, fun _ _ hd => absurd hd hunnumbered,
        fun _ _ hd => absurd hd hunnumbered, fun _ _ hd => absurd hd hunnumbered⟩
    · intro hsuits
      exact ⟨hsuits.valueRoom, fun d j hj => hsuits.blockRoom d j hj fun hd => hunnumbered ⟨hd, hj⟩⟩

end Fits

end Printed

/-! ## Names of globals and functions -/

section Globals

variable {symbols : Symbols} {cs : List Chapter}

/-- Names are different if they tell positions. -/
lemma nodup_map_of_position {α β γ : Type} {as : List α} {name : α → β} (what : β → Option γ)
    {at? : Nat → γ} (hat : Function.Injective at?)
    (h : ∀ (k : Nat) a, as[k]? = some a → what (name a) = some (at? k)) :
    (as.map name).Nodup := by
  refine List.pairwise_iff_getElem.2 fun i j hi hj hlt heq => ?_
  rw [List.length_map] at hi hj
  rw [List.getElem_map, List.getElem_map] at heq
  have hleft := h i _ (List.getElem?_eq_getElem hi)
  have hright := h j _ (List.getElem?_eq_getElem hj)
  rw [heq] at hleft
  have hij := hat (Option.some.inj (hleft.symm.trans hright))
  omega

/-- No global or function has the name of another. -/
lemma names_nodup_of_known (h : Known m symbols) :
    (m.globals.toList.map Global.name ++ m.functions.toList.map Func.name).Nodup := by
  have hglobal : ∀ (k : Nat) g, m.globals.toList[k]? = some g →
      symbols[g.name]?.bind m.kind? = some (.global ⟨k⟩) := by
    intro k g hk
    rw [Array.getElem?_toList] at hk
    obtain ⟨v, hv, hkind⟩ := h.global ⟨k⟩ g hk
    rw [hv, Option.bind_some, hkind]
  have hfunc : ∀ (k : Nat) func, m.functions.toList[k]? = some func →
      symbols[func.name]?.bind m.kind? = some (.function ⟨k⟩) := by
    intro k func hk
    rw [Array.getElem?_toList] at hk
    obtain ⟨v, hv, hkind⟩ := h.func ⟨k⟩ func hk
    rw [hv, Option.bind_some, hkind]
  refine List.nodup_append'.2 ⟨nodup_map_of_position (fun n => symbols[n]?.bind m.kind?) ?_ hglobal,
    nodup_map_of_position (fun n => symbols[n]?.bind m.kind?) ?_ hfunc, fun n hglob hfun => ?_⟩
  · exact fun i j heq => GlobalId.mk.inj (ValueKind.global.inj heq)
  · exact fun i j heq => FuncId.mk.inj (ValueKind.function.inj heq)
  · obtain ⟨g, hg, rfl⟩ := List.mem_map.1 hglob
    obtain ⟨func, hf, heq⟩ := List.mem_map.1 hfun
    obtain ⟨i, hi⟩ := List.mem_iff_getElem?.1 hg
    obtain ⟨j, hj⟩ := List.mem_iff_getElem?.1 hf
    have hkind := hfunc j func hj
    rw [heq, hglobal i g hi] at hkind
    cases hkind

/-- The lines of a print define the globals of the module. -/
lemma globalNames_of_print (m : Module) (cs : List Chapter) :
    globalNames (m.kinds ++ kindsOf (cs.flatMap Chapter.lines))
      = m.globals.toList.map Global.name := by
  obtain ⟨ts, -, hkinds⟩ := kindsOf_lines cs
  rw [globalNames, hkinds, filterMap_kinds]
  simp [LineKind.globalDef?, Function.comp_def]

lemma sourceFilename_of_print (m : Module) (cs : List Chapter) :
    .sourceFilename none ∉ m.kinds ++ kindsOf (cs.flatMap Chapter.lines) := by
  obtain ⟨ts, -, hkinds⟩ := kindsOf_lines cs
  rw [hkinds]
  simp [kinds]

/-- The chapters of a print have the names of the functions. -/
lemma HoldsAll.names (h : m.HoldsAll cs) :
    cs.map (fun c => c.header.name) = m.functions.toList.map Func.name := by
  rw [← List.zipIdx_map_fst 0 m.functions.toList, List.map_map, ← List.forall₂_eq_eq_eq,
    List.forall₂_map_left_iff, List.forall₂_map_right_iff]
  exact h.flip.imp fun c x hx => hx.2.1.header.name.symm

/-- A chapter of a print is held by the function at its position. -/
lemma HoldsAll.exists_func (h : m.HoldsAll cs) {c : Chapter} (hc : c ∈ cs) :
    ∃ f func, m.func? f = some func ∧
    c.Valid ∧ m.HoldsChapter ((Printing.of m func).scope f func) func c ∧
      Printing.LeavesOut m func c.paragraphs := by
  obtain ⟨⟨func, k⟩, hmem, hvalid, hholds, hleft⟩ := exists_mem_of_forall₂ h c hc
  refine ⟨⟨k⟩, func, ?_, hvalid, hholds, hleft⟩
  rw [func?, ← Array.getElem?_toList]
  exact List.mem_zipIdx_iff_getElem?.1 hmem

lemma HoldsChapter.defined_iff {S : Scope} (h : m.HoldsChapter S func c) :
    c.paragraphs ≠ [] ↔ func.isDeclaration = false := by
  have hlength := h.paragraphs.length_eq
  rw [Func.isDeclaration, Array.isEmpty_eq_false_iff, Ne, Ne, not_iff_not,
    ← Array.toList_eq_nil_iff, ← List.length_eq_zero_iff, ← List.length_eq_zero_iff, hlength]

end Globals

/-! ## Modules -/

/-- The module can be printed, its names tell apart what they are given to, and they leave room. -/
structure WellNamed (m : Module) : Prop where
  printable : m.Printable
  names : (m.globals.toList.map Global.name ++ m.functions.toList.map Func.name).Nodup
  definitions : ∀ f func, m.func? f = some func → func.isDeclaration = false →
    m.NamesApart f ∧ m.NamesRoomy f

lemma wellNamed_ofText {text : String} (hread : ofText text = .ok m) : m.WellNamed := by
  obtain ⟨_, _, _, -, -, hknown, -⟩ := exists_passages_ofText hread
  refine ⟨printable_ofText hread, names_nodup_of_known hknown, fun f func hf hdefined => ?_⟩
  have hlayout : func.layout ≠ #[] := by simpa [Func.isDeclaration] using hdefined
  exact ⟨namesApart_ofText hread hf hlayout, namesRoomy_ofText hread hf hlayout⟩

lemma WellNamed.of_residue (h : m.WellNamed) {m' : Module} (hprintable : m'.Printable)
    {s : ValueId → ValueId} {gone : List InstId} (hbare : m'.bare = m.bare.residue s gone) :
    m'.WellNamed := by
  obtain ⟨hglobals, -⟩ := header_of_residue hbare
  have hfunctions := functions_of_residue hbare
  refine ⟨hprintable, ?_, fun f func hf hdefined => ?_⟩
  · rw [hglobals, hfunctions]
    exact h.names
  · rw [func?, hfunctions] at hf
    obtain ⟨hapart, hroomy⟩ := h.definitions f func hf hdefined
    have hsame := sameNames_of_residue (f := f) hbare
    exact ⟨hsame.namesApart hapart, hsame.namesRoomy hroomy⟩

/-- The print of a module is read exactly if the numbers of its definitions suit the reader. -/
theorem WellNamed.accepts_iff (h : m.WellNamed) : ∃ out, m.toText = .ok out ∧
    ((∃ n, ofText out = .ok n) ↔
      ∀ func ∈ m.functions, func.isDeclaration = false → m.Rereadable func) := by
  obtain ⟨cs, out, hcs, hout, hprints⟩ := h.printable.toText_ok
  have hnames : globalNames (m.kinds ++ kindsOf (cs.flatMap Chapter.lines))
      ++ cs.map (fun c => c.header.name)
        = m.globals.toList.map Global.name ++ m.functions.toList.map Func.name := by
    rw [globalNames_of_print, hcs.names]
  have hfits : ∀ {f func c}, m.func? f = some func → c.Valid →
      m.HoldsChapter ((Printing.of m func).scope f func) func c →
      Printing.LeavesOut m func c.paragraphs →
      c.paragraphs ≠ [] → (c.Fits ↔ m.Rereadable func) := by
    intro f func c hf hc hholds hleft hdefined
    obtain ⟨hapart, hroomy⟩ := h.definitions f func hf (hholds.defined_iff.1 hdefined)
    exact h.printable.fits_iff hf hapart hroomy hholds hc hleft hdefined
  refine ⟨out, hout, ?_⟩
  rw [ofText_ok_iff hprints (tokens_of_print m cs) ?valid (sourceFilename_of_print m cs)
    (hnames ▸ h.names) ?coherent]
  case valid =>
    intro c hc
    obtain ⟨_, -, hc⟩ := exists_mem_of_forall₂ hcs c hc
    exact hc.1
  case coherent =>
    intro c hc hdefined
    obtain ⟨f, func, hf, hvalid, hholds, -⟩ := hcs.exists_func hc
    obtain ⟨hapart, -⟩ := h.definitions f func hf (hholds.defined_iff.1 hdefined)
    rw [hnames]
    exact h.printable.coherent hf hapart hholds hvalid hdefined
  constructor
  · intro hall func hfunc hdefined
    obtain ⟨⟨k⟩, hf⟩ := mem_functions.1 hfunc
    obtain ⟨c, hc, hvalid, hholds, hleft⟩ := hcs.chapter hf
    have hdefined' := hholds.defined_iff.2 hdefined
    exact (hfits hf hvalid hholds hleft hdefined').1 (hall c (List.mem_of_getElem? hc) hdefined')
  · intro hall c hc hdefined
    obtain ⟨f, func, hf, hvalid, hholds, hleft⟩ := hcs.exists_func hc
    exact (hfits hf hvalid hholds hleft hdefined).2
      (hall func (Array.mem_of_getElem? hf) (hholds.defined_iff.1 hdefined))

/-! ## Parameters whose names are no numbers -/

/-- Such parameters move the counter by their numbers only. -/
lemma foldl_slotAfter {vs : List ValueId} {j : Nat}
    (hnumbers : ∀ (i : Nat) v, (vs.filter m.isUnnamed)[i]? = some v →
      (m.numbering func)[Slotted.value v]? = some (j + i))
    (hplain : ∀ v ∈ vs, m.isUnnamed v = false → slot? ((Printing.of m func).valueName v) = none)
    (hroom : j + (vs.filter m.isUnnamed).length < slotBound) :
    vs.foldl (fun n v => Body.slotAfter ((Printing.of m func).valueName v) n) j
      = j + (vs.filter m.isUnnamed).length := by
  induction vs generalizing j with
  | nil => rfl
  | cons v vs ih =>
    obtain ⟨hv, hplain⟩ := List.forall_mem_cons.1 hplain
    rw [List.foldl_cons]
    cases hunnamed : m.isUnnamed v with
    | true =>
      simp only [List.filter_cons, hunnamed, if_true, List.length_cons] at hnumbers hroom ⊢
      have hname := (valueName_of_number (hnumbers 0 v rfl)).2
      have hslot : Body.slotAfter ((Printing.of m func).valueName v) j = j + 1 := by
        rw [hname, Nat.add_zero, Body.slotAfter, slot?_toString, if_pos (by omega)]
        rfl
      rw [hslot, ih (fun i w hw => ?_) hplain (by omega)]
      · omega
      · rw [hnumbers (i + 1) w hw]
        exact congrArg some (by omega)
    | false =>
      simp only [List.filter_cons, hunnamed, Bool.false_eq_true, if_false] at hnumbers hroom ⊢
      have hslot : Body.slotAfter ((Printing.of m func).valueName v) j = j := by
        rw [Body.slotAfter, hv hunnamed]
        rfl
      rw [hslot, ih hnumbers hplain hroom]

/-- If no parameter is named like a number, then the first block is given the number of its
references. -/
lemma Complete.entrySlot_eq (h : m.Complete) (hf : m.func? f = some func)
    (hplain : ∀ v ∈ func.params, (m.nameOf? v).bind slot? = none)
    (hroom : (m.slotted func).length < slotBound) :
    m.entrySlot func = (func.params.filter m.isUnnamed).length := by
  have hlength := congrArg List.length (slotted_eq m func)
  rw [List.length_append, List.length_map] at hlength
  rw [entrySlot, foldl_slotAfter (fun i v hv => ?_) (fun v hv hnamed => ?_) (by omega),
    Nat.zero_add]
  · have hlt := (List.getElem?_eq_some_iff.1 hv).1
    rw [Nat.zero_add, h.numbering_iff hf, slotted_eq, List.getElem?_append_left
      (by simpa using hlt), List.getElem?_map, hv]
    rfl
  · obtain ⟨i, hi⟩ := List.mem_iff_getElem?.1 hv
    obtain ⟨value, hvalue, -⟩ := (h.draft.funcs f func hf).params i v hi
    have hname : m.nameOf? v = value.name := by simp [nameOf?, hvalue]
    obtain ⟨n, hn⟩ : ∃ n, value.name = some n :=
      Option.isSome_iff_exists.1 (by simpa [isUnnamed, hvalue] using hnamed)
    have hnone := hplain v hv
    rw [hname, hn, Option.bind_some] at hnone
    rwa [Printing.valueName, hname, hn]

/-- The numbers of a function suit the reader if no parameter is named like a number. -/
theorem Complete.rereadable (h : m.Complete) (hf : m.func? f = some func)
    (hplain : ∀ v ∈ func.params, (m.nameOf? v).bind slot? = none)
    (hroom : (m.slotted func).length < slotBound) : m.Rereadable func := by
  have hnumber : ∀ {x k}, (m.numbering func)[x]? = some k → k + 1 < slotBound := fun hk => by
    have := (List.getElem?_eq_some_iff.1 (slotted_of_numbering hk)).1
    omega
  have hentry : ∀ {b k}, m.EntryNumber func b k → k = m.entrySlot func := by
    rintro b k ⟨hb, hk⟩
    obtain ⟨-, ⟨block, hblock, hname⟩, -⟩ := blockName_of_number hk
    obtain ⟨bs, hlayout⟩ : ∃ bs, func.layout.toList = b :: bs := by
      rw [← Array.getElem?_toList] at hb
      exact List.head?_eq_some_iff.1 (List.head?_eq_getElem? ▸ hb)
    have hfirst : (m.slotted func)[(func.params.filter m.isUnnamed).length]? = some (.block b) := by
      rw [slotted_eq, List.getElem?_append_right (by simp), hlayout]
      simp [slottedIn, hblock, hname]
    have hk' := (h.numbering_iff hf).2 hfirst
    rw [h.entrySlot_eq hf hplain hroom]
    exact Option.some.inj (hk.symm.trans hk')
  refine ⟨fun v k hk => (hnumber hk).ne, fun b k hk _ => (hnumber hk).ne, fun b k hb => ?_,
    fun b k hb d hd => ?_, fun b k hb i inst _ _ => hentry hb⟩
  · exact hentry hb ▸ (hnumber hb.2).ne
  · rw [← hentry hb] at hd
    exact Slotted.block.inj (numbering_inj hd hb.2)

/-- In definitions no parameter is named like a number, and what is numbered can be. -/
def Plain (m : Module) : Prop :=
  ∀ func ∈ m.functions, func.isDeclaration = false →
    (∀ v ∈ func.params, (m.nameOf? v).bind slot? = none) ∧ (m.slotted func).length < slotBound

instance (m : Module) : Decidable m.Plain := inferInstanceAs (Decidable (∀ func ∈ m.functions, _))

lemma Complete.forall_rereadable (h : m.Complete) (hplain : m.Plain) :
    ∀ func ∈ m.functions, func.isDeclaration = false → m.Rereadable func := by
  intro func hfunc hdefined
  obtain ⟨f, hf⟩ := mem_functions.1 hfunc
  obtain ⟨hnames, hroom⟩ := hplain func hfunc hdefined
  exact h.rereadable hf hnames hroom

section Residue

variable {m' : Module} {s : ValueId → ValueId} {gone : List InstId}

lemma IsLocal.of_residue (hbare : m'.bare = m.bare.residue s gone) (h : m'.IsLocal func v) :
    m.IsLocal func v := by
  refine h.imp_right ?_
  rintro ⟨b, hb, block', hblock', i, hi, inst', hi', hty, rfl⟩
  rw [block?_of_residue hbare, Option.map_eq_some_iff] at hblock'
  obtain ⟨block, hblock, rfl⟩ := hblock'
  obtain ⟨-, inst, hinst, heq⟩ := inst?_of_residue hbare hi'
  have hty' : inst'.ty = inst.ty := congrArg (fun x => x.ty) heq
  exact ⟨b, hb, block, hblock, i, (Array.mem_filter.1 hi).1, inst, hinst, hty' ▸ hty,
    (congrArg Inst.result heq).symm⟩

/-- The simplifier leaves nothing to be numbered that was not. -/
lemma Complete.length_slotted_le (h' : m'.Complete)
    (hbare : m'.bare = m.bare.residue s gone) (hf : m.func? f = some func) :
    (m'.slotted func).length ≤ (m.slotted func).length := by
  have hf' : m'.func? f = some func := by rwa [func?, functions_of_residue hbare]
  refine (List.subperm_of_subset (h'.slotted_nodup hf') fun x hx => ?_).length_le
  cases x with
  | value v =>
    obtain ⟨hlocal, hunnamed⟩ := value_mem_slotted_iff.1 hx
    refine value_mem_slotted_iff.2 ⟨hlocal.of_residue hbare, ?_⟩
    have hvalue := congrArg (Option.any fun value => value.name.isNone) (value?_of_residue hbare v)
    simp only [Option.any_map] at hvalue
    exact hvalue.symm.trans hunnamed
  | block b =>
    obtain ⟨hb, block', hblock', hname⟩ := block_mem_slotted_iff.1 hx
    rw [block?_of_residue hbare, Option.map_eq_some_iff] at hblock'
    obtain ⟨block, hblock, rfl⟩ := hblock'
    exact block_mem_slotted hb hblock hname

lemma Plain.of_residue (hplain : m.Plain) (h' : m'.Complete)
    (hbare : m'.bare = m.bare.residue s gone) : m'.Plain := by
  intro func hfunc hdefined
  rw [functions_of_residue hbare] at hfunc
  obtain ⟨f, hf⟩ := mem_functions.1 hfunc
  obtain ⟨hnames, hroom⟩ := hplain func hfunc hdefined
  refine ⟨fun v hv => ?_, (h'.length_slotted_le hbare hf).trans_lt hroom⟩
  rw [nameOf?_of_residue hbare]
  exact hnames v hv

end Residue

/-! ## Texts -/

/-- What the simplifier makes of a text that is read. -/
lemma exists_simplified {text : String} (hread : ofText text = .ok m) (o : Options) :
    ∃ m' stats out s gone, m.simplify o = .ok (m', stats) ∧ simplifyText text o = .ok (out, stats) ∧
      m'.Complete ∧ m'.bare = m.bare.residue s gone ∧ ((∃ n, ofText out = .ok n) ↔
        ∀ func ∈ m'.functions, func.isDeclaration = false → m'.Rereadable func) := by
  obtain ⟨m', stats, s, gone, hruns, hprintable, hbare⟩ :=
    exists_residue_of_simplify hread o.maxIdentityBits
  obtain ⟨out, hout, haccepts⟩ := ((wellNamed_ofText hread).of_residue hprintable hbare).accepts_iff
  have hrun : m.simplify o = .ok (m', stats) := hruns o.verify
  refine ⟨m', stats, out, s, gone, hrun, ?_, hprintable.complete, hbare, haccepts⟩
  simp only [simplifyText, hread, hrun, hout, Except.mapError, ok_bind]
  rfl

/-- Prints are read, before and after the simplifier, if no parameter is named like a number. -/
theorem accepts_print_of_plain {text : String} (hread : ofText text = .ok m) (hplain : m.Plain) :
    (∃ out n, m.toText = .ok out ∧ ofText out = .ok n) ∧
    ∀ o, ∃ out stats n, simplifyText text o = .ok (out, stats) ∧ ofText out = .ok n := by
  constructor
  · obtain ⟨out, hout, haccepts⟩ := (wellNamed_ofText hread).accepts_iff
    obtain ⟨n, hn⟩ := haccepts.2 ((complete_ofText hread).forall_rereadable hplain)
    exact ⟨out, n, hout, hn⟩
  · intro o
    obtain ⟨m', stats, out, s, gone, -, hsimplified, hm', hbare, haccepts⟩ :=
      exists_simplified hread o
    obtain ⟨n, hn⟩ := haccepts.2 (hm'.forall_rereadable (hplain.of_residue hm' hbare))
    exact ⟨out, stats, n, hsimplified, hn⟩

/-- A text that is read is printed, and the print is read exactly if the numbers of its definitions
suit the reader.  So it is with what the simplifier makes of the text, whatever its options. -/
theorem accepts_print_iff {text : String} (hread : ofText text = .ok m) :
    (∃ out, m.toText = .ok out ∧ ((∃ n, ofText out = .ok n) ↔
      ∀ func ∈ m.functions, func.isDeclaration = false → m.Rereadable func)) ∧
    ∀ o, ∃ m' stats out, m.simplify o = .ok (m', stats) ∧ simplifyText text o = .ok (out, stats) ∧
      ((∃ n, ofText out = .ok n) ↔
        ∀ func ∈ m'.functions, func.isDeclaration = false → m'.Rereadable func) := by
  refine ⟨(wellNamed_ofText hread).accepts_iff, fun o => ?_⟩
  obtain ⟨m', stats, out, _, _, hrun, hsimplified, -, -, haccepts⟩ := exists_simplified hread o
  exact ⟨m', stats, out, hrun, hsimplified, haccepts⟩

/-- A parameter whose name is a number behind a plus sign, and a first block to which is
branched. -/
def plusText : String := "define void @f(i32 %\"+5\") \x7b\n0:\n  br label %0\n\x7d\n"

/-- The number of its first block in print is not the one that the reader gives to the block. -/
lemma not_rereadable_plusText : ∃ m func, ofText plusText = .ok m ∧ m.func? ⟨0⟩ = some func ∧
    func.isDeclaration = false ∧ ¬ m.Rereadable func := by
  have hfunc : (ofText plusText).toOption.map (fun m => (m.func? ⟨0⟩).map fun func =>
      (func.isDeclaration, func.layout[0]?, m.slotted func, m.entrySlot func))
      = some (some (false, some ⟨0⟩, [.block ⟨0⟩], 6)) := by
    decide +kernel
  have hinst : (ofText plusText).toOption.map (fun m => (m.inst? ⟨0⟩).map fun inst => inst.targets)
      = some (some [⟨0⟩]) := by
    decide +kernel
  obtain ⟨m, hread, hfunc⟩ := toOption_map_eq_some.1 hfunc
  obtain ⟨func, hf, heq⟩ := Option.map_eq_some_iff.1 hfunc
  simp only [Prod.mk.injEq] at heq
  obtain ⟨hdefined, hfirst, hslotted, hslot⟩ := heq
  rw [hread] at hinst
  obtain ⟨inst, hi, htargets⟩ := Option.map_eq_some_iff.1 (Option.some.inj hinst)
  refine ⟨m, func, hread, hf, hdefined, fun hsuits => ?_⟩
  have hnumber : (m.numbering func)[Slotted.block ⟨0⟩]? = some 0 :=
    ((complete_ofText hread).numbering_iff hf).2 (by rw [hslotted]; rfl)
  have hzero := hsuits.entryTarget ⟨0⟩ 0 ⟨hfirst, hnumber⟩ ⟨0⟩ inst hi
    (by rw [htargets]; exact List.mem_cons_self)
  rw [hslot] at hzero
  cases hzero

/-- So not every print is read. -/
theorem not_forall_accepts_print :
    ¬ ∀ text m out, ofText text = .ok m → m.toText = .ok out → ∃ n, ofText out = .ok n := by
  intro hall
  obtain ⟨m, func, hread, hf, hdefined, hnot⟩ := not_rereadable_plusText
  obtain ⟨out, hout, haccepts⟩ := (wellNamed_ofText hread).accepts_iff
  exact hnot (haccepts.1 (hall plusText m out hread hout) func (Array.mem_of_getElem? hf) hdefined)

/-- A parameter, a block and a sum without names.  The block branches to itself, and the simplifier
erases the sum. -/
def turnText : String :=
  "define void @f(i32 %0) \x7b\n  %2 = add i32 %0, 0\n  br label %1\n\x7d\n"

/-- The print of one text is read, before and after the simplifier, and that of the other is not. -/
theorem accepts_print_turnText :
    (∃ m out out' stats, ofText turnText = .ok m ∧ m.toText = .ok out ∧ (∃ n, ofText out = .ok n) ∧
      simplifyText turnText ⟨32, true⟩ = .ok (out', stats) ∧ ∃ n, ofText out' = .ok n) ∧
    ∃ m out, ofText plusText = .ok m ∧ m.toText = .ok out ∧ ¬ ∃ n, ofText out = .ok n := by
  constructor
  · have hrun : (ofText turnText).toOption.map (fun m =>
        (decide m.Plain, (m.simplify ⟨32, true⟩).toOption.map fun r => decide r.1.Plain))
        = some (true, some true) := by
      decide +kernel
    obtain ⟨m, hread, heq⟩ := toOption_map_eq_some.1 hrun
    obtain ⟨hplain, hafter⟩ := Prod.mk.inj heq
    obtain ⟨⟨m', stats⟩, hsimplify, hplain'⟩ := toOption_map_eq_some.1 hafter
    obtain ⟨⟨out, hout, haccepts⟩, hall⟩ := accepts_print_iff hread
    obtain ⟨m₁, stats₁, out', hrun₁, hsimplified, haccepts'⟩ := hall ⟨32, true⟩
    obtain ⟨rfl, rfl⟩ := Prod.mk.inj (Except.ok.inj (hrun₁.symm.trans hsimplify))
    have hm := complete_ofText hread
    obtain ⟨m₂, stats₂, -, -, -, hrun₂, -, hm', -⟩ := exists_simplified hread ⟨32, true⟩
    obtain ⟨rfl, -⟩ := Prod.mk.inj (Except.ok.inj (hrun₁.symm.trans hrun₂))
    exact ⟨m, out, out', stats₁, hread, hout,
      haccepts.2 (hm.forall_rereadable (of_decide_eq_true hplain)), hsimplified,
      haccepts'.2 (hm'.forall_rereadable (of_decide_eq_true hplain'))⟩
  · obtain ⟨m, func, hread, hf, hdefined, hnot⟩ := not_rereadable_plusText
    obtain ⟨⟨out, hout, haccepts⟩, -⟩ := accepts_print_iff hread
    exact ⟨m, out, hread, hout, fun hread' =>
      hnot (haccepts.1 hread' func (Array.mem_of_getElem? hf) hdefined)⟩

end Module
end SsaFold
