import SsaFold.Proofs.Text.Reading
import SsaFold.Proofs.Text.Room

/-!
# Lines that are accepted

If a definition gives each name once and uses it at its type, then no line of its body is refused
for a name.  While the body is read, the names that have been met are among those of the definition
(`Body.Expects`): one that is still to be defined stands for a placeholder, and every other for what
it was defined as.  A step that keeps to these names is not refused, and keeps what is expected
(`Body.Passes`).

Labels are another matter.  The lines of blocks that all have labels are read to the end exactly if
the labels fit: no two are alike, they leave room, and only to them is branched
(`Body.lines_ok_iff`).
-/

namespace SsaFold.Text

/-! ## What a chapter defines, and what it uses -/

/-- What a parameter defines. -/
def Param.bindings (p : Param) : List (String × Ty) := p.name.toList.map (·, p.ty)

/-- What an instruction line defines. -/
def Entry.bindings (e : Entry) : List (String × Ty) :=
  e.name.toList.map (·, e.statement.operation.resultType)

lemma Entry.Valid.resultType_eq_void {e : Entry} (he : e.Valid) (hname : e.name = none) :
    e.statement.operation.resultType = .void := by
  by_contra hty
  simpa [hname] using he.named.2 hty

/-- What the lines of a block define. -/
def Paragraph.bindings (p : Paragraph) : List (String × Ty) := p.entries.flatMap Entry.bindings

/-- What the lines of a function define, with types: parameters and results. -/
def Chapter.bindings (c : Chapter) : List (String × Ty) :=
  c.header.params.flatMap Param.bindings ++ c.paragraphs.flatMap Paragraph.bindings

/-- The operand is a constant or one of the names, at its type. -/
def TypedAtom.Fits (globals : List String) (names : List (String × Ty)) (a : TypedAtom) : Prop :=
  match a.atom with
  | .localName name => (name, a.ty) ∈ names
  | .globalName name => a.ty = .ptr ∧ name ∈ globals
  | .int _ => ∃ bits, a.ty = .int bits
  | .bool _ => a.ty = .i1
  | .null => a.ty = .ptr

/-- The lines of a definition define each name once, and use it at its type.  Nothing is said of
labels. -/
structure Chapter.Coherent (globals : List String) (c : Chapter) : Prop where
  once : (c.bindings.map Prod.fst).Nodup
  operands : ∀ p ∈ c.paragraphs, ∀ e ∈ p.entries, ∀ a ∈ e.statement.operation.operands,
    a.Fits globals c.bindings
  closes : ∀ p ∈ c.paragraphs, p.Closes

/-- The labels of paragraphs. -/
def labelsOf (ps : List Paragraph) : List String := ps.filterMap Paragraph.label

lemma mem_labelsOf {ps : List Paragraph} {l : String} :
    l ∈ labelsOf ps ↔ ∃ p ∈ ps, p.label = some l :=
  List.mem_filterMap

/-- No two blocks have one label, the labels leave room, and only to them is branched. -/
structure LabelsFit (ps : List Paragraph) : Prop where
  once : (labelsOf ps).Nodup
  room : ∀ l ∈ labelsOf ps, HasRoom l
  targets : ∀ p ∈ ps, ∀ e ∈ p.entries, ∀ l ∈ e.statement.operation.labels, l ∈ labelsOf ps

/-- The names that a body may write: those of functions and globals, its own with their types, and
its labels. -/
structure Vocabulary where
  globals : List String
  names : List (String × Ty)
  labels : List String
  once : (names.map Prod.fst).Nodup
  room : ∀ x ∈ names, HasRoom x.1

/-- A name has one type. -/
lemma Vocabulary.ty_unique (V : Vocabulary) {n : String} {ty ty' : Ty} (h : (n, ty) ∈ V.names)
    (h' : (n, ty') ∈ V.names) : ty = ty' :=
  congrArg Prod.snd (List.inj_on_of_nodup_map V.once h h' rfl)

/-- The operands and labels of the line are in the vocabulary. -/
structure Entry.Admitted (V : Vocabulary) (e : Entry) : Prop where
  operands : ∀ a ∈ e.statement.operation.operands, a.Fits V.globals V.names
  labels : ∀ l ∈ e.statement.operation.labels, l ∈ V.labels

namespace Body

open SsaFold.Module

variable {b b' : Body} {V : Vocabulary} {pending : List (String × Ty)}

/-! ## Expectations -/

/-- The names that have been met are in the vocabulary.  Its last ones are still to be defined, and
the others are. -/
structure Expects (V : Vocabulary) (pending : List (String × Ty)) (b : Body) : Prop where
  later : pending <:+ V.names
  globals : ∀ name ∈ V.globals, ∃ v, b.symbols[name]? = some v
  typed : ∀ (n : String) v, b.values[n]? = some v →
    ∃ ty, (n, ty) ∈ V.names ∧ b.module.typeOf? v = some ty
  awaited : ∀ (n : String) ty v, (n, ty) ∈ pending → b.values[n]? = some v →
    b.module.kind? v = some .placeholder
  given : ∀ n ty, (n, ty) ∈ V.names → (n, ty) ∈ pending ∨ ∃ v, b.Settled n v
  labels : ∀ (l : String) c, b.blocks[l]? = some c → l ∈ V.labels

/-- The values of the module keep their kinds and types. -/
def KeepsValues (m m' : Module) : Prop := ∀ v value, m.value? v = some value →
  ∃ value', m'.value? v = some value' ∧ value'.kind = value.kind ∧ value'.ty = value.ty

section KeepsValues

variable {m m' : Module} {v : ValueId}

lemma KeepsValues.kind? (h : KeepsValues m m') {kind : ValueKind} (hv : m.kind? v = some kind) :
    m'.kind? v = some kind := by
  obtain ⟨value, hvalue, rfl⟩ := kind?_eq_some.1 hv
  obtain ⟨value', hvalue', hkind, -⟩ := h v value hvalue
  exact kind?_eq_some.2 ⟨value', hvalue', hkind⟩

lemma KeepsValues.typeOf? (h : KeepsValues m m') {ty : Ty} (hv : m.typeOf? v = some ty) :
    m'.typeOf? v = some ty := by
  obtain ⟨value, hvalue, rfl⟩ := typeOf?_eq_some.1 hv
  obtain ⟨value', hvalue', -, hty⟩ := h v value hvalue
  exact typeOf?_eq_some.2 ⟨value', hvalue', hty⟩

lemma keepsValues_appendInst {c : BlockId} {spec : InstSpec} {vs : List ValueId} {i : InstId}
    (hrun : m.appendInst c spec vs = .ok (m', i)) : KeepsValues m m' := by
  intro v value hv
  obtain ⟨value', hv', hbare⟩ := value?_appendInst hrun hv
  exact ⟨value', hv', (congrArg Value.kind hbare :), (congrArg Value.ty hbare :)⟩

end KeepsValues

namespace Expects

/-- Where no name gets a new meaning, what is expected is what was. -/
lemma keeps (h : b.Expects V pending) (hm : KeepsValues b.module b'.module)
    (hsymbols : b'.symbols = b.symbols) (hvalues : b'.values = b.values)
    (hblocks : ∀ (l : String) c, b'.blocks[l]? = some c → l ∈ V.labels) :
    b'.Expects V pending where
  later := h.later
  globals := hsymbols ▸ h.globals
  typed n v hv := by
    obtain ⟨ty, hmem, hty⟩ := h.typed n v (hvalues ▸ hv)
    exact ⟨ty, hmem, hm.typeOf? hty⟩
  awaited n ty v hmem hv := hm.kind? (h.awaited n ty v hmem (hvalues ▸ hv))
  given n ty hmem := by
    refine (h.given n ty hmem).imp_right ?_
    rintro ⟨v, hv, kind, hkind, hne⟩
    exact ⟨v, hvalues ▸ hv, kind, hm.kind? hkind, hne⟩
  labels := hblocks

/-- A name gets a meaning: that of a placeholder if it is still to be defined, and otherwise
another. -/
lemma insert {rest : List (String × Ty)} (h : b.Expects V pending) (hlater : rest <:+ pending)
    (hm : KeepsValues b.module b'.module) (hsymbols : b'.symbols = b.symbols)
    (hblocks : b'.blocks = b.blocks) {n : String} {ty : Ty} {v : ValueId} (hn : (n, ty) ∈ V.names)
    (hty : b'.module.typeOf? v = some ty) (hvalues : b'.values = b.values.insert n v)
    (hrest : ∀ x ∈ pending, x.1 ≠ n → x ∈ rest)
    (hawaited : (n, ty) ∈ rest → b'.module.kind? v = some .placeholder)
    (hgiven : (n, ty) ∉ rest → ∃ kind, b'.module.kind? v = some kind ∧ kind ≠ .placeholder) :
    b'.Expects V rest := by
  have hself : b'.values[n]? = some v := hvalues ▸ Std.TreeMap.getElem?_insert_self
  have hother : ∀ n', n' ≠ n → b'.values[n']? = b.values[n']? := fun n' hne => by
    rw [hvalues, getElem?_insert, if_neg hne.symm]
  refine ⟨hlater.trans h.later, hsymbols ▸ h.globals, fun n' w hw => ?_, fun n' ty' w hmem hw => ?_,
    fun n' ty' hmem => ?_, fun l c hl => h.labels l c (hblocks ▸ hl)⟩
  · by_cases hne : n' = n
    · subst hne
      obtain rfl := Option.some.inj (hself.symm.trans hw)
      exact ⟨ty, hn, hty⟩
    · obtain ⟨ty', hmem, hty'⟩ := h.typed n' w (hother n' hne ▸ hw)
      exact ⟨ty', hmem, hm.typeOf? hty'⟩
  · by_cases hne : n' = n
    · subst hne
      obtain rfl := Option.some.inj (hself.symm.trans hw)
      obtain rfl := V.ty_unique hn (h.later.subset (hlater.subset hmem))
      exact hawaited hmem
    · exact hm.kind? (h.awaited n' ty' w (hlater.subset hmem) (hother n' hne ▸ hw))
  · by_cases hne : n' = n
    · subst hne
      obtain rfl := V.ty_unique hn hmem
      by_cases hwaits : (n', ty) ∈ rest
      · exact .inl hwaits
      · exact .inr ⟨v, hself, hgiven hwaits⟩
    · refine (h.given n' ty' hmem).imp (fun hwaits => hrest _ hwaits hne) ?_
      rintro ⟨w, hw, kind, hkind, hplaceholder⟩
      exact ⟨w, (hother n' hne).trans hw, kind, hm.kind? hkind, hplaceholder⟩

end Expects

/-! ## Steps that keep to the vocabulary -/

/-- The step is not refused, and keeps what holds of the body. -/
def Passes {α : Type} (P : Body → Prop) (f : BodyM α) : Prop :=
  ∀ b, P b → Unrefused (f b) ∧ ∀ a b', f b = .ok (a, b') → P b'

section Passes

variable {α β : Type} {P : Body → Prop}

lemma Passes.bind {f : BodyM α} {g : α → BodyM β} (hf : Passes P f) (hg : ∀ a, Passes P (g a)) :
    Passes P (f >>= g) := by
  refine fun b hb => ⟨?_, fun y b' hrun => ?_⟩
  · exact StateT.unrefused_bind (hf b hb).1 fun a b₁ hfirst => (hg a b₁ ((hf b hb).2 a b₁ hfirst)).1
  · obtain ⟨a, b₁, hfirst, hrest⟩ := StateT.bind_eq_ok.1 hrun
    exact (hg a b₁ ((hf b hb).2 a b₁ hfirst)).2 y b' hrest

lemma passes_pure (a : α) : Passes P (pure a : BodyM α) := by
  refine fun b hb => ⟨unrefused_ok _, fun y b' hrun => ?_⟩
  obtain ⟨-, rfl⟩ := StateT.pure_eq_ok.1 hrun
  exact hb

/-- A step that succeeds passes. -/
lemma passes_of_ok {f : BodyM α} (h : ∀ b, P b → ∃ a b', f b = .ok (a, b') ∧ P b') :
    Passes P f := by
  intro b hb
  obtain ⟨a, b', hrun, hb'⟩ := h b hb
  rw [hrun]
  refine ⟨unrefused_ok _, fun y b'' heq => ?_⟩
  obtain ⟨-, rfl⟩ := Prod.mk.inj (Except.ok.inj heq)
  exact hb'

lemma unrefused_tryModule (f : Module → Except Fault (Module × α)) : Unrefused (tryModule f b) := by
  cases hrun : f b.module with
  | error x => exact tryModule_of_error hrun ▸ unrefused_fault x
  | ok p => exact tryModule_of_ok (b := b) (m := p.1) (a := p.2) hrun ▸ unrefused_ok _

lemma passes_tryModule {f : Module → Except Fault (Module × α)}
    (hf : ∀ b : Body, P b → ∀ m a, f b.module = .ok (m, a) → P { b with module := m }) :
    Passes P (tryModule f) := by
  refine fun b hb => ⟨unrefused_tryModule f, fun a b' hrun => ?_⟩
  obtain ⟨m, hm, rfl⟩ := tryModule_eq_ok.1 hrun
  exact hf b hb m a hm

end Passes

/-! ## Operands -/

lemma Widens.keepsValues (h : b.Widens b') : KeepsValues b.module b'.module := fun _ value hv =>
  ⟨value, h.value hv, rfl, rfl⟩

lemma passes_blockOf {label : String} (hlabel : label ∈ V.labels) :
    Passes (Expects V pending) (blockOf label) := by
  refine fun b h => ⟨?_, fun _ b' hrun => ?_⟩
  · refine StateT.unrefused_bind (unrefused_ok _) fun b₁ b₂ hget => ?_
    obtain ⟨rfl, rfl⟩ := StateT.get_eq_ok.1 hget
    cases b.blocks[label]? with
    | none => exact unrefused_ok _
    | some c => exact unrefused_ok _
  · have hw := (blockOf_eq_ok hrun).1.widens
    refine h.keeps hw.keepsValues hw.symbols (blockOf_values hrun) fun l d hl => ?_
    simp only [blockOf, StateT.bind_eq_ok, StateT.get_eq_ok] at hrun
    obtain ⟨_, _, ⟨rfl, rfl⟩, hrun⟩ := hrun
    cases hblock : b.blocks[label]? with
    | some known =>
      simp only [hblock, StateT.pure_eq_ok] at hrun
      obtain ⟨-, rfl⟩ := hrun
      exact h.labels l d hl
    | none =>
      simp only [hblock, StateT.bind_eq_ok, onModule_eq_ok, StateT.modify_eq_ok,
        StateT.pure_eq_ok] at hrun
      obtain ⟨_, _, ⟨-, rfl⟩, _, _, rfl, -, rfl⟩ := hrun
      rw [getElem?_insert] at hl
      split_ifs at hl with heq
      · exact heq ▸ hlabel
      · exact h.labels l d hl

/-- A name that is read at its type stands for a value of this type. -/
lemma passes_readLocal {ty : Ty} {name : String} (hname : (name, ty) ∈ V.names) :
    Passes (Expects V pending) (readLocal ty name) := by
  refine passes_of_ok fun b h => ?_
  cases hvalue : b.values[name]? with
  | some v =>
    obtain ⟨ty', hmem, hty⟩ := h.typed name v hvalue
    obtain rfl := V.ty_unique hmem hname
    obtain ⟨value, hv, rfl⟩ := typeOf?_eq_some.1 hty
    refine ⟨v, b, ?_, h⟩
    simp only [readLocal, StateT.bind_eq_ok, StateT.get_eq_ok]
    refine ⟨b, b, ⟨rfl, rfl⟩, ?_⟩
    simp only [hvalue, StateT.bind_eq_ok, StateT.liftM_eq_ok]
    refine ⟨value, b, ⟨getValue_eq_ok.2 hv, rfl⟩, ?_⟩
    simp
  | none =>
    -- The name is still to be defined, so a placeholder may stand for it.
    have hpending : (name, ty) ∈ pending := by
      refine (h.given name ty hname).resolve_right ?_
      rintro ⟨v, hv, -⟩
      exact absurd (hvalue.symm.trans hv) (by simp)
    obtain ⟨v, hv⟩ : ∃ v, v = (b.module.placeholder ty (keptName name)).2 := ⟨_, rfl⟩
    obtain ⟨b', hb'⟩ : ∃ b', b' = { b with
        module := (b.module.placeholder ty (keptName name)).1
        values := b.values.insert name v } := ⟨_, rfl⟩
    have hplaceholder : b'.module.value? v = some
        { kind := .placeholder, ty, name := keptName name } := by
      rw [hb', hv]
      exact value?_pushValue_self b.module _
    have hw : b.Widens b' := hb' ▸ .of_append #[_] #[]
      (by simp [Module.placeholder, Module.pushValue]; rfl) (getElem?_insert_of_none hvalue) id
    have hkind := kind?_eq_some.2 ⟨_, hplaceholder, rfl⟩
    refine ⟨v, b', ?_, h.insert (List.suffix_refl _) hw.keepsValues hw.symbols (hb' ▸ rfl) hname
      (typeOf?_eq_some.2 ⟨_, hplaceholder, rfl⟩) (hb' ▸ rfl) (fun x hx _ => hx) (fun _ => hkind)
      (absurd hpending)⟩
    simp only [readLocal, StateT.bind_eq_ok, StateT.get_eq_ok]
    refine ⟨b, b, ⟨rfl, rfl⟩, ?_⟩
    simp only [hvalue, StateT.bind_eq_ok, onModule_eq_ok, StateT.modify_eq_ok, StateT.pure_eq_ok]
    exact ⟨_, _, ⟨hv.symm, rfl⟩, ⟨⟩, _, rfl, rfl, hb'.symm⟩

lemma passes_constInt (bits : Nat) (n : Int) :
    Passes (Expects V pending) (tryModule (·.constInt bits n)) :=
  passes_tryModule fun b h m _ hrun =>
    have hw : b.Widens { b with module := m } := (Lookup.constant hrun).widens
    h.keeps hw.keepsValues rfl rfl h.labels

lemma passes_readOperand {a : TypedAtom} (ha : a.Fits V.globals V.names) :
    Passes (Expects V pending) (readOperand a) := by
  obtain ⟨ty, atom⟩ := a
  cases atom with
  | localName name => exact passes_readLocal ha
  | int value =>
    obtain ⟨bits, rfl⟩ := ha
    exact passes_constInt bits value
  | bool value =>
    obtain rfl : ty = .i1 := ha
    exact passes_constInt 1 (if value then 1 else 0)
  | null =>
    obtain rfl : ty = .ptr := ha
    exact passes_of_ok fun b h =>
      ⟨_, _, rfl, h.keeps (widens_share b _).keepsValues rfl rfl h.labels⟩
  | globalName name =>
    obtain ⟨rfl, hname⟩ := ha
    refine passes_of_ok fun b h => ?_
    obtain ⟨v, hv⟩ := h.globals name hname
    exact ⟨v, b, by simp [readOperand, StateT.get_bind, hv], h⟩

lemma passes_readOperands {as : List TypedAtom} (has : ∀ a ∈ as, a.Fits V.globals V.names) :
    Passes (Expects V pending) (as.mapM readOperand) := by
  induction as with
  | nil => exact passes_pure []
  | cons a as ih =>
    obtain ⟨ha, has⟩ := List.forall_mem_cons.1 has
    rw [List.mapM_cons]
    exact (passes_readOperand ha).bind fun _ => (ih has).bind fun _ => passes_pure _

lemma passes_readIncoming {ty : Ty} {incoming : List (Atom × String)}
    (hvalues : ∀ a ∈ incoming.map fun entry => (⟨ty, entry.1⟩ : TypedAtom),
      a.Fits V.globals V.names)
    (hlabels : ∀ l ∈ incoming.map Prod.snd, l ∈ V.labels) :
    Passes (Expects V pending) (readIncoming ty incoming) := by
  induction incoming with
  | nil => exact passes_pure []
  | cons entry rest ih =>
    obtain ⟨hentry, hvalues⟩ := List.forall_mem_cons.1 hvalues
    obtain ⟨hlabel, hlabels⟩ := List.forall_mem_cons.1 hlabels
    exact (passes_readOperand hentry).bind fun _ => (passes_blockOf hlabel).bind fun _ =>
      (ih hvalues hlabels).bind fun _ => passes_pure _

/-- An operation whose names are admitted is appended, unless its block is missing. -/
lemma passes_append {c : BlockId} {align : Option Nat} {op : Operation}
    (hoperands : ∀ a ∈ op.operands, a.Fits V.globals V.names)
    (hlabels : ∀ l ∈ op.labels, l ∈ V.labels) :
    Passes (Expects V pending) (append c align op) := by
  have hemit : ∀ spec vs, Passes (Expects V pending) (append.emit c spec vs) := fun spec vs =>
    passes_tryModule fun b h m i hrun =>
      h.keeps (keepsValues_appendInst hrun) rfl rfl h.labels
  have hread : ∀ {a}, a.Fits V.globals V.names → Passes (Expects V pending) (readOperand a) :=
    passes_readOperand
  cases op with
  | binary op flags bits lhs rhs =>
    obtain ⟨hlhs, hrest⟩ := List.forall_mem_cons.1 hoperands
    have hrhs := (List.forall_mem_cons.1 hrest).1
    exact (hread hlhs).bind fun _ => (hread hrhs).bind fun _ => hemit _ _
  | icmp p ty lhs rhs =>
    obtain ⟨hlhs, hrest⟩ := List.forall_mem_cons.1 hoperands
    have hrhs := (List.forall_mem_cons.1 hrest).1
    exact (hread hlhs).bind fun _ => (hread hrhs).bind fun _ => hemit _ _
  | select cond ty ifTrue ifFalse =>
    obtain ⟨hcond, harms⟩ := List.forall_mem_cons.1 hoperands
    obtain ⟨htrue, hrest⟩ := List.forall_mem_cons.1 harms
    have hfalse := (List.forall_mem_cons.1 hrest).1
    exact (hread hcond).bind fun _ => (hread htrue).bind fun _ =>
      (hread hfalse).bind fun _ => hemit _ _
  | phi ty incoming =>
    exact (passes_readIncoming hoperands hlabels).bind fun _ => hemit _ _
  | call ty callee args =>
    obtain ⟨hargs, hcallee⟩ := List.forall_mem_append.1 hoperands
    exact (hread (hcallee _ (List.mem_singleton_self _))).bind fun _ =>
      (passes_readOperands hargs).bind fun _ => hemit _ _
  | alloca ty => exact hemit _ _
  | load ty pointer =>
    exact (hread (hoperands _ (List.mem_singleton_self _))).bind fun _ => hemit _ _
  | store value pointer =>
    obtain ⟨hvalue, hrest⟩ := List.forall_mem_cons.1 hoperands
    have hpointer := (List.forall_mem_cons.1 hrest).1
    exact (hread hvalue).bind fun _ => (hread hpointer).bind fun _ => hemit _ _
  | ret value => exact (passes_readOperands hoperands).bind fun _ => hemit _ _
  | br target =>
    exact (passes_blockOf (hlabels _ (List.mem_singleton_self _))).bind fun _ => hemit _ _
  | condBr cond ifTrue ifFalse =>
    obtain ⟨htrue, hrest⟩ := List.forall_mem_cons.1 hlabels
    have hfalse := (List.forall_mem_cons.1 hrest).1
    exact (hread (hoperands _ (List.mem_singleton_self _))).bind fun _ =>
      (passes_blockOf htrue).bind fun _ => (passes_blockOf hfalse).bind fun _ => hemit _ _
  | unreachable => exact hemit _ _

/-! ## Instruction lines -/

lemma unrefused_takeKey {name : Option String} (h : HasRoom (name.getD (toString b.nextSlot))) :
    Unrefused (takeKey name b) := by
  rw [takeKey_ok_iff.2 ⟨h, rfl, rfl⟩]
  exact unrefused_ok _

section Results

variable {n : String} {ty : Ty} {v : ValueId}

/-- What is still to be defined can be: nothing else has its name, and it is read at its type
only. -/
lemma Expects.nameResult_unrefused (h : b.Expects V ((n, ty) :: pending))
    (hty : b.module.typeOf? v = some ty) :
    Unrefused (nameResult n v b) := by
  have hn := h.later.subset List.mem_cons_self
  have hlast : ∀ b₁ : Body, Unrefused ((do
      let key ← takeKey (some n)
      modify fun b => { b with values := b.values.insert key v }
      tryModule fun m => return (← m.setValueName v (keptName n), ()) : BodyM Unit) b₁) := fun b₁ =>
    StateT.unrefused_bind (unrefused_takeKey (V.room _ hn)) fun _ _ _ =>
      StateT.unrefused_bind (unrefused_ok _) fun _ _ _ => unrefused_tryModule _
  refine StateT.unrefused_bind (unrefused_ok _) fun b₁ b₂ hget => ?_
  obtain ⟨rfl, rfl⟩ := StateT.get_eq_ok.1 hget
  cases hold : b.values[n]? with
  | none => exact hlast b
  | some old =>
    refine StateT.unrefused_liftM_bind fun old' hold' => ?_
    obtain ⟨value, hvalue, hkind⟩ := kind?_eq_some.1 (h.awaited n ty old List.mem_cons_self hold)
    obtain rfl := Option.some.inj (hvalue.symm.trans (getValue_eq_ok.1 hold'))
    rw [if_neg (not_not.2 hkind)]
    refine StateT.unrefused_liftM_bind fun value' hvalue' => ?_
    -- Both the placeholder and the result are of the type that goes with the name.
    obtain ⟨ty', hmem, hty'⟩ := h.typed n old hold
    obtain rfl := V.ty_unique hmem hn
    rw [typeOf?_eq_some.2 ⟨value, hvalue, rfl⟩, ← hty,
      typeOf?_eq_some.2 ⟨value', getValue_eq_ok.1 hvalue', rfl⟩] at hty'
    rw [if_neg (not_not.2 (Option.some.inj hty'))]
    exact StateT.unrefused_bind (unrefused_tryModule _) fun _ b₁ _ => hlast b₁

lemma Expects.nameResult (h : b.Expects V ((n, ty) :: pending)) (hb : b.WellFormed)
    (hty : b.module.typeOf? v = some ty) {i : InstId} (hkind : b.module.kind? v = some (.inst i))
    {u : Unit} (hrun : nameResult n v b = .ok (u, b')) : b'.Expects V pending := by
  obtain ⟨m, m', k, hresolves, hset, rfl⟩ := nameResult_eq_ok hrun
  have hkeeps := (hresolves.bare hb (by simp [hkind])).2.keeps.setValueName hset
  have hm : KeepsValues b.module m' := fun v value hv => hkeeps.value hv
  have hnew : (n, ty) ∉ pending := fun hmem => by
    have honce := V.once.sublist (h.later.sublist.map Prod.fst)
    exact (List.nodup_cons.1 honce).1 (List.mem_map_of_mem hmem)
  refine h.insert (List.suffix_cons _ _) hm rfl rfl
    (h.later.subset List.mem_cons_self) (hm.typeOf? hty) rfl
    (fun x hx hne => (List.mem_cons.1 hx).resolve_left fun heq => hne (congrArg Prod.fst heq))
    (fun hmem => absurd hmem hnew) fun _ => ⟨_, hm.kind? hkind, by simp⟩

end Results

/-- The result of an operation that is appended. -/
lemma result_of_append {c : BlockId} {align : Option Nat} {op : Operation} (hop : op.Valid)
    {i : InstId} (hrun : append c align op b = .ok (i, b')) {inst : Inst}
    (hinst : b'.module.inst? i = some inst) :
    inst.ty = op.resultType ∧ b'.module.kind? inst.result = some (.inst i) ∧
      b'.module.typeOf? inst.result = some op.resultType := by
  obtain ⟨b₁, vs, cs, -, -, -, hemit⟩ := append_eq_ok hop hrun
  obtain ⟨m, happend, rfl⟩ := tryModule_eq_ok.1 hemit
  obtain ⟨hspec, -, -, -, value, hvalue, hkind, hty, -⟩ := inst?_appendInst happend hinst
  exact ⟨congrArg InstSpec.ty hspec, kind?_eq_some.2 ⟨value, hvalue, hkind⟩,
    typeOf?_eq_some.2 ⟨value, hvalue, hty⟩⟩

section Entries

variable {e : Entry} {c : BlockId}

/-- An instruction line whose names are admitted is not refused. -/
lemma Expects.instruction_unrefused (h : b.Expects V (e.bindings ++ pending)) (hopen : b.IsOpen c)
    (he : e.Valid) (hadmitted : e.Admitted V) : Unrefused (instruction e.tokens b) := by
  have hparses : Parses e.tokens e.name e.statement.operation.opcode e.statement :=
    Statement.parses_tokens he.statement he.named.1 he.operands he.group
  obtain ⟨rest, rest', hhead, hphrase⟩ := hparses
  rw [instruction, hhead]
  refine StateT.unrefused_bind (hopen.openBlock ▸ unrefused_ok _) fun c' b₁ hopen' => ?_
  obtain ⟨rfl, rfl⟩ := Prod.mk.inj (Except.ok.inj (hopen.openBlock.symm.trans hopen'))
  have happends : Passes (Expects V (e.bindings ++ pending))
      (append c e.statement.align e.statement.operation) :=
    passes_append hadmitted.operands hadmitted.labels
  obtain ⟨hunrefused, hpasses⟩ := happends b h
  simp only [hphrase]
  refine StateT.unrefused_bind hunrefused fun i b₂ happend => ?_
  have h₂ := hpasses i b₂ happend
  refine StateT.unrefused_bind (unrefused_ok _) fun b₃ b₄ hget => ?_
  obtain ⟨rfl, rfl⟩ := StateT.get_eq_ok.1 hget
  refine StateT.unrefused_liftM_bind fun inst hinst => ?_
  obtain ⟨hty, -, hresult⟩ := result_of_append he.statement.operation happend
    (getInst_eq_ok.1 hinst)
  cases hname : e.name with
  | some n =>
    rw [Entry.bindings, hname] at h₂
    exact StateT.unrefused_bind (h₂.nameResult_unrefused hresult) fun _ _ _ => unrefused_ok _
  | none =>
    rw [hty, he.resultType_eq_void hname]
    exact unrefused_ok _

/-- An instruction line whose names are admitted is read, and defines what it says. -/
theorem Expects.entry (h : b.Expects V (e.bindings ++ pending)) (hb : b.Draft) (hopen : b.IsOpen c)
    (he : e.Valid) (hts : ∀ t ∈ e.tokens, t.Valid) (hadmitted : e.Admitted V) :
    ∃ b', line e.tokens b = .ok ((), b') ∧ b'.Expects V pending := by
  have hfaultless : Faultless (line e.tokens b) := fun x hfault => by
    obtain ⟨d, -, -, hclash⟩ := (line_eq_fault hb hts).1 hfault
    exact hclash.closed c hopen
  obtain ⟨⟨u, b'⟩, hrun⟩ :=
    hfaultless.exists_eq_ok (line_entry e ▸ h.instruction_unrefused hopen he hadmitted)
  refine ⟨b', hrun, ?_⟩
  rw [line_entry] at hrun
  obtain ⟨name, op, s, hparses, c', b₁, i, b₂, inst, b₃, hopen', happend, hinst, hbinds, rfl⟩ :=
    instruction_stages hrun
  obtain ⟨rfl, rfl, rfl⟩ := hparses.unique
    (Statement.parses_tokens he.statement he.named.1 he.operands he.group)
  obtain ⟨rfl, rfl⟩ := Prod.mk.inj (Except.ok.inj (hopen.openBlock.symm.trans hopen'))
  have h₂ := (passes_append hadmitted.operands hadmitted.labels b h).2 i b₂ happend
  obtain ⟨hty, hkind, hresult⟩ := result_of_append he.statement.operation happend hinst
  suffices h₃ : b₃.Expects V pending from ⟨h₃.1, h₃.2, h₃.3, h₃.4, h₃.5, h₃.6⟩
  rw [Entry.bindings] at h₂
  cases hname : e.name with
  | some n =>
    rw [hname] at h₂ hbinds
    exact h₂.nameResult ((append_grows hb.wellFormed happend).wellFormed hb.wellFormed) hresult
      hkind hbinds
  | none =>
    rw [hname] at h₂ hbinds
    obtain rfl : b₃ = b₂ := by
      simpa [Binds, hty, he.resultType_eq_void hname] using hbinds
    exact h₂

end Entries

/-! ## Labels -/

/-- A label that no block has so far begins one. -/
theorem Expects.label (h : b.Expects V pending) (hb : b.Draft) {l : String} (hl : l ∈ V.labels)
    (hroom : HasRoom l) (hplaced : ∀ c, b.isPlaced c = true → ∃ l', b.Labels l' c ∧ l' ≠ l) :
    ∃ b', line [.label l] b = .ok ((), b') ∧ b'.Expects V pending := by
  obtain ⟨b₁, hb₁⟩ : ∃ b₁ : Body, b₁ = { b with nextSlot := slotAfter l b.nextSlot } := ⟨_, rfl⟩
  have hkey : takeKey (some l) b = .ok (l, b₁) := takeKey_ok_iff.2 ⟨hroom, rfl, hb₁⟩
  have h₁ : b₁.Expects V pending := hb₁ ▸ ⟨h.1, h.2, h.3, h.4, h.5, h.6⟩
  have hdraft₁ : b₁.Draft := hb₁ ▸ hb.setNextSlot _
  have hlooks : Passes (Expects V pending) (blockOf l) := passes_blockOf hl
  obtain ⟨hunrefused, hpasses⟩ := hlooks b₁ h₁
  have hbegin : Unrefused (beginBlock l b) := by
    refine StateT.unrefused_bind (hkey ▸ unrefused_ok _) fun key b₂ hkey' => ?_
    obtain ⟨rfl, rfl⟩ := Prod.mk.inj (Except.ok.inj (hkey.symm.trans hkey'))
    refine StateT.unrefused_bind hunrefused fun c b₂ hblock => ?_
    refine StateT.unrefused_bind (unrefused_ok _) fun b₃ b₄ hget => ?_
    obtain ⟨rfl, rfl⟩ := StateT.get_eq_ok.1 hget
    obtain ⟨hlookups, hlabel⟩ := blockOf_eq_ok hblock
    have hnew : ¬ b₂.isPlaced c = true := by
      rw [isPlaced_congr hlookups.widens.functions hlookups.widens.func, hb₁]
      intro hc
      obtain ⟨l', hl', hne⟩ := hplaced c hc
      exact hne ((hdraft₁.lookups hlookups).blocksApart l' l c
        (hlookups.widens.blocks (hb₁ ▸ hl' : b₁.blocks[l']? = some c)) hlabel)
    rw [if_neg hnew]
    exact StateT.unrefused_bind (unrefused_tryModule _) fun _ _ _ => unrefused_ok _
  have hfaultless : Faultless (beginBlock l b) := beginBlock_faultless hb
  obtain ⟨⟨u, b'⟩, hrun⟩ := hfaultless.exists_eq_ok hbegin
  refine ⟨b', hrun, ?_⟩
  simp only [beginBlock, StateT.bind_eq_ok, StateT.get_eq_ok] at hrun
  obtain ⟨_, b₁', hkey', c, b₂, hblock, _, _, ⟨rfl, rfl⟩, hrun⟩ := hrun
  obtain ⟨rfl, rfl⟩ := Prod.mk.inj (Except.ok.inj (hkey.symm.trans hkey'))
  have h₂ := hpasses c b₂ hblock
  split_ifs at hrun
  · simp at hrun
  · obtain ⟨m, hplace, rfl⟩ := enter_eq_ok hrun
    obtain ⟨block, func, -, -, -, rfl⟩ := placeBlock_eq_ok hplace
    exact h₂.keeps (fun _ value hv => ⟨value, hv, rfl, rfl⟩) rfl rfl h₂.labels

/-! ## Paragraphs -/

section Paragraphs

variable {given : String → ValueId → Prop} {ps qs : List Paragraph} {p : Paragraph}
  {ls : List String}

/-- A block that is placed has one of the labels that have been read. -/
lemma Progress.exists_label (h : Progress given b ps) (hlabels : ∀ p ∈ ps, p.label.isSome)
    {c : BlockId} (hc : b.isPlaced c = true) : ∃ l ∈ labelsOf ps, b.Labels l c := by
  obtain ⟨func, hfunc⟩ := h.draft.home
  rw [isPlaced, hfunc, Option.any_some, decide_eq_true_eq] at hc
  obtain ⟨k, hk⟩ := Array.mem_iff_getElem?.1 hc
  rw [← Array.getElem?_toList] at hk
  obtain ⟨p, hp, hholds⟩ := exists_of_forall₂_left (h.holds func hfunc).1 hk
  have hmem := List.mem_of_getElem? hp
  obtain ⟨l, hl⟩ := Option.isSome_iff_exists.1 (hlabels p hmem)
  exact ⟨l, mem_labelsOf.2 ⟨p, hmem, hl⟩, hholds.label l hl⟩

/-- The lines of a block are read if their names are admitted. -/
lemma Expects.entries {es : List Entry} (h : b.Expects V (es.flatMap Entry.bindings ++ pending))
    (hprogress : Progress given b (qs ++ [p])) (hes : ∀ e ∈ es, e.Valid)
    (hends : (p.entries ++ es).Pairwise fun e _ =>
      e.statement.operation.opcode.isTerminator = false)
    (hts : ∀ ts ∈ es.map Entry.tokens, ∀ t ∈ ts, t.Valid) (hadmitted : ∀ e ∈ es, e.Admitted V) :
    ∃ b', lines (es.map Entry.tokens) b = .ok ((), b') ∧ b'.Expects V pending := by
  induction es generalizing b p with
  | nil => exact ⟨b, rfl, h⟩
  | cons e es ih =>
    obtain ⟨he, hes⟩ := List.forall_mem_cons.1 hes
    obtain ⟨hte, hts⟩ := List.forall_mem_cons.1 hts
    obtain ⟨hadmits, hadmitted⟩ := List.forall_mem_cons.1 hadmitted
    have hended : ended (qs ++ [p]) = false := ended_of_pairwise hends
    obtain ⟨c, hopen⟩ := hprogress.exists_isOpen hended
    rw [List.flatMap_cons, List.append_assoc] at h
    obtain ⟨b₁, hline, h₁⟩ := h.entry hprogress.draft hopen he hte hadmits
    have hprogress₁ := hprogress.entry hended he hte hline
    obtain ⟨b', hlines, h'⟩ := ih h₁ hprogress₁ hes (by simpa using hends) hts hadmitted
    exact ⟨b', (lines_cons hline).trans hlines, h'⟩

/-- A block that is not the first is read if its label is new and its names are admitted. -/
theorem Expects.paragraph (h : b.Expects V (p.bindings ++ pending))
    (hprogress : Progress given b ps) (hlabels : ∀ p ∈ ps, p.label.isSome) (hp : p.Valid)
    {l : String} (hlabel : p.label = some l) (hl : l ∈ V.labels) (hroom : HasRoom l)
    (hnew : l ∉ labelsOf ps) (hts : ∀ ts ∈ p.lines, ∀ t ∈ ts, t.Valid)
    (hadmitted : ∀ e ∈ p.entries, e.Admitted V) :
    ∃ b', lines p.lines b = .ok ((), b') ∧ b'.Expects V pending := by
  obtain ⟨_, entries⟩ := p
  obtain rfl := hlabel
  obtain ⟨b₁, hline, h₁⟩ := h.label hprogress.draft hl hroom fun c hc => by
    obtain ⟨l', hmem, hl'⟩ := hprogress.exists_label hlabels hc
    exact ⟨l', hl', fun heq => hnew (heq ▸ hmem)⟩
  have hprogress₁ := hprogress.label (hp.label l rfl) hline
  obtain ⟨b', hlines, h'⟩ := h₁.entries hprogress₁ hp.entries hp.ends
    (fun ts hmem => hts ts (List.mem_cons_of_mem _ hmem)) hadmitted
  exact ⟨b', (lines_cons hline).trans hlines, h'⟩

/-- Blocks are read if their labels are new and their names are admitted. -/
theorem Expects.paragraphs (h : b.Expects V (qs.flatMap Paragraph.bindings ++ pending))
    (hprogress : Progress given b ps) (hqs : ∀ q ∈ qs, q.Valid)
    (hlabels : ∀ q ∈ ps ++ qs, q.label.isSome) (honce : (labelsOf (ps ++ qs)).Nodup)
    (hlabelled : ∀ l ∈ labelsOf qs, l ∈ V.labels ∧ HasRoom l)
    (hts : ∀ ts ∈ qs.flatMap Paragraph.lines, ∀ t ∈ ts, t.Valid)
    (hadmitted : ∀ q ∈ qs, ∀ e ∈ q.entries, e.Admitted V) :
    ∃ b', lines (qs.flatMap Paragraph.lines) b = .ok ((), b') ∧ b'.Expects V pending := by
  induction qs generalizing b ps with
  | nil => exact ⟨b, rfl, h⟩
  | cons q qs ih =>
    obtain ⟨hq, hqs⟩ := List.forall_mem_cons.1 hqs
    obtain ⟨hadmits, hadmitted⟩ := List.forall_mem_cons.1 hadmitted
    obtain ⟨hps, hlabel, -⟩ := List.forall_mem_append.1 hlabels |>.imp_right List.forall_mem_cons.1
    obtain ⟨l, hl⟩ := Option.isSome_iff_exists.1 hlabel
    obtain ⟨hmem, hroom⟩ := hlabelled l (mem_labelsOf.2 ⟨q, List.mem_cons_self, hl⟩)
    have hnew : l ∉ labelsOf ps := fun hold => by
      rw [labelsOf, List.filterMap_append, List.filterMap_cons_some hl] at honce
      exact (List.nodup_append.1 honce).2.2 l hold l List.mem_cons_self rfl
    rw [List.flatMap_cons] at hts
    rw [List.flatMap_cons, List.append_assoc] at h
    obtain ⟨htsq, hts⟩ := List.forall_mem_append.1 hts
    obtain ⟨b₁, hfirst, h₁⟩ := h.paragraph hprogress hps hq hl hmem hroom hnew htsq hadmits
    have hprogress₁ := hprogress.paragraph hq (.inl hlabel) htsq hfirst
    rw [List.append_cons] at hlabels honce
    obtain ⟨b', hrest, h'⟩ := ih h₁ hprogress₁ hqs hlabels honce
      (fun l hl => hlabelled l (mem_labelsOf.2 <| (mem_labelsOf.1 hl).imp fun _ => .imp_left <|
        List.mem_cons_of_mem q)) hts hadmitted
    exact ⟨b', (lines_append hfirst).trans hrest, h'⟩

/-- When all has been defined the body may end. -/
lemma Expects.endError?_eq_none (h : b.Expects V []) (hprogress : Progress given b ps)
    (hlabels : ∀ l ∈ V.labels, l ∈ labelsOf ps) (hends : ended ps = true) : b.endError? = none := by
  obtain ⟨func, hfunc⟩ := hprogress.draft.home
  have hholds := (hprogress.holds func hfunc).1
  have hdefined : func.isDeclaration = false := by
    rw [Func.isDeclaration, Array.isEmpty_eq_false_iff]
    intro hlayout
    rw [hlayout, List.forall₂_nil_left_iff] at hholds
    simp [hholds, ended] at hends
  refine Closed.endError?_eq_none ⟨fun l c hc => ?_, fun n v hv => ?_⟩ hfunc hdefined
    (hprogress.terminated.trans hends)
  · obtain ⟨p, hp, hl⟩ := mem_labelsOf.1 (hlabels l (h.labels l c hc))
    obtain ⟨k, hk⟩ := List.mem_iff_getElem?.1 hp
    obtain ⟨d, hd, hparagraph⟩ := exists_of_forall₂_right hholds hk
    have hlabel : b.blocks[l]? = some d := hparagraph.label l hl
    obtain rfl := Option.some.inj (hc.symm.trans hlabel)
    simpa [isPlaced, hfunc] using Array.mem_toList_iff.1 (List.mem_of_getElem? hd)
  · obtain ⟨ty, hmem, -⟩ := h.typed n v hv
    obtain ⟨w, hw, kind, hkind, hne⟩ := (h.given n ty hmem).resolve_left List.not_mem_nil
    obtain rfl := Option.some.inj (hv.symm.trans hw)
    exact fun hplaceholder => hne (Option.some.inj (hkind.symm.trans hplaceholder))

/-! ## What has been read fits -/

/-- Each of the lines that are read has been read. -/
lemma exists_line_of_lines {tss : List (List Token)} {u : Unit} (hrun : lines tss b = .ok (u, b'))
    {ts : List Token} (hts : ts ∈ tss) : ∃ b₁ b₂, line ts b₁ = .ok ((), b₂) := by
  induction tss generalizing b with
  | nil => simp at hts
  | cons ts' tss ih =>
    obtain ⟨b₁, hline, hrest⟩ := lines_cons_eq_ok hrun
    rcases List.mem_cons.1 hts with rfl | hts
    · exact ⟨b, b₁, hline⟩
    · exact ih hrest hts

lemma hasRoom_of_entry {e : Entry} (he : e.Valid) {u : Unit}
    (hrun : line e.tokens b = .ok (u, b')) :
    ∀ x ∈ e.bindings, HasRoom x.1 := by
  rw [line_entry] at hrun
  obtain ⟨name, op, s, hparses, c, b₁, i, b₂, inst, b₃, -, -, -, hbinds, -⟩ :=
    instruction_stages hrun
  obtain ⟨rfl, -⟩ :=
    hparses.unique (Statement.parses_tokens he.statement he.named.1 he.operands he.group)
  intro x hx
  obtain ⟨n, hn, rfl⟩ := List.mem_map.1 hx
  exact hbinds.hasRoom (by rw [enteredAs, Option.mem_toList.1 hn, Option.some_or])

/-- What has been defined, and labelled, leaves room. -/
lemma hasRoom_of_lines (hps : ∀ p ∈ ps, p.Valid) {u : Unit}
    (hrun : lines (ps.flatMap Paragraph.lines) b = .ok (u, b')) :
    (∀ x ∈ ps.flatMap Paragraph.bindings, HasRoom x.1) ∧ ∀ l ∈ labelsOf ps, HasRoom l := by
  constructor
  · intro x hx
    obtain ⟨p, hp, hx⟩ := List.mem_flatMap.1 hx
    obtain ⟨e, he, hx⟩ := List.mem_flatMap.1 hx
    obtain ⟨b₁, b₂, hline⟩ := exists_line_of_lines hrun (List.mem_flatMap.2
      ⟨p, hp, List.mem_append_right _ (List.mem_map_of_mem he)⟩)
    exact hasRoom_of_entry ((hps p hp).entries e he) hline x hx
  · intro l hl
    obtain ⟨p, hp, hl⟩ := mem_labelsOf.1 hl
    have hmem : [.label l] ∈ ps.flatMap Paragraph.lines :=
      List.mem_flatMap.2 ⟨p, hp, by simp [Paragraph.lines, hl]⟩
    obtain ⟨b₁, b₂, hline⟩ := exists_line_of_lines hrun hmem
    exact hasRoom_of_label hline

lemma nodup_labelsOf {cs : List BlockId} (hcs : cs.Nodup)
    (h : List.Forall₂ (fun c (p : Paragraph) => ∀ l, p.label = some l → b.Labels l c) cs ps) :
    (labelsOf ps).Nodup := by
  induction h with
  | nil => exact List.nodup_nil
  | @cons c p cs ps hcp hrest ih =>
    obtain ⟨hc, hcs⟩ := List.nodup_cons.1 hcs
    cases hl : p.label with
    | none =>
      rw [labelsOf, List.filterMap_cons_none hl]
      exact ih hcs
    | some l =>
      rw [labelsOf, List.filterMap_cons_some hl]
      refine List.nodup_cons.2 ⟨fun hmem => hc ?_, ih hcs⟩
      -- Another block with this label is the same block.
      obtain ⟨q, hq, hql⟩ := mem_labelsOf.1 hmem
      obtain ⟨k, hk⟩ := List.mem_iff_getElem?.1 hq
      obtain ⟨d, hd, hdq⟩ := exists_of_forall₂_right hrest hk
      obtain rfl := Option.some.inj ((hcp l hl).symm.trans (hdq l hql))
      exact List.mem_of_getElem? hd

/-- The labels of blocks that have been read to the end fit. -/
lemma Progress.labelsFit (h : Progress given b ps) (hend : b.endError? = none)
    (hlabels : ∀ p ∈ ps, p.label.isSome) (hroom : ∀ l ∈ labelsOf ps, HasRoom l) : LabelsFit ps := by
  obtain ⟨func, hfunc⟩ := h.draft.home
  have hholds := (h.holds func hfunc).1
  have hclosed := closed_of_endError? hend
  refine ⟨nodup_labelsOf (h.draft.shaped.placedOnce b.func func hfunc)
    (hholds.imp fun c p hp l hl => hp.label l hl), hroom, fun p hp e he l hl => ?_⟩
  obtain ⟨k, hk⟩ := List.mem_iff_getElem?.1 hp
  obtain ⟨c, -, hparagraph⟩ := exists_of_forall₂_right hholds hk
  obtain ⟨block, -, -, hentries⟩ := hparagraph.block
  obtain ⟨j, hj⟩ := List.mem_iff_getElem?.1 he
  obtain ⟨i, -, inst, -, hentry⟩ := exists_of_forall₂_right hentries hj
  obtain ⟨n, hn⟩ := List.mem_iff_getElem?.1 hl
  obtain ⟨d, -, hd⟩ := exists_of_forall₂_left hentry.targets hn
  obtain ⟨l', hl', hd'⟩ := h.exists_label hlabels (hclosed.placed l d hd)
  exact h.draft.blocksApart l l' d hd hd' ▸ hl'

/-- The lines of blocks that all have labels are read to the end exactly if the labels fit. -/
theorem lines_ok_iff (h : b.Expects V (ps.flatMap Paragraph.bindings))
    (hprogress : Progress given b []) (hV : V.labels = labelsOf ps) (hps : ∀ p ∈ ps, p.Valid)
    (hlabels : ∀ p ∈ ps, p.label.isSome) (hends : ended ps = true)
    (hts : ∀ ts ∈ ps.flatMap Paragraph.lines, ∀ t ∈ ts, t.Valid)
    (hfits : ∀ p ∈ ps, ∀ e ∈ p.entries,
      ∀ a ∈ e.statement.operation.operands, a.Fits V.globals V.names) :
    (∃ b', lines (ps.flatMap Paragraph.lines) b = .ok ((), b') ∧ b'.endError? = none) ↔
      LabelsFit ps := by
  constructor
  · rintro ⟨b', hrun, hend⟩
    have hprogress' := hprogress.paragraphs hps (fun p hp => hlabels p (List.mem_of_mem_tail hp))
      (.inl rfl) hts hrun
    exact hprogress'.labelsFit hend hlabels (hasRoom_of_lines hps hrun).2
  · intro hfit
    have hstart : b.Expects V (ps.flatMap Paragraph.bindings ++ []) := by rwa [List.append_nil]
    obtain ⟨b', hrun, h'⟩ := hstart.paragraphs hprogress hps hlabels
      hfit.once (fun l hl => ⟨hV ▸ hl, hfit.room l hl⟩) hts
      fun p hp e he => ⟨hfits p hp e he, fun l hl => hV ▸ hfit.targets p hp e he l hl⟩
    have hprogress' := hprogress.paragraphs hps (fun p hp => hlabels p (List.mem_of_mem_tail hp))
      (.inl rfl) hts hrun
    exact ⟨b', hrun, h'.endError?_eq_none hprogress' (fun l hl => hV ▸ hl) hends⟩

end Paragraphs

end Body
end SsaFold.Text
