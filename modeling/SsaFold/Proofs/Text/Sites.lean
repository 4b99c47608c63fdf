import SsaFold.Proofs.Text.Faults
import SsaFold.Proofs.Text.Reading

/-!
# Where names are written

A name of a body is written at places of its function: at parameters, operands and results.
`Body.Mentions` says at which places a line writes a name.  A result without a name takes the next
number, and so this number is written there.

Each line is a label, or an instruction that is read in stages (`Body.line_cases`): a block is
opened, names are looked up, and the instruction is appended and its result entered.  A name goes on
to stand for what stands at its places (`Body.HoldsAt.line`), and a line makes it stand for what is
at the places that it adds (`Body.Mentions.holdsAt`); but not if an unnamed result takes a number
that has been met (`Body.Retakes`).
-/

namespace SsaFold

/-- A place in a function at which a value stands. -/
inductive Site where
  | param (k : Nat)
  | operand (i : InstId) (k : Nat)
  | result (i : InstId)

/-- What is defined at the place, if it is one of function `f`: a parameter or a result. -/
def Site.kind? (f : FuncId) : Site → Option ValueKind
  | param k => some (.argument f k)
  | operand _ _ => none
  | result i => some (.inst i)

lemma Site.eq_of_kind? {f : FuncId} {x y : Site} {kind : ValueKind} (hx : x.kind? f = some kind)
    (hy : y.kind? f = some kind) : x = y := by
  cases x <;> cases y <;> simp_all [Site.kind?, eq_comm]

namespace Module

variable {m m' : Module} {f g : FuncId} {s : ValueId → ValueId} {x y : Site} {v : ValueId}

/-- The value at a place of function `f`. -/
def valueAt? (m : Module) (f : FuncId) : Site → Option ValueId
  | .param k => (m.func? f).bind fun func => func.params[k]?
  | .operand i k => (m.inst? i).bind fun inst => inst.operandValues[k]?
  | .result i => (m.inst? i).map Inst.result

/-- A parameter or result knows where it is defined. -/
lemma kind?_of_valueAt? (h : m.Draft) (hshaped : m.Shaped) (hv : m.valueAt? f x = some v)
    {kind : ValueKind} (hx : x.kind? f = some kind) : m.kind? v = some kind := by
  cases x with
  | param k =>
    obtain rfl := Option.some.inj hx
    obtain ⟨func, hf, hparam⟩ := Option.bind_eq_some_iff.1 hv
    obtain ⟨value, hvalue, hkind, -⟩ := (h.funcs f func hf).params k v hparam
    exact kind?_eq_some.2 ⟨value, hvalue, hkind⟩
  | operand i k => cases hx
  | result i =>
    obtain rfl := Option.some.inj hx
    obtain ⟨inst, hi, rfl⟩ := Option.map_eq_some_iff.1 hv
    obtain ⟨value, hvalue, hkind⟩ := hshaped.result i inst hi
    exact kind?_eq_some.2 ⟨value, hvalue, hkind⟩

/-- A value is defined at one place. -/
lemma site_unique (h : m.Draft) (hshaped : m.Shaped) (hx : (x.kind? f).isSome)
    (hy : (y.kind? f).isSome) (hv : m.valueAt? f x = some v) (hw : m.valueAt? f y = some v) :
    x = y := by
  obtain ⟨kind, hx⟩ := Option.isSome_iff_exists.1 hx
  obtain ⟨kind', hy⟩ := Option.isSome_iff_exists.1 hy
  have hkind := kind?_of_valueAt? h hshaped hv hx
  obtain rfl := Option.some.inj (hkind.symm.trans (kind?_of_valueAt? h hshaped hw hy))
  exact Site.eq_of_kind? hx hy

/-- What stands at a place is renamed with the reads. -/
lemma Extends.valueAt? (hm : m.Extends g s m') (h : m.Draft) (hshaped : m.Shaped)
    (hv : m.valueAt? f x = some v) : m'.valueAt? f x = some (s v) := by
  -- A parameter or result is no placeholder, and so it is not renamed.
  have hfixed : ∀ {kind}, x.kind? f = some kind → s v = v := fun {kind} hx => by
    refine hm.fixed (kind?_of_valueAt? h hshaped hv hx) ?_
    rintro rfl
    cases x <;> cases hx
  cases x with
  | param k =>
    obtain ⟨func, hf, hparam⟩ := Option.bind_eq_some_iff.1 hv
    obtain ⟨layout, hf', -⟩ := hm.func hf
    rw [Module.valueAt?, hf', Option.bind_some, hfixed rfl]
    exact hparam
  | operand i k =>
    obtain ⟨inst, hi, hoperand⟩ := Option.bind_eq_some_iff.1 hv
    obtain ⟨inst', hi', hbare⟩ := hm.inst hi
    rw [Module.valueAt?, hi', Option.bind_some, Inst.operandValues_eq_of_bare hbare,
      Inst.operandValues_rename, List.getElem?_map, hoperand, Option.map_some]
  | result i =>
    obtain ⟨inst, hi, hresult⟩ := Option.map_eq_some_iff.1 hv
    obtain ⟨inst', hi', hbare⟩ := hm.inst hi
    rw [Module.valueAt?, hi', Option.map_some, Inst.result_eq_of_bare hbare, Inst.result_rename,
      hresult, hfixed rfl]

end Module

namespace Text.Body

open SsaFold.Module

variable {b b' : Body} {n : String} {x : Site}

/-! ## Places -/

/-- At the place stands what the name stands for. -/
def HoldsAt (b : Body) (n : String) (x : Site) : Prop :=
  ∃ v, b.module.valueAt? b.func x = some v ∧ b.values[n]? = some v

/-- The line has a result without a name, which takes the number `n`. -/
def Numbers (b : Body) (ts : List Token) (n : String) : Prop :=
  ∃ op s c b₁, Parses ts none op s ∧ s.operation.resultType ≠ .void ∧ openBlock b = .ok (c, b₁) ∧
    n = toString b₁.nextSlot

/-- A result with a name takes no number. -/
lemma Parses.not_numbers {ts : List Token} {own : String} {op : Opcode} {s : Statement}
    (h : Parses ts (some own) op s) : ¬ b.Numbers ts n := by
  rintro ⟨op', s', c, b₁, h', -⟩
  cases (h.unique h').1

/-- The line writes the name at the place.  Its instruction is the next one of the module. -/
inductive Mentions (b : Body) (ts : List Token) (n : String) : Site → Prop
  | operand {name : Option String} {op : Opcode} {s : Statement} {k : Nat} {ty : Ty}
      (parses : Parses ts name op s) (reads : s.operation.operands[k]? = some ⟨ty, .localName n⟩) :
      Mentions b ts n (.operand ⟨b.module.insts.size⟩ k)
  | named {op : Opcode} {s : Statement} (parses : Parses ts (some n) op s) :
      Mentions b ts n (.result ⟨b.module.insts.size⟩)
  | numbered (numbers : b.Numbers ts n) : Mentions b ts n (.result ⟨b.module.insts.size⟩)

/-- An unnamed result takes the number, although it has been met: in an earlier line, or as an
operand of this one. -/
structure Retakes (b : Body) (ts : List Token) (n : String) : Prop where
  numbers : b.Numbers ts n
  met : (∃ v, b.values[n]? = some v) ∨ ∃ i k, b.Mentions ts n (.operand i k)

/-! ## Names that are not met -/

/-- A step that gives the name no meaning. -/
def Leaves {α : Type} (n : String) (f : BodyM α) : Prop :=
  ∀ b a b', f b = .ok (a, b') → b.values[n]? = none → b'.values[n]? = none

section Leaves

variable {α β : Type}

lemma Leaves.bind {f : BodyM α} {g : α → BodyM β} (hf : Leaves n f) (hg : ∀ a, Leaves n (g a)) :
    Leaves n (f >>= g) := by
  intro b y b' hrun hnone
  obtain ⟨a, b₁, hfirst, hrest⟩ := StateT.bind_eq_ok.1 hrun
  exact hg a b₁ y b' hrest (hf b a b₁ hfirst hnone)

lemma leaves_pure (a : α) : Leaves n (pure a : BodyM α) := by
  intro b y b' hrun hnone
  obtain ⟨-, rfl⟩ := StateT.pure_eq_ok.1 hrun
  exact hnone

lemma leaves_refuse (e : ScopeError) : Leaves n (refuse e : BodyM α) := fun _ _ _ hrun =>
  (refuse_eq_ok.1 hrun).elim

lemma leaves_get : Leaves n (get : BodyM Body) := by
  intro b y b' hrun hnone
  obtain ⟨-, rfl⟩ := StateT.get_eq_ok.1 hrun
  exact hnone

lemma leaves_liftM (x : Except Fault α) : Leaves n (liftM x : BodyM α) := by
  intro b y b' hrun hnone
  obtain ⟨-, rfl⟩ := StateT.liftM_eq_ok.1 hrun
  exact hnone

lemma leaves_modify {f : Body → Body}
    (hf : ∀ b : Body, b.values[n]? = none → (f b).values[n]? = none) :
    Leaves n (modify f : BodyM PUnit) := by
  intro b y b' hrun hnone
  obtain rfl := StateT.modify_eq_ok.1 hrun
  exact hf b hnone

lemma leaves_onModule (f : Module → Module × α) : Leaves n (onModule f) := by
  intro b y b' hrun hnone
  obtain ⟨-, rfl⟩ := onModule_eq_ok.1 hrun
  exact hnone

lemma leaves_tryModule (f : Module → Except Fault (Module × α)) : Leaves n (tryModule f) := by
  intro b y b' hrun hnone
  obtain ⟨m, -, rfl⟩ := tryModule_eq_ok.1 hrun
  exact hnone

lemma blockOf_values {label : String} {c : BlockId} (hrun : blockOf label b = .ok (c, b')) :
    b'.values = b.values := by
  simp only [blockOf, StateT.bind_eq_ok, StateT.get_eq_ok] at hrun
  obtain ⟨_, _, ⟨rfl, rfl⟩, hrun⟩ := hrun
  cases hblock : b.blocks[label]? with
  | some known =>
    simp only [hblock, StateT.pure_eq_ok] at hrun
    obtain ⟨-, rfl⟩ := hrun
    rfl
  | none =>
    simp only [hblock, StateT.bind_eq_ok, onModule_eq_ok, StateT.modify_eq_ok,
      StateT.pure_eq_ok] at hrun
    obtain ⟨_, _, ⟨-, rfl⟩, _, _, rfl, -, rfl⟩ := hrun
    rfl

lemma leaves_blockOf (label : String) : Leaves n (blockOf label) := by
  intro b c b' hrun hnone
  rwa [blockOf_values hrun]

lemma leaves_readLocal {ty : Ty} {name : String} (hname : name ≠ n) :
    Leaves n (readLocal ty name) := by
  refine leaves_get.bind fun b => ?_
  cases b.values[name]? with
  | some v =>
    refine (leaves_liftM _).bind fun value => ?_
    dsimp only
    split_ifs
    · exact (leaves_refuse _).bind fun _ => leaves_pure _
    · exact leaves_pure _
  | none =>
    refine (leaves_onModule _).bind fun v => (leaves_modify fun b hnone => ?_).bind fun _ =>
      leaves_pure v
    rwa [getElem?_insert, if_neg hname]

lemma leaves_readOperand {a : TypedAtom} (ha : a.atom ≠ .localName n) :
    Leaves n (readOperand a) := by
  obtain ⟨ty, atom⟩ := a
  cases atom with
  | localName name => exact leaves_readLocal fun heq => ha (congrArg Atom.localName heq)
  | int value =>
    cases ty with
    | int bits => exact leaves_tryModule (·.constInt bits value)
    | _ => exact leaves_refuse _
  | bool value =>
    rw [readOperand]
    by_cases hty : ty = .i1
    · simp only [hty, ne_eq, not_true_eq_false, if_false]
      exact leaves_tryModule _
    · simp only [hty, ne_eq, not_false_eq_true, if_true]
      exact (leaves_refuse _).bind fun _ => leaves_tryModule _
  | null =>
    rw [readOperand]
    by_cases hty : ty = .ptr
    · simp only [hty, ne_eq, not_true_eq_false, if_false]
      exact leaves_onModule _
    · simp only [hty, ne_eq, not_false_eq_true, if_true]
      exact (leaves_refuse _).bind fun _ => leaves_onModule _
  | globalName name =>
    refine leaves_get.bind fun b => ?_
    dsimp only
    cases b.symbols[name]? with
    | none => exact leaves_refuse _
    | some v =>
      dsimp only
      split_ifs
      · exact (leaves_refuse _).bind fun _ => leaves_pure _
      · exact leaves_pure _

lemma leaves_readOperands {as : List TypedAtom} (has : ∀ a ∈ as, a.atom ≠ .localName n) :
    Leaves n (as.mapM readOperand) := by
  induction as with
  | nil => exact leaves_pure []
  | cons a as ih =>
    obtain ⟨ha, has⟩ := List.forall_mem_cons.1 has
    rw [List.mapM_cons]
    exact (leaves_readOperand ha).bind fun _ => (ih has).bind fun _ => leaves_pure _

lemma leaves_readIncoming {ty : Ty} {incoming : List (Atom × String)}
    (hincoming : ∀ entry ∈ incoming, entry.1 ≠ .localName n) :
    Leaves n (readIncoming ty incoming) := by
  induction incoming with
  | nil => exact leaves_pure []
  | cons entry rest ih =>
    obtain ⟨hentry, hrest⟩ := List.forall_mem_cons.1 hincoming
    exact (leaves_readOperand hentry).bind fun _ => (leaves_blockOf _).bind fun _ =>
      (ih hrest).bind fun _ => leaves_pure _

lemma leaves_append {block : BlockId} {align : Option Nat} {op : Operation}
    (hop : ∀ a ∈ op.operands, a.atom ≠ .localName n) : Leaves n (append block align op) := by
  have hemit : ∀ spec vs, Leaves n (append.emit block spec vs) := fun spec vs => leaves_tryModule _
  cases op with
  | binary op flags bits lhs rhs =>
    obtain ⟨hlhs, hrest⟩ := List.forall_mem_cons.1 hop
    have hrhs := (List.forall_mem_cons.1 hrest).1
    exact (leaves_readOperand hlhs).bind fun _ => (leaves_readOperand hrhs).bind fun _ => hemit _ _
  | icmp p ty lhs rhs =>
    obtain ⟨hlhs, hrest⟩ := List.forall_mem_cons.1 hop
    have hrhs := (List.forall_mem_cons.1 hrest).1
    exact (leaves_readOperand hlhs).bind fun _ => (leaves_readOperand hrhs).bind fun _ => hemit _ _
  | select cond ty ifTrue ifFalse =>
    obtain ⟨hcond, harms⟩ := List.forall_mem_cons.1 hop
    obtain ⟨htrue, hrest⟩ := List.forall_mem_cons.1 harms
    have hfalse := (List.forall_mem_cons.1 hrest).1
    exact (leaves_readOperand hcond).bind fun _ => (leaves_readOperand htrue).bind fun _ =>
      (leaves_readOperand hfalse).bind fun _ => hemit _ _
  | phi ty incoming =>
    have hincoming : ∀ entry ∈ incoming, entry.1 ≠ .localName n := fun entry hentry =>
      hop _ (List.mem_map_of_mem hentry)
    exact (leaves_readIncoming hincoming).bind fun _ => hemit _ _
  | call ty callee args =>
    obtain ⟨hargs, hcallee⟩ := List.forall_mem_append.1 hop
    exact (leaves_readOperand (hcallee _ (List.mem_singleton_self _))).bind fun _ =>
      (leaves_readOperands hargs).bind fun _ => hemit _ _
  | alloca ty => exact hemit _ _
  | load ty pointer =>
    exact (leaves_readOperand (hop _ (List.mem_singleton_self _))).bind fun _ => hemit _ _
  | store value pointer =>
    obtain ⟨hvalue, hrest⟩ := List.forall_mem_cons.1 hop
    have hpointer := (List.forall_mem_cons.1 hrest).1
    exact (leaves_readOperand hvalue).bind fun _ => (leaves_readOperand hpointer).bind fun _ =>
      hemit _ _
  | ret value => exact (leaves_readOperands hop).bind fun _ => hemit _ _
  | br target => exact (leaves_blockOf _).bind fun _ => hemit _ _
  | condBr cond ifTrue ifFalse =>
    exact (leaves_readOperand (hop _ (List.mem_singleton_self _))).bind fun _ =>
      (leaves_blockOf _).bind fun _ => (leaves_blockOf _).bind fun _ => hemit _ _
  | unreachable => exact hemit _ _

end Leaves

/-! ## Stages -/

/-- The name under which a result is entered: its own, or the number if there is none. -/
def enteredAs (name : Option String) (ty : Ty) (slot : Nat) : Option String :=
  name.or (if ty = .void then none else some (toString slot))

/-- What the reads become when a result is entered: those of its own name are sent to it. -/
def sending (b : Body) (name : Option String) (v : ValueId) : ValueId → ValueId :=
  name.elim id (b.rebinding · v)

/-- What it leaves to append an instruction and to enter its result. -/
structure Enters (i : InstId) (inst : Inst) (name : Option String) (b b' : Body) : Prop where
  /-- Only a name that is read before its definition can be given to the result. -/
  pending : ∀ (n : String) v, name = some n → b.values[n]? = some v →
    b.module.kind? v = some .placeholder
  stays : Stays (b.sending name inst.result) b b'
  live : ∃ inst', b'.module.inst? i = some inst' ∧
    inst'.bare = (inst.rename (b.sending name inst.result)).bare
  values : ∀ n : String, b'.values[n]? =
    if enteredAs name inst.ty b.nextSlot = some n then some inst.result else b.values[n]?

lemma Binds.enters (h : b.Draft) {c : BlockId} {spec : InstSpec} {vs : List ValueId} {m : Module}
    {i : InstId} {inst : Inst} {name : Option String} (hc : b.module.owner? c = some b.func)
    (happend : b.module.appendInst c spec vs = .ok (m, i))
    (hwell : WellFormed { b with module := m }) (hinst : m.inst? i = some inst)
    (hbinds : Binds name inst { b with module := m } b') :
    Enters i inst name b b' := by
  have hextends : b.module.Extends b.func id m := .appendInst happend hc
  have hlive : ∃ inst', m.inst? i = some inst' ∧ inst'.bare = (inst.rename id).bare :=
    ⟨inst, hinst, by rw [Inst.rename_id]⟩
  cases name with
  | none =>
    simp only [Binds] at hbinds
    split_ifs at hbinds with hvoid
    · subst hbinds
      exact ⟨by simp, ⟨rfl, rfl, hextends⟩, hlive, fun n => by simp [enteredAs, hvoid]⟩
    · obtain ⟨k, rfl⟩ := numberResult_eq_ok hbinds
      refine ⟨by simp, ⟨rfl, rfl, hextends⟩, hlive, fun n => ?_⟩
      simp only [enteredAs, if_neg hvoid, Option.none_or, Option.some.injEq]
      exact getElem?_insert _ _ _ _
  | some name =>
    obtain ⟨m₁, m₂, k, hresolves, -, -, hall, -, hlive, rfl⟩ :=
      nameResult_appended hc happend hwell hinst hbinds
    refine ⟨?_, ⟨rfl, rfl, hall⟩, hlive, fun n => ?_⟩
    · rintro _ v ⟨⟩ hv
      rcases hresolves with ⟨hnone, -⟩ | ⟨old, -, hold, hkind, -⟩
      · exact absurd (hv.symm.trans hnone) (by simp)
      · obtain rfl := Option.some.inj (hv.symm.trans hold)
        exact h.kind?_of_keeps hextends.keeps hv hkind
    · simp only [enteredAs, Option.some_or, Option.some.injEq]
      exact getElem?_insert _ _ _ _

/-- How an instruction line is read: a block is opened, names are looked up, and the instruction is
appended and its result entered. -/
structure Stages (ts : List Token) (name : Option String) (s : Statement) (inst : Inst)
    (b b₁ b₂ b' : Body) : Prop where
  parses : ∃ op, Parses ts name op s
  opens : ∃ c, openBlock b = .ok (c, b₁)
  /-- To open a block tells nothing of names. -/
  opened : Stays id b b₁ ∧ b₁.values = b.values ∧ b₁.module.insts = b.module.insts
  lookups : Lookups b₁ b₂
  /-- Only names of operands are looked up. -/
  unmet : ∀ n : String, b₁.values[n]? = none →
    (∀ a ∈ s.operation.operands, a.atom ≠ .localName n) → b₂.values[n]? = none
  operands : List.Forall₂ b₂.Denotes s.operation.operands inst.operandValues
  ty : inst.ty = s.operation.resultType
  enters : Enters ⟨b.module.insts.size⟩ inst name b₂ b'

lemma Begins.insts {label : String} {c : BlockId} (h : Begins label c b b') :
    b'.module.insts = b.module.insts := by
  obtain ⟨k, b₁, m, hlookups, -, hplace, rfl⟩ := h.looked
  obtain ⟨block, func, -, -, -, rfl⟩ := placeBlock_eq_ok hplace
  exact hlookups.widens.insts

lemma openBlock_opened (h : b.Draft) {c : BlockId} (hrun : openBlock b = .ok (c, b')) :
    Stays id b b' ∧ b'.values = b.values ∧ b'.module.insts = b.module.insts := by
  refine ⟨?_, ?_, ?_⟩
  · rcases openBlock_eq_ok hrun with ⟨-, rfl⟩ | ⟨-, hbegins⟩
    · exact .refl b'
    · exact hbegins.stays h
  · simp only [openBlock, StateT.bind_eq_ok, StateT.get_eq_ok] at hrun
    obtain ⟨_, _, ⟨rfl, rfl⟩, hrun⟩ := hrun
    split at hrun
    · obtain ⟨-, rfl⟩ := StateT.pure_eq_ok.1 hrun
      rfl
    · simp only [StateT.bind_eq_ok, StateT.pure_eq_ok] at hrun
      obtain ⟨key, b₁, hkey, block, b₂, hblock, _, b₃, henter, -, rfl⟩ := hrun
      obtain ⟨-, rfl⟩ := takeKey_eq_ok hkey
      obtain ⟨m, -, rfl⟩ := enter_eq_ok henter
      exact (blockOf_values hblock :)
  · rcases openBlock_eq_ok hrun with ⟨-, rfl⟩ | ⟨-, hbegins⟩
    · rfl
    · exact hbegins.insts

lemma exists_stages (h : b.Draft) {ts : List Token} (hts : ∀ t ∈ ts, t.Valid) {u : Unit}
    (hrun : instruction ts b = .ok (u, b')) :
    ∃ name s inst b₁ b₂, Stages ts name s inst b b₁ b₂ b' := by
  obtain ⟨name, op, s, hparses, c, b₁, i, b₃, inst, b₄, hopen, happend, hinst, hbinds, rfl⟩ :=
    instruction_stages hrun
  obtain ⟨h₁, hc⟩ := h.openBlock hopen
  have hwell := (append_grows h₁.wellFormed happend).wellFormed h₁.wellFormed
  obtain ⟨b₂, vs, cs, hlookups, hvs, -, hemit⟩ :=
    append_eq_ok (hparses.valid hts).2.1.operation happend
  obtain ⟨m, happendInst, rfl⟩ := tryModule_eq_ok.1 hemit
  have hunmet : ∀ n : String, b₁.values[n]? = none →
      (∀ a ∈ s.operation.operands, a.atom ≠ .localName n) → b₂.values[n]? = none :=
    fun n hnone hop => leaves_append hop b₁ _ { b₂ with module := m } happend hnone
  have hw := hlookups.widens
  have hopened := openBlock_opened h hopen
  obtain ⟨hspec, hvalues, -⟩ := inst?_appendInst happendInst hinst
  have henters := hbinds.enters (h₁.lookups hlookups) (hw.func ▸ hw.module.keeps.owner? hc)
    happendInst hwell hinst
  obtain ⟨rfl, -⟩ := bare_appendInst happendInst
  rw [hw.insts, hopened.2.2] at henters
  exact ⟨name, s, inst, b₁, b₂, ⟨op, hparses⟩, ⟨c, hopen⟩, hopened, hlookups,
    hunmet, hvalues ▸ hvs, congrArg InstSpec.ty hspec,
    henters.pending, ⟨henters.stays.1, henters.stays.2, henters.stays.3⟩, henters.live,
    henters.values⟩

/-- A line is a label, which tells nothing of names, or an instruction. -/
lemma line_cases (h : b.Draft) {ts : List Token} (hts : ∀ t ∈ ts, t.Valid) {u : Unit}
    (hrun : line ts b = .ok (u, b')) :
    (¬ IsInstruction ts ∧ Stays id b b' ∧ b'.values = b.values) ∨
      ∃ name s inst b₁ b₂, Stages ts name s inst b b₁ b₂ b' := by
  unfold Body.line at hrun
  split at hrun
  · obtain ⟨c, hbegins⟩ := beginBlock_eq_ok hrun
    refine .inl ⟨not_isInstruction_label, hbegins.stays h, ?_⟩
    simp only [beginBlock, StateT.bind_eq_ok, StateT.get_eq_ok] at hrun
    obtain ⟨_, b₁, hkey, c', b₂, hblock, _, _, ⟨rfl, rfl⟩, hrun⟩ := hrun
    obtain ⟨-, rfl⟩ := takeKey_eq_ok hkey
    split_ifs at hrun
    · simp at hrun
    · obtain ⟨m, -, rfl⟩ := enter_eq_ok hrun
      exact (blockOf_values hblock :)
  · simp at hrun
  · exact .inr (exists_stages h hts hrun)

lemma Parses.isInstruction {ts : List Token} {name : Option String} {op : Opcode} {s : Statement}
    (h : Parses ts name op s) : IsInstruction ts := by
  obtain ⟨rest, rest', hhead, -⟩ := h
  exact ⟨_, hhead⟩

section Stages

variable {ts : List Token} {name : Option String} {s : Statement} {inst : Inst} {b₁ b₂ : Body}
  {v : ValueId}

lemma Stages.draft (h : Stages ts name s inst b b₁ b₂ b') (hb : b.Draft) : b₂.Draft := by
  obtain ⟨c, hopen⟩ := h.opens
  exact (hb.openBlock hopen).1.lookups h.lookups

lemma Stages.stays (h : Stages ts name s inst b b₁ b₂ b') :
    Stays (b₂.sending name inst.result) b b' :=
  (h.opened.1.trans h.lookups.widens.stays).trans h.enters.stays

/-- What a name stands for when the names of the line have been looked up. -/
lemma Stages.looked (h : Stages ts name s inst b b₁ b₂ b') (hv : b.values[n]? = some v) :
    b₂.values[n]? = some v :=
  h.lookups.widens.values (h.opened.2.1 ▸ hv)

lemma Stages.numbers_iff (h : Stages ts name s inst b b₁ b₂ b') :
    b.Numbers ts n ↔ name = none ∧ inst.ty ≠ .void ∧ n = toString b₂.nextSlot := by
  obtain ⟨op, hparses⟩ := h.parses
  obtain ⟨c, hopen⟩ := h.opens
  rw [h.ty, h.lookups.widens.nextSlot]
  constructor
  · rintro ⟨op', s', c', b₁', hparses', hvoid, hopen', rfl⟩
    obtain ⟨rfl, rfl, rfl⟩ := hparses.unique hparses'
    obtain ⟨rfl, rfl⟩ := Prod.mk.inj (Except.ok.inj (hopen.symm.trans hopen'))
    exact ⟨rfl, hvoid, rfl⟩
  · rintro ⟨rfl, hvoid, rfl⟩
    exact ⟨op, s, c, b₁, hparses, hvoid, hopen, rfl⟩

/-- The result is entered under its own name, or under the number that it takes. -/
lemma Stages.enteredAs_iff (h : Stages ts name s inst b b₁ b₂ b') :
    enteredAs name inst.ty b₂.nextSlot = some n ↔ name = some n ∨ b.Numbers ts n := by
  rw [h.numbers_iff]
  cases name with
  | some own => simp [enteredAs]
  | none =>
    by_cases hvoid : inst.ty = .void
    · simp [enteredAs, hvoid]
    · simp [enteredAs, hvoid, eq_comm]

/-- A name stands for what it stood for, renamed, unless it is a number that the result takes. -/
lemma Stages.carries (h : Stages ts name s inst b b₁ b₂ b') (hb : b.Draft)
    (hv : b₂.values[n]? = some v) (hn : ¬ b.Numbers ts n) :
    b'.values[n]? = some (b₂.sending name inst.result v) := by
  rw [h.enters.values]
  split_ifs with hkey
  · obtain rfl := (h.enteredAs_iff.1 hkey).resolve_right hn
    exact congrArg some (if_pos hv).symm
  · rw [hv]
    cases name with
    | none => rfl
    | some own =>
      refine congrArg some (if_neg fun hown => hkey ?_).symm
      -- No two names stand for one placeholder.
      obtain rfl := (h.draft hb).apart own n v hown hv (h.enters.pending own v rfl hown)
      rfl

/-- The value of the result is new, and no placeholder. -/
lemma Stages.result (h : Stages ts name s inst b b₁ b₂ b') (hb' : b'.Draft) :
    b'.module.valueAt? b'.func (.result ⟨b.module.insts.size⟩) = some inst.result ∧
      b'.module.kind? inst.result = some (.inst ⟨b.module.insts.size⟩) := by
  obtain ⟨inst', hlive, hbare⟩ := h.enters.live
  have hresult : inst'.result = inst.result :=
    (Inst.result_eq_of_bare hbare).trans (inst.result_rename _)
  have hvalue : b'.module.valueAt? b'.func (.result ⟨b.module.insts.size⟩) = some inst.result := by
    rw [valueAt?, hlive, Option.map_some, hresult]
  exact ⟨hvalue, kind?_of_valueAt? hb'.module hb'.shaped hvalue rfl⟩

/-- Where an operand is written, its value is the one that was looked up, renamed. -/
lemma Stages.operand (h : Stages ts name s inst b b₁ b₂ b') {k : Nat} {ty : Ty}
    (hk : s.operation.operands[k]? = some ⟨ty, .localName n⟩) : ∃ v, b₂.values[n]? = some v ∧
      b'.module.valueAt? b'.func (.operand ⟨b.module.insts.size⟩ k)
        = some (b₂.sending name inst.result v) := by
  obtain ⟨v, hv, hdenotes⟩ := exists_of_forall₂_left h.operands hk
  obtain ⟨inst', hlive, hbare⟩ := h.enters.live
  refine ⟨v, hdenotes, ?_⟩
  rw [valueAt?, hlive, Option.bind_some, Inst.operandValues_eq_of_bare hbare,
    Inst.operandValues_rename, List.getElem?_map, hv, Option.map_some]

lemma Stages.mentions_operand (h : Stages ts name s inst b b₁ b₂ b') {i : InstId} {k : Nat}
    (hx : b.Mentions ts n (.operand i k)) :
    i = ⟨b.module.insts.size⟩ ∧ ∃ ty, s.operation.operands[k]? = some ⟨ty, .localName n⟩ := by
  obtain ⟨op, hparses⟩ := h.parses
  cases hx with
  | operand hparses' hk =>
    obtain ⟨-, -, rfl⟩ := hparses.unique hparses'
    exact ⟨rfl, _, hk⟩

lemma Stages.mentions_result (h : Stages ts name s inst b b₁ b₂ b') {i : InstId} :
    b.Mentions ts n (.result i) ↔
      i = ⟨b.module.insts.size⟩ ∧ enteredAs name inst.ty b₂.nextSlot = some n := by
  obtain ⟨op, hparses⟩ := h.parses
  rw [h.enteredAs_iff]
  constructor
  · intro hx
    cases hx with
    | named hparses' => exact ⟨rfl, .inl (hparses.unique hparses').1⟩
    | numbered hnumbers => exact ⟨rfl, .inr hnumbers⟩
  · rintro ⟨rfl, rfl | hnumbers⟩
    · exact .named hparses
    · exact .numbered hnumbers

end Stages

/-! ## Lines -/

section Lines

variable {ts : List Token} {u : Unit}

lemma Mentions.isInstruction (h : b.Mentions ts n x) : IsInstruction ts := by
  cases h with
  | operand hparses _ => exact hparses.isInstruction
  | named hparses => exact hparses.isInstruction
  | numbered hnumbers =>
    obtain ⟨op, s, c, b₁, hparses, -⟩ := hnumbers
    exact hparses.isInstruction

/-- A line keeps to the function of the body, and what a name stands for is renamed with the
reads. -/
lemma line_carries (h : b.Draft) (hts : ∀ t ∈ ts, t.Valid) (hrun : line ts b = .ok (u, b')) :
    ∃ s, Stays s b b' ∧ ∀ (n : String) v, b.values[n]? = some v → ¬ b.Retakes ts n →
      b'.values[n]? = some (s v) := by
  rcases line_cases h hts hrun with ⟨-, hstays, hvalues⟩ | ⟨name, s, inst, b₁, b₂, hline⟩
  · exact ⟨id, hstays, fun n v hv _ => hvalues ▸ hv⟩
  · exact ⟨_, hline.stays, fun n v hv hn =>
      hline.carries h (hline.looked hv) fun hnumbers => hn ⟨hnumbers, .inl ⟨v, hv⟩⟩⟩

/-- What stands at the places of a name goes on to be what it stands for. -/
theorem HoldsAt.line (hx : b.HoldsAt n x) (h : b.Draft) (hts : ∀ t ∈ ts, t.Valid)
    (hrun : line ts b = .ok (u, b')) (hn : ¬ b.Retakes ts n) : b'.HoldsAt n x := by
  obtain ⟨v, hvalue, hv⟩ := hx
  obtain ⟨s, hstays, hcarries⟩ := line_carries h hts hrun
  refine ⟨s v, ?_, hcarries n v hv hn⟩
  rw [hstays.func]
  exact hstays.module.valueAt? h.module h.shaped hvalue

/-- So does what stands at the places that are new. -/
theorem Mentions.holdsAt (hx : b.Mentions ts n x) (h : b.Draft) (hts : ∀ t ∈ ts, t.Valid)
    (hrun : Body.line ts b = .ok (u, b')) (hn : ¬ b.Retakes ts n) : b'.HoldsAt n x := by
  rcases line_cases h hts hrun with ⟨hlabel, -⟩ | ⟨name, s, inst, b₁, b₂, hline⟩
  · exact absurd hx.isInstruction hlabel
  cases x with
  | param k => cases hx
  | operand i k =>
    obtain ⟨rfl, ty, hk⟩ := hline.mentions_operand hx
    obtain ⟨v, hv, hvalue⟩ := hline.operand hk
    exact ⟨_, hvalue, hline.carries h hv fun hnumbers => hn ⟨hnumbers, .inr ⟨_, k, hx⟩⟩⟩
  | result i =>
    obtain ⟨rfl, hkey⟩ := hline.mentions_result.1 hx
    refine ⟨inst.result, (hline.result (h.line hts hrun)).1, ?_⟩
    rw [hline.enters.values, if_pos hkey]

end Lines

end Text.Body
end SsaFold
