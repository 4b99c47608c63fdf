import SsaFold.Proofs.Growth
import SsaFold.Text.Body

/-!
# Reading a body keeps a module well-formed

The reader of a body asks for the types of names, and it refuses a name whose type is not the one
at which it is read.  So an operand has the type that is written before it, and an instruction is
appended with operands of accepted types.  A name may be read before it is defined; then a
placeholder stands for it, and the definition takes its place only if it is of the same type.

Each function of the reader has one lemma, read off its success: the body grows, and the answer is
of the type asked for.
-/

namespace SsaFold.Text

/-- The module is well-formed, and the names of functions and globals stand for addresses. -/
structure Scoped (m : Module) (symbols : Symbols) : Prop where
  module : m.WellFormed
  address : ∀ (name : String) v, symbols[name]? = some v → m.typeOf? v = some .ptr

namespace Scoped

variable {m m' : Module} {symbols : Symbols}

lemma grows (h : Scoped m symbols) (hgrows : m.Grows m') : Scoped m' symbols :=
  ⟨hgrows.toWellFormed, fun name v hv => hgrows.types v .ptr (h.address name v hv)⟩

lemma insert (h : Scoped m symbols) {name : String} {v : ValueId} (hv : m.typeOf? v = some .ptr) :
    Scoped m (symbols.insert name v) := by
  refine ⟨h.module, fun name' w hw => ?_⟩
  rw [Std.TreeMap.getElem?_insert] at hw
  split_ifs at hw
  · exact Option.some.inj hw ▸ hv
  · exact h.address name' w hw

end Scoped

namespace Body

/-- What the reader of a body relies on. -/
abbrev WellFormed (b : Body) : Prop := Scoped b.module b.symbols

/-- What a step in reading a body keeps. -/
structure Grows (b b' : Body) : Prop where
  module : b.module.Grows b'.module
  symbols : b'.symbols = b.symbols

variable {b b' b'' : Body} {v : ValueId}

lemma WellFormed.refl (h : b.WellFormed) : b.Grows b := ⟨h.module.refl, rfl⟩

lemma Grows.trans (h : b.Grows b') (h' : b'.Grows b'') : b.Grows b'' :=
  ⟨h.module.trans h'.module, h'.symbols.trans h.symbols⟩

lemma Grows.wellFormed (h : b.Grows b') (hb : b.WellFormed) : b'.WellFormed := by
  rw [WellFormed, h.symbols]
  exact hb.grows h.module

/-- A step that leaves the module alone. -/
lemma WellFormed.grows_of_eq (h : b.WellFormed) (hmodule : b'.module = b.module)
    (hsymbols : b'.symbols = b.symbols) : b.Grows b' :=
  ⟨hmodule ▸ h.module.refl, hsymbols⟩

section Steps

variable {α : Type} {a : α}

@[simp] lemma refuse_eq_ok {e : ScopeError} : refuse e b = .ok (a, b') ↔ False :=
  StateT.throw_eq_ok

@[simp] lemma refuseLine_eq_ok {e : PhraseError} : refuseLine e b = .ok (a, b') ↔ False :=
  StateT.throw_eq_ok

lemma Grows.modify (h : b.Grows b') (hb : b.WellFormed) {f : Body → Body} {u : PUnit}
    (hrun : (modify f : BodyM PUnit) b' = .ok (u, b'')) (hmodule : (f b').module = b'.module)
    (hsymbols : (f b').symbols = b'.symbols) : b.Grows b'' := by
  obtain rfl := StateT.modify_eq_ok.1 hrun
  exact h.trans ((h.wellFormed hb).grows_of_eq hmodule hsymbols)

@[simp] lemma onModule_eq_ok {f : Module → Module × α} : onModule f b = .ok (a, b') ↔
    (f b.module).2 = a ∧ { b with module := (f b.module).1 } = b' := by
  rw [onModule, StateT.modifyGet_eq_ok, Prod.mk.injEq]

@[simp] lemma tryModule_eq_ok {f : Module → Except Fault (Module × α)} :
    tryModule f b = .ok (a, b') ↔
      ∃ m', f b.module = .ok (m', a) ∧ { b with module := m' } = b' := by
  simp only [tryModule, StateT.bind_eq_ok, StateT.get_eq_ok, StateT.liftM_eq_ok, StateT.set_eq_ok,
    StateT.pure_eq_ok]
  constructor
  · rintro ⟨_, _, ⟨rfl, rfl⟩, ⟨m', a'⟩, _, ⟨hf, rfl⟩, _, _, rfl, rfl, rfl⟩
    exact ⟨m', hf, rfl⟩
  · rintro ⟨m', hf, rfl⟩
    exact ⟨b, b, ⟨rfl, rfl⟩, ⟨m', a⟩, b, ⟨hf, rfl⟩, ⟨⟩, _, rfl, rfl, rfl⟩

end Steps

/-! ## Names and blocks -/

lemma takeKey_grows (hb : b.WellFormed) {name : Option String} {key : String}
    (hrun : takeKey name b = .ok (key, b')) : b.Grows b' := by
  simp only [takeKey, StateT.bind_eq_ok, StateT.get_eq_ok] at hrun
  obtain ⟨_, _, ⟨rfl, rfl⟩, hrun⟩ := hrun
  cases hslot : slot? (name.getD (toString b.nextSlot)) with
  | none =>
    simp only [hslot, StateT.pure_eq_ok] at hrun
    obtain ⟨-, rfl⟩ := hrun
    exact hb.refl
  | some slot =>
    simp only [hslot] at hrun
    split_ifs at hrun
    · simp only [StateT.bind_eq_ok, StateT.modify_eq_ok, StateT.pure_eq_ok] at hrun
      obtain ⟨_, _, rfl, -, rfl⟩ := hrun
      exact hb.grows_of_eq rfl rfl
    · simp at hrun

lemma blockOf_grows (hb : b.WellFormed) {label : String} {block : BlockId}
    (hrun : blockOf label b = .ok (block, b')) : b.Grows b' := by
  simp only [blockOf, StateT.bind_eq_ok, StateT.get_eq_ok] at hrun
  obtain ⟨_, _, ⟨rfl, rfl⟩, hrun⟩ := hrun
  cases hblock : b.blocks[label]? with
  | some known =>
    simp only [hblock, StateT.pure_eq_ok] at hrun
    obtain ⟨-, rfl⟩ := hrun
    exact hb.refl
  | none =>
    simp only [hblock, StateT.bind_eq_ok, onModule_eq_ok, StateT.modify_eq_ok,
      StateT.pure_eq_ok] at hrun
    obtain ⟨_, _, ⟨-, rfl⟩, _, _, rfl, -, rfl⟩ := hrun
    exact ⟨hb.module.createBlock _ _, rfl⟩

lemma enter_grows (hb : b.WellFormed) {block : BlockId} {u : PUnit}
    (hrun : enter block b = .ok (u, b')) : b.Grows b' := by
  simp only [enter, StateT.bind_eq_ok, tryModule_eq_ok, bind_eq_ok, pure_eq_ok, Prod.mk.injEq,
    StateT.modify_eq_ok] at hrun
  obtain ⟨_, _, ⟨m', ⟨_, hplace, rfl, -⟩, rfl⟩, rfl⟩ := hrun
  exact ⟨hb.module.placeBlock hplace, rfl⟩

lemma beginBlock_grows (hb : b.WellFormed) {label : String} {u : Unit}
    (hrun : beginBlock label b = .ok (u, b')) : b.Grows b' := by
  simp only [beginBlock, StateT.bind_eq_ok, StateT.get_eq_ok] at hrun
  obtain ⟨_, b₁, hkey, block, b₂, hblock, _, _, ⟨rfl, rfl⟩, hrun⟩ := hrun
  have h₁ := takeKey_grows hb hkey
  have h₂ := h₁.trans (blockOf_grows (h₁.wellFormed hb) hblock)
  split_ifs at hrun
  · simp at hrun
  · exact h₂.trans (enter_grows (h₂.wellFormed hb) hrun)

lemma openBlock_grows (hb : b.WellFormed) {block : BlockId}
    (hrun : openBlock b = .ok (block, b')) : b.Grows b' := by
  simp only [openBlock, StateT.bind_eq_ok, StateT.get_eq_ok] at hrun
  obtain ⟨_, _, ⟨rfl, rfl⟩, hrun⟩ := hrun
  split at hrun
  · obtain ⟨-, rfl⟩ := StateT.pure_eq_ok.1 hrun
    exact hb.refl
  · simp only [StateT.bind_eq_ok, StateT.pure_eq_ok] at hrun
    obtain ⟨key, b₁, hkey, block, b₂, hblock, _, b₃, henter, -, rfl⟩ := hrun
    have h₁ := takeKey_grows hb hkey
    have h₂ := h₁.trans (blockOf_grows (h₁.wellFormed hb) hblock)
    exact h₂.trans (enter_grows (h₂.wellFormed hb) henter)

/-! ## Operands -/

lemma readLocal_typed (hb : b.WellFormed) {ty : Ty} {name : String}
    (hrun : readLocal ty name b = .ok (v, b')) :
    b.Grows b' ∧ b'.module.typeOf? v = some ty := by
  simp only [readLocal, StateT.bind_eq_ok, StateT.get_eq_ok] at hrun
  obtain ⟨_, _, ⟨rfl, rfl⟩, hrun⟩ := hrun
  cases hname : b.values[name]? with
  | some w =>
    simp only [hname, StateT.bind_eq_ok, StateT.liftM_eq_ok, Module.getValue_eq_ok] at hrun
    obtain ⟨value, _, ⟨hvalue, rfl⟩, hrun⟩ := hrun
    split_ifs at hrun with hty
    · simp at hrun
    · obtain ⟨rfl, rfl⟩ := StateT.pure_eq_ok.1 hrun
      exact ⟨hb.refl, Module.typeOf?_eq_some.2 ⟨value, hvalue, by simpa using hty⟩⟩
  | none =>
    simp only [hname, StateT.bind_eq_ok, onModule_eq_ok, StateT.modify_eq_ok,
      StateT.pure_eq_ok] at hrun
    obtain ⟨_, _, ⟨rfl, rfl⟩, _, _, rfl, rfl, rfl⟩ := hrun
    obtain ⟨hgrows, hty⟩ := hb.module.placeholder ty (keptName name)
    exact ⟨⟨hgrows, rfl⟩, hty⟩

/-- An operand has the type that is written before it. -/
lemma readOperand_typed (hb : b.WellFormed) {a : TypedAtom} (hrun : readOperand a b = .ok (v, b')) :
    b.Grows b' ∧ b'.module.typeOf? v = some a.ty := by
  rcases a with ⟨ty, atom⟩
  cases atom with
  | localName name => exact readLocal_typed hb hrun
  | int value =>
    cases ty with
    | int bits =>
      obtain ⟨m', hconst, rfl⟩ :=
        tryModule_eq_ok.1 (show tryModule (·.constInt bits value) b = _ from hrun)
      obtain ⟨hgrows, hty⟩ := hb.module.constInt hconst
      exact ⟨⟨hgrows, rfl⟩, hty⟩
    | _ => simp [readOperand] at hrun
  | bool value =>
    rcases eq_or_ne ty .i1 with rfl | hty
    · obtain ⟨m', hconst, rfl⟩ := tryModule_eq_ok.1
        (show tryModule (·.constInt 1 (if value then 1 else 0)) b = _ from hrun)
      obtain ⟨hgrows, hv⟩ := hb.module.constInt hconst
      exact ⟨⟨hgrows, rfl⟩, hv⟩
    · simp [readOperand, hty] at hrun
  | null =>
    rcases eq_or_ne ty .ptr with rfl | hty
    · obtain ⟨rfl, rfl⟩ := onModule_eq_ok.1 (show onModule (·.null) b = _ from hrun)
      obtain ⟨hgrows, hv⟩ := hb.module.null
      exact ⟨⟨hgrows, rfl⟩, hv⟩
    · simp [readOperand, hty] at hrun
  | globalName name =>
    simp only [readOperand, StateT.bind_eq_ok, StateT.get_eq_ok] at hrun
    obtain ⟨_, _, ⟨rfl, rfl⟩, hrun⟩ := hrun
    cases hname : b.symbols[name]? with
    | none => simp [hname] at hrun
    | some w =>
      simp only [hname] at hrun
      split_ifs at hrun with hty
      · simp at hrun
      · obtain ⟨rfl, rfl⟩ := StateT.pure_eq_ok.1 hrun
        exact ⟨hb.refl, (hb.address name w hname).trans (congrArg some (not_not.1 hty).symm)⟩

/-- So have operands that are read one after the other. -/
lemma readOperands_typed (hb : b.WellFormed) {as : List TypedAtom} {vs : List ValueId}
    (hrun : as.mapM readOperand b = .ok (vs, b')) :
    b.Grows b' ∧ vs.map b'.module.typeOf? = (as.map TypedAtom.ty).map some := by
  induction as generalizing b vs with
  | nil =>
    rw [List.mapM_nil, StateT.pure_eq_ok] at hrun
    obtain ⟨rfl, rfl⟩ := hrun
    exact ⟨hb.refl, rfl⟩
  | cons a as ih =>
    simp only [List.mapM_cons, StateT.bind_eq_ok, StateT.pure_eq_ok] at hrun
    obtain ⟨v, b₁, hread, vs, b₂, hrest, rfl, rfl⟩ := hrun
    obtain ⟨h₁, hty⟩ := readOperand_typed hb hread
    obtain ⟨h₂, htys⟩ := ih (h₁.wellFormed hb) hrest
    exact ⟨h₁.trans h₂, by simpa [htys] using h₂.module.types v _ hty⟩

/-- The values that a `phi` chooses from have its type, and there is one for every block. -/
lemma readIncoming_typed (hb : b.WellFormed) {ty : Ty} {incoming : List (Atom × String)}
    {pairs : List (ValueId × BlockId)} (hrun : readIncoming ty incoming b = .ok (pairs, b')) :
    b.Grows b' ∧ (pairs.map Prod.fst).map b'.module.typeOf? = pairs.map fun _ => some ty := by
  induction incoming generalizing b pairs with
  | nil =>
    obtain ⟨rfl, rfl⟩ := StateT.pure_eq_ok.1 hrun
    exact ⟨hb.refl, rfl⟩
  | cons entry rest ih =>
    simp only [readIncoming, StateT.bind_eq_ok, StateT.pure_eq_ok] at hrun
    obtain ⟨v, b₁, hread, block, b₂, hblock, pairs, b₃, hrest, rfl, rfl⟩ := hrun
    obtain ⟨h₁, hty⟩ := readOperand_typed hb hread
    have h₂ := blockOf_grows (h₁.wellFormed hb) hblock
    obtain ⟨h₃, htys⟩ := ih ((h₁.trans h₂).wellFormed hb) hrest
    refine ⟨(h₁.trans h₂).trans h₃, ?_⟩
    have hv := (h₂.trans h₃).module.types v ty hty
    simp only [List.map_cons, hv, htys]

/-! ## Results -/

/-- The last steps of naming a result, which are the same whether the name was read before or
not. -/
lemma setName_grows (hb : b.WellFormed) {name : String} {u : Unit}
    (hrun : (do
      let key ← takeKey (some name)
      modify fun b => { b with values := b.values.insert key v }
      tryModule fun m => return (← m.setValueName v (keptName name), ()) : BodyM Unit) b
        = .ok (u, b')) : b.Grows b' := by
  simp only [StateT.bind_eq_ok, StateT.modify_eq_ok, tryModule_eq_ok, bind_eq_ok, pure_eq_ok,
    Prod.mk.injEq] at hrun
  obtain ⟨key, b₁, hkey, _, _, rfl, _, ⟨m', hname, rfl, -⟩, rfl⟩ := hrun
  have h₁ := takeKey_grows hb hkey
  exact h₁.trans ⟨(h₁.wellFormed hb).module.setValueName hname, rfl⟩

/-- A name can be given to a result: reads of a placeholder are sent to it only if the types
agree. -/
lemma nameResult_grows (hb : b.WellFormed) {name : String} {u : Unit}
    (hrun : nameResult name v b = .ok (u, b')) : b.Grows b' := by
  simp only [nameResult, StateT.bind_eq_ok, StateT.get_eq_ok] at hrun
  obtain ⟨_, _, ⟨rfl, rfl⟩, hrun⟩ := hrun
  cases hname : b.values[name]? with
  | none =>
    simp only [hname] at hrun
    exact setName_grows hb hrun
  | some old =>
    -- The name was read before, at the type of the result.
    simp only [hname] at hrun
    obtain ⟨old', _, hlift, hrun⟩ := StateT.bind_eq_ok.1 hrun
    obtain ⟨hold, rfl⟩ := StateT.liftM_eq_ok.1 hlift
    split_ifs at hrun
    · simp at hrun
    obtain ⟨value, _, hlift, hrun⟩ := StateT.bind_eq_ok.1 hrun
    obtain ⟨hvalue, rfl⟩ := StateT.liftM_eq_ok.1 hlift
    split_ifs at hrun with hty
    · simp at hrun
    obtain ⟨n, _, htry, hrun⟩ := StateT.bind_eq_ok.1 hrun
    obtain ⟨m', hreplace, rfl⟩ := tryModule_eq_ok.1 htry
    have htypes : b.module.typeOf? old = b.module.typeOf? v := by
      rw [Module.typeOf?_eq_some.2 ⟨old', Module.getValue_eq_ok.1 hold, rfl⟩,
        Module.typeOf?_eq_some.2 ⟨value, Module.getValue_eq_ok.1 hvalue, rfl⟩, not_not.1 hty]
    have h₁ : b.Grows { b with module := m' } :=
      ⟨hb.module.replaceAllUses hreplace htypes, rfl⟩
    exact h₁.trans (setName_grows (h₁.wellFormed hb) hrun)

lemma numberResult_grows (hb : b.WellFormed) {u : Unit}
    (hrun : numberResult v b = .ok (u, b')) : b.Grows b' := by
  simp only [numberResult, StateT.bind_eq_ok, StateT.modify_eq_ok] at hrun
  obtain ⟨key, b₁, hkey, rfl⟩ := hrun
  have h₁ := takeKey_grows hb hkey
  exact h₁.trans ((h₁.wellFormed hb).grows_of_eq rfl rfl)

/-! ## Instructions -/

lemma readTwo_typed (hb : b.WellFormed) {x y : TypedAtom} {v w : ValueId}
    (hx : readOperand x b = .ok (v, b')) (hy : readOperand y b' = .ok (w, b'')) :
    b.Grows b'' ∧ [v, w].map b''.module.typeOf? = [x.ty, y.ty].map some := by
  obtain ⟨h₁, hv⟩ := readOperand_typed hb hx
  obtain ⟨h₂, hw⟩ := readOperand_typed (h₁.wellFormed hb) hy
  exact ⟨h₁.trans h₂, by simp [h₂.module.types v _ hv, hw]⟩

lemma Grows.emit (h : b.Grows b') (hb : b.WellFormed) {block : BlockId} {spec : InstSpec}
    {vs : List ValueId} {i : InstId} (hrun : append.emit block spec vs b' = .ok (i, b''))
    (tys : List Ty) (htys : vs.map b'.module.typeOf? = tys.map some) (haccepts : spec.Accepts tys) :
    b.Grows b'' := by
  obtain ⟨m', happend, rfl⟩ := tryModule_eq_ok.1 hrun
  exact h.trans ⟨(h.wellFormed hb).module.appendInst happend htys haccepts, rfl⟩

/-- Whatever the operation, its operands have the types that the table asks for. -/
lemma append_grows (hb : b.WellFormed) {block : BlockId} {align : Option Nat} {op : Operation}
    {i : InstId} (hrun : append block align op b = .ok (i, b')) : b.Grows b' := by
  cases op with
  | binary op flags bits lhs rhs =>
    simp only [append, StateT.bind_eq_ok] at hrun
    obtain ⟨l, b₁, hl, r, b₂, hr, hrun⟩ := hrun
    obtain ⟨h, htys⟩ := readTwo_typed hb hl hr
    exact h.emit hb hrun _ htys ⟨bits, rfl, rfl⟩
  | icmp p ty lhs rhs =>
    simp only [append, StateT.bind_eq_ok] at hrun
    obtain ⟨l, b₁, hl, r, b₂, hr, hrun⟩ := hrun
    obtain ⟨h, htys⟩ := readTwo_typed hb hl hr
    exact h.emit hb hrun _ htys ⟨rfl, rfl, ty, rfl⟩
  | select cond ty ifTrue ifFalse =>
    simp only [append, StateT.bind_eq_ok] at hrun
    obtain ⟨c, b₁, hc, t, b₂, ht, f, b₃, hf, hrun⟩ := hrun
    obtain ⟨h₁, hc⟩ := readOperand_typed hb hc
    obtain ⟨h₂, htys⟩ := readTwo_typed (h₁.wellFormed hb) ht hf
    refine (h₁.trans h₂).emit hb hrun [.i1, ty, ty] ?_ rfl
    rw [List.map_cons, htys, h₂.module.types c _ hc]
    rfl
  | phi ty incoming =>
    simp only [append, StateT.bind_eq_ok] at hrun
    obtain ⟨pairs, b₁, hpairs, hrun⟩ := hrun
    obtain ⟨h, htys⟩ := readIncoming_typed hb hpairs
    refine h.emit hb hrun (pairs.map fun _ => ty) (by simp [htys]) ?_
    show _ = (pairs.map Prod.snd).map _
    rw [List.map_map]
    rfl
  | call ty callee args =>
    simp only [append, StateT.bind_eq_ok] at hrun
    obtain ⟨target, b₁, htarget, operands, b₂, hargs, hrun⟩ := hrun
    obtain ⟨h₁, htarget⟩ := readOperand_typed hb htarget
    obtain ⟨h₂, htys⟩ := readOperands_typed (h₁.wellFormed hb) hargs
    refine (h₁.trans h₂).emit hb hrun (args.map TypedAtom.ty ++ [.ptr]) ?_ ⟨_, rfl⟩
    simp [htys, h₂.module.types target _ htarget]
  | alloca ty => exact hb.refl.emit hb hrun [] rfl ⟨rfl, rfl⟩
  | load ty pointer =>
    simp only [append, StateT.bind_eq_ok] at hrun
    obtain ⟨p, b₁, hp, hrun⟩ := hrun
    obtain ⟨h, hp⟩ := readOperand_typed hb hp
    exact h.emit hb hrun [.ptr] (by simp [hp]) rfl
  | store value pointer =>
    simp only [append, StateT.bind_eq_ok] at hrun
    obtain ⟨v, b₁, hv, p, b₂, hp, hrun⟩ := hrun
    obtain ⟨h, htys⟩ := readTwo_typed hb hv hp
    exact h.emit hb hrun _ htys ⟨rfl, value.ty, rfl⟩
  | ret value =>
    simp only [append, StateT.bind_eq_ok] at hrun
    obtain ⟨operands, b₁, hvalue, hrun⟩ := hrun
    obtain ⟨h, htys⟩ := readOperands_typed hb hvalue
    refine h.emit hb hrun _ htys ⟨rfl, ?_⟩
    cases value <;> simp
  | br target =>
    simp only [append, StateT.bind_eq_ok] at hrun
    obtain ⟨t, b₁, ht, hrun⟩ := hrun
    exact (blockOf_grows hb ht).emit hb hrun [] rfl ⟨rfl, .inl ⟨rfl, rfl⟩⟩
  | condBr cond ifTrue ifFalse =>
    simp only [append, StateT.bind_eq_ok] at hrun
    obtain ⟨c, b₁, hc, t, b₂, ht, f, b₃, hf, hrun⟩ := hrun
    obtain ⟨h₁, hc⟩ := readOperand_typed hb hc
    have h₂ := blockOf_grows (h₁.wellFormed hb) ht
    have h₃ := h₂.trans (blockOf_grows ((h₁.trans h₂).wellFormed hb) hf)
    refine (h₁.trans h₃).emit hb hrun [.i1] ?_ ⟨rfl, .inr ⟨rfl, rfl⟩⟩
    rw [List.map_singleton, h₃.module.types c _ hc]
    rfl
  | unreachable => exact hb.refl.emit hb hrun [] rfl ⟨rfl, rfl⟩

lemma instruction_grows (hb : b.WellFormed) {ts : List Token} {u : Unit}
    (hrun : instruction ts b = .ok (u, b')) : b.Grows b' := by
  rw [instruction] at hrun
  cases hhead : (Statement.head.run ts).result with
  | error e => simp [hhead] at hrun
  | ok head =>
    obtain ⟨⟨name, op⟩, rest⟩ := head
    simp only [hhead, StateT.bind_eq_ok] at hrun
    obtain ⟨block, b₁, hopen, hrun⟩ := hrun
    have h₁ := openBlock_grows hb hopen
    cases hreading : ((Statement.phrase name op).run rest).result with
    | error e => simp [hreading, StateT.bind_eq_ok] at hrun
    | ok statement =>
      obtain ⟨statement, rest'⟩ := statement
      simp only [hreading, StateT.bind_eq_ok] at hrun
      obtain ⟨i, b₂, happend, _, _, hget, inst, _, hlift, hrun⟩ := hrun
      obtain ⟨rfl, rfl⟩ := StateT.get_eq_ok.1 hget
      obtain ⟨-, rfl⟩ := StateT.liftM_eq_ok.1 hlift
      have h₂ := h₁.trans (append_grows (h₁.wellFormed hb) happend)
      have hb₂ := h₂.wellFormed hb
      cases name with
      | some name =>
        simp only [StateT.bind_eq_ok] at hrun
        obtain ⟨_, b₃, hname, hrun⟩ := hrun
        exact (h₂.trans (nameResult_grows hb₂ hname)).modify hb hrun rfl rfl
      | none =>
        split_ifs at hrun
        · simp only [StateT.bind_eq_ok] at hrun
          obtain ⟨_, b₃, hnumber, hrun⟩ := hrun
          exact (h₂.trans (numberResult_grows hb₂ hnumber)).modify hb hrun rfl rfl
        · exact h₂.modify hb hrun rfl rfl

/-- A line of a body keeps the module well-formed. -/
lemma line_grows (hb : b.WellFormed) {ts : List Token} {u : Unit}
    (hrun : line ts b = .ok (u, b')) : b.Grows b' := by
  unfold line at hrun
  split at hrun
  · exact beginBlock_grows hb hrun
  · simp at hrun
  · exact instruction_grows hb hrun

/-! ## Beginning a body -/

lemma nameParams_grows (hb : b.WellFormed) {k : Nat} {names : List (Option String)} {u : Unit}
    (hrun : nameParams k names b = .ok (u, b')) : b.Grows b' := by
  induction names generalizing b k with
  | nil =>
    obtain ⟨-, rfl⟩ := StateT.pure_eq_ok.1 hrun
    exact hb.refl
  | cons name rest ih =>
    simp only [nameParams, StateT.bind_eq_ok, StateT.get_eq_ok] at hrun
    obtain ⟨key, b₁, hkey, _, _, ⟨rfl, rfl⟩, hrun⟩ := hrun
    have h₁ := takeKey_grows hb hkey
    split_ifs at hrun
    · simp at hrun
    simp only [StateT.bind_eq_ok, StateT.liftM_eq_ok] at hrun
    obtain ⟨func, _, ⟨-, rfl⟩, hrun⟩ := hrun
    cases hparam : func.params[k]? with
    | none => simp [hparam] at hrun
    | some v =>
      simp only [hparam, StateT.bind_eq_ok] at hrun
      obtain ⟨_, b₂, hmodify, hrun⟩ := hrun
      have h₂ := h₁.modify hb hmodify rfl rfl
      exact h₂.trans (ih (h₂.wellFormed hb) hrun)

/-- A body begins with a well-formed module. -/
lemma start_grows {m : Module} {symbols : Symbols} {func : FuncId} {params : List (Option String)}
    (hm : Scoped m symbols) (hrun : start m symbols func params = .ok b) :
    m.Grows b.module ∧ b.symbols = symbols := by
  simp only [start, bind_eq_ok, pure_eq_ok] at hrun
  obtain ⟨⟨u, _⟩, hparams, rfl⟩ := hrun
  have h := nameParams_grows hm hparams
  exact ⟨h.module, h.symbols⟩

end Body
end SsaFold.Text
