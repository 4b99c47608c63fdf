import Mathlib.Logic.Relation
import SsaFold.Proofs.Module.Constants
import SsaFold.Proofs.Text.Body

/-!
# What a line does to a body

Names are looked up, and then an instruction is appended.  `Body.Lookup` is what one lookup may do:
it adds a block for a new label, a placeholder for a new name, or a constant.  A lookup never
changes what a name stands for, so when all names of a line have been looked up each of them can be
asked again: `Body.Denotes` says that an operand stands for a value.

Each function of the reader has one lemma that says what it has done if it has succeeded.
-/

namespace SsaFold.Text.Body

variable {b b' b'' : Body} {v : ValueId}

/-! ## Lookups -/

/-- One lookup. -/
inductive Lookup : Body → Body → Prop
  /-- A label is met for the first time. -/
  | label {b : Body} {label : String} (unknown : b.blocks[label]? = none) :
      Lookup b { b with
        module := (b.module.createBlock b.func (keptName label)).1
        blocks := b.blocks.insert label ⟨b.module.blocks.size⟩ }
  /-- A name is read before it is defined. -/
  | forward {b : Body} {name : String} {ty : Ty} (unbound : b.values[name]? = none)
      (quotable : Quotable name) (readable : ty.Readable) :
      Lookup b { b with
        module := (b.module.placeholder ty (keptName name)).1
        values := b.values.insert name ⟨b.module.values.size⟩ }
  /-- A constant is written. -/
  | constant {b : Body} {m : Module} {bits : Nat} {n : Int} {v : ValueId}
      (run : b.module.constInt bits n = .ok (m, v)) : Lookup b { b with module := m }
  /-- The null pointer is written. -/
  | null {b : Body} : Lookup b { b with module := b.module.null.1 }

/-- One lookup after the other. -/
abbrev Lookups : Body → Body → Prop := Relation.ReflTransGen Lookup

/-- What lookups leave as it is. -/
structure Widens (b b' : Body) : Prop where
  func : b'.func = b.func
  symbols : b'.symbols = b.symbols
  current : b'.current = b.current
  terminated : b'.terminated = b.terminated
  nextSlot : b'.nextSlot = b.nextSlot
  functions : b'.module.functions = b.module.functions
  insts : b'.module.insts = b.module.insts
  value : ∀ {v value}, b.module.value? v = some value → b'.module.value? v = some value
  block : ∀ {c block}, b.module.block? c = some block → b'.module.block? c = some block
  module : b.module.Extends b.func id b'.module
  values : ∀ {name : String} {v : ValueId},
    b.values[name]? = some v → b'.values[name]? = some v
  blocks : ∀ {label : String} {c : BlockId},
    b.blocks[label]? = some c → b'.blocks[label]? = some c

namespace Widens

lemma refl (b : Body) : b.Widens b :=
  ⟨rfl, rfl, rfl, rfl, rfl, rfl, rfl, id, id, .refl _ _, id, id⟩

lemma trans (h : b.Widens b') (h' : b'.Widens b'') : b.Widens b'' where
  func := h'.func.trans h.func
  symbols := h'.symbols.trans h.symbols
  current := h'.current.trans h.current
  terminated := h'.terminated.trans h.terminated
  nextSlot := h'.nextSlot.trans h.nextSlot
  functions := h'.functions.trans h.functions
  insts := h'.insts.trans h.insts
  value hv := h'.value (h.value hv)
  block hc := h'.block (h.block hc)
  module := by
    have h₂ : b'.module.Extends b.func id b''.module := h.func ▸ h'.module
    exact h.module.trans h₂
  values hv := h'.values (h.values hv)
  blocks hc := h'.blocks (h.blocks hc)

/-- Where values and blocks are added to the module, and names that had no meaning get one. -/
lemma of_append {m : Module} {values : Std.TreeMap String ValueId}
    {blocks : Std.TreeMap String BlockId} (vs : Array Value) (bs : Array Block)
    (heq : m = { b.module with
      values := b.module.values ++ vs, blocks := b.module.blocks ++ bs })
    (hnames : ∀ {name : String} {v}, b.values[name]? = some v → values[name]? = some v)
    (hlabels : ∀ {label : String} {c}, b.blocks[label]? = some c → blocks[label]? = some c) :
    b.Widens { b with module := m, values, blocks } := by
  subst heq
  refine ⟨rfl, rfl, rfl, rfl, rfl, rfl, rfl, fun {v value} hv => ?_, fun {c block} hc => ?_,
    .of_append b.func vs bs rfl, hnames, hlabels⟩
  · rw [Module.value?, Array.getElem?_append_left (Array.getElem?_eq_some_iff.1 hv).1]
    exact hv
  · rw [Module.block?, Array.getElem?_append_left (Array.getElem?_eq_some_iff.1 hc).1]
    exact hc

end Widens

/-- A value that is shared may have been added. -/
lemma widens_share (b : Body) (fresh : Value) :
    b.Widens { b with module := (b.module.shareValue fresh).1 } := by
  obtain ⟨vs, hvs⟩ : ∃ vs, (b.module.shareValue fresh).1
      = { b.module with values := b.module.values ++ vs } := by
    rw [Module.shareValue]
    split
    · exact ⟨#[], by simp⟩
    · exact ⟨#[fresh], rfl⟩
  rw [hvs]
  exact .of_append vs #[] (by simp) id id

/-- A name that is new gets a meaning, and no other name changes its own. -/
lemma getElem?_insert_of_none {β : Type} {map : Std.TreeMap String β} {name : String} {x : β}
    (hnone : map[name]? = none) {name' : String} {y : β} (h : map[name']? = some y) :
    (map.insert name x)[name']? = some y := by
  rw [Std.TreeMap.getElem?_insert]
  split_ifs with heq
  · rw [Std.LawfulEqCmp.eq_of_compare heq, h] at hnone
    cases hnone
  · exact h

lemma Lookup.widens (h : Lookup b b') : b.Widens b' := by
  cases h with
  | label unknown =>
    exact .of_append #[] #[_] (by simp [Module.createBlock]; rfl) id
      (getElem?_insert_of_none unknown)
  | forward unbound _ _ =>
    exact .of_append #[_] #[] (by simp [Module.placeholder, Module.pushValue]; rfl)
      (getElem?_insert_of_none unbound) id
  | constant run =>
    obtain ⟨c, -, rfl, -⟩ := Module.constInt_eq_share run
    exact widens_share b _
  | null => exact widens_share b _

lemma Lookups.widens (h : Lookups b b') : b.Widens b' := by
  induction h with
  | refl => exact .refl b
  | tail _ hstep ih => exact ih.trans hstep.widens

/-! ## Meanings -/

/-- The operand stands for the value. -/
def Denotes (b : Body) (a : TypedAtom) (v : ValueId) : Prop :=
  match a.atom with
  | .localName name => b.values[name]? = some v
  | .globalName name => b.symbols[name]? = some v
  | .int n => ∃ bits c, a.ty = .int bits ∧ IntConst.ofInt? bits n = some c ∧
      b.module.kind? v = some (.constInt c)
  | .bool t => ∃ c, IntConst.ofInt? 1 (if t then 1 else 0) = some c ∧
      b.module.kind? v = some (.constInt c)
  | .null => b.module.kind? v = some .null

/-- The label stands for the block. -/
def Labels (b : Body) (label : String) (c : BlockId) : Prop := b.blocks[label]? = some c

lemma Widens.denotes (h : b.Widens b') {a : TypedAtom} (ha : b.Denotes a v) : b'.Denotes a v := by
  rcases a with ⟨ty, atom⟩
  cases atom with
  | localName name => exact h.values ha
  | globalName name => exact (h.symbols ▸ ha : b'.symbols[name]? = some v)
  | int n =>
    obtain ⟨bits, c, hty, hc, hkind⟩ := ha
    exact ⟨bits, c, hty, hc, h.module.keeps.kind? hkind⟩
  | bool t =>
    obtain ⟨c, hc, hkind⟩ := ha
    exact ⟨c, hc, h.module.keeps.kind? hkind⟩
  | null => exact h.module.keeps.kind? ha

/-! ## Looking names up -/

lemma blockOf_eq_ok {label : String} {c : BlockId} (hrun : blockOf label b = .ok (c, b')) :
    Lookups b b' ∧ b'.Labels label c := by
  simp only [blockOf, StateT.bind_eq_ok, StateT.get_eq_ok] at hrun
  obtain ⟨_, _, ⟨rfl, rfl⟩, hrun⟩ := hrun
  cases hblock : b.blocks[label]? with
  | some known =>
    simp only [hblock, StateT.pure_eq_ok] at hrun
    obtain ⟨rfl, rfl⟩ := hrun
    exact ⟨.refl, hblock⟩
  | none =>
    simp only [hblock, StateT.bind_eq_ok, onModule_eq_ok, StateT.modify_eq_ok,
      StateT.pure_eq_ok] at hrun
    obtain ⟨_, _, ⟨rfl, rfl⟩, _, _, rfl, rfl, rfl⟩ := hrun
    exact ⟨.single (.label hblock), Std.TreeMap.getElem?_insert_self⟩

lemma readLocal_eq_ok {ty : Ty} {name : String} (hname : Quotable name) (hty : ty.Readable)
    (hrun : readLocal ty name b = .ok (v, b')) :
    Lookups b b' ∧ b'.Denotes ⟨ty, .localName name⟩ v := by
  simp only [readLocal, StateT.bind_eq_ok, StateT.get_eq_ok] at hrun
  obtain ⟨_, _, ⟨rfl, rfl⟩, hrun⟩ := hrun
  cases hvalue : b.values[name]? with
  | some w =>
    simp only [hvalue, StateT.bind_eq_ok, StateT.liftM_eq_ok] at hrun
    obtain ⟨value, _, ⟨-, rfl⟩, hrun⟩ := hrun
    split_ifs at hrun
    · simp at hrun
    · obtain ⟨rfl, rfl⟩ := StateT.pure_eq_ok.1 hrun
      exact ⟨.refl, hvalue⟩
  | none =>
    simp only [hvalue, StateT.bind_eq_ok, onModule_eq_ok, StateT.modify_eq_ok,
      StateT.pure_eq_ok] at hrun
    obtain ⟨_, _, ⟨rfl, rfl⟩, _, _, rfl, rfl, rfl⟩ := hrun
    exact ⟨.single (.forward hvalue hname hty), Std.TreeMap.getElem?_insert_self⟩

lemma constInt_eq_ok {bits : Nat} {raw : Int}
    (hrun : tryModule (·.constInt bits raw) b = .ok (v, b')) :
    Lookups b b' ∧ ∃ c, IntConst.ofInt? bits raw = some c ∧
      b'.module.kind? v = some (.constInt c) := by
  obtain ⟨m, hconst, rfl⟩ := tryModule_eq_ok.1 hrun
  exact ⟨.single (.constant hconst), Module.kind?_constInt hconst⟩

lemma readOperand_eq_ok {a : TypedAtom} (ha : a.Valid) (hrun : readOperand a b = .ok (v, b')) :
    Lookups b b' ∧ b'.Denotes a v := by
  rcases a with ⟨ty, atom⟩
  cases atom with
  | localName name => exact readLocal_eq_ok ha.atom ha.ty hrun
  | int n =>
    cases ty with
    | int bits =>
      obtain ⟨hlookups, c, hc, hkind⟩ :=
        constInt_eq_ok (show tryModule (·.constInt bits n) b = _ from hrun)
      exact ⟨hlookups, bits, c, rfl, hc, hkind⟩
    | _ => simp [readOperand] at hrun
  | bool t =>
    rcases eq_or_ne ty .i1 with rfl | hty
    · exact constInt_eq_ok (show tryModule (·.constInt 1 (if t then 1 else 0)) b = _ from hrun)
    · simp [readOperand, hty] at hrun
  | null =>
    rcases eq_or_ne ty .ptr with rfl | hty
    · obtain ⟨rfl, rfl⟩ := onModule_eq_ok.1 (show onModule (·.null) b = _ from hrun)
      exact ⟨.single .null, Module.kind?_shareValue _ _⟩
    · simp [readOperand, hty] at hrun
  | globalName name =>
    simp only [readOperand, StateT.bind_eq_ok, StateT.get_eq_ok] at hrun
    obtain ⟨_, _, ⟨rfl, rfl⟩, hrun⟩ := hrun
    cases hname : b.symbols[name]? with
    | none => simp [hname] at hrun
    | some w =>
      simp only [hname] at hrun
      split_ifs at hrun
      · simp at hrun
      · obtain ⟨rfl, rfl⟩ := StateT.pure_eq_ok.1 hrun
        exact ⟨.refl, hname⟩

lemma readOperands_eq_ok {as : List TypedAtom} (has : ∀ a ∈ as, a.Valid) {vs : List ValueId}
    (hrun : as.mapM readOperand b = .ok (vs, b')) :
    Lookups b b' ∧ List.Forall₂ b'.Denotes as vs := by
  induction as generalizing b vs with
  | nil =>
    rw [List.mapM_nil, StateT.pure_eq_ok] at hrun
    obtain ⟨rfl, rfl⟩ := hrun
    exact ⟨.refl, .nil⟩
  | cons a as ih =>
    obtain ⟨ha, has⟩ := List.forall_mem_cons.1 has
    simp only [List.mapM_cons, StateT.bind_eq_ok, StateT.pure_eq_ok] at hrun
    obtain ⟨v, b₁, hread, vs, b₂, hrest, rfl, rfl⟩ := hrun
    obtain ⟨h₁, hv⟩ := readOperand_eq_ok ha hread
    obtain ⟨h₂, hvs⟩ := ih has hrest
    exact ⟨h₁.trans h₂, .cons (h₂.widens.denotes hv) hvs⟩

lemma readIncoming_eq_ok {ty : Ty} {incoming : List (Atom × String)}
    (hincoming : ∀ entry ∈ incoming, TypedAtom.Valid ⟨ty, entry.1⟩)
    {pairs : List (ValueId × BlockId)} (hrun : readIncoming ty incoming b = .ok (pairs, b')) :
    Lookups b b' ∧
      List.Forall₂ b'.Denotes (incoming.map fun entry => ⟨ty, entry.1⟩) (pairs.map Prod.fst) ∧
      List.Forall₂ b'.Labels (incoming.map Prod.snd) (pairs.map Prod.snd) := by
  induction incoming generalizing b pairs with
  | nil =>
    obtain ⟨rfl, rfl⟩ := StateT.pure_eq_ok.1 hrun
    exact ⟨.refl, .nil, .nil⟩
  | cons entry rest ih =>
    obtain ⟨hentry, hrest'⟩ := List.forall_mem_cons.1 hincoming
    simp only [readIncoming, StateT.bind_eq_ok, StateT.pure_eq_ok] at hrun
    obtain ⟨v, b₁, hread, c, b₂, hblock, pairs, b₃, hrest, rfl, rfl⟩ := hrun
    obtain ⟨h₁, hv⟩ := readOperand_eq_ok hentry hread
    obtain ⟨h₂, hc⟩ := blockOf_eq_ok hblock
    obtain ⟨h₃, hvs, hcs⟩ := ih hrest' hrest
    exact ⟨(h₁.trans h₂).trans h₃, .cons ((h₂.widens.trans h₃.widens).denotes hv) hvs,
      .cons (h₃.widens.blocks hc) hcs⟩

lemma readTwo_eq_ok {x y : TypedAtom} {rest : List TypedAtom}
    (hxy : ∀ a ∈ x :: y :: rest, a.Valid) {v w : ValueId}
    (hx : readOperand x b = .ok (v, b')) (hy : readOperand y b' = .ok (w, b'')) :
    Lookups b b'' ∧ List.Forall₂ b''.Denotes [x, y] [v, w] := by
  obtain ⟨hx', hrest⟩ := List.forall_mem_cons.1 hxy
  obtain ⟨h₁, hv⟩ := readOperand_eq_ok hx' hx
  obtain ⟨h₂, hw⟩ := readOperand_eq_ok (List.forall_mem_cons.1 hrest).1 hy
  exact ⟨h₁.trans h₂, .cons (h₂.widens.denotes hv) (.cons hw .nil)⟩

/-- All names of an operation are looked up before the instruction is appended. -/
lemma append_eq_ok {block : BlockId} {align : Option Nat} {op : Operation} (hop : op.Valid)
    {i : InstId} (hrun : append block align op b = .ok (i, b')) :
    ∃ b₁ vs cs, Lookups b b₁ ∧ List.Forall₂ b₁.Denotes op.operands vs ∧
      List.Forall₂ b₁.Labels op.labels cs ∧
      append.emit block (op.spec align cs) vs b₁ = .ok (i, b') := by
  cases op with
  | binary op flags bits lhs rhs =>
    simp only [append, StateT.bind_eq_ok] at hrun
    obtain ⟨l, b₁, hl, r, b₂, hr, hrun⟩ := hrun
    obtain ⟨h, hvs⟩ := readTwo_eq_ok hop.operands hl hr
    exact ⟨b₂, [l, r], [], h, hvs, .nil, hrun⟩
  | icmp p ty lhs rhs =>
    simp only [append, StateT.bind_eq_ok] at hrun
    obtain ⟨l, b₁, hl, r, b₂, hr, hrun⟩ := hrun
    obtain ⟨h, hvs⟩ := readTwo_eq_ok hop.operands hl hr
    exact ⟨b₂, [l, r], [], h, hvs, .nil, hrun⟩
  | select cond ty ifTrue ifFalse =>
    obtain ⟨hcond, harms⟩ := List.forall_mem_cons.1 hop.operands
    simp only [append, StateT.bind_eq_ok] at hrun
    obtain ⟨c, b₁, hc, t, b₂, ht, f, b₃, hf, hrun⟩ := hrun
    obtain ⟨h₁, hc⟩ := readOperand_eq_ok hcond hc
    obtain ⟨h₂, hvs⟩ := readTwo_eq_ok harms ht hf
    exact ⟨b₃, [c, t, f], [], h₁.trans h₂, .cons (h₂.widens.denotes hc) hvs, .nil, hrun⟩
  | phi ty incoming =>
    simp only [append, StateT.bind_eq_ok] at hrun
    obtain ⟨pairs, b₁, hpairs, hrun⟩ := hrun
    obtain ⟨h₁, hvs, hcs⟩ := readIncoming_eq_ok (fun entry hentry =>
      hop.operands _ (List.mem_map_of_mem hentry)) hpairs
    exact ⟨b₁, _, _, h₁, hvs, hcs, hrun⟩
  | call ty callee args =>
    obtain ⟨hargs, hcallee⟩ := List.forall_mem_append.1 hop.operands
    simp only [append, StateT.bind_eq_ok] at hrun
    obtain ⟨target, b₁, htarget, operands, b₂, hoperands, hrun⟩ := hrun
    obtain ⟨h₁, htarget⟩ := readOperand_eq_ok (hcallee _ (List.mem_singleton_self _)) htarget
    obtain ⟨h₂, hvs⟩ := readOperands_eq_ok hargs hoperands
    exact ⟨b₂, operands ++ [target], [], h₁.trans h₂,
      List.rel_append hvs (.cons (h₂.widens.denotes htarget) .nil), .nil, hrun⟩
  | alloca ty => exact ⟨b, [], [], .refl, .nil, .nil, hrun⟩
  | load ty pointer =>
    simp only [append, StateT.bind_eq_ok] at hrun
    obtain ⟨p, b₁, hp, hrun⟩ := hrun
    obtain ⟨h₁, hp⟩ := readOperand_eq_ok (hop.operands _ (List.mem_singleton_self _)) hp
    exact ⟨b₁, [p], [], h₁, .cons hp .nil, .nil, hrun⟩
  | store value pointer =>
    simp only [append, StateT.bind_eq_ok] at hrun
    obtain ⟨v, b₁, hv, p, b₂, hp, hrun⟩ := hrun
    obtain ⟨h, hvs⟩ := readTwo_eq_ok hop.operands hv hp
    exact ⟨b₂, [v, p], [], h, hvs, .nil, hrun⟩
  | ret value =>
    simp only [append, StateT.bind_eq_ok] at hrun
    obtain ⟨operands, b₁, hvalue, hrun⟩ := hrun
    obtain ⟨h₁, hvs⟩ := readOperands_eq_ok hop.operands hvalue
    exact ⟨b₁, operands, [], h₁, hvs, .nil, hrun⟩
  | br target =>
    simp only [append, StateT.bind_eq_ok] at hrun
    obtain ⟨c, b₁, hc, hrun⟩ := hrun
    obtain ⟨h₁, hc⟩ := blockOf_eq_ok hc
    exact ⟨b₁, [], [c], h₁, .nil, .cons hc .nil, hrun⟩
  | condBr cond ifTrue ifFalse =>
    simp only [append, StateT.bind_eq_ok] at hrun
    obtain ⟨c, b₁, hc, t, b₂, ht, f, b₃, hf, hrun⟩ := hrun
    obtain ⟨h₁, hc⟩ := readOperand_eq_ok (hop.operands _ (List.mem_singleton_self _)) hc
    obtain ⟨h₂, ht⟩ := blockOf_eq_ok ht
    obtain ⟨h₃, hf⟩ := blockOf_eq_ok hf
    exact ⟨b₃, [c], [t, f], (h₁.trans h₂).trans h₃,
      .cons ((h₂.widens.trans h₃.widens).denotes hc) .nil, .cons (h₃.widens.blocks ht)
        (.cons hf .nil), hrun⟩
  | unreachable => exact ⟨b, [], [], .refl, .nil, .nil, hrun⟩

/-! ## Keys and blocks -/

/-- The counter after a name: a number sets it. -/
def slotAfter (name : String) (n : Nat) : Nat := (slot? name).elim n (· + 1)

lemma takeKey_eq_ok {name : Option String} {key : String}
    (hrun : takeKey name b = .ok (key, b')) : key = name.getD (toString b.nextSlot) ∧
      b' = { b with nextSlot := slotAfter key b.nextSlot } := by
  simp only [takeKey, StateT.bind_eq_ok, StateT.get_eq_ok] at hrun
  obtain ⟨_, _, ⟨rfl, rfl⟩, hrun⟩ := hrun
  cases hslot : slot? (name.getD (toString b.nextSlot)) with
  | none =>
    simp only [hslot, StateT.pure_eq_ok] at hrun
    obtain ⟨rfl, rfl⟩ := hrun
    exact ⟨rfl, by rw [slotAfter, hslot]; rfl⟩
  | some slot =>
    simp only [hslot] at hrun
    split_ifs at hrun
    · simp only [StateT.bind_eq_ok, StateT.modify_eq_ok, StateT.pure_eq_ok] at hrun
      obtain ⟨_, _, rfl, rfl, rfl⟩ := hrun
      exact ⟨rfl, by rw [slotAfter, hslot]; rfl⟩
    · simp at hrun

/-- There is room behind a number that has been taken. -/
lemma slot_lt_of_takeKey {name : Option String} {key : String} {k : Nat}
    (hrun : takeKey name b = .ok (key, b')) (hk : slot? key = some k) : k + 1 < slotBound := by
  obtain ⟨rfl, -⟩ := takeKey_eq_ok hrun
  simp only [takeKey, StateT.bind_eq_ok, StateT.get_eq_ok] at hrun
  obtain ⟨_, _, ⟨rfl, rfl⟩, hrun⟩ := hrun
  simp only [hk] at hrun
  split_ifs at hrun with hroom
  · exact hroom
  · simp at hrun

lemma enter_eq_ok {c : BlockId} {u : PUnit} (hrun : enter c b = .ok (u, b')) :
    ∃ m, b.module.placeBlock c = .ok m ∧
      b' = { b with module := m, current := some c, terminated := false } := by
  simp only [enter, StateT.bind_eq_ok, tryModule_eq_ok, bind_eq_ok, pure_eq_ok, Prod.mk.injEq,
    StateT.modify_eq_ok] at hrun
  obtain ⟨_, _, ⟨m, ⟨_, hplace, rfl, -⟩, rfl⟩, rfl⟩ := hrun
  exact ⟨_, hplace, rfl⟩

/-- The block of a label is begun. -/
structure Begins (label : String) (c : BlockId) (b b' : Body) : Prop where
  /-- The label is looked up after the counter has been set. -/
  looked : ∃ n b₁ m, Lookups { b with nextSlot := n } b₁ ∧ b₁.Labels label c ∧
    b₁.module.placeBlock c = .ok m ∧
      b' = { b₁ with module := m, current := some c, terminated := false }

lemma beginBlock_eq_ok {label : String} {u : Unit} (hrun : beginBlock label b = .ok (u, b')) :
    ∃ c, Begins label c b b' := by
  simp only [beginBlock, StateT.bind_eq_ok, StateT.get_eq_ok] at hrun
  obtain ⟨_, b₁, hkey, c, b₂, hblock, _, _, ⟨rfl, rfl⟩, hrun⟩ := hrun
  obtain ⟨-, rfl⟩ := takeKey_eq_ok hkey
  obtain ⟨hlookups, hlabel⟩ := blockOf_eq_ok hblock
  split_ifs at hrun
  · simp at hrun
  · obtain ⟨m, hplace, rfl⟩ := enter_eq_ok hrun
    exact ⟨c, ⟨_, b₂, m, hlookups, hlabel, hplace, rfl⟩⟩

/-- An instruction can be appended to the block at hand. -/
def IsOpen (b : Body) (c : BlockId) : Prop := b.current = some c ∧ b.terminated = false

lemma IsOpen.openBlock {c : BlockId} (h : b.IsOpen c) : openBlock b = .ok (c, b) := by
  rcases b with ⟨_, _, _, _, _, _, current, terminated⟩
  obtain ⟨rfl, rfl⟩ := h
  rfl

/-- If there is no open block, then one is begun whose label is the next number. -/
lemma openBlock_eq_ok {c : BlockId} (hrun : openBlock b = .ok (c, b')) :
    (b.IsOpen c ∧ b' = b) ∨
      (∀ d, ¬ b.IsOpen d) ∧ Begins (toString b.nextSlot) c b b' := by
  simp only [openBlock, StateT.bind_eq_ok, StateT.get_eq_ok] at hrun
  obtain ⟨_, _, ⟨rfl, rfl⟩, hrun⟩ := hrun
  split at hrun
  · obtain ⟨rfl, rfl⟩ := StateT.pure_eq_ok.1 hrun
    exact .inl ⟨⟨rfl, rfl⟩, rfl⟩
  · rename_i hclosed
    refine .inr ⟨fun d hd => ?_, ?_⟩
    · rcases b with ⟨_, _, _, _, _, _, current, terminated⟩
      obtain ⟨rfl, rfl⟩ := hd
      exact hclosed _ _ _ _ _ _ _ rfl
    · simp only [StateT.bind_eq_ok, StateT.pure_eq_ok] at hrun
      obtain ⟨key, b₁, hkey, block, b₂, hblock, _, b₃, henter, rfl, rfl⟩ := hrun
      obtain ⟨rfl, rfl⟩ := takeKey_eq_ok hkey
      obtain ⟨hlookups, hlabel⟩ := blockOf_eq_ok hblock
      obtain ⟨m, hplace, rfl⟩ := enter_eq_ok henter
      exact ⟨_, b₂, m, hlookups, hlabel, hplace, rfl⟩

/-! ## Results -/

/-- The module after the reads of `name` have been sent to its definition `v`. -/
def Resolves (b : Body) (name : String) (v : ValueId) (m : Module) : Prop :=
  (b.values[name]? = none ∧ m = b.module) ∨
    ∃ old n, b.values[name]? = some old ∧ b.module.kind? old = some .placeholder ∧
      b.module.typeOf? old = b.module.typeOf? v ∧ b.module.replaceAllUses old v = .ok (m, n)

/-- The map that sends what `name` stands for to `v`. -/
def rebinding (b : Body) (name : String) (v w : ValueId) : ValueId :=
  if b.values[name]? = some w then v else w

/-- Whether the name was read before or not, its definition is a renaming of reads. -/
lemma Resolves.bare {name : String} {m : Module} (h : b.Resolves name v m) (hb : b.WellFormed)
    (hv : b.module.kind? v ≠ some .placeholder) :
    m.bare = b.module.bare.residue (b.rebinding name v) [] ∧
      b.module.Extends b.func (b.rebinding name v) m := by
  rcases h with ⟨hnone, rfl⟩ | ⟨old, n, hold, hkind, -, hreplace⟩
  · have hid : b.rebinding name v = id := by
      funext w
      simp [rebinding, hnone]
    rw [hid, Module.residue_id_nil]
    exact ⟨rfl, .refl _ _⟩
  · have hred : b.rebinding name v = Module.redirection old v := by
      funext w
      simp only [rebinding, Module.redirection, hold, Option.some.injEq, eq_comm]
    rcases hb.module.reachable.intact.agrees.replaceAllUses_eq_ok hreplace with
      ⟨-, rfl⟩ | ⟨-, -, -, -, -, rfl⟩
    · exact absurd hkind hv
    · rw [hred]
      exact ⟨Module.bare_redirected _ _ _, .redirected _ _ hkind⟩

/-- A result is named in three stages: reads are sent to it, its name is taken, and it is
recorded. -/
lemma nameResult_stages {name : String} {u : Unit} (hrun : nameResult name v b = .ok (u, b')) :
    ∃ m m' b₁, b.Resolves name v m ∧ takeKey (some name) { b with module := m } = .ok (name, b₁) ∧
      m.setValueName v (keptName name) = .ok m' ∧
      b' = { b₁ with module := m', values := b₁.values.insert name v } := by
  simp only [nameResult, StateT.bind_eq_ok, StateT.get_eq_ok] at hrun
  obtain ⟨_, _, ⟨rfl, rfl⟩, hrun⟩ := hrun
  -- The last steps are the same whether the name was read before or not.
  have hlast : ∀ {b₁ : Body} {u : Unit}, (do
      let key ← takeKey (some name)
      modify fun b => { b with values := b.values.insert key v }
      tryModule fun m => return (← m.setValueName v (keptName name), ()) : BodyM Unit) b₁
        = .ok (u, b') → ∃ m' b₂, takeKey (some name) b₁ = .ok (name, b₂) ∧
          b₁.module.setValueName v (keptName name) = .ok m' ∧
          b' = { b₂ with module := m', values := b₂.values.insert name v } := by
    intro b₁ u hlast
    simp only [StateT.bind_eq_ok, StateT.modify_eq_ok, tryModule_eq_ok, bind_eq_ok, pure_eq_ok,
      Prod.mk.injEq] at hlast
    obtain ⟨key, b₂, hkey, _, _, rfl, _, ⟨m', hname, rfl, -⟩, rfl⟩ := hlast
    obtain ⟨rfl, hb₂⟩ := takeKey_eq_ok hkey
    exact ⟨m', b₂, hkey, by rwa [hb₂] at hname, rfl⟩
  cases hname : b.values[name]? with
  | none =>
    simp only [hname] at hrun
    obtain ⟨m', b₁, hkey, hset, rfl⟩ := hlast hrun
    exact ⟨b.module, m', b₁, .inl ⟨hname, rfl⟩, hkey, hset, rfl⟩
  | some old =>
    simp only [hname] at hrun
    obtain ⟨old', _, hlift, hrun⟩ := StateT.bind_eq_ok.1 hrun
    obtain ⟨hold, rfl⟩ := StateT.liftM_eq_ok.1 hlift
    split_ifs at hrun with hkind
    · simp at hrun
    obtain ⟨value, _, hlift, hrun⟩ := StateT.bind_eq_ok.1 hrun
    obtain ⟨hvalue, rfl⟩ := StateT.liftM_eq_ok.1 hlift
    split_ifs at hrun with hty
    · simp at hrun
    obtain ⟨n, _, htry, hrun⟩ := StateT.bind_eq_ok.1 hrun
    obtain ⟨m, hreplace, rfl⟩ := tryModule_eq_ok.1 htry
    obtain ⟨m', b₁, hkey, hset, rfl⟩ := hlast hrun
    refine ⟨m, m', b₁, .inr ⟨old, n, hname, ?_, ?_, hreplace⟩, hkey, hset, rfl⟩
    · exact Module.kind?_eq_some.2 ⟨old', Module.getValue_eq_ok.1 hold, not_not.1 hkind⟩
    · rw [Module.typeOf?_eq_some.2 ⟨old', Module.getValue_eq_ok.1 hold, rfl⟩,
        Module.typeOf?_eq_some.2 ⟨value, Module.getValue_eq_ok.1 hvalue, rfl⟩, not_not.1 hty]

lemma nameResult_eq_ok {name : String} {u : Unit} (hrun : nameResult name v b = .ok (u, b')) :
    ∃ m m' n, b.Resolves name v m ∧ m.setValueName v (keptName name) = .ok m' ∧
      b' = { b with module := m', nextSlot := n, values := b.values.insert name v } := by
  obtain ⟨m, m', b₁, hresolves, hkey, hset, rfl⟩ := nameResult_stages hrun
  obtain ⟨-, rfl⟩ := takeKey_eq_ok hkey
  exact ⟨m, m', _, hresolves, hset, rfl⟩

lemma numberResult_eq_ok {u : Unit} (hrun : numberResult v b = .ok (u, b')) :
    ∃ n, b' = { b with nextSlot := n, values := b.values.insert (toString b.nextSlot) v } := by
  simp only [numberResult, StateT.bind_eq_ok, StateT.modify_eq_ok] at hrun
  obtain ⟨key, b₁, hkey, rfl⟩ := hrun
  obtain ⟨rfl, rfl⟩ := takeKey_eq_ok hkey
  exact ⟨_, rfl⟩

/-- A result gets its name, or the next number; an instruction without a result gets neither. -/
def Binds (name : Option String) (inst : Inst) (b b' : Body) : Prop :=
  match name with
  | some name => nameResult name inst.result b = .ok ((), b')
  | none => if inst.ty = .void then b' = b else numberResult inst.result b = .ok ((), b')

/-! ## Lines -/

/-- The line is an instruction: the name of its result, its opcode, and the statement. -/
def Parses (ts : List Token) (name : Option String) (op : Opcode) (s : Statement) : Prop :=
  ∃ rest rest', (Statement.head.run ts).result = .ok ((name, op), rest) ∧
    ((Statement.phrase name op).run rest).result = .ok (s, rest')

lemma Parses.valid {ts : List Token} {name : Option String} {op : Opcode} {s : Statement}
    (hts : ∀ t ∈ ts, t.Valid) (h : Parses ts name op s) :
    (∀ x, name = some x → Quotable x) ∧ s.Valid ∧ s.operation.opcode = op ∧
      (name.isSome → s.operation.resultType ≠ .void) := by
  obtain ⟨rest, rest', hhead, hphrase⟩ := h
  obtain ⟨hname, hrest⟩ := (Statement.head_yields ts hts).2 _ _ hhead
  exact ⟨hname, ((Statement.phrase_yields name op rest hrest).2 s rest' hphrase).1⟩

/-- An instruction is read in three stages: a block is opened, the instruction is appended, and its
result is bound. -/
lemma instruction_stages {ts : List Token} {u : Unit} (hrun : instruction ts b = .ok (u, b')) :
    ∃ name op s, Parses ts name op s ∧ ∃ c b₁ i b₂ inst b₃, openBlock b = .ok (c, b₁) ∧
      append c s.align s.operation b₁ = .ok (i, b₂) ∧ b₂.module.inst? i = some inst ∧
      Binds name inst b₂ b₃ ∧ b' = { b₃ with terminated := op.isTerminator } := by
  rw [instruction] at hrun
  cases hhead : (Statement.head.run ts).result with
  | error e => simp [hhead] at hrun
  | ok head =>
    obtain ⟨⟨name, op⟩, rest⟩ := head
    simp only [hhead, StateT.bind_eq_ok] at hrun
    obtain ⟨c, b₁, hopen, hrun⟩ := hrun
    cases hreading : ((Statement.phrase name op).run rest).result with
    | error e => simp [hreading, StateT.bind_eq_ok] at hrun
    | ok statement =>
      obtain ⟨s, rest'⟩ := statement
      simp only [hreading, StateT.bind_eq_ok] at hrun
      obtain ⟨i, b₂, happend, _, _, hget, inst, _, hlift, hrun⟩ := hrun
      obtain ⟨rfl, rfl⟩ := StateT.get_eq_ok.1 hget
      obtain ⟨hinst, rfl⟩ := StateT.liftM_eq_ok.1 hlift
      have hbinds : ∃ b₃, Binds name inst b₂ b₃ ∧
          b' = { b₃ with terminated := op.isTerminator } := by
        cases name with
        | some name =>
          simp only [StateT.bind_eq_ok, StateT.modify_eq_ok] at hrun
          obtain ⟨_, b₃, hname, rfl⟩ := hrun
          exact ⟨b₃, hname, rfl⟩
        | none =>
          simp only [Binds]
          split_ifs at hrun with hvoid
          · simp only [StateT.bind_eq_ok, StateT.modify_eq_ok] at hrun
            obtain ⟨_, b₃, hnumber, rfl⟩ := hrun
            have hty : inst.ty ≠ .void := fun hty => by simp [hty, Ty.isVoid] at hvoid
            exact ⟨b₃, by rwa [if_neg hty], rfl⟩
          · have hty : inst.ty = .void := by simpa using hvoid
            exact ⟨_, if_pos hty ▸ rfl, (StateT.modify_eq_ok.1 hrun).symm⟩
      obtain ⟨b₃, hbinds, rfl⟩ := hbinds
      exact ⟨name, op, s, ⟨rest, rest', hhead, hreading⟩, c, b₁, i, b₂, inst, b₃, hopen, happend,
        Module.getInst_eq_ok.1 hinst, hbinds, rfl⟩

/-- Before the instruction is appended, all its names are looked up. -/
lemma instruction_eq_ok {ts : List Token} (hts : ∀ t ∈ ts, t.Valid) {u : Unit}
    (hrun : instruction ts b = .ok (u, b')) :
    ∃ name op s, Parses ts name op s ∧
      ∃ c b₁ b₂ vs cs m i inst b₄, openBlock b = .ok (c, b₁) ∧ Lookups b₁ b₂ ∧
        List.Forall₂ b₂.Denotes s.operation.operands vs ∧
        List.Forall₂ b₂.Labels s.operation.labels cs ∧
        b₂.module.appendInst c (s.operation.spec s.align cs) vs = .ok (m, i) ∧
        (b.WellFormed → WellFormed { b₂ with module := m }) ∧
        m.inst? i = some inst ∧ Binds name inst { b₂ with module := m } b₄ ∧
        b' = { b₄ with terminated := op.isTerminator } := by
  obtain ⟨name, op, s, hparses, c, b₁, i, b₃, inst, b₄, hopen, happend, hinst, hbinds, rfl⟩ :=
    instruction_stages hrun
  obtain ⟨b₂, vs, cs, hlookups, hvs, hcs, hemit⟩ :=
    append_eq_ok (hparses.valid hts).2.1.operation happend
  obtain ⟨m, happendInst, rfl⟩ := tryModule_eq_ok.1 hemit
  refine ⟨name, op, s, hparses, c, b₁, b₂, vs, cs, m, i, inst, b₄, hopen, hlookups, hvs, hcs,
    happendInst, fun hb => ?_, hinst, hbinds, rfl⟩
  have hb₁ := (openBlock_grows hb hopen).wellFormed hb
  exact (append_grows hb₁ happend).wellFormed hb₁

end SsaFold.Text.Body
