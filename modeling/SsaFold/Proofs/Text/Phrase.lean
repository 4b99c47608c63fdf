import SsaFold.Proofs.Text.Token
import SsaFold.Text.Header
import SsaFold.Text.Statement

/-!
# What phrases return

A phrase that is given valid tokens meets valid operands only, also where it fails, and what it
returns is valid: types have a supported width, names can be written again, an alignment fits, a
`phi` chooses from something, and a callee is a name.  `Phrase.Yields` says this of a phrase and a
property of its result.  It passes from the parts of a phrase to the whole, so each phrase has one
short lemma; the main results are `Statement.phrase_yields` and `Header.read_valid`.
-/

namespace SsaFold

/-- The type is one that the reader accepts. -/
def Ty.Readable : Ty → Prop
  | .int bits => 0 < bits ∧ bits ≤ maxIntBits
  | .void | .ptr => True

namespace Text

/-! ## Valid parts -/

/-- The atom is the name of something. -/
def Atom.IsName : Atom → Prop
  | .localName _ | .globalName _ => True
  | .int _ | .bool _ | .null => False

/-- A name can be written again. -/
def Atom.Valid : Atom → Prop
  | .localName s | .globalName s => Quotable s
  | .int _ | .bool _ | .null => True

/-- The operand can be written again, and its type is one that the reader accepts. -/
structure TypedAtom.Valid (a : TypedAtom) : Prop where
  ty : a.ty.Readable
  atom : a.atom.Valid

namespace Operation

/-- The operands in the order in which the instruction has them. -/
def operands : Operation → List TypedAtom
  | binary _ _ bits lhs rhs => [⟨.int bits, lhs⟩, ⟨.int bits, rhs⟩]
  | icmp _ ty lhs rhs => [⟨ty, lhs⟩, ⟨ty, rhs⟩]
  | select cond ty ifTrue ifFalse => [⟨.i1, cond⟩, ⟨ty, ifTrue⟩, ⟨ty, ifFalse⟩]
  | phi ty incoming => incoming.map fun entry => ⟨ty, entry.1⟩
  | call _ callee args => args ++ [⟨.ptr, callee⟩]
  | load _ pointer => [⟨.ptr, pointer⟩]
  | store value pointer => [value, ⟨.ptr, pointer⟩]
  | ret value => value.toList
  | condBr cond _ _ => [⟨.i1, cond⟩]
  | alloca _ | br _ | unreachable => []

/-- The labels in the order in which the instruction has its targets. -/
def labels : Operation → List String
  | phi _ incoming => incoming.map Prod.snd
  | br target => [target]
  | condBr _ ifTrue ifFalse => [ifTrue, ifFalse]
  | _ => []

/-- The predicate of a comparison. -/
def predicate? : Operation → Option Predicate
  | icmp p .. => some p
  | _ => none

/-- The flags of arithmetic. -/
def flags : Operation → ArithFlags
  | binary _ flags .. => flags
  | _ => {}

/-- The type for which room is made. -/
def allocTy? : Operation → Option Ty
  | alloca ty => some ty
  | _ => none

/-- What the instruction of an operation says, its operands aside. -/
def spec (op : Operation) (align : Option Nat) (targets : List BlockId) : InstSpec where
  opcode := op.opcode
  ty := op.resultType
  predicate := op.predicate?
  flags := op.flags
  targets := targets
  allocTy := op.allocTy?
  align := align

/-- The operation is one that a line can hold. -/
structure Valid (op : Operation) : Prop where
  operands : ∀ a ∈ op.operands, a.Valid
  resultType : op.resultType.Readable
  allocTy : ∀ ty, op.allocTy? = some ty → ty.Readable
  /-- A `phi` chooses from something. -/
  incoming : ∀ ty incoming, op = .phi ty incoming → incoming ≠ []
  /-- A callee is a name. -/
  callee : ∀ ty callee args, op = .call ty callee args → callee.IsName

end Operation

/-- The statement is one that a line can hold. -/
structure Statement.Valid (s : Statement) : Prop where
  operation : s.operation.Valid
  align : ∀ n, s.align = some n → n < modulus 32

/-! ## Phrases -/

namespace Phrase

variable {α β : Type}

/-- Given valid tokens, the phrase meets valid operands, and what it returns satisfies `Q`. -/
def Yields (p : Phrase α) (Q : α → Prop) : Prop :=
  ∀ ts, (∀ t ∈ ts, t.Valid) → (∀ a ∈ (p.run ts).met, a.Valid) ∧
    ∀ x rest, (p.run ts).result = .ok (x, rest) → Q x ∧ ∀ t ∈ rest, t.Valid

variable {p : Phrase α} {P Q : α → Prop} {R : β → Prop}

lemma yields_pure {a : α} (h : Q a) : (pure a : Phrase α).Yields Q := by
  intro ts hts
  refine ⟨by simp [Reading.done], fun x rest hrun => ?_⟩
  simp only [run_pure, Reading.done, Except.ok.injEq, Prod.mk.injEq] at hrun
  obtain ⟨rfl, rfl⟩ := hrun
  exact ⟨h, hts⟩

lemma yields_fail (e : PhraseError) : (fail e : Phrase α).Yields Q := by
  intro ts _
  refine ⟨by simp [fail, Reading.fail], fun x rest hrun => ?_⟩
  simp [fail, Reading.fail] at hrun

lemma Yields.bind {f : α → Phrase β} (hp : p.Yields P) (hf : ∀ a, P a → (f a).Yields R) :
    (p >>= f).Yields R := by
  intro ts hts
  obtain ⟨hmet, hresult⟩ := hp ts hts
  rw [run_bind]
  cases hrun : (p.run ts).result with
  | error e =>
    simp only [Reading.bind, hrun]
    exact ⟨hmet, by simp⟩
  | ok x =>
    obtain ⟨a, rest⟩ := x
    obtain ⟨ha, hrest⟩ := hresult a rest hrun
    obtain ⟨hmet', hresult'⟩ := hf a ha rest hrest
    simp only [Reading.bind, hrun]
    refine ⟨fun b hb => ?_, hresult'⟩
    rcases List.mem_append.1 hb with hb | hb
    · exact hmet b hb
    · exact hmet' b hb

lemma Yields.mono (hp : p.Yields P) (h : ∀ a, P a → Q a) : p.Yields Q := fun ts hts =>
  ⟨(hp ts hts).1, fun x rest hrun => ⟨h x ((hp ts hts).2 x rest hrun).1,
    ((hp ts hts).2 x rest hrun).2⟩⟩

/-- A refusal under a condition. -/
lemma yields_unless {c : Prop} [Decidable c] (e : PhraseError) :
    (if c then pure () else fail e : Phrase Unit).Yields fun _ => c := by
  split_ifs with h
  · exact yields_pure h
  · exact yields_fail e

/-- A refusal under a condition, after which the reading goes on. -/
lemma yields_guard {c : Prop} [Decidable c] {e : PhraseError} {k : PUnit → Phrase α}
    (hk : c → (k ⟨⟩).Yields Q) : (if c then k ⟨⟩ else fail e >>= k).Yields Q := by
  split_ifs with h
  · exact hk h
  · exact (yields_fail (Q := fun _ => False) e).bind fun _ h => h.elim

/-- A phrase that meets no operand and hands on a part of its tokens. -/
lemma yields_ofExcept {f : List Token → Except PhraseError (α × List Token)}
    (h : ∀ ts x rest, (∀ t ∈ ts, t.Valid) → f ts = .ok (x, rest) → Q x ∧ ∀ t ∈ rest, t.Valid) :
    (⟨fun ts => .ofExcept (f ts)⟩ : Phrase α).Yields Q := fun ts hts =>
  ⟨by simp [Reading.ofExcept], fun x rest hrun => h ts x rest hts hrun⟩

/-! ### Single tokens -/

lemma next_yields : next.Yields Token.Valid := by
  intro ts hts
  cases ts with
  | nil => exact ⟨by simp [next, Reading.fail], by simp [next, Reading.fail]⟩
  | cons t ts =>
    refine ⟨by simp [next, Reading.done], fun x rest hrun => ?_⟩
    simp only [next, Reading.done, Except.ok.injEq, Prod.mk.injEq] at hrun
    obtain ⟨rfl, rfl⟩ := hrun
    exact List.forall_mem_cons.1 hts

lemma peek_yields : peek.Yields fun _ => True := by
  intro ts hts
  refine ⟨by simp [peek, Reading.done], fun x rest hrun => ?_⟩
  simp only [peek, Reading.done, Except.ok.injEq, Prod.mk.injEq] at hrun
  exact ⟨trivial, hrun.2 ▸ hts⟩

lemma eat_yields (t : Token) : (eat t).Yields fun _ => True := by
  intro ts hts
  cases ts with
  | nil => exact ⟨by simp [eat, Reading.done], by simp [eat, Reading.done]⟩
  | cons u ts =>
    simp only [eat]
    split_ifs
    · refine ⟨by simp [Reading.done], fun x rest hrun => ?_⟩
      simp only [Reading.done, Except.ok.injEq, Prod.mk.injEq] at hrun
      exact ⟨trivial, hrun.2 ▸ (List.forall_mem_cons.1 hts).2⟩
    · refine ⟨by simp [Reading.done], fun x rest hrun => ?_⟩
      simp only [Reading.done, Except.ok.injEq, Prod.mk.injEq] at hrun
      exact ⟨trivial, hrun.2 ▸ hts⟩

lemma mark_yields (c : Char) : (mark c).Yields fun _ => True :=
  next_yields.bind fun _ _ => (yields_unless _).mono fun _ _ => trivial

lemma keyword_yields (w : String) : (keyword w).Yields fun _ => True :=
  next_yields.bind fun _ _ => (yields_unless _).mono fun _ _ => trivial

lemma word_yields : word.Yields IsWord := by
  refine next_yields.bind fun t ht => ?_
  split
  · exact yields_pure ht
  · exact yields_fail _

lemma localName_yields : localName.Yields Quotable := by
  refine next_yields.bind fun t ht => ?_
  split
  · exact yields_pure ht
  · exact yields_fail _

/-- A type that is read has a supported width. -/
lemma readable_of_typeOf {t : Token} {ty : Ty} (h : typeOf t = .ok ty) : ty.Readable := by
  unfold typeOf at h
  split at h
  · split at h
    · split_ifs at h with hbits
      rw [← Except.ok.inj h]
      exact hbits
    · -- The integer types have been dealt with.
      rename_i ty' hint hword
      rw [← Except.ok.inj h]
      cases ty' with
      | int bits => exact absurd rfl (hint bits)
      | _ => trivial
    · cases h
  · cases h

lemma type_yields : type.Yields Ty.Readable := by
  refine next_yields.bind fun t _ => ?_
  split
  · rename_i ty hty
    exact yields_pure (readable_of_typeOf hty)
  · exact yields_fail _

/-- The operand that a valid token denotes is valid. -/
lemma valid_of_ofToken? {t : Token} {atom : Atom} (ht : t.Valid) (h : Atom.ofToken? t = some atom) :
    atom.Valid := by
  unfold Atom.ofToken? at h
  split at h <;> simp only [Option.some.injEq, reduceCtorEq] at h <;> subst h
  · exact ht
  · exact ht
  all_goals trivial

lemma operand_yields {ty : Ty} (hty : ty.Readable) : (operand ty).Yields Atom.Valid := by
  intro ts hts
  cases ts with
  | nil => exact ⟨by simp [operand, Reading.fail], by simp [operand, Reading.fail]⟩
  | cons t ts =>
    obtain ⟨ht, hts⟩ := List.forall_mem_cons.1 hts
    cases hatom : Atom.ofToken? t with
    | none =>
      simp only [operand, hatom]
      exact ⟨by simp [Reading.fail], by simp [Reading.fail]⟩
    | some atom =>
      have hvalid := valid_of_ofToken? ht hatom
      simp only [operand, hatom]
      refine ⟨fun a ha => ?_, fun x rest hrun => ?_⟩
      · simp only [Reading.after, Reading.done, List.mem_singleton] at ha
        exact ha ▸ ⟨hty, hvalid⟩
      · simp only [Reading.after, Reading.done, Except.ok.injEq, Prod.mk.injEq] at hrun
        obtain ⟨rfl, rfl⟩ := hrun
        exact ⟨hvalid, hts⟩

lemma typedOperand_yields : typedOperand.Yields TypedAtom.Valid :=
  type_yields.bind fun _ hty => (operand_yields hty).bind fun _ hatom => yields_pure ⟨hty, hatom⟩

lemma isType_eq {w : String} : isType (.word w) = (Ty.ofWord? w).isSome := rfl

/-- The words in front of a type are words, and no types. -/
lemma wordsBeforeType_valid {ts rest : List Token} {ws : List String} (hts : ∀ t ∈ ts, t.Valid)
    (h : wordsBeforeType ts = .ok (ws, rest)) :
    (∀ w ∈ ws, IsWord w ∧ Ty.ofWord? w = none) ∧ ∀ t ∈ rest, t.Valid := by
  fun_induction wordsBeforeType ts generalizing ws rest with
  | case1 => cases h
  | case2 t ts htype =>
    obtain ⟨rfl, rfl⟩ := Prod.mk.inj (Except.ok.inj h)
    exact ⟨by simp, hts⟩
  | case3 ts w htype ih =>
    obtain ⟨hw, hts⟩ := List.forall_mem_cons.1 hts
    obtain ⟨⟨ws', rest'⟩, hrest, heq⟩ := map_eq_ok_iff.1 h
    obtain ⟨rfl, rfl⟩ := Prod.mk.inj heq
    obtain ⟨hws, hrest⟩ := ih hts hrest
    have hnone : Ty.ofWord? w = none := by simpa [isType_eq] using htype
    exact ⟨List.forall_mem_cons.2 ⟨⟨hw, hnone⟩, hws⟩, hrest⟩
  | case4 t ts hword htype => cases h

lemma modifiers_yields :
    modifiers.Yields fun ws => ∀ w ∈ ws, IsWord w ∧ Ty.ofWord? w = none :=
  yields_ofExcept fun _ _ _ hts h => wordsBeforeType_valid hts h

end Phrase

/-! ## Statements -/

namespace Statement

open Phrase

lemma resultName_yields : resultName.Yields fun name => ∀ s, name = some s → Quotable s := by
  intro ts hts
  simp only [resultName]
  split
  · rename_i name ts'
    obtain ⟨hname, hts⟩ := List.forall_mem_cons.1 hts
    refine ⟨by simp [Reading.done], fun x rest hrun => ?_⟩
    simp only [Reading.done, Except.ok.injEq, Prod.mk.injEq] at hrun
    obtain ⟨rfl, rfl⟩ := hrun
    exact ⟨fun s hs => Option.some.inj hs ▸ hname, (List.forall_mem_cons.1 hts).2⟩
  · refine ⟨by simp [Reading.done], fun x rest hrun => ?_⟩
    simp only [Reading.done, Except.ok.injEq, Prod.mk.injEq] at hrun
    obtain ⟨rfl, rfl⟩ := hrun
    exact ⟨by simp, hts⟩

lemma opcode_yields {name : Option String} (hname : ∀ s, name = some s → Quotable s)
    (mnemonic : String) : (match Opcode.ofMnemonic? mnemonic with
      | some op => pure (name, op)
      | none => fail (.unknownOpcode mnemonic) : Phrase (Option String × Opcode)).Yields
        fun x => ∀ s, x.1 = some s → Quotable s := by
  split
  · exact yields_pure hname
  · exact yields_fail _

lemma head_yields : head.Yields fun x => ∀ s, x.1 = some s → Quotable s := by
  refine resultName_yields.bind fun name hname => word_yields.bind fun first _ => ?_
  dsimp only
  split_ifs
  · exact word_yields.bind fun mnemonic _ => opcode_yields hname mnemonic
  · exact (yields_pure (Q := fun _ => True) trivial).bind fun mnemonic _ =>
      opcode_yields hname mnemonic

lemma takeFlags_valid {flags : ArithFlags} {ts : List Token} (hts : ∀ t ∈ ts, t.Valid) :
    ∀ t ∈ (takeFlags flags ts).2, t.Valid := by
  fun_induction takeFlags flags ts with
  | case1 flags ts ih => exact ih (List.forall_mem_cons.1 hts).2
  | case2 flags ts ih => exact ih (List.forall_mem_cons.1 hts).2
  | case3 flags ts ih => exact ih (List.forall_mem_cons.1 hts).2
  | case4 => exact hts

lemma arithFlags_yields : arithFlags.Yields fun _ => True := by
  intro ts hts
  refine ⟨by simp [arithFlags, Reading.done], fun x rest hrun => ⟨trivial, ?_⟩⟩
  simp only [arithFlags, Reading.done, Except.ok.injEq] at hrun
  have := @takeFlags_valid {} _ hts
  rwa [hrun] at this

lemma label_yields : label.Yields fun _ => True :=
  (keyword_yields _).bind fun _ _ => localName_yields.mono fun _ _ => trivial

lemma pointer_yields : pointer.Yields Atom.Valid :=
  (keyword_yields _).bind fun _ _ => operand_yields trivial

/-- The operation is valid, and it is one of the opcode. -/
abbrev ValidOf (op : Opcode) (operation : Operation) : Prop :=
  operation.Valid ∧ operation.opcode = op

lemma binary_yields (op : BinaryOp) : (binary op).Yields (ValidOf (.binary op)) := by
  refine arithFlags_yields.bind fun flags _ => typedOperand_yields.bind fun lhs hlhs => ?_
  split
  · rename_i bits hty
    have hbits : (Ty.int bits).Readable := hty ▸ hlhs.ty
    refine (mark_yields _).bind fun _ _ => ?_
    refine (operand_yields hlhs.ty).bind fun rhs hrhs => yields_pure ⟨⟨?_, hbits, ?_, ?_, ?_⟩, rfl⟩
    · have hlhs' : (TypedAtom.mk (.int bits) lhs.atom).Valid := ⟨hbits, hlhs.atom⟩
      have hrhs' : (TypedAtom.mk (.int bits) rhs).Valid := ⟨hbits, hrhs⟩
      simpa [Operation.operands] using And.intro hlhs' hrhs'
    all_goals simp [Operation.allocTy?]
  · exact yields_fail _

lemma icmp_yields : icmp.Yields (ValidOf .icmp) := by
  refine word_yields.bind fun name _ => ?_
  split
  · exact yields_fail _
  · refine typedOperand_yields.bind fun lhs hlhs => (mark_yields _).bind fun _ _ => ?_
    refine (operand_yields hlhs.ty).bind fun rhs hrhs => yields_pure ⟨⟨?_, ?_, ?_, ?_, ?_⟩, rfl⟩
    · have hrhs' : (TypedAtom.mk lhs.ty rhs).Valid := ⟨hlhs.ty, hrhs⟩
      simpa [Operation.operands] using And.intro hlhs hrhs'
    · exact ⟨Nat.one_pos, by decide⟩
    all_goals simp [Operation.allocTy?]

lemma select_yields : select.Yields (ValidOf .select) := by
  refine typedOperand_yields.bind fun cond hcond => yields_guard fun hbool => ?_
  refine (mark_yields _).bind fun _ _ => typedOperand_yields.bind fun ifTrue htrue => ?_
  refine (mark_yields _).bind fun _ _ => typedOperand_yields.bind fun ifFalse hfalse => ?_
  refine yields_guard fun harms => yields_pure ⟨⟨?_, htrue.ty, ?_, ?_, ?_⟩, rfl⟩
  · have hcond' : (TypedAtom.mk .i1 cond.atom).Valid := ⟨hbool ▸ hcond.ty, hcond.atom⟩
    have hfalse' : (TypedAtom.mk ifTrue.ty ifFalse.atom).Valid := ⟨htrue.ty, hfalse.atom⟩
    simpa [Operation.operands] using And.intro hcond' (And.intro htrue hfalse')
  all_goals simp [Operation.allocTy?]

/-- The incoming values are valid, and there is one unless the reading stands behind one. -/
lemma readIncoming_valid {ty : Ty} (hty : ty.Readable) (place : IncomingPlace) (ts : List Token)
    (hts : ∀ t ∈ ts, t.Valid)
    (hplace : match place with
      | .comma atom | .label atom | .closing atom _ => atom.Valid
      | .opening | .value => True) :
    (∀ a ∈ (readIncoming ty place ts).met, a.Valid) ∧
      ∀ incoming rest, (readIncoming ty place ts).result = .ok (incoming, rest) →
        (incoming ≠ [] ∧ ∀ entry ∈ incoming, entry.1.Valid) ∧ ∀ t ∈ rest, t.Valid := by
  fun_induction readIncoming ty place ts with
  | case1 place => simp [Reading.fail]
  | case2 ts ih => exact ih (List.forall_mem_cons.1 hts).2 trivial
  | case3 t ts hopen => simp [Reading.fail]
  | case4 t ts atom hatom ih =>
    obtain ⟨ht, hts⟩ := List.forall_mem_cons.1 hts
    have hvalid := valid_of_ofToken? ht hatom
    obtain ⟨hmet, hresult⟩ := ih hts hvalid
    exact ⟨List.forall_mem_cons.2 ⟨⟨hty, hvalid⟩, hmet⟩, hresult⟩
  | case5 t ts hatom => simp [Reading.fail]
  | case6 atom ts ih => exact ih (List.forall_mem_cons.1 hts).2 hplace
  | case7 atom t ts hcomma => simp [Reading.fail]
  | case8 atom label ts ih => exact ih (List.forall_mem_cons.1 hts).2 hplace
  | case9 atom t ts hlabel => simp [Reading.fail]
  | case10 atom label ts ih =>
    have hts' : ∀ t ∈ ts, t.Valid := fun t ht => hts t (by simp [ht])
    obtain ⟨hmet, hresult⟩ := ih hts' trivial
    refine ⟨hmet, fun incoming rest hrun => ?_⟩
    obtain ⟨⟨incoming', rest'⟩, hrun', heq⟩ := map_eq_ok_iff.1 hrun
    obtain ⟨rfl, rfl⟩ := Prod.mk.inj heq
    obtain ⟨⟨-, hvalid⟩, hrest⟩ := hresult incoming' rest' hrun'
    exact ⟨⟨by simp, List.forall_mem_cons.2 ⟨hplace, hvalid⟩⟩, hrest⟩
  | case11 atom label ts hmore =>
    refine ⟨by simp [Reading.done], fun incoming rest hrun => ?_⟩
    simp only [Reading.done, Except.ok.injEq, Prod.mk.injEq] at hrun
    obtain ⟨rfl, rfl⟩ := hrun
    exact ⟨⟨by simp, by simpa using hplace⟩, (List.forall_mem_cons.1 hts).2⟩
  | case12 atom label t ts hmore hclose => simp [Reading.fail]

lemma phi_yields : phi.Yields (ValidOf .phi) := by
  refine type_yields.bind fun ty hty => ?_
  have hincoming : (⟨readIncoming ty .opening⟩ : Phrase (List (Atom × String))).Yields
      fun incoming => incoming ≠ [] ∧ ∀ entry ∈ incoming, entry.1.Valid :=
    fun ts hts => readIncoming_valid hty .opening ts hts trivial
  refine hincoming.bind fun incoming ⟨hne, hvalid⟩ => yields_pure ⟨⟨?_, hty, ?_, ?_, ?_⟩, rfl⟩
  · intro a ha
    obtain ⟨entry, hentry, rfl⟩ := List.mem_map.1 ha
    exact ⟨hty, hvalid entry hentry⟩
  · simp [Operation.allocTy?]
  · rintro ty' incoming' heq
    obtain ⟨rfl, rfl⟩ := Operation.phi.inj heq
    exact hne
  · simp

lemma dropGroup_valid {ts rest : List Token} (hts : ∀ t ∈ ts, t.Valid)
    (h : dropGroup ts = .ok rest) : ∀ t ∈ rest, t.Valid := by
  fun_induction dropGroup ts with
  | case1 => cases h
  | case2 ts => exact Except.ok.inj h ▸ (List.forall_mem_cons.1 hts).2
  | case3 t ts _ ih => exact ih (List.forall_mem_cons.1 hts).2 h

lemma functionType_yields : functionType.Yields fun _ => True := by
  intro ts hts
  simp only [functionType]
  split
  · refine ⟨by simp [Reading.ofExcept], fun x rest hrun => ⟨trivial, ?_⟩⟩
    obtain ⟨rest', hdrop, heq⟩ := map_eq_ok_iff.1 hrun
    obtain ⟨-, rfl⟩ := Prod.mk.inj heq
    exact dropGroup_valid (List.forall_mem_cons.1 hts).2 hdrop
  · refine ⟨by simp [Reading.done], fun x rest hrun => ⟨trivial, ?_⟩⟩
    simp only [Reading.done, Except.ok.injEq, Prod.mk.injEq] at hrun
    exact hrun.2 ▸ hts

lemma callee_yields : callee.Yields fun atom => atom.IsName ∧ atom.Valid := by
  intro ts hts
  simp only [callee]
  split
  · simp [Reading.fail]
  all_goals
    obtain ⟨ht, hts⟩ := List.forall_mem_cons.1 hts
  · refine ⟨fun a ha => ?_, fun x rest hrun => ?_⟩
    · simp only [Reading.after, Reading.done, List.mem_singleton] at ha
      exact ha ▸ ⟨trivial, ht⟩
    · simp only [Reading.after, Reading.done, Except.ok.injEq, Prod.mk.injEq] at hrun
      obtain ⟨rfl, rfl⟩ := hrun
      exact ⟨⟨trivial, ht⟩, hts⟩
  · refine ⟨fun a ha => ?_, fun x rest hrun => ?_⟩
    · simp only [Reading.after, Reading.done, List.mem_singleton] at ha
      exact ha ▸ ⟨trivial, ht⟩
    · simp only [Reading.after, Reading.done, Except.ok.injEq, Prod.mk.injEq] at hrun
      obtain ⟨rfl, rfl⟩ := hrun
      exact ⟨⟨trivial, ht⟩, hts⟩
  · simp [Reading.fail]

lemma readArgs_valid (place : ArgPlace) (ts : List Token) (hts : ∀ t ∈ ts, t.Valid)
    (hplace : match place with
      | .value ty => ty.Readable
      | .type | .finish => True) :
    (∀ a ∈ (readArgs place ts).met, a.Valid) ∧
      ∀ args rest, (readArgs place ts).result = .ok (args, rest) →
        (∀ a ∈ args, a.Valid) ∧ ∀ t ∈ rest, t.Valid := by
  fun_induction readArgs place ts with
  | case1 place => simp [Reading.fail]
  | case2 t ts ty hty ih =>
    exact ih (List.forall_mem_cons.1 hts).2 (readable_of_typeOf hty)
  | case3 t ts e he => simp [Reading.fail]
  | case4 ty t atom ts hatom ih =>
    simp only [hatom]
    obtain ⟨ht, hts⟩ := List.forall_mem_cons.1 hts
    have hvalid : (TypedAtom.mk ty atom).Valid := ⟨hplace, valid_of_ofToken? ht hatom⟩
    obtain ⟨hmet, hresult⟩ := ih hts trivial
    refine ⟨List.forall_mem_cons.2 ⟨hvalid, hmet⟩, fun args rest hrun => ?_⟩
    obtain ⟨⟨args', rest'⟩, hrun', heq⟩ := map_eq_ok_iff.1 hrun
    obtain ⟨rfl, rfl⟩ := Prod.mk.inj heq
    obtain ⟨hargs, hrest⟩ := hresult args' rest' hrun'
    exact ⟨List.forall_mem_cons.2 ⟨hvalid, hargs⟩, hrest⟩
  | case5 ty n rest hatom ih =>
    exact ih (fun t ht => hts t (by simp [ht])) hplace
  | case6 ty w ts hint hatom ih =>
    simp only [hatom]
    exact ih (List.forall_mem_cons.1 hts).2 hplace
  | case7 ty ts t hword halign hatom =>
    simp only [hatom]
    simp [Reading.fail]
  | case8 ts =>
    refine ⟨by simp [Reading.done], fun args rest hrun => ?_⟩
    simp only [Reading.done, Except.ok.injEq, Prod.mk.injEq] at hrun
    obtain ⟨rfl, rfl⟩ := hrun
    exact ⟨by simp, (List.forall_mem_cons.1 hts).2⟩
  | case9 ts hclose ih => exact ih (List.forall_mem_cons.1 hts).2 trivial
  | case10 t ts hclose hcomma => simp [Reading.fail]

lemma args_yields : args.Yields fun args => ∀ a ∈ args, a.Valid := by
  intro ts hts
  simp only [args]
  split
  · refine ⟨by simp [Reading.done], fun x rest hrun => ?_⟩
    simp only [Reading.done, Except.ok.injEq, Prod.mk.injEq] at hrun
    obtain ⟨rfl, rfl⟩ := hrun
    exact ⟨by simp, (List.forall_mem_cons.1 hts).2⟩
  · exact readArgs_valid .type ts hts trivial

lemma call_yields : call.Yields (ValidOf .call) := by
  refine modifiers_yields.bind fun _ _ => type_yields.bind fun ty hty => ?_
  refine functionType_yields.bind fun _ _ => callee_yields.bind fun callee ⟨hname, hcallee⟩ => ?_
  refine (mark_yields _).bind fun _ _ => args_yields.bind fun args hargs => ?_
  refine yields_pure ⟨⟨?_, hty, ?_, ?_, ?_⟩, rfl⟩
  · have hcallee' : (TypedAtom.mk .ptr callee).Valid := ⟨trivial, hcallee⟩
    intro a ha
    rcases List.mem_append.1 ha with ha | ha
    · exact hargs a ha
    · exact List.mem_singleton.1 ha ▸ hcallee'
  · simp [Operation.allocTy?]
  · simp
  · rintro ty' callee' args' heq
    obtain ⟨rfl, rfl, rfl⟩ := Operation.call.inj heq
    exact hname

lemma ret_yields : ret.Yields (ValidOf .ret) := by
  refine (eat_yields _).bind fun void _ => ?_
  split_ifs
  · exact yields_pure ⟨⟨by simp [Operation.operands], trivial, by simp [Operation.allocTy?],
      by simp, by simp⟩, rfl⟩
  · refine typedOperand_yields.bind fun value hvalue => yields_pure ⟨⟨?_, trivial, ?_, ?_, ?_⟩, rfl⟩
    · simpa [Operation.operands] using hvalue
    all_goals simp [Operation.allocTy?]

lemma branch_yields : branch.Yields (ValidOf .br) := by
  refine peek_yields.bind fun t _ => ?_
  split_ifs
  · exact label_yields.bind fun target _ => yields_pure ⟨⟨by simp [Operation.operands], trivial,
      by simp [Operation.allocTy?], by simp, by simp⟩, rfl⟩
  · refine typedOperand_yields.bind fun cond hcond => yields_guard fun hbool => ?_
    refine (mark_yields _).bind fun _ _ => label_yields.bind fun ifTrue _ => ?_
    refine (mark_yields _).bind fun _ _ => label_yields.bind fun ifFalse _ => ?_
    refine yields_pure ⟨⟨?_, trivial, ?_, ?_, ?_⟩, rfl⟩
    · have hcond' : (TypedAtom.mk .i1 cond.atom).Valid := ⟨hbool ▸ hcond.ty, hcond.atom⟩
      simpa [Operation.operands] using hcond'
    all_goals simp [Operation.allocTy?]

lemma alloca_yields : alloca.Yields (ValidOf .alloca) := by
  refine type_yields.bind fun ty hty => yields_pure ⟨⟨?_, trivial, ?_, ?_, ?_⟩, rfl⟩
  · simp [Operation.operands]
  · rintro ty' heq
    exact Option.some.inj heq ▸ hty
  all_goals simp

lemma load_yields : load.Yields (ValidOf .load) := by
  refine type_yields.bind fun ty hty => (mark_yields _).bind fun _ _ => ?_
  refine pointer_yields.bind fun pointer hpointer => yields_pure ⟨⟨?_, hty, ?_, ?_, ?_⟩, rfl⟩
  · simpa [Operation.operands] using TypedAtom.Valid.mk (a := ⟨.ptr, pointer⟩) trivial hpointer
  all_goals simp [Operation.allocTy?]

lemma store_yields : store.Yields (ValidOf .store) := by
  refine typedOperand_yields.bind fun value hvalue => (mark_yields _).bind fun _ _ => ?_
  refine pointer_yields.bind fun pointer hpointer => yields_pure ⟨⟨?_, trivial, ?_, ?_, ?_⟩, rfl⟩
  · simpa [Operation.operands] using And.intro hvalue
      (TypedAtom.Valid.mk (a := ⟨.ptr, pointer⟩) trivial hpointer)
  all_goals simp [Operation.allocTy?]

/-- The operation of an opcode is valid, and of that opcode. -/
lemma operationOf_yields (op : Opcode) : (operationOf op).Yields (ValidOf op) := by
  cases op with
  | binary op => exact binary_yields op
  | icmp => exact icmp_yields
  | select => exact select_yields
  | phi => exact phi_yields
  | call => exact call_yields
  | alloca => exact alloca_yields
  | load => exact load_yields
  | store => exact store_yields
  | ret => exact ret_yields
  | br => exact branch_yields
  | unreachable => exact yields_pure ⟨⟨by simp [Operation.operands], trivial,
      by simp [Operation.allocTy?], by simp, by simp⟩, rfl⟩

lemma readTrailer_lt {align align' : Option Nat} {ts : List Token}
    (halign : ∀ n, align = some n → n < modulus 32) (h : readTrailer align ts = .ok align') :
    ∀ n, align' = some n → n < modulus 32 := by
  fun_induction readTrailer align ts with
  | case1 align => exact Except.ok.inj h ▸ halign
  | case2 align digits ts ih => exact ih halign h
  | case3 align name ts => exact Except.ok.inj h ▸ halign
  | case4 align n ts n' hn ih =>
    refine ih (fun k hk => ?_) h
    unfold alignOf at hn
    split_ifs at hn with hbounds
    rw [← Option.some.inj hk, ← Except.ok.inj hn]
    omega
  | case8 align name ts => exact Except.ok.inj h ▸ halign
  | _ => cases h

lemma trailer_yields : trailer.Yields fun align => ∀ n, align = some n → n < modulus 32 := by
  refine yields_ofExcept fun ts align rest _ h => ?_
  obtain ⟨align', halign, heq⟩ := map_eq_ok_iff.1 h
  obtain ⟨rfl, rfl⟩ := Prod.mk.inj heq
  exact ⟨readTrailer_lt (by simp) halign, by simp⟩

/-- A statement that is read is valid and of the opcode asked for, and only one with a result is
named. -/
theorem phrase_yields (name : Option String) (op : Opcode) : (phrase name op).Yields fun s =>
    s.Valid ∧ s.operation.opcode = op ∧ (name.isSome → s.operation.resultType ≠ .void) := by
  refine (operationOf_yields op).bind fun operation ⟨hvalid, hop⟩ => ?_
  refine trailer_yields.bind fun align halign => ?_
  split_ifs with hvoid
  · exact (yields_fail (Q := fun _ => False) _).bind fun _ h => h.elim
  · refine yields_pure ⟨⟨hvalid, halign⟩, hop, fun hname hty => hvoid ?_⟩
    simp [hname, hty]

end Statement

end Text
end SsaFold
