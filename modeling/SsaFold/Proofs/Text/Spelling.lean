import SsaFold.Proofs.Text.Lookup

/-!
# The tokens of statements and headers

A statement has tokens of its own, `Statement.tokens`, in which nothing is left open: the flags
stand in their order, there are no words in front of a return type, and an alignment stands at the
end.  These tokens are read as the statement (`Statement.parses_tokens`), and so are the tokens of a
header (`Header.read_tokens`).
-/

namespace SsaFold

/-! ## Types -/

/-- The word of a type is read as the type. -/
lemma Ty.ofWord?_text {ty : Ty} (h : ty.Readable) : Ty.ofWord? ty.text = some ty := by
  cases ty with
  | void => decide
  | ptr => decide
  | int bits =>
    have htext : (Ty.int bits).text.toList = 'i' :: Nat.toDigits 10 bits := by
      rw [Ty.text, String.toList_append, Nat.toString_eq_repr, Nat.toList_repr]
      rfl
    have hne : ∀ w : String, w.toList.head? ≠ some 'i' → (Ty.int bits).text ≠ w := by
      rintro w hw rfl
      exact hw (by rw [htext]; rfl)
    have hlt : bits < modulus 32 := Nat.lt_of_le_of_lt h.2 (by decide)
    rw [Ty.ofWord?, if_neg (hne _ (by decide)), if_neg (hne _ (by decide)), htext]
    simp [Text.natBelow?, Text.digits?_toDigits, hlt]

lemma Ty.text_ne {ty : Ty} (h : ty.Readable) {w : String} (hw : Ty.ofWord? w = none) :
    ty.text ≠ w := by
  rintro rfl
  simp [Ty.ofWord?_text h] at hw

lemma Ty.text_ne_void {ty : Ty} (h : ty.Readable) (hne : ty ≠ .void) : ty.text ≠ "void" := by
  intro heq
  have := Ty.ofWord?_text h
  rw [heq] at this
  exact hne (Option.some.inj this).symm

namespace Text

/-! ## Parts of lines -/

/-- The token of an atom. -/
def Atom.token : Atom → Token
  | localName s => .localName s
  | globalName s => .globalName s
  | int n => .int n
  | bool t => .word (if t then "true" else "false")
  | null => .word "null"

@[simp] lemma Atom.ofToken?_token (a : Atom) : Atom.ofToken? a.token = some a := by
  cases a with
  | bool t => cases t <;> rfl
  | _ => rfl

/-- The tokens of an operand with its type. -/
def TypedAtom.tokens (a : TypedAtom) : List Token := [.word a.ty.text, a.atom.token]

/-- Parts with commas between them. -/
def commas (tss : List (List Token)) : List Token := List.intercalate [.punct ','] tss

lemma commas_cons (ts : List Token) (tss : List (List Token)) :
    commas (ts :: tss) = ts ++ tss.flatMap (.punct ',' :: ·) := by
  induction tss generalizing ts with
  | nil => simp [commas]
  | cons ts' tss ih =>
    have := ih ts'
    simp only [commas] at this ⊢
    rw [List.intercalate_cons_cons, this]
    simp

/-- An incoming value of a `phi`. -/
def incomingTokens (entry : Atom × String) : List Token :=
  [.punct '[', entry.1.token, .punct ',', .localName entry.2, .punct ']']

namespace Operation

/-- What stands behind the opcode.  In front of a callee its type may be spelled out. -/
def tokens (calleeType : List Token) : Operation → List Token
  | binary _ flags bits lhs rhs =>
      flags.names.map .word ++ [.word (Ty.int bits).text, lhs.token, .punct ',', rhs.token]
  | icmp p ty lhs rhs => [.word p.name, .word ty.text, lhs.token, .punct ',', rhs.token]
  | select cond ty ifTrue ifFalse =>
      commas [TypedAtom.tokens ⟨.i1, cond⟩, TypedAtom.tokens ⟨ty, ifTrue⟩,
        TypedAtom.tokens ⟨ty, ifFalse⟩]
  | phi ty incoming => .word ty.text :: commas (incoming.map incomingTokens)
  | call ty callee args =>
      .word ty.text :: calleeType ++ [callee.token, .punct '('] ++
        commas (args.map TypedAtom.tokens) ++ [.punct ')']
  | alloca ty => [.word ty.text]
  | load ty pointer => .word ty.text :: .punct ',' :: TypedAtom.tokens ⟨.ptr, pointer⟩
  | store value pointer => commas [value.tokens, TypedAtom.tokens ⟨.ptr, pointer⟩]
  | ret (some value) => value.tokens
  | ret none => [.word "void"]
  | br target => [.word "label", .localName target]
  | condBr cond ifTrue ifFalse =>
      commas [TypedAtom.tokens ⟨.i1, cond⟩, [.word "label", .localName ifTrue],
        [.word "label", .localName ifFalse]]
  | unreachable => []

end Operation

/-- An alignment behind an instruction. -/
def alignTokens : Option Nat → List Token
  | none => []
  | some n => [.punct ',', .word "align", .int n]

/-- The name of a result in front of an instruction. -/
def resultTokens : Option String → List Token
  | none => []
  | some name => [.localName name, .punct '=']

/-- The tokens of an instruction line. -/
def Statement.tokens (name : Option String) (calleeType : List Token) (s : Statement) :
    List Token :=
  resultTokens name ++ .word s.operation.opcode.mnemonic :: s.operation.tokens calleeType
    ++ alignTokens s.align

/-- The type of a callee in parentheses, or nothing. -/
def IsGroup (ts : List Token) : Prop :=
  ts = [] ∨ ∃ inner, ts = .punct '(' :: inner ++ [.punct ')'] ∧ .punct ')' ∉ inner

/-! ## Phrases -/

namespace Phrase

variable {α β : Type} {a : α} {b : β} {ts mid rest : List Token}

/-- The phrase takes `a` from the front of the tokens and leaves the rest. -/
def Takes (p : Phrase α) (ts : List Token) (a : α) (rest : List Token) : Prop :=
  (p.run ts).result = .ok (a, rest)

lemma takes_pure : (pure a : Phrase α).Takes ts a ts := rfl

lemma Takes.bind {p : Phrase α} {f : α → Phrase β} (hp : p.Takes ts a mid)
    (hf : (f a).Takes mid b rest) : (p >>= f).Takes ts b rest := by
  have hp' : (p.run ts).result = .ok (a, mid) := hp
  rw [Takes, run_bind, Reading.bind, hp']
  exact hf

lemma takes_next (t : Token) : next.Takes (t :: ts) t ts := rfl

lemma takes_peek : peek.Takes ts ts.head? ts := rfl

lemma takes_mark (c : Char) : (mark c).Takes (.punct c :: ts) () ts := by
  refine (takes_next _).bind ?_
  rw [if_pos rfl]
  exact takes_pure

lemma takes_keyword (w : String) : (keyword w).Takes (.word w :: ts) () ts := by
  refine (takes_next _).bind ?_
  rw [if_pos rfl]
  exact takes_pure

lemma takes_word (w : String) : word.Takes (.word w :: ts) w ts := rfl

lemma takes_localName (s : String) : localName.Takes (.localName s :: ts) s ts := rfl

lemma typeOf_text {ty : Ty} (h : ty.Readable) : typeOf (.word ty.text) = .ok ty := by
  rw [typeOf, Ty.ofWord?_text h]
  cases ty with
  | int bits => exact if_pos h
  | _ => rfl

lemma takes_type {ty : Ty} (h : ty.Readable) : type.Takes (.word ty.text :: ts) ty ts := by
  refine (takes_next _).bind ?_
  rw [typeOf_text h]
  exact takes_pure

lemma takes_operand (ty : Ty) (atom : Atom) : (operand ty).Takes (atom.token :: ts) atom ts := by
  simp only [Takes, operand, Atom.ofToken?_token]
  rfl

lemma takes_typedOperand {x : TypedAtom} (h : x.ty.Readable) :
    typedOperand.Takes (x.tokens ++ ts) x ts :=
  (takes_type h).bind ((takes_operand x.ty x.atom).bind takes_pure)

lemma takes_label (s : String) : Statement.label.Takes (.word "label" :: .localName s :: ts) s ts :=
  (takes_keyword _).bind (takes_localName s)

lemma takes_pointer (atom : Atom) :
    Statement.pointer.Takes (TypedAtom.tokens ⟨.ptr, atom⟩ ++ ts) atom ts :=
  (takes_keyword _).bind (takes_operand .ptr atom)

/-- Words that are no types stand in front of a type. -/
lemma wordsBeforeType_append {ws : List String} (hws : ∀ w ∈ ws, Ty.ofWord? w = none) {ty : Ty}
    (hty : ty.Readable) :
    wordsBeforeType (ws.map .word ++ .word ty.text :: ts) = .ok (ws, .word ty.text :: ts) := by
  induction ws with
  | nil =>
    have htype : isType (.word ty.text) = true := by rw [isType_eq, Ty.ofWord?_text hty]; rfl
    simp [wordsBeforeType, htype]
  | cons w ws ih =>
    obtain ⟨hw, hws⟩ := List.forall_mem_cons.1 hws
    have htype : isType (.word w) = false := by rw [isType_eq, hw]; rfl
    simp [wordsBeforeType, htype, ih hws, Except.map]

lemma takes_modifiers {ws : List String} (hws : ∀ w ∈ ws, Ty.ofWord? w = none) {ty : Ty}
    (hty : ty.Readable) :
    modifiers.Takes (ws.map .word ++ .word ty.text :: ts) ws (.word ty.text :: ts) :=
  wordsBeforeType_append hws hty

end Phrase

/-! ## Operations -/

namespace Statement

open Phrase

variable {ts rest : List Token}

lemma takeFlags_of_ne {flags : ArithFlags} {w : String} (h₁ : w ≠ "nuw") (h₂ : w ≠ "nsw")
    (h₃ : w ≠ "exact") : takeFlags flags (.word w :: ts) = (flags, .word w :: ts) := by
  unfold takeFlags
  split <;> simp_all

lemma takes_arithFlags (flags : ArithFlags) {ty : Ty} (hty : ty.Readable) :
    arithFlags.Takes (flags.names.map .word ++ .word ty.text :: ts) flags
      (.word ty.text :: ts) := by
  have hstop : ∀ flags, takeFlags flags (.word ty.text :: ts) = (flags, .word ty.text :: ts) :=
    fun flags => takeFlags_of_ne (Ty.text_ne hty (by decide)) (Ty.text_ne hty (by decide))
      (Ty.text_ne hty (by decide))
  rcases flags with ⟨_ | _, _ | _, _ | _⟩ <;>
    simp [Takes, arithFlags, ArithFlags.names, takeFlags, hstop, Reading.done]

/-- What follows an operation is not taken for another incoming value. -/
def NoIncoming (ts : List Token) : Prop := ∀ ts', ts ≠ .punct ',' :: .punct '[' :: ts'

lemma result_readIncoming {ty : Ty} (hrest : NoIncoming rest) (entry : Atom × String)
    (more : List (Atom × String)) :
    (readIncoming ty .opening (incomingTokens entry ++
      (more.map incomingTokens).flatMap (.punct ',' :: ·) ++ rest)).result
        = .ok (entry :: more, rest) := by
  induction more generalizing entry with
  | nil =>
    have hend : ∀ ts, rest = .punct ',' :: .punct '[' :: ts → False := fun ts h => hrest ts h
    obtain ⟨atom, label⟩ := entry
    simp only [incomingTokens, List.map_nil, List.flatMap_nil, List.append_nil, List.cons_append,
      List.nil_append, readIncoming, if_true, Atom.ofToken?_token, Reading.after]
    unfold readIncoming
    split <;> simp_all [Reading.done]
  | cons next more ih =>
    obtain ⟨atom, label⟩ := entry
    have := ih next
    simp only [incomingTokens, List.map_cons, List.flatMap_cons, List.cons_append, List.nil_append,
      readIncoming, if_true, Atom.ofToken?_token, Reading.after, Reading.map] at this ⊢
    rw [this]
    rfl

lemma dropGroup_append {inner : List Token} (h : .punct ')' ∉ inner) :
    dropGroup (inner ++ .punct ')' :: rest) = .ok rest := by
  induction inner with
  | nil => simp [dropGroup]
  | cons t inner ih =>
    obtain ⟨ht, hinner⟩ := not_or.1 (fun h' => h (List.mem_cons.2 h'))
    rw [List.cons_append, dropGroup, if_neg (Ne.symm ht)]
    exact ih hinner

lemma takes_functionType {group : List Token} (hgroup : IsGroup group) {callee : Atom}
    (hcallee : callee.IsName) :
    functionType.Takes (group ++ callee.token :: rest) () (callee.token :: rest) := by
  rcases hgroup with rfl | ⟨inner, rfl, hinner⟩
  · cases callee with
    | localName s => rfl
    | globalName s => rfl
    | _ => exact hcallee.elim
  · have hdrop : dropGroup (inner ++ .punct ')' :: callee.token :: rest)
        = .ok (callee.token :: rest) :=
      dropGroup_append hinner
    simp [Takes, functionType, hdrop, Reading.ofExcept, Except.map]

lemma takes_callee {atom : Atom} (h : atom.IsName) :
    callee.Takes (atom.token :: rest) atom rest := by
  cases atom with
  | localName s => rfl
  | globalName s => rfl
  | _ => exact h.elim

lemma comma_ne_paren : Token.punct ',' ≠ .punct ')' := by decide

lemma readArgs_value (x : TypedAtom) :
    readArgs (.value x.ty) (x.atom.token :: rest) =
      .after x ((readArgs .finish rest).map fun (args, rest) => (x :: args, rest)) := by
  obtain ⟨ty, atom⟩ := x
  cases atom with
  | bool t => cases t <;> simp [Atom.token, readArgs, Atom.ofToken?]
  | _ => simp [Atom.token, readArgs, Atom.ofToken?]

lemma result_readArgs (x : TypedAtom) (hx : x.ty.Readable) (more : List TypedAtom)
    (hmore : ∀ y ∈ more, y.ty.Readable) :
    (readArgs .type (x.tokens ++ (more.map TypedAtom.tokens).flatMap (.punct ',' :: ·)
      ++ .punct ')' :: rest)).result = .ok (x :: more, rest) := by
  induction more generalizing x with
  | nil =>
    simp only [TypedAtom.tokens, List.map_nil, List.flatMap_nil, List.append_nil, List.cons_append,
      List.nil_append, readArgs, typeOf_text hx, readArgs_value]
    rfl
  | cons y more ih =>
    obtain ⟨hy, hmore⟩ := List.forall_mem_cons.1 hmore
    have := ih y hy hmore
    simp only [TypedAtom.tokens, List.map_cons, List.flatMap_cons, List.cons_append,
      List.nil_append, readArgs, typeOf_text hx, readArgs_value, if_neg comma_ne_paren, if_true]
      at this ⊢
    simp only [Reading.after, Reading.map, this]
    rfl

lemma takes_args {xs : List TypedAtom} (hxs : ∀ x ∈ xs, x.ty.Readable) :
    args.Takes (commas (xs.map TypedAtom.tokens) ++ .punct ')' :: rest) xs rest := by
  cases xs with
  | nil => rfl
  | cons x more =>
    obtain ⟨hx, hmore⟩ := List.forall_mem_cons.1 hxs
    rw [List.map_cons, commas_cons]
    exact result_readArgs x hx more hmore

lemma i1_ne_label : some (Token.word Ty.i1.text) ≠ some (.word "label") := by decide

/-- The tokens of an operation are read as the operation. -/
lemma takes_operation {op : Operation} (hop : op.Valid) (hty : ∀ x ∈ op.operands, x.ty ≠ .void)
    {group : List Token} (hgroup : IsGroup group) (hrest : NoIncoming rest) :
    (operationOf op.opcode).Takes (op.tokens group ++ rest) op rest := by
  have hreadable : ∀ x ∈ op.operands, x.ty.Readable := fun x hx => (hop.operands x hx).ty
  have hi1 : Ty.i1.Readable := ⟨Nat.one_pos, by decide⟩
  cases op with
  | binary op flags bits lhs rhs =>
    have hbits : (Ty.int bits).Readable := hop.resultType
    simp only [Operation.tokens, List.append_assoc]
    refine (takes_arithFlags flags hbits).bind ?_
    refine (takes_typedOperand (x := ⟨.int bits, lhs⟩) hbits).bind ?_
    exact (takes_mark ',').bind ((takes_operand _ rhs).bind takes_pure)
  | icmp p ty lhs rhs =>
    refine (takes_word p.name).bind ?_
    rw [Predicate.ofName?_name]
    refine (takes_typedOperand (x := ⟨ty, lhs⟩) (hreadable _ List.mem_cons_self)).bind ?_
    exact (takes_mark ',').bind ((takes_operand _ rhs).bind takes_pure)
  | select cond ty ifTrue ifFalse =>
    have hty' : ty.Readable := hop.resultType
    rw [Operation.tokens, commas_cons]
    simp only [List.flatMap_cons, List.flatMap_nil, List.append_nil, List.append_assoc,
      List.cons_append]
    refine (takes_typedOperand (x := ⟨.i1, cond⟩) hi1).bind ?_
    dsimp only
    rw [if_pos rfl]
    refine (takes_mark ',').bind ((takes_typedOperand (x := ⟨ty, ifTrue⟩) hty').bind ?_)
    refine (takes_mark ',').bind ((takes_typedOperand (x := ⟨ty, ifFalse⟩) hty').bind ?_)
    dsimp only
    rw [if_pos rfl]
    exact takes_pure
  | phi ty incoming =>
    refine (takes_type hop.resultType).bind ?_
    cases incoming with
    | nil => exact absurd rfl (hop.incoming ty [] rfl)
    | cons entry more =>
      rw [List.map_cons, commas_cons]
      exact Takes.bind (p := ⟨readIncoming ty .opening⟩)
        (result_readIncoming hrest entry more) takes_pure
  | call ty callee args =>
    have hargs : ∀ x ∈ args, x.ty.Readable := fun x hx =>
      hreadable x (List.mem_append_left _ hx)
    have hname := hop.callee ty callee args rfl
    simp only [Operation.tokens, List.append_assoc, List.cons_append, List.nil_append]
    refine (takes_modifiers (show ∀ w ∈ ([] : List String), Ty.ofWord? w = none by simp)
      hop.resultType).bind ?_
    refine (takes_type hop.resultType).bind ((takes_functionType hgroup hname).bind ?_)
    refine (takes_callee hname).bind ((takes_mark '(').bind ?_)
    exact (takes_args hargs).bind takes_pure
  | alloca ty => exact (takes_type (hop.allocTy ty rfl)).bind takes_pure
  | load ty pointer =>
    exact (takes_type hop.resultType).bind ((takes_mark ',').bind
      ((takes_pointer pointer).bind takes_pure))
  | store value pointer =>
    rw [Operation.tokens, commas_cons]
    simp only [List.flatMap_cons, List.flatMap_nil, List.append_nil, List.append_assoc,
      List.cons_append]
    exact (takes_typedOperand (hreadable _ List.mem_cons_self)).bind ((takes_mark ',').bind
      ((takes_pointer pointer).bind takes_pure))
  | ret value =>
    cases value with
    | none => rfl
    | some value =>
      have hvoid := Ty.text_ne_void (hreadable value List.mem_cons_self)
        (hty value List.mem_cons_self)
      have heat : (eat (.word "void")).Takes (value.tokens ++ rest) false
          (value.tokens ++ rest) := by
        have hne : Token.word value.ty.text ≠ .word "void" := fun h => hvoid (Token.word.inj h)
        simp [Takes, eat, TypedAtom.tokens, hne, Reading.done]
      exact heat.bind ((takes_typedOperand (hreadable value List.mem_cons_self)).bind takes_pure)
  | br target =>
    refine takes_peek.bind ?_
    rw [Operation.tokens, List.cons_append, List.head?_cons, if_pos rfl]
    exact (takes_label target).bind takes_pure
  | condBr cond ifTrue ifFalse =>
    rw [Operation.tokens, commas_cons]
    simp only [List.flatMap_cons, List.flatMap_nil, List.append_nil, List.append_assoc,
      List.cons_append, List.nil_append]
    refine takes_peek.bind ?_
    rw [TypedAtom.tokens, List.cons_append, List.head?_cons, if_neg i1_ne_label]
    refine (takes_typedOperand (x := ⟨.i1, cond⟩) hi1).bind ?_
    dsimp only
    rw [if_pos rfl]
    refine (takes_mark ',').bind ((takes_label ifTrue).bind ?_)
    exact (takes_mark ',').bind ((takes_label ifFalse).bind takes_pure)
  | unreachable => exact takes_pure

lemma readTrailer_alignTokens {align : Option Nat} (h : ∀ n, align = some n → n < modulus 32) :
    readTrailer none (alignTokens align) = .ok align := by
  cases align with
  | none => rfl
  | some n =>
    have hn : alignOf n = .ok n := by
      rw [alignOf, if_pos ⟨Int.natCast_nonneg n, Int.ofNat_lt.2 (h n rfl)⟩, Int.toNat_natCast]
    rw [alignTokens, readTrailer, hn]
    rfl

lemma takes_trailer {align : Option Nat} (h : ∀ n, align = some n → n < modulus 32) :
    trailer.Takes (alignTokens align) align [] :=
  congrArg (Except.map (·, [])) (readTrailer_alignTokens h)

lemma noIncoming_alignTokens (align : Option Nat) : NoIncoming (alignTokens align) := by
  cases align <;> simp [NoIncoming, alignTokens]

lemma mnemonic_not_marker (op : Opcode) : op.mnemonic ∉ tailMarkers := by
  rcases op with ⟨⟨⟩⟩ | _ <;> decide

/-- The tokens of a statement are read as the statement. -/
theorem parses_tokens {s : Statement} (hs : s.Valid) {name : Option String}
    (hname : name.isSome → s.operation.resultType ≠ .void)
    (hty : ∀ x ∈ s.operation.operands, x.ty ≠ .void) {group : List Token} (hgroup : IsGroup group) :
    Body.Parses (s.tokens name group) name s.operation.opcode s := by
  refine ⟨s.operation.tokens group ++ alignTokens s.align, [], ?_, ?_⟩
  · have hresult : resultName.Takes (s.tokens name group) name
        (.word s.operation.opcode.mnemonic :: s.operation.tokens group ++ alignTokens s.align) := by
      cases name <;> rfl
    refine hresult.bind ((takes_word _).bind ?_)
    dsimp only
    rw [if_neg (mnemonic_not_marker _)]
    refine takes_pure.bind ?_
    rw [Opcode.ofMnemonic?_mnemonic]
    exact takes_pure
  · refine (takes_operation hs.operation hty hgroup (noIncoming_alignTokens _)).bind ?_
    refine (takes_trailer hs.align).bind ?_
    have hcond : (name.isSome && s.operation.resultType.isVoid) = false := by
      cases name with
      | none => rfl
      | some name => exact eq_false_of_ne_true fun hvoid => hname rfl (Ty.isVoid_iff.1 hvoid)
    dsimp only
    rw [hcond]
    exact takes_pure

end Statement

/-! ## Headers -/

/-- The token of an attribute. -/
def attrToken (a : String) : Token :=
  match a.toList with
  | '#' :: digits => .attrRef (String.ofList digits)
  | _ => .word a

/-- The tokens of a parameter. -/
def Param.tokens (p : Param) : List Token := .word p.ty.text :: p.name.toList.map .localName

namespace Header

open Phrase

variable {rest : List Token}

/-- The tokens between the parentheses of a header. -/
def paramTokens (params : List Param) (vararg : Bool) : List Token :=
  commas (params.map Param.tokens ++ if vararg then [[.ellipsis]] else [])

/-- The tokens of a header. -/
def tokens (definition : Bool) (h : Header) : List Token :=
  h.linkage.map .word ++ [.word h.returnType.text, .globalName h.name, .punct '(']
    ++ paramTokens h.params h.vararg ++ .punct ')' :: h.attrs.map attrToken
    ++ if definition then [.punct '\x7b'] else []

/-- What stands behind the first parameter of a header. -/
def moreTokens (params : List Param) (vararg : Bool) : List Token :=
  (params.map Param.tokens ++ if vararg then [[Token.ellipsis]] else []).flatMap (.punct ',' :: ·)

/-- A parameter is read, and the list ends or goes on behind a comma. -/
lemma readParams_cons {func : String} {p : Param} (hp : p.Valid) {t : Token} {ts : List Token}
    (ht : t = .punct ')' ∨ t = .punct ',') :
    readParams func .start (p.tokens ++ t :: ts) =
      (readParams func .finish (t :: ts)).map fun ((ps, vararg), rest) =>
        ((p :: ps, vararg), rest) := by
  obtain ⟨ty, name⟩ := p
  have hty := typeOf_text hp.ty
  have hvoid : ty ≠ .void := hp.not_void
  cases name with
  | none =>
    rcases ht with rfl | rfl <;>
      simp [Param.tokens, readParams, hty, hvoid, Except.map]
  | some name => simp [Param.tokens, readParams, hty, hvoid]

lemma readParams_append {func : String} {p : Param} (hp : p.Valid) {more : List Param}
    (hmore : ∀ q ∈ more, q.Valid) (vararg : Bool) :
    readParams func .start (p.tokens ++ (moreTokens more vararg ++ .punct ')' :: rest))
      = .ok ((p :: more, vararg), rest) := by
  induction more generalizing p with
  | nil =>
    cases vararg with
    | false =>
      rw [moreTokens]
      simp [readParams_cons hp, readParams, Except.map]
    | true =>
      rw [moreTokens]
      simp [readParams_cons hp, readParams, Except.map]
  | cons q more ih =>
    obtain ⟨hq, hmore⟩ := List.forall_mem_cons.1 hmore
    have hrest := ih hq hmore
    have htokens : moreTokens (q :: more) vararg
        = .punct ',' :: (q.tokens ++ moreTokens more vararg) := rfl
    rw [htokens, List.cons_append, readParams_cons hp (.inr rfl), readParams,
      List.append_assoc, hrest]
    rfl

lemma takes_paramList (func : String) {params : List Param} (h : ∀ p ∈ params, p.Valid)
    (vararg : Bool) :
    (paramList func).Takes (paramTokens params vararg ++ .punct ')' :: rest)
      (params, vararg) rest := by
  cases params with
  | nil => cases vararg <;> rfl
  | cons p more =>
    obtain ⟨hp, hmore⟩ := List.forall_mem_cons.1 h
    have htokens : paramTokens (p :: more) vararg = p.tokens ++ moreTokens more vararg := by
      rw [paramTokens, List.map_cons, List.cons_append, commas_cons]
      rfl
    rw [htokens, List.append_assoc]
    exact readParams_append hp hmore vararg

lemma takeAttrs_map {attrs : List String} (h : ∀ a ∈ attrs, IsAttr a)
    (hrest : takeAttrs rest = ([], rest)) :
    takeAttrs (attrs.map attrToken ++ rest) = (attrs, rest) := by
  induction attrs with
  | nil => exact hrest
  | cons a attrs ih =>
    obtain ⟨ha, hattrs⟩ := List.forall_mem_cons.1 h
    rw [List.map_cons, List.cons_append]
    rcases ha with ⟨c, cs, hcs, hstart, -⟩ | ⟨digits, -, rfl⟩
    · have htoken : attrToken a = .word a := by
        rw [attrToken, hcs]
        split
        · rename_i heq
          obtain rfl := (List.cons.inj heq).1
          exact absurd hstart (by decide)
        · rfl
      rw [htoken, takeAttrs, ih hattrs]
    · have htoken : attrToken ("#" ++ digits) = .attrRef digits := by
        rw [attrToken, String.toList_append]
        exact congrArg Token.attrRef (String.ofList_toList)
      rw [htoken, takeAttrs, ih hattrs]

/-- The tokens of a header are read as the header. -/
theorem read_tokens {h : Header} (hh : h.Valid) (definition : Bool) :
    read definition (h.tokens definition) = .ok h := by
  have hphrase : (phrase definition).Takes (h.tokens definition) h [] := by
    simp only [tokens, List.append_assoc, List.cons_append, List.nil_append]
    refine (takes_modifiers (fun w hw => (hh.linkage w hw).2) hh.returnType).bind ?_
    refine (takes_type hh.returnType).bind ((takes_next _).bind (takes_pure.bind ?_))
    refine (takes_mark '(').bind ((takes_paramList h.name hh.params h.vararg).bind ?_)
    cases definition with
    | true =>
      have hattrs : attrList.Takes (h.attrs.map attrToken ++ [.punct '\x7b']) h.attrs
          [.punct '\x7b'] :=
        congrArg Except.ok (takeAttrs_map hh.attrs rfl)
      exact hattrs.bind ((takes_mark _).bind (takes_peek.bind takes_pure))
    | false =>
      have hattrs : attrList.Takes (h.attrs.map attrToken ++ []) h.attrs [] :=
        congrArg Except.ok (takeAttrs_map hh.attrs rfl)
      exact hattrs.bind (takes_peek.bind takes_pure)
  exact congrArg (Except.map Prod.fst) hphrase

end Header

end Text
end SsaFold
