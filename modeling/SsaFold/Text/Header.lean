import SsaFold.Text.Phrase

/-!
# Function headers

The line that begins a definition or makes a declaration, its first word aside:
linkage, return type, name, parameters, and attributes.
-/

namespace SsaFold.Text

/-- A parameter as it is written. -/
structure Param where
  ty : Ty
  name : Option String
deriving DecidableEq, Repr

/-- A function header. -/
structure Header where
  name : String
  returnType : Ty
  linkage : List String
  params : List Param
  vararg : Bool
  attrs : List String
deriving DecidableEq, Repr

namespace Header

/-- Where the reading of a parameter list stands. -/
inductive Place where
  /-- A parameter begins, or the dots that end the list. -/
  | start
  /-- The type has been read; attributes and a name may follow. -/
  | name (ty : Ty)
  /-- The parameter is complete. -/
  | finish

/-- The parameters up to the closing parenthesis, and whether more arguments may follow.
Attributes of a parameter are passed over, and so is the number after `align`. -/
def readParams (func : String) :
    Place → List Token → Except PhraseError ((List Param × Bool) × List Token)
  | _, [] => .error .endOfLine
  | .start, .ellipsis :: ts =>
    match ts with
    | [] => .error .endOfLine
    | t :: rest =>
      if t = .punct ')' then .ok (([], true), rest) else .error (.expected (.mark ')') t)
  | .start, t :: ts =>
    match Phrase.typeOf t with
    | .error e => .error e
    | .ok ty => if ty = .void then .error (.voidParameter func) else readParams func (.name ty) ts
  | .name ty, .localName name :: ts =>
    (readParams func .finish ts).map fun ((ps, vararg), rest) =>
      ((⟨ty, some name⟩ :: ps, vararg), rest)
  | .name ty, t :: ts =>
    match t, Atom.ofToken? t, ts with
    | .word "align", _, .int _ :: rest => readParams func (.name ty) rest
    | .word _, none, ts => readParams func (.name ty) ts
    | .punct ')', _, ts => .ok (([⟨ty, none⟩], false), ts)
    | .punct ',', _, ts =>
      (readParams func .start ts).map fun ((ps, vararg), rest) => ((⟨ty, none⟩ :: ps, vararg), rest)
    | t, _, _ => .error (.expected (.mark ',') t)
  | .finish, .punct ')' :: ts => .ok (([], false), ts)
  | .finish, .punct ',' :: ts => readParams func .start ts
  | .finish, t :: _ => .error (.expected (.mark ',') t)

/-- The parameter list, the opening parenthesis having been read. -/
def paramList (func : String) : Phrase (List Param × Bool) where
  run
    | .punct ')' :: ts => .done (([], false), ts)
    | ts => .ofExcept (readParams func .start ts)

/-- The words and attribute references in front of `ts`. -/
def takeAttrs : List Token → List String × List Token
  | .word w :: ts =>
    let (attrs, rest) := takeAttrs ts
    (w :: attrs, rest)
  | .attrRef digits :: ts =>
    let (attrs, rest) := takeAttrs ts
    (("#" ++ digits) :: attrs, rest)
  | ts => ([], ts)

/-- The words and attribute references after the parameters. -/
def attrList : Phrase (List String) := ⟨fun ts => .done (takeAttrs ts)⟩

/-- A function header; that of a definition ends with an opening brace. -/
def phrase (definition : Bool) : Phrase Header := do
  let linkage ← Phrase.modifiers
  let returnType ← Phrase.type
  let name ← match ← Phrase.next with
    | .globalName name => pure name
    | t => Phrase.fail (.expected .functionName t)
  Phrase.mark '('
  let (params, vararg) ← paramList name
  let attrs ← attrList
  if definition then Phrase.mark '{'
  match ← Phrase.peek with
  | some t => Phrase.fail (.afterHeader t)
  | none => return { name, returnType, linkage, params, vararg, attrs }

/-- The header that a line holds after its first word. -/
def read (definition : Bool) (ts : List Token) : Except PhraseError Header :=
  ((phrase definition).run ts).result.map Prod.fst

end Header
end SsaFold.Text
