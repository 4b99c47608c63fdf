import SsaFold.Module.Integrity
import SsaFold.Text.Body
import SsaFold.Text.Header
import SsaFold.Text.Line
import SsaFold.Text.Lexer

/-!
# Reading a module

A text is read in three sweeps over its lines.  The first sorts the lines and adds the
globals, the second adds a function for every header, and the third reads the bodies; so a
line may name any function or global of the text.  At the end the module is checked.

The third sweep takes in one line at a time and keeps its `Position`: between functions, or in a
body with all that the body has met so far.  This is a loop over the functions with a loop over the
lines of one body inside it, unrolled.  The inner loop begins behind a header, where the position
becomes `inside`, and takes each line that follows.  It ends with the closing brace, where the
position becomes `outside` again, and the outer loop goes on behind as many lines as the inner one
has taken.  If the lines run out inside a body, then the inner loop has found no brace
(`readBodies`).
-/

namespace SsaFold.Text

/-- Why a text is refused. -/
inductive ReadError where
  /-- The characters of a line are wrong. -/
  | lex (number : Nat) (line : String) (e : LexError)
  /-- The name of the source file is not given as a string. -/
  | sourceFilename (number : Nat)
  /-- A function or global is defined twice. -/
  | redefined (number : Nat) (name : String)
  /-- A header is wrong. -/
  | header (number : Nat) (e : PhraseError)
  /-- A line of a body, or its end, is wrong. -/
  | body (number : Nat) (e : BodyError)
  /-- A line belongs to no body and is no header. -/
  | topLevel (number : Nat) (found : Token)
  /-- A definition has not been seen by the sweep over the headers. -/
  | outOfSync (number : Nat)
  /-- A body is not closed. -/
  | unclosed (func : String)
  /-- The module has a defect. -/
  | malformed (d : Defect)
deriving DecidableEq

/-- How a line is named in messages. -/
def lineText (number : Nat) : String := "line " ++ toString number

/-- The texts of an error, from the outermost to its cause. -/
def ReadError.causes : ReadError → List String
  | lex number line e => [lineText number, e.message line]
  | sourceFilename number => [lineText number ++ ": malformed source_filename"]
  | redefined number name => [lineText number ++ ": redefinition of @" ++ name]
  | header number e => [lineText number, e.message]
  | body number e => [lineText number, e.message]
  | topLevel number found =>
      [lineText number ++ ": unexpected '" ++ found.text ++ "' at top level"]
  | outOfSync number => [lineText number ++ ": function header out of sync"]
  | unclosed func => ["unexpected end of input: missing '\x7d' after the body of @" ++ func]
  | malformed d => ["malformed module", d.message]

/-! ## Sorting the lines -/

/-- A line with tokens. -/
structure TokenLine where
  /-- The number of the line, from one. -/
  number : Nat
  first : Token
  rest : List Token
deriving DecidableEq

/-- What a line is. -/
inductive LineKind where
  /-- The name of the module. -/
  | moduleName (name : String)
  /-- A description of the target, which is kept as it is written. -/
  | target (text : String)
  /-- A blank line, a comment, an attribute group or metadata. -/
  | skipped
  /-- The definition of a global, which is kept as it is written. -/
  | globalDef (name definition : String)
  /-- The name of the source file, unless it is malformed. -/
  | sourceFilename (name : Option String)
  /-- A header, a label, an instruction or a brace. -/
  | tokens (first : Token) (rest : List Token)
deriving DecidableEq

/-- What follows `start` in `cs`, if `cs` begins so. -/
def dropStart? (start : String) (cs : List Char) : Option (List Char) :=
  if start.toList.isPrefixOf cs then some (cs.drop start.length) else none

/-- The text begins so. -/
def startsWith (start : String) (cs : List Char) : Bool := start.toList.isPrefixOf cs

/-- What the tokens of a line make it. -/
def LineKind.ofTokens : List Token → LineKind
  | [] => .skipped
  | .word "source_filename" :: rest =>
    match rest with
    | [.punct '=', .str name] => .sourceFilename (some name)
    | _ => .sourceFilename none
  | first :: rest => .tokens first rest

/-- What a line is; its beginning decides, and blanks at both ends do not count. -/
def LineKind.of (line : String) : Except LexError LineKind :=
  let trimmed := trimWhere isBlank line.toList
  match dropStart? "; ModuleID =" trimmed with
  | some rest =>
    .ok (.moduleName (String.ofList (trimWhere (· = '\'') (trimWhere isBlank rest))))
  | none =>
    if startsWith "target " trimmed then .ok (.target (String.ofList trimmed))
    else if startsWith "attributes " trimmed || startsWith "!" trimmed then .ok .skipped
    else match trimmed with
      | '@' :: cs => (definedName cs).map fun name => .globalDef name (String.ofList trimmed)
      | _ => (tokenize line).map .ofTokens

/-- What the sweep over the lines has found. -/
structure Outline where
  module : Module := .empty ""
  symbols : Symbols := ∅
  /-- The lines with tokens, the last first. -/
  lines : List TokenLine := []

/-- Take in one line. -/
def Outline.add (o : Outline) (number : Nat) (line : String) : Except ReadError Outline := do
  match ← (LineKind.of line).mapError (.lex number line) with
  | .moduleName name => return { o with module := { o.module with name } }
  | .target text =>
    return { o with module := { o.module with targetLines := o.module.targetLines ++ [text] } }
  | .skipped => return o
  | .globalDef name definition =>
    if o.symbols.contains name then throw (.redefined number name)
    let value : ValueId := ⟨o.module.values.size⟩
    let (module, _) := o.module.addGlobal name definition
    return { o with module, symbols := o.symbols.insert name value }
  | .sourceFilename none => throw (.sourceFilename number)
  | .sourceFilename (some name) =>
    return { o with module := { o.module with sourceFilename := some name } }
  | .tokens first rest => return { o with lines := ⟨number, first, rest⟩ :: o.lines }

/-- Sort the lines of a text and add its globals. -/
def Outline.ofText (text : String) : Except ReadError Outline := do
  let o ← (numberedLines text).foldlM (fun (o : Outline) (number, line) => o.add number line) {}
  return { o with lines := o.lines.reverse }

/-! ## Headers -/

/-- A definition whose body has not been read. -/
structure Definition where
  func : FuncId
  /-- The line of the header. -/
  number : Nat
  params : List (Option String)

/-- What the sweep over the headers has found. -/
structure Headers where
  module : Module
  symbols : Symbols
  /-- The definitions, the last first. -/
  definitions : List Definition := []

/-- The line begins with `define` or `declare`; which of the two. -/
def TokenLine.isDefinition? (line : TokenLine) : Option Bool :=
  match line.first with
  | .word "define" => some true
  | .word "declare" => some false
  | _ => none

/-- Add the function of a header. -/
def addHeader (m : Module) (h : Header) : Except Fault (Module × FuncId) := do
  let (m, f) := m.addFunc h.name h.returnType (h.params.map Param.ty)
  let params := (← m.getFunc f).params
  let m ← (params.zip h.params).foldlM
    (fun m (v, p) => m.setValueName v (p.name.bind keptName)) m
  return (m.modifyFunc f fun func =>
    { func with linkage := h.linkage, attrs := h.attrs, vararg := h.vararg }, f)

/-- Take in one line: only headers count, wherever they stand. -/
def Headers.add (s : Headers) (line : TokenLine) : Except (Failure ReadError) Headers := do
  match line.isDefinition? with
  | none => return s
  | some definition =>
    let h ← (Header.read definition line.rest).mapError (.error <| .header line.number ·)
    if s.symbols.contains h.name then throw (.error (.redefined line.number h.name))
    let (module, func) ← addHeader s.module h
    let symbols := s.symbols.insert h.name (← module.getFunc func).value
    let definitions :=
      if definition then ⟨func, line.number, h.params.map Param.name⟩ :: s.definitions
      else s.definitions
    return { module, symbols, definitions }

/-- Add a function for every header. -/
def Outline.headers (o : Outline) : Except (Failure ReadError) Headers := do
  let s ← o.lines.foldlM Headers.add { module := o.module, symbols := o.symbols }
  return { s with definitions := s.definitions.reverse }

/-! ## Bodies -/

/-- Where the sweep over the bodies stands. -/
inductive Position where
  /-- Between functions. -/
  | outside (m : Module)
  /-- In the body of a function. -/
  | inside (b : Body)

/-- Take in one line.  A definition takes the first of the definitions that have not been
read. -/
def readLine (symbols : Symbols) (s : Position × List Definition) (line : TokenLine) :
    Except (Failure ReadError) (Position × List Definition) := do
  match s with
  | (.outside m, definitions) =>
    match line.isDefinition?, definitions with
    | some true, d :: rest =>
      let b ← (Body.start m symbols d.func d.params).mapError (·.map (.body d.number))
      return (.inside b, rest)
    | some true, [] => throw (.error (.outOfSync line.number))
    | some false, _ => return s
    | none, _ => throw (.error (.topLevel line.number line.first))
  | (.inside b, definitions) =>
    if line.first = .punct '}' ∧ line.rest = [] then
      match b.endError? with
      | some e => throw (.error (.body line.number (.scope e)))
      | none => return (.outside b.module, definitions)
    else
      let ((), b) ← ((Body.line (line.first :: line.rest)).run b).mapError
        (·.map (.body line.number))
      return (.inside b, definitions)

/-- Read the bodies. -/
def readBodies (s : Headers) (lines : List TokenLine) : Except (Failure ReadError) Module := do
  let (position, _) ← lines.foldlM (readLine s.symbols) (.outside s.module, s.definitions)
  match position with
  | .outside m => return m
  | .inside b => throw (.error (.unclosed (← b.module.getFunc b.func).name))

end SsaFold.Text

namespace SsaFold

/-- Read a module from its text. -/
def Module.ofText (text : String) : Except (Failure Text.ReadError) Module := do
  let o ← (Text.Outline.ofText text).mapError .error
  let s ← o.headers
  let m ← Text.readBodies s o.lines
  m.check.mapError (.error <| .malformed ·)
  return m

end SsaFold
