import Idl.Token.Scan
import Idl.Tree.Literal

/-!
# The grammar

The grammar looks at significant tokens one at a time, with one token of lookahead. The first error
ends the reading; a lexical error counts when the grammar gets to it.

* §1 the reading position and single tokens,
* §2 names, constants and annotations,
* §3 messages, §4 services,
* §5 files and the entry points.
-/

namespace Idl

/-! ## §1 Reading tokens -/

/-- A position in the significant tokens: those still to come, what follows them, and the offset
just past the last token that was consumed. -/
structure Cursor where
  rest : List Token
  ending : Except SyntaxError Token
  stop : Nat

/-- A piece of grammar. -/
abbrev Grammar := StateT Cursor (Except SyntaxError)

namespace Grammar

/-- Gives up with an error. -/
def fail {α : Type} (e : SyntaxError) : Grammar α := throw e

/-- The next token, which stays. -/
def peek : Grammar Token := fun c =>
  match c.rest with
  | t :: _ => .ok (t, c)
  | [] => match c.ending with
    | .ok t => .ok (t, c)
    | .error e => .error e

/-- Consumes the next token. -/
def advance : Grammar Unit := fun c =>
  match c.rest with
  | t :: r => .ok ((), { c with rest := r, stop := t.stop })
  | [] => .ok ((), c)

/-- Gives up because of the next token. -/
def failHere {α : Type} (cause : Token → SyntaxCause) : Grammar α := do
  let t ← peek
  fail (.atToken (cause t) t)

/-- Gives up because something else was expected here. -/
def failExpected {α : Type} (want : Expectation) : Grammar α :=
  failHere fun t => .expected want t.kind t.text

/-- Gives up because the next token begins a construct that is left out on purpose. -/
def failUnsupported {α : Type} (feature : Feature) : Grammar α :=
  failHere fun t => .unsupported feature t.text

/-- Repeats a step on a state until the step ends the loop or consumes nothing. -/
def loop {σ : Type} (step : σ → Grammar (σ × Bool)) (s : σ) : Grammar σ := fun c =>
  match step s c with
  | .error e => .error e
  | .ok ((s', more), c') =>
    if more && c'.rest.length < c.rest.length then loop step s' c' else .ok (s', c')
termination_by c => c.rest.length
decreasing_by simp_all

/-- Runs a piece of grammar and adds the place from its first to its last token. -/
def located {α β : Type} (build : Loc → α → β) (p : Grammar α) : Grammar β := do
  let t ← peek
  let a ← p
  let c ← get
  return build ⟨.between t.start c.stop, t.pos⟩ a

/-- Consumes the next token if it is of the given kind. -/
def accept (kind : TokenKind) : Grammar Bool := do
  if (← peek).kind == kind then
    advance
    return true
  else return false

/-- Consumes a sigil that has to be there. -/
def sigil (s : Sigil) : Grammar Unit := do
  unless ← accept s.kind do
    failHere fun t => .missingSigil s t.kind t.text

/-- Whether the next token is a given word. -/
def atWord (word : Bytes) : Grammar Bool := return (← peek).isWord word

/-- Consumes the next token if it is a given word. -/
def acceptWord (word : Bytes) : Grammar Bool := do
  if ← atWord word then
    advance
    return true
  else return false

/-! ## §2 Names, constants and annotations -/

/-- A name of one component. -/
def ident : Grammar Tree.Ident := do
  let t ← peek
  if t.kind == .ident then
    advance
    return ⟨t.loc, t.text⟩
  else failExpected .ident

/-- An integer literal. -/
def intLit : Grammar Tree.IntLit := do
  let t ← peek
  if t.kind.isInteger then
    let n := intLitValue t.kind t.text
    if fitsLiteral n then
      advance
      return ⟨t.loc, t.text, n⟩
    else failHere fun t => .intOutOfRange t.text
  else failExpected .intLit

/-- A text literal. -/
def textLit : Grammar Tree.TextLit := do
  let t ← peek
  if t.kind == .textLit then
    match textLitValue t.text with
    | .ok value =>
      advance
      return ⟨t.loc, t.text, value⟩
    | .error (offset, bad) =>
      fail ⟨.badEscape bad, ⟨t.start + offset, bad.length⟩, t.pos.advance (t.text.take offset)⟩
  else failExpected .textLit

/-- Consumes what may stand between the components of a name. -/
def separator : Grammar Bool := do
  if ← accept .dot then return true else accept .doubleColon

/-- A dotted name. -/
def path : Grammar Tree.Path :=
  located (fun loc (first, more) => ⟨loc, first, more⟩) do
    let first ← ident
    let more ← loop (fun parts => do
      if ← separator then
        let part ← ident
        return (part :: parts, true)
      else return (parts, false)) []
    return (first, more.reverse)

/-- The constant that the next tokens form, if they begin one. -/
def constant? : Grammar (Option Tree.Constant) := do
  let t ← peek
  match t.kind with
  | .intLit | .octIntLit | .hexIntLit => return some (.int (← intLit))
  | .floatLit =>
    match Binary64.ofNumeral? t.text with
    | some x =>
      advance
      return some (.float x)
    | none => failHere fun t => .badNumber t.text
  | .textLit => return some (.text (← textLit))
  | .ident =>
    if t.text == "true" || t.text == "false" then
      advance
      return some (.bool (t.text == "true"))
    else if t.text == "inf" then
      advance
      return some (.float (.infinity false))
    else if t.text == "nan" then
      advance
      return some (.float .nan)
    else return some (.path (← path))
  | _ => return none

/-- A constant, if the next tokens begin one. -/
def value? : Grammar (Option Tree.Value) :=
  located (fun loc c? => c?.map fun c => ⟨loc, c⟩) constant?

/-- A constant that has to be there. -/
def value : Grammar Tree.Value := do
  match ← value? with
  | some v => return v
  | none => failExpected .value

/-- Words that are constants and so cannot be the name of an argument. -/
def constantWords : List Bytes := ["true", "false", "inf", "nan"]

/-- An argument of an annotation, if the next tokens begin one. -/
def arg? : Grammar (Option Tree.Arg) :=
  located (fun loc f? => f?.map fun f => ⟨loc, f⟩) do
    let t ← peek
    if t.kind == .ident && !constantWords.contains t.text then
      let key ← ident
      if ← accept .eq then
        return some (.pair key (← value))
      else return some (.flag key)
    else return (← value?).map .positional

/-- The arguments after an opening parenthesis, up to and with the closing one. -/
def args : Grammar (List Tree.Arg) := do
  let acc ← loop (fun acc => do
    if ← accept .closeParen then return (acc, false)
    else
      match ← arg? with
      | none =>
        sigil .closeParen
        return (acc, false)
      | some a =>
        if ← accept .comma then return (a :: acc, true)
        else
          sigil .closeParen
          return (a :: acc, false)) []
  return acc.reverse

/-- An annotation, at whose sign the input stands. A semicolon after it is part of it. -/
def annot : Grammar Tree.Annot :=
  located (fun loc (name, args?) => ⟨loc, name, args?⟩) do
    sigil .atSign
    let name ← path
    let args? ← if ← accept .openParen then some <$> args else pure none
    let _ ← accept .semicolon
    return (name, args?)

/-- Gives up if annotations wait for a declaration that does not come. -/
def noPending (pending : List Tree.Annot) : Grammar Unit :=
  match pending with
  | [] => return ()
  | a :: _ => fail ⟨.danglingAnnots, a.loc.span, a.loc.pos⟩

/-! ## §3 Messages -/

/-- Words that look like types and are left out on purpose. -/
def unsupportedType? (word : Bytes) : Option Feature :=
  if word == "fixed32" || word == "fixed64" || word == "sfixed32" || word == "sfixed64" then
    some .fixedWidth
  else if word == "sint32" || word == "sint64" then some .zigzag
  else if word == "stream" then some .stream
  else none

/-- A reference to a type. -/
def typeRef : Grammar Tree.TypeRef :=
  located (fun loc name => ⟨loc, name⟩) do
    let t ← peek
    match t.kind with
    | .ident =>
      match unsupportedType? t.text with
      | some feature => failUnsupported feature
      | none =>
        let name ← path
        let next ← peek
        if name.dotted == "map" && next.kind == .lt then
          fail (.atToken (.unsupported .map t.text) t)
        else if next.kind == .openSquare then failUnsupported .array
        else return name
    | .openSquare => failUnsupported .array
    | _ => failExpected .type

/-- The word in front of a field, if there is one. -/
def label? : Grammar (Option Tree.Label) := do
  let t ← peek
  if ← acceptWord "optional" then return some ⟨t.loc, .optional⟩
  else if ← acceptWord "required" then return some ⟨t.loc, .required⟩
  else return none

/-- A field, with the annotations that precede it. -/
def field (annots : List Tree.Annot) : Grammar Tree.Field :=
  located (fun loc (label, type, name, question, number) =>
      ⟨loc, annots, label, type, name, question, number⟩) do
    let label ← label?
    if ← atWord "repeated" then failUnsupported .repeated
    else
      let type ← typeRef
      let name ← ident
      let question ← accept .question
      let number ← if ← accept .eq then some <$> intLit else pure none
      if (← peek).kind == .openSquare then failUnsupported .fieldOptions
      else
        sigil .semicolon
        return (label, type, name, question, number)

/-- Words that begin a member of a message and are left out on purpose. -/
def unsupportedMember? (word : Bytes) : Option Feature :=
  if word == "message" then some .nestedMessage
  else if word == "enum" then some .enum
  else if word == "oneof" then some .oneof
  else if word == "reserved" then some .reserved
  else if word == "option" then some .nestedOption
  else if word == "extensions" then some .extensions
  else if word == "extend" then some .extend
  else if word == "repeated" then some .repeated
  else none

/-- The members of a body: those read so far and the annotations that wait for the next one, both
last first. -/
structure Members (α : Type) where
  done : List α := []
  pending : List Tree.Annot := []

/-- The step of a body that all bodies have in common; `member` reads what is particular. -/
def memberStep {α : Type} (member : List Tree.Annot → Grammar α) (s : Members α) :
    Grammar (Members α × Bool) := do
  match (← peek).kind with
  | .closeCurl =>
    noPending s.pending.reverse
    advance
    return (s, false)
  | .atSign => return ({ s with pending := (← annot) :: s.pending }, true)
  | .semicolon =>
    advance
    return (s, true)
  | _ =>
    let m ← member s.pending.reverse
    return ({ done := m :: s.done }, true)

/-- A body in braces. -/
def body {α : Type} (member : List Tree.Annot → Grammar α) : Grammar (List α) := do
  sigil .openCurl
  let s ← loop (memberStep member) {}
  return s.done.reverse

/-- A member of a message. -/
def messageMember (annots : List Tree.Annot) : Grammar Tree.Field := do
  let t ← peek
  match t.kind with
  | .ident =>
    match unsupportedMember? t.text with
    | some feature => failUnsupported feature
    | none => field annots
  | .openSquare => failUnsupported .array
  | _ => failExpected .messageMember

/-- A message, at whose keyword the input stands. -/
def message (annots : List Tree.Annot) : Grammar Tree.Message :=
  located (fun loc (name, fields) => ⟨loc, annots, name, fields⟩) do
    advance
    let name ← ident
    let fields ← body messageMember
    return (name, fields)

/-! ## §4 Services -/

/-- The rest of a parenthesized parameter list, which holds at most one type. -/
def parameter : Grammar (Option Tree.TypeRef) := do
  if ← accept .closeParen then return none
  else
    let type ← typeRef
    sigil .closeParen
    return some type

/-- The input of a method, in parentheses or bare. -/
def methodInput : Grammar (Option Tree.TypeRef) := do
  if ← accept .openParen then parameter
  else
    let t ← peek
    if t.kind == .ident && t.text != "returns" then some <$> typeRef else return none

/-- Consumes what announces the output of a method. -/
def outputMark : Grammar Bool := do
  if ← acceptWord "returns" then return true else accept .arrow

/-- The output of a method, after `returns` or an arrow. -/
def methodOutput : Grammar (Option Tree.TypeRef) := do
  if ← outputMark then
    if ← accept .openParen then parameter else some <$> typeRef
  else return none

/-- The end of a method: a semicolon, or braces with nothing but semicolons in them. -/
def methodEnd : Grammar Unit := do
  if ← accept .openCurl then
    loop (fun _ => do
      if ← accept .semicolon then return ((), true)
      else if ← atWord "option" then failUnsupported .nestedOption
      else
        sigil .closeCurl
        return ((), false)) ()
  else sigil .semicolon

/-- A method, at whose keyword the input stands. -/
def method (annots : List Tree.Annot) : Grammar Tree.Method :=
  located (fun loc (name, input, output) => ⟨loc, annots, name, input, output⟩) do
    advance
    let name ← ident
    let input ← methodInput
    let output ← methodOutput
    methodEnd
    return (name, input, output)

/-- A member of a service. -/
def serviceMember (annots : List Tree.Annot) : Grammar Tree.Method := do
  if ← atWord "rpc" then method annots
  else if ← atWord "option" then failUnsupported .nestedOption
  else if ← atWord "stream" then failUnsupported .stream
  else failExpected .serviceMember

/-- A service, at whose keyword the input stands. -/
def service (annots : List Tree.Annot) : Grammar Tree.Service :=
  located (fun loc (name, methods) => ⟨loc, annots, name, methods⟩) do
    advance
    let name ← ident
    let methods ← body serviceMember
    return (name, methods)

/-! ## §5 Files -/

/-- The statement that names the package, at whose keyword the input stands. -/
def package : Grammar Tree.Package :=
  located (fun loc name => ⟨loc, name⟩) do
    advance
    let name ← path
    sigil .semicolon
    return name

/-- The statement that names the version of the language, at whose keyword the input stands. -/
def version : Grammar Tree.TextLit := do
  advance
  sigil .eq
  let version ← textLit
  sigil .semicolon
  if version.value == "proto3" then return version
  else fail ⟨.unsupportedVersion version.value, version.loc.span, version.loc.pos⟩

/-- An option of the file, at whose keyword the input stands. -/
def setting : Grammar Tree.Setting :=
  located (fun loc (name, value) => ⟨loc, name, value⟩) do
    advance
    let name ← path
    sigil .eq
    let value ← value
    sigil .semicolon
    return (name, value)

/-- What has been read of a file; the lists are last first. -/
structure Draft where
  version : Option Tree.TextLit := none
  package : Option Tree.Package := none
  options : List Tree.Setting := []
  decls : List Tree.Decl := []
  pending : List Tree.Annot := []

/-- One statement or declaration of a file, other than an annotation or a semicolon. -/
def statement (d : Draft) : Grammar Draft := do
  let t ← peek
  if t.isWord "message" then
    let m ← message d.pending.reverse
    return { d with decls := .message m :: d.decls, pending := [] }
  else if t.isWord "service" then
    let s ← service d.pending.reverse
    return { d with decls := .service s :: d.decls, pending := [] }
  else
    noPending d.pending.reverse
    if t.isWord "package" then
      let p ← package
      if d.package.isSome then fail (.atToken .duplicatePackage t)
      else return { d with package := some p }
    else if t.isWord "syntax" then return { d with version := some (← version) }
    else if t.isWord "option" then return { d with options := (← setting) :: d.options }
    else if t.isWord "import" then failUnsupported .importing
    else if t.isWord "extend" then failUnsupported .extend
    else if t.isWord "enum" then failUnsupported .enum
    else failExpected .declaration

/-- One step through a file. -/
def fileStep (d : Draft) : Grammar (Draft × Bool) := do
  match (← peek).kind with
  | .eof => return (d, false)
  | .atSign => return ({ d with pending := (← annot) :: d.pending }, true)
  | .semicolon =>
    advance
    return (d, true)
  | _ => return (← statement d, true)

/-- A whole file. -/
def file (requirePackage : Bool) : Grammar Tree.File := do
  let start ← get
  let d ← loop fileStep {}
  noPending d.pending.reverse
  let eof ← peek
  if requirePackage && d.package.isNone then fail ⟨.missingPackage, eof.span, eof.pos⟩
  else
    let stop := (← get).stop
    let loc : Loc := match start.rest with
      | t :: _ => ⟨.between t.start stop, t.pos⟩
      | [] => ⟨⟨0, 0⟩, .start⟩
    return ⟨loc, d.version, d.package, d.options.reverse, d.decls.reverse⟩

/-- Runs a piece of grammar on a source. -/
def run {α : Type} (p : Grammar α) (src : Bytes) : Except SyntaxError α := do
  let l ← lex src
  let (a, _) ← StateT.run p ⟨l.significant, l.ending, 0⟩
  return a

/-- Runs a piece of grammar that begins with a keyword on a source; there is nothing to read where
the source does not begin with the keyword. -/
def runAt {α : Type} (keyword : Bytes) (p : Grammar α) (src : Bytes) :
    Except SyntaxError (Option α) := do
  let l ← lex src
  match l.significant with
  | t :: _ =>
    if t.isWord keyword then
      let (a, _) ← StateT.run p ⟨l.significant, l.ending, 0⟩
      return some a
    else return none
  | [] => return none

end Grammar

/-- Reads a file. A file needs a package statement unless `allowMissingPackage` holds. -/
def parseFile (src : Bytes) (allowMissingPackage : Bool := false) : Except SyntaxError Tree.File :=
  Grammar.run (Grammar.file !allowMissingPackage) src

/-- Reads one message and ignores what follows it; none if the source does not begin with one. -/
def parseMessage (src : Bytes) : Except SyntaxError (Option Tree.Message) :=
  Grammar.runAt "message" (Grammar.message []) src

/-- Reads one service and ignores what follows it; none if the source does not begin with one. -/
def parseService (src : Bytes) : Except SyntaxError (Option Tree.Service) :=
  Grammar.runAt "service" (Grammar.service []) src

end Idl
