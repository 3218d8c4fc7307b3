import Idl.Compile
import Idl.Reader.Context

/-!
# Reading a source piece by piece

Each kind of node is a piece with a context of its own. A piece goes on after an error: names and
types are missing then, and the token in hand may be one that the grammar never sees. Only when a
piece is finished is it decided whether its node is made.

* §1 names, constants and annotations,
* §2 messages, §3 services,
* §4 files and sources.
-/

namespace Idl.Reader

/-! ## §1 Names, constants and annotations -/

/-- Consumes what may stand between the components of a name. -/
def separator : Reader Bool := do
  if ← trySigil .dot then return true else trySigil .doubleColon

/-- The components of a name, none of which may be missing. -/
def pathOf (parts : List (Option Tree.Ident)) (loc : Loc) : Option Tree.Path :=
  match parts.mapM id with
  | some (first :: more) => some ⟨loc, first, more⟩
  | _ => none

/-- A dotted name. -/
def path : Reader (Piece Tree.Path) := do
  let first ← ident
  let parts ← loop (fun parts => do
    if ← separator then
      let part ← ident
      return (parts ++ [part], true)
    else return (parts, false)) [first]
  finish (pathOf parts)

/-- A constant, if the next token begins one. -/
def value : Reader (Piece Tree.Value) := do
  if ← ensureToken then
    let kind ← kind
    if kind.isInteger then
      let lit ← int
      finish fun loc => lit.map fun lit => ⟨loc, .int lit⟩
    else if kind == .floatLit then
      let text ← readToken
      (Binary64.ofNumeral? text).elim
        (do
          failHere fun _ text => .badNumber text
          finish fun _ => none)
        fun x => do
          consumeToken
          finish fun loc => some ⟨loc, .float x⟩
    else if kind == .textLit then
      let lit ← text
      finish fun loc => lit.map fun lit => ⟨loc, .text lit⟩
    else if kind == .ident then
      let word ← readToken
      if word == "true" || word == "false" then
        consumeToken
        finish fun loc => some ⟨loc, .bool (word == "true")⟩
      else if word == "inf" then
        consumeToken
        finish fun loc => some ⟨loc, .float (.infinity false)⟩
      else if word == "nan" then
        consumeToken
        finish fun loc => some ⟨loc, .float .nan⟩
      else
        let name ← child path
        finish fun loc => name.map fun name => ⟨loc, .path name⟩
    else return (none, none)
  else abort

/-- A constant that has to be there. -/
def constValue : Reader (Option Tree.Value) := do
  let value ← child value
  let failed ← failed
  (if value.isNone && !failed then failHere (.expected .value) else pure ())
  return value

/-- An argument of an annotation, with a name, a value or both. -/
structure LooseArg where
  loc : Loc
  key : Option Tree.Ident
  value : Option Tree.Value

/-- An argument without a name needs a value. -/
def LooseArg.tight? (a : LooseArg) : Option Tree.Arg :=
  match a.key, a.value with
  | some key, some value => some ⟨a.loc, .pair key value⟩
  | some key, none => some ⟨a.loc, .flag key⟩
  | none, some value => some ⟨a.loc, .positional value⟩
  | none, none => none

/-- An argument of an annotation. -/
def arg : Reader (Piece LooseArg) := do
  if ← ensureToken then
    let word ← peekKeyword
    if word == [] || Grammar.constantWords.contains word then
      let value ← child value
      finish fun loc => some ⟨loc, none, value⟩
    else
      let key ← ident
      if ← trySigil .eq then
        let value ← constValue
        finish fun loc => some ⟨loc, key, value⟩
      else finish fun loc => some ⟨loc, key, none⟩
  else abort

/-- One step through the arguments of an annotation. -/
def argsStep (args : List LooseArg) : Reader (List LooseArg × Bool) := do
  if ← trySigil .closeParen then return (args, false)
  else
    (← child arg).elim
      (do
        let failed ← failed
        (if failed then pure () else sigil .closeParen)
        return (args, false))
      fun a => do
        if ← trySigil .comma then return (args ++ [a], true)
        else
          sigil .closeParen
          return (args ++ [a], false)

/-- An annotation, if the next token is its sign. -/
def annot : Reader (Piece Tree.Annot) := do
  if ← trySigil .atSign then
    let name ← child path
    if ← trySigil .openParen then
      let args ← loop argsStep []
      let _ ← trySigil .semicolon
      finish fun loc => do return ⟨loc, ← name, some (← args.mapM LooseArg.tight?)⟩
    else
      let _ ← trySigil .semicolon
      finish fun loc => do return ⟨loc, ← name, none⟩
  else return (none, none)

/-! ## §2 Messages -/

/-- A reference to a type. -/
def typeRef : Reader (Piece Tree.TypeRef) := do
  if ← ensureToken then
    let kind ← kind
    if kind == .ident then
      let word ← readToken
      (Grammar.unsupportedType? word).elim
        (do
          let span ← tokenSpan
          let name ← child path
          let isMap ← (if name.any fun p => p.dotted == ("map" : Bytes) then peek .lt else pure false)
          if isMap then
            fail (.unsupported .map "map") span
            abort
          else if ← peek .openSquare then
            unsupported .array
            abort
          else finish fun loc => name.map fun name => ⟨loc, name⟩)
        fun feature => do
          unsupported feature
          abort
    else if kind == .openSquare then
      unsupported .array
      abort
    else
      failHere (.expected .type)
      abort
  else abort

/-- The word in front of a field, if there is one. -/
def label : Reader (Option Tree.Label) := do
  (← tryKeyword "optional").elim
    (do return (← tryKeyword "required").map fun loc => ⟨loc, .required⟩)
    fun loc => return some ⟨loc, .optional⟩

/-- A field, without the annotations that precede it. -/
def field : Reader (Piece Tree.Field) := do
  let label ← label
  if (← peekKeyword) == "repeated" then
    unsupported .repeated
    abort
  else
    let type ← child typeRef
    let name ← ident
    let question ← trySigil .question
    let number ← (do if ← trySigil .eq then int else return none)
    let options ← peek .openSquare
    (if options then unsupported .fieldOptions else pure ())
    sigil .semicolon
    finish fun loc => do return ⟨loc, [], label, ← type, ← name, question, number⟩

/-- What a body has so far: its members, and the annotations that wait for the next one. -/
structure Gathered (α : Type) where
  members : List α := []
  pending : List Tree.Annot := []

/-- Keeps the error that annotations wait in vain, if there are any. -/
def noPending {α : Type} (pending : List Tree.Annot) (p q : Reader α) : Reader α :=
  pending.head?.elim p fun a => do
    fail .danglingAnnots a.loc.span
    q

/-- The step through a body that all bodies have in common; `member` reads what is particular. -/
def memberStep {α : Type} (member : Gathered α → Reader (Gathered α)) (s : Gathered α) :
    Reader (Gathered α × Bool) := do
  if ← ensureToken then
    if (← kind) == .closeCurl then
      noPending s.pending
        (do
          consumeToken
          return (s, false))
        (return (s, false))
    else
      (← child annot).elim
        (do
          if ← trySigil .semicolon then return (s, true)
          else return (← member s, true))
        fun a => return ({ s with pending := s.pending ++ [a] }, true)
  else return (s, false)

/-- A member of a message. The annotations belong to the field, if there is one. -/
def messageMember (s : Gathered Tree.Field) : Reader (Gathered Tree.Field) := do
  let kind ← kind
  if kind == .ident then
    let word ← readToken
    (Grammar.unsupportedMember? word).elim
      (do
        let field ← child field
        return ⟨s.members ++ (field.map fun f => { f with annots := s.pending }).toList, []⟩)
      fun feature => do
        unsupported feature
        return s
  else if kind == .openSquare then
    unsupported .array
    return s
  else
    failHere (.expected .messageMember)
    return s

/-- A message, if the next token is its keyword. -/
def message : Reader (Piece Tree.Message) := do
  if (← tryKeyword "message").isSome then
    let name ← ident
    sigil .openCurl
    let s ← loop (memberStep messageMember) {}
    finish fun loc => name.map fun name => ⟨loc, [], name, s.members⟩
  else return (none, none)

/-! ## §3 Services -/

/-- The rest of a parenthesized parameter list, which holds at most one type. -/
def parameter : Reader (Option Tree.TypeRef) := do
  if ← trySigil .closeParen then return none
  else
    let type ← child typeRef
    sigil .closeParen
    return type

/-- The input of a method. -/
def methodInput : Reader (Option Tree.TypeRef) := do
  if ← trySigil .openParen then parameter
  else
    let word ← peekKeyword
    if word != [] && word != "returns" then child typeRef else return none

/-- Consumes what announces the output of a method. -/
def outputMark : Reader Bool := do
  if (← tryKeyword "returns").isSome then return true else trySigil .arrow

/-- The output of a method. -/
def methodOutput : Reader (Option Tree.TypeRef) := do
  if ← outputMark then
    if ← trySigil .openParen then parameter
    else
      let type ← child typeRef
      let failed ← failed
      (if type.isNone && !failed then failHere (.expected .type) else pure ())
      return type
  else return none

/-- The end of a method. -/
def methodEnd : Reader Unit := do
  if ← trySigil .openCurl then
    loop (fun _ => do
      if ← trySigil .semicolon then return ((), true)
      else if (← peekKeyword) == "option" then
        unsupported .nestedOption
        return ((), false)
      else
        sigil .closeCurl
        return ((), false)) ()
  else sigil .semicolon

/-- A method, if the next token is its keyword. -/
def method : Reader (Piece Tree.Method) := do
  if (← tryKeyword "rpc").isSome then
    let name ← ident
    let input ← methodInput
    let output ← methodOutput
    methodEnd
    finish fun loc => name.map fun name => ⟨loc, [], name, input, output⟩
  else return (none, none)

/-- A member of a service. The annotations belong to the method, if there is one. -/
def serviceMember (s : Gathered Tree.Method) : Reader (Gathered Tree.Method) := do
  let word ← peekKeyword
  if word == "rpc" then
    let method ← child method
    return ⟨s.members ++ (method.map fun m => { m with annots := s.pending }).toList, []⟩
  else if word == "option" then
    unsupported .nestedOption
    return s
  else if word == "stream" then
    unsupported .stream
    return s
  else
    failHere (.expected .serviceMember)
    return s

/-- A service, if the next token is its keyword. -/
def service : Reader (Piece Tree.Service) := do
  if (← tryKeyword "service").isSome then
    let name ← ident
    sigil .openCurl
    let s ← loop (memberStep serviceMember) {}
    finish fun loc => name.map fun name => ⟨loc, [], name, s.members⟩
  else return (none, none)

/-! ## §4 Files and sources -/

/-- The statement that names the package, if the next token is its keyword. -/
def package : Reader (Piece Tree.Package) := do
  if (← tryKeyword "package").isSome then
    let name ← child path
    sigil .semicolon
    finish fun loc => name.map fun name => ⟨loc, name⟩
  else return (none, none)

/-- The statement that names the version of the language. -/
def version : Reader (Option Tree.TextLit) := do
  let _ ← tryKeyword "syntax"
  sigil .eq
  let version ← text
  sigil .semicolon
  version.elim (pure ()) fun v =>
    if v.value == "proto3" then pure () else fail (.unsupportedVersion v.value) v.loc.span
  return version

/-- An option of the file, if the next token is its keyword. -/
def setting : Reader (Piece Tree.Setting) := do
  if (← tryKeyword "option").isSome then
    if ← peek .openParen then
      failHere (.expected .ident)
      abort
    else
      let name ← child path
      sigil .eq
      let value ← constValue
      sigil .semicolon
      finish fun loc => do return ⟨loc, ← name, ← value⟩
  else return (none, none)

/-- What has been read of a file. -/
structure Sheet where
  version : Option Tree.TextLit := none
  package : Option Tree.Package := none
  options : List Tree.Setting := []
  decls : List Tree.Decl := []
  pending : List Tree.Annot := []

/-- A statement in front of which no annotation waits, by its first word. -/
def statement (word : Bytes) (d : Sheet) : Reader Sheet := do
  if word == "package" then
    let span ← tokenSpan
    let p ← child package
    (if p.isSome && d.package.isSome then fail .duplicatePackage span else pure ())
    return { d with package := p }
  else if word == "syntax" then
    let v ← version
    return { d with version := v }
  else if word == "option" then
    let o ← child setting
    return { d with options := d.options ++ o.toList }
  else if word == "import" then
    unsupported .importing
    return d
  else if word == "extend" then
    unsupported .extend
    return d
  else if word == "enum" then
    unsupported .enum
    return d
  else
    failHere (.expected .declaration)
    return d

/-- What stands at the top of a file, other than an annotation or a semicolon. -/
def declaration (d : Sheet) : Reader (Sheet × Bool) := do
  let word ← peekKeyword
  if word == "message" then
    let m ← child message
    return ({ d with
      decls := d.decls ++ (m.map fun m => .message { m with annots := d.pending }).toList
      pending := [] }, true)
  else if word == "service" then
    let s ← child service
    return ({ d with
      decls := d.decls ++ (s.map fun s => .service { s with annots := d.pending }).toList
      pending := [] }, true)
  else
    noPending d.pending
      (do return (← statement word d, true))
      (return (d, false))

/-- One step through a file. -/
def fileStep (d : Sheet) : Reader (Sheet × Bool) := do
  if ← ensureToken then
    if (← kind) == .eof then return (d, false)
    else
      (← child annot).elim
        (do
          if ← trySigil .semicolon then return (d, true) else declaration d)
        fun a => return ({ d with pending := d.pending ++ [a] }, true)
  else return (d, false)

/-- The number of octets of the source. -/
def sourceSize : Reader Nat := return (← get).src.length

/-- A whole file. -/
def file (requirePackage : Bool) : Reader (Piece Tree.File) := do
  let d ← loop fileStep {}
  if ← failed then abort
  else
    noPending d.pending
      (do
        if d.package.isNone && requirePackage then
          let size ← sourceSize
          fail .missingPackage ⟨size, 0⟩
          abort
        else finish fun loc => some ⟨loc, d.version, d.package, d.options, d.decls⟩)
      abort

/-- The context at the beginning of a source, which is neither too long nor ill-formed. -/
def begin (src : Bytes) : Except SyntaxError Context :=
  if src.length > maxSourceSize then
    .error ⟨.sourceTooLong src.length, ⟨0, min src.length (2 ^ 32 - 1)⟩, .start⟩
  else if !Utf8.isValid src then .error (locate src .invalidUtf8 ⟨replacementOffset src, 1⟩)
  else .ok { src, tokens := ⟨src, 0, .outside⟩ }

/-- Reads a source as one piece. -/
def run {α : Type} (piece : Reader (Piece α)) (src : Bytes) : Option (Piece α) :=
  match begin src with
  | .error e => some (none, some e)
  | .ok m => (piece m).map (·.1)

/-- Reads a file. -/
def readFile (src : Bytes) (allowMissingPackage : Bool) : Option (Piece Tree.File) :=
  run (file !allowMissingPackage) src

/-- Reads one message. -/
def readMessage (src : Bytes) : Option (Piece Tree.Message) := run message src

/-- Reads one service. -/
def readService (src : Bytes) : Option (Piece Tree.Service) := run service src

/-- Reads and compiles a source. There is nothing to compile without a file or an error. -/
def compile (src : Bytes) (sourcePath : Bytes) (allowMissingPackage : Bool) :
    Option (Piece Compilation) := do
  match ← readFile src allowMissingPackage with
  | (_, some e) => return (none, some e)
  | (some f, none) => return (some (f.compile sourcePath), none)
  | (none, none) => none

end Idl.Reader
