import Idl.Compile.Annot
import Idl.Schema.Canonical
import Idl.Tree.Parse

/-!
# From a file to a schema

What is wrong with a file and what it means are two functions of its tree: `Tree.File.errors` lists
every violation, and `Tree.File.schema` is the meaning of a file that has none.
-/

namespace Idl

/-- The version of the language that is recorded in every schema. -/
def languageVersion : Bytes := "0.4.0"

namespace Tree

/-! ## §1 Names -/

namespace Decl

/-- The kind of a declaration. -/
def kind : Decl → DeclKind
  | .message _ => .message
  | .service _ => .service

end Decl

namespace File

/-- The name of the package; empty if there is none. -/
def packageName (f : File) : Bytes := (f.package.map (·.name.dotted)).getD []

/-- The kind of the first declaration of a name. -/
def declared? (f : File) (name : Bytes) : Option DeclKind :=
  (f.decls.find? (·.name.name == name)).map (·.kind)

/-- The type that a reference means: a built-in type, or a message of the file whose name may have
the package in front. -/
def resolve? (f : File) (ref : TypeRef) : Option Ty :=
  let builtin := if ref.name.more.isEmpty then Scalar.ofName? ref.name.first.name else none
  match builtin with
  | some s => some (.scalar s)
  | none =>
    let package := f.packageName
    let name := if package.isEmpty then ref.name.dotted
      else Bytes.trimStart ref.name.dotted (package ++ ".")
    if f.declared? name = some .message then some (.message name) else none

end File

/-- Each element with those in front of it, nearest first. -/
def withEarlier {α : Type} (l : List α) : List (List α × α) :=
  (l.foldl (fun (before, done) a => (a :: before, (before, a) :: done)) ([], [])).2.reverse

/-- The elements whose name occurred before. -/
def repeats {α : Type} (name : α → Bytes) (l : List α) : List α :=
  (withEarlier l).filterMap fun (before, a) =>
    if before.any fun b => name b == name a then some a else none

/-! ## §2 Field numbers -/

namespace Field

/-- The explicit number of a field, if it has one in range. -/
def explicit? (f : Field) : Option Nat :=
  f.number.bind fun lit =>
    if 1 ≤ lit.value && lit.value ≤ maxFieldNumber then some lit.value.toNat else none

end Field

/-- The first field with an explicit number. -/
def numberOwner? (fields : List Field) (number : Nat) : Option Field :=
  fields.find? (·.explicit? == some number)

namespace Message

/-- What is wrong with an explicit number, given the fields in front of its own. -/
def explicitError? (m : Message) (before : List Field) (f : Field) : Option SchemaError :=
  f.number.bind fun lit =>
    let report (cause : SchemaCause) : Option SchemaError :=
      some ⟨cause, lit.loc, f.name.name, m.name.name⟩
    match f.explicit? with
    | none => report (.numberOutOfRange lit.raw)
    | some n => (numberOwner? before.reverse n).bind fun owner =>
        report (.reusedNumber n owner.name.name)

/-- What is wrong with the automatic number of a field, which is its position. -/
def automaticError? (m : Message) (position : Nat) (f : Field) : Option SchemaError :=
  if f.number.isSome then none
  else (numberOwner? m.fields position).map fun owner =>
    ⟨.takenNumber position owner.name.name, f.name.loc, f.name.name, m.name.name⟩

/-- The fields with their positions, which start at one. -/
def numbered (m : Message) : List (Nat × Field) :=
  m.fields.zipIdx.map fun (f, i) => (i + 1, f)

/-- Everything that is wrong with the numbers of a message. -/
def numberErrors (m : Message) : List SchemaError :=
  (withEarlier m.fields).filterMap (fun (before, f) => m.explicitError? before f)
    ++ m.numbered.filterMap fun (position, f) => m.automaticError? position f

end Message

/-! ## §3 Violations -/

namespace File

/-- A reference that cannot be resolved. -/
def typeErrors (f : File) (scope entity : Bytes) (ref : TypeRef) : List SchemaError :=
  if (f.resolve? ref).isSome then []
  else [⟨.unresolvedType ref.name.dotted, ref.loc, entity, scope⟩]

/-- What is wrong with a field by itself. -/
def fieldErrors (f : File) (m : Message) (field : Field) : List SchemaError :=
  f.typeErrors m.name.name field.name.name field.type
    ++ annotErrors .field m.name.name field.name.name field.annots

/-- What is wrong with a message. -/
def messageErrors (f : File) (m : Message) : List SchemaError :=
  annotErrors .message f.packageName m.name.name m.annots
    ++ (repeats (·.name.name) m.fields).map
      (fun field => ⟨.duplicateField, field.name.loc, field.name.name, m.name.name⟩)
    ++ m.fields.flatMap (f.fieldErrors m)
    ++ m.numberErrors

/-- What is wrong with a method by itself. -/
def methodErrors (f : File) (s : Service) (m : Method) : List SchemaError :=
  let scope := s.name.name
  let types := m.input.toList ++ m.output.toList
  types.flatMap (f.typeErrors scope (scope ++ "." ++ m.name.name))
    ++ annotErrors .method scope m.name.name m.annots

/-- What is wrong with a service. -/
def serviceErrors (f : File) (s : Service) : List SchemaError :=
  annotErrors .service f.packageName s.name.name s.annots
    ++ (repeats (·.name.name) s.methods).map
      (fun m => ⟨.duplicateMethod, m.name.loc, m.name.name, s.name.name⟩)
    ++ s.methods.flatMap (f.methodErrors s)

/-- A package whose components do not all start with a letter. -/
def packageErrors (f : File) : List SchemaError :=
  match f.package with
  | none => []
  | some p =>
    if p.name.parts.all fun part => part.name.head?.any Bytes.isLetter then []
    else [⟨.invalidPackage, p.name.loc, p.name.dotted, []⟩]

/-- Options that are set a second time. -/
def optionErrors (f : File) : List SchemaError :=
  (repeats (·.name.dotted) f.options).map fun o =>
    ⟨.repeatedOption, o.loc, o.name.dotted, f.packageName⟩

/-- Declarations of a name that has been declared before. -/
def declErrors (f : File) : List SchemaError :=
  (repeats (·.name.name) f.decls).filterMap fun d =>
    (f.declared? d.name.name).map fun earlier =>
      let cause : SchemaCause :=
        if d.kind = earlier then .duplicateDecl d.kind else .kindConflict d.kind earlier
      ⟨cause, d.name.loc, d.name.name, f.packageName⟩

/-- Every violation in a file, in the order of reports. -/
def errors (f : File) : List SchemaError :=
  sortErrors (f.packageErrors ++ f.optionErrors ++ f.declErrors
    ++ f.messages.flatMap f.messageErrors ++ f.services.flatMap f.serviceErrors)

/-! ## §4 Warnings -/

/-- Remarks on a message. -/
def messageWarnings (m : Message) : List Warning :=
  let labels := m.fields.filterMap fun field => match field.label with
    | some l => if l.presence = .required then some (Warning.mk .requiredLabel l.loc) else none
    | none => none
  let mixed := m.fields.any (·.number.isSome) && m.fields.any (·.number.isNone)
  labels ++ if mixed && m.numberErrors.isEmpty then [⟨.mixedNumbering m.name.name, m.name.loc⟩]
    else []

/-- Remarks on a service. -/
def serviceWarnings (s : Service) : List Warning :=
  if s.methods.isEmpty then [⟨.emptyService s.name.name, s.name.loc⟩] else []

/-- Every remark on a file, in the order of reports. -/
def warnings (f : File) : List Warning :=
  sortWarnings (f.messages.flatMap messageWarnings ++ f.services.flatMap serviceWarnings)

/-! ## §5 Meaning -/

/-- The meaning of a reference in a file without errors. -/
def typeOf (f : File) (ref : TypeRef) : Ty := (f.resolve? ref).getD (.unassigned 0)

/-- The meaning of a field at a position. -/
def lowerField (f : File) (position : Nat) (field : Field) : Idl.Field :=
  let m := meanings .field field.annots
  { name := field.name.name
    type := f.typeOf field.type
    optional := field.isOptional
    number := match field.number with
      | some _ => field.explicit?.getD 0
      | none => position
    docs := m.docs
    annots := m.annots
    source := m.source.getD field.loc.pos }

/-- The meaning of a message. -/
def lowerMessage (f : File) (msg : Message) : Idl.Message :=
  let m := meanings .message msg.annots
  { name := msg.name.name
    fields := msg.numbered.map fun (position, field) => f.lowerField position field
    docs := m.docs
    annots := m.annots
    source := m.source.getD msg.loc.pos }

/-- The meaning of a method. -/
def lowerMethod (f : File) (method : Method) : Idl.Method :=
  let m := meanings .method method.annots
  { name := method.name.name
    input := method.input.map f.typeOf
    output := method.output.map f.typeOf
    docs := m.docs
    annots := m.annots
    source := m.source.getD method.loc.pos }

/-- The meaning of a service. Both sides are generated unless an annotation says otherwise. -/
def lowerService (f : File) (svc : Service) : Idl.Service :=
  let m := meanings .service svc.annots
  { name := svc.name.name
    methods := svc.methods.map f.lowerMethod
    docs := m.docs
    annots := m.annots
    source := m.source.getD svc.loc.pos
    client := m.client.getD true
    server := m.server.getD true
    id := .zero
    canonical := [] }

/-- The options of a file, each as an annotation of the schema. -/
def lowerOptions (f : File) : List Idl.Annot :=
  f.options.map fun o =>
    { name := Annot.optionName, pairs := [⟨o.name.dotted, o.value.lower⟩] }

/-- The meaning of a file without errors. -/
def schema (f : File) (sourcePath : Bytes) : Schema :=
  Schema.identify
    { package := f.packageName
      messages := f.messages.map f.lowerMessage
      services := f.services.map f.lowerService
      annots := f.lowerOptions
      parserVersion := languageVersion
      sourcePath
      id := .zero }

end File

end Tree

/-! ## §6 Compilation -/

/-- The result of compiling a file: the errors or a schema, and the warnings in any case. -/
structure Compilation where
  outcome : Except (List SchemaError) Schema
  warnings : List Warning

namespace Compilation

/-- The errors; none if there is a schema. -/
def errors (c : Compilation) : List SchemaError :=
  match c.outcome with
  | .error l => l
  | .ok _ => []

end Compilation

/-- Compiles a file. -/
def Tree.File.compile (f : Tree.File) (sourcePath : Bytes) : Compilation where
  outcome := if f.errors.isEmpty then .ok (f.schema sourcePath) else .error f.errors
  warnings := f.warnings

/-- Reads and compiles a source. -/
def compileSource (src : Bytes) (sourcePath : Bytes) (allowMissingPackage : Bool) :
    Except SyntaxError Compilation :=
  (parseFile src allowMissingPackage).map (·.compile sourcePath)

end Idl
