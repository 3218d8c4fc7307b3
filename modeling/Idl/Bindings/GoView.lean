import Idl.Bindings.Basic
import Idl.Bindings.Naming
import Idl.Schema

/-!
# What a Go file declares

The view of a schema that Go bindings are rendered from: structs with fields and tags, interfaces
with methods, and the names of everything, checked for collisions.

* §1 names in Go, §2 the view, §3 types and package names, §4 from a schema to its view.
-/

namespace Idl.GoView

open Bindings

/-- The name of the target. -/
def target : Bytes := "go"

/-! ## §1 Names in Go -/

/-- The reserved words. -/
def keywords : List Bytes :=
  ["break", "case", "chan", "const", "continue", "default", "defer", "else", "fallthrough", "for",
   "func", "go", "goto", "if", "import", "interface", "map", "package", "range", "return",
   "select", "struct", "switch", "type", "var"]

/-- Whether a character can begin a name. -/
def isNameStart (c : Char) : Bool := isLetter c || c == '_'

/-- Whether a character can continue a name. -/
def isNamePart (c : Char) : Bool := isNameStart c || isDecimalDigit c

/-- Whether a text is spelled like a name. -/
def isWord (t : Bytes) : Bool :=
  match Utf8.chars t with
  | [] => false
  | c :: r => isNameStart c && r.all isNamePart

/-- Whether a text is a name that can be declared. -/
def isIdentifier (t : Bytes) : Bool := isWord t && !keywords.contains t

/-! ## §2 The view -/

/-- A field of a struct. -/
structure Field where
  name : Bytes
  type : Bytes
  /-- The name of the field on the wire. -/
  wireName : Bytes
  /-- Whether the field is left out of an encoding if it is empty. -/
  omitEmpty : Bool
  docs : List Bytes
deriving DecidableEq, Repr

/-- A struct. -/
structure Message where
  name : Bytes
  fields : List Field
  docs : List Bytes
deriving DecidableEq, Repr

/-- The type of an argument or a result. -/
structure Param where
  type : Bytes
  isMessage : Bool
  /-- The value that stands for nothing. -/
  zero : Bytes
deriving DecidableEq, Repr

/-- A method of an interface. -/
structure Method where
  name : Bytes
  input : Option Param
  output : Option Param
  docs : List Bytes
deriving DecidableEq, Repr

/-- An interface with what belongs to it. -/
structure Service where
  name : Bytes
  id : Bytes
  canonical : Bytes
  client : Bool
  server : Bool
  methods : List Method
  docs : List Bytes
deriving DecidableEq, Repr

end GoView

/-- A Go file. -/
structure GoView where
  package : Bytes
  /-- The package of the schema. -/
  source : Bytes
  rpcImport : Bytes
  messages : List GoView.Message
  services : List GoView.Service
deriving DecidableEq, Repr

namespace GoView

open Bindings

/-- The tag of a field: its name in every encoding. -/
def Field.tag (f : Field) : Bytes :=
  let name := f.wireName ++ if f.omitEmpty then (",omitempty" : Bytes) else []
  "json:\"" ++ name ++ "\" bson:\"" ++ name ++ "\""

/-- A parameter as it is declared: messages are passed by reference. -/
def Param.declared (p : Param) : Bytes := if p.isMessage then "*" ++ p.type else p.type

/-- Whether a method encodes or decodes anything. -/
def Method.usesCodec (m : Method) : Bool := m.input.isSome || m.output.isSome

/-- The name of a method on the wire. -/
def Service.wire (s : Service) (m : Method) : Bytes := s.name ++ "." ++ m.name

/-- The names that a service declares at the top level. -/
def declaredNames (name : Bytes) (client server : Bool) : List Bytes :=
  [name, name ++ "SchemaID", name ++ "Schema"]
    ++ (if server then [name ++ "Receiver", "New" ++ name ++ "Receiver"] else [])
    ++ (if client then [name ++ "Client", "New" ++ name ++ "Client"] else [])

/-! ## §3 Types and package names -/

/-- The Go type of a built-in type. -/
def scalarType : Scalar → Bytes
  | .bytes => "[]byte"
  | s => s.name

/-- The Go type of a type. -/
def typeName (s : Schema) (entity : Bytes) (t : Ty) : Except BindingError Bytes :=
  let unmappable := .error ⟨target, entity, .unmappable t.name⟩
  match t with
  | .scalar k => .ok (scalarType k)
  | .message m => if (s.message? m).isSome then .ok (Naming.pascal m) else unmappable
  | .unassigned _ => unmappable

/-- The value of a type that stands for nothing. -/
def zeroValue : Ty → Bytes
  | .scalar .bool => "false"
  | .scalar .string => "\"\""
  | .scalar .bytes | .message _ => "nil"
  | _ => "0"

/-- The last component of a path with slashes. -/
def lastComponent (path : Bytes) : Bytes :=
  if path.isEmpty then "."
  else match (Bytes.split 0x2F (Bytes.dropTailWhile (· == 0x2F) path)).getLast? with
    | some [] | none => "/"
    | some c => c

/-- A package name, unless it is no name. -/
def checkPackage (option name : Bytes) : Except BindingError Bytes :=
  if isIdentifier name then .ok name
  else .error ⟨target, option, .option (quote name ++ " is not a Go identifier")⟩

/-- The package name in an import path: what follows a semicolon, or else the last component. -/
def packageOfPath (path : Bytes) : Bytes :=
  let name := match path.dropWhile (· != 0x3B) with
    | [] => lastComponent path
    | _ :: name => name
  name.map fun c => if c == 0x2D then 0x5F else c

/-- The package name of a schema that does not choose one: the last component of its package. -/
def defaultPackage (package : Bytes) : Bytes :=
  let last := (Bytes.split 0x2E package).getLast?.getD []
  let name := Utf8.ofChars ((Utf8.chars (Naming.snake last)).map toLowerChar)
  if name.isEmpty then "midl"
  else if keywords.contains name then name ++ "_midl"
  else name

/-- The package name of the bindings: set by the caller, by the schema, or derived from the
package of the schema. -/
def packageName (s : Schema) (o : Options) : Except BindingError Bytes :=
  match o.get? "package" with
  | some name => checkPackage "package" name
  | none => match s.option? "go_package" with
    | some (.text path) => checkPackage "go_package" (packageOfPath path)
    | _ => .ok (defaultPackage s.package)

/-- The path of the bindings of a schema. -/
def fileName (s : Schema) : Bytes :=
  if s.package.isEmpty then "schema.go"
  else Naming.snake (s.package.map fun c => if c == 0x2E then 0x5F else c) ++ ".go"

/-- The package that generated code calls. -/
def defaultRpcImport : Bytes := "github.com/frodobuf/frodobuf/rpc"

/-- The import path of the package that generated code calls. -/
def rpcImportOf (o : Options) : Except BindingError Bytes :=
  match o.get? "rpc_import" with
  | some [] => .error ⟨target, "rpc_import", .option "empty import path"⟩
  | some path => .ok path
  | none => .ok defaultRpcImport

/-! ## §4 From a schema to its view -/

/-- The view of a field. Messages are held by reference, and so is anything optional that has no
empty value of its own. -/
def fieldView (s : Schema) (message : Bytes) (f : Idl.Field) : Claiming Field := do
  let entity := message ++ "." ++ f.name
  let name := Naming.pascal f.name
  claim target entity name
  let type ← typeName s entity f.type
  let byReference := f.type.isMessage || (f.optional && f.type != .scalar .bytes)
  return {
    name, docs := f.docs, wireName := f.name
    type := if byReference then "*" ++ type else type
    omitEmpty := f.optional || f.type.isMessage }

/-- The view of a message. -/
def messageView (s : Schema) (m : Idl.Message) : Claiming Message := do
  let name := Naming.pascal m.name
  claim target m.name name
  let fields ← inNewScope [] (m.fields.mapM (fieldView s m.name))
  return { name, fields, docs := m.docs }

/-- The view of an argument or a result. -/
def paramView (s : Schema) (entity : Bytes) (t : Option Ty) :
    Except BindingError (Option Param) :=
  match t with
  | none => .ok none
  | some t => do return some ⟨← typeName s entity t, t.isMessage, zeroValue t⟩

/-- The view of a method. -/
def methodView (s : Schema) (service : Bytes) (m : Idl.Method) : Claiming Method := do
  let entity := service ++ "." ++ m.name
  let name := Naming.pascal m.name
  claim target entity name
  let input ← paramView s entity m.input
  let output ← paramView s entity m.output
  return { name, input, output, docs := m.docs }

/-- The names that methods cannot have, since they are fields of the client. -/
def clientScope (name : Bytes) (client : Bool) : Scope :=
  let field (f : Bytes) : Bytes × Bytes := (f, name ++ "Client." ++ f)
  if client then [field "Transport", field "Codec"] else []

/-- The view of a service. -/
def serviceView (s : Schema) (v : Idl.Service) : Claiming Service := do
  let name := Naming.pascal v.name
  (declaredNames name v.client v.server).forM (claim target v.name)
  let methods ← inNewScope (clientScope name v.client) (v.methods.mapM (methodView s v.name))
  return {
    name, methods, docs := v.docs, id := v.id.text, canonical := v.canonical
    client := v.client, server := v.server }

/-- The view of a schema. -/
def ofSchema (s : Schema) (o : Options) : Except BindingError GoView := do
  let package ← packageName s o
  let rpcImport ← rpcImportOf o
  inNewScope [] do
    let messages ← s.messages.mapM (messageView s)
    let services ← s.services.mapM (serviceView s)
    return { package, rpcImport, messages, services, source := s.package }

end GoView

end Idl
