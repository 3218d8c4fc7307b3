import Idl.Bindings.Basic
import Idl.Bindings.Naming
import Idl.Schema

/-!
# What a Rust module declares

The view of a schema that Rust bindings are rendered from: structs with fields and their attributes,
traits with functions, and the names of everything, checked for collisions.

* §1 names in Rust, §2 the view, §3 types, §4 from a schema to its view.
-/

namespace Idl.RustView

open Bindings

/-- The name of the target. -/
def target : Bytes := "rust"

/-! ## §1 Names in Rust -/

/-- The reserved words that can be names if they are marked. -/
def keywords : List Bytes := List.map Bytes.ofString
  ["as", "async", "await", "break", "const", "continue", "dyn", "else", "enum", "extern", "false",
   "fn", "for", "if", "impl", "in", "let", "loop", "match", "mod", "move", "mut", "pub", "ref",
   "return", "static", "struct", "trait", "true", "type", "unsafe", "use", "where", "while",
   "abstract", "become", "box", "do", "final", "macro", "override", "priv", "try", "typeof",
   "unsized", "virtual", "yield"]

/-- The reserved words that can be no name at all. -/
def reserved : List Bytes := ["self", "Self", "super", "crate"]

/-- The mark of a name that is spelled like a reserved word. -/
def rawMark : Bytes := "r#"

/-- A name that is no reserved word. -/
def ident (name : Bytes) : Bytes :=
  if reserved.contains name then name ++ "_"
  else if keywords.contains name then rawMark ++ name
  else name

/-! ## §2 The view -/

/-- A field of a struct. -/
structure Field where
  name : Bytes
  type : Bytes
  /-- What the encoding has to know. -/
  serde : List Bytes
  docs : List Bytes
deriving DecidableEq, Repr

/-- A struct. -/
structure Message where
  name : Bytes
  fields : List Field
  docs : List Bytes
deriving DecidableEq, Repr

/-- The type of an argument. -/
structure Param where
  /-- The type of a value that is owned. -/
  type : Bytes
  /-- The type of the parameter. -/
  declared : Bytes
  byReference : Bool
deriving DecidableEq, Repr

/-- A function of a trait. -/
structure Method where
  /-- The name of the method on the wire, within its service. -/
  label : Bytes
  function : Bytes
  input : Option Param
  output : Option Bytes
  docs : List Bytes
deriving DecidableEq, Repr

/-- A trait with what belongs to it. -/
structure Service where
  name : Bytes
  module : Bytes
  id : Bytes
  canonical : Bytes
  client : Bool
  server : Bool
  methods : List Method
  docs : List Bytes
deriving DecidableEq, Repr

end RustView

/-- A Rust module. -/
structure RustView where
  /-- The package of the schema. -/
  source : Bytes
  /-- The crate that generated code calls. -/
  runtime : Bytes
  messages : List RustView.Message
  services : List RustView.Service
deriving DecidableEq, Repr

namespace RustView

open Bindings

/-- The name of a method on the wire. -/
def Service.wire (s : Service) (m : Method) : Bytes := s.name ++ "." ++ m.label

/-- The types that a service declares. -/
def declaredNames (name : Bytes) (client server : Bool) : List Bytes :=
  [name] ++ (if server then [name ++ "Receiver"] else [])
    ++ (if client then [name ++ "Sender"] else [])

/-! ## §3 Types -/

/-- The Rust type of a built-in type. -/
def scalarType : Scalar → Bytes
  | .bool => "bool"
  | .int8 => "i8"
  | .int16 => "i16"
  | .int32 => "i32"
  | .int64 => "i64"
  | .uint8 => "u8"
  | .uint16 => "u16"
  | .uint32 => "u32"
  | .uint64 => "u64"
  | .float32 => "f32"
  | .float64 => "f64"
  | .string => "String"
  | .bytes => "Vec<u8>"

/-- The Rust type of an owned value. -/
def typeName (s : Schema) (entity : Bytes) (t : Ty) : Except BindingError Bytes :=
  let unmappable := .error ⟨target, entity, .unmappable t.name⟩
  match t with
  | .scalar k => .ok (scalarType k)
  | .message m => if (s.message? m).isSome then .ok (Naming.pascal m) else unmappable
  | .unassigned _ => unmappable

/-- The type of a parameter, given the owned type: what is not of fixed size is passed by
reference. -/
def parameterType (owned : Bytes) : Ty → Bytes
  | .scalar .string => "&str"
  | .scalar .bytes => "&[u8]"
  | .message _ => "&" ++ owned
  | _ => owned

/-- The type of a parameter. -/
def argType (s : Schema) (entity : Bytes) (t : Ty) : Except BindingError Bytes := do
  return parameterType (← typeName s entity t) t

/-- The path of the bindings of a schema. -/
def fileName (s : Schema) : Bytes :=
  if s.package.isEmpty then "schema.rs"
  else Naming.snake (s.package.map fun c => if c == 0x2E then 0x5F else c) ++ ".rs"

/-- The crate that generated code calls unless another one is asked for. -/
def defaultRuntime : Bytes := "frodobuf"

/-- The crate that generated code calls. -/
def runtimeOf (o : Options) : Except BindingError Bytes :=
  match o.get? "runtime" with
  | some name =>
    if name.isEmpty || name.any (fun c => c == 0x20 || c == 0x2D || c == 0x2E) then
      .error ⟨target, "runtime", .option "not a crate name"⟩
    else .ok name
  | none => .ok defaultRuntime

/-! ## §4 From a schema to its view -/

/-- What the encoding has to know about a field that is called `name` in the struct. -/
def serdeOf (f : Idl.Field) (name : Bytes) : List Bytes :=
  let octets := f.type == .scalar .bytes
  (if Bytes.trimStart name rawMark != f.name then ["rename = \"" ++ f.name ++ "\""] else [])
    ++ (if octets then [("with = \"serde_bytes\"" : Bytes)] else [])
    ++ (if octets && f.optional then [("default" : Bytes)] else [])
    ++ (if f.optional then [("skip_serializing_if = \"Option::is_none\"" : Bytes)] else [])
    ++ (if !octets && f.optional then [("default" : Bytes)] else [])

/-- The view of a field. Messages are boxed, since they may hold each other. -/
def fieldView (s : Schema) (message : Bytes) (f : Idl.Field) : Claiming Field := do
  let entity := message ++ "." ++ f.name
  let snake := Naming.snake f.name
  claim target entity snake
  let type ← typeName s entity f.type
  let held := if f.type.isMessage then "Box<" ++ type ++ ">" else type
  let name := ident snake
  return {
    name, docs := f.docs, serde := serdeOf f name
    type := if f.optional then "Option<" ++ held ++ ">" else held }

/-- The view of a message. -/
def messageView (s : Schema) (m : Idl.Message) : Claiming Message := do
  let name := Naming.pascal m.name
  claim target m.name name
  let fields ← inNewScope [] (m.fields.mapM (fieldView s m.name))
  return { name, fields, docs := m.docs }

/-- The view of an argument. -/
def paramView (s : Schema) (entity : Bytes) (t : Option Ty) :
    Except BindingError (Option Param) :=
  match t with
  | none => .ok none
  | some t => do
    let type ← typeName s entity t
    let declared := parameterType type t
    return some ⟨type, declared, declared.head? == some 0x26⟩

/-- The view of a method. -/
def methodView (s : Schema) (service : Bytes) (m : Idl.Method) : Claiming Method := do
  let entity := service ++ "." ++ m.name
  let label := Naming.pascal m.name
  claim target entity label
  let input ← paramView s entity m.input
  let output ← match m.output with
    | none => pure none
    | some t => some <$> (typeName s entity t : Except BindingError Bytes)
  return { label, input, output, docs := m.docs, function := ident (Naming.snake m.name) }

/-- The views of services. Their modules have a scope of their own. -/
def serviceViews (s : Schema) (modules : Scope) : List Idl.Service → Claiming (List Service)
  | [] => return []
  | v :: r => do
    let name := Naming.pascal v.name
    let module := Naming.snake v.name
    (declaredNames name v.client v.server).forM (claim target v.name)
    let modules ← modules.claim target v.name module
    let methods ← inNewScope [] (v.methods.mapM (methodView s v.name))
    let view := {
      name, methods, docs := v.docs, id := v.id.text, canonical := v.canonical
      module := ident module, client := v.client, server := v.server }
    return view :: (← serviceViews s modules r)

/-- The view of a schema. -/
def ofSchema (s : Schema) (o : Options) : Except BindingError RustView := do
  let runtime ← runtimeOf o
  inNewScope [] do
    let messages ← s.messages.mapM (messageView s)
    let services ← serviceViews s [] s.services
    return { runtime, messages, services, source := s.package }

end RustView

end Idl
