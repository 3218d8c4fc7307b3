import Idl.Schema

/-!
# Protobuf descriptors

A schema lowered to the descriptor of one protobuf file. Types without an equivalent are widened; a
method that takes or gives a plain value uses its wrapper, and a missing type is the empty message.
One walk over the entities lowers them all: it notes comments and needed files as it comes to them,
and fills the groups of optional fields into a message that already has all of its fields.

What the protobuf language asks of a file is names that are identifiers and distinct in their scope,
field numbers in range, and types that are defined.

* §1 descriptors, §2 types, §3 documentation, §4 lowering, §5 lowering in one walk,
* §6 well-formed descriptors.
-/

namespace Idl.Proto

/-! ## §1 Descriptors -/

/-- The plain types of fields that lowering uses. -/
inductive Kind where
  | double
  | float
  | int64
  | uint64
  | int32
  | bool
  | string
  | bytes
  | uint32
deriving DecidableEq, Repr

/-- The type of a field. -/
inductive FieldType where
  | plain (k : Kind)
  /-- A message by its full name, with a leading point. -/
  | message (name : Bytes)
  /-- A type that has no equivalent. -/
  | unknown
deriving DecidableEq, Repr

/-- A field of a message. -/
structure Field where
  name : Bytes
  number : Nat
  type : FieldType
  jsonName : Bytes
  /-- The group that records whether an optional field is set. -/
  oneof : Option Nat
deriving DecidableEq, Repr

/-- A message. -/
structure Message where
  name : Bytes
  fields : List Field
  /-- The names of the groups of optional fields. -/
  oneofs : List Bytes
deriving DecidableEq, Repr

/-- A method, with the full names of its messages. -/
structure Method where
  name : Bytes
  input : Bytes
  output : Bytes
deriving DecidableEq, Repr

/-- A service. -/
structure Service where
  name : Bytes
  methods : List Method
deriving DecidableEq, Repr

/-- A comment in front of the part of the file that a path leads to. -/
structure Location where
  path : List Nat
  comment : Bytes
deriving DecidableEq, Repr

/-- A file. -/
structure File where
  name : Bytes
  package : Bytes
  dependencies : List Bytes
  messages : List Message
  services : List Service
  goPackage : Option Bytes
  locations : List Location
deriving DecidableEq, Repr

/-! ## §2 Types -/

/-- The file with the empty message. -/
def emptyFile : Bytes := "google/protobuf/empty.proto"

/-- The file with the wrappers of plain values. -/
def wrappersFile : Bytes := "google/protobuf/wrappers.proto"

/-- The full name of the empty message. -/
def emptyName : Bytes := ".google.protobuf.Empty"

/-- The plain type of a built-in type: small integers are widened to 32 bits. -/
def kindOf : Scalar → Kind
  | .bool => .bool
  | .int8 | .int16 | .int32 => .int32
  | .int64 => .int64
  | .uint8 | .uint16 | .uint32 => .uint32
  | .uint64 => .uint64
  | .float32 => .float
  | .float64 => .double
  | .string => .string
  | .bytes => .bytes

/-- The wrapper of a plain type, without the package. -/
def Kind.wrapper : Kind → Bytes
  | .double => "DoubleValue"
  | .float => "FloatValue"
  | .int64 => "Int64Value"
  | .uint64 => "UInt64Value"
  | .int32 => "Int32Value"
  | .uint32 => "UInt32Value"
  | .bool => "BoolValue"
  | .string => "StringValue"
  | .bytes => "BytesValue"

/-- The full name of the wrapper of a plain type. -/
def Kind.wrapperName (k : Kind) : Bytes := ".google.protobuf." ++ k.wrapper

/-- The name of the file of a schema: its package with slashes in place of points. -/
def fileName (s : Schema) : Bytes :=
  if s.package.isEmpty then "schema.proto"
  else s.package.map (fun c => if c == 0x2E then 0x2F else c) ++ ".proto"

/-- The full name of something in a package. -/
def fullName (package name : Bytes) : Bytes :=
  if package.isEmpty then "." ++ name else "." ++ package ++ "." ++ name

/-- The name of a field in JSON: underscores are dropped, and the letter after one is a capital. -/
def jsonName (name : Bytes) : Bytes :=
  let step : List Char × Bool → Char → List Char × Bool := fun (acc, up) c =>
    if c == '_' then (acc, true)
    else
      let capital := if up && 'a' ≤ c && c ≤ 'z' then Char.ofNat (c.toNat - 0x20) else c
      (capital :: acc, false)
  Utf8.ofChars ((Utf8.chars name).foldl step ([], false)).1.reverse

/-! ## §3 Documentation -/

/-- The numbers by which paths name the parts of a file. -/
def messagePath (i : Nat) : List Nat := [4, i]

/-- The path of a field. -/
def fieldPath (i j : Nat) : List Nat := messagePath i ++ [2, j]

/-- The path of a service. -/
def servicePath (i : Nat) : List Nat := [6, i]

/-- The path of a method. -/
def methodPath (i j : Nat) : List Nat := servicePath i ++ [2, j]

/-- The comment of documented entities: a line for each text. -/
def locationsOf (docs : List Bytes) (path : List Nat) : List Location :=
  if docs.isEmpty then [] else [⟨path, docs.flatMap fun d => " " ++ d ++ "\n"⟩]

/-! ## §4 Lowering -/

/-- The type of a field. -/
def lowerType (package : Bytes) : Ty → FieldType
  | .scalar k => .plain (kindOf k)
  | .message name => .message (fullName package name)
  | .unassigned _ => .unknown

/-- The field and the index of its group, given the number of groups before it. -/
def lowerField (package : Bytes) (groups : Nat) (f : Idl.Field) : Field where
  name := f.name
  number := f.number
  type := lowerType package f.type
  jsonName := jsonName f.name
  oneof := if f.optional then some groups else none

/-- The fields, with groups numbered in the order of the optional ones. -/
def lowerFields (package : Bytes) (groups : Nat) : List Idl.Field → List Field
  | [] => []
  | f :: r =>
    lowerField package groups f
      :: lowerFields package (if f.optional then groups + 1 else groups) r

/-- A message. -/
def lowerMessage (package : Bytes) (m : Idl.Message) : Message where
  name := m.name
  fields := lowerFields package 0 m.fields
  oneofs := (m.fields.filter (·.optional)).map fun f => "_" ++ f.name

/-- The message that a method takes or gives. -/
def methodType (package : Bytes) : Option Ty → Bytes
  | none => emptyName
  | some (.message name) => fullName package name
  | some (.scalar k) => (kindOf k).wrapperName
  | some (.unassigned _) => "."

/-- A service. -/
def lowerService (package : Bytes) (s : Idl.Service) : Service where
  name := s.name
  methods := s.methods.map fun m =>
    ⟨m.name, methodType package m.input, methodType package m.output⟩

/-- The types of all methods. -/
def methodTypes (s : Schema) : List (Option Ty) :=
  s.services.flatMap fun v => v.methods.flatMap fun m => [m.input, m.output]

/-- The files that a schema needs, in order. -/
def dependenciesOf (s : Schema) : List Bytes :=
  let types := methodTypes s
  let needsWrapper : Option Ty → Bool
    | none => false
    | some t => !t.isMessage
  (if types.any (·.isNone) then [emptyFile] else [])
    ++ (if types.any needsWrapper then [wrappersFile] else [])

/-- The comments of messages and their fields. -/
def messageLocations (i : Nat) (m : Idl.Message) : List Location :=
  locationsOf m.docs (messagePath i)
    ++ (m.fields.mapIdx fun j f => locationsOf f.docs (fieldPath i j)).flatten

/-- The comments of services and their methods. -/
def serviceLocations (i : Nat) (s : Idl.Service) : List Location :=
  locationsOf s.docs (servicePath i)
    ++ (s.methods.mapIdx fun j m => locationsOf m.docs (methodPath i j)).flatten

/-- The file of a schema. -/
def File.ofSchema (s : Schema) : File where
  name := fileName s
  package := s.package
  dependencies := dependenciesOf s
  messages := s.messages.map (lowerMessage s.package)
  services := s.services.map (lowerService s.package)
  goPackage := match s.option? "go_package" with
    | some (.text t) => some t
    | _ => none
  locations := (s.messages.mapIdx messageLocations).flatten
    ++ (s.services.mapIdx serviceLocations).flatten

/-! ## §5 Lowering in one walk -/

/-- What a walk has noted so far. -/
structure Notes where
  /-- The files that are needed, in order. -/
  dependencies : List Bytes
  locations : List Location

namespace Notes

/-- A file is needed. -/
def depend (n : Notes) (file : Bytes) : Notes :=
  if n.dependencies.contains file then n
  else { n with dependencies := (n.dependencies ++ [file]).mergeSort Bytes.le }

/-- The entity at a path has documentation, or none. -/
def document (n : Notes) (docs : List Bytes) (path : List Nat) : Notes :=
  if docs.isEmpty then n
  else { n with locations := n.locations ++ [⟨path, docs.flatMap fun d => " " ++ d ++ "\n"⟩] }

end Notes

section Walk

variable (package : Bytes)

/-- The message that a method takes or gives, and the file that it needs. -/
def walkType (n : Notes) : Option Ty → Bytes × Notes
  | none => (emptyName, n.depend emptyFile)
  | some (.message name) => (fullName package name, n)
  | some (.scalar k) => ((kindOf k).wrapperName, n.depend wrappersFile)
  | some (.unassigned _) => (".", n.depend wrappersFile)

/-- The methods of the service at a place, from one of them on. -/
def walkMethods (i j : Nat) (n : Notes) : List Idl.Method → List Method × Notes
  | [] => ([], n)
  | m :: r =>
    let (input, n) := walkType package (n.document m.docs (methodPath i j)) m.input
    let (output, n) := walkType package n m.output
    let (methods, n) := walkMethods i (j + 1) n r
    (⟨m.name, input, output⟩ :: methods, n)

/-- The services, from one of them on. -/
def walkServices (i : Nat) (n : Notes) : List Idl.Service → List Service × Notes
  | [] => ([], n)
  | s :: r =>
    let (methods, n) := walkMethods package i 0 (n.document s.docs (servicePath i)) s.methods
    let (services, n) := walkServices (i + 1) n r
    (⟨s.name, methods⟩ :: services, n)

/-- A field that is in no group. -/
def ungrouped (f : Idl.Field) : Field :=
  ⟨f.name, f.number, lowerType package f.type, jsonName f.name, none⟩

/-- The fields of the message at a place, from one of them on. -/
def walkFields (i j : Nat) (n : Notes) : List Idl.Field → List Field × Notes
  | [] => ([], n)
  | f :: r =>
    let (fields, n) := walkFields i (j + 1) (n.document f.docs (fieldPath i j)) r
    (ungrouped package f :: fields, n)

/-- The groups of the optional fields, from a field on: each is the next group of the message. -/
def Message.group (j : Nat) (out : Message) : List Idl.Field → Message
  | [] => out
  | f :: r =>
    let out := if f.optional then
        { out with
          fields := out.fields.modify j fun d => { d with oneof := some out.oneofs.length }
          oneofs := out.oneofs ++ ["_" ++ f.name] }
      else out
    out.group (j + 1) r

/-- The messages, from one of them on. -/
def walkMessages (i : Nat) (n : Notes) : List Idl.Message → List Message × Notes
  | [] => ([], n)
  | m :: r =>
    let (fields, n) := walkFields package i 0 (n.document m.docs (messagePath i)) m.fields
    let (messages, n) := walkMessages (i + 1) n r
    (Message.group 0 ⟨m.name, fields, []⟩ m.fields :: messages, n)

end Walk

/-- The file of a schema as a walk gives it. -/
def File.walk (s : Schema) : File :=
  let (messages, n) := walkMessages s.package 0 ⟨[], []⟩ s.messages
  let (services, n) := walkServices s.package 0 n s.services
  { name := fileName s
    package := s.package
    dependencies := n.dependencies
    messages
    services
    goPackage := match s.option? "go_package" with
      | some (.text t) => some t
      | _ => none
    locations := n.locations }

/-! ## §6 Well-formed descriptors -/

/-- Whether a text is an identifier. -/
def isIdentifier : Bytes → Bool
  | [] => false
  | c :: r => (Bytes.isLetter c || c == 0x5F) && r.all Bytes.isWord

/-- Whether a text is a sequence of identifiers with points between them. -/
def isPackage (t : Bytes) : Bool := (Bytes.split 0x2E t).all isIdentifier

/-- The form of a field's name that has to be distinct: small letters without underscores. -/
def foldedName (name : Bytes) : Bytes := (Bytes.toLower name).filter (· != 0x5F)

/-- The largest field number. -/
def maxNumber : Nat := 2 ^ 29 - 1

namespace File

/-- The full names of the messages of a file. -/
def messageNames (f : File) : List Bytes := f.messages.map fun m => fullName f.package m.name

/-- The messages of the files that a file depends on. -/
def importedNames (f : File) : List Bytes :=
  let wrappers : List Kind :=
    [.double, .float, .int64, .uint64, .int32, .uint32, .bool, .string, .bytes]
  (if f.dependencies.contains emptyFile then [emptyName] else [])
    ++ (if f.dependencies.contains wrappersFile then wrappers.map Kind.wrapperName else [])

/-- Whether a message of a name is defined. -/
def defines (f : File) (name : Bytes) : Bool :=
  f.messageNames.contains name || f.importedNames.contains name

/-- Whether a field is well formed by itself. -/
def fieldIsValid (f : File) (d : Field) : Bool :=
  isIdentifier d.name && 0 < d.number && d.number ≤ maxNumber && match d.type with
    | .plain _ => true
    | .message name => f.defines name
    | .unknown => false

/-- Whether a message is well formed. -/
def messageIsValid (f : File) (m : Message) : Bool :=
  isIdentifier m.name && m.fields.all f.fieldIsValid
    && decide (m.fields.map (·.name) ++ m.oneofs).Nodup
    && decide (m.fields.map (·.number)).Nodup
    && decide (m.fields.map fun d => foldedName d.name).Nodup

/-- Whether a service is well formed. -/
def serviceIsValid (f : File) (s : Service) : Bool :=
  isIdentifier s.name && decide (s.methods.map (·.name)).Nodup
    && s.methods.all fun m => isIdentifier m.name && f.defines m.input && f.defines m.output

/-- Whether a file is well formed. -/
def isValid (f : File) : Bool :=
  (f.package.isEmpty || isPackage f.package)
    && decide (f.messages.map (·.name) ++ f.services.map (·.name)).Nodup
    && f.messages.all f.messageIsValid && f.services.all f.serviceIsValid

end File

end Idl.Proto

namespace Idl.Schema

/-- The protobuf file of a schema, if there is one. -/
def toProto? (s : Schema) : Option Proto.File :=
  let f := Proto.File.ofSchema s
  if f.isValid then some f else none

end Idl.Schema
