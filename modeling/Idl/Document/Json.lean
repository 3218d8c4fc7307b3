import Idl.Document.Schema
import Idl.Json.Read
import Idl.Json.Shape

/-!
# Documents as JSON

Members stand in a fixed order, and most of those that are empty are left out. Reading accepts the
members in any order and refuses others.
-/

namespace Idl.Document

open Json (member)

/-! ## §1 Writing -/

/-- A text member that is left out if the text is empty. -/
def textMember (key t : Bytes) : List (Bytes × Json) := if t.isEmpty then [] else [(key, .str t)]

/-- A list member that is left out if the list is empty. -/
def listMember (key : Bytes) (l : List Json) : List (Bytes × Json) :=
  if l.isEmpty then [] else [(key, .arr l)]

/-- A value that may be missing. -/
def orNull {α : Type} (f : α → Json) (a : Option α) : Json := (a.map f).getD .null

/-- The JSON of a constant. -/
def Value.toJson (v : Value) : Json :=
  .obj [member "kind" (.str v.kind), member "text" (.str v.text)]

/-- The JSON of a named constant. -/
def Pair.toJson (p : Pair) : Json :=
  .obj [member "key" (.str p.key), member "value" (orNull Value.toJson p.value)]

/-- The JSON of an annotation. -/
def Annot.toJson (a : Annot) : Json :=
  let value := match a.value with
    | some v => [member "value" v.toJson]
    | none => []
  .obj (member "name" (.str a.name) :: value
    ++ listMember "pairs" (a.pairs.map (orNull Pair.toJson)))

/-- The member with annotations. -/
def annotsMember (l : List (Option Annot)) : List (Bytes × Json) :=
  listMember "annotations" (l.map (orNull Annot.toJson))

/-- The member with documentation. -/
def docsMember (l : List Bytes) : List (Bytes × Json) := listMember "docs" (l.map .str)

/-- The JSON of a type. -/
def TypeName.toJson (t : TypeName) : Json :=
  .obj (textMember "scalar" t.scalar ++ textMember "message" t.message)

/-- The JSON of a field. -/
def Field.toJson (f : Field) : Json :=
  let optional := if f.optional then [member "optional" (.bool true)] else []
  .obj ([member "name" (.str f.name), member "type" (orNull TypeName.toJson f.type)] ++ optional
    ++ [member "number" (.nat f.number)] ++ docsMember f.docs ++ annotsMember f.annots
    ++ textMember "source" f.source)

/-- The JSON of a message. -/
def Message.toJson (m : Message) : Json :=
  .obj (member "name" (.str m.name) :: docsMember m.docs ++ annotsMember m.annots
    ++ textMember "source" m.source
    ++ [member "fields" (.arr (m.fields.map (orNull Field.toJson)))])

/-- The JSON of a method. -/
def Method.toJson (m : Method) : Json :=
  .obj ([member "name" (.str m.name), member "input" (orNull TypeName.toJson m.input),
    member "output" (orNull TypeName.toJson m.output)]
    ++ docsMember m.docs ++ annotsMember m.annots ++ textMember "source" m.source)

/-- The JSON of a service. -/
def Service.toJson (s : Service) : Json :=
  .obj (member "name" (.str s.name) :: textMember "id" s.id ++ docsMember s.docs
    ++ annotsMember s.annots ++ textMember "source" s.source
    ++ [member "client" (.bool s.client), member "server" (.bool s.server),
      member "methods" (.arr (s.methods.map (orNull Method.toJson)))])

/-- The JSON of a document. -/
def toJson (d : Document) : Json :=
  .obj (member "package" (.str d.package) :: textMember "id" d.id
    ++ textMember "parser_version" d.parserVersion ++ textMember "source_path" d.sourcePath
    ++ annotsMember d.annots
    ++ [member "messages" (.arr (d.messages.map (orNull Message.toJson))),
      member "services" (.arr (d.services.map (orNull Service.toJson)))])

/-! ## §2 Shapes -/

namespace Shape

open Json.Shape

/-- A member and its shape. -/
def field (name : Bytes) (shape : Json.Shape) : Bytes × Json.Shape := (name, shape)

/-- The shape of a constant. -/
def value (strict : Bool) : Json.Shape := .record strict [field "kind" .text, field "text" .text]

/-- The shape of a named constant. -/
def pair (strict : Bool) : Json.Shape :=
  .record strict [field "key" .text, field "value" (value strict)]

/-- The shape of a list of annotations. -/
def annots (strict : Bool) : Json.Shape :=
  .list (.record strict
    [field "name" .text, field "value" (value strict), field "pairs" (.list (pair strict))])

/-- The shape of a type. -/
def type (strict : Bool) : Json.Shape :=
  .record strict [field "scalar" .text, field "message" .text]

/-- The members that all entities have. -/
def entity (strict : Bool) : List (Bytes × Json.Shape) :=
  [field "name" .text, field "docs" (.list .text), field "annotations" (annots strict),
   field "source" .text]

/-- The shape of a message. -/
def message (strict : Bool) : Json.Shape :=
  .record strict (entity strict ++ [field "fields" (.list (.record strict (entity strict ++
    [field "type" (type strict), field "optional" .bool, field "number" (.whole 0 (2 ^ 32))])))])

/-- The shape of a service. -/
def service (strict : Bool) : Json.Shape :=
  .record strict (entity strict ++ [field "id" .text, field "client" .bool, field "server" .bool,
    field "methods" (.list (.record strict (entity strict ++
      [field "input" (type strict), field "output" (type strict)])))])

/-- The shape of a document; other members are refused if `strict` holds. -/
def document (strict : Bool) : Json.Shape :=
  .record strict [field "package" .text, field "id" .text, field "parser_version" .text,
    field "source_path" .text, field "annotations" (annots strict),
    field "messages" (.list (message strict)), field "services" (.list (service strict))]

end Shape

/-! ## §3 Reading -/

/-- The constant in a settled value. -/
def Value.ofJson (v : Json) : Value := ⟨(v.get "kind").asText, (v.get "text").asText⟩

/-- The named constant in a settled value. -/
def Pair.ofJson (v : Json) : Pair :=
  ⟨(v.get "key").asText, (v.get "value").asOption.map Value.ofJson⟩

/-- The entries of a list, a null being a missing one. -/
def entriesOfJson {α : Type} (f : Json → α) (v : Json) : List (Option α) :=
  v.asList.map fun v => v.asOption.map f

/-- The annotation in a settled value. -/
def Annot.ofJson (v : Json) : Annot :=
  ⟨(v.get "name").asText, (v.get "value").asOption.map Value.ofJson,
    entriesOfJson Pair.ofJson (v.get "pairs")⟩

/-- The type in a settled value. -/
def TypeName.ofJson (v : Json) : TypeName := ⟨(v.get "scalar").asText, (v.get "message").asText⟩

/-- The texts in a settled list. -/
def textsOfJson (v : Json) : List Bytes := v.asList.map Json.asText

/-- The field in a settled value. -/
def Field.ofJson (v : Json) : Field where
  name := (v.get "name").asText
  type := (v.get "type").asOption.map TypeName.ofJson
  optional := (v.get "optional").asBool
  number := (v.get "number").asNat
  docs := textsOfJson (v.get "docs")
  annots := entriesOfJson Annot.ofJson (v.get "annotations")
  source := (v.get "source").asText

/-- The message in a settled value. -/
def Message.ofJson (v : Json) : Message where
  name := (v.get "name").asText
  docs := textsOfJson (v.get "docs")
  annots := entriesOfJson Annot.ofJson (v.get "annotations")
  source := (v.get "source").asText
  fields := entriesOfJson Field.ofJson (v.get "fields")

/-- The method in a settled value. -/
def Method.ofJson (v : Json) : Method where
  name := (v.get "name").asText
  input := (v.get "input").asOption.map TypeName.ofJson
  output := (v.get "output").asOption.map TypeName.ofJson
  docs := textsOfJson (v.get "docs")
  annots := entriesOfJson Annot.ofJson (v.get "annotations")
  source := (v.get "source").asText

/-- The service in a settled value. -/
def Service.ofJson (v : Json) : Service where
  name := (v.get "name").asText
  id := (v.get "id").asText
  docs := textsOfJson (v.get "docs")
  annots := entriesOfJson Annot.ofJson (v.get "annotations")
  source := (v.get "source").asText
  client := (v.get "client").asBool
  server := (v.get "server").asBool
  methods := entriesOfJson Method.ofJson (v.get "methods")

/-- The document in a settled value. -/
def ofJson (v : Json) : Document where
  package := (v.get "package").asText
  id := (v.get "id").asText
  parserVersion := (v.get "parser_version").asText
  sourcePath := (v.get "source_path").asText
  annots := entriesOfJson Annot.ofJson (v.get "annotations")
  messages := entriesOfJson Message.ofJson (v.get "messages")
  services := entriesOfJson Service.ofJson (v.get "services")

/-! ## §4 Texts -/

/-- Why a text is not a schema. -/
inductive ReadError where
  /-- The text is not well formed. -/
  | malformed
  /-- A value is not of the type that its place asks for. -/
  | mismatch
  | unknownMember (name : Bytes)
  | fault (f : Fault)
deriving DecidableEq, Repr

/-- The message for a text that is not a schema, where it is our own. -/
def ReadError.message : ReadError → Bytes
  | .malformed => "midljson: invalid document: malformed"
  | .mismatch => "midljson: invalid document: type mismatch"
  | .unknownMember name => "midljson: invalid document: json: unknown field " ++ quote name
  | .fault f => f.message

/-- The document in a JSON text. What follows the first value is ignored. -/
def readJson (text : Bytes) : Except ReadError Document :=
  match Json.readFirst? text with
  | none => .error .malformed
  | some v =>
    match Json.conform (Shape.document true) v with
    | .error .mismatch => .error .mismatch
    | .error (.unknownMember name) => .error (.unknownMember name)
    | .ok v => .ok (ofJson v)

end Document

namespace Schema

/-- The compact JSON text of a schema. -/
def toJsonText (s : Schema) : Bytes := (Document.ofSchema s).toJson.compact

/-- The indented JSON text of a schema. -/
def toPrettyJsonText (s : Schema) : Bytes := (Document.ofSchema s).toJson.indented false 0 ++ "\n"

/-- Reads a schema from a JSON text. -/
def ofJsonText (text : Bytes) : Except Document.ReadError Schema := do
  let d ← Document.readJson text
  d.toSchema.mapError .fault

end Schema

end Idl
