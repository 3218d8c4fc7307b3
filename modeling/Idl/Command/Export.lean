import Idl.Command.Diagnostics
import Idl.Document.Yaml
import Idl.Listing
import Idl.Proto.Source
import Idl.Proto.Wire
import Idl.Text.Rows

/-!
# Exports and descriptions

A schema can be written in several formats. The format is asked for by name, or follows from the
extension of the output file. A description gives the package and the identifier of a schema, and
tables of its services, methods and, if wanted, fields.

* §1 export formats, §2 descriptions.
-/

namespace Idl.Command

/-! ## §1 Export formats -/

/-- The formats in which a schema can be written. -/
inductive ExportFormat where
  | json
  | yaml
  | text
  | proto
  | descriptor
deriving DecidableEq, Repr

namespace ExportFormat

/-- The name of a format. -/
def name : ExportFormat → Bytes
  | .json => "json"
  | .yaml => "yaml"
  | .text => "text"
  | .proto => "proto"
  | .descriptor => "descriptor"

/-- The names by which formats are asked for. -/
def names : List (Bytes × ExportFormat) :=
  [("json", .json), ("schema", .json), ("yaml", .yaml), ("yml", .yaml), ("text", .text),
   ("txt", .text), ("midltext", .text), ("proto", .proto), ("descriptor", .descriptor),
   ("pb", .descriptor), ("binpb", .descriptor)]

/-- The extensions of files that have a format of their own. -/
def extensions : List (Bytes × ExportFormat) :=
  [(".yaml", .yaml), (".yml", .yaml), (".txt", .text), (".proto", .proto), (".pb", .descriptor),
   (".binpb", .descriptor), (".desc", .descriptor)]

/-- The format of a name, or of a path if there is no name. -/
def choose (name path : Bytes) : Except Failure ExportFormat :=
  if name.isEmpty then .ok ((extensions.lookup (Text.lower (Files.extension path))).getD .json)
  else match names.lookup (Text.lower name) with
    | some f => .ok f
    | none => .error (.format name)

/-- A schema in a format. -/
def write (f : ExportFormat) (pretty : Bool) (s : Schema) : Except Failure Bytes :=
  match f with
  | .json => .ok (if pretty then s.toPrettyJsonText else s.toJsonText ++ "\n")
  | .yaml => .ok s.toYamlText
  | .text => .ok (s.listing ⟨false, false⟩)
  | .proto => match s.toProto? with
    | some p => .ok p.source
    | none => .error (.inexpressible f.name)
  | .descriptor => match s.toProto?.bind (·.encodeSet?) with
    | some b => .ok b
    | none => .error (.inexpressible f.name)

end ExportFormat

end Idl.Command

namespace Idl.Schema

/-! ## §2 Descriptions -/

/-- The word for a truth value. -/
def truth (b : Bool) : Bytes := if b then "true" else "false"

/-- The table of services. -/
def serviceTable (s : Schema) : Bytes :=
  Table.render ["service", "id", "client", "server"]
    (s.services.map fun v => [v.name, v.id.text, truth v.client, truth v.server])

/-- The table of methods. -/
def methodTable (s : Schema) : Bytes :=
  Table.render ["service", "method", "input", "output"]
    (s.services.flatMap fun v => v.methods.map fun m =>
      [v.name, m.name, Ty.nameOrVoid m.input, Ty.nameOrVoid m.output])

/-- The table of fields. -/
def fieldTable (s : Schema) : Bytes :=
  Table.render ["message", "field", "number", "type", "optional"]
    (s.messages.flatMap fun m => m.fields.map fun f =>
      [m.name, f.name, Bytes.ofNat f.number, f.type.name, truth f.optional])

/-- The description of a schema. -/
def describe (s : Schema) (fields : Bool) : Bytes :=
  let services : Bytes := if s.services.isEmpty then []
    else "\n" ++ s.serviceTable ++ "\n" ++ s.methodTable
  let messages : Bytes := if fields && !s.messages.isEmpty then "\n" ++ s.fieldTable else []
  "package:   " ++ s.package ++ "\nschema id: " ++ s.id.text ++ "\n" ++ services ++ messages

end Idl.Schema
