import Idl.Document.Json
import Idl.Yaml.Decode
import Idl.Yaml.Write

/-!
# Documents as YAML

The members are those of the JSON form, in the same order and under the same names.
-/

namespace Idl

/-- The document in a YAML text. Only the first document of the text is read. -/
def Document.readYaml (text : Bytes) : Except Document.ReadError Document :=
  match Yaml.readAs (Shape.document true) text with
  | .error .malformed => .error .malformed
  | .error .mismatch => .error .mismatch
  | .ok v => .ok (ofJson v)

namespace Schema

/-- The YAML text of a schema. -/
def toYamlText (s : Schema) : Bytes := Yaml.write (Document.ofSchema s).toJson

/-- Reads a schema from a YAML text. -/
def ofYamlText (text : Bytes) : Except Document.ReadError Schema := do
  let d ← Document.readYaml text
  d.toSchema.mapError .fault

end Schema

end Idl
