import Idl.Json
import Idl.Schema

/-!
# The canonical encoding

The identity of a schema is the digest of a compact JSON text with a fixed order of keys. The order
of declarations counts; the order of the named values of one annotation does not, and neither does
anything that says where or how a schema came about.
-/

namespace Idl

namespace Canonical

open Json (member)

/-- A member with a list that is left out if the list is empty. -/
def listMember (key : Bytes) (items : List Json) : List (Bytes × Json) :=
  if items.isEmpty then [] else [(key, .arr items)]

/-- A constant, with its kind beside it so that the text `1` and the number 1 differ. -/
def value (v : Value) : Json := .arr [.str v.kindName, .str v.payload]

/-- The named values of an annotation in ascending order of their keys. -/
def sortedPairs (l : List Pair) : List Pair := l.mergeSort fun p q => Bytes.le p.key q.key

/-- An annotation. -/
def annot (a : Annot) : Json :=
  let single := match a.value with
    | some v => [member "value" (value v)]
    | none => []
  let pairs := (sortedPairs a.pairs).map fun p => Json.arr [.str p.key, value p.value]
  .obj (member "name" (.str a.name) :: single ++ listMember "pairs" pairs)

/-- The annotations that count: all but those that say where something was declared. -/
def annots (l : List Annot) : List (Bytes × Json) :=
  listMember "annotations" ((l.filter (·.name != Annot.sourceName)).map annot)

/-- The documentation. -/
def docs (l : List Bytes) : List (Bytes × Json) := listMember "docs" (l.map .str)

/-- A type. -/
def type : Ty → Json
  | .message name => .obj [member "message" (.str name)]
  | t => .str t.kindName

/-- A type that may be missing. -/
def type? (t : Option Ty) : Json := (t.map type).getD .null

/-- A field. -/
def field (f : Field) : Json :=
  .obj ([member "name" (.str f.name), member "type" (type f.type),
    member "optional" (.bool f.optional), member "number" (.nat f.number)]
    ++ docs f.docs ++ annots f.annots)

/-- A message. -/
def message (m : Message) : Json :=
  .obj (member "name" (.str m.name) :: docs m.docs ++ annots m.annots
    ++ [member "fields" (.arr (m.fields.map field))])

/-- A method. -/
def method (m : Method) : Json :=
  .obj ([member "name" (.str m.name), member "input" (type? m.input),
    member "output" (type? m.output)]
    ++ docs m.docs ++ annots m.annots)

/-- A service. -/
def service (s : Service) : Json :=
  .obj (member "name" (.str s.name) :: docs s.docs ++ annots s.annots
    ++ [member "methods" (.arr (s.methods.map method))])

/-- The members that every service depends on: the package, the options and the messages. -/
def typeMembers (s : Schema) : List (Bytes × Json) :=
  member "package" (.str s.package) :: annots s.annots
    ++ [member "messages" (.arr (s.messages.map message))]

end Canonical

namespace Service

/-- The canonical encoding of a service. -/
def encoding (s : Service) : Bytes := (Canonical.service s).compact

end Service

namespace Schema

/-- The canonical encoding of what every service depends on. -/
def typesEncoding (s : Schema) : Bytes := (Json.obj (Canonical.typeMembers s)).compact

/-- The canonical encoding of a schema. -/
def encoding (s : Schema) : Bytes :=
  (Json.obj (Canonical.typeMembers s
    ++ [Json.member "services" (.arr (s.services.map Canonical.service))])).compact

/-- The identity of a schema. -/
def identity (s : Schema) : Identifier := .digest s.encoding

/-- The identity of a service: of its own encoding and of all types. -/
def serviceIdentity (s : Schema) (svc : Service) : Identifier :=
  .digest (svc.encoding ++ (Identifier.digest s.typesEncoding).octets)

/-- Fills in the identities of the schema and its services. -/
def identify (s : Schema) : Schema :=
  let types := (Identifier.digest s.typesEncoding).octets
  let fill (svc : Service) : Service :=
    let encoding := svc.encoding
    { svc with canonical := encoding, id := .digest (encoding ++ types) }
  { s with services := s.services.map fill, id := s.identity }

end Schema

end Idl
