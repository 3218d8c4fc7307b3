import Idl.Json.Read
import Idl.Json.Shape
import Idl.Rpc.Bson
import Idl.Text.Quote

/-!
# Encodings of values

Parameters and results are encoded either in a compact binary form or as JSON text.
-/

namespace Idl.Rpc

/-- An encoding. -/
inductive Codec where
  | bson
  | json
deriving DecidableEq, Repr

/-- Why an encoding fails. -/
inductive CodecError where
  | encode (codec : Codec)
  | decode (codec : Codec)
  /-- There is no value in the text. -/
  | notFound (codec : Codec)
deriving DecidableEq, Repr

namespace Codec

/-- The name of an encoding. -/
def name : Codec → Bytes
  | .bson => "bson"
  | .json => "json"

/-- The encoding of a name; the usual one has no name too. -/
def ofName? (n : Bytes) : Option Codec :=
  if n == "bson" || n.isEmpty then some .bson else if n == "json" then some .json else none

/-- The message for a name without an encoding. -/
def unknownMessage (n : Bytes) : Bytes := "rpc: unknown codec " ++ quote n

/-! ## §1 JSON -/

mutual

/-- The JSON of a value. Numbers that are not finite have none. -/
def toJson? : ValueType → Value → Option Json
  | .record fields, .record members => (membersToJson? fields members).map .obj
  | _, .bool b => some (.bool b)
  | _, .int n => some (.num (Bytes.ofInt n))
  | _, .float f bits =>
    match f.classify bits with
    | .finite .. => some (.num (FloatNotation.json.render (f.classify bits)))
    | _ => none
  | _, .text t => some (.str t)
  | _, .octets none => some .null
  | _, .octets (some b) => some (.str (Base64.encode b))
  | _, _ => none

/-- The members of a record; an optional one without a value is left out. -/
def membersToJson? :
    List (Bytes × Bool × ValueType) → List (Option Value) → Option (List (Bytes × Json))
  | (name, optional, t) :: fields, m :: members => do
    let rest ← membersToJson? fields members
    if optional && Value.isAbsent m then return rest
    match m with
    | some v => return (name, ← toJson? t v) :: rest
    | none => return (name, .null) :: rest
  | _, _ => some []

end

mutual

/-- The shape of the JSON of a type. -/
def shape : ValueType → Json.Shape
  | .bool => .bool
  | .int signed octets => .whole (ValueType.least signed octets) (ValueType.bound signed octets)
  | .float32 => .real .single
  | .float64 => .real .double
  | .text => .text
  | .octets => .octets
  | .record fields => .record false (fieldShapes fields)

/-- The shapes of the fields of a record. -/
def fieldShapes : List (Bytes × Bool × ValueType) → List (Bytes × Json.Shape)
  | [] => []
  | (name, _, t) :: r => (Json.foldName name, shape t) :: fieldShapes r

end

mutual

/-- The value in a settled JSON value; a null is the value where nothing is given. -/
def ofJson (t : ValueType) (j : Json) : Value :=
  match t with
  | .bool => .bool j.asBool
  | .int _ _ => .int j.asInt
  | .float32 => .float .single (j.asReal .single)
  | .float64 => .float .double (j.asReal .double)
  | .text => .text j.asText
  | .octets => .octets j.asOctets?
  | .record fields => .record (fieldsOfJson fields j)

/-- The members of a record in a settled JSON value. -/
def fieldsOfJson (fields : List (Bytes × Bool × ValueType)) (j : Json) : List (Option Value) :=
  match fields with
  | [] => []
  | (name, optional, t) :: r =>
    let member := j.get (Json.foldName name)
    let missing := optional && !Value.isOctets t && member.asOption.isNone
    (if missing then none else some (ofJson t member)) :: fieldsOfJson r j

end

/-! ## §2 Encoding and decoding -/

/-- The octets of a value. -/
def encode (c : Codec) (t : ValueType) (v : Value) : Except CodecError Bytes :=
  let octets := match c with
    | .bson => Bson.write? t v
    | .json => (toJson? t v).map Json.compact
  match octets with
  | some b => .ok b
  | none => .error (.encode c)

/-- The value that octets stand for. -/
def decode (c : Codec) (t : ValueType) (b : Bytes) : Except CodecError Value :=
  match c with
  | .bson =>
    match Bson.read t b with
    | .ok v => .ok v
    | .error .malformed => .error (.decode c)
    | .error .notFound => .error (.notFound c)
  | .json =>
    match (Json.readWhole? b).map (Json.conform (shape t)) with
    | some (.ok j) => .ok (ofJson t j)
    | _ => .error (.decode c)

end Codec

/-- What an encoding says of its failure. -/
def CodecError.message : CodecError → Bytes
  | .encode c => "rpc: " ++ c.name ++ " encode"
  | .decode c => "rpc: " ++ c.name ++ " decode"
  | .notFound c => "rpc: " ++ c.name ++ " decode: element not found"

end Idl.Rpc
