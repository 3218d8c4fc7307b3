import Idl.Proto

/-!
# Descriptors in the wire format

A message is a sequence of fields, each with a number, in the order of the numbers. Texts and
messages have their length in front of them; numbers are written seven bits at a time.
-/

namespace Idl.Proto

namespace Wire

/-- A number in groups of seven bits, the lowest first; all but the last are marked. -/
def varint (n : Nat) : Bytes :=
  if n < 128 then [n.toUInt8] else (n % 128 + 128).toUInt8 :: varint (n / 128)

/-- A field that is a number. -/
def number (field n : Nat) : Bytes := varint (field * 8) ++ varint n

/-- A field that is a text or a message. -/
def octets (field : Nat) (b : Bytes) : Bytes := varint (field * 8 + 2) ++ varint b.length ++ b

/-- A field that is a list of numbers. -/
def packed (field : Nat) (l : List Nat) : Bytes := octets field (l.flatMap varint)

/-- The number of a plain type. -/
def kind : Kind → Nat
  | .double => 1
  | .float => 2
  | .int64 => 3
  | .uint64 => 4
  | .int32 => 5
  | .bool => 8
  | .string => 9
  | .bytes => 12
  | .uint32 => 13

/-- The type of a field. -/
def type : FieldType → Bytes
  | .plain k => number 5 (kind k)
  | .message name => number 5 11 ++ octets 6 name
  | .unknown => number 5 0

/-- A field. -/
def field (f : Field) : Bytes :=
  let index := match f.oneof with
    | some i => number 9 i
    | none => []
  octets 1 f.name ++ number 3 f.number ++ number 4 1 ++ type f.type ++ index
    ++ octets 10 f.jsonName ++ (if f.oneof.isSome then number 17 1 else [])

/-- A message. -/
def message (m : Message) : Bytes :=
  octets 1 m.name ++ m.fields.flatMap (fun f => octets 2 (field f))
    ++ m.oneofs.flatMap fun n => octets 8 (octets 1 n)

/-- A service. -/
def service (s : Service) : Bytes :=
  octets 1 s.name ++ s.methods.flatMap fun m =>
    octets 2 (octets 1 m.name ++ octets 2 m.input ++ octets 3 m.output)

/-- A comment. All are placed at the start of the file. -/
def location (l : Location) : Bytes :=
  packed 1 l.path ++ packed 2 [0, 0, 0] ++ octets 3 l.comment

/-- A file. -/
def file (f : File) : Bytes :=
  let options := match f.goPackage with
    | some p => octets 8 (octets 11 p)
    | none => []
  let info := if f.locations.isEmpty then []
    else octets 9 (f.locations.flatMap fun l => octets 1 (location l))
  octets 1 f.name ++ (if f.package.isEmpty then [] else octets 2 f.package)
    ++ f.dependencies.flatMap (octets 3) ++ f.messages.flatMap (fun m => octets 4 (message m))
    ++ f.services.flatMap (fun s => octets 6 (service s)) ++ options ++ info
    ++ octets 12 "proto3"

/-! ## Files that others depend on -/

/-- The options that all of them have. -/
def standardOptions (javaName goName : Bytes) : Bytes :=
  octets 1 "com.google.protobuf" ++ octets 8 javaName ++ number 10 1 ++ octets 11 goName
    ++ number 31 1 ++ octets 36 "GPB" ++ octets 37 "Google.Protobuf.WellKnownTypes"

/-- A file with messages of the standard package. -/
def standardFile (name : Bytes) (messages : List Bytes) (options : Bytes) : Bytes :=
  octets 1 name ++ octets 2 "google.protobuf" ++ messages.flatMap (octets 4) ++ octets 8 options
    ++ octets 12 "proto3"

/-- The file with the empty message. -/
def emptyProto : Bytes :=
  standardFile emptyFile [octets 1 "Empty"]
    (standardOptions "EmptyProto" "google.golang.org/protobuf/types/known/emptypb")

/-- The file with the wrappers of plain values. -/
def wrappersProto : Bytes :=
  let wrapper (k : Kind) : Bytes :=
    octets 1 k.wrapper ++ octets 2 (field ⟨"value", 1, .plain k, "value", none⟩)
  standardFile wrappersFile
    (List.map wrapper [.double, .float, .int64, .uint64, .int32, .uint32, .bool, .string, .bytes])
    (standardOptions "WrappersProto" "google.golang.org/protobuf/types/known/wrapperspb")

/-- A file that others depend on. -/
def dependency (name : Bytes) : Bytes := if name == emptyFile then emptyProto else wrappersProto

end Wire

namespace File

/-- Whether all texts of a well-formed file are texts. -/
def isText (f : File) : Bool :=
  (f.goPackage.all Utf8.isValid) && f.locations.all fun l => Utf8.isValid l.comment

/-- The encoding of a file. -/
def encode? (f : File) : Option Bytes := if f.isText then some (Wire.file f) else none

/-- The encoding of a file together with those it depends on, which come first. -/
def encodeSet? (f : File) : Option Bytes := do
  let own ← f.encode?
  return f.dependencies.flatMap (fun d => Wire.octets 1 (Wire.dependency d)) ++ Wire.octets 1 own

end File

end Idl.Proto
