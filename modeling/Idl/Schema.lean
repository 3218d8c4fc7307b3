import Idl.Hash.Sha256
import Idl.Schema.Value
import Idl.Source
import Idl.Text.Base64

/-!
# Schemas

A schema is what a source means: messages and services with their documentation and annotations,
types resolved and fields numbered. Everything that exports or generates starts from here.

A schema and its services are known by identifiers. An identifier is a digest of 32 octets, and its
text is base64 without padding.

* §1 identifiers, §2 annotations, §3 messages and services, §4 schemas.
-/

namespace Idl

/-! ## §1 Identifiers -/

/-- A digest that identifies a schema or a service. -/
structure Identifier where
  octets : Bytes
  size : octets.length = 32
deriving DecidableEq, Repr

namespace Identifier

/-- The identifier of something that has not been identified. -/
def zero : Identifier := ⟨List.replicate 32 0, rfl⟩

instance : Inhabited Identifier := ⟨zero⟩

/-- The digest of an encoding. -/
def digest (encoding : Bytes) : Identifier := ⟨Sha256.hash encoding, Sha256.length_hash encoding⟩

/-- The text of an identifier. -/
def text (i : Identifier) : Bytes := Base64.encodeRaw i.octets

/-- The text of an identifier; empty for the one that stands for none. -/
def textOrEmpty (i : Identifier) : Bytes := if i = zero then [] else i.text

/-- Why a text is not an identifier. -/
inductive Fault where
  | illegal (offset : Nat)
  | wrongSize (octets : Nat)
deriving DecidableEq, Repr

/-- Reads the text of an identifier. -/
def ofText (t : Bytes) : Except Fault Identifier :=
  match Base64.decodeRaw t with
  | .error offset => .error (.illegal offset)
  | .ok octets =>
    if h : octets.length = 32 then .ok ⟨octets, h⟩ else .error (.wrongSize octets.length)

/-- The message for a text that is not an identifier. -/
def Fault.message (t : Bytes) (f : Fault) : Bytes :=
  "schema: invalid identifier " ++ quote t ++ ": " ++ match f with
    | .illegal offset => "illegal base64 data at input byte " ++ Bytes.ofNat offset
    | .wrongSize octets => "got " ++ Bytes.ofNat octets ++ " bytes, want 32"

end Identifier

/-! ## §2 Annotations -/

/-- A named value of an annotation. -/
structure Pair where
  key : Bytes
  value : Value
deriving DecidableEq, Repr

/-- An annotation: a name with nothing, one value, or named values. -/
structure Annot where
  name : Bytes
  value : Option Value := none
  pairs : List Pair := []
deriving DecidableEq, Repr

namespace Annot

/-- The name of annotations that document. -/
def docName : Bytes := "doc"

/-- The name of annotations that hold the options of a file. -/
def optionName : Bytes := "option"

/-- The name of annotations that give a default. -/
def defaultName : Bytes := "default"

/-- The name of annotations that steer code generation. -/
def codegenName : Bytes := "codegen"

/-- The name of annotations that say where something was declared. -/
def sourceName : Bytes := "_source"

/-- The first value under a key. -/
def get? (a : Annot) (key : Bytes) : Option Value :=
  (a.pairs.find? (·.key == key)).map (·.value)

/-- The annotation as it is written in a source. -/
def render (a : Annot) : Bytes :=
  "@" ++ a.name ++ match a.value with
    | some v => "(" ++ v.render ++ ")"
    | none =>
      if a.pairs.isEmpty then []
      else
        let item (p : Pair) : Bytes := p.key ++ " = " ++ p.value.render
        "(" ++ Bytes.join ", " (a.pairs.map item) ++ ")"

/-- The annotations of a name, in order. -/
def named (name : Bytes) (l : List Annot) : List Annot := l.filter (·.name == name)

end Annot

/-! ## §3 Messages and services -/

/-- A field of a message. -/
structure Field where
  name : Bytes
  type : Ty
  optional : Bool
  number : Nat
  docs : List Bytes
  annots : List Annot
  source : Pos
deriving DecidableEq, Repr

/-- A message. -/
structure Message where
  name : Bytes
  fields : List Field
  docs : List Bytes
  annots : List Annot
  source : Pos
deriving DecidableEq, Repr

namespace Message

/-- The first field of a name. -/
def field? (m : Message) (name : Bytes) : Option Field := m.fields.find? (·.name == name)

end Message

/-- A method of a service; a missing type means that nothing is taken or given back. -/
structure Method where
  name : Bytes
  input : Option Ty
  output : Option Ty
  docs : List Bytes
  annots : List Annot
  source : Pos
deriving DecidableEq, Repr

/-- A service. Its identifier and canonical encoding are filled in by `Schema.identify`. -/
structure Service where
  name : Bytes
  methods : List Method
  docs : List Bytes
  annots : List Annot
  source : Pos
  /-- Whether generated code includes a client. -/
  client : Bool
  /-- Whether generated code includes a server. -/
  server : Bool
  id : Identifier
  canonical : Bytes
deriving DecidableEq, Repr

namespace Service

/-- The first method of a name. -/
def method? (s : Service) (name : Bytes) : Option Method := s.methods.find? (·.name == name)

end Service

/-! ## §4 Schemas -/

/-- A schema. -/
structure Schema where
  package : Bytes
  messages : List Message
  services : List Service
  annots : List Annot
  /-- The version of the compiler that made the schema; no part of its identity. -/
  parserVersion : Bytes
  /-- The file that the schema was read from; no part of its identity. -/
  sourcePath : Bytes
  id : Identifier
deriving DecidableEq, Repr

namespace Schema

/-- A schema with nothing in it. -/
def empty : Schema := ⟨[], [], [], [], [], [], .zero⟩

/-- The first message of a name. -/
def message? (s : Schema) (name : Bytes) : Option Message := s.messages.find? (·.name == name)

/-- The first service of a name. -/
def service? (s : Schema) (name : Bytes) : Option Service := s.services.find? (·.name == name)

/-- The value of an option of the file. -/
def option? (s : Schema) (name : Bytes) : Option Value :=
  (Annot.named Annot.optionName s.annots).findSome? (·.get? name)

end Schema

end Idl
