import Idl.Schema

/-!
# Export documents

A document carries a schema in the common denominator of JSON and YAML: texts, truth values, numbers
and lists. Entries of lists may be missing, since a text can hold a null in their place.
-/

namespace Idl.Document

/-- A constant by the name of its kind and its payload as text. -/
structure Value where
  kind : Bytes
  text : Bytes
deriving DecidableEq, Repr

/-- A named constant. -/
structure Pair where
  key : Bytes
  value : Option Value
deriving DecidableEq, Repr

/-- An annotation. -/
structure Annot where
  name : Bytes
  value : Option Value
  pairs : List (Option Pair)
deriving DecidableEq, Repr

/-- A type: the name of a built-in type or of a message, the other one being empty. -/
structure TypeName where
  scalar : Bytes
  message : Bytes
deriving DecidableEq, Repr

/-- A field of a message. -/
structure Field where
  name : Bytes
  type : Option TypeName
  optional : Bool
  number : Nat
  docs : List Bytes
  annots : List (Option Annot)
  source : Bytes
deriving DecidableEq, Repr

/-- A message. -/
structure Message where
  name : Bytes
  docs : List Bytes
  annots : List (Option Annot)
  source : Bytes
  fields : List (Option Field)
deriving DecidableEq, Repr

/-- A method of a service. -/
structure Method where
  name : Bytes
  input : Option TypeName
  output : Option TypeName
  docs : List Bytes
  annots : List (Option Annot)
  source : Bytes
deriving DecidableEq, Repr

/-- A service. -/
structure Service where
  name : Bytes
  id : Bytes
  docs : List Bytes
  annots : List (Option Annot)
  source : Bytes
  client : Bool
  server : Bool
  methods : List (Option Method)
deriving DecidableEq, Repr

end Document

/-- A document. Identifiers are empty where none is recorded. -/
structure Document where
  package : Bytes
  id : Bytes
  parserVersion : Bytes
  sourcePath : Bytes
  annots : List (Option Document.Annot)
  messages : List (Option Document.Message)
  services : List (Option Document.Service)
deriving DecidableEq, Repr

/-! ## From a schema -/

namespace Document

/-- The document of a constant. -/
def Value.ofSchema (v : Idl.Value) : Value := ⟨v.kindName, v.payload⟩

/-- The document of a named constant. -/
def Pair.ofSchema (p : Idl.Pair) : Pair := ⟨p.key, some (.ofSchema p.value)⟩

/-- The document of an annotation. -/
def Annot.ofSchema (a : Idl.Annot) : Annot :=
  ⟨a.name, a.value.map .ofSchema, a.pairs.map fun p => some (.ofSchema p)⟩

/-- The document of a list of annotations. -/
def annotsOfSchema (l : List Idl.Annot) : List (Option Annot) := l.map fun a => some (.ofSchema a)

/-- The document of a type. -/
def TypeName.ofSchema : Ty → TypeName
  | .message name => ⟨[], name⟩
  | t => ⟨t.kindName, []⟩

/-- The document of a place; empty for an unknown one. -/
def placeOf (p : Pos) : Bytes := if p = .unknown then [] else p.render

/-- The document of a field. -/
def Field.ofSchema (f : Idl.Field) : Field where
  name := f.name
  type := some (.ofSchema f.type)
  optional := f.optional
  number := f.number
  docs := f.docs
  annots := annotsOfSchema f.annots
  source := placeOf f.source

/-- The document of a message. -/
def Message.ofSchema (m : Idl.Message) : Message where
  name := m.name
  docs := m.docs
  annots := annotsOfSchema m.annots
  source := placeOf m.source
  fields := m.fields.map fun f => some (.ofSchema f)

/-- The document of a method. -/
def Method.ofSchema (m : Idl.Method) : Method where
  name := m.name
  input := m.input.map .ofSchema
  output := m.output.map .ofSchema
  docs := m.docs
  annots := annotsOfSchema m.annots
  source := placeOf m.source

/-- The document of a service. -/
def Service.ofSchema (s : Idl.Service) : Service where
  name := s.name
  id := s.id.textOrEmpty
  docs := s.docs
  annots := annotsOfSchema s.annots
  source := placeOf s.source
  client := s.client
  server := s.server
  methods := s.methods.map fun m => some (.ofSchema m)

/-- The document of a schema. -/
def ofSchema (s : Schema) : Document where
  package := s.package
  id := s.id.textOrEmpty
  parserVersion := s.parserVersion
  sourcePath := s.sourcePath
  annots := annotsOfSchema s.annots
  messages := s.messages.map fun m => some (.ofSchema m)
  services := s.services.map fun m => some (.ofSchema m)

end Document

end Idl
