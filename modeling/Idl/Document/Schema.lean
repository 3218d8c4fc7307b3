import Idl.Document
import Idl.Numeric.Reading
import Idl.Schema.Canonical
import Idl.Text.CharClass

/-!
# From a document to a schema

Reading a document back checks what a text cannot guarantee: places, types and constants have to be
well formed, and recorded identifiers have to be those of the content. The first fault in reading
order counts, except that a missing entry of a list rules a document out at once. The reading is
also spelled out reference by reference, with the nulls that it follows.

* §1 faults, §2 places, §3 parts, §4 missing entries, §5 documents,
* §6 reading reference by reference, §7 what a walk builds, §8 reading as one walk.
-/

namespace Idl.Document

/-! ## §1 Faults -/

/-- Why a document is not a schema. -/
inductive Fault where
  /-- A list has a null in place of an entry. -/
  | missingEntry
  | badPlace (text : Bytes)
  | unknownScalar (name : Bytes)
  | ambiguousType
  | missingType (message field : Bytes)
  | missingValue
  | unknownKind (kind : Bytes)
  /-- A constant does not read back; `reader` names what was expected. -/
  | badConstant (reader : Bytes) (text : Bytes) (fault : ReadFault)
  | wrongIdentifier (recorded : Bytes) (actual : Identifier)
  | wrongServiceIdentifier (service : Bytes) (recorded : Bytes) (actual : Identifier)
deriving DecidableEq, Repr

/-- The message for a document that is not a schema. -/
def Fault.message : Fault → Bytes
  | .missingEntry => "midljson: invalid document: missing entry"
  | .badPlace t => "midljson: invalid document: invalid source position " ++ quote t
  | .unknownScalar n => "midljson: invalid document: unknown scalar type " ++ quote n
  | .ambiguousType =>
    "midljson: invalid document: type must set exactly one of scalar and message"
  | .missingType m f => "midljson: invalid document: field " ++ m ++ "." ++ f ++ " has no type"
  | .missingValue => "midljson: invalid document: missing annotation value"
  | .unknownKind k => "midljson: invalid document: unknown value kind " ++ quote k
  | .badConstant reader t f => "midljson: invalid document: " ++ f.message reader t
  | .wrongIdentifier recorded actual =>
    "midljson: schema identifier mismatch: document has " ++ recorded ++ ", content hashes to "
      ++ actual.text
  | .wrongServiceIdentifier service recorded actual =>
    "midljson: identifier mismatch for service " ++ service ++ ": document has " ++ recorded
      ++ ", content hashes to " ++ actual.text

/-! ## §2 Places -/

/-- What follows the blanks at the front; none if a line ends there. -/
def skipBlanks? : List Char → Option (List Char)
  | '\r' :: '\n' :: _ => none
  | '\n' :: _ => none
  | c :: r => if isSpace c then skipBlanks? r else some (c :: r)
  | [] => some []

/-- A number of 32 bits at the front, blanks before it skipped, and what follows it. -/
def coordinate? (t : List Char) : Option (Nat × List Char) := do
  let t ← skipBlanks? t
  let digits := t.takeWhile fun c => '0' ≤ c && c ≤ '9'
  let n := Bytes.toNat 10 (digits.map fun c => c.toNat.toUInt8)
  if digits.isEmpty || n ≥ 2 ^ 32 then none else some (n, t.drop digits.length)

/-- A line and a column with a colon between them. What follows them is ignored. -/
def place? (t : Bytes) : Option Pos := do
  let (line, rest) ← coordinate? (Utf8.chars t)
  match rest with
  | ':' :: rest =>
    let (col, _) ← coordinate? rest
    return ⟨line, col⟩
  | _ => none

/-- The place of an entity; an empty text is an unknown one. -/
def placeOfText (t : Bytes) : Except Fault Pos :=
  if t.isEmpty then .ok .unknown
  else match place? t with
    | some p => .ok p
    | none => .error (.badPlace t)

/-! ## §3 Parts -/

/-- The type, which has to be either built in or a message. -/
def TypeName.toSchema (t : TypeName) : Except Fault Ty :=
  if !t.message.isEmpty && t.scalar.isEmpty then .ok (.message t.message)
  else if !t.scalar.isEmpty && t.message.isEmpty then
    match Scalar.ofName? t.scalar with
    | some s => .ok (.scalar s)
    | none => .error (.unknownScalar t.scalar)
  else .error .ambiguousType

/-- The type, if there is one. -/
def typeToSchema? (t : Option TypeName) : Except Fault (Option Ty) :=
  match t with
  | none => .ok none
  | some t => t.toSchema.map some

/-- The constant, if its text is of its kind. -/
def Value.toSchema (v : Value) : Except Fault Idl.Value :=
  let read {α : Type} (reader : Bytes) (r : Except ReadFault α) (f : α → Idl.Value) :
      Except Fault Idl.Value :=
    (r.map f).mapError (.badConstant reader v.text)
  if v.kind == "int" then read "ParseInt" (readInt64 v.text) .int
  else if v.kind == "uint" then read "ParseUint" (readUInt64 v.text) .uint
  else if v.kind == "float" then read "ParseFloat" (readFloat v.text) .float
  else if v.kind == "bool" then read "ParseBool" (readBool v.text) .bool
  else if v.kind == "string" then .ok (.text v.text)
  else if v.kind == "ident" then .ok (.ident v.text)
  else .error (.unknownKind v.kind)

/-- The entries of a list, none of which may be missing. -/
def entries {α β : Type} (f : α → Except Fault β) (l : List (Option α)) : Except Fault (List β) :=
  l.mapM fun
    | some a => f a
    | none => .error .missingEntry

/-- The named constant. -/
def Pair.toSchema (p : Pair) : Except Fault Idl.Pair :=
  match p.value with
  | none => .error .missingValue
  | some v => v.toSchema.map fun v => ⟨p.key, v⟩

/-- The annotation. -/
def Annot.toSchema (a : Annot) : Except Fault Idl.Annot := do
  let value ← match a.value with
    | none => pure none
    | some v => some <$> v.toSchema
  let pairs ← entries Pair.toSchema a.pairs
  return ⟨a.name, value, pairs⟩

/-- The annotations. -/
def annotsToSchema (l : List (Option Annot)) : Except Fault (List Idl.Annot) :=
  entries Annot.toSchema l

/-- The field of a message. -/
def Field.toSchema (message : Bytes) (f : Field) : Except Fault Idl.Field := do
  let type ← match f.type with
    | some t => t.toSchema
    | none => .error (.missingType message f.name)
  let annots ← annotsToSchema f.annots
  let source ← placeOfText f.source
  return ⟨f.name, type, f.optional, f.number, f.docs, annots, source⟩

/-- The message. -/
def Message.toSchema (m : Message) : Except Fault Idl.Message := do
  let annots ← annotsToSchema m.annots
  let source ← placeOfText m.source
  let fields ← entries (Field.toSchema m.name) m.fields
  return ⟨m.name, fields, m.docs, annots, source⟩

/-- The method. -/
def Method.toSchema (m : Method) : Except Fault Idl.Method := do
  let input ← typeToSchema? m.input
  let output ← typeToSchema? m.output
  let annots ← annotsToSchema m.annots
  let source ← placeOfText m.source
  return ⟨m.name, input, output, m.docs, annots, source⟩

/-- The service, not yet identified. -/
def Service.toSchema (s : Service) : Except Fault Idl.Service := do
  let annots ← annotsToSchema s.annots
  let source ← placeOfText s.source
  let methods ← entries Method.toSchema s.methods
  return ⟨s.name, methods, s.docs, annots, source, s.client, s.server, .zero, []⟩

/-! ## §4 Missing entries -/

/-- Whether a list has a null among its entries, or an entry with one. -/
def anyMissing {α : Type} (inside : α → Bool) (l : List (Option α)) : Bool :=
  l.any fun
    | some a => inside a
    | none => true

/-- Whether an entry is missing in a list of annotations. -/
def annotsMissing (l : List (Option Annot)) : Bool :=
  anyMissing (fun a => anyMissing (fun _ => false) a.pairs) l

/-- Whether an entry is missing anywhere. -/
def hasMissing (d : Document) : Bool :=
  annotsMissing d.annots
    || anyMissing (fun m => annotsMissing m.annots
        || anyMissing (fun f => annotsMissing f.annots) m.fields) d.messages
    || anyMissing (fun s => annotsMissing s.annots
        || anyMissing (fun m => annotsMissing m.annots) s.methods) d.services

/-! ## §5 Documents -/

/-- A recorded identifier of a service has to be that of its content. -/
def checkService (recorded : Option Service) (actual : Idl.Service) : Except Fault Unit :=
  match recorded with
  | some r =>
    if r.id.isEmpty || r.id == actual.id.text then .ok ()
    else .error (.wrongServiceIdentifier r.name r.id actual.id)
  | none => .ok ()

/-- The schema that a document describes. -/
def toSchema (d : Document) : Except Fault Schema := do
  if d.hasMissing then throw .missingEntry
  let annots ← annotsToSchema d.annots
  let messages ← entries Message.toSchema d.messages
  let services ← entries Service.toSchema d.services
  let s := Schema.identify
    ⟨d.package, messages, services, annots, d.parserVersion, d.sourcePath, .zero⟩
  if !d.id.isEmpty && d.id != s.id.text then throw (.wrongIdentifier d.id s.id)
  let _ ← (d.services.zip s.services).mapM fun (r, a) => checkService r a
  return s

/-! ## §6 Reading reference by reference

The entries of a document's lists, its types and its constants are references. A walk through the
document notes the first fault and goes on with whatever it has in hand, so that what it builds may
have holes; the encoder then follows the references of what was built. Following a null ends the
program.
-/

/-- A walk carries the first fault that was noted. It comes to nothing if it follows a null. -/
abbrev Walk : Type → Type := StateT (Option Fault) Option

namespace Walk

/-- What a reference refers to. -/
def follow {α : Type} (r : Option α) : Walk α := StateT.lift r

/-- What reading gives. Nothing is read once a fault is noted; a fault of the reading is noted. -/
def attempt {α : Type} (r : Except Fault α) : Walk (Option α) := do
  match ← get, r with
  | some _, _ => return none
  | none, .ok a => return some a
  | none, .error e =>
    set (some e)
    return none

/-- Walks through the entries of a list, following each. -/
def entries {α β : Type} (w : α → Walk β) (l : List (Option α)) : Walk (List β) :=
  l.mapM fun r => do w (← follow r)

end Walk

/-! ## §7 What a walk builds

Only where a constant or a type can be missing does a part with holes differ from one without. -/

/-- A named constant that may be missing. -/
structure LoosePair where
  key : Bytes
  value : Option Idl.Value

/-- An annotation with loose pairs. -/
structure LooseAnnot where
  name : Bytes
  value : Option Idl.Value
  pairs : List LoosePair

/-- A field whose type may be missing. -/
structure LooseField where
  name : Bytes
  type : Option Ty
  optional : Bool
  number : Nat
  docs : List Bytes
  annots : List LooseAnnot
  source : Pos

/-- A message of loose parts. -/
structure LooseMessage where
  name : Bytes
  fields : List LooseField
  docs : List Bytes
  annots : List LooseAnnot
  source : Pos

/-- A method of loose parts. -/
structure LooseMethod where
  name : Bytes
  input : Option Ty
  output : Option Ty
  docs : List Bytes
  annots : List LooseAnnot
  source : Pos

/-- A service of loose parts, not yet identified. -/
structure LooseService where
  name : Bytes
  methods : List LooseMethod
  docs : List Bytes
  annots : List LooseAnnot
  source : Pos
  client : Bool
  server : Bool

/-- A schema of loose parts, not yet identified. -/
structure LooseSchema where
  package : Bytes
  messages : List LooseMessage
  services : List LooseService
  annots : List LooseAnnot
  parserVersion : Bytes
  sourcePath : Bytes

/-- The pair, its constant followed. -/
def LoosePair.tighten? (p : LoosePair) : Option Idl.Pair := do
  return ⟨p.key, ← p.value⟩

/-- The annotation. It need not have a constant of its own. -/
def LooseAnnot.tighten? (a : LooseAnnot) : Option Idl.Annot := do
  return ⟨a.name, a.value, ← a.pairs.mapM LoosePair.tighten?⟩

/-- The field, its type followed. -/
def LooseField.tighten? (f : LooseField) : Option Idl.Field := do
  return ⟨f.name, ← f.type, f.optional, f.number, f.docs, ← f.annots.mapM LooseAnnot.tighten?,
    f.source⟩

/-- The message. -/
def LooseMessage.tighten? (m : LooseMessage) : Option Idl.Message := do
  let annots ← m.annots.mapM LooseAnnot.tighten?
  return ⟨m.name, ← m.fields.mapM LooseField.tighten?, m.docs, annots, m.source⟩

/-- The method. It need not have types. -/
def LooseMethod.tighten? (m : LooseMethod) : Option Idl.Method := do
  return ⟨m.name, m.input, m.output, m.docs, ← m.annots.mapM LooseAnnot.tighten?, m.source⟩

/-- The service. -/
def LooseService.tighten? (s : LooseService) : Option Idl.Service := do
  let annots ← s.annots.mapM LooseAnnot.tighten?
  return ⟨s.name, ← s.methods.mapM LooseMethod.tighten?, s.docs, annots, s.source, s.client,
    s.server, .zero, []⟩

/-- The schema, with every reference followed that an encoder of schemas follows. -/
def LooseSchema.tighten? (s : LooseSchema) : Option Schema := do
  let annots ← s.annots.mapM LooseAnnot.tighten?
  let messages ← s.messages.mapM LooseMessage.tighten?
  let services ← s.services.mapM LooseService.tighten?
  return ⟨s.package, messages, services, annots, s.parserVersion, s.sourcePath, .zero⟩

/-! ## §8 Reading as one walk -/

/-- The place of an entity, unknown if it cannot be read. -/
def walkPlace (t : Bytes) : Walk Pos := do
  return (← Walk.attempt (placeOfText t)).getD .unknown

/-- The type; a null is no type, and no fault. -/
def walkType (t : Option TypeName) : Walk (Option Ty) :=
  match t with
  | none => return none
  | some t => Walk.attempt t.toSchema

/-- The constant; a null is a fault. -/
def walkValue (v : Option Value) : Walk (Option Idl.Value) :=
  Walk.attempt (match v with
    | none => .error .missingValue
    | some v => v.toSchema)

/-- The pair. -/
def walkPair (p : Pair) : Walk LoosePair := do
  return ⟨p.key, ← walkValue p.value⟩

/-- The constant of an annotation, if there is one. -/
def walkAnnotValue (v : Option Value) : Walk (Option Idl.Value) :=
  match v with
  | none => return none
  | some v => walkValue (some v)

/-- The annotation. -/
def walkAnnot (a : Annot) : Walk LooseAnnot := do
  let value ← walkAnnotValue a.value
  let pairs ← Walk.entries walkPair a.pairs
  return ⟨a.name, value, pairs⟩

/-- The annotations. -/
def walkAnnots (l : List (Option Annot)) : Walk (List LooseAnnot) := Walk.entries walkAnnot l

/-- The type of a field, which it has to have. -/
def walkFieldType (message : Bytes) (f : Field) : Walk (Option Ty) := do
  let type ← walkType f.type
  if type.isNone && (← get).isNone then set (some (Fault.missingType message f.name))
  return type

/-- The field of a message. -/
def walkField (message : Bytes) (f : Field) : Walk LooseField := do
  let type ← walkFieldType message f
  let annots ← walkAnnots f.annots
  let source ← walkPlace f.source
  return ⟨f.name, type, f.optional, f.number, f.docs, annots, source⟩

/-- The message. -/
def walkMessage (m : Message) : Walk LooseMessage := do
  let annots ← walkAnnots m.annots
  let source ← walkPlace m.source
  let fields ← Walk.entries (walkField m.name) m.fields
  return ⟨m.name, fields, m.docs, annots, source⟩

/-- The method. -/
def walkMethod (m : Method) : Walk LooseMethod := do
  let input ← walkType m.input
  let output ← walkType m.output
  let annots ← walkAnnots m.annots
  let source ← walkPlace m.source
  return ⟨m.name, input, output, m.docs, annots, source⟩

/-- The service. -/
def walkService (s : Service) : Walk LooseService := do
  let annots ← walkAnnots s.annots
  let source ← walkPlace s.source
  let methods ← Walk.entries walkMethod s.methods
  return ⟨s.name, methods, s.docs, annots, source, s.client, s.server⟩

/-- The whole document, up to identifiers. -/
def walkParts (d : Document) : Walk LooseSchema := do
  let annots ← walkAnnots d.annots
  let messages ← Walk.entries walkMessage d.messages
  let services ← Walk.entries walkService d.services
  return ⟨d.package, messages, services, annots, d.parserVersion, d.sourcePath⟩

/-- Compares recorded identifiers with those of the services at the same places. There has to be an
entry at each place, and a service wherever an identifier is recorded. -/
def walkIdentifiers : List (Option Service) → List Idl.Service → Option (Except Fault Unit)
  | [], _ => some (.ok ())
  | r :: recorded, actual => do
    let r ← r
    if r.id.isEmpty then walkIdentifiers recorded actual.tail
    else
      let a ← actual.head?
      if r.id == a.id.text then walkIdentifiers recorded actual.tail
      else return .error (.wrongServiceIdentifier r.name r.id a.id)

/-- The schema of a document or the fault that was noted first; nothing if a null is followed on the
way. -/
def walk (d : Document) : Option (Except Fault Schema) := do
  match ← (walkParts d).run none with
  | (_, some fault) => return .error fault
  | (loose, none) =>
    let s := (← loose.tighten?).identify
    if !d.id.isEmpty && d.id != s.id.text then return .error (.wrongIdentifier d.id s.id)
    else return (← walkIdentifiers d.services s.services).map fun _ => s

end Idl.Document
