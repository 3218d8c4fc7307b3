import Idl.Schema

/-!
# Listings

A listing shows a schema one property a line, with a block for each entity. It is for people and for
comparing, and is not read back.
-/

namespace Idl.Listing

/-- What a listing leaves out. -/
structure Options where
  /-- Leave out the identifiers. -/
  withoutIdentity : Bool := false
  /-- Leave out the version, the path of the source and all places. -/
  withoutProvenance : Bool := false

/-- How a character is written between quotes: control characters are escaped. -/
def quoteChar (c : Char) : Bytes :=
  if c == '\\' || c == '"' then 0x5C :: Utf8.ofChar c
  else if c == '\t' then "\\t"
  else if c == '\n' then "\\n"
  else if c.toNat < 0x20 || c.toNat == 0x7F then
    "\\x" ++ Bytes.toUpper (Bytes.hexDigits 2 c.toNat)
  else Utf8.ofChar c

/-- A text between quotes. -/
def quoted (t : Bytes) : Bytes := "\"" ++ (Utf8.chars t).flatMap quoteChar ++ "\""

/-- A truth value. -/
def flag (b : Bool) : Bytes := if b then ".true" else ".false"

/-- A property. -/
def property (name value : Bytes) : Bytes := name ++ " = " ++ value

/-- The lines of a block: a heading, the lines inside one tab further in, and a closing brace. -/
def block (heading : Bytes) (inside : List Bytes) : List Bytes :=
  (heading ++ " \x7b") :: inside.map (fun l => ("\t" : Bytes) ++ l) ++ [("\x7d" : Bytes)]

/-- The lines of annotations. -/
def annots (l : List Annot) : List Bytes := l.map fun a => property "annotation" a.render

/-- The lines that all entities have. -/
def common (o : Options) (docs : List Bytes) (l : List Annot) (source : Pos) : List Bytes :=
  let place := if o.withoutProvenance || source = .unknown then []
    else [property "source" source.render]
  place ++ docs.map (fun d => property "doc" (quoted d)) ++ annots l

/-- The lines of a field. -/
def field (o : Options) (f : Field) : List Bytes :=
  block ("field " ++ f.name) (common o f.docs f.annots f.source
    ++ [property "type" f.type.name, property "number" (Bytes.ofNat f.number),
      property "optional" (flag f.optional)])

/-- The lines of a message. -/
def message (o : Options) (m : Message) : List Bytes :=
  block ("message " ++ m.name) (common o m.docs m.annots m.source ++ m.fields.flatMap (field o))

/-- The lines of a method. -/
def method (o : Options) (m : Method) : List Bytes :=
  block ("method " ++ m.name) (common o m.docs m.annots m.source
    ++ [property "input" (Ty.nameOrVoid m.input), property "output" (Ty.nameOrVoid m.output)])

/-- The line of an identifier. -/
def identity (o : Options) (i : Identifier) : List Bytes :=
  if o.withoutIdentity then [] else [property "id" (quoted i.text)]

/-- The lines of a service. -/
def service (o : Options) (s : Service) : List Bytes :=
  block ("service " ++ s.name) (identity o s.id ++ common o s.docs s.annots s.source
    ++ [property "client" (flag s.client), property "server" (flag s.server)]
    ++ s.methods.flatMap (method o))

/-- The lines that say how a schema came about. -/
def provenance (o : Options) (s : Schema) : List Bytes :=
  if o.withoutProvenance then []
  else property "parser_version" (quoted s.parserVersion)
    :: if s.sourcePath.isEmpty then [] else [property "source_path" (quoted s.sourcePath)]

/-- The lines of a schema. -/
def lines (o : Options) (s : Schema) : List Bytes :=
  property "package" (quoted s.package) :: provenance o s ++ identity o s.id ++ annots s.annots
    ++ s.messages.flatMap (message o) ++ s.services.flatMap (service o)

end Listing

/-- The listing of a schema. -/
def Schema.listing (s : Schema) (o : Listing.Options) : Bytes :=
  (Listing.lines o s).flatMap fun l => l ++ "\n"

end Idl
