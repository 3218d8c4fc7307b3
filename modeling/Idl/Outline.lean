import Idl.Json
import Idl.Text.Quote
import Idl.Tree

/-!
# Outlines of source files

An outline shows the declarations of a parsed file as indented JSON: names, types, annotations and
places. Numbers stay as they are written; texts are quoted anew.
-/

namespace Idl.Tree

/-! ## §1 Source forms -/

/-- A constant in a normalized source form. -/
def Value.outline (v : Value) : Bytes :=
  match v.constant with
  | .int lit => lit.raw
  | .float x => FloatNotation.outline.render x.classify
  | .bool true => "true"
  | .bool false => "false"
  | .text lit => quote lit.value
  | .path p => p.dotted

/-- An argument of an annotation. -/
def Arg.outline (a : Arg) : Bytes :=
  match a.form with
  | .positional v => v.outline
  | .flag key => key.name
  | .pair key v => key.name ++ " = " ++ v.outline

/-- An annotation in a normalized source form. -/
def Annot.outline (a : Annot) : Bytes :=
  match a.args? with
  | none => "@" ++ a.name.dotted
  | some args => "@" ++ a.name.dotted ++ "(" ++ Bytes.join ", " (args.map Arg.outline) ++ ")"

/-! ## §2 Members -/

namespace Outline

/-- A text member that is left out if the text is empty. -/
def text (key t : Bytes) : List (Bytes × Json) := if t.isEmpty then [] else [(key, .str t)]

/-- A list member that is left out if the list is empty. -/
def list (key : Bytes) (l : List Json) : List (Bytes × Json) :=
  if l.isEmpty then [] else [(key, .arr l)]

/-- The member for a place. -/
def place (loc : Loc) : List (Bytes × Json) := [("pos", .str loc.pos.render)]

/-- The member for annotations. -/
def annots (l : List Annot) : List (Bytes × Json) :=
  list "annotations" (l.map fun a => .str a.outline)

/-- The name of a type that may be missing. -/
def typeName (t : Option TypeRef) : Bytes := (t.map (·.name.dotted)).getD []

/-- The word of a label. -/
def labelWord : Presence → Bytes
  | .optional => "optional"
  | .required => "required"

/-- A field. -/
def field (f : Field) : Json :=
  .obj ([Json.member "name" (.str f.name.name), Json.member "type" (.str f.type.name.dotted)]
    ++ text "label" ((f.label.map fun l => labelWord l.presence).getD [])
    ++ (if f.isOptional then [Json.member "optional" (.bool true)] else [])
    ++ text "number" ((f.number.map (·.raw)).getD [])
    ++ place f.loc ++ annots f.annots)

/-- A method. -/
def method (m : Method) : Json :=
  .obj ([Json.member "name" (.str m.name.name)] ++ text "input" (typeName m.input)
    ++ text "output" (typeName m.output) ++ place m.loc ++ annots m.annots)

/-- A declaration. -/
def decl : Decl → Json
  | .message m =>
    .obj (text "message" m.name.name ++ place m.loc ++ annots m.annots
      ++ list "fields" (m.fields.map field))
  | .service s =>
    .obj (text "service" s.name.name ++ place s.loc ++ annots s.annots
      ++ list "methods" (s.methods.map method))

end Outline

/-! ## §3 Files -/

/-- The outline of a file. -/
def File.outline (f : File) : Json :=
  .obj (Outline.text "syntax" ((f.version.map (·.value)).getD [])
    ++ [Json.member "package" (.str ((f.package.map (·.name.dotted)).getD []))]
    ++ Outline.list "options"
        (f.options.map fun o => Json.str (o.name.dotted ++ " = " ++ o.value.outline))
    ++ Outline.list "decls" (f.decls.map Outline.decl))

/-- The text of an outline. -/
def File.outlineText (f : File) : Bytes := f.outline.indented true 0

end Idl.Tree
