import Idl.Numeric.Notation
import Idl.Source

/-!
# Syntax trees

A tree keeps what was written and where. Each node has the place of its first to its last token;
the annotations in front of a declaration or member belong to it but lie outside its place.
-/

namespace Idl.Tree

/-- A name of one component. -/
structure Ident where
  loc : Loc
  name : Bytes
deriving DecidableEq, Repr

/-- A dotted name. Both `.` and `::` may stand between its components. -/
structure Path where
  loc : Loc
  first : Ident
  more : List Ident
deriving DecidableEq, Repr

namespace Path

/-- The components, in order. -/
def parts (p : Path) : List Ident := p.first :: p.more

/-- The components with points between them. -/
def dotted (p : Path) : Bytes := Bytes.join "." (p.parts.map (·.name))

end Path

/-- A literal of a whole number: its text and its value. -/
structure IntLit where
  loc : Loc
  raw : Bytes
  value : Int
deriving DecidableEq, Repr

/-- A text literal: its text with the quotes, and the octets it denotes. -/
structure TextLit where
  loc : Loc
  raw : Bytes
  value : Bytes
deriving DecidableEq, Repr

/-- The forms of constants. -/
inductive Constant where
  | int (lit : IntLit)
  | float (value : Binary64)
  | bool (value : Bool)
  | text (lit : TextLit)
  /-- The name of a constant that is defined elsewhere. -/
  | path (name : Path)
deriving DecidableEq, Repr

/-- A constant and its place. -/
structure Value where
  loc : Loc
  constant : Constant
deriving DecidableEq, Repr

/-- The forms of annotation arguments. -/
inductive ArgForm where
  | positional (value : Value)
  | flag (key : Ident)
  | pair (key : Ident) (value : Value)
deriving DecidableEq, Repr

namespace ArgForm

/-- The name of an argument that has one. -/
def key? : ArgForm → Option Ident
  | .positional _ => none
  | .flag key => some key
  | .pair key _ => some key

/-- The value of an argument that has one. -/
def value? : ArgForm → Option Value
  | .positional value => some value
  | .flag _ => none
  | .pair _ value => some value

end ArgForm

/-- An argument of an annotation. -/
structure Arg where
  loc : Loc
  form : ArgForm
deriving DecidableEq, Repr

/-- An annotation. Its arguments are missing if it has no parentheses. -/
structure Annot where
  loc : Loc
  name : Path
  args? : Option (List Arg)
deriving DecidableEq, Repr

namespace Annot

/-- The arguments; none if there are no parentheses. -/
def args (a : Annot) : List Arg := a.args?.getD []

end Annot

/-- A reference to a type by its name. -/
structure TypeRef where
  loc : Loc
  name : Path
deriving DecidableEq, Repr

/-- The words that can stand in front of a field. -/
inductive Presence where
  | optional
  | required
deriving DecidableEq, Repr

/-- The word in front of a field and its place. -/
structure Label where
  loc : Loc
  presence : Presence
deriving DecidableEq, Repr

/-- A field of a message. -/
structure Field where
  loc : Loc
  annots : List Annot
  label : Option Label
  type : TypeRef
  name : Ident
  question : Bool
  number : Option IntLit
deriving DecidableEq, Repr

namespace Field

/-- A field is optional by its word or by a question mark after its name. -/
def isOptional (f : Field) : Bool := f.question || f.label.any (·.presence == .optional)

end Field

/-- A message declaration. -/
structure Message where
  loc : Loc
  annots : List Annot
  name : Ident
  fields : List Field
deriving DecidableEq, Repr

/-- A method of a service. -/
structure Method where
  loc : Loc
  annots : List Annot
  name : Ident
  input : Option TypeRef
  output : Option TypeRef
deriving DecidableEq, Repr

/-- A service declaration. -/
structure Service where
  loc : Loc
  annots : List Annot
  name : Ident
  methods : List Method
deriving DecidableEq, Repr

/-- A declaration at the top of a file. -/
inductive Decl where
  | message (m : Message)
  | service (s : Service)
deriving DecidableEq, Repr

namespace Decl

/-- The message, if the declaration is one. -/
def message? : Decl → Option Message
  | .message m => some m
  | .service _ => none

/-- The service, if the declaration is one. -/
def service? : Decl → Option Service
  | .message _ => none
  | .service s => some s

/-- The declared name. -/
def name : Decl → Ident
  | .message m => m.name
  | .service s => s.name

end Decl

/-- The statement that names the package. -/
structure Package where
  loc : Loc
  name : Path
deriving DecidableEq, Repr

/-- An option of the file. -/
structure Setting where
  loc : Loc
  name : Path
  value : Value
deriving DecidableEq, Repr

/-- A source file. -/
structure File where
  loc : Loc
  version : Option TextLit
  package : Option Package
  options : List Setting
  decls : List Decl
deriving DecidableEq, Repr

namespace File

/-- The messages, in source order. -/
def messages (f : File) : List Message := f.decls.filterMap Decl.message?

/-- The services, in source order. -/
def services (f : File) : List Service := f.decls.filterMap Decl.service?

end File

end Idl.Tree
