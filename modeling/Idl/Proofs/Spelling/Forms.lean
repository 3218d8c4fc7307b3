import Idl.Proofs.Tree.Relocation
import Idl.Proofs.Tree.Rewording

/-!
# Written forms of a file

A form of a file says how each part of it is spelled: which sign separates the components of a name,
whether a type stands in parentheses, where a semicolon stands that means nothing, and so on. From a
form come the lexemes that are written and the tree that they stand for, without its places.

* §1 lexemes, §2 names and constants, §3 annotations,
* §4 members, §5 methods, §6 files.
-/

namespace Idl

/-! ## §1 Lexemes -/

/-- The kind of a token, and its text if that is not the same for all tokens of the kind. -/
abbrev Lexeme := TokenKind × Bytes

/-- Whether tokens of a kind can have different texts. -/
def TokenKind.hasText : TokenKind → Bool
  | .ident | .intLit | .octIntLit | .hexIntLit | .floatLit | .textLit => true
  | _ => false

/-- What the grammar sees of a token. -/
def Token.lexeme (t : Token) : Lexeme := (t.kind, if t.kind.hasText then t.text else [])

namespace Spelling

open Idl.Tree (nowhere)

/-- Forgets a place. -/
def away (_ : Loc) : Loc := nowhere

/-- A word of a source, which is a name of one component or a keyword. -/
def name (text : Bytes) : Lexeme := (.ident, text)

/-- A sign whose text is that of its kind. -/
def sign (kind : TokenKind) : Lexeme := (kind, [])

/-- A name of one component. -/
structure Word where
  text : Bytes
  isName : Bytes.IsName text

/-- Whether octets are those of a name can be seen by evaluation. -/
def Word.of (text : Bytes) (h : (!text.isEmpty && text.all Bytes.isWord) = true) : Word where
  text
  isName := by
    simp only [Bool.and_eq_true, Bool.not_eq_true', List.isEmpty_eq_false_iff,
      List.all_eq_true] at h
    exact ⟨h.1, h.2⟩

/-- A name of one component in a tree. -/
def Word.tree (w : Word) : Tree.Ident := ⟨nowhere, w.text⟩

/-! ## §2 Names and constants -/

/-- What stands between the components of a name. -/
inductive Separator where
  | dot
  | doubleColon

/-- The kind of a separator. -/
def Separator.kind : Separator → TokenKind
  | dot => .dot
  | doubleColon => .doubleColon

/-- A dotted name: its first component, and separators each with another one. -/
structure Path where
  first : Word
  more : List (Separator × Word)

namespace Path

/-- The components. -/
def names (p : Path) : List Bytes := p.first.text :: p.more.map (·.2.text)

/-- The components behind the first one, as they are written. -/
def moreLexemes (l : List (Separator × Word)) : List Lexeme :=
  l.flatMap fun x => [sign x.1.kind, name x.2.text]

/-- The name as it is written. -/
def lexemes (p : Path) : List Lexeme := name p.first.text :: moreLexemes p.more

/-- The name that is meant. -/
def tree (p : Path) : Tree.Path := ⟨nowhere, p.first.tree, p.more.map (·.2.tree)⟩

end Path

/-- The notations of whole numbers. -/
inductive Base where
  | decimal
  | octal
  | hexadecimal

/-- The kind of a literal in a notation. -/
def Base.kind : Base → TokenKind
  | decimal => .intLit
  | octal => .octIntLit
  | hexadecimal => .hexIntLit

/-- A literal of a whole number. -/
structure Whole where
  base : Base
  text : Bytes

namespace Whole

/-- The number. -/
def value (n : Whole) : Int := intLitValue n.base.kind n.text

/-- The literal as it is written. -/
def lexeme (n : Whole) : Lexeme := (n.base.kind, n.text)

/-- The literal in a tree. -/
def tree (n : Whole) : Tree.IntLit := ⟨nowhere, n.text, n.value⟩

end Whole

/-- The octets that a text literal denotes; none if an escape is bad. -/
def textValue (text : Bytes) : Bytes := (textLitValue text).toOption.getD []

/-- A text literal in a tree. -/
def textTree (text : Bytes) : Tree.TextLit := ⟨nowhere, text, textValue text⟩

/-- The constants that are no names. -/
inductive Literal where
  | int (n : Whole)
  | float (raw : Bytes)
  | text (raw : Bytes)
  | bool (b : Bool)
  | infinity
  | nan

namespace Literal

/-- The literal as it is written. -/
def lexeme : Literal → Lexeme
  | int n => n.lexeme
  | float raw => (.floatLit, raw)
  | text raw => (.textLit, raw)
  | bool true => name "true"
  | bool false => name "false"
  | infinity => name "inf"
  | nan => name "nan"

/-- The constant that is meant. -/
def constant : Literal → Tree.Constant
  | int n => .int n.tree
  | float raw => .float ((Binary64.ofNumeral? raw).getD .nan)
  | text raw => .text (textTree raw)
  | bool b => .bool b
  | infinity => .float (.infinity false)
  | nan => .float .nan

end Literal

/-- A constant: a literal, or a name that does not begin with one of the words that are literals. -/
inductive Value where
  | literal (l : Literal)
  | path (p : Path) (free : p.first.text ∉ Grammar.constantWords)

namespace Value

/-- The constant as it is written. -/
def lexemes : Value → List Lexeme
  | literal l => [l.lexeme]
  | path p _ => p.lexemes

/-- The constant that is meant. -/
def tree : Value → Tree.Value
  | literal l => ⟨nowhere, l.constant⟩
  | path p _ => ⟨nowhere, .path p.tree⟩

end Value

/-! ## §3 Annotations -/

/-- The name of an argument, which is none of the words that are literals. -/
structure Key extends Word where
  free : text ∉ Grammar.constantWords

/-- An argument of an annotation. A name by itself is the name of an argument. -/
inductive Arg where
  | positional (l : Literal)
  | flag (key : Key)
  | pair (key : Key) (value : Value)

namespace Arg

/-- The argument as it is written. -/
def lexemes : Arg → List Lexeme
  | positional l => [l.lexeme]
  | flag key => [name key.text]
  | pair key value => name key.text :: sign .eq :: value.lexemes

/-- The form of the argument. -/
def form : Arg → Tree.ArgForm
  | positional l => .positional ⟨nowhere, l.constant⟩
  | flag key => .flag key.tree
  | pair key value => .pair key.tree value.tree

/-- The argument that is meant. -/
def tree (a : Arg) : Tree.Arg := ⟨nowhere, a.form⟩

end Arg

/-- Arguments between parentheses, and whether a comma follows the last of them. -/
structure Args where
  items : List Arg
  comma : Bool

namespace Args

/-- Arguments as they are written, with commas between them. -/
def lexemesOf (comma : Bool) : List Arg → List Lexeme
  | [] => []
  | [a] => a.lexemes ++ if comma then [sign .comma] else []
  | a :: b :: r => a.lexemes ++ sign .comma :: lexemesOf comma (b :: r)

/-- The arguments as they are written, with their parentheses. -/
def lexemes (as : Args) : List Lexeme :=
  sign .openParen :: (lexemesOf as.comma as.items ++ [sign .closeParen])

end Args

/-- An annotation. A semicolon behind it counts as one that stands by itself. -/
structure Annot where
  name : Path
  args : Option Args

namespace Annot

/-- The annotation as it is written. -/
def lexemes (a : Annot) : List Lexeme :=
  sign .atSign :: (a.name.lexemes ++ (a.args.map Args.lexemes).getD [])

/-- The annotation that is meant. -/
def tree (a : Annot) : Tree.Annot :=
  ⟨nowhere, a.name.tree, a.args.map fun as => as.items.map Arg.tree⟩

end Annot

/-! ## §4 Members -/

/-- What stands in a body or a file: a semicolon that means nothing, an annotation of what follows,
or something that is particular. -/
inductive Item (α : Type) where
  | semicolon
  | annot (a : Annot)
  | member (x : α)

namespace Item

variable {α β : Type}

/-- Items as they are written. -/
def lexemesOf (lexemes : α → List Lexeme) : List (Item α) → List Lexeme
  | [] => []
  | semicolon :: r => sign .semicolon :: lexemesOf lexemes r
  | annot a :: r => a.lexemes ++ lexemesOf lexemes r
  | member x :: r => lexemes x ++ lexemesOf lexemes r

/-- What is meant by items behind annotations that wait. An item that takes annotations takes all
that wait; any other leaves them. -/
def gather (take? : α → Option (List Tree.Annot → β)) :
    List Tree.Annot → List (Item α) → List β
  | _, [] => []
  | pending, semicolon :: r => gather take? pending r
  | pending, annot a :: r => gather take? (pending ++ [a.tree]) r
  | pending, member x :: r =>
    match take? x with
    | some put => put pending :: gather take? [] r
    | none => gather take? pending r

/-- The particular items. -/
def members (l : List (Item α)) : List α :=
  l.filterMap fun
    | member x => some x
    | _ => none

end Item

/-- A field. -/
structure Field where
  label : Option Tree.Presence
  type : Path
  name : Word
  question : Bool
  number : Option Whole

/-- A sign that may be left out. -/
def signIf (b : Bool) (kind : TokenKind) : List Lexeme := if b then [sign kind] else []

namespace Field

/-- The word in front of a field as it is written. -/
def labelLexeme : Tree.Presence → Lexeme
  | .optional => Spelling.name "optional"
  | .required => Spelling.name "required"

/-- What stands in a field behind its name. -/
def endLexemes (d : Field) : List Lexeme :=
  signIf d.question .question
    ++ ((d.number.map fun n => [sign .eq, n.lexeme]).getD [] ++ [sign .semicolon])

/-- The field as it is written. -/
def lexemes (d : Field) : List Lexeme :=
  d.label.toList.map labelLexeme
    ++ (d.type.lexemes ++ Spelling.name d.name.text :: d.endLexemes)

/-- The field that is meant. -/
def tree (d : Field) (annots : List Tree.Annot) : Tree.Field :=
  ⟨nowhere, annots, d.label.map fun p => ⟨nowhere, p⟩, ⟨nowhere, d.type.tree⟩, d.name.tree,
    d.question, d.number.map Whole.tree⟩

end Field

/-- A message. -/
structure Message where
  name : Word
  body : List (Item Field)

namespace Message

/-- The message as it is written. -/
def lexemes (m : Message) : List Lexeme :=
  Spelling.name "message" :: Spelling.name m.name.text :: sign .openCurl
    :: (Item.lexemesOf Field.lexemes m.body ++ [sign .closeCurl])

/-- The message that is meant. -/
def tree (m : Message) (annots : List Tree.Annot) : Tree.Message :=
  ⟨nowhere, annots, m.name.tree, Item.gather (fun d => some d.tree) [] m.body⟩

end Message

/-! ## §5 Methods -/

/-- The input or output of a method. -/
inductive Parameter where
  | bare (type : Path)
  | parens (type : Option Path)

namespace Parameter

/-- The parameter as it is written. -/
def lexemes : Parameter → List Lexeme
  | bare type => type.lexemes
  | parens type =>
    sign .openParen :: ((type.map Path.lexemes).getD [] ++ [sign .closeParen])

/-- The type, if there is one. -/
def type? : Parameter → Option Path
  | bare type => some type
  | parens type => type

/-- A reference to the type. -/
def tree (p : Parameter) : Option Tree.TypeRef := p.type?.map fun t => ⟨nowhere, t.tree⟩

end Parameter

/-- What announces the output of a method. -/
inductive Mark where
  | returns
  | arrow

/-- The mark as it is written. -/
def Mark.lexeme : Mark → Lexeme
  | returns => name "returns"
  | arrow => sign .arrow

/-- The end of a method. -/
inductive Ending where
  | semicolon
  | braces (semicolons : Nat)

/-- The end of a method as it is written. -/
def Ending.lexemes : Ending → List Lexeme
  | semicolon => [sign .semicolon]
  | braces n => sign .openCurl :: (List.replicate n (sign .semicolon) ++ [sign .closeCurl])

/-- A method. -/
structure Method where
  name : Word
  input : Option Parameter
  output : Option (Mark × Parameter)
  ending : Ending

namespace Method

/-- The output of a method as it is written. -/
def outputLexemes (o : Option (Mark × Parameter)) : List Lexeme :=
  (o.map fun x => x.1.lexeme :: x.2.lexemes).getD []

/-- What stands in a method behind its name. -/
def restLexemes (m : Method) : List Lexeme :=
  (m.input.map Parameter.lexemes).getD [] ++ (outputLexemes m.output ++ m.ending.lexemes)

/-- The method as it is written. -/
def lexemes (m : Method) : List Lexeme :=
  Spelling.name "rpc" :: Spelling.name m.name.text :: m.restLexemes

/-- The method that is meant. -/
def tree (m : Method) (annots : List Tree.Annot) : Tree.Method :=
  ⟨nowhere, annots, m.name.tree, m.input.bind Parameter.tree, m.output.bind (·.2.tree)⟩

end Method

/-- A service. -/
structure Service where
  name : Word
  body : List (Item Method)

namespace Service

/-- The service as it is written. -/
def lexemes (s : Service) : List Lexeme :=
  Spelling.name "service" :: Spelling.name s.name.text :: sign .openCurl
    :: (Item.lexemesOf Method.lexemes s.body ++ [sign .closeCurl])

/-- The service that is meant. -/
def tree (s : Service) (annots : List Tree.Annot) : Tree.Service :=
  ⟨nowhere, annots, s.name.tree, Item.gather (fun m => some m.tree) [] s.body⟩

end Service

/-! ## §6 Files -/

/-- A statement or declaration of a file. -/
inductive Statement where
  | version (text : Bytes)
  | package (name : Path)
  | setting (name : Path) (value : Value)
  | message (m : Message)
  | service (s : Service)

namespace Statement

/-- The statement as it is written. -/
def lexemes : Statement → List Lexeme
  | version text => [name "syntax", sign .eq, (.textLit, text), sign .semicolon]
  | package p => name "package" :: (p.lexemes ++ [sign .semicolon])
  | setting p v => name "option" :: (p.lexemes ++ sign .eq :: (v.lexemes ++ [sign .semicolon]))
  | message m => m.lexemes
  | service s => s.lexemes

/-- The version that is named. -/
def version? : Statement → Option Tree.TextLit
  | version text => some (textTree text)
  | _ => none

/-- The package that is named. -/
def package? : Statement → Option Path
  | package p => some p
  | _ => none

/-- The option that is set. -/
def setting? : Statement → Option Tree.Setting
  | setting p v => some ⟨nowhere, p.tree, v.tree⟩
  | _ => none

/-- The declaration with the annotations in front of it. -/
def decl? : Statement → Option (List Tree.Annot → Tree.Decl)
  | message m => some fun annots => .message (m.tree annots)
  | service s => some fun annots => .service (s.tree annots)
  | _ => none

end Statement

/-- A file. -/
structure File where
  items : List (Item Statement)

namespace File

/-- The file as it is written. -/
def lexemes (f : File) : List Lexeme := Item.lexemesOf Statement.lexemes f.items

/-- The names of packages in the order of their statements. -/
def packages (f : File) : List Path := (Item.members f.items).filterMap Statement.package?

/-- The name of the package, if there is one. -/
def package? (f : File) : Option Path := f.packages.head?

/-- The file that is meant. -/
def tree (f : File) : Tree.File where
  loc := nowhere
  version := ((Item.members f.items).filterMap Statement.version?).getLast?
  package := f.package?.map fun p => ⟨nowhere, p.tree⟩
  options := (Item.members f.items).filterMap Statement.setting?
  decls := Item.gather Statement.decl? [] f.items

/-- A source is spelled by a form if its significant tokens are those of the form, whatever stands
between them. -/
def Spells (f : File) (src : Bytes) : Prop :=
  ∃ l, lex src = .ok l ∧ l.significant.map Token.lexeme = f.lexemes

end File

end Spelling

end Idl
