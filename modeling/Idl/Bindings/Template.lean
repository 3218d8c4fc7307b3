import Idl.Bindings.Naming
import Idl.Text.Quote

/-!
# Templates

A template is text with places that are filled in from data: a field, a part that depends on a
condition, a part for each item of a list, or another template by its name.

* §1 data, §2 expressions, §3 templates,
* §4 filling in: the value of `$` in a template is the data that it was called with,
* §5 short forms for writing templates down.
-/

namespace Idl.Template

/-! ## §1 Data -/

/-- What a template is filled in from. -/
inductive Data where
  /-- No data were given. -/
  | absent
  | text (t : Bytes)
  | flag (b : Bool)
  | list (items : List Data)
  | record (fields : List (Bytes × Data))
deriving Inhabited

/-- Why a template cannot be filled in. -/
inductive Fault where
  | noField (name : Bytes)
  | noTemplate (name : Bytes)
  | wrongKind
  /-- Templates call each other without end. -/
  | endless
deriving DecidableEq, Repr

namespace Data

/-- A list of texts. -/
def texts (l : List Bytes) : Data := .list (l.map .text)

/-- A field of a record; there is none but the absent one where there are no data. -/
def field (d : Data) (name : Bytes) : Except Fault Data :=
  match d with
  | .absent => .ok .absent
  | .record fields => match fields.find? (·.1 == name) with
    | some (_, v) => .ok v
    | none => .error (.noField name)
  | _ => .error (.noField name)

/-- Whether data count as true: what is empty does not. -/
def isTrue : Data → Bool
  | .absent => false
  | .text t => !t.isEmpty
  | .flag b => b
  | .list l => !l.isEmpty
  | .record _ => true

/-- The items of a list. -/
def items : Data → Except Fault (List Data)
  | .list l => .ok l
  | .absent => .ok []
  | _ => .error .wrongKind

/-- The text of a text. -/
def asText : Data → Except Fault Bytes
  | .text t => .ok t
  | _ => .error .wrongKind

/-- The texts in a list of texts. -/
def asTexts (d : Data) : Except Fault (List Bytes) := do (← d.items).mapM asText

/-- How data are written into the text. -/
def written : Data → Except Fault Bytes
  | .absent => .ok "<no value>"
  | .text t => .ok t
  | .flag b => .ok (if b then "true" else "false")
  | .list l => do
    let shown ← l.mapM asText
    return "[" ++ Bytes.join " " shown ++ "]"
  | .record _ => .error .wrongKind

end Data

/-! ## §2 Expressions -/

/-- The functions that templates can call. -/
inductive Function where
  /-- The text between quotes. -/
  | quote
  /-- The name in another style. -/
  | pascal
  | camel
  | snake
  /-- Documentation as line comments. -/
  | comment
  /-- The texts of a list with a separator between them. -/
  | join
deriving DecidableEq, Repr

/-- What is written at a place. -/
inductive Expr where
  /-- The data at hand, or a field of theirs. -/
  | here (path : List Bytes)
  /-- The data that the template was called with, or a field of theirs. -/
  | root (path : List Bytes)
  | literal (t : Bytes)
  | nothing
  | call (f : Function) (args : List Expr)

/-- Documentation as line comments: each line of each text is a line of its own, with an indent and
a mark in front of it and without the spaces at its end. -/
def comment (mark indent : Bytes) (docs : List Bytes) : Bytes :=
  docs.flatMap fun doc => (Bytes.split 0x0A doc).flatMap fun line =>
    indent ++ Bytes.dropTailWhile (· == 0x20) (mark ++ " " ++ line) ++ "\n"

/-- Calls a function. -/
def Function.apply : Function → List Data → Except Fault Data
  | .quote, args => do return .text (Bytes.join " " ((← args.mapM Data.written).map Idl.quote))
  | .pascal, [d] => do return .text (Naming.pascal (← d.asText))
  | .camel, [d] => do return .text (Naming.camel (← d.asText))
  | .snake, [d] => do return .text (Naming.snake (← d.asText))
  | .comment, [mark, indent, docs] => do
    return .text (Template.comment (← mark.asText) (← indent.asText) (← docs.asTexts))
  | .join, [sep, l] => do return .text (Bytes.join (← sep.asText) (← l.asTexts))
  | _, _ => .error .wrongKind

/-- Follows a path of fields. -/
def follow (d : Data) (path : List Bytes) : Except Fault Data := path.foldlM Data.field d

mutual

/-- The value of an expression. -/
def eval (root here : Data) : Expr → Except Fault Data
  | .here path => follow here path
  | .root path => follow root path
  | .literal t => .ok (.text t)
  | .nothing => .ok .absent
  | .call f args => do f.apply (← evalAll root here args)

/-- The values of expressions. -/
def evalAll (root here : Data) : List Expr → Except Fault (List Data)
  | [] => .ok []
  | e :: r => do return (← eval root here e) :: (← evalAll root here r)

end

/-! ## §3 Templates -/

/-- A part of a template. -/
inductive Node where
  | text (t : Bytes)
  /-- The value of an expression. -/
  | value (e : Expr)
  /-- Another template, called with the value of an expression. -/
  | use (name : Bytes) (e : Expr)
  | cond (e : Expr) (yes no : List Node)
  /-- A part for each item of a list, or another one if there are none. -/
  | each (e : Expr) (body otherwise : List Node)
  /-- A part about the value of an expression, or another one if it does not count as true. -/
  | about (e : Expr) (body otherwise : List Node)

/-- Templates by name; of several with one name the first counts. -/
abbrev Library := List (Bytes × List Node)

/-- Whether a part contributes nothing but blanks. -/
def Node.isBlank : Node → Bool
  | .text t => t.all fun b => b == 0x20 || (0x09 ≤ b && b ≤ 0x0D)
  | _ => false

namespace Library

/-- The template of a name. -/
def get? (l : Library) (name : Bytes) : Option (List Node) :=
  (l.find? (·.1 == name)).map (·.2)

/-- Adds a template in front of the others. A blank one replaces nothing. -/
def add (l : Library) (name : Bytes) (body : List Node) : Library :=
  if body.all Node.isBlank && (l.get? name).isSome then l else (name, body) :: l

end Library

/-! ## §4 Filling in -/

mutual

/-- Fills in one part. `call` fills in other templates. -/
def fillNode (call : Bytes → Data → Except Fault Bytes) (root here : Data) :
    Node → Except Fault Bytes
  | .text t => .ok t
  | .value e => do (← eval root here e).written
  | .use name e => do call name (← eval root here e)
  | .cond e yes no => do
    if (← eval root here e).isTrue then fill call root here yes else fill call root here no
  | .each e body otherwise => do
    let items ← (← eval root here e).items
    if items.isEmpty then fill call root here otherwise
    else
      let parts ← items.mapM fun item => fill call root item body
      return parts.flatten
  | .about e body otherwise => do
    let d ← eval root here e
    if d.isTrue then fill call root d body else fill call root here otherwise

/-- Fills in parts one after another. -/
def fill (call : Bytes → Data → Except Fault Bytes) (root here : Data) :
    List Node → Except Fault Bytes
  | [] => .ok []
  | n :: r => do
    let first ← fillNode call root here n
    let rest ← fill call root here r
    return first ++ rest

end

/-- Fills in a template by name, with calls nested at most `depth` deep. -/
def fillNamed (l : Library) : (depth : Nat) → Bytes → Data → Except Fault Bytes
  | 0, _, _ => .error .endless
  | depth + 1, name, d => match l.get? name with
    | none => .error (.noTemplate name)
    | some body => fill (fillNamed l depth) d d body

/-- How deep data are nested at most. -/
def maxNesting : Nat := 5

/-- Fills in a template by name. A call with the data of an outer call to the same template would
go on for ever, so calls need not be nested deeper than there are templates and data to call them
with. -/
def render (l : Library) (name : Bytes) (d : Data) : Except Fault Bytes :=
  fillNamed l (maxNesting * (l.length + 1)) name d

/-! ## §5 Short forms -/

namespace Short

/-- Text. -/
def t (text : Bytes) : Node := .text text

/-- A field of the data at hand. -/
def f (name : Bytes) : Node := .value (.here [name])

/-- A field of the data at hand, between quotes. -/
def q (name : Bytes) : Node := .value (.call .quote [.here [name]])

/-- A field of the data that the template was called with. -/
def top (name : Bytes) : Node := .value (.root [name])

/-- The documentation of the data at hand, as line comments. -/
def docs (mark indent : Bytes) : Node :=
  .value (.call .comment [.literal mark, .literal indent, .here ["Docs"]])

/-- The texts of a field, with commas between them. -/
def joined (name : Bytes) : Node := .value (.call .join [.literal ", ", .here [name]])

/-- Another template, called with the data at hand. -/
def use (name : Bytes) : Node := .use name (.here [])

/-- A part that depends on a field. -/
def cond (name : Bytes) (yes no : List Node) : Node := .cond (.here [name]) yes no

/-- A part for each item of a field. -/
def each (name : Bytes) (body : List Node) : Node := .each (.here [name]) body []

end Short

end Idl.Template
