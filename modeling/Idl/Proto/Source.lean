import Idl.Proto

/-!
# Descriptors as protobuf sources

The text of a descriptor in the protobuf language. Documented elements come before the others in
each scope, with their documentation as comments.
-/

namespace Idl.Proto.Source

/-- The lines of one element. -/
abbrev Block := List Bytes

/-- How an octet is written in a text: everything outside of printable ASCII by its octal number. A
double quote is written as a backslash alone. -/
def quoteOctet (c : UInt8) : Bytes :=
  let octal (n : Nat) : UInt8 := Bytes.digit (n % 8)
  if c == 0x0A then "\\n"
  else if c == 0x0D then "\\r"
  else if c == 0x09 then "\\t"
  else if c == 0x22 then "\\"
  else if c == 0x5C then "\\\\"
  else if 0x20 ≤ c && c < 0x7F then [c]
  else 0x5C :: [octal (c.toNat / 64), octal (c.toNat / 8), octal c.toNat]

/-- A text between quotes. -/
def quoted (t : Bytes) : Bytes := "\"" ++ t.flatMap quoteOctet ++ "\""

/-- The lines of a comment. -/
def comment (text : Bytes) : Block :=
  let lines := Bytes.split 0x0A text
  let lines := if lines.head? == some [] then lines.drop 1 else lines
  let lines := if lines.getLast? == some [] then lines.dropLast else lines
  lines.map fun l => Bytes.dropTailWhile (fun c => c == 0x20 || c == 0x09) ("//" ++ l)

/-- The name of a message within the innermost of the scopes that it is in. Scopes are full names
without the leading point. -/
def relativeName (scopes : List Bytes) (name : Bytes) : Bytes :=
  let name := name.drop 1
  match scopes.find? fun s => Bytes.startsWith name (s ++ ".") with
  | some s => name.drop (s.length + 1)
  | none => name

/-- The scopes from the inside to the outside: those of a full name, as far out as the package. -/
def scopesOf (package : Bytes) (inner : Option Bytes) : List Bytes :=
  let package := if package.isEmpty then [] else [package]
  match inner with
  | some n => (fullName (package.headD []) n).drop 1 :: package
  | none => package

/-- The name of a plain type. -/
def kindName : Kind → Bytes
  | .double => "double"
  | .float => "float"
  | .int64 => "int64"
  | .uint64 => "uint64"
  | .int32 => "int32"
  | .bool => "bool"
  | .string => "string"
  | .bytes => "bytes"
  | .uint32 => "uint32"

/-- The name of a type. -/
def typeName (scopes : List Bytes) : FieldType → Bytes
  | .plain k => kindName k
  | .message name => relativeName scopes name
  | .unknown => []

/-- An element with its comment, if it has one. -/
structure Element where
  comment : Option Bytes
  body : Block

/-- The lines of an element. -/
def Element.block (e : Element) : Block := (e.comment.map Source.comment).getD [] ++ e.body

/-- The blocks of elements, documented ones first. -/
def arrange (l : List Element) : List Block :=
  (l.filter (·.comment.isSome) ++ l.filter (·.comment.isNone)).map Element.block

/-- Blocks with an empty line between them. -/
def spread (blocks : List Block) : Block := List.intercalate [[]] blocks

/-- Lines one level further in. -/
def indent (b : Block) : Block := b.map fun l => if l.isEmpty then l else "    " ++ l

/-- A body in braces. -/
def braces (heading : Bytes) (elements : List Element) : Block :=
  (heading ++ " \x7b") :: indent (spread (arrange elements)) ++ [("\x7d" : Bytes)]

/-- The comment at a path. -/
def commentAt (f : File) (path : List Nat) : Option Bytes :=
  (f.locations.find? (·.path == path)).map (·.comment)

/-- A field. -/
def field (f : File) (scopes : List Bytes) (i j : Nat) (d : Field) : Element where
  comment := commentAt f (fieldPath i j)
  body := [(if d.oneof.isSome then ("optional " : Bytes) else []) ++ typeName scopes d.type ++ " "
    ++ d.name ++ " = " ++ Bytes.ofNat d.number ++ ";"]

/-- A message. -/
def message (f : File) (i : Nat) (m : Message) : Element where
  comment := commentAt f (messagePath i)
  body := braces ("message " ++ m.name)
    (m.fields.mapIdx (field f (scopesOf f.package (some m.name)) i))

/-- A method. -/
def method (f : File) (i j : Nat) (m : Method) : Element where
  comment := commentAt f (methodPath i j)
  body := ["rpc " ++ m.name ++ " ( " ++ relativeName (scopesOf f.package none) m.input
    ++ " ) returns ( " ++ relativeName (scopesOf f.package none) m.output ++ " );"]

/-- A service. -/
def service (f : File) (i : Nat) (s : Service) : Element where
  comment := commentAt f (servicePath i)
  body := braces ("service " ++ s.name) (s.methods.mapIdx (method f i))

/-- The blocks of a file. -/
def blocks (f : File) : List Block :=
  let package : List Block :=
    if f.package.isEmpty then [] else [["package " ++ f.package ++ ";"]]
  let imports : List Block := f.dependencies.map fun d => ["import " ++ quoted d ++ ";"]
  let options : List Block :=
    f.goPackage.toList.map fun p => ["option go_package = " ++ quoted p ++ ";"]
  [[("syntax = \"proto3\";" : Bytes)]] ++ package ++ imports ++ options
    ++ arrange (f.messages.mapIdx (message f) ++ f.services.mapIdx (service f))

end Source

/-- The source text of a file. -/
def File.source (f : File) : Bytes :=
  (Source.spread (Source.blocks f)).flatMap fun l => l ++ "\n"

end Idl.Proto
