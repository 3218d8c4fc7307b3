import Idl.Text.Utf8

/-!
# JSON values and their text

An object keeps its members in order, and a number is kept as it is written. Text is written either
compactly or with one member a line.
-/

namespace Idl

/-- A JSON value. -/
inductive Json where
  | null
  | bool (b : Bool)
  | num (numeral : Bytes)
  | str (s : Bytes)
  | arr (items : List Json)
  | obj (members : List (Bytes × Json))
deriving Repr, Inhabited

namespace Json

/-- The value of a whole number. -/
def nat (n : Nat) : Json := .num (Bytes.ofNat n)

/-- A member of an object. -/
def member (key : Bytes) (v : Json) : Bytes × Json := (key, v)

/-! ## §1 Strings -/

/-- How one glyph is written in a string. The signs `<`, `>` and `&` are escaped if `markup` holds,
so that the text can stand in a page. A stray octet is written as U+FFFD. -/
def writeGlyph (markup : Bool) (g : Glyph) : Bytes :=
  let c := g.toChar
  let n := c.toNat
  if n == 0x22 then "\\\""
  else if n == 0x5C then "\\\\"
  else if n == 0x08 then "\\b"
  else if n == 0x0C then "\\f"
  else if n == 0x0A then "\\n"
  else if n == 0x0D then "\\r"
  else if n == 0x09 then "\\t"
  else if n < 0x20 || n == 0x2028 || n == 0x2029
      || (markup && (n == 0x3C || n == 0x3E || n == 0x26)) then
    "\\u" ++ Bytes.hexDigits 4 n
  else Utf8.ofChar c

/-- A string with its quotes. -/
def writeString (markup : Bool) (s : Bytes) : Bytes :=
  "\"" ++ (Utf8.glyphs s).flatMap (writeGlyph markup) ++ "\""

/-! ## §2 Compact text -/

mutual

/-- The text of a value without any blank; markup signs are escaped. -/
def compact : Json → Bytes
  | .null => "null"
  | .bool true => "true"
  | .bool false => "false"
  | .num t => t
  | .str s => writeString true s
  | .arr items => "[" ++ compactItems items ++ "]"
  | .obj members => "\x7b" ++ compactMembers members ++ "\x7d"

/-- The items of a list, with commas between them. -/
def compactItems : List Json → Bytes
  | [] => []
  | [v] => compact v
  | v :: r => compact v ++ "," ++ compactItems r

/-- The members of an object, with commas between them. -/
def compactMembers : List (Bytes × Json) → Bytes
  | [] => []
  | [(k, v)] => writeString true k ++ ":" ++ compact v
  | (k, v) :: r => writeString true k ++ ":" ++ compact v ++ "," ++ compactMembers r

end

/-! ## §3 Indented text -/

/-- A new line at a depth; each level is two spaces. -/
def newLine (depth : Nat) : Bytes := 0x0A :: List.replicate (2 * depth) 0x20

mutual

/-- The text of a value with each item and member on a line of its own, `depth` levels deep. Empty
lists and objects stay on one line. -/
def indented (markup : Bool) (depth : Nat) : Json → Bytes
  | .null => "null"
  | .bool true => "true"
  | .bool false => "false"
  | .num t => t
  | .str s => writeString markup s
  | .arr [] => "[]"
  | .arr (v :: r) => "[" ++ indentedItems markup (depth + 1) (v :: r) ++ newLine depth ++ "]"
  | .obj [] => "\x7b\x7d"
  | .obj (m :: r) =>
    "\x7b" ++ indentedMembers markup (depth + 1) (m :: r) ++ newLine depth ++ "\x7d"

/-- The items of a list, each on its line. -/
def indentedItems (markup : Bool) (depth : Nat) : List Json → Bytes
  | [] => []
  | [v] => newLine depth ++ indented markup depth v
  | v :: r => newLine depth ++ indented markup depth v ++ "," ++ indentedItems markup depth r

/-- The members of an object, each on its line. -/
def indentedMembers (markup : Bool) (depth : Nat) : List (Bytes × Json) → Bytes
  | [] => []
  | [(k, v)] => newLine depth ++ writeString markup k ++ ": " ++ indented markup depth v
  | (k, v) :: r =>
    newLine depth ++ writeString markup k ++ ": " ++ indented markup depth v ++ ","
      ++ indentedMembers markup depth r

end

end Json

end Idl
