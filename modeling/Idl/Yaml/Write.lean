import Idl.Json
import Idl.Text.Base64
import Idl.Yaml.Cursor
import Idl.Yaml.Scalar

/-!
# Writing YAML

A value is written in block style: one member or item a line, each level two columns deeper. What
needs a decision is how a text is written: bare if it reads as itself, else in quotes, as a block
with its lines, or in base64 if it is no text at all.
-/

namespace Idl.Yaml

/-! ## §1 Characters -/

/-- The characters that are written as themselves inside double quotes and blocks. -/
def isPrintable (c : Char) : Bool :=
  let n := c.toNat
  n == 0x0A || (0x20 ≤ n && n ≤ 0x7E) || (0xA0 ≤ n && n ≤ 0xD7FF)
    || (0xE000 ≤ n && n ≤ 0xFFFD && n != 0xFEFF)

/-- The characters that mean something at the start of a value. -/
def isIndicator (c : Char) : Bool :=
  "#,[]\x7b\x7d&*!|>\"%@".toList.contains c || c.toNat == 0x27 || c.toNat == 0x60

/-! ## §2 What a text allows -/

/-- Whether some two neighbours are as given. -/
def anyPair (p : Char → Char → Bool) : List Char → Bool
  | a :: b :: r => p a b || anyPair p (b :: r)
  | _ => false

/-- Whether the text starts like a marker between documents. -/
def startsLikeMarker (t : List Char) : Bool :=
  ['-', '-', '-'].isPrefixOf t || ['.', '.', '.'].isPrefixOf t

/-- Whether a part of the text would be taken for structure if it stood bare. -/
def hasIndicators (t : List Char) : Bool :=
  let first := match t with
    | [] => false
    | c :: r => isIndicator c
      || ((c == '?' || c == ':' || c == '-') && (r.head?.all isBlank))
  startsLikeMarker t || first
    || anyPair (fun a b => a == ':' && isBlank b) t || t.getLast? == some ':'
    || anyPair (fun a b => (isBlank a || isBreak a) && b == '#') t

/-- Whether the text starts or ends with a space or a line break. -/
def hasLooseEnd (t : List Char) : Bool :=
  let loose (c : Char) := c == ' ' || isBreak c
  t.head?.any loose || t.getLast?.any loose

/-- Whether a line ends in a space that is not the last of the text. -/
def hasSpaceBeforeBreak (t : List Char) : Bool := anyPair (fun a b => a == ' ' && isBreak b) t

/-- Whether a line but the first starts with a space. -/
def hasSpaceAfterBreak (t : List Char) : Bool := anyPair (fun a b => isBreak a && b == ' ') t

/-- Whether a character has to be escaped; tabs need not be. -/
def hasUnprintable (t : List Char) : Bool := t.any fun c => c != '\t' && !isPrintable c

/-- Whether the text can stand bare, its meaning aside. -/
def bareAllowed (t : List Char) : Bool :=
  !(hasIndicators t || hasLooseEnd t || t.any isBreak || t.contains '\t' || hasUnprintable t)

/-- Whether the text can stand in single quotes. -/
def singleAllowed (t : List Char) : Bool :=
  !(hasSpaceAfterBreak t || hasSpaceBeforeBreak t || t.contains '\t' || hasUnprintable t)

/-- Whether the text can be written as a block. -/
def blockAllowed (t : List Char) : Bool :=
  !(t.getLast? == some ' ' || hasSpaceBeforeBreak t || hasUnprintable t)

/-- How a text is written. -/
inductive Style where
  | bare
  | single
  | double
  | block
deriving DecidableEq, Repr

/-- The style of a text that is `readable` without quotes. A text with line feeds is a block where
that is possible. -/
def Style.choose (readable : Bool) (t : List Char) : Style :=
  if t.contains '\n' then (if blockAllowed t then .block else .double)
  else if !readable then .double
  else if bareAllowed t then .bare
  else if singleAllowed t then .single
  else .double

/-! ## §3 The styles -/

/-- Spaces up to a column. -/
def margin (column : Nat) : Bytes := List.replicate column 0x20

/-- A character as an escape. -/
def escape (c : Char) : Bytes :=
  let n := c.toNat
  let hex (width : Nat) : Bytes := Bytes.toUpper (Bytes.hexDigits width n)
  if n == 0x00 then "\\0"
  else if n == 0x07 then "\\a"
  else if n == 0x08 then "\\b"
  else if n == 0x09 then "\\t"
  else if n == 0x0A then "\\n"
  else if n == 0x0B then "\\v"
  else if n == 0x0C then "\\f"
  else if n == 0x0D then "\\r"
  else if n == 0x1B then "\\e"
  else if n == 0x22 then "\\\""
  else if n == 0x5C then "\\\\"
  else if n == 0x85 then "\\N"
  else if n == 0x2028 then "\\L"
  else if n == 0x2029 then "\\P"
  else if n ≤ 0xFF then "\\x" ++ hex 2
  else if n ≤ 0xFFFF then "\\u" ++ hex 4
  else "\\U" ++ hex 8

/-- Double quotes. A text that starts with a byte order mark is escaped throughout. -/
def doubleQuoted (t : List Char) : Bytes :=
  let marked := t.head?.any fun c => c.toNat == 0xFEFF
  let one (c : Char) : Bytes :=
    if marked || !isPrintable c || isBreak c || c == '"' || c == '\\' then escape c
    else Utf8.ofChar c
  "\"" ++ t.flatMap one ++ "\""

/-- The text inside single quotes: a quote is written twice, and a line goes on at the margin. -/
def singleQuotedBody (column : Nat) (fresh : Bool) : List Char → Bytes
  | [] => []
  | c :: r =>
    if isBreak c then Utf8.ofChar c ++ singleQuotedBody column true r
    else if c == ' ' then Utf8.ofChar c ++ singleQuotedBody column fresh r
    else
      let lead := if fresh then margin column else []
      let quote : Bytes := if c.toNat == 0x27 then [0x27] else []
      lead ++ quote ++ Utf8.ofChar c ++ singleQuotedBody column false r

/-- Single quotes. -/
def singleQuoted (column : Nat) (t : List Char) : Bytes :=
  [0x27] ++ singleQuotedBody column false t ++ [0x27]

/-- The marks after the bar of a block: the indentation, where the first line would hide it, and
what becomes of the line breaks at the end. -/
def blockMarks (t : List Char) : Bytes :=
  let indent : Bytes := if t.head?.any fun c => c == ' ' || isBreak c then "2" else []
  let ending : Bytes := match t.reverse with
    | [] => "-"
    | [c] => if isBreak c then "+" else "-"
    | c :: d :: _ => if !isBreak c then "-" else if isBreak d then "+" else []
  indent ++ ending

/-- The lines of a block at a margin; an empty line has none. -/
def blockLines (column : Nat) (fresh : Bool) : List Char → Bytes
  | [] => []
  | c :: r =>
    if isBreak c then Utf8.ofChar c ++ blockLines column true r
    else (if fresh then margin column else []) ++ Utf8.ofChar c ++ blockLines column false r

/-- A block. Its first line starts after a line break, which may be one of the text's own. -/
def blockText (column : Nat) (t : List Char) : Bytes :=
  let start : Bytes := if t.head?.any isBreak then [] else "\n"
  "|" ++ blockMarks t ++ start ++ blockLines column true t

/-- A text in a style, at a margin for the lines after the first. -/
def Style.write (s : Style) (column : Nat) (t : List Char) : Bytes :=
  match s with
  | .bare => Utf8.ofChars t
  | .single => singleQuoted column t
  | .double => doubleQuoted t
  | .block => blockText column t

/-! ## §4 Scalars -/

/-- Octets in base64. Long ones are cut into lines, each of which ends in a line feed. -/
def base64Text (b : Bytes) : Bytes :=
  let e := Base64.encode b
  if e.length < 70 then e
  else (List.range ((e.length + 69) / 70)).flatMap fun i => (e.drop (70 * i)).take 70 ++ [0x0A]

/-- A text; octets that are none are tagged as such. -/
def writeText (column : Nat) (b : Bytes) : Bytes :=
  if Utf8.isValid b then
    let t := Utf8.chars b
    (Style.choose (readsAsText b) t).write column t
  else
    let t := Utf8.chars (base64Text b)
    "!!binary " ++ (Style.choose true t).write column t

/-- A line that ends, unless it has ended. -/
def endLine (b : Bytes) : Bytes :=
  match b.getLast? with
  | some 0x0A => b
  | _ => b ++ [0x0A]

/-- Whether a text ends in a line separator or a paragraph separator, which end a line too. -/
def endsInSeparator (b : Bytes) : Bool :=
  Bytes.endsWith b [0xE2, 0x80, 0xA8] || Bytes.endsWith b [0xE2, 0x80, 0xA9]

/-! ## §5 Values -/

/-- What stands before a list or an object: in an item it starts on the same line. -/
def opening (item : Bool) (column : Nat) : Bytes :=
  if item then " " else "\n" ++ margin column

mutual

/-- What follows the key of a member, or the mark of an item if `item` holds, at a column. -/
def writeValue (item : Bool) (column : Nat) : Json → Bytes
  | .null => " null\n"
  | .bool true => " true\n"
  | .bool false => " false\n"
  | .num t => " " ++ t ++ "\n"
  | .str s =>
    let t := " " ++ writeText (column + 2) s
    if endsInSeparator t then t else endLine t
  | .arr [] => " []\n"
  | .arr (v :: r) =>
    opening item (column + 2) ++ writeItems (column + 2) (v :: r)
  | .obj [] => " \x7b\x7d\n"
  | .obj (m :: r) =>
    opening item (column + 2) ++ writeMembers (column + 2) (m :: r)

/-- The items of a list at a column; the first stands where the list starts. -/
def writeItems (column : Nat) : List Json → Bytes
  | [] => []
  | [v] => "-" ++ writeValue true column v
  | v :: r => "-" ++ writeValue true column v ++ margin column ++ writeItems column r

/-- The members of an object at a column; the first stands where the object starts. -/
def writeMembers (column : Nat) : List (Bytes × Json) → Bytes
  | [] => []
  | [(k, v)] => k ++ ":" ++ writeValue false column v
  | (k, v) :: r =>
    k ++ ":" ++ writeValue false column v ++ margin column ++ writeMembers column r

end

/-- A document with one value. Keys have to be plain names. -/
def write : Json → Bytes
  | .obj (m :: r) => writeMembers 0 (m :: r)
  | .arr (v :: r) => writeItems 0 (v :: r)
  | v => (writeValue true 0 v).drop 1

end Idl.Yaml
