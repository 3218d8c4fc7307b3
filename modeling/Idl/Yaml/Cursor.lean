import Idl.Text.Utf8

/-!
# Places in a YAML text

Structure depends on columns and on whether two things stand on one line, so the place is kept
beside what is left to read.
-/

namespace Idl.Yaml

/-! ## §1 Characters -/

/-- Blanks are spaces and tabs. -/
def isBlank (c : Char) : Bool := c == ' ' || c == '\t'

/-- The characters that end a line. -/
def isBreak (c : Char) : Bool :=
  c == '\n' || c == '\r' || c.toNat == 0x85 || c.toNat == 0x2028 || c.toNat == 0x2029

/-- The characters of names. -/
def isNameChar (c : Char) : Bool := c.isAlphanum || c == '_' || c == '-'

/-- The characters that a text may hold at all. -/
def isAllowed (c : Char) : Bool :=
  let n := c.toNat
  n == 0x09 || n == 0x0A || n == 0x0D || (0x20 ≤ n && n ≤ 0x7E) || n == 0x85
    || (0xA0 ≤ n && n ≤ 0xFFFD) || 0x10000 ≤ n

/-- The text with every line ending in a line feed. A carriage return and a line feed are one line
ending; the two Unicode separators stay as they are. -/
def normalizeBreaks : List Char → List Char
  | '\r' :: '\n' :: r => '\n' :: normalizeBreaks r
  | c :: r => (if c == '\r' || c.toNat == 0x85 then '\n' else c) :: normalizeBreaks r
  | [] => []

/-- The characters of a text that can be read at all, without a byte order mark. -/
def characters? (b : Bytes) : Option (List Char) :=
  if !Utf8.isValid b then none
  else
    let cs := match Utf8.chars b with
      | c :: r => if c.toNat == 0xFEFF then r else c :: r
      | [] => []
    if cs.all isAllowed then some (normalizeBreaks cs) else none

/-! ## §2 Places -/

/-- A place: its line and column, and the number of characters before it. -/
structure Mark where
  line : Nat
  column : Nat
  index : Nat
deriving DecidableEq, Repr

/-- The first place. -/
def Mark.start : Mark := ⟨0, 0, 0⟩

/-- The place after a character. -/
def Mark.after (m : Mark) (c : Char) : Mark :=
  if isBreak c then ⟨m.line + 1, 0, m.index + 1⟩ else ⟨m.line, m.column + 1, m.index + 1⟩

/-- What is left to read, and where it starts. -/
structure Cursor where
  mark : Mark
  rest : List Char
deriving DecidableEq, Repr

namespace Cursor

/-- The cursor after one character. -/
def next (c : Cursor) : Cursor :=
  match c.rest with
  | [] => c
  | a :: r => ⟨c.mark.after a, r⟩

/-- The cursor after a number of characters. -/
def skip (c : Cursor) (n : Nat) : Cursor :=
  ⟨(c.rest.take n).foldl Mark.after c.mark, c.rest.drop n⟩

/-- The characters at the front with a property, and the cursor after them. -/
def span (c : Cursor) (p : Char → Bool) : List Char × Cursor :=
  let taken := c.rest.takeWhile p
  (taken, c.skip taken.length)

/-- The cursor after the characters at the front with a property. -/
def dropWhile (c : Cursor) (p : Char → Bool) : Cursor := (c.span p).2

/-- The cursor after the rest of the line, which it does not end. -/
def dropLine (c : Cursor) : Cursor := c.dropWhile (!isBreak ·)

end Cursor

/-- Whether a blank, a line break or the end comes next. -/
def endsWord (rest : List Char) : Bool := rest.head?.all fun c => isBlank c || isBreak c

/-- Whether a line break or the end comes next. -/
def endsLine (rest : List Char) : Bool := rest.head?.all isBreak

/-- Whether three times the character and the end of a word come next. -/
def isTriple (a : Char) (rest : List Char) : Bool :=
  [a, a, a].isPrefixOf rest && endsWord (rest.drop 3)

/-- Whether a marker between documents comes next, which stands at the start of a line. -/
def isMarker (m : Mark) (rest : List Char) : Bool :=
  m.column == 0 && (isTriple '-' rest || isTriple '.' rest)

end Idl.Yaml
