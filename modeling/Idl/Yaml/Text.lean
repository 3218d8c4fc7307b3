import Idl.Yaml.Cursor

/-!
# Texts inside YAML

The three ways in which a text is spelled: bare, in quotes, and as a block of lines. Each reader
goes through the characters once and carries what it has seen of the blanks since the last other
character: only the next character tells what becomes of them. Line breaks inside bare and quoted
text fold: one becomes a space, and of several the first is dropped.
-/

namespace Idl.Yaml

/-- Text read so far, last character first, and the blanks after it. -/
structure Folding where
  text : List Char := []
  /-- The blanks, while they are all on one line. -/
  blanks : List Char := []
  /-- Whether the line has ended. -/
  ended : Bool := false
  /-- The first line break, unless it was escaped. -/
  first : Option Char := none
  /-- The line breaks after the first. -/
  more : List Char := []
deriving DecidableEq, Repr

namespace Folding

/-- Whether any blank or break is still open. -/
def pending (f : Folding) : Bool := f.ended || !f.blanks.isEmpty

/-- Adds a blank, which only counts while the line goes on. -/
def addBlank (f : Folding) (c : Char) : Folding :=
  if f.ended then f else { f with blanks := c :: f.blanks }

/-- Adds a line break. -/
def addBreak (f : Folding) (c : Char) : Folding :=
  if f.ended then { f with more := c :: f.more }
  else { f with blanks := [], ended := true, first := some c }

/-- What the open blanks and breaks become, last character first. -/
def joined (f : Folding) : List Char :=
  if !f.ended then f.blanks
  else if f.first == some '\n' then (if f.more.isEmpty then [' '] else f.more)
  else f.more ++ f.first.toList

/-- The text with its blanks settled. -/
def settle (f : Folding) : Folding := { text := f.joined ++ f.text }

/-- Adds a character after settling the blanks. -/
def add (f : Folding) (c : Char) : Folding := { text := c :: (f.joined ++ f.text) }

end Folding

/-! ## §1 Bare text -/

/-- What a bare text may depend on: whether it stands in brackets, and the least column at which a
line can go on. -/
structure BareContext where
  inFlow : Bool
  floor : Nat

/-- The characters that end a bare text in brackets. -/
def isFlowMark (c : Char) : Bool := ",?[]\x7b\x7d".toList.contains c

/-- Whether a bare text ends in front of the rest. -/
def BareContext.stops (x : BareContext) (f : Folding) (m : Mark) (c : Char) (r : List Char) :
    Bool :=
  (f.pending && ((!x.inFlow && m.column < x.floor) || isMarker m (c :: r) || c == '#'))
    || (c == ':' && endsWord r) || (x.inFlow && isFlowMark c)

/-- Reads bare text. The blanks after it belong to it, but not to its content. A tab in place of
the indentation of a further line is refused. -/
def scanBare (x : BareContext) (f : Folding) (m : Mark) : List Char → Option (Folding × Cursor)
  | [] => some (f, ⟨m, []⟩)
  | c :: r =>
    if isBlank c then
      if f.ended && m.column < x.floor && c == '\t' then none
      else scanBare x (f.addBlank c) (m.after c) r
    else if isBreak c then scanBare x (f.addBreak c) (m.after c) r
    else if x.stops f m c r then some (f, ⟨m, c :: r⟩)
    else scanBare x (f.add c) (m.after c) r

/-! ## §2 Quoted text -/

/-- The character that an escape of one letter stands for. -/
def escaped? (c : Char) : Option Char :=
  let table : List (Char × Nat) :=
    [('0', 0x00), ('a', 0x07), ('b', 0x08), ('t', 0x09), ('\t', 0x09), ('n', 0x0A), ('v', 0x0B),
     ('f', 0x0C), ('r', 0x0D), ('e', 0x1B), (' ', 0x20), ('"', 0x22), (Char.ofNat 0x27, 0x27),
     ('\\', 0x5C), ('N', 0x85), ('_', 0xA0), ('L', 0x2028), ('P', 0x2029)]
  (table.lookup c).map Char.ofNat

/-- The number of hexadecimal digits after an escape letter. -/
def escapeWidth (c : Char) : Nat :=
  if c == 'x' then 2 else if c == 'u' then 4 else if c == 'U' then 8 else 0

/-- The octet of an ASCII character, and a nought for any other. -/
def asciiOctet (c : Char) : UInt8 := if c.toNat < 0x80 then c.toNat.toUInt8 else 0

/-- The character that a number of hexadecimal digits at the front stands for. -/
def hexChar? (width : Nat) (rest : List Char) : Option Char :=
  let digits := (rest.take width).map asciiOctet
  let n := Bytes.toNat 16 digits
  if digits.length == width && digits.all Bytes.isHexDigit && n.isValidChar then some (Char.ofNat n)
  else none

/-- What an escape at the front, after its backslash, stands for, and the number of characters
after its letter that belong to it. -/
def escape? (c : Char) (r : List Char) : Option (Char × Nat) :=
  match escaped? c with
  | some e => some (e, 0)
  | none =>
    let width := escapeWidth c
    if width == 0 then none else (hexChar? width r).map fun e => (e, width)

/-- Reads the text up to the closing quote, after skipping the characters that belong to an escape.
A marker between documents is refused. -/
def scanQuoted (double : Bool) (f : Folding) (m : Mark) (skip : Nat) :
    List Char → Option (List Char × Cursor)
  | [] => none
  | c :: r =>
    let m' := m.after c
    match skip with
    | n + 1 => scanQuoted double f m' n r
    | 0 =>
      if isBlank c then scanQuoted double (f.addBlank c) m' 0 r
      else if isBreak c then scanQuoted double (f.addBreak c) m' 0 r
      else if isMarker m (c :: r) then none
      else if double then
        if c == '"' then some (f.settle.text.reverse, ⟨m', r⟩)
        else if c == '\\' then
          match r with
          | [] => none
          | e :: tail =>
            if isBreak e then scanQuoted true { f.settle with ended := true } m' 1 r
            else match escape? e tail with
              | none => none
              | some (v, n) => scanQuoted true (f.add v) m' (n + 1) r
        else scanQuoted true (f.add c) m' 0 r
      else if c.toNat == 0x27 then
        if r.head? == some c then scanQuoted false (f.add c) m' 1 r
        else some (f.settle.text.reverse, ⟨m', r⟩)
      else scanQuoted false (f.add c) m' 0 r

/-! ## §3 Blocks of lines -/

/-- What becomes of the line breaks at the end of a block. -/
inductive Chomp where
  | strip
  | clip
  | keep
deriving DecidableEq, Repr

/-- The marks after the bar or the angle: what becomes of the end, and the indentation if given. -/
structure BlockHeader where
  chomp : Chomp
  indent : Option Nat

/-- The mark for the end of a block. -/
def chomp? (c : Char) : Option Chomp :=
  if c == '+' then some .keep else if c == '-' then some .strip else none

/-- A digit for the indentation. -/
def indent? (c : Char) : Option Nat := if c.isDigit then some (c.toNat - 0x30) else none

/-- Reads the marks, in either order, and the rest of their line, which may hold a comment. -/
def blockHeader? (at_ : Cursor) : Option (BlockHeader × Cursor) :=
  let (chomp, indent, used) : Option Chomp × Option Nat × Nat :=
    match at_.rest with
    | a :: r =>
      let second := r.head?
      match chomp? a, indent? a with
      | some k, _ => match second.bind indent? with
        | some n => (some k, some n, 2)
        | none => (some k, none, 1)
      | none, some n => match second.bind chomp? with
        | some k => (some k, some n, 2)
        | none => (none, some n, 1)
      | none, none => (none, none, 0)
    | [] => (none, none, 0)
  let c := (at_.skip used).dropWhile isBlank
  let c := if c.rest.head? == some '#' then c.dropLine else c
  if indent == some 0 || !endsLine c.rest then none
  else some (⟨chomp.getD .clip, indent⟩, c.next)

/-- The column of the first line with content, or of a longer line of spaces before it. A tab
before the content is refused. -/
def firstColumn? (most column : Nat) : List Char → Option Nat
  | [] => some (max most column)
  | c :: r =>
    if c == ' ' then firstColumn? most (column + 1) r
    else if c == '\t' then none
    else if isBreak c then firstColumn? (max most column) 0 r
    else some (max most column)

/-- The state of reading a block: the text last character first, the break after the last line,
the breaks after that, whether the last line started with a blank, and whether we are in a line. -/
structure BlockState where
  text : List Char := []
  first : Option Char := none
  more : List Char := []
  blankLine : Bool := false
  inLine : Bool := false

namespace BlockState

/-- Starts a line with its first character. In a folded block the break between two lines that do
not start with a blank becomes a space, or nothing if there are more breaks. -/
def startLine (folded : Bool) (s : BlockState) (c : Char) : BlockState :=
  let lead : List Char :=
    if folded && !s.blankLine && !isBlank c && s.first == some '\n' then
      (if s.more.isEmpty then [' '] else [])
    else s.first.toList
  { text := c :: (s.more ++ lead ++ s.text), blankLine := isBlank c, inLine := true }

/-- The text in the end. -/
def finish (s : BlockState) (chomp : Chomp) : List Char :=
  let tail := match chomp with
    | .strip => []
    | .clip => s.first.toList
    | .keep => s.more ++ s.first.toList
  (tail ++ s.text).reverse

end BlockState

/-- Reads the lines of a block, which start at the given column. -/
def scanBlockLines (folded : Bool) (indent : Nat) (s : BlockState) (m : Mark) :
    List Char → Option (BlockState × Cursor)
  | [] => some (s, ⟨m, []⟩)
  | c :: r =>
    let m' := m.after c
    if s.inLine then
      if isBreak c then
        scanBlockLines folded indent { s with first := some c, inLine := false } m' r
      else scanBlockLines folded indent { s with text := c :: s.text } m' r
    else if isBreak c then scanBlockLines folded indent { s with more := c :: s.more } m' r
    else if m.column < indent && c == ' ' then scanBlockLines folded indent s m' r
    else if m.column < indent && c == '\t' then none
    else if m.column == indent then
      scanBlockLines folded indent (s.startLine folded c) m' r
    else some (s, ⟨m, c :: r⟩)

/-- Reads a block after its first sign. `floor` is the least column of its content, and `base` the
column that a given indentation counts from. -/
def scanBlock (folded : Bool) (floor base : Nat) (at_ : Cursor) : Option (List Char × Cursor) := do
  let (header, c) ← blockHeader? at_
  let indent ← match header.indent with
    | some n => some (base + n)
    | none => (firstColumn? 0 0 c.rest).map fun n => max (max n floor) 1
  let (s, c) ← scanBlockLines folded indent {} c.mark c.rest
  return (s.finish header.chomp, c)

end Idl.Yaml
