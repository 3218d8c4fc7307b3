import Idl.Yaml.Text

/-!
# Tokens of YAML

The text becomes a sequence of tokens that shows all structure: indentation becomes marks that open
and close lists and mappings, and a value that turns out to be a key has a key mark before it. As
that is known only when the colon comes, the place is noted and the mark is put in afterwards.

* §1 tokens, §2 names, tags and directives,
* §3 the state of reading and what may be a key,
* §4 blanks and comments, §5 the tokens one by one.
-/

namespace Idl.Yaml

/-! ## §1 Tokens -/

/-- A token. -/
inductive Token where
  | version (major minor : Nat)
  | tagShort (handle lead : Bytes)
  | documentStart
  | documentEnd
  | streamEnd
  | openBlockList
  | openBlockMap
  | closeBlock
  | openList
  | closeList
  | openMap
  | closeMap
  | item
  | comma
  | key
  | value
  | alias (name : Bytes)
  | anchor (name : Bytes)
  | tag (handle suffix : Bytes)
  /-- A scalar; `bare` if it has neither quotes nor bar. -/
  | scalar (bare : Bool) (text : Bytes)
deriving DecidableEq, Repr

/-! ## §2 Names, tags and directives -/

/-- A name after `&` or `*`, and what may follow it. -/
def anchorName? (at_ : Cursor) : Option (Bytes × Cursor) :=
  let (name, c) := at_.next.span isNameChar
  let ends := c.rest.head?.any fun a => "?:,]\x7d%@".toList.contains a || a.toNat == 0x60
  if name.isEmpty || !(endsWord c.rest || ends) then none else some (Utf8.ofChars name, c)

/-- The characters of a tag, escapes aside. -/
def isTagChar (c : Char) : Bool :=
  isNameChar c || ";/?:@&=+$,.!~*()[]".toList.contains c || c.toNat == 0x27

/-- The number of octets after a first octet of UTF-8. -/
def tailLength? (b : UInt8) : Option Nat :=
  if b < 0x80 then some 0
  else if b < 0xC0 then none
  else if b < 0xE0 then some 1
  else if b < 0xF0 then some 2
  else if b < 0xF8 then some 3
  else none

/-- Reads the characters of a tag, with escapes of a percent sign and two digits. `tail` is the
number of octets that still belong to an escaped character. -/
def scanTagText (tail : Nat) (acc : Bytes) (m : Mark) : List Char → Option (Bytes × Cursor)
  | '%' :: a :: b :: r =>
    let digits := [asciiOctet a, asciiOctet b]
    let octet := (Bytes.toNat 16 digits).toUInt8
    let m' := ((m.after '%').after a).after b
    if !digits.all Bytes.isHexDigit then none
    else match tail with
      | n + 1 => if Utf8.isTail octet then scanTagText n (octet :: acc) m' r else none
      | 0 => match tailLength? octet with
        | some n => scanTagText n (octet :: acc) m' r
        | none => none
  | rest@(c :: r) =>
    if tail > 0 || c == '%' then none
    else if isTagChar c then scanTagText 0 ((Utf8.ofChar c).reverse ++ acc) (m.after c) r
    else some (acc.reverse, ⟨m, rest⟩)
  | [] => if tail > 0 then none else some (acc.reverse, ⟨m, []⟩)

/-- A handle: an exclamation mark, a name, and a second mark if there is one. -/
def tagHandle? (at_ : Cursor) : Option (List Char × Cursor) :=
  if at_.rest.head? != some '!' then none
  else
    let (name, c) := at_.next.span isNameChar
    if c.rest.head? == some '!' then some ('!' :: name ++ ['!'], c.next) else some ('!' :: name, c)

/-- A tag: verbatim in angles, or a handle and a suffix. A lone mark has no handle. -/
def scanTag (at_ : Cursor) : Option (Token × Cursor) := do
  let (t, c) ←
    if at_.rest[1]? == some '<' then do
      let start := at_.skip 2
      let (text, c) ← scanTagText 0 [] start.mark start.rest
      if text.isEmpty || c.rest.head? != some '>' then none
      some (Token.tag [] text, c.next)
    else do
      let (handle, c) ← tagHandle? at_
      if handle.length > 1 && handle.getLast? == some '!' then do
        let (suffix, c) ← scanTagText 0 [] c.mark c.rest
        if suffix.isEmpty then none
        some (.tag (Utf8.ofChars handle) suffix, c)
      else do
        let (suffix, c) ← scanTagText 0 (Utf8.ofChars (handle.drop 1)).reverse c.mark c.rest
        some (if suffix.isEmpty then .tag [] "!" else .tag "!" suffix, c)
  if endsWord c.rest then some (t, c) else none

/-- A number of one or two digits. -/
def versionNumber? (at_ : Cursor) : Option (Nat × Cursor) :=
  let (digits, c) := at_.span Char.isDigit
  if digits.isEmpty || digits.length > 2 then none
  else some (Bytes.toNat 10 (digits.map asciiOctet), c)

/-- A directive with the rest of its line, which may hold a comment. -/
def scanDirective (at_ : Cursor) : Option (Token × Cursor) := do
  let (name, c) := at_.next.span isNameChar
  if name.isEmpty || !endsWord c.rest then none
  let c := c.dropWhile isBlank
  let (t, c) ←
    if name == "YAML".toList then do
      let (major, c) ← versionNumber? c
      if c.rest.head? != some '.' then none
      let (minor, c) ← versionNumber? c.next
      some (Token.version major minor, c)
    else if name == "TAG".toList then do
      let (handle, c) ← tagHandle? c
      if handle != ['!'] && handle.getLast? != some '!' then none
      if !c.rest.head?.any isBlank then none
      let c := c.dropWhile isBlank
      let (lead, c) ← scanTagText 0 [] c.mark c.rest
      if lead.isEmpty || !endsWord c.rest then none
      some (.tagShort (Utf8.ofChars handle) lead, c)
    else none
  let c := c.dropWhile isBlank
  let c := if c.rest.head? == some '#' then c.dropLine else c
  if endsLine c.rest then some (t, c.next) else none

/-! ## §3 The state of reading -/

/-- A value that may turn out to be a key. -/
structure PossibleKey where
  /-- The number of tokens before it. -/
  token : Nat
  /-- Whether nothing else can stand there. -/
  required : Bool
  mark : Mark
deriving DecidableEq, Repr

/-- A place between tokens where a key was found; `opens` if a mapping starts there too. -/
structure KeyPlace where
  token : Nat
  opens : Bool
deriving DecidableEq, Repr

/-- The state of reading. -/
structure Reader where
  cursor : Cursor
  /-- The tokens so far, the last one first, without the marks of found keys. -/
  tokens : List Token := []
  /-- The keys found, the last one first. -/
  found : List KeyPlace := []
  /-- The columns of the open block lists and mappings, the innermost first. -/
  indents : List Nat := []
  /-- The possible key at each level of brackets, the innermost first. -/
  keys : List (Option PossibleKey) := [none]
  /-- Whether a key may stand at the cursor. -/
  keyAllowed : Bool := true

namespace Reader

/-- The depth of brackets. -/
def flow (s : Reader) : Nat := s.keys.length - 1

/-- Whether the cursor is in no bracket. -/
def inBlock (s : Reader) : Bool := s.flow == 0

/-- The column of the cursor. -/
def column (s : Reader) : Nat := s.cursor.mark.column

/-- The least column of what belongs to the innermost block. -/
def floor (s : Reader) : Nat := match s.indents with
  | [] => 0
  | n :: _ => n + 1

/-- Adds a token. -/
def push (s : Reader) (t : Token) : Reader := { s with tokens := t :: s.tokens }

/-- Adds a token that ends after a number of characters. -/
def pushOver (s : Reader) (t : Token) (width : Nat) : Reader :=
  { s.push t with cursor := s.cursor.skip width }

/-- Closes the blocks that start beyond a column, given as the least column that stays open. -/
def unrollTo (s : Reader) (least : Nat) : Reader :=
  if s.inBlock then
    let closed := s.indents.takeWhile (· ≥ least)
    { s with
      indents := s.indents.drop closed.length
      tokens := closed.map (fun _ => Token.closeBlock) ++ s.tokens }
  else s

/-- Closes the blocks that start to the right of the cursor. -/
def unroll (s : Reader) : Reader := s.unrollTo (s.column + 1)

/-- Whether a block that starts at the column is a new one. -/
def isDeeper (s : Reader) (column : Nat) : Bool := s.inBlock && s.floor ≤ column

/-- Opens a block at the cursor, unless it is open. -/
def openBlock (s : Reader) (t : Token) : Reader :=
  if s.isDeeper s.column then { s.push t with indents := s.column :: s.indents } else s

/-- Gives up the possible key at this level; a required one cannot be given up. -/
def dropKey (s : Reader) : Option Reader :=
  match s.keys with
  | some k :: r => if k.required then none else some { s with keys := none :: r }
  | _ => some s

/-- Notes that what starts at the cursor may be a key. -/
def saveKey (s : Reader) : Option Reader :=
  if s.keyAllowed then do
    let k : PossibleKey := ⟨s.tokens.length, s.inBlock && s.indents.head? == some s.column,
      s.cursor.mark⟩
    let s ← s.dropKey
    return { s with keys := some k :: s.keys.drop 1 }
  else some s

/-- Whether the key can still be one: it has to be on the same line, and near. -/
def isCurrent (s : Reader) (k : PossibleKey) : Bool :=
  k.mark.line == s.cursor.mark.line && s.cursor.mark.index ≤ k.mark.index + 1024

/-! ## §4 Blanks and comments -/

/-- Whether the next thing after blanks and line breaks is another comment. -/
def commentFollows (rest : List Char) : Bool :=
  ((rest.take 511).dropWhile fun c => isBlank c || isBreak c).head? == some '#'

/-- Skips blanks, comments and line breaks. A tab counts as a blank where no key may stand, and
between two comments. After a line break a key may stand, unless we are in brackets. -/
def skipBlanks (inBlock allowed comment between : Bool) (m : Mark) : List Char → Bool × Cursor
  | [] => (allowed, ⟨m, []⟩)
  | c :: r =>
    let m' := m.after c
    if isBreak c then
      skipBlanks inBlock (allowed || inBlock) false (between || (comment && commentFollows r)) m' r
    else if comment then skipBlanks inBlock allowed true between m' r
    else if c == '#' then skipBlanks inBlock allowed true false m' r
    else if c == ' ' || (c == '\t' && (between || !inBlock || !allowed))
        || (c.toNat == 0xFEFF && m.column == 0) then
      skipBlanks inBlock allowed false between m' r
    else (allowed, ⟨m, c :: r⟩)

/-- Moves to the next token. -/
def toToken (s : Reader) : Reader :=
  let (allowed, c) := skipBlanks s.inBlock s.keyAllowed false false s.cursor.mark s.cursor.rest
  { s with keyAllowed := allowed, cursor := c }

/-- Skips a comment on the line of the token just read. -/
def skipComment (s : Reader) : Reader :=
  let c := s.cursor.dropWhile isBlank
  if c.rest.head? == some '#' then { s with cursor := c.dropLine } else s

/-! ## §5 Tokens one by one -/

/-- What starts a line of its own and closes all blocks: directives and markers. -/
def breakOff (s : Reader) : Option Reader := do
  let s ← (s.unrollTo 0).dropKey
  return { s with keyAllowed := false }

/-- An opening bracket. -/
def openFlow (s : Reader) (t : Token) : Option Reader := do
  let s ← s.saveKey
  if s.flow ≥ 10000 then none
  return { s.pushOver t 1 with keys := none :: s.keys, keyAllowed := true }

/-- A closing bracket. -/
def closeFlow (s : Reader) (t : Token) : Option Reader := do
  let s ← s.dropKey
  return { s.pushOver t 1 with
    keys := if s.flow > 0 then s.keys.drop 1 else s.keys, keyAllowed := false }

/-- A comma. -/
def flowEntry (s : Reader) : Option Reader := do
  let s ← s.dropKey
  return { s.pushOver .comma 1 with keyAllowed := true }

/-- A dash. In brackets it is a token too, which has no place there. -/
def blockEntry (s : Reader) : Option Reader := do
  if s.inBlock && !s.keyAllowed then none
  let s ← (s.openBlock .openBlockList).dropKey
  return { s.pushOver .item 1 with keyAllowed := true }

/-- A question mark. -/
def explicitKey (s : Reader) : Option Reader := do
  if s.inBlock && !s.keyAllowed then none
  let s ← (s.openBlock .openBlockMap).dropKey
  return { s.pushOver .key 1 with keyAllowed := s.inBlock }

/-- A colon: what was a possible key is one, or else the colon follows a question mark. -/
def valueMark (s : Reader) : Option Reader :=
  let plain : Option Reader :=
    if s.inBlock && !s.keyAllowed then none
    else
      let s' := s.openBlock .openBlockMap
      some { s'.pushOver .value 1 with keyAllowed := s.inBlock }
  match s.keys with
  | some k :: r =>
    if s.isCurrent k then
      let opens := s.isDeeper k.mark.column
      some { s.pushOver .value 1 with
        found := ⟨k.token, opens⟩ :: s.found
        indents := if opens then k.mark.column :: s.indents else s.indents
        keys := none :: r
        keyAllowed := false }
    else if k.required then none
    else plain
  | _ => plain

/-- A token that may be a key, with the cursor after it. -/
def keyLike (s : Reader) (scan : Reader → Option (Token × Cursor)) : Option Reader := do
  let s ← s.saveKey
  let (t, c) ← scan s
  return { s.push t with cursor := c, keyAllowed := false }

/-- An alias or an anchor. -/
def named (s : Reader) (make : Bytes → Token) : Option Reader :=
  s.keyLike fun s => (anchorName? s.cursor).map fun (n, c) => (make n, c)

/-- A text in quotes. -/
def quoted (s : Reader) (double : Bool) : Option Reader :=
  s.keyLike fun s =>
    let c := s.cursor.next
    (scanQuoted double {} c.mark 0 c.rest).map fun (t, c) => (.scalar false (Utf8.ofChars t), c)

/-- A bare text, which may reach over several lines. -/
def bare (s : Reader) : Option Reader := do
  let s ← s.saveKey
  let (f, c) ← scanBare ⟨!s.inBlock, s.floor⟩ {} s.cursor.mark s.cursor.rest
  let s' := { s.push (.scalar true (Utf8.ofChars f.text.reverse)) with
    cursor := c, keyAllowed := f.ended }
  return if f.ended then s' else s'.skipComment

/-- A block of lines. -/
def blockText (s : Reader) (folded : Bool) : Option Reader := do
  let s ← s.dropKey
  let (t, c) ← scanBlock folded s.floor (s.indents.head?.getD 0) s.cursor.next
  return { s.push (.scalar false (Utf8.ofChars t)) with cursor := c, keyAllowed := true }

/-- Whether a bare text may start with a character. -/
def startsBare (s : Reader) (c : Char) (r : List Char) : Bool :=
  let special := "-?:,[]\x7b\x7d#&*!|>\"%@".toList.contains c || c.toNat == 0x27 || c.toNat == 0x60
  !(special || endsWord (c :: r)) || (c == '-' && !r.head?.any isBlank)
    || (s.inBlock && (c == '?' || c == ':') && !endsWord r)

/-- The token that starts with a character at the cursor. -/
def token (s : Reader) (c : Char) (r : List Char) : Option Reader :=
  let noted (s : Option Reader) := s.map skipComment
  if c == '%' && s.column == 0 then do
    let s ← s.breakOff
    let (t, c) ← scanDirective s.cursor
    return { s.push t with cursor := c }
  else if isMarker s.cursor.mark (c :: r) then do
    let s ← s.breakOff
    return s.pushOver (if c == '-' then .documentStart else .documentEnd) 3
  else if c == '[' then noted (s.openFlow .openList)
  else if c == '\x7b' then noted (s.openFlow .openMap)
  else if c == ']' then noted (s.closeFlow .closeList)
  else if c == '\x7d' then noted (s.closeFlow .closeMap)
  else if c == ',' then noted s.flowEntry
  else if c == '-' && endsWord r then s.blockEntry
  else if c == '?' && (!s.inBlock || endsWord r) then noted s.explicitKey
  else if c == ':' && (!s.inBlock || endsWord r) then noted s.valueMark
  else if c == '*' then noted (s.named .alias)
  else if c == '&' then noted (s.named .anchor)
  else if c == '!' then noted (s.keyLike fun s => scanTag s.cursor)
  else if c == '|' && s.inBlock then s.blockText false
  else if c == '>' && s.inBlock then s.blockText true
  else if c.toNat == 0x27 then noted (s.quoted false)
  else if c == '"' then noted (s.quoted true)
  else if s.startsBare c r then s.bare
  else none

/-- The tokens with the marks of found keys put in. -/
def allTokens (s : Reader) : List Token :=
  splice s.tokens.length s.tokens (s.found.mergeSort fun a b => a.token ≥ b.token) []
where
  /-- Goes through the tokens, the last of `n` first, and the key places, the last first. -/
  splice (n : Nat) (tokens : List Token) (found : List KeyPlace) (done : List Token) :
      List Token :=
    let (here, found) := found.span (·.token == n)
    let marks := here.flatMap fun p => if p.opens then [Token.openBlockMap, .key] else [.key]
    match tokens with
    | [] => marks ++ done
    | t :: r => splice (n - 1) r found (t :: (marks ++ done))

end Reader

/-- The tokens of a text as far as it is well formed, and whether it is so to its end. -/
structure Tokens where
  list : List Token
  complete : Bool
deriving DecidableEq, Repr

/-- Reads token after token. Each but the last takes at least one character, so the number of
characters bounds the number of steps. -/
def Reader.run : (steps : Nat) → Reader → Tokens
  | 0, s => ⟨s.allTokens, false⟩
  | n + 1, s =>
    let s' := s.toToken.unroll
    match s'.cursor.rest with
    | [] =>
      match s'.breakOff with
      | some s => ⟨(s.push .streamEnd).allTokens, true⟩
      | none => ⟨s.allTokens, false⟩
    | c :: r =>
      match s'.token c r with
      | some next => next.run n
      | none => ⟨s.allTokens, false⟩

/-- The tokens of a text. -/
def Tokens.ofChars (t : List Char) : Tokens :=
  Reader.run (t.length + 1) { cursor := ⟨.start, t⟩ }

end Idl.Yaml
