import Idl.Token.Scan
import Idl.Tree.Literal

/-!
# Reading octets by index

Tokens and literals are read here the way a reader does it that has only indices and slices: every
octet is fetched by its index, every remainder is a slice, and an index or a slice that is out of
bounds ends the program, as does a loop that is not over when it should be.

Lines are not counted again for each position: the offsets at which they start are kept in a table,
the line of an offset is found by halving, and columns are counted from the start of that line.

A lexer is asked for one token at a time. Between two calls it keeps the octets that are left, how
many have been cut off, in a word of 32 bits, and how far an annotation has got; the length of a
token is a word of 16 bits.

* §1 access within bounds, §2 one token, §3 literals,
* §4 positions, §5 one token at a time.
-/

namespace Idl

namespace Reader

/-! ## §1 Access -/

/-- The octet at an index. -/
def at? (b : Bytes) (i : Nat) : Option UInt8 := b[i]?

/-- The octets from one index up to another. -/
def slice? (b : Bytes) (i j : Nat) : Option Bytes :=
  if i ≤ j ∧ j ≤ b.length then some ((b.take j).drop i) else none

/-- The octets from an index on. -/
def from? (b : Bytes) (i : Nat) : Option Bytes := slice? b i b.length

/-! ## §2 One token -/

/-- What scanning a token comes to: its kind and its length, or what is wrong. -/
abbrev Scanned := Except ScanFault (TokenKind × Nat)

/-- Takes a token of a given length off the front. -/
def emit (b : Bytes) (kind : TokenKind) (length : Nat) : Option Scanned := do
  if length > maxTokenSize then return .error ⟨.tokenTooLong length, 0, length⟩
  else
    let _ ← from? b length
    return .ok (kind, length)

/-- What follows the blank at the front; nothing if there is no blank at the front. -/
def blank? (b : Bytes) : Option (Option Bytes) := do
  let c ← at? b 0
  if c == 0x20 || c == 0x09 then some <$> from? b 1
  else
    match Utf8.first c (b.drop 1) with
    | (.char x, n) =>
      if x.toNat == 0xA0 || x.toNat == 0xFEFF then some <$> from? b (n + 1) else return none
    | (.stray _, _) => return none

/-- What follows the blanks at the front, of which there are fewer than the first number says. -/
def skipBlanks : Nat → Bytes → Option Bytes
  | 0, _ => none
  | fuel + 1, b => do
    match ← blank? b with
    | none => return b
    | some r => if r.length == 0 then return r else skipBlanks fuel r

/-- A run of blanks. -/
def space (b : Bytes) : Option Scanned := do
  let r ← skipBlanks (b.length + 1) b
  emit b .space (b.length - r.length)

/-- A comment between marks. -/
def blockComment (b : Bytes) : Option Scanned := do
  match Bytes.indexOf? (← from? b 2) "*/" with
  | none => return .error ⟨.unterminatedComment, 0, b.length⟩
  | some n =>
    let _ ← slice? b 0 (n + 4)
    emit b .blockComment (n + 4)

/-- The kind of the digits of a number, and how many octets introduce them. -/
def radix? (b : Bytes) : Option (TokenKind × (UInt8 → Bool) × Nat) := do
  if b.length > 1 then
    let c ← at? b 0
    let d ← at? b 1
    if c == 0x30 && (d == 0x78 || d == 0x58) then return (.hexIntLit, Bytes.isHexDigit, 2)
    else if c == 0x30 && Bytes.isDigit d then return (.octIntLit, Bytes.isOctDigit, 1)
    else return (.intLit, Bytes.isDigit, 0)
  else return (.intLit, Bytes.isDigit, 0)

/-- The length of a fraction at the front. -/
def fraction? (b : Bytes) : Option Nat := do
  if b.length > 0 then
    let c ← at? b 0
    if c == 0x2E && b.length > 1 then
      let d ← at? b 1
      if Bytes.isDigit d then return 1 + Scan.run Bytes.isDigit (← from? b 1) else return 0
    else return 0
  else return 0

/-- The length of an exponent at the front, and whether it has digits. -/
def exponent? (b : Bytes) : Option (Nat × Bool) := do
  if b.length > 0 then
    let c ← at? b 0
    if c == 0x65 || c == 0x45 then
      let sign ← if b.length > 1 then do
          let s ← at? b 1
          pure (if s == 0x2B || s == 0x2D then 1 else 0)
        else pure 0
      let digits := Scan.run Bytes.isDigit (← from? b (1 + sign))
      return (1 + sign + digits, digits != 0)
    else return (0, true)
  else return (0, true)

/-- A number without its sign: its kind, its length, and whether it is well formed. -/
def unsigned? (b : Bytes) : Option (TokenKind × Nat × Bool) := do
  let (kind, isDigit, lead) ← radix? b
  let rest ← from? b lead
  let digits := Scan.run isDigit rest
  let rest ← from? rest digits
  let (kind, length, ok, rest) ← if kind == .intLit then do
      let frac ← fraction? rest
      let rest ← from? rest frac
      let (exp, ok) ← exponent? rest
      let rest ← from? rest exp
      pure (if frac + exp == 0 then TokenKind.intLit else .floatLit, lead + digits + frac + exp, ok,
        rest)
    else pure (kind, lead + digits, true, rest)
  let trailing := Scan.run Bytes.isWord rest
  return (kind, length + trailing, ok && digits != 0 && trailing == 0)

/-- A number that begins with a sign of the given length. -/
def signed? (b : Bytes) (sign : Nat) : Option Scanned := do
  let (kind, length, ok) ← unsigned? (← from? b sign)
  if ok then emit b kind (sign + length)
  else return .error ⟨.badNumber (← slice? b 0 (sign + length)), 0, sign + length⟩

/-- A number. -/
def number (b : Bytes) : Option Scanned := do
  let c ← at? b 0
  if c == 0x2D then
    let proper ← if b.length == 1 then pure false else Bytes.isDigit <$> at? b 1
    if proper then signed? b 1 else return .error ⟨.badNumber (← slice? b 0 1), 0, 1⟩
  else signed? b 0

/-- What no other rule applies to. -/
def other (b : Bytes) (c : UInt8) : Option Scanned :=
  match Utf8.first c (b.drop 1) with
  | (.char x, n) =>
    if x.toNat == 0xA0 || x.toNat == 0xFEFF then space b
    else if x.toNat < 0x20 || x.toNat == 0x7F then return .error ⟨.controlChar c, 0, 1⟩
    else return .error ⟨.unexpectedChar x, 0, n + 1⟩
  | (.stray _, _) => return .error ⟨.unexpectedChar (Char.ofNat 0xFFFD), 0, 3⟩

/-- The token at the front. -/
def scan (b : Bytes) : Option Scanned := do
  let c ← at? b 0
  match TokenKind.ofSigil? c with
  | some kind => emit b kind 1
  | none =>
    let next ← (if b.length > 1 then at? b 1 else pure 0)
    if c == 0x20 || c == 0x09 then space b
    else if c == 0x3A && next == 0x3A then emit b .doubleColon 2
    else if c == 0x2D && next == 0x3E then emit b .arrow 2
    else if c == 0x0D && next == 0x0A then emit b .newline 2
    else if c == 0x2F && next == 0x2F then
      emit b .comment (Scan.run (fun c => c != 0x0A && c != 0x0D) b)
    else if c == 0x2F && next == 0x2A then blockComment b
    else if c == 0x22 || c == 0x27 then
      -- the octets up to the quote are gone through in order
      match Scan.textEnd c 1 false (b.drop 1) with
      | .ok (kind, extra) =>
        let _ ← from? b (extra + 1)
        return .ok (kind, extra + 1)
      | .error f => return .error f
    else if c == 0x2D || Bytes.isDigit c then number b
    else if c == 0x5F || Bytes.isLetter c then emit b .ident (Scan.run Bytes.isWord b)
    else other b c

/-! ## §3 Literals -/

/-- The escape whose backslash is at an index: the octet it denotes and the index behind it, or the
text that is at fault. -/
def escapeAt (body : Bytes) (i : Nat) : Option (Except Bytes (UInt8 × Nat)) := do
  if i + 1 ≥ body.length then return .error (← from? body i)
  else
    let d ← at? body (i + 1)
    match simpleEscape? d with
    | some x => return .ok (x, i + 2)
    | none =>
      if d == 0x78 || d == 0x58 then
        let n := Scan.run Bytes.isHexDigit (← slice? body (i + 2) (min (i + 2 + 2) body.length))
        if n == 0 then return .error (← slice? body i (min (i + 2) body.length))
        else
          let digits ← slice? body (i + 2) (i + 2 + n)
          return .ok ((Bytes.toNat 16 digits).toUInt8, i + 2 + n)
      else if Bytes.isOctDigit d then
        let n := Scan.run Bytes.isOctDigit (← slice? body (i + 1) (min (i + 1 + 3) body.length))
        let digits ← slice? body (i + 1) (i + 1 + n)
        if Bytes.toNat 8 digits > 0xFF then return .error (← slice? body i (i + 1 + n))
        else return .ok ((Bytes.toNat 8 digits).toUInt8, i + 1 + n)
      else return .error (← slice? body i (i + 2))

/-- The octets that the body of a text literal denotes from an index on, added to `acc`. -/
def decodeFrom (body : Bytes) : Nat → Nat → Bytes → Option (Except (Nat × Bytes) Bytes)
  | 0, _, _ => none
  | fuel + 1, i, acc => do
    if i < body.length then
      let c ← at? body i
      if c != 0x5C then decodeFrom body fuel (i + 1) (acc ++ [c])
      else
        match ← escapeAt body i with
        | .ok (x, j) => decodeFrom body fuel j (acc ++ [x])
        | .error bad => return .error (i + 1, bad)
    else return .ok acc

/-- The octets that a text literal denotes. One without a backslash denotes what is in it. -/
def textValue? (text : Bytes) (escapes : Bool) : Option (Except (Nat × Bytes) Bytes) := do
  let body ← slice? text 1 (text.length - 1)
  if escapes then decodeFrom body (body.length + 1) 0 [] else return .ok body

/-- The number that an integer literal denotes, if it is in range. -/
def intValue? (kind : TokenKind) (text : Bytes) : Option (Option Int) := do
  let digits ← if text.head? == some 0x2D then from? text 1 else pure text
  let _ ← from? digits kind.base.2
  return if fitsLiteral (intLitValue kind text) then some (intLitValue kind text) else none

/-! ## §4 Positions -/

/-- The offsets behind the newlines of some octets, the first of which is at offset `i`. -/
def startsFrom (i : Nat) : Bytes → List Nat
  | [] => []
  | c :: r => if c == 0x0A then (i + 1) :: startsFrom (i + 1) r else startsFrom (i + 1) r

/-- The offsets at which the lines of a source start. -/
def lineTable (src : Bytes) : List Nat := 0 :: startsFrom 0 src

/-- The first index from `lo` on at which a test holds, or `hi`. The test is made in the middle of
what is left, so it has to hold from some index on. -/
def search (test : Nat → Option Bool) (lo hi : Nat) : Option Nat :=
  if lo < hi then do
    if ← test ((lo + hi) / 2) then search test lo ((lo + hi) / 2)
    else search test ((lo + hi) / 2 + 1) hi
  else some lo
termination_by hi - lo

/-- Whether the line with an index starts behind an offset. -/
def startsBehind (lines : List Nat) (offset index : Nat) : Option Bool :=
  (lines[index]?).map fun start => decide (offset < start)

/-- The position of an offset: its line is in front of the first one that starts behind it. An index
or a slice out of bounds ends the program. -/
def lookUp (src : Bytes) (lines : List Nat) (offset : Nat) : Option Pos := do
  match ← search (startsBehind lines offset) 0 lines.length with
  | 0 => none
  | line + 1 =>
    let start ← lines[line]?
    let text ← slice? src start offset
    return ⟨line + 1, 1 + Utf8.count text⟩

/-- An error with its position looked up. -/
def locate (src : Bytes) (cause : SyntaxCause) (span : Span) : SyntaxError :=
  ⟨cause, span, Pos.ofOffset src span.start⟩

end Reader

/-! ## §5 One token at a time -/

/-- What a call hands out: a kind, and the number of octets that the token covers. -/
structure Emitted where
  kind : TokenKind
  length : UInt16
deriving DecidableEq, Repr

/-- A lexer between two calls. -/
structure Lexer where
  rest : Bytes
  offset : UInt32
  line : AnnotLine

namespace Lexer

open Reader (scan from? locate)

/-- A lexer that has not been called. -/
def start (src : Bytes) : Lexer := ⟨src, 0, .outside⟩

/-- What is handed out at the end of a source. -/
def eof : Emitted := ⟨.eof, 0⟩

/-- One call: a token or an error, and the lexer from then on. A token that breaks the line of an
annotation has been cut off when that is noticed. -/
def call (src : Bytes) (l : Lexer) : Option (Except SyntaxError Emitted × Lexer) := do
  let cut ← if l.rest.length == 0 then pure (.ok (.eof, 0)) else scan l.rest
  match cut with
  | .error f => return (.error (locate src f.cause ⟨l.offset.toNat + f.offset, f.length⟩), l)
  | .ok (kind, length) =>
    let rest ← from? l.rest length
    let offset := l.offset + length.toUInt32
    match l.line.next? kind (l.rest.take length) with
    | none =>
      return (.error (locate src .splitAnnot ⟨l.offset.toNat, length⟩), ⟨rest, offset, l.line⟩)
    | some line => return (.ok ⟨kind, length.toUInt16⟩, ⟨rest, offset, line⟩)

/-- The lexer after a number of calls. -/
def after (src : Bytes) : Nat → Lexer → Option Lexer
  | 0, l => some l
  | n + 1, l => (call src l).bind fun x => after src n x.2

/-- What the call after `n` others hands out. -/
def answer (src : Bytes) (n : Nat) (l : Lexer) : Option (Except SyntaxError Emitted) :=
  (after src n l).bind fun l => (call src l).map (·.1)

end Lexer

end Idl
