import Idl.SyntaxError

/-!
# From octets to tokens

`scanToken` decides which token stands at the front of the input, from the input alone. `lex` cuts a
whole source into tokens with it. An annotation has to end on its line, which takes a small machine
beside it: `AnnotLine`.
-/

namespace Idl

/-! ## §1 One token -/

/-- What is wrong at the front of the input: the fault begins `offset` octets further on and is
`length` octets long. -/
structure ScanFault where
  cause : SyntaxCause
  offset : Nat
  length : Nat
deriving DecidableEq, Repr

namespace Scan

/-- The number of octets in the run of blanks at the front, added to `n`. Blanks are the space, the
tab, U+00A0 and U+FEFF. -/
def blanks (n : Nat) : Bytes → Nat
  | 0x20 :: r => blanks (n + 1) r
  | 0x09 :: r => blanks (n + 1) r
  | 0xC2 :: 0xA0 :: r => blanks (n + 2) r
  | 0xEF :: 0xBB :: 0xBF :: r => blanks (n + 3) r
  | _ => n

/-- The number of octets at the front that satisfy `p`. -/
def run (p : UInt8 → Bool) (b : Bytes) : Nat := (b.takeWhile p).length

/-- A token of the given length, whose first octet has been read. -/
def token (kind : TokenKind) (length : Nat) : Except ScanFault (TokenKind × Nat) :=
  if length > maxTokenSize then .error ⟨.tokenTooLong length, 0, length⟩
  else .ok (kind, length - 1)

/-- A text literal whose first `n` octets, the last of them not escaping the next, have been read.
It ends at the first quote of its own kind that no backslash escapes. -/
def textEnd (mark : UInt8) (n : Nat) : (escaped : Bool) → Bytes → Except ScanFault (TokenKind × Nat)
  | _, [] => .error ⟨.unterminatedText, 0, n⟩
  | true, _ :: r => textEnd mark (n + 1) false r
  | false, c :: r =>
    if c == mark then token .textLit (n + 1)
    else if (c ≤ 0x1F || c == 0x7F) && c != 0x09 then
      if c == 0x0A then .error ⟨.newlineInText, n, 1⟩
      else if c == 0x0D && r.head? == some 0x0A then .error ⟨.newlineInText, n, 2⟩
      else .error ⟨.controlChar c, n, 1⟩
    else textEnd mark (n + 1) (c == 0x5C) r

/-- The kind of the digits of a number without its sign, and how many octets introduce them. -/
def radix (b : Bytes) : TokenKind × (UInt8 → Bool) × Nat :=
  match b with
  | 0x30 :: c :: _ =>
    if c == 0x78 || c == 0x58 then (.hexIntLit, Bytes.isHexDigit, 2)
    else if Bytes.isDigit c then (.octIntLit, Bytes.isOctDigit, 1)
    else (.intLit, Bytes.isDigit, 0)
  | _ => (.intLit, Bytes.isDigit, 0)

/-- The number of octets of a fraction, a point and at least one digit, at the front. -/
def fraction (b : Bytes) : Nat :=
  match b with
  | 0x2E :: c :: r => if Bytes.isDigit c then 2 + run Bytes.isDigit r else 0
  | _ => 0

/-- The number of octets of an exponent at the front, and whether it has digits. -/
def exponent (b : Bytes) : Nat × Bool :=
  match b with
  | c :: r =>
    if c == 0x65 || c == 0x45 then
      let sign := match r with
        | s :: _ => if s == 0x2B || s == 0x2D then 1 else 0
        | [] => 0
      let digits := run Bytes.isDigit (r.drop sign)
      (1 + sign + digits, digits != 0)
    else (0, true)
  | [] => (0, true)

/-- A number without its sign: its kind, its length, and whether it is well formed. Letters and
digits that follow directly are part of the number and spoil it. -/
def unsigned (b : Bytes) : TokenKind × Nat × Bool :=
  let (kind, isDigit, lead) := radix b
  let digits := run isDigit (b.drop lead)
  let length := lead + digits
  let (kind, length, ok) :=
    if kind == .intLit then
      let frac := fraction (b.drop length)
      let (exp, ok) := exponent (b.drop (length + frac))
      (if frac + exp == 0 then TokenKind.intLit else .floatLit, length + frac + exp, ok)
    else (kind, length, true)
  let trailing := run Bytes.isWord (b.drop length)
  (kind, length + trailing, ok && digits != 0 && trailing == 0)

/-- The number at the front. A minus sign has to be followed by a digit. -/
def number (b : Bytes) : Except ScanFault (TokenKind × Nat) :=
  let finish (sign : Nat) (body : Bytes) : Except ScanFault (TokenKind × Nat) :=
    let (kind, length, ok) := unsigned body
    let length := sign + length
    if ok then token kind length else .error ⟨.badNumber (b.take length), 0, length⟩
  match b with
  | 0x2D :: body =>
    if body.head?.any Bytes.isDigit then finish 1 body else .error ⟨.badNumber "-", 0, 1⟩
  | _ => finish 0 b

/-- What stands at the front if no other rule applies: blanks, or a character with no place in the
language. -/
def other (c : UInt8) (r : Bytes) : Except ScanFault (TokenKind × Nat) :=
  match Utf8.first c r with
  | (.char x, extra) =>
    if x.toNat == 0xA0 || x.toNat == 0xFEFF then token .space (blanks 0 (c :: r))
    else if x.toNat < 0x20 || x.toNat == 0x7F then .error ⟨.controlChar c, 0, 1⟩
    else .error ⟨.unexpectedChar x, 0, extra + 1⟩
  | (.stray _, _) => .error ⟨.invalidUtf8, 0, 1⟩

end Scan

/-- The token at the front of the input `c :: r`: its kind and how many octets of `r` it covers. -/
def scanToken (c : UInt8) (r : Bytes) : Except ScanFault (TokenKind × Nat) :=
  match TokenKind.ofSigil? c with
  | some kind => .ok (kind, 0)
  | none =>
    let next := r.headD 0
    if c == 0x20 || c == 0x09 then Scan.token .space (Scan.blanks 1 r)
    else if c == 0x3A && next == 0x3A then .ok (.doubleColon, 1)
    else if c == 0x2D && next == 0x3E then .ok (.arrow, 1)
    else if c == 0x0D && next == 0x0A then .ok (.newline, 1)
    else if c == 0x2F && next == 0x2F then
      Scan.token .comment (1 + Scan.run (fun c => c != 0x0A && c != 0x0D) r)
    else if c == 0x2F && next == 0x2A then
      match Bytes.indexOf? (r.drop 1) "*/" with
      | some n => Scan.token .blockComment (n + 4)
      | none => .error ⟨.unterminatedComment, 0, r.length + 1⟩
    else if c == 0x22 || c == 0x27 then Scan.textEnd c 1 false r
    else if c == 0x2D || Bytes.isDigit c then Scan.number (c :: r)
    else if c == 0x5F || Bytes.isLetter c then Scan.token .ident (1 + Scan.run Bytes.isWord r)
    else Scan.other c r

/-! ## §2 The line of an annotation -/

/-- How far the source has got in an annotation: outside of one, in its name, in its arguments
within `depth` parentheses, or past the end of its line with only its name read. -/
inductive AnnotLine where
  | outside
  | name
  | args (depth : Nat)
  | ended
deriving DecidableEq, Repr

namespace AnnotLine

/-- Whether a token is a comment that goes over the end of a line. -/
def breaksLine (kind : TokenKind) (text : Bytes) : Bool :=
  kind == .blockComment && text.contains 0x0A

/-- The state after a token; none if the token breaks the line of an annotation. -/
def next? (s : AnnotLine) (kind : TokenKind) (text : Bytes) : Option AnnotLine :=
  match s with
  | .outside => some (if kind == .atSign then .name else .outside)
  | .name =>
    match kind with
    | .ident | .dot | .doubleColon | .space | .atSign => some .name
    | .openParen => some (.args 1)
    | .newline | .comment => some .ended
    | .blockComment => some (if breaksLine kind text then .ended else .name)
    | _ => some .outside
  | .args depth =>
    match kind with
    | .openParen => some (.args (depth + 1))
    | .closeParen => some (if depth ≤ 1 then .outside else .args (depth - 1))
    | .newline => none
    | .blockComment => if breaksLine kind text then none else some (.args depth)
    | _ => some (.args depth)
  | .ended =>
    match kind with
    | .space | .newline | .comment | .blockComment => some .ended
    | .openParen => none
    | .atSign => some .name
    | _ => some .outside

end AnnotLine

/-! ## §3 A whole source -/

/-- A source cut into tokens: those that were read, and either the end of the source (as a token
that covers nothing) or the error that stopped the reading. -/
structure Lexed where
  tokens : List Token
  ending : Except SyntaxError Token

namespace Lexed

/-- The tokens that the grammar looks at. -/
def significant (l : Lexed) : List Token := l.tokens.filter fun t => !t.kind.isTrivia

end Lexed

/-- Cuts octets into tokens and adds them to `acc`. The next token starts at offset `start` and
position `pos`, after the `skip` octets that are left of the last one. -/
def lexFrom (skip start : Nat) (pos : Pos) (line : AnnotLine) (acc : List Token) : Bytes → Lexed
  | [] => ⟨acc.reverse, .ok ⟨.eof, start, pos, []⟩⟩
  | c :: r =>
    match skip with
    | n + 1 => lexFrom n start pos line acc r
    | 0 =>
      match scanToken c r with
      | .error f =>
        let span : Span := ⟨start + f.offset, f.length⟩
        ⟨acc.reverse, .error ⟨f.cause, span, pos.advance ((c :: r).take f.offset)⟩⟩
      | .ok (kind, extra) =>
        let text := c :: r.take extra
        match line.next? kind text with
        | none => ⟨acc.reverse, .error ⟨.splitAnnot, ⟨start, text.length⟩, pos⟩⟩
        | some line =>
          lexFrom extra (start + text.length) (pos.advance text) line
            (⟨kind, start, pos, text⟩ :: acc) r

/-- The offset of the first replacement character or stray octet. -/
def replacementOffset (src : Bytes) : Nat :=
  let before := (Utf8.glyphs src).takeWhile fun g => g.toChar.toNat != 0xFFFD
  (before.flatMap Glyph.octets).length

/-- Cuts a source into tokens. A source that is too long or is not UTF-8 is refused as a whole. -/
def lex (src : Bytes) : Except SyntaxError Lexed :=
  if src.length > maxSourceSize then
    .error ⟨.sourceTooLong src.length, ⟨0, min src.length (2 ^ 32 - 1)⟩, .start⟩
  else if !Utf8.isValid src then
    let offset := replacementOffset src
    .error ⟨.invalidUtf8, ⟨offset, 1⟩, Pos.ofOffset src offset⟩
  else .ok (lexFrom 0 0 .start .outside [] src)

end Idl
