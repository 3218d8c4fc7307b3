import Idl.Source

/-!
# Tokens

A source is a sequence of tokens, each a kind and the octets it covers. White space, newlines and
comments are tokens too; the grammar looks only at the others, the significant ones.
-/

namespace Idl

/-- The kinds of tokens. -/
inductive TokenKind where
  | eof
  | space
  | newline
  | comment
  | blockComment
  | atSign
  | dot
  | doubleColon
  | eq
  | comma
  | semicolon
  | question
  | arrow
  | lt
  | gt
  | openCurl
  | closeCurl
  | openParen
  | closeParen
  | openSquare
  | closeSquare
  | intLit
  | octIntLit
  | hexIntLit
  | floatLit
  | textLit
  | ident
deriving DecidableEq, Repr, Inhabited

namespace TokenKind

/-- The name of a kind in diagnostics. -/
def name : TokenKind → Bytes
  | .eof => "EOF"
  | .space => "SPACE"
  | .newline => "NEWLINE"
  | .comment => "COMMENT"
  | .blockComment => "BLOCK_COMMENT"
  | .atSign => "AT"
  | .dot => "DOT"
  | .doubleColon => "DOUBLE_COLON"
  | .eq => "EQ"
  | .comma => "COMMA"
  | .semicolon => "SEMICOLON"
  | .question => "QUESTION"
  | .arrow => "ARROW"
  | .lt => "LT"
  | .gt => "GT"
  | .openCurl => "OPEN_CURL"
  | .closeCurl => "CLOSE_CURL"
  | .openParen => "OPEN_PAREN"
  | .closeParen => "CLOSE_PAREN"
  | .openSquare => "OPEN_SQUARE"
  | .closeSquare => "CLOSE_SQUARE"
  | .intLit => "INT_LIT"
  | .octIntLit => "OCT_INT_LIT"
  | .hexIntLit => "HEX_INT_LIT"
  | .floatLit => "FLOAT_LIT"
  | .textLit => "TEXT_LIT"
  | .ident => "IDENT"

/-- The tokens that the grammar does not see. -/
def isTrivia : TokenKind → Bool
  | .space | .newline | .comment | .blockComment => true
  | _ => false

/-- The literals of whole numbers. -/
def isInteger : TokenKind → Bool
  | .intLit | .octIntLit | .hexIntLit => true
  | _ => false

/-- The token that a single octet makes by itself. -/
def ofSigil? (c : UInt8) : Option TokenKind :=
  match c with
  | 0x0A => some .newline
  | 0x40 => some .atSign
  | 0x2E => some .dot
  | 0x3D => some .eq
  | 0x2C => some .comma
  | 0x3B => some .semicolon
  | 0x3F => some .question
  | 0x3C => some .lt
  | 0x3E => some .gt
  | 0x7B => some .openCurl
  | 0x7D => some .closeCurl
  | 0x28 => some .openParen
  | 0x29 => some .closeParen
  | 0x5B => some .openSquare
  | 0x5D => some .closeSquare
  | _ => none

end TokenKind

/-- A token: its kind, the octets it covers and where they begin. -/
structure Token where
  kind : TokenKind
  start : Nat
  pos : Pos
  text : Bytes
deriving DecidableEq, Repr, Inhabited

namespace Token

/-- The octets of the source that the token covers. -/
def span (t : Token) : Span := ⟨t.start, t.text.length⟩

/-- The offset just past the token. -/
def stop (t : Token) : Nat := t.start + t.text.length

/-- Where the token stands. -/
def loc (t : Token) : Loc := ⟨t.span, t.pos⟩

/-- Whether the token is a given word. -/
def isWord (t : Token) (word : Bytes) : Bool := t.kind == .ident && t.text == word

end Token

end Idl
