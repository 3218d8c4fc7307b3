import Idl.Text.Quote
import Idl.Token

/-!
# Syntax errors

An error is a cause and a place. Everything else that a diagnostic shows (its number, its message,
what was expected and what was found) is a function of the cause.
-/

namespace Idl

/-! ## §1 Causes -/

/-- The sigils that the grammar can insist on. -/
inductive Sigil where
  | atSign
  | dot
  | eq
  | comma
  | semicolon
  | openCurl
  | closeCurl
  | openParen
  | closeParen
  | gt
deriving DecidableEq, Repr

namespace Sigil

/-- The kind of token that the sigil is. -/
def kind : Sigil → TokenKind
  | .atSign => .atSign
  | .dot => .dot
  | .eq => .eq
  | .comma => .comma
  | .semicolon => .semicolon
  | .openCurl => .openCurl
  | .closeCurl => .closeCurl
  | .openParen => .openParen
  | .closeParen => .closeParen
  | .gt => .gt

/-- The sigil as it is written. -/
def text : Sigil → Bytes
  | .atSign => "@"
  | .dot => "."
  | .eq => "="
  | .comma => ","
  | .semicolon => ";"
  | .openCurl => "\x7b"
  | .closeCurl => "\x7d"
  | .openParen => "("
  | .closeParen => ")"
  | .gt => ">"

/-- The number of the error that the sigil is missing. -/
def code : Sigil → Nat
  | .atSign => 2000
  | .dot => 2001
  | .eq => 2002
  | .comma => 2003
  | .semicolon => 2004
  | .openCurl => 2005
  | .closeCurl => 2006
  | .openParen => 2007
  | .closeParen => 2008
  | .gt => 2009

end Sigil

/-- What the grammar can wait for, other than a sigil. -/
inductive Expectation where
  | ident
  | textLit
  | intLit
  | value
  | declaration
  | type
  | messageMember
  | serviceMember
deriving DecidableEq, Repr

namespace Expectation

/-- The number of the error that the expectation is not met. -/
def code : Expectation → Nat
  | .ident => 2020
  | .textLit => 2021
  | .intLit => 2022
  | .value => 2023
  | .declaration => 2024
  | .type => 2025
  | .messageMember | .serviceMember => 2029

/-- The expectation in the words of a message. -/
def phrase : Expectation → Bytes
  | .ident => "identifier"
  | .textLit => "text literal"
  | .intLit => "integer literal"
  | .value => "constant value"
  | .declaration => "'package', 'message', or 'service'"
  | .type => "type name"
  | .messageMember => "message member or '\x7d'"
  | .serviceMember => "service member or '\x7d'"

/-- The expectation as a short label. -/
def label : Expectation → Bytes
  | .ident => "identifier"
  | .textLit => "text literal"
  | .intLit => "integer literal"
  | .value => "constant"
  | .declaration => "declaration"
  | .type => "type"
  | .messageMember => "message member"
  | .serviceMember => "service member"

end Expectation

/-- Constructs of the neighbouring schema language that this one leaves out on purpose. -/
inductive Feature where
  | importing
  | oneof
  | fixedWidth
  | zigzag
  | fieldOptions
  | reserved
  | extend
  | nestedOption
  | enum
  | repeated
  | map
  | nestedMessage
  | stream
  | array
  | extensions
deriving DecidableEq, Repr

namespace Feature

/-- The number of the error that the construct is used. -/
def code : Feature → Nat
  | .importing => 2100
  | .oneof => 2101
  | .fixedWidth => 2102
  | .zigzag => 2103
  | .fieldOptions => 2104
  | .reserved => 2105
  | .extend => 2106
  | .nestedOption => 2107
  | .enum => 2108
  | .repeated => 2109
  | .map => 2110
  | .nestedMessage => 2111
  | .stream => 2112
  | .array => 2113
  | .extensions => 2114

/-- The name of the construct. -/
def name : Feature → Bytes
  | .importing => "import"
  | .oneof => "oneof"
  | .fixedWidth => "fixed-width types"
  | .zigzag => "zigzag (sint) types"
  | .fieldOptions => "field options"
  | .reserved => "reserved"
  | .extend => "extend"
  | .nestedOption => "nested option"
  | .enum => "enum"
  | .repeated => "repeated"
  | .map => "map"
  | .nestedMessage => "nested message"
  | .stream => "stream"
  | .array => "array type"
  | .extensions => "extensions"

end Feature

/-- The longest source that is read, in octets. -/
def maxSourceSize : Nat := 2 ^ 31 - 1

/-- The longest token, in octets. -/
def maxTokenSize : Nat := 2 ^ 16 - 1

/-- Why a source is refused. -/
inductive SyntaxCause where
  | sourceTooLong (size : Nat)
  | invalidUtf8
  | unexpectedChar (c : Char)
  | controlChar (c : UInt8)
  | tokenTooLong (size : Nat)
  | badNumber (text : Bytes)
  | unterminatedText
  | newlineInText
  | badEscape (text : Bytes)
  | unterminatedComment
  | splitAnnot
  /-- Another token stands where a sigil belongs. -/
  | missingSigil (want : Sigil) (got : TokenKind) (text : Bytes)
  /-- Another token stands where something else is expected. -/
  | expected (want : Expectation) (got : TokenKind) (text : Bytes)
  | missingPackage
  | duplicatePackage
  | danglingAnnots
  | intOutOfRange (text : Bytes)
  | unsupportedVersion (version : Bytes)
  | unsupported (feature : Feature) (text : Bytes)
deriving DecidableEq, Repr

/-! ## §2 Their wording -/

namespace SyntaxCause

/-- The number of the error. -/
def code : SyntaxCause → Nat
  | .sourceTooLong _ => 1000
  | .invalidUtf8 => 1001
  | .unexpectedChar _ => 1002
  | .controlChar _ => 1003
  | .tokenTooLong _ => 1004
  | .badNumber _ => 1005
  | .unterminatedText => 1006
  | .newlineInText => 1007
  | .badEscape _ => 1008
  | .unterminatedComment => 1009
  | .splitAnnot => 1010
  | .missingSigil want _ _ => want.code
  | .expected want _ _ => want.code
  | .missingPackage => 2026
  | .duplicatePackage => 2027
  | .danglingAnnots => 2028
  | .intOutOfRange _ => 2030
  | .unsupportedVersion _ => 2031
  | .unsupported feature _ => feature.code

/-- Lexical errors are numbered below 2000. -/
def isLexical (c : SyntaxCause) : Bool := c.code < 2000

/-- A code point as `U+` and at least four capital hexadecimal digits. -/
def codePoint (n : Nat) : Bytes :=
  let width := if n < 0x10000 then 4 else if n < 0x100000 then 5 else 6
  "U+" ++ Bytes.toUpper (Bytes.hexDigits width n)

/-- A token as its kind and its quoted text. -/
def describeToken (kind : TokenKind) (text : Bytes) : Bytes :=
  "(" ++ kind.name ++ " " ++ quote text ++ ")"

/-- The message of the error, without its number. -/
def message : SyntaxCause → Bytes
  | .sourceTooLong size =>
    "Source file size (" ++ Bytes.ofNat size ++ " bytes) exceeds maximum ("
      ++ Bytes.ofNat maxSourceSize ++ " bytes)"
  | .invalidUtf8 => "Source file contains invalid UTF-8"
  | .unexpectedChar c =>
    "Unexpected character '" ++ Utf8.ofChar c ++ "' (" ++ codePoint c.toNat ++ ")"
  | .controlChar c => "Forbidden control character " ++ codePoint c.toNat
  | .tokenTooLong size =>
    "Token size (" ++ Bytes.ofNat size ++ " bytes) exceeds maximum ("
      ++ Bytes.ofNat maxTokenSize ++ " bytes)"
  | .badNumber text => "Invalid numeric literal " ++ quote text
  | .unterminatedText => "Unterminated text literal"
  | .newlineInText => "Text literal contains unescaped newline"
  | .badEscape text => "Invalid escape sequence " ++ quote text ++ " in text literal"
  | .unterminatedComment => "Unterminated block comment"
  | .splitAnnot => "Annotation must end on the line where it starts"
  | .missingSigil want got text =>
    "Expected sigil '" ++ want.text ++ "', got " ++ describeToken got text
  | .expected want got text => "Expected " ++ want.phrase ++ ", got " ++ describeToken got text
  | .missingPackage => "Missing required 'package' statement"
  | .duplicatePackage => "Only one 'package' statement is allowed per file"
  | .danglingAnnots => "Annotations must be followed by a message, field, service, or rpc"
  | .intOutOfRange text => "Integer literal " ++ text ++ " is out of range"
  | .unsupportedVersion version =>
    "Unsupported syntax " ++ quote version ++ " (only \"proto3\" is accepted)"
  | .unsupported feature text =>
    "Unsupported feature: " ++ feature.name ++ " (" ++ quote text ++ " is not allowed in MIDL)"

/-- A short label of what was looked for; empty where nothing particular was. -/
def expectation : SyntaxCause → Bytes
  | .missingSigil want _ _ => want.text
  | .expected want _ _ => want.label
  | .missingPackage => "package"
  | .duplicatePackage => "declaration"
  | .danglingAnnots => "declaration"
  | .intOutOfRange _ => "integer literal"
  | .unsupportedVersion _ => "proto3"
  | _ => []

/-- What stands there instead; empty where there is nothing to show. -/
def found : SyntaxCause → Bytes
  | .unexpectedChar c => Utf8.ofChar c
  | .badNumber text => text
  | .badEscape text => text
  | .splitAnnot => "multi-line annotation"
  | .missingSigil _ _ text => text
  | .expected _ _ text => text
  | .missingPackage => "EOF"
  | .duplicatePackage => "package"
  | .danglingAnnots => "annotation"
  | .intOutOfRange text => text
  | .unsupportedVersion version => version
  | .unsupported feature _ => feature.name
  | _ => []

end SyntaxCause

/-- A refusal of a source: why and where. -/
structure SyntaxError where
  cause : SyntaxCause
  span : Span
  pos : Pos
deriving DecidableEq, Repr

namespace SyntaxError

/-- The message with its number in front. -/
def render (e : SyntaxError) : Bytes :=
  "E" ++ Bytes.ofNat e.cause.code ++ ": " ++ e.cause.message

/-- The error that a token is at fault. -/
def atToken (cause : SyntaxCause) (t : Token) : SyntaxError := ⟨cause, t.span, t.pos⟩

end SyntaxError

end Idl
