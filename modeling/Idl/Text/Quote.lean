import Idl.Text.CharClass
import Idl.Text.Utf8

/-!
# Quoted text

Diagnostics and listings show a text between double quotes. Printable characters stand for
themselves; everything else, including octets that belong to no character, is written as an escape.
-/

namespace Idl

namespace Quote

/-- The letter of a control character that has a short escape. -/
def shortEscape? (c : Char) : Option Bytes :=
  match c.toNat with
  | 0x07 => some "\\a"
  | 0x08 => some "\\b"
  | 0x0C => some "\\f"
  | 0x0A => some "\\n"
  | 0x0D => some "\\r"
  | 0x09 => some "\\t"
  | 0x0B => some "\\v"
  | _ => none

/-- The escape of a character by its number, in as many digits as its size calls for. -/
def numericEscape (c : Char) : Bytes :=
  let n := c.toNat
  if n < 0x20 || n == 0x7F then "\\x" ++ Bytes.hexDigits 2 n
  else if n < 0x10000 then "\\u" ++ Bytes.hexDigits 4 n
  else "\\U" ++ Bytes.hexDigits 8 n

/-- How one glyph is written between the quotes. -/
def glyph : Glyph → Bytes
  | .stray b => "\\x" ++ Bytes.hex2 b
  | .char c =>
    if c == '"' || c == '\\' then 0x5C :: Utf8.ofChar c
    else if isPrintable c then Utf8.ofChar c
    else (shortEscape? c).getD (numericEscape c)

end Quote

/-- The text between double quotes. -/
def quote (b : Bytes) : Bytes := "\"" ++ (Utf8.glyphs b).flatMap Quote.glyph ++ "\""

end Idl
