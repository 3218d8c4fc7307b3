import Idl.Bytes

/-!
# UTF-8

Octets are read as a sequence of glyphs: well-formed code points, and octets that belong to none.
Everything that depends on the text of an octet string (its columns, its quoted form, its validity)
is a function of this sequence.
-/

namespace Idl

/-- One element of a text: a code point, or an octet that is part of none. -/
inductive Glyph where
  | char (c : Char)
  | stray (b : UInt8)
deriving DecidableEq, Repr

/-- The octets of one code point. -/
def Utf8.ofChar (c : Char) : Bytes := Bytes.ofString c.toString

/-- The code point, or U+FFFD for a stray octet. -/
def Glyph.toChar : Glyph → Char
  | .char c => c
  | .stray _ => Char.ofNat 0xFFFD

/-- The octets of a glyph. -/
def Glyph.octets : Glyph → Bytes
  | .char c => Utf8.ofChar c
  | .stray b => [b]

namespace Utf8

/-- Continuation octets. -/
def isTail (b : UInt8) : Bool := 0x80 ≤ b && b ≤ 0xBF

/-- The code point made of a leading octet's bits and continuation octets. -/
def assemble (lead : Nat) (tail : List UInt8) : Char :=
  Char.ofNat (tail.foldl (fun n b => n * 64 + (b.toNat - 0x80)) lead)

/-- The glyph that starts with octet `a` in front of `r`, and how many octets of `r` belong to it.
Over-long forms, surrogates and numbers above U+10FFFF are not well formed, so that their octets
are stray. -/
def first (a : UInt8) (r : Bytes) : Glyph × Nat :=
  if a < 0x80 then (.char (Char.ofNat a.toNat), 0)
  else if 0xC2 ≤ a && a ≤ 0xDF then
    match r with
    | b :: _ => if isTail b then (.char (assemble (a.toNat - 0xC0) [b]), 1) else (.stray a, 0)
    | _ => (.stray a, 0)
  else if 0xE0 ≤ a && a ≤ 0xEF then
    match r with
    | b :: c :: _ =>
      let lo : UInt8 := if a == 0xE0 then 0xA0 else 0x80
      let hi : UInt8 := if a == 0xED then 0x9F else 0xBF
      if lo ≤ b && b ≤ hi && isTail c then (.char (assemble (a.toNat - 0xE0) [b, c]), 2)
      else (.stray a, 0)
    | _ => (.stray a, 0)
  else if 0xF0 ≤ a && a ≤ 0xF4 then
    match r with
    | b :: c :: d :: _ =>
      let lo : UInt8 := if a == 0xF0 then 0x90 else 0x80
      let hi : UInt8 := if a == 0xF4 then 0x8F else 0xBF
      if lo ≤ b && b ≤ hi && isTail c && isTail d then
        (.char (assemble (a.toNat - 0xF0) [b, c, d]), 3)
      else (.stray a, 0)
    | _ => (.stray a, 0)
  else (.stray a, 0)

/-- Reads glyphs onto `acc`, after skipping the `skip` octets that belong to the last one. -/
def scan (skip : Nat) (acc : List Glyph) : Bytes → List Glyph
  | [] => acc.reverse
  | a :: r =>
    match skip with
    | n + 1 => scan n acc r
    | 0 =>
      let (g, n) := first a r
      scan n (g :: acc) r

/-- The glyphs of an octet string, in order. -/
def glyphs (b : Bytes) : List Glyph := scan 0 [] b

/-- Whether the octets are well-formed UTF-8. -/
def isValid (b : Bytes) : Bool := (glyphs b).all fun
  | .char _ => true
  | .stray _ => false

/-- The number of glyphs. -/
def count (b : Bytes) : Nat := (glyphs b).length

/-- The code points of a text, each stray octet read as U+FFFD. -/
def chars (b : Bytes) : List Char := (glyphs b).map Glyph.toChar

/-- The octets of a sequence of code points. -/
def ofChars (l : List Char) : Bytes := l.flatMap ofChar

/-- The text with each stray octet replaced by U+FFFD. -/
def sanitize (b : Bytes) : Bytes := ofChars (chars b)

end Utf8

end Idl
