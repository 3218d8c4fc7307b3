import Idl.Text.Utf8

/-!
# Places in a source

A span counts octets; a position counts lines and columns from one, a column being a glyph.
-/

namespace Idl

/-- A run of octets of a source. -/
structure Span where
  start : Nat
  length : Nat
deriving DecidableEq, Repr, Inhabited

namespace Span

/-- The offset just past the last octet. -/
def stop (s : Span) : Nat := s.start + s.length

/-- The span between two offsets. -/
def between (start stop : Nat) : Span := ⟨start, stop - start⟩

end Span

/-- A line and a column, both counted from one. Both are zero where no position is known. -/
structure Pos where
  line : Nat
  col : Nat
deriving DecidableEq, Repr, Inhabited

namespace Pos

/-- The position of the first octet. -/
def start : Pos := ⟨1, 1⟩

/-- The position of something that has no place in a source. -/
def unknown : Pos := ⟨0, 0⟩

/-- The position after a piece of text that begins at `p`. -/
def advance (p : Pos) (text : Bytes) : Pos :=
  let breaks := text.count 0x0A
  if breaks == 0 then { p with col := p.col + Utf8.count text }
  else
    let lastLine := (text.reverse.takeWhile (· != 0x0A)).reverse
    ⟨p.line + breaks, 1 + Utf8.count lastLine⟩

/-- The position of an offset: the line counts the newlines before it, the column the glyphs since
the last of them. An offset beyond the end counts as the end. -/
def ofOffset (src : Bytes) (offset : Nat) : Pos := start.advance (src.take offset)

/-- The notation `line:column`. -/
def render (p : Pos) : Bytes := Bytes.ofNat p.line ++ ":" ++ Bytes.ofNat p.col

end Pos

/-- Where a piece of syntax stands. -/
structure Loc where
  span : Span
  pos : Pos
deriving DecidableEq, Repr, Inhabited

end Idl
