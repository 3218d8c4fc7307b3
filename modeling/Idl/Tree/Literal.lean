import Idl.Token.Scan
import Idl.Tree

/-!
# The meaning of literals

Whole numbers are written in three bases and have to fit 64 bits, with or without a sign. One that
does is kept as a sign and a magnitude, from which it is asked for as a word of one kind or another.
The body of a text literal is a sequence of units: plain octets and escapes.

* §1 whole numbers, §2 sign and magnitude, §3 text.
-/

namespace Idl

/-! ## §1 Whole numbers -/

/-- The base of an integer literal and the number of octets in front of its digits. -/
def TokenKind.base : TokenKind → Nat × Nat
  | .hexIntLit => (16, 2)
  | .octIntLit => (8, 1)
  | _ => (10, 0)

/-- The number that an integer literal denotes. -/
def intLitValue (kind : TokenKind) (text : Bytes) : Int :=
  let (base, lead) := kind.base
  match text with
  | 0x2D :: r => -(Bytes.toNat base (r.drop lead) : Int)
  | _ => Bytes.toNat base (text.drop lead)

/-- The numbers that a literal may denote. -/
def fitsLiteral (n : Int) : Bool := -(2 ^ 63) ≤ n && n < 2 ^ 64

/-! ## §2 Sign and magnitude -/

namespace Integer

/-- Takes one more digit in, unless it is none of the base or the number no longer fits a word. -/
def push? (base n : UInt64) (c : UInt8) : Option UInt64 :=
  let digit := (Bytes.digitValue c).toUInt64
  if !Bytes.isHexDigit c || base ≤ digit then none
  else if 0xFFFFFFFFFFFFFFFF / base + 1 ≤ n then none
  else
    let sum := n * base + digit
    if sum < n * base then none else some sum

/-- The number of digits, if there are any and it fits a word. -/
def parse? (base : UInt64) (digits : Bytes) : Option UInt64 :=
  if digits.isEmpty then none else digits.foldlM (push? base) 0

/-- A number as it is kept: whether it is below zero, and how far from zero. -/
structure Kept where
  negative : Bool
  magnitude : UInt64
deriving DecidableEq, Repr

namespace Kept

/-- Reads a literal. What is below zero has to fit a signed word. -/
def ofToken? (kind : TokenKind) (text : Bytes) : Option Kept := do
  let (minus, b) := match text with
    | 0x2D :: r => (true, r)
    | _ => (false, text)
  let n ← parse? kind.base.1.toUInt64 (b.drop kind.base.2)
  if minus && 0x7FFFFFFFFFFFFFFF + 1 < n then none else some ⟨minus && n != 0, n⟩

/-- The number as an unsigned word. -/
def uint64? (k : Kept) : Option UInt64 := if k.negative then none else some k.magnitude

/-- The number as an unsigned word of half the width. -/
def uint32? (k : Kept) : Option UInt32 :=
  if k.negative || 0xFFFFFFFF < k.magnitude then none else some k.magnitude.toUInt32

/-- The number as a signed word. The least one has no opposite, so that one is taken off before the
sign is changed. -/
def int64? (k : Kept) : Option Int64 :=
  if k.negative then some (-(k.magnitude - 1).toInt64 - 1)
  else if 0x7FFFFFFFFFFFFFFF < k.magnitude then none
  else some k.magnitude.toInt64

end Kept

end Integer

/-- What a literal in a tree is kept as. -/
def Tree.IntLit.kept? (n : Tree.IntLit) : Option Integer.Kept :=
  match n.raw with
  | [] => none
  | c :: r => match scanToken c r with
    | .ok (kind, _) => Integer.Kept.ofToken? kind n.raw
    | .error _ => none

/-! ## §3 Text -/

/-- The octet of an escape that is a backslash and one letter or sign. -/
def simpleEscape? (c : UInt8) : Option UInt8 :=
  match c with
  | 0x61 => some 0x07
  | 0x62 => some 0x08
  | 0x66 => some 0x0C
  | 0x6E => some 0x0A
  | 0x72 => some 0x0D
  | 0x74 => some 0x09
  | 0x76 => some 0x0B
  | 0x5C => some 0x5C
  | 0x27 => some 0x27
  | 0x22 => some 0x22
  | 0x3F => some 0x3F
  | _ => none

/-- The escape after a backslash: the octet it denotes and the number of octets it covers, or the
number of octets that are at fault. -/
def escape (r : Bytes) : Except Nat (UInt8 × Nat) :=
  match r with
  | [] => .error 0
  | c :: r =>
    match simpleEscape? c with
    | some b => .ok (b, 1)
    | none =>
      if c == 0x78 || c == 0x58 then
        let digits := (r.take 2).takeWhile Bytes.isHexDigit
        if digits.isEmpty then .error 1
        else .ok ((Bytes.toNat 16 digits).toUInt8, 1 + digits.length)
      else if Bytes.isOctDigit c then
        let digits := ((c :: r).take 3).takeWhile Bytes.isOctDigit
        let n := Bytes.toNat 8 digits
        if n > 0xFF then .error digits.length else .ok (n.toUInt8, digits.length)
      else .error 1

/-- Decodes the body of a text literal onto `acc`, after skipping the `skip` octets that are left of
the last escape. A bad escape is given by its offset in the body, counted from `n`, and its text. -/
def decodeBody (skip n : Nat) (acc : Bytes) : Bytes → Except (Nat × Bytes) Bytes
  | [] => .ok acc.reverse
  | c :: r =>
    match skip with
    | k + 1 => decodeBody k (n + 1) acc r
    | 0 =>
      if c == 0x5C then
        match escape r with
        | .ok (b, k) => decodeBody k (n + 1) (b :: acc) r
        | .error k => .error (n, c :: r.take k)
      else decodeBody 0 (n + 1) (c :: acc) r

/-- The octets that a text literal denotes, or the offset and text of its first bad escape. -/
def textLitValue (text : Bytes) : Except (Nat × Bytes) Bytes :=
  decodeBody 0 1 [] ((text.drop 1).take (text.length - 2))

end Idl
