/-!
# Octet strings

Everything the language reads and writes is a string of octets: a source file, a decoded literal or
a name need not be well-formed text. `Bytes` is a plain list, so that the lemmas of `List` apply.
-/

namespace Idl

-- A power of a natural number or an integer is the built-in one, whatever else is imported.
attribute [scoped instance (high), default_instance (high + 1)] instPowNat

/-- A string of octets. -/
abbrev Bytes := List UInt8

namespace Bytes

/-- The octets of a piece of Unicode text, in UTF-8. -/
def ofString (s : String) : Bytes := s.toUTF8.data.toList

instance : Coe String Bytes := ⟨ofString⟩

/-- The text that the octets encode, if they are well formed. -/
def toString? (b : Bytes) : Option String := String.fromUTF8? ⟨b.toArray⟩

/-! ## §1 Classes of octets -/

/-- The digits `0` to `9`. -/
def isDigit (b : UInt8) : Bool := 0x30 ≤ b && b ≤ 0x39

/-- The digits `0` to `7`. -/
def isOctDigit (b : UInt8) : Bool := 0x30 ≤ b && b ≤ 0x37

/-- The digits `0` to `9` and the letters `a` to `f` in either case. -/
def isHexDigit (b : UInt8) : Bool :=
  isDigit b || (0x41 ≤ b && b ≤ 0x46) || (0x61 ≤ b && b ≤ 0x66)

/-- The ASCII letters. -/
def isLetter (b : UInt8) : Bool := (0x41 ≤ b && b ≤ 0x5A) || (0x61 ≤ b && b ≤ 0x7A)

/-- The octets that may continue a name: ASCII letters, digits and the underscore. -/
def isWord (b : UInt8) : Bool := isLetter b || isDigit b || b == 0x5F

/-- ASCII capital letters become small ones. -/
def lower (b : UInt8) : UInt8 := if 0x41 ≤ b && b ≤ 0x5A then b + 0x20 else b

/-- ASCII small letters become capital ones. -/
def upper (b : UInt8) : UInt8 := if 0x61 ≤ b && b ≤ 0x7A then b - 0x20 else b

/-! ## §2 Numerals -/

/-- The value of a digit in a base up to sixteen. -/
def digitValue (b : UInt8) : Nat :=
  if isDigit b then b.toNat - 0x30
  else if 0x61 ≤ b then b.toNat - 0x57
  else b.toNat - 0x37

/-- The number that a run of digits denotes in the given base. -/
def toNat (base : Nat) (digits : Bytes) : Nat :=
  digits.foldl (fun n d => n * base + digitValue d) 0

/-- The octet of a digit below sixteen, with small letters. -/
def digit (n : Nat) : UInt8 := if n < 10 then (0x30 + n).toUInt8 else (0x57 + n).toUInt8

/-- The decimal numeral of a number. -/
def ofNat (n : Nat) : Bytes := (Nat.toDigits 10 n).map fun c => c.toNat.toUInt8

/-- The decimal numeral of an integer, with a leading minus sign if it is negative. -/
def ofInt : Int → Bytes
  | .ofNat n => ofNat n
  | .negSucc n => 0x2D :: ofNat (n + 1)

/-- Two small hexadecimal digits. -/
def hex2 (b : UInt8) : Bytes := [digit (b.toNat / 16), digit (b.toNat % 16)]

/-- The last `width` hexadecimal digits of a number, with leading zeros. -/
def hexDigits : (width : Nat) → Nat → Bytes
  | 0, _ => []
  | w + 1, n => hexDigits w (n / 16) ++ [digit (n % 16)]

/-- Two small hexadecimal digits for each octet. -/
def toHex (b : Bytes) : Bytes := b.flatMap hex2

/-! ## §3 Cutting and joining -/

/-- Whether `p` is an initial part of the octets. -/
def startsWith (b p : Bytes) : Bool := p.isPrefixOf b

/-- Whether `s` is a final part of the octets. -/
def endsWith (b s : Bytes) : Bool := s.isSuffixOf b

/-- The octets without the initial part `p`, or all of them if they do not start with it. -/
def trimStart (b p : Bytes) : Bytes := if startsWith b p then b.drop p.length else b

/-- The octets without the initial part `p`, which is taken off as often as it occurs. -/
def trimStartAll (b p : Bytes) : Bytes :=
  if _h : startsWith b p = true ∧ p ≠ [] then trimStartAll (b.drop p.length) p else b
termination_by b.length
decreasing_by
  obtain ⟨hstart, hne⟩ := _h
  have hle := (List.isPrefixOf_iff_prefix.mp hstart).length_le
  have hpos := List.length_pos_iff.mpr hne
  rw [List.length_drop]
  omega

/-- The octets without the final part `s`, or all of them if they do not end in it. -/
def trimEnd (b s : Bytes) : Bytes := if endsWith b s then b.take (b.length - s.length) else b

/-- The octets without the trailing run that satisfies `p`. -/
def dropTailWhile (p : UInt8 → Bool) (b : Bytes) : Bytes := (b.reverse.dropWhile p).reverse

/-- The octets without the runs at either end that satisfy `p`. -/
def trimWhile (p : UInt8 → Bool) (b : Bytes) : Bytes := dropTailWhile p (b.dropWhile p)

/-- The pieces between the occurrences of one octet; there is always at least one piece. -/
def split (sep : UInt8) (b : Bytes) : List Bytes :=
  let (piece, done) := b.foldl
    (fun (piece, done) c => if c == sep then ([], piece.reverse :: done) else (c :: piece, done))
    (([], []) : Bytes × List Bytes)
  (piece.reverse :: done).reverse

/-- The number of octets before the first occurrence of `p`. -/
def indexOf? (b p : Bytes) : Option Nat := go 0 b
where
  /-- Looks for `p` in what is left after `n` octets. -/
  go (n : Nat) : Bytes → Option Nat
    | [] => if p.isEmpty then some n else none
    | c :: r => if p.isPrefixOf (c :: r) then some n else go (n + 1) r

/-- All pieces, with a separator between neighbours. -/
def join (sep : Bytes) (pieces : List Bytes) : Bytes := List.intercalate sep pieces

/-- The lexicographic order of octets, with a part before the whole. -/
def le (a b : Bytes) : Bool := !decide (b < a)

/-- The octets with ASCII capital letters made small. -/
def toLower (b : Bytes) : Bytes := b.map lower

/-- The octets with ASCII small letters made capital. -/
def toUpper (b : Bytes) : Bytes := b.map upper

end Bytes

/-! ## §4 Numbers of a fixed width, the least octet first -/

/-- The lowest `width` octets of a number, the least first. -/
def leOctets : (width : Nat) → Nat → Bytes
  | 0, _ => []
  | w + 1, n => (n % 256).toUInt8 :: leOctets w (n / 256)

/-- The number that octets stand for, the least first. -/
def leNat : Bytes → Nat
  | [] => 0
  | b :: r => b.toNat + 256 * leNat r

/-- The lowest `width` octets of an integer, a negative one counting from the top. -/
def leOctetsInt (width : Nat) (n : Int) : Bytes := leOctets width (n % (256 ^ width : Nat)).toNat

/-- The integer that octets stand for, where the upper half of the numbers is negative. -/
def leInt (b : Bytes) : Int :=
  let n := leNat b
  if 2 * n < 256 ^ b.length then n else (n : Int) - (256 ^ b.length : Nat)

theorem length_leOctets (width n : Nat) : (leOctets width n).length = width := by
  induction width generalizing n with
  | zero => rfl
  | succ w ih => simp [leOctets, ih]

theorem leNat_leOctets (width n : Nat) : leNat (leOctets width n) = n % 256 ^ width := by
  induction width generalizing n with
  | zero => simp [leOctets, leNat, Nat.mod_one]
  | succ w ih =>
    have small : n % 256 % 2 ^ 8 = n % 256 := Nat.mod_eq_of_lt (Nat.mod_lt _ (by decide))
    rw [leOctets, leNat, ih, Nat.pow_succ', Nat.mod_mul]
    simp only [Nat.toUInt8, UInt8.toNat_ofNat', small]

end Idl
