import Idl.Numeric.Binary

/-!
# Decimal notation of floating-point numbers

The digits are those of `Decimal.shortest`; this module lays them out and reads them back.
-/

namespace Idl

/-- The decisions of one notation for floating-point numbers. -/
structure FloatNotation where
  /-- The least decimal exponent that is written without an exponent part. -/
  plainFrom : Int
  /-- The decimal exponent from which an exponent part is written. -/
  plainBelow : Int
  /-- The least number of digits of an exponent. -/
  expWidth : Nat
  infinity : Bytes
  negInfinity : Bytes
  nan : Bytes

namespace FloatNotation

/-- The notation of constants in the language: positional from a ten-thousandth up to a million. -/
def constant : FloatNotation where
  plainFrom := -4
  plainBelow := 6
  expWidth := 2
  infinity := "inf"
  negInfinity := "-inf"
  nan := "nan"

/-- The notation of numbers in JSON text, which has no word for the numbers that are not finite. -/
def json : FloatNotation where
  plainFrom := -6
  plainBelow := 21
  expWidth := 1
  infinity := "+Inf"
  negInfinity := "-Inf"
  nan := "NaN"

/-- The notation of the syntax outline, whose words for the special values differ. -/
def outline : FloatNotation :=
  { constant with infinity := "+Inf", negInfinity := "-Inf", nan := "NaN" }

/-- A numeral with leading zeros up to the given width. -/
def padZeros (width : Nat) (b : Bytes) : Bytes := List.replicate (width - b.length) 0x30 ++ b

/-- Lays out the digits of a decimal. -/
def layout (n : FloatNotation) (d : Decimal) : Bytes :=
  let digits := Bytes.ofNat d.digits
  let lead : Int := d.exp + digits.length - 1
  if n.plainFrom ≤ lead && lead < n.plainBelow then
    if d.exp ≥ 0 then digits ++ List.replicate d.exp.toNat 0x30
    else if lead ≥ 0 then
      let whole := (lead + 1).toNat
      digits.take whole ++ "." ++ digits.drop whole
    else ("0." : Bytes) ++ List.replicate (-lead - 1).toNat 0x30 ++ digits
  else
    let fraction : Bytes := if digits.length > 1 then "." ++ digits.drop 1 else []
    let sign : Bytes := if lead < 0 then "-" else "+"
    digits.take 1 ++ fraction ++ "e" ++ sign ++ padZeros n.expWidth (Bytes.ofNat lead.natAbs)

/-- Writes a number with the fewest digits that identify it. Zero keeps its sign. -/
def render (n : FloatNotation) : FloatClass → Bytes
  | .nan => n.nan
  | .infinite negative => if negative then n.negInfinity else n.infinity
  | .finite negative m q narrow =>
    let sign : Bytes := if negative then "-" else []
    if m == 0 then sign ++ "0" else sign ++ n.layout (Decimal.shortest m q narrow)

end FloatNotation

/-- A 64-bit floating-point number, as its bits. -/
structure Binary64 where
  bits : UInt64
deriving DecidableEq, Repr, Inhabited

namespace Binary64

/-- What the bits stand for. -/
def classify (x : Binary64) : FloatClass := FloatFormat.double.classify x.bits.toNat

/-- The number with the given bit pattern. -/
def ofBits (n : Nat) : Binary64 := ⟨n.toUInt64⟩

/-- The number that is not a number. -/
def nan : Binary64 := ofBits (FloatFormat.double.nan + 1)

/-- Positive or negative infinity. -/
def infinity (negative : Bool) : Binary64 :=
  ofBits (FloatFormat.double.withSign negative FloatFormat.double.infinity)

/-- Whether the bits are those of a NaN. -/
def isNaN (x : Binary64) : Bool := x.classify == .nan

/-- Equality of numbers: the two zeros are equal, and every NaN is equal to every NaN. -/
def same (x y : Binary64) : Bool :=
  match x.classify, y.classify with
  | .nan, .nan => true
  | .finite _ 0 _ _, .finite _ 0 _ _ => true
  | .nan, _ => false
  | _, .nan => false
  | _, _ => x == y

/-- The text of a constant. -/
def render (x : Binary64) : Bytes := FloatNotation.constant.render x.classify

end Binary64

/-- A decimal numeral in parts: `whole.fraction e exponent`, each part a run of digits. -/
structure Numeral where
  negative : Bool
  whole : Bytes
  fraction : Bytes
  expNegative : Bool
  exponent : Bytes
deriving DecidableEq, Repr

namespace Numeral

/-- Reads `[sign] digits [. digits] [e [sign] digits]`, with at least one digit around the point.
A plus sign is accepted in front. -/
def ofBytes? (b : Bytes) : Option Numeral :=
  let (negative, b) := match b with
    | 0x2D :: r => (true, r)
    | 0x2B :: r => (false, r)
    | _ => (false, b)
  let (whole, b) := b.span Bytes.isDigit
  let (fraction, b) := match b with
    | 0x2E :: r => r.span Bytes.isDigit
    | _ => ([], b)
  if whole.isEmpty && fraction.isEmpty then none
  else match b with
    | [] => some ⟨negative, whole, fraction, false, []⟩
    | c :: r =>
      if c != 0x65 && c != 0x45 then none
      else
        let (expNegative, r) := match r with
          | 0x2D :: r => (true, r)
          | 0x2B :: r => (false, r)
          | _ => (false, r)
        if r.isEmpty || !r.all Bytes.isDigit then none
        else some ⟨negative, whole, fraction, expNegative, r⟩

/-- The exponent of the last digit. Exponents of more than nine digits are beyond every format
and are cut to a number that is so as well. -/
def scale (n : Numeral) : Int :=
  let digits := n.exponent.dropWhile (· == 0x30)
  let e : Int := if digits.length > 9 then 1000000000 else Bytes.toNat 10 digits
  (if n.expNegative then -e else e) - n.fraction.length

/-- The bits of the nearest number of a format; infinity stands for numbers that are too large. -/
def toBits (f : FloatFormat) (n : Numeral) : Nat :=
  f.withSign n.negative (f.ofDecimal (Bytes.toNat 10 (n.whole ++ n.fraction)) n.scale)

end Numeral

namespace Binary64

/-- Reads a finite decimal numeral; refuses one that is too large for the format. -/
def ofNumeral? (b : Bytes) : Option Binary64 := do
  let n ← Numeral.ofBytes? b
  let x := ofBits (n.toBits FloatFormat.double)
  match x.classify with
  | .finite .. => some x
  | _ => none

end Binary64

end Idl
