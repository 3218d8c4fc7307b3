import Idl.Bytes

/-!
# Binary floating point

A format is given by the widths of its two fields. Numbers are decoded into an integer times a
power of two, so that reading and writing decimals is exact arithmetic on naturals.
-/

namespace Idl

/-- The widths of the fraction and exponent fields of an interchange format. -/
structure FloatFormat where
  fracBits : Nat
  expBits : Nat
deriving DecidableEq, Repr

/-- What the bits of a floating-point number stand for. -/
inductive FloatClass where
  | nan
  | infinite (negative : Bool)
  /-- The number `m * 2 ^ q`, with a sign. The gap to the next smaller number is half as wide as
  the gap to the next larger one if `narrow` holds. -/
  | finite (negative : Bool) (m : Nat) (q : Int) (narrow : Bool)
deriving DecidableEq, Repr

namespace FloatFormat

/-- The 64-bit format. -/
def double : FloatFormat := ⟨52, 11⟩

/-- The 32-bit format. -/
def single : FloatFormat := ⟨23, 8⟩

/-- The exponent of the smallest positive number. -/
def minExp (f : FloatFormat) : Int := 2 - (2 ^ (f.expBits - 1) : Nat) - f.fracBits

/-- The largest value of the exponent field, which marks infinities and NaN. -/
def specialExp (f : FloatFormat) : Nat := 2 ^ f.expBits - 1

/-- Takes the bits of a number apart. -/
def classify (f : FloatFormat) (bits : Nat) : FloatClass :=
  let frac := bits % 2 ^ f.fracBits
  let exp := bits / 2 ^ f.fracBits % 2 ^ f.expBits
  let negative := bits / 2 ^ (f.fracBits + f.expBits) % 2 == 1
  if exp == f.specialExp then
    if frac == 0 then .infinite negative else .nan
  else if exp == 0 then .finite negative frac f.minExp false
  else .finite negative (2 ^ f.fracBits + frac) (f.minExp + exp - 1) (frac == 0 && exp > 1)

/-- The bits of a sign and a magnitude. -/
def withSign (f : FloatFormat) (negative : Bool) (bits : Nat) : Nat :=
  if negative then 2 ^ (f.fracBits + f.expBits) + bits else bits

/-- The bits of infinity. -/
def infinity (f : FloatFormat) : Nat := f.specialExp * 2 ^ f.fracBits

/-- The bits of the canonical NaN. -/
def nan (f : FloatFormat) : Nat := f.infinity + 2 ^ (f.fracBits - 1)

end FloatFormat

/-- A quotient rounded to the nearest natural, a half to the even neighbour. -/
def roundDiv (num den : Nat) : Nat :=
  let q := num / den
  match compare (2 * (num % den)) den with
  | .lt => q
  | .gt => q + 1
  | .eq => if q % 2 == 0 then q else q + 1

namespace FloatFormat

/-- The bits of the number nearest to a positive quotient, a tie going to the even one. The result
is infinity where the quotient is too large. -/
def ofRatio (f : FloatFormat) (num den : Nat) : Nat :=
  -- `e` is the binary logarithm of the quotient, rounded down
  let guess : Int := (num.log2 : Int) - den.log2
  let fits : Bool := den * 2 ^ guess.toNat ≤ num * 2 ^ (-guess).toNat
  let e : Int := if fits then guess else guess - 1
  let q : Int := max (e - f.fracBits) f.minExp
  let m := roundDiv (num * 2 ^ (-q).toNat) (den * 2 ^ q.toNat)
  -- a mantissa rounded up to the next power of two carries into the exponent field by itself
  let bits := m + (q - f.minExp).toNat * 2 ^ f.fracBits
  min bits f.infinity

/-- The number of decimal digits. -/
def decimalWidth (n : Nat) : Nat := (Nat.toDigits 10 n).length

/-- The bits of the number nearest to `digits * 10 ^ exp`. Exponents far outside the range of any
format are cut short before any power is formed. -/
def ofDecimal (f : FloatFormat) (digits : Nat) (exp : Int) : Nat :=
  let scale : Int := decimalWidth digits + exp
  if digits == 0 || scale < -400 then 0
  else if scale > 400 then f.infinity
  else f.ofRatio (digits * 10 ^ exp.toNat) (10 ^ (-exp).toNat)

/-- The bits of the number nearest to an integer. -/
def ofInt (f : FloatFormat) (n : Int) : Nat :=
  if n == 0 then 0 else f.withSign (n < 0) (f.ofRatio n.natAbs 1)

end FloatFormat

/-- A decimal `digits * 10 ^ exp`. -/
structure Decimal where
  digits : Nat
  exp : Int
deriving DecidableEq, Repr

namespace Decimal

/-- Compares `a * 10 ^ i` with `n * 2 ^ j`, exactly. -/
def compareScaled (a : Nat) (i : Int) (n : Nat) (j : Int) : Ordering :=
  compare (a * 10 ^ i.toNat * 2 ^ (-j).toNat) (n * 2 ^ j.toNat * 10 ^ (-i).toNat)

/-- Whether the decimal is among the reals that round to `m * 2 ^ q`: it lies between the halfway
points to the two neighbours, which are included exactly when `m` is even. -/
def readsBack (m : Nat) (q : Int) (narrow : Bool) (d : Decimal) : Bool :=
  let lo := if narrow then 4 * m - 1 else 4 * m - 2
  let even := m % 2 == 0
  let below := compareScaled d.digits d.exp lo (q - 2)
  let above := compareScaled d.digits d.exp (4 * m + 2) (q - 2)
  (below == .gt || (even && below == .eq)) && (above == .lt || (even && above == .eq))

/-- Trailing zeros of the digits move into the exponent. -/
def stripZeros : (fuel : Nat) → Decimal → Decimal
  | 0, d => d
  | n + 1, d =>
    if d.digits != 0 && d.digits % 10 == 0 then stripZeros n ⟨d.digits / 10, d.exp + 1⟩ else d

/-- The least `k` with `m * 2 ^ q < 10 ^ k`, found near the binary logarithm. -/
def magnitude (m : Nat) (q : Int) : Int :=
  let guess : Int := ((m.log2 : Int) + q) * 30103 / 100000 - 1
  let candidates := [guess, guess + 1, guess + 2, guess + 3]
  (candidates.find? fun k => compareScaled 1 k m q == .gt).getD (guess + 4)

/-- The decimal with `n` digits before its last place that reads back to the number and is nearest
to it, if there is one; of two that are equally near, the even one. -/
def onGrid? (m : Nat) (q : Int) (narrow : Bool) (k : Int) (n : Nat) : Option Decimal :=
  let exp : Int := k - n
  -- the value divided by the grid, as a quotient of naturals
  let num := m * 2 ^ q.toNat * 10 ^ (-exp).toNat
  let den := 2 ^ (-q).toNat * 10 ^ exp.toNat
  let lo : Decimal := ⟨num / den, exp⟩
  let hi : Decimal := ⟨num / den + 1, exp⟩
  match readsBack m q narrow lo, readsBack m q narrow hi with
  | true, false => some lo
  | false, true => some hi
  | true, true =>
    let rest := 2 * (num % den)
    if rest < den || (rest == den && lo.digits % 2 == 0) then some lo else some hi
  | false, false => none

/-- The shortest decimal that reads back to a positive number. -/
def shortest (m : Nat) (q : Int) (narrow : Bool) : Decimal :=
  let k := magnitude m q
  let found := (List.range 17).findSome? fun i => onGrid? m q narrow k (i + 1)
  -- seventeen digits always suffice; the exact value stands in should they not
  let d := found.getD ⟨m * 2 ^ q.toNat * 5 ^ (-q).toNat, -((-q).toNat : Int)⟩
  d.stripZeros (FloatFormat.decimalWidth d.digits)

end Decimal

end Idl
