import Idl.Numeric.Notation
import Idl.Text.Quote

/-!
# Numbers and truth values from text

Documents carry constants as text. Reading one can fail in two ways: the text has the wrong form, or
the number does not fit.
-/

namespace Idl

/-- The ways in which reading a constant fails. -/
inductive ReadFault where
  | form
  | range
deriving DecidableEq, Repr

/-- The message for a text that a reader, given by its name, refuses. -/
def ReadFault.message (reader : Bytes) (t : Bytes) (f : ReadFault) : Bytes :=
  "strconv." ++ reader ++ ": parsing " ++ quote t ++ ": " ++ match f with
    | .form => "invalid syntax"
    | .range => "value out of range"

/-! ## §1 Whole numbers and truth values -/

/-- A run of decimal digits below a bound of at most 64 bits. Text is read from the left, so digits
that go beyond 64 bits are out of range whatever follows them. -/
def readNat (bound : Nat) (t : Bytes) : Except ReadFault Nat :=
  let digits := t.takeWhile Bytes.isDigit
  let n := Bytes.toNat 10 digits
  if n ≥ 2 ^ 64 then .error .range
  else if digits.isEmpty || digits.length != t.length then .error .form
  else if n < bound then .ok n
  else .error .range

/-- A whole number of 64 bits without a sign. -/
def readUInt64 (t : Bytes) : Except ReadFault Nat := readNat (2 ^ 64) t

/-- A whole number of 64 bits that may have a sign. -/
def readInt64 (t : Bytes) : Except ReadFault Int :=
  match t with
  | 0x2D :: r => (readNat (2 ^ 63 + 1) r).map fun n => -(n : Int)
  | 0x2B :: r => (readNat (2 ^ 63) r).map Int.ofNat
  | _ => (readNat (2 ^ 63) t).map Int.ofNat

/-- A truth value, by one of its usual spellings. -/
def readBool (t : Bytes) : Except ReadFault Bool :=
  let yes : List Bytes := ["1", "t", "T", "true", "TRUE", "True"]
  let no : List Bytes := ["0", "f", "F", "false", "FALSE", "False"]
  if yes.contains t then .ok true else if no.contains t then .ok false else .error .form

/-! ## §2 Floating-point numbers -/

namespace Underscore

/-- What an underscore may follow: a digit, which a base counts as, and nothing else. -/
inductive Last where
  | start
  | digit
  | underscore
  | other
deriving DecidableEq, Repr

/-- Whether every underscore separates two digits. -/
def separates (isDigit : UInt8 → Bool) (last : Last) : Bytes → Bool
  | [] => last != .underscore
  | c :: r =>
    if isDigit c then separates isDigit .digit r
    else if c == 0x5F then last == .digit && separates isDigit .underscore r
    else last != .underscore && separates isDigit .other r

end Underscore

/-- The number without its sign, and whether the sign is a minus. -/
def splitSign (t : Bytes) : Bool × Bytes :=
  match t with
  | 0x2D :: r => (true, r)
  | 0x2B :: r => (false, r)
  | _ => (false, t)

/-- The part of a hexadecimal number after `0x`: digits with at most one point, then `p` and an
exponent of two. -/
def readHexFloat (negative : Bool) (t : Bytes) : Except ReadFault Binary64 :=
  let (whole, r) := t.span Bytes.isHexDigit
  let (fraction, r) := match r with
    | 0x2E :: r => r.span Bytes.isHexDigit
    | _ => ([], r)
  match r with
  | c :: e =>
    let (expNegative, digits) := splitSign e
    if (whole.isEmpty && fraction.isEmpty) || Bytes.lower c != 0x70
        || digits.isEmpty || !digits.all Bytes.isDigit then .error .form
    else
      let m := Bytes.toNat 16 (whole ++ fraction)
      -- exponents beyond this are beyond the format whatever the digits
      let exp : Int := min (Bytes.toNat 10 (digits.dropWhile (· == 0x30) |>.take 8)) 20000
      let exp := (if expNegative then -exp else exp) - 4 * fraction.length
      let f := FloatFormat.double
      let bits := if m == 0 then 0 else f.ofRatio (m * 2 ^ exp.toNat) (2 ^ (-exp).toNat)
      if bits ≥ f.infinity then .error .range else .ok (.ofBits (f.withSign negative bits))
  | [] => .error .form

/-- The words for numbers that are not finite, in either case. -/
def specialFloat? (t : Bytes) : Option Binary64 :=
  let (negative, word) := splitSign t
  let word := Bytes.toLower word
  if word == "inf" || word == "infinity" then some (.infinity negative)
  else if Bytes.toLower t == "nan" then some .nan
  else none

/-- A floating-point number: decimal or hexadecimal, with underscores between digits, or a word. -/
def readFloat (t : Bytes) : Except ReadFault Binary64 :=
  match specialFloat? t with
  | some x => .ok x
  | none =>
    let (negative, body) := splitSign t
    let hex := match body with
      | 0x30 :: c :: _ => Bytes.lower c == 0x78
      | _ => false
    let digits := if hex then body.drop 2 else body
    let isDigit := if hex then Bytes.isHexDigit else Bytes.isDigit
    let last := if hex then Underscore.Last.digit else .start
    if digits.contains 0x5F && !Underscore.separates isDigit last digits then .error .form
    else
      let plain := digits.filter (· != 0x5F)
      if hex then readHexFloat negative plain
      else if (splitSign plain).2.length != plain.length then .error .form
      else match Numeral.ofBytes? plain with
        | none => .error .form
        | some n =>
          let bits := n.toBits .double
          if bits ≥ FloatFormat.double.infinity then .error .range
          else .ok (.ofBits (FloatFormat.double.withSign negative bits))

end Idl
