import Idl.Numeric.Reading

/-!
# Scalars in YAML

A scalar without quotes stands for a null, a truth value, a number, a time or a text, by the form of
its text. Both the reader and the writer go by this: the writer quotes a text that would otherwise
be taken for something else.
-/

namespace Idl.Yaml

/-- What a scalar without quotes stands for. -/
inductive Resolved where
  | null
  | bool (b : Bool)
  | int (n : Int)
  | float (x : Binary64)
  | timestamp
  | text
deriving DecidableEq, Repr

/-! ## §1 Words -/

/-- The words with a fixed meaning. -/
def words : List (Bytes × Resolved) :=
  let each (r : Resolved) (l : List Bytes) : List (Bytes × Resolved) := l.map fun w => (w, r)
  each (.bool true) ["true", "True", "TRUE"]
    ++ each (.bool false) ["false", "False", "FALSE"]
    ++ each .null ["", "~", "null", "Null", "NULL"]
    ++ each (.float .nan) [".nan", ".NaN", ".NAN"]
    ++ each (.float (.infinity false)) [".inf", ".Inf", ".INF", "+.inf", "+.Inf", "+.INF"]
    ++ each (.float (.infinity true)) ["-.inf", "-.Inf", "-.INF"]

/-- The words that earlier versions of the format took for truth values. -/
def oldBools : List Bytes :=
  ["y", "Y", "yes", "Yes", "YES", "on", "On", "ON", "n", "N", "no", "No", "NO", "off", "Off", "OFF"]

/-- The truth value of an old word where a truth value has to stand: only the usual spellings are
still read. -/
def lenientBool? (t : Bytes) : Option Bool :=
  let yes : List Bytes := ["y", "Y", "yes", "on"]
  let no : List Bytes := ["n", "N", "no", "off"]
  if yes.contains t then some true else if no.contains t then some false else none

/-! ## §2 Whole numbers -/

/-- The digits of a base. -/
def isDigitOf (base : Nat) (c : UInt8) : Bool := Bytes.isHexDigit c && Bytes.digitValue c < base

/-- The number that a run of digits denotes in a base; `none` if there is another octet. -/
def digits? (base : Nat) (t : Bytes) : Option Nat :=
  if t.all (isDigitOf base) then some (Bytes.toNat base t) else none

/-- A number without a sign. The mark in front tells the base: `0x`, `0o`, `0b`, or a bare zero for
base eight. -/
def unsigned? (t : Bytes) : Option Nat :=
  match t with
  | [] => none
  | 0x30 :: c :: d :: r =>
    let mark := Bytes.lower c
    if mark == 0x62 then digits? 2 (d :: r)
    else if mark == 0x6F then digits? 8 (d :: r)
    else if mark == 0x78 then digits? 16 (d :: r)
    else digits? 8 (c :: d :: r)
  | 0x30 :: r => digits? 8 r
  | t => digits? 10 t

/-- A number with its sign, if it fits 64 bits with a sign. -/
def fit? (negative : Bool) (n : Nat) : Option Int :=
  if negative then (if n ≤ 2 ^ 63 then some (-n) else none)
  else if n < 2 ^ 63 then some n else none

/-- A sign and a nonempty run of digits after the mark of a base. -/
def markedSigned? (base : Nat) (t : Bytes) : Option Int :=
  let (negative, digits) := splitSign t
  if digits.isEmpty || digits.length == t.length then none
  else digits? base digits >>= fit? negative

/-- A whole number of 64 bits, with or without a sign. A sign may also stand after the mark of base
two or eight. -/
def whole? (t : Bytes) : Option Int :=
  let (negative, body) := splitSign t
  let signed := unsigned? body >>= fit? negative
  let large := if body.length == t.length then
      (unsigned? t).filter (· < 2 ^ 64) |>.map Int.ofNat
    else none
  let marked := match t with
    | 0x30 :: 0x62 :: r => markedSigned? 2 r
    | 0x30 :: 0x6F :: r => markedSigned? 8 r
    | _ => none
  signed <|> large <|> marked

/-! ## §3 Times -/

namespace Time

/-- A number of one or two digits below a bound, and what follows it. -/
def short? (bound : Nat) (t : Bytes) : Option (Nat × Bytes) :=
  let digits := (t.take 2).takeWhile Bytes.isDigit
  let n := Bytes.toNat 10 digits
  if digits.isEmpty || n ≥ bound then none else some (n, t.drop digits.length)

/-- What follows an octet. -/
def after? (c : UInt8) (t : Bytes) : Option Bytes :=
  match t with
  | d :: r => if c == d then some r else none
  | [] => none

/-- The number of days in a month. -/
def daysIn (year month : Nat) : Nat :=
  if month == 2 then (if year % 4 == 0 && (year % 100 != 0 || year % 400 == 0) then 29 else 28)
  else if month == 4 || month == 6 || month == 9 || month == 11 then 30
  else 31

/-- Skips a year, a month and a day. -/
def date? (t : Bytes) : Option Bytes := do
  let digits := t.takeWhile Bytes.isDigit
  if digits.length != 4 then none
  let t ← after? 0x2D (t.drop 4)
  let (month, t) ← short? 13 t
  let t ← after? 0x2D t
  let (day, t) ← short? 100 t
  if month == 0 || day == 0 || day > daysIn (Bytes.toNat 10 digits) month then none else some t

/-- Skips an hour, a minute, a second and a fraction of one. -/
def clock? (t : Bytes) : Option Bytes := do
  let (_, t) ← short? 24 t
  let t ← after? 0x3A t
  let (_, t) ← short? 60 t
  let t ← after? 0x3A t
  let (_, t) ← short? 60 t
  match t with
  | p :: d :: r =>
    if (p == 0x2E || p == 0x2C) && Bytes.isDigit d then some (r.dropWhile Bytes.isDigit) else some t
  | t => some t

/-- Whether the rest is a `Z`, or a sign, two digits, a colon and two digits. -/
def isZone (t : Bytes) : Bool :=
  match t with
  | [0x5A] => true
  | [s, a, b, 0x3A, c, d] =>
    (s == 0x2B || s == 0x2D) && [a, b, c, d].all Bytes.isDigit
      && Bytes.toNat 10 [a, b] ≤ 24 && Bytes.toNat 10 [c, d] ≤ 60
  | _ => false

/-- Whether a text is a date, or a date and a time of day. -/
def isTime (t : Bytes) : Bool :=
  match date? t with
  | none => false
  | some [] => true
  | some (c :: r) =>
    if c == 0x54 || c == 0x74 then (clock? r).any isZone
    else if c == 0x20 then (clock? (r.dropWhile (· == 0x20))).any List.isEmpty
    else false

end Time

/-! ## §4 Resolution -/

/-- What a text that starts with a digit or a sign stands for. -/
def resolveNumber (t : Bytes) : Resolved :=
  if Time.isTime t then .timestamp
  else
    let plain := t.filter (· != 0x5F)
    match whole? plain, Binary64.ofNumeral? plain with
    | some n, _ => .int n
    | none, some x => .float x
    | none, none => .text

/-- What a scalar without quotes stands for. -/
def resolve (t : Bytes) : Resolved :=
  match words.find? (·.1 == t) with
  | some (_, r) => r
  | none =>
    match t with
    | [] => .null
    | c :: _ =>
      if Bytes.isDigit c || c == 0x2B || c == 0x2D then resolveNumber t
      else if c == 0x2E then
        match readFloat t with
        | .ok x => .float x
        | .error _ => .text
      else .text

/-! ## §5 Numbers in base sixty -/

/-- Groups of a colon and a number below sixty, then at most a fraction. -/
def isSixties (seen : Bool) : (groups : Nat) → Bytes → Bool
  | 0, _ => false
  | n + 1, t =>
    match t with
    | 0x3A :: a :: b :: r =>
      (Bytes.isDigit a && a ≤ 0x35 && Bytes.isDigit b && isSixties true n r)
        || (Bytes.isDigit a && isSixties true n (b :: r))
    | [0x3A, a] => Bytes.isDigit a
    | 0x2E :: r => seen && r.all fun c => Bytes.isDigit c || c == 0x5F
    | [] => seen
    | _ => false

/-- Whether earlier versions of the format took the text for a number in base sixty. -/
def isBaseSixty (t : Bytes) : Bool :=
  match (splitSign t).2 with
  | c :: r =>
    let rest := r.dropWhile fun c => Bytes.isDigit c || c == 0x5F
    Bytes.isDigit c && isSixties false (rest.length + 1) rest
  | [] => false

/-- Whether a text without quotes is read as itself, by any version of the format. -/
def readsAsText (t : Bytes) : Bool :=
  resolve t == .text && !isBaseSixty t && !oldBools.contains t

end Idl.Yaml
