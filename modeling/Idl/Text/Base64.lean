import Idl.Bytes

/-!
# Base64

The standard alphabet, with or without padding. Line breaks may stand anywhere in what is read, and
the bits that a last incomplete group leaves over are ignored.
-/

namespace Idl.Base64

/-- The character of a six-bit number. -/
def character (n : Nat) : UInt8 :=
  if n < 26 then (0x41 + n).toUInt8
  else if n < 52 then (0x61 + (n - 26)).toUInt8
  else if n < 62 then (0x30 + (n - 52)).toUInt8
  else if n == 62 then 0x2B
  else 0x2F

/-- The six-bit number of a character. -/
def value? (c : UInt8) : Option Nat :=
  if 0x41 ≤ c && c ≤ 0x5A then some (c.toNat - 0x41)
  else if 0x61 ≤ c && c ≤ 0x7A then some (c.toNat - 0x61 + 26)
  else if 0x30 ≤ c && c ≤ 0x39 then some (c.toNat - 0x30 + 52)
  else if c == 0x2B then some 62
  else if c == 0x2F then some 63
  else none

/-- The text of an octet string, group by group onto `acc`. -/
def encodeOnto (padded : Bool) (acc : Bytes) : Bytes → Bytes
  | a :: b :: c :: r =>
    let n := a.toNat * 65536 + b.toNat * 256 + c.toNat
    encodeOnto padded (character (n % 64) :: character (n / 64 % 64) :: character (n / 4096 % 64)
      :: character (n / 262144) :: acc) r
  | [a, b] =>
    let n := a.toNat * 1024 + b.toNat * 4
    let pad : Bytes := if padded then [0x3D] else []
    (pad ++ character (n % 64) :: character (n / 64 % 64) :: character (n / 4096) :: acc).reverse
  | [a] =>
    let n := a.toNat * 16
    let pad : Bytes := if padded then [0x3D, 0x3D] else []
    (pad ++ character (n % 64) :: character (n / 64) :: acc).reverse
  | [] => acc.reverse

/-- The text of an octet string, with padding. -/
def encode (b : Bytes) : Bytes := encodeOnto true [] b

/-- The text of an octet string, without padding. -/
def encodeRaw (b : Bytes) : Bytes := encodeOnto false [] b

/-- The octets of a complete or incomplete group of six-bit numbers, given last first, onto `acc`.
-/
def emit (group : List Nat) (acc : Bytes) : Bytes :=
  match group with
  | [d, c, b, a] =>
    let n := ((a * 64 + b) * 64 + c) * 64 + d
    (n % 256).toUInt8 :: (n / 256 % 256).toUInt8 :: (n / 65536).toUInt8 :: acc
  | [c, b, a] =>
    let n := ((a * 64 + b) * 64 + c) / 4
    (n % 256).toUInt8 :: (n / 256).toUInt8 :: acc
  | [b, a] => ((a * 64 + b) / 16).toUInt8 :: acc
  | _ => acc

/-- Line breaks are skipped. -/
def isBreak (c : UInt8) : Bool := c == 0x0A || c == 0x0D

/-- Reads characters into groups. `offset` is that of the first of them; the result is the octets,
or the offset of the first character that is out of place. -/
def decodeOnto (padded : Bool) (offset : Nat) (group : List Nat) (acc : Bytes) :
    Bytes → Except Nat Bytes
  | [] =>
    if group.isEmpty then .ok acc.reverse
    else if padded || group.length == 1 then .error (offset - group.length)
    else .ok (emit group acc).reverse
  | c :: r =>
    match value? c with
    | some v =>
      let group := v :: group
      if group.length == 4 then decodeOnto padded (offset + 1) [] (emit group acc) r
      else decodeOnto padded (offset + 1) group acc r
    | none =>
      if isBreak c then decodeOnto padded (offset + 1) group acc r
      else if !padded || c != 0x3D || group.length < 2 then .error offset
      else finish (offset + 1) group acc r
where
  /-- Reads what follows the first padding character. -/
  finish (offset : Nat) (group : List Nat) (acc : Bytes) (r : Bytes) : Except Nat Bytes :=
    let blank := (r.takeWhile isBreak).length
    let r := r.drop blank
    let offset := offset + blank
    if group.length == 3 then
      if r.isEmpty then .ok (emit group acc).reverse else .error offset
    else match r with
      | 0x3D :: r =>
        let tail := r.dropWhile isBreak
        if tail.isEmpty then .ok (emit group acc).reverse
        else .error (offset + 1 + (r.length - tail.length))
      | [] => .error offset
      | _ => .error (offset - 1)

/-- The octets of a padded text, or the offset of its first fault. -/
def decode (b : Bytes) : Except Nat Bytes := decodeOnto true 0 [] [] b

/-- The octets of a text without padding, or the offset of its first fault. -/
def decodeRaw (b : Bytes) : Except Nat Bytes := decodeOnto false 0 [] [] b

end Idl.Base64
