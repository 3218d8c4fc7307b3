import Idl.Json
import Idl.Numeric.Notation
import Idl.Text.Base64

/-!
# Reading records from JSON

A shape says what a JSON value has to look like. A value is first checked against its shape, in the
order of the text; then repeated members are settled, so that each member occurs once; then the
parts are read off.

* §1 names of members, §2 shapes and faults,
* §3 repeated members: a later text writes over an earlier one, list by list and member by member,
* §4 reading parts off.
-/

namespace Idl.Json

/-! ## §1 Names -/

/-- The form of a character that its other forms are compared by. Two letters outside ASCII are
forms of ASCII letters. -/
def foldChar (c : Char) : Char :=
  if c.toNat == 0x17F then 's'
  else if c.toNat == 0x212A then 'k'
  else if 'A' ≤ c && c ≤ 'Z' then Char.ofNat (c.toNat + 0x20)
  else c

/-- The form of a member's name that decides which field it means: capital letters count as small
ones. -/
def foldName (name : Bytes) : Bytes := Utf8.ofChars ((Utf8.chars name).map foldChar)

/-! ## §2 Shapes -/

/-- What a value has to look like. A null is allowed everywhere. -/
inductive Shape where
  | text
  | bool
  /-- A whole number from `lo` up to, but not including, `hi`. -/
  | whole (lo hi : Int)
  /-- A number that a floating-point format holds. -/
  | real (f : FloatFormat)
  /-- Octets in base64, or as a list of numbers. -/
  | octets
  | list (item : Shape)
  /-- An object whose members may have any names, which count as they are written. -/
  | mapping (item : Shape)
  /-- An object; other members are refused if `strict` holds and ignored otherwise. -/
  | record (strict : Bool) (fields : List (Bytes × Shape))

/-- What is wrong with a value. -/
inductive Fault where
  | mismatch
  | unknownMember (name : Bytes)
deriving DecidableEq, Repr

/-- The number that a numeral without fraction and exponent denotes. -/
def wholeNumber? (numeral : Bytes) : Option Int :=
  match numeral with
  | 0x2D :: r => if r.all Bytes.isDigit then some (-(Bytes.toNat 10 r : Int)) else none
  | r => if r.all Bytes.isDigit then some (Bytes.toNat 10 r) else none

/-- The bits of the number nearest to a numeral, unless it is too large for the format. -/
def realBits? (f : FloatFormat) (numeral : Bytes) : Option Nat := do
  let n ← Numeral.ofBytes? numeral
  let bits := n.toBits f
  if bits % 2 ^ (f.fracBits + f.expBits) < f.infinity then some bits else none

mutual

/-- The first thing that is wrong with a value, in the order of the text. -/
def fault? (shape : Shape) : Json → Option Fault
  | .null => none
  | .bool _ => match shape with
    | .bool => none
    | _ => some .mismatch
  | .num t => match shape with
    | .whole lo hi => match wholeNumber? t with
      -- a minus sign is refused where negative numbers are, even in front of a zero
      | some n => if lo ≤ n && n < hi && (lo < 0 || t.head? != some 0x2D) then none
        else some .mismatch
      | none => some .mismatch
    | .real f => if (realBits? f t).isSome then none else some .mismatch
    | _ => some .mismatch
  | .str s => match shape with
    | .text => none
    | .octets => if (Base64.decode s).isOk then none else some .mismatch
    | _ => some .mismatch
  | .arr items => match shape with
    | .list item => itemsFault? item items
    | .octets => itemsFault? (.whole 0 256) items
    | _ => some .mismatch
  | .obj members => match shape with
    | .record strict fields => membersFault? strict fields members
    | .mapping item => valuesFault? item members
    | _ => some .mismatch

/-- The first thing that is wrong with the items of a list. -/
def itemsFault? (item : Shape) : List Json → Option Fault
  | [] => none
  | v :: r => match fault? item v with
    | some f => some f
    | none => itemsFault? item r

/-- The first thing that is wrong with the values of a mapping. -/
def valuesFault? (item : Shape) : List (Bytes × Json) → Option Fault
  | [] => none
  | (_, v) :: r => match fault? item v with
    | some f => some f
    | none => valuesFault? item r

/-- The first thing that is wrong with the members of an object. -/
def membersFault? (strict : Bool) (fields : List (Bytes × Shape)) :
    List (Bytes × Json) → Option Fault
  | [] => none
  | (k, v) :: r =>
    let here := match fields.find? (·.1 == foldName k) with
      | some (_, shape) => fault? shape v
      | none => if strict then some (.unknownMember k) else none
    match here with
    | some f => some f
    | none => membersFault? strict fields r

end

/-! ## §3 Repeated members -/

/-- A place that has been written to: a plain value, a list with the items that a shorter list has
left behind it, or an object. -/
inductive Slot where
  | plain (v : Json)
  | list (items left : List Slot)
  | object (members : List (Bytes × Slot))

namespace Slot

/-- A place that has not been written to. -/
def fresh : Slot := .plain .null

mutual

/-- What is in a place in the end. -/
def toJson : Slot → Json
  | .plain v => v
  | .list items _ => .arr (toItems items)
  | .object members => .obj (toMembers members)

/-- What is in the places of a list. -/
def toItems : List Slot → List Json
  | [] => []
  | s :: r => toJson s :: toItems r

/-- What is in the places of an object. -/
def toMembers : List (Bytes × Slot) → List (Bytes × Json)
  | [] => []
  | (k, s) :: r => (k, toJson s) :: toMembers r

end

/-- The places of a list, those left behind included. -/
def items : Slot → List Slot
  | .list l left => l ++ left
  | _ => []

/-- The places of an object. -/
def members : Slot → List (Bytes × Slot)
  | .object m => m
  | _ => []

/-- Replaces the place under a name, or adds one at the end. -/
def set (name : Bytes) (s : Slot) : List (Bytes × Slot) → List (Bytes × Slot)
  | [] => [(name, s)]
  | (k, old) :: r => if k == name then (k, s) :: r else (k, old) :: set name s r

/-- Writing a null keeps a text, a number or a truth value, and removes a list or an object. -/
def erase : Slot → Slot
  | .plain v => .plain v
  | _ => fresh

/-- The shape of the items of a list. -/
def itemShape : Shape → Shape
  | .list item => item
  | .mapping item => item
  | _ => .text

/-- The name that a member has in a place, and its shape. -/
def field (shape : Shape) (key : Bytes) : Bytes × Shape :=
  match shape with
  | .mapping item => (key, item)
  | .record _ fields =>
    let name := foldName key
    (name, (fields.lookup name).getD .text)
  | _ => (foldName key, .text)

/-- Whether a repeated member starts anew: so it does in a mapping. -/
def startsAnew : Shape → Bool
  | .mapping _ => true
  | _ => false

mutual

/-- Writes a value to a place of a shape. -/
def write (shape : Shape) (s : Slot) : Json → Slot
  | .null => s.erase
  | .arr l =>
    .list (writeItems (itemShape shape) s.items l) (if l.isEmpty then [] else s.items.drop l.length)
  | .obj m => .object (writeMembers shape s.members m)
  | v => .plain v

/-- Writes items over the places of a list. -/
def writeItems (item : Shape) : List Slot → List Json → List Slot
  | _, [] => []
  | [], v :: r => write item fresh v :: writeItems item [] r
  | s :: old, v :: r => write item s v :: writeItems item old r

/-- Writes members over the places of an object. -/
def writeMembers (shape : Shape) (old : List (Bytes × Slot)) :
    List (Bytes × Json) → List (Bytes × Slot)
  | [] => old
  | (k, v) :: r =>
    let (name, inner) := field shape k
    let place := if startsAnew shape then fresh
      else ((old.find? (·.1 == name)).map (·.2)).getD fresh
    writeMembers shape (set name (write inner place v) old) r

end

end Slot

/-- The value with every member once, under the name it is compared by. -/
def settle (shape : Shape) (v : Json) : Json := (Slot.fresh.write shape v).toJson

/-- Checks a value against a shape and settles its members. -/
def conform (shape : Shape) (v : Json) : Except Fault Json :=
  match fault? shape v with
  | some f => .error f
  | none => .ok (settle shape v)

/-! ## §4 Parts of a settled value -/

/-- The member of a name; a null where there is none. -/
def get (v : Json) (name : Bytes) : Json :=
  match v with
  | .obj members => ((members.find? (·.1 == name)).map (·.2)).getD .null
  | _ => .null

/-- The text of a string; empty for anything else. -/
def asText : Json → Bytes
  | .str s => s
  | _ => []

/-- The truth value; false for anything else. -/
def asBool : Json → Bool
  | .bool b => b
  | _ => false

/-- The whole number; zero for anything else. -/
def asInt : Json → Int
  | .num t => (wholeNumber? t).getD 0
  | _ => 0

/-- The bits of the number in a format; zero for anything else. -/
def asReal (f : FloatFormat) : Json → Nat
  | .num t => (realBits? f t).getD 0
  | _ => 0

/-- The whole number that is not negative; zero for anything else. -/
def asNat (v : Json) : Nat := v.asInt.toNat

/-- The items of a list; none for anything else. -/
def asList : Json → List Json
  | .arr items => items
  | _ => []

/-- The members of an object, with their names; none for anything else. -/
def asMembers : Json → List (Bytes × Json)
  | .obj members => members
  | _ => []

/-- The octets, if there are any. -/
def asOctets? : Json → Option Bytes
  | .str s => (Base64.decode s).toOption
  | .arr items => some (items.map fun v => v.asNat.toUInt8)
  | _ => none

/-- The value, unless it is a null. -/
def asOption : Json → Option Json
  | .null => none
  | v => some v

end Idl.Json
