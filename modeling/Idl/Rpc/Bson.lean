import Idl.Numeric.Notation

/-!
# Values in calls and as BSON

The values that parameters and results have, and their types. A record has its members in the order
of its fields.

A document is its length, its elements and a final zero. An element is a tag for the kind of its
value, a name that ends in a zero, and the value. Reading is lenient between the kinds of numbers
and strict about lengths.

* §1 values and their types, §2 writing, §3 elements, §4 documents,
* §5 numbers of any kind, §6 values by type.
-/

namespace Idl.Rpc

/-! ## §1 Values and their types -/

/-- The type of a parameter or a result. -/
inductive ValueType where
  | bool
  /-- Whole numbers of so many octets; with a sign if `signed` holds. -/
  | int (signed : Bool) (octets : Nat)
  | float32
  | float64
  | text
  | octets
  /-- Fields by name. An optional one is left out where it has no value. -/
  | record (fields : List (Bytes × Bool × ValueType))

namespace ValueType

/-- The least number of a type of whole numbers. -/
def least (signed : Bool) (octets : Nat) : Int :=
  if signed then -(2 ^ (8 * octets - 1) : Nat) else 0

/-- The number after the largest of a type of whole numbers. -/
def bound (signed : Bool) (octets : Nat) : Int :=
  ((2 ^ (if signed then 8 * octets - 1 else 8 * octets) : Nat) : Int)

/-- Whether a number is of a type of whole numbers. -/
def contains (signed : Bool) (octets : Nat) (n : Int) : Bool :=
  least signed octets ≤ n && n < bound signed octets

end ValueType

/-- A value. A float is given by its bits, and octets may be missing, which is not the same as
empty. -/
inductive Value where
  | bool (b : Bool)
  | int (n : Int)
  | float (f : FloatFormat) (bits : Nat)
  | text (t : Bytes)
  | octets (b : Option Bytes)
  | record (members : List (Option Value))
deriving Inhabited

namespace Value

mutual

/-- The value of a type that stands where nothing is given. -/
def zero : ValueType → Value
  | .bool => .bool false
  | .int _ _ => .int 0
  | .float32 => .float .single 0
  | .float64 => .float .double 0
  | .text => .text []
  | .octets => .octets none
  | .record fields => .record (zeros fields)

/-- The members of a record where nothing is given. -/
def zeros : List (Bytes × Bool × ValueType) → List (Option Value)
  | [] => []
  | (_, optional, t) :: r =>
    (if optional && !isOctets t then none else some (zero t)) :: zeros r

/-- Octets have a missing value of their own. -/
def isOctets : ValueType → Bool
  | .octets => true
  | _ => false

end

/-- Whether an optional member is left out: it is missing, or it is octets and has none. -/
def isAbsent : Option Value → Bool
  | none => true
  | some (.octets b) => (b.getD []).isEmpty
  | _ => false

/-- The bits of a NaN in another format, with its sign and the upper part of its fraction. -/
def convertNaN (source target : FloatFormat) (bits : Nat) : Nat :=
  let negative := bits / 2 ^ (source.fracBits + source.expBits) % 2 == 1
  let half := 2 ^ (target.fracBits - 1)
  let frac := bits % 2 ^ source.fracBits * 2 ^ target.fracBits / 2 ^ source.fracBits % half
  target.withSign negative (target.infinity + half + frac)

/-- The bits in a wider or narrower format, rounded to the nearest number. -/
def convertFloat (source target : FloatFormat) (bits : Nat) : Nat :=
  match source.classify bits with
  | .nan => convertNaN source target bits
  | .infinite negative => target.withSign negative target.infinity
  | .finite negative m q _ =>
    let magnitude := if m == 0 then 0 else target.ofRatio (m * 2 ^ q.toNat) (2 ^ (-q).toNat)
    target.withSign negative magnitude

end Value

end Idl.Rpc

namespace Idl.Rpc.Bson

/-! ## §2 Writing -/

/-- The tags of the kinds of values that are written. -/
inductive Kind where
  | double
  | text
  | document
  | binary
  | bool
  | null
  | int32
  | int64
deriving DecidableEq, Repr

/-- The octet of a tag. -/
def Kind.tag : Kind → UInt8
  | .double => 0x01
  | .text => 0x02
  | .document => 0x03
  | .binary => 0x05
  | .bool => 0x08
  | .null => 0x0A
  | .int32 => 0x10
  | .int64 => 0x12

/-- An element. -/
def writeElement (k : Kind) (name data : Bytes) : Bytes := [k.tag] ++ name ++ [0x00] ++ data

/-- A document with the given elements. -/
def writeDocument (elements : Bytes) : Bytes :=
  leOctets 4 (elements.length + 5) ++ elements ++ [0x00]

/-- Whether numbers of a type are written in four octets. -/
def isShort (signed : Bool) (octets : Nat) : Bool := octets < 4 || (signed && octets == 4)

mutual

/-- The element for a value of a type. Numbers of 64 bits without a sign have to fit those with
one. -/
def encode? (name : Bytes) : ValueType → Value → Option Bytes
  | .int signed octets, .int n =>
    if isShort signed octets then some (writeElement .int32 name (leOctetsInt 4 n))
    else if n < 2 ^ 63 then some (writeElement .int64 name (leOctetsInt 8 n))
    else none
  | .record fields, .record members => do
    let body ← encodeMembers? fields members
    return writeElement .document name (writeDocument body)
  | _, .bool b => some (writeElement .bool name [if b then 1 else 0])
  | _, .float f bits =>
    some (writeElement .double name (leOctets 8 (Value.convertFloat f .double bits)))
  | _, .text t => some (writeElement .text name (leOctets 4 (t.length + 1) ++ t ++ [0x00]))
  | _, .octets none => some (writeElement .null name [])
  | _, .octets (some b) =>
    some (writeElement .binary name (leOctets 4 b.length ++ [0x00] ++ b))
  | _, _ => none

/-- The elements for the members of a record; an optional one without a value has none. -/
def encodeMembers? : List (Bytes × Bool × ValueType) → List (Option Value) → Option Bytes
  | (name, optional, t) :: fields, m :: members => do
    let rest ← encodeMembers? fields members
    if optional && Value.isAbsent m then return rest
    match m with
    | some v => return (← encode? name t v) ++ rest
    | none => return writeElement .null name [] ++ rest
  | _, _ => some []

end

/-! ## §3 Elements -/

/-- An element as it is read: its tag, its name and the octets of its value. -/
structure Element where
  tag : UInt8
  name : Bytes
  data : Bytes
deriving DecidableEq, Repr

/-- A length at the front, which is not negative. -/
def length? (b : Bytes) : Option Nat :=
  let n := leNat (b.take 4)
  if b.length < 4 || n ≥ 2 ^ 31 then none else some n

/-- The length of a text that ends in a zero, the zero included. -/
def zeroTerminated? (b : Bytes) : Option Nat :=
  let n := (b.takeWhile (· != 0)).length
  if n < b.length then some (n + 1) else none

/-- The number of octets of a value at the front. -/
def valueLength? (tag : UInt8) (b : Bytes) : Option Nat :=
  match tag with
  | 0x01 | 0x09 | 0x11 | 0x12 => some 8
  | 0x02 | 0x0D | 0x0E => (length? b).map (· + 4)
  | 0x03 | 0x04 | 0x0F => length? b
  | 0x05 => (length? b).map (· + 5)
  | 0x06 | 0x0A | 0x7F | 0xFF => some 0
  | 0x07 => some 12
  | 0x08 => some 1
  | 0x0B => do
    let pattern ← zeroTerminated? b
    let options ← zeroTerminated? (b.drop pattern)
    return pattern + options
  | 0x0C => (length? b).map (· + 16)
  | 0x10 => some 4
  | 0x13 => some 16
  | _ => none

/-- The element at the front, and what follows it. -/
def element? (b : Bytes) : Option (Element × Bytes) := do
  match b with
  | [] => none
  | tag :: r =>
    let n ← zeroTerminated? r
    let rest := r.drop n
    let size ← valueLength? tag rest
    if size > rest.length then none
    return (⟨tag, r.take (n - 1), rest.take size⟩, rest.drop size)

/-! ## §4 Documents -/

/-- The elements of the outermost document, while there is more than its final zero left of its
length. What follows the document is ignored. -/
def elementsWithin? : (fuel : Nat) → (left : Int) → Bytes → Option (List Element)
  | 0, _, _ => none
  | n + 1, left, b =>
    if left ≤ 1 then (if b.head? == some 0 then some [] else none)
    else do
      let (e, rest) ← element? b
      return e :: (← elementsWithin? n (left - (b.length - rest.length : Nat)) rest)

/-- The elements of the outermost document. -/
def document? (b : Bytes) : Option (List Element) := do
  let n ← length? b
  if n == 0 || n > b.length || b[n - 1]? != some 0 then none
  elementsWithin? (b.length + 1) (n - 4) (b.drop 4)

/-- The elements up to a zero, which has to be the last octet. -/
def elementsToEnd? : (fuel : Nat) → Bytes → Option (List Element)
  | 0, _ => none
  | n + 1, b =>
    match b with
    | [0] => some []
    | 0 :: _ => none
    | _ => do
      let (e, rest) ← element? b
      return e :: (← elementsToEnd? n rest)

/-- The elements of a document inside another, given by its octets. -/
def embedded? (data : Bytes) : Option (List Element) := elementsToEnd? data.length (data.drop 4)

/-! ## §5 Numbers of any kind -/

/-- Nulls and the undefined stand for a missing value. -/
def isMissing (e : Element) : Bool := e.tag == 0x0A || e.tag == 0x06

/-- The truth value of an element of that kind. -/
def flag? (e : Element) : Option Bool :=
  match e.data with
  | [0] => some false
  | [1] => some true
  | _ => none

/-- The whole number that a double is, if it is one. Numbers below the range, and the one just above
it, count as the least number. -/
def wholeDouble? (bits : Nat) : Option Int :=
  let least : Int := -(2 ^ 63)
  match FloatFormat.double.classify bits with
  | .nan => none
  | .infinite negative => if negative then some least else none
  | .finite negative m q _ =>
    let unit := 2 ^ (-q).toNat
    if m % unit != 0 then none
    else
      let n : Int := (m * 2 ^ q.toNat / unit : Nat)
      let v := if negative then -n else n
      if v > 2 ^ 63 then none else if v == 2 ^ 63 || v < least then some least else some v

/-- The whole number that an element is read as. -/
def whole? (e : Element) : Option Int :=
  match e.tag with
  | 0x10 | 0x12 => some (leInt e.data)
  | 0x01 => wholeDouble? (leNat e.data)
  | 0x08 => (flag? e).map fun b => if b then 1 else 0
  | _ => none

/-- The bits of the double that an element is read as. -/
def double? (e : Element) : Option Nat :=
  match e.tag with
  | 0x10 | 0x12 => some (FloatFormat.double.ofInt (leInt e.data))
  | 0x01 => some (leNat e.data)
  | 0x08 => (flag? e).map fun b => FloatFormat.double.ofInt (if b then 1 else 0)
  | _ => none

/-- The truth value that an element is read as: numbers are true unless they are zero. -/
def truth? (e : Element) : Option Bool :=
  match e.tag with
  | 0x08 => flag? e
  | 0x10 | 0x12 => some (leInt e.data != 0)
  | 0x01 => some <| match FloatFormat.double.classify (leNat e.data) with
    | .finite _ 0 _ _ => false
    | _ => true
  | _ => none

/-- A double as a single, if that loses nothing. -/
def single? (bits : Nat) : Option Nat :=
  let s := Value.convertFloat .double .single bits
  match FloatFormat.double.classify bits with
  | .nan => none
  | _ => if Value.convertFloat .single .double s == bits then some s else none

/-! ## §6 Values by type -/

/-- The text of an element with a length and a final zero. -/
def string? (data : Bytes) : Option Bytes := do
  let n ← length? data
  if n == 0 || data.getLast? != some 0 then none else some ((data.drop 4).take (n - 1))

/-- The octets of a binary element of the usual kinds. The older one repeats the length. -/
def binary? (data : Bytes) : Option Bytes := do
  let n ← length? data
  let kind ← data[4]?
  let body := data.drop 5
  if kind == 0 then some body
  else if kind == 2 then
    if n > 4 then do
      let m ← length? body
      if m > n - 4 then none else some ((body.drop 4).take m)
    else some body
  else none

/-- The text that an element is read as. -/
def text? (e : Element) : Option Bytes :=
  match e.tag with
  | 0x02 | 0x0E => string? e.data
  | 0x05 => binary? e.data
  | 0x07 => some (Bytes.toHex e.data)
  | _ => none

/-- The octets that an element is read as. -/
def octets? (e : Element) : Option Bytes :=
  match e.tag with
  | 0x02 | 0x0E => string? e.data
  | 0x05 => binary? e.data
  | _ => none

mutual

/-- The value of a type that an element is read as. -/
def decode? (t : ValueType) (e : Element) : Option Value :=
  if isMissing e then some (Value.zero t)
  else match t with
    | .bool => (truth? e).map .bool
    | .int signed octets => do
      let n ← whole? e
      if ValueType.contains signed octets n then some (.int n) else none
    | .float64 => (double? e).map (.float .double)
    | .float32 => (double? e).bind single? |>.map (.float .single)
    | .text => (text? e).map .text
    | .octets => (octets? e).map fun b => .octets (some b)
    | .record fields => do
      if e.tag != Kind.document.tag then none
      let elements ← embedded? e.data
      return .record (← decodeFields? fields elements)

/-- The members of a record. Of elements with one name the last counts, but all have to be of the
field's type; other elements are ignored. -/
def decodeFields? (fields : List (Bytes × Bool × ValueType)) (elements : List Element) :
    Option (List (Option Value)) :=
  match fields with
  | [] => some []
  | (name, optional, t) :: r => do
    let read ← decodeAll? t (elements.filter (·.name == name))
    let isNull := (elements.reverse.find? (·.name == name)).all isMissing
    let v := read.getLast?.getD (Value.zero t)
    let missing := optional && isNull && !Value.isOctets t
    return (if missing then none else some v) :: (← decodeFields? r elements)

/-- The values that elements are read as. -/
def decodeAll? (t : ValueType) : List Element → Option (List Value)
  | [] => some []
  | e :: r => do return (← decode? t e) :: (← decodeAll? t r)

end

/-- Why a value cannot be read. -/
inductive ReadError where
  | malformed
  | notFound
deriving DecidableEq, Repr

/-- The name of the one element that holds a value. -/
def valueName : Bytes := "v"

/-- A document with one value. -/
def write? (t : ValueType) (v : Value) : Option Bytes := (encode? valueName t v).map writeDocument

/-- The value in a document: the first element of its name. -/
def read (t : ValueType) (b : Bytes) : Except ReadError Value :=
  match document? b with
  | none => .error .malformed
  | some elements =>
    match elements.find? (·.name == valueName) with
    | none => .error .notFound
    | some e => match decode? t e with
      | some v => .ok v
      | none => .error .malformed

end Idl.Rpc.Bson
