import Idl.Numeric.Notation
import Idl.Text.Quote

/-!
# Types and constants

A type is one of the built-in types or a message of the same schema. Types are numbered; numbers
without a meaning yet are kept apart, so that whatever cannot handle them has to say so.

A constant has a kind and a payload of that kind. Whole numbers below 2^63 that come from a source
are all of one kind, so that equal numbers are equal constants.

* §1 types, §2 constants in a schema.
-/

namespace Idl

/-! ## §1 Types -/

/-- The built-in types. -/
inductive Scalar where
  | bool
  | int8
  | int16
  | int32
  | int64
  | uint8
  | uint16
  | uint32
  | uint64
  | float32
  | float64
  | string
  | bytes
deriving DecidableEq, Repr

namespace Scalar

/-- All built-in types, in the order of their numbers, which start at one. -/
def all : List Scalar :=
  [.bool, .int8, .int16, .int32, .int64, .uint8, .uint16, .uint32, .uint64, .float32, .float64,
   .string, .bytes]

/-- The name of a type. -/
def name : Scalar → Bytes
  | .bool => "bool"
  | .int8 => "int8"
  | .int16 => "int16"
  | .int32 => "int32"
  | .int64 => "int64"
  | .uint8 => "uint8"
  | .uint16 => "uint16"
  | .uint32 => "uint32"
  | .uint64 => "uint64"
  | .float32 => "float32"
  | .float64 => "float64"
  | .string => "string"
  | .bytes => "bytes"

/-- The number of a type. -/
def number (s : Scalar) : Nat := all.idxOf s + 1

/-- The type with a name. The names `float` and `double` are second names. -/
def ofName? (name : Bytes) : Option Scalar :=
  if name == "float" then some .float32
  else if name == "double" then some .float64
  else all.find? (·.name == name)

/-- The types of fixed size: all but strings and octet strings. -/
def isFixedSize : Scalar → Bool
  | .string | .bytes => false
  | _ => true

/-- The integer types. -/
def isInteger : Scalar → Bool
  | .int8 | .int16 | .int32 | .int64 | .uint8 | .uint16 | .uint32 | .uint64 => true
  | _ => false

end Scalar

/-- A type. -/
inductive Ty where
  | scalar (s : Scalar)
  | message (name : Bytes)
  /-- A number that has not been given to a type. -/
  | unassigned (number : UInt8)
deriving DecidableEq, Repr

namespace Ty

/-- The number of messages. -/
def messageNumber : Nat := 14

/-- The type with a number; the number of messages gives a message without a name. -/
def ofNumber (n : Nat) : Ty :=
  if n == messageNumber then .message []
  else if n == 0 then .unassigned 0
  else match Scalar.all[n - 1]? with
    | some s => .scalar s
    | none => .unassigned n.toUInt8

/-- The number of a type. -/
def number : Ty → Nat
  | .scalar s => s.number
  | .message _ => messageNumber
  | .unassigned n => n.toNat

/-- The name of the kind of a type: messages are all of one kind. -/
def kindName : Ty → Bytes
  | .scalar s => s.name
  | .message _ => "message"
  | .unassigned n => "Kind(" ++ Bytes.ofNat n.toNat ++ ")"

/-- The name of a type; a message has its own. -/
def name : Ty → Bytes
  | .message name => name
  | t => t.kindName

/-- The built-in type, if it is one. -/
def scalar? : Ty → Option Scalar
  | .scalar s => some s
  | _ => none

/-- Whether a type is a message. -/
def isMessage : Ty → Bool
  | .message _ => true
  | _ => false

/-- The name of a type that may be missing. -/
def nameOrVoid (t : Option Ty) : Bytes := (t.map name).getD "void"

end Ty

/-! ## §2 Constants in a schema -/

/-- A constant. -/
inductive Value where
  | int (n : Int)
  | uint (n : Nat)
  | float (x : Binary64)
  | bool (b : Bool)
  | text (s : Bytes)
  /-- The name of a constant that is defined elsewhere. -/
  | ident (name : Bytes)
  /-- A kind number that has not been given a meaning. -/
  | unassigned (kind : UInt8)
deriving DecidableEq, Repr

namespace Value

/-- The constant of a natural number: of the signed kind if it fits there. -/
def ofNat (n : Nat) : Value := if n < 2 ^ 63 then .int n else .uint n

/-- The constant of an integer. -/
def ofInt : Int → Value
  | .ofNat n => ofNat n
  | n => .int n

/-- The constant of a kind number with an empty payload. -/
def ofKind (n : Nat) : Value :=
  match n with
  | 1 => .int 0
  | 2 => .uint 0
  | 3 => .float ⟨0⟩
  | 4 => .bool false
  | 5 => .text []
  | 6 => .ident []
  | _ => .unassigned n.toUInt8

/-- The name of the kind. -/
def kindName : Value → Bytes
  | .int _ => "int"
  | .uint _ => "uint"
  | .float _ => "float"
  | .bool _ => "bool"
  | .text _ => "string"
  | .ident _ => "ident"
  | .unassigned n => "ValueKind(" ++ Bytes.ofNat n.toNat ++ ")"

/-- The words for the truth values. -/
def boolName (b : Bool) : Bytes := if b then "true" else "false"

/-- The payload as text, without quotes. -/
def payload : Value → Bytes
  | .int n => Bytes.ofInt n
  | .uint n => Bytes.ofNat n
  | .float x => x.render
  | .bool b => boolName b
  | .text s => s
  | .ident name => name
  | .unassigned _ => []

/-- The constant as it is written in a source. -/
def render : Value → Bytes
  | .text s => quote s
  | .unassigned _ => "<invalid>"
  | v => v.payload

/-- The constant as a natural number, if it is one. -/
def toNat? : Value → Option Nat
  | .int (.ofNat n) => some n
  | .uint n => some n
  | _ => none

/-- Equality of constants: of one kind and with equal payloads, numbers compared as numbers. -/
def same : Value → Value → Bool
  | .float x, .float y => x.same y
  | v, w => v == w

end Value

end Idl
