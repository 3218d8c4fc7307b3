import Idl.Numeric.Notation

/-!
# TOML

Configuration files and manifests are TOML: tables of named values. This module has the values, what
can be looked up in them, and how single values are written.

* §1 values, §2 tables that grow, §3 looking up, §4 writing.
-/

namespace Idl

/-! ## §1 Values -/

/-- How a table has come about, which decides how it may still grow. -/
inductive TableKind where
  /-- On the way to a table that has a heading. -/
  | implied
  | headed
  /-- On the way to a dotted key. -/
  | dotted
  /-- Between braces. -/
  | inline
deriving DecidableEq, Repr

/-- A value. -/
inductive Toml where
  | str (s : Bytes)
  | int (n : Int)
  | float (x : Binary64)
  | bool (b : Bool)
  /-- A date or a time, as it is written. -/
  | moment (t : Bytes)
  | arr (items : List Toml)
  | table (kind : TableKind) (members : List (Bytes × Toml))
  /-- Tables that share a heading. -/
  | tables (l : List (List (Bytes × Toml)))
deriving Repr

namespace Toml

/-- The members of a table in the order in which they were added. -/
abbrev Members := List (Bytes × Toml)

/-! ## §2 Tables that grow -/

/-- Puts another value under a name that is there. -/
def replace (k : Bytes) (v : Toml) (m : Members) : Members :=
  m.map fun e => if e.1 == k then (k, v) else e

/-- Sets a dotted key. A key is set once, and only tables can be passed on the way. -/
def assign (v : Toml) : List Bytes → Members → Option Members
  | [], _ => none
  | [k], m => if (m.lookup k).isSome then none else some (m ++ [(k, v)])
  | k :: rest, m =>
    match m.lookup k with
    | none => do return m ++ [(k, .table .dotted (← assign v rest []))]
    | some (.table .dotted inner) => do
      return replace k (.table .dotted (← assign v rest inner)) m
    | some (.table .implied inner) => do
      return replace k (.table .implied (← assign v rest inner)) m
    | some _ => none

/-- Applies a change to the last item of a list. -/
def changeLast (f : Members → Option Members) : List Members → Option (List Members)
  | [] => none
  | [m] => do return [← f m]
  | m :: rest => do return m :: (← changeLast f rest)

/-- Opens the table of a heading, or one more table of a heading that can be repeated. -/
def openTable (repeated : Bool) : List Bytes → Members → Option Members
  | [], _ => none
  | [k], m =>
    match repeated, m.lookup k with
    | false, none => some (m ++ [(k, .table .headed [])])
    | false, some (.table .implied inner) => some (replace k (.table .headed inner) m)
    | true, none => some (m ++ [(k, .tables [[]])])
    | true, some (.tables l) => some (replace k (.tables (l ++ [[]])) m)
    | _, _ => none
  | k :: rest, m =>
    match m.lookup k with
    | none => do return m ++ [(k, .table .implied (← openTable repeated rest []))]
    | some (.table .inline _) => none
    | some (.table kind inner) => do
      return replace k (.table kind (← openTable repeated rest inner)) m
    | some (.tables l) => do
      return replace k (.tables (← changeLast (openTable repeated rest) l)) m
    | some _ => none

/-- Changes the table that a heading has opened. -/
def change (f : Members → Option Members) : List Bytes → Members → Option Members
  | [], m => f m
  | k :: rest, m =>
    match m.lookup k with
    | some (.table kind inner) => do return replace k (.table kind (← change f rest inner)) m
    | some (.tables l) => do return replace k (.tables (← changeLast (change f rest) l)) m
    | _ => none

/-! ## §3 Looking up -/

/-- A text, if the value is one. -/
def asText? : Toml → Option Bytes
  | .str s => some s
  | _ => none

/-- A list of texts, if the value is one. -/
def asTexts? : Toml → Option (List Bytes)
  | .arr l => l.mapM asText?
  | _ => none

/-! ## §4 Writing -/

/-- How an octet is written between double quotes. -/
def writeOctet (c : UInt8) : Bytes :=
  if c == 0x22 then "\\\""
  else if c == 0x5C then "\\\\"
  else if c == 0x08 then "\\b"
  else if c == 0x09 then "\\t"
  else if c == 0x0A then "\\n"
  else if c == 0x0C then "\\f"
  else if c == 0x0D then "\\r"
  else if c < 0x20 || c == 0x7F then "\\u" ++ Bytes.hexDigits 4 c.toNat
  else [c]

/-- A text between double quotes. -/
def writeText (s : Bytes) : Bytes := 0x22 :: (s.flatMap writeOctet ++ [0x22])

/-- A list of texts. -/
def writeTexts (l : List Bytes) : Bytes := "[" ++ Bytes.join ", " (l.map writeText) ++ "]"

/-- Whether an octet can stand in a key without quotes. -/
def isBareKeyOctet (c : UInt8) : Bool := Bytes.isWord c || c == 0x2D

/-- A key, in quotes only if it needs them. -/
def writeKey (k : Bytes) : Bytes :=
  if !k.isEmpty && k.all isBareKeyOctet then k else writeText k

end Toml

end Idl
