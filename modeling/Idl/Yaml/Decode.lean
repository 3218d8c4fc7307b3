import Idl.Json.Shape
import Idl.Yaml.Node
import Idl.Yaml.Scalar

/-!
# Reading records from YAML

A document is read by the shape that its value has to have. The result is a settled JSON value, so
that both formats share what comes after. A value of the wrong kind does not stop the reading, since
a later part may still be malformed, which counts for more.

* §1 what a scalar means, §2 scalars by shape,
* §3 keys, §4 nodes by shape; a mapping may take over the entries of others.
-/

namespace Idl.Yaml

open Json (Shape)

/-! ## §1 What a scalar means -/

/-- The tag as it is usually written. -/
def Scalar.shortTag (s : Scalar) : Bytes :=
  let long : Bytes := "tag:yaml.org,2002:"
  if s.tag == "!" then []
  else if s.tag.startsWith long then "!!" ++ s.tag.drop long.length
  else s.tag

/-- A scalar that has been understood: what it stands for, and its text. -/
structure Meaning where
  kind : Resolved
  text : Bytes
deriving DecidableEq, Repr

/-- The number as a floating-point number. -/
def floatOfInt (n : Int) : Binary64 :=
  .ofBits (FloatFormat.double.withSign (n < 0) (FloatFormat.double.ofRatio n.natAbs 1))

/-- What a text stands for if its tag asks for the given kind; nothing if it is of another kind. -/
def resolveAs? (tag t : Bytes) : Option Resolved :=
  match resolve t with
  | .null => if tag == "!!null" then some .null else none
  | .bool b => if tag == "!!bool" then some (.bool b) else none
  | .timestamp => if tag == "!!timestamp" then some .timestamp else none
  | .float x => if tag == "!!float" then some (.float x) else none
  | .int n =>
    if tag == "!!int" then some (.int n)
    else if tag == "!!float" && n < 2 ^ 63 then some (.float (floatOfInt n))
    else none
  | .text => none

/-- What a scalar stands for. A tag of the format's own has to fit; any other makes it a text. -/
def Scalar.meaning? (s : Scalar) : Option Meaning :=
  let tag := s.shortTag
  let checked : List Bytes := ["!!null", "!!bool", "!!int", "!!float", "!!timestamp"]
  if tag.isEmpty then some ⟨if s.bare then resolve s.text else .text, s.text⟩
  else if tag == "!!binary" then
    match Base64.decode s.text with
    | .ok b => some ⟨.text, b⟩
    | .error _ => none
  else if checked.contains tag then (resolveAs? tag s.text).map fun r => ⟨r, s.text⟩
  else some ⟨.text, s.text⟩

/-! ## §2 Scalars by shape -/

/-- Why a text cannot be read. -/
inductive Refusal where
  | malformed
  | mismatch
deriving DecidableEq, Repr

/-- Reading: it stops at what is malformed, and notes whether a value was of the wrong kind. -/
abbrev Decode := StateT Bool Option

/-- Notes a value of the wrong kind, which leaves nothing. -/
def Decode.mismatch {α : Type} : Decode (Option α) := do
  set true
  return none

/-- The whole part of a number, if it is not negative. -/
def wholePart? (x : Binary64) : Option Nat :=
  match x.classify with
  | .finite negative m q _ =>
    let n := if q ≥ 0 then m * 2 ^ q.toNat else m / 2 ^ (-q).toNat
    if negative && n > 0 then none else some n
  | _ => none

/-- The value of a scalar in a place of the given shape. A null leaves a place for a single value
as it is. -/
def Meaning.decode (shape : Shape) (m : Meaning) : Decode (Option Json) :=
  let number (lo hi n : Int) : Decode (Option Json) :=
    if lo ≤ n && n < hi then pure (some (.num (Bytes.ofInt n))) else .mismatch
  match shape, m.kind with
  | .list _, .null => pure (some .null)
  | .record .., .null => pure (some .null)
  | _, .null => pure none
  | .text, _ => pure (some (.str m.text))
  | .bool, .bool b => pure (some (.bool b))
  | .bool, .text => match lenientBool? m.text with
    | some b => pure (some (.bool b))
    | none => .mismatch
  | .whole lo hi, .int n => number lo hi n
  | .whole lo hi, .float x => match wholePart? x with
    | some n => number lo hi n
    | none => .mismatch
  | _, _ => .mismatch

/-- The value of a scalar in a place of the given shape. -/
def Scalar.decode (shape : Shape) (s : Scalar) : Decode (Option Json) :=
  match s.meaning? with
  | some m => m.decode shape
  | none => failure

/-! ## §3 Keys -/

/-- Whether a key asks for the entries of another mapping. -/
def Node.isMerge : Node → Bool
  | .scalar s =>
    s.text == "<<" && ((s.bare && s.shortTag.isEmpty) || s.shortTag == "!!merge")
  | _ => false

/-- The form of a key that repeated keys are found by: its kind and its text. -/
def Node.keyForm : Node → Nat × Bytes
  | .scalar s => (0, s.text)
  | .list _ => (1, [])
  | .map _ => (2, [])
  | .alias name _ => (3, name)
  | .loop name => (3, name)

/-- Whether a key occurs twice. -/
def hasRepeatedKey (entries : List (Node × Node)) : Bool :=
  go (entries.map fun e => e.1.keyForm)
where
  /-- Whether an element occurs again behind itself. -/
  go : List (Nat × Bytes) → Bool
    | [] => false
    | k :: r => r.contains k || go r

/-- The name that a key gives; a null gives none. -/
def Node.keyName : Node → Decode (Option Bytes)
  | .scalar s | .alias _ (.scalar s) => do
    match ← s.decode .text with
    | some (.str t) => return some t
    | _ => return none
  | _ => .mismatch

/-! ## §4 Nodes by shape -/

/-- The members read so far, and the names that mappings taken over may no longer give. -/
structure Members where
  list : List (Bytes × Json) := []
  taken : List Bytes := []

mutual

/-- The value of a node in a place of the given shape; nothing if the place stays as it is. -/
def Node.decode (shape : Shape) : Node → Decode (Option Json)
  | .scalar s => s.decode shape
  | .alias _ n => n.decode shape
  | .loop _ => .mismatch
  | .list items =>
    match shape with
    | .list item => do return some (.arr (← decodeItems item items))
    | _ => .mismatch
  | .map entries =>
    if hasRepeatedKey entries then .mismatch
    else match shape with
      | .record _ fields => do
        let members ← decodeEntries fields false {} [] entries
        let taken ← entries.filterMapM fun (k, _) => k.keyName
        let members ← mergeEntries fields { members with taken := taken } entries
        return some (.obj members.list)
      | _ => .mismatch

/-- The items that leave something. -/
def decodeItems (item : Shape) : List Node → Decode (List Json)
  | [] => return []
  | n :: r => do
    let v ← n.decode item
    return v.toList ++ (← decodeItems item r)

/-- The entries of a mapping, those that it takes over aside. `own` holds the names it has given.
If it is itself taken over, the names that are taken do not count. -/
def decodeEntries (fields : List (Bytes × Shape)) (merged : Bool) (members : Members)
    (own : List Bytes) : List (Node × Node) → Decode Members
  | [] => return members
  | (k, v) :: r => do
    if k.isMerge then decodeEntries fields merged members own r
    else match ← k.keyName with
      | none => decodeEntries fields merged members own r
      | some name =>
        if merged && members.taken.contains name then
          decodeEntries fields merged members own r
        else
          let members := { members with taken := name :: members.taken }
          match fields.lookup name with
          | some shape =>
            if own.contains name then
              set true
              decodeEntries fields merged members own r
            else
              let value ← v.decode shape
              let given := value.toList.map fun v => (name, v)
              decodeEntries fields merged { members with list := members.list ++ given }
                (name :: own) r
          | none =>
            set true
            decodeEntries fields merged members own r

/-- Takes over the entries of the mappings that a mapping asks for: one, or a list of them. -/
def mergeEntries (fields : List (Bytes × Shape)) (members : Members) :
    List (Node × Node) → Decode Members
  | [] => return members
  | (k, v) :: r => do
    let members ←
      if k.isMerge then
        match v with
        | .list items => mergeItems fields members items
        | v => v.merge fields members
      else pure members
    mergeEntries fields members r

/-- Takes over the entries of each mapping of a list; those of an earlier one count. -/
def mergeItems (fields : List (Bytes × Shape)) (members : Members) : List Node → Decode Members
  | [] => return members
  | n :: r => do mergeItems fields (← n.merge fields members) r

/-- Takes over the entries of a mapping; anything else is malformed. -/
def Node.merge (fields : List (Bytes × Shape)) (members : Members) : Node → Decode Members
  | .map entries =>
    if hasRepeatedKey entries then do
      set true
      return members
    else do
      mergeEntries fields (← decodeEntries fields true members [] entries) entries
  | .alias _ n => n.merge fields members
  | _ => failure

end

/-- The settled value of a text in the given shape. -/
def readAs (shape : Shape) (b : Bytes) : Except Refusal Json :=
  match Node.ofText? b with
  | none => .error .malformed
  | some n =>
    match (n.decode shape).run false with
    | none => .error .malformed
    | some (_, true) => .error .mismatch
    | some (v, false) => .ok (v.getD .null)

end Idl.Yaml
