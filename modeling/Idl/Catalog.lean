import Idl.Json.Read
import Idl.Json.Shape
import Idl.Text.Quote

/-!
# Catalogs of diagnostics

A catalog gives each diagnostic a stable name, so that nobody has to refer to it by number. It is an
object by name; names that start with an underscore reserve a number, or head a section if they have
none.

* §1 catalogs, §2 patterns, §3 reading.
-/

namespace Idl.Catalog

/-! ## §1 Catalogs -/

/-- The catalogs there are. -/
inductive Kind where
  | syntaxErrors
  | schemaErrors
  | schemaWarnings
  | bindingErrors
deriving DecidableEq, Repr

namespace Kind

/-- The path of the file that holds a catalog. -/
def path : Kind → Bytes
  | .syntaxErrors => "diagnostics/syntax_errors.json"
  | .schemaErrors => "diagnostics/schema_errors.json"
  | .schemaWarnings => "diagnostics/schema_warnings.json"
  | .bindingErrors => "diagnostics/codegen_errors.json"

/-- What the entries of a catalog are called. -/
def what : Kind → Bytes
  | .syntaxErrors => "syntax error"
  | .schemaErrors => "schema error"
  | .schemaWarnings => "schema warning"
  | .bindingErrors => "codegen error"

end Kind

/-- An entry: the number of a diagnostic, and its message or a pattern for it. -/
structure Entry where
  key : Bytes
  code : Nat
  message : Bytes
  pattern : Option Bytes
deriving DecidableEq, Repr

/-- Why there is no catalog. -/
inductive Error where
  | missingFile (k : Kind)
  | malformed
  | mismatch
  /-- An entry has no name. -/
  | emptyKey
  | duplicateCode (k : Kind) (code : Nat)
  | noCode (k : Kind) (key : Bytes)
  | badPattern (pattern : Bytes)
deriving DecidableEq, Repr

/-- The message for a catalog that cannot be used. -/
def Error.message : Error → Bytes
  | .missingFile k => "open " ++ k.path ++ ": file does not exist"
  | .malformed => "malformed catalog"
  | .mismatch => "type mismatch in catalog"
  | .emptyKey => "empty key in catalog"
  | .duplicateCode k n => "duplicate " ++ k.what ++ " code " ++ Bytes.ofNat n
  | .noCode k key => k.what ++ " " ++ quote key ++ " has no error code"
  | .badPattern p => "malformed pattern " ++ quote p

/-! ## §2 Patterns -/

/-- Whether groups and classes of a pattern are closed, and an escape has a character. `depth` is
the number of open groups. -/
def closes (depth : Nat) (inClass escaped : Bool) : Bytes → Bool
  | [] => depth == 0 && !inClass && !escaped
  | c :: r =>
    if escaped then closes depth inClass false r
    else if c == 0x5C then closes depth inClass true r
    else if inClass then closes depth (c != 0x5D) false r
    else if c == 0x5B then closes depth true false r
    else if c == 0x28 then closes (depth + 1) false false r
    else if c == 0x29 then
      match depth with
      | 0 => false
      | d + 1 => closes d false false r
    else closes depth false false r

/-- Whether a pattern is well formed as far as brackets and escapes go, and does not start with a
repetition. -/
def isPattern (p : Bytes) : Bool :=
  closes 0 false false p && !p.head?.any fun c => c == 0x2A || c == 0x2B || c == 0x3F

/-! ## §3 Reading -/

/-- The shape of a catalog. -/
def shape : Json.Shape :=
  .mapping (.record false
    [("code", .whole 0 (2 ^ 32)), ("message", .text), ("message_pattern", .text)])

/-- Checks the entries one after the other; `used` holds the numbers so far. Patterns match letters
in either case. -/
def check (k : Kind) (used : List Nat) : List (Bytes × Json) → Except Error (List Entry)
  | [] => .ok []
  | (key, v) :: r => do
    let code := (v.get "code").asNat
    let reserved := key.head? == some 0x5F
    if key.isEmpty then throw .emptyKey
    if !reserved && code == 0 then throw (.noCode k key)
    if code != 0 && used.contains code then throw (.duplicateCode k code)
    let used := if code == 0 then used else code :: used
    if reserved then check k used r
    else
      let pattern := (v.get "message_pattern").asText
      if !isPattern pattern then throw (.badPattern pattern)
      let shown : Option Bytes := if pattern.isEmpty then none else some ("(?i)" ++ pattern)
      return ⟨key, code, (v.get "message").asText, shown⟩ :: (← check k used r)

/-- The entries of a catalog in the order of their names. -/
def read (k : Kind) (text : Bytes) : Except Error (List Entry) :=
  match (Json.readFirst? text).map (Json.conform shape) with
  | none => .error .malformed
  | some (.error _) => .error .mismatch
  | some (.ok v) => do
    let entries ← check k [] v.asMembers
    return entries.mergeSort fun a b => Bytes.le a.key b.key

/-- Loads a catalog from files by path. -/
def load (k : Kind) (files : List (Bytes × Bytes)) : Except Error (List Entry) :=
  match files.lookup k.path with
  | some text => read k text
  | none => .error (.missingFile k)

end Idl.Catalog
