import Idl.Text.Quote
import Idl.Source

/-!
# Errors and warnings about the meaning of a file

A file that reads well can still break the rules of the language. Each violation is reported with
its cause, its place, the entity it is about and the scope of that entity.
-/

namespace Idl

/-! ## §1 Causes -/

/-- The kinds of declarations. -/
inductive DeclKind where
  | message
  | service
deriving DecidableEq, Repr

/-- What an annotation can stand in front of. -/
inductive Target where
  | message
  | field
  | service
  | method
deriving DecidableEq, Repr

/-- What can be wrong with the arguments of an annotation. -/
inductive ArgFault where
  | duplicateKey (key : Bytes)
  | mixed
  | manyPositional
  | wantsText
  | wantsPlace
  | notNatural (key : Bytes)
  | unknownKey (key : Bytes)
  | wantsSides
  | notBool (key : Bytes)
  | wantsValue
deriving DecidableEq, Repr

/-- The rules that a declaration can break. -/
inductive SchemaCause where
  | duplicateDecl (kind : DeclKind)
  | kindConflict (kind earlier : DeclKind)
  | duplicateField
  | reusedNumber (number : Nat) (owner : Bytes)
  | takenNumber (number : Nat) (owner : Bytes)
  | numberOutOfRange (literal : Bytes)
  | unresolvedType (name : Bytes)
  | duplicateMethod
  | misplacedAnnot (annot : Bytes) (target : Target)
  | malformedAnnot (annot : Bytes) (fault : ArgFault)
  | repeatedOption
  | invalidPackage
deriving DecidableEq, Repr

/-- A violation: the rule, the place, the entity and its scope. -/
structure SchemaError where
  cause : SchemaCause
  loc : Loc
  entity : Bytes
  scope : Bytes
deriving DecidableEq, Repr

/-- The largest field number. -/
def maxFieldNumber : Nat := 2 ^ 29 - 1

/-! ## §2 Their wording -/

/-- The word for a kind of declaration. -/
def DeclKind.name : DeclKind → Bytes
  | .message => "message"
  | .service => "service"

/-- The word for a target. -/
def Target.name : Target → Bytes
  | .message => "message"
  | .field => "field"
  | .service => "service"
  | .method => "method"

/-- What is wrong with the arguments, in words. -/
def ArgFault.message : ArgFault → Bytes
  | .duplicateKey key => "duplicate key '" ++ key ++ "'"
  | .mixed => "mixes positional and named arguments"
  | .manyPositional => "takes at most one positional argument"
  | .wantsText => "expected one text argument"
  | .wantsPlace => "expected 'line' and 'col'"
  | .notNatural key => "'" ++ key ++ "' must be a non-negative integer"
  | .unknownKey key => "unknown key '" ++ key ++ "'"
  | .wantsSides => "expected 'client' or 'server'"
  | .notBool key => "'" ++ key ++ "' must be true or false"
  | .wantsValue => "expected a value"

/-- The number of the error. -/
def SchemaCause.code : SchemaCause → Nat
  | .duplicateDecl _ => 3000
  | .kindConflict .. => 3001
  | .duplicateField => 3002
  | .reusedNumber .. => 3003
  | .takenNumber .. => 3004
  | .numberOutOfRange _ => 3005
  | .unresolvedType _ => 3006
  | .duplicateMethod => 3007
  | .misplacedAnnot .. => 3008
  | .malformedAnnot .. => 3009
  | .repeatedOption => 3009
  | .invalidPackage => 3010

namespace SchemaError

/-- The number of the error. -/
def code (e : SchemaError) : Nat := e.cause.code

/-- The message, without its number. -/
def message (e : SchemaError) : Bytes :=
  match e.cause with
  | .duplicateDecl kind =>
    "Duplicate declaration of " ++ kind.name ++ " '" ++ e.entity ++ "' in package " ++ quote e.scope
  | .kindConflict kind earlier =>
    "Declaration of " ++ kind.name ++ " '" ++ e.entity ++ "' conflicts with earlier declaration of "
      ++ earlier.name ++ " '" ++ e.entity ++ "'"
  | .duplicateField => "Duplicate field '" ++ e.entity ++ "' in message '" ++ e.scope ++ "'"
  | .reusedNumber number owner =>
    "Field '" ++ e.entity ++ "' in message '" ++ e.scope ++ "' reuses number " ++ Bytes.ofNat number
      ++ " of field '" ++ owner ++ "'"
  | .takenNumber number owner =>
    "Automatic number " ++ Bytes.ofNat number ++ " of field '" ++ e.entity ++ "' in message '"
      ++ e.scope ++ "' collides with explicit number of field '" ++ owner ++ "'"
  | .numberOutOfRange literal =>
    "Number " ++ literal ++ " of field '" ++ e.entity ++ "' in message '" ++ e.scope
      ++ "' is out of range [1, " ++ Bytes.ofNat maxFieldNumber ++ "]"
  | .unresolvedType name =>
    "Type '" ++ name ++ "' (used by '" ++ e.entity ++ "' in '" ++ e.scope
      ++ "') is not a builtin type or a message in this file"
  | .duplicateMethod => "Duplicate method '" ++ e.entity ++ "' in service '" ++ e.scope ++ "'"
  | .misplacedAnnot annot target =>
    "Annotation '@" ++ annot ++ "' is not allowed on " ++ target.name ++ " '" ++ e.entity ++ "'"
  | .malformedAnnot annot fault =>
    "Malformed annotation '@" ++ annot ++ "' on '" ++ e.entity ++ "': " ++ fault.message
  | .repeatedOption => "Malformed option '" ++ e.entity ++ "': option is set more than once"
  | .invalidPackage =>
    "Invalid package name " ++ quote e.entity ++ ": components must start with a letter"

/-- The message with its number in front. -/
def render (e : SchemaError) : Bytes := "E" ++ Bytes.ofNat e.code ++ ": " ++ e.message

/-- The message for a number of errors at once. -/
def renderAll (errors : List SchemaError) : Bytes :=
  let head : Bytes := if errors.length == 1 then "1 error occurred:\n\t"
    else Bytes.ofNat errors.length ++ " errors occurred:\n\t"
  head ++ Bytes.join "\n\t" (errors.map fun e => ("* " : Bytes) ++ e.render) ++ "\n\n"

end SchemaError

/-! ## §3 Warnings -/

/-- What is allowed and yet worth a remark. -/
inductive WarningCause where
  | mixedNumbering (message : Bytes)
  | requiredLabel
  | emptyService (service : Bytes)
deriving DecidableEq, Repr

/-- A remark and its place. -/
structure Warning where
  cause : WarningCause
  loc : Loc
deriving DecidableEq, Repr

namespace Warning

/-- The number of the warning. -/
def code (w : Warning) : Nat :=
  match w.cause with
  | .mixedNumbering _ => 4000
  | .requiredLabel => 4001
  | .emptyService _ => 4002

/-- The message, without its number. -/
def message (w : Warning) : Bytes :=
  match w.cause with
  | .mixedNumbering name => "Message '" ++ name ++ "' mixes explicit and automatic field numbers"
  | .requiredLabel =>
    "The 'required' keyword has no effect; fields are required unless optional"
  | .emptyService name => "Service '" ++ name ++ "' declares no methods"

/-- The message with its number in front. -/
def render (w : Warning) : Bytes := "W" ++ Bytes.ofNat w.code ++ ": " ++ w.message

end Warning

/-! ## §4 Order -/

/-- The order of reports: by where they begin, then by their number. -/
def reportOrder {α : Type} (loc : α → Loc) (code : α → Nat) (a b : α) : Bool :=
  let i := (loc a).span.start
  let j := (loc b).span.start
  i < j || (i == j && code a ≤ code b)

/-- Errors in the order of reports. -/
def sortErrors (l : List SchemaError) : List SchemaError :=
  l.mergeSort (reportOrder SchemaError.loc SchemaError.code)

/-- Warnings in the order of reports. -/
def sortWarnings (l : List Warning) : List Warning :=
  l.mergeSort (reportOrder Warning.loc Warning.code)

end Idl
