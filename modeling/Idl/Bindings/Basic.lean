import Idl.Bytes

/-!
# What all targets have in common

A failure of code generation has a number in the five thousands, the target that failed, and the
entity, template, option or file that it is about. Options are settings by key, and templates that
replace the built-in ones; a target knows its own keys and refuses others. Within one scope of
generated code a name belongs to one entity: different entities can have one name after their names
have been put into the style of the target, and this is refused.

* §1 failures, §2 options, §3 scopes of generated names.
-/

namespace Idl

/-! ## §1 Failures -/

/-- What went wrong. -/
inductive BindingCause where
  /-- There is no such target. -/
  | unknownTarget (available : List Bytes)
  /-- A type has no equivalent in the target. -/
  | unmappable (typeName : Bytes)
  /-- A template cannot be read or filled in. -/
  | template (reason : Bytes)
  /-- A rendered file has a path that cannot be used. -/
  | output (reason : Bytes)
  /-- Two entities have one name in the target. -/
  | collision (name : Bytes) (earlier : Bytes)
  /-- What was rendered is not a source of the target language. -/
  | format
  /-- A plugin has failed. -/
  | plugin (reason : Bytes)
  /-- An option is unknown or has a value that cannot be used. -/
  | option (reason : Bytes)
deriving DecidableEq, Repr

/-- A failure of code generation. -/
structure BindingError where
  target : Bytes
  entity : Bytes
  cause : BindingCause
deriving DecidableEq, Repr

/-- The number of a failure. -/
def BindingCause.code : BindingCause → Nat
  | .unknownTarget _ => 5000
  | .unmappable _ => 5001
  | .template _ => 5002
  | .output _ => 5002
  | .collision _ _ => 5003
  | .format => 5004
  | .plugin _ => 5005
  | .option _ => 5006

namespace BindingError

/-- The message of a failure, without its number. -/
def message (e : BindingError) : Bytes :=
  match e.cause with
  | .unknownTarget available =>
    "Unknown code generation backend '" ++ e.target ++ "' (available: "
      ++ Bytes.join ", " available ++ ")"
  | .unmappable typeName =>
    "Type '" ++ typeName ++ "' of '" ++ e.entity ++ "' has no " ++ e.target ++ " equivalent"
  | .template reason =>
    "Failed to render " ++ e.target ++ " template '" ++ e.entity ++ "': " ++ reason
  | .output reason =>
    "Failed to render " ++ e.target ++ " output '" ++ e.entity ++ "': " ++ reason
  | .collision name earlier =>
    "Generated " ++ e.target ++ " name '" ++ name ++ "' for '" ++ e.entity
      ++ "' collides with '" ++ earlier ++ "'"
  | .format => "Failed to format " ++ e.target ++ " output '" ++ e.entity ++ "'"
  | .plugin reason => "Plugin for " ++ e.target ++ " failed: " ++ reason
  | .option reason => "Invalid " ++ e.target ++ " option '" ++ e.entity ++ "': " ++ reason

/-- The message of a failure with its number. -/
def render (e : BindingError) : Bytes :=
  "E" ++ Bytes.ofNat e.cause.code ++ ": " ++ e.message

/-- A plugin has failed. -/
def ofPlugin (target reason : Bytes) : BindingError := ⟨target, [], .plugin reason⟩

end BindingError

end Idl

namespace Idl.Bindings

/-! ## §2 Options -/

/-- Files by path, as a caller hands them over. -/
abbrev FileMap := List (Bytes × Bytes)

/-- What a caller can set. -/
structure Options where
  /-- The settings, each key once. -/
  values : List (Bytes × Bytes) := []
  /-- Files with templates, by path. -/
  templates : Option FileMap := none
deriving DecidableEq, Repr

namespace Options

/-- The value of a key. -/
def get? (o : Options) (key : Bytes) : Option Bytes := (o.values.find? (·.1 == key)).map (·.2)

/-- The keys in order. -/
def keys (o : Options) : List Bytes := (o.values.map (·.1)).mergeSort Bytes.le

/-- Refuses the first key, in order, that is not known. -/
def check (target : Bytes) (known : List Bytes) (o : Options) : Except BindingError Unit :=
  match o.keys.find? (!known.contains ·) with
  | some key => .error ⟨target, key, .option "unknown option"⟩
  | none => .ok ()

end Options

/-! ## §3 Scopes of generated names -/

/-- The names that have been given out in a scope, with the entity that each belongs to. -/
abbrev Scope := List (Bytes × Bytes)

/-- A computation that gives out names of one scope. -/
abbrev Claiming (α : Type) := StateT Scope (Except BindingError) α

namespace Scope

/-- The entity that a name belongs to. -/
def owner? (s : Scope) (name : Bytes) : Option Bytes := (s.find? (·.1 == name)).map (·.2)

/-- Gives a name to an entity, unless another entity has it. -/
def claim (s : Scope) (target entity name : Bytes) : Except BindingError Scope :=
  match s.owner? name with
  | none => .ok ((name, entity) :: s)
  | some earlier =>
    if earlier == entity then .ok s else .error ⟨target, entity, .collision name earlier⟩

end Scope

/-- Gives a name of the scope to an entity. -/
def claim (target entity name : Bytes) : Claiming Unit := fun s => do
  return ((), ← s.claim target entity name)

/-- A computation with a scope of its own, in which some names belong to entities already. -/
def inNewScope {α : Type} (s : Scope) (x : Claiming α) : Except BindingError α :=
  (·.1) <$> x.run s

end Idl.Bindings
