import Idl.Text.Quote

/-!
# Paths of output files

A plugin names a file by the components of a path below the output directory. Only components that
cannot lead anywhere else are accepted.
-/

namespace Idl.Plugin

/-- What is wrong with the components of a path. -/
inductive PathFault where
  | empty
  | badComponent (c : Bytes)
  | absolute (c : Bytes)
  | separator (c : Bytes)
deriving DecidableEq, Repr

/-- Components that cannot be used; they may also be missing altogether. -/
structure PathError where
  parts : Option (List Bytes)
  fault : PathFault
deriving DecidableEq, Repr

namespace PathError

/-- The components as they are shown. -/
def shownParts : Option (List Bytes) → Bytes
  | none => "[]string(nil)"
  | some parts => "[]string\x7b" ++ Bytes.join ", " (parts.map quote) ++ "\x7d"

/-- The message for components that cannot be used. -/
def message (e : PathError) : Bytes :=
  "Invalid output path " ++ shownParts e.parts ++ ": " ++ match e.fault with
    | .empty => ("empty" : Bytes)
    | .badComponent c => "bad path component " ++ quote c
    | .absolute c => "absolute path component " ++ quote c
    | .separator c => "component " ++ quote c ++ " contains a path separator"

end PathError

/-- The octet between components. -/
def slash : UInt8 := 0x2F

/-- The octet that separates components on other systems. -/
def backslash : UInt8 := 0x5C

/-- What is wrong with one component. -/
def componentFault? (c : Bytes) : Option PathFault :=
  if c.isEmpty || c == "." || c == ".." then some (.badComponent c)
  else if c.head? == some slash then some (.absolute c)
  else if c.contains slash || c.contains backslash then some (.separator c)
  else none

/-- The path with the given components. -/
def outputPath (parts : Option (List Bytes)) : Except PathError Bytes :=
  match parts.getD [] with
  | [] => .error ⟨parts, .empty⟩
  | l => match l.findSome? componentFault? with
    | some f => .error ⟨parts, f⟩
    | none => .ok (Bytes.join [slash] l)

end Idl.Plugin
