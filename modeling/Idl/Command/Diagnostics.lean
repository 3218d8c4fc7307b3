import Idl.Command.Failure
import Idl.Compile

/-!
# Diagnostics

A command compiles a schema and prints what there is to say about it, in the order of the source:
where a warning and an error stand at the same place, the warning comes first.
-/

namespace Idl.Command

open Files (Disk)

/-- How grave a diagnostic is. -/
inductive Grade where
  | warning
  | error
deriving DecidableEq, Repr

/-- The word for a grade. -/
def Grade.word : Grade → Bytes
  | .warning => "warning"
  | .error => "error"

/-- Something to say about a source. -/
structure Diagnostic where
  grade : Grade
  pos : Pos
  text : Bytes
deriving DecidableEq, Repr

namespace Diagnostic

/-- A warning. -/
def ofWarning (w : Warning) : Diagnostic := ⟨.warning, w.loc.pos, w.render⟩

/-- An error. -/
def ofError (e : SchemaError) : Diagnostic := ⟨.error, e.loc.pos, e.render⟩

/-- The order of the source. -/
def notAfter (a b : Diagnostic) : Bool :=
  a.pos.line < b.pos.line || (a.pos.line == b.pos.line && a.pos.col ≤ b.pos.col)

/-- The line for a diagnostic about the file at a path. -/
def render (path : Bytes) (d : Diagnostic) : Bytes :=
  path ++ ":" ++ Bytes.ofNat d.pos.line ++ ":" ++ Bytes.ofNat d.pos.col ++ ": " ++ d.grade.word
    ++ " " ++ d.text ++ "\n"

end Diagnostic

/-- All that there is to say about a compilation, in the order of the source. -/
def diagnostics (c : Compilation) : List Diagnostic :=
  (c.warnings.map Diagnostic.ofWarning ++ c.errors.map Diagnostic.ofError).mergeSort
    Diagnostic.notAfter

/-- Prints diagnostics about the file at a path. -/
def report (path : Bytes) (l : List Diagnostic) : Task Unit :=
  modify fun c => l.foldl (fun c d => c.tell (d.render path)) c

/-- The path that a schema remembers; one that starts at the root is not remembered. -/
def rememberedPath (path : Bytes) : Bytes := if Files.isRooted path then [] else path

/-- Reads and compiles a schema, and prints what there is to say about it. -/
def loadSchema (d : Disk) (path : Bytes) : Task Schema := do
  let src ← Task.file .readSchema (d.read path)
  match compileSource src (rememberedPath path) false with
  | .error e =>
    report path [⟨.error, e.pos, e.render⟩]
    throw .reported
  | .ok c =>
    report path (diagnostics c)
    match c.outcome with
    | .error _ => throw .reported
    | .ok s =>
      Task.log { weight := .debug, message := "compiled schema"
                 details := [("path", .text path), ("package", .text s.package),
                   ("id", .text s.id.text)] }
      return s

/-- The schema of a command: from its flag, or the only argument. -/
def inputPath (flag : Bytes) (args : List Bytes) : Except Failure Bytes :=
  match flag.isEmpty, args with
  | false, [] => .ok flag
  | false, _ => .error .twoInputs
  | true, [] => .error .noInput
  | true, [a] => .ok a
  | true, l => .error (.manyInputs l.length)

end Idl.Command
