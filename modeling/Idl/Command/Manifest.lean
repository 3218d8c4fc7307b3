import Idl.Bindings
import Idl.Command.Failure

/-!
# Manifests

A project remembers how it was made, so that it can be made anew: its package and schema, the
languages, and the files that were generated.

* §1 manifests as text, §2 where a schema is, §3 generated files and their places, §4 the files
  around Rust sources.
-/

namespace Idl.Command

open Files (Disk)
open Bindings (OutputFile)

/-! ## §1 Manifests as text -/

/-- How a project was made. -/
structure Manifest where
  package : Bytes := []
  /-- The schema, as a path from the project. -/
  interface : Bytes := []
  languages : List Bytes := []
  edition : Bytes := []
  /-- The generated files, as paths from the project. -/
  files : List Bytes := []
deriving DecidableEq, Repr

namespace Manifest

/-- A line with a key and its value. -/
def line (key value : Bytes) : Bytes := key ++ " = " ++ value ++ "\n"

/-- The text of a manifest. -/
def text (m : Manifest) : Bytes :=
  "# Written by `midl create`; updated by `midl update`.\n"
    ++ line "package" (Toml.writeText m.package)
    ++ line "interface" (Toml.writeText m.interface)
    ++ line "languages" (Toml.writeTexts m.languages)
    ++ (if m.edition.isEmpty then [] else line "edition" (Toml.writeText m.edition))
    ++ line "files" (Toml.writeTexts m.files)

/-- The value of a key, which may also be spelled with other letters if it is not there as it is. -/
def member? (l : Toml.Members) (key : Bytes) : Option Toml :=
  (l.lookup key).or (Settings.member? l key)

/-- The text of a key, none if it is something else. -/
def text? (l : Toml.Members) (key : Bytes) : Option Bytes :=
  match member? l key with
  | none => some []
  | some v => v.asText?

/-- The texts of a key, none if it is something else. -/
def texts? (l : Toml.Members) (key : Bytes) : Option (List Bytes) :=
  match member? l key with
  | none => some []
  | some v => v.asTexts?

/-- The manifest in a text. -/
def ofText? (t : Bytes) : Option Manifest := do
  let l ← Toml.read? t
  return { package := ← text? l "package", interface := ← text? l "interface"
           languages := ← texts? l "languages", edition := ← text? l "edition"
           files := ← texts? l "files" }

/-- The place of the manifest of a project. -/
def path (dir : Bytes) : Bytes := Files.joinTexts [dir, manifestName]

/-- The manifest of a project, if it has one. -/
def load? (d : Disk) (dir : Bytes) : Except Failure (Option Manifest) :=
  match d.read (path dir) with
  | .error e => if e.fault == .missing then .ok none else .error (.file .readManifest e)
  | .ok t => match ofText? t with
    | some m => .ok (some m)
    | none => .error .manifest

/-! ## §2 Where a schema is -/

/-- The path of the schema, seen from where the project is seen. -/
def interfacePath (m : Manifest) (dir : Bytes) : Bytes :=
  if Files.isRooted m.interface then m.interface else Files.joinTexts [dir, m.interface]

/-- The path from a project to its schema. -/
def interfaceOf (cwd : List Bytes) (dir input : Bytes) : Bytes :=
  Files.relativeText (Files.absolute cwd dir) (Files.absolute cwd input)

end Manifest

/-! ## §3 Generated files and their places -/

/-- Where the sources of a language are in a project. -/
def sourceDirectory (language : Bytes) : Bytes :=
  if language == ("rust" : Bytes) then "rust/src" else language

/-- The generated files of all languages, at their places in a project. -/
def placed (rendered : List (Bytes × List OutputFile)) : List OutputFile :=
  rendered.flatMap fun (language, files) =>
    files.map fun f => { f with path := Files.joinTexts [sourceDirectory language, f.path] }

/-- The files that were generated before and are not any more. -/
def staleFiles (before : List Bytes) (now : List OutputFile) : List Bytes :=
  before.filter fun p => !(now.map (·.path)).contains p

/-! ## §4 The files around Rust sources -/

namespace Scaffold

/-- The name of a crate for a package. -/
def crateName (package : Bytes) : Bytes :=
  package.map fun c => if c == 0x2E || c == 0x5F then 0x2D else c

/-- The dependencies that are given by their version alone. -/
def plainDependencies (runtime : Bytes) : List (Bytes × Bytes) :=
  let fixed : List (Bytes × Bytes) := [("async-trait", "0.1"), ("serde_bytes", "0.11")]
  let own : List (Bytes × Bytes) :=
    if runtime == ("serde" : Bytes) || (fixed.lookup runtime).isSome then []
    else [(runtime, "0.1")]
  (fixed ++ own).mergeSort fun a b => Bytes.le a.1 b.1

/-- A line of a table. -/
def entry (key value : Bytes) : Bytes := "  " ++ Manifest.line key value

/-- The line for a dependency. -/
def dependency (d : Bytes × Bytes) : Bytes := entry (Toml.writeKey d.1) (Toml.writeText d.2)

/-- The description of a crate. -/
def crateText (package edition runtime : Bytes) : Bytes :=
  "[package]\n" ++ entry "name" (Toml.writeText (crateName package))
    ++ entry "version" (Toml.writeText "0.1.0")
    ++ entry "edition" (Toml.writeText edition)
    ++ "\n[dependencies]\n" ++ (plainDependencies runtime).flatMap dependency
    ++ "  [dependencies.serde]\n    version = \"1.0\"\n    features = [\"derive\"]\n"

/-- The module of a generated file. -/
def moduleName (f : OutputFile) : Bytes := Bytes.trimEnd (Files.baseName f.path) ".rs"

/-- The lines that make a generated file part of a crate; the root of the crate is part of it
anyway. -/
def moduleLines (f : OutputFile) : Bytes :=
  let name := moduleName f
  if name == ("lib" : Bytes) then [] else "mod " ++ name ++ ";\npub use " ++ name ++ "::*;\n"

/-- The root of a crate. -/
def rootText (generated : List OutputFile) : Bytes :=
  "// Generated by midl create.\n\n" ++ generated.flatMap moduleLines

/-- The files around generated sources. -/
def files (package edition runtime : Bytes) (generated : List OutputFile) : List OutputFile :=
  [⟨"rust/Cargo.toml", crateText package edition runtime⟩,
   ⟨"rust/src/lib.rs", rootText generated⟩]

end Scaffold

end Idl.Command
