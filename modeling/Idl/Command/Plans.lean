import Idl.Command.Export
import Idl.Command.Generation
import Idl.Command.Manifest

/-!
# Plans

Each verb first does all that can fail because of what it is asked for: it finds and compiles the
schema and renders all languages. What it is then going to do with files is its plan, a list of
steps.
-/

/-! ## §1 Steps

Each step changes files or says something; if one fails, the rest are not taken. -/

namespace Idl.Command

open Files (Disk)
open Bindings (OutputFile)

/-- Something to do. -/
inductive Step where
  /-- Make a directory for output. -/
  | directory (path : Bytes)
  /-- Write a file below a directory. -/
  | output (dir : Bytes) (file : OutputFile)
  /-- Remove a file that is not generated any more. -/
  | removal (path : Bytes)
  /-- Write the manifest. -/
  | manifest (path content : Bytes)
  /-- Write an exported schema. -/
  | document (path content : Bytes)
  | note (e : Event)
deriving DecidableEq, Repr

/-- A command that changes files: what it has printed, and the files as they are. -/
structure Session where
  console : Console
  disk : Disk

/-- What a command does while it changes files. -/
abbrev Work := ExceptT Failure (StateM Session)

namespace Work

/-- Logs an event. -/
def log (e : Event) : Work Unit := modify fun s => { s with console := s.console.log e }

/-- Changes files, unless that fails. -/
def change (doing : Doing) (f : Disk → Except Files.Error Disk) : Work Unit := do
  let s ← get
  match f s.disk with
  | .ok d => set { s with disk := d }
  | .error e => throw (.file doing e)

/-- Makes sure that a directory and all that it lies in exist, the outermost first. What has been
made stays if a later one cannot be made. -/
def makeDirectories (path : Bytes) : Work Unit :=
  (Disk.ancestry path).forM fun p => change .makeOutput (·.makeDirectory p)

end Work

/-- The event of a file that has been written. -/
def wroteEvent (path : Bytes) (size : Nat) : Event :=
  { weight := .info, message := "wrote", details := [("path", .text path), ("bytes", .count size)] }

/-- The event of a file that has been removed. -/
def removedEvent (path : Bytes) : Event :=
  { weight := .info, message := "removed stale output", details := [("path", .text path)] }

/-- The components of the path of a file. -/
def componentsOf (path : Bytes) : Option (List Bytes) := some (Bytes.split Files.separator path)

/-- Removes a file; that it is missing does not matter. -/
def removeIfThere (path : Bytes) (d : Disk) : Except Files.Error Disk :=
  match d.remove path with
  | .ok d => .ok d
  | .error e => if e.fault == .missing then .ok d else .error e

/-- Takes a step. -/
def Step.take : Step → Work Unit
  | .directory path => Work.makeDirectories path
  | .output dir file =>
    match Plugin.outputPath (componentsOf file.path) with
    | .error e => throw (.path e)
    | .ok rel => do
      let out := Files.joinTexts [dir, rel]
      Work.makeDirectories (Files.parentText out)
      Work.change .writeOutput (·.write out file.content)
      Work.log (wroteEvent out file.content.length)
  | .removal path => do
    Work.change .removeStale (removeIfThere path)
    Work.log (removedEvent path)
  | .manifest path content => Work.change .writeManifest (·.write path content)
  | .document path content => Work.change .openOutput (·.write path content)
  | .note e => Work.log e

/-- Takes steps one after the other. -/
def takeAll : List Step → Work Unit
  | [] => pure ()
  | s :: rest => do
    s.take
    takeAll rest

end Idl.Command

/-! ## §2 Requests -/

namespace Idl.Command

open Bindings (OutputFile)

/-- What a verb is given. -/
structure Request where
  env : Environment
  settings : Settings
  flags : Given
  args : List Bytes
  schedule : Schedule

namespace Request

/-- The schema that is asked for. -/
def input (r : Request) : Except Failure Bytes := inputPath (r.flags.text "input") r.args

/-- The edition that is asked for. -/
def edition (r : Request) : Bytes :=
  match r.flags.lookup ("edition" : Bytes) with
  | some (.text t) => t
  | _ => defaultEdition

/-- The directory for output that is asked for; empty if there is none. -/
def output (r : Request) : Bytes := outputDirectory r.settings (r.flags.text "output")

/-- The directory of the project. -/
def project (r : Request) : Bytes := if r.output.isEmpty then "." else r.output

/-! ## §3 Printing -/

/-- Prints a description. -/
def planDescribe (r : Request) : Task (List Step) := do
  let s ← loadSchema r.env.disk (← r.input)
  Task.print (s.describe (r.flags.toggle "messages"))
  return []

/-- Writes a schema in a format, to a file or to standard output. -/
def planExport (r : Request) : Task (List Step) := do
  let input ← r.input
  let out := r.flags.text "output"
  let format ← ExportFormat.choose (r.flags.text "format") out
  let s ← loadSchema r.env.disk input
  let text ← format.write (r.flags.toggle "pretty") s
  if out.isEmpty || out == ("-" : Bytes) then
    Task.print text
    return []
  else return [.document out text]

/-! ## §4 Projects -/

/-- Makes sure that a new project has a place: nothing, or an empty directory. -/
def checkVacant (env : Environment) (dir : Bytes) : Except Failure Unit :=
  match env.disk.isInhabited dir with
  | .ok false => .ok ()
  | .ok true => .error (.occupied dir)
  | .error e => if e.fault == .missing then .ok () else .error (.file .checkOutput e)

/-- Compiles the schema and renders the languages of a project. -/
def renderProject (r : Request) (input : Bytes) (languages : List Bytes) :
    Task (Schema × List (Bytes × List OutputFile)) := do
  let s ← loadSchema r.env.disk input
  let o ← chooseOptions r.env r.settings (r.flags.text "templates") (r.flags.pairs "option")
  return (s, ← renderAll r.schedule (builtinRenderer s o) languages)

/-- The files that surround the sources of a new project. -/
def scaffold (r : Request) (package : Bytes) (rendered : List (Bytes × List OutputFile)) :
    List OutputFile :=
  let asked : Bytes := ((r.flags.pairs "option").lookup ("runtime" : Bytes)).getD []
  let runtime := if asked.isEmpty then RustView.defaultRuntime else asked
  rendered.flatMap fun (language, files) =>
    if language == ("rust" : Bytes) then Scaffold.files package r.edition runtime files else []

/-- Makes a new project. -/
def planCreate (r : Request) : Task (List Step) := do
  let input ← r.input
  if r.edition != ("2018" : Bytes) && r.edition != ("2021" : Bytes) then throw (.edition r.edition)
  let dir := r.project
  checkVacant r.env dir
  let languages ← chooseLanguages r.settings (r.flags.list "language")
  let (s, rendered) ← r.renderProject input languages
  let generated := placed rendered
  let given := r.flags.text "package"
  let package := if given.isEmpty then s.package else given
  let m : Manifest :=
    { package := package, interface := Manifest.interfaceOf r.env.disk.cwd dir input
      languages := languages, edition := r.edition, files := generated.map (·.path) }
  return .directory dir :: (r.scaffold package rendered ++ generated).map (Step.output dir)
    ++ [.manifest (Manifest.path dir) m.text]

/-- Removes a file that was generated before. One that a manifest cannot name is left alone. -/
def removalOf (dir path : Bytes) : Step :=
  match Plugin.outputPath (componentsOf path) with
  | .error e => .note { weight := .warn, message := "ignoring manifest entry"
                        details := [(Event.errorName, .text e.message)] }
  | .ok _ => .removal (Files.joinTexts [dir, path])

/-- The schema for an update: the one that is asked for, or the one of the manifest. -/
def updateInput (r : Request) (dir : Bytes) (m : Option Manifest) : Except Failure Bytes :=
  match m with
  | some m =>
    if (r.flags.text "input").isEmpty && r.args.isEmpty && !m.interface.isEmpty then
      .ok (m.interfacePath dir)
    else r.input
  | none => r.input

/-- Generates the files of a project anew. -/
def planUpdate (r : Request) : Task (List Step) := do
  let dir := r.project
  if !r.env.disk.isDirectory dir then throw (.noDirectory dir)
  let old ← Manifest.load? r.env.disk dir
  let input ← r.updateInput dir old
  let names := r.flags.list "language"
  let languages ← chooseLanguages r.settings
    (if names.isEmpty then (old.map (·.languages)).getD [] else names)
  let (s, rendered) ← r.renderProject input languages
  let generated := placed rendered
  let stale := (old.map fun m => staleFiles m.files generated).getD []
  let m : Manifest :=
    { old.getD { package := s.package } with
      interface := Manifest.interfaceOf r.env.disk.cwd dir input
      languages := languages
      files := generated.map (·.path) }
  return generated.map (Step.output dir) ++ stale.map (removalOf dir)
    ++ [.manifest (Manifest.path dir) m.text]

/-! ## §5 Plugins -/

/-- Generates code with plugins. -/
def planCodegen (r : Request) : Task (List Step) := do
  let input ← r.input
  let dir := r.output
  if dir.isEmpty then throw .noOutput
  let languages ← chooseLanguages r.settings (r.flags.list "language")
  let given := r.flags.text "plugin-path"
  let path ← if given.isEmpty then (pathSetting r.settings .pluginPath : Except Failure Bytes)
    else pure given
  let plugins ← languages.mapM (loadPlugin r.env path)
  let s ← loadSchema r.env.disk input
  let o : Bindings.Options := { values := r.flags.pairs "option" }
  let rendered ← renderAll r.schedule (pluginRenderer r.env plugins s o) languages
  return .directory dir :: (rendered.flatMap (·.2)).map (Step.output dir)

/-- The plan of a verb. -/
def plan (r : Request) : Verb → Task (List Step)
  | .create => r.planCreate
  | .update => r.planUpdate
  | .exportAs => r.planExport
  | .describe => r.planDescribe
  | .codegen => r.planCodegen
  | .help => pure []

end Request

end Idl.Command
