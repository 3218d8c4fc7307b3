import Idl.Command.Diagnostics
import Idl.Command.Manifest
import Idl.Plugin.Host

/-!
# Generating code from the command line

Which languages are wanted, with which options, and what is rendered for them, by the built-in
targets or by plugins. All languages are rendered before anything is written.

* §1 languages and options, §2 rendering, §3 finding plugins, §4 rendering with plugins.
-/

namespace Idl.Command

open Files (Disk)
open Bindings (OutputFile)

/-- What surrounds a command: files, variables, and an engine that runs plugins. -/
structure Environment where
  disk : Disk
  vars : Variables
  engine : Plugin.Engine

/-! ## §1 Languages and options -/

/-- The languages of a list of names: small letters, without blanks, each once. -/
def tidyLanguages (names : List Bytes) : List Bytes :=
  let tidy := (names.map fun n => Text.lower (Text.trim n)).filter (!·.isEmpty)
  tidy.foldl (fun l n => if l.contains n then l else l ++ [n]) []

/-- The languages that are wanted: those of a list, or those of the settings if it is empty. -/
def chooseLanguages (s : Settings) (names : List Bytes) : Except Failure (List Bytes) :=
  match tidyLanguages (if names.isEmpty then s.texts .languages else names) with
  | [] => .error .noLanguage
  | l => .ok l

/-- A setting that is a path, with the home directory in place of a tilde. -/
def pathSetting (s : Settings) (k : Key) : Except Failure Bytes :=
  match expandHome? s.vars (s.text k) with
  | some p => .ok p
  | none => .error (.home (.key k))

/-- The directory for output: from a flag, or from the settings. -/
def outputDirectory (s : Settings) (flag : Bytes) : Bytes :=
  if flag.isEmpty then s.text .output else flag

/-- The options for built-in targets. `templates` is the directory that is asked for, if any. -/
def chooseOptions (env : Environment) (s : Settings) (templates : Bytes)
    (values : List (Bytes × Bytes)) : Except Failure Bindings.Options := do
  let dir ← if templates.isEmpty then pathSetting s .templates else pure templates
  if dir.isEmpty then return { values := values }
  match env.disk.inspect dir with
  | .error e => throw (.file .findTemplates e)
  | .ok (.file _) => throw (.templates dir)
  | .ok .directory => return { values := values, templates := some (env.disk.filesBelow dir) }

/-! ## §2 Rendering -/

/-- What renders a language: it may print, and gives files or fails. -/
abbrev Renderer := Bytes → StateM Console (Except BindingError (List OutputFile))

/-- The built-in targets. -/
def builtinRenderer (s : Schema) (o : Bindings.Options) : Renderer := fun language =>
  pure (Bindings.generate s language o)

/-- The event of a language that has been rendered. -/
def renderedEvent (language : Bytes) (files : List OutputFile) : Event :=
  { weight := .debug, message := "rendered"
    details := [("language", .text language), ("files", .texts (files.map (·.path)))] }

/-- Renders one language, and tells about it. -/
def renderOne (render : Renderer) (language : Bytes) :
    StateM Console (Except BindingError (Bytes × List OutputFile)) := do
  match ← render language with
  | .error e => return .error e
  | .ok files =>
    modify (·.log (renderedEvent language files))
    return .ok (language, files)

/-- Languages are rendered at the same time: the order in which their renderings end. -/
structure Schedule where
  order : List Bytes → List Bytes
  perm : ∀ l, (order l).Perm l

/-- The renderings end in the order in which they are asked for. -/
def Schedule.given : Schedule := ⟨id, .refl⟩

/-- Renders all languages. Each is rendered even if another one fails; then there are no files, and
the failure is that of the rendering that ended first. -/
def renderAll (schedule : Schedule) (render : Renderer) (languages : List Bytes) :
    Task (List (Bytes × List OutputFile)) := do
  let results ← ((schedule.order languages).mapM (renderOne render) : StateM Console _)
  match results.mapM id with
  | .ok l => return languages.filterMap fun n => (l.lookup n).map (n, ·)
  | .error e => throw (.binding e)

/-! ## §3 Finding plugins -/

/-- The name of the file with the plugin for a language. -/
def pluginFile (language : Bytes) : Bytes := "midl-codegen-" ++ language ++ ".wasm"

/-- The directories that are searched for plugins unless others are given. -/
def defaultPluginPath (l : Variables) : Bytes :=
  (l.get? pluginPathVariable).getD
    (Files.joinTexts [userDirectory l "XDG_DATA_HOME" [".local", "share"], "midl", "plugins"])

/-- Looks for a file in directories, one after the other. -/
def locateIn (env : Environment) (file : Bytes) : List Bytes → Except Failure Bytes
  | [] => .error (.noPlugin file)
  | dir :: rest =>
    match expandHome? env.vars dir with
    | none => .error (.home (.pluginPath dir))
    | some d =>
      let path := Files.joinTexts [d, file]
      if env.disk.isFile path then .ok path else locateIn env file rest

/-- The file with the plugin for a language. -/
def locatePlugin (env : Environment) (language searchPath : Bytes) : Except Failure Bytes :=
  let path := if searchPath.isEmpty then defaultPluginPath env.vars else searchPath
  locateIn env (pluginFile language) ((Files.splitList path).filter (!·.isEmpty))

/-- Loads the plugin for a language. -/
def loadPlugin (env : Environment) (searchPath language : Bytes) : Task Plugin.Source := do
  let path ← locatePlugin env language searchPath
  let module ← Task.file (.readPlugin language) (env.disk.read path)
  Task.log { weight := .debug, message := "found plugin"
             details := [("language", .text language), ("path", .text path)] }
  return ⟨language, path, module, Plugin.defaultPages⟩

/-! ## §4 Rendering with plugins -/

/-- The event of a plugin that is about to run. -/
def runningEvent (path : Bytes) (size : Nat) : Event :=
  { weight := .debug, message := "running codegen plugin"
    details := [("plugin", .text path), ("request_bytes", .count size)] }

/-- The event of a plugin that has given an answer. -/
def finishedEvent (path : Bytes) (status : UInt8) (size : Nat) : Event :=
  { weight := .debug, message := "codegen plugin finished"
    details := [("plugin", .text path), ("rc", .count status.toNat),
      ("response_bytes", .count size)] }

/-- Prints what a plugin has written, and tells about the run. -/
def showRun (path : Bytes) (f : Plugin.Finished) (c : Console) : Console :=
  let c := match f.request with
    | some n => c.log (runningEvent path n)
    | none => c
  let c := c.complain (f.stderr.take f.early)
  let c := match f.answer with
    | some (status, n) => c.log (finishedEvent path status n)
    | none => c
  c.complain (f.stderr.drop f.early)

/-- The plugins for the languages that they are for. -/
def pluginRenderer (env : Environment) (plugins : List Plugin.Source) (s : Schema)
    (o : Bindings.Options) : Renderer := fun language =>
  match plugins.find? (·.language == language) with
  | none => pure (.error (.ofPlugin language "not loaded"))
  | some p => do
    let f := p.run env.engine s o
    modify (showRun p.path f)
    return p.generate f

end Idl.Command
