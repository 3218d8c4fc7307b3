import Idl.Bindings.Basic
import Idl.Command.Settings
import Idl.Plugin.OutputPath

/-!
# Failures of commands

Why a command does not do what it is asked to, in the words that the user is told. A command that
fails has either told why, or is told about by its failure.
-/

namespace Idl.Command

/-- What a command was doing with a file. -/
inductive Doing where
  | readSchema
  | checkOutput
  | makeOutput
  | writeOutput
  | openOutput
  | findTemplates
  | removeStale
  | readManifest
  | writeManifest
  | readPlugin (language : Bytes)
deriving DecidableEq, Repr

/-- The words for what a command was doing. -/
def Doing.words : Doing → Bytes
  | .readSchema => "read schema"
  | .checkOutput => "output directory"
  | .makeOutput => "create output directory"
  | .writeOutput => "write output"
  | .openOutput => "open output"
  | .findTemplates => "templates"
  | .removeStale => "remove stale output"
  | .readManifest => "read " ++ manifestName
  | .writeManifest => "write " ++ manifestName
  | .readPlugin language => "read " ++ language ++ " plugin"

/-- Whose path has a home directory that is not known. -/
inductive HomeOwner where
  | key (k : Key)
  | pluginPath (entry : Bytes)
deriving DecidableEq, Repr

/-- Why a command does not do what it is asked to. -/
inductive Failure where
  /-- Diagnostics have been printed already. -/
  | reported
  | twoInputs
  | manyInputs (n : Nat)
  | noInput
  | edition (e : Bytes)
  | occupied (dir : Bytes)
  | noDirectory (dir : Bytes)
  | noOutput
  | noLanguage
  | templates (dir : Bytes)
  | format (name : Bytes)
  | file (doing : Doing) (e : Files.Error)
  | path (e : Plugin.PathError)
  | home (owner : HomeOwner)
  | noPlugin (name : Bytes)
  | manifest
  | binding (e : BindingError)
  /-- A schema that cannot be expressed in a format. -/
  | inexpressible (target : Bytes)
deriving DecidableEq, Repr

/-- The message for a failure. -/
def Failure.message : Failure → Bytes
  | .reported => "errors reported"
  | .twoInputs => "schema given both as --input and as an argument"
  | .manyInputs n => "expected one schema file, got " ++ Bytes.ofNat n
  | .noInput => "no schema file given (use --input=)"
  | .edition e => "unsupported Rust edition " ++ quote e ++ " (choose 2018 or 2021)"
  | .occupied dir => "output directory " ++ dir ++ " is not empty"
  | .noDirectory dir => "output directory " ++ dir ++ " must be an existing directory"
  | .noOutput => "no output directory specified (set --output=)"
  | .noLanguage => "no output language selected (use --language=)"
  | .templates dir => "templates: " ++ dir ++ " is not a directory"
  | .format name => "unsupported output format " ++ quote name
  | .file doing e => doing.words ++ ": " ++ e.message
  | .path e => e.message
  | .home (.key k) => "config key " ++ k.name ++ ": " ++ homeFault
  | .home (.pluginPath entry) => "plugin path entry " ++ quote entry ++ ": " ++ homeFault
  | .noPlugin name =>
    "MIDL codegen plugin " ++ name ++ " not found in plugin path (set --plugin-path= or $"
      ++ pluginPathVariable ++ ")"
  | .manifest => "read " ++ manifestName ++ ": malformed manifest"
  | .binding e => e.render
  | .inexpressible target => "export " ++ target ++ ": schema cannot be expressed"

/-- What a command does before it changes any file: it prints, and it may fail. -/
abbrev Task := ExceptT Failure (StateM Console)

namespace Task

/-- Logs an event. -/
def log (e : Event) : Task Unit := modify (·.log e)

/-- Prints a result. -/
def print (text : Bytes) : Task Unit := modify (·.print text)

/-- A result that may be a failure to do something with a file. -/
def file {α : Type} (doing : Doing) (r : Except Files.Error α) : Task α :=
  match r with
  | .ok a => pure a
  | .error e => throw (.file doing e)

end Task

end Idl.Command
