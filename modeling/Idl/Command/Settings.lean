import Idl.Command.Console
import Idl.Command.Verbs
import Idl.Files.Disk
import Idl.Json.Read
import Idl.Toml.Read

/-!
# Settings

A setting comes from a variable of the environment, else from a configuration file, else it has a
default. Names in files do not distinguish capital and small letters.

* §1 keys, §2 home directories, §3 configuration files, §4 values.
-/

namespace Idl.Command

open Files (Disk)

/-! ## §1 Keys -/

/-- A variable of the environment. -/
abbrev Variables := List (Bytes × Bytes)

/-- The value of a variable; one that is empty counts as missing. -/
def Variables.get? (l : Variables) (name : Bytes) : Option Bytes :=
  (l.lookup name).filter (!·.isEmpty)

/-- What can be set. -/
inductive Key where
  | logLevel
  | output
  | languages
  | pluginPath
  | templates
deriving DecidableEq, Repr

namespace Key

/-- The table of a key in a file, and its name there. -/
def place : Key → Option Bytes × Bytes
  | .logLevel => (some "log", "level")
  | .output => (none, "output")
  | .languages => (some "codegen", "languages")
  | .pluginPath => (some "codegen", "plugin_path")
  | .templates => (some "codegen", "templates")

/-- The name of a key. -/
def name (k : Key) : Bytes :=
  match k.place with
  | (some table, n) => table ++ "." ++ n
  | (none, n) => n

/-- The variable for a name. -/
def variableOf (name : Bytes) : Bytes :=
  "MIDL_" ++ Bytes.toUpper (name.map fun c => if c == 0x2E then 0x5F else c)

/-- What a key has unless it is set. -/
def fallback : Key → Option Toml
  | .logLevel => some (.str "warn")
  | .languages => some (.arr [.str "rust"])
  | _ => none

end Key

/-! ## §2 Home directories -/

/-- A path with the home directory in place of a tilde; the home of somebody else is not known. -/
def expandHome? (l : Variables) (path : Bytes) : Option Bytes :=
  match path with
  | 0x7E :: r =>
    if r.head?.any fun c => c != 0x2F && c != 0x5C then none
    else some (Files.joinTexts [(l.get? "HOME").getD [], r])
  | _ => some path

/-- The message for a path that cannot be expanded. -/
def homeFault : Bytes := "cannot expand user-specific home dir"

/-- A directory of the user for data of one kind: from a variable, else below the home directory. -/
def userDirectory (l : Variables) (name : Bytes) (below : List Bytes) : Bytes :=
  (l.get? name).getD (Files.joinTexts ((l.get? "HOME").getD [] :: below))

/-! ## §3 Configuration files -/

/-- The settings that are known: variables, and a file with the path by which it was found. -/
structure Settings where
  vars : Variables
  file : Toml.Members := []
  source : Option Bytes := none

/-- Why there are no settings. -/
inductive SettingsError where
  | home (path : Bytes)
  /-- A file cannot be read; a path is known if it was asked for. -/
  | file (path : Option Bytes) (e : Files.Error)
  | form (path : Bytes) (extension : Bytes)
  | malformed (path : Option Bytes)
  | level (name : Bytes) (f : LevelFault)
deriving DecidableEq, Repr

/-- The message for settings that cannot be used. -/
def SettingsError.message : SettingsError → Bytes
  | .home path => "config path " ++ quote path ++ ": " ++ homeFault
  | .file path e => reading path ++ e.message
  | .form path ext => reading (some path) ++ "Unsupported Config Type " ++ quote ext
  | .malformed path => reading path ++ "While parsing config: malformed file"
  | .level name f => "invalid log level " ++ quote name ++ ": " ++ f.message
where
  /-- What was being done. -/
  reading : Option Bytes → Bytes
    | some path => "read config " ++ path ++ ": "
    | none => "read config: "

mutual

/-- The setting that a JSON value stands for. -/
def ofJson : Json → Toml
  | .null => .moment []
  | .bool b => .bool b
  | .num t => match (readInt64 t).toOption with
    | some n => .int n
    | none => .float ((readFloat t).toOption.getD ⟨0⟩)
  | .str s => .str s
  | .arr l => .arr (ofJsonItems l)
  | .obj l => .table .inline (ofJsonMembers l)

/-- The settings that JSON values stand for. -/
def ofJsonItems : List Json → List Toml
  | [] => []
  | v :: r => ofJson v :: ofJsonItems r

/-- The settings that the members of an object stand for. -/
def ofJsonMembers : List (Bytes × Json) → Toml.Members
  | [] => []
  | (k, v) :: r => (k, ofJson v) :: ofJsonMembers r

end

/-- Reads a configuration file of a form. -/
def readForm? (form text : Bytes) : Option Toml.Members :=
  if form == ("json" : Bytes) then
    match Json.readWhole? text with
    | some (.obj l) => some (ofJsonMembers l)
    | _ => none
  else Toml.read? text

/-- The names under which a configuration file is looked for in a directory. Whatever its name, it
is TOML. -/
def configNames : List Bytes :=
  (List.map Bytes.ofString ["json", "toml", "yaml", "yml", "properties", "props", "prop", "hcl",
    "tfvars", "dotenv", "env", "ini"]).map (programName ++ "." ++ ·) ++ [programName]

/-- The directories in which a configuration file is looked for. -/
def configDirectories (d : Disk) (l : Variables) : List Bytes :=
  [Files.Path.text ⟨true, d.cwd⟩,
   Files.joinTexts [userDirectory l "XDG_CONFIG_HOME" [".config"], programName]]

/-- The configuration file that counts if none is asked for. -/
def findConfig? (d : Disk) (l : Variables) : Option Bytes :=
  let paths := (configDirectories d l).flatMap fun dir =>
    configNames.map fun n => Files.joinTexts [dir, n]
  paths.find? d.isFile

/-- Loads the settings. `path` is the file that is asked for, if any. -/
def Settings.load (d : Disk) (l : Variables) (path : Bytes) : Except SettingsError Settings :=
  if path.isEmpty then
    match findConfig? d l with
    | none => .ok { vars := l }
    | some p => match d.read p with
      | .error e => .error (.file none e)
      | .ok text => match Toml.read? text with
        | none => .error (.malformed none)
        | some m => .ok { vars := l, file := m, source := some p }
  else match expandHome? l path with
    | none => .error (.home path)
    | some p =>
      let form := (Files.extension p).drop 1
      if form != ("toml" : Bytes) && form != ("json" : Bytes) then .error (.form p form)
      else match d.read p with
        | .error e => .error (.file (some p) e)
        | .ok text => match readForm? form text with
          | none => .error (.malformed (some p))
          | some m => .ok { vars := l, file := m, source := some p }

/-! ## §4 Values -/

namespace Settings

/-- A member by its name in small letters. -/
def member? (m : Toml.Members) (name : Bytes) : Option Toml :=
  (m.find? fun e => Text.lower e.1 == name).map (·.2)

/-- Whether a table that a key would be in is set to something else by a variable. -/
def isHiddenByVariable (s : Settings) (k : Key) : Bool :=
  k.place.1.any fun table => (s.vars.get? (Key.variableOf table)).isSome

/-- What a file has for a key. -/
def inFile? (s : Settings) (k : Key) : Option Toml :=
  match k.place with
  | (none, n) => member? s.file n
  | (some table, n) => (member? s.file k.name).or <| match member? s.file table with
    | some (.table _ inner) => member? inner n
    | _ => none

/-- Whether a file has something else in place of the table that a key would be in. -/
def isHiddenByFile (s : Settings) (k : Key) : Bool :=
  k.place.1.any fun table => match member? s.file table with
    | none | some (.table ..) => false
    | some _ => true

/-- The value of a key. -/
def value? (s : Settings) (k : Key) : Option Toml :=
  match s.vars.get? (Key.variableOf k.name) with
  | some t => some (.str t)
  | none =>
    if s.isHiddenByVariable k then none
    else match s.inFile? k with
      | some v => some v
      | none => if s.isHiddenByFile k then none else k.fallback

/-- Numbers of settings are written without an exponent. -/
def numbers : FloatNotation :=
  { FloatNotation.outline with plainFrom := -400, plainBelow := 400 }

/-- A value as a text, if it is a simple one. -/
def textOf? : Toml → Option Bytes
  | .str t => some t
  | .moment t => some t
  | .int n => some (Bytes.ofInt n)
  | .bool b => some (if b then "true" else "false")
  | .float x => some (numbers.render x.classify)
  | _ => none

/-- The text of a key; empty if there is none. -/
def text (s : Settings) (k : Key) : Bytes := ((s.value? k).bind textOf?).getD []

/-- The texts of a key. A text by itself is cut into words. -/
def texts (s : Settings) (k : Key) : List Bytes :=
  match s.value? k with
  | some (.arr l) => l.map fun v => (textOf? v).getD []
  | some (.str t) => Text.words t
  | some v => (textOf? v).toList
  | none => []

end Settings

end Idl.Command
