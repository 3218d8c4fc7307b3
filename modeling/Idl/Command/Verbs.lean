import Idl.Command.Flags
import Idl.Text.Case

/-!
# Verbs

What the program can be asked to do: its verbs with their flags, how a verb is found among the words
of a command line, and the texts that explain them.

* §1 verbs, §2 their flags, §3 the distance between words, §4 finding the verb, §5 usage.
-/

namespace Idl.Command

/-! ## §1 Verbs -/

/-- What the program can be asked to do. -/
inductive Verb where
  | create
  | update
  | exportAs
  | describe
  | codegen
  | help
deriving DecidableEq, Repr

/-- The name of the program. -/
def programName : Bytes := "midl"

/-- The name of the file that records how a project was made. -/
def manifestName : Bytes := "midl-package.toml"

/-- The variable with the directories that are searched for plugins. -/
def pluginPathVariable : Bytes := "MIDL_CODEGEN_PLUGIN_PATH"

namespace Verb

/-- All verbs. -/
def all : List Verb := [.create, .update, .exportAs, .describe, .codegen, .help]

/-- The name of a verb. -/
def name : Verb → Bytes
  | .create => "create"
  | .update => "update"
  | .exportAs => "export"
  | .describe => "describe"
  | .codegen => "codegen"
  | .help => "help"

/-- Other names of a verb. -/
def aliases : Verb → List Bytes
  | .exportAs => ["json", "schema"]
  | _ => []

/-- What follows the name of a verb. -/
def synopsis : Verb → Bytes
  | .help => "[command]"
  | _ => "[options] [SCHEMA]"

/-- What a verb does, in one line. -/
def summary : Verb → Bytes
  | .create => "Create a new project with code generated from a MIDL file"
  | .update => "Regenerate the sources of a project after its MIDL file changed"
  | .exportAs => "Compile a MIDL file and write the schema as JSON, YAML, text, or protobuf"
  | .describe => "Print the services, methods, and identifiers of a MIDL file"
  | .codegen => "Generate code with WebAssembly codegen plugins"
  | .help => "Help about any command"

/-- What a verb does, at length. -/
def description : Verb → Bytes
  | .help => "Help provides help for any command in the application.\nSimply type " ++ programName
      ++ " help [path to command] for full details."
  | v => v.summary

/-- The verb of a name. -/
def ofName? (n : Bytes) : Option Verb := all.find? fun v => v.name == n || v.aliases.contains n

end Verb

/-! ## §2 Flags -/

/-- The flags that all verbs have. -/
def sharedFlags : List Flag :=
  [{ name := "config"
     usage := "path to midl.toml (default: ./midl.toml, then $XDG_CONFIG_HOME/midl/midl.toml)" },
   { name := "log-level"
     usage := "log level: trace, debug, info, warn, error (default: warn)" },
   { name := "no-color", kind := .toggle, usage := "disable colored diagnostics" }]

/-- The flag that asks for help with something. -/
def helpFlag (topic : Bytes) : Flag :=
  { name := "help", short := some 0x68, kind := .toggle, usage := "help for " ++ topic }

/-- The flag for the schema. -/
def inputFlag (usage : Bytes) : Flag := { name := "input", short := some 0x69, usage := usage }

/-- The flag for languages. -/
def languageFlag (usage : Bytes) : Flag :=
  { name := "language", short := some 0x6C, kind := .list, usage := usage }

/-- The flag for the place of the output. -/
def outputFlag (usage : Bytes) : Flag := { name := "output", short := some 0x6F, usage := usage }

/-- The flag for templates. -/
def templatesFlag : Flag :=
  { name := "templates", usage := "directory of templates overriding the built-in set" }

/-- The flag for options of code generation. -/
def optionFlag (usage : Bytes) : Flag :=
  { name := "option", short := some 0x4F, kind := .pairs, usage := usage }

/-- The edition of projects unless another one is asked for. -/
def defaultEdition : Bytes := "2018"

/-- The flags of a verb, besides the shared ones and the one for help. -/
def Verb.flags : Verb → List Flag
  | .create =>
    [inputFlag "MIDL file to compile",
     languageFlag
       "output languages, comma-separated or repeated (default: codegen.languages)",
     outputFlag "project directory; must be empty or missing (default: output, then .)",
     { name := "package", usage := "project package name (default: the schema package)" },
     { name := "edition", fallback := defaultEdition, usage := "Rust edition: 2018 or 2021" },
     templatesFlag,
     optionFlag "backend option as key=value"]
  | .update =>
    [inputFlag ("MIDL file to compile (default: from " ++ manifestName ++ ")"),
     languageFlag ("output languages (default: from " ++ manifestName ++ ")"),
     outputFlag "existing project directory (default: output, then .)",
     templatesFlag,
     optionFlag "backend option as key=value"]
  | .exportAs =>
    [inputFlag "MIDL file to compile",
     outputFlag "output file (default: stdout)",
     { name := "format", short := some 0x66
       usage := "json, yaml, text, proto, or descriptor "
         ++ "(default: from the output extension, else json)" },
     { name := "pretty", kind := .toggle, usage := "indent JSON output" }]
  | .describe =>
    [inputFlag "MIDL file to compile",
     { name := "messages", kind := .toggle, usage := "also list message fields" }]
  | .codegen =>
    [inputFlag "MIDL file to compile",
     languageFlag "plugin languages (default: codegen.languages)",
     outputFlag "output directory (default: output)",
     { name := "plugin-path"
       usage := "directories to search for midl-codegen-LANG.wasm (default: $"
         ++ pluginPathVariable ++ ")" },
     optionFlag "plugin option as key=value"]
  | .help => []

/-! ## §3 The distance between words

How many octets have to be inserted, removed or exchanged to make one word of another.
-/

end Idl.Command

namespace Idl.Distance

/-- The distances of a word that ends in `c` from the initial parts of `s`, from those of the word
without `c`. `left` is the distance that was found last. -/
def rowFrom (c : UInt8) (left : Nat) : (s : Bytes) → (row : List Nat) → List Nat
  | a :: s, diagonal :: above :: row =>
    let v := if a == c then diagonal else 1 + min left (min above diagonal)
    v :: rowFrom c v s (above :: row)
  | _, _ => []

/-- The next row of distances. -/
def nextRow (s : Bytes) (row : List Nat) (c : UInt8) : List Nat :=
  let first := row.headD 0 + 1
  first :: rowFrom c first s row

/-- The distance between two words. -/
def distance (s t : Bytes) : Nat := (t.foldl (nextRow s) (List.range (s.length + 1))).getLastD 0

end Idl.Distance

namespace Idl.Command

/-! ## §4 Finding the verb -/

/-- Whether a word is a flag whose value is the next word. Only the shared flags are known before
there is a verb; of any other flag that is assumed. -/
def takesNext (w : Bytes) : Bool :=
  let isToggle (p : Flag → Bool) : Bool := sharedFlags.any fun f => p f && f.kind == .toggle
  !w.contains 0x3D
    && ((Bytes.startsWith w "--" && !isToggle (·.name == w.drop 2))
      || (Bytes.startsWith w "-" && w.length == 2 && !isToggle (·.short == w[1]?)))

/-- The words that are neither flags nor their values. -/
def plainWords (skip : Bool) : List Bytes → List Bytes
  | [] => []
  | w :: r =>
    if skip then plainWords false r
    else if w == ("--" : Bytes) then []
    else if takesNext w then if r.length ≤ 1 then [] else plainWords true r
    else if w.isEmpty || w.head? == some 0x2D then plainWords false r
    else w :: plainWords false r

/-- The words without the first one that is a given plain word. -/
def dropPlain (x : Bytes) (skip : Bool) : List Bytes → List Bytes
  | [] => []
  | w :: r =>
    if skip then w :: dropPlain x false r
    else if w == ("--" : Bytes) then w :: r
    else if takesNext w then w :: dropPlain x true r
    else if w == x then r
    else w :: dropPlain x false r

/-- The verbs that a word might have been meant for: those at a small distance, and those that it is
the start of. -/
def suggestions (word : Bytes) : List Verb :=
  let word := Text.lower word
  Verb.all.filter fun v => Distance.distance word v.name ≤ 2 || Bytes.startsWith v.name word

/-- The line for a verb that might have been meant. -/
def hintLine (v : Verb) : Bytes := 0x09 :: (v.name ++ [0x0A])

/-- The lines with the verbs that a word might have been meant for. -/
def hintLines (word : Bytes) : Bytes :=
  match suggestions word with
  | [] => []
  | l => "\n\nDid you mean this?\n" ++ l.flatMap hintLine

/-- The message for a word that is no verb. -/
def unknownVerb (word : Bytes) : Bytes :=
  "unknown command " ++ quote word ++ " for " ++ quote programName ++ hintLines word

/-- The verb of a command line, if it has any words besides flags, and the other words. -/
def findVerb (words : List Bytes) : Except Bytes (Option Verb × List Bytes) :=
  match plainWords false words with
  | [] => .ok (none, words)
  | w :: _ => match Verb.ofName? w with
    | some v => .ok (some v, dropPlain w false words)
    | none => .error (unknownVerb w)

/-! ## §5 Usage -/

namespace Usage

/-- A text with spaces up to a width. -/
def pad (width : Nat) (t : Bytes) : Bytes := t ++ List.replicate (width - t.length) 0x20

/-- A flag with its names and what it takes. -/
def signature (f : Flag) : Bytes :=
  let names : Bytes := match f.short with
    | some c => "  -" ++ [c] ++ ", --" ++ f.name
    | none => "      --" ++ f.name
  names ++ match f.kind with
    | .text => Bytes.ofString " string"
    | .toggle => []
    | .list => " strings"
    | .pairs => " stringToString"

/-- What a flag is for, and what counts if it is not given. -/
def remark (f : Flag) : Bytes :=
  f.usage ++ match f.kind with
    | .text => if f.fallback.isEmpty then [] else " (default " ++ quote f.fallback ++ ")"
    | .pairs => " (default [])"
    | _ => []

/-- A line for each flag, in the order of their names. -/
def flagLines (flags : List Flag) : Bytes :=
  let width := (flags.map fun f => (signature f).length).foldl max 0
  (flags.mergeSort fun f g => Bytes.le f.name g.name).flatMap fun f =>
    pad width (signature f) ++ "   " ++ remark f ++ "\n"

/-- A line for each verb, in the order of their names. -/
def verbLines : Bytes :=
  (Verb.all.mergeSort fun v w => Bytes.le v.name w.name).flatMap fun v =>
    "  " ++ pad 11 v.name ++ " " ++ v.summary ++ "\n"

/-- The usage of the program. -/
def program : Bytes :=
  "Usage:\n  " ++ programName ++ " [options] COMMAND [flags]\n  " ++ programName ++ " [command]\n\n"
    ++ "Available Commands:\n" ++ verbLines
    ++ "\nFlags:\n" ++ flagLines (helpFlag programName :: sharedFlags)
    ++ "\nUse \"" ++ programName ++ " [command] --help\" for more information about a command.\n"

/-- The other names of a verb, if it has any. -/
def aliasLines (v : Verb) : Bytes :=
  match v.aliases with
  | [] => []
  | l => "\nAliases:\n  " ++ Bytes.join ", " (v.name :: l) ++ "\n"

/-- The usage of a verb. -/
def verb (v : Verb) : Bytes :=
  "Usage:\n  " ++ programName ++ " " ++ v.name ++ " " ++ v.synopsis ++ " [flags]\n"
    ++ aliasLines v
    ++ "\nFlags:\n" ++ flagLines (helpFlag v.name :: v.flags)
    ++ "\nGlobal Flags:\n" ++ flagLines sharedFlags

/-- The help for a verb, or for the program. -/
def help : Option Verb → Bytes
  | none => "Compile MIDL interface definitions and generate code\n\n" ++ program
  | some v => v.description ++ "\n\n" ++ verb v

end Usage

end Idl.Command
