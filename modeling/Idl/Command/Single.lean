import Idl.Command

/-!
# Rendering a single file

A program of its own renders one schema with one built-in target to standard output. It is what a
plugin does, without the plugin around it.
-/

namespace Idl.Command.Single

open Files (Disk)

/-- The name of the program. -/
def name : Bytes := "midl-codegen-wasm"

/-- The flags of the program. -/
def flags : List Flag :=
  [{ name := "lang", short := some 0x6C, fallback := "go", usage := "backend to render with" },
   { name := "option", short := some 0x4F, kind := .pairs
     usage := "backend option as key=value (repeatable)" }]

/-- What the program prints if it cannot read its command line. -/
def usage : Bytes := "Usage of " ++ name ++ ":\n" ++ Usage.flagLines flags

/-- The target that is asked for. -/
def target (g : Given) : Bytes :=
  match g.lookup ("lang" : Bytes) with
  | some (.text t) => t
  | _ => "go"

/-- Ends the program with an event that says why. -/
def fail (c : Console) (d : Disk) (message : Bytes) (details : List (Bytes × Detail)) : Outcome :=
  .stop 1 (c.complain (Event.render { weight := .fatal, message := message, details := details })) d

/-- Tells something about the source. -/
def tell (weight : Weight) (c : Console) (message : Bytes) : Console :=
  c.complain (Event.render { weight := weight, message := message })

/-- Prints rendered files; each has a heading if there are several. -/
def printFiles (c : Console) (files : List Bindings.OutputFile) : Console :=
  files.foldl
    (fun c f =>
      let c := if 1 < files.length then c.print ("// " ++ f.path ++ "\n") else c
      c.print f.content)
    c

/-- Renders the schema at a path. -/
def render (d : Disk) (g : Given) (path : Bytes) : Outcome :=
  let c : Console := {}
  match d.read path with
  | .error e =>
    fail c d "read schema" [(Event.errorName, .text e.message), ("path", .text path)]
  | .ok src => match compileSource src (rememberedPath path) false with
    | .error e => fail c d "parse" [(Event.errorName, .text e.render), ("path", .text path)]
    | .ok compilation =>
      let c := compilation.warnings.foldl (fun c w => tell .warn c w.render) c
      match compilation.outcome with
      | .error l => .stop 1 (l.foldl (fun c e => tell .error c e.render) c) d
      | .ok s => match Bindings.generate s (target g) { values := g.pairs "option" } with
        | .error e => fail c d "codegen" [(Event.errorName, .text e.render)]
        | .ok files => .stop 0 (printFiles c files) d

/-- Carries out a command line. -/
def run (d : Disk) (words : List Bytes) : Outcome :=
  match readCommandLine flags words with
  | .error .help => ⟨2, FlagError.help.message ++ "\n", usage, d⟩
  | .error e => ⟨2, e.message ++ "\n", e.message ++ "\n" ++ usage, d⟩
  | .ok (g, [path]) => render d g path
  | .ok _ => fail {} d ("usage: " ++ name ++ " [--lang=LANG] MIDL_SCHEMA") []

end Idl.Command.Single
