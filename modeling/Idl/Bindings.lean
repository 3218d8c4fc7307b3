import Idl.Bindings.GoLayout
import Idl.Bindings.GoText
import Idl.Bindings.RustText
import Idl.Bindings.Template.Read
import Idl.Text.Glob

/-!
# Bindings

Source code for a schema in another language. A target renders files; what it renders is put in
order and checked before anyone gets it, so that a caller has either a clean set of files or none.
-/

namespace Idl.Bindings

/-- A generated file. Its path is relative to the output directory, with slashes. -/
structure OutputFile where
  path : Bytes
  content : Bytes
deriving DecidableEq, Repr

/-! ## §1 Sets of files -/

/-- The first path, in order, that is not relative or that occurs a second time. -/
def pathFault? (target : Bytes) (last : Option Bytes) : List OutputFile → Option BindingError
  | [] => none
  | f :: r =>
    if f.path.isEmpty || f.path.head? == some 0x2F then
      some ⟨target, f.path, .output "path must be relative"⟩
    else if last == some f.path then some ⟨target, f.path, .output "rendered more than once"⟩
    else pathFault? target (some f.path) r

/-- The files in the order of their paths, unless a path cannot be used. -/
def collect (target : Bytes) (files : List OutputFile) : Except BindingError (List OutputFile) :=
  let sorted := files.mergeSort fun f g => Bytes.le f.path g.path
  match pathFault? target none sorted with
  | some e => .error e
  | none => .ok sorted

/-! ## §2 Templates -/

/-- The built-in templates of all targets, by their paths. -/
def templatePaths : List Bytes :=
  ["templates/go/file.go.tmpl", "templates/go/message.go.tmpl", "templates/go/service.go.tmpl",
   "templates/rust/file.rs.tmpl", "templates/rust/message.rs.tmpl",
   "templates/rust/service.rs.tmpl"]

/-- The built-in templates of the targets that a pattern describes. -/
def templateNames (target : Bytes) : List Bytes :=
  templatePaths.filter (Glob.matchesPath ("templates/" ++ target ++ "/*.tmpl"))

/-- The files of a caller that hold templates of a target, in order, with their names. -/
def overlayFiles (target : Bytes) (files : FileMap) : List (Bytes × Bytes) :=
  let own := files.filterMap fun (path, content) =>
    if Bytes.startsWith path (target ++ "/") then
      let name := path.drop (target.length + 1)
      if !name.contains 0x2F && Bytes.endsWith name ".tmpl" then some (name, content) else none
    else none
  own.mergeSort fun f g => Bytes.le f.1 g.1

/-- The templates of a target: the built-in ones, and those of the caller in front of them. -/
def library (target : Bytes) (builtins : Template.Library) (o : Options) :
    Except BindingError Template.Library :=
  (overlayFiles target (o.templates.getD [])).foldlM
    (fun l (name, text) => match l.overlay? name text with
      | some l => .ok l
      | none => .error ⟨target, target, .template (name ++ ": malformed template")⟩)
    builtins

/-- Fills in a template of a target. -/
def fillTemplate (target : Bytes) (l : Template.Library) (name : Bytes) (d : Template.Data) :
    Except BindingError Bytes :=
  match Template.render l name d with
  | .ok text => .ok text
  | .error _ => .error ⟨target, name, .template "cannot be filled in"⟩

/-! ## §3 Targets -/

/-- The targets that are built in. -/
inductive Target where
  | go
  | rust
deriving DecidableEq, Repr

namespace Target

/-- All targets, in the order of their names. -/
def all : List Target := [.go, .rust]

/-- The name of a target. -/
def name : Target → Bytes
  | .go => GoView.target
  | .rust => RustView.target

/-- The target of a name. -/
def ofName? (n : Bytes) : Option Target := all.find? (·.name == n)

/-- What a target renders. -/
def render (t : Target) (s : Schema) (o : Options) : Except BindingError (List OutputFile) :=
  match t with
  | .go => do
    o.check GoView.target ["package", "rpc_import"]
    let view ← GoView.ofSchema s o
    let l ← library GoView.target GoView.builtins o
    let text ← fillTemplate GoView.target l GoView.fileTemplate view.toData
    match GoLayout.format? text with
    | some text => return [⟨GoView.fileName s, text⟩]
    | none => throw ⟨GoView.target, GoView.fileName s, .format⟩
  | .rust => do
    o.check RustView.target ["runtime"]
    let view ← RustView.ofSchema s o
    let l ← library RustView.target RustView.builtins o
    let text ← fillTemplate RustView.target l RustView.fileTemplate view.toData
    return [⟨RustView.fileName s, text⟩]

end Target

/-- Generates the files of a schema for the target of a name. -/
def generate (s : Schema) (target : Bytes) (o : Options) :
    Except BindingError (List OutputFile) :=
  match Target.ofName? target with
  | none => .error ⟨target, [], .unknownTarget (Target.all.map Target.name)⟩
  | some t => do collect target (← t.render s o)

end Idl.Bindings
