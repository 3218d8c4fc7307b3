import Idl.Bindings

/-!
# Backends

A backend is whatever renders files for a schema; it need not be a built-in target. It hands over a
slice of memory that it may go on using, so that its files are put in order and checked in a copy.

* §1 failures, §2 slices of files, §3 generating with a backend.
-/

namespace Idl.Bindings

/-! ## §1 Failures -/

/-- What a backend can fail with: a failure of code generation, or any other one. Both can wrap
failures that led to them. -/
inductive RenderFailure where
  | generation (e : BindingError) (wrapped : List RenderFailure)
  | other (message : Bytes) (wrapped : List RenderFailure)

namespace RenderFailure

/-- What a failure wraps. -/
def wrapped : RenderFailure → List RenderFailure
  | generation _ wrapped => wrapped
  | other _ wrapped => wrapped

/-- The text of a failure. -/
def text : RenderFailure → Bytes
  | generation e _ => e.render
  | other message _ => message

mutual

/-- The first failure of code generation that a failure is or wraps. -/
def generation? : RenderFailure → Option BindingError
  | generation e _ => some e
  | other _ wrapped => firstGeneration? wrapped

/-- The first failure of code generation that one of some failures is or wraps. -/
def firstGeneration? : List RenderFailure → Option BindingError
  | [] => none
  | f :: r => f.generation?.or (firstGeneration? r)

end

end RenderFailure

/-! ## §2 Slices of files -/

/-- The blocks of files in memory, in the order in which they were set aside. -/
abbrev Blocks := List (List OutputFile)

/-- A part of a block. Several slices can share a block. -/
structure Slice where
  block : Nat
  start : Nat
  length : Nat
deriving DecidableEq, Repr

namespace Slice

/-- The block that a slice is a part of. -/
def whole (s : Slice) (m : Blocks) : List OutputFile := m[s.block]?.getD []

/-- The files of a slice. -/
def read (s : Slice) (m : Blocks) : List OutputFile := ((s.whole m).drop s.start).take s.length

/-- Puts files in place of those of a slice, for all slices that share the block. -/
def write (s : Slice) (files : List OutputFile) (m : Blocks) : Blocks :=
  m.set s.block
    ((s.whole m).take s.start ++ files ++ (s.whole m).drop (s.start + files.length))

/-- Sets a block aside for files. -/
def allocate (files : List OutputFile) : StateM Blocks Slice :=
  modifyGet fun m => (⟨m.length, 0, files.length⟩, m ++ [files])

/-- A copy of a slice in a block of its own. -/
def clone (s : Slice) : StateM Blocks Slice := do allocate (s.read (← get))

/-- Puts the files of a slice in the order of their paths, where they are. -/
def sort (s : Slice) : StateM Blocks Unit :=
  modify fun m => s.write ((s.read m).mergeSort fun f g => Bytes.le f.path g.path) m

end Slice

/-! ## §3 Generating with a backend -/

/-- What a backend hands over. Next to a failure, the files do not count. -/
structure Rendered where
  files : Slice
  failure : Option RenderFailure

/-- What renders files for a schema. It may remember the slice that it hands over. -/
structure Backend where
  name : Bytes
  render : Schema → Options → StateM Blocks Rendered

/-- A backend that sets a new block aside for what it renders. -/
def Backend.ofFiles (name : Bytes)
    (render : Schema → Options → Except BindingError (List OutputFile)) : Backend where
  name := name
  render s o := do
    match render s o with
    | .error e => return ⟨← Slice.allocate [], some (.generation e [])⟩
    | .ok files => return ⟨← Slice.allocate files, none⟩

/-- Generates the files of a schema with a backend. A failure of another kind becomes one of code
generation. -/
def generateWith (b : Backend) (s : Schema) (o : Options) :
    StateM Blocks (Except RenderFailure Slice) := do
  let rendered ← b.render s o
  match rendered.failure with
  | some e =>
    match e.generation? with
    | some _ => return .error e
    | none => return .error (.generation ⟨b.name, [], .template e.text⟩ [e])
  | none =>
    let files ← rendered.files.clone
    files.sort
    match pathFault? b.name none (files.read (← get)) with
    | some e => return .error (.generation e [])
    | none => return .ok files

end Idl.Bindings
