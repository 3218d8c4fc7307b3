import Idl.Files.Tree

/-!
# Access to files

A disk is a tree that is seen from a working directory, so that files can be named by texts. What
goes wrong is told with the text that was given.

* §1 failures, §2 finding a path, §3 looking, §4 changing.
-/

namespace Idl.Files

/-! ## §1 Failures -/

/-- What can be wrong with a path. -/
inductive Fault where
  | missing
  | notDirectory
  | isDirectory
  | notEmpty
  | nameTooLong
  | invalid
deriving DecidableEq, Repr

/-- The words for a fault. -/
def Fault.message : Fault → Bytes
  | .missing => "no such file or directory"
  | .notDirectory => "not a directory"
  | .isDirectory => "is a directory"
  | .notEmpty => "directory not empty"
  | .nameTooLong => "file name too long"
  | .invalid => "invalid argument"

/-- What is done with a path. -/
inductive Attempt where
  | opening
  | reading
  | inspecting
  | making
  | removing
deriving DecidableEq, Repr

/-- The word for what is done. -/
def Attempt.word : Attempt → Bytes
  | .opening => "open"
  | .reading => "read"
  | .inspecting => "stat"
  | .making => "mkdir"
  | .removing => "remove"

/-- Something that could not be done with a path. -/
structure Error where
  attempt : Attempt
  path : Bytes
  fault : Fault
deriving DecidableEq, Repr

/-- The message for something that could not be done. -/
def Error.message (e : Error) : Bytes := e.attempt.word ++ " " ++ e.path ++ ": " ++ e.fault.message

/-! ## §2 Finding a path -/

/-- A tree and the directory that paths start from unless they start at the root. -/
structure Disk where
  tree : Tree
  cwd : List Bytes
deriving Repr

namespace Disk

/-- The longest name that a component may have. -/
def maxName : Nat := 255

/-- Follows components from a place. All that is passed must be a directory; where the way ends
there may be nothing. -/
def follow (t : Tree) (place : List Bytes) : List Bytes → Except Fault (List Bytes)
  | [] => .ok place
  | c :: rest =>
    match t.get? place with
    | none => .error .missing
    | some (.file _) => .error .notDirectory
    | some .directory =>
      if c.isEmpty || c == "." then follow t place rest
      else if c == ".." then follow t place.dropLast rest
      else if maxName < c.length then .error .nameTooLong
      else follow t (place ++ [c]) rest

/-- The place that a text names. -/
def find (d : Disk) (path : Bytes) : Except Fault (List Bytes) :=
  if path.isEmpty then .error .missing
  else if path.contains 0 then .error .invalid
  else follow d.tree (if isRooted path then [] else d.cwd) (Bytes.split separator path)

/-- What a text names. -/
def look (d : Disk) (path : Bytes) : Except Fault Node := do
  match d.tree.get? (← d.find path) with
  | some n => return n
  | none => throw .missing

/-! ## §3 Looking -/

/-- Whether a text names a directory. -/
def isDirectory (d : Disk) (path : Bytes) : Bool := d.look path matches .ok .directory

/-- Whether a text names a file. -/
def isFile (d : Disk) (path : Bytes) : Bool := d.look path matches .ok (.file _)

/-- What a text names. -/
def inspect (d : Disk) (path : Bytes) : Except Error Node :=
  (d.look path).mapError fun f => ⟨.inspecting, path, f⟩

/-- The content of a file. -/
def read (d : Disk) (path : Bytes) : Except Error Bytes :=
  match d.look path with
  | .ok (.file content) => .ok content
  | .ok .directory => .error ⟨.reading, path, .isDirectory⟩
  | .error f => .error ⟨.opening, path, f⟩

/-- Whether there is anything in a directory. -/
def isInhabited (d : Disk) (path : Bytes) : Except Error Bool :=
  match d.find path with
  | .error f => .error ⟨.opening, path, f⟩
  | .ok p => match d.tree.get? p with
    | some .directory => .ok (d.tree.isInhabited p)
    | some (.file _) => .error ⟨.opening, path, .notDirectory⟩
    | none => .error ⟨.opening, path, .missing⟩

/-- The files below a directory, by their paths from there. -/
def filesBelow (d : Disk) (path : Bytes) : List (Bytes × Bytes) :=
  match d.find path with
  | .ok p => d.tree.filesBelow p
  | .error _ => []

/-! ## §4 Changing -/

/-- Makes sure that one directory exists; the one that it lies in has to. -/
def makeDirectory (d : Disk) (path : Bytes) : Except Error Disk :=
  match d.find path with
  | .error f => .error ⟨.making, path, f⟩
  | .ok p => match d.tree.get? p with
    | some .directory => .ok d
    | some (.file _) => .error ⟨.making, path, .notDirectory⟩
    | none => .ok { d with tree := d.tree.put p .directory }

/-- The initial parts of a path that end with a component, the shortest first. -/
def ancestry (path : Bytes) : List Bytes :=
  let parts := Bytes.split separator path
  ((List.range parts.length).map fun n => Bytes.join [separator] (parts.take (n + 1))).filter
    fun t => !(t.isEmpty || Bytes.endsWith t [separator])

/-- Makes sure that a directory and all that it lies in exist. -/
def makeDirectories (d : Disk) (path : Bytes) : Except Error Disk :=
  (ancestry path).foldlM makeDirectory d

/-- Writes a file anew. -/
def write (d : Disk) (path content : Bytes) : Except Error Disk :=
  let trimmed := Bytes.dropTailWhile (· == separator) path
  match d.find (if trimmed.isEmpty then path else trimmed) with
  | .error f => .error ⟨.opening, path, f⟩
  | .ok p => match d.tree.get? p with
    | some .directory => .error ⟨.opening, path, .isDirectory⟩
    | some (.file _) =>
      if trimmed != path then .error ⟨.opening, path, .notDirectory⟩
      else .ok { d with tree := d.tree.put p (.file content) }
    | none =>
      if trimmed != path then .error ⟨.opening, path, .isDirectory⟩
      else .ok { d with tree := d.tree.put p (.file content) }

/-- Removes a file or an empty directory. -/
def remove (d : Disk) (path : Bytes) : Except Error Disk :=
  match d.find path with
  | .error f => .error ⟨.removing, path, f⟩
  | .ok p => match d.tree.get? p with
    | none => .error ⟨.removing, path, .missing⟩
    | some (.file _) => .ok { d with tree := d.tree.erase p }
    | some .directory =>
      if d.tree.isInhabited p then .error ⟨.removing, path, .notEmpty⟩
      else .ok { d with tree := d.tree.erase p }

end Disk

end Idl.Files
