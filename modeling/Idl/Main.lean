import Idl.Command

/-!
# The program

The outer layer of the command line: it takes a picture of the files that a command can reach, lets
the command run on it, and makes the changes real.
-/

namespace Idl.Main

open Command Files

/-- How deep directories are followed. -/
def maxDepth : Nat := 64

/-- The text of a path from the root. -/
def rootedText (p : List Bytes) : String := ((Path.text ⟨true, p⟩).toString?).getD "/"

/-- Adds a directory and those that it lies in. -/
def addAncestors (t : Tree) (p : List Bytes) : Tree :=
  (List.range p.length).foldl
    (fun t n => if (t.get? (p.take (n + 1))).isNone then t.put (p.take (n + 1)) .directory else t) t

/-- Whether a name is hidden. -/
def isHidden (name : Bytes) : Bool := name.head? == some 0x2E

/-- Adds what stands at a path, and all below it. Hidden directories are noted and not followed, and
of what is neither a directory nor a file with octets only the name counts. -/
def picture (fuel : Nat) (t : Tree) (p : List Bytes) : IO Tree := do
  match fuel with
  | 0 => return t
  | fuel + 1 =>
    let path := System.mkFilePath [rootedText p]
    if ← path.isDir then
      let mut t := addAncestors t p
      for e in ← path.readDir do
        let name := Bytes.ofString e.fileName
        if isHidden name && (← e.path.isDir) then t := addAncestors t (p ++ [name])
        else t ← picture fuel t (p ++ [name])
      return t
    else if ← path.pathExists then
      let content ← if (← path.metadata).type == .file then IO.FS.readBinFile path else pure .empty
      return (addAncestors t p.dropLast).put p (.file content.toList)
    else return t

/-- The texts of a command line that may name files. -/
def candidates (words : List Bytes) : List Bytes :=
  words ++ words.filterMap fun w => (splitPair? w).map (·.2)

/-- Adds what a text names, if it is not there yet or may not have been followed. -/
def addNamed (d : Disk) (name : Bytes) : IO Disk := do
  let p := absolute d.cwd name
  if (d.look name).isOk && !p.any isHidden then return d
  return { d with tree := ← picture maxDepth d.tree p }

/-- The schemas of the projects that may be meant. -/
def schemasOf (d : Disk) (dirs : List Bytes) : List Bytes :=
  dirs.filterMap fun dir => match Manifest.load? d dir with
    | .ok (some m) => some (m.interfacePath dir)
    | _ => none

/-- The variables that count. -/
def variableNames : List String :=
  ["HOME", "XDG_CONFIG_HOME", "XDG_DATA_HOME", "MIDL_LOG", "MIDL_LOG_LEVEL", "MIDL_OUTPUT",
   "MIDL_CODEGEN", "MIDL_CODEGEN_LANGUAGES", "MIDL_CODEGEN_PLUGIN_PATH", "MIDL_CODEGEN_TEMPLATES"]

/-- The files and variables of the program. -/
def surroundings (words : List Bytes) : IO (Disk × Variables) := do
  let vars ← variableNames.filterMapM fun n => do
    return (← IO.getEnv n).map fun v => (Bytes.ofString n, Bytes.ofString v)
  let cwd := (Path.ofText (Bytes.ofString (← IO.currentDir).toString)).plain.parts
  let mut d : Disk := ⟨← picture maxDepth {} cwd, cwd⟩
  let output := Settings.text { vars := vars } .output
  let named := Bytes.ofString "." :: output :: candidates words
  for n in named ++ configDirectories d vars ++ splitList (defaultPluginPath vars) do
    d ← addNamed d n
  for n in schemasOf d named do
    d ← addNamed d n
  return (d, vars)

/-- Makes the changes between two trees real. -/
def commit (before after : Tree) : IO Unit := do
  for (p, n) in after.entries.mergeSort fun a b => a.1.length ≤ b.1.length do
    if before.get? p != some n then
      match n with
      | .directory => IO.FS.createDirAll (rootedText p)
      | .file content => IO.FS.writeBinFile (rootedText p) ⟨content.toArray⟩
  for (p, n) in before.entries.mergeSort fun a b => b.1.length ≤ a.1.length do
    if (after.get? p).isNone then
      match n with
      | .directory => IO.FS.removeDir (rootedText p)
      | .file _ => IO.FS.removeFile (rootedText p)

end Idl.Main

/-- Runs the command line. -/
def main (args : List String) : IO UInt32 := do
  let words := args.map Idl.Bytes.ofString
  let (disk, vars) ← Idl.Main.surroundings words
  let o := Idl.Command.run ⟨disk, vars, Idl.Plugin.Engine.minimal⟩ words
  Idl.Main.commit disk.tree o.disk.tree
  (← IO.getStdout).write ⟨o.stdout.toArray⟩
  (← IO.getStderr).write ⟨o.stderr.toArray⟩
  return o.code.toUInt32
