import Idl.Bytes

/-!
# Paths and trees of files

What can be said about a path from its text alone. Components are separated by slashes; `.` stands
for the directory itself and `..` for the one above.

A tree says what stands at a path, which is given by its components from the root: a directory, a
file with its content, or nothing. The root is always a directory.

* §1 paths and their plain form, §2 parts of a path, §3 paths from one place to another,
* §4 trees, §5 changes, §6 what lies below a directory.
-/

namespace Idl.Files

/-- The octet between components. -/
def separator : UInt8 := 0x2F

/-- A path: whether it starts at the root, and its components. -/
structure Path where
  rooted : Bool
  parts : List Bytes
deriving DecidableEq, Repr

namespace Path

/-! ## §1 Paths and their plain form -/

/-- The path that a text gives. -/
def ofText (t : Bytes) : Path := ⟨t.head? == some separator, Bytes.split separator t⟩

/-- The text of a path; a path without components is the directory itself. -/
def text (p : Path) : Bytes :=
  let joined := Bytes.join [separator] p.parts
  if p.rooted then separator :: joined
  else if p.parts.isEmpty then "." else joined

/-- Adds a component to those of a plain path, the last of which stands first. A step up takes the
last component back, if there is one to take back. -/
def push (rooted : Bool) (stack : List Bytes) (c : Bytes) : List Bytes :=
  if c.isEmpty || c == "." then stack
  else if c == ".." then
    match stack with
    | [] => if rooted then [] else [c]
    | top :: below => if top == ".." then c :: stack else below
  else c :: stack

/-- The plain form of a path: no empty components, no `.`, and `..` at the start only. -/
def plain (p : Path) : Path := ⟨p.rooted, (p.parts.foldl (push p.rooted) []).reverse⟩

end Path

/-- The text of the plain form of a path. -/
def plainText (t : Bytes) : Bytes := (Path.ofText t).plain.text

/-- The plain form of several pieces after each other; empty pieces do not count. -/
def joinTexts (pieces : List Bytes) : Bytes :=
  match pieces.filter (!·.isEmpty) with
  | [] => []
  | l => plainText (Bytes.join [separator] l)

/-! ## §2 Parts of a path -/

/-- The text up to the last separator. -/
def upToSeparator (t : Bytes) : Bytes := (t.reverse.dropWhile (· != separator)).reverse

/-- The text after the last separator. -/
def afterSeparator (t : Bytes) : Bytes := (t.reverse.takeWhile (· != separator)).reverse

/-- The directory that a path lies in. -/
def parentText (t : Bytes) : Bytes := plainText (upToSeparator t)

/-- The last component of a path. -/
def baseName (t : Bytes) : Bytes :=
  if t.isEmpty then "."
  else match afterSeparator (Bytes.dropTailWhile (· == separator) t) with
    | [] => [separator]
    | b => b

/-- The last dot of the last component and what follows it; nothing if there is no dot. -/
def extension (t : Bytes) : Bytes :=
  let name := (afterSeparator t).reverse
  if name.contains 0x2E then (0x2E :: (name.takeWhile (· != 0x2E)).reverse) else []

/-- Whether a path starts at the root. -/
def isRooted (t : Bytes) : Bool := t.head? == some separator

/-- The entries of a list of directories, which are separated by colons. -/
def splitList (t : Bytes) : List Bytes := if t.isEmpty then [] else Bytes.split 0x3A t

/-! ## §3 Paths from one place to another -/

/-- The components of a path, seen from a working directory; they start at the root. -/
def absolute (cwd : List Bytes) (t : Bytes) : List Bytes :=
  let p := Path.ofText t
  (Path.plain ⟨true, if p.rooted then p.parts else cwd ++ p.parts⟩).parts

/-- The step to the directory above. -/
def up : Bytes := ".."

/-- The steps that lead from one directory to a target. -/
def stepsBetween : (dir target : List Bytes) → List Bytes
  | a :: dir, b :: target =>
    if a == b then stepsBetween dir target
    else (a :: dir).map (fun _ => up) ++ b :: target
  | dir, target => dir.map (fun _ => up) ++ target

/-- The text of the path that leads from one directory to a target. -/
def relativeText (dir target : List Bytes) : Bytes := Path.text ⟨false, stepsBetween dir target⟩

/-! ## §4 Trees -/

/-- What can stand at a path. -/
inductive Node where
  | directory
  | file (content : Bytes)
deriving DecidableEq, Repr

/-- A tree of files. The entry for a path is the first one. -/
structure Tree where
  entries : List (List Bytes × Node) := []
deriving Repr

namespace Tree

/-- What stands at a path. -/
def get? (t : Tree) (p : List Bytes) : Option Node :=
  if p = [] then some .directory else t.entries.lookup p

/-! ## §5 Changes -/

/-- Puts something at a path. -/
def put (t : Tree) (p : List Bytes) (n : Node) : Tree :=
  ⟨(p, n) :: t.entries.filter (·.1 != p)⟩

/-- Takes away what stands at a path. -/
def erase (t : Tree) (p : List Bytes) : Tree := ⟨t.entries.filter (·.1 != p)⟩

/-- Takes away what stands at a path or below it. -/
def eraseBelow (t : Tree) (p : List Bytes) : Tree := ⟨t.entries.filter (!p.isPrefixOf ·.1)⟩

theorem lookup_filter_of_ne {p q : List Bytes} (h : q ≠ p) (l : List (List Bytes × Node)) :
    (l.filter (·.1 != p)).lookup q = l.lookup q := by
  induction l with
  | nil => rfl
  | cons e r ih =>
    obtain ⟨k, n⟩ := e
    by_cases he : k = p
    · have hq : (q == k) = false := by simp [he, h]
      rw [List.filter_cons_of_neg (by simp [he]), List.lookup_cons, hq, ih]
    · rw [List.filter_cons_of_pos (by simp [he]), List.lookup_cons, List.lookup_cons, ih]

theorem lookup_filter_self (p : List Bytes) (l : List (List Bytes × Node)) :
    (l.filter (·.1 != p)).lookup p = none := by
  induction l with
  | nil => rfl
  | cons e r ih =>
    obtain ⟨k, n⟩ := e
    by_cases he : k = p
    · rw [List.filter_cons_of_neg (by simp [he]), ih]
    · have hq : (p == k) = false := by simp [Ne.symm he]
      rw [List.filter_cons_of_pos (by simp [he]), List.lookup_cons, hq, ih]

@[simp]
theorem get?_root (t : Tree) : t.get? [] = some .directory := by simp [get?]

theorem get?_put_self (t : Tree) {p : List Bytes} (n : Node) (h : p ≠ []) :
    (t.put p n).get? p = some n := by
  simp [get?, put, h]

theorem get?_put_of_ne (t : Tree) {p q : List Bytes} (n : Node) (h : q ≠ p) :
    (t.put p n).get? q = t.get? q := by
  have hq : (q == p) = false := by simp [h]
  simp [get?, put, List.lookup_cons, hq, lookup_filter_of_ne h]

theorem get?_erase_self (t : Tree) {p : List Bytes} (h : p ≠ []) : (t.erase p).get? p = none := by
  simp [get?, erase, h, lookup_filter_self]

theorem get?_erase_of_ne (t : Tree) {p q : List Bytes} (h : q ≠ p) :
    (t.erase p).get? q = t.get? q := by
  simp [get?, erase, lookup_filter_of_ne h]

/-! ## §6 What lies below a directory -/

/-- Whether anything stands directly or indirectly below a path. -/
def isInhabited (t : Tree) (p : List Bytes) : Bool :=
  t.entries.any fun e => p.isPrefixOf e.1 && p.length < e.1.length

/-- The files below a path, by the rest of their paths. -/
def filesBelow (t : Tree) (p : List Bytes) : List (Bytes × Bytes) :=
  t.entries.filterMap fun
    | (q, .file content) =>
      if p.isPrefixOf q then some (Bytes.join [separator] (q.drop p.length), content) else none
    | (_, .directory) => none

end Tree

end Idl.Files
