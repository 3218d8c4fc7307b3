import Idl.Text.Utf8

/-!
# Patterns of file names

In a pattern an asterisk stands for any characters, a question mark for one, and brackets for one of
a set. A pattern is for one component of a path.
-/

namespace Idl.Glob

/-- A part of a pattern. -/
inductive Part where
  /-- Any characters. -/
  | many
  /-- Any one character. -/
  | one
  | char (c : Char)
  /-- A character in one of the ranges, or in none of them. -/
  | set (negated : Bool) (ranges : List (Char × Char))
deriving DecidableEq, Repr

/-- Where the reading of a set stands. -/
inductive SetState where
  /-- A range may start, or the set may end. -/
  | ready
  /-- A range has its first character. -/
  | from (lo : Char)
  /-- A range needs its last character. -/
  | to (lo : Char)
deriving DecidableEq, Repr

/-- A set that is being read. -/
structure OpenSet where
  negated : Bool
  ranges : List (Char × Char)
  state : SetState

/-- Adds a character to a set. -/
def OpenSet.put (s : OpenSet) (c : Char) : OpenSet :=
  match s.state with
  | .ready => { s with state := .from c }
  | .from lo => { s with ranges := (lo, lo) :: s.ranges, state := .from c }
  | .to lo => { s with ranges := (lo, c) :: s.ranges, state := .ready }

/-- The ranges of a set that ends here; there is at least one. -/
def OpenSet.finish? (s : OpenSet) : Option Part :=
  match s.state with
  | .ready => if s.ranges.isEmpty then none else some (.set s.negated s.ranges)
  | .from lo => some (.set s.negated ((lo, lo) :: s.ranges))
  | .to _ => none

/-- Reads a pattern; `escaped` says that the next character stands for itself. -/
def partsFrom? (set : Option OpenSet) (escaped : Bool) : List Char → Option (List Part)
  | [] => if set.isNone && !escaped then some [] else none
  | c :: r =>
    match set with
    | none =>
      if escaped then do return .char c :: (← partsFrom? none false r)
      else if c == '\\' then partsFrom? none true r
      else if c == '*' then do return .many :: (← partsFrom? none false r)
      else if c == '?' then do return .one :: (← partsFrom? none false r)
      else if c == '[' then partsFrom? (some ⟨r.head? == some '^', [], .ready⟩) false r
      else do return .char c :: (← partsFrom? none false r)
    | some s =>
      if escaped then partsFrom? (some (s.put c)) false r
      else if c == '^' && s.negated && s.ranges.isEmpty && s.state == .ready then
        partsFrom? set false r
      else if c == '\\' then partsFrom? set true r
      else if c == ']' then do return (← s.finish?) :: (← partsFrom? none false r)
      else if c == '-' then match s.state with
        | .from lo => partsFrom? (some { s with state := .to lo }) false r
        | _ => none
      else partsFrom? (some (s.put c)) false r

/-- The ends of a text, from the whole of it to nothing. -/
def suffixes : List Char → List (List Char)
  | [] => [[]]
  | c :: r => (c :: r) :: suffixes r

/-- Whether a name is of the form that the parts describe. -/
def accepts : List Part → List Char → Bool
  | [], s => s.isEmpty
  | .many :: p, s => (suffixes s).any (accepts p)
  | .one :: p, _ :: s => accepts p s
  | .char c :: p, d :: s => c == d && accepts p s
  | .set negated ranges :: p, d :: s =>
    (ranges.any fun (lo, hi) => lo ≤ d && d ≤ hi) != negated && accepts p s
  | _, [] => false

/-- Whether a name matches a pattern; a malformed pattern matches nothing. -/
def matchesName (pattern name : Bytes) : Bool :=
  match partsFrom? none false (Utf8.chars pattern) with
  | none => false
  | some parts => accepts parts (Utf8.chars name)

/-- Whether a path matches a pattern, component by component. -/
def matchesPath (pattern path : Bytes) : Bool :=
  let patterns := Bytes.split 0x2F pattern
  let names := Bytes.split 0x2F path
  patterns.length == names.length && (patterns.zip names).all fun (p, n) => matchesName p n

end Idl.Glob
