import Idl.Numeric.Reading
import Idl.Text.Quote
import Idl.Text.Rows

/-!
# Flags

The words of a command line are flags with their values, and arguments; they may be mixed. A flag
has a long name and sometimes a short one of one letter. After a double hyphen there are only
arguments.

* §1 flags and what they take, §2 failures, §3 values, §4 reading a command line.
-/

namespace Idl.Command

/-! ## §1 Flags -/

/-- What a flag takes. -/
inductive FlagKind where
  | text
  /-- A truth value; the flag alone means yes. -/
  | toggle
  /-- Items between commas; further flags add more. -/
  | list
  /-- Keys with values between commas; further flags add more. -/
  | pairs
deriving DecidableEq, Repr

/-- A flag that a command knows. -/
structure Flag where
  name : Bytes
  short : Option UInt8 := none
  kind : FlagKind := .text
  /-- What counts if the flag is not given. -/
  fallback : Bytes := []
  usage : Bytes
deriving DecidableEq, Repr

/-- The value of a flag. -/
inductive Setting where
  | text (t : Bytes)
  | toggle (b : Bool)
  | list (l : List Bytes)
  | pairs (l : List (Bytes × Bytes))
deriving DecidableEq, Repr

/-- The flags that are given, by their long names. -/
abbrev Given := List (Bytes × Setting)

namespace Given

/-- The text of a flag. -/
def text (g : Given) (name : Bytes) : Bytes :=
  match g.lookup name with
  | some (.text t) => t
  | _ => []

/-- Whether a flag says yes. -/
def toggle (g : Given) (name : Bytes) : Bool := g.lookup name == some (.toggle true)

/-- The items of a flag. -/
def list (g : Given) (name : Bytes) : List Bytes :=
  match g.lookup name with
  | some (.list l) => l
  | _ => []

/-- The keys and values of a flag. -/
def pairs (g : Given) (name : Bytes) : List (Bytes × Bytes) :=
  match g.lookup name with
  | some (.pairs l) => l
  | _ => []

/-- Sets the value of a flag. -/
def set (g : Given) (name : Bytes) (s : Setting) : Given := (name, s) :: g.filter (·.1 != name)

end Given

/-! ## §2 Failures -/

/-- Why a text is no value. -/
inductive ValueFault where
  | notTruth
  | record (f : Csv.Fault)
  | notPair (t : Bytes)
deriving DecidableEq, Repr

/-- Why a command line cannot be read. -/
inductive FlagError where
  /-- Help is wanted of a program that has no flag for it. -/
  | help
  | malformed (word : Bytes)
  | unknownName (name : Bytes)
  | unknownLetter (c : UInt8) (letters : Bytes)
  | noValue (word : Bytes)
  | noLetterValue (c : UInt8) (letters : Bytes)
  | badValue (flag : Flag) (value : Bytes) (fault : ValueFault)
deriving DecidableEq, Repr

/-- A letter between single quotes. -/
def quoteLetter (c : UInt8) : Bytes :=
  let inner : Bytes := match c with
    | 0x22 => "\""
    | 0x27 => [0x5C, 0x27]
    | _ => Quote.glyph (.char (Char.ofNat c.toNat))
  0x27 :: (inner ++ [0x27])

/-- A flag as it is shown, with its short name first. -/
def Flag.shown (f : Flag) : Bytes :=
  match f.short with
  | some c => "-" ++ [c] ++ ", --" ++ f.name
  | none => "--" ++ f.name

/-- The message for a text that is no value. -/
def ValueFault.message (value : Bytes) : ValueFault → Bytes
  | .notTruth => ReadFault.message "ParseBool" value .form
  | .record f => f.message
  | .notPair t => t ++ " must be formatted as key=value"

/-- The message for a command line that cannot be read. -/
def FlagError.message : FlagError → Bytes
  | .help => "pflag: help requested"
  | .malformed word => "bad flag syntax: " ++ word
  | .unknownName name => "unknown flag: --" ++ name
  | .unknownLetter c letters => "unknown shorthand flag: " ++ quoteLetter c ++ " in -" ++ letters
  | .noValue word => "flag needs an argument: " ++ word
  | .noLetterValue c letters => "flag needs an argument: " ++ quoteLetter c ++ " in -" ++ letters
  | .badValue flag value fault =>
    "invalid argument " ++ quote value ++ " for " ++ quote flag.shown ++ " flag: "
      ++ fault.message value

/-! ## §3 Values -/

/-- Cuts a text at the first equals sign. -/
def splitPair? (t : Bytes) : Option (Bytes × Bytes) :=
  let k := t.takeWhile (· != 0x3D)
  match t.drop k.length with
  | _ :: v => some (k, v)
  | [] => none

/-- Adds keys with their values; a later value replaces an earlier one. -/
def mergePairs (old new : List (Bytes × Bytes)) : List (Bytes × Bytes) :=
  new.foldl (fun l (k, v) => l.filter (·.1 != k) ++ [(k, v)]) old

/-- The items of a list. -/
def readItems (t : Bytes) : Except ValueFault (List Bytes) :=
  if t.isEmpty then .ok [] else (Csv.readRecord t).mapError .record

/-- The keys and values of a text. One pair alone may stand in quotes and may contain commas. -/
def readPairs (t : Bytes) : Except ValueFault (List (Bytes × Bytes)) := do
  let pieces ← match t.count 0x3D with
    | 0 => throw (.notPair t)
    | 1 => pure [Bytes.trimWhile (· == 0x22) t]
    | _ => (Csv.readRecord t).mapError .record
  pieces.mapM fun p => match splitPair? p with
    | some kv => .ok kv
    | none => .error (.notPair p)

/-- Reads the value of a flag; lists and pairs add to those that are given already. -/
def Flag.read (f : Flag) (value : Bytes) (g : Given) : Except ValueFault Setting :=
  match f.kind with
  | .text => .ok (.text value)
  | .toggle => ((readBool value).mapError fun _ => .notTruth).map .toggle
  | .list => (readItems value).map fun l => .list (g.list f.name ++ l)
  | .pairs => (readPairs value).map fun l => .pairs (mergePairs (g.pairs f.name) l)

/-- Gives a flag a value. -/
def Flag.set (f : Flag) (value : Bytes) (g : Given) : Except FlagError Given :=
  match f.read value g with
  | .ok s => .ok (g.set f.name s)
  | .error fault => .error (.badValue f value fault)

/-! ## §4 Reading a command line -/

/-- The text that a toggle has if it stands alone. -/
def toggleValue : Bytes := "true"

/-- A flag that waits for its value in the next word, and the failure if there is none. -/
abbrev Waiting := Option (Flag × FlagError)

/-- Reads the letters after a single hyphen. -/
def readLetters (flags : List Flag) (g : Given) : Bytes → Except FlagError (Given × Waiting)
  | [] => .ok (g, none)
  | c :: r =>
    match flags.find? (·.short == some c) with
    | none => .error (if c == 0x68 then .help else .unknownLetter c (c :: r))
    | some f =>
      if r.head? == some 0x3D && 1 < r.length then do return (← f.set (r.drop 1) g, none)
      else if f.kind == .toggle then do readLetters flags (← f.set toggleValue g) r
      else if r.isEmpty then .ok (g, some (f, .noLetterValue c [c]))
      else do return (← f.set r g, none)

/-- Reads a word that starts with two hyphens. -/
def readName (flags : List Flag) (g : Given) (word : Bytes) :
    Except FlagError (Given × Waiting) :=
  let body := word.drop 2
  if body.isEmpty || body.head? == some 0x2D || body.head? == some 0x3D then
    .error (.malformed word)
  else
    let name := body.takeWhile (· != 0x3D)
    match flags.find? (·.name == name) with
    | none => .error (if name == ("help" : Bytes) then .help else .unknownName name)
    | some f =>
      if name.length < body.length then do return (← f.set (body.drop (name.length + 1)) g, none)
      else if f.kind == .toggle then do return (← f.set toggleValue g, none)
      else .ok (g, some (f, .noValue word))

/-- Reads words one after the other; `args` holds the arguments so far, the last first. -/
def readWords (flags : List Flag) (waiting : Waiting) (g : Given) (args : List Bytes) :
    List Bytes → Except FlagError (Given × List Bytes)
  | [] => match waiting with
    | some (_, e) => .error e
    | none => .ok (g, args.reverse)
  | w :: r => match waiting with
    | some (f, _) => do readWords flags none (← f.set w g) args r
    | none =>
      if w.length < 2 || w.head? != some 0x2D then readWords flags none g (w :: args) r
      else if w == ("--" : Bytes) then .ok (g, args.reverse ++ r)
      else do
        let (g, waiting) ← if Bytes.startsWith w "--" then readName flags g w
          else readLetters flags g (w.drop 1)
        readWords flags waiting g args r

/-- Reads a command line: the flags that are given, and the arguments. -/
def readCommandLine (flags : List Flag) (words : List Bytes) :
    Except FlagError (Given × List Bytes) :=
  readWords flags none [] [] words

end Idl.Command
