import Idl.Json
import Idl.Text.Case
import Idl.Text.Quote

/-!
# The console

What a command prints: results on standard output, and on standard error diagnostics and a log. The
log has one line for each event that is important enough; a line has the event's weight, its message
and named values.

* §1 events, §2 how much is logged, §3 the console.
-/

namespace Idl.Command

/-! ## §1 Events -/

/-- How important an event is. -/
inductive Weight where
  | debug
  | info
  | warn
  | error
  | fatal
deriving DecidableEq, Repr

namespace Weight

/-- The place of a weight on the scale of levels. -/
def rank : Weight → Int
  | .debug => 0
  | .info => 1
  | .warn => 2
  | .error => 3
  | .fatal => 4

/-- The letters that a line starts with. -/
def tag : Weight → Bytes
  | .debug => "DBG"
  | .info => "INF"
  | .warn => "WRN"
  | .error => "ERR"
  | .fatal => "FTL"

end Weight

/-- A value of an event. -/
inductive Detail where
  | text (t : Bytes)
  | count (n : Nat)
  | texts (l : List Bytes)
deriving DecidableEq, Repr

namespace Detail

/-- Whether a text is shown in quotes. -/
def needsQuotes (t : Bytes) : Bool :=
  t.any fun c => c ≤ 0x20 || 0x7E < c || c == 0x5C || c == 0x22

/-- A value as it is shown. -/
def render : Detail → Bytes
  | .text t =>
    let t := Utf8.sanitize t
    if needsQuotes t then quote t else t
  | .count n => Bytes.ofNat n
  | .texts l => "[" ++ Bytes.join "," (l.map (Json.writeString false)) ++ "]"

end Detail

/-- Something that is worth telling. -/
structure Event where
  weight : Weight
  message : Bytes
  /-- The values, by name. -/
  details : List (Bytes × Detail) := []
deriving DecidableEq, Repr

namespace Event

/-- The name of the value that says what has gone wrong; it is shown first. -/
def errorName : Bytes := "error"

/-- The order in which values are shown. -/
def shownBefore (a b : Bytes × Detail) : Bool :=
  a.1 == errorName || (b.1 != errorName && Bytes.le a.1 b.1)

/-- A named value, with a space in front. -/
def renderDetail (d : Bytes × Detail) : Bytes := " " ++ d.1 ++ "=" ++ d.2.render

/-- The line for an event. -/
def render (e : Event) : Bytes :=
  e.weight.tag ++ " " ++ Utf8.sanitize e.message
    ++ (e.details.mergeSort shownBefore).flatMap renderDetail ++ "\n"

end Event

/-! ## §2 How much is logged -/

/-- A level that cannot be used. -/
inductive LevelFault where
  | unknown (word : Bytes)
  | outOfBounds (n : Int)
deriving DecidableEq, Repr

/-- The message for a level that cannot be used. -/
def LevelFault.message : LevelFault → Bytes
  | .unknown word => "Unknown Level String: '" ++ word ++ "', defaulting to NoLevel"
  | .outOfBounds n => "Out-Of-Bounds Level: '" ++ Bytes.ofInt n ++ "', defaulting to NoLevel"

/-- The levels that have names. Events below the level are not logged; the level without a name is
above all events. -/
def levelNames : List (Bytes × Int) :=
  [("trace", -1), ("debug", 0), ("info", 1), ("warn", 2), ("error", 3), ("fatal", 4), ("panic", 5),
   ("", 6), ("disabled", 7)]

/-- The level of a name or a numeral. -/
def readLevel (word : Bytes) : Except LevelFault Int :=
  match levelNames.lookup word with
  | some n => .ok n
  | none =>
    let digits := if word.head? == some 0x2D || word.head? == some 0x2B then word.drop 1 else word
    let n : Int := Bytes.toNat 10 digits
    let n := if word.head? == some 0x2D then -n else n
    if digits.isEmpty || !digits.all Bytes.isDigit || !(-(2 ^ 63 : Int) ≤ n && n < 2 ^ 63) then
      .error (.unknown word)
    else if -128 ≤ n && n ≤ 127 then .ok n
    else .error (.outOfBounds n)

/-! ## §3 The console -/

/-- What has been printed, and the level of the log. -/
structure Console where
  level : Int := 2
  stdout : Bytes := []
  stderr : Bytes := []
deriving DecidableEq, Repr

/-- Where a reader of control sequences stands. -/
inductive SequenceState where
  | outside
  | escape
  | inside
deriving DecidableEq, Repr

/-- A text without the control sequences of terminals. -/
def plainFrom (s : SequenceState) : Bytes → Bytes
  | [] => []
  | c :: r => match s with
    | .outside => if c == 0x1B then plainFrom .escape r else c :: plainFrom .outside r
    | .escape => plainFrom (if c == 0x5B then .inside else .outside) r
    | .inside => plainFrom (if Bytes.isLetter c || c == 0x40 then .outside else .inside) r

namespace Console

/-- Prints a result. -/
def print (c : Console) (text : Bytes) : Console := { c with stdout := c.stdout ++ text }

/-- Prints to standard error, as it is. -/
def complain (c : Console) (text : Bytes) : Console := { c with stderr := c.stderr ++ text }

/-- Prints to standard error, without control sequences. -/
def tell (c : Console) (text : Bytes) : Console := c.complain (plainFrom .outside text)

/-- Logs an event, if it is important enough. -/
def log (c : Console) (e : Event) : Console :=
  if c.level ≤ e.weight.rank then c.tell e.render else c

end Console

end Idl.Command
