import Idl.Bytes

/-!
# Rows of values

Lists on the command line are records: values between commas, which may stand in double quotes. A
quote inside quotes is written twice. Only the first record of a text counts.

A table has a heading and rows, with rules above and below the heading and at the end. A column is
as wide as its widest cell. Headings are in capital letters and in the middle, numbers stand at the
right, and other cells at the left.

* §1 records of comma-separated values, §2 tables of text.
-/

namespace Idl

/-! ## §1 Records of comma-separated values -/

namespace Csv

/-- What is wrong with a record. -/
inductive Fault where
  /-- There is no record. -/
  | empty
  | bareQuote (line col : Nat)
  | strayQuote (line col : Nat)
deriving DecidableEq, Repr

/-- The message for a record that cannot be read. -/
def Fault.message : Fault → Bytes
  | .empty => "EOF"
  | .bareQuote line col => place line col ++ "bare \" in non-quoted field"
  | .strayQuote line col => place line col ++ "extraneous or missing \" in quoted-field"
where
  /-- Where the fault is. -/
  place (line col : Nat) : Bytes :=
    (if line == 1 then [] else Bytes.ofString "record on line 1; ")
      ++ "parse error on line " ++ Bytes.ofNat line ++ ", column " ++ Bytes.ofNat col ++ ": "

/-- Where a reader stands: before a value, in a plain value, in a quoted one, or after a quote in a
quoted one. -/
inductive Mode where
  | start
  | plain
  | quoted
  | afterQuote
deriving DecidableEq, Repr

/-- Reads values; `acc` holds the value so far, `done` those before it, both the last first. -/
def readFrom (mode : Mode) (line col : Nat) (acc : Bytes) (done : List Bytes) :
    Bytes → Except Fault (List Bytes)
  | [] => match mode with
    | .quoted => .error (.strayQuote line col)
    | _ => .ok (acc.reverse :: done).reverse
  | c :: r =>
    let ends : Bool := c == 0x0A || (c == 0x0D && (r.isEmpty || r.head? == some 0x0A))
    match mode with
    | .quoted =>
      if c == 0x22 then readFrom .afterQuote line (col + 1) acc done r
      else if c == 0x0A then readFrom .quoted (line + 1) 1 (c :: acc) done r
      else readFrom .quoted line (col + 1) (c :: acc) done r
    | .afterQuote =>
      if c == 0x22 then readFrom .quoted line (col + 1) (c :: acc) done r
      else if c == 0x2C then readFrom .start line (col + 1) [] (acc.reverse :: done) r
      else if ends then .ok (acc.reverse :: done).reverse
      else .error (.strayQuote line (col - 1))
    | _ =>
      if c == 0x22 then
        if mode == .start then readFrom .quoted line (col + 1) acc done r
        else .error (.bareQuote line col)
      else if c == 0x2C then readFrom .start line (col + 1) [] (acc.reverse :: done) r
      else if ends then .ok (acc.reverse :: done).reverse
      else readFrom .plain line (col + 1) (c :: acc) done r

/-- The values of the first record; empty lines before it do not count. -/
def readRecord (b : Bytes) : Except Fault (List Bytes) :=
  match b.dropWhile (fun c => c == 0x0A || c == 0x0D) with
  | [] => .error .empty
  | r => readFrom .start 1 1 [] [] r

end Csv

/-! ## §2 Tables of text -/

namespace Table

/-- Spaces. -/
def blanks (n : Nat) : Bytes := List.replicate n 0x20

/-- A text in the middle of a column; a space that cannot be shared goes to the right. -/
def centre (width : Nat) (t : Bytes) : Bytes :=
  let gap := width - t.length
  blanks (gap / 2) ++ t ++ blanks (gap - gap / 2)

/-- Whether a cell holds a number. -/
def isNumber (t : Bytes) : Bool := !t.isEmpty && t.all Bytes.isDigit

/-- A cell of a row. -/
def cell (width : Nat) (t : Bytes) : Bytes :=
  if isNumber t then blanks (width - t.length) ++ t else t ++ blanks (width - t.length)

/-- A text with a space on each side and a bar behind. -/
def boxed (t : Bytes) : Bytes := 0x20 :: (t ++ [0x20, 0x7C])

/-- A line of cells. -/
def line (write : Nat → Bytes → Bytes) (widths : List Nat) (cells : List Bytes) : Bytes :=
  "|" ++ (List.zipWith (fun w t => boxed (write w t)) widths cells).flatten ++ "\n"

/-- The part of a rule for a column. -/
def ruleOf (width : Nat) : Bytes := List.replicate (width + 2) 0x2D ++ [0x2B]

/-- A rule. -/
def rule (widths : List Nat) : Bytes := "+" ++ widths.flatMap ruleOf ++ "\n"

/-- The widths of the columns. -/
def widths (heading : List Bytes) (rows : List (List Bytes)) : List Nat :=
  rows.foldl (fun ws row => List.zipWith (fun w t => max w t.length) ws row)
    (heading.map List.length)

/-- The text of a table. -/
def render (heading : List Bytes) (rows : List (List Bytes)) : Bytes :=
  let ws := widths heading rows
  rule ws ++ line centre ws (heading.map Bytes.toUpper) ++ rule ws
    ++ rows.flatMap (line cell ws) ++ rule ws

end Table

end Idl
