import Idl.Json

/-!
# Reading JSON

Text is read piece by piece: a piece is a bracket, a sign, a literal, a number or a string. The
pieces drive a stack of open lists and objects. Reading ends with the first complete value, so that
what follows is left alone.
-/

namespace Idl.Json

/-! ## §1 Pieces -/

/-- The pieces of a JSON text. -/
inductive Piece where
  | openList
  | closeList
  | openObject
  | closeObject
  | comma
  | colon
  | scalar (v : Json)

/-- Blanks between pieces. -/
def isBlank (c : UInt8) : Bool := c == 0x20 || c == 0x09 || c == 0x0A || c == 0x0D

/-- The length of the string body at the front, counted from `n`, if it ends and has only
well-formed escapes and no control characters. -/
def stringEnd? (n : Nat) : (skip : Nat) → Bytes → Option Nat
  | _, [] => none
  | skip + 1, c :: r => if Bytes.isHexDigit c then stringEnd? (n + 1) skip r else none
  | 0, c :: r =>
    if c == 0x22 then some n
    else if c < 0x20 then none
    else if c == 0x5C then
      match r with
      | e :: r =>
        if e == 0x75 then stringEnd? (n + 2) 4 r
        else if [0x22, 0x5C, 0x2F, 0x62, 0x66, 0x6E, 0x72, 0x74].contains e then
          stringEnd? (n + 2) 0 r
        else none
      | [] => none
    else stringEnd? (n + 1) 0 r

/-- The octet of an escape of one letter. -/
def escapeOctet (c : UInt8) : UInt8 :=
  if c == 0x62 then 0x08
  else if c == 0x66 then 0x0C
  else if c == 0x6E then 0x0A
  else if c == 0x72 then 0x0D
  else if c == 0x74 then 0x09
  else c

/-- The number of a `\u` escape at the front. -/
def unitAt? (b : Bytes) : Option Nat :=
  match b with
  | 0x5C :: 0x75 :: r =>
    let digits := r.take 4
    if digits.length == 4 && digits.all Bytes.isHexDigit then some (Bytes.toNat 16 digits) else none
  | _ => none

/-- The character of a `\u` escape and the length of its text: two escapes make one character if
they are a pair, and half of a pair by itself is U+FFFD. -/
def unitChar (first : Nat) (rest : Bytes) : Char × Nat :=
  if 0xD800 ≤ first && first < 0xE000 then
    match unitAt? rest with
    | some second =>
      if first < 0xDC00 && 0xDC00 ≤ second && second < 0xE000 then
        (Char.ofNat (0x10000 + (first - 0xD800) * 0x400 + (second - 0xDC00)), 12)
      else (Char.ofNat 0xFFFD, 6)
    | none => (Char.ofNat 0xFFFD, 6)
  else (Char.ofNat first, 6)

/-- The octets that the body of a string denotes, onto `acc`; `skip` octets belong to the last
escape. Stray octets become U+FFFD. -/
def unescape (skip : Nat) (acc : Bytes) : Bytes → Bytes
  | [] => acc.reverse
  | c :: r =>
    match skip with
    | n + 1 => unescape n acc r
    | 0 =>
      if c == 0x5C then
        match unitAt? (c :: r) with
        | some u =>
          let (x, length) := unitChar u (r.drop 5)
          unescape (length - 1) ((Utf8.ofChar x).reverse ++ acc) r
        | none => unescape 1 (escapeOctet (r.headD 0x5C) :: acc) r
      else
        let (g, extra) := Utf8.first c r
        unescape extra ((Utf8.ofChar g.toChar).reverse ++ acc) r

/-- The length of a run of digits at the front. -/
def digitRun (b : Bytes) : Nat := (b.takeWhile Bytes.isDigit).length

/-- The length of the number at the front, if there is a complete one. -/
def numberEnd? (b : Bytes) : Option Nat := do
  let sign := if b.head? == some 0x2D then 1 else 0
  let whole := match b.drop sign with
    | 0x30 :: _ => 1
    | r => digitRun r
  if whole == 0 then none
  let length := sign + whole
  let length ← match b.drop length with
    | 0x2E :: r => if digitRun r == 0 then none else some (length + 1 + digitRun r)
    | _ => some length
  match b.drop length with
  | c :: r =>
    if c == 0x65 || c == 0x45 then
      let sign := if r.head? == some 0x2B || r.head? == some 0x2D then 1 else 0
      let digits := digitRun (r.drop sign)
      if digits == 0 then none else some (length + 1 + sign + digits)
    else some length
  | [] => some length

/-- The piece at the front of `c :: r` and how many octets of `r` it covers. -/
def pieceAt? (c : UInt8) (r : Bytes) : Option (Piece × Nat) :=
  let word (w : Bytes) (v : Json) : Option (Piece × Nat) :=
    if Bytes.startsWith (c :: r) w then some (.scalar v, w.length - 1) else none
  match c with
  | 0x5B => some (.openList, 0)
  | 0x5D => some (.closeList, 0)
  | 0x7B => some (.openObject, 0)
  | 0x7D => some (.closeObject, 0)
  | 0x2C => some (.comma, 0)
  | 0x3A => some (.colon, 0)
  | 0x22 => (stringEnd? 0 0 r).map fun n => (.scalar (.str (unescape 0 [] (r.take n))), n + 1)
  | 0x6E => word "null" .null
  | 0x74 => word "true" (.bool true)
  | 0x66 => word "false" (.bool false)
  | _ => (numberEnd? (c :: r)).map fun n => (.scalar (.num ((c :: r).take n)), n - 1)

/-! ## §2 Nesting -/

/-- A list or object that has been opened; its parts are last first. -/
inductive Frame where
  | list (items : List Json)
  | object (members : List (Bytes × Json)) (key : Bytes)

/-- What may come next. -/
inductive Expect where
  | value
  | valueOrClose
  | key
  | keyOrClose
  | colon
  | commaOrClose
deriving DecidableEq

/-- What is open, innermost first, and what may come next. -/
structure Reader where
  stack : List Frame
  expect : Expect

/-- The deepest nesting that is read. -/
def maxDepth : Nat := 10000

/-- The outcome of a piece: go on, or the value is complete. -/
inductive Progress where
  | more (r : Reader)
  | done (v : Json)

namespace Reader

/-- The reader before the first piece. -/
def start : Reader := ⟨[], .value⟩

/-- Puts a complete value where it belongs. -/
def put (stack : List Frame) (v : Json) : Progress :=
  match stack with
  | [] => .done v
  | .list items :: s => .more ⟨.list (v :: items) :: s, .commaOrClose⟩
  | .object members key :: s => .more ⟨.object ((key, v) :: members) [] :: s, .commaOrClose⟩

/-- Opens a list or an object. -/
def push (r : Reader) (f : Frame) (expect : Expect) : Option Progress :=
  if r.stack.length < maxDepth then some (.more ⟨f :: r.stack, expect⟩) else none

/-- Takes one piece in; none if it is out of place. -/
def step (r : Reader) (p : Piece) : Option Progress :=
  let wantsValue := r.expect == .value || r.expect == .valueOrClose
  let wantsKey := r.expect == .key || r.expect == .keyOrClose
  match p with
  | .openList => if wantsValue then r.push (.list []) .valueOrClose else none
  | .openObject => if wantsValue then r.push (.object [] []) .keyOrClose else none
  | .closeList =>
    match r.stack with
    | .list items :: s =>
      if r.expect == .valueOrClose || r.expect == .commaOrClose then
        some (put s (.arr items.reverse))
      else none
    | _ => none
  | .closeObject =>
    match r.stack with
    | .object members _ :: s =>
      if r.expect == .keyOrClose || r.expect == .commaOrClose then
        some (put s (.obj members.reverse))
      else none
    | _ => none
  | .comma =>
    if r.expect != .commaOrClose then none
    else match r.stack with
      | .list _ :: _ => some (.more { r with expect := .value })
      | .object _ _ :: _ => some (.more { r with expect := .key })
      | [] => none
  | .colon => if r.expect == .colon then some (.more { r with expect := .value }) else none
  | .scalar v =>
    if wantsValue then some (put r.stack v)
    else if wantsKey then
      match v, r.stack with
      | .str key, .object members _ :: s => some (.more ⟨.object members key :: s, .colon⟩)
      | _, _ => none
    else none

end Reader

/-- Reads pieces up to the end of the value; the result is the value and what follows it. `skip`
octets belong to the last piece. -/
def readFrom (skip : Nat) (r : Reader) : Bytes → Option (Json × Bytes)
  | [] => none
  | c :: rest =>
    match skip with
    | n + 1 => readFrom n r rest
    | 0 =>
      if isBlank c then readFrom 0 r rest
      else
        match pieceAt? c rest with
        | none => none
        | some (p, extra) =>
          match r.step p with
          | none => none
          | some (.done v) => some (v, rest.drop extra)
          | some (.more r) => readFrom extra r rest

/-- The first value of a text; none if the text does not begin with a complete one. -/
def readFirst? (b : Bytes) : Option Json := (readFrom 0 .start b).map (·.1)

/-- The value of a text that holds one value and nothing else. -/
def readWhole? (b : Bytes) : Option Json :=
  match readFrom 0 .start b with
  | some (v, rest) => if rest.all isBlank then some v else none
  | none => none

end Idl.Json
