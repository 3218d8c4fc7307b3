import Idl.Numeric.Reading
import Idl.Toml

/-!
# Reading TOML

A document is a sequence of lines: headings, which open a table, and keys with values, which go into
the table that was opened last. Each reader takes a text and gives what it has read and the rest.

* §1 blanks and comments, §2 strings, §3 numbers and other words, §4 keys,
* §5 values, §6 documents.
-/

namespace Idl.Toml

/-! ## §1 Blanks and comments -/

/-- Spaces and tabs. -/
def isBlank (c : UInt8) : Bool := c == 0x20 || c == 0x09

/-- Control characters, which may stand nowhere; tabs are no such characters. -/
def isControlOctet (c : UInt8) : Bool := (c < 0x20 && c != 0x09) || c == 0x7F

/-- The text after the blanks. -/
def skipBlanks (b : Bytes) : Bytes := b.dropWhile isBlank

/-- The text from the end of the line on, if there is nothing but a comment before it. -/
def skipComment? (b : Bytes) : Option Bytes :=
  match skipBlanks b with
  | 0x23 :: r =>
    let line := Bytes.trimEnd (r.takeWhile (· != 0x0A)) [0x0D]
    if line.any isControlOctet then none else some (r.drop line.length)
  | r => some r

/-- The text after the line break, if there is nothing but a comment before it. -/
def endLine? (b : Bytes) : Option Bytes := do
  match ← skipComment? b with
  | [] => some []
  | 0x0A :: r => some r
  | 0x0D :: 0x0A :: r => some r
  | _ => none

/-- The text from the first octet that is no blank, line break or comment. -/
def skipLines : (fuel : Nat) → Bytes → Option Bytes
  | 0, b => some b
  | fuel + 1, b => do
    match ← skipComment? b with
    | 0x0A :: r => skipLines fuel r
    | 0x0D :: 0x0A :: r => skipLines fuel r
    | r => some r

/-! ## §2 Strings -/

/-- The character of a number, if it has one. -/
def charOf? (digits : Bytes) (width : Nat) : Option Bytes :=
  let d := digits.take width
  let n := Bytes.toNat 16 d
  if d.length == width && d.all Bytes.isHexDigit && (n < 0xD800 || (0xDFFF < n && n < 0x110000))
  then some (Utf8.ofChar (Char.ofNat n)) else none

/-- What an escape stands for, and how many octets it has after the backslash. -/
def escape? : Bytes → Option (Bytes × Nat)
  | [] => none
  | c :: r =>
    match c with
    | 0x62 => some ([0x08], 1)
    | 0x74 => some ([0x09], 1)
    | 0x6E => some ([0x0A], 1)
    | 0x66 => some ([0x0C], 1)
    | 0x72 => some ([0x0D], 1)
    | 0x65 => some ([0x1B], 1)
    | 0x22 => some ([0x22], 1)
    | 0x5C => some ([0x5C], 1)
    | 0x78 => (charOf? r 2).map (·, 3)
    | 0x75 => (charOf? r 4).map (·, 5)
    | 0x55 => (charOf? r 8).map (·, 9)
    | _ => none

/-- A string in double quotes, from after the first. -/
def basic? (skip : Nat) (acc : Bytes) : Bytes → Option (Bytes × Bytes)
  | [] => none
  | c :: r =>
    match skip with
    | n + 1 => basic? n acc r
    | 0 =>
      if c == 0x22 then some (acc.reverse, r)
      else if c == 0x5C then
        match escape? r with
        | some (s, n) => basic? n (s.reverse ++ acc) r
        | none => none
      else if isControlOctet c then none
      else basic? 0 (c :: acc) r

/-- A string in single quotes, from after the first; there are no escapes. -/
def literal? (b : Bytes) : Option (Bytes × Bytes) :=
  let s := b.takeWhile (· != 0x27)
  match b.drop s.length with
  | _ :: r => if s.any isControlOctet then none else some (s, r)
  | [] => none

/-- The end of a string in tripled quotes: up to two quotes more belong to the string. -/
def tripleEnd? (q : UInt8) (b : Bytes) : Option (Bytes × Bytes) :=
  let n := (b.takeWhile (· == q)).length
  if n < 3 then none
  else
    let own := min (n - 3) 2
    some (List.replicate own q, b.drop (own + 3))

/-- Whether the rest of a line is blank. -/
def endsLine (b : Bytes) : Bool :=
  match skipBlanks b with
  | 0x0A :: _ => true
  | 0x0D :: 0x0A :: _ => true
  | _ => false

/-- A string of several lines, from after the first three quotes. A backslash at the end of a line
joins it with the next one; `joining` says that blanks and line breaks do not count. -/
def multiline? (escapes : Bool) (q : UInt8) (skip : Nat) (joining : Bool) (acc : Bytes) :
    Bytes → Option (Bytes × Bytes)
  | [] => none
  | c :: r =>
    match skip with
    | n + 1 => multiline? escapes q n joining acc r
    | 0 =>
      if joining && (isBlank c || c == 0x0A || c == 0x0D) then multiline? escapes q 0 true acc r
      else match (if c == q then tripleEnd? q (c :: r) else none) with
        | some (own, rest) => some (acc.reverse ++ own, rest)
        | none =>
          if escapes && c == 0x5C then
            if endsLine r then multiline? escapes q 0 true acc r
            else match escape? r with
              | some (s, n) => multiline? escapes q n false (s.reverse ++ acc) r
              | none => none
          else if isControlOctet c && c != 0x0A && c != 0x0D then none
          else multiline? escapes q 0 false (c :: acc) r

/-- The text after a line break, if it starts with one. -/
def dropBreak : Bytes → Bytes
  | 0x0A :: r => r
  | 0x0D :: 0x0A :: r => r
  | b => b

/-- A string of any form. -/
def string? (multi : Bool) : Bytes → Option (Bytes × Bytes)
  | 0x22 :: r =>
    match multi, r with
    | true, 0x22 :: 0x22 :: r => multiline? true 0x22 0 false [] (dropBreak r)
    | _, r => basic? 0 [] r
  | 0x27 :: r =>
    match multi, r with
    | true, 0x27 :: 0x27 :: r => multiline? false 0x27 0 false [] (dropBreak r)
    | _, r => literal? r
  | _ => none

/-! ## §3 Numbers and other words -/

/-- Digits without the underscores between them. -/
def joinDigits? (isDigit : UInt8 → Bool) (b : Bytes) : Option Bytes :=
  let pieces := Bytes.split 0x5F b
  if pieces.all fun p => !p.isEmpty && p.all isDigit then some pieces.flatten else none

/-- A whole number within 64 bits. -/
def fitted? (n : Int) : Option Toml :=
  if -(2 ^ 63 : Int) ≤ n && n < 2 ^ 63 then some (.int n) else none

/-- A whole number. -/
def int? (b : Bytes) : Option Toml :=
  let based (base : Nat) (isDigit : UInt8 → Bool) (r : Bytes) : Option Toml := do
    fitted? (Bytes.toNat base (← joinDigits? isDigit r))
  match b with
  | 0x30 :: 0x78 :: r => based 16 Bytes.isHexDigit r
  | 0x30 :: 0x6F :: r => based 8 Bytes.isOctDigit r
  | 0x30 :: 0x62 :: r => based 2 (fun c => c == 0x30 || c == 0x31) r
  | _ => do
    let (negative, r) := splitSign b
    let digits ← joinDigits? Bytes.isDigit r
    if digits.head? == some 0x30 && digits.length > 1 then none
    let n : Int := Bytes.toNat 10 digits
    fitted? (if negative then -n else n)

/-- A floating-point number. -/
def float? (b : Bytes) : Option Toml := do
  let (negative, r) := splitSign b
  if r == ("inf" : Bytes) then return .float (.infinity negative)
  if r == ("nan" : Bytes) then return .float .nan
  let isMark (c : UInt8) : Bool := c == 0x65 || c == 0x45
  let mantissa := r.takeWhile (!isMark ·)
  let power := (r.drop mantissa.length).drop 1
  let whole := mantissa.takeWhile (· != 0x2E)
  let fraction := (mantissa.drop whole.length).drop 1
  let digits ← joinDigits? Bytes.isDigit whole
  if digits.head? == some 0x30 && digits.length > 1 then none
  if mantissa.length != whole.length && (joinDigits? Bytes.isDigit fraction).isNone then none
  if mantissa.length != r.length && (joinDigits? Bytes.isDigit (splitSign power).2).isNone then none
  if mantissa.length == whole.length && mantissa.length == r.length then none
  return .float (← (readFloat (b.filter (· != 0x5F))).toOption)

/-- Whether a word has the form of a date or a time: two digits and a colon, or four and a hyphen.
-/
def isMoment (b : Bytes) : Bool :=
  let n := (b.takeWhile Bytes.isDigit).length
  (n == 2 && b[2]? == some 0x3A) || (n == 4 && b[4]? == some 0x2D)

/-- The value of a word. -/
def word? (b : Bytes) : Option Toml :=
  if b == ("true" : Bytes) then some (.bool true)
  else if b == ("false" : Bytes) then some (.bool false)
  else if isMoment b then some (.moment b)
  else int? b <|> float? b

/-- Whether an octet can be part of a word. -/
def isWordOctet (c : UInt8) : Bool :=
  Bytes.isWord c || c == 0x2B || c == 0x2D || c == 0x2E || c == 0x3A

/-- A word and the rest. A date may go on with a time after one space. -/
def readWord? (b : Bytes) : Option (Toml × Bytes) := do
  let t := b.takeWhile isWordOctet
  let rest := b.drop t.length
  match rest with
  | 0x20 :: r =>
    let u := r.takeWhile isWordOctet
    if t.length == 10 && isMoment t && isMoment u && u[2]? == some 0x3A then
      return (.moment (t ++ 0x20 :: u), r.drop u.length)
    else return (← word? t, rest)
  | _ => return (← word? t, rest)

/-! ## §4 Keys -/

/-- A simple key. -/
def simpleKey? (b : Bytes) : Option (Bytes × Bytes) :=
  match b with
  | [] => none
  | c :: _ =>
    if c == 0x22 || c == 0x27 then string? false b
    else
      let k := b.takeWhile isBareKeyOctet
      if k.isEmpty then none else some (k, b.drop k.length)

/-- A dotted key and the rest, without blanks in front. -/
def key? : (fuel : Nat) → Bytes → Option (List Bytes × Bytes)
  | 0, _ => none
  | fuel + 1, b => do
    let (k, r) ← simpleKey? (skipBlanks b)
    match skipBlanks r with
    | 0x2E :: r => do
      let (rest, r) ← key? fuel r
      return (k :: rest, r)
    | r => return ([k], r)

/-! ## §5 Values -/

mutual

/-- A value and the rest. -/
def value? : (fuel : Nat) → Bytes → Option (Toml × Bytes)
  | 0, _ => none
  | fuel + 1, b =>
    match b with
    | 0x5B :: r => (items? fuel r).map fun (l, r) => (.arr l, r)
    | 0x7B :: r =>
      match skipBlanks r with
      | 0x7D :: r => some (.table .inline [], r)
      | r => (members? fuel [] r).map fun (m, r) => (.table .inline m, r)
    | 0x22 :: _ => (string? true b).map fun (s, r) => (.str s, r)
    | 0x27 :: _ => (string? true b).map fun (s, r) => (.str s, r)
    | _ => readWord? b

/-- The items of a list, from after the opening bracket or a comma. -/
def items? : (fuel : Nat) → Bytes → Option (List Toml × Bytes)
  | 0, _ => none
  | fuel + 1, b => do
    match ← skipLines b.length b with
    | 0x5D :: r => return ([], r)
    | r =>
      let (v, r) ← value? fuel r
      match ← skipLines r.length r with
      | 0x5D :: r => return ([v], r)
      | 0x2C :: r =>
        let (l, r) ← items? fuel r
        return (v :: l, r)
      | _ => none

/-- The members of a table between braces, from after the opening brace or a comma. -/
def members? : (fuel : Nat) → Members → Bytes → Option (Members × Bytes)
  | 0, _, _ => none
  | fuel + 1, m, b => do
    match ← key? (b.length + 1) b with
    | (k, 0x3D :: r) =>
      let (v, r) ← value? fuel (skipBlanks r)
      let m ← assign v k m
      match skipBlanks r with
      | 0x7D :: r => return (m, r)
      | 0x2C :: r => members? fuel m r
      | _ => none
    | _ => none

end

/-! ## §6 Documents -/

/-- A line of a document. -/
inductive Line where
  | heading (repeated : Bool) (path : List Bytes)
  | setting (key : List Bytes) (v : Toml)
deriving Repr

/-- A line and the rest. -/
def line? (b : Bytes) : Option (Line × Bytes) := do
  match b with
  | 0x5B :: 0x5B :: r =>
    match ← key? (r.length + 1) r with
    | (path, 0x5D :: 0x5D :: r) => return (.heading true path, ← endLine? r)
    | _ => none
  | 0x5B :: r =>
    match ← key? (r.length + 1) r with
    | (path, 0x5D :: r) => return (.heading false path, ← endLine? r)
    | _ => none
  | _ =>
    match ← key? (b.length + 1) b with
    | (k, 0x3D :: r) =>
      let (v, r) ← value? (r.length + 1) (skipBlanks r)
      return (.setting k v, ← endLine? r)
    | _ => none

/-- All lines of a document. -/
def lines? : (fuel : Nat) → Bytes → Option (List Line)
  | 0, _ => none
  | fuel + 1, b => do
    match ← skipLines b.length b with
    | [] => return []
    | r =>
      let (l, r) ← line? (skipBlanks r)
      return l :: (← lines? fuel r)

/-- A document that is being put together: the heading that was opened last, and all tables. -/
structure Draft where
  current : List Bytes := []
  members : Members := []

/-- Adds a line. -/
def Draft.add (d : Draft) : Line → Option Draft
  | .heading repeated path => do return ⟨path, ← openTable repeated path d.members⟩
  | .setting key v => do return { d with members := ← change (assign v key) d.current d.members }

/-- The mark that may stand in front of a text. -/
def byteOrderMark : Bytes := [0xEF, 0xBB, 0xBF]

/-- Reads a document. -/
def read? (text : Bytes) : Option Members := do
  let b := Bytes.trimStart text byteOrderMark
  if !Utf8.isValid b then none
  let lines ← lines? (b.length + 1) b
  let d ← lines.foldlM Draft.add {}
  return d.members

end Idl.Toml
